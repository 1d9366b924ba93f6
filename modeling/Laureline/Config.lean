import Laureline.Lib.Bytes

/-!
# The configuration

`snumv2_t` and `cfgv2_t` of `eeprom.h`: packed structures, so a member begins where the one
before it ends. `ip_addr_t` is four bytes long and `ip6_addr_t` sixteen. A value of the
structure is the list of its bytes; members are read and written by offset.
-/

namespace Laureline

/-- The members of `cfgv2_t`. -/
inductive CfgMember
  | version
  | ipAddr
  | ipGateway
  | ipNetmask
  | gpsBaudRate
  | adminKey
  | gpsListenPort
  | syslogIp
  | flags
  | ipManycast
  | ntpKey
  | holdover
  | ip6Manycast
  | loopstatsInterval
  | reserved
  | crc
deriving DecidableEq, Repr

namespace CfgMember

/-- In the order of the declaration. -/
def all : List CfgMember :=
  [.version, .ipAddr, .ipGateway, .ipNetmask, .gpsBaudRate, .adminKey, .gpsListenPort, .syslogIp,
    .flags, .ipManycast, .ntpKey, .holdover, .ip6Manycast, .loopstatsInterval, .reserved, .crc]

/-- `sizeof` of a member. -/
def size : CfgMember → ℕ
  | .version | .gpsListenPort | .loopstatsInterval | .crc => 2
  | .ipAddr | .ipGateway | .ipNetmask | .gpsBaudRate | .syslogIp | .flags | .ipManycast
  | .holdover => 4
  | .adminKey => 8
  | .ip6Manycast => 16
  | .ntpKey => 20
  | .reserved => 36

/-- `offsetof` a member. -/
def offset (m : CfgMember) : ℕ := ((all.takeWhile (· ≠ m)).map size).sum

end CfgMember

/-- `sizeof(snumv2_t)`, `EEPROM_CFG_OFFSET`. -/
def snumSize : ℕ := 8

/-- `CFG_SIZE`. -/
def cfgSize : ℕ := 120

/-- The size is that of the members. -/
theorem cfgSize_eq : (CfgMember.all.map CfgMember.size).sum = cfgSize := by decide

/-- The checksum is the last member. -/
theorem offset_crc : CfgMember.crc.offset = cfgSize - 2 := by decide

/-- A value of `cfgv2_t`. -/
structure Cfg where
  bytes : List UInt8
  length_bytes : bytes.length = cfgSize

namespace Cfg

/-- The bytes of an object in the structure. -/
def load (c : Cfg) (off n : ℕ) : List UInt8 := Bytes.slice off n c.bytes

/-- Bytes stored over an object in the structure. -/
def store (c : Cfg) (off : ℕ) (xs : List UInt8) : Cfg where
  bytes := Bytes.store c.bytes off xs
  length_bytes := by rw [Bytes.length_store, c.length_bytes]

/-- A structure of equal bytes. -/
def fill (b : UInt8) : Cfg := ⟨List.replicate cfgSize b, List.length_replicate⟩

theorem ext {c c' : Cfg} (h : c.bytes = c'.bytes) : c = c' := by
  cases c; cases c'; congr

theorem length_load {c : Cfg} {off n : ℕ} (h : off + n ≤ cfgSize) : (c.load off n).length = n := by
  rw [load, Bytes.length_slice, c.length_bytes]
  omega

theorem load_store_self {c : Cfg} {off n : ℕ} {xs : List UInt8} (hn : xs.length = n)
    (h : off + n ≤ cfgSize) : (c.store off xs).load off n = xs :=
  Bytes.slice_store_self hn (by rw [c.length_bytes]; exact h)

theorem load_store_of_disjoint {c : Cfg} {o n off : ℕ} {xs : List UInt8}
    (h : o + n ≤ off ∨ off + xs.length ≤ o) : (c.store off xs).load o n = c.load o n :=
  Bytes.slice_store_of_disjoint h

end Cfg

end Laureline
