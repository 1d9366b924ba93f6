import Laureline.Cmdline.Core
import Laureline.Config
import Laureline.Lib.Digits

/-!
# Settings

`cmdline/settings.c` with the table of `cmdline.c`. A setting is an object in the configuration,
given by its offset; `cliPrintVar` prints what it holds, and `cliSetVar` stores what a text says.
Texts are the bytes before the NUL. `htonl` of the network stack swaps the bytes, as the CPU is
little-endian.

The loops over the text are definitions of their own (`ip4Text`, `ip6Text`, `hexText`), with
their narrow variables: 8 bits for an octet, 16 for a group of an IPv6 address.
-/

namespace Laureline
namespace Cmdline

open Bytes

/-! ### Formats -/

/-- The character of a digit. -/
def digitChar (d : ℕ) : UInt8 := UInt8.ofNat (if d < 10 then 0x30 + d else 0x61 + (d - 10))

/-- `%u`. -/
def fmtU (n : ℕ) : List UInt8 := (Digits.digitsBe 10 n).map digitChar

/-- `%x`. -/
def fmtX (n : ℕ) : List UInt8 := (Digits.digitsBe 16 n).map digitChar

/-- `%02x`. -/
def fmt02x (n : ℕ) : List UInt8 := List.replicate (2 - (fmtX n).length) 0x30 ++ fmtX n

/-- `serial_printf`: its buffer has 64 bytes, the last of which takes a NUL. -/
def cliPrintf (text : List UInt8) : List UInt8 :=
  if text.length < 64 then text else text.take 63 ++ [0]

/-- `htonl`. -/
def htonl (x : ℕ) : ℕ := ofBe (le 4 x)

/-- `IP6_ADDR_BLOCK1` to `IP6_ADDR_BLOCK8`, of the four words of an address. -/
def ip6AddrBlocks (addr : List ℕ) : List ℕ :=
  addr.flatMap fun word => [htonl word >>> 16 &&& 0xFFFF, htonl word &&& 0xFFFF]

/-- Texts with a separator between them. -/
def sepBy (sep : UInt8) : List (List UInt8) → List UInt8
  | [] => []
  | [t] => t
  | t :: ts => t ++ sep :: sepBy sep ts

/-! ### The table -/

/-- `vartype_e`. -/
inductive VarType
  | uint32
  | uint16
  | ip4
  | ip6
  | hex
  | flag
deriving DecidableEq, Repr

/-- `clivalue_t`. All objects lie in `cfg`. -/
structure CliValue where
  name : List UInt8
  type : VarType
  ptr : CfgMember
  len : ℕ
deriving DecidableEq

/-- `FLAG_PPSEN`. -/
def flagPpsen : ℕ := 1 <<< 0

/-- `FLAG_GPSEXT`. -/
def flagGpsext : ℕ := 1 <<< 1

/-- `FLAG_GPSOUT`. -/
def flagGpsout : ℕ := 1 <<< 2

/-- `FLAG_NTPKEY_MD5`. -/
def flagNtpkeyMd5 : ℕ := 1 <<< 3

/-- `FLAG_NTPKEY_SHA1`. -/
def flagNtpkeySha1 : ℕ := 1 <<< 4

/-- `FLAG_HOLDOVER_TEST`. -/
def flagHoldoverTest : ℕ := 1 <<< 5

/-- `FLAG_TIMESCALE_GPS`. -/
def flagTimescaleGps : ℕ := 1 <<< 6

/-- `value_table`. -/
def valueTable : List CliValue :=
  [⟨ascii "gps_baud_rate", .uint32, .gpsBaudRate, 0⟩,
    ⟨ascii "gps_ext_in", .flag, .flags, flagGpsext⟩,
    ⟨ascii "gps_ext_out", .flag, .flags, flagGpsout⟩,
    ⟨ascii "gps_listen_port", .uint16, .gpsListenPort, 0⟩,
    ⟨ascii "holdover_test", .flag, .flags, flagHoldoverTest⟩,
    ⟨ascii "holdover_time", .uint32, .holdover, 0⟩,
    ⟨ascii "ip6_manycast", .ip6, .ip6Manycast, 0⟩,
    ⟨ascii "ip_addr", .ip4, .ipAddr, 0⟩,
    ⟨ascii "ip_gateway", .ip4, .ipGateway, 0⟩,
    ⟨ascii "ip_manycast", .ip4, .ipManycast, 0⟩,
    ⟨ascii "ip_netmask", .ip4, .ipNetmask, 0⟩,
    ⟨ascii "loopstats_interval", .uint16, .loopstatsInterval, 0⟩,
    ⟨ascii "ntp_key_is_md5", .flag, .flags, flagNtpkeyMd5⟩,
    ⟨ascii "ntp_key_is_sha1", .flag, .flags, flagNtpkeySha1⟩,
    ⟨ascii "ntp_key", .hex, .ntpKey, 20⟩,
    ⟨ascii "pps_out", .flag, .flags, flagPpsen⟩,
    ⟨ascii "syslog_ip", .ip4, .syslogIp, 0⟩,
    ⟨ascii "timescale_gps", .flag, .flags, flagTimescaleGps⟩]

/-- The value of a 32-bit object. -/
def load32 (c : Cfg) (off : ℕ) : ℕ := ofLe (c.load off 4)

/-- `cliPrintVar`. -/
def cliPrintVar (var : CliValue) (c : Cfg) : List UInt8 :=
  let off := var.ptr.offset
  match var.type with
  | .uint32 => cliPrintf (fmtU (load32 c off))
  | .uint16 => cliPrintf (fmtU (ofLe (c.load off 2)))
  | .ip4 =>
    let addr := load32 c off
    cliPrintf (sepBy 0x2E
      [fmtU (addr &&& 0xFF), fmtU (addr >>> 8 &&& 0xFF), fmtU (addr >>> 16 &&& 0xFF),
        fmtU (addr >>> 24 &&& 0xFF)])
  | .ip6 =>
    let addr := [load32 c off, load32 c (off + 4), load32 c (off + 8), load32 c (off + 12)]
    cliPrintf (sepBy 0x3A ((ip6AddrBlocks addr).map fmtX))
  | .hex => (c.load off var.len).flatMap fun b => cliPrintf (fmt02x b.toNat)
  | .flag => if load32 c off &&& var.len ≠ 0 then ascii "true" else ascii "false"

/-! ### Setting a value -/

/-- The loop for IPv4 addresses: `val` and `val2`. -/
def ip4Text (val val2 : ℕ) : List UInt8 → ℕ × ℕ
  | [] => (val, val2)
  | c :: str =>
    if c = 0x2E then ip4Text ((val <<< 8 ||| val2) % 2 ^ 32) 0 str
    else if isDigit c then ip4Text val ((val2 * 10 + (c - 0x30).toNat) % 2 ^ 8) str
    else ip4Text val val2 str

/-- The loop for IPv6 addresses: `words`. -/
def ip6Text (i : ℕ) (words : List ℕ) : List UInt8 → List ℕ
  | [] => words
  | c :: str =>
    if c = 0x3A then
      if i + 1 = 8 then words else ip6Text (i + 1) words str
    else
      ip6Text i
        (words.modify i fun word => (word <<< 4 ||| (parseHex c).toNat) % 2 ^ 16) str

/-- The loop for bytes, with the zeroes behind them. -/
def hexText : ℕ → List UInt8 → List UInt8
  | 0, _ => []
  | n + 1, hi :: lo :: str => (parseHex hi <<< 4 ||| parseHex lo) :: hexText n str
  | n + 1, _ => List.replicate (n + 1) 0

/-- What `cliSetVar` does to the value of a 32-bit object with a flag. -/
def flagText (val : BitVec 32) (len : ℕ) (str : List UInt8) : BitVec 32 :=
  if str[0]? = some 0x74 ∨ str[0]? = some 0x79 ∨ (str[0]? = some 0x6F ∧ str[1]? = some 0x6E) then
    val ||| BitVec.ofNat 32 len
  else if str[0]? = some 0x66 ∨ str[0]? = some 0x6E ∨
      (str[0]? = some 0x6F ∧ str[1]? = some 0x66) then
    val &&& ~~~ BitVec.ofNat 32 len
  else val

/-- `cliSetVar`. -/
def cliSetVar (var : CliValue) (str : List UInt8) (c : Cfg) : Cfg :=
  let off := var.ptr.offset
  match var.type with
  | .uint32 => c.store off (le 4 (atoiDecimal str))
  | .uint16 => c.store off (le 2 (atoiDecimal str))
  | .ip4 =>
    let (val, val2) := ip4Text 0 0 str
    c.store off (le 4 (htonl ((val <<< 8 ||| val2) % 2 ^ 32)))
  | .ip6 =>
    let words := ip6Text 0 (List.replicate 8 0) str
    let packed (k : ℕ) : ℕ := htonl (words.getD (2 * k + 1) 0 ||| words.getD (2 * k) 0 <<< 16)
    c.store off (le 4 (packed 0) ++ le 4 (packed 1) ++ le 4 (packed 2) ++ le 4 (packed 3))
  | .hex => c.store off (hexText var.len str)
  | .flag => c.store off (le 4 (flagText (BitVec.ofNat 32 (load32 c off)) var.len str).toNat)

end Cmdline
end Laureline
