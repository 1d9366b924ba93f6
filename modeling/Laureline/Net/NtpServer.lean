import Laureline.Lib.Bytes
import Laureline.Lib.CInt
import Laureline.Vtimer.Thread

/-!
# The NTP server

`ntp_recv` of `ntpserver.c` builds the reply in place over the request. The payload of
the packet is the list of its bytes, in one buffer; the members of `struct ntp_msg` are
given by their offsets. The two digests are parameters (`Digests`): functions of the
bytes they are given, with results of 20 and 16 bytes.

`ntpRecv_spec` says which requests are answered, how long the reply is, when it is
authenticated, and what it says.
-/

namespace Laureline

namespace NtpServer

open Bytes

/-! ### Configuration -/

/-- The digests of `crypto/sha.h` and `crypto/md5.h`, as functions of all the bytes given
to `…_Update`. -/
structure Digests where
  sha1 : List UInt8 → List UInt8
  length_sha1 : ∀ m, (sha1 m).length = 20
  md5 : List UInt8 → List UInt8
  length_md5 : ∀ m, (md5 m).length = 16

/-- The members of `cfg` that `ntp_recv` reads. -/
structure Cfg where
  flags : ℕ
  ntpKey : List UInt8
  length_ntpKey : ntpKey.length = 20

/-- `FLAG_NTPKEY_MD5`. -/
def flagNtpkeyMd5 : ℕ := 1 <<< 3

/-- `FLAG_NTPKEY_SHA1`. -/
def flagNtpkeySha1 : ℕ := 1 <<< 4

/-- `cfg.flags & FLAG_NTPKEY_SHA1`. -/
def Cfg.sha1 (cfg : Cfg) : Bool := cfg.flags &&& flagNtpkeySha1 != 0

/-- `cfg.flags & FLAG_NTPKEY_MD5`. -/
def Cfg.md5 (cfg : Cfg) : Bool := cfg.flags &&& flagNtpkeyMd5 != 0

/-! ### `struct ntp_msg` -/

/-- `MODE_MASK`. -/
def modeMask : UInt8 := 0x07

/-- `MODE_CLIENT`. -/
def modeClient : UInt8 := 0x3

/-- `MODE_SERVER`. -/
def modeServer : UInt8 := 0x4

/-- `VN_4`. -/
def vn4 : UInt8 := (4 : UInt8) <<< (3 : UInt8)

/-- `LEAP_NONE`. -/
def leapNone : UInt8 := 0x0

/-- `(msg->mode & MODE_MASK) == MODE_CLIENT`. -/
def isClient (msg : List UInt8) : Bool := msg.headD 0 &&& modeMask == modeClient

/-- `msg->key_id`. -/
def keyId (msg : List UInt8) : List UInt8 := slice 48 4 msg

/-- The first 48 bytes of `msg`, which the digest covers. -/
def header (msg : List UInt8) : List UInt8 := slice 0 48 msg

/-- `msg->rx_ts` as a number. -/
def rxTs (msg : List UInt8) : ℕ := ofBe (slice 32 8 msg)

/-- `msg->tx_ts` as a number. -/
def txTs (msg : List UInt8) : ℕ := ofBe (slice 40 8 msg)

/-! ### `ntp_recv` -/

section Reply

variable (H : Digests) (cfg : Cfg)

/-- The SHA-1 digest of the key and the first 48 bytes. -/
def sha1Of (msg : List UInt8) : List UInt8 := H.sha1 (cfg.ntpKey ++ header msg)

/-- The MD5 digest of the key and the first 48 bytes. -/
def md5Of (msg : List UInt8) : List UInt8 := H.md5 (cfg.ntpKey ++ header msg)

/-- `out_size`: the length of the reply. -/
def outSize (p : List UInt8) : ℕ :=
  if p.length = 72 ∧ cfg.sha1 then
    if sha1Of H cfg p = slice 52 20 p then 72 else 48
  else if p.length = 68 ∧ cfg.md5 then
    if md5Of H cfg p = slice 52 16 p then 68 else 48
  else 48

/-- The added time of the transmission, in units of 2⁻³² s. -/
def txOffset : ℕ := 73959

/-- The timestamp at `off`, as two words. -/
def storeTs (msg : List UInt8) (off now : ℕ) : List UInt8 :=
  store (store msg off (be32 (now / 2 ^ 32))) (off + 4) (be32 now)

/-- `if (msg->poll < 6) msg->poll = 6;` -/
def raisePoll (msg : List UInt8) : List UInt8 :=
  if (slice 2 1 msg).headD 0 < 6 then store msg 2 [6] else msg

/-- The assignments up to `ref_id`. -/
def fillFixed (status : Thread.Status) (msg : List UInt8) : List UInt8 :=
  let msg := store msg 0 [leapNone ||| vn4 ||| modeServer]
  let msg := store msg 1 [if status.ready then 1 else 16]
  let msg := raisePoll msg
  let msg := store msg 3 [-24]
  let msg := store msg 4 (be32 0)
  let msg := store msg 8 (be32 0)
  store msg 12 (be32 0x47505300)

/-- The assignments to the timestamps. -/
def fillTimes (now : ℕ) (msg : List UInt8) : List UInt8 :=
  -- copy transmit to origin
  let msg := store msg 24 (slice 40 4 msg)
  let msg := store msg 28 (slice 44 4 msg)
  let msg := storeTs msg 32 now
  let msg := storeTs msg 16 now
  storeTs msg 40 (u64 (now + txOffset))

/-- The digest of the reply. -/
def sign (outSize : ℕ) (msg : List UInt8) : List UInt8 :=
  if outSize = 72 then store msg 52 (sha1Of H cfg msg)
  else if outSize = 68 then store msg 52 (md5Of H cfg msg)
  else msg

/-- `ntp_recv`: the payload of the reply, if there is one. `status` and `now` are the
values read from `status_flags` and `vtimer_now`. -/
def ntpRecv (status : Thread.Status) (now : ℕ) (p : List UInt8) : Option (List UInt8) :=
  if p.length < 48 ∨ !isClient p then none
  else
    let n := outSize H cfg p
    -- `pbuf_realloc`
    let msg := p.take n
    some (sign H cfg n (fillTimes now (fillFixed status msg)))

/-! ### The parts of the reply -/

/-- The reply is as long as the request, or 48 bytes. -/
theorem outSize_le {p : List UInt8} (h : 48 ≤ p.length) : outSize H cfg p ≤ p.length := by
  unfold outSize
  split_ifs <;> omega

theorem outSize_cases (p : List UInt8) :
    outSize H cfg p = 48 ∨ outSize H cfg p = 68 ∨ outSize H cfg p = 72 := by
  unfold outSize
  split_ifs <;> simp

/-- 72 bytes are sent exactly for a request that the SHA-1 key signed. -/
theorem outSize_eq_72 (p : List UInt8) :
    outSize H cfg p = 72 ↔
      p.length = 72 ∧ cfg.sha1 = true ∧ slice 52 20 p = sha1Of H cfg p := by
  unfold outSize
  split_ifs with h_sha h_eq h_md5 h_eq
  · exact ⟨fun _ => ⟨h_sha.1, h_sha.2, h_eq.symm⟩, fun _ => rfl⟩
  · simp [Ne.symm h_eq]
  · simp [h_md5.1]
  · simp [h_md5.1]
  · constructor
    · intro h
      omega
    · rintro ⟨h_len, h_flag, -⟩
      exact absurd ⟨h_len, h_flag⟩ h_sha

/-- 68 bytes are sent exactly for a request that the MD5 key signed. -/
theorem outSize_eq_68 (p : List UInt8) :
    outSize H cfg p = 68 ↔
      p.length = 68 ∧ cfg.md5 = true ∧ slice 52 16 p = md5Of H cfg p := by
  unfold outSize
  split_ifs with h_sha h_eq h_md5 h_eq
  · simp [h_sha.1]
  · simp [h_sha.1]
  · exact ⟨fun _ => ⟨h_md5.1, h_md5.2, h_eq.symm⟩, fun _ => rfl⟩
  · simp [Ne.symm h_eq]
  · constructor
    · intro h
      omega
    · rintro ⟨h_len, h_flag, -⟩
      exact absurd ⟨h_len, h_flag⟩ h_md5

@[simp] theorem length_storeTs (msg : List UInt8) (off now : ℕ) :
    (storeTs msg off now).length = msg.length := by
  rw [storeTs, length_store, length_store]

theorem slice_storeTs_of_disjoint {msg : List UInt8} {o n off now : ℕ}
    (h : o + n ≤ off ∨ off + 8 ≤ o) :
    slice o n (storeTs msg off now) = slice o n msg := by
  rw [storeTs, slice_store_of_disjoint (by rw [length_be32]; omega),
    slice_store_of_disjoint (by rw [length_be32]; omega)]

/-- A stored timestamp is read back modulo 2⁶⁴. -/
theorem ofBe_slice_storeTs {msg : List UInt8} {off now : ℕ} (h : off + 8 ≤ msg.length) :
    ofBe (slice off 8 (storeTs msg off now)) = now % 2 ^ 64 := by
  have h_high : slice off 4 (storeTs msg off now) = be32 (now / 2 ^ 32) := by
    rw [storeTs, slice_store_of_disjoint (by omega),
      slice_store_self (length_be32 _) (by omega)]
  have h_low : slice (off + 4) 4 (storeTs msg off now) = be32 now := by
    rw [storeTs, slice_store_self (length_be32 _) (by rw [length_store]; omega)]
  rw [show (8 : ℕ) = 4 + 4 from rfl, ← slice_append_slice, h_high, h_low, ofBe_append,
    ofBe_be32, ofBe_be32, length_be32]
  omega

variable (status : Thread.Status) (now : ℕ) (msg : List UInt8)

@[simp] theorem length_raisePoll : (raisePoll msg).length = msg.length := by
  unfold raisePoll
  split
  · exact length_store _ _ _
  · rfl

theorem slice_raisePoll_of_disjoint {o n : ℕ} (h : o + n ≤ 2 ∨ 3 ≤ o) :
    slice o n (raisePoll msg) = slice o n msg := by
  unfold raisePoll
  split
  · exact slice_store_of_disjoint (by simpa using h)
  · rfl

@[simp] theorem length_fillFixed : (fillFixed status msg).length = msg.length := by
  simp only [fillFixed, length_store, length_raisePoll]

@[simp] theorem length_fillTimes : (fillTimes now msg).length = msg.length := by
  simp only [fillTimes, length_storeTs, length_store]

/-- The timestamps and what follows are left alone at first. -/
theorem slice_fillFixed_of_ge {o : ℕ} (h : 16 ≤ o) (n : ℕ) :
    slice o n (fillFixed status msg) = slice o n msg := by
  simp only [fillFixed]
  rw [slice_store_of_disjoint (by simp; omega), slice_store_of_disjoint (by simp; omega),
    slice_store_of_disjoint (by simp; omega), slice_store_of_disjoint (by simp; omega),
    slice_raisePoll_of_disjoint _ (by omega), slice_store_of_disjoint (by simp; omega),
    slice_store_of_disjoint (by simp; omega)]

/-- Nothing is written behind the first 48 bytes. -/
theorem slice_fillTimes_of_ge {o : ℕ} (h : 48 ≤ o) (n : ℕ) :
    slice o n (fillTimes now msg) = slice o n msg := by
  simp only [fillTimes]
  rw [slice_storeTs_of_disjoint (by omega), slice_storeTs_of_disjoint (by omega),
    slice_storeTs_of_disjoint (by omega),
    slice_store_of_disjoint (by rw [length_slice]; omega),
    slice_store_of_disjoint (by rw [length_slice]; omega)]

variable {msg}

/-- `stratum` as it is sent. -/
theorem stratum_fillTimes (h : 48 ≤ msg.length) :
    slice 1 1 (fillTimes now (fillFixed status msg)) = [if status.ready then 1 else 16] := by
  simp only [fillTimes]
  rw [slice_storeTs_of_disjoint (by omega), slice_storeTs_of_disjoint (by omega),
    slice_storeTs_of_disjoint (by omega), slice_store_of_disjoint (by omega),
    slice_store_of_disjoint (by omega)]
  simp only [fillFixed]
  rw [slice_store_of_disjoint (by omega), slice_store_of_disjoint (by omega),
    slice_store_of_disjoint (by omega), slice_store_of_disjoint (by omega),
    slice_raisePoll_of_disjoint _ (by omega)]
  exact slice_store_self rfl (by rw [length_store]; omega)

/-- The origin timestamp is the transmit timestamp of the request. -/
theorem origin_fillTimes (h : 48 ≤ msg.length) :
    slice 24 8 (fillTimes now msg) = slice 40 8 msg := by
  have h_len (o : ℕ) (ho : o + 4 ≤ 48) : (slice o 4 msg).length = 4 := by
    rw [length_slice]
    omega
  simp only [fillTimes]
  rw [slice_storeTs_of_disjoint (by omega), slice_storeTs_of_disjoint (by omega),
    slice_storeTs_of_disjoint (by omega)]
  -- the second word is copied from a message whose first word is already replaced
  rw [slice_store_of_disjoint (o := 44) (by rw [h_len 40 (by omega)]; omega)]
  rw [show (8 : ℕ) = 4 + 4 from rfl, ← slice_append_slice, ← slice_append_slice 40,
    slice_store_of_disjoint (by omega), slice_store_self (h_len 40 (by omega)) (by omega),
    slice_store_self (h_len 44 (by omega)) (by rw [length_store]; omega)]

theorem rxTs_fillTimes (h : 48 ≤ msg.length) : rxTs (fillTimes now msg) = now % 2 ^ 64 := by
  simp only [rxTs, fillTimes]
  rw [slice_storeTs_of_disjoint (by omega), slice_storeTs_of_disjoint (by omega),
    ofBe_slice_storeTs (by simp only [length_store]; omega)]

theorem txTs_fillTimes (h : 48 ≤ msg.length) :
    txTs (fillTimes now msg) = (now + txOffset) % 2 ^ 64 := by
  simp only [txTs, fillTimes]
  rw [ofBe_slice_storeTs (by simp only [length_storeTs, length_store]; omega)]
  unfold u64
  omega

/-! ### The digest of the reply -/

variable {H cfg}

@[simp] theorem length_sign (n : ℕ) (msg : List UInt8) :
    (sign H cfg n msg).length = msg.length := by
  unfold sign
  split_ifs <;> simp only [length_store]

/-- The first 52 bytes are not changed by the signature. -/
theorem slice_sign {o k : ℕ} (h : o + k ≤ 52) (n : ℕ) (msg : List UInt8) :
    slice o k (sign H cfg n msg) = slice o k msg := by
  unfold sign
  split_ifs
  · exact slice_store_of_disjoint (.inl h)
  · exact slice_store_of_disjoint (.inl h)
  · rfl

/-- The digest is valid for the reply as it is sent. -/
theorem sha1_sign {msg : List UInt8} (h : msg.length = 72) :
    slice 52 20 (sign H cfg 72 msg) = sha1Of H cfg (sign H cfg 72 msg) := by
  have h_header : header (sign H cfg 72 msg) = header msg := slice_sign (by omega) 72 msg
  rw [sha1Of, h_header, sign, if_pos rfl]
  exact slice_store_self (H.length_sha1 _) (by omega)

theorem md5_sign {msg : List UInt8} (h : msg.length = 68) :
    slice 52 16 (sign H cfg 68 msg) = md5Of H cfg (sign H cfg 68 msg) := by
  have h_header : header (sign H cfg 68 msg) = header msg := slice_sign (by omega) 68 msg
  rw [md5Of, h_header, sign, if_neg (by omega), if_pos rfl]
  exact slice_store_self (H.length_md5 _) (by omega)

end Reply

/-! ### The reply -/

/-- What `ntp_recv` answers, in terms of its parts. -/
theorem ntpRecv_eq_some {H : Digests} {cfg : Cfg} {status : Thread.Status} {now : ℕ}
    {p r : List UInt8} (h : ntpRecv H cfg status now p = some r) :
    48 ≤ p.length ∧ r = sign H cfg (outSize H cfg p)
      (fillTimes now (fillFixed status (p.take (outSize H cfg p)))) := by
  unfold ntpRecv at h
  split_ifs at h with h_drop
  have h_len : 48 ≤ p.length := by
    by_contra h_short
    exact h_drop (.inl (by omega))
  exact ⟨h_len, (Option.some.inj h).symm⟩

/-- **The server.** It answers exactly the client requests of at least 48 bytes. A reply is
never longer than its request, and it is authenticated exactly if the request was: then it
carries the key id of the request and a digest of its own first 48 bytes. -/
theorem ntpRecv_spec (H : Digests) (cfg : Cfg) (status : Thread.Status) (now : ℕ)
    (p : List UInt8) :
    ((ntpRecv H cfg status now p).isSome ↔ 48 ≤ p.length ∧ isClient p = true) ∧
    ∀ r, ntpRecv H cfg status now p = some r →
      (r.length = 48 ∨ r.length = 68 ∨ r.length = 72) ∧ r.length ≤ p.length ∧
      (r.length = 72 ↔ p.length = 72 ∧ cfg.sha1 = true ∧ slice 52 20 p = sha1Of H cfg p) ∧
      (r.length = 68 ↔ p.length = 68 ∧ cfg.md5 = true ∧ slice 52 16 p = md5Of H cfg p) ∧
      (r.length = 72 → keyId r = keyId p ∧ slice 52 20 r = sha1Of H cfg r) ∧
      (r.length = 68 → keyId r = keyId p ∧ slice 52 16 r = md5Of H cfg r) ∧
      slice 24 8 r = slice 40 8 p ∧ txTs r = (rxTs r + txOffset) % 2 ^ 64 ∧
      (slice 1 1 r = [1] ↔ status.pllOk = true ∧ status.todOk = true) := by
  constructor
  · unfold ntpRecv
    split_ifs with h_drop
    · simp only [Option.isSome_none, Bool.false_eq_true, false_iff, not_and]
      intro h_len h_client
      simp [h_client] at h_drop
      omega
    · simp only [Option.isSome_some, true_iff]
      simp only [not_or, Bool.not_eq_true', Bool.not_eq_false] at h_drop
      exact ⟨by omega, h_drop.2⟩
  · intro r h
    obtain ⟨h_len, h_r⟩ := ntpRecv_eq_some h
    have h_le := outSize_le H cfg h_len
    have h_cases := outSize_cases H cfg p
    set n := outSize H cfg p with hn
    have h_48 : 48 ≤ n := by omega
    have h_msg : 48 ≤ (fillFixed status (p.take n)).length := by
      rw [length_fillFixed, List.length_take]
      omega
    have h_size : r.length = n := by
      rw [h_r, length_sign, length_fillTimes, length_fillFixed, List.length_take]
      omega
    -- the key id is copied from the request with what precedes the digest
    have h_key : 52 ≤ n → keyId r = keyId p := by
      intro h_52
      rw [h_r, keyId, slice_sign (by omega), slice_fillTimes_of_ge _ _ (by omega),
        slice_fillFixed_of_ge _ _ (by omega), slice_take (by omega), keyId]
    -- the signature leaves the first 48 bytes alone, so the rest can be read off before it
    refine ⟨by omega, by omega, ?_, ?_, ?_, ?_, ?_, ?_, ?_⟩
    · rw [h_size, hn]
      exact outSize_eq_72 H cfg p
    · rw [h_size, hn]
      exact outSize_eq_68 H cfg p
    · intro h_72
      have h_n : n = 72 := by omega
      refine ⟨h_key (by omega), ?_⟩
      rw [h_r, h_n]
      exact sha1_sign (by simp; omega)
    · intro h_68
      have h_n : n = 68 := by omega
      refine ⟨h_key (by omega), ?_⟩
      rw [h_r, h_n]
      exact md5_sign (by simp; omega)
    · rw [h_r, slice_sign (by omega), origin_fillTimes _ h_msg,
        slice_fillFixed_of_ge _ _ (by omega), slice_take (by omega)]
    · have h_rx : rxTs r = now % 2 ^ 64 := by
        rw [h_r, rxTs, slice_sign (by omega)]
        exact rxTs_fillTimes now h_msg
      rw [h_rx, h_r, txTs, slice_sign (by omega)]
      show txTs _ = _
      rw [txTs_fillTimes now h_msg, Nat.mod_add_mod]
    · rw [h_r, slice_sign (by omega),
        stratum_fillTimes _ _ (by rw [List.length_take]; omega), Thread.Status.ready]
      cases status.pllOk <;> cases status.todOk <;> decide

/-- A request without a digest, sent at the end of an era. -/
theorem ntpRecv_spec_plain :
    let H : Digests := ⟨fun _ => List.replicate 20 0, fun _ => rfl,
      fun _ => List.replicate 16 0, fun _ => rfl⟩
    let cfg : Cfg := ⟨0, List.replicate 20 0, rfl⟩
    let p : List UInt8 := 0x23 :: List.replicate 47 0
    ∃ r, ntpRecv H cfg {} (2 ^ 64 - 1) p = some r ∧ r.length ≤ p.length ∧
      txTs r = (rxTs r + txOffset) % 2 ^ 64 := by
  intro H cfg p
  have h_some : (ntpRecv H cfg {} (2 ^ 64 - 1) p).isSome :=
    (ntpRecv_spec H cfg {} (2 ^ 64 - 1) p).1.mpr (by decide)
  obtain ⟨r, hr⟩ := Option.isSome_iff_exists.mp h_some
  have h_spec := (ntpRecv_spec H cfg {} (2 ^ 64 - 1) p).2 r hr
  exact ⟨r, hr, h_spec.2.1, h_spec.2.2.2.2.2.2.2.1⟩

end NtpServer

end Laureline
