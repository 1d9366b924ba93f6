import Laureline.Crypto.Md5
import Laureline.Crypto.Sha1Digest
import Laureline.Net.NtpServer

/-!
# The digests of the NTP server

`ntp_recv` gives the digests the 20 bytes of the key and the first 48 bytes of the message, with
two calls of `…_Update`. `digests` are SHA-1 and MD5, and `sha1Of_digests` and `md5Of_digests`
say that the four calls compute what the model of the server takes from them.
-/

namespace Laureline

namespace NtpServer

open Bytes Md32

theorem length_hostL2c (o : Order) (l : Md32.Word) : (hostL2c o l).length = 4 := by
  cases o <;> rfl

theorem length_makeString {V : Type} (A : Alg V) (h : V) :
    (makeString A h).length = 4 * (A.words h).length := by
  rw [makeString, List.length_flatMap]
  induction A.words h with
  | nil => rfl
  | cons l ls ih =>
    rw [List.map_cons, List.sum_cons, ih, length_hostL2c, List.length_cons]
    omega

/-- SHA-1 and MD5. -/
def digests : Digests where
  sha1 := hash Sha1.alg
  length_sha1 _ := length_makeString _ _
  md5 := hash Md5.alg
  length_md5 _ := length_makeString _ _

/-- The calls for a digest of the key and the first 48 bytes of a message. -/
def digestCalls {V : Type} (A : Alg V) (cfg : Cfg) (msg : List UInt8) : List UInt8 :=
  let c := Md32.init A
  let c := update A c cfg.ntpKey
  let c := update A c (header msg)
  (final A c).1

theorem digestCalls_eq {V : Type} (A : Alg V) (cfg : Cfg) (msg : List UInt8) :
    digestCalls A cfg msg = hash A (cfg.ntpKey ++ header msg) := by
  have h_key : cfg.ntpKey.length < 2 ^ 32 := by
    rw [cfg.length_ntpKey]
    decide
  have h_header : (header msg).length < 2 ^ 32 := by
    rw [header, length_slice]
    omega
  exact (final_holds (update_holds (update_holds (init_holds A) h_key) h_header)).1

theorem sha1Of_digests (cfg : Cfg) (msg : List UInt8) :
    sha1Of digests cfg msg = digestCalls Sha1.alg cfg msg := (digestCalls_eq _ _ _).symm

theorem md5Of_digests (cfg : Cfg) (msg : List UInt8) :
    md5Of digests cfg msg = digestCalls Md5.alg cfg msg := (digestCalls_eq _ _ _).symm

section Reply

variable {H : Digests} {cfg : Cfg} {status : Thread.Status} {now : ℕ} {p r : List UInt8}

/-- The mode of what is sent. -/
theorem mode_sign {n : ℕ} {msg : List UInt8} (h : 48 ≤ msg.length) :
    slice 0 1 (sign H cfg n (fillTimes now (fillFixed status msg))) = [0x24] := by
  rw [slice_sign (by omega)]
  simp only [fillTimes]
  rw [slice_storeTs_of_disjoint (by omega), slice_storeTs_of_disjoint (by omega),
    slice_storeTs_of_disjoint (by omega), slice_store_of_disjoint (by omega),
    slice_store_of_disjoint (by omega)]
  simp only [fillFixed]
  rw [slice_store_of_disjoint (by omega), slice_store_of_disjoint (by omega),
    slice_store_of_disjoint (by omega), slice_store_of_disjoint (by omega),
    slice_raisePoll_of_disjoint _ (by omega), slice_store_of_disjoint (by omega)]
  exact slice_store_self rfl (by omega)

theorem isClient_of_mode (h : slice 0 1 r = [0x24]) : isClient r = false := by
  cases r with
  | nil => rfl
  | cons b r =>
    obtain rfl : b = 0x24 := by simpa [slice] using h
    show ((0x24 : UInt8) &&& modeMask == modeClient) = false
    decide

theorem length_reply (h : ntpRecv H cfg status now p = some r) : r.length = outSize H cfg p := by
  obtain ⟨h_len, h_r⟩ := ntpRecv_eq_some h
  have h_le := outSize_le H cfg h_len
  rw [h_r, length_sign, length_fillTimes, length_fillFixed, List.length_take, Nat.min_eq_left h_le]

/-- A reply passes the check of the request that it answers. -/
theorem outSize_reply (h : ntpRecv H cfg status now p = some r) :
    outSize H cfg r = r.length := by
  have h_size := length_reply h
  obtain ⟨h_len, h_r⟩ := ntpRecv_eq_some h
  obtain h_n | h_n | h_n := outSize_cases H cfg p
  · -- neither check is made
    obtain h_r | h_r | h_r := outSize_cases H cfg r
    · omega
    · have h_68 := ((outSize_eq_68 H cfg r).mp h_r).1
      omega
    · have h_72 := ((outSize_eq_72 H cfg r).mp h_r).1
      omega
  · obtain ⟨h_p, h_flag, -⟩ := (outSize_eq_68 H cfg p).mp h_n
    rw [h_size, h_n, outSize_eq_68]
    refine ⟨by omega, h_flag, ?_⟩
    rw [h_r, h_n]
    exact md5_sign (by rw [length_fillTimes, length_fillFixed, List.length_take]; omega)
  · obtain ⟨h_p, h_flag, -⟩ := (outSize_eq_72 H cfg p).mp h_n
    rw [h_size, h_n, outSize_eq_72]
    refine ⟨by omega, h_flag, ?_⟩
    rw [h_r, h_n]
    exact sha1_sign (by rw [length_fillTimes, length_fillFixed, List.length_take]; omega)

/-- **Replies.** A reply of 72 or 68 bytes carries what the calls for SHA-1 or MD5 return for the
key and its own first 48 bytes, so that it passes the check that `ntp_recv` makes; and no reply
is answered, by a server with any key and at any time. -/
theorem reply_verifies (h : ntpRecv digests cfg status now p = some r) :
    (r.length = 72 → slice 52 20 r = digestCalls Sha1.alg cfg r) ∧
    (r.length = 68 → slice 52 16 r = digestCalls Md5.alg cfg r) ∧
    outSize digests cfg r = r.length ∧
    ∀ cfg' status' now', ntpRecv digests cfg' status' now' r = none := by
  have h_out := outSize_reply h
  obtain ⟨h_len, h_r⟩ := ntpRecv_eq_some h
  refine ⟨fun h_72 => ?_, fun h_68 => ?_, h_out, fun cfg' status' now' => ?_⟩
  · rw [h_72, outSize_eq_72] at h_out
    rw [h_out.2.2, sha1Of_digests]
  · rw [h_68, outSize_eq_68] at h_out
    rw [h_out.2.2, md5Of_digests]
  -- a reply is in mode 4, so no server answers it
  · have h_take : 48 ≤ (p.take (outSize digests cfg p)).length := by
      obtain h_n | h_n | h_n := outSize_cases digests cfg p <;>
        (have h_le := outSize_le digests cfg h_len; rw [List.length_take]; omega)
    have h_mode : slice 0 1 r = [0x24] := by
      rw [h_r]
      exact mode_sign h_take
    unfold ntpRecv
    rw [if_pos (.inr (by rw [isClient_of_mode h_mode]; rfl))]

end Reply

/-- A request that is signed with SHA-1. -/
theorem reply_verifies_signed :
    let cfg : Cfg := ⟨flagNtpkeySha1, List.replicate 20 0, rfl⟩
    let p : List UInt8 := 0x23 :: List.replicate 50 0 ++ [1] ++
      digestCalls Sha1.alg cfg (0x23 :: List.replicate 47 0)
    ∃ r, ntpRecv digests cfg {} 0 p = some r ∧ slice 52 20 r = digestCalls Sha1.alg cfg r := by
  intro cfg p
  have h_some : (ntpRecv digests cfg {} 0 p).isSome := by decide +kernel
  obtain ⟨r, hr⟩ := Option.isSome_iff_exists.mp h_some
  have h_72 : r.length = 72 := by
    rw [length_reply hr]
    decide +kernel
  exact ⟨r, hr, (reply_verifies hr).1 h_72⟩

end NtpServer

end Laureline
