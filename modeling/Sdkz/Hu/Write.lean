import Sdkz.Hu.Chunk
import Sdkz.Hu.DecodeMemory
import Sdkz.Hu.Partition

/-! # What a flash command writes and acknowledges

Every exit of `_flash` sets the same `rc`, and the reply is built from it alone.
The outcome is one of two: nothing was written and `rc` is not 0, or what was
decoded was written once and `rc` is what the driver returned. -/

namespace Sdkz.Hu
open Sdkz.Base

variable {N : Nat} {W : Type}

/-! ## The status of the decoder -/

theorem referenceDecode_error {s : Bytes} {rc : Int} (h : referenceDecode s = .error rc) :
    rc = ascii85ErrBadDecodeChar ∨ rc = ascii85ErrDecodeOverflow := by
  have hmap : ∀ {t : Except Int Bytes} {f : Bytes → Bytes}, t.map f = .error rc → t = .error rc := by
    intro t f ht
    cases t with
    | error e => exact ht
    | ok bs => cases ht
  induction hn : s.length using Nat.strong_induction_on generalizing s with
  | _ n ih =>
    cases s with
    | nil =>
      rw [referenceDecode] at h
      cases h
    | cons c s =>
      rw [referenceDecode] at h
      split at h
      · exact ih s.length (by rw [← hn]; simp) (hmap h) rfl
      · simp only at h
        split at h
        · exact .inl (Except.error.inj h).symm
        · split at h
          · exact .inr (Except.error.inj h).symm
          · have hshorter : ((c :: s).drop 5).length < n := by
              rw [← hn, List.length_drop]
              exact Nat.sub_lt (Nat.succ_pos _) (by decide)
            exact ih _ hshorter (hmap h) rfl

/-- A decoder that returns a length has put down so many bytes; its errors are
the four it has a name for. -/
theorem decodeAscii85_length (inp : Nat → UInt8) (inLength outMaxLength : Int) :
    let d := decodeAscii85 inp inLength outMaxLength
    d.outLength = d.outp.length ∨
      (ascii85ErrOutBufTooSmall ≤ d.outLength ∧ d.outLength ≤ ascii85ErrDecodeOverflow) := by
  unfold decodeAscii85 ascii85GetMaxDecodedLength
  simp only
  by_cases hlarge : inLength < 0 ∨ ascii85InLengthMax < inLength
  · rw [if_pos hlarge, if_pos (by decide)]
    exact .inr (by decide)
  · rw [if_neg hlarge]
    split
    · rename_i hneg
      simp only [not_or, not_lt] at hlarge
      omega
    · split
      · exact .inr (by decide)
      · have hreference := decodeLoop_reference inp [] [] (Nat.le_add_left inLength.toNat 0)
        cases hr : referenceDecode (window inp 0 inLength.toNat) with
        | error rc =>
          rw [hr] at hreference
          refine .inr ?_
          rw [show (decodeLoop _ _ _ _ _ _).outLength = rc from hreference]
          rcases referenceDecode_error hr with rfl | rfl <;> decide
        | ok bs =>
          rw [hr] at hreference
          exact .inl (by rw [hreference.1, hreference.2])

/-- The shifted error codes miss 0. -/
theorem decodeStatus_zero {d : Decoded} (size : Int) (h : d.outLength = d.outp.length ∨
    (ascii85ErrOutBufTooSmall ≤ d.outLength ∧ d.outLength ≤ ascii85ErrDecodeOverflow)) :
    decodeStatus d size = 0 ↔ 0 ≤ d.outLength ∧ d.outLength = size := by
  unfold decodeStatus
  simp only [ascii85ErrOutBufTooSmall, ascii85ErrDecodeOverflow, ascii85ErrorCodeStart, eascii85,
    edesza85, elastError] at *
  by_cases hneg : d.outLength < 0
  · simp only [if_pos hneg]
    split <;> omega
  · simp only [if_neg hneg, true_and]
    split <;> omega

/-! ## What a request may do -/

def flashOffset (argv : List Bytes) : Int := strtol 16 (argv.getD argFlashOffset [])

def flashSize (argv : List Bytes) : Int := strtol 16 (argv.getD argFlashLength [])

/-- The data of the request, as `_flash` has it decoded. -/
def flashDecoded (argv : List Bytes) : Decoded :=
  let data := argv.getD argFlashAscii85Data []
  decodeAscii85 (stringAt data) data.length (ascii85MaxChunkSize * 5)

/-- The area the request has opened. -/
def flashOpened (b : Board W) (m : Machine N W FlashCall) (argc : Nat) (argv : List Bytes) :
    Option FlashArea :=
  if argc < argFlashMax then none
  else (openFlashPartition b m (argv.getD argFlashPartition [])).2.2

/-- The request may write to `fa`: it is complete, the partition was opened, the
data was decoded, and to as many bytes as were declared. -/
structure Writable (b : Board W) (m : Machine N W FlashCall) (argc : Nat) (argv : List Bytes)
    (fa : FlashArea) : Prop where
  complete : argFlashMax ≤ argc
  opened : (openFlashPartition b m (argv.getD argFlashPartition [])).2 = (0, some fa)
  decoded : 0 ≤ (flashDecoded argv).outLength
  declared : (flashDecoded argv).outLength = flashSize argv

def FlashCall.closed : FlashCall → Option FlashArea
  | .close fa => some fa
  | _ => none

/-- The closes among driver calls, in order. -/
def closes (xs : List FlashCall) : List FlashArea := xs.filterMap FlashCall.closed

/-- The write succeeds in the world behind the open. -/
def WriteSucceeds (b : Board W) (m : Machine N W FlashCall) (argv : List Bytes)
    (x : FlashArea × Int × Bytes) : Prop :=
  (b.flashAreaWrite (openFlashPartition b m (argv.getD argFlashPartition [])).1.world
    x.1 x.2.1 x.2.2).2 = 0

/-- The flash command writes nothing but what was declared and decoded, and says
so truly. -/
structure FlashSound (b : Board W) (m : Machine N W FlashCall) (argc : Nat) (argv : List Bytes)
    (new : List (Event FlashCall)) : Prop where
  once : (writes (driverCalls new)).length ≤ 1
  written : ∀ fa offset data, (fa, offset, data) ∈ writes (driverCalls new) →
    Writable b m argc argv fa ∧ offset = flashOffset argv ∧
      data = (flashDecoded argv).outp ∧ (data.length : Int) = flashSize argv
  answered : ∃ s, sends new = [s] ∧
    (Acknowledges m.handle s ↔ ∃ x ∈ writes (driverCalls new), WriteSucceeds b m argv x) ∧
    (Refuses m.handle s ↔ ¬ ∃ x ∈ writes (driverCalls new), WriteSucceeds b m argv x)
  closed : closes (driverCalls new) = (flashOpened b m argc argv).toList

/-! ## What it does -/

section Outcome
variable {b : Board W} {m : Machine N W FlashCall}

/-- An open returns an error without an area, or 0 with one. -/
theorem openFlashPartition_result (b : Board W) (m : Machine N W FlashCall) (name : Bytes) :
    (∃ rc, rc ≠ 0 ∧ (openFlashPartition b m name).2 = (rc, none)) ∨
      ∃ fa, (openFlashPartition b m name).2 = (0, some fa) := by
  unfold openFlashPartition
  simp only
  split
  · rename_i hrc
    exact .inl ⟨_, hrc, rfl⟩
  · split
    · exact .inr ⟨_, rfl⟩
    · rename_i refused _
      exact .inl ⟨refused.1, refused.2, rfl⟩

/-- The driver calls of an open write and close nothing. -/
theorem openFlashPartition_log (b : Board W) (m : Machine N W FlashCall) (name : Bytes) :
    ∃ xs : List FlashCall, (openFlashPartition b m name).1.log = m.log ++ xs.map .device ∧
      writes xs = [] ∧ closes xs = [] := by
  unfold openFlashPartition
  simp only
  split
  · exact ⟨[], by simp, rfl, rfl⟩
  · split <;> exact ⟨[.open _], rfl, rfl, rfl⟩

/-- The work of a flash command has one of two outcomes. -/
theorem flashChunk_outcome (b : Board W) (m : Machine N W FlashCall) (argc : Nat)
    (argv : List Bytes) :
    let r := flashChunk b m argc argv
    ∃ xs : List FlashCall, r.1.log = m.log ++ xs.map .device ∧ closes xs = [] ∧
      r.2.2 = flashOpened b m argc argv ∧
      ((writes xs = [] ∧ r.2.1 ≠ 0) ∨ ∃ fa, Writable b m argc argv fa ∧
        writes xs = [(fa, flashOffset argv, (flashDecoded argv).outp)] ∧
        (r.2.1 = 0 ↔ WriteSucceeds b m argv (fa, flashOffset argv, (flashDecoded argv).outp))) := by
  unfold flashChunk flashOpened
  by_cases hargc : argc < argFlashMax
  · rw [if_pos hargc, if_pos hargc]
    exact ⟨[], by simp, rfl, rfl, .inl ⟨rfl, show -einval ≠ 0 by decide⟩⟩
  · rw [if_neg hargc, if_neg hargc]
    obtain ⟨xs, hlog, hwrites, hcloses⟩ :=
      openFlashPartition_log b m (argv.getD argFlashPartition [])
    have hresult := openFlashPartition_result b m (argv.getD argFlashPartition [])
    have hwritable := fun fa => @Writable.mk _ _ b m argc argv fa (not_lt.mp hargc)
    unfold WriteSucceeds
    generalize openFlashPartition b m (argv.getD argFlashPartition []) = o at *
    obtain ⟨m', rc, opened⟩ := o
    rcases hresult with ⟨rc', hrc, hopen⟩ | ⟨fa, hopen⟩
    · obtain ⟨rfl, rfl⟩ := Prod.mk.inj hopen
      exact ⟨xs, hlog, hcloses, rfl, .inl ⟨hwrites, hrc⟩⟩
    · obtain ⟨rfl, rfl⟩ := Prod.mk.inj hopen
      simp only [ne_eq, not_true, if_false]
      split
      · exact ⟨xs, hlog, hcloses, rfl, .inl ⟨hwrites, show -einval ≠ 0 by decide⟩⟩
      · have hdecoded := decodeAscii85_length (stringAt (argv.getD argFlashAscii85Data []))
          (argv.getD argFlashAscii85Data []).length (ascii85MaxChunkSize * 5)
        have hstatus := decodeStatus_zero (flashSize argv) hdecoded
        unfold writeChunk
        simp only
        split
        · rename_i hrefused
          exact ⟨xs, hlog, hcloses, trivial, .inl ⟨hwrites, hrefused⟩⟩
        · rename_i haccepted
          obtain ⟨hnonneg, hsize⟩ := hstatus.mp (not_not.mp haccepted)
          -- the decoder counted what it put down, so the cut to `size` takes it all
          have hlength : ((flashDecoded argv).outp.length : Int) = flashSize argv := by
            rcases hdecoded with hd | hd
            · exact hd.symm.trans hsize
            · simp only [ascii85ErrDecodeOverflow] at hd
              omega
          have htake : (flashDecoded argv).outp.take (strtol 16 (argv.getD argFlashLength [])).toNat =
              (flashDecoded argv).outp := by
            rw [show strtol 16 (argv.getD argFlashLength []) = flashSize argv from rfl, ← hlength]
            exact List.take_length
          refine ⟨xs ++ [.write fa (flashOffset argv) (flashDecoded argv).outp], ?_, ?_, trivial,
            .inr ⟨fa, hwritable fa rfl hnonneg hsize, ?_, ?_⟩⟩
          · rw [List.map_append, ← List.append_assoc, ← hlog]
            exact congrArg (fun d => m'.log ++ [Event.device (.write fa (flashOffset argv) d)]) htake
          · rw [closes, List.filterMap_append]
            exact (congrArg (· ++ _) hcloses).trans rfl
          · rw [writes, List.filterMap_append]
            exact (congrArg (· ++ _) hwrites).trans rfl
          · exact iff_of_eq (congrArg (fun d => (b.flashAreaWrite m'.world fa
              (flashOffset argv) d).2 = 0) htake)

/-- The flash command writes only what was declared and decoded, and builds a reply that
never acknowledges falsely, for all arguments and whatever the drivers return. Whether
`tx_buffer` has room for that reply is not asked here. -/
theorem flash_sound (b : Board W) (fw : Firmware N W FlashCall) (m : Machine N W FlashCall)
    (argc : Nat) (argv : List Bytes) :
    FlashSound b m argc argv (since m (flash b fw m argc argv)) := by
  obtain ⟨xs, hlog, hcloses, hopened, houtcome⟩ := flashChunk_outcome b m argc argv
  obtain ⟨hcalls, hsent⟩ := answerRequest_since b fw (flashChunk_operates b m argc argv) xs hlog
    argc argv argFlashPartition argFlashLength
  have hwrites : writes (driverCalls (since m (flash b fw m argc argv))) = writes xs := by
    rw [flash, hcalls, writes, List.filterMap_append]
    cases (flashChunk b m argc argv).2.2 <;> exact List.append_nil _
  have hacks := acknowledges_iff fw m.handle (flashChunk b m argc argv).2.1
    (echoed argc argv argFlashPartition argFlashLength)
  have hnaks := refuses_iff fw m.handle (flashChunk b m argc argv).2.1
    (echoed argc argv argFlashPartition argFlashLength)
  constructor
  · rw [hwrites]
    rcases houtcome with ⟨hw, -⟩ | ⟨fa, -, hw, -⟩ <;> rw [hw]
    · exact Nat.zero_le 1
    · exact Nat.le_refl 1
  · intro fa offset data hx
    rw [hwrites] at hx
    rcases houtcome with ⟨hw, -⟩ | ⟨fa', hfa, hw, -⟩
    · rw [hw] at hx
      cases hx
    · rw [hw, List.mem_singleton] at hx
      simp only [Prod.mk.injEq] at hx
      obtain ⟨rfl, rfl, rfl⟩ := hx
      refine ⟨hfa, rfl, rfl, ?_⟩
      have hlength := decodeAscii85_length (stringAt (argv.getD argFlashAscii85Data []))
        (argv.getD argFlashAscii85Data []).length (ascii85MaxChunkSize * 5)
      rcases hlength with hd | hd
      · exact hd.symm.trans hfa.declared
      · have := hfa.decoded
        simp only [ascii85ErrDecodeOverflow] at hd
        exact absurd (show 0 ≤ (decodeAscii85 _ _ _).outLength from this) (by omega)
  · have hdone : (flashChunk b m argc argv).2.1 = 0 ↔
        ∃ x ∈ writes xs, WriteSucceeds b m argv x := by
      rcases houtcome with ⟨hw, hrc⟩ | ⟨fa, -, hw, hrc⟩
      · rw [hw]
        simp [hrc]
      · rw [hw, hrc]
        simp
    rw [hwrites, ← hdone]
    exact ⟨_, hsent, hacks, hnaks⟩
  · rw [flash, hcalls, closes, List.filterMap_append, ← hopened]
    cases (flashChunk b m argc argv).2.2 <;> exact (congrArg (· ++ _) hcloses).trans rfl

end Outcome

end Sdkz.Hu
