import Sdkz.Hu.Decode
import Sdkz.Hu.Text

/-! # The decoder in its buffers

`decodeTrace` is the loop of `decode_ascii85` with the buffer it writes to and the
indices it touches. It puts down four bytes for every group, also for a short one
of which it keeps fewer, and still stays in a buffer of four bytes for every
character. -/

namespace Sdkz.Hu
open Sdkz.Base

/-! ## The memory of the decoder -/

/-- The output buffer, and the indices of input and output that were touched. -/
structure DecodeMemory where
  outp : Nat → UInt8
  reads : List Nat
  stores : List Nat

namespace DecodeMemory

def read (mem : DecodeMemory) (is : List Nat) : DecodeMemory :=
  { mem with reads := mem.reads ++ is }

/-- `outp[n + 3]` down to `outp[n]`. -/
def store (mem : DecodeMemory) (n : Nat) (chunk : UInt32) : DecodeMemory :=
  let outp := Function.update mem.outp (n + 3) (chunk % 256).toUInt8
  let chunk := chunk / 256
  let outp := Function.update outp (n + 2) (chunk % 256).toUInt8
  let chunk := chunk / 256
  let outp := Function.update outp (n + 1) (chunk % 256).toUInt8
  let chunk := chunk / 256
  { mem with
    outp := Function.update outp n chunk.toUInt8
    stores := mem.stores ++ [n + 3, n + 2, n + 1, n] }

end DecodeMemory

/-- The characters of a group that are tested: up to the first bad one. -/
def testReads (inp : Nat → UInt8) (inLength inRover : Nat) : List Nat → List Nat
  | [] => []
  | i :: is =>
    if inRover + i < inLength then
      if ascii85CharNg (inp (inRover + i)) then [inRover + i]
      else (inRover + i) :: testReads inp inLength inRover is
    else testReads inp inLength inRover is

/-- The characters of a group that are read as digits: the last one only if the
value of the first four can be multiplied. A full group is read without a test
for the end. -/
def digitReads (inp : Nat → UInt8) (inLength inRover : Nat) : List Nat :=
  let digit (i : Nat) : UInt32 := (inputDigit inp inLength (inRover + i)).toUInt32
  let chunk := ((digit 0 * 85 + digit 1) * 85 + digit 2) * 85 + digit 3
  let is := (List.range (if chunk > 0xffffffff / 85 then 4 else 5)).map (inRover + ·)
  if 5 ≤ inLength - inRover then is else is.filter (· < inLength)

/-- The loop of `decode_ascii85`: return value and memory. -/
def decodeTrace (inp : Nat → UInt8) (inLength : Nat) :
    Nat → Nat → Nat → DecodeMemory → Int × DecodeMemory
  | 0, _, outLength, mem => (outLength, mem)
  | fuel + 1, inRover, outLength, mem =>
    if inRover < inLength then
      let chunkLen := inLength - inRover
      let mem := mem.read [inRover]
      if inp inRover = 122 then
        decodeTrace inp inLength fuel (inRover + 1) (outLength + 4) (mem.store outLength 0)
      else
        let mem := mem.read (testReads inp inLength inRover (List.range 5))
        if badDecodeChar inp inLength inRover then (ascii85ErrBadDecodeChar, mem)
        else
          let mem := mem.read (digitReads inp inLength inRover)
          match decodeChunk inp inLength inRover with
          | none => (ascii85ErrDecodeOverflow, mem)
          | some chunk =>
            if 5 ≤ chunkLen then
              decodeTrace inp inLength fuel (inRover + 5) (outLength + 4)
                (mem.store outLength chunk)
            else
              decodeTrace inp inLength fuel inLength (outLength + (chunkLen - 1))
                (mem.store outLength chunk)
    else (outLength, mem)

/-- `decode_ascii85` with its memory. -/
def decodeAscii85Trace (inp outp : Nat → UInt8) (inLength outMaxLength : Int) :
    Int × DecodeMemory :=
  let outLength := ascii85GetMaxDecodedLength inLength
  if outLength < 0 then (outLength, ⟨outp, [], []⟩)
  else if outLength > outMaxLength then (ascii85ErrOutBufTooSmall, ⟨outp, [], []⟩)
  else decodeTrace inp inLength.toNat inLength.toNat 0 0 ⟨outp, [], []⟩

/-- From `mem` to `mem'`, nothing was read from index `inLength` on, nothing was
stored from four times that index on, and no other byte has changed. -/
structure Contained (inLength : Nat) (mem mem' : DecodeMemory) : Prop where
  reads : ∀ i ∈ mem'.reads, i ∈ mem.reads ∨ i < inLength
  stores : ∀ i ∈ mem'.stores, i ∈ mem.stores ∨ i < 4 * inLength
  kept : ∀ i ∈ mem.stores, i ∈ mem'.stores
  untouched : ∀ i, i ∉ mem'.stores → mem'.outp i = mem.outp i

section Memory
variable {inLength : Nat} {mem mem' mem'' : DecodeMemory}

theorem Contained.refl (mem : DecodeMemory) : Contained inLength mem mem :=
  ⟨fun _ h => .inl h, fun _ h => .inl h, fun _ h => h, fun _ _ => rfl⟩

theorem Contained.trans (h : Contained inLength mem mem') (h' : Contained inLength mem' mem'') :
    Contained inLength mem mem'' where
  reads i hi := (h'.reads i hi).elim (h.reads i) .inr
  stores i hi := (h'.stores i hi).elim (h.stores i) .inr
  kept i hi := h'.kept i (h.kept i hi)
  untouched i hi := (h'.untouched i hi).trans (h.untouched i fun hm => hi (h'.kept i hm))

theorem Contained.read (h : Contained inLength mem mem') {is : List Nat}
    (his : ∀ i ∈ is, i < inLength) : Contained inLength mem (mem'.read is) where
  reads i hi := (List.mem_append.mp hi).elim (h.reads i) fun hi => .inr (his i hi)
  stores := h.stores
  kept := h.kept
  untouched := h.untouched

theorem Contained.store (h : Contained inLength mem mem') {n : Nat} (hn : n + 4 ≤ 4 * inLength)
    (chunk : UInt32) : Contained inLength mem (mem'.store n chunk) where
  reads := h.reads
  stores i hi := by
    rcases List.mem_append.mp hi with hi | hi
    · exact h.stores i hi
    · simp only [List.mem_cons, List.not_mem_nil, or_false] at hi
      omega
  kept i hi := List.mem_append_left _ (h.kept i hi)
  untouched i hi := by
    simp only [DecodeMemory.store, List.mem_append, List.mem_cons, List.not_mem_nil, or_false,
      not_or] at hi
    obtain ⟨hold, h3, h2, h1, h0⟩ := hi
    simp only [DecodeMemory.store, Function.update_of_ne h0, Function.update_of_ne h1,
      Function.update_of_ne h2, Function.update_of_ne h3]
    exact h.untouched i hold

theorem testReads_lt (inp : Nat → UInt8) (inRover : Nat) (is : List Nat) :
    ∀ i ∈ testReads inp inLength inRover is, i < inLength := by
  induction is with
  | nil => simp [testReads]
  | cons j is ih =>
    intro i hi
    unfold testReads at hi
    split at hi
    · rename_i hlt
      split at hi
      · rwa [List.mem_singleton.mp hi]
      · rcases List.mem_cons.mp hi with rfl | hi
        · exact hlt
        · exact ih i hi
    · exact ih i hi

theorem digitReads_lt (inp : Nat → UInt8) (inRover : Nat) :
    ∀ i ∈ digitReads inp inLength inRover, i < inLength := by
  intro i hi
  unfold digitReads at hi
  simp only at hi
  split at hi
  · rename_i hfull
    obtain ⟨j, hj, rfl⟩ := List.mem_map.mp hi
    have hj5 : j < 5 := by
      have := List.mem_range.mp hj
      split at this <;> omega
    omega
  · simpa using (List.mem_filter.mp hi).2

theorem decodeTrace_contained (inp : Nat → UInt8) (fuel : Nat) {inRover outLength : Nat}
    (hrover : outLength ≤ 4 * inRover) (hout : outLength ≤ 4 * inLength)
    (h : Contained inLength mem mem') :
    Contained inLength mem (decodeTrace inp inLength fuel inRover outLength mem').2 := by
  induction fuel generalizing inRover outLength mem' with
  | zero => exact h
  | succ fuel ih =>
    unfold decodeTrace
    split
    · rename_i hlt
      have hfirst : Contained inLength mem (mem'.read [inRover]) := h.read (by simpa using hlt)
      simp only
      split
      · exact ih (by omega) (by omega) (hfirst.store (by omega) 0)
      · have htested := hfirst.read (testReads_lt inp inRover (List.range 5))
        split
        · exact htested
        · have hread := htested.read (digitReads_lt inp inRover)
          split
          · exact hread
          · rename_i chunk hchunk
            have hstored := hread.store (n := outLength) (by omega) chunk
            split
            · exact ih (by omega) (by omega) hstored
            · exact ih (by omega) (by omega) hstored
    · exact h

/-- The bytes of a group lie behind those of the earlier groups. -/
theorem window_store {out : Bytes} (h : window mem.outp 0 out.length = out) (chunk : UInt32)
    {k : Nat} (hk : k ≤ 4) : window (mem.store out.length chunk).outp 0 (out.length + k) =
      out ++ (chunkBytes chunk).take k := by
  have hbelow : ∀ i < out.length, (mem.store out.length chunk).outp i = mem.outp i := by
    intro i hi
    simp only [DecodeMemory.store]
    rw [Function.update_of_ne (by omega), Function.update_of_ne (by omega),
      Function.update_of_ne (by omega), Function.update_of_ne (by omega)]
  have hfour : (chunkBytes chunk).length = 4 := rfl
  have hat : (mem.store out.length chunk).outp (out.length + 0) = (chunkBytes chunk)[0] ∧
      (mem.store out.length chunk).outp (out.length + 1) = (chunkBytes chunk)[1] ∧
      (mem.store out.length chunk).outp (out.length + 2) = (chunkBytes chunk)[2] ∧
      (mem.store out.length chunk).outp (out.length + 3) = (chunkBytes chunk)[3] := by
    simp [DecodeMemory.store, chunkBytes]
  apply List.ext_getElem
  · simp [chunkBytes]
    omega
  · intro i hi hi'
    rw [length_window] at hi
    simp only [window, List.getElem_map, List.getElem_range', Nat.one_mul, Nat.zero_add]
    by_cases hlt : i < out.length
    · have hlt' : i < (window mem.outp 0 out.length).length := by simpa using hlt
      have hout : (window mem.outp 0 out.length)[i] = out[i] := by simp only [h]
      rw [List.getElem_append_left hlt, hbelow i hlt, ← hout]
      simp [window]
    · obtain ⟨j, rfl⟩ := Nat.exists_eq_add_of_le (Nat.le_of_not_lt hlt)
      have hj : j = 0 ∨ j = 1 ∨ j = 2 ∨ j = 3 := by omega
      rw [List.getElem_append_right (by omega)]
      simp only [Nat.add_sub_cancel_left, List.getElem_take]
      rcases hj with rfl | rfl | rfl | rfl
      · exact hat.1
      · exact hat.2.1
      · exact hat.2.2.1
      · exact hat.2.2.2

/-- The loop with its memory is the loop without it. -/
theorem decodeTrace_eq (inp : Nat → UInt8) (inLength fuel inRover : Nat) {out : Bytes}
    (h : window mem.outp 0 out.length = out) :
    let r := decodeTrace inp inLength fuel inRover out.length mem
    let d := decodeLoop inp inLength fuel inRover out mem.stores
    r.1 = d.outLength ∧ r.2.stores = d.stores ∧ window r.2.outp 0 d.outp.length = d.outp := by
  induction fuel generalizing inRover out mem with
  | zero => exact ⟨rfl, rfl, h⟩
  | succ fuel ih =>
    have hstep : ∀ (mem' : DecodeMemory), mem'.outp = mem.outp → mem'.stores = mem.stores →
        ∀ (next k : Nat) (chunk : UInt32), k ≤ 4 →
        let r := decodeTrace inp inLength fuel next (out.length + k) (mem'.store out.length chunk)
        let d := decodeLoop inp inLength fuel next (out ++ (chunkBytes chunk).take k)
          (mem.stores ++ [out.length + 3, out.length + 2, out.length + 1, out.length])
        r.1 = d.outLength ∧ r.2.stores = d.stores ∧ window r.2.outp 0 d.outp.length = d.outp := by
      intro mem' houtp hst next k chunk hk
      have hlen : (out ++ (chunkBytes chunk).take k).length = out.length + k := by
        simp [chunkBytes]
        omega
      have hout : window mem'.outp 0 out.length = out := by
        rw [houtp]
        exact h
      have hstored := window_store hout chunk hk
      rw [← hlen] at hstored
      have hrest := ih next hstored
      rw [hlen] at hrest
      simpa only [DecodeMemory.store, hst] using hrest
    unfold decodeTrace decodeLoop
    split
    · simp only
      split
      · exact hstep (mem.read [inRover]) rfl rfl (inRover + 1) 4 0 (Nat.le_refl 4)
      · split
        · exact ⟨rfl, rfl, h⟩
        · cases hchunk : decodeChunk inp inLength inRover with
          | none => exact ⟨rfl, rfl, h⟩
          | some chunk =>
            have hread := hstep (((mem.read [inRover]).read
              (testReads inp inLength inRover (List.range 5))).read
              (digitReads inp inLength inRover)) rfl rfl
            simp only
            split
            · exact hread (inRover + 5) 4 chunk (Nat.le_refl 4)
            · exact hread inLength (inLength - inRover - 1) chunk (by omega)
    · exact ⟨rfl, rfl, h⟩

end Memory

/-! ## The decoder is exact -/

/-- The reference with the conditions on the lengths. -/
def referenceDecodeAscii85 (text : Bytes) (inLength outMaxLength : Int) : Except Int Bytes :=
  if inLength < 0 ∨ ascii85InLengthMax < inLength then .error ascii85ErrInBufTooLarge
  else if outMaxLength < 4 * inLength then .error ascii85ErrOutBufTooSmall
  else referenceDecode text

/-- The decoder stays in its buffers and returns what the reference returns. -/
structure DecodesExactly (inp outp : Nat → UInt8) (inLength outMaxLength : Int)
    (r : Int × DecodeMemory) : Prop where
  reads : ∀ i ∈ r.2.reads, (i : Int) < inLength
  stores : ∀ i ∈ r.2.stores, (i : Int) < outMaxLength
  untouched : ∀ i, i ∉ r.2.stores → r.2.outp i = outp i
  result : match referenceDecodeAscii85 (window inp 0 inLength.toNat) inLength outMaxLength with
    | .error rc => r.1 = rc
    | .ok bs => r.1 = bs.length ∧ window r.2.outp 0 bs.length = bs

/-- **The decoder is exact** on every text, of whatever length and form, and for
every capacity. -/
theorem decodeAscii85_exact (inp outp : Nat → UInt8) (inLength outMaxLength : Int) :
    DecodesExactly inp outp inLength outMaxLength
      (decodeAscii85Trace inp outp inLength outMaxLength) := by
  unfold decodeAscii85Trace ascii85GetMaxDecodedLength
  simp only
  by_cases hlarge : inLength < 0 ∨ ascii85InLengthMax < inLength
  · rw [if_pos hlarge, if_pos (by decide)]
    refine ⟨by simp, by simp, fun _ _ => rfl, ?_⟩
    rw [referenceDecodeAscii85, if_pos hlarge]
  · have hnonneg : ¬ inLength * 4 < 0 := by
      simp only [not_or, not_lt] at hlarge
      omega
    rw [if_neg hlarge, if_neg hnonneg]
    by_cases hsmall : outMaxLength < 4 * inLength
    · rw [if_pos (by omega)]
      refine ⟨by simp, by simp, fun _ _ => rfl, ?_⟩
      rw [referenceDecodeAscii85, if_neg hlarge, if_pos hsmall]
    · rw [if_neg (by omega)]
      have hcontained := decodeTrace_contained inp inLength.toNat (Nat.zero_le (4 * 0))
        (Nat.zero_le (4 * inLength.toNat)) (Contained.refl ⟨outp, [], []⟩)
      have hempty : window outp 0 ([] : Bytes).length = [] := rfl
      obtain ⟨hlength, -, hbytes⟩ := decodeTrace_eq inp inLength.toNat inLength.toNat 0
        (show window (DecodeMemory.mk outp [] []).outp 0 _ = [] from hempty)
      have hreference := decodeLoop_reference inp [] [] (Nat.le_add_left inLength.toNat 0)
      refine ⟨fun i hi => ?_, fun i hi => ?_, hcontained.untouched, ?_⟩
      · rcases hcontained.reads i hi with hi | hi
        · cases hi
        · omega
      · rcases hcontained.stores i hi with hi | hi
        · cases hi
        · omega
      · rw [referenceDecodeAscii85, if_neg hlarge, if_neg hsmall]
        generalize referenceDecode (window inp 0 inLength.toNat) = expected at hreference
        cases expected with
        | error rc => exact hlength.trans hreference
        | ok bs =>
          obtain ⟨hcount, hout⟩ := hreference
          rw [List.nil_append] at hcount hout
          rw [hout] at hbytes
          exact ⟨hlength.trans hcount, hbytes⟩

/-- The indices stored to, without the memory. -/
theorem decodeAscii85_stores (inp : Nat → UInt8) (inLength outMaxLength : Int) :
    ∀ i ∈ (decodeAscii85 inp inLength outMaxLength).stores, (i : Int) < outMaxLength := by
  unfold decodeAscii85 ascii85GetMaxDecodedLength
  simp only
  by_cases hlarge : inLength < 0 ∨ ascii85InLengthMax < inLength
  · rw [if_pos hlarge, if_pos (by decide)]
    simp
  · rw [if_neg hlarge]
    split
    · simp
    · split
      · simp
      · have hcontained := decodeTrace_contained inp inLength.toNat (Nat.zero_le (4 * 0))
          (Nat.zero_le (4 * inLength.toNat)) (Contained.refl ⟨inp, [], []⟩)
        have hempty : window inp 0 ([] : Bytes).length = [] := rfl
        obtain ⟨-, hstores, -⟩ := decodeTrace_eq inp inLength.toNat inLength.toNat 0
          (show window (DecodeMemory.mk inp [] []).outp 0 _ = [] from hempty)
        intro i hi
        rcases hcontained.stores i (hstores ▸ hi) with hi | hi
        · cases hi
        · omega

/-! ## There and back through memory -/

theorem encodeAscii85_reference {n : Nat} {outMaxLength : Int} (hn : (n : Int) ≤ ascii85InLengthMax)
    (hroom : ascii85GetMaxEncodedLength n ≤ outMaxLength) (inp : Nat → UInt8) :
    encodeAscii85 inp n outMaxLength =
      (((referenceEncode (window inp 0 n)).length : Int), referenceEncode (window inp 0 n)) := by
  have hlength : ascii85GetMaxEncodedLength n = (n + 3) / 4 * 5 := by
    rw [ascii85GetMaxEncodedLength, if_neg (by omega)]
  rw [hlength] at hroom
  unfold encodeAscii85
  simp only [hlength]
  rw [if_neg (by omega), if_neg (by omega), Int.toNat_natCast,
    encodeLoop_reference (Nat.le_add_left n 0), List.nil_append]

theorem isAscii85_plain {c : UInt8} (h : isAscii85 c = true) :
    ((33 ≤ c ∧ c ≤ 117) ∨ c = 122) ∧ isPlain c = true := by
  have hall : ∀ c : UInt8, isAscii85 c = true →
      ((33 ≤ c ∧ c ≤ 117) ∨ c = 122) ∧ isPlain c = true := forall_byte (by decide +kernel)
  exact hall c h

/-- **The codec's round trip.** The encoding of the bytes at `inp` has only digits
and `z`, and decoding it from wherever it was put gives the bytes back. -/
theorem ascii85_round_trip {n : Nat} {encMax decMax : Int} (hn : (n : Int) ≤ ascii85InLengthMax)
    (hroom : ascii85GetMaxEncodedLength n ≤ encMax) (inp text outp : Nat → UInt8)
    (hlen : ((encodeAscii85 inp n encMax).2.length : Int) ≤ ascii85InLengthMax)
    (htext : window text 0 (encodeAscii85 inp n encMax).2.length = (encodeAscii85 inp n encMax).2)
    (hmax : 4 * ((encodeAscii85 inp n encMax).2.length : Int) ≤ decMax) :
    let e := encodeAscii85 inp n encMax
    let r := decodeAscii85Trace text outp e.1 decMax
    e.1 = e.2.length ∧ (∀ c ∈ e.2, ((33 ≤ c ∧ c ≤ 117) ∨ c = 122) ∧ isPlain c = true) ∧
      r.1 = n ∧ window r.2.outp 0 n = window inp 0 n := by
  have hencode := encodeAscii85_reference hn hroom inp
  rw [hencode] at hlen htext hmax ⊢
  simp only at hlen htext hmax ⊢
  refine ⟨trivial, fun c hc => isAscii85_plain ?_, ?_⟩
  · have hloop : encodeLoop inp n n 0 [] = [] ++ referenceEncode (window inp 0 n) :=
      encodeLoop_reference (Nat.le_add_left n 0)
    rw [List.nil_append] at hloop
    rw [← hloop] at hc
    exact encodeLoop_ok (by simp) c hc
  · have hresult := (decodeAscii85_exact text outp
      ((referenceEncode (window inp 0 n)).length : Int) decMax).result
    rw [Int.toNat_natCast, htext, referenceDecodeAscii85, if_neg (by omega), if_neg (by omega),
      referenceDecode_encode] at hresult
    simpa only [length_window, Nat.sub_zero] using hresult

/-- A zero group and a short group. -/
theorem six_bytes_round_trip :
    let e := encodeAscii85 (stringAt [0, 0, 0, 0, 7, 200]) 6 10
    let r := decodeAscii85Trace (stringAt (ascii "z#KQ")) (fun _ => 255) e.1 1280
    e.1 = e.2.length ∧ (∀ c ∈ e.2, ((33 ≤ c ∧ c ≤ 117) ∨ c = 122) ∧ isPlain c = true) ∧
      r.1 = 6 ∧ window r.2.outp 0 6 = window (stringAt [0, 0, 0, 0, 7, 200]) 0 6 :=
  ascii85_round_trip (n := 6) (by decide) (by decide) (stringAt [0, 0, 0, 0, 7, 200])
    (stringAt (ascii "z#KQ")) (fun _ => 255) (by decide +kernel) (by decide +kernel)
    (by decide +kernel)

end Sdkz.Hu
