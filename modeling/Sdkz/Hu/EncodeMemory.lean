import Sdkz.Hu.Sessions

/-! # The encoder in its buffers

`encodeTrace` is the loop of `encode_ascii85` with the buffer it writes to and the
indices it touches. It puts down five characters for every group that is no `z`,
also for a short one of which it keeps fewer, and still stays in a buffer of the
size it asks for.

What it returns is known in advance: one character more than bytes for every
started group of four, and four less for every word of zeros. -/

namespace Sdkz.Hu
open Sdkz.Base

/-! ## The memory of the encoder -/

namespace DecodeMemory

/-- `outp[i] = c`. -/
def put (mem : DecodeMemory) (i : Nat) (c : UInt8) : DecodeMemory :=
  { mem with outp := Function.update mem.outp i c, stores := mem.stores ++ [i] }

/-- `outp[n + 4]` down to `outp[n]`. -/
def putDigits (mem : DecodeMemory) (n : Nat) (chunk : UInt32) : DecodeMemory :=
  let mem := mem.put (n + 4) (ascii85Char (chunk % 85))
  let chunk := chunk / 85
  let mem := mem.put (n + 3) (ascii85Char (chunk % 85))
  let chunk := chunk / 85
  let mem := mem.put (n + 2) (ascii85Char (chunk % 85))
  let chunk := chunk / 85
  let mem := mem.put (n + 1) (ascii85Char (chunk % 85))
  let chunk := chunk / 85
  mem.put n (ascii85Char chunk)

end DecodeMemory

/-- The bytes of a group that are read: none behind the end of the input. -/
def groupReads (inLength inRover : Nat) : List Nat :=
  (List.range' inRover 4).filter (· < inLength)

/-- The loop of `encode_ascii85`: return value and memory. -/
def encodeTrace (inp : Nat → UInt8) (inLength : Nat) :
    Nat → Nat → Nat → DecodeMemory → Int × DecodeMemory
  | 0, _, outLength, mem => (outLength, mem)
  | fuel + 1, inRover, outLength, mem =>
    if inRover < inLength then
      let chunkLen := inLength - inRover
      let mem := mem.read (groupReads inLength inRover)
      let chunk := inputChunk inp inLength inRover
      if chunk = 0 ∧ 4 ≤ chunkLen then
        encodeTrace inp inLength fuel (inRover + 4) (outLength + 1) (mem.put outLength 122)
      else if 4 ≤ chunkLen then
        encodeTrace inp inLength fuel (inRover + 4) (outLength + 5) (mem.putDigits outLength chunk)
      else
        encodeTrace inp inLength fuel inLength (outLength + (chunkLen + 1))
          (mem.putDigits outLength chunk)
    else (outLength, mem)

/-- `encode_ascii85` with its memory. -/
def encodeAscii85Trace (inp outp : Nat → UInt8) (inLength outMaxLength : Int) :
    Int × DecodeMemory :=
  let outLength := ascii85GetMaxEncodedLength inLength
  if outLength < 0 then (outLength, ⟨outp, [], []⟩)
  else if outLength > outMaxLength then (ascii85ErrOutBufTooSmall, ⟨outp, [], []⟩)
  else encodeTrace inp inLength.toNat inLength.toNat 0 0 ⟨outp, [], []⟩

/-- From `mem` to `mem'`, nothing was read from index `n` on, nothing was stored
from index `m` on, and no other byte has changed. -/
structure Confined (n m : Nat) (mem mem' : DecodeMemory) : Prop where
  reads : ∀ i ∈ mem'.reads, i ∈ mem.reads ∨ i < n
  stores : ∀ i ∈ mem'.stores, i ∈ mem.stores ∨ i < m
  kept : ∀ i ∈ mem.stores, i ∈ mem'.stores
  untouched : ∀ i, i ∉ mem'.stores → mem'.outp i = mem.outp i

section Memory
variable {n m : Nat} {mem mem' : DecodeMemory}

theorem Confined.refl (mem : DecodeMemory) : Confined n m mem mem :=
  ⟨fun _ h => .inl h, fun _ h => .inl h, fun _ h => h, fun _ _ => rfl⟩

theorem Confined.read (h : Confined n m mem mem') {is : List Nat} (his : ∀ i ∈ is, i < n) :
    Confined n m mem (mem'.read is) where
  reads i hi := (List.mem_append.mp hi).elim (h.reads i) fun hi => .inr (his i hi)
  stores := h.stores
  kept := h.kept
  untouched := h.untouched

theorem Confined.put (h : Confined n m mem mem') {i : Nat} (hi : i < m) (c : UInt8) :
    Confined n m mem (mem'.put i c) where
  reads := h.reads
  stores j hj := by
    rcases List.mem_append.mp hj with hj | hj
    · exact h.stores j hj
    · rw [List.mem_singleton.mp hj]
      exact .inr hi
  kept j hj := List.mem_append_left _ (h.kept j hj)
  untouched j hj := by
    simp only [DecodeMemory.put, List.mem_append, List.mem_singleton, not_or] at hj
    exact (Function.update_of_ne hj.2 c mem'.outp).trans (h.untouched j hj.1)

theorem Confined.putDigits (h : Confined n m mem mem') {i : Nat} (hi : i + 5 ≤ m)
    (chunk : UInt32) : Confined n m mem (mem'.putDigits i chunk) := by
  unfold DecodeMemory.putDigits
  exact ((((h.put (by omega) _).put (by omega) _).put (by omega) _).put (by omega) _).put
    (by omega) _

theorem groupReads_lt (inRover : Nat) : ∀ i ∈ groupReads n inRover, i < n := by
  intro i hi
  simpa using (List.mem_filter.mp hi).2

/-- What is counted so far stands for whole groups, so that there is room for the
five characters of one more. -/
theorem encodeTrace_confined (inp : Nat → UInt8) (fuel : Nat) {inRover outLength : Nat}
    (hgroups : inRover < n → inRover % 4 = 0 ∧ outLength ≤ inRover / 4 * 5)
    (h : Confined n ((n + 3) / 4 * 5) mem mem') :
    Confined n ((n + 3) / 4 * 5) mem (encodeTrace inp n fuel inRover outLength mem').2 := by
  induction fuel generalizing inRover outLength mem' with
  | zero => exact h
  | succ fuel ih =>
    unfold encodeTrace
    split
    · rename_i hlt
      obtain ⟨hmod, hout⟩ := hgroups hlt
      have hread := h.read (groupReads_lt inRover)
      have hroom : outLength + 5 ≤ (n + 3) / 4 * 5 := by omega
      simp only
      split
      · exact ih (fun _ => by omega) (hread.put (by omega) _)
      · split
        · exact ih (fun _ => by omega) (hread.putDigits hroom _)
        · exact ih (fun hend => absurd hend (Nat.lt_irrefl n)) (hread.putDigits hroom _)
    · exact h

/-- A character behind a text lengthens it. -/
theorem window_put {out : Bytes} (h : window mem.outp 0 out.length = out) (c : UInt8) :
    window (mem.put out.length c).outp 0 (out.length + 1) = out ++ [c] := by
  have hsame : window (mem.put out.length c).outp 0 out.length = out := by
    refine (List.map_congr_left fun i hi => ?_).trans h
    have hlt : i < out.length := by simpa using hi
    exact Function.update_of_ne (Nat.ne_of_lt hlt) c mem.outp
  have hlast : (mem.put out.length c).outp out.length = c := Function.update_self ..
  unfold window at hsame ⊢
  rw [Nat.sub_zero] at hsame ⊢
  rw [List.range'_concat, List.map_append, hsame]
  simp [hlast]

/-- The digits of a group lie behind the text, in their order. -/
theorem window_putDigits {out : Bytes} (h : window mem.outp 0 out.length = out) (chunk : UInt32)
    {k : Nat} (hk : k ≤ 5) : window (mem.putDigits out.length chunk).outp 0 (out.length + k) =
      out ++ (encodeChunk chunk).take k := by
  have hbelow : ∀ i < out.length, (mem.putDigits out.length chunk).outp i = mem.outp i := by
    intro i hi
    simp only [DecodeMemory.putDigits, DecodeMemory.put]
    rw [Function.update_of_ne (by omega), Function.update_of_ne (by omega),
      Function.update_of_ne (by omega), Function.update_of_ne (by omega),
      Function.update_of_ne (by omega)]
  have hsame : window (mem.putDigits out.length chunk).outp 0 out.length = out := by
    refine (List.map_congr_left fun i hi => hbelow i ?_).trans h
    simpa using hi
  have hdigits : (List.range' out.length 5).map (mem.putDigits out.length chunk).outp =
      encodeChunk chunk := by
    rw [show List.range' out.length 5 = [out.length, out.length + 1, out.length + 2,
      out.length + 3, out.length + 4] from rfl]
    simp [DecodeMemory.putDigits, DecodeMemory.put, encodeChunk]
  have htake : (List.range' out.length k).map (mem.putDigits out.length chunk).outp =
      (encodeChunk chunk).take k := by
    rw [← hdigits, ← List.map_take, List.take_range'_of_length_ge hk]
  unfold window at hsame ⊢
  rw [Nat.sub_zero] at hsame ⊢
  have hsplit : List.range' 0 (out.length + k) =
      List.range' 0 out.length ++ List.range' out.length k := by
    rw [← List.range'_append_1, Nat.zero_add]
  rw [hsplit, List.map_append, hsame, htake]

/-- The loop with its memory is the loop without it. -/
theorem encodeTrace_eq (inp : Nat → UInt8) (fuel inRover : Nat) {out : Bytes}
    (h : window mem.outp 0 out.length = out) :
    let r := encodeTrace inp n fuel inRover out.length mem
    let text := encodeLoop inp n fuel inRover out
    r.1 = text.length ∧ window r.2.outp 0 text.length = text := by
  induction fuel generalizing inRover out mem with
  | zero => exact ⟨rfl, h⟩
  | succ fuel ih =>
    have hread : ∀ is, window (mem.read is).outp 0 out.length = out := fun is => h
    unfold encodeTrace encodeLoop
    split
    · simp only
      split
      · have hput := window_put (hread (groupReads n inRover)) 122
        have hlength : out.length + 1 = (out ++ [(122 : UInt8)]).length := by simp
        rw [hlength] at hput ⊢
        exact ih (inRover + 4) hput
      · have hdigits := fun k hk => window_putDigits (hread (groupReads n inRover))
          (inputChunk inp n inRover) (k := k) hk
        split
        · have hlength : out.length + 5 =
              (out ++ encodeChunk (inputChunk inp n inRover)).length := by simp [encodeChunk]
          have hput := hdigits 5 (Nat.le_refl 5)
          rw [hlength, show (encodeChunk (inputChunk inp n inRover)).take 5 =
            encodeChunk (inputChunk inp n inRover) from rfl] at hput
          rw [hlength]
          exact ih (inRover + 4) hput
        · have hlength : out.length + (n - inRover + 1) =
              (out ++ (encodeChunk (inputChunk inp n inRover)).take (n - inRover + 1)).length := by
            simp [encodeChunk]
            omega
          have hput := hdigits (n - inRover + 1) (by omega)
          rw [hlength] at hput ⊢
          exact ih n hput
    · exact ⟨rfl, h⟩

end Memory

/-! ## The length of a text -/

/-- A whole group takes five characters, or one if it is a word of zeros; a shorter
one takes a character more than it has bytes. -/
theorem length_encodeGroup {g : Bytes} (h4 : g.length ≤ 4) : (encodeGroup g).length =
    if groupNumber g = 0 ∧ g.length = 4 then 1 else g.length + 1 := by
  split
  · rename_i hz
    rw [encodeGroup, if_pos hz]
    rfl
  · exact (encodeGroup_value h4 ‹_›).1

/-- The number of a whole group is zero only for a word of zeros. -/
theorem groupNumber_zero {g : Bytes} (h4 : g.length = 4) :
    groupNumber g = 0 ↔ g = [0, 0, 0, 0] := by
  have hbytes : bigEndian g.length (groupNumber g) = g := bigEndian_groupNumber h4.le rfl
  refine ⟨fun h => ?_, fun h => by rw [h]; rfl⟩
  rw [← hbytes, h, h4]
  rfl

/-- **The length of an encoding**: a character more than bytes for every started
group, less four for each word of zeros. -/
theorem length_referenceEncode (s : Bytes) :
    (referenceEncode s).length + 4 * zeroWords s = s.length + (s.length + 3) / 4 := by
  fun_induction zeroWords s with
  | case1 a b c d s ih =>
    have hfour : [a, b, c, d].length = 4 := rfl
    have hgroup := referenceEncode_group (List.cons_ne_nil a [b, c, d]) (.inl hfour : _ ∨ s = [])
      hfour.le
    have hlength := length_encodeGroup hfour.le
    rw [show a :: b :: c :: d :: s = [a, b, c, d] ++ s from rfl, hgroup, List.length_append,
      List.length_append, hlength, hfour]
    simp only [groupNumber_zero hfour, and_true]
    split <;> omega
  | case2 s hshort =>
    have hlt : s.length < 4 := by
      rcases s with _ | ⟨a, _ | ⟨b, _ | ⟨c, _ | ⟨d, s⟩⟩⟩⟩
      case cons.cons.cons.cons => exact (hshort a b c d s rfl).elim
      all_goals simp
    by_cases hs : s = []
    · subst hs
      rw [referenceEncode]
      rfl
    · have hgroup := referenceEncode_group hs (.inr rfl : _ ∨ ([] : Bytes) = []) hlt.le
      rw [List.append_nil, referenceEncode, List.append_nil] at hgroup
      have hlength := length_encodeGroup hlt.le
      rw [if_neg fun h => absurd h.2 (Nat.ne_of_lt hlt)] at hlength
      have hpos := List.length_pos_iff.mpr hs
      rw [hgroup, hlength]
      omega

/-! ## The encoder is exact -/

/-- The reference with the conditions on the lengths. -/
def referenceEncodeAscii85 (data : Bytes) (inLength outMaxLength : Int) : Except Int Bytes :=
  if inLength < 0 ∨ ascii85InLengthMax < inLength then .error ascii85ErrInBufTooLarge
  else if outMaxLength < (inLength + 3) / 4 * 5 then .error ascii85ErrOutBufTooSmall
  else .ok (referenceEncode data)

/-- The encoder stays in its buffers, and returns what the reference returns: an
error with nothing read or stored, or the text, of the length that its data says. -/
structure EncodesExactly (inp outp : Nat → UInt8) (inLength outMaxLength : Int)
    (r : Int × DecodeMemory) : Prop where
  reads : ∀ i ∈ r.2.reads, (i : Int) < inLength
  stores : ∀ i ∈ r.2.stores, (i : Int) < outMaxLength
  untouched : ∀ i, i ∉ r.2.stores → r.2.outp i = outp i
  result : match referenceEncodeAscii85 (window inp 0 inLength.toNat) inLength outMaxLength with
    | .error rc => r = (rc, ⟨outp, [], []⟩)
    | .ok text => r.1 = text.length ∧ window r.2.outp 0 text.length = text ∧
        r.1 + 4 * zeroWords (window inp 0 inLength.toNat) = inLength + (inLength + 3) / 4

/-- **The encoder is exact** on all data, of whatever length, and for every
capacity. -/
theorem encodeAscii85_exact (inp outp : Nat → UInt8) (inLength outMaxLength : Int) :
    EncodesExactly inp outp inLength outMaxLength
      (encodeAscii85Trace inp outp inLength outMaxLength) := by
  unfold encodeAscii85Trace ascii85GetMaxEncodedLength
  simp only
  by_cases hlarge : inLength < 0 ∨ ascii85InLengthMax < inLength
  · rw [if_pos hlarge, if_pos (show ascii85ErrInBufTooLarge < 0 by decide)]
    refine ⟨by simp, by simp, fun _ _ => rfl, ?_⟩
    rw [referenceEncodeAscii85, if_pos hlarge]
  · have hnonneg : 0 ≤ inLength := by omega
    rw [if_neg hlarge, if_neg (show ¬ (inLength + 3) / 4 * 5 < 0 by omega)]
    by_cases hsmall : outMaxLength < (inLength + 3) / 4 * 5
    · rw [if_pos hsmall]
      refine ⟨by simp, by simp, fun _ _ => rfl, ?_⟩
      rw [referenceEncodeAscii85, if_neg hlarge, if_pos hsmall]
    · rw [if_neg hsmall]
      obtain ⟨n, rfl⟩ := Int.eq_ofNat_of_zero_le hnonneg
      rw [Int.toNat_natCast]
      have hstart : 0 < n → 0 % 4 = 0 ∧ 0 ≤ 0 / 4 * 5 := fun _ => ⟨rfl, Nat.le_refl 0⟩
      have hconfined := encodeTrace_confined inp n hstart (.refl ⟨outp, [], []⟩)
      obtain ⟨hlength, htext⟩ := encodeTrace_eq inp n 0
        (show window (DecodeMemory.mk outp [] []).outp 0 ([] : Bytes).length = [] from rfl)
      rw [encodeLoop_reference (Nat.le_add_left n 0), List.nil_append] at hlength htext
      have hcount := length_referenceEncode (window inp 0 n)
      rw [length_window, Nat.sub_zero] at hcount
      refine ⟨fun i hi => ?_, fun i hi => ?_, hconfined.untouched, ?_⟩
      · rcases hconfined.reads i hi with hi | hi
        · cases hi
        · omega
      · rcases hconfined.stores i hi with hi | hi
        · cases hi
        · omega
      · rw [referenceEncodeAscii85, if_neg hlarge, if_neg hsmall, Int.toNat_natCast]
        exact ⟨hlength, htext, by rw [show (encodeTrace inp n n 0 0 _).1 = _ from hlength]; omega⟩

end Sdkz.Hu
