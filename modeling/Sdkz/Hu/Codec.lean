import Sdkz.Base.Radix
import Sdkz.Hu.Ascii85

/-! # What the codec computes

The reference works on lists and on numbers without bounds: a group of up to four
bytes is a number in base 256, its text the first digits of that number in base
85. The decoder fills a short group up with the largest digit; behind a group
that was filled up with zero bytes the padding is too small to reach the bytes in
front. -/

namespace Sdkz.Hu
open Sdkz.Base

/-! ## Groups -/

/-- The number of a group of bytes, filled up with zeros to four. -/
def groupNumber (g : Bytes) : Nat :=
  digitsValue 256 (g.map UInt8.toNat ++ List.replicate (4 - g.length) 0)

/-- The value of a group of characters, filled up with the digit 84 to five. -/
def groupValue (g : Bytes) : Nat :=
  digitsValue 85 ((g.map fun c => c.toNat - 33) ++ List.replicate (5 - g.length) 84)

def encodeGroup (g : Bytes) : Bytes :=
  if groupNumber g = 0 ∧ g.length = 4 then [122]
  else ((radix 85 5 (groupNumber g)).take (g.length + 1)).map fun d => (d + 33).toUInt8

/-- The first bytes of a value, most significant first. -/
def bigEndian (n v : Nat) : Bytes := ((radix 256 4 v).take n).map Nat.toUInt8

/-! ## Texts -/

def referenceEncode : Bytes → Bytes
  | [] => []
  | c :: s => encodeGroup ((c :: s).take 4) ++ referenceEncode ((c :: s).drop 4)
termination_by s => s.length

/-- Group by group from the left: the error of the first group that has one, or
the bytes of all groups. -/
def referenceDecode : Bytes → Except Int Bytes
  | [] => .ok []
  | c :: s =>
    if c = 122 then (referenceDecode s).map (bigEndian 4 0 ++ ·)
    else
      let g := (c :: s).take 5
      if g.any ascii85CharNg then .error ascii85ErrBadDecodeChar
      else if 2 ^ 32 ≤ groupValue g then .error ascii85ErrDecodeOverflow
      else (referenceDecode ((c :: s).drop 5)).map (bigEndian (g.length - 1) (groupValue g) ++ ·)
termination_by s => s.length

theorem referenceEncode_group {g s : Bytes} (hg : g ≠ []) (h : g.length = 4 ∨ s = [])
    (h4 : g.length ≤ 4) :
    referenceEncode (g ++ s) = encodeGroup g ++ referenceEncode s := by
  obtain ⟨c, t, rfl⟩ := List.exists_cons_of_ne_nil hg
  have htake : (c :: t ++ s).take 4 = c :: t := by
    rcases h with h | rfl
    · rw [← h, List.take_left]
    · rw [List.append_nil, List.take_of_length_le h4]
  have hdrop : (c :: t ++ s).drop 4 = s := by
    rcases h with h | rfl
    · rw [← h, List.drop_left]
    · rw [List.append_nil, List.drop_of_length_le h4]
  rw [List.cons_append] at *
  rw [referenceEncode, htake, hdrop]

theorem referenceDecode_zero (s : Bytes) :
    referenceDecode (122 :: s) = (referenceDecode s).map (bigEndian 4 0 ++ ·) := by
  rw [referenceDecode, if_pos rfl]

/-- A well-formed group whose value fits. -/
theorem referenceDecode_group {g s : Bytes} (hg : g ≠ []) (h : g.length = 5 ∨ s = [])
    (h5 : g.length ≤ 5) (hchars : ∀ c ∈ g, ascii85CharNg c = false)
    (hv : groupValue g < 2 ^ 32) : referenceDecode (g ++ s) =
      (referenceDecode s).map (bigEndian (g.length - 1) (groupValue g) ++ ·) := by
  obtain ⟨c, t, rfl⟩ := List.exists_cons_of_ne_nil hg
  have htake : (c :: t ++ s).take 5 = c :: t := by
    rcases h with h | rfl
    · rw [← h, List.take_left]
    · rw [List.append_nil, List.take_of_length_le h5]
  have hdrop : (c :: t ++ s).drop 5 = s := by
    rcases h with h | rfl
    · rw [← h, List.drop_left]
    · rw [List.append_nil, List.drop_of_length_le h5]
  have hz : c ≠ 122 := by
    rintro rfl
    exact absurd (hchars 122 (by simp)) (by decide)
  have hany : ¬ (c :: t).any ascii85CharNg = true := by simpa using hchars
  rw [List.cons_append] at *
  rw [referenceDecode, if_neg hz]
  simp only [htake, hdrop]
  rw [if_neg hany, if_neg (by omega)]

/-! ## A group there and back -/

theorem groupNumber_lt {g : Bytes} (h4 : g.length ≤ 4) : groupNumber g < 2 ^ 32 := by
  have hbytes : ∀ d ∈ g.map UInt8.toNat ++ List.replicate (4 - g.length) 0, d < 256 := by
    intro d hd
    rcases List.mem_append.mp hd with hd | hd
    · obtain ⟨c, -, rfl⟩ := List.mem_map.mp hd
      exact c.toNat_lt
    · rw [List.eq_of_mem_replicate hd]
      decide
  have hlt := digitsValue_lt hbytes
  rw [List.length_append, List.length_map, List.length_replicate, Nat.add_sub_cancel' h4] at hlt
  exact hlt

theorem groupNumber_eq (g : Bytes) :
    groupNumber g = digitsValue 256 (g.map UInt8.toNat) * 256 ^ (4 - g.length) := by
  rw [groupNumber, digitsValue_append, digitsValue_zeros, List.length_replicate, Nat.add_zero]

/-- The bytes of the number come back, also behind any padding that keeps the
quotient by the zeros. -/
theorem bigEndian_groupNumber {g : Bytes} (h4 : g.length ≤ 4) {v : Nat}
    (hv : v / 256 ^ (4 - g.length) = groupNumber g / 256 ^ (4 - g.length)) :
    bigEndian g.length v = g := by
  have hbytes : radix 256 g.length (digitsValue 256 (g.map UInt8.toNat)) = g.map UInt8.toNat := by
    have hlt : ∀ d ∈ g.map UInt8.toNat, d < 256 := by
      intro d hd
      obtain ⟨c, -, rfl⟩ := List.mem_map.mp hd
      exact c.toNat_lt
    have hback := radix_digitsValue (by decide) hlt
    rwa [List.length_map] at hback
  have hsplit : 4 = g.length + (4 - g.length) := (Nat.add_sub_cancel' h4).symm
  rw [bigEndian]
  conv_lhs => rw [hsplit]
  rw [take_radix, hv, groupNumber_eq,
    Nat.mul_div_cancel _ (Nat.pow_pos (by decide)), hbytes, List.map_map]
  exact (List.map_congr_left fun c _ => by simp).trans (List.map_id g)

theorem digit_char {d : Nat} (h : d < 85) : ((d + 33).toUInt8).toNat - 33 = d ∧
    ascii85CharNg (d + 33).toUInt8 = false :=
  (show ∀ d < 85, ((d + 33).toUInt8).toNat - 33 = d ∧ ascii85CharNg (d + 33).toUInt8 = false by
    decide) d h

/-- The text of a group that is not a `z`: its characters are digits, and their
value is the number of the group, rounded up to the padding. -/
theorem encodeGroup_value {g : Bytes} (h4 : g.length ≤ 4)
    (hz : ¬ (groupNumber g = 0 ∧ g.length = 4)) :
    (encodeGroup g).length = g.length + 1 ∧ (∀ c ∈ encodeGroup g, ascii85CharNg c = false) ∧
      groupValue (encodeGroup g) = groupNumber g / 85 ^ (4 - g.length) * 85 ^ (4 - g.length) +
        (85 ^ (4 - g.length) - 1) := by
  have hlen : (encodeGroup g).length = g.length + 1 := by
    rw [encodeGroup, if_neg hz, List.length_map, List.length_take, length_radix]
    omega
  have hdigits : ∀ d ∈ (radix 85 5 (groupNumber g)).take (g.length + 1), d < 85 :=
    fun d hd => radix_lt (by decide) (List.mem_of_mem_take hd)
  refine ⟨hlen, fun c hc => ?_, ?_⟩
  · rw [encodeGroup, if_neg hz] at hc
    obtain ⟨d, hd, rfl⟩ := List.mem_map.mp hc
    exact (digit_char (hdigits d hd)).2
  · have hback : (encodeGroup g).map (fun c => c.toNat - 33) =
        (radix 85 5 (groupNumber g)).take (g.length + 1) := by
      rw [encodeGroup, if_neg hz, List.map_map]
      exact (List.map_congr_left fun d hd => (digit_char (hdigits d hd)).1).trans (List.map_id _)
    have hsplit : 5 = g.length + 1 + (4 - g.length) := by omega
    have hrest : 5 - (g.length + 1) = 4 - g.length := by omega
    have hlt : groupNumber g < 85 ^ (g.length + 1 + (4 - g.length)) := by
      rw [← hsplit]
      exact Nat.lt_trans (groupNumber_lt h4) (by decide)
    rw [groupValue, hback, hlen, hrest]
    have hpad := digitsValue_padded (b := 85) (by decide) hlt
    rwa [← hsplit] at hpad

/-- **A group decodes to the bytes it was made of.** -/
theorem decode_encodeGroup {g s : Bytes} (h4 : g.length ≤ 4) (h : g.length = 4 ∨ s = []) :
    referenceDecode (encodeGroup g ++ s) = (referenceDecode s).map (g ++ ·) := by
  by_cases hz : groupNumber g = 0 ∧ g.length = 4
  · have hbytes : bigEndian 4 0 = g := by
      rw [← hz.2]
      exact bigEndian_groupNumber h4 (by rw [hz.1])
    rw [encodeGroup, if_pos hz, List.cons_append, List.nil_append, referenceDecode_zero, hbytes]
  · obtain ⟨hlen, hchars, hvalue⟩ := encodeGroup_value h4 hz
    have hdvd : 256 ^ (4 - g.length) ∣ groupNumber g := by
      rw [groupNumber_eq]
      exact Nat.dvd_mul_left _ _
    have hfits : groupValue (encodeGroup g) < 2 ^ 32 := by
      -- the next multiple of the padding is still below the end of the word
      obtain ⟨q, hq⟩ := hdvd
      have hword : 256 ^ (4 - g.length) * 256 ^ g.length = 2 ^ 32 := by
        rw [← Nat.pow_add, Nat.sub_add_cancel h4]
        rfl
      have hlt : q < 256 ^ g.length := by
        have := groupNumber_lt h4
        rw [hq, ← hword] at this
        exact Nat.lt_of_mul_lt_mul_left this
      have hnext := Nat.mul_le_mul_left (256 ^ (4 - g.length)) (show q + 1 ≤ 256 ^ g.length from hlt)
      have hpad := pad_lt (b := 85) (c := 256) (k := 4 - g.length) (v := groupNumber g)
        (by decide) (by decide)
      rw [Nat.mul_add, Nat.mul_one, ← hq, hword] at hnext
      rw [hvalue]
      omega
    have hne : encodeGroup g ≠ [] := fun e => by simp [e] at hlen
    have hfull : (encodeGroup g).length = 5 ∨ s = [] := h.imp_left fun h => by rw [hlen, h]
    rw [referenceDecode_group hne hfull (by omega) hchars hfits, hlen, Nat.add_sub_cancel,
      bigEndian_groupNumber h4 (by rw [hvalue]; exact pad_div (by decide) (by decide) hdvd)]

/-- **Decoding undoes encoding**, whatever the length and wherever the zero groups
are. -/
theorem referenceDecode_encode (s : Bytes) : referenceDecode (referenceEncode s) = .ok s := by
  induction hn : s.length using Nat.strong_induction_on generalizing s with
  | _ n ih =>
    by_cases hs : s = []
    · subst hs
      rw [referenceEncode, referenceDecode]
    · -- the first group and the rest, which is empty behind a short group
      have hlen : 0 < s.length := List.length_pos_iff.mpr hs
      have hgroup : s.take 4 ≠ [] := by simpa using hs
      have h4 : (s.take 4).length ≤ 4 := by simp
      have hfull : (s.take 4).length = 4 ∨ s.drop 4 = [] := by
        rw [List.length_take, List.drop_eq_nil_iff]
        omega
      have hrest := ih (s.drop 4).length (by rw [List.length_drop]; omega) (s.drop 4) rfl
      have hencode := referenceEncode_group hgroup hfull h4
      rw [List.take_append_drop] at hencode
      have htail : (s.take 4).length = 4 ∨ referenceEncode (s.drop 4) = [] :=
        hfull.imp_right fun h => by rw [h, referenceEncode]
      rw [hencode, decode_encodeGroup h4 htail, hrest]
      exact congrArg Except.ok (List.take_append_drop 4 s)

end Sdkz.Hu
