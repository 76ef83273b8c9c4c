import Mathlib.Data.Nat.Digits.Lemmas
import Sdkz.Base.CString

/-! # Numbers as text: `itoa`, `strtol` and `strtoul`

The C library functions that turn a number into text and back, for a target
whose `long` has 32 bits. `itoa` writes no leading zero and lower-case digits;
the readers skip white space, take one sign and, in base 16, an optional `0x`,
read as many digits as there are, and saturate. -/

namespace Sdkz.Base

/-- The character of a digit below 36, as `itoa` writes it. -/
def digitChar (d : Nat) : UInt8 := if d < 10 then (48 + d).toUInt8 else (87 + d).toUInt8

/-- The digits of `n`, most significant first; a single zero for zero. -/
def utoa (base n : Nat) : Bytes :=
  if n = 0 then [48] else (Nat.digits base n).reverse.map digitChar

/-- `itoa(v, buf, 10)`. -/
def itoa10 (v : Int) : Bytes :=
  if v < 0 then 45 :: utoa 10 v.natAbs else utoa 10 v.natAbs

/-- `itoa(v, buf, 16)`: any base but ten takes the argument as unsigned. -/
def itoa16 (v : Nat) : Bytes := utoa 16 v

/-- The value of a digit character, letters in either case. -/
def digitVal (c : UInt8) : Option Nat :=
  if 48 ≤ c ∧ c ≤ 57 then some (c.toNat - 48)
  else if 97 ≤ c ∧ c ≤ 122 then some (c.toNat - 87)
  else if 65 ≤ c ∧ c ≤ 90 then some (c.toNat - 55)
  else none

/-- The digits a text starts with. -/
def scanDigits (base : Nat) : Bytes → List Nat
  | [] => []
  | c :: s => match digitVal c with
    | some d => if d < base then d :: scanDigits base s else []
    | none => []

/-- The number a digit sequence denotes, most significant digit first. -/
def digitsValue (base : Nat) (ds : List Nat) : Nat := Nat.ofDigits base ds.reverse

def isSpace (c : UInt8) : Bool := c == 32 || (9 ≤ c && c ≤ 13)

def scanSign : Bytes → Bool × Bytes
  | [] => (false, [])
  | c :: s => if c = 45 then (true, s) else if c = 43 then (false, s) else (false, c :: s)

def isHexDigit (c : UInt8) : Bool := (digitVal c).any (· < 16)

/-- In base 16 a `0x` counts as a prefix only if a digit follows it. -/
def skipPrefix (base : Nat) : Bytes → Bytes
  | z :: x :: d :: s =>
    if base = 16 ∧ z = 48 ∧ (x = 120 ∨ x = 88) ∧ isHexDigit d then d :: s else z :: x :: d :: s
  | s => s

/-- Sign and magnitude of the number a text starts with. -/
def scanNumber (base : Nat) (s : Bytes) : Bool × Nat :=
  let (neg, s) := scanSign (s.dropWhile isSpace)
  (neg, digitsValue base (scanDigits base (skipPrefix base s)))

def ulongMax : Nat := 2 ^ 32 - 1

def strtoul (base : Nat) (s : Bytes) : Nat :=
  let (neg, v) := scanNumber base s
  if ulongMax < v then ulongMax else if neg then (2 ^ 32 - v) % 2 ^ 32 else v

def strtol (base : Nat) (s : Bytes) : Int :=
  let (neg, v) := scanNumber base s
  let v : Int := if neg then -(v : Int) else v
  max (-2 ^ 31) (min (2 ^ 31 - 1) v)

/-! ## Reading back what was written -/

/-- A statement about a byte is checked value by value. -/
theorem forall_byte {P : UInt8 → Prop} (h : ∀ n < 256, P (UInt8.ofNat n)) (c : UInt8) : P c := by
  simpa using h c.toNat c.toNat_lt

theorem digitVal_digitChar {d : Nat} (h : d < 36) : digitVal (digitChar d) = some d :=
  (show ∀ d < 36, digitVal (digitChar d) = some d by decide) d h

theorem scanDigits_map {base : Nat} {ds : List Nat} (hb : base ≤ 36) (h : ∀ d ∈ ds, d < base) :
    scanDigits base (ds.map digitChar) = ds := by
  induction ds with
  | nil => rfl
  | cons d ds ih =>
    have hd := h d (by simp)
    simp [scanDigits, digitVal_digitChar (Nat.lt_of_lt_of_le hd hb), hd,
      ih fun x hx => h x (by simp [hx])]

theorem utoa_eq_map (base n : Nat) (hb : 1 < base) :
    ∃ ds, utoa base n = ds.map digitChar ∧ ds ≠ [] ∧ (∀ d ∈ ds, d < base) ∧
      digitsValue base ds = n := by
  by_cases hn : n = 0
  · exact ⟨[0], by simp [utoa, hn, digitChar], by simp, by simp; omega, by simp [digitsValue, hn]⟩
  · refine ⟨(Nat.digits base n).reverse, by simp [utoa, hn], ?_, ?_, ?_⟩
    · simpa using Nat.digits_ne_nil_iff_ne_zero.mpr hn
    · intro d hd
      exact Nat.digits_lt_base hb (List.mem_reverse.mp hd)
    · simp [digitsValue, Nat.ofDigits_digits]

/-- A digit character is neither white space nor a sign. -/
theorem scanSign_digits {c : UInt8} (s : Bytes) (h : (digitVal c).isSome) :
    scanSign ((c :: s).dropWhile isSpace) = (false, c :: s) := by
  have hall : ∀ c : UInt8, (digitVal c).isSome → isSpace c = false ∧ c ≠ 45 ∧ c ≠ 43 :=
    forall_byte (by decide +kernel)
  obtain ⟨hs, h1, h2⟩ := hall c h
  simp [hs, scanSign, h1, h2]

/-- Hexadecimal digits leave no room for a `0x` prefix. -/
theorem skipPrefix_hex {s : Bytes} (h : ∀ c ∈ s, isHexDigit c) : skipPrefix 16 s = s := by
  unfold skipPrefix
  split
  · rename_i z x d s
    have hx : isHexDigit x = true := h x (by simp)
    have : x ≠ 120 ∧ x ≠ 88 := by
      constructor <;> (rintro rfl; revert hx; decide)
    simp [this]
  · rfl

theorem isHexDigit_isSome {c : UInt8} (h : isHexDigit c) : (digitVal c).isSome := by
  cases hv : digitVal c with
  | none => simp [isHexDigit, hv] at h
  | some d => rfl

/-- A text of hexadecimal digits is read as its value. -/
theorem scanNumber_hex {s : Bytes} (hne : s ≠ []) (h : ∀ c ∈ s, isHexDigit c) :
    scanNumber 16 s = (false, digitsValue 16 (scanDigits 16 s)) := by
  obtain ⟨c, t, rfl⟩ := List.exists_cons_of_ne_nil hne
  simp only [scanNumber, scanSign_digits t (isHexDigit_isSome (h c (by simp)))]
  rw [skipPrefix_hex h]

theorem isHexDigit_digitChar {d : Nat} (h : d < 16) : isHexDigit (digitChar d) := by
  simp [isHexDigit, digitVal_digitChar (show d < 36 by omega), h]

theorem itoa16_hex {n : Nat} {c : UInt8} (hc : c ∈ itoa16 n) : isHexDigit c := by
  obtain ⟨ds, he, -, hlt, -⟩ := utoa_eq_map 16 n (by omega)
  rw [itoa16, he] at hc
  obtain ⟨d, hd, rfl⟩ := List.mem_map.mp hc
  exact isHexDigit_digitChar (hlt d hd)

theorem itoa16_ne_nil (n : Nat) : itoa16 n ≠ [] := by
  obtain ⟨ds, he, hne, -, -⟩ := utoa_eq_map 16 n (by omega)
  simpa [itoa16, he] using hne

theorem scanNumber_itoa16 (n : Nat) : scanNumber 16 (itoa16 n) = (false, n) := by
  obtain ⟨ds, he, -, hlt, hv⟩ := utoa_eq_map 16 n (by omega)
  rw [scanNumber_hex (itoa16_ne_nil n) fun c hc => itoa16_hex hc]
  rw [itoa16, he, scanDigits_map (by omega) hlt, hv]

/-- `strtoul` reads back what `itoa` wrote in base 16. -/
theorem strtoul_itoa16 {n : Nat} (h : n < 2 ^ 32) : strtoul 16 (itoa16 n) = n := by
  simp only [strtoul, scanNumber_itoa16, ulongMax]
  rw [if_neg (by omega)]
  rfl

/-- `strtol` reads back what `itoa` wrote in base 16. -/
theorem strtol_itoa16 {n : Nat} (h : n < 2 ^ 31) : strtol 16 (itoa16 n) = n := by
  simp only [strtol, scanNumber_itoa16, Bool.false_eq_true, if_false]
  omega

/-! ## How long a number gets -/

theorem length_utoa_le {base n k : Nat} (hb : 1 < base) (hk : 0 < k) (h : n < base ^ k) :
    (utoa base n).length ≤ k := by
  unfold utoa
  split
  · exact hk
  · rw [List.length_map, List.length_reverse]
    exact (Nat.digits_length_le_iff hb n).mpr h

theorem length_itoa16_le {n : Nat} (h : n < 2 ^ 16) : (itoa16 n).length ≤ 4 :=
  length_utoa_le (by decide) (by decide) h

/-- The sign and ten digits of an `int`. -/
theorem length_itoa10_le {v : Int} (hlow : -2 ^ 31 ≤ v) (hhigh : v < 2 ^ 31) :
    (itoa10 v).length ≤ 11 := by
  have hdigits : (utoa 10 v.natAbs).length ≤ 10 :=
    length_utoa_le (by decide) (by decide) (by omega)
  unfold itoa10
  split
  · exact Nat.succ_le_succ hdigits
  · exact Nat.le_succ_of_le hdigits

/-! ## Which texts a number has -/

/-- Zero is the only number written as a zero. -/
theorem itoa10_eq_zero {v : Int} : itoa10 v = itoa10 0 ↔ v = 0 := by
  refine ⟨fun h => ?_, fun h => by rw [h]⟩
  obtain ⟨ds, he, hne, hlt, hv⟩ := utoa_eq_map 10 v.natAbs (by omega)
  have hzero : itoa10 0 = [48] := rfl
  have hdigits : utoa 10 v.natAbs = [48] := by
    unfold itoa10 at h
    split at h
    · rw [show utoa 10 (Int.natAbs 0) = [48] from rfl] at h
      cases h
    · exact h.trans hzero
  obtain ⟨d, rfl⟩ : ∃ d, ds = [d] := by
    rw [he, List.map_eq_singleton_iff] at hdigits
    exact hdigits.imp fun _ h => h.1
  have hd : d = 0 := by
    have hchar : digitChar d = 48 := by simpa [he] using hdigits
    exact (show ∀ d < 10, digitChar d = 48 → d = 0 by decide) d (hlt d (by simp)) hchar
  have hvalue : digitsValue 10 [d] = d := by simp [digitsValue]
  omega

/-- Every character of a number is a digit or the minus sign. -/
theorem itoa10_mem {v : Int} {c : UInt8} (hc : c ∈ itoa10 v) : c = 45 ∨ (48 ≤ c ∧ c ≤ 57) := by
  obtain ⟨ds, he, -, hlt, -⟩ := utoa_eq_map 10 v.natAbs (by omega)
  have hdig : ∀ d ∈ ds, 48 ≤ digitChar d ∧ digitChar d ≤ 57 := fun d hd =>
    (show ∀ d < 10, 48 ≤ digitChar d ∧ digitChar d ≤ 57 by decide) d (hlt d hd)
  unfold itoa10 at hc
  rw [he] at hc
  split at hc
  · rcases List.mem_cons.mp hc with rfl | hc
    · exact .inl rfl
    · obtain ⟨d, hd, rfl⟩ := List.mem_map.mp hc
      exact .inr (hdig d hd)
  · obtain ⟨d, hd, rfl⟩ := List.mem_map.mp hc
    exact .inr (hdig d hd)

end Sdkz.Base
