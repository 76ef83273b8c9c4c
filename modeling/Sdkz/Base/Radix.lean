import Mathlib.Data.List.Induction
import Mathlib.Tactic.Ring
import Sdkz.Base.Numeral

/-! # Digits of a fixed number

A number is cut into a fixed number of digits, most significant first. Leaving
out the last digits rounds down to a multiple of a power of the base, and putting
the largest digit in their place rounds up to one less than the next multiple.
Two bases meet in `pad_div`: if the padded number is read in a larger base, the
digits in front are those of a number that ended in zeros there. -/

namespace Sdkz.Base

/-- The last `n` digits of `v` in base `b`, most significant first. -/
def radix (b : Nat) : Nat → Nat → List Nat
  | 0, _ => []
  | n + 1, v => radix b n (v / b) ++ [v % b]

section Radix
variable {b : Nat}

@[simp] theorem length_radix (n v : Nat) : (radix b n v).length = n := by
  induction n generalizing v with
  | zero => rfl
  | succ n ih => simp [radix, ih]

theorem radix_lt (hb : 0 < b) {n v d : Nat} (hd : d ∈ radix b n v) : d < b := by
  induction n generalizing v with
  | zero => cases hd
  | succ n ih =>
    rcases List.mem_append.mp hd with hd | hd
    · exact ih hd
    · rw [List.mem_singleton.mp hd]
      exact Nat.mod_lt _ hb

/-- The digits in front are those of the quotient. -/
theorem take_radix (n k v : Nat) : (radix b (n + k) v).take n = radix b n (v / b ^ k) := by
  induction k generalizing v with
  | zero => rw [Nat.add_zero, Nat.pow_zero, Nat.div_one, List.take_of_length_le (by simp)]
  | succ k ih =>
    have hlen : n ≤ (radix b (n + k) (v / b)).length := by simp
    rw [← Nat.add_assoc, radix, List.take_append_of_le_length hlen, ih, Nat.div_div_eq_div_mul,
      Nat.pow_succ']

@[simp] theorem digitsValue_nil : digitsValue b [] = 0 := rfl

theorem digitsValue_append (xs ys : List Nat) :
    digitsValue b (xs ++ ys) = digitsValue b xs * b ^ ys.length + digitsValue b ys := by
  rw [digitsValue, List.reverse_append, Nat.ofDigits_append, List.length_reverse, ← digitsValue,
    ← digitsValue]
  ring

theorem digitsValue_concat (xs : List Nat) (d : Nat) :
    digitsValue b (xs ++ [d]) = digitsValue b xs * b + d := by
  rw [digitsValue_append]
  simp [digitsValue]

theorem digitsValue_radix {n v : Nat} (h : v < b ^ n) : digitsValue b (radix b n v) = v := by
  induction n generalizing v with
  | zero => simp_all [radix]
  | succ n ih =>
    rw [radix, digitsValue_concat, ih (Nat.div_lt_of_lt_mul (Nat.pow_succ' ▸ h)), Nat.mul_comm,
      Nat.div_add_mod]

theorem digitsValue_lt {ds : List Nat} (h : ∀ d ∈ ds, d < b) :
    digitsValue b ds < b ^ ds.length := by
  induction ds using List.reverseRecOn with
  | nil => simp
  | append_singleton ds d ih =>
    have hds := ih fun x hx => h x (by simp [hx])
    have hd := h d (by simp)
    rw [digitsValue_concat, List.length_append, List.length_singleton, Nat.pow_succ]
    calc digitsValue b ds * b + d < digitsValue b ds * b + b := by omega
      _ = (digitsValue b ds + 1) * b := by ring
      _ ≤ b ^ ds.length * b := Nat.mul_le_mul_right b hds

theorem radix_digitsValue (hb : 0 < b) {ds : List Nat} (h : ∀ d ∈ ds, d < b) :
    radix b ds.length (digitsValue b ds) = ds := by
  induction ds using List.reverseRecOn with
  | nil => rfl
  | append_singleton ds d ih =>
    have hd := h d (by simp)
    rw [List.length_append, List.length_singleton, radix, digitsValue_concat,
      Nat.mul_comm, Nat.mul_add_div hb, Nat.mul_add_mod, Nat.div_eq_of_lt hd, Nat.mod_eq_of_lt hd,
      Nat.add_zero, ih fun x hx => h x (by simp [hx])]

theorem digitsValue_zeros (k : Nat) : digitsValue b (List.replicate k 0) = 0 := by
  induction k with
  | zero => rfl
  | succ k ih => rw [List.replicate_succ', digitsValue_concat, ih, Nat.zero_mul]

/-- The largest number of `k` digits. -/
theorem digitsValue_largest (hb : 0 < b) (k : Nat) :
    digitsValue b (List.replicate k (b - 1)) = b ^ k - 1 := by
  induction k with
  | zero => simp
  | succ k ih =>
    have hpow : 1 ≤ b ^ k := Nat.pow_pos hb
    rw [List.replicate_succ', digitsValue_concat, ih, Nat.pow_succ, Nat.sub_mul, Nat.one_mul]
    have := Nat.mul_le_mul_right b hpow
    omega

/-! ## Leaving out digits and padding -/

/-- The last `k` of `n + k` digits replaced by the largest one. -/
theorem digitsValue_padded (hb : 0 < b) {n k v : Nat} (h : v < b ^ (n + k)) :
    digitsValue b ((radix b (n + k) v).take n ++ List.replicate k (b - 1)) =
      v / b ^ k * b ^ k + (b ^ k - 1) := by
  have hlt : v / b ^ k < b ^ n := by
    rw [Nat.div_lt_iff_lt_mul (Nat.pow_pos hb), ← Nat.pow_add]
    exact h
  rw [digitsValue_append, List.length_replicate, digitsValue_largest hb, take_radix,
    digitsValue_radix hlt]

variable {c k v : Nat}

theorem le_pad (hb : 0 < b) : v ≤ v / b ^ k * b ^ k + (b ^ k - 1) := by
  have hdiv := Nat.div_add_mod v (b ^ k)
  have hmod := Nat.mod_lt v (Nat.pow_pos (n := k) hb)
  rw [Nat.mul_comm] at hdiv
  omega

theorem pad_lt (hb : 0 < b) (hbc : b ≤ c) : v / b ^ k * b ^ k + (b ^ k - 1) < v + c ^ k := by
  have hdiv := Nat.div_mul_le_self v (b ^ k)
  have hpow := Nat.pow_le_pow_left hbc k
  have hpos := Nat.pow_pos (n := k) hb
  omega

/-- Padding does not reach the digits in front of the zeros in a larger base. -/
theorem pad_div (hb : 0 < b) (hbc : b ≤ c) (hv : c ^ k ∣ v) :
    (v / b ^ k * b ^ k + (b ^ k - 1)) / c ^ k = v / c ^ k := by
  obtain ⟨q, rfl⟩ := hv
  have hc : 0 < c ^ k := Nat.pow_pos (Nat.lt_of_lt_of_le hb hbc)
  have hle := le_pad (v := c ^ k * q) (k := k) hb
  have hlt := pad_lt (v := c ^ k * q) (k := k) hb hbc
  rw [Nat.mul_div_cancel_left q hc]
  apply Nat.div_eq_of_lt_le
  · rw [Nat.mul_comm q]
    exact hle
  · rw [Nat.succ_mul, Nat.mul_comm q]
    exact hlt

end Radix

end Sdkz.Base
