import Mathlib.Logic.Function.Basic
import Sdkz.Palloc.Model

/-! # Sizes without wrapping, and links far enough apart

The arithmetic of `size_t` is the arithmetic of numbers as long as nothing wraps.
A store into a link is seen by that link only, if the links in use are `Apart`. -/

namespace Sdkz.Palloc
open Sdkz.Base

variable {k a b n v : Nat}

/-! ## Sizes -/

theorem sizeofSizeT_pos (k : Nat) : 0 < sizeofSizeT k := Nat.two_pow_pos k

theorem sizeMod_eq (k : Nat) : sizeMod k = 256 ^ sizeofSizeT k := by
  have hbyte : 2 ^ 8 = 256 := rfl
  rw [sizeMod, pow_mul, hbyte]

theorem size_lt_sizeMod (k : Nat) : 8 * sizeofSizeT k < sizeMod k := Nat.lt_two_pow_self

theorem sizeMod_eq_double (k : Nat) : sizeMod k = 2 * pallocAllocated k := by
  have := sizeofSizeT_pos k
  rw [sizeMod, pallocAllocated, ← pow_succ', Nat.sub_add_cancel (by omega)]

theorem sizeAdd_eq (h : a + b < sizeMod k) : sizeAdd k a b = a + b := Nat.mod_eq_of_lt h

theorem sizeSub_eq (hb : b ≤ a) (ha : a < sizeMod k) : sizeSub k a b = a - b := by
  rw [sizeSub, show a + sizeMod k - b = a - b + sizeMod k by omega, Nat.add_mod_right,
    Nat.mod_eq_of_lt (by omega)]

/-- Clearing the low bits rounds down. -/
theorem and_not_mask (h : a < sizeMod k) :
    a &&& sizeNot k (alignedMask k) = a / sizeofSizeT k * sizeofSizeT k := by
  have hmask : alignedMask k < 2 ^ (8 * sizeofSizeT k) := by
    have := size_lt_sizeMod k
    rw [sizeMod] at this
    rw [alignedMask]
    omega
  have hnot : sizeNot k (alignedMask k) = 2 ^ (8 * sizeofSizeT k) - (alignedMask k + 1) := by
    rw [sizeNot, sizeMod]
    omega
  rw [hnot]
  apply Nat.eq_of_testBit_eq
  intro i
  rw [Nat.testBit_and, Nat.testBit_two_pow_sub_succ hmask, alignedMask, sizeofSizeT,
    Nat.testBit_two_pow_sub_one, Nat.testBit_mul_two_pow, Nat.testBit_div_two_pow]
  by_cases hi : i < k
  · simp [hi, not_le.mpr hi]
  · have hk : k ≤ i := not_lt.mp hi
    simp only [hi, hk, decide_false, Bool.not_false, Bool.and_true, decide_true, Bool.true_and,
      Nat.sub_add_cancel hk]
    by_cases hw : i < 8 * 2 ^ k
    · simp [hw]
    · have hlt : a < 2 ^ i := h.trans_le (Nat.pow_le_pow_right (by decide) (not_lt.mp hw))
      simp [Nat.testBit_lt_two_pow hlt]

/-- `ALIGNED_VALUE` rounds up. -/
theorem alignedValue_eq (h : a + alignedMask k < sizeMod k) :
    alignedValue k a = (a + alignedMask k) / sizeofSizeT k * sizeofSizeT k := by
  rw [alignedValue, sizeAdd_eq h, and_not_mask h]

theorem alignedValue_of_dvd (hd : sizeofSizeT k ∣ a) (h : a + alignedMask k < sizeMod k) :
    alignedValue k a = a := by
  obtain ⟨q, rfl⟩ := hd
  have hpos := sizeofSizeT_pos k
  rw [alignedValue_eq h, Nat.mul_add_div hpos, alignedMask,
    Nat.div_eq_of_lt (by omega : sizeofSizeT k - 1 < sizeofSizeT k), Nat.add_zero, Nat.mul_comm]

theorem dvd_sizeMod (k : Nat) : sizeofSizeT k ∣ sizeMod k := by
  have hk : k < 2 ^ k := Nat.lt_two_pow_self
  exact pow_dvd_pow 2 (by rw [sizeofSizeT]; omega)

/-- A multiple of the word size has room for the rounding. -/
theorem add_mask_lt (hd : sizeofSizeT k ∣ a) (h : a < sizeMod k) : a + alignedMask k < sizeMod k := by
  have hpos := sizeofSizeT_pos k
  have hle : sizeofSizeT k ≤ sizeMod k - a :=
    Nat.le_of_dvd (by omega) (Nat.dvd_sub (dvd_sizeMod k) hd)
  rw [alignedMask]
  omega

theorem dvd_alignedValue (k a : Nat) : sizeofSizeT k ∣ alignedValue k a := by
  have hlt : sizeAdd k a (alignedMask k) < sizeMod k := Nat.mod_lt _ (Nat.two_pow_pos _)
  rw [alignedValue, and_not_mask hlt]
  exact Nat.dvd_mul_left _ _

theorem le_alignedValue (h : a + alignedMask k < sizeMod k) : a ≤ alignedValue k a := by
  have hpos := sizeofSizeT_pos k
  have hdiv := Nat.div_add_mod (a + alignedMask k) (sizeofSizeT k)
  have hmod := Nat.mod_lt (a + alignedMask k) hpos
  rw [alignedValue_eq h, Nat.mul_comm]
  rw [alignedMask] at *
  omega

theorem sizeofLink_eq (k : Nat) : sizeofLink k = 2 * sizeofSizeT k := by
  have hlt := size_lt_sizeMod k
  have hpos := sizeofSizeT_pos k
  exact alignedValue_of_dvd (Nat.dvd_mul_left _ _) (by rw [alignedMask]; omega)

/-! ## The allocated flag -/

theorem or_allocated (h : a < pallocAllocated k) :
    a ||| pallocAllocated k = a + pallocAllocated k := by
  have := Nat.two_pow_add_eq_or_of_lt h 1
  rw [pallocAllocated, Nat.mul_one] at *
  rw [Nat.or_comm, ← this, Nat.add_comm]

theorem and_allocated (h : a < pallocAllocated k) : a &&& pallocAllocated k = 0 := by
  rw [pallocAllocated, Nat.and_two_pow, Nat.testBit_lt_two_pow h]
  simp

theorem add_allocated_and (h : a < pallocAllocated k) :
    (a + pallocAllocated k) &&& pallocAllocated k ≠ 0 := by
  have hbit : (a + pallocAllocated k).testBit (8 * sizeofSizeT k - 1) = true := by
    rw [pallocAllocated, Nat.add_comm, Nat.testBit_two_pow_add_eq, Nat.testBit_lt_two_pow h]
    rfl
  rw [show pallocAllocated k = 2 ^ (8 * sizeofSizeT k - 1) from rfl] at hbit ⊢
  rw [Nat.and_two_pow, hbit]
  simp

theorem add_allocated_and_not (h : a < pallocAllocated k) :
    (a + pallocAllocated k) &&& sizeNot k (pallocAllocated k) = a := by
  have hnot : sizeNot k (pallocAllocated k) = 2 ^ (8 * sizeofSizeT k - 1) - 1 := by
    rw [sizeNot, sizeMod_eq_double, pallocAllocated]
    omega
  rw [hnot, Nat.and_two_pow_sub_one_eq_mod, pallocAllocated, Nat.add_mod_right]
  exact Nat.mod_eq_of_lt h

/-! ## Links apart -/

/-- Two links do not overlap. -/
def Apart (k : Nat) : LinkPtr → LinkPtr → Prop
  | .block a, .block b => a + sizeofLink k ≤ b ∨ b + sizeofLink k ≤ a
  | .anchor, .anchor => False
  | _, _ => True

theorem Apart.symm {r s : LinkPtr} (h : Apart k r s) : Apart k s r := by
  cases r with
  | anchor => cases s <;> exact h
  | block a =>
    cases s with
    | anchor => exact h
    | block b => exact Or.symm h

/-- Any two of the links are the same or do not overlap. -/
def AllApart (k : Nat) (S : LinkPtr → Prop) : Prop := ∀ r s, S r → S s → r = s ∨ Apart k r s

section Access
variable {h : Heap k} {r s : LinkPtr} {S : LinkPtr → Prop}

/-- Access to a link that is the same or apart: what `setNext` changes. -/
theorem next_setNext (hS : AllApart k S) (hr : S r) (hs : S s) (hv : v < sizeMod k) :
    (h.setNext r v).next s = if s = r then v else h.next s := by
  split
  · rename_i he
    rw [he]
    cases r with
    | anchor => rfl
    | block a => exact Memory.load_store_self (sizeMod_eq k ▸ hv)
  · rename_i hne
    have hrs := (hS r s hr hs).resolve_left fun he => hne he.symm
    cases r with
    | anchor => cases s <;> [cases hrs; rfl]
    | block a =>
      cases s with
      | anchor => rfl
      | block b =>
        simp only [Apart, sizeofLink_eq] at hrs
        exact Memory.load_store_disjoint (by omega)

theorem flagNsize_setFlagNsize (hS : AllApart k S) (hr : S r) (hs : S s) (hv : v < sizeMod k) :
    (h.setFlagNsize r v).flagNsize s = if s = r then v else h.flagNsize s := by
  split
  · rename_i he
    rw [he]
    cases r with
    | anchor => rfl
    | block a => exact Memory.load_store_self (sizeMod_eq k ▸ hv)
  · rename_i hne
    have hrs := (hS r s hr hs).resolve_left fun he => hne he.symm
    cases r with
    | anchor => cases s <;> [cases hrs; rfl]
    | block a =>
      cases s with
      | anchor => rfl
      | block b =>
        simp only [Apart, sizeofLink_eq] at hrs
        exact Memory.load_store_disjoint (by omega)

theorem flagNsize_setNext (hS : AllApart k S) (hr : S r) (hs : S s) :
    (h.setNext r v).flagNsize s = h.flagNsize s := by
  have hrs := hS r s hr hs
  cases r with
  | anchor => cases s <;> rfl
  | block a =>
    cases s with
    | anchor => rfl
    | block b =>
      simp only [Apart, sizeofLink_eq, LinkPtr.block.injEq] at hrs
      exact Memory.load_store_disjoint (by omega)

theorem next_setFlagNsize (hS : AllApart k S) (hr : S r) (hs : S s) :
    (h.setFlagNsize r v).next s = h.next s := by
  have hrs := hS r s hr hs
  cases r with
  | anchor => cases s <;> rfl
  | block a =>
    cases s with
    | anchor => rfl
    | block b =>
      simp only [Apart, sizeofLink_eq, LinkPtr.block.injEq] at hrs
      exact Memory.load_store_disjoint (by omega)

/-- The memory access of a link stays inside of it. -/
theorem setNext_outside (hout : ∀ b, r = .block b → a < b ∨ b + sizeofLink k ≤ a) :
    (h.setNext r v).mem a = h.mem a := by
  cases r with
  | anchor => rfl
  | block b =>
    have := hout b rfl
    rw [sizeofLink_eq] at this
    exact Memory.store_outside (by omega)

theorem setFlagNsize_outside (hout : ∀ b, r = .block b → a < b ∨ b + sizeofLink k ≤ a) :
    (h.setFlagNsize r v).mem a = h.mem a := by
  cases r with
  | anchor => rfl
  | block b =>
    have := hout b rfl
    rw [sizeofLink_eq] at this
    exact Memory.store_outside (by omega)

end Access

/-! ## Stores into links

A run of stores is described by what the links in use hold behind it. -/

/-- Of memory only links in use were stored to; they hold `next` and `flag` now. -/
structure Relinked (S : LinkPtr → Prop) (h h' : Heap k) (next flag : LinkPtr → Nat) : Prop where
  next : ∀ s, S s → h'.next s = next s
  flagNsize : ∀ s, S s → h'.flagNsize s = flag s
  outside : ∀ a, (∀ b, S (.block b) → a < b ∨ b + sizeofLink k ≤ a) → h'.mem a = h.mem a

section Relinked
variable {S : LinkPtr → Prop} {h h' h'' : Heap k} {r : LinkPtr} {next flag : LinkPtr → Nat}

theorem Relinked.refl (S : LinkPtr → Prop) (h : Heap k) : Relinked S h h h.next h.flagNsize :=
  ⟨fun _ _ => rfl, fun _ _ => rfl, fun _ _ => rfl⟩

/-- The static variables besides the anchor do not matter. -/
theorem Relinked.statics (R : Relinked S h h' next flag) (hmem : h''.mem = h'.mem)
    (hnext : h''.anchorNext = h'.anchorNext) (hsize : h''.anchorSize = h'.anchorSize) :
    Relinked S h h'' next flag := by
  refine ⟨fun s hs => ?_, fun s hs => ?_, fun a ha => ?_⟩
  · rw [← R.next s hs]
    cases s with
    | anchor => exact hnext
    | block b => rw [Heap.next, Heap.next, hmem]
  · rw [← R.flagNsize s hs]
    cases s with
    | anchor => exact hsize
    | block b => rw [Heap.flagNsize, Heap.flagNsize, hmem]
  · rw [hmem, R.outside a ha]

theorem Relinked.setNext (hS : AllApart k S) (R : Relinked S h h' next flag) (hr : S r)
    (hv : v < sizeMod k) : Relinked S h (h'.setNext r v) (Function.update next r v) flag := by
  refine ⟨fun s hs => ?_, fun s hs => ?_, fun a ha => ?_⟩
  · rw [next_setNext hS hr hs hv, Function.update_apply, R.next s hs]
  · rw [flagNsize_setNext hS hr hs, R.flagNsize s hs]
  · rw [setNext_outside fun b hb => ha b (hb ▸ hr), R.outside a ha]

theorem Relinked.setFlagNsize (hS : AllApart k S) (R : Relinked S h h' next flag) (hr : S r)
    (hv : v < sizeMod k) : Relinked S h (h'.setFlagNsize r v) next (Function.update flag r v) := by
  refine ⟨fun s hs => ?_, fun s hs => ?_, fun a ha => ?_⟩
  · rw [next_setFlagNsize hS hr hs, R.next s hs]
  · rw [flagNsize_setFlagNsize hS hr hs hv, Function.update_apply, R.flagNsize s hs]
  · rw [setFlagNsize_outside fun b hb => ha b (hb ▸ hr), R.outside a ha]

theorem Relinked.setLink {size v : Nat} (hS : AllApart k S) (R : Relinked S h h' next flag)
    (hr : S r) (hsize : size < sizeMod k) (hv : v < sizeMod k) :
    Relinked S h (Palloc.setLink h' r size v) (Function.update next r v)
      (Function.update flag r size) :=
  (R.setFlagNsize hS hr hsize).setNext hS hr hv

end Relinked

/-! ## The other variables -/

section Statics
variable {h : Heap k} {r : LinkPtr} {size : Nat}

@[simp] theorem ppoolLast_setNext : (h.setNext r v).ppoolLast = h.ppoolLast := by cases r <;> rfl
@[simp] theorem poolSize_setNext : (h.setNext r v).poolSize = h.poolSize := by cases r <;> rfl
@[simp] theorem freeSize_setNext : (h.setNext r v).freeSize = h.freeSize := by cases r <;> rfl

@[simp] theorem ppoolLast_setFlagNsize : (h.setFlagNsize r v).ppoolLast = h.ppoolLast := by
  cases r <;> rfl
@[simp] theorem poolSize_setFlagNsize : (h.setFlagNsize r v).poolSize = h.poolSize := by
  cases r <;> rfl
@[simp] theorem freeSize_setFlagNsize : (h.setFlagNsize r v).freeSize = h.freeSize := by
  cases r <;> rfl

@[simp] theorem ppoolLast_setLink : (setLink h r size v).ppoolLast = h.ppoolLast := by
  simp [setLink]
@[simp] theorem poolSize_setLink : (setLink h r size v).poolSize = h.poolSize := by
  simp [setLink]
@[simp] theorem freeSize_setLink : (setLink h r size v).freeSize = h.freeSize := by
  simp [setLink]

end Statics

end Sdkz.Palloc
