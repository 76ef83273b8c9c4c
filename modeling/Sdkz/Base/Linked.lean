import Mathlib.Data.List.Basic

/-! # Singly linked lists

`next` says where a reference points; `Linked next r xs` that the references
`xs` follow one another from `r` on and the last one points nowhere. An update of
`next` keeps the parts of a list it does not touch: `Linked.splice` replaces a
middle part. -/

namespace Sdkz.Base

variable {ρ : Type*} {next next' : ρ → Option ρ} {r : ρ} {xs ys zs : List ρ}

/-- From `r` one comes through `xs`, in this order, and then to the end. -/
def Linked (next : ρ → Option ρ) : ρ → List ρ → Prop
  | r, [] => next r = none
  | r, x :: xs => next r = some x ∧ Linked next x xs

/-- From `r` one comes through `xs`, in this order. -/
def Path (next : ρ → Option ρ) : ρ → List ρ → Prop
  | _, [] => True
  | r, x :: xs => next r = some x ∧ Path next x xs

theorem Linked.head (h : Linked next r xs) : next r = xs.head? := by
  cases xs with
  | nil => exact h
  | cons x xs => exact h.1

/-- A list is a path to its end. -/
theorem linked_append :
    Linked next r (xs ++ ys) ↔ Path next r xs ∧ Linked next (xs.getLastD r) ys := by
  induction xs generalizing r with
  | nil => simp [Path]
  | cons x xs ih =>
    simp only [List.cons_append, Linked, Path, List.getLastD_cons, ih, and_assoc]

/-- A path depends on the references before its last one. -/
theorem Path.congr (h : Path next r xs) (heq : ∀ y ∈ (r :: xs).dropLast, next' y = next y) :
    Path next' r xs := by
  induction xs generalizing r with
  | nil => trivial
  | cons x xs ih =>
    rw [List.dropLast_cons_cons] at heq
    refine ⟨?_, ih h.2 fun y hy => heq y (List.mem_cons_of_mem r hy)⟩
    rw [heq r (by simp), h.1]

theorem Linked.congr (h : Linked next r xs) (heq : ∀ y ∈ r :: xs, next' y = next y) :
    Linked next' r xs := by
  induction xs generalizing r with
  | nil => exact (heq r (by simp)).trans h
  | cons x xs ih =>
    exact ⟨(heq r (by simp)).trans h.1, ih h.2 fun y hy => heq y (List.mem_cons_of_mem r hy)⟩

/-- A list from its first reference on, if only that one changed. -/
theorem Linked.rehead {s : ρ} (h : Linked next r xs) (hs : next' s = xs.head?)
    (heq : ∀ y ∈ xs, next' y = next y) : Linked next' s xs := by
  cases xs with
  | nil => exact hs
  | cons x xs => exact ⟨hs, h.2.congr heq⟩

/-- Of different references, those before the last one are not the last one. -/
theorem ne_getLastD_of_mem_dropLast {y : ρ} (hn : (r :: xs).Nodup)
    (hy : y ∈ (r :: xs).dropLast) : y ≠ xs.getLastD r := by
  have hlast : (r :: xs).dropLast ++ [xs.getLastD r] = r :: xs := by
    rw [← List.getLast_eq_getLastD (List.cons_ne_nil r xs)]
    exact List.dropLast_concat_getLast _
  rw [← hlast] at hn
  exact fun he => (List.nodup_append.mp hn).2.2 y hy _ (List.mem_singleton_self _) he

theorem getLastD_mem (r : ρ) (xs : List ρ) : xs.getLastD r ∈ r :: xs := by
  rw [← List.getLast_eq_getLastD (List.cons_ne_nil r xs)]
  exact List.getLast_mem _

theorem getLastD_append_cons (xs : List ρ) (y : ρ) (ys : List ρ) (r : ρ) :
    (xs ++ y :: ys).getLastD r = ys.getLastD y := by
  induction xs generalizing r with
  | nil => rw [List.nil_append, List.getLastD_cons]
  | cons x xs ih => rw [List.cons_append, List.getLastD_cons, ih]

/-- **Replacing a middle part.** Outside of it only the reference in front of it
may have changed. -/
theorem Linked.splice {mid : List ρ} (h : Linked next r (xs ++ (ys ++ zs)))
    (hn : (r :: (xs ++ zs)).Nodup)
    (hkeep : ∀ y ∈ r :: (xs ++ zs), y ≠ xs.getLastD r → next' y = next y)
    (hmid : Path next' (xs.getLastD r) mid)
    (hseam : next' (mid.getLastD (xs.getLastD r)) = zs.head?) :
    Linked next' r (xs ++ (mid ++ zs)) := by
  obtain ⟨hxs, h⟩ := linked_append.mp h
  obtain ⟨-, hzs⟩ := linked_append.mp h
  have hfront : (r :: xs ++ zs).Nodup := hn
  have hpre : ∀ y ∈ (r :: xs).dropLast, next' y = next y := by
    intro y hy
    have hne := ne_getLastD_of_mem_dropLast (List.nodup_append.mp hfront).1 hy
    exact hkeep y (List.mem_append_left zs ((List.dropLast_sublist _).mem hy)) hne
  have hlast := getLastD_mem r xs
  have hpost : ∀ y ∈ zs, next' y = next y := by
    intro y hy
    have hne := (List.nodup_append.mp hfront).2.2 _ hlast y hy
    exact hkeep y (List.mem_append_right (r :: xs) hy) hne.symm
  exact linked_append.mpr ⟨hxs.congr hpre, linked_append.mpr ⟨hmid, hzs.rehead hseam hpost⟩⟩

/-- A reference starts one list only. -/
theorem Linked.unique (h : Linked next r xs) (h' : Linked next r ys) : xs = ys := by
  induction xs generalizing r ys with
  | nil =>
    cases ys with
    | nil => rfl
    | cons y ys => cases h.symm.trans h'.1
  | cons x xs ih =>
    cases ys with
    | nil => cases h'.symm.trans h.1
    | cons y ys =>
      obtain rfl := Option.some.inj (h.1.symm.trans h'.1)
      rw [ih h.2 h'.2]

end Sdkz.Base
