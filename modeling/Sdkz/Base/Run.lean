import Mathlib.Data.List.Infix

/-! # Runs of a step function

A machine that consumes its input one item at a time visits one state for each
prefix of the input. `Always` speaks about all these states, `Guarded` about all
steps between them. `always_iff_guarded` is the induction behind every safety
result: a condition on the steps keeps an invariant, and a step that breaks the
condition leads to a bad state. -/

namespace Sdkz.Base

variable {σ α : Type*} {step : σ → α → σ} {C : σ → α → Prop} {P I : σ → Prop}

/-- Every state of the run on `l` from `s` satisfies `P`. -/
def Always (step : σ → α → σ) (P : σ → Prop) (s : σ) (l : List α) : Prop :=
  ∀ p, p <+: l → P (p.foldl step s)

/-- Every step of the run on `l` from `s` satisfies `C`. -/
def Guarded (step : σ → α → σ) (C : σ → α → Prop) (s : σ) (l : List α) : Prop :=
  ∀ p a, p ++ [a] <+: l → C (p.foldl step s) a

theorem Always.last {s : σ} {l : List α} (h : Always step P s l) : P (l.foldl step s) :=
  h l (List.prefix_refl l)

theorem always_cons {s : σ} {a : α} {l : List α} :
    Always step P s (a :: l) ↔ P s ∧ Always step P (step s a) l := by
  constructor
  · intro h
    refine ⟨h [] (List.nil_prefix), fun p hp => ?_⟩
    exact h (a :: p) (List.cons_prefix_cons.mpr ⟨rfl, hp⟩)
  · rintro ⟨h0, h⟩ p hp
    cases p with
    | nil => exact h0
    | cons b p =>
      obtain ⟨rfl, hrest⟩ := List.cons_prefix_cons.mp hp
      exact h p hrest

theorem guarded_cons {s : σ} {a : α} {l : List α} :
    Guarded step C s (a :: l) ↔ C s a ∧ Guarded step C (step s a) l := by
  constructor
  · intro h
    refine ⟨h [] a (List.cons_prefix_cons.mpr ⟨rfl, List.nil_prefix⟩), fun p b hp => ?_⟩
    exact h (a :: p) b (List.cons_prefix_cons.mpr ⟨rfl, hp⟩)
  · rintro ⟨h0, h⟩ p b hp
    cases p with
    | nil =>
      obtain ⟨rfl, -⟩ := List.cons_prefix_cons.mp hp
      exact h0
    | cons c p =>
      obtain ⟨rfl, hrest⟩ := List.cons_prefix_cons.mp hp
      exact h p b hrest

theorem Guarded.of_prefix {s : σ} {l p : List α} (h : Guarded step C s l) (hp : p <+: l) :
    Guarded step C s p :=
  fun q a hq => h q a (hq.trans hp)

theorem guarded_nil {s : σ} : Guarded step C s [] :=
  fun p a h => absurd (List.prefix_nil.mp h) (by simp)

/-- Whether a given run is guarded can be tried out. -/
instance decidableGuarded [∀ s a, Decidable (C s a)] : ∀ (s : σ) (l : List α),
    Decidable (Guarded step C s l)
  | _, [] => isTrue guarded_nil
  | s, a :: l =>
    have := decidableGuarded (step s a) l
    decidable_of_iff _ guarded_cons.symm

/-- Guarded steps keep the invariant. -/
theorem Guarded.always (keeps : ∀ s a, I s → C s a → I (step s a)) {s : σ} {l : List α}
    (hs : I s) (h : Guarded step C s l) : Always step I s l := by
  induction l generalizing s with
  | nil =>
    intro p hp
    rw [List.prefix_nil.mp hp]
    exact hs
  | cons a l ih =>
    obtain ⟨hc, h⟩ := guarded_cons.mp h
    exact always_cons.mpr ⟨hs, ih (keeps s a hs hc) h⟩

/-- If the invariant is what the states should satisfy and every step outside
the guard breaks it, the guard is the exact condition, in runs that keep to `G`
anyway. -/
theorem always_iff_guarded_within {G : σ → α → Prop}
    (keeps : ∀ s a, I s → G s a → C s a → I (step s a))
    (breaks : ∀ s a, I s → G s a → ¬ C s a → ¬ P (step s a)) (good : ∀ s, I s → P s)
    {s : σ} {l : List α} (hs : I s) (hG : Guarded step G s l) :
    Always step P s l ↔ Guarded step C s l := by
  constructor
  · intro h
    induction l generalizing s with
    | nil => exact fun p a hp => absurd (List.prefix_nil.mp hp) (by simp)
    | cons a l ih =>
      obtain ⟨hg, hG⟩ := guarded_cons.mp hG
      obtain ⟨-, h⟩ := always_cons.mp h
      have hc : C s a := by
        by_contra hne
        exact breaks s a hs hg hne (h [] List.nil_prefix)
      exact guarded_cons.mpr ⟨hc, ih (keeps s a hs hg hc) hG h⟩
  · intro h p hp
    have hboth : Guarded step (fun s a => G s a ∧ C s a) s l :=
      fun p a hp => ⟨hG p a hp, h p a hp⟩
    exact good _ (hboth.always (fun s a hs h => keeps s a hs h.1 h.2) hs p hp)

/-- The same for all runs. -/
theorem always_iff_guarded (keeps : ∀ s a, I s → C s a → I (step s a))
    (breaks : ∀ s a, I s → ¬ C s a → ¬ P (step s a)) (good : ∀ s, I s → P s)
    {s : σ} {l : List α} (hs : I s) : Always step P s l ↔ Guarded step C s l :=
  always_iff_guarded_within (G := fun _ _ => True) (fun s a hI _ => keeps s a hI)
    (fun s a hI _ => breaks s a hI) good hs fun _ _ _ => trivial

/-- If no guarded step raises the rank and those that count lower it, a run has no more
of them than the rank it starts with. -/
theorem Guarded.count_le {rank : σ → Nat} {counts : α → Bool}
    (keeps : ∀ s a, I s → C s a → I (step s a))
    (lowers : ∀ s a, I s → C s a → rank (step s a) + (counts a).toNat ≤ rank s) {s : σ} {l : List α}
    (hs : I s) (h : Guarded step C s l) : l.countP counts ≤ rank s := by
  induction l generalizing s with
  | nil => exact Nat.zero_le _
  | cons a l ih =>
    obtain ⟨hc, h⟩ := guarded_cons.mp h
    have hrest := ih (keeps s a hs hc) h
    have hlower := lowers s a hs hc
    have hcounts : (if counts a then 1 else 0) = (counts a).toNat := by
      cases counts a with
      | false => rfl
      | true => rfl
    rw [List.countP_cons, hcounts]
    omega

/-- A run is no longer than the rank it starts with, if every guarded step lowers it. -/
theorem Guarded.length_le {rank : σ → Nat} (keeps : ∀ s a, I s → C s a → I (step s a))
    (lowers : ∀ s a, I s → C s a → rank (step s a) < rank s) {s : σ} {l : List α} (hs : I s)
    (h : Guarded step C s l) : l.length ≤ rank s := by
  have hcount : l.countP (fun _ => true) ≤ rank s := Guarded.count_le keeps lowers hs h
  rwa [List.countP_true] at hcount

end Sdkz.Base
