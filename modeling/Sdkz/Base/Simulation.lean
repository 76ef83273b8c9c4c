import Sdkz.Base.Run

/-! # Runs side by side

Two machines take the same input. A relation between their states that is kept
by every step the first machine is allowed to make is kept by whole runs, and a
guard that related states agree on holds of both runs or of none. -/

namespace Sdkz.Base

variable {σ τ α : Type*} {step : σ → α → σ} {step' : τ → α → τ} {C : σ → α → Prop}
  {C' : τ → α → Prop} {R : σ → τ → Prop}

/-- Steps that meet the guard `C` lead from related states to related states. -/
def Simulates (step : σ → α → σ) (step' : τ → α → τ) (C : σ → α → Prop) (R : σ → τ → Prop) :
    Prop :=
  ∀ s t a, R s t → C s a → R (step s a) (step' t a)

theorem Simulates.run (sim : Simulates step step' C R) {s : σ} {t : τ} (h : R s t) {l : List α}
    (hg : Guarded step C s l) : R (l.foldl step s) (l.foldl step' t) := by
  induction l generalizing s t with
  | nil => exact h
  | cons a l ih =>
    obtain ⟨hc, hrest⟩ := guarded_cons.mp hg
    exact ih (sim s t a h hc) hrest

/-- A guard that related states agree on. -/
theorem Simulates.guarded (sim : Simulates step step' C R) (agree : ∀ s t a, R s t → (C s a ↔ C' t a))
    {s : σ} {t : τ} (h : R s t) {l : List α} : Guarded step C s l ↔ Guarded step' C' t l := by
  induction l generalizing s t with
  | nil => exact iff_of_true guarded_nil guarded_nil
  | cons a l ih =>
    rw [guarded_cons, guarded_cons, agree s t a h]
    refine and_congr_right fun hc => ?_
    exact ih (sim s t a h ((agree s t a h).mpr hc))

end Sdkz.Base
