import Mathlib.Logic.Function.Basic
import Mathlib.Order.WellFounded

/-! # Chains that are cut while they are walked

The places of a chain are its head, `none`, and one in each of its members, and what stands
in a place leads to a smaller member. Walks go along the chain and cut members out that
are no longer live; they are interrupted by one another, so that what a walk has read can
be old when it writes. `Covers` says that a value passes over no live member. It stays true
while members die, so that an old value does no harm (`Covers.cut`), and every live
member is reached from the head at any time (`reaches_of_covers`).

A walk that is not interrupted cuts its member out for good (`not_reaches_cut`). -/

namespace Sdkz.Base

variable {ρ : Type*} {next : Option ρ → Option ρ} {p q v : Option ρ} {a b m x : ρ}

/-! ## What is on the chain -/

/-- From a place on one comes to a member. -/
inductive Reaches (next : Option ρ → Option ρ) : Option ρ → ρ → Prop
  | here {p t} : next p = some t → Reaches next p t
  | there {p t m} : next p = some t → Reaches next (some t) m → Reaches next p m

/-- A place that a walk comes to. -/
def Visited (next : Option ρ → Option ρ) : Option ρ → Prop
  | none => True
  | some r => Reaches next none r

theorem Reaches.snoc (h : Reaches next p a) (hnext : next (some a) = some b) : Reaches next p b := by
  induction h with
  | here h => exact .there h (.here hnext)
  | there h _ ih => exact .there h (ih hnext)

theorem Visited.reaches (h : Visited next p) (hnext : next p = some m) : Reaches next none m := by
  cases p with
  | none => exact .here hnext
  | some r => exact Reaches.snoc h hnext

/-- The first step does not depend on where one goes. -/
theorem Reaches.cases_next (h : Reaches next p m) (hnext : next p = some x) :
    m = x ∨ Reaches next (some x) m := by
  cases h with
  | here h => exact .inl (Option.some.inj (h.symm.trans hnext))
  | there h hrest =>
    obtain rfl := Option.some.inj (h.symm.trans hnext)
    exact .inr hrest

/-- The last step. -/
theorem Reaches.last (h : Reaches next p m) :
    ∃ q, (q = p ∨ ∃ r, q = some r ∧ Reaches next p r) ∧ next q = some m := by
  induction h with
  | here h => exact ⟨_, .inl rfl, h⟩
  | there h _ ih =>
    obtain ⟨q, hq, hnext⟩ := ih
    refine ⟨q, .inr ?_, hnext⟩
    rcases hq with rfl | ⟨r, rfl, hr⟩
    · exact ⟨_, rfl, .here h⟩
    · exact ⟨r, rfl, .there h hr⟩

/-- Of two members that are reached, one is reached from the other. -/
theorem Reaches.total (ha : Reaches next p a) (hb : Reaches next p b) :
    a = b ∨ Reaches next (some a) b ∨ Reaches next (some b) a := by
  induction ha with
  | here h => exact (hb.cases_next h).imp Eq.symm .inl
  | there h hrest ih =>
    rcases hb.cases_next h with rfl | hb
    · exact .inr (.inr hrest)
    · exact ih hb

theorem Visited.total (hp : Visited next p) (hq : Visited next q) :
    p = q ∨ (∃ b, q = some b ∧ Reaches next p b) ∨ ∃ a, p = some a ∧ Reaches next q a := by
  cases p with
  | none =>
    cases q with
    | none => exact .inl rfl
    | some b => exact .inr (.inl ⟨b, rfl, hq⟩)
  | some a =>
    cases q with
    | none => exact .inr (.inr ⟨a, rfl, hp⟩)
    | some b =>
      rcases Reaches.total hp hq with rfl | h | h
      · exact .inl rfl
      · exact .inr (.inl ⟨b, rfl, h⟩)
      · exact .inr (.inr ⟨a, rfl, h⟩)

/-- Nothing comes onto the chain by a cut. -/
theorem Reaches.of_cut [DecidableEq ρ] (hpx : next p = some x) (hxv : next (some x) = v)
    (h : Reaches (Function.update next p v) q m) : Reaches next q m := by
  induction h with
  | @here q t hnext =>
    by_cases hq : q = p
    · subst hq
      rw [Function.update_self] at hnext
      exact .there hpx (.here (hxv.trans hnext))
    · rw [Function.update_of_ne hq] at hnext
      exact .here hnext
  | @there q t m hnext _ ih =>
    by_cases hq : q = p
    · subst hq
      rw [Function.update_self] at hnext
      exact .there hpx (.there (hxv.trans hnext) ih)
    · rw [Function.update_of_ne hq] at hnext
      exact .there hnext ih

/-- What stands in the head does not matter further behind. -/
theorem Reaches.of_head [DecidableEq ρ] (h : Reaches (Function.update next none v) (some a) m) :
    Reaches next (some a) m := by
  generalize hp : some a = p at h
  induction h generalizing a with
  | here hnext =>
    subst hp
    rw [Function.update_of_ne (by simp)] at hnext
    exact .here hnext
  | there hnext _ ih =>
    subst hp
    rw [Function.update_of_ne (by simp)] at hnext
    exact .there hnext (ih rfl)

/-! ## Members in descending order -/

variable [LinearOrder ρ] {member live : ρ → Prop}

/-- The members behind a place. -/
def Behind (member : ρ → Prop) : Option ρ → ρ → Prop
  | none, m => member m
  | some p, m => member m ∧ m < p

/-- The head, or the place in a member. -/
def Site (member : ρ → Prop) : Option ρ → Prop
  | none => True
  | some p => member p

/-- A value for the place `p` leads to a member behind it, and passes over no live one. -/
structure Covers (member live : ρ → Prop) (p v : Option ρ) : Prop where
  behind : ∀ t, v = some t → Behind member p t
  passes : ∀ m, Behind member p m → live m → ∃ t, v = some t ∧ m ≤ t

/-! ## Values that pass over no live member -/

theorem Behind.isMember (h : Behind member p m) : member m := by
  cases p with
  | none => exact h
  | some p => exact h.1

theorem Behind.trans (h : Behind member p x) (hm : Behind member (some x) m) :
    Behind member p m := by
  cases p with
  | none => exact hm.1
  | some p => exact ⟨hm.1, hm.2.trans h.2⟩

/-- Members die, and a value stays good. -/
theorem Covers.mono {live' : ρ → Prop} (h : Covers member live p v) (hlive : ∀ m, live' m → live m) :
    Covers member live' p v :=
  ⟨h.behind, fun m hm hl => h.passes m hm (hlive m hl)⟩

/-- **Cutting a dead member out**: what stands in it is good where it was found. -/
theorem Covers.cut (h : Covers member live p (some x)) (hx : Covers member live (some x) v)
    (hdead : ¬ live x) : Covers member live p v where
  behind t ht := (h.behind x rfl).trans (hx.behind t ht)
  passes m hm hlive := by
    obtain ⟨t, ht, hle⟩ := h.passes m hm hlive
    obtain rfl := Option.some.inj ht
    have hne : m ≠ x := by
      rintro rfl
      exact hdead hlive
    exact hx.passes m ⟨hm.isMember, lt_of_le_of_ne hle hne⟩ hlive

theorem Covers.reaches_of (h : Covers member live p (next p)) (hm : Behind member p m) (hlive : live m)
    (ih : ∀ t, member t → m < t → (∀ q, p = some q → t < q) → Reaches next (some t) m) :
    Reaches next p m := by
  obtain ⟨t, ht, hle⟩ := h.passes m hm hlive
  rcases hle.eq_or_lt with rfl | hlt
  · exact .here ht
  · have hbehind := h.behind t ht
    refine .there ht (ih t hbehind.isMember hlt ?_)
    rintro q rfl
    exact hbehind.2

/-- **Live members are reached.** -/
theorem reaches_of_covers [WellFoundedLT ρ]
    (h : ∀ p, Site member p → Covers member live p (next p)) (hp : Site member p)
    (hm : Behind member p m) (hlive : live m) : Reaches next p m := by
  have hinner : ∀ t, member t → m < t → Reaches next (some t) m := by
    intro t
    induction t using WellFoundedLT.induction with
    | ind t ih =>
      intro ht hlt
      exact (h (some t) ht).reaches_of ⟨hm.isMember, hlt⟩ hlive fun u hu hmu hut =>
        ih u (hut t rfl) hu hmu
  exact (h p hp).reaches_of hm hlive fun t ht hlt _ => hinner t ht hlt

/-! ## A new first member -/

section Enter
variable {member' : ρ → Prop} {new : ρ}

/-- The value of the head moves into the new member. -/
theorem Covers.enter (h : Covers member live none v)
    (hmember : ∀ m, member' m ↔ member m ∨ m = new) (hnew : ∀ m, member m → m < new) :
    Covers member' live (some new) v where
  behind t ht := ⟨(hmember t).mpr (.inl (h.behind t ht)), hnew t (h.behind t ht)⟩
  passes m hm hlive := by
    rcases (hmember m).mp hm.1 with hold | rfl
    · exact h.passes m hold hlive
    · exact absurd hm.2 (lt_irrefl _)

theorem covers_new (hmember : ∀ m, member' m ↔ member m ∨ m = new)
    (hnew : ∀ m, member m → m < new) : Covers member' live none (some new) where
  behind t ht := (hmember t).mpr (.inr (Option.some.inj ht).symm)
  passes m hm _ := by
    refine ⟨new, rfl, ?_⟩
    rcases (hmember m).mp hm with hold | rfl
    · exact (hnew m hold).le
    · exact le_refl _

/-- The other members do not notice it. -/
theorem Covers.widen (h : Covers member live (some a) v) (ha : member a)
    (hmember : ∀ m, member' m ↔ member m ∨ m = new) (hnew : ∀ m, member m → m < new) :
    Covers member' live (some a) v where
  behind t ht := ⟨(hmember t).mpr (.inl (h.behind t ht).1), (h.behind t ht).2⟩
  passes m hm hlive := by
    rcases (hmember m).mp hm.1 with hold | rfl
    · exact h.passes m ⟨hold, hm.2⟩ hlive
    · exact absurd hm.2 (hnew a ha).asymm

end Enter

/-! ## One way to each member -/

/-- What stands in a place leads to a member behind it. -/
def Descends (member : ρ → Prop) (next : Option ρ → Option ρ) : Prop :=
  ∀ p, Site member p → ∀ t, next p = some t → Behind member p t

theorem Behind.site (h : Behind member p m) : Site member (some m) := h.isMember

theorem Reaches.behind (hd : Descends member next) (hp : Site member p) (h : Reaches next p m) :
    Behind member p m := by
  induction h with
  | here hnext => exact hd _ hp _ hnext
  | there hnext _ ih =>
    have hbehind := hd _ hp _ hnext
    exact hbehind.trans (ih hbehind.site)

theorem Visited.site (hd : Descends member next) (h : Visited next p) : Site member p := by
  cases p with
  | none => trivial
  | some r => exact (Reaches.behind (p := none) hd trivial h).isMember

/-- What stands in no member does not matter. -/
theorem Reaches.of_outside (hd : Descends member next) (hp : Site member p) (hq : ¬ Site member q)
    (h : Reaches (Function.update next q v) p m) : Reaches next p m := by
  have hne : ∀ {p}, Site member p → p ≠ q := by
    rintro p hp rfl
    exact hq hp
  induction h with
  | here hnext =>
    rw [Function.update_of_ne (hne hp)] at hnext
    exact .here hnext
  | there hnext _ ih =>
    rw [Function.update_of_ne (hne hp)] at hnext
    exact .there hnext (ih (hd _ hp _ hnext).site)

/-- One comes to a member from one place only. -/
theorem Visited.unique (hd : Descends member next) (hp : Visited next p) (hq : Visited next q)
    (hpx : next p = some x) (hqx : next q = some x) : p = q := by
  have hback : ∀ {p b}, Visited next p → next p = some x → Reaches next p b →
      next (some b) = some x → False := by
    intro p b hp hpx hb hbx
    have hsite := hp.site hd
    have hxb : x < b := (hd (some b) (hb.behind hd hsite).site x hbx).2
    rcases hb.cases_next hpx with rfl | hb
    · exact lt_irrefl _ hxb
    · exact hxb.asymm (hb.behind hd (hd p hsite x hpx).site).2
  rcases hp.total hq with rfl | ⟨b, rfl, hb⟩ | ⟨a, rfl, ha⟩
  · rfl
  · exact (hback hp hpx hb hqx).elim
  · exact (hback hq hqx ha hpx).elim

/-- **What is cut out is not on the chain.** -/
theorem not_reaches_cut (hd : Descends member next) (hp : Visited next p)
    (hpx : next p = some x) (hxv : next (some x) = v) :
    ¬ Reaches (Function.update next p v) none x := by
  intro h
  obtain ⟨q, hq, hnext⟩ := h.last
  by_cases hqp : q = p
  · subst hqp
    rw [Function.update_self, ← hxv] at hnext
    have hsite := (hd q (hp.site hd) x hpx).site
    exact lt_irrefl _ (hd (some x) hsite x hnext).2
  · rw [Function.update_of_ne hqp] at hnext
    have hvisited : Visited next q := by
      rcases hq with rfl | ⟨r, rfl, hr⟩
      · trivial
      · exact hr.of_cut hpx hxv
    exact hqp (hvisited.unique hd hp hnext hpx)

end Sdkz.Base
