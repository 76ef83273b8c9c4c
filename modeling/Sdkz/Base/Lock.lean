import Mathlib.Algebra.Order.BigOperators.Group.Finset
import Mathlib.Data.Fintype.Basic

/-! # A lock shared by threads

A semaphore that starts at one, is taken before a job and given back behind it,
is a lock: one thread at a time is inside. What the lock protects is described
by two conditions, one for the free lock and one for the job of the thread
inside. `Owned` ties them to the lock, and each operation keeps it if the work
done leads from one condition to the other. -/

namespace Sdkz.Base

variable {T J : Type*}

/-- Where a thread is in a call that takes a lock for its job. -/
inductive Place (J : Type*) where
  | idle
  | waiting (job : J)
  | inside (job : J)

/-- A semaphore with the limit one, and the threads that use it. -/
structure Lock (T J : Type*) where
  count : Nat
  place : T → Place J

namespace Lock

/-! ## Who is inside -/

structure Free (l : Lock T J) : Prop where
  count : l.count = 1
  outside : ∀ t job, l.place t ≠ .inside job

structure HeldBy (l : Lock T J) (t : T) (job : J) : Prop where
  count : l.count = 0
  inside : l.place t = .inside job
  alone : ∀ u other, l.place u = .inside other → u = t

/-- The free lock goes with `R`, a job inside with `H`. -/
def Owned (l : Lock T J) (R : Prop) (H : T → J → Prop) : Prop :=
  (l.Free ∧ R) ∨ ∃ t job, l.HeldBy t job ∧ H t job

variable {l : Lock T J} {t u : T} {job next : J} {R R' : Prop} {H H' : T → J → Prop}

theorem HeldBy.job_eq (h : l.HeldBy t job) (hin : l.place u = .inside next) :
    u = t ∧ next = job := by
  obtain rfl := h.alone u next hin
  rw [h.inside] at hin
  exact ⟨rfl, (Place.inside.inj hin).symm⟩

theorem Owned.mono (h : l.Owned R H) (hfree : R → R') (hheld : ∀ t job, H t job → H' t job) :
    l.Owned R' H' := by
  rcases h with ⟨hf, hR⟩ | ⟨t, job, hb, hH⟩
  · exact .inl ⟨hf, hfree hR⟩
  · exact .inr ⟨t, job, hb, hheld t job hH⟩

/-- The job of a thread inside has its condition, and no other thread is inside. -/
theorem Owned.inside (h : l.Owned R H) (hin : l.place t = .inside job) :
    l.HeldBy t job ∧ H t job := by
  rcases h with ⟨hf, -⟩ | ⟨u, other, hb, hH⟩
  · exact (hf.outside t job hin).elim
  · obtain ⟨rfl, rfl⟩ := hb.job_eq hin
    exact ⟨hb, hH⟩

theorem Owned.exclusive (h : l.Owned R H) (hin : l.place t = .inside job)
    (hin' : l.place u = .inside next) : u = t :=
  (h.inside hin).1.alone u next hin'

/-- Where nobody is inside the lock can be taken. -/
theorem Owned.free (h : l.Owned R H) (hout : ∀ t job, l.place t ≠ .inside job) :
    0 < l.count ∧ R := by
  rcases h with ⟨hf, hR⟩ | ⟨t, job, hb, -⟩
  · exact ⟨hf.count ▸ Nat.one_pos, hR⟩
  · exact (hout t job hb.inside).elim

/-! ## The operations -/

variable [DecidableEq T]

def put (l : Lock T J) (t : T) (p : Place J) : Lock T J :=
  { l with place := Function.update l.place t p }

def call (l : Lock T J) (t : T) (job : J) : Lock T J := l.put t (.waiting job)

def take (l : Lock T J) (t : T) (job : J) : Lock T J :=
  { l.put t (.inside job) with count := l.count - 1 }

def turn (l : Lock T J) (t : T) (job : J) : Lock T J := l.put t (.inside job)

def give (l : Lock T J) (t : T) : Lock T J := { l.put t .idle with count := min (l.count + 1) 1 }

@[simp] theorem put_place_self (l : Lock T J) (t : T) (p : Place J) : (l.put t p).place t = p :=
  Function.update_self ..

theorem put_place_of_ne (l : Lock T J) {t u : T} (hne : u ≠ t) (p : Place J) :
    (l.put t p).place u = l.place u :=
  Function.update_of_ne hne ..

theorem Owned.call (h : l.Owned R H) (hidle : l.place t = .idle) (job : J) :
    (l.call t job).Owned R H := by
  have hplace : ∀ u other, (l.call t job).place u = .inside other →
      l.place u = .inside other := by
    intro u other hin
    by_cases hu : u = t
    · subst hu
      rw [Lock.call, put_place_self] at hin
      cases hin
    · rwa [Lock.call, put_place_of_ne l hu] at hin
  rcases h with ⟨hf, hR⟩ | ⟨v, other, hb, hH⟩
  · exact .inl ⟨⟨hf.count, fun u other hin => hf.outside u other (hplace u other hin)⟩, hR⟩
  · have hne : v ≠ t := by
      intro he
      subst he
      cases hidle.symm.trans hb.inside
    refine .inr ⟨v, other, ⟨hb.count, ?_, ?_⟩, hH⟩
    · rw [Lock.call, put_place_of_ne l hne, hb.inside]
    · exact fun u other hin => hb.alone u other (hplace u other hin)

theorem Owned.take (h : l.Owned R H) (hcount : 0 < l.count) (enter : R → H' t job) :
    (l.take t job).Owned R' H' := by
  rcases h with ⟨hf, hR⟩ | ⟨v, other, hb, -⟩
  · refine .inr ⟨t, job, ⟨?_, put_place_self l t _, ?_⟩, enter hR⟩
    · rw [Lock.take, hf.count]
    · intro u other hin
      by_contra hu
      exact hf.outside u other ((put_place_of_ne l hu _).symm.trans hin)
  · rw [hb.count] at hcount
    cases hcount

theorem Owned.turn (h : l.Owned R H) (hin : l.place t = .inside job)
    (work : H t job → H' t next) : (l.turn t next).Owned R' H' := by
  obtain ⟨hb, hH⟩ := h.inside hin
  refine .inr ⟨t, next, ⟨hb.count, put_place_self l t _, ?_⟩, work hH⟩
  intro u other hu
  by_contra hne
  exact hne (hb.alone u other ((put_place_of_ne l hne _).symm.trans hu))

theorem Owned.give (h : l.Owned R H) (hin : l.place t = .inside job) (leave : H t job → R') :
    (l.give t).Owned R' H' := by
  obtain ⟨hb, hH⟩ := h.inside hin
  refine .inl ⟨⟨?_, ?_⟩, leave hH⟩
  · rw [Lock.give, hb.count]
    rfl
  · intro u other hu
    by_cases hne : u = t
    · subst hne
      cases (put_place_self l u _).symm.trans hu
    · exact hne (hb.alone u other ((put_place_of_ne l hne _).symm.trans hu))

/-! ## The work that is left -/

section Load
variable [Fintype T] {w : Place J → Nat}

def load (l : Lock T J) (weight : Place J → Nat) : Nat := ∑ t, weight (l.place t)

/-- A thread that moves to a lighter place lowers the load by the difference. -/
theorem load_put (l : Lock T J) (t : T) (p : Place J) :
    (l.put t p).load w + w (l.place t) = l.load w + w p := by
  have hrest : ∀ place : T → Place J, ∑ u, w (place u) =
      w (place t) + ∑ u ∈ Finset.univ.erase t, w (place u) := fun place =>
    (Finset.add_sum_erase _ _ (Finset.mem_univ t)).symm
  have hsame : ∑ u ∈ Finset.univ.erase t, w ((l.put t p).place u) =
      ∑ u ∈ Finset.univ.erase t, w (l.place u) :=
    Finset.sum_congr rfl fun u hu => by rw [put_place_of_ne l (Finset.ne_of_mem_erase hu)]
  rw [load, load, hrest, hrest, hsame, put_place_self]
  omega

theorem load_take (l : Lock T J) (t : T) (job : J) :
    (l.take t job).load w + w (l.place t) = l.load w + w (.inside job) :=
  l.load_put t _

theorem load_turn (l : Lock T J) (t : T) (job : J) :
    (l.turn t job).load w + w (l.place t) = l.load w + w (.inside job) :=
  l.load_put t _

theorem load_give (l : Lock T J) (t : T) :
    (l.give t).load w + w (l.place t) = l.load w + w .idle :=
  l.load_put t _

end Load

end Lock

end Sdkz.Base
