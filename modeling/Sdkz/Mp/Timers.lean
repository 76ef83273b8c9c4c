import Sdkz.Base.Chain
import Sdkz.Base.Run

/-! # The timers of Python (app/micropython/machine_timer.c)

The timers are chained so that the collector keeps them while they run. A timer is put in
front by a thread, and `machine_timer_deinit` takes it out, called by a thread or by the
interrupt of a timer that has expired. An interrupt comes between any two accesses to the
chain, also in the middle of another call, and the function it calls may be Python code that
starts and stops timers. -/

namespace Sdkz.Mp
open Sdkz.Base

/-- `TIMER_MODE_ONE_SHOT` -/
abbrev timerModeOneShot : Int := 0

/-- Where a call of `machine_timer_deinit` is. -/
inductive Position where
  /-- the timer is stopped -/
  | first
  /-- the value of `_timer` -/
  | timer (t : Option Nat)
  /-- the value read from `_timer->next`, before it is stored -/
  | unlink (next : Option Nat)
deriving DecidableEq

/-- A call of `machine_timer_deinit`. -/
structure Walk where
  self : Nat
  prev : Option Nat
  position : Position
deriving DecidableEq

/-- What an interrupt, or the code it interrupted, is doing. -/
inductive Call where
  /-- `mp_irq_dispatch` of `machine_timer_callback` -/
  | dispatch (t : Nat)
  | deinit (w : Walk)
deriving DecidableEq

/-- Where the thread is in `machine_timer_make_new`. -/
inductive Making where
  | idle
  /-- the head is read -/
  | read (head : Option Nat)
  /-- and stored in the new timer -/
  | linked
deriving DecidableEq

/-- The timers are numbered as they are made. -/
structure Timers where
  /-- `machine_timer_obj_head`, and `next` of each timer -/
  next : Option Nat → Option Nat
  count : Nat
  mode : Nat → Int
  periodMs : Nat → Nat
  /-- the kernel will call `machine_timer_callback` -/
  running : Nat → Bool
  /-- `machine_timer_deinit` was called -/
  stopped : Nat → Bool
  /-- `k_timer_init` was called for a timer that the kernel runs -/
  clobbered : Bool
  making : Making
  /-- innermost first -/
  calls : List Call

namespace Timers

def boot : Timers where
  next := fun _ => none
  count := 0
  mode := fun _ => 0
  periodMs := fun _ => 0
  running := fun _ => false
  stopped := fun _ => false
  clobbered := false
  making := .idle
  calls := []

/-- One access of `machine_timer_make_new`. -/
def machineTimerMakeNew (s : Timers) : Timers :=
  match s.making with
  | .idle => { s with making := .read (s.next none) }
  | .read head =>
    { s with next := Function.update s.next (some s.count) head, making := .linked }
  | .linked =>
    { s with next := Function.update s.next none (some s.count), count := s.count + 1,
             making := .idle }

/-- `k_timer_init` and `k_timer_start`, behind the new settings. -/
def machineTimerInitHelper (s : Timers) (t : Nat) (mode : Int) (periodMs : Nat) : Timers :=
  { s with
    mode := Function.update s.mode t mode
    periodMs := Function.update s.periodMs t periodMs
    running := Function.update s.running t true
    clobbered := s.clobbered || s.running t }

/-- The beginning of `machine_timer_deinit`, up to its loop. -/
def machineTimerDeinit (s : Timers) (t : Nat) : Timers :=
  { s with
    running := Function.update s.running t false
    stopped := Function.update s.stopped t true
    calls := .deinit ⟨t, none, .first⟩ :: s.calls }

/-- The next access of its loop. -/
def walk (s : Timers) (w : Walk) (calls : List Call) : Timers :=
  match w.position with
  | .first => { s with calls := .deinit { w with position := .timer (s.next none) } :: calls }
  | .timer none => { s with calls := calls }
  | .timer (some t) =>
    if t = w.self then
      { s with calls := .deinit { w with position := .unlink (s.next (some t)) } :: calls }
    else
      { s with calls := .deinit ⟨w.self, some t, .timer (s.next (some t))⟩ :: calls }
  | .unlink next => { s with next := Function.update s.next w.prev next, calls := calls }

/-- The kernel starts the timer again before it calls `machine_timer_callback`, unless the
period is 0. -/
def machineTimerCallback (s : Timers) (t : Nat) : Timers :=
  { s with
    running := Function.update s.running t (s.periodMs t ≠ 0)
    calls := .dispatch t :: s.calls }

/-- `machine_timer_callback` behind `mp_irq_dispatch`. -/
def dispatched (s : Timers) (t : Nat) (raised : Bool) (calls : List Call) : Timers :=
  let s := { s with
    mode := if raised then Function.update s.mode t timerModeOneShot else s.mode
    calls := calls }
  if s.mode t = timerModeOneShot then s.machineTimerDeinit t else s

inductive Event where
  | make
  | init (t : Nat) (mode : Int) (periodMs : Nat)
  | deinit (t : Nat)
  | expire (t : Nat)
  | dispatched (raised : Bool)
  | walk

/-- A thread makes a timer, and goes on with it only outside of interrupts. Timers that were
made are started and stopped at any time, and expire at any time while they run. -/
def permits (s : Timers) : Event → Bool
  | .make => s.calls.isEmpty
  | .init t _ _ | .deinit t => t < s.count
  | .expire t => s.running t
  | .dispatched _ => (s.calls.head? matches some (.dispatch _))
  | .walk => (s.calls.head? matches some (.deinit _))

def act (s : Timers) : Event → Timers
  | .make => s.machineTimerMakeNew
  | .init t mode periodMs => s.machineTimerInitHelper t mode periodMs
  | .deinit t => s.machineTimerDeinit t
  | .expire t => s.machineTimerCallback t
  | .dispatched raised =>
    match s.calls with
    | .dispatch t :: calls => s.dispatched t raised calls
    | _ => s
  | .walk =>
    match s.calls with
    | .deinit w :: calls => s.walk w calls
    | _ => s

def step (s : Timers) (e : Event) : Timers := if s.permits e then s.act e else s

/-- The collector finds every timer that runs, and no timer that runs was initialised. -/
structure Kept (s : Timers) : Prop where
  found : ∀ t, s.running t → Reaches s.next none t
  unclobbered : s.clobbered = false

/-- Only timers are started that neither run nor were stopped before. -/
def fresh (s : Timers) : Event → Bool
  | .init t _ _ => !s.running t && !s.stopped t
  | _ => true

/-! ## The invariant -/

/-- A value that may stand in the place `p`. -/
abbrev Good (count : Nat) (stopped : Nat → Bool) (p v : Option Nat) : Prop :=
  Covers (· < count) (fun t => stopped t = false) p v

/-- What a call of `machine_timer_deinit` has read is good where it stood. -/
structure WalkOk (count : Nat) (stopped : Nat → Bool) (w : Walk) : Prop where
  made : w.self < count
  dead : stopped w.self = true
  prev : Site (· < count) w.prev
  first : w.position = .first → w.prev = none
  timer : ∀ t, w.position = .timer t → Good count stopped w.prev t
  unlink : ∀ v, w.position = .unlink v →
    Good count stopped w.prev (some w.self) ∧ Good count stopped (some w.self) v

/-- No value that is stored or about to be stored passes over a timer that was never
stopped. -/
structure Chained (s : Timers) : Prop where
  sites : ∀ p, Site (· < s.count) p → Good s.count s.stopped p (s.next p)
  read : ∀ head, s.making = .read head → Good s.count s.stopped none head
  linked : s.making = .linked → Good s.count s.stopped none (s.next (some s.count))
  walks : ∀ w, .deinit w ∈ s.calls → WalkOk s.count s.stopped w
  dispatches : ∀ t, .dispatch t ∈ s.calls → t < s.count
  running : ∀ t, s.running t → t < s.count

/-- Only timers run that were never stopped. -/
structure Sound (s : Timers) : Prop where
  live : ∀ t, s.running t → s.stopped t = false
  unclobbered : s.clobbered = false

variable {s : Timers}

theorem Chained.kept (C : s.Chained) (S : s.Sound) : s.Kept where
  found t ht := reaches_of_covers C.sites trivial (C.running t ht) (S.live t ht)
  unclobbered := S.unclobbered

theorem boot_chained : boot.Chained where
  sites p _ := by
    refine ⟨fun t ht => ?_, fun m hm _ => ?_⟩
    · cases ht
    · exact absurd hm.isMember (Nat.not_lt_zero m)
  read head h := by cases h
  linked h := by cases h
  walks w h := by cases h
  dispatches t h := by cases h
  running t h := by cases h

theorem boot_sound : boot.Sound where
  live t h := by cases h
  unclobbered := rfl

/-! ## What the steps keep -/

section Later
variable {count : Nat} {stopped stopped' : Nat → Bool}
  (hstopped : ∀ t, stopped t = true → stopped' t = true)
include hstopped

theorem Good.later {p v : Option Nat} (h : Good count stopped p v) : Good count stopped' p v := by
  refine h.mono fun m hm => ?_
  cases hs : stopped m with
  | false => rfl
  | true => exact absurd ((hstopped m hs).symm.trans hm) (by decide)

/-- Timers are stopped, and what was read stays good. -/
theorem WalkOk.later {w : Walk} (O : WalkOk count stopped w) : WalkOk count stopped' w where
  made := O.made
  dead := hstopped _ O.dead
  prev := O.prev
  first := O.first
  timer t ht := Good.later hstopped (O.timer t ht)
  unlink v hv := (O.unlink v hv).imp (Good.later hstopped) (Good.later hstopped)

end Later

/-- A step that leaves the chain alone. -/
theorem Chained.same (C : s.Chained) {s' : Timers} (hnext : s'.next = s.next)
    (hcount : s'.count = s.count) (hmaking : s'.making = s.making)
    (hstopped : ∀ t, s.stopped t = true → s'.stopped t = true)
    (hcalls : ∀ c ∈ s'.calls, c ∈ s.calls ∨ (∃ t, c = .dispatch t ∧ t < s.count) ∨
      ∃ w, c = .deinit w ∧ WalkOk s.count s'.stopped w)
    (hrunning : ∀ t, s'.running t → t < s.count) : s'.Chained := by
  refine ⟨fun p hp => ?_, fun head h => ?_, fun h => ?_, fun w h => ?_, fun t h => ?_, ?_⟩
  · rw [hcount] at hp
    rw [hnext, hcount]
    exact Good.later hstopped (C.sites p hp)
  · rw [hcount]
    exact Good.later hstopped (C.read head (hmaking ▸ h))
  · rw [hnext, hcount]
    exact Good.later hstopped (C.linked (hmaking ▸ h))
  · rw [hcount]
    rcases hcalls _ h with h | ⟨t, ht, -⟩ | ⟨w', hw, O⟩
    · exact (C.walks w h).later hstopped
    · cases ht
    · cases hw
      exact O
  · rw [hcount]
    rcases hcalls _ h with h | ⟨t', ht, hmade⟩ | ⟨w, hw, -⟩
    · exact C.dispatches t h
    · cases ht
      exact hmade
    · cases hw
  · rw [hcount]
    exact hrunning

/-- A timer is marked as running, or as not running. -/
theorem Chained.marked (C : s.Chained) {t : Nat} (ht : t < s.count) (runs : Bool) {u : Nat}
    (hu : Function.update s.running t runs u = true) : u < s.count := by
  by_cases hut : u = t
  · exact hut ▸ ht
  · rw [Function.update_of_ne hut] at hu
    exact C.running u hu

theorem Chained.stop (C : s.Chained) {t : Nat} (ht : t < s.count) :
    (s.machineTimerDeinit t).Chained := by
  have hstopped : ∀ u, s.stopped u = true → (s.machineTimerDeinit t).stopped u = true := by
    intro u hu
    by_cases hut : u = t
    · subst hut
      exact Function.update_self ..
    · exact (Function.update_of_ne hut ..).trans hu
  refine C.same rfl rfl rfl hstopped (fun c hc => ?_) fun u hu => C.marked ht false hu
  rcases List.mem_cons.mp hc with rfl | hc
  · refine .inr (.inr ⟨_, rfl, ht, Function.update_self .., trivial, fun _ => rfl, ?_, ?_⟩)
    · intro u h
      cases h
    · intro v h
      cases h
  · exact .inl hc

theorem Chained.expire (C : s.Chained) {t : Nat} (ht : s.running t) :
    (s.machineTimerCallback t).Chained := by
  refine C.same rfl rfl rfl (fun _ h => h) (fun c hc => ?_) fun u hu =>
    C.marked (C.running t ht) _ hu
  rcases List.mem_cons.mp hc with rfl | hc
  · exact .inr (.inl ⟨t, rfl, C.running t ht⟩)
  · exact .inl hc

theorem Chained.init (C : s.Chained) {t : Nat} (ht : t < s.count) (mode : Int) (periodMs : Nat) :
    (s.machineTimerInitHelper t mode periodMs).Chained :=
  C.same rfl rfl rfl (fun _ h => h) (fun _ hc => .inl hc) fun _ hu => C.marked ht true hu

/-- Behind the callback the timer is stopped or goes on. -/
theorem dispatched_cases (s : Timers) (t : Nat) (raised : Bool) (calls : List Call) : ∃ mode,
    s.dispatched t raised calls = { s with mode := mode, calls := calls } ∨
      s.dispatched t raised calls =
        machineTimerDeinit { s with mode := mode, calls := calls } t := by
  refine ⟨if raised then Function.update s.mode t timerModeOneShot else s.mode, ?_⟩
  unfold dispatched
  dsimp only
  generalize (if raised then Function.update s.mode t timerModeOneShot else s.mode) = mode
  split
  · exact .inr rfl
  · exact .inl rfl

theorem Chained.popped (C : s.Chained) {t : Nat} {calls : List Call}
    (hcalls : s.calls = .dispatch t :: calls) (mode : Nat → Int) :
    Chained { s with mode := mode, calls := calls } :=
  C.same rfl rfl rfl (fun _ h => h)
    (fun c hc => .inl (by rw [hcalls]; exact List.mem_cons_of_mem _ hc)) C.running

theorem Chained.dispatched (C : s.Chained) {t : Nat} {calls : List Call}
    (hcalls : s.calls = .dispatch t :: calls) (raised : Bool) :
    (s.dispatched t raised calls).Chained := by
  have hmade : t < s.count := C.dispatches t (by rw [hcalls]; exact List.mem_cons_self)
  obtain ⟨mode, h | h⟩ := s.dispatched_cases t raised calls
  · exact h ▸ C.popped hcalls mode
  · exact h ▸ (C.popped hcalls mode).stop hmade

/-- **What a call of `machine_timer_deinit` stores is good**, however old it is. -/
theorem Chained.walk (C : s.Chained) {w : Walk} {calls : List Call}
    (hcalls : s.calls = .deinit w :: calls) : (s.walk w calls).Chained := by
  have O : WalkOk s.count s.stopped w := C.walks w (by rw [hcalls]; exact List.mem_cons_self)
  have hrest : ∀ c ∈ calls, c ∈ s.calls := by
    intro c hc
    rw [hcalls]
    exact List.mem_cons_of_mem _ hc
  have hmoves : ∀ w' : Walk, WalkOk s.count s.stopped w' →
      Chained { s with calls := .deinit w' :: calls } := by
    intro w' O'
    refine C.same rfl rfl rfl (fun _ h => h) (fun c hc => ?_) C.running
    rcases List.mem_cons.mp hc with rfl | hc
    · exact .inr (.inr ⟨w', rfl, O'⟩)
    · exact .inl (hrest c hc)
  unfold Timers.walk
  split
  · rename_i hposition
    refine hmoves _ ⟨O.made, O.dead, O.prev, ?_, ?_, ?_⟩
    · intro h
      cases h
    · intro t h
      cases h
      dsimp only
      rw [O.first hposition]
      exact C.sites none trivial
    · intro v h
      cases h
  · exact C.same rfl rfl rfl (fun _ h => h) (fun c hc => .inl (hrest c hc)) C.running
  · rename_i t hposition
    have hgood := O.timer _ hposition
    have ht : t < s.count := (hgood.behind t rfl).isMember
    split
    · rename_i hself
      subst hself
      refine hmoves _ ⟨O.made, O.dead, O.prev, ?_, ?_, ?_⟩
      · intro h
        cases h
      · intro t h
        cases h
      · intro v h
        cases h
        exact ⟨hgood, C.sites (some _) ht⟩
    · refine hmoves _ ⟨O.made, O.dead, ht, ?_, ?_, ?_⟩
      · intro h
        cases h
      · intro u h
        cases h
        exact C.sites (some t) ht
      · intro v h
        cases h
  · rename_i v hposition
    obtain ⟨hprev, hself⟩ := O.unlink v hposition
    have hdead : ¬ s.stopped w.self = false := by
      rw [O.dead]
      decide
    refine ⟨fun p hp => ?_, C.read, fun h => ?_, fun w' h => ?_,
      fun t h => C.dispatches t (hrest _ h), C.running⟩
    · change Good s.count s.stopped p (Function.update s.next w.prev v p)
      by_cases hpp : p = w.prev
      · subst hpp
        rw [Function.update_self]
        exact hprev.cut hself hdead
      · rw [Function.update_of_ne hpp]
        exact C.sites p hp
    · have hne : some s.count ≠ w.prev := by
        intro h
        have hsite := O.prev
        rw [← h] at hsite
        exact lt_irrefl _ hsite
      change Good s.count s.stopped none (Function.update s.next w.prev v (some s.count))
      rw [Function.update_of_ne hne]
      exact C.linked h
    · exact C.walks w' (hrest _ h)

theorem Chained.make (C : s.Chained) (hcalls : s.calls = []) : s.machineTimerMakeNew.Chained := by
  unfold machineTimerMakeNew
  split
  · refine ⟨C.sites, fun head h => ?_, fun h => ?_, C.walks, C.dispatches, C.running⟩
    · cases h
      exact C.sites none trivial
    · cases h
  · rename_i head hmaking
    refine ⟨fun p hp => ?_, fun _ h => ?_, fun _ => ?_, fun w h => ?_, C.dispatches, C.running⟩
    · have hne : p ≠ some s.count := by
        rintro rfl
        exact lt_irrefl _ hp
      change Good s.count s.stopped p (Function.update s.next (some s.count) head p)
      rw [Function.update_of_ne hne]
      exact C.sites p hp
    · cases h
    · change Good s.count s.stopped none
        (Function.update s.next (some s.count) head (some s.count))
      rw [Function.update_self]
      exact C.read head hmaking
    · exact C.walks w h
  · rename_i hmaking
    have hmember : ∀ m, m < s.count + 1 ↔ m < s.count ∨ m = s.count := fun m =>
      Nat.lt_succ_iff_lt_or_eq
    refine ⟨fun p hp => ?_, fun _ h => ?_, fun h => ?_, fun w h => ?_, fun t h => ?_,
      fun t ht => ?_⟩
    · change Good (s.count + 1) s.stopped p (Function.update s.next none (some s.count) p)
      cases p with
      | none =>
        rw [Function.update_self]
        exact covers_new hmember fun _ h => h
      | some t =>
        rw [Function.update_of_ne (by simp)]
        rcases (hmember t).mp hp with ht | rfl
        · exact (C.sites (some t) ht).widen ht hmember fun _ h => h
        · exact (C.linked hmaking).enter hmember fun _ h => h
    · cases h
    · cases h
    · rw [hcalls] at h
      cases h
    · rw [hcalls] at h
      cases h
    · exact (hmember t).mpr (.inl (C.running t ht))

theorem Chained.step (C : s.Chained) (e : Event) : (s.step e).Chained := by
  unfold Timers.step
  split
  swap
  · exact C
  rename_i hperm
  cases e with
  | make => exact C.make (List.isEmpty_iff.mp hperm)
  | init t mode periodMs => exact C.init (of_decide_eq_true hperm) mode periodMs
  | deinit t => exact C.stop (of_decide_eq_true hperm)
  | expire t => exact C.expire hperm
  | dispatched raised =>
    unfold act
    dsimp only
    split
    · rename_i t calls hcalls
      exact C.dispatched hcalls raised
    · exact C
  | walk =>
    unfold act
    dsimp only
    split
    · rename_i w calls hcalls
      exact C.walk hcalls
    · exact C

theorem Sound.same (S : s.Sound) {s' : Timers} (hrunning : s'.running = s.running)
    (hstopped : s'.stopped = s.stopped) (hclobbered : s'.clobbered = s.clobbered) : s'.Sound where
  live := by
    rw [hrunning, hstopped]
    exact S.live
  unclobbered := hclobbered.trans S.unclobbered

theorem Sound.stop (S : s.Sound) (t : Nat) : (s.machineTimerDeinit t).Sound where
  live u hu := by
    change Function.update s.running t false u = true at hu
    have hut : u ≠ t := by
      rintro rfl
      rw [Function.update_self] at hu
      cases hu
    rw [Function.update_of_ne hut] at hu
    exact (Function.update_of_ne hut ..).trans (S.live u hu)
  unclobbered := S.unclobbered

theorem Sound.dispatched (S : s.Sound) (t : Nat) (raised : Bool) (calls : List Call) :
    (s.dispatched t raised calls).Sound := by
  obtain ⟨mode, h | h⟩ := s.dispatched_cases t raised calls
  · exact h ▸ S.same rfl rfl rfl
  · have hpopped : Sound { s with mode := mode, calls := calls } := S.same rfl rfl rfl
    exact h ▸ hpopped.stop t

theorem Sound.step (S : s.Sound) {e : Event} (hfresh : s.fresh e) : (s.step e).Sound := by
  unfold Timers.step
  split
  swap
  · exact S
  rename_i hperm
  cases e with
  | make =>
    refine S.same ?_ ?_ ?_ <;> unfold act machineTimerMakeNew <;> dsimp only <;> split <;> rfl
  | init t mode periodMs =>
    simp only [fresh, Bool.and_eq_true, Bool.not_eq_true'] at hfresh
    refine ⟨fun u hu => ?_, ?_⟩
    · change Function.update s.running t true u = true at hu
      by_cases hut : u = t
      · exact hut ▸ hfresh.2
      · rw [Function.update_of_ne hut] at hu
        exact S.live u hu
    · change (s.clobbered || s.running t) = false
      rw [S.unclobbered, hfresh.1]
      rfl
  | deinit t => exact S.stop t
  | expire t =>
    refine ⟨fun u hu => ?_, S.unclobbered⟩
    change Function.update s.running t (s.periodMs t ≠ 0) u = true at hu
    by_cases hut : u = t
    · exact hut ▸ S.live t hperm
    · rw [Function.update_of_ne hut] at hu
      exact S.live u hu
  | dispatched raised =>
    unfold act
    dsimp only
    split
    · exact S.dispatched ..
    · exact S
  | walk =>
    unfold act
    dsimp only
    split
    · unfold Timers.walk
      refine S.same ?_ ?_ ?_ <;> split <;> (try split) <;> rfl
    · exact S

/-- **A timer that runs is kept**, in whatever order timers are made, started, stopped and
expire, and wherever their interrupts cut into the calls of others, as long as no timer is
started twice. -/
theorem timers_always_kept {l : List Event} (hfresh : Guarded step (fun s e => s.fresh e) boot l) :
    Always step Kept boot l := by
  have hinv := hfresh.always (I := fun s => s.Chained ∧ s.Sound)
    (fun _ e h hf => ⟨h.1.step e, h.2.step hf⟩) ⟨boot_chained, boot_sound⟩
  exact fun p hp => (hinv p hp).1.kept (hinv p hp).2

/-- Three timers; while the second one is taken out, the third one, which is in front of it,
expires for its only time and takes itself out. The second one stays on the chain, but it
does not run. -/
def crossing : List Event :=
  (List.range 3).flatMap (fun t => [.make, .make, .make, .init t (t % 2) 10]) ++
    [.deinit 1, .walk, .walk, .expire 2, .dispatched false, .walk, .walk, .walk, .walk, .walk]

theorem crossing_kept : Always step Kept boot crossing :=
  timers_always_kept (by decide)

/-! ## Every call ends -/

/-- The accesses that are left to a call, if there are no more timers than `bound`. -/
def callLeft (bound : Nat) : Call → Nat
  | .dispatch _ => 0
  | .deinit w =>
    match w.position with
    | .first => bound + 2
    | .timer (some t) => t + 2
    | .timer none | .unlink _ => 1

def callsLeft (bound : Nat) : List Call → Nat
  | [] => 0
  | c :: calls => callLeft bound c + callsLeft bound calls

def left (bound : Nat) (s : Timers) : Nat := callsLeft bound s.calls

/-- An access in a loop of `machine_timer_deinit`. -/
def Event.walks : Event → Bool
  | .walk => true
  | _ => false

/-- `machine_timer_deinit` may be called. -/
def Event.calls : Event → Bool
  | .deinit _ | .dispatched _ => true
  | _ => false

theorem left_cons {bound : Nat} {c : Call} {calls : List Call} (hcalls : s.calls = c :: calls) :
    s.left bound = callLeft bound c + callsLeft bound calls := by
  rw [left, hcalls, callsLeft]

/-- What stands behind a timer is older, so that each access leaves less to do. -/
theorem Chained.walk_left (C : s.Chained) {w : Walk} {calls : List Call}
    (hcalls : s.calls = .deinit w :: calls) {bound : Nat} (hbound : s.count ≤ bound) :
    (s.walk w calls).left bound + 1 ≤ s.left bound := by
  have O : WalkOk s.count s.stopped w := C.walks w (by rw [hcalls]; exact List.mem_cons_self)
  have hpast : ∀ {p : Option Nat} {n : Nat}, Site (· < s.count) p → 1 < n →
      (∀ t, Behind (· < s.count) p t → t + 2 < n) → ∀ self prev,
      callLeft bound (.deinit ⟨self, prev, .timer (s.next p)⟩) < n := by
    intro p n hp hone hn self prev
    unfold callLeft
    cases hnext : s.next p with
    | none => exact hone
    | some t => exact hn t ((C.sites p hp).behind t hnext)
  have hmoves : ∀ w' : Walk, callLeft bound (.deinit w') < callLeft bound (.deinit w) →
      left bound { s with calls := .deinit w' :: calls } + 1 ≤ s.left bound := by
    intro w' hless
    rw [left_cons hcalls, left_cons (s := { s with calls := .deinit w' :: calls }) rfl]
    omega
  have hpops : ∀ next, callLeft bound (.deinit w) = 1 →
      left bound { s with next := next, calls := calls } + 1 ≤ s.left bound := by
    intro next hone
    rw [left_cons hcalls, hone, left, Nat.add_comm]
  unfold Timers.walk
  split
  · rename_i hposition
    have hw : callLeft bound (.deinit w) = bound + 2 := by simp only [callLeft, hposition]
    refine hmoves _ (hw ▸ hpast (p := none) trivial (by omega) (fun t ht => ?_) _ _)
    have hmade : t < s.count := ht
    omega
  · rename_i hposition
    exact hpops s.next (by simp only [callLeft, hposition])
  · rename_i t hposition
    have hw : callLeft bound (.deinit w) = t + 2 := by simp only [callLeft, hposition]
    have hmade : t < s.count := ((O.timer _ hposition).behind t rfl).isMember
    split
    · refine hmoves _ (hw ▸ ?_)
      simp only [callLeft]
      omega
    · refine hmoves _ (hw ▸ hpast (p := some t) hmade (by omega) (fun u hu => ?_) _ _)
      have hold : u < t := hu.2
      omega
  · rename_i v hposition
    exact hpops _ (by simp only [callLeft, hposition])

theorem Chained.step_left (C : s.Chained) {e : Event} (hperm : s.permits e) {bound : Nat}
    (hbound : s.count ≤ bound) :
    (s.step e).left bound + e.walks.toNat ≤ s.left bound + (bound + 2) * e.calls.toNat := by
  have hcalled : ∀ (s : Timers) t,
      (s.machineTimerDeinit t).left bound = s.left bound + (bound + 2) := by
    intro s t
    rw [left_cons rfl, Nat.add_comm]
    rfl
  unfold Timers.step
  rw [if_pos hperm]
  cases e with
  | make =>
    have hsame : s.machineTimerMakeNew.calls = s.calls := by
      unfold machineTimerMakeNew
      split <;> rfl
    have hleft : s.machineTimerMakeNew.left bound = s.left bound := by rw [left, hsame, left]
    exact hleft.le
  | init t mode periodMs => exact Nat.le_refl _
  | deinit t => exact (hcalled s t).le.trans (by simp [Event.calls])
  | expire t =>
    have hleft : (s.machineTimerCallback t).left bound = s.left bound :=
      (left_cons rfl).trans (Nat.zero_add _)
    exact hleft.le
  | dispatched raised =>
    unfold act
    dsimp only
    split
    · rename_i t calls hcalls
      have hpopped : s.left bound = callsLeft bound calls :=
        (left_cons hcalls).trans (Nat.zero_add _)
      obtain ⟨mode, h | h⟩ := s.dispatched_cases t raised calls
      · rw [h, hpopped]
        simp [Event.calls, Event.walks, left]
      · rw [h, hcalled, hpopped]
        simp [Event.calls, Event.walks, left]
    · exact Nat.le_add_right _ _
  | walk =>
    unfold act
    dsimp only
    split
    · rename_i w calls hcalls
      exact C.walk_left hcalls hbound
    · rename_i hnone
      exact absurd hperm (by
        cases hcalls : s.calls with
        | nil => simp [permits, hcalls]
        | cons c calls =>
          cases c with
          | dispatch t => simp [permits, hcalls]
          | deinit w => exact absurd hcalls (hnone w calls))

theorem count_le_step (s : Timers) (e : Event) : s.count ≤ (s.step e).count := by
  unfold Timers.step
  split
  swap
  · exact Nat.le_refl _
  cases e <;> unfold act <;> dsimp only
  case make =>
    unfold machineTimerMakeNew
    split
    · exact Nat.le_refl _
    · exact Nat.le_refl _
    · exact Nat.le_succ _
  case dispatched =>
    rename_i raised _
    split
    · rename_i t calls _
      obtain ⟨mode, h | h⟩ := s.dispatched_cases t raised calls <;> exact h ▸ Nat.le_refl _
    · exact Nat.le_refl _
  case walk =>
    split
    · unfold Timers.walk
      split <;> (try split) <;> exact Nat.le_refl _
    · exact Nat.le_refl _
  all_goals exact Nat.le_refl _

theorem count_le_run (s : Timers) (l : List Event) : s.count ≤ (l.foldl step s).count := by
  induction l generalizing s with
  | nil => exact Nat.le_refl _
  | cons e l ih => exact (s.count_le_step e).trans (ih _)

theorem walks_le (C : s.Chained) {l : List Event}
    (hperm : Guarded step (fun s e => s.permits e) s l) {bound : Nat}
    (hbound : (l.foldl step s).count ≤ bound) :
    l.countP Event.walks ≤ s.left bound + (bound + 2) * l.countP Event.calls := by
  induction l generalizing s with
  | nil => exact Nat.zero_le _
  | cons e l ih =>
    obtain ⟨hfirst, hrest⟩ := guarded_cons.mp hperm
    have hlower := C.step_left hfirst ((count_le_run s (e :: l)).trans hbound)
    have hlater := ih (C.step e) hrest hbound
    have hwalks : (if e.walks then 1 else 0) = e.walks.toNat := by cases e.walks <;> rfl
    have hcalls : (if e.calls then 1 else 0) = e.calls.toNat := by cases e.calls <;> rfl
    rw [List.countP_cons, List.countP_cons, hwalks, hcalls, Nat.mul_add]
    omega

/-- **Every call of `machine_timer_deinit` ends**, however often it is interrupted and whatever
the interrupts take off the chain meanwhile: the loops together make no more accesses than the
timers made, and two, for each call. -/
theorem deinit_accesses_le {l : List Event}
    (hperm : Guarded step (fun s e => s.permits e) boot l) :
    l.countP Event.walks ≤ ((l.foldl step boot).count + 2) * l.countP Event.calls := by
  have hrun := walks_le boot_chained hperm (Nat.le_refl _)
  have hnothing : boot.left (l.foldl step boot).count = 0 := rfl
  omega

/-- Eight accesses for two calls. -/
theorem crossing_accesses_le : crossing.countP Event.walks ≤ (3 + 2) * 2 :=
  deinit_accesses_le (l := crossing) (by decide)

/-! ## Calls that are not interrupted -/

/-- Nothing cuts into the accesses of `machine_timer_make_new` and `machine_timer_deinit`. -/
def alone (s : Timers) : Event → Bool
  | .make | .walk => true
  | _ => s.making = .idle && !(s.calls.head? matches some (.deinit _))

/-- A timer that was stopped is on the chain only as long as the call that takes it out is
under way; what that call has read still stands where it was. -/
structure Tidy (s : Timers) : Prop where
  chained : s.Chained
  made : ∀ t, s.stopped t = true → t < s.count
  calm : s.making ≠ .idle → s.calls = []
  read : ∀ head, s.making = .read head → s.next none = head
  linked : s.making = .linked → s.next (some s.count) = s.next none
  single : ∀ w, .deinit w ∉ s.calls.tail
  gone : ∀ t, s.stopped t = true → Reaches s.next none t →
    ∃ w, s.calls.head? = some (.deinit w) ∧ w.self = t
  visited : ∀ w, s.calls.head? = some (.deinit w) → Visited s.next w.prev
  timer : ∀ w v, s.calls.head? = some (.deinit w) → w.position = .timer v →
    s.next w.prev = v ∧ (Reaches s.next none w.self → Reaches s.next w.prev w.self)
  unlink : ∀ w v, s.calls.head? = some (.deinit w) → w.position = .unlink v →
    s.next w.prev = some w.self ∧ s.next (some w.self) = v

theorem boot_tidy : boot.Tidy where
  chained := boot_chained
  made t h := by cases h
  calm h := absurd rfl h
  read head h := by cases h
  linked h := by cases h
  single w h := by cases h
  gone t h := by cases h
  visited w h := by cases h
  timer w v h := by cases h
  unlink w v h := by cases h

theorem Tidy.no_deinit (T : s.Tidy) (hhead : ∀ w, s.calls.head? ≠ some (.deinit w)) (w : Walk) :
    .deinit w ∉ s.calls := by
  intro h
  cases hcalls : s.calls with
  | nil =>
    rw [hcalls] at h
    cases h
  | cons c calls =>
    rw [hcalls] at h
    rcases List.mem_cons.mp h with rfl | h
    · exact hhead w (by rw [hcalls]; rfl)
    · exact T.single w (by rw [hcalls]; exact h)

/-- A state without calls of `machine_timer_deinit`. -/
theorem Chained.tidy (C : s.Chained) (hmade : ∀ t, s.stopped t = true → t < s.count)
    (hcalm : s.making ≠ .idle → s.calls = [])
    (hread : ∀ head, s.making = .read head → s.next none = head)
    (hlinked : s.making = .linked → s.next (some s.count) = s.next none)
    (hnone : ∀ w, .deinit w ∉ s.calls)
    (hgone : ∀ t, s.stopped t = true → ¬ Reaches s.next none t) :
    s.Tidy := by
  have hhead : ∀ w, s.calls.head? ≠ some (.deinit w) := fun w h => hnone w (List.mem_of_head? h)
  exact ⟨C, hmade, hcalm, hread, hlinked, fun w h => hnone w (List.mem_of_mem_tail h),
    fun t ht hr => absurd hr (hgone t ht), fun w h => absurd h (hhead w),
    fun w _ h => absurd h (hhead w), fun w _ h => absurd h (hhead w)⟩

theorem Tidy.not_reaches (T : s.Tidy) (hhead : ∀ w, s.calls.head? ≠ some (.deinit w)) {t : Nat}
    (ht : s.stopped t = true) : ¬ Reaches s.next none t := by
  intro h
  obtain ⟨w, hw, -⟩ := T.gone t ht h
  exact hhead w hw

theorem Chained.descends (C : s.Chained) : Descends (· < s.count) s.next := fun p hp =>
  (C.sites p hp).behind

theorem Tidy.stop (T : s.Tidy) (hidle : s.making = .idle)
    (hhead : ∀ w, s.calls.head? ≠ some (.deinit w)) {t : Nat} (ht : t < s.count) :
    (s.machineTimerDeinit t).Tidy where
  chained := T.chained.stop ht
  made u hu := by
    by_cases hut : u = t
    · exact hut ▸ ht
    · change Function.update s.stopped t true u = true at hu
      rw [Function.update_of_ne hut] at hu
      exact T.made u hu
  calm h := absurd hidle h
  read _ h := by
    have hmaking : s.making = _ := h
    rw [hidle] at hmaking
    cases hmaking
  linked h := by
    have hmaking : s.making = _ := h
    rw [hidle] at hmaking
    cases hmaking
  single := T.no_deinit hhead
  gone u hu hr := by
    by_cases hut : u = t
    · exact ⟨_, rfl, hut.symm⟩
    · change Function.update s.stopped t true u = true at hu
      rw [Function.update_of_ne hut] at hu
      exact absurd hr (T.not_reaches hhead hu)
  visited w h := by
    cases h
    trivial
  timer w v h hposition := by
    cases h
    cases hposition
  unlink w v h hposition := by
    cases h
    cases hposition

/-! ### A call of `machine_timer_deinit` on top of the others -/

section Walking
variable {w : Walk} {calls : List Call}

theorem Tidy.walk_idle (T : s.Tidy) (hcalls : s.calls = .deinit w :: calls) : s.making = .idle := by
  by_contra hne
  exact List.cons_ne_nil _ _ (hcalls.symm.trans (T.calm hne))

theorem Tidy.walk_single (T : s.Tidy) (hcalls : s.calls = .deinit w :: calls) (w' : Walk) :
    .deinit w' ∉ calls := by
  have hsingle := T.single w'
  rwa [hcalls] at hsingle

/-- Only the timer of that call is stopped and still on the chain. -/
theorem Tidy.walk_gone (T : s.Tidy) (hcalls : s.calls = .deinit w :: calls) {t : Nat}
    (ht : s.stopped t = true) (hr : Reaches s.next none t) : w.self = t := by
  obtain ⟨w', hw', ht'⟩ := T.gone t ht hr
  rw [hcalls] at hw'
  cases hw'
  exact ht'

/-- The call goes on with what it has read. -/
theorem Tidy.walk_on (T : s.Tidy) (hcalls : s.calls = .deinit w :: calls) {w' : Walk}
    (hself : w'.self = w.self) (C : Chained { s with calls := .deinit w' :: calls })
    (hvisited : Visited s.next w'.prev)
    (htimer : ∀ v, w'.position = .timer v →
      s.next w'.prev = v ∧ (Reaches s.next none w'.self → Reaches s.next w'.prev w'.self))
    (hunlink : ∀ v, w'.position = .unlink v →
      s.next w'.prev = some w'.self ∧ s.next (some w'.self) = v) :
    Tidy { s with calls := .deinit w' :: calls } where
  chained := C
  made := T.made
  calm h := absurd (T.walk_idle hcalls) h
  read _ h := by cases (T.walk_idle hcalls).symm.trans h
  linked h := by cases (T.walk_idle hcalls).symm.trans h
  single := T.walk_single hcalls
  gone t ht hr := ⟨w', rfl, hself.trans (T.walk_gone hcalls ht hr)⟩
  visited u hu := by
    cases hu
    exact hvisited
  timer u v hu := by
    cases hu
    exact htimer v
  unlink u v hu := by
    cases hu
    exact hunlink v

/-- The call is over, and no stopped timer is on the chain. -/
theorem Tidy.walk_over (T : s.Tidy) (hcalls : s.calls = .deinit w :: calls)
    {next : Option Nat → Option Nat} (C : Chained { s with next := next, calls := calls })
    (hlost : ∀ t, s.stopped t = true → ¬ Reaches next none t) :
    Tidy { s with next := next, calls := calls } :=
  C.tidy T.made (fun h => absurd (T.walk_idle hcalls) h)
    (fun _ h => by cases (T.walk_idle hcalls).symm.trans h)
    (fun h => by cases (T.walk_idle hcalls).symm.trans h) (T.walk_single hcalls) hlost

theorem Tidy.walk (T : s.Tidy) (hcalls : s.calls = .deinit w :: calls) : (s.walk w calls).Tidy := by
  have hhead : s.calls.head? = some (.deinit w) := by
    rw [hcalls]
    rfl
  have C := T.chained.walk hcalls
  revert C
  unfold Timers.walk
  split
  · rename_i hposition
    have hprev : w.prev = none := (T.chained.walks w (List.mem_of_head? hhead)).first hposition
    intro C
    refine T.walk_on hcalls rfl C (T.visited w hhead) (fun v hv => ?_) (fun v hv => ?_)
    · cases hv
      dsimp only
      rw [hprev]
      exact ⟨rfl, id⟩
    · cases hv
  · -- the end of the chain: the timer is not on it
    rename_i hposition
    obtain ⟨hnext, hreaches⟩ := T.timer w none hhead hposition
    intro C
    refine T.walk_over hcalls C fun t ht hr => ?_
    obtain rfl := T.walk_gone hcalls ht hr
    cases hreaches hr with
    | here h => exact Option.some_ne_none _ (h.symm.trans hnext)
    | there h _ => exact Option.some_ne_none _ (h.symm.trans hnext)
  · rename_i t hposition
    obtain ⟨hnext, hreaches⟩ := T.timer w (some t) hhead hposition
    split
    · rename_i hself
      subst hself
      intro C
      refine T.walk_on hcalls rfl C (T.visited w hhead) (fun v hv => ?_) (fun v hv => ?_)
      · cases hv
      · cases hv
        exact ⟨hnext, rfl⟩
    · rename_i hself
      intro C
      refine T.walk_on hcalls rfl C ((T.visited w hhead).reaches hnext) (fun v hv => ?_)
        (fun v hv => ?_)
      · cases hv
        exact ⟨rfl, fun h => ((hreaches h).cases_next hnext).resolve_left fun h => hself h.symm⟩
      · cases hv
  · -- the timer is taken out
    rename_i v hposition
    obtain ⟨hprev, hself⟩ := T.unlink w v hhead hposition
    intro C
    refine T.walk_over hcalls C fun t ht hr => ?_
    obtain rfl := T.walk_gone hcalls ht (hr.of_cut hprev hself)
    exact not_reaches_cut T.chained.descends (T.visited w hhead) hprev hself hr

end Walking

theorem Tidy.make (T : s.Tidy) (hcalls : s.calls = []) : s.machineTimerMakeNew.Tidy := by
  have hnone : ∀ w, .deinit w ∉ s.calls := by
    intro w
    rw [hcalls]
    exact List.not_mem_nil
  have hlost : ∀ t, s.stopped t = true → ¬ Reaches s.next none t := fun t =>
    T.not_reaches fun w => by
      rw [hcalls]
      exact fun h => Option.some_ne_none _ h.symm
  have C := T.chained.make hcalls
  revert C
  unfold machineTimerMakeNew
  split
  · intro C
    refine C.tidy T.made (fun _ => hcalls) (fun head h => ?_) (fun h => ?_) hnone hlost
    · cases h
      rfl
    · cases h
  · rename_i head hmaking
    have hout : ¬ Site (· < s.count) (some s.count) := lt_irrefl _
    intro C
    refine C.tidy T.made (fun _ => hcalls) (fun _ h => ?_) (fun _ => ?_) hnone fun t ht hr => ?_
    · cases h
    · dsimp only
      rw [Function.update_self, Function.update_of_ne (by simp), T.read head hmaking]
    · exact hlost t ht (hr.of_outside T.chained.descends trivial hout)
  · rename_i hmaking
    intro C
    refine C.tidy (fun t ht => (T.made t ht).trans (Nat.lt_succ_self _)) (fun _ => hcalls)
      (fun _ h => ?_) (fun h => ?_) hnone fun t ht hr => ?_
    · cases h
    · cases h
    · change Reaches (Function.update s.next none (some s.count)) none t at hr
      rcases hr.cases_next (Function.update_self ..) with rfl | hr
      · exact lt_irrefl _ (T.made _ ht)
      · refine hlost t ht ?_
        have hsame := T.linked hmaking
        cases hr.of_head with
        | here h => exact .here (hsame.symm.trans h)
        | there h hrest => exact .there (hsame.symm.trans h) hrest

/-- A step that leaves the chain alone, when no call is under way. -/
theorem Tidy.quiet (T : s.Tidy) (hidle : s.making = .idle)
    (hhead : ∀ w, s.calls.head? ≠ some (.deinit w)) {s' : Timers} (C : s'.Chained)
    (hnext : s'.next = s.next) (hcount : s'.count = s.count) (hstopped : s'.stopped = s.stopped)
    (hmaking : s'.making = s.making) (hnone : ∀ w, .deinit w ∉ s'.calls) : s'.Tidy := by
  refine C.tidy ?_ (fun h => absurd (hmaking.trans hidle) h) (fun head h => ?_) (fun h => ?_)
    hnone ?_
  · rw [hcount, hstopped]
    exact T.made
  · rw [hmaking, hidle] at h
    cases h
  · rw [hmaking, hidle] at h
    cases h
  · rw [hnext, hstopped]
    exact fun t => T.not_reaches hhead

theorem Tidy.dispatched (T : s.Tidy) (hidle : s.making = .idle) {t : Nat} {calls : List Call}
    (hcalls : s.calls = .dispatch t :: calls) (raised : Bool) :
    (s.dispatched t raised calls).Tidy := by
  have hhead : ∀ w, s.calls.head? ≠ some (.deinit w) := by
    intro w h
    rw [hcalls] at h
    cases h
  have hnone : ∀ w, .deinit w ∉ calls := fun w h =>
    T.no_deinit hhead w (by rw [hcalls]; exact List.mem_cons_of_mem _ h)
  have hpopped : ∀ mode, Tidy { s with mode := mode, calls := calls } := fun mode =>
    T.quiet hidle hhead (T.chained.popped hcalls mode) rfl rfl rfl rfl hnone
  have hmade : t < s.count := T.chained.dispatches t (by rw [hcalls]; exact List.mem_cons_self)
  obtain ⟨mode, h | h⟩ := s.dispatched_cases t raised calls
  · exact h ▸ hpopped mode
  · exact h ▸ (hpopped mode).stop hidle (fun w h => hnone w (List.mem_of_head? h)) hmade

theorem Tidy.step (T : s.Tidy) {e : Event} (halone : s.alone e) : (s.step e).Tidy := by
  have C := T.chained.step e
  revert C
  unfold Timers.step
  split
  swap
  · exact fun _ => T
  rename_i hperm
  have hcalm : (s.making = .idle && !(s.calls.head? matches some (.deinit _))) = true →
      s.making = .idle ∧ ∀ w, s.calls.head? ≠ some (.deinit w) := by
    intro h
    simp only [Bool.and_eq_true, decide_eq_true_eq, Bool.not_eq_true'] at h
    refine ⟨h.1, fun w hw => ?_⟩
    rw [hw] at h
    cases h.2
  intro C
  cases e with
  | make => exact T.make (List.isEmpty_iff.mp hperm)
  | init t mode periodMs =>
    obtain ⟨hidle, hhead⟩ := hcalm halone
    exact T.quiet hidle hhead C rfl rfl rfl rfl (T.no_deinit hhead)
  | deinit t =>
    obtain ⟨hidle, hhead⟩ := hcalm halone
    exact T.stop hidle hhead (of_decide_eq_true hperm)
  | expire t =>
    obtain ⟨hidle, hhead⟩ := hcalm halone
    refine T.quiet hidle hhead C rfl rfl rfl rfl fun w hw => ?_
    rcases List.mem_cons.mp hw with hw | hw
    · cases hw
    · exact T.no_deinit hhead w hw
  | dispatched raised =>
    revert C
    unfold act
    dsimp only
    split
    · rename_i t calls hcalls
      exact fun _ => T.dispatched (hcalm halone).1 hcalls raised
    · exact fun _ => T
  | walk =>
    revert C
    unfold act
    dsimp only
    split
    · rename_i w calls hcalls
      exact fun _ => T.walk hcalls
    · exact fun _ => T

/-- A timer that is started while it runs, or behind `machine_timer_deinit`, is not kept. -/
theorem Tidy.breaks (T : s.Tidy) {e : Event} (halone : s.alone e) (hstale : ¬ s.fresh e) :
    ¬ (s.step e).Kept := by
  cases e with
  | init t mode periodMs =>
    have hagain : s.running t = true ∨ s.stopped t = true := by
      simpa [fresh, or_iff_not_imp_left] using hstale
    have hmade : t < s.count := hagain.elim (T.chained.running t) (T.made t)
    have hstep : s.step (.init t mode periodMs) = s.machineTimerInitHelper t mode periodMs :=
      if_pos (decide_eq_true hmade)
    rw [hstep]
    intro K
    rcases hagain with hrunning | hstopped
    · have hclobbered : (s.clobbered || s.running t) = false := K.unclobbered
      rw [hrunning, Bool.or_true] at hclobbered
      cases hclobbered
    · refine T.not_reaches ?_ hstopped (K.found t (Function.update_self ..))
      intro w hw
      simp [alone, hw] at halone
  | _ => exact absurd rfl hstale

/-- **When timers are kept.** If nothing cuts into the accesses of the two calls, every timer
that runs is kept exactly as long as no timer is started while it runs or after it was stopped,
be it by its own expiry: for a timer that is started again there is no way back onto the
chain. -/
theorem timers_kept_iff {l : List Event} (halone : Guarded step (fun s e => s.alone e) boot l) :
    Always step Kept boot l ↔ Guarded step (fun s e => s.fresh e) boot l :=
  always_iff_guarded_within (I := fun s => s.Tidy ∧ s.Sound)
    (fun _ _ h ha hf => ⟨h.1.step ha, h.2.step hf⟩) (fun _ _ h => h.1.breaks)
    (fun _ h => h.1.chained.kept h.2) ⟨boot_tidy, boot_sound⟩ halone

/-- A timer that has expired for its only time is started again. -/
def restarted : List Event :=
  [.make, .make, .make, .init 0 timerModeOneShot 10, .expire 0, .dispatched false, .walk, .walk,
    .walk, .init 0 timerModeOneShot 10]

theorem restarted_not_kept : ¬ Always step Kept boot restarted := fun h =>
  absurd ((timers_kept_iff (by decide)).mp h) (by decide)

end Timers

end Sdkz.Mp
