import Mathlib.Data.Fintype.Card
import Mathlib.Data.Fintype.EquivFin
import Mathlib.Data.List.FinRange
import Mathlib.Logic.Function.Basic
import Sdkz.Base.Run

/-! # The threads of Python (app/micropython/mpthreadport.c, shellcmd.c)

Every Python thread has a node in a list and one of four stacks. A thread says that
it is finished and ends some time later; its stack is given back by a collection
that finds it finished and no longer run by the kernel. The functions hold
`thread_mutex`, so that each is one step, and the threads and the kernel go on
between any two of them.

The `python` command makes a session: it starts the list again with itself, and in
the end aborts what still runs and collects once more. The table of the stacks is
not started again. -/

namespace Sdkz.Mp
open Sdkz.Base

/-- `MP_THREAD_MAXIMUM_USER_THREADS` -/
abbrev maximumUserThreads : Nat := 4

abbrev Stack := Fin maximumUserThreads

/-- `mp_thread_status_t` -/
inductive Status where
  | created
  | ready
  | finished
deriving DecidableEq

/-- `mp_thread_t`; its address is its `id`. -/
structure MpThread where
  id : Nat
  status : Status
  alive : Bool
  slot : Stack
deriving DecidableEq

namespace MpThread

def lower (th : MpThread) : MpThread := { th with alive := false }

/-- The node is unlinked. -/
def gone (th : MpThread) : Bool := th.status = .finished && !th.alive

/-- What the calls of the kernel leave of a node. -/
def found (ids : List Nat) (th : MpThread) : MpThread :=
  if th.id ∈ ids then { th with alive := true } else th

theorem found_eq (ids : List Nat) (th : MpThread) :
    th.found ids = { th with alive := th.alive || th.id ∈ ids } := by
  rw [found]
  split
  · next hid => simp [hid]
  · next hid => simp [hid]

end MpThread

/-- Where the command is: not running, in its session, or behind `mp_thread_deinit`. -/
inductive Phase where
  | off
  | session
  | aborted
deriving DecidableEq

structure Threads where
  thread : List MpThread
  /-- `stack_slot[i].used` -/
  stackSlot : Stack → Bool
  /-- `mp_thread_counter`, eight bits -/
  counter : Nat
  /-- the thread of the command -/
  current : Nat
  phase : Phase
  /-- the Python threads that the kernel runs, and their stacks -/
  kernel : List (Nat × Stack)

namespace Threads

def boot : Threads where
  thread := []
  stackSlot := fun _ => false
  counter := 0
  current := 0
  phase := .off
  kernel := []

/-- `thread_entry0` lies in cleared memory, and its slot is never set. -/
def mpThreadInit (s : Threads) (current : Nat) : Threads :=
  { s with thread := [⟨current, .ready, true, 0⟩], counter := 0, current := current }

def mpThreadIterateThreadsCb (thread : List MpThread) (zThread : Nat) : List MpThread :=
  thread.map fun th => if th.id = zThread then { th with alive := true } else th

/-- The loop that unlinks; the flags of the nodes that stay are lowered for the next one. -/
def unlink : List MpThread → (Stack → Bool) → Nat → List MpThread × (Stack → Bool) × Nat
  | [], stackSlot, counter => ([], stackSlot, counter)
  | th :: next, stackSlot, counter =>
    if th.status = .finished ∧ ¬ th.alive then
      unlink next (Function.update stackSlot th.slot false) ((counter + 255) % 256)
    else
      let r := unlink next stackSlot counter
      ({ th with alive := false } :: r.1, r.2)

def mpThreadGcOthers (s : Threads) : Threads :=
  if s.thread = [] then s
  else
    let found := (s.current :: s.kernel.map (·.1)).foldl mpThreadIterateThreadsCb s.thread
    let r := unlink found s.stackSlot s.counter
    { s with thread := r.1, stackSlot := r.2.1, counter := r.2.2 }

def setStatus (status : Status) (id : Nat) : List MpThread → List MpThread
  | [] => []
  | th :: next =>
    if th.id = id then { th with status := status } :: next else th :: setStatus status id next

def mpThreadStart (s : Threads) (id : Nat) : Threads :=
  { s with thread := setStatus .ready id s.thread }

def mpThreadFinish (s : Threads) (id : Nat) : Threads :=
  { s with thread := setStatus .finished id s.thread }

def mpThreadFindStackSlot (stackSlot : Stack → Bool) : Option Stack :=
  (List.finRange maximumUserThreads).find? fun i => !stackSlot i

/-- The part of `mp_thread_create_ex` under the mutex; without a stack it raises an error
and changes nothing. -/
def mpThreadCreateEx (s : Threads) (id : Nat) : Threads :=
  match mpThreadFindStackSlot s.stackSlot with
  | none => s
  | some slot =>
    { s with
      thread := ⟨id, .created, false, slot⟩ :: s.thread
      stackSlot := Function.update s.stackSlot slot true
      counter := (s.counter + 1) % 256
      kernel := (id, slot) :: s.kernel }

/-- `mp_thread_deinit` aborts this thread. -/
def aborts (s : Threads) (th : MpThread) : Bool := th.id ≠ s.current && th.status ≠ .finished

def mpThreadDeinit (s : Threads) : Threads :=
  { s with
    thread := s.thread.map fun th => if s.aborts th then { th with status := .finished } else th
    kernel := s.kernel.filter fun t => !s.thread.any fun th => s.aborts th && th.id = t.1 }

/-- A call of the command, of a thread, or of the collector; or a thread comes to its end. -/
inductive Event where
  | init (current : Nat)
  | createEx (id : Nat)
  | start (id : Nat)
  | finish (id : Nat)
  | exit (id : Nat)
  | gc
  | deinit

/-- The kernel runs the thread. -/
def runs (s : Threads) (id : Nat) : Bool := s.kernel.any fun t => t.1 = id

/-- A new thread object lies apart from those of the threads that are listed or run. The
command collects once more behind `mp_thread_deinit` and returns. -/
def permits (s : Threads) : Event → Bool
  | .init current => s.phase = .off && !s.runs current
  | .createEx id => s.phase = .session && id ≠ s.current && !s.runs id &&
    !s.thread.any fun th => th.id = id
  | .start id => s.runs id && s.thread.any fun th => th.id = id && th.status = .created
  | .finish id => s.runs id && s.thread.any fun th => th.id = id && th.status ≠ .finished
  | .exit id => s.runs id
  | .gc => s.phase ≠ .off
  | .deinit => s.phase = .session

def act (s : Threads) : Event → Threads
  | .init current => { s.mpThreadInit current with phase := .session }
  | .createEx id => s.mpThreadCreateEx id
  | .start id => s.mpThreadStart id
  | .finish id => s.mpThreadFinish id
  | .exit id => { s with kernel := s.kernel.filter fun t => t.1 ≠ id }
  | .gc =>
    { s.mpThreadGcOthers with phase := if s.phase = .aborted then .off else s.phase }
  | .deinit => { s.mpThreadDeinit with phase := .aborted }

def step (s : Threads) (e : Event) : Threads := if s.permits e then s.act e else s

/-- The nodes of the Python threads, without that of the command. -/
def others (s : Threads) : List MpThread := s.thread.filter fun th => th.id ≠ s.current

/-- The thread has said that it is finished, and has ended. -/
def dead (s : Threads) (th : MpThread) : Bool := th.status = .finished && !s.runs th.id

/-! ## The collection -/

theorem iterate_eq (ids : List Nat) (thread : List MpThread) :
    ids.foldl mpThreadIterateThreadsCb thread = thread.map (MpThread.found ids) := by
  induction ids generalizing thread with
  | nil => exact (List.map_id' thread).symm.trans (List.map_congr_left fun th _ => by rfl)
  | cons id ids ih =>
    rw [List.foldl_cons, ih, mpThreadIterateThreadsCb, List.map_map]
    refine List.map_congr_left fun th _ => ?_
    simp only [Function.comp_apply, MpThread.found, List.mem_cons]
    by_cases hid : th.id = id
    · simp [hid]
    · simp [hid]

theorem unlink_eq (thread : List MpThread) (stackSlot : Stack → Bool) {counter : Nat}
    (hcounter : counter < 256) : unlink thread stackSlot counter =
      ((thread.filter fun th => !th.gone).map MpThread.lower,
        fun k => stackSlot k && !thread.any fun th => th.gone && th.slot = k,
        (counter + 255 * thread.countP MpThread.gone) % 256) := by
  induction thread generalizing stackSlot counter with
  | nil => simp [unlink, Nat.mod_eq_of_lt hcounter]
  | cons th next ih =>
    rw [unlink]
    by_cases hgone : th.gone = true
    · rw [if_pos (by simpa [MpThread.gone] using hgone), ih _ (Nat.mod_lt _ (by decide))]
      refine Prod.ext ?_ (Prod.ext (funext fun k => ?_) ?_)
      · simp [hgone]
      · by_cases hk : th.slot = k
        · subst hk
          simp [hgone]
        · simp [hgone, hk, Function.update_of_ne (Ne.symm hk)]
      · simp only [List.countP_cons_of_pos hgone]
        omega
    · rw [if_neg (by simpa [MpThread.gone] using hgone), ih _ hcounter]
      refine Prod.ext ?_ (Prod.ext (funext fun k => ?_) ?_)
      · simp [hgone, MpThread.lower]
      · simp [hgone]
      · simp only [List.countP_cons_of_neg hgone]

/-! ## The invariant -/

/-- Listed threads have stacks of their own, which are marked as used, and so have threads
that run; a running thread is on the stack of its node, if it has one. -/
structure Inv (s : Threads) : Prop where
  entry : ∀ th ∈ s.thread, th.id = s.current → th.status ≠ .finished
  lowered : ∀ th ∈ s.others, th.alive = false
  slots : (s.others.map (·.slot)).Nodup
  used : ∀ th ∈ s.others, s.stackSlot th.slot
  running : ∀ t ∈ s.kernel, t.1 ≠ s.current ∧ s.stackSlot t.2 ∧
    ∀ th ∈ s.others, th.id = t.1 ↔ th.slot = t.2
  apart : (s.kernel.map (·.2)).Nodup
  counted : s.counter = s.others.length

variable {s : Threads}

theorem mem_others {th : MpThread} : th ∈ s.others ↔ th ∈ s.thread ∧ th.id ≠ s.current := by
  simp [others]

theorem Inv.length_le (I : s.Inv) : s.others.length ≤ maximumUserThreads := by
  have hcard := I.slots.length_le_card
  rwa [List.length_map, Fintype.card_fin] at hcard

theorem Inv.counter_lt (I : s.Inv) : s.counter < 256 := by
  rw [I.counted]
  exact Nat.lt_of_le_of_lt I.length_le (by decide)

/-- The node of the command is never dead. -/
theorem Inv.dead_others (I : s.Inv) {th : MpThread} (hmem : th ∈ s.thread) (hdead : s.dead th) :
    th ∈ s.others := by
  refine mem_others.mpr ⟨hmem, fun hid => I.entry th hmem hid ?_⟩
  simp only [dead, Bool.and_eq_true, decide_eq_true_eq] at hdead
  exact hdead.1

/-- **What a collection does**: the nodes of dead threads are unlinked, and their stacks
given back. -/
theorem Inv.gc_eq (I : s.Inv) : s.mpThreadGcOthers = { s with
    thread := (s.thread.filter fun th => !s.dead th).map MpThread.lower
    stackSlot := fun k => s.stackSlot k && !s.thread.any fun th => s.dead th && th.slot = k
    counter := (s.counter + 255 * s.thread.countP s.dead) % 256 } := by
  have hgone : ∀ th ∈ s.thread,
      (th.found (s.current :: s.kernel.map (·.1))).gone = s.dead th := by
    intro th hmem
    rw [MpThread.found_eq]
    by_cases hid : th.id = s.current
    · have hstatus := I.entry th hmem hid
      simp [MpThread.gone, dead, hstatus]
    · have hlowered := I.lowered th (mem_others.mpr ⟨hmem, hid⟩)
      have hruns : s.runs th.id = decide (th.id ∈ s.current :: s.kernel.map (·.1)) := by
        rw [runs, Bool.eq_iff_iff]
        simp [hid]
      rw [MpThread.gone, hlowered, Bool.false_or, dead, hruns]
  by_cases hnil : s.thread = []
  · obtain ⟨thread, stackSlot, counter, current, phase, kernel⟩ := s
    subst hnil
    simp [mpThreadGcOthers, Nat.mod_eq_of_lt I.counter_lt]
  · rw [mpThreadGcOthers, if_neg hnil]
    simp only [iterate_eq, unlink_eq _ _ I.counter_lt, List.filter_map, List.map_map, List.any_map,
      List.countP_map, Threads.mk.injEq, and_true]
    refine ⟨?_, funext fun k => ?_, ?_⟩
    · have hkept : s.thread.filter ((fun th => !th.gone) ∘ MpThread.found _) =
          s.thread.filter fun th => !s.dead th :=
        List.filter_congr fun th hmem => congrArg not (hgone th hmem)
      rw [hkept]
      exact List.map_congr_left fun th _ => by rw [Function.comp_apply, MpThread.found_eq]; rfl
    · rw [Bool.eq_iff_iff, Bool.and_eq_true, Bool.and_eq_true, Bool.not_eq_true', Bool.not_eq_true']
      refine and_congr_right fun _ => ?_
      rw [List.any_eq_false, List.any_eq_false]
      refine forall_congr' fun th => forall_congr' fun hmem => ?_
      rw [Function.comp_apply, hgone th hmem, MpThread.found_eq]
    · rw [List.countP_congr fun th hmem => by rw [Function.comp_apply, hgone th hmem]]

/-! ## What the steps keep -/

/-- Two lists of nodes that differ in their states only. -/
def SameNodes (l l' : List MpThread) : Prop :=
  l'.map (fun th => (th.id, th.alive, th.slot)) = l.map fun th => (th.id, th.alive, th.slot)

theorem SameNodes.mem {l l' : List MpThread} (h : SameNodes l l') {th : MpThread} (hmem : th ∈ l') :
    ∃ th' ∈ l, th'.id = th.id ∧ th'.alive = th.alive ∧ th'.slot = th.slot := by
  have hcore := List.mem_map_of_mem (f := fun th : MpThread => (th.id, th.alive, th.slot)) hmem
  rw [h] at hcore
  obtain ⟨th', hmem', heq⟩ := List.mem_map.mp hcore
  simp only [Prod.mk.injEq] at heq
  exact ⟨th', hmem', heq⟩

theorem SameNodes.others {l l' : List MpThread} (h : SameNodes l l') (current : Nat) :
    SameNodes (l.filter fun th => th.id ≠ current) (l'.filter fun th => th.id ≠ current) := by
  have hfilter : ∀ l : List MpThread, (l.filter fun th => th.id ≠ current).map
      (fun th => (th.id, th.alive, th.slot)) =
      (l.map fun th => (th.id, th.alive, th.slot)).filter fun c => c.1 ≠ current := fun l => by
    rw [List.filter_map]
    rfl
  rw [SameNodes, hfilter, hfilter, h]

theorem SameNodes.slots {l l' : List MpThread} (h : SameNodes l l') :
    l'.map (·.slot) = l.map (·.slot) := by
  have hslots := congrArg (List.map fun c : Nat × Bool × Stack => c.2.2) h
  rwa [List.map_map, List.map_map] at hslots

theorem setStatus_same (status : Status) (id : Nat) (l : List MpThread) :
    SameNodes l (setStatus status id l) := by
  induction l with
  | nil => rfl
  | cons th next ih =>
    rw [setStatus]
    split
    · rfl
    · rw [SameNodes, List.map_cons, List.map_cons, ih]

theorem mem_setStatus {status : Status} {id : Nat} {l : List MpThread} {th : MpThread}
    (h : th ∈ setStatus status id l) : th ∈ l ∨ th.id = id ∧ th.status = status := by
  induction l with
  | nil => cases h
  | cons first next ih =>
    rw [setStatus] at h
    split at h
    · next hid =>
      rcases List.mem_cons.mp h with rfl | h
      · exact .inr ⟨hid, rfl⟩
      · exact .inl (List.mem_cons_of_mem _ h)
    · rcases List.mem_cons.mp h with rfl | h
      · exact .inl List.mem_cons_self
      · rcases ih h with h | h
        · exact .inl (List.mem_cons_of_mem _ h)
        · exact .inr h

/-- States may change and threads may end. -/
theorem Inv.restated (I : s.Inv) {thread : List MpThread} {kernel : List (Nat × Stack)}
    (hsame : SameNodes s.thread thread) (hkernel : List.Sublist kernel s.kernel)
    (hentry : ∀ th ∈ thread, th.id = s.current → th.status ≠ .finished) (phase : Phase) :
    Inv { s with thread := thread, kernel := kernel, phase := phase } := by
  have hothers : SameNodes s.others (thread.filter fun th => th.id ≠ s.current) :=
    hsame.others s.current
  refine ⟨hentry, fun th hmem => ?_, ?_, fun th hmem => ?_, fun t ht => ?_, ?_, ?_⟩
  · obtain ⟨th', hmem', -, halive, -⟩ := hothers.mem hmem
    exact halive.symm.trans (I.lowered th' hmem')
  · exact hothers.slots ▸ I.slots
  · obtain ⟨th', hmem', -, -, hslot⟩ := hothers.mem hmem
    exact hslot ▸ I.used th' hmem'
  · obtain ⟨hne, hused, hown⟩ := I.running t (hkernel.subset ht)
    refine ⟨hne, hused, fun th hmem => ?_⟩
    obtain ⟨th', hmem', hid, -, hslot⟩ := hothers.mem hmem
    rw [← hid, ← hslot]
    exact hown th' hmem'
  · exact (hkernel.map _).nodup I.apart
  · have hlength := congrArg List.length hothers.slots
    rw [List.length_map, List.length_map] at hlength
    exact I.counted.trans hlength.symm

theorem boot_inv : boot.Inv := by
  refine ⟨?_, ?_, List.nodup_nil, ?_, ?_, List.nodup_nil, rfl⟩ <;>
  · intro th hmem
    cases hmem

theorem Inv.init {current : Nat} (I : s.Inv) (hperm : s.permits (.init current)) :
    (s.act (.init current)).Inv := by
  simp only [permits, Bool.and_eq_true, Bool.not_eq_true', runs, List.any_eq_false,
    decide_eq_true_eq] at hperm
  have hothers : (s.act (.init current)).others = [] := by simp [act, mpThreadInit, others]
  refine ⟨fun th hmem _ => ?_, ?_, ?_, ?_, fun t ht => ⟨hperm.2 t ht, (I.running t ht).2.1, ?_⟩,
    I.apart, ?_⟩
  · rw [List.mem_singleton.mp hmem]
    simp
  · simp [hothers]
  · simp [hothers]
  · simp [hothers]
  · simp [hothers]
  · rw [hothers]
    rfl

theorem findStackSlot_some {stackSlot : Stack → Bool} {slot : Stack}
    (h : mpThreadFindStackSlot stackSlot = some slot) : stackSlot slot = false := by
  simpa using List.find?_some h

/-- The state with a new thread on a stack. -/
theorem others_cons {id : Nat} (hne : id ≠ s.current) (slot : Stack) (counter : Nat) :
    others { s with
      thread := ⟨id, .created, false, slot⟩ :: s.thread
      stackSlot := Function.update s.stackSlot slot true
      counter := counter
      kernel := (id, slot) :: s.kernel } = ⟨id, .created, false, slot⟩ :: s.others :=
  List.filter_cons_of_pos (by simpa using hne)

theorem Inv.createEx {id : Nat} (I : s.Inv) (hperm : s.permits (.createEx id)) :
    (s.mpThreadCreateEx id).Inv := by
  simp only [permits, Bool.and_eq_true, Bool.not_eq_true', runs, List.any_eq_false,
    decide_eq_true_eq] at hperm
  obtain ⟨⟨⟨-, hne⟩, hruns⟩, hlisted⟩ := hperm
  rw [mpThreadCreateEx]
  split
  · exact I
  · next slot hfind =>
    have hfree := findStackSlot_some hfind
    have hothers := others_cons hne slot ((s.counter + 1) % 256)
    have hapart : ∀ k, s.stackSlot k → k ≠ slot := by
      rintro k hused rfl
      exact absurd (hfree.symm.trans hused) Bool.false_ne_true
    have hkept : ∀ k, s.stackSlot k → Function.update s.stackSlot slot true k = true :=
      fun k hused => (Function.update_of_ne (hapart k hused) ..).trans hused
    refine ⟨?_, ?_, ?_, ?_, ?_, ?_, ?_⟩
    · intro th hmem hid
      rcases List.mem_cons.mp hmem with rfl | hmem
      · exact (hne hid).elim
      · exact I.entry th hmem hid
    · rw [hothers, List.forall_mem_cons]
      exact ⟨rfl, I.lowered⟩
    · rw [hothers, List.map_cons, List.nodup_cons]
      refine ⟨fun hmem => ?_, I.slots⟩
      obtain ⟨th, hth, hslot⟩ := List.mem_map.mp hmem
      exact hapart _ (I.used th hth) hslot
    · rw [hothers, List.forall_mem_cons]
      exact ⟨Function.update_self .., fun th hmem => hkept _ (I.used th hmem)⟩
    · rw [hothers, List.forall_mem_cons]
      refine ⟨⟨hne, Function.update_self .., ?_⟩, fun t ht => ?_⟩
      · rw [List.forall_mem_cons]
        refine ⟨Iff.intro (fun _ => rfl) fun _ => rfl, fun th hmem => ⟨fun hid => ?_, fun hslot => ?_⟩⟩
        · exact (hlisted th (mem_others.mp hmem).1 hid).elim
        · exact (hapart _ (I.used th hmem) hslot).elim
      · obtain ⟨hcurrent, hused, hown⟩ := I.running t ht
        refine ⟨hcurrent, hkept _ hused, List.forall_mem_cons.mpr ⟨⟨fun hid => ?_, fun hslot => ?_⟩, hown⟩⟩
        · exact (hruns t ht hid.symm).elim
        · exact (hapart _ hused hslot.symm).elim
    · rw [List.map_cons, List.nodup_cons]
      refine ⟨fun hmem => ?_, I.apart⟩
      obtain ⟨t, ht, hslot⟩ := List.mem_map.mp hmem
      exact hapart _ (I.running t ht).2.1 hslot
    · rw [hothers, List.length_cons, I.counted]
      exact Nat.mod_eq_of_lt (Nat.succ_lt_of_lt_pred (Nat.lt_of_le_of_lt I.length_le (by decide)))

theorem gc_others (I : s.Inv) :
    s.mpThreadGcOthers.others = (s.others.filter fun th => !s.dead th).map MpThread.lower := by
  rw [I.gc_eq, others, List.filter_map, others, List.filter_filter, List.filter_filter]
  congr 1
  exact List.filter_congr fun th _ => Bool.and_comm _ _

theorem Inv.gc (I : s.Inv) : s.mpThreadGcOthers.Inv := by
  have hothers := gc_others I
  have hmem : ∀ th ∈ s.mpThreadGcOthers.others, ∃ th' ∈ s.others, s.dead th' = false ∧
      th = th'.lower := by
    intro th hmem
    rw [hothers] at hmem
    obtain ⟨th', hkept, rfl⟩ := List.mem_map.mp hmem
    obtain ⟨hmem', hdead⟩ := List.mem_filter.mp hkept
    exact ⟨th', hmem', by simpa using hdead, rfl⟩
  -- a stack in use stays marked, as no dead thread has it
  have hused : ∀ k, s.stackSlot k → (∀ th ∈ s.others, s.dead th → th.slot ≠ k) →
      s.mpThreadGcOthers.stackSlot k := by
    intro k hk hapart
    rw [I.gc_eq]
    simp only [hk, Bool.true_and, Bool.not_eq_true', List.any_eq_false, Bool.and_eq_true,
      decide_eq_true_eq, not_and]
    exact fun th hth hdead => hapart th (I.dead_others hth hdead) hdead
  refine ⟨?_, ?_, ?_, ?_, ?_, ?_, ?_⟩
  · intro th hth hid
    rw [I.gc_eq] at hth hid
    obtain ⟨th', hkept, rfl⟩ := List.mem_map.mp hth
    exact I.entry th' (List.mem_filter.mp hkept).1 hid
  · intro th hth
    obtain ⟨th', -, -, rfl⟩ := hmem th hth
    rfl
  · rw [hothers, List.map_map]
    exact (List.Sublist.map _ List.filter_sublist).nodup I.slots
  · intro th hth
    obtain ⟨th', hmem', hdead, rfl⟩ := hmem th hth
    refine hused _ (I.used th' hmem') fun other hother hgone hslot => ?_
    rw [List.inj_on_of_nodup_map I.slots hother hmem' hslot, hdead] at hgone
    cases hgone
  · intro t ht
    rw [I.gc_eq] at ht
    obtain ⟨hcurrent, hk, hown⟩ := I.running t ht
    refine ⟨by rw [I.gc_eq]; exact hcurrent, hused _ hk fun th hth hdead hslot => ?_, fun th hth => ?_⟩
    · have hid := (hown th hth).mpr hslot
      simp only [dead, Bool.and_eq_true, Bool.not_eq_true', runs, List.any_eq_false,
        decide_eq_true_eq] at hdead
      exact hdead.2 t ht hid.symm
    · obtain ⟨th', hmem', -, rfl⟩ := hmem th hth
      exact hown th' hmem'
  · rw [I.gc_eq]
    exact I.apart
  · rw [hothers, List.length_map, ← List.countP_eq_length_filter]
    have hsplit : s.others.length = s.others.countP s.dead + s.others.countP fun th => !s.dead th := by
      simpa using List.length_eq_countP_add_countP s.dead (l := s.others)
    have hdead : s.thread.countP s.dead = s.others.countP s.dead := by
      rw [others, List.countP_filter]
      refine List.countP_congr fun th hth => ⟨fun h => ?_, fun h => (Bool.and_eq_true_iff.mp h).1⟩
      rw [h, Bool.true_and]
      exact decide_eq_true (mem_others.mp (I.dead_others hth h)).2
    have hle : s.others.length ≤ 4 := I.length_le
    rw [I.gc_eq]
    simp only [I.counted, hdead]
    omega

theorem Inv.runs_ne (I : s.Inv) {id : Nat} (hruns : s.runs id) : id ≠ s.current := by
  simp only [runs, List.any_eq_true, decide_eq_true_eq] at hruns
  obtain ⟨t, ht, rfl⟩ := hruns
  exact (I.running t ht).1

theorem aborted_eq (s : Threads) (th : MpThread) :
    (if s.aborts th then { th with status := .finished } else th) =
      { th with status := if s.aborts th then .finished else th.status } := by
  split <;> rfl

theorem deinit_same (s : Threads) : SameNodes s.thread s.mpThreadDeinit.thread := by
  rw [SameNodes, mpThreadDeinit, List.map_map]
  exact List.map_congr_left fun th _ => by rw [Function.comp_apply, aborted_eq]

theorem Inv.step (I : s.Inv) (e : Event) : (s.step e).Inv := by
  rw [Threads.step]
  split
  swap
  · exact I
  next hperm =>
    cases e with
    | init current => exact I.init hperm
    | createEx id => exact I.createEx hperm
    | start id =>
      refine I.restated (setStatus_same _ _ _) (List.Sublist.refl _) (fun th hmem hid => ?_) _
      rcases mem_setStatus hmem with hmem | ⟨-, hstatus⟩
      · exact I.entry th hmem hid
      · rw [hstatus]
        simp
    | finish id =>
      refine I.restated (setStatus_same _ _ _) (List.Sublist.refl _) (fun th hmem hid => ?_) _
      rcases mem_setStatus hmem with hmem | ⟨hown, -⟩
      · exact I.entry th hmem hid
      · rw [permits, Bool.and_eq_true] at hperm
        exact (I.runs_ne hperm.1 (hown.symm.trans hid)).elim
    | exit id => exact I.restated rfl List.filter_sublist I.entry _
    | gc => exact I.gc.restated rfl (List.Sublist.refl _) I.gc.entry _
    | deinit =>
      refine I.restated (deinit_same s) List.filter_sublist (fun th hmem hid => ?_) _
      obtain ⟨th', hmem', rfl⟩ := List.mem_map.mp hmem
      rw [aborted_eq] at hid ⊢
      have hkept : s.aborts th' = false := by simpa [aborts] using fun h => absurd hid h
      simpa [hkept] using I.entry th' hmem' hid

/-- No two threads that run share a stack, and what they run on is not given away. The
counter, which is never reset but by the command, counts the listed Python threads. -/
structure Apart (s : Threads) : Prop where
  apart : (s.kernel.map (·.2)).Nodup
  kept : ∀ t ∈ s.kernel, s.stackSlot t.2
  counted : s.counter = s.others.length
  bounded : s.others.length ≤ maximumUserThreads

/-- **Threads never share a stack**, in whatever order they are made, finish, end and are
collected, and over any number of sessions. -/
theorem threads_always_apart (l : List Event) : Always step Apart boot l := by
  have hinv : Always step Inv boot l :=
    Guarded.always (C := fun _ _ => True) (fun _ e I _ => I.step e) boot_inv fun _ _ _ => trivial
  intro p hp
  have I := hinv p hp
  exact ⟨I.apart, fun t ht => (I.running t ht).2.1, I.counted, I.length_le⟩

/-! ## What a session leaves -/

/-- Every used stack belongs to a listed thread; behind `mp_thread_deinit` all of these
have finished, and between the sessions there are none. -/
structure Owned (s : Threads) : Prop where
  inv : s.Inv
  listed : ∀ k, s.stackSlot k → ∃ th ∈ s.others, th.slot = k
  finished : s.phase = .aborted → ∀ th ∈ s.others, th.status = .finished
  returned : s.phase = .off → s.others = []

/-- Between two sessions all stacks are free. -/
def Returned (s : Threads) : Prop := s.phase = .off → ∀ k, s.stackSlot k = false

/-- The last collection of a session comes when all its threads have ended. -/
def Ended (s : Threads) (e : Event) : Prop := e = .gc → s.phase = .aborted → s.kernel = []

theorem Owned.good (O : s.Owned) : s.Returned := by
  intro hoff k
  by_contra hused
  obtain ⟨th, hmem, -⟩ := O.listed k (by simpa using hused)
  rw [O.returned hoff] at hmem
  cases hmem

theorem boot_owned : boot.Owned where
  inv := boot_inv
  listed _ h := by cases h
  finished h := by cases h
  returned _ := rfl

/-- A change of states keeps the stacks of the listed threads. -/
theorem Owned.restated (O : s.Owned) {s' : Threads} (I : s'.Inv) (hsame : SameNodes s.others s'.others)
    (hstack : s'.stackSlot = s.stackSlot)
    (hfinished : s'.phase = .aborted → ∀ th ∈ s'.others, th.status = .finished)
    (hphase : s'.phase = .off → s.phase = .off) : s'.Owned := by
  refine ⟨I, fun k hused => ?_, hfinished, fun hoff => ?_⟩
  · obtain ⟨th, hmem, hslot⟩ := O.listed k (hstack ▸ hused)
    have hslots := List.mem_map_of_mem (f := (·.slot)) hmem
    rw [← hsame.slots] at hslots
    obtain ⟨th', hmem', heq⟩ := List.mem_map.mp hslots
    exact ⟨th', hmem', heq.trans hslot⟩
  · have hnil := hsame
    rw [SameNodes, O.returned (hphase hoff), List.map_nil, List.map_eq_nil_iff] at hnil
    exact hnil

/-! ### One event of a session -/

theorem Owned.init (O : s.Owned) {current : Nat} (hperm : s.permits (.init current) = true)
    (I : (s.act (.init current)).Inv) : (s.act (.init current)).Owned := by
  simp only [permits, Bool.and_eq_true, decide_eq_true_eq] at hperm
  have hfree := O.good hperm.1
  refine ⟨I, fun k hused => ?_, fun h => ?_, fun h => ?_⟩
  · exact absurd ((hfree k).symm.trans hused) Bool.false_ne_true
  · cases h
  · cases h

/-- A new thread is listed with the stack it is given. -/
theorem Owned.createEx (O : s.Owned) {id : Nat} (hperm : s.permits (.createEx id) = true)
    (I : (s.act (.createEx id)).Inv) : (s.act (.createEx id)).Owned := by
  simp only [permits, Bool.and_eq_true, decide_eq_true_eq] at hperm
  obtain ⟨⟨⟨hphase, hne⟩, -⟩, -⟩ := hperm
  simp only [act, mpThreadCreateEx] at I ⊢
  split
  · exact O
  · next slot hfind =>
    have hothers := others_cons hne slot ((s.counter + 1) % 256)
    rw [hfind] at I
    refine ⟨I, fun k hused => ?_, fun h => ?_, fun h => ?_⟩
    · rw [hothers]
      by_cases hk : k = slot
      · exact ⟨_, List.mem_cons_self, hk.symm⟩
      · obtain ⟨th, hmem, hslot⟩ := O.listed k ((Function.update_of_ne hk ..).symm.trans hused)
        exact ⟨th, List.mem_cons_of_mem _ hmem, hslot⟩
    · cases hphase.symm.trans h
    · cases hphase.symm.trans h

/-- No thread starts behind `mp_thread_deinit`: all that are listed have finished. -/
theorem Owned.start (O : s.Owned) {id : Nat} (hperm : s.permits (.start id) = true)
    (I : (s.act (.start id)).Inv) : (s.act (.start id)).Owned := by
  simp only [permits, Bool.and_eq_true, List.any_eq_true, decide_eq_true_eq] at hperm
  obtain ⟨hruns, th, hmem, hid, hcreated⟩ := hperm
  refine O.restated I ((setStatus_same _ _ _).others _) rfl (fun h => ?_) fun h => h
  have hother := mem_others.mpr ⟨hmem, hid ▸ O.inv.runs_ne hruns⟩
  cases hcreated.symm.trans (O.finished h th hother)

theorem Owned.finish (O : s.Owned) {id : Nat} (I : (s.act (.finish id)).Inv) :
    (s.act (.finish id)).Owned := by
  refine O.restated I ((setStatus_same _ _ _).others _) rfl (fun h th hmem => ?_) fun h => h
  obtain ⟨hmem, hid⟩ := mem_others.mp hmem
  rcases mem_setStatus hmem with hmem | ⟨-, hstatus⟩
  · exact O.finished h th (mem_others.mpr ⟨hmem, hid⟩)
  · exact hstatus

/-- A collection keeps the stacks of the threads that are not dead, and the last one of a
session finds none of these. -/
theorem Owned.gc (O : s.Owned) (hperm : s.permits .gc = true) (hended : s.Ended .gc)
    (I : (s.act .gc).Inv) : (s.act .gc).Owned := by
  have hothers : (s.act .gc).others = _ := gc_others O.inv
  refine ⟨I, fun k hused => ?_, fun h => ?_, fun h => ?_⟩
  · have hslot : s.mpThreadGcOthers.stackSlot k := hused
    rw [O.inv.gc_eq] at hslot
    simp only [Bool.and_eq_true, Bool.not_eq_true', List.any_eq_false, decide_eq_true_eq,
      not_and] at hslot
    obtain ⟨th, hmem, hk⟩ := O.listed k hslot.1
    have hdead : ¬ s.dead th := fun h => hslot.2 th (mem_others.mp hmem).1 h hk
    rw [hothers]
    exact ⟨th.lower, List.mem_map_of_mem (List.mem_filter.mpr ⟨hmem, by simpa using hdead⟩), hk⟩
  · simp only [act] at h
    split at h
    · cases h
    · exact (‹¬ _› h).elim
  · have haborted : s.phase = .aborted := by
      by_contra hne
      simp only [permits, act, if_neg hne, decide_eq_true_eq] at hperm h
      exact hperm h
    have hkernel := hended rfl haborted
    have hdead : ∀ th ∈ s.others, ¬ (!s.dead th) = true := by
      intro th hmem
      simp [dead, runs, hkernel, O.finished haborted th hmem]
    rw [hothers, List.filter_eq_nil_iff.mpr hdead, List.map_nil]

/-- `mp_thread_deinit` marks every thread but its own as finished. -/
theorem Owned.deinit (O : s.Owned) (I : (s.act .deinit).Inv) : (s.act .deinit).Owned := by
  refine O.restated I ((deinit_same s).others _) rfl (fun _ th hmem => ?_) fun h => by cases h
  obtain ⟨hmem, hid⟩ := mem_others.mp hmem
  obtain ⟨th', -, rfl⟩ := List.mem_map.mp hmem
  rw [aborted_eq] at hid ⊢
  have hne : th'.id ≠ s.current := hid
  by_cases hstatus : th'.status = .finished
  · simp [hstatus]
  · have haborts : s.aborts th' := by simpa [aborts, hstatus] using hne
    simp [haborts]

theorem Owned.step (O : s.Owned) {e : Event} (hended : s.Ended e) : (s.step e).Owned := by
  have I := O.inv.step e
  rw [Threads.step] at I ⊢
  split at I
  swap
  · rwa [if_neg ‹_›]
  next hperm =>
  rw [if_pos hperm]
  cases e with
  | init current => exact O.init hperm I
  | createEx id => exact O.createEx hperm I
  | start id => exact O.start hperm I
  | finish id => exact O.finish I
  | exit id => exact O.restated I rfl rfl O.finished fun h => h
  | gc => exact O.gc hperm hended I
  | deinit => exact O.deinit I

/-! ### Runs of sessions -/

theorem Owned.breaks (O : s.Owned) {e : Event} (hlate : ¬ s.Ended e) : ¬ (s.step e).Returned := by
  have hgc : e = .gc ∧ s.phase = .aborted ∧ s.kernel ≠ [] := by
    simpa [Ended, Classical.not_imp] using hlate
  obtain ⟨rfl, haborted, hkernel⟩ := hgc
  obtain ⟨t, ht⟩ := List.exists_mem_of_ne_nil _ hkernel
  have hperm : s.permits .gc := by simp [permits, haborted]
  have hstep : s.step .gc = s.act .gc := if_pos hperm
  -- the thread that still runs has its stack behind the collection
  have hrun : t ∈ (s.step .gc).kernel := by
    rw [hstep]
    show t ∈ s.mpThreadGcOthers.kernel
    rw [O.inv.gc_eq]
    exact ht
  have hused := ((O.inv.step .gc).running t hrun).2.1
  intro hreturned
  have hoff : (s.step .gc).phase = .off := by
    rw [hstep]
    simp only [act, if_pos haborted]
  exact absurd ((hreturned hoff t.2).symm.trans hused) Bool.false_ne_true

/-- **All stacks are free between sessions exactly as long as** each session is closed by
a collection that comes behind the end of its last thread. -/
theorem sessions_return_iff (l : List Event) :
    Always step Returned boot l ↔ Guarded step Ended boot l :=
  always_iff_guarded (fun _ _ O h => O.step h) (fun _ _ O h => O.breaks h) (fun _ O => O.good)
    boot_owned

/-! ## When a thread can be made -/

/-- The listed threads that a collection leaves. -/
def pending (s : Threads) : List MpThread := s.others.filter fun th => !s.dead th

/-- The stacks that are marked as used, but belong to no listed thread any more. -/
def lost (s : Threads) : Finset Stack :=
  {k | s.stackSlot k ∧ ∀ th ∈ s.others, th.slot ≠ k}

/-- `mp_thread_create_ex` collects first. It raises its error exactly if the threads that
are left and the stacks that are lost make four; otherwise the new thread gets a stack that
no running thread is on. -/
structure Creates (s : Threads) : Prop where
  refused_iff : mpThreadFindStackSlot s.mpThreadGcOthers.stackSlot = none ↔
    s.pending.length + s.lost.card = maximumUserThreads
  apart : ∀ slot, mpThreadFindStackSlot s.mpThreadGcOthers.stackSlot = some slot →
    ∀ t ∈ s.kernel, t.2 ≠ slot

theorem Inv.collected (I : s.Inv) (k : Stack) : s.mpThreadGcOthers.stackSlot k ↔
    k ∈ s.lost ∨ k ∈ s.pending.map (·.slot) := by
  rw [I.gc_eq]
  simp only [Bool.and_eq_true, Bool.not_eq_true', List.any_eq_false, decide_eq_true_eq, not_and,
    lost, Finset.mem_filter_univ, pending, List.mem_map, List.mem_filter]
  constructor
  · rintro ⟨hused, hapart⟩
    by_cases hlisted : ∃ th ∈ s.others, th.slot = k
    · obtain ⟨th, hmem, hslot⟩ := hlisted
      have hdead : ¬ s.dead th := fun h => hapart th (mem_others.mp hmem).1 h hslot
      exact .inr ⟨th, ⟨hmem, by simpa using hdead⟩, hslot⟩
    · exact .inl ⟨hused, fun th hmem hslot => hlisted ⟨th, hmem, hslot⟩⟩
  · rintro (⟨hused, hlost⟩ | ⟨th, ⟨hmem, hdead⟩, rfl⟩)
    · exact ⟨hused, fun th hth h => hlost th (I.dead_others hth h)⟩
    · refine ⟨I.used th hmem, fun other hother h hslot => ?_⟩
      rw [List.inj_on_of_nodup_map I.slots (I.dead_others hother h) hmem hslot] at h
      exact absurd (hdead.symm.trans h) Bool.false_ne_true

theorem Inv.creates (I : s.Inv) : s.Creates where
  refused_iff := by
    have hnone : mpThreadFindStackSlot s.mpThreadGcOthers.stackSlot = none ↔
        s.lost ∪ (s.pending.map (·.slot)).toFinset = Finset.univ := by
      simp only [mpThreadFindStackSlot, List.find?_eq_none, List.mem_finRange, true_imp_iff,
        Finset.eq_univ_iff_forall, Finset.mem_union, List.mem_toFinset, ← I.collected]
      simp
    have hnodup : (s.pending.map (·.slot)).Nodup :=
      (List.Sublist.map _ List.filter_sublist).nodup I.slots
    have hdisjoint : Disjoint s.lost (s.pending.map (·.slot)).toFinset := by
      refine Finset.disjoint_left.mpr fun k hlost hpending => ?_
      obtain ⟨th, hmem, hslot⟩ := List.mem_map.mp (List.mem_toFinset.mp hpending)
      exact (Finset.mem_filter_univ k |>.mp hlost).2 th (List.mem_filter.mp hmem).1 hslot
    rw [hnone, ← Finset.card_eq_iff_eq_univ, Finset.card_union_of_disjoint hdisjoint,
      List.toFinset_card_of_nodup hnodup, List.length_map, Fintype.card_fin, Nat.add_comm]
  apart := by
    rintro slot hfind t ht rfl
    have hrun : t ∈ s.mpThreadGcOthers.kernel := by
      rw [I.gc_eq]
      exact ht
    exact absurd ((findStackSlot_some hfind).symm.trans (I.gc.running t hrun).2.1)
      Bool.false_ne_true

/-- **A thread is refused exactly if** four threads are not dead yet, or stacks were lost in
earlier sessions. -/
theorem threads_created_iff (l : List Event) : Creates (l.foldl step boot) := by
  have hinv : Always step Inv boot l :=
    Guarded.always (C := fun _ _ => True) (fun _ e I _ => I.step e) boot_inv fun _ _ _ => trivial
  exact hinv.last.creates

end Threads

end Sdkz.Mp
