import Mathlib.Data.List.GetD
import Sdkz.Base.Run
import Sdkz.Base.Lock
import Sdkz.Base.CString

/-! # The polled transport (lib/app/uart.c)

`_send_poll` and `_recv_poll` work on the device byte by byte, each under its own
semaphore. Any number of threads may call them, and the steps of their calls may
come in any order. A message is still sent whole: the wire carries the messages
one behind the other, those of a thread in the order of its calls. -/

namespace Sdkz.App
open Sdkz.Base

/-- The variables of `_send_poll`. -/
structure Sending where
  data : Bytes
  i : Nat

/-- The variables of `_recv_poll`; `i` is the length of what it has stored. -/
structure Receiving where
  len : Nat
  buffer : Bytes
  broken : Bool

/-- The condition of the loop. -/
def Sending.more (job : Sending) : Bool := job.i < job.data.length

def Receiving.more (job : Receiving) : Bool := !job.broken && job.buffer.length < job.len

/-- The handle with the calls that are under way, and what has happened so far. -/
structure UartPoll (T : Type) where
  /-- `tx_done` -/
  tx : Lock T Sending
  /-- `rx_done` -/
  rx : Lock T Receiving
  /-- what `uart_poll_in` can still return -/
  input : Bytes
  /-- what `uart_poll_out` was given -/
  wire : Bytes
  called : List (T × Bytes)
  sent : List (T × Bytes)
  delivered : Bytes
  returned : List (T × Nat × Bytes)

namespace UartPoll
variable {T : Type} [DecidableEq T]

/-- `_init_handle` starts `rx_done` at zero, and `_init_poll` gives it. -/
def initPoll : UartPoll T where
  tx := { count := 1, place := fun _ => .idle }
  rx := { count := min (0 + 1) 1, place := fun _ => .idle }
  input := []
  wire := []
  called := []
  sent := []
  delivered := []
  returned := []

/-- A thread calls one of the two functions, or takes its next step in it, or a
byte reaches the device. -/
inductive Event (T : Type) where
  | sendPoll (t : T) (data : Bytes)
  | takeTx (t : T)
  | pollOut (t : T)
  | giveTx (t : T)
  | recvPoll (t : T) (len : Nat)
  | takeRx (t : T)
  | pollIn (t : T)
  | giveRx (t : T)
  | arrive (b : UInt8)

def step (s : UartPoll T) : Event T → UartPoll T
  | .sendPoll t data =>
    { s with tx := s.tx.call t ⟨data, 0⟩, called := s.called ++ [(t, data)] }
  | .takeTx t =>
    match s.tx.place t with
    | .waiting job => { s with tx := s.tx.take t { job with i := 0 } }
    | _ => s
  | .pollOut t =>
    match s.tx.place t with
    | .inside job =>
      { s with
        tx := s.tx.turn t { job with i := job.i + 1 }
        wire := s.wire ++ [job.data.getD job.i 0] }
    | _ => s
  | .giveTx t =>
    match s.tx.place t with
    | .inside job => { s with tx := s.tx.give t, sent := s.sent ++ [(t, job.data)] }
    | _ => s
  | .recvPoll t len => { s with rx := s.rx.call t ⟨len, [], false⟩ }
  | .takeRx t =>
    match s.rx.place t with
    | .waiting job => { s with rx := s.rx.take t { job with buffer := [], broken := false } }
    | _ => s
  | .pollIn t =>
    match s.rx.place t, s.input with
    | .inside job, b :: input =>
      { s with rx := s.rx.turn t { job with buffer := job.buffer ++ [b] }, input := input }
    | .inside job, [] => { s with rx := s.rx.turn t { job with broken := true } }
    | _, _ => s
  | .giveRx t =>
    match s.rx.place t with
    | .inside job =>
      { s with rx := s.rx.give t, returned := s.returned ++ [(t, job.len, job.buffer)] }
    | _ => s
  | .arrive b => { s with input := s.input ++ [b], delivered := s.delivered ++ [b] }

/-- The thread is in neither of the two functions. -/
def idle (s : UartPoll T) (t : T) : Bool := (s.tx.place t matches .idle) && (s.rx.place t matches .idle)

def permits (s : UartPoll T) : Event T → Bool
  | .sendPoll t _ | .recvPoll t _ => s.idle t
  | .takeTx t => (s.tx.place t matches .waiting _) && 0 < s.tx.count
  | .pollOut t =>
    match s.tx.place t with
    | .inside job => job.more
    | _ => false
  | .giveTx t =>
    match s.tx.place t with
    | .inside job => !job.more
    | _ => false
  | .takeRx t => (s.rx.place t matches .waiting _) && 0 < s.rx.count
  | .pollIn t =>
    match s.rx.place t with
    | .inside job => job.more
    | _ => false
  | .giveRx t =>
    match s.rx.place t with
    | .inside job => !job.more
    | _ => false
  | .arrive _ => true

/-- The messages of one thread. -/
def ofThread (t : T) (l : List (T × Bytes)) : List Bytes :=
  l.filterMap fun c => if c.1 = t then some c.2 else none

/-- The message of a call under way. -/
def pending : Place Sending → List Bytes
  | .idle => []
  | .waiting job | .inside job => [job.data]

/-- One thread at a time is on the wire, and one at the input. The wire carries
whole messages and the beginning of the one that is being sent, and a thread's
messages in the order of its calls; what reached the device is returned in order
and nothing twice. -/
structure Whole (s : UartPoll T) : Prop where
  sender : ∀ t u job other, s.tx.place t = .inside job → s.tx.place u = .inside other → u = t
  receiver : ∀ t u job other, s.rx.place t = .inside job → s.rx.place u = .inside other → u = t
  wire : ∃ part, s.wire = (s.sent.map (·.2)).flatten ++ part ∧
    (part = [] ∨ ∃ t job, s.tx.place t = .inside job ∧ part <+: job.data)
  calls : ∀ t, ofThread t s.sent ++ pending (s.tx.place t) = ofThread t s.called
  input : ∃ part, (s.returned.map (·.2.2)).flatten ++ part ++ s.input = s.delivered ∧
    (part = [] ∨ ∃ t job, s.rx.place t = .inside job ∧ part = job.buffer)
  fits : ∀ r ∈ s.returned, r.2.2.length ≤ r.2.1

/-! ## The invariant -/

structure Inv (s : UartPoll T) : Prop where
  tx : s.tx.Owned (s.wire = (s.sent.map (·.2)).flatten)
    fun _ job => s.wire = (s.sent.map (·.2)).flatten ++ job.data.take job.i ∧
      job.i ≤ job.data.length
  rx : s.rx.Owned ((s.returned.map (·.2.2)).flatten ++ s.input = s.delivered)
    fun _ job => (s.returned.map (·.2.2)).flatten ++ job.buffer ++ s.input = s.delivered ∧
      job.buffer.length ≤ job.len
  calls : ∀ t, ofThread t s.sent ++ pending (s.tx.place t) = ofThread t s.called
  fits : ∀ r ∈ s.returned, r.2.2.length ≤ r.2.1

theorem Inv.whole {s : UartPoll T} (I : s.Inv) : s.Whole where
  sender _ _ _ _ hin hin' := I.tx.exclusive hin hin'
  receiver _ _ _ _ hin hin' := I.rx.exclusive hin hin'
  wire := by
    rcases I.tx with ⟨-, hwire⟩ | ⟨t, job, hb, hwire, -⟩
    · exact ⟨[], by rw [hwire, List.append_nil], .inl rfl⟩
    · exact ⟨_, hwire, .inr ⟨t, job, hb.inside, List.take_prefix _ _⟩⟩
  calls := I.calls
  input := by
    rcases I.rx with ⟨-, hinput⟩ | ⟨t, job, hb, hinput, -⟩
    · exact ⟨[], by rw [List.append_nil, hinput], .inl rfl⟩
    · exact ⟨job.buffer, hinput, .inr ⟨t, job, hb.inside, rfl⟩⟩
  fits := I.fits

theorem initPoll_inv : (initPoll : UartPoll T).Inv where
  tx := .inl ⟨⟨rfl, fun _ _ h => by cases h⟩, rfl⟩
  rx := .inl ⟨⟨rfl, fun _ _ h => by cases h⟩, rfl⟩
  calls _ := rfl
  fits _ h := by cases h

/-! ## What a step does -/

theorem ofThread_append_self (t : T) (l : List (T × Bytes)) (data : Bytes) :
    ofThread t (l ++ [(t, data)]) = ofThread t l ++ [data] := by
  simp [ofThread]

theorem ofThread_append_of_ne {t u : T} (hne : u ≠ t) (l : List (T × Bytes)) (data : Bytes) :
    ofThread u (l ++ [(t, data)]) = ofThread u l := by
  simp [ofThread, hne.symm]

/-- A step of one thread is checked for that thread. -/
theorem calls_put {l : Lock T Sending} {t : T} {p : Place Sending}
    {sent sent' called called' : List (T × Bytes)}
    (h : ∀ u, ofThread u sent ++ pending (l.place u) = ofThread u called)
    (hsent : ∀ u, u ≠ t → ofThread u sent' = ofThread u sent)
    (hcalled : ∀ u, u ≠ t → ofThread u called' = ofThread u called)
    (hself : ofThread t sent' ++ pending p = ofThread t called') (u : T) :
    ofThread u sent' ++ pending ((l.put t p).place u) = ofThread u called' := by
  by_cases hu : u = t
  · subst hu
    rw [Lock.put_place_self, hself]
  · rw [Lock.put_place_of_ne l hu, hsent u hu, hcalled u hu, h]

variable {s : UartPoll T} {t : T}

omit [DecidableEq T] in
theorem idle_places (h : s.idle t) : s.tx.place t = .idle ∧ s.rx.place t = .idle := by
  simp only [idle, Bool.and_eq_true] at h
  obtain ⟨htx, hrx⟩ := h
  constructor
  · cases hplace : s.tx.place t with
    | idle => rfl
    | waiting job => simp [hplace] at htx
    | inside job => simp [hplace] at htx
  · cases hplace : s.rx.place t with
    | idle => rfl
    | waiting job => simp [hplace] at hrx
    | inside job => simp [hplace] at hrx

theorem step_takeTx (h : s.permits (.takeTx t)) : ∃ job, s.tx.place t = .waiting job ∧
    0 < s.tx.count ∧ s.step (.takeTx t) = { s with tx := s.tx.take t { job with i := 0 } } := by
  simp only [permits, Bool.and_eq_true, decide_eq_true_eq] at h
  cases hplace : s.tx.place t with
  | waiting job => exact ⟨job, rfl, h.2, by simp only [step, hplace]⟩
  | idle => simp [hplace] at h
  | inside job => simp [hplace] at h

theorem step_pollOut (h : s.permits (.pollOut t)) : ∃ job, s.tx.place t = .inside job ∧
    ∃ hi : job.i < job.data.length, s.step (.pollOut t) = { s with
      tx := s.tx.turn t { job with i := job.i + 1 }
      wire := s.wire ++ [job.data[job.i]] } := by
  simp only [permits] at h
  cases hplace : s.tx.place t with
  | inside job =>
    simp only [hplace, Sending.more, decide_eq_true_eq] at h
    refine ⟨job, rfl, h, ?_⟩
    simp only [step, hplace]
    rw [List.getD_eq_getElem _ _ h]
  | idle => simp [hplace] at h
  | waiting job => simp [hplace] at h

theorem step_giveTx (h : s.permits (.giveTx t)) : ∃ job, s.tx.place t = .inside job ∧
    job.data.length ≤ job.i ∧ s.step (.giveTx t) =
      { s with tx := s.tx.give t, sent := s.sent ++ [(t, job.data)] } := by
  simp only [permits] at h
  cases hplace : s.tx.place t with
  | inside job =>
    simp only [hplace, Sending.more, Bool.not_eq_true', decide_eq_false_iff_not, Nat.not_lt] at h
    exact ⟨job, rfl, h, by simp only [step, hplace]⟩
  | idle => simp [hplace] at h
  | waiting job => simp [hplace] at h

theorem step_takeRx (h : s.permits (.takeRx t)) : ∃ job, s.rx.place t = .waiting job ∧
    0 < s.rx.count ∧ s.step (.takeRx t) =
      { s with rx := s.rx.take t { job with buffer := [], broken := false } } := by
  simp only [permits, Bool.and_eq_true, decide_eq_true_eq] at h
  cases hplace : s.rx.place t with
  | waiting job => exact ⟨job, rfl, h.2, by simp only [step, hplace]⟩
  | idle => simp [hplace] at h
  | inside job => simp [hplace] at h

theorem step_pollIn (h : s.permits (.pollIn t)) : ∃ job, s.rx.place t = .inside job ∧ job.more ∧
    ((∃ b input, s.input = b :: input ∧ s.step (.pollIn t) = { s with
        rx := s.rx.turn t { job with buffer := job.buffer ++ [b] }
        input := input }) ∨
      (s.input = [] ∧
        s.step (.pollIn t) = { s with rx := s.rx.turn t { job with broken := true } })) := by
  simp only [permits] at h
  cases hplace : s.rx.place t with
  | inside job =>
    rw [hplace] at h
    refine ⟨job, rfl, h, ?_⟩
    cases hinput : s.input with
    | nil => exact .inr ⟨rfl, by simp only [step, hplace, hinput]⟩
    | cons b input => exact .inl ⟨b, input, rfl, by simp only [step, hplace, hinput]⟩
  | idle => simp [hplace] at h
  | waiting job => simp [hplace] at h

theorem step_giveRx (h : s.permits (.giveRx t)) : ∃ job, s.rx.place t = .inside job ∧
    s.step (.giveRx t) = { s with
      rx := s.rx.give t
      returned := s.returned ++ [(t, job.len, job.buffer)] } := by
  simp only [permits] at h
  cases hplace : s.rx.place t with
  | inside job => exact ⟨job, rfl, by simp only [step, hplace]⟩
  | idle => simp [hplace] at h
  | waiting job => simp [hplace] at h

theorem Inv.step {e : Event T} (I : s.Inv) (hperm : s.permits e) : (s.step e).Inv := by
  cases e with
  | sendPoll t data =>
    obtain ⟨htx, -⟩ := idle_places hperm
    refine ⟨I.tx.call htx _, I.rx, calls_put I.calls (fun _ _ => rfl)
      (fun u hu => ofThread_append_of_ne hu _ _) ?_, I.fits⟩
    have hown := I.calls t
    rw [htx, pending, List.append_nil] at hown
    show ofThread t s.sent ++ [data] = ofThread t (s.called ++ [(t, data)])
    rw [hown, ofThread_append_self]
  | takeTx t =>
    obtain ⟨job, hplace, hcount, hstep⟩ := step_takeTx hperm
    rw [hstep]
    have hown := I.calls t
    rw [hplace] at hown
    refine ⟨I.tx.take hcount fun hwire => ⟨?_, Nat.zero_le _⟩, I.rx,
      calls_put I.calls (fun _ _ => rfl) (fun _ _ => rfl) hown, I.fits⟩
    rw [List.take_zero, List.append_nil]
    exact hwire
  | pollOut t =>
    obtain ⟨job, hplace, hi, hstep⟩ := step_pollOut hperm
    rw [hstep]
    have hown := I.calls t
    rw [hplace] at hown
    refine ⟨I.tx.turn hplace fun ⟨hwire, _⟩ => ⟨?_, hi⟩, I.rx,
      calls_put I.calls (fun _ _ => rfl) (fun _ _ => rfl) hown, I.fits⟩
    rw [hwire, List.append_assoc, List.take_append_getElem]
  | giveTx t =>
    obtain ⟨job, hplace, hi, hstep⟩ := step_giveTx hperm
    rw [hstep]
    have hown := I.calls t
    rw [hplace] at hown
    refine ⟨I.tx.give hplace fun ⟨hwire, _⟩ => ?_, I.rx,
      calls_put I.calls (fun u hu => ofThread_append_of_ne hu _ _) (fun _ _ => rfl) ?_, I.fits⟩
    · rw [hwire, List.take_of_length_le hi, List.map_append, List.flatten_append]
      simp
    · rw [ofThread_append_self, ← hown]
      exact List.append_nil _
  | recvPoll t len =>
    obtain ⟨-, hrx⟩ := idle_places hperm
    exact ⟨I.tx, I.rx.call hrx _, I.calls, I.fits⟩
  | takeRx t =>
    obtain ⟨job, -, hcount, hstep⟩ := step_takeRx hperm
    rw [hstep]
    refine ⟨I.tx, I.rx.take hcount fun hinput => ⟨?_, Nat.zero_le _⟩, I.calls, I.fits⟩
    rw [List.append_nil]
    exact hinput
  | pollIn t =>
    obtain ⟨job, hplace, hmore, ⟨b, input, hb, hstep⟩ | ⟨-, hstep⟩⟩ := step_pollIn hperm
    · rw [hstep]
      simp only [Receiving.more, Bool.and_eq_true, decide_eq_true_eq] at hmore
      refine ⟨I.tx, I.rx.turn hplace fun ⟨hinput, _⟩ => ⟨?_, ?_⟩, I.calls, I.fits⟩
      · rw [← hinput, hb]
        simp only [List.append_assoc, List.singleton_append]
      · rw [List.length_append]
        exact hmore.2
    · rw [hstep]
      exact ⟨I.tx, I.rx.turn hplace id, I.calls, I.fits⟩
  | giveRx t =>
    obtain ⟨job, hplace, hstep⟩ := step_giveRx hperm
    rw [hstep]
    refine ⟨I.tx, I.rx.give hplace fun ⟨hinput, _⟩ => ?_, I.calls, ?_⟩
    · rw [← hinput, List.map_append, List.flatten_append]
      simp
    · intro r hr
      rcases List.mem_append.mp hr with hr | hr
      · exact I.fits r hr
      · rw [List.mem_singleton.mp hr]
        exact (I.rx.inside hplace).2.2
  | arrive b =>
    refine ⟨I.tx, I.rx.mono (fun hinput => ?_) fun _ job ⟨hinput, hlen⟩ => ⟨?_, hlen⟩, I.calls,
      I.fits⟩ <;>
    · simp only [UartPoll.step]
      rw [← List.append_assoc, hinput]

/-- **Messages are sent whole**, whichever threads send and receive, and in whatever
order their steps come. -/
theorem poll_always_whole {l : List (Event T)}
    (hperm : Guarded UartPoll.step (fun s e => s.permits e) initPoll l) :
    Always UartPoll.step Whole initPoll l := fun p hp =>
  (Guarded.always (I := Inv) (fun _ _ I h => I.step h) initPoll_inv hperm p hp).whole

/-- Two threads send, and the one that comes second is first on the wire; it reads
while the other one still sends. -/
def crossing : List (Event Bool) :=
  [.sendPoll false [1, 2], .sendPoll true [3], .takeTx true, .pollOut true, .giveTx true,
    .takeTx false, .arrive 7, .recvPoll true 4, .takeRx true, .pollOut false, .pollIn true,
    .pollIn true]

theorem crossing_permitted :
    Guarded UartPoll.step (fun s e => s.permits e) (initPoll : UartPoll Bool) crossing := by
  decide

theorem crossing_whole : Always UartPoll.step Whole (initPoll : UartPoll Bool) crossing :=
  poll_always_whole crossing_permitted

/-! ## Coming to rest -/

/-- A thread takes a step of its own. -/
def Event.works : Event T → Bool
  | .takeTx _ | .pollOut _ | .giveTx _ | .takeRx _ | .pollIn _ | .giveRx _ => true
  | _ => false

def Event.calls : Event T → Bool
  | .sendPoll .. | .recvPoll .. => true
  | _ => false

/-- The steps a call of `_send_poll` can still take, at most. -/
def sendWeight : Place Sending → Nat
  | .idle => 0
  | .waiting job => job.data.length + 2
  | .inside job => job.data.length - job.i + 1

/-- The steps a call of `_recv_poll` can still take, at most. -/
def recvWeight : Place Receiving → Nat
  | .idle => 0
  | .waiting job => job.len + 2
  | .inside job => if job.broken then 1 else job.len - job.buffer.length + 1

def left [Fintype T] (s : UartPoll T) : Nat := s.tx.load sendWeight + s.rx.load recvWeight

/-- Nobody is in a call, and every message called for was sent whole. -/
structure Settled (s : UartPoll T) : Prop where
  idle : ∀ t, s.idle t
  wire : s.wire = (s.sent.map (·.2)).flatten
  calls : ∀ t, ofThread t s.sent = ofThread t s.called
  input : (s.returned.map (·.2.2)).flatten ++ s.input = s.delivered

/-- A step of a thread lowers what is left to do, and nothing but a call raises it. -/
theorem step_lowers [Fintype T] {e : Event T} (hperm : s.permits e) (hcalls : ¬ e.calls) :
    (s.step e).left + e.works.toNat ≤ s.left := by
  cases e with
  | sendPoll t data => exact (hcalls rfl).elim
  | recvPoll t len => exact (hcalls rfl).elim
  | takeTx t =>
    obtain ⟨job, hplace, -, hstep⟩ := step_takeTx hperm
    have hload := s.tx.load_take (w := sendWeight) t { job with i := 0 }
    rw [hplace] at hload
    rw [hstep]
    simp only [left, sendWeight, Event.works, Bool.toNat_true] at hload ⊢
    omega
  | pollOut t =>
    obtain ⟨job, hplace, hi, hstep⟩ := step_pollOut hperm
    have hload := s.tx.load_turn (w := sendWeight) t { job with i := job.i + 1 }
    rw [hplace] at hload
    rw [hstep]
    simp only [left, sendWeight, Event.works, Bool.toNat_true] at hload ⊢
    omega
  | giveTx t =>
    obtain ⟨job, hplace, -, hstep⟩ := step_giveTx hperm
    have hload := s.tx.load_give (w := sendWeight) t
    rw [hplace] at hload
    rw [hstep]
    simp only [left, sendWeight, Event.works, Bool.toNat_true] at hload ⊢
    omega
  | takeRx t =>
    obtain ⟨job, hplace, -, hstep⟩ := step_takeRx hperm
    have hload := s.rx.load_take (w := recvWeight) t
      { job with buffer := [], broken := false }
    rw [hplace] at hload
    rw [hstep]
    simp only [left, recvWeight, Event.works, Bool.toNat_true, List.length_nil,
      Bool.false_eq_true, if_false] at hload ⊢
    omega
  | pollIn t =>
    obtain ⟨job, hplace, hmore, ⟨b, input, -, hstep⟩ | ⟨-, hstep⟩⟩ := step_pollIn hperm <;>
      simp only [Receiving.more, Bool.and_eq_true, Bool.not_eq_true', decide_eq_true_eq] at hmore <;>
      obtain ⟨hbroken, hlen⟩ := hmore
    · have hload := s.rx.load_turn (w := recvWeight) t
        { job with buffer := job.buffer ++ [b] }
      rw [hplace] at hload
      rw [hstep]
      simp only [left, recvWeight, hbroken, Event.works, Bool.toNat_true, List.length_append,
        List.length_singleton, Bool.false_eq_true, if_false] at hload ⊢
      omega
    · have hload := s.rx.load_turn (w := recvWeight) t { job with broken := true }
      rw [hplace] at hload
      rw [hstep]
      simp only [left, recvWeight, hbroken, Event.works, Bool.toNat_true, Bool.false_eq_true,
        if_false, if_true] at hload ⊢
      omega
  | giveRx t =>
    obtain ⟨job, hplace, hstep⟩ := step_giveRx hperm
    have hload := s.rx.load_give (w := recvWeight) t
    rw [hplace] at hload
    rw [hstep]
    have hpos : 1 ≤ recvWeight (.inside job) := by
      rw [recvWeight]
      split
      · exact Nat.le_refl 1
      · exact Nat.le_add_left 1 _
    simp only [left, Event.works, Bool.toNat_true] at hload ⊢
    rw [show recvWeight .idle = 0 from rfl] at hload
    omega
  | arrive b => exact Nat.le_refl _

theorem step_called {e : Event T} (hcalls : ¬ e.calls) : (s.step e).called = s.called := by
  cases e with
  | sendPoll t data => exact (hcalls rfl).elim
  | recvPoll t len => rfl
  | arrive b => rfl
  | takeTx t | pollOut t | giveTx t | takeRx t | giveRx t =>
    simp only [UartPoll.step]
    split <;> rfl
  | pollIn t =>
    simp only [UartPoll.step]
    split <;> rfl

/-- Where no thread can take a step, all are out of their calls: a thread inside could go on
or leave, and a thread that waits could take the semaphore. -/
theorem Inv.settled (I : s.Inv) (hstuck : ∀ e, e.works → ¬ s.permits e) : s.Settled := by
  have htx : ∀ t job, s.tx.place t ≠ .inside job := by
    intro t job hin
    cases hmore : job.more with
    | true => exact hstuck (.pollOut t) rfl (by simp only [permits, hin, hmore])
    | false => exact hstuck (.giveTx t) rfl (by simp only [permits, hin, hmore, Bool.not_false])
  have hrx : ∀ t job, s.rx.place t ≠ .inside job := by
    intro t job hin
    cases hmore : job.more with
    | true => exact hstuck (.pollIn t) rfl (by simp only [permits, hin, hmore])
    | false => exact hstuck (.giveRx t) rfl (by simp only [permits, hin, hmore, Bool.not_false])
  obtain ⟨htxCount, hwire⟩ := I.tx.free htx
  obtain ⟨hrxCount, hinput⟩ := I.rx.free hrx
  have htxIdle : ∀ t, s.tx.place t = .idle := by
    intro t
    cases hplace : s.tx.place t with
    | idle => rfl
    | inside job => exact (htx t job hplace).elim
    | waiting job => exact (hstuck (.takeTx t) rfl (by simp [permits, hplace, htxCount])).elim
  have hrxIdle : ∀ t, s.rx.place t = .idle := by
    intro t
    cases hplace : s.rx.place t with
    | idle => rfl
    | inside job => exact (hrx t job hplace).elim
    | waiting job => exact (hstuck (.takeRx t) rfl (by simp [permits, hplace, hrxCount])).elim
  refine ⟨fun t => by rw [idle, htxIdle, hrxIdle]; rfl, hwire, fun t => ?_, hinput⟩
  have hcalls := I.calls t
  rwa [htxIdle, pending, List.append_nil] at hcalls

/-- **The polled transport comes to rest.** From any state reached the threads have
only a bounded number of steps to take before the next call, and when none can take
one, every message called for so far has been sent whole. -/
theorem poll_settles [Fintype T] {before : List (Event T)}
    (hbefore : Guarded UartPoll.step (fun s e => s.permits e) initPoll before) :
    ∃ n, ∀ l, Guarded UartPoll.step (fun s e => s.permits e ∧ ¬ e.calls)
      (before.foldl UartPoll.step initPoll) l →
      l.countP Event.works ≤ n ∧
        ((∀ e, e.works → ¬ ((before ++ l).foldl UartPoll.step initPoll).permits e) →
          ((before ++ l).foldl UartPoll.step initPoll).Settled ∧
            ((before ++ l).foldl UartPoll.step initPoll).called =
              (before.foldl UartPoll.step initPoll).called) := by
  have hinv := (Guarded.always (I := Inv) (fun _ _ I h => I.step h) initPoll_inv hbefore).last
  refine ⟨(before.foldl UartPoll.step initPoll).left, fun l hl => ⟨?_, fun hstuck => ?_⟩⟩
  · refine Guarded.count_le (I := Inv) ?_ ?_ hinv hl
    · exact fun _ _ I h => I.step h.1
    · exact fun _ _ _ h => step_lowers h.1 h.2
  · rw [List.foldl_append] at hstuck ⊢
    have hend := (hl.always (I := fun s => s.Inv ∧
      s.called = (before.foldl UartPoll.step initPoll).called)
      (fun _ _ I h => ⟨I.1.step h.1, (step_called h.2).trans I.2⟩) ⟨hinv, rfl⟩).last
    exact ⟨hend.1.settled hstuck, hend.2⟩

theorem crossing_settles :
    ∃ n, ∀ l, Guarded UartPoll.step (fun s e => s.permits e ∧ ¬ e.calls)
      (crossing.foldl UartPoll.step initPoll) l →
      l.countP Event.works ≤ n ∧
        ((∀ e, e.works → ¬ ((crossing ++ l).foldl UartPoll.step initPoll).permits e) →
          ((crossing ++ l).foldl UartPoll.step initPoll).Settled ∧
            ((crossing ++ l).foldl UartPoll.step initPoll).called =
              (crossing.foldl UartPoll.step initPoll).called) :=
  poll_settles crossing_permitted

end UartPoll

end Sdkz.App
