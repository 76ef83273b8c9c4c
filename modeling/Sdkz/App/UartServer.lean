import Sdkz.App.UartWake
import Sdkz.Hu.Verdict

/-! # The packet server over the interrupt-driven UART (app/src/hup_server.c, lib/app/uart.c)

One thread runs `_hup_server`. It waits in `recv`, works through what came byte by byte,
and hands every reply to `send` before it goes on to the next byte; the transport moves on
between any two of its steps. What the hardware has taken at any time is then the beginning
of what the parser answers to the beginning of what the hardware has delivered. -/

namespace Sdkz.App
open Sdkz.Base Sdkz.Hu

/-- The handle of the thread, and the transport under it. -/
structure UartServer (N : Nat) (W X : Type) where
  hup : Machine N W X
  uart : Uart
  /-- what is left of the bytes `recv` returned -/
  buffer : Bytes
  /-- the replies to the last byte that `send` has not been given yet -/
  replies : List Bytes

namespace UartServer
variable {N : Nat} {W X : Type}

def init (w : W) (txData rxData : Nat → UInt8) : UartServer N W X where
  hup := .fresh N w
  uart := .initInt txData rxData
  buffer := []
  replies := []

/-- What can happen next: the thread calls the transport or the parser, or something
happens inside the transport. -/
inductive Event where
  | recv
  | process
  | send
  | uart (e : Uart.Event)

/-- What `recv` has stored in its buffer. -/
def received (s : Uart) : Uart.Event → Bytes
  | .get =>
    match s.receiver with
    | .get len => s.handle.rxBuffer.got len
    | _ => []
  | _ => []

def step (fw : Firmware N W X) (s : UartServer N W X) : Event → UartServer N W X
  | .recv => { s with uart := s.uart.step (.recv N) }
  | .process =>
    match s.buffer with
    | [] => s
    | b :: buffer =>
      let hup := processByte fw s.hup b
      { s with hup := hup, buffer := buffer, replies := s.replies ++ sends (since s.hup hup) }
  | .send =>
    match s.replies with
    | [] => s
    | reply :: replies => { s with uart := s.uart.step (.send reply), replies := replies }
  | .uart e => { s with uart := s.uart.step e, buffer := s.buffer ++ received s.uart e }

/-- The thread is in neither of its calls. -/
def returned (s : UartServer N W X) : Bool :=
  (s.uart.sender matches .idle) && (s.uart.receiver matches .idle)

/-- The events that can come next: the thread answers a byte before it takes the next one,
and receives when it has worked through its buffer. -/
def permits (s : UartServer N W X) : Event → Bool
  | .recv => s.returned && s.buffer.isEmpty && s.replies.isEmpty
  | .process => s.returned && !s.buffer.isEmpty && s.replies.isEmpty
  | .send => s.returned && !s.replies.isEmpty
  | .uart (.send _) | .uart (.recv _) => false
  | .uart e => s.uart.permits e

/-- A condition on what happens inside the transport. -/
def within (C : Uart → Uart.Event → Bool) (s : UartServer N W X) : Event → Bool
  | .uart e => C s.uart e
  | _ => true

/-- Everything delivered is parsed, still to be parsed or in the ring, and every reply is
taken, in the ring or still to be put, both in order and nothing twice. -/
structure Answering (fw : Firmware N W X) (w : W) (s : UartServer N W X) : Prop where
  input : ∃ parsed, s.hup = processHupacket fw (.fresh N w) parsed ∧
    parsed ++ s.buffer ++ s.uart.handle.rxBuffer.content = s.uart.delivered
  output : s.uart.taken ++ s.uart.handle.txBuffer.content ++ s.uart.sender.rest ++
    s.replies.flatten = (sends s.hup.log).flatten

/-! ## The invariant -/

/-- The parser has seen what `recv` returned up to what is left, and `send` was given its
replies up to those that are left. -/
structure Serves (fw : Firmware N W X) (w : W) (s : UartServer N W X) : Prop where
  uart : s.uart.Inv
  input : ∃ parsed, s.hup = processHupacket fw (.fresh N w) parsed ∧
    parsed ++ s.buffer = s.uart.returned
  output : s.uart.passed ++ s.replies.flatten = (sends s.hup.log).flatten

theorem Serves.answering {fw : Firmware N W X} {w : W} {s : UartServer N W X}
    (I : s.Serves fw w) : s.Answering fw w where
  input := by
    obtain ⟨parsed, hhup, hreturned⟩ := I.input
    refine ⟨parsed, hhup, ?_⟩
    rw [hreturned]
    exact I.uart.fifo.receiving
  output := by
    rw [I.uart.fifo.sending, I.uart.fifo.calls]
    exact I.output

theorem init_serves (fw : Firmware N W X) (w : W) (txData rxData : Nat → UInt8) :
    (init w txData rxData : UartServer N W X).Serves fw w where
  uart := Uart.initInt_inv txData rxData
  input := ⟨[], rfl, rfl⟩
  output := rfl

/-! ## What a step does to the transport -/

/-- A step of the thread leaves the transport alone, or is a call that it permits. -/
theorem step_uart (fw : Firmware N W X) {s : UartServer N W X} {e : Event} (hperm : s.permits e) :
    (e = .process ∧ (s.step fw e).uart = s.uart) ∨
      ∃ u, s.uart.permits u ∧ (s.step fw e).uart = s.uart.step u ∧
        (e = .uart u ∨ (e = .recv ∧ u = .recv N) ∨ ∃ reply, e = .send ∧ u = .send reply) := by
  cases e with
  | recv =>
    simp only [permits, returned, Bool.and_eq_true] at hperm
    exact .inr ⟨.recv N, hperm.1.1.2, rfl, .inr (.inl ⟨rfl, rfl⟩)⟩
  | process =>
    refine .inl ⟨rfl, ?_⟩
    unfold step
    cases s.buffer with
    | nil => rfl
    | cons b buffer => rfl
  | send =>
    simp only [permits, returned, Bool.and_eq_true] at hperm
    obtain ⟨⟨hidle, -⟩, hne⟩ := hperm
    cases hreplies : s.replies with
    | nil => simp [hreplies] at hne
    | cons reply replies =>
      refine .inr ⟨.send reply, hidle, ?_, .inr (.inr ⟨reply, rfl, rfl⟩)⟩
      simp only [step, hreplies]
  | uart u =>
    refine .inr ⟨u, ?_, rfl, .inl rfl⟩
    cases u with
    | send data => cases hperm
    | recv len => cases hperm
    | _ => exact hperm

/-- What every call keeps that the transport permits, every step of the server keeps. -/
theorem step_keeps (fw : Firmware N W X) {I : Uart → Prop} {C : Uart → Uart.Event → Bool}
    (keeps : ∀ u e, I u → u.permits e → C u e → I (u.step e))
    (calls : ∀ u, (∀ data, C u (.send data)) ∧ ∀ len, C u (.recv len))
    {s : UartServer N W X} {e : Event} (hI : I s.uart) (hperm : s.permits e)
    (hwithin : s.within C e) : I (s.step fw e).uart := by
  rcases step_uart fw hperm with ⟨-, hsame⟩ | ⟨u, hu, hstep, hcall⟩
  · rw [hsame]
    exact hI
  · rw [hstep]
    refine keeps s.uart u hI hu ?_
    rcases hcall with rfl | ⟨-, rfl⟩ | ⟨reply, -, rfl⟩
    · exact hwithin
    · exact (calls s.uart).2 N
    · exact (calls s.uart).1 reply

/-- The handler does not touch what belongs to the threads. -/
structure SameThreads (s t : Uart) : Prop where
  sender : t.sender = s.sender
  receiver : t.receiver = s.receiver
  passed : t.passed = s.passed
  put : t.put = s.put
  returned : t.returned = s.returned

theorem rxTurn_threads (s : Uart) (read : Except Int Bytes) : SameThreads s (s.rxTurn read) := by
  unfold Uart.rxTurn
  cases read with
  | error rc => exact ⟨rfl, rfl, rfl, rfl, rfl⟩
  | ok rx =>
    simp only
    split
    · split <;> exact ⟨rfl, rfl, rfl, rfl, rfl⟩
    · exact ⟨rfl, rfl, rfl, rfl, rfl⟩

theorem txTurn_threads (s : Uart) (sent : Int) : SameThreads s (s.txTurn sent) := by
  unfold Uart.txTurn
  simp only
  split
  · split <;> exact ⟨rfl, rfl, rfl, rfl, rfl⟩
  · split <;> exact ⟨rfl, rfl, rfl, rfl, rfl⟩

theorem turn_threads (s : Uart) (rx : Option (Except Int Bytes)) (tx : Option Int) :
    SameThreads s (s.turn rx tx) := by
  have hrx : ∀ s' : Uart, SameThreads s s' → SameThreads s (s'.turn none tx) := by
    intro s' h
    cases tx with
    | none => exact h
    | some sent =>
      have ht := txTurn_threads s' sent
      exact ⟨ht.sender.trans h.sender, ht.receiver.trans h.receiver, ht.passed.trans h.passed,
        ht.put.trans h.put, ht.returned.trans h.returned⟩
  cases rx with
  | none => exact hrx s ⟨rfl, rfl, rfl, rfl, rfl⟩
  | some read => exact hrx (s.rxTurn read) (rxTurn_threads s read)

/-- Only `recv` returns bytes, and only `send` is passed some. -/
theorem uart_streams {s : Uart} {e : Uart.Event} (hsend : ∀ data, e ≠ .send data) :
    (s.step e).returned = s.returned ++ received s e ∧ (s.step e).passed = s.passed := by
  cases e with
  | send data => exact absurd rfl (hsend data)
  | put =>
    unfold Uart.step
    cases s.sender <;> exact ⟨(List.append_nil _).symm, rfl⟩
  | enable =>
    unfold Uart.step
    cases s.sender <;> exact ⟨(List.append_nil _).symm, rfl⟩
  | takeTx =>
    unfold Uart.step
    cases s.sender <;> exact ⟨(List.append_nil _).symm, rfl⟩
  | recv len => exact ⟨(List.append_nil _).symm, rfl⟩
  | get =>
    unfold Uart.step received
    cases s.receiver with
    | get len => exact ⟨rfl, rfl⟩
    | _ => exact ⟨(List.append_nil _).symm, rfl⟩
  | takeRx =>
    unfold Uart.step
    cases s.receiver <;> exact ⟨(List.append_nil _).symm, rfl⟩
  | turn rx tx =>
    have h := turn_threads s rx tx
    exact ⟨h.returned.trans (List.append_nil _).symm, h.passed⟩

/-! ## Safety -/

theorem Serves.step {fw : Firmware N W X} {w : W} {s : UartServer N W X} (I : s.Serves fw w)
    {e : Event} (hperm : s.permits e) (hsettled : s.within Uart.settled e) :
    (s.step fw e).Serves fw w := by
  have huart : (s.step fw e).uart.Inv :=
    step_keeps fw (fun u e I hp hc => I.step hp hc) (fun _ => ⟨fun _ => rfl, fun _ => rfl⟩)
      I.uart hperm hsettled
  cases e with
  | recv =>
    obtain ⟨parsed, hhup, hreturned⟩ := I.input
    have hsame := uart_streams (s := s.uart) (e := .recv N) (by intro data h; cases h)
    refine ⟨huart, ⟨parsed, hhup, hreturned.trans ?_⟩, ?_⟩
    · exact (hsame.1.trans (List.append_nil _)).symm
    · exact (congrArg (· ++ s.replies.flatten) hsame.2).trans I.output
  | process =>
    obtain ⟨parsed, hhup, hreturned⟩ := I.input
    revert huart
    unfold UartServer.step
    cases hbuffer : s.buffer with
    | nil => exact fun _ => I
    | cons b buffer =>
      intro huart
      rw [hbuffer] at hreturned
      refine ⟨huart, ⟨parsed ++ [b], ?_, ?_⟩, ?_⟩
      · rw [processHupacket_append, ← hhup]
        rfl
      · rw [← hreturned, List.append_assoc]
        rfl
      · obtain ⟨ev, hlog⟩ := processByte_log fw s.hup b
        show s.uart.passed ++ (s.replies ++ sends (since s.hup (processByte fw s.hup b))).flatten =
          (sends (processByte fw s.hup b).log).flatten
        rw [since_eq hlog.symm, ← hlog, sends_append, List.flatten_append, List.flatten_append,
          ← List.append_assoc, I.output]
  | send =>
    revert huart
    unfold UartServer.step
    cases hreplies : s.replies with
    | nil => exact fun _ => I
    | cons reply replies =>
      intro huart
      refine ⟨huart, I.input, ?_⟩
      have hout := I.output
      rw [hreplies, List.flatten_cons, ← List.append_assoc] at hout
      exact hout
  | uart u =>
    obtain ⟨parsed, hhup, hreturned⟩ := I.input
    have hsend : ∀ data, u ≠ .send data := by
      intro data h
      subst h
      cases hperm
    obtain ⟨hret, hpassed⟩ := uart_streams (s := s.uart) hsend
    refine ⟨huart, ⟨parsed, hhup, ?_⟩, ?_⟩
    · show parsed ++ (s.buffer ++ received s.uart u) = (s.uart.step u).returned
      rw [hret, ← hreturned, List.append_assoc]
    · show (s.uart.step u).passed ++ s.replies.flatten = _
      rw [hpassed]
      exact I.output

section Runs
variable {fw : Firmware N W X} {w : W} {txData rxData : Nat → UInt8} {l : List Event}

/-- **The server answers what it is sent**, whatever happens between its steps, as long
as every reply fits. -/
theorem server_always_answering
    (hperm : Guarded (step fw) (fun s e => s.permits e) (init w txData rxData) l)
    (hsettled : Guarded (step fw) (fun s e => s.within Uart.settled e) (init w txData rxData) l)
    (_hfit : RepliesFit N (l.foldl (step fw) (init w txData rxData)).hup.log) :
    Always (step fw) (Answering fw w) (init w txData rxData) l := by
  have hboth : Guarded (step fw) (fun s e => s.permits e ∧ s.within Uart.settled e)
      (init w txData rxData) l := fun p e hp => ⟨hperm p e hp, hsettled p e hp⟩
  have hinv := hboth.always (I := Serves fw w) (fun s e I h => I.step h.1 h.2)
    (init_serves fw w txData rxData)
  exact fun p hp => (hinv p hp).answering

end Runs

/-- A command whose CRC is wrong is delivered while the server waits. -/
def wrongCommand : List Event :=
  [.recv, .uart .get, .uart (.turn (some (.ok [enqOfCommand, 97, crcMark, 48, endOfPacket])) none)]

/-- The server rejects it, and the hardware takes the first half of the answer. -/
theorem wrong_command_answered :
    let fw := image (W := Unit) (X := Empty) [] []
    Always (step fw) (Answering fw ()) (init () (fun _ => 0) (fun _ => 0))
      (wrongCommand ++ [.uart .takeRx, .uart .get, .process, .process, .process, .process, .process,
        .send, .uart .put, .uart (.turn none (some 4)), .uart .enable, .recv]) :=
  server_always_answering (by decide +kernel) (by decide +kernel) (by decide +kernel)

end UartServer

end Sdkz.App
