import Sdkz.Base.CString
import Sdkz.Base.Ring
import Sdkz.Base.Run

/-! # The interrupt-driven UART transport (lib/app/uart.c)

One thread sends, one thread receives, and the interrupt handler runs between any
two of their steps. Its loop is taken turn by turn: a turn is `rx` and `tx` with
what the driver returned, if the direction was ready. What went by is kept beside
the handle: the bytes handed over on each side. -/

namespace Sdkz.App
open Sdkz.Base

abbrev rxBufSize : Nat := 512
abbrev txBufSize : Nat := 512

/-- `struct handle`; both semaphores have the limit 1. -/
structure Handle where
  txDone : Bool
  rxDone : Bool
  txBuffer : Ring UInt8 txBufSize
  rxBuffer : Ring UInt8 rxBufSize

/-- `_init_handle`: the rings lie over memory from `malloc`. -/
def initHandle (txData rxData : Nat → UInt8) : Handle where
  txDone := true
  rxDone := false
  txBuffer := .init txBufSize txData
  rxBuffer := .init rxBufSize rxData

/-- Where `_send_int` stands, and what it has not put yet. -/
inductive Sender where
  | idle
  | put (data : Bytes)
  | enable (data : Bytes)
  | wait (data : Bytes)
deriving DecidableEq, Repr

/-- Where `_recv_async_int` stands, and the length of its buffer. -/
inductive Receiver where
  | idle
  | get (len : Nat)
  | wait (len : Nat)
deriving DecidableEq, Repr

/-- The data of the call that is still to be put. -/
def Sender.rest : Sender → Bytes
  | .idle => []
  | .put data | .enable data | .wait data => data

structure Uart where
  handle : Handle
  txIrq : Bool
  sender : Sender
  receiver : Receiver
  /-- the data of all calls of `_send_int` -/
  passed : Bytes
  /-- what `_send_int` has put into the ring -/
  put : Bytes
  /-- what `uart_fifo_fill` has taken -/
  taken : Bytes
  /-- what `uart_fifo_read` has delivered -/
  delivered : Bytes
  /-- what `_recv_async_int` has returned -/
  returned : Bytes

namespace Uart

/-- `_init_int` takes the semaphore back that `_init_handle` gave. -/
def initInt (txData rxData : Nat → UInt8) : Uart where
  handle := { initHandle txData rxData with txDone := false }
  txIrq := false
  sender := .idle
  receiver := .idle
  passed := []
  put := []
  taken := []
  delivered := []
  returned := []

/-! ## The interrupt handler -/

/-- The receiving half of a turn, with what `uart_fifo_read` returned. -/
def rxTurn (s : Uart) (read : Except Int Bytes) : Uart :=
  let bytes := s.handle.rxBuffer.putHead
  let claimed := s.handle.rxBuffer.putClaim rxBufSize
  match read with
  | .error _ => { s with handle := { s.handle with rxBuffer := claimed } }
  | .ok rx =>
    let s := { s with delivered := s.delivered ++ rx }
    let filled := claimed.write bytes rx
    if rx.length > 0 then
      match filled.putFinish rx.length with
      | none => { s with handle := { s.handle with rxBuffer := filled } }
      | some ring => { s with handle := { s.handle with rxBuffer := ring, rxDone := true } }
    else { s with handle := { s.handle with rxBuffer := filled } }

/-- The sending half of a turn, with what `uart_fifo_fill` returned. -/
def txTurn (s : Uart) (sent : Int) : Uart :=
  let dataPtr := s.handle.txBuffer.getHead
  let claimed := s.handle.txBuffer.getClaimed txBufSize
  let ring := s.handle.txBuffer.getClaim txBufSize
  if claimed > 0 then
    if sent > 0 then
      { s with
        taken := s.taken ++ ring.bytesAt dataPtr sent.toNat
        handle := { s.handle with
          txBuffer := (ring.getFinish sent.toNat).getD ring
          txDone := true } }
    else { s with handle := { s.handle with txBuffer := ring } }
  else if ring.isEmpty then { s with txIrq := false, handle := { s.handle with txBuffer := ring } }
  else { s with handle := { s.handle with txBuffer := ring } }

/-- One turn of the loop of `_irq_cb`; `none` is a direction that is not ready. -/
def turn (s : Uart) (rx : Option (Except Int Bytes)) (tx : Option Int) : Uart :=
  let s := match rx with
    | some read => s.rxTurn read
    | none => s
  match tx with
  | some sent => s.txTurn sent
  | none => s

/-! ## The threads -/

/-- What can happen next. -/
inductive Event where
  | send (data : Bytes)
  | put
  | enable
  | takeTx
  | recv (len : Nat)
  | get
  | takeRx
  | turn (rx : Option (Except Int Bytes)) (tx : Option Int)

def step (s : Uart) : Event → Uart
  | .send data => { s with sender := .put data, passed := s.passed ++ data }
  | .put =>
    match s.sender with
    | .put data =>
      let written := s.handle.txBuffer.putCount data.length
      { s with
        handle := { s.handle with txBuffer := s.handle.txBuffer.put data }
        sender := .enable (data.drop written)
        put := s.put ++ data.take written }
    | _ => s
  | .enable =>
    match s.sender with
    | .enable data => { s with txIrq := true, sender := if data = [] then .idle else .wait data }
    | _ => s
  | .takeTx =>
    match s.sender with
    | .wait data => { s with handle := { s.handle with txDone := false }, sender := .put data }
    | _ => s
  | .recv len => { s with receiver := .get len }
  | .get =>
    match s.receiver with
    | .get len =>
      let ring := s.handle.rxBuffer
      { s with
        handle := { s.handle with rxBuffer := ring.get len }
        returned := s.returned ++ ring.got len
        receiver := if ring.getCount len = 0 then .wait len else .idle }
    | _ => s
  | .takeRx =>
    match s.receiver with
    | .wait len => { s with handle := { s.handle with rxDone := false }, receiver := .get len }
    | _ => s
  | .turn rx tx => s.turn rx tx

/-- The driver returns a count of what it was offered, or a negative error. -/
def readOffered (s : Uart) : Option (Except Int Bytes) → Bool
  | some (.ok rx) => rx.length ≤ s.handle.rxBuffer.putClaimed rxBufSize
  | some (.error rc) => rc < 0
  | none => true

def fillOffered (s : Uart) : Option Int → Bool
  | some sent => sent ≤ s.handle.txBuffer.getClaimed txBufSize
  | none => true

/-- The events that can come next: a thread goes on where it stands, and gets no
further than an empty semaphore lets it. -/
def permits (s : Uart) : Event → Bool
  | .send _ => (s.sender matches .idle)
  | .put => (s.sender matches .put _)
  | .enable => (s.sender matches .enable _)
  | .takeTx => s.handle.txDone && (s.sender matches .wait _)
  | .recv _ => (s.receiver matches .idle)
  | .get => (s.receiver matches .get _)
  | .takeRx => s.handle.rxDone && (s.receiver matches .wait _)
  | .turn rx tx => s.readOffered rx && s.fillOffered tx

/-- A driver call that moves bytes finds no earlier claim of its direction left
open: none that a result of 0 or an error has left behind. -/
def settled (s : Uart) : Event → Bool
  | .turn rx tx =>
    (match rx with
      | some (.ok rx) => rx.isEmpty || s.handle.rxBuffer.putHead == s.handle.rxBuffer.putTail
      | _ => true) &&
    (match tx with
      | some sent => sent ≤ 0 || s.handle.txBuffer.getHead == s.handle.txBuffer.getTail
      | none => true)
  | _ => true

/-- Nothing is lost, doubled or out of order, in either direction. -/
structure Fifo (s : Uart) : Prop where
  sending : s.taken ++ s.handle.txBuffer.content = s.put
  receiving : s.returned ++ s.handle.rxBuffer.content = s.delivered
  calls : s.put ++ s.sender.rest = s.passed

/-! ## The invariant -/

/-- Each ring carries the stream of its direction, and its released part is what
came out. The side of a ring that a thread works on leaves no claim open. -/
structure Inv (s : Uart) : Prop where
  txHolds : s.handle.txBuffer.Holds s.put
  txHead : s.handle.txBuffer.putHead = s.handle.txBuffer.putTail
  taken : s.taken = s.put.take s.handle.txBuffer.getTail
  rxHolds : s.handle.rxBuffer.Holds s.delivered
  rxHead : s.handle.rxBuffer.getHead = s.handle.rxBuffer.getTail
  returned : s.returned = s.delivered.take s.handle.rxBuffer.getTail
  calls : s.put ++ s.sender.rest = s.passed

theorem Inv.fifo {s : Uart} (I : s.Inv) : s.Fifo where
  sending := by rw [I.taken, I.txHolds.split]
  receiving := by rw [I.returned, I.rxHolds.split]
  calls := I.calls

theorem initInt_inv (txData rxData : Nat → UInt8) : (initInt txData rxData).Inv where
  txHolds := Ring.init_holds txData
  txHead := rfl
  taken := rfl
  rxHolds := Ring.init_holds rxData
  rxHead := rfl
  returned := rfl
  calls := rfl

/-- A turn moves on what it read, if no claim was open. -/
theorem Inv.rxTurn {s : Uart} (I : s.Inv) {read : Except Int Bytes}
    (hoffered : s.readOffered (some read)) (hsettled : s.settled (.turn (some read) none)) :
    (s.rxTurn read).Inv := by
  unfold Uart.rxTurn
  cases read with
  | error rc =>
    exact { I with rxHolds := I.rxHolds.move rfl rfl (Nat.le_refl _) }
  | ok rx =>
    simp only
    split
    · rename_i hpos
      have hne : rx.isEmpty = false := by
        cases rx with
        | nil => cases hpos
        | cons c rx => rfl
      have hhead : s.handle.rxBuffer.putHead = s.handle.rxBuffer.putTail := by
        simpa [settled, hne] using hsettled
      have hlen : rx.length ≤ s.handle.rxBuffer.putClaimed rxBufSize := by
        simpa [readOffered] using hoffered
      have hspace := s.handle.rxBuffer.putClaimed_le rxBufSize
      have hle := s.handle.rxBuffer.putHead_le
      obtain ⟨ring, hring⟩ : ∃ ring, ((s.handle.rxBuffer.putClaim rxBufSize).write
          s.handle.rxBuffer.putHead rx).putFinish rx.length = some ring := by
        refine Ring.exists_putFinish ?_
        show rx.length ≤ s.handle.rxBuffer.putHead +
          s.handle.rxBuffer.putClaimed rxBufSize - s.handle.rxBuffer.putTail
        omega
      obtain ⟨-, hbuffer, hgetHead, hgetTail, -, hput⟩ := Ring.putFinish_some hring
      rw [hring]
      unfold Ring.spaceGet at hspace
      refine { I with rxHolds := ?_, rxHead := ?_, returned := ?_ }
      · show ring.Holds (s.delivered ++ rx)
        refine I.rxHolds.append ?_ ?_ ?_ ?_
        · rw [hbuffer, ← hhead]
          rfl
        · exact hput
        · rw [hgetTail]
          exact Nat.le_refl _
        · have := s.handle.rxBuffer.getTail_le
          have := s.handle.rxBuffer.getHead_le
          have := s.handle.rxBuffer.putTail_le
          omega
      · exact hgetHead.trans (I.rxHead.trans hgetTail.symm)
      · show s.returned = (s.delivered ++ rx).take ring.getTail
        rw [hgetTail, I.returned]
        exact (List.take_append_of_le_length I.rxHolds.released).symm
    · rename_i hnil
      have hnil : rx = [] := List.length_eq_zero_iff.mp (Nat.le_zero.mp (not_lt.mp hnil))
      subst hnil
      have hsame : s.delivered ++ [] = s.delivered := List.append_nil _
      rw [hsame]
      exact { I with rxHolds := I.rxHolds.move rfl rfl (Nat.le_refl _) }

/-- A turn takes what comes next, if no claim was open. -/
theorem Inv.txTurn {s : Uart} (I : s.Inv) {sent : Int} (hoffered : s.fillOffered (some sent))
    (hsettled : s.settled (.turn none (some sent))) : (s.txTurn sent).Inv := by
  have hclaim : (s.handle.txBuffer.getClaim txBufSize).Holds s.put :=
    I.txHolds.move rfl rfl (Nat.le_refl _)
  unfold Uart.txTurn
  simp only
  split
  · split
    · rename_i hpos
      have hhead : s.handle.txBuffer.getHead = s.handle.txBuffer.getTail := by
        have hnot : ¬ sent ≤ 0 := by omega
        simpa [settled, hnot] using hsettled
      have hle : sent.toNat ≤ s.handle.txBuffer.getClaimed txBufSize := by
        have : sent ≤ s.handle.txBuffer.getClaimed txBufSize := by
          simpa [fillOffered] using hoffered
        omega
      have hclaimed : (s.handle.txBuffer.getClaim txBufSize).getHead -
          (s.handle.txBuffer.getClaim txBufSize).getTail =
          s.handle.txBuffer.getClaimed txBufSize := by
        simp only [Ring.getClaim, hhead]
        omega
      obtain ⟨ring, hring⟩ : ∃ ring,
          (s.handle.txBuffer.getClaim txBufSize).getFinish sent.toNat = some ring :=
        Ring.exists_getFinish (by omega)
      obtain ⟨-, hbuffer, hputHead, hputTail, hgetHead, hgetTail⟩ := Ring.getFinish_some hring
      have htail : (s.handle.txBuffer.getClaim txBufSize).getTail = s.handle.txBuffer.getTail := rfl
      have hroom : s.handle.txBuffer.getTail + sent.toNat ≤ s.put.length := by
        have hreleased := (hclaim.getFinish hring).released
        omega
      rw [hring, Option.getD_some]
      refine { I with
        txHolds := hclaim.getFinish hring
        txHead := hputHead.trans (I.txHead.trans hputTail.symm)
        taken := ?_ }
      have hbytes : (s.handle.txBuffer.getClaim txBufSize).bytesAt s.handle.txBuffer.getTail
          sent.toNat = (s.put.drop s.handle.txBuffer.getTail).take sent.toNat :=
        hclaim.bytesAt (Nat.le_refl _) hroom
      show s.taken ++ _ = s.put.take ring.getTail
      rw [hgetTail, htail, hhead, hbytes, I.taken, List.take_add]
    · exact { I with txHolds := hclaim }
  · split <;> exact { I with txHolds := hclaim }

/-- The receiving half does not touch the other ring. -/
theorem rxTurn_txBuffer (s : Uart) (read : Except Int Bytes) :
    (s.rxTurn read).handle.txBuffer = s.handle.txBuffer := by
  unfold Uart.rxTurn
  cases read with
  | error rc => rfl
  | ok rx =>
    simp only
    split
    · split <;> rfl
    · rfl

theorem Inv.turn {s : Uart} (I : s.Inv) {rx : Option (Except Int Bytes)} {tx : Option Int}
    (hperm : s.permits (.turn rx tx)) (hsettled : s.settled (.turn rx tx)) :
    (s.turn rx tx).Inv := by
  obtain ⟨hread, hfill⟩ := Bool.and_eq_true_iff.mp hperm
  obtain ⟨hrx, htx⟩ := Bool.and_eq_true_iff.mp hsettled
  have hfirst : ∀ s' : Uart, s'.handle.txBuffer = s.handle.txBuffer → s'.Inv → ∀ sent, tx = some sent →
      (s'.txTurn sent).Inv := by
    rintro s' hsame I' sent rfl
    refine I'.txTurn ?_ ?_
    · simpa only [fillOffered, hsame] using hfill
    · simp only [settled, hsame, Bool.true_and]
      exact htx
  have hrx' : ∀ read, rx = some read → (s.rxTurn read).Inv := by
    rintro read rfl
    refine I.rxTurn hread ?_
    simp only [settled, Bool.and_true]
    exact hrx
  unfold Uart.turn
  cases rx with
  | none =>
    cases tx with
    | none => exact I
    | some sent => exact hfirst s rfl I sent rfl
  | some read =>
    cases tx with
    | none => exact hrx' read rfl
    | some sent => exact hfirst _ (s.rxTurn_txBuffer read) (hrx' read rfl) sent rfl

theorem Inv.step {s : Uart} (I : s.Inv) {e : Event} (hperm : s.permits e) (hsettled : s.settled e) :
    (s.step e).Inv := by
  cases e with
  | send data =>
    have hidle : s.sender = .idle := by
      cases hsender : s.sender <;> simp_all [permits]
    have hcalls := I.calls
    rw [hidle, Sender.rest, List.append_nil] at hcalls
    exact { I with calls := congrArg (· ++ data) hcalls }
  | put =>
    unfold Uart.step
    cases hsender : s.sender with
    | put data =>
      have hcalls := I.calls
      rw [hsender, Sender.rest] at hcalls
      refine { I with
        txHolds := I.txHolds.put I.txHead data
        txHead := rfl
        taken := ?_
        calls := ?_ }
      · show s.taken = _
        rw [I.taken]
        exact (List.take_append_of_le_length I.txHolds.released).symm
      · show (s.put ++ _) ++ data.drop _ = s.passed
        rw [List.append_assoc, List.take_append_drop, hcalls]
    | _ => simpa only [hsender] using I
  | enable =>
    unfold Uart.step
    cases hsender : s.sender with
    | enable data =>
      have hcalls := I.calls
      rw [hsender, Sender.rest] at hcalls
      refine { I with calls := ?_ }
      by_cases hnil : data = []
      · simpa [hnil, Sender.rest] using hcalls
      · simpa [hnil, Sender.rest] using hcalls
    | _ => simpa only [hsender] using I
  | takeTx =>
    unfold Uart.step
    cases hsender : s.sender with
    | wait data =>
      have hcalls := I.calls
      rw [hsender] at hcalls
      exact { I with calls := hcalls }
    | _ => simpa only [hsender] using I
  | recv len => exact { I with }
  | get =>
    unfold Uart.step
    cases hreceiver : s.receiver with
    | get len =>
      refine { I with
        rxHolds := I.rxHolds.get len
        rxHead := rfl
        returned := ?_ }
      show s.returned ++ _ = s.delivered.take (s.handle.rxBuffer.getTail + _)
      rw [I.rxHolds.got, I.returned, I.rxHead, List.take_add]
    | _ => simpa only [hreceiver] using I
  | takeRx =>
    unfold Uart.step
    cases hreceiver : s.receiver with
    | wait len => exact { I with }
    | _ => simpa only [hreceiver] using I
  | turn rx tx => exact I.turn hperm hsettled

/-- **Both directions are exactly-once queues** in every run in which no call that
moves bytes meets an open claim. -/
theorem int_always_fifo (txData rxData : Nat → UInt8) {l : List Event}
    (hperm : Guarded step (fun s e => s.permits e) (initInt txData rxData) l)
    (hsettled : Guarded step (fun s e => s.settled e) (initInt txData rxData) l) :
    Always step Fifo (initInt txData rxData) l := by
  have hboth : Guarded step (fun s e => s.permits e ∧ s.settled e) (initInt txData rxData) l :=
    fun p e hp => ⟨hperm p e hp, hsettled p e hp⟩
  have hinv := hboth.always (I := Inv) (fun s e I h => I.step h.1 h.2) (initInt_inv txData rxData)
  exact fun p hp => (hinv p hp).fifo

/-- Three bytes sent in two turns, one received. -/
theorem quiet_run_fifo : Always step Fifo (initInt (fun _ => 0) (fun _ => 0))
    [.send [1, 2, 3], .put, .enable, .turn none (some 2), .recv 4, .turn (some (.ok [7])) (some 1),
      .get] :=
  int_always_fifo (fun _ => 0) (fun _ => 0) (by decide +kernel) (by decide +kernel)

/-- `uart_fifo_fill` takes nothing of `1 2`; then `3` is put, claimed behind them
and taken, and the finish releases `1`. -/
def refusedRun : List Event :=
  [.send [1, 2], .put, .enable, .turn none (some 0), .send [3], .put, .enable, .turn none (some 1)]

/-- **A result of 0 disorders the stream**: the hardware gets `3` and then `2 3`. -/
theorem refused_fill_disorders :
    Guarded step (fun s e => s.permits e) (initInt (fun _ => 0) (fun _ => 0)) refusedRun ∧
      ¬ Always step Fifo (initInt (fun _ => 0) (fun _ => 0)) refusedRun := by
  refine ⟨by decide +kernel, fun h => ?_⟩
  have hsending := h.last.sending
  revert hsending
  decide +kernel

end Uart

end Sdkz.App
