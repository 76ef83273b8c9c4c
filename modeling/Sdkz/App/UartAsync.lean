import Sdkz.App.Uart

/-! # The asynchronous UART transport (lib/app/uart.c)

`_send_async` puts bytes into the ring and, if `tx_done` is available, starts a
transfer; `UART_TX_DONE` releases what was sent and starts the next one. The event
comes between any two accesses of the thread, also between the return of `uart_tx`
and the store of its result: `bytes_send` holds the length of the transfer only up
to that store. -/

namespace Sdkz.App
open Sdkz.Base

/-- Where `_send_async` stands, and what it has not put yet. The last three are
`_tx_from_queue`: the claim, the call of `uart_tx`, the store of its result. -/
inductive AsyncSender where
  | idle
  | put (data : Bytes)
  | take (data : Bytes)
  | claim (data : Bytes)
  | start (data : Bytes) (dataPtr : Nat)
  | store (data : Bytes) (rc : Int)
deriving DecidableEq, Repr

namespace AsyncSender

def rest : AsyncSender → Bytes
  | .idle => []
  | .put data | .take data | .claim data | .start data _ | .store data _ => data

/-- The end of the loop body: done, or again with what is left. -/
def again (data : Bytes) : AsyncSender := if data = [] then .idle else .put data

theorem rest_again (data : Bytes) : (again data).rest = data := by
  unfold again
  split
  · rename_i hnil
    exact hnil.symm
  · rfl

end AsyncSender

structure UartAsync where
  handle : Handle
  bytesSend : Int
  sender : AsyncSender
  /-- the transfer the driver has accepted and not reported done -/
  outstanding : Option Bytes
  /-- a transfer was started while another one was outstanding -/
  overlapped : Bool
  /-- the data of all calls of `_send_async` -/
  passed : Bytes
  /-- what `_send_async` has put into the ring -/
  put : Bytes
  /-- the completed transfers -/
  completed : Bytes

namespace UartAsync

/-- `_init_async`; `malloc` leaves `bytes_send` as it is. -/
def initAsync (txData rxData : Nat → UInt8) (bytesSend : Int) : UartAsync where
  handle := initHandle txData rxData
  bytesSend := bytesSend
  sender := .idle
  outstanding := none
  overlapped := false
  passed := []
  put := []
  completed := []

/-! ## `_tx_from_queue` -/

/-- `h->bytes_send = ring_buf_get_claim(...)`. -/
def claimTx (s : UartAsync) : UartAsync :=
  { s with
    handle := { s.handle with txBuffer := s.handle.txBuffer.getClaim txBufSize }
    bytesSend := s.handle.txBuffer.getClaimed txBufSize }

/-- `uart_tx(dev, data_ptr, h->bytes_send, ...)`, with its result. -/
def uartTx (s : UartAsync) (dataPtr : Nat) (rc : Int) : UartAsync :=
  { s with
    outstanding := if rc = 0 then some (s.handle.txBuffer.bytesAt dataPtr s.bytesSend.toNat)
      else s.outstanding
    overlapped := s.overlapped || s.outstanding.isSome }

def txFromQueue (s : UartAsync) (rc : Int) : UartAsync :=
  let dataPtr := s.handle.txBuffer.getHead
  let s := s.claimTx
  if s.bytesSend > 0 then { s.uartTx dataPtr rc with bytesSend := rc }
  else { s with bytesSend := 0 }

/-- `UART_TX_DONE`; `bytes_send` is passed on as `uint32_t`. -/
def asyncCb (s : UartAsync) (rc : Int) : UartAsync :=
  let ring := s.handle.txBuffer
  let s := { s with
    completed := s.completed ++ s.outstanding.getD []
    outstanding := none
    handle := { s.handle with
      txBuffer := (ring.getFinish (s.bytesSend % 2 ^ 32).toNat).getD ring } }
  let s := s.txFromQueue rc
  if s.bytesSend = 0 then { s with handle := { s.handle with txDone := true } } else s

/-! ## Steps -/

/-- What can happen next; `start` and `done` carry the result of `uart_tx`. -/
inductive Event where
  | send (data : Bytes)
  | put
  | take
  | claim
  | start (rc : Int)
  | store
  | done (rc : Int)

def step (s : UartAsync) : Event → UartAsync
  | .send data => { s with sender := .put data, passed := s.passed ++ data }
  | .put =>
    match s.sender with
    | .put data =>
      let written := s.handle.txBuffer.putCount data.length
      { s with
        handle := { s.handle with txBuffer := s.handle.txBuffer.put data }
        sender := .take (data.drop written)
        put := s.put ++ data.take written }
    | _ => s
  | .take =>
    match s.sender with
    | .take data =>
      if s.handle.txDone then
        { s with handle := { s.handle with txDone := false }, sender := .claim data }
      else { s with sender := .again data }
    | _ => s
  | .claim =>
    match s.sender with
    | .claim data => { s.claimTx with sender := .start data s.handle.txBuffer.getHead }
    | _ => s
  | .start rc =>
    match s.sender with
    | .start data dataPtr =>
      if s.bytesSend > 0 then { s.uartTx dataPtr rc with sender := .store data rc }
      else { s with bytesSend := 0, sender := .again data }
    | _ => s
  | .store =>
    match s.sender with
    | .store data rc => { s with bytesSend := rc, sender := .again data }
    | _ => s
  | .done rc => s.asyncCb rc

/-- A result of `uart_tx`: 0, or an error. -/
def isResult (rc : Int) : Bool := -2 ^ 31 ≤ rc && rc ≤ 0

/-- The events that can come next. The driver accepts a buffer only if no transfer
is outstanding, and reports only such a one. -/
def permits (s : UartAsync) : Event → Bool
  | .send _ => (s.sender matches .idle)
  | .put => (s.sender matches .put _)
  | .take => (s.sender matches .take _)
  | .claim => (s.sender matches .claim _)
  | .start rc => (s.sender matches .start _ _) && isResult rc && (s.outstanding.isNone || rc != 0)
  | .store => (s.sender matches .store _ _)
  | .done rc => s.outstanding.isSome && isResult rc

/-- The steps the defects do not reach: a completion behind completions that have
all released what they completed, and a sender that finds `tx_done` available only
with bytes in the ring and no transfer outstanding. -/
def sound (s : UartAsync) : Event → Bool
  | .take => !s.handle.txDone ||
      (s.outstanding.isNone && s.handle.txBuffer.getTail != s.handle.txBuffer.putTail)
  | .done _ => s.handle.txBuffer.getTail == s.completed.length
  | _ => true

/-- Every byte is sent once and in order, transfer by transfer, and an idle
transport can be started. -/
structure Exact (s : UartAsync) : Prop where
  ordered : s.completed <+: s.passed
  single : s.overlapped = false
  available : s.outstanding = none → s.handle.txBuffer.content = [] → s.handle.txDone = true

/-! ## The invariant -/

/-- All completions so far have released what they completed. -/
def Released (s : UartAsync) : Prop := s.handle.txBuffer.getTail = s.completed.length

/-- The outstanding transfer is a stretch of the stream; as long as everything
completed is released, it is the next one, and `bytes_send` is its length or 0. -/
def Transfer (s : UartAsync) (d : Bytes) : Prop :=
  0 < d.length ∧ ∃ pos, pos + d.length ≤ s.put.length ∧ d = (s.put.drop pos).take d.length ∧
    (s.Released → pos = s.handle.txBuffer.getTail ∧
      s.handle.txBuffer.getTail + d.length ≤ s.handle.txBuffer.getHead ∧
      ((s.bytesSend = d.length ∧ s.handle.txDone = false) ∨ s.bytesSend = 0))

/-- A stretch of the stream as a transfer. -/
theorem transfer_at {s : UartAsync} {pos n : Nat} (hpos : 0 < n) (hend : pos + n ≤ s.put.length)
    (hnext : s.Released → pos = s.handle.txBuffer.getTail ∧
      s.handle.txBuffer.getTail + n ≤ s.handle.txBuffer.getHead ∧
      ((s.bytesSend = n ∧ s.handle.txDone = false) ∨ s.bytesSend = 0)) :
    s.Transfer ((s.put.drop pos).take n) := by
  have hlen : ((s.put.drop pos).take n).length = n := by
    rw [List.length_take, List.length_drop]
    omega
  unfold Transfer
  rw [hlen]
  exact ⟨hpos, pos, hend, rfl, hnext⟩

/-- The thread inside `_tx_from_queue`. -/
def Starting (s : UartAsync) : AsyncSender → Prop
  | .claim _ => s.outstanding = none ∧ s.handle.txDone = false ∧
      s.handle.txBuffer.getTail < s.handle.txBuffer.putTail ∧
      (s.Released → s.handle.txBuffer.getHead = s.handle.txBuffer.getTail)
  | .start _ dataPtr => s.outstanding = none ∧ s.handle.txDone = false ∧
      s.handle.txBuffer.getTail < s.handle.txBuffer.putTail ∧
      (dataPtr : Int) + s.bytesSend = s.handle.txBuffer.getHead ∧ 0 ≤ s.bytesSend ∧
      s.handle.txBuffer.getTail ≤ dataPtr ∧
      (s.Released → dataPtr = s.handle.txBuffer.getTail)
  | .store _ rc => rc = 0 ∨ s.outstanding = none
  | _ => True

theorem starting_again (s : UartAsync) (data : Bytes) : s.Starting (.again data) := by
  unfold AsyncSender.again
  split <;> trivial

structure Inv (s : UartAsync) : Prop where
  holds : s.handle.txBuffer.Holds s.put
  putHead : s.handle.txBuffer.putHead = s.handle.txBuffer.putTail
  calls : s.put ++ s.sender.rest = s.passed
  completed : s.completed <+: s.put
  released : s.handle.txBuffer.getTail ≤ s.completed.length
  single : s.overlapped = false
  transfer : ∀ d, s.outstanding = some d → s.Transfer d
  starting : s.Starting s.sender
  ready : s.handle.txDone = true → s.outstanding = none → s.Released →
    s.handle.txBuffer.getHead = s.handle.txBuffer.getTail
  available : s.outstanding = none → s.handle.txBuffer.getTail = s.handle.txBuffer.putTail →
    s.handle.txDone = true

theorem Inv.exact {s : UartAsync} (I : s.Inv) : s.Exact where
  ordered := I.completed.trans ⟨_, I.calls⟩
  single := I.single
  available hnone hempty := by
    refine I.available hnone ?_
    have hlen := I.holds.length
    have hreleased := I.holds.released
    rw [I.holds.content, List.drop_eq_nil_iff] at hempty
    omega

theorem initAsync_inv (txData rxData : Nat → UInt8) (bytesSend : Int) :
    (initAsync txData rxData bytesSend).Inv where
  holds := Ring.init_holds txData
  putHead := rfl
  calls := rfl
  completed := List.prefix_refl _
  released := Nat.le_refl 0
  single := rfl
  transfer := fun d h => by cases h
  starting := trivial
  ready := fun _ _ _ => rfl
  available := fun _ _ => rfl

/-! ## The steps of the thread -/

section Thread
variable {s : UartAsync}

theorem Inv.send (I : s.Inv) {data : Bytes} (h : s.sender = .idle) :
    (s.step (.send data)).Inv := by
  have hcalls := I.calls
  rw [h, AsyncSender.rest, List.append_nil] at hcalls
  exact { I with calls := congrArg (· ++ data) hcalls, starting := trivial }

/-- More bytes in the ring leave the outstanding transfer what it is. -/
theorem Inv.put (I : s.Inv) {data : Bytes} (h : s.sender = .put data) : (s.step .put).Inv := by
  have hcalls := I.calls
  rw [h, AsyncSender.rest] at hcalls
  have hle := Nat.le_trans s.handle.txBuffer.getTail_le s.handle.txBuffer.getHead_le
  unfold step
  rw [h]
  refine { I with
    holds := I.holds.put I.putHead data
    putHead := rfl
    calls := ?_
    completed := I.completed.trans (List.prefix_append _ _)
    transfer := fun d hd => ?_
    starting := trivial
    ready := I.ready
    available := fun hnone hempty => ?_ }
  · show (s.put ++ _) ++ data.drop _ = s.passed
    rw [List.append_assoc, List.take_append_drop, hcalls]
  · obtain ⟨hpos, pos, hend, hbytes, hnext⟩ := I.transfer d hd
    refine ⟨hpos, pos, ?_, ?_, hnext⟩
    · rw [List.length_append]
      exact Nat.le_trans hend (Nat.le_add_right _ _)
    · rw [List.drop_append_of_le_length (by omega), List.take_append_of_le_length (by
        rw [List.length_drop]
        omega)]
      exact hbytes
  · refine I.available hnone ?_
    have hempty : s.handle.txBuffer.getTail = s.handle.txBuffer.putTail +
      s.handle.txBuffer.putCount data.length := hempty
    omega

theorem Inv.take (I : s.Inv) {data : Bytes} (h : s.sender = .take data) (hsound : s.sound .take) :
    (s.step .take).Inv := by
  have hcalls := I.calls
  rw [h, AsyncSender.rest] at hcalls
  have hle := Nat.le_trans s.handle.txBuffer.getTail_le s.handle.txBuffer.getHead_le
  unfold step
  rw [h]
  by_cases hdone : s.handle.txDone = true
  · simp only [hdone, if_true]
    have hfree : s.outstanding = none ∧
        s.handle.txBuffer.getTail ≠ s.handle.txBuffer.putTail := by
      simpa [sound, hdone] using hsound
    refine { I with
      calls := hcalls
      transfer := fun d hd => absurd (hfree.1.symm.trans hd) (by simp)
      starting := ⟨hfree.1, rfl, Nat.lt_of_le_of_ne hle hfree.2, I.ready hdone hfree.1⟩
      ready := fun hfalse => by cases hfalse
      available := fun _ hempty => absurd hempty hfree.2 }
  · simp only [hdone, if_false, Bool.false_eq_true]
    refine { I with calls := ?_, starting := ?_ }
    · rw [AsyncSender.rest_again]
      exact hcalls
    · exact starting_again _ data

theorem Inv.claim (I : s.Inv) {data : Bytes} (h : s.sender = .claim data) :
    (s.step .claim).Inv := by
  have hcalls := I.calls
  have hstarting := I.starting
  rw [h] at hcalls hstarting
  obtain ⟨hnone, hdone, hmore, hhead⟩ := hstarting
  unfold step
  rw [h]
  refine { I with
    holds := I.holds.move rfl rfl (Nat.le_refl _)
    calls := hcalls
    transfer := fun d hd => absurd (hnone.symm.trans hd) (by simp)
    starting := ⟨hnone, hdone, hmore, ?_, Int.natCast_nonneg _, s.handle.txBuffer.getTail_le, hhead⟩
    ready := fun htrue => absurd (hdone.symm.trans htrue) (by decide)
    available := fun _ hempty => absurd hempty (Nat.ne_of_lt hmore) }
  exact (Int.natCast_add _ _).symm

/-- A transfer that was started carries what comes at the claimed position. -/
theorem Inv.start (I : s.Inv) {data : Bytes} {dataPtr : Nat} {rc : Int}
    (h : s.sender = .start data dataPtr) : (s.step (.start rc)).Inv := by
  have hcalls := I.calls
  have hstarting := I.starting
  rw [h] at hcalls hstarting
  obtain ⟨hnone, hdone, hmore, hclaim, -, hptr, hnext⟩ := hstarting
  have hlen := I.holds.length
  have hlast := s.handle.txBuffer.getHead_le
  unfold step
  rw [h]
  by_cases hpos : s.bytesSend > 0
  · simp only [hpos, if_true]
    have hbytes := I.holds.bytesAt hptr (n := s.bytesSend.toNat) (by omega)
    refine { I with
      calls := hcalls
      single := ?_
      transfer := fun d hd => ?_
      starting := ?_
      ready := fun htrue => absurd (hdone.symm.trans htrue) (by decide)
      available := fun _ hempty => absurd hempty (Nat.ne_of_lt hmore) }
    · simp only [uartTx, hnone, I.single]
      rfl
    · simp only [uartTx, hbytes] at hd
      split at hd
      · obtain rfl := Option.some.inj hd
        refine transfer_at (by omega) (show dataPtr + _ ≤ s.put.length by omega) fun hreleased => ?_
        have hnext := hnext hreleased
        refine ⟨hnext, ?_, .inl ⟨?_, hdone⟩⟩
        · show s.handle.txBuffer.getTail + _ ≤ s.handle.txBuffer.getHead
          omega
        · show s.bytesSend = _
          omega
      · exact absurd (hnone.symm.trans hd) (by simp)
    · by_cases hrc : rc = 0
      · exact .inl hrc
      · refine .inr ?_
        simp only [uartTx, if_neg hrc]
        exact hnone
  · simp only [hpos, if_false]
    refine { I with
      calls := ?_
      transfer := fun d hd => absurd (hnone.symm.trans hd) (by simp)
      starting := ?_ }
    · rw [AsyncSender.rest_again]
      exact hcalls
    · exact starting_again _ data

/-- A result other than 0 is stored when no transfer is outstanding. -/
theorem Inv.store (I : s.Inv) {data : Bytes} {rc : Int} (h : s.sender = .store data rc) :
    (s.step .store).Inv := by
  have hcalls := I.calls
  have hstarting := I.starting
  rw [h] at hcalls hstarting
  unfold step
  rw [h]
  refine { I with
    calls := ?_
    transfer := fun d hd => ?_
    starting := ?_ }
  · rw [AsyncSender.rest_again]
    exact hcalls
  · have hrc : rc = 0 := hstarting.resolve_right fun hnone =>
      absurd (hnone.symm.trans hd) (by simp)
    obtain ⟨hpos, pos, hend, hbytes, hnext⟩ := I.transfer d hd
    refine ⟨hpos, pos, hend, hbytes, fun hreleased => ?_⟩
    obtain ⟨hat, hheld, -⟩ := hnext hreleased
    exact ⟨hat, hheld, .inr hrc⟩
  · exact starting_again _ data

end Thread

/-! ## The completion of a transfer -/

/-- A thread that can be interrupted by `UART_TX_DONE` is not between the claim and
the call of `uart_tx`. -/
def Interrupted : AsyncSender → Prop
  | .claim _ | .start _ _ => False
  | .store _ rc => rc = 0
  | _ => True

/-- The state inside `UART_TX_DONE`, between the release and the restart. -/
structure Stopped (s : UartAsync) : Prop where
  holds : s.handle.txBuffer.Holds s.put
  putHead : s.handle.txBuffer.putHead = s.handle.txBuffer.putTail
  calls : s.put ++ s.sender.rest = s.passed
  completed : s.completed <+: s.put
  released : s.handle.txBuffer.getTail ≤ s.completed.length
  single : s.overlapped = false
  sender : Interrupted s.sender
  stopped : s.outstanding = none
  head : s.handle.txBuffer.getHead = s.handle.txBuffer.getTail
  taken : s.Released → s.handle.txDone = false

theorem Interrupted.starting {p : AsyncSender} (h : Interrupted p) (s : UartAsync) :
    s.Starting p := by
  cases p with
  | claim data => exact h.elim
  | start data dataPtr => exact h.elim
  | store data rc => exact .inl h
  | _ => trivial

/-- The restart leaves the streams and the thread alone. -/
theorem Stopped.inv {s t : UartAsync} (h : s.Stopped)
    (hring : t.handle.txBuffer = s.handle.txBuffer.getClaim txBufSize) (hput : t.put = s.put)
    (hpassed : t.passed = s.passed) (hsender : t.sender = s.sender)
    (hcompleted : t.completed = s.completed) (hsingle : t.overlapped = false)
    (htransfer : ∀ d, t.outstanding = some d → t.Transfer d)
    (hready : t.handle.txDone = true → t.outstanding = none → t.Released →
      t.handle.txBuffer.getHead = t.handle.txBuffer.getTail)
    (havailable : t.outstanding = none → t.handle.txBuffer.getTail = t.handle.txBuffer.putTail →
      t.handle.txDone = true) : t.Inv where
  holds := by
    rw [hring, hput]
    exact h.holds.move rfl rfl (Nat.le_refl _)
  putHead := by
    rw [hring]
    exact h.putHead
  calls := by
    rw [hput, hsender, hpassed]
    exact h.calls
  completed := by
    rw [hcompleted, hput]
    exact h.completed
  released := by
    rw [hring, hcompleted]
    exact h.released
  single := hsingle
  transfer := htransfer
  starting := by
    rw [hsender]
    exact h.sender.starting t
  ready := hready
  available := havailable

/-- The restart finds nothing, or is accepted, or is refused. -/
theorem Stopped.restart {s : UartAsync} (h : s.Stopped) (rc : Int) :
    (let s := s.txFromQueue rc
      if s.bytesSend = 0 then { s with handle := { s.handle with txDone := true } } else s).Inv := by
  have hlen := h.holds.length
  have hclaimed := Ring.getClaimed_pos (r := s.handle.txBuffer) (n := txBufSize) (by decide)
    (by decide)
  have hcount := s.handle.txBuffer.getClaimed_le txBufSize
  have hlast := s.handle.txBuffer.getHead_le
  have hhead := h.head
  unfold Ring.sizeGet at hclaimed hcount
  by_cases hnothing : s.handle.txBuffer.getClaimed txBufSize = 0
  · have hqueue : s.txFromQueue rc = { s.claimTx with bytesSend := 0 } := by
      have hzero : ¬ s.claimTx.bytesSend > 0 := by
        show ¬ ((s.handle.txBuffer.getClaimed txBufSize : Int) > 0)
        omega
      simp only [txFromQueue, if_neg hzero]
    simp only [hqueue, if_true]
    refine h.inv rfl rfl rfl rfl rfl h.single (fun d hd => ?_) (fun _ _ _ => ?_) fun _ _ => rfl
    · exact absurd (h.stopped.symm.trans hd) (by simp)
    · show s.handle.txBuffer.getHead + _ = s.handle.txBuffer.getTail
      omega
  · have hpos : s.claimTx.bytesSend > 0 := by
      show (s.handle.txBuffer.getClaimed txBufSize : Int) > 0
      omega
    have hqueue : s.txFromQueue rc = { s.claimTx.uartTx s.handle.txBuffer.getHead rc with
        bytesSend := rc } := by
      simp only [txFromQueue, if_pos hpos]
    have hsingle : (s.claimTx.uartTx s.handle.txBuffer.getHead rc).overlapped = false := by
      simp only [uartTx, claimTx, h.stopped, h.single]
      rfl
    rw [hqueue]
    simp only
    by_cases hrc : rc = 0
    · rw [if_pos hrc]
      refine h.inv rfl rfl rfl rfl rfl hsingle (fun d hd => ?_) (fun _ hnone => ?_) fun _ _ => rfl
      · have hmoved : (s.handle.txBuffer.getClaim txBufSize).Holds s.put :=
          h.holds.move rfl rfl (Nat.le_refl _)
        have hbytes := hmoved.bytesAt (n := s.handle.txBuffer.getClaimed txBufSize)
          s.handle.txBuffer.getTail_le (by omega)
        have htaken : s.claimTx.handle.txBuffer.bytesAt s.handle.txBuffer.getHead
            s.claimTx.bytesSend.toNat = (s.put.drop s.handle.txBuffer.getHead).take
              (s.handle.txBuffer.getClaimed txBufSize) := hbytes
        simp only [uartTx, if_pos hrc] at hd
        obtain rfl := Option.some.inj hd
        rw [htaken]
        refine transfer_at (by omega) (show _ + _ ≤ s.put.length by omega) fun _ =>
          ⟨hhead, ?_, .inr hrc⟩
        show s.handle.txBuffer.getTail + _ ≤ s.handle.txBuffer.getHead +
          s.handle.txBuffer.getClaimed txBufSize
        omega
      · simp only [uartTx, if_pos hrc] at hnone
        cases hnone
    · rw [if_neg hrc]
      have hnone : (s.claimTx.uartTx s.handle.txBuffer.getHead rc).outstanding = none := by
        simp only [uartTx, if_neg hrc]
        exact h.stopped
      refine h.inv rfl rfl rfl rfl rfl hsingle (fun d hd => ?_) (fun htrue _ hreleased => ?_)
        fun _ hempty => ?_
      · exact absurd (hnone.symm.trans hd) (by simp)
      · exact absurd ((h.taken hreleased).symm.trans htrue) (by decide)
      · have hempty : s.handle.txBuffer.getTail = s.handle.txBuffer.putTail := hempty
        omega

theorem Inv.done {s : UartAsync} (I : s.Inv) {rc : Int} (hperm : s.permits (.done rc))
    (hsound : s.sound (.done rc)) : (s.step (.done rc)).Inv := by
  obtain ⟨houtstanding, -⟩ := Bool.and_eq_true_iff.mp hperm
  obtain ⟨d, hd⟩ := Option.isSome_iff_exists.mp houtstanding
  have hreleased : s.Released := by simpa [sound, Released] using hsound
  obtain ⟨hpos, pos, hend, hbytes, hnext⟩ := I.transfer d hd
  obtain ⟨rfl, hheld, hcount⟩ := hnext hreleased
  -- `bytes_send` is the length of the transfer, or it was overwritten with 0
  have hle : s.handle.txBuffer.getHead ≤ s.handle.txBuffer.getTail + txBufSize :=
    Nat.le_trans (Nat.le_trans s.handle.txBuffer.getHead_le s.handle.txBuffer.putTail_le)
      s.handle.txBuffer.putHead_le
  have hsize : txBufSize = 512 := rfl
  have hfinish : ((s.bytesSend % 2 ^ 32).toNat = d.length ∧ s.handle.txDone = false) ∨
      (s.bytesSend % 2 ^ 32).toNat = 0 := by
    rcases hcount with ⟨hcount, hdone⟩ | hcount
    · exact .inl ⟨by omega, hdone⟩
    · exact .inr (by omega)
  obtain ⟨ring, hring⟩ : ∃ ring,
      s.handle.txBuffer.getFinish (s.bytesSend % 2 ^ 32).toNat = some ring :=
    Ring.exists_getFinish (by omega)
  obtain ⟨-, hbuffer, hputHead, hputTail, hgetHead, hgetTail⟩ := Ring.getFinish_some hring
  have hsender : Interrupted s.sender := by
    have hstarting := I.starting
    cases hs : s.sender with
    | claim data =>
      rw [hs] at hstarting
      exact absurd (hstarting.1.symm.trans hd) (by simp)
    | start data dataPtr =>
      rw [hs] at hstarting
      exact absurd (hstarting.1.symm.trans hd) (by simp)
    | store data rc =>
      rw [hs] at hstarting
      exact hstarting.resolve_right fun hnone => absurd (hnone.symm.trans hd) (by simp)
    | _ => trivial
  have hall : s.completed = s.put.take s.handle.txBuffer.getTail := by
    rw [hreleased]
    exact (List.prefix_iff_eq_take.mp I.completed)
  unfold step asyncCb
  simp only [hring, Option.getD_some, hd]
  refine Stopped.restart ?_ rc
  exact
    { holds := I.holds.getFinish hring
      putHead := hputHead.trans (I.putHead.trans hputTail.symm)
      calls := I.calls
      completed := by
        show s.completed ++ d <+: s.put
        rw [hbytes, hall, ← List.take_add]
        exact List.take_prefix _ _
      released := by
        show ring.getTail ≤ (s.completed ++ d).length
        rw [hgetTail, List.length_append, ← hreleased]
        omega
      single := I.single
      sender := hsender
      stopped := rfl
      head := hgetHead.trans hgetTail.symm
      taken := fun h => by
        have h : ring.getTail = (s.completed ++ d).length := h
        rw [hgetTail, List.length_append, ← hreleased] at h
        rcases hfinish with ⟨-, hdone⟩ | hzero
        · exact hdone
        · omega }

/-! ## Runs -/

theorem Inv.step {s : UartAsync} (I : s.Inv) {e : Event} (hperm : s.permits e)
    (hsound : s.sound e) : (s.step e).Inv := by
  cases e with
  | send data => exact I.send (by cases hs : s.sender <;> simp_all [permits])
  | put =>
    cases hs : s.sender with
    | put data => exact I.put hs
    | _ => simp [permits, hs] at hperm
  | take =>
    cases hs : s.sender with
    | take data => exact I.take hs hsound
    | _ => simp [permits, hs] at hperm
  | claim =>
    cases hs : s.sender with
    | claim data => exact I.claim hs
    | _ => simp [permits, hs] at hperm
  | start rc =>
    cases hs : s.sender with
    | start data dataPtr => exact I.start hs
    | _ => simp [permits, hs] at hperm
  | store =>
    cases hs : s.sender with
    | store data rc => exact I.store hs
    | _ => simp [permits, hs] at hperm
  | done rc => exact I.done hperm hsound

/-- **The transport is exact** in every run in which the defects are not reached. -/
theorem async_always_exact (txData rxData : Nat → UInt8) (bytesSend : Int) {l : List Event}
    (hperm : Guarded step (fun s e => s.permits e) (initAsync txData rxData bytesSend) l)
    (hsound : Guarded step (fun s e => s.sound e) (initAsync txData rxData bytesSend) l) :
    Always step Exact (initAsync txData rxData bytesSend) l := by
  have hboth : Guarded step (fun s e => s.permits e ∧ s.sound e)
      (initAsync txData rxData bytesSend) l := fun p e hp => ⟨hperm p e hp, hsound p e hp⟩
  have hinv := hboth.always (I := Inv) (fun s e I h => I.step h.1 h.2)
    (initAsync_inv txData rxData bytesSend)
  exact fun p hp => (hinv p hp).exact

/-- Two calls whose transfers are reported done before `uart_tx` has returned. -/
theorem prompt_run_exact : Always step Exact (initAsync (fun _ => 0) (fun _ => 0) 0)
    [.send [1, 2], .put, .take, .claim, .start 0, .done 0, .store, .send [3], .put, .take, .claim,
      .start 0, .done 0, .store] :=
  async_always_exact (fun _ => 0) (fun _ => 0) 0 (by decide +kernel) (by decide +kernel)

/-- Two bytes are sent, and reported done twice: the result 0 of `uart_tx` was
stored over their number, so nothing was released and they were sent again. -/
def repeatedRun : List Event :=
  [.send [1, 2], .put, .take, .claim, .start 0, .store, .done 0, .done 0]

/-- **A transfer that is reported done after `uart_tx` has returned is sent again.** -/
theorem transfer_sent_again :
    Guarded step (fun s e => s.permits e) (initAsync (fun _ => 0) (fun _ => 0) 0) repeatedRun ∧
      ¬ Always step Exact (initAsync (fun _ => 0) (fun _ => 0) 0) repeatedRun := by
  refine ⟨by decide +kernel, fun h => ?_⟩
  have hordered := h.last.ordered
  revert hordered
  decide +kernel

end UartAsync

end Sdkz.App
