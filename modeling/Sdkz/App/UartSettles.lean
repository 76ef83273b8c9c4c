import Sdkz.App.UartIrq
import Sdkz.App.UartServer

/-! # The server comes to rest

Once nothing more is delivered, every step of the thread and every turn of the handler that
sends, or switches sending off, leaves less to do. So after a bounded number of steps none is
left, whatever their order; the parser has then seen all that was delivered, and the
hardware has taken all that it answered. -/

namespace Sdkz.App
open Sdkz.Base Sdkz.Hu

/-! ## What is left to do in the transport -/

def Sender.weight : Sender → Nat
  | .idle => 0
  | .put _ => 3
  | .enable _ => 2
  | .wait _ => 0

def Receiver.weight : Receiver → Nat
  | .idle => 2
  | .get _ => 1
  | .wait _ => 0

namespace Uart

/-- What is put and not released in the receive ring. -/
def rxHeld (s : Uart) : Nat := s.handle.rxBuffer.putTail - s.handle.rxBuffer.getTail

/-- A byte may be sent in a turn of its own, which wakes the thread up for one round more. -/
def txRank (s : Uart) : Nat :=
  5 * (s.sender.rest.length + s.txHeld) + s.sender.weight + 4 * s.handle.txDone.toNat +
    s.txIrq.toNat

/-- A byte may be returned by a call of its own. -/
def rxRank (s : Uart) : Nat :=
  3 * s.rxHeld + 2 * s.handle.rxDone.toNat + s.receiver.weight

/-- The events that deliver nothing; a turn of the handler is a step if sending is enabled and
the driver says that it is ready. -/
def idleInput (s : Uart) : Event → Bool
  | .turn rx tx => rx.isNone && tx.isSome && s.txIrq
  | _ => true

/-! ## One step inside the transport -/

/-- A turn that sends leaves less to send, and gives the semaphore once for it. -/
theorem Wakes.txTurn_lowers {s : Uart} (W : s.Wakes) {sent : Int}
    (hoffered : s.fillOffered (some sent)) (hmoves : s.moves (.turn none (some sent)))
    (hirq : s.txIrq = true) : (s.txTurn sent).txRank < s.txRank := by
  have hget := W.txGet
  have hput := s.handle.txBuffer.getHead_le
  unfold Uart.txTurn
  simp only
  split
  · rename_i hclaimed
    have hsent : sent > 0 := by
      have hsome : s.handle.txBuffer.getClaimed txBufSize ≠ 0 := Nat.ne_of_gt hclaimed
      simpa [moves, hsome] using hmoves
    have hle : sent.toNat ≤ s.handle.txBuffer.getClaimed txBufSize := by
      have : sent ≤ s.handle.txBuffer.getClaimed txBufSize := by
        simpa [fillOffered] using hoffered
      omega
    have hheld := s.handle.txBuffer.getClaimed_le txBufSize
    unfold Ring.sizeGet at hheld
    obtain ⟨ring, hring⟩ : ∃ ring,
        (s.handle.txBuffer.getClaim txBufSize).getFinish sent.toNat = some ring := by
      refine Ring.exists_getFinish ?_
      show sent.toNat ≤ s.handle.txBuffer.getHead +
        s.handle.txBuffer.getClaimed txBufSize - s.handle.txBuffer.getTail
      omega
    obtain ⟨-, -, -, hputTail, -, hgetTail⟩ := Ring.getFinish_some hring
    have hputTail : ring.putTail = s.handle.txBuffer.putTail := hputTail
    have hgetTail : ring.getTail = s.handle.txBuffer.getTail + sent.toNat := hgetTail
    have hgiven := Bool.toNat_le s.handle.txDone
    rw [if_pos hsent, hring, Option.getD_some]
    simp only [txRank, txHeld, hputTail, hgetTail, Bool.toNat_true]
    omega
  · rename_i hclaimed
    have hnothing := mt (Ring.getClaimed_pos (r := s.handle.txBuffer) (n := txBufSize)
      (by decide) (by decide)).mpr hclaimed
    have hempty : (s.handle.txBuffer.getClaim txBufSize).isEmpty = true := by
      unfold Ring.sizeGet at hnothing
      rw [Ring.isEmpty, Ring.getClaim_getHead, beq_iff_eq]
      show s.handle.txBuffer.getHead + _ = s.handle.txBuffer.putTail
      omega
    rw [if_pos hempty]
    simp only [txRank, txHeld, Ring.getClaim, hirq, Bool.toNat_true, Bool.toNat_false]
    omega

/-- The steps of the sending thread leave less to send. -/
theorem Wakes.sending_lowers {s : Uart} (W : s.Wakes) :
    (s.permits .put → (s.step .put).txRank < s.txRank) ∧
      (s.permits .enable → (s.step .enable).txRank < s.txRank) ∧
      (s.permits .takeTx → (s.step .takeTx).txRank < s.txRank) := by
  have hput := W.txPut
  have hget := Nat.le_trans s.handle.txBuffer.getTail_le s.handle.txBuffer.getHead_le
  refine ⟨fun h => ?_, fun h => ?_, fun h => ?_⟩
  · cases hsender : s.sender with
    | put data =>
      have hcount : s.handle.txBuffer.putCount data.length ≤ data.length := Nat.min_le_left _ _
      unfold Uart.step
      simp only [hsender, txRank, txHeld, Ring.put, Sender.rest, Sender.weight, List.length_drop]
      omega
    | _ => simp [permits, hsender] at h
  · cases hsender : s.sender with
    | enable data =>
      have hirq := Bool.toNat_le s.txIrq
      unfold Uart.step
      by_cases hnil : data = []
      · simp only [hsender, hnil, txRank, txHeld, Sender.rest, Sender.weight, if_true,
          Bool.toNat_true]
        omega
      · simp only [hsender, hnil, txRank, txHeld, Sender.rest, Sender.weight, if_false,
          Bool.toNat_true]
        omega
    | _ => simp [permits, hsender] at h
  · cases hsender : s.sender with
    | wait data =>
      have hdone : s.handle.txDone = true := by simpa [permits, hsender] using h
      unfold Uart.step
      simp only [hsender, hdone, txRank, txHeld, Sender.rest, Sender.weight,
        Bool.toNat_true, Bool.toNat_false]
      omega
    | _ => simp [permits, hsender] at h

/-- The steps of the receiving thread leave less to receive, with what they return. -/
theorem Wakes.receiving_lowers {s : Uart} (W : s.Wakes) :
    (s.permits .get → (s.step .get).rxRank + (UartServer.received s .get).length < s.rxRank) ∧
      (s.permits .takeRx → (s.step .takeRx).rxRank < s.rxRank) := by
  have hget := W.rxGet
  have hput := s.handle.rxBuffer.getHead_le
  refine ⟨fun h => ?_, fun h => ?_⟩
  · cases hreceiver : s.receiver with
    | get len =>
      have hgot : (s.handle.rxBuffer.got len).length = s.handle.rxBuffer.getCount len := by
        simp [Ring.got, Ring.bytesAt]
      have hcount : s.handle.rxBuffer.getCount len ≤ s.handle.rxBuffer.sizeGet := Nat.min_le_right _ _
      unfold Ring.sizeGet at hcount
      unfold Uart.step
      by_cases hnone : s.handle.rxBuffer.getCount len = 0
      · simp only [UartServer.received, hreceiver, hgot, rxRank, rxHeld, Ring.get,
          Receiver.weight, hnone, if_true]
        omega
      · simp only [UartServer.received, hreceiver, hgot, rxRank, rxHeld, Ring.get,
          Receiver.weight, hnone, if_false]
        omega
    | _ => simp [permits, hreceiver] at h
  · cases hreceiver : s.receiver with
    | wait len =>
      have hdone : s.handle.rxDone = true := by simpa [permits, hreceiver] using h
      unfold Uart.step
      simp only [hreceiver, hdone, rxRank, rxHeld, Receiver.weight, Bool.toNat_true,
        Bool.toNat_false]
      omega
    | _ => simp [permits, hreceiver] at h

/-- A driver that moves something whenever it can leaves no claim open. -/
theorem Wakes.settled {s : Uart} (W : s.Wakes) (e : Event) : s.settled e := by
  cases e with
  | turn rx tx =>
    have hput := W.rxPut
    have hget := W.txGet
    simp only [Uart.settled, hput, hget, beq_self_eq_true, Bool.or_true, Bool.and_eq_true]
    refine ⟨?_, ?_⟩
    · cases rx with
      | none => rfl
      | some read => cases read <;> rfl
    · cases tx <;> rfl
  | _ => rfl

/-- The sending direction is enabled as long as there is something to send, except between a
put and what follows it. -/
def Enabled (s : Uart) : Prop :=
  (∀ data, s.sender ≠ .enable data) → s.handle.txBuffer.getTail < s.handle.txBuffer.putTail →
    s.txIrq = true

theorem Enabled.txTurn {s : Uart} (E : s.Enabled)
    (hget : s.handle.txBuffer.getHead = s.handle.txBuffer.getTail) (sent : Int) :
    (s.txTurn sent).Enabled := by
  have hclaim : (s.handle.txBuffer.getClaim txBufSize).getTail = s.handle.txBuffer.getTail ∧
      (s.handle.txBuffer.getClaim txBufSize).putTail = s.handle.txBuffer.putTail := ⟨rfl, rfl⟩
  unfold Uart.txTurn
  simp only
  split
  · split
    · intro hsender hheld
      refine E hsender ?_
      simp only at hheld
      cases hring : (s.handle.txBuffer.getClaim txBufSize).getFinish sent.toNat with
      | none =>
        rw [hring, Option.getD_none] at hheld
        exact hheld
      | some ring =>
        obtain ⟨-, -, -, hputTail, -, hgetTail⟩ := Ring.getFinish_some hring
        rw [hring, Option.getD_some] at hheld
        omega
    · exact E
  · rename_i hclaimed
    split
    · rename_i hempty
      intro _ hheld
      have hempty : s.handle.txBuffer.getHead + s.handle.txBuffer.getClaimed txBufSize =
          s.handle.txBuffer.putTail := by
        simpa [Ring.isEmpty, Ring.getClaim] using hempty
      have hheld : s.handle.txBuffer.getTail < s.handle.txBuffer.putTail := hheld
      omega
    · exact E

theorem Enabled.step {s : Uart} (E : s.Enabled) (W : s.Wakes) {e : Event} (hperm : s.permits e) :
    (s.step e).Enabled := by
  unfold Uart.step
  cases e with
  | send data =>
    intro _ hheld
    refine E (fun rest h => ?_) hheld
    simp [permits, h] at hperm
  | put =>
    cases hsender : s.sender with
    | put data => exact fun hnone => absurd rfl (hnone _)
    | _ => simpa only [hsender] using E
  | enable =>
    cases hsender : s.sender with
    | enable data => exact fun _ _ => rfl
    | _ => simpa only [hsender] using E
  | takeTx =>
    cases hsender : s.sender with
    | wait data =>
      intro _ hheld
      refine E (fun rest h => ?_) hheld
      rw [hsender] at h
      cases h
    | _ => simpa only [hsender] using E
  | recv len => exact E
  | get => cases s.receiver <;> exact E
  | takeRx => cases s.receiver <;> exact E
  | turn rx tx =>
    have hrest : ∀ s' : Uart, s'.handle.txBuffer = s.handle.txBuffer → s'.sender = s.sender →
        s'.txIrq = s.txIrq → (s'.turn none tx).Enabled := by
      intro s' hring hsender hirq
      have E' : s'.Enabled := by
        unfold Enabled
        rw [hring, hsender, hirq]
        exact E
      cases tx with
      | none => exact E'
      | some sent => exact E'.txTurn (by rw [hring, W.txGet]) sent
    cases rx with
    | none => exact hrest s rfl rfl rfl
    | some read =>
      refine hrest (s.rxTurn read) (s.rxTurn_txBuffer read) (UartServer.rxTurn_threads s read).sender ?_
      unfold Uart.rxTurn
      cases read with
      | error rc => rfl
      | ok rx =>
        simp only
        split
        · split <;> rfl
        · rfl

/-- The sending thread leaves the receiving direction alone. -/
theorem sender_apart (s : Uart) {e : Event} (h : e = .put ∨ e = .enable ∨ e = .takeTx) :
    (s.step e).rxRank = s.rxRank ∧ (s.step e).delivered = s.delivered ∧
      UartServer.received s e = [] := by
  unfold Uart.step
  rcases h with rfl | rfl | rfl
  · cases s.sender <;> exact ⟨rfl, rfl, rfl⟩
  · cases s.sender <;> exact ⟨rfl, rfl, rfl⟩
  · cases s.sender <;> exact ⟨rfl, rfl, rfl⟩

/-- The receiving thread leaves the sending direction alone. -/
theorem receiver_apart (s : Uart) {e : Event} (h : e = .get ∨ e = .takeRx) :
    (s.step e).txRank = s.txRank ∧ (s.step e).delivered = s.delivered := by
  unfold Uart.step
  rcases h with rfl | rfl
  · cases s.receiver <;> exact ⟨rfl, rfl⟩
  · cases s.receiver <;> exact ⟨rfl, rfl⟩

/-- What is left to do in the transport, with what a step returns. -/
theorem Wakes.step_lowers {s : Uart} (W : s.Wakes) {e : Event} (hperm : s.permits e)
    (hmoves : s.moves e) (hidle : s.idleInput e) (hsend : ∀ data, e ≠ .send data) :
    (s.step e).txRank + (s.step e).rxRank + (UartServer.received s e).length <
        s.txRank + s.rxRank ∧ (s.step e).delivered = s.delivered := by
  obtain ⟨hput, henable, htake⟩ := W.sending_lowers
  obtain ⟨hget, hwake⟩ := W.receiving_lowers
  have hsender : e = .put ∨ e = .enable ∨ e = .takeTx → (s.step e).txRank < s.txRank →
      (s.step e).txRank + (s.step e).rxRank + (UartServer.received s e).length <
        s.txRank + s.rxRank ∧ (s.step e).delivered = s.delivered := by
    intro he hlower
    obtain ⟨hrx, hdelivered, hnil⟩ := s.sender_apart he
    rw [hrx, hnil, List.length_nil]
    exact ⟨by omega, hdelivered⟩
  cases e with
  | send data => exact absurd rfl (hsend data)
  | put => exact hsender (.inl rfl) (hput hperm)
  | enable => exact hsender (.inr (.inl rfl)) (henable hperm)
  | takeTx => exact hsender (.inr (.inr rfl)) (htake hperm)
  | recv len =>
    have hreceiver : s.receiver = .idle := by
      cases hreceiver : s.receiver <;> simp_all [permits]
    have hrx : (s.step (.recv len)).rxRank + 1 = s.rxRank := by
      simp only [rxRank, hreceiver, Receiver.weight]
      rfl
    refine ⟨?_, rfl⟩
    show s.txRank + (s.step (.recv len)).rxRank + 0 < s.txRank + s.rxRank
    omega
  | get =>
    obtain ⟨htx, hdelivered⟩ := s.receiver_apart (.inl rfl)
    have hlower := hget hperm
    rw [htx]
    exact ⟨by omega, hdelivered⟩
  | takeRx =>
    obtain ⟨htx, hdelivered⟩ := s.receiver_apart (.inr rfl)
    have hlower := hwake hperm
    refine ⟨?_, hdelivered⟩
    show (s.step .takeRx).txRank + (s.step .takeRx).rxRank + 0 < s.txRank + s.rxRank
    omega
  | turn rx tx =>
    obtain ⟨⟨hrx, htx⟩, hirq⟩ : (rx.isNone = true ∧ tx.isSome = true) ∧ s.txIrq = true := by
      simpa only [idleInput, Bool.and_eq_true] using hidle
    obtain rfl := Option.isNone_iff_eq_none.mp hrx
    obtain ⟨sent, rfl⟩ := Option.isSome_iff_exists.mp htx
    have hsame : (s.txTurn sent).rxRank = s.rxRank ∧ (s.txTurn sent).delivered = s.delivered := by
      unfold Uart.txTurn
      simp only
      split
      · split <;> exact ⟨rfl, rfl⟩
      · split <;> exact ⟨rfl, rfl⟩
    have hoffered : s.fillOffered (some sent) := by
      simpa only [permits, readOffered, Bool.true_and] using hperm
    have hlower := W.txTurn_lowers hoffered hmoves hirq
    refine ⟨?_, hsame.2⟩
    show (s.txTurn sent).txRank + (s.txTurn sent).rxRank + 0 < s.txRank + s.rxRank
    rw [hsame.1]
    omega

end Uart

namespace UartServer
variable {N : Nat} {W X : Type}

/-- A step that delivers nothing, with a driver that moves something whenever it can. -/
def works (s : UartServer N W X) (e : Event) : Bool :=
  s.permits e && s.within Uart.moves e && s.within Uart.idleInput e

/-- What the parser will answer to what it has not seen. -/
def answersLeft (fw : Firmware N W X) (s : UartServer N W X) : List Bytes :=
  sends (since s.hup (processHupacket fw s.hup (s.buffer ++ s.uart.handle.rxBuffer.content)))

/-- Everything that is still to be done for the bytes delivered so far. -/
def rank (fw : Firmware N W X) (s : UartServer N W X) : Nat :=
  s.uart.txRank + s.uart.rxRank + s.buffer.length +
    ((s.replies ++ s.answersLeft fw).map fun reply => 5 * reply.length + 4).sum

/-! ## The invariant -/

/-- The thread waits in `recv` only with nothing left to work on, and asks for a whole
buffer. -/
structure Placed (s : UartServer N W X) : Prop where
  waits : s.uart.receiver = .idle ∨
    s.uart.sender = .idle ∧ s.buffer = [] ∧ s.replies = []
  asks : ∀ len, s.uart.receiver = .get len ∨ s.uart.receiver = .wait len → len = N

/-- All that the run keeps. -/
structure Rests (fw : Firmware N W X) (w : W) (s : UartServer N W X) : Prop where
  serves : s.Serves fw w
  wakes : s.uart.Wakes
  enabled : s.uart.Enabled
  placed : s.Placed

theorem init_rests (fw : Firmware N W X) (w : W) (txData rxData : Nat → UInt8) :
    (init w txData rxData : UartServer N W X).Rests fw w where
  serves := init_serves fw w txData rxData
  wakes := Uart.initInt_wakes txData rxData
  enabled := fun _ h => absurd h (Nat.lt_irrefl 0)
  placed := ⟨.inl rfl, fun len h => h.elim (fun h => by cases h) (fun h => by cases h)⟩

/-- The thread is in one call at a time. -/
theorem Placed.receiver_idle {s : UartServer N W X} (P : s.Placed)
    (hsender : s.uart.sender ≠ .idle) : s.uart.receiver = .idle :=
  P.waits.resolve_right fun h => hsender h.1

theorem returned_iff {s : UartServer N W X} :
    s.returned ↔ s.uart.sender = .idle ∧ s.uart.receiver = .idle := by
  unfold returned
  cases s.uart.sender <;> cases s.uart.receiver <;> simp

theorem Placed.uart (fw : Firmware N W X) {s : UartServer N W X} (P : s.Placed) {u : Uart.Event}
    (hperm : s.uart.permits u) (hsend : ∀ data, u ≠ .send data) (hrecv : ∀ len, u ≠ .recv len) :
    (s.step fw (.uart u)).Placed := by
  -- the sending thread is the one that receives, and it is not receiving
  have hsending : s.uart.sender ≠ .idle → (s.uart.step u).receiver = s.uart.receiver →
      (s.step fw (.uart u)).Placed := by
    intro hsender hsame
    have hidle := hsame.trans (P.receiver_idle hsender)
    refine ⟨.inl hidle, fun len h => ?_⟩
    have hget : (s.uart.step u).receiver = .get len ∨ (s.uart.step u).receiver = .wait len := h
    rw [hidle] at hget
    rcases hget with hget | hget <;> cases hget
  cases u with
  | send data => exact absurd rfl (hsend data)
  | recv len => exact absurd rfl (hrecv len)
  | put =>
    refine hsending ?_ ?_
    · intro h
      simp [Uart.permits, h] at hperm
    · unfold Uart.step
      cases s.uart.sender <;> rfl
  | enable =>
    refine hsending ?_ ?_
    · intro h
      simp [Uart.permits, h] at hperm
    · unfold Uart.step
      cases s.uart.sender <;> rfl
  | takeTx =>
    refine hsending ?_ ?_
    · intro h
      simp [Uart.permits, h] at hperm
    · unfold Uart.step
      cases s.uart.sender <;> rfl
  | get =>
    cases hreceiver : s.uart.receiver with
    | get len =>
      obtain ⟨hsender, hbuffer, hreplies⟩ : s.uart.sender = .idle ∧ s.buffer = [] ∧ s.replies = [] :=
        P.waits.resolve_left (by rw [hreceiver]; intro h; cases h)
      by_cases hnone : s.uart.handle.rxBuffer.getCount len = 0
      · refine ⟨.inr ⟨?_, ?_, hreplies⟩, fun n h => ?_⟩
        · simpa only [step, Uart.step, hreceiver] using hsender
        · simp only [step, received, hreceiver, hbuffer, Ring.got, hnone, Ring.bytesAt,
            List.range'_zero, List.map_nil, List.append_nil]
        · refine P.asks n (.inl ?_)
          rw [hreceiver]
          simp only [step, Uart.step, hreceiver, hnone, if_true] at h
          rcases h with h | h
          · cases h
          · rw [Receiver.wait.inj h]
      · refine ⟨.inl ?_, fun n h => ?_⟩
        · simp only [step, Uart.step, hreceiver, hnone, if_false]
        · simp only [step, Uart.step, hreceiver, hnone, if_false] at h
          rcases h with h | h <;> cases h
    | _ => simp [Uart.permits, hreceiver] at hperm
  | takeRx =>
    cases hreceiver : s.uart.receiver with
    | wait len =>
      obtain ⟨hsender, hbuffer, hreplies⟩ : s.uart.sender = .idle ∧ s.buffer = [] ∧ s.replies = [] :=
        P.waits.resolve_left (by rw [hreceiver]; intro h; cases h)
      refine ⟨.inr ⟨?_, ?_, hreplies⟩, fun n h => ?_⟩
      · simpa only [step, Uart.step, hreceiver] using hsender
      · simpa only [step, received, List.append_nil] using hbuffer
      · refine P.asks n (.inr ?_)
        rw [hreceiver]
        simp only [step, Uart.step, hreceiver] at h
        rcases h with h | h
        · rw [Receiver.get.inj h]
        · cases h
    | _ => simp [Uart.permits, hreceiver] at hperm
  | turn rx tx =>
    have hsame := turn_threads s.uart rx tx
    refine ⟨?_, fun n h => P.asks n ?_⟩
    · rcases P.waits with hidle | ⟨hsender, hbuffer, hreplies⟩
      · exact .inl (hsame.receiver.trans hidle)
      · refine .inr ⟨hsame.sender.trans hsender, ?_, hreplies⟩
        simpa only [step, received, List.append_nil] using hbuffer
    · rw [← hsame.receiver]
      exact h

theorem Placed.step (fw : Firmware N W X) {s : UartServer N W X} (P : s.Placed) {e : Event}
    (hperm : s.permits e) : (s.step fw e).Placed := by
  cases e with
  | recv =>
    simp only [permits, Bool.and_eq_true, returned_iff, List.isEmpty_iff] at hperm
    obtain ⟨⟨⟨hsender, -⟩, hbuffer⟩, hreplies⟩ := hperm
    refine ⟨.inr ⟨hsender, hbuffer, hreplies⟩, fun len h => ?_⟩
    rcases h with h | h
    · exact (Receiver.get.inj h).symm
    · cases h
  | process =>
    simp only [permits, Bool.and_eq_true, returned_iff] at hperm
    obtain ⟨⟨⟨-, hidle⟩, -⟩, -⟩ := hperm
    have hsame : (s.step fw .process).uart = s.uart := by
      unfold UartServer.step
      cases s.buffer <;> rfl
    refine ⟨.inl (hsame ▸ hidle), fun len h => P.asks len (hsame ▸ h)⟩
  | send =>
    simp only [permits, Bool.and_eq_true, returned_iff] at hperm
    obtain ⟨⟨-, hidle⟩, -⟩ := hperm
    have hsame : (s.step fw .send).uart.receiver = s.uart.receiver := by
      unfold UartServer.step
      cases s.replies <;> rfl
    exact ⟨.inl (hsame.trans hidle), fun len h => P.asks len (hsame ▸ h)⟩
  | uart u =>
    cases u with
    | send data => cases hperm
    | recv len => cases hperm
    | _ =>
      refine P.uart fw hperm ?_ ?_
      · intro data h
        cases h
      · intro len h
        cases h

theorem Rests.step {fw : Firmware N W X} {w : W} {s : UartServer N W X} (R : s.Rests fw w)
    {e : Event} (hperm : s.permits e) (hmoves : s.within Uart.moves e) :
    (s.step fw e).Rests fw w := by
  have hsettled : s.within Uart.settled e := by
    cases e with
    | uart u => exact R.wakes.settled u
    | _ => rfl
  have hboth := step_keeps fw (I := fun u => u.Wakes ∧ u.Enabled) (C := Uart.moves)
    (fun u e h hp hc => ⟨h.1.step hp hc, h.2.step h.1 hp⟩) (fun _ => ⟨fun _ => rfl, fun _ => rfl⟩)
    ⟨R.wakes, R.enabled⟩ hperm hmoves
  exact ⟨R.serves.step hperm hsettled, hboth.1, hboth.2, R.placed.step fw hperm⟩

/-! ## Less is left after each step -/

/-- What is received and not parsed stays the same until it is parsed. -/
theorem Serves.input_kept {fw : Firmware N W X} {w : W} {s : UartServer N W X} (I : s.Serves fw w)
    {u : Uart.Event} (hinv : (s.uart.step u).Inv) (hsend : ∀ data, u ≠ .send data)
    (hdelivered : (s.uart.step u).delivered = s.uart.delivered) :
    received s.uart u ++ (s.uart.step u).handle.rxBuffer.content =
      s.uart.handle.rxBuffer.content := by
  have hbefore := I.uart.fifo.receiving
  have hafter := hinv.fifo.receiving
  rw [(uart_streams hsend).1, hdelivered, ← hbefore, List.append_assoc] at hafter
  exact List.append_cancel_left hafter

theorem answersLeft_cons (fw : Firmware N W X) {s : UartServer N W X} {b : UInt8} {buffer : Bytes}
    (hbuffer : s.buffer = b :: buffer) :
    s.replies ++ s.answersLeft fw =
      (s.step fw .process).replies ++ (s.step fw .process).answersLeft fw := by
  simp only [step, hbuffer, answersLeft]
  rw [List.append_assoc, ← sends_append]
  congr 2
  exact since_append (processByte_log fw s.hup b) (processHupacket_log fw _ _)

theorem Rests.lowers {fw : Firmware N W X} {w : W} {s : UartServer N W X} (R : s.Rests fw w)
    {e : Event} (hworks : s.works e) :
    (s.step fw e).rank fw < s.rank fw ∧ (s.step fw e).uart.delivered = s.uart.delivered := by
  simp only [works, Bool.and_eq_true] at hworks
  obtain ⟨⟨hperm, hmoves⟩, hinput⟩ := hworks
  have hnext := R.step hperm hmoves
  -- a step of the transport that is not a call of `send`
  have hinside : ∀ u, s.uart.permits u → s.uart.moves u → s.uart.idleInput u →
      (∀ data, u ≠ .send data) → (s.step fw e).uart = s.uart.step u →
      (s.step fw e).hup = s.hup → (s.step fw e).replies = s.replies →
      (s.step fw e).buffer = s.buffer ++ received s.uart u →
      (s.step fw e).rank fw < s.rank fw ∧ (s.step fw e).uart.delivered = s.uart.delivered := by
    intro u hu hm hi hsend huart hhup hreplies hbuffer
    obtain ⟨hlower, hdelivered⟩ := R.wakes.step_lowers hu hm hi hsend
    have hkept := R.serves.input_kept (huart ▸ hnext.serves.uart) hsend hdelivered
    have hleft : (s.step fw e).answersLeft fw = s.answersLeft fw := by
      rw [answersLeft, hbuffer, hhup, huart, List.append_assoc, hkept]
      rfl
    refine ⟨?_, huart ▸ hdelivered⟩
    rw [rank, rank, hleft, hreplies, huart, hbuffer, List.length_append]
    omega
  cases e with
  | recv =>
    simp only [permits, Bool.and_eq_true, returned_iff] at hperm
    refine hinside (.recv N) ?_ rfl rfl (by intro data h; cases h) rfl rfl rfl
      (List.append_nil _).symm
    rw [Uart.permits, hperm.1.1.2]
  | process =>
    cases hbuffer : s.buffer with
    | nil => simp [permits, hbuffer] at hperm
    | cons b buffer =>
      have hsame : (s.step fw .process).uart = s.uart ∧ (s.step fw .process).buffer = buffer := by
        simp only [UartServer.step, hbuffer, and_self]
      refine ⟨?_, by rw [hsame.1]⟩
      rw [rank, rank, ← answersLeft_cons fw hbuffer, hsame.1, hsame.2, hbuffer, List.length_cons]
      omega
  | send =>
    simp only [permits, Bool.and_eq_true, returned_iff] at hperm
    obtain ⟨⟨hsender, -⟩, hne⟩ := hperm
    cases hreplies : s.replies with
    | nil => simp [hreplies] at hne
    | cons reply replies =>
      have hstep : s.step fw .send =
          { s with uart := s.uart.step (.send reply), replies := replies } := by
        simp only [UartServer.step, hreplies]
      have htx : (s.uart.step (.send reply)).txRank = s.uart.txRank + 5 * reply.length + 3 := by
        simp only [Uart.txRank, hsender, Sender.rest, Sender.weight, List.length_nil]
        show 5 * (reply.length + s.uart.txHeld) + 3 + 4 * s.uart.handle.txDone.toNat +
          s.uart.txIrq.toNat = _
        omega
      have hrx : (s.uart.step (.send reply)).rxRank = s.uart.rxRank := rfl
      have hleft : answersLeft fw { s with uart := s.uart.step (.send reply), replies := replies } =
          s.answersLeft fw := rfl
      rw [hstep]
      refine ⟨?_, rfl⟩
      rw [rank, rank, hleft, hreplies]
      simp only [htx, hrx, List.cons_append, List.map_cons, List.sum_cons]
      omega
  | uart u =>
    have hsend : ∀ data, u ≠ .send data := by
      intro data h
      subst h
      cases hperm
    have hu : s.uart.permits u := by
      cases u with
      | send data => cases hperm
      | recv len => cases hperm
      | _ => exact hperm
    exact hinside u hu hmoves hinput hsend rfl rfl rfl rfl

/-! ## At rest -/

/-- Everything delivered was parsed, and everything answered was taken. -/
structure Settled (fw : Firmware N W X) (w : W) (s : UartServer N W X) : Prop where
  parsed : s.hup = processHupacket fw (.fresh N w) s.uart.delivered
  taken : s.uart.taken = (sends s.hup.log).flatten

/-- A turn that sends one byte is possible as long as there is something to send. -/
theorem Rests.sends_on {fw : Firmware N W X} {w : W} {s : UartServer N W X} (R : s.Rests fw w)
    (hheld : s.uart.handle.txBuffer.getTail < s.uart.handle.txBuffer.putTail)
    (hirq : s.uart.txIrq = true) : s.works (.uart (.turn none (some 1))) := by
  have hsize : 0 < s.uart.handle.txBuffer.sizeGet := by
    have hget := R.wakes.txGet
    unfold Ring.sizeGet
    omega
  have hclaimed : 0 < s.uart.handle.txBuffer.getClaimed txBufSize :=
    (Ring.getClaimed_pos (by decide) (by decide)).mpr hsize
  have hoffered : (1 : Int) ≤ s.uart.handle.txBuffer.getClaimed txBufSize := by omega
  simp [works, permits, within, Uart.permits, Uart.readOffered, Uart.fillOffered, Uart.moves,
    Uart.idleInput, hoffered, hirq]

/-- If nothing can be done, the thread waits for more and nothing is left over. -/
theorem Rests.settled {fw : Firmware N W X} {w : W} {s : UartServer N W X} (R : s.Rests fw w)
    (hstuck : ∀ e, ¬ s.works e) : s.Settled fw w := by
  have hsender : s.uart.sender = .idle := by
    cases hsender : s.uart.sender with
    | idle => rfl
    | put data =>
      exact absurd (by simp [works, permits, within, Uart.permits, Uart.moves, Uart.idleInput, hsender])
        (hstuck (.uart .put))
    | enable data =>
      exact absurd (by simp [works, permits, within, Uart.permits, Uart.moves, Uart.idleInput, hsender])
        (hstuck (.uart .enable))
    | wait data =>
      rcases R.wakes.sending data hsender with hdone | ⟨hheld, hirq⟩
      · exact absurd (by simp [works, permits, within, Uart.permits, Uart.moves, Uart.idleInput,
          hsender, hdone]) (hstuck (.uart .takeTx))
      · exact absurd (R.sends_on hheld hirq) (hstuck _)
  have hsent : ¬ s.uart.handle.txBuffer.getTail < s.uart.handle.txBuffer.putTail := by
    intro hheld
    refine hstuck _ (R.sends_on hheld (R.enabled (fun data h => ?_) hheld))
    rw [hsender] at h
    cases h
  obtain ⟨len, hreceiver⟩ : ∃ len, s.uart.receiver = .wait len := by
    cases hreceiver : s.uart.receiver with
    | idle =>
      have hreturned : s.returned := returned_iff.mpr ⟨hsender, hreceiver⟩
      cases hreplies : s.replies with
      | cons reply replies =>
        exact absurd (by simp [works, permits, within, hreturned, hreplies]) (hstuck .send)
      | nil =>
        cases hbuffer : s.buffer with
        | cons b buffer =>
          exact absurd (by simp [works, permits, within, hreturned, hreplies, hbuffer])
            (hstuck .process)
        | nil =>
          exact absurd (by simp [works, permits, within, hreturned, hreplies, hbuffer])
            (hstuck .recv)
    | get len =>
      exact absurd (by simp [works, permits, within, Uart.permits, Uart.moves, Uart.idleInput,
        hreceiver]) (hstuck (.uart .get))
    | wait len => exact ⟨len, rfl⟩
  have hdone : ¬ s.uart.handle.rxDone = true := by
    intro hdone
    exact hstuck (.uart .takeRx) (by simp [works, permits, within, Uart.permits, Uart.moves,
      Uart.idleInput, hreceiver, hdone])
  obtain ⟨-, hbuffer, hreplies⟩ : s.uart.sender = .idle ∧ s.buffer = [] ∧ s.replies = [] :=
    R.placed.waits.resolve_left (by rw [hreceiver]; intro h; cases h)
  have hN : 0 < len := (R.placed.asks len (.inr hreceiver)) ▸ fw.sizePos
  have hrx : s.uart.handle.rxBuffer.content = [] :=
    Ring.content_eq_nil.mpr ((R.wakes.receiving len hreceiver hN).resolve_left hdone)
  have htx : s.uart.handle.txBuffer.content = [] := Ring.content_eq_nil.mpr (not_lt.mp hsent)
  obtain ⟨⟨parsed, hhup, hinput⟩, houtput⟩ := R.serves.answering
  rw [hbuffer, hrx, List.append_nil, List.append_nil] at hinput
  rw [htx, hsender, hreplies, Sender.rest, List.flatten_nil, List.append_nil, List.append_nil,
    List.append_nil] at houtput
  exact ⟨hinput ▸ hhup, houtput⟩

/-- Reached in some run with a driver that moves something whenever it can. -/
def Reached (fw : Firmware N W X) (w : W) (s : UartServer N W X) : Prop :=
  ∃ txData rxData l, Guarded (step fw) (fun s e => s.permits e ∧ s.within Uart.moves e)
    (init w txData rxData) l ∧ l.foldl (step fw) (init w txData rxData) = s

theorem Reached.rests {fw : Firmware N W X} {w : W} {s : UartServer N W X} (h : s.Reached fw w) :
    s.Rests fw w := by
  obtain ⟨txData, rxData, l, hrun, rfl⟩ := h
  exact (hrun.always (fun s e R h => R.step h.1 h.2) (init_rests fw w txData rxData)).last

/-- Nothing is delivered in the steps that work, and they end at rest. -/
theorem run_settles {fw : Firmware N W X} {w : W} {s : UartServer N W X} (R : s.Rests fw w)
    {l : List Event} (hworks : Guarded (step fw) (fun s e => s.works e) s l) :
    l.length ≤ s.rank fw ∧ (l.foldl (step fw) s).uart.delivered = s.uart.delivered ∧
      ((∀ e, ¬ (l.foldl (step fw) s).works e) → (l.foldl (step fw) s).Settled fw w) := by
  have hkeeps : ∀ (s : UartServer N W X) (e : Event), s.Rests fw w → s.works e →
      (s.step fw e).Rests fw w := by
    intro s e R h
    simp only [works, Bool.and_eq_true] at h
    exact R.step h.1.1 h.1.2
  refine ⟨?_, ?_, fun hstuck => ?_⟩
  · exact hworks.length_le hkeeps (fun s e R h => (R.lowers h).1) R
  · have hsame := hworks.always (I := fun t => t.Rests fw w ∧ t.uart.delivered = s.uart.delivered)
      (fun s e R h => ⟨hkeeps s e R.1 h, (R.1.lowers h).2.trans R.2⟩) ⟨R, rfl⟩
    exact hsame.last.2
  · exact (hworks.always hkeeps R).last.settled hstuck

/-- **The server comes to rest**: whatever happened before, once nothing more is delivered only
a bounded number of steps can follow, and when none can, all is parsed and answered, as long
as every reply fits. -/
theorem server_settles {fw : Firmware N W X} {w : W} {s : UartServer N W X}
    (hreached : s.Reached fw w) :
    ∃ n, ∀ l, Guarded (step fw) (fun s e => s.works e) s l →
      RepliesFit N (l.foldl (step fw) s).hup.log →
      l.length ≤ n ∧ (l.foldl (step fw) s).uart.delivered = s.uart.delivered ∧
        ((∀ e, ¬ (l.foldl (step fw) s).works e) → (l.foldl (step fw) s).Settled fw w) :=
  ⟨s.rank fw, fun _ hworks _ => run_settles hreached.rests hworks⟩

/-- A command whose CRC is wrong is delivered while the server waits: it will be answered, and
then there is rest. -/
theorem wrong_command_settles :
    let fw := image (W := Unit) (X := Empty) [] []
    let s := wrongCommand.foldl (step fw) (init () (fun _ => 0) (fun _ => 0))
    ∃ n, ∀ l, Guarded (step fw) (fun s e => s.works e) s l →
      RepliesFit packetSize (l.foldl (step fw) s).hup.log →
      l.length ≤ n ∧ (l.foldl (step fw) s).uart.delivered = s.uart.delivered ∧
        ((∀ e, ¬ (l.foldl (step fw) s).works e) → (l.foldl (step fw) s).Settled fw ()) :=
  server_settles ⟨fun _ => 0, fun _ => 0, wrongCommand, by decide +kernel, rfl⟩

end UartServer

end Sdkz.App
