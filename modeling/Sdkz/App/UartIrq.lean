import Sdkz.App.Uart

/-! # When the interrupt handler returns

The loop of `_irq_cb` goes on while the driver says that an enabled direction is
ready. The sending direction is switched off as soon as there is nothing left to
send; the receiving one never is, so a full ring keeps the loop running. A driver
is what its calls return at each turn. -/

namespace Sdkz.App
open Sdkz.Base

/-- What the driver returns in turn `t`. It never moves more than it is offered,
and moves something whenever it can. -/
structure Driver where
  txReady : Nat → Bool
  fifoRead : Nat → Nat → Nat → Nat
  fifoFill : Nat → Nat → Nat
  read_le : ∀ t offered waiting, fifoRead t offered waiting ≤ min offered waiting
  read_pos : ∀ t offered waiting, 0 < offered → 0 < waiting → 0 < fifoRead t offered waiting
  fill_le : ∀ t offered, fifoFill t offered ≤ offered
  fill_pos : ∀ t offered, 0 < offered → 0 < fifoFill t offered

namespace Uart

/-- `uart_irq_is_pending`; the receiving direction is always enabled. -/
def pending (d : Driver) (t : Nat) (s : Uart) (waiting : Bytes) : Bool :=
  !waiting.isEmpty || (s.txIrq && d.txReady t)

/-- How much `uart_fifo_read` moves in turn `t`. -/
def readCount (d : Driver) (t : Nat) (s : Uart) (waiting : Bytes) : Nat :=
  d.fifoRead t (s.handle.rxBuffer.putClaimed rxBufSize) waiting.length

/-- One turn with what this driver returns. -/
def drivenTurn (d : Driver) (t : Nat) (s : Uart) (waiting : Bytes) : Uart :=
  s.turn (if waiting.isEmpty then none else some (.ok (waiting.take (s.readCount d t waiting))))
    (if d.txReady t then
      some (d.fifoFill t (s.handle.txBuffer.getClaimed txBufSize) : Int) else none)

/-- `_irq_cb`, from turn `t` on, with the bytes that wait in the receive FIFO;
`none` if the fuel does not suffice. -/
def irqCb (d : Driver) : Nat → Nat → Uart → Bytes → Option Uart
  | 0, _, _, _ => none
  | fuel + 1, t, s, waiting =>
    if s.pending d t waiting then
      irqCb d fuel (t + 1) (s.drivenTurn d t waiting) (waiting.drop (s.readCount d t waiting))
    else some s

/-! ## What a turn does to the rings -/

/-- The space behind what is committed in the receive ring. -/
def rxRoom (s : Uart) : Nat :=
  rxBufSize - (s.handle.rxBuffer.putTail - s.handle.rxBuffer.getTail)

/-- What is put and not released in the send ring. -/
def txHeld (s : Uart) : Nat := s.handle.txBuffer.putTail - s.handle.txBuffer.getTail

theorem space_le_room (s : Uart) : s.handle.rxBuffer.spaceGet ≤ s.rxRoom := by
  have := s.handle.rxBuffer.putTail_le
  unfold Ring.spaceGet rxRoom
  omega

/-- The receiving half keeps to its ring, and commits what was read. -/
theorem rxTurn_ok (s : Uart) {rx : Bytes}
    (h : rx.length ≤ s.handle.rxBuffer.putClaimed rxBufSize) :
    (s.rxTurn (.ok rx)).txIrq = s.txIrq ∧
      (s.rxTurn (.ok rx)).handle.txBuffer = s.handle.txBuffer ∧
      (s.rxTurn (.ok rx)).handle.rxBuffer.getTail = s.handle.rxBuffer.getTail ∧
      (s.rxTurn (.ok rx)).handle.rxBuffer.putTail = s.handle.rxBuffer.putTail + rx.length ∧
      (s.rxTurn (.ok rx)).handle.rxBuffer.putHead =
        if rx.length = 0 then s.handle.rxBuffer.putHead + s.handle.rxBuffer.putClaimed rxBufSize
        else s.handle.rxBuffer.putTail + rx.length := by
  unfold Uart.rxTurn
  simp only
  by_cases hpos : rx.length > 0
  · rw [if_pos hpos, if_neg (by omega)]
    have hle := s.handle.rxBuffer.putTail_le
    obtain ⟨ring, hring⟩ : ∃ ring, ((s.handle.rxBuffer.putClaim rxBufSize).write
        s.handle.rxBuffer.putHead rx).putFinish rx.length = some ring := by
      have hroom : rx.length ≤ ((s.handle.rxBuffer.putClaim rxBufSize).write
          s.handle.rxBuffer.putHead rx).putHead -
          ((s.handle.rxBuffer.putClaim rxBufSize).write s.handle.rxBuffer.putHead rx).putTail := by
        show rx.length ≤ s.handle.rxBuffer.putHead +
          s.handle.rxBuffer.putClaimed rxBufSize - s.handle.rxBuffer.putTail
        omega
      exact Ring.exists_putFinish hroom
    obtain ⟨-, -, -, hgetTail, hputHead, hputTail⟩ := Ring.putFinish_some hring
    rw [hring]
    exact ⟨rfl, rfl, hgetTail, hputTail, hputHead⟩
  · rw [if_neg hpos, if_pos (by omega)]
    exact ⟨rfl, rfl, rfl, (by omega : rx.length = 0) ▸ rfl, rfl⟩

/-- The sending half keeps to its ring, and releases what was taken or switches
its direction off. -/
theorem txTurn_held (s : Uart) {sent : Nat}
    (hle : sent ≤ s.handle.txBuffer.getClaimed txBufSize)
    (hpos : 0 < s.handle.txBuffer.getClaimed txBufSize → 0 < sent) :
    (s.txTurn sent).handle.rxBuffer = s.handle.rxBuffer ∧
      (s.txTurn sent).txHeld = s.txHeld - sent ∧
      (s.txTurn sent).txIrq = (s.txIrq && decide (0 < sent)) ∧ sent ≤ s.txHeld := by
  have hget := s.handle.txBuffer.getTail_le
  have hput := s.handle.txBuffer.getHead_le
  have hsize : s.handle.txBuffer.getClaimed txBufSize ≤ s.handle.txBuffer.sizeGet :=
    s.handle.txBuffer.getClaimed_le txBufSize
  have hheld : sent ≤ s.txHeld := by
    unfold Ring.sizeGet at hsize
    unfold txHeld
    omega
  unfold Uart.txTurn
  simp only
  by_cases hclaimed : s.handle.txBuffer.getClaimed txBufSize > 0
  · have hsent := hpos hclaimed
    rw [if_pos hclaimed, if_pos (by omega), Int.toNat_natCast]
    obtain ⟨ring, hring⟩ : ∃ ring,
        (s.handle.txBuffer.getClaim txBufSize).getFinish sent = some ring := by
      have hroom : sent ≤ (s.handle.txBuffer.getClaim txBufSize).getHead -
          (s.handle.txBuffer.getClaim txBufSize).getTail := by
        show sent ≤ s.handle.txBuffer.getHead +
          s.handle.txBuffer.getClaimed txBufSize - s.handle.txBuffer.getTail
        omega
      exact Ring.exists_getFinish hroom
    obtain ⟨-, -, -, hputTail, -, hgetTail⟩ := Ring.getFinish_some hring
    rw [hring, Option.getD_some]
    refine ⟨rfl, ?_, by simp [hsent], hheld⟩
    show ring.putTail - ring.getTail = s.txHeld - sent
    rw [hputTail, hgetTail]
    exact (Nat.sub_sub _ _ _).symm
  · have hnone : s.handle.txBuffer.getClaimed txBufSize = 0 := Nat.eq_zero_of_not_pos hclaimed
    have hempty : (s.handle.txBuffer.getClaim txBufSize).isEmpty = true := by
      have hnothing := mt (Ring.getClaimed_pos (n := txBufSize) (r := s.handle.txBuffer)
      (by decide) (by decide)).mpr hclaimed
      unfold Ring.sizeGet at hnothing
      simp only [Ring.isEmpty, Ring.getClaim, hnone, Nat.add_zero, beq_iff_eq]
      omega
    have hsent : sent = 0 := by omega
    rw [if_neg hclaimed, if_pos hempty, hsent]
    exact ⟨rfl, rfl, by simp, Nat.zero_le _⟩

/-! ## The measure -/

/-- What waits fits behind what is committed, and the first claim gets some of
the space. -/
def Drains (s : Uart) (waiting : Bytes) : Prop :=
  waiting = [] ∨ (0 < s.handle.rxBuffer.spaceGet ∧ waiting.length ≤ s.rxRoom)

/-- What is left to do. -/
def workLeft (s : Uart) (waiting : Bytes) : Nat :=
  waiting.length + s.txHeld + s.txIrq.toNat

/-- The receiving half: what was read is committed; what waits drains if and only
if it did before. -/
theorem rx_drains (d : Driver) (t : Nat) (s : Uart) {waiting : Bytes} (hne : waiting ≠ []) :
    let s' := s.rxTurn (.ok (waiting.take (s.readCount d t waiting)))
    (s'.Drains (waiting.drop (s.readCount d t waiting)) ↔ s.Drains waiting) ∧
      s'.txIrq = s.txIrq ∧ s'.handle.txBuffer = s.handle.txBuffer ∧
      (0 < s.handle.rxBuffer.spaceGet → 0 < s.readCount d t waiting) ∧
      s.readCount d t waiting ≤ waiting.length := by
  have hread := d.read_le t (s.handle.rxBuffer.putClaimed rxBufSize) waiting.length
  have hwaits : 0 < waiting.length := List.length_pos_iff.mpr hne
  have hcount : s.readCount d t waiting ≤ s.handle.rxBuffer.putClaimed rxBufSize :=
    Nat.le_trans hread (Nat.min_le_left _ _)
  have hall : s.readCount d t waiting ≤ waiting.length := Nat.le_trans hread (Nat.min_le_right _ _)
  have hlen : (waiting.take (s.readCount d t waiting)).length = s.readCount d t waiting := by
    rw [List.length_take, Nat.min_eq_left hall]
  obtain ⟨hirq, htx, hgetTail, hputTail, hputHead⟩ := rxTurn_ok s (by rw [hlen]; exact hcount)
  have hsome : 0 < s.handle.rxBuffer.spaceGet → 0 < s.readCount d t waiting := fun hspace =>
    d.read_pos t _ _ ((Ring.putClaimed_pos (by decide) (by decide)).mpr hspace) hwaits
  refine ⟨?_, hirq, htx, hsome, hall⟩
  have hspace : s.handle.rxBuffer.putClaimed rxBufSize ≤ s.handle.rxBuffer.spaceGet :=
    s.handle.rxBuffer.putClaimed_le rxBufSize
  have hroom := space_le_room s
  have hle := s.handle.rxBuffer.getTail_le
  have hle' := s.handle.rxBuffer.getHead_le
  unfold Drains rxRoom
  rw [Ring.spaceGet, hgetTail, hputTail, hputHead, hlen, ← List.length_eq_zero_iff,
    ← List.length_eq_zero_iff, List.length_drop]
  unfold rxRoom at hroom
  by_cases hfull : s.handle.rxBuffer.spaceGet = 0
  · have hnothing : s.readCount d t waiting = 0 := by omega
    have hclaimed : s.handle.rxBuffer.putClaimed rxBufSize = 0 := by omega
    rw [hnothing, if_pos rfl, hclaimed, hfull]
    unfold Ring.spaceGet at hfull
    omega
  · have hsome' := hsome (Nat.pos_of_ne_zero hfull)
    rw [if_neg (by omega)]
    omega

/-- The receiving half of a turn; what is left of the turn is its sending half. -/
theorem driven_rx (d : Driver) (t : Nat) (s : Uart) (waiting : Bytes) :
    ∃ s₁ : Uart,
      s.drivenTurn d t waiting = s₁.turn none (if d.txReady t then
        some (d.fifoFill t (s₁.handle.txBuffer.getClaimed txBufSize) : Int) else none) ∧
      (s₁.Drains (waiting.drop (s.readCount d t waiting)) ↔ s.Drains waiting) ∧
      s₁.txIrq = s.txIrq ∧ s₁.txHeld = s.txHeld ∧
      (waiting ≠ [] → s.Drains waiting →
        (waiting.drop (s.readCount d t waiting)).length < waiting.length) := by
  unfold drivenTurn turn
  by_cases hnil : waiting = []
  · subst hnil
    exact ⟨s, rfl, by rw [List.drop_nil], rfl, rfl, fun h => absurd rfl h⟩
  · obtain ⟨hdrains, hirq, htx, hsome, hall⟩ := rx_drains d t s hnil
    have hempty : waiting.isEmpty = false := by simpa using hnil
    rw [hempty]
    refine ⟨s.rxTurn (.ok (waiting.take (s.readCount d t waiting))), ?_, hdrains, hirq, ?_,
      fun _ hd => ?_⟩
    · rw [htx]
      rfl
    · rw [txHeld, htx, txHeld]
    · have := hsome (hd.resolve_left hnil).1
      rw [List.length_drop]
      omega

/-- The sending half of a turn leaves the receive ring alone, and an enabled
direction gets less to do. -/
theorem driven_tx (d : Driver) (t : Nat) (s : Uart) :
    let s' := s.txTurn (d.fifoFill t (s.handle.txBuffer.getClaimed txBufSize) : Int)
    (∀ waiting, s'.Drains waiting ↔ s.Drains waiting) ∧
      s'.txHeld + s'.txIrq.toNat ≤ s.txHeld + s.txIrq.toNat ∧
      (s.txIrq = true → s'.txHeld + s'.txIrq.toNat < s.txHeld + s.txIrq.toNat) := by
  obtain ⟨hrx, hheld, hirq, hsent⟩ := txTurn_held s
    (d.fill_le t (s.handle.txBuffer.getClaimed txBufSize))
    (d.fill_pos t (s.handle.txBuffer.getClaimed txBufSize))
  generalize d.fifoFill t (s.handle.txBuffer.getClaimed txBufSize) = sent at hrx hheld hirq hsent ⊢
  simp only
  rw [hheld, hirq]
  refine ⟨fun waiting => ?_, ?_, fun hon => ?_⟩
  · unfold Drains rxRoom
    rw [hrx]
  · have : (s.txIrq && decide (0 < sent)).toNat ≤ s.txIrq.toNat := by
      cases s.txIrq <;> simp [Bool.toNat_le]
    omega
  · -- what was taken is released, or the direction is switched off
    rw [hon, Bool.true_and, Bool.toNat_true]
    by_cases hpos : 0 < sent
    · rw [decide_eq_true hpos, Bool.toNat_true]
      omega
    · rw [decide_eq_false hpos, Bool.toNat_false]
      omega

/-- A turn of a driver: whether the rest drains stays, and if it does the work
gets less. -/
theorem drivenTurn_step (d : Driver) (t : Nat) (s : Uart) (waiting : Bytes)
    (hpending : s.pending d t waiting) :
    let s' := s.drivenTurn d t waiting
    let rest := waiting.drop (s.readCount d t waiting)
    (s'.Drains rest ↔ s.Drains waiting) ∧
      (s.Drains waiting → s'.workLeft rest < s.workLeft waiting) := by
  obtain ⟨s₁, hturn, hdrains, hirq, hheld, hless⟩ := driven_rx d t s waiting
  have hlen : (waiting.drop (s.readCount d t waiting)).length ≤ waiting.length := by
    rw [List.length_drop]
    omega
  simp only
  rw [hturn]
  unfold workLeft turn
  by_cases hready : d.txReady t = true
  · obtain ⟨hsame, hle, hlt⟩ := driven_tx d t s₁
    rw [if_pos hready]
    refine ⟨(hsame _).trans hdrains, fun hd => ?_⟩
    rw [hirq, hheld] at hle hlt
    by_cases hnil : waiting = []
    · -- only the sending direction was ready
      have hon : s.txIrq = true := by
        simpa [pending, hnil, hready] using hpending
      have := hlt hon
      simp only at this ⊢
      omega
    · have := hless hnil hd
      simp only at hle ⊢
      omega
  · rw [if_neg hready]
    refine ⟨hdrains, fun hd => ?_⟩
    have hnil : waiting ≠ [] := by
      intro hnil
      simp [pending, hnil, hready] at hpending
    have := hless hnil hd
    simp only
    rw [hirq, hheld]
    omega

/-! ## The loop -/

theorem irqCb_returns (d : Driver) {n t : Nat} {s : Uart} {waiting : Bytes}
    (hwork : s.workLeft waiting ≤ n) (h : s.Drains waiting) :
    (irqCb d (n + 1) t s waiting).isSome := by
  induction n generalizing t s waiting with
  | zero =>
    unfold irqCb
    split
    · rename_i hpending
      have := (drivenTurn_step d t s waiting hpending).2 h
      omega
    · rfl
  | succ n ih =>
    unfold irqCb
    split
    · rename_i hpending
      obtain ⟨hdrains, hless⟩ := drivenTurn_step d t s waiting hpending
      have := hless h
      exact ih (by omega) (hdrains.mpr h)
    · rfl

/-- What does not drain stays pending. -/
theorem irqCb_stuck (d : Driver) {n t : Nat} {s : Uart} {waiting : Bytes}
    (h : ¬ s.Drains waiting) : irqCb d n t s waiting = none := by
  induction n generalizing t s waiting with
  | zero => rfl
  | succ n ih =>
    have hpending : s.pending d t waiting = true := by
      have hne : waiting.isEmpty = false := by
        cases waiting with
        | nil => exact absurd (.inl rfl) h
        | cons c rest => rfl
      simp [pending, hne]
    unfold irqCb
    rw [if_pos hpending]
    exact ih fun hd => h ((drivenTurn_step d t s waiting hpending).1.mp hd)

/-- **The handler returns exactly if what waits in the receive FIFO drains into
the ring**, whatever the rings hold and however the driver behaves otherwise. -/
theorem irqCb_returns_iff (d : Driver) (s : Uart) (waiting : Bytes) :
    (∃ fuel, (irqCb d fuel 0 s waiting).isSome) ↔ s.Drains waiting := by
  constructor
  · rintro ⟨fuel, hfuel⟩
    by_contra h
    rw [irqCb_stuck d h] at hfuel
    cases hfuel
  · exact fun h => ⟨_, irqCb_returns d (Nat.le_refl _) h⟩

/-- A driver that moves all it can. -/
def eagerDriver : Driver where
  txReady _ := true
  fifoRead _ offered waiting := min offered waiting
  fifoFill _ offered := offered
  read_le _ _ _ := Nat.le_refl _
  read_pos _ _ _ ho hw := Nat.lt_min.mpr ⟨ho, hw⟩
  fill_le _ _ := Nat.le_refl _
  fill_pos _ _ h := h

/-- A transport whose receive ring is full. -/
def fullUart : Uart :=
  let s := initInt (fun _ => 0) (fun _ => 0)
  { s with handle := { s.handle with rxBuffer := s.handle.rxBuffer.put (List.replicate 512 0) } }

/-- **A byte that waits behind a full ring holds the handler.** -/
theorem full_ring_holds : ¬ ∃ fuel, (irqCb eagerDriver fuel 0 fullUart [1]).isSome := by
  rintro ⟨fuel, hfuel⟩
  have hdrains : ¬ fullUart.Drains [1] := by
    unfold Drains
    decide +kernel
  rw [irqCb_stuck eagerDriver hdrains] at hfuel
  cases hfuel

end Uart

end Sdkz.App
