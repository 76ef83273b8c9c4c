import Sdkz.App.Uart

/-! # Threads that are woken up

A thread that blocks has looked at its ring before, and the handler gives the semaphore
after each change of a ring. Both semaphores hold one give at most, and a give may be a
stale one; what matters is that a thread does not wait without a give for something that
is there already. The driver is taken to move something whenever it is offered something. -/

namespace Sdkz.App
open Sdkz.Base

namespace Uart

/-- The driver moves at least one byte if it is offered any. -/
def moves (s : Uart) : Event → Bool
  | .turn rx tx =>
    (match rx with
      | some (.ok rx) => !rx.isEmpty || s.handle.rxBuffer.putClaimed rxBufSize == 0
      | some (.error _) => s.handle.rxBuffer.putClaimed rxBufSize == 0
      | none => true) &&
    (match tx with
      | some sent => decide (0 < sent) || s.handle.txBuffer.getClaimed txBufSize == 0
      | none => true)
  | _ => true

/-- No thread is blocked on a semaphore that was not given: the receiver while there are
bytes for it, if it asks for as many as `asks` says; the sender while nothing is left in
its ring or the interrupt is disabled. -/
structure Awake (asks : Nat → Prop) (s : Uart) : Prop where
  receiver : ∀ len, s.receiver = .wait len → asks len → s.handle.rxDone = false →
    s.handle.rxBuffer.content = []
  sender : ∀ data, s.sender = .wait data → s.handle.txDone = false →
    s.handle.txBuffer.content ≠ [] ∧ s.txIrq = true

/-! ## The invariant -/

/-- No claim is left open between two steps, and each thread that blocks, or is about to,
has been given its semaphore or has a reason to wait. -/
structure Wakes (s : Uart) : Prop where
  rxPut : s.handle.rxBuffer.putHead = s.handle.rxBuffer.putTail
  rxGet : s.handle.rxBuffer.getHead = s.handle.rxBuffer.getTail
  txPut : s.handle.txBuffer.putHead = s.handle.txBuffer.putTail
  txGet : s.handle.txBuffer.getHead = s.handle.txBuffer.getTail
  receiving : ∀ len, s.receiver = .wait len → 0 < len →
    s.handle.rxDone = true ∨ s.handle.rxBuffer.putTail ≤ s.handle.rxBuffer.getTail
  enabling : ∀ data, s.sender = .enable data → data ≠ [] →
    s.handle.txDone = true ∨ s.handle.txBuffer.getTail < s.handle.txBuffer.putTail
  sending : ∀ data, s.sender = .wait data → s.handle.txDone = true ∨
    s.handle.txBuffer.getTail < s.handle.txBuffer.putTail ∧ s.txIrq = true

theorem Wakes.awake {s : Uart} (W : s.Wakes) : s.Awake (0 < ·) where
  receiver := by
    intro len hwait hlen hdone
    rcases W.receiving len hwait hlen with hgiven | hempty
    · rw [hdone] at hgiven
      cases hgiven
    · exact Ring.content_eq_nil.mpr hempty
  sender := by
    intro data hwait hdone
    rcases W.sending data hwait with hgiven | ⟨hheld, hirq⟩
    · rw [hdone] at hgiven
      cases hgiven
    · exact ⟨fun hnil => absurd (Ring.content_eq_nil.mp hnil) (not_le.mpr hheld), hirq⟩

theorem initInt_wakes (txData rxData : Nat → UInt8) : (initInt txData rxData).Wakes where
  rxPut := rfl
  rxGet := rfl
  txPut := rfl
  txGet := rfl
  receiving := by
    intro len hwait
    cases hwait
  enabling := by
    intro data henable
    cases henable
  sending := by
    intro data hwait
    cases hwait

/-! ## A turn of the handler -/

/-- A turn that reads gives the semaphore; one that cannot read leaves the ring as it is. -/
theorem Wakes.rxTurn {s : Uart} (W : s.Wakes) {read : Except Int Bytes}
    (hoffered : s.readOffered (some read)) (hmoves : s.moves (.turn (some read) none)) :
    (s.rxTurn read).Wakes := by
  unfold Uart.rxTurn
  have hrxPut := W.rxPut
  -- an empty claim moves nothing
  have hnone : s.handle.rxBuffer.putClaimed rxBufSize = 0 →
      (s.handle.rxBuffer.putClaim rxBufSize).putHead = s.handle.rxBuffer.putTail := by
    intro hclaimed
    rw [Ring.putClaim_putHead, hclaimed, Nat.add_zero, hrxPut]
  cases read with
  | error rc =>
    have hclaimed : s.handle.rxBuffer.putClaimed rxBufSize = 0 := by
      simpa [moves] using hmoves
    exact { W with rxPut := hnone hclaimed }
  | ok rx =>
    simp only
    split
    · have hlen : rx.length ≤ s.handle.rxBuffer.putClaimed rxBufSize := by
        simpa [readOffered] using hoffered
      obtain ⟨ring, hring⟩ : ∃ ring, ((s.handle.rxBuffer.putClaim rxBufSize).write
          s.handle.rxBuffer.putHead rx).putFinish rx.length = some ring := by
        refine Ring.exists_putFinish ?_
        show rx.length ≤ s.handle.rxBuffer.putHead +
          s.handle.rxBuffer.putClaimed rxBufSize - s.handle.rxBuffer.putTail
        omega
      obtain ⟨-, -, hgetHead, hgetTail, hputHead, hputTail⟩ := Ring.putFinish_some hring
      rw [hring]
      exact { W with
        rxPut := hputHead.trans hputTail.symm
        rxGet := hgetHead.trans (W.rxGet.trans hgetTail.symm)
        receiving := fun _ _ _ => .inl rfl }
    · rename_i hnil
      have hnil : rx = [] := List.length_eq_zero_iff.mp (Nat.le_zero.mp (not_lt.mp hnil))
      subst hnil
      have hclaimed : s.handle.rxBuffer.putClaimed rxBufSize = 0 := by
        simpa [moves] using hmoves
      exact { W with rxPut := hnone hclaimed }

/-- A turn that takes something gives the semaphore; if there was nothing to take, the
sender was given it before. -/
theorem Wakes.txTurn {s : Uart} (W : s.Wakes) {sent : Int} (hoffered : s.fillOffered (some sent))
    (hmoves : s.moves (.turn none (some sent))) : (s.txTurn sent).Wakes := by
  unfold Uart.txTurn
  have htxGet := W.txGet
  simp only
  split
  · rename_i hclaimed
    have hsent : sent > 0 := by
      have hsome : s.handle.txBuffer.getClaimed txBufSize ≠ 0 := Nat.ne_of_gt hclaimed
      simpa [moves, hsome] using hmoves
    have hle : sent.toNat ≤ s.handle.txBuffer.getClaimed txBufSize := by
      have : sent ≤ s.handle.txBuffer.getClaimed txBufSize := by
        simpa [fillOffered] using hoffered
      omega
    obtain ⟨ring, hring⟩ : ∃ ring,
        (s.handle.txBuffer.getClaim txBufSize).getFinish sent.toNat = some ring := by
      refine Ring.exists_getFinish ?_
      show sent.toNat ≤ s.handle.txBuffer.getHead +
        s.handle.txBuffer.getClaimed txBufSize - s.handle.txBuffer.getTail
      omega
    obtain ⟨-, -, hputHead, hputTail, hgetHead, hgetTail⟩ := Ring.getFinish_some hring
    rw [if_pos hsent, hring, Option.getD_some]
    exact { W with
      txPut := hputHead.trans (W.txPut.trans hputTail.symm)
      txGet := hgetHead.trans hgetTail.symm
      enabling := fun _ _ _ => .inl rfl
      sending := fun _ _ => .inl rfl }
  · rename_i hclaimed
    have hnone : s.handle.txBuffer.getClaimed txBufSize = 0 := Nat.eq_zero_of_not_pos hclaimed
    have hempty : ¬ s.handle.txBuffer.getTail < s.handle.txBuffer.putTail := by
      have hnothing := mt (Ring.getClaimed_pos (r := s.handle.txBuffer) (n := txBufSize)
        (by decide) (by decide)).mpr hclaimed
      unfold Ring.sizeGet at hnothing
      omega
    have hget : (s.handle.txBuffer.getClaim txBufSize).getHead = s.handle.txBuffer.getTail := by
      rw [Ring.getClaim_getHead, hnone, Nat.add_zero, htxGet]
    split
    · refine { W with txGet := hget, sending := ?_ }
      intro data hwait
      exact .inl ((W.sending data hwait).resolve_right fun hheld => hempty hheld.1)
    · exact { W with txGet := hget }

theorem Wakes.turn {s : Uart} (W : s.Wakes) {rx : Option (Except Int Bytes)} {tx : Option Int}
    (hperm : s.permits (.turn rx tx)) (hmoves : s.moves (.turn rx tx)) : (s.turn rx tx).Wakes := by
  obtain ⟨hread, hfill⟩ := Bool.and_eq_true_iff.mp hperm
  obtain ⟨hrx, htx⟩ := Bool.and_eq_true_iff.mp hmoves
  have hfirst : ∀ read, rx = some read → (s.rxTurn read).Wakes := by
    rintro read rfl
    refine W.rxTurn hread ?_
    simp only [moves, Bool.and_true]
    exact hrx
  have hsecond : ∀ s' : Uart, s'.handle.txBuffer = s.handle.txBuffer → s'.Wakes →
      ∀ sent, tx = some sent → (s'.txTurn sent).Wakes := by
    rintro s' hsame W' sent rfl
    refine W'.txTurn ?_ ?_
    · simpa only [fillOffered, hsame] using hfill
    · simp only [moves, hsame, Bool.true_and]
      exact htx
  unfold Uart.turn
  cases rx with
  | none =>
    cases tx with
    | none => exact W
    | some sent => exact hsecond s rfl W sent rfl
  | some read =>
    cases tx with
    | none => exact hfirst read rfl
    | some sent => exact hsecond _ (s.rxTurn_txBuffer read) (hfirst read rfl) sent rfl

/-! ## The threads -/

/-- What a put leaves over waits behind a full ring. -/
theorem put_full {r : Ring UInt8 txBufSize} (hput : r.putHead = r.putTail) {data : Bytes}
    (hrest : data.drop (r.putCount data.length) ≠ []) : (r.put data).getTail < (r.put data).putTail := by
  have hle := r.putHead_le
  have hlen : r.putCount data.length < data.length := by
    by_contra hge
    exact hrest (List.drop_eq_nil_of_le (not_lt.mp hge))
  have hget := Nat.le_trans r.getTail_le r.getHead_le
  unfold Ring.putCount Ring.spaceGet at hlen
  show r.getTail < r.putTail + min data.length (txBufSize - (r.putHead - r.getTail))
  rw [hput] at hlen hle ⊢
  have hsize : txBufSize = 512 := rfl
  omega

theorem Wakes.step {s : Uart} (W : s.Wakes) {e : Event} (hperm : s.permits e) (hmoves : s.moves e) :
    (s.step e).Wakes := by
  cases e with
  | send data =>
    refine { W with enabling := ?_, sending := ?_ }
    · intro rest hsender
      cases hsender
    · intro rest hsender
      cases hsender
  | put =>
    unfold Uart.step
    cases hsender : s.sender with
    | put data =>
      refine { W with txPut := rfl, enabling := ?_, sending := ?_ }
      · intro rest henable hrest
        obtain rfl := Sender.enable.inj henable
        exact .inr (put_full W.txPut hrest)
      · intro rest hwait
        cases hwait
    | _ => simpa only [hsender] using W
  | enable =>
    unfold Uart.step
    cases hsender : s.sender with
    | enable data =>
      refine { W with enabling := ?_, sending := ?_ }
      · intro rest henable
        simp only at henable
        split at henable <;> cases henable
      · intro rest hwait
        simp only at hwait
        split at hwait
        · cases hwait
        · rename_i hne
          exact (W.enabling data hsender hne).imp id fun hheld => ⟨hheld, rfl⟩
    | _ => simpa only [hsender] using W
  | takeTx =>
    unfold Uart.step
    cases hsender : s.sender with
    | wait data =>
      refine { W with enabling := ?_, sending := ?_ }
      · intro rest henable
        cases henable
      · intro rest hwait
        cases hwait
    | _ => simpa only [hsender] using W
  | recv len =>
    refine { W with receiving := ?_ }
    intro n hwait
    cases hwait
  | get =>
    unfold Uart.step
    cases hreceiver : s.receiver with
    | get len =>
      refine { W with rxGet := rfl, receiving := ?_ }
      intro n hwait hn
      simp only at hwait
      split at hwait
      · -- nothing was there, although some bytes were asked for
        rename_i hcount
        obtain rfl := Receiver.wait.inj hwait
        right
        have hget := W.rxGet
        show s.handle.rxBuffer.putTail ≤ s.handle.rxBuffer.getTail + s.handle.rxBuffer.getCount len
        unfold Ring.getCount Ring.sizeGet at hcount ⊢
        omega
      · cases hwait
    | _ => simpa only [hreceiver] using W
  | takeRx =>
    unfold Uart.step
    cases hreceiver : s.receiver with
    | wait len =>
      refine { W with receiving := ?_ }
      intro n hwait
      cases hwait
    | _ => simpa only [hreceiver] using W
  | turn rx tx => exact W.turn hperm hmoves

/-- **No wake-up is lost** in any run with a driver that moves something whenever it can,
as long as the receiver asks for some bytes. -/
theorem int_no_lost_wakeup (txData rxData : Nat → UInt8) {l : List Event}
    (hperm : Guarded step (fun s e => s.permits e) (initInt txData rxData) l)
    (hmoves : Guarded step (fun s e => s.moves e) (initInt txData rxData) l) :
    Always step (Awake (0 < ·)) (initInt txData rxData) l := by
  have hboth : Guarded step (fun s e => s.permits e ∧ s.moves e) (initInt txData rxData) l :=
    fun p e hp => ⟨hperm p e hp, hmoves p e hp⟩
  have hwakes := hboth.always (I := Wakes) (fun s e W h => W.step h.1 h.2)
    (initInt_wakes txData rxData)
  exact fun p hp => (hwakes p hp).awake

/-- The receiver waits for two bytes; three are sent meanwhile. -/
theorem busy_run_awake : Always step (Awake (0 < ·)) (initInt (fun _ => 0) (fun _ => 0))
    [.recv 4, .get, .send [1, 2, 3], .put, .turn (some (.ok [7, 8])) (some 2), .enable, .takeRx,
      .turn none (some 1), .get] :=
  int_no_lost_wakeup (fun _ => 0) (fun _ => 0) (by decide +kernel) (by decide +kernel)

/-- Two bytes are there, and the receiver asks for none. -/
def nothingAsked : List Event :=
  [.turn (some (.ok [7, 8])) none, .recv 0, .get, .takeRx, .get]

/-- **Who asks for nothing is not woken** by what is there. -/
theorem nothing_asked_blocks :
    Guarded step (fun s e => s.permits e) (initInt (fun _ => 0) (fun _ => 0)) nothingAsked ∧
      Guarded step (fun s e => s.moves e) (initInt (fun _ => 0) (fun _ => 0)) nothingAsked ∧
      ¬ Always step (Awake fun _ => True) (initInt (fun _ => 0) (fun _ => 0)) nothingAsked := by
  refine ⟨by decide +kernel, by decide +kernel, fun h => ?_⟩
  have hreceiver := h.last.receiver 0
  revert hreceiver
  decide +kernel

end Uart

end Sdkz.App
