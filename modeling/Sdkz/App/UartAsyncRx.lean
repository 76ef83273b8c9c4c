import Sdkz.App.Uart

/-! # Receiving asynchronously (lib/app/uart.c)

The driver receives into two buffers in turn. It reports what has come in, and the callback
copies it to the ring; it asks for the buffer to go on with, and the callback hands out the
one that `fifo_next` points to; and it reports a buffer that it has left. It may do so at any
time, and the reports of different buffers may come in any order. The callback neither looks
whether the ring has room nor whether the buffer it hands out was given back. -/

namespace Sdkz.App
open Sdkz.Base

/-- `UART_FIFO_SIZE`. -/
abbrev uartFifoSize : Nat := 64

/-- What the driver reports to `_async_cb`; `rdy` carries the buffer, the offset and the
length. -/
inductive RxEvent where
  | rdy (buf : Fin 2) (offset len : Nat)
  | bufRequest
  | bufReleased (buf : Fin 2)
  | disabled

/-- Where the driver is: what it fills, how far, how much of it it has reported, what comes
next, and what it has left without having reported it. -/
structure RxDriver where
  current : Option (Fin 2)
  filled : Nat
  told : Nat
  next : Option (Fin 2)
  leaving : List (Fin 2)

/-- The buffers that are not the callback's to hand out. -/
def RxDriver.held (d : RxDriver) : List (Fin 2) := d.current.toList ++ d.next.toList ++ d.leaving

structure AsyncRx where
  handle : Handle
  fifoBuffer : Fin 2 → Nat → UInt8
  fifoNext : Fin 2
  driver : RxDriver
  receiver : Receiver
  /-- what came in over the line -/
  arrived : Bytes
  /-- what the driver has reported -/
  reported : Bytes
  /-- what `_recv_async_int` has returned -/
  returned : Bytes

namespace AsyncRx

/-- `_init_async`: the driver starts with the first buffer. -/
def initAsync (txData rxData : Nat → UInt8) (fifoBuffer : Fin 2 → Nat → UInt8) : AsyncRx where
  handle := initHandle txData rxData
  fifoBuffer := fifoBuffer
  fifoNext := 1
  driver := ⟨some 0, 0, 0, none, []⟩
  receiver := .idle
  arrived := []
  reported := []
  returned := []

/-- The receiving branches of `_async_cb`. -/
def asyncCb (s : AsyncRx) : RxEvent → AsyncRx
  | .rdy buf offset len =>
    let bytes := (List.range' offset len).map (s.fifoBuffer buf)
    { s with
      handle := { s.handle with
        rxBuffer := s.handle.rxBuffer.put bytes
        rxDone := s.handle.rxDone || decide (0 < len) }
      reported := s.reported ++ bytes }
  -- uart_rx_buf_rsp(dev, h->fifo_next, UART_FIFO_SIZE)
  | .bufRequest => { s with driver := { s.driver with next := some s.fifoNext } }
  | .bufReleased buf => { s with fifoNext := buf }
  | .disabled => s

/-- What can happen: a byte comes in, the driver reports something or goes on with the next
buffer or stops because there is none, or the receiving thread goes on. -/
inductive Event where
  | arrive (b : UInt8)
  | ready (len : Nat)
  | request
  | switch
  | release
  | disable
  | recv (len : Nat)
  | get
  | takeRx

def permits (s : AsyncRx) : Event → Bool
  | .arrive _ => s.driver.current.isSome && decide (s.driver.filled < uartFifoSize)
  | .ready len => s.driver.current.isSome && decide (s.driver.told + len ≤ s.driver.filled)
  | .request => s.driver.current.isSome && s.driver.next.isNone
  | .switch => s.driver.current.isSome && s.driver.next.isSome &&
      decide (s.driver.told = uartFifoSize)
  | .release => !s.driver.leaving.isEmpty
  | .disable => s.driver.current.isSome && s.driver.next.isNone &&
      decide (s.driver.told = uartFifoSize)
  | .recv _ => (s.receiver matches .idle)
  | .get => (s.receiver matches .get _)
  | .takeRx => s.handle.rxDone && (s.receiver matches .wait _)

/-- What a permitted event does. -/
def act (s : AsyncRx) : Event → AsyncRx
  | .arrive b =>
    match s.driver.current with
    | some c =>
      { s with
        fifoBuffer := Function.update s.fifoBuffer c
          (Function.update (s.fifoBuffer c) s.driver.filled b)
        driver := { s.driver with filled := s.driver.filled + 1 }
        arrived := s.arrived ++ [b] }
    | none => s
  | .ready len =>
    match s.driver.current with
    | some c =>
      { s with driver := { s.driver with told := s.driver.told + len } }.asyncCb
        (.rdy c s.driver.told len)
    | none => s
  | .request => s.asyncCb .bufRequest
  | .switch =>
    { s with driver := ⟨s.driver.next, 0, 0, none, s.driver.leaving ++ s.driver.current.toList⟩ }
  | .release =>
    match s.driver.leaving with
    | buf :: leaving => { s with driver := { s.driver with leaving } }.asyncCb (.bufReleased buf)
    | [] => s
  | .disable =>
    { s with driver := ⟨none, 0, 0, none, s.driver.leaving ++ s.driver.current.toList⟩ }.asyncCb
      .disabled
  | .recv len => { s with receiver := .get len }
  | .get =>
    match s.receiver with
    | .get len =>
      let ring := s.handle.rxBuffer
      { s with
        handle := { s.handle with rxBuffer := ring.get len }
        returned := s.returned ++ ring.got len
        receiver := if ring.getCount len = 0 then .wait len else .idle }
    | _ => s
  | .takeRx =>
    match s.receiver with
    | .wait len => { s with handle := { s.handle with rxDone := false }, receiver := .get len }
    | _ => s

/-- An event that cannot come next changes nothing. -/
def step (s : AsyncRx) (e : Event) : AsyncRx := if s.permits e then s.act e else s

/-- What has come in and is not reported yet. -/
def unreported (s : AsyncRx) : Bytes :=
  match s.driver.current with
  | some c => (List.range' s.driver.told (s.driver.filled - s.driver.told)).map (s.fifoBuffer c)
  | none => []

/-- Nothing is lost, doubled or out of order on the way to the thread; no buffer is used twice
at the same time; and the thread does not wait for what is there. -/
structure Exact (s : AsyncRx) : Prop where
  line : s.reported ++ s.unreported = s.arrived
  ring : s.returned ++ s.handle.rxBuffer.content = s.reported
  apart : s.driver.held.Nodup
  awake : ∀ len, s.receiver = .wait len → 0 < len → s.handle.rxDone = false →
    s.handle.rxBuffer.content = []

/-- What is reported fits into the ring, and a buffer is asked for when the last one that was
left has been reported. -/
def Timely (s : AsyncRx) : Event → Prop
  | .ready len => len ≤ s.handle.rxBuffer.spaceGet
  | .request => s.driver.leaving = []
  | _ => True

/-! ## The invariant -/

/-- The driver's side: which buffers it holds, and that `fifo_next` is the other one as soon
as all it has left are reported. -/
structure Buffers (s : AsyncRx) : Prop where
  apart : s.driver.held.Nodup
  told : s.driver.told ≤ s.driver.filled
  filled : s.driver.filled ≤ uartFifoSize
  single : s.driver.current.isSome → s.driver.leaving.length ≤ 1
  given : ∀ n, s.driver.next = some n → n = s.fifoNext ∧ s.driver.leaving = []
  other : s.driver.current.isSome → s.driver.next = none →
    (s.fifoNext ∈ s.driver.held ↔ s.driver.leaving ≠ [])

/-- The thread's side. -/
structure Queue (s : AsyncRx) : Prop where
  holds : s.handle.rxBuffer.Holds s.reported
  putHead : s.handle.rxBuffer.putHead = s.handle.rxBuffer.putTail
  getHead : s.handle.rxBuffer.getHead = s.handle.rxBuffer.getTail
  returned : s.returned = s.reported.take s.handle.rxBuffer.getTail
  receiving : ∀ len, s.receiver = .wait len → 0 < len →
    s.handle.rxDone = true ∨ s.handle.rxBuffer.putTail ≤ s.handle.rxBuffer.getTail

structure Inv (s : AsyncRx) : Prop where
  line : s.reported ++ s.unreported = s.arrived
  buffers : s.Buffers
  queue : s.Queue

theorem Inv.exact {s : AsyncRx} (I : s.Inv) : s.Exact where
  line := I.line
  ring := by rw [I.queue.returned, I.queue.holds.split]
  apart := I.buffers.apart
  awake := by
    intro len hwait hlen hdone
    refine Ring.content_eq_nil.mpr ((I.queue.receiving len hwait hlen).resolve_left ?_)
    rw [hdone]
    exact Bool.false_ne_true

theorem initAsync_inv (txData rxData : Nat → UInt8) (fifoBuffer : Fin 2 → Nat → UInt8) :
    (initAsync txData rxData fifoBuffer).Inv where
  line := rfl
  buffers :=
    { apart := by
        show [(0 : Fin 2)].Nodup
        decide
      told := Nat.le_refl 0
      filled := Nat.zero_le _
      single := fun _ => Nat.zero_le 1
      given := by
        intro n h
        cases h
      other := by
        intro _ _
        show (1 : Fin 2) ∈ [(0 : Fin 2)] ↔ ([] : List (Fin 2)) ≠ []
        simp }
  queue :=
    { holds := Ring.init_holds rxData
      putHead := rfl
      getHead := rfl
      returned := rfl
      receiving := by
        intro len h
        cases h }

/-! ## The driver's events -/

section Driver
variable {s : AsyncRx}

/-- Only the buffers change hands. -/
theorem Inv.of_buffers (I : s.Inv) {t : AsyncRx} (hbuffers : t.Buffers)
    (hline : t.unreported = s.unreported) (hhandle : t.handle = s.handle)
    (hreceiver : t.receiver = s.receiver) (harrived : t.arrived = s.arrived)
    (hreported : t.reported = s.reported) (hreturned : t.returned = s.returned) : t.Inv where
  line := by
    rw [hreported, hline, harrived]
    exact I.line
  buffers := hbuffers
  queue :=
    { holds := by
        rw [hhandle, hreported]
        exact I.queue.holds
      putHead := by
        rw [hhandle]
        exact I.queue.putHead
      getHead := by
        rw [hhandle]
        exact I.queue.getHead
      returned := by
        rw [hhandle, hreported, hreturned]
        exact I.queue.returned
      receiving := by
        rw [hhandle, hreceiver]
        exact I.queue.receiving }

theorem Inv.arrive (I : s.Inv) {b : UInt8} (hperm : s.permits (.arrive b)) :
    (s.act (.arrive b)).Inv := by
  unfold act
  cases hcurrent : s.driver.current with
  | none => simp [permits, hcurrent] at hperm
  | some c =>
    have hfilled : s.driver.filled < uartFifoSize := by simpa [permits, hcurrent] using hperm
    have htold := I.buffers.told
    refine ⟨?_, { I.buffers with told := ?_, filled := hfilled }, { I.queue with }⟩
    · rw [← I.line]
      simp only [unreported, hcurrent, Function.update_self, List.append_assoc]
      have hcount : s.driver.filled + 1 - s.driver.told = s.driver.filled - s.driver.told + 1 := by
        omega
      have hlast : s.driver.told + (s.driver.filled - s.driver.told) = s.driver.filled := by omega
      rw [hcount, List.range'_concat, Nat.one_mul, hlast, List.map_append, List.map_singleton,
        Function.update_self]
      congr 2
      refine List.map_congr_left fun i hi => Function.update_of_ne ?_ _ _
      obtain ⟨-, hlt⟩ := List.mem_range'_1.mp hi
      omega
    · show s.driver.told ≤ s.driver.filled + 1
      omega

/-- What fits into the ring is there behind what was. -/
theorem Inv.ready (I : s.Inv) {len : Nat} (hperm : s.permits (.ready len))
    (hfits : len ≤ s.handle.rxBuffer.spaceGet) : (s.act (.ready len)).Inv := by
  unfold act
  cases hcurrent : s.driver.current with
  | none => simp [permits, hcurrent] at hperm
  | some c =>
    have htold : s.driver.told + len ≤ s.driver.filled := by simpa [permits, hcurrent] using hperm
    have hlength : ((List.range' s.driver.told len).map (s.fifoBuffer c)).length = len := by simp
    have hcount : s.handle.rxBuffer.putCount
        ((List.range' s.driver.told len).map (s.fifoBuffer c)).length = len := by
      rw [hlength]
      exact Nat.min_eq_left hfits
    refine ⟨?_, { I.buffers with told := htold }, ?_⟩
    · rw [← I.line]
      simp only [unreported, asyncCb, hcurrent, List.append_assoc, ← List.map_append]
      congr 2
      have hrest : s.driver.filled - s.driver.told =
          len + (s.driver.filled - (s.driver.told + len)) := by omega
      rw [hrest, ← List.range'_append, Nat.one_mul]
    · refine { I.queue with holds := ?_, putHead := rfl, returned := ?_, receiving := ?_ }
      · have hput := I.queue.holds.put I.queue.putHead
          ((List.range' s.driver.told len).map (s.fifoBuffer c))
        rw [hcount, List.take_of_length_le (Nat.le_of_eq hlength)] at hput
        exact hput
      · show s.returned = (s.reported ++ _).take s.handle.rxBuffer.getTail
        rw [I.queue.returned]
        exact (List.take_append_of_le_length I.queue.holds.released).symm
      · intro n hwait hn
        show (s.handle.rxDone || decide (0 < len)) = true ∨
          s.handle.rxBuffer.putTail + s.handle.rxBuffer.putCount _ ≤ s.handle.rxBuffer.getTail
        rw [hcount]
        rcases I.queue.receiving n hwait hn with hdone | hnone
        · exact .inl (by rw [hdone, Bool.true_or])
        · by_cases hlen : 0 < len
          · exact .inl (by rw [decide_eq_true hlen, Bool.or_true])
          · exact .inr (by omega)

/-- A buffer that is handed out after the last report is not held. -/
theorem Inv.request (I : s.Inv) (hperm : s.permits .request) (htimely : s.driver.leaving = []) :
    (s.act .request).Inv := by
  obtain ⟨hcurrent, hnext⟩ : s.driver.current.isSome = true ∧ s.driver.next = none := by
    simpa [permits] using hperm
  have hfree : s.fifoNext ∉ s.driver.held := by
    intro hmem
    exact (I.buffers.other hcurrent hnext).mp hmem htimely
  have hheld : s.driver.held = s.driver.current.toList := by
    simp [RxDriver.held, hnext, htimely]
  refine I.of_buffers ?_ rfl rfl rfl rfl rfl rfl
  refine { I.buffers with apart := ?_, given := ?_, other := ?_ }
  · show (s.driver.current.toList ++ [s.fifoNext] ++ s.driver.leaving).Nodup
    rw [htimely, List.append_nil, ← hheld]
    refine List.nodup_append.mpr ⟨I.buffers.apart, by simp, ?_⟩
    rintro x hx y hy rfl
    rw [List.mem_singleton.mp hy] at hx
    exact hfree hx
  · intro n hn
    exact ⟨(Option.some.inj hn).symm, htimely⟩
  · intro _ hnone
    cases hnone

/-- The driver goes on with the buffer it was given, and leaves the full one. -/
theorem Inv.switch (I : s.Inv) (hperm : s.permits .switch) : (s.act .switch).Inv := by
  simp only [permits, Bool.and_eq_true, decide_eq_true_eq] at hperm
  obtain ⟨⟨hcurrent, hnext⟩, hfull⟩ := hperm
  obtain ⟨c, hc⟩ := Option.isSome_iff_exists.mp hcurrent
  obtain ⟨n, hn⟩ := Option.isSome_iff_exists.mp hnext
  obtain ⟨hgiven, hleaving⟩ := I.buffers.given n hn
  have hapart : [c, n].Nodup := by
    have hheld := I.buffers.apart
    rw [RxDriver.held, hc, hn, hleaving] at hheld
    exact hheld
  have hnothing : s.unreported = [] := by
    have hfilled := I.buffers.filled
    have htold := I.buffers.told
    have hall : s.driver.filled - s.driver.told = 0 := by omega
    simp [unreported, hc, hall]
  refine I.of_buffers ?_ ?_ rfl rfl rfl rfl rfl
  · refine ⟨?_, Nat.le_refl 0, Nat.zero_le _, fun _ => ?_, ?_, ?_⟩
    · simp only [act, RxDriver.held, hc, hn, hleaving]
      simpa [eq_comm] using hapart
    · simp [act, hc, hleaving]
    · intro m hm
      cases hm
    · intro _ _
      simp [act, RxDriver.held, hc, hn, hleaving, hgiven]
  · rw [hnothing]
    simp [act, unreported, hn]

theorem Inv.release (I : s.Inv) (hperm : s.permits .release) : (s.act .release).Inv := by
  cases hleaving : s.driver.leaving with
  | nil => simp [permits, hleaving] at hperm
  | cons buf leaving =>
    have hact : s.act .release =
        { s with driver := { s.driver with leaving }, fifoNext := buf } := by
      simp only [act, hleaving, asyncCb]
    have hnext : s.driver.next = none := by
      by_contra hsome
      obtain ⟨n, hn⟩ := Option.ne_none_iff_exists'.mp hsome
      rw [(I.buffers.given n hn).2] at hleaving
      cases hleaving
    have hapart := I.buffers.apart
    simp only [RxDriver.held, hnext, hleaving, Option.toList_none, List.append_nil] at hapart
    rw [hact]
    refine I.of_buffers ?_ rfl rfl rfl rfl rfl rfl
    refine { I.buffers with apart := ?_, single := fun hcurrent => ?_, given := ?_, other := ?_ }
    · simp only [RxDriver.held, hnext, Option.toList_none, List.append_nil]
      exact hapart.sublist (List.Sublist.append_left (List.sublist_cons_self buf leaving) _)
    · have hone := I.buffers.single hcurrent
      rw [hleaving, List.length_cons] at hone
      show leaving.length ≤ 1
      omega
    · intro n hn
      rw [show s.driver.next = some n from hn] at hnext
      cases hnext
    · intro hcurrent _
      have hone := I.buffers.single hcurrent
      rw [hleaving, List.length_cons] at hone
      have hnil : leaving = [] := List.length_eq_zero_iff.mp (by omega)
      subst hnil
      have hother : buf ∉ s.driver.current.toList := by
        intro hmem
        exact (List.nodup_append.mp hapart).2.2 buf hmem buf (List.mem_singleton_self buf) rfl
      simp [RxDriver.held, hnext, hother]

/-- Without a buffer to go on with the driver leaves the full one and stops. -/
theorem Inv.disable (I : s.Inv) (hperm : s.permits .disable) : (s.act .disable).Inv := by
  simp only [permits, Bool.and_eq_true, decide_eq_true_eq, Option.isNone_iff_eq_none] at hperm
  obtain ⟨⟨hcurrent, hnext⟩, hfull⟩ := hperm
  obtain ⟨c, hc⟩ := Option.isSome_iff_exists.mp hcurrent
  have hnothing : s.unreported = [] := by
    have hfilled := I.buffers.filled
    have htold := I.buffers.told
    have hall : s.driver.filled - s.driver.told = 0 := by omega
    simp [unreported, hc, hall]
  refine I.of_buffers ?_ ?_ rfl rfl rfl rfl rfl
  · refine ⟨?_, Nat.le_refl 0, Nat.zero_le _, ?_, ?_, ?_⟩
    · have hapart := I.buffers.apart
      simp only [RxDriver.held, hnext, Option.toList_none, List.append_nil] at hapart
      show ([] ++ [] ++ (s.driver.leaving ++ s.driver.current.toList)).Nodup
      rw [List.nil_append, List.nil_append]
      exact List.perm_append_comm.nodup_iff.mp hapart
    · intro hnone
      cases hnone
    · intro m hm
      cases hm
    · intro hnone
      cases hnone
  · rw [hnothing]
    rfl

end Driver

/-! ## The thread -/

theorem Inv.get {s : AsyncRx} (I : s.Inv) (hperm : s.permits .get) : (s.act .get).Inv := by
  unfold act
  cases hreceiver : s.receiver with
  | get len =>
    refine ⟨I.line, { I.buffers with }, ?_⟩
    refine { I.queue with
      holds := I.queue.holds.get len
      getHead := rfl
      returned := ?_
      receiving := ?_ }
    · show s.returned ++ _ = s.reported.take (s.handle.rxBuffer.getTail + _)
      rw [I.queue.holds.got, I.queue.returned, I.queue.getHead, List.take_add]
    · intro n hwait hn
      simp only at hwait
      split at hwait
      · rename_i hcount
        obtain rfl := Receiver.wait.inj hwait
        have hget := I.queue.getHead
        right
        show s.handle.rxBuffer.putTail ≤ s.handle.rxBuffer.getTail + s.handle.rxBuffer.getCount len
        unfold Ring.getCount Ring.sizeGet at hcount ⊢
        omega
      · cases hwait
  | _ => simp [permits, hreceiver] at hperm

theorem Inv.takeRx {s : AsyncRx} (I : s.Inv) (hperm : s.permits .takeRx) :
    (s.act .takeRx).Inv := by
  unfold act
  cases hreceiver : s.receiver with
  | wait len =>
    refine ⟨I.line, { I.buffers with }, { I.queue with receiving := ?_ }⟩
    intro n hwait
    cases hwait
  | _ => simp [permits, hreceiver] at hperm

theorem Inv.recv {s : AsyncRx} (I : s.Inv) (len : Nat) : (s.act (.recv len)).Inv := by
  refine ⟨I.line, { I.buffers with }, { I.queue with receiving := ?_ }⟩
  intro n hwait
  cases hwait

/-! ## Runs -/

theorem Inv.step {s : AsyncRx} (I : s.Inv) {e : Event} (htimely : s.permits e → s.Timely e) :
    (s.step e).Inv := by
  unfold AsyncRx.step
  split
  · rename_i hperm
    cases e with
    | arrive b => exact I.arrive hperm
    | ready len => exact I.ready hperm (htimely hperm)
    | request => exact I.request hperm (htimely hperm)
    | switch => exact I.switch hperm
    | release => exact I.release hperm
    | disable => exact I.disable hperm
    | recv len => exact I.recv len
    | get => exact I.get hperm
    | takeRx => exact I.takeRx hperm
  · exact I

/-- What does not fit is lost, and a buffer that is asked for too early is handed out twice. -/
theorem Inv.breaks {s : AsyncRx} (I : s.Inv) {e : Event}
    (hlate : ¬ (s.permits e → s.Timely e)) : ¬ (s.step e).Exact := by
  obtain ⟨hperm, hlate⟩ := Classical.not_imp.mp hlate
  intro hexact
  rw [AsyncRx.step, if_pos hperm] at hexact
  cases e with
  | ready len =>
    cases hcurrent : s.driver.current with
    | none => simp [permits, hcurrent] at hperm
    | some c =>
      have hring := congrArg List.length hexact.ring
      have hcount : s.handle.rxBuffer.putCount len = s.handle.rxBuffer.spaceGet :=
        Nat.min_eq_right (Nat.le_of_not_le hlate)
      have hreturned := congrArg List.length I.exact.ring
      have hreleased := Nat.le_trans s.handle.rxBuffer.getTail_le s.handle.rxBuffer.getHead_le
      simp only [act, hcurrent, asyncCb, Ring.content, Ring.put, Ring.bytesAt, List.length_append,
        List.length_map, List.length_range', hcount] at hring hreturned
      simp only [Timely] at hlate
      omega
  | request =>
    obtain ⟨hcurrent, hnext⟩ : s.driver.current.isSome = true ∧ s.driver.next = none := by
      simpa [permits] using hperm
    have hheld := (I.buffers.other hcurrent hnext).mpr hlate
    have happart := hexact.apart
    simp only [act, asyncCb, RxDriver.held, Option.toList_some] at happart
    simp only [RxDriver.held, hnext, Option.toList_none, List.append_nil] at hheld
    rw [List.append_assoc] at happart
    have hperm' := (List.perm_middle.nodup_iff).mp happart
    exact (List.nodup_cons.mp hperm').1 hheld
  | _ => exact hlate trivial

/-- **Asynchronous reception is exact exactly as long as** every report fits into the ring and
every buffer is asked for after the last one that was left has been reported. -/
theorem async_rx_exact_iff (txData rxData : Nat → UInt8) (fifoBuffer : Fin 2 → Nat → UInt8)
    (l : List Event) :
    Always step Exact (initAsync txData rxData fifoBuffer) l ↔
      Guarded step (fun s e => s.permits e → s.Timely e) (initAsync txData rxData fifoBuffer) l :=
  always_iff_guarded (fun _ _ I h => I.step h) (fun _ _ I h => I.breaks h) (fun _ I => I.exact)
    (initAsync_inv txData rxData fifoBuffer)

end AsyncRx

end Sdkz.App
