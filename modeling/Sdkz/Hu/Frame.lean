import Sdkz.Hu.Body

/-! # What the parser holds while it receives a frame

`Receiving` says what the handle contains after the start mark and a part of the
body, for bodies that fit the buffer and the argument table. `receive_body` is
the induction over the body; `close_frame` adds the end mark. -/

namespace Sdkz.Hu
open Sdkz.Base

variable {N : Nat} {W X : Type}

/-! ## One turn of the loop -/

theorem processByte_idle (fw : Firmware N W X) {m : Machine N W X} {b : UInt8}
    (hm : m.handle.state = hupStateNone) (hb : isStartMark b = false) :
    processByte fw m b = m := by
  simp [processByte, hm, hb]

theorem processByte_start {fw : Firmware N W X} (m : Machine N W X) {b : UInt8}
    (hb : isStartMark b = true) :
    processByte fw m b =
      ⟨m.world, { m.handle.reset with
          state := 0, argc := 1, response := b != enqOfCommand
          argv := m.handle.argv.setIfInBounds 0 0 },
        m.log ++ [.storeArgv 0]⟩ := by
  simp [processByte, hb, Machine.mapHandle, Machine.emit, pushArgv, HupHandle.reset,
    HupHandle.storeArgv]

theorem processByte_end {fw : Firmware N W X} {m : Machine N W X}
    (hm : m.handle.state ≠ hupStateNone) :
    processByte fw m endOfPacket = processData fw (storeByte m 0) := by
  simp +decide [processByte, hm, isStartMark]

theorem processByte_crc {fw : Firmware N W X} {m : Machine N W X}
    (hm : m.handle.state ≠ hupStateNone) :
    processByte fw m crcMark = if m.handle.hasRoom then
      (storeByte m 0).mapHandle fun h =>
        { h with state := h.state + 1, crc16 := some (h.state + 1).toNat }
      else m.mapHandle .reset := by
  simp +decide [processByte, hm, isStartMark]

theorem processByte_record {fw : Firmware N W X} {m : Machine N W X}
    (hm : m.handle.state ≠ hupStateNone) :
    processByte fw m recordMark =
      appendByte (pushArgv fw m (m.handle.state + 1).toNat) recordMark := by
  simp +decide [processByte, hm, isStartMark]

/-- A byte of a text: no mark of the format. -/
def isText (b : UInt8) : Bool :=
  !isStartMark b && b != endOfPacket && b != crcMark && b != recordMark

theorem processByte_text {fw : Firmware N W X} {m : Machine N W X} {b : UInt8}
    (hm : m.handle.state ≠ hupStateNone) (hb : isText b = true) :
    processByte fw m b = appendByte m b := by
  simp only [isText, Bool.and_eq_true, Bool.not_eq_true', bne_iff_ne, ne_eq] at hb
  obtain ⟨⟨⟨hs, he⟩, hc⟩, hr⟩ := hb
  simp [processByte, hm, hs, he, hc, hr]

/-- A byte of a body: neither a start nor an end mark. -/
def isBody (b : UInt8) : Bool := !isStartMark b && b != endOfPacket

theorem isBody_cases {b : UInt8} (h : isBody b = true) :
    b = crcMark ∨ b = recordMark ∨ isText b = true := by
  by_cases hc : b = crcMark
  · exact .inl hc
  · by_cases hr : b = recordMark
    · exact .inr (.inl hr)
    · refine .inr (.inr ?_)
      simp only [isBody, Bool.and_eq_true] at h
      simp [isText, h.1, hc, hr]
      simpa using h.2

/-! ## Silent steps -/

def Event.isStore {X : Type} : Event X → Bool
  | .storeBuffer _ | .storeArgv _ => true
  | _ => false

/-- From `m` to `m'` nothing happens that can be seen from outside: the parser
stores into the handle and keeps the last verdict. -/
structure Silent (m m' : Machine N W X) : Prop where
  world : m'.world = m.world
  crcMatch : m'.handle.crcMatch = m.handle.crcMatch
  log : ∃ ev : List (Event X), m'.log = m.log ++ ev ∧ ∀ e ∈ ev, e.isStore

theorem Silent.refl (m : Machine N W X) : Silent m m := ⟨rfl, rfl, [], by simp, by simp⟩

theorem Silent.trans {m m' m'' : Machine N W X} (h : Silent m m') (h' : Silent m' m'') :
    Silent m m'' := by
  obtain ⟨ev, hlog, hev⟩ := h.log
  obtain ⟨ev', hlog', hev'⟩ := h'.log
  refine ⟨h'.world.trans h.world, h'.crcMatch.trans h.crcMatch, ev ++ ev', ?_, ?_⟩
  · rw [hlog', hlog, List.append_assoc]
  · exact fun e he => (List.mem_append.mp he).elim (hev e) (hev' e)

theorem silent_reset (m : Machine N W X) : Silent m (m.mapHandle .reset) :=
  ⟨rfl, rfl, [], by simp [Machine.mapHandle], by simp⟩

theorem silent_storeByte (m : Machine N W X) (v : UInt8) : Silent m (storeByte m v) := by
  refine ⟨rfl, ?_, [.storeBuffer m.handle.state], rfl, by simp [Event.isStore]⟩
  simp only [storeByte, Machine.mapHandle, Machine.emit, HupHandle.storeBuffer]
  split
  · rfl
  · split <;> rfl

theorem silent_pushArgv (fw : Firmware N W X) (m : Machine N W X) (p : Nat) :
    Silent m (pushArgv fw m p) := by
  refine ⟨rfl, ?_, [.storeArgv m.handle.argc], rfl, by simp [Event.isStore]⟩
  simp only [pushArgv, Machine.mapHandle, Machine.emit, HupHandle.storeArgv]
  split
  · rfl
  · split <;> rfl

theorem silent_appendByte (m : Machine N W X) (b : UInt8) : Silent m (appendByte m b) := by
  unfold appendByte
  split
  · obtain ⟨hw, hc, ev, hlog, hev⟩ := silent_storeByte m b
    exact ⟨hw, hc, ev, hlog, hev⟩
  · exact silent_reset m

/-- Bytes of a body and start marks are taken silently, in any state. -/
theorem silent_processByte (fw : Firmware N W X) (m : Machine N W X) {b : UInt8}
    (hb : b ≠ endOfPacket) : Silent m (processByte fw m b) := by
  by_cases hs : isStartMark b = true
  · rw [processByte_start m hs]
    exact ⟨rfl, rfl, _, rfl, by simp [Event.isStore]⟩
  · have hs : isStartMark b = false := by simpa using hs
    by_cases hm : m.handle.state = hupStateNone
    · rw [processByte_idle fw hm hs]
      exact .refl m
    · rcases isBody_cases (b := b) (by simp [isBody, hs, hb]) with rfl | rfl | ht
      · rw [processByte_crc hm]
        split
        · obtain ⟨hw, hc, ev, hlog, hev⟩ := silent_storeByte m 0
          exact ⟨hw, hc, ev, hlog, hev⟩
        · exact silent_reset m
      · rw [processByte_record hm]
        exact (silent_pushArgv fw m _).trans (silent_appendByte _ _)
      · rw [processByte_text hm ht]
        exact silent_appendByte m b

theorem silent_processHupacket (fw : Firmware N W X) (m : Machine N W X) {s : Bytes}
    (hs : endOfPacket ∉ s) : Silent m (processHupacket fw m s) := by
  induction s generalizing m with
  | nil => exact .refl m
  | cons b s ih =>
    simp only [List.mem_cons, not_or] at hs
    exact (silent_processByte fw m (Ne.symm hs.1)).trans (ih _ hs.2)

/-! ## Inside a frame -/

/-- The handle after a start mark and the bytes `body`. -/
structure Receiving (start : UInt8) (body : Bytes) (h : HupHandle N) : Prop where
  state : h.state = body.length
  argc : h.argc = body.count recordMark + 1
  argv : h.argv.toList.take h.argc = 0 :: recordStarts 0 body
  buffer : h.buffer.toList.take body.length = stored body
  response : h.response = (start != enqOfCommand)
  id : h.id = none
  sequence : h.sequence = none
  crc16 : h.crc16 = crcStart body

theorem Receiving.inside {start : UInt8} {body : Bytes} {h : HupHandle N}
    (r : Receiving start body h) : h.state ≠ hupStateNone := by
  rw [r.state, hupStateNone]
  omega

theorem hasRoom_eq {h : HupHandle N} {k : Nat} (hk : h.state = k) (hlt : k < 2 ^ 32) :
    h.hasRoom = decide (k < N) := by
  rw [HupHandle.hasRoom, hk, Int.emod_eq_of_lt (by omega) (by omega), Int.toNat_natCast]

theorem take_succ_set {α : Type} {l : List α} {k : Nat} (v : α) (hk : k < l.length) :
    (l.set k v).take (k + 1) = l.take k ++ [v] := by
  rw [List.take_succ_eq_append_getElem (by simpa using hk)]
  simp [List.take_set_of_le]

theorem receiving_start (fw : Firmware N W X) (m : Machine N W X) {b : UInt8}
    (hb : isStartMark b = true) : Receiving b [] (processByte fw m b).handle := by
  rw [processByte_start m hb]
  refine ⟨rfl, rfl, ?_, rfl, rfl, rfl, rfl, rfl⟩
  simpa [recordStarts] using take_succ_set (l := m.handle.argv.toList) (k := 0) 0 (by simp)

/-- One byte of the body, as long as buffer and table have room for it. -/
theorem Receiving.step (fw : Firmware N W X) {m : Machine N W X} {start b : UInt8} {body : Bytes}
    (r : Receiving start body m.handle) (hb : isBody b = true) (hlen : body.length < N)
    (hrec : b = recordMark → body.count recordMark < 63) :
    Receiving start (body ++ [b]) (processByte fw m b).handle := by
  have hroom : m.handle.hasRoom = true := by
    have := fw.addrAbove
    have := fw.addrFits
    rw [hasRoom_eq r.state (by omega), decide_eq_true hlen]
  have hstate : m.handle.state.toNat = body.length := by rw [r.state, Int.toNat_natCast]
  have hin : 0 ≤ m.handle.state ∧ m.handle.state < N := by rw [r.state]; omega
  have hsucc : (m.handle.state + 1).toNat = body.length + 1 := by rw [r.state]; omega
  have hbuf : ∀ v : UInt8, (m.handle.buffer.toList.set body.length v).take (body.length + 1) =
      stored body ++ [v] := by
    intro v
    rw [take_succ_set v (by simpa using hlen), r.buffer]
  rcases isBody_cases hb with rfl | rfl | ht
  · rw [processByte_crc r.inside, if_pos hroom]
    simp only [storeByte, Machine.mapHandle, Machine.emit, HupHandle.storeBuffer, hin, and_self,
      hstate, if_true, hsucc]
    refine ⟨by simp [r.state], by simp +decide [r.argc], ?_, ?_, r.response, r.id, r.sequence, ?_⟩
    · simpa +decide [recordStarts_append] using r.argv
    · simpa [stored] using hbuf 0
    · simp [crcStart_append]
  · have hargc : m.handle.argc < 64 := by
      have := hrec rfl
      rw [r.argc]
      omega
    rw [processByte_record r.inside, appendByte]
    have hroom' : (pushArgv fw m (m.handle.state + 1).toNat).handle.hasRoom = true := by
      simpa [pushArgv, Machine.mapHandle, Machine.emit, HupHandle.storeArgv, hargc,
        HupHandle.hasRoom] using hroom
    rw [if_pos hroom']
    simp only [pushArgv, storeByte, Machine.mapHandle, Machine.emit, HupHandle.storeArgv, hargc,
      if_true, HupHandle.storeBuffer, hin, and_self, hstate, hsucc]
    refine ⟨by simp [r.state], by simp [r.argc], ?_, ?_, r.response, r.id, r.sequence, ?_⟩
    · rw [Vector.toList_setIfInBounds, take_succ_set _ (by simpa using hargc), r.argv]
      simp [recordStarts_append]
    · simpa +decide [stored] using hbuf recordMark
    · simp +decide [crcStart_append, r.crc16]
  · have hne : b ≠ crcMark ∧ b ≠ recordMark := by
      simp only [isText, Bool.and_eq_true, bne_iff_ne] at ht
      exact ⟨ht.1.2, ht.2⟩
    rw [processByte_text r.inside ht, appendByte, if_pos hroom]
    simp only [storeByte, Machine.mapHandle, Machine.emit, HupHandle.storeBuffer, hin, and_self,
      hstate, if_true]
    refine ⟨by simp [r.state], by simp [r.argc, hne.2], ?_, ?_, r.response, r.id, r.sequence, ?_⟩
    · simpa [recordStarts_append, hne.2] using r.argv
    · simpa [stored, hne.1] using hbuf b
    · simp [crcStart_append, hne.1, r.crc16]

/-- **A body is received as it is.** From a handle that holds a first part of the
body, the rest is appended, up to a full buffer and a full argument table. -/
theorem Receiving.run (fw : Firmware N W X) {start : UInt8} :
    ∀ {rest body : Bytes} {m : Machine N W X}, Receiving start body m.handle →
      (∀ b ∈ rest, isBody b = true) → (body ++ rest).length ≤ N →
      (body ++ rest).count recordMark ≤ 63 →
      Receiving start (body ++ rest) (processHupacket fw m rest).handle
  | [], body, m, r, _, _, _ => by simpa [processHupacket] using r
  | b :: rest, body, m, r, hb, hlen, hrec => by
    have hstep := r.step fw (hb b (by simp)) (by simp at hlen; omega) (by
      rintro rfl
      simp only [List.count_append, List.count_cons_self] at hrec
      omega)
    have hrest : ∀ c ∈ rest, isBody c = true := fun c hc => hb c (List.mem_cons_of_mem b hc)
    have := hstep.run fw hrest (by simpa using hlen) (by simpa using hrec)
    simpa [processHupacket] using this

theorem receive_body (fw : Firmware N W X) (m : Machine N W X) {start : UInt8} {body : Bytes}
    (hstart : isStartMark start = true) (hbody : ∀ b ∈ body, isBody b = true)
    (hlen : body.length ≤ N) (hrec : body.count recordMark ≤ 63) :
    Receiving start body (processHupacket fw m (start :: body)).handle :=
  (receiving_start fw m hstart).run fw hbody (by simpa using hlen) (by simpa using hrec)

end Sdkz.Hu
