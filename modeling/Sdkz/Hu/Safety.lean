import Sdkz.Base.Run
import Sdkz.Hu.Outcome

/-! # Where the parser stores

Two arrays of the handle are written by `process_hupacket`: `buffer` at the
index `state` and `argv` at the index `argc`. The guards of the branches keep
`state` at most `N` and let it reach `N`; only the branch of the end mark stores
without a guard. `argv` is written without any guard.

Both arrays are safe in a run exactly if no step of the run meets the one state
in which the missing guard matters. -/

namespace Sdkz.Hu
open Sdkz.Base

variable {N : Nat} {W X : Type}

/-! ## Stores in the log -/

/-- The stores of `process_hupacket`, in order. -/
def stores (log : List (Event X)) : List (Event X) := log.filter Event.isStore

theorem stores_append (a b : List (Event X)) : stores (a ++ b) = stores a ++ stores b :=
  List.filter_append _ _

theorem Replies.stores {m m' : Machine N W X} (h : Replies m m') :
    stores m'.log = stores m.log := by
  obtain ⟨-, ev, hlog, hev⟩ := h
  have hnone : Hu.stores ev = [] := List.filter_eq_nil_iff.mpr fun e he => by
    have := hev e he
    cases e <;> simp_all [Event.isStore, Event.isReply]
  rw [hlog, stores_append, hnone, List.append_nil]

/-! ## What `process_data` leaves alone -/

/-- Behind the end mark the handle either keeps its position and its arguments,
or is reset. -/
def Settled (h h' : HupHandle N) : Prop :=
  (h'.state = h.state ∧ h'.argc = h.argc ∧ h'.argv = h.argv) ∨
    (h'.state = hupStateNone ∧ h'.argc = 0)

theorem settled_dispatch (fw : Firmware N W X) (m : Machine N W X) :
    Settled m.handle (dispatch fw m).handle ∧ stores (dispatch fw m).log = stores m.log := by
  refine ⟨.inr ⟨rfl, rfl⟩, ?_⟩
  unfold dispatch
  dsimp only [Machine.mapHandle]
  split
  · rename_i c _
    rw [(c.replies _ _ _).stores]
    simp [Machine.emit, stores, Event.isStore]
  · simp [Machine.emit, stores, Event.isStore]

theorem settled_processData (fw : Firmware N W X) (m : Machine N W X) :
    Settled m.handle (processData fw m).handle ∧ stores (processData fw m).log = stores m.log := by
  unfold processData
  cases hc : m.handle.crc16 with
  | none => exact settled_dispatch fw m
  | some crc =>
    simp only
    split
    · have hs := hupacketSendBuffer_sends fw (hupacketNakResponse_builds
        (m.mapHandle fun h => { h with crcMatch := crcVerdict fw h crc }) (-enmCrc16))
      refine ⟨.inl ?_, hs.replies.stores⟩
      rw [hs.handle]
      exact ⟨rfl, rfl, rfl⟩
    · exact settled_dispatch fw (m.mapHandle fun h => { h with crcMatch := crcVerdict fw h crc })

/-! ## The write position -/

/-- The position is outside a frame, inside the buffer or just behind it, and the
table is at most full. -/
structure HandleOk (h : HupHandle N) : Prop where
  state : h.state = hupStateNone ∨ (0 ≤ h.state ∧ h.state ≤ N)
  argc : h.argc ≤ 64

theorem HandleOk.hasRoom (fw : Firmware N W X) {h : HupHandle N} (ok : HandleOk h)
    (hin : h.state ≠ hupStateNone) : h.hasRoom = decide (h.state < N) := by
  have habove := fw.addrAbove
  have hfits := fw.addrFits
  have hpos := ok.state.resolve_left hin
  rw [hasRoom_eq (k := h.state.toNat) (by omega) (by omega)]
  exact decide_eq_decide.mpr (by omega)

theorem storeBuffer_fields (h : HupHandle N) (i : Int) (v : UInt8) :
    (h.storeBuffer i v).state = h.state ∧ (h.storeBuffer i v).argc = h.argc ∧
      (h.storeBuffer i v).argv = h.argv := by
  unfold HupHandle.storeBuffer
  split
  · exact ⟨rfl, rfl, rfl⟩
  · split <;> exact ⟨rfl, rfl, rfl⟩

/-- The pointer stored behind a full argument table is no buffer index. -/
theorem storeArgv_overflow (fw : Firmware N W X) (h : HupHandle N) {p : Nat} (hp : p ≤ N + 1) :
    (h.storeArgv fw.bufferAddr 64 p).hasRoom = false := by
  have habove := fw.addrAbove
  have hfits := fw.addrFits
  have hmod : Int.bmod ((fw.bufferAddr : Int) + p) (2 ^ 32) % 2 ^ 32 = fw.bufferAddr + p := by
    have := Int.bmod_emod (x := (fw.bufferAddr : Int) + p) (m := 2 ^ 32)
    rw [show ((2 ^ 32 : Nat) : Int) = 2 ^ 32 by rfl] at this
    rw [this, Int.emod_eq_of_lt (by omega) (by omega)]
  simp only [HupHandle.storeArgv, HupHandle.hasRoom, Nat.lt_irrefl, if_false, if_true,
    decide_eq_false_iff_not, hmod]
  omega

/-- What one byte does to position and arguments, with the stores it makes. -/
inductive Turn (h : HupHandle N) (b : UInt8) : HupHandle N → List (Event X) → Prop
  | ignored (hin : h.state = hupStateNone) (hb : isStartMark b = false) : Turn h b h []
  | opened {h'} (hb : isStartMark b = true) (hs : h'.state = 0) (hc : h'.argc = 1)
      (hv : h'.argv = h.argv.setIfInBounds 0 0) : Turn h b h' [.storeArgv 0]
  | closed {h'} (hin : h.state ≠ hupStateNone) (hb : b = endOfPacket) (hs : Settled h h') :
      Turn h b h' [.storeBuffer h.state]
  | stored {h'} (hin : 0 ≤ h.state ∧ h.state < N) (hb : isBody b = true) (hr : b ≠ recordMark)
      (hs : h'.state = h.state + 1) (hc : h'.argc = h.argc) (hv : h'.argv = h.argv) :
      Turn h b h' [.storeBuffer h.state]
  | record {h'} (hin : 0 ≤ h.state ∧ h.state < N) (hb : b = recordMark) (harg : h.argc < 64)
      (hs : h'.state = h.state + 1) (hc : h'.argc = h.argc + 1)
      (hv : h'.argv = h.argv.setIfInBounds h.argc (h.state + 1).toNat) :
      Turn h b h' [.storeArgv h.argc, .storeBuffer h.state]
  | dropped {h'} (hin : h.state = N) (hb : isBody b = true) (hr : b ≠ recordMark)
      (hs : h'.state = hupStateNone) (hc : h'.argc = 0) : Turn h b h' []
  | recordDropped {h'} (hin : h.state ≠ hupStateNone) (hb : b = recordMark)
      (hfull : h.state = N ∨ h.argc = 64) (hs : h'.state = hupStateNone) (hc : h'.argc = 0) :
      Turn h b h' [.storeArgv h.argc]

theorem turn_appendByte (fw : Firmware N W X) {m : Machine N W X} (ok : HandleOk m.handle)
    (hin : m.handle.state ≠ hupStateNone) {b : UInt8} (hb : isText b = true) :
    ∃ ev, Turn m.handle b (appendByte m b).handle ev ∧
      stores (appendByte m b).log = stores m.log ++ ev := by
  have hbody : isBody b = true ∧ b ≠ recordMark := by
    simp only [isText, Bool.and_eq_true, bne_iff_ne] at hb
    simp [isBody, hb]
  have hpos := ok.state.resolve_left hin
  have hf := storeBuffer_fields m.handle m.handle.state b
  unfold appendByte
  rw [ok.hasRoom fw hin]
  by_cases hlt : m.handle.state < N
  · rw [if_pos (by simpa using hlt)]
    refine ⟨_, .stored ⟨hpos.1, hlt⟩ hbody.1 hbody.2 ?_ hf.2.1 hf.2.2, ?_⟩
    · exact congrArg (· + 1) hf.1
    · simp [storeByte, Machine.mapHandle, Machine.emit, stores, Event.isStore]
  · rw [if_neg (by simpa using hlt)]
    exact ⟨_, .dropped (by omega) hbody.1 hbody.2 rfl rfl, (List.append_nil _).symm⟩

theorem turn_crc (fw : Firmware N W X) {m : Machine N W X} (ok : HandleOk m.handle)
    (hin : m.handle.state ≠ hupStateNone) :
    ∃ ev, Turn m.handle crcMark (processByte fw m crcMark).handle ev ∧
      stores (processByte fw m crcMark).log = stores m.log ++ ev := by
  have hpos := ok.state.resolve_left hin
  have hf := storeBuffer_fields m.handle m.handle.state 0
  rw [processByte_crc hin, ok.hasRoom fw hin]
  by_cases hlt : m.handle.state < N
  · rw [if_pos (by simpa using hlt)]
    refine ⟨_, .stored ⟨hpos.1, hlt⟩ (by decide) (by decide) ?_ hf.2.1 hf.2.2, ?_⟩
    · exact congrArg (· + 1) hf.1
    · simp [storeByte, Machine.mapHandle, Machine.emit, stores, Event.isStore]
  · rw [if_neg (by simpa using hlt)]
    exact ⟨_, .dropped (by omega) (by decide) (by decide) rfl rfl, (List.append_nil _).symm⟩

theorem turn_record (fw : Firmware N W X) {m : Machine N W X} (ok : HandleOk m.handle)
    (hin : m.handle.state ≠ hupStateNone) :
    ∃ ev, Turn m.handle recordMark (processByte fw m recordMark).handle ev ∧
      stores (processByte fw m recordMark).log = stores m.log ++ ev := by
  have hpos := ok.state.resolve_left hin
  have hpush : stores (pushArgv fw m (m.handle.state + 1).toNat).log =
      stores m.log ++ [.storeArgv m.handle.argc] := by
    simp [pushArgv, Machine.mapHandle, Machine.emit, stores, Event.isStore]
  rw [processByte_record hin, appendByte]
  by_cases hfull : m.handle.argc = 64
  · -- the pointer lands in the position, which then is no index
    have hroom : (pushArgv fw m (m.handle.state + 1).toNat).handle.hasRoom = false := by
      have := storeArgv_overflow fw m.handle (p := (m.handle.state + 1).toNat) (by omega)
      simpa [pushArgv, Machine.mapHandle, Machine.emit, hfull, HupHandle.hasRoom] using this
    rw [hroom, if_neg (by simp)]
    exact ⟨_, .recordDropped hin rfl (.inr hfull) rfl rfl, hpush⟩
  · have harg : m.handle.argc < 64 := by
      have := ok.argc
      omega
    have hh : (pushArgv fw m (m.handle.state + 1).toNat).handle = { m.handle with
        argv := m.handle.argv.setIfInBounds m.handle.argc (m.handle.state + 1).toNat
        argc := m.handle.argc + 1 } := by
      simp [pushArgv, Machine.mapHandle, Machine.emit, HupHandle.storeArgv, harg]
    have hroom : (pushArgv fw m (m.handle.state + 1).toNat).handle.hasRoom =
        decide (m.handle.state < N) := by
      rw [hh, ← ok.hasRoom fw hin]
      rfl
    have hf := storeBuffer_fields (pushArgv fw m (m.handle.state + 1).toNat).handle
      (pushArgv fw m (m.handle.state + 1).toNat).handle.state recordMark
    rw [hroom]
    by_cases hlt : m.handle.state < N
    · rw [if_pos (by simpa using hlt)]
      refine ⟨_, .record ⟨hpos.1, hlt⟩ rfl harg ?_ ?_ ?_, ?_⟩
      · refine (congrArg (· + 1) hf.1).trans ?_
        rw [hh]
      · refine hf.2.1.trans ?_
        rw [hh]
      · refine hf.2.2.trans ?_
        rw [hh]
      · have hstate : (pushArgv fw m (m.handle.state + 1).toNat).handle.state =
            m.handle.state := by rw [hh]
        simp only [storeByte, Machine.mapHandle, Machine.emit, stores_append, hstate] at hpush ⊢
        rw [hpush]
        simp [stores, Event.isStore]
    · rw [if_neg (by simpa using hlt)]
      exact ⟨_, .recordDropped hin rfl (.inl (by omega)) rfl rfl, hpush⟩

theorem turn_processByte (fw : Firmware N W X) {m : Machine N W X} (ok : HandleOk m.handle)
    (b : UInt8) : ∃ ev, Turn m.handle b (processByte fw m b).handle ev ∧
      stores (processByte fw m b).log = stores m.log ++ ev := by
  by_cases hs : isStartMark b = true
  · rw [processByte_start m hs]
    exact ⟨_, .opened hs rfl rfl rfl, by simp [stores, Event.isStore]⟩
  have hs : isStartMark b = false := by simpa using hs
  by_cases hin : m.handle.state = hupStateNone
  · rw [processByte_idle fw hin hs]
    exact ⟨_, .ignored hin hs, (List.append_nil _).symm⟩
  by_cases he : b = endOfPacket
  · subst he
    obtain ⟨hset, hlog⟩ := settled_processData fw (storeByte m 0)
    have hf := storeBuffer_fields m.handle m.handle.state 0
    have hset' : Settled m.handle (processData fw (storeByte m 0)).handle := by
      rcases hset with ⟨h1, h2, h3⟩ | h
      · exact .inl ⟨h1.trans hf.1, h2.trans hf.2.1, h3.trans hf.2.2⟩
      · exact .inr h
    rw [processByte_end hin]
    refine ⟨_, .closed hin rfl hset', ?_⟩
    rw [hlog]
    simp [storeByte, Machine.mapHandle, Machine.emit, stores, Event.isStore]
  · rcases isBody_cases (b := b) (by simp [isBody, hs, he]) with rfl | rfl | ht
    · exact turn_crc fw ok hin
    · exact turn_record fw ok hin
    · rw [processByte_text hin ht]
      exact turn_appendByte fw ok hin ht

/-- The position never passes `N`, whatever arrives. -/
theorem Turn.ok {h h' : HupHandle N} {b : UInt8} {ev : List (Event X)} (t : Turn h b h' ev)
    (ok : HandleOk h) (hN : 0 < N) : HandleOk h' := by
  have hargc := ok.argc
  cases t with
  | ignored => exact ok
  | opened hb hs hc hv => exact ⟨.inr (by omega), by omega⟩
  | closed hin hb hs =>
    rcases hs with ⟨h1, h2, -⟩ | ⟨h1, h2⟩
    · exact ⟨by rw [h1]; exact ok.state, by omega⟩
    · exact ⟨.inl h1, by omega⟩
  | stored hin hb hr hs hc hv => exact ⟨.inr (by omega), by omega⟩
  | record hin hb harg hs hc hv => exact ⟨.inr (by omega), by omega⟩
  | dropped hin hb hr hs hc => exact ⟨.inl hs, by omega⟩
  | recordDropped hin hb hfull hs hc => exact ⟨.inl hs, by omega⟩

/-! ## The receive buffer -/

/-- Every store into `buffer` made so far was inside it. -/
def BufferSafe (m : Machine N W X) : Prop :=
  ∀ i : Int, .storeBuffer i ∈ m.log → 0 ≤ i ∧ i < N

/-- A frame with `N` or more body bytes changes nothing outside the handle, and
the parser stays idle up to the next start mark. -/
def OversizedDropped (fw : Firmware N W X) (m : Machine N W X) (s : Bytes) : Prop :=
  ∀ p start body q, isStartMark start = true → (∀ b ∈ body, isBody b = true) → N ≤ body.length →
    (∀ b ∈ q, isStartMark b = false) → p ++ (frame start body ++ q) <+: s →
      Silent (processHupacket fw m p) (processHupacket fw m (p ++ (frame start body ++ q))) ∧
      (processHupacket fw m (p ++ (frame start body ++ q))).handle.state = hupStateNone

/-- No end mark arrives while the buffer is full. -/
def NoEndWhenFull (m : Machine N W X) (b : UInt8) : Prop := b = endOfPacket → m.handle.state ≠ N

theorem mem_stores {e : Event X} (he : e.isStore = true) {log : List (Event X)} :
    e ∈ stores log ↔ e ∈ log := by
  simp [stores, he]

theorem handleOk_processByte (fw : Firmware N W X) {m : Machine N W X} (ok : HandleOk m.handle)
    (b : UInt8) : HandleOk (processByte fw m b).handle := by
  obtain ⟨ev, t, -⟩ := turn_processByte fw ok b
  exact t.ok ok fw.sizePos

theorem handleOk_fresh (N : Nat) : HandleOk (HupHandle.fresh N) := ⟨.inl rfl, Nat.zero_le _⟩

theorem handleOk_processHupacket (fw : Firmware N W X) {m : Machine N W X} (ok : HandleOk m.handle)
    (s : Bytes) : HandleOk (processHupacket fw m s).handle :=
  List.foldlRecOn (motive := fun m => HandleOk m.handle) s (processByte fw) ok
    fun _ ih b _ => handleOk_processByte fw ih b

/-- The buffer stores of one byte. -/
theorem Turn.buffer {h h' : HupHandle N} {b : UInt8} {ev : List (Event X)} (t : Turn h b h' ev)
    {i : Int} (hi : .storeBuffer i ∈ ev) :
    i = h.state ∧ h.state ≠ hupStateNone ∧ (i < N ∨ b = endOfPacket) := by
  have hnone : hupStateNone = -1 := rfl
  cases t with
  | ignored => simp at hi
  | opened => simp at hi
  | closed hin hb hs =>
    rw [List.mem_singleton, Event.storeBuffer.injEq] at hi
    exact ⟨hi, hin, .inr hb⟩
  | stored hin hb hr hs hc hv =>
    rw [List.mem_singleton, Event.storeBuffer.injEq] at hi
    exact ⟨hi, by omega, .inl (by omega)⟩
  | record hin hb harg hs hc hv =>
    rw [List.mem_pair] at hi
    simp only [reduceCtorEq, Event.storeBuffer.injEq, false_or] at hi
    exact ⟨hi, by omega, .inl (by omega)⟩
  | dropped => simp at hi
  | recordDropped => simp at hi

theorem bufferSafe_step (fw : Firmware N W X) {m : Machine N W X}
    (inv : HandleOk m.handle ∧ BufferSafe m) {b : UInt8} (hc : NoEndWhenFull m b) :
    HandleOk (processByte fw m b).handle ∧ BufferSafe (processByte fw m b) := by
  obtain ⟨ok, safe⟩ := inv
  obtain ⟨ev, t, hlog⟩ := turn_processByte fw ok b
  refine ⟨t.ok ok fw.sizePos, fun i hi => ?_⟩
  rw [← mem_stores rfl, hlog, List.mem_append, mem_stores rfl] at hi
  rcases hi with hi | hi
  · exact safe i hi
  · obtain ⟨rfl, hin, hlt⟩ := t.buffer hi
    have hpos := ok.state.resolve_left hin
    refine ⟨hpos.1, ?_⟩
    rcases hlt with hlt | hend
    · exact hlt
    · have := hc hend
      omega

theorem bufferSafe_break (fw : Firmware N W X) {m : Machine N W X} {b : UInt8}
    (hc : ¬ NoEndWhenFull m b) : ¬ BufferSafe (processByte fw m b) := by
  intro safe
  obtain ⟨rfl, hfull⟩ : b = endOfPacket ∧ m.handle.state = N := by
    simpa [NoEndWhenFull] using hc
  have hin : m.handle.state ≠ hupStateNone := by rw [hfull, hupStateNone]; omega
  have hmem : .storeBuffer N ∈ (processByte fw m endOfPacket).log := by
    rw [processByte_end hin, ← mem_stores rfl, (settled_processData fw _).2, mem_stores rfl]
    simp [storeByte, Machine.mapHandle, Machine.emit, hfull]
  have := safe N hmem
  omega

theorem Turn.body {h h' : HupHandle N} {b : UInt8} {ev : List (Event X)} (t : Turn h b h' ev)
    (hb : isBody b = true) : h'.state = hupStateNone ∨
      (h.state ≠ hupStateNone ∧ h'.state = h.state + 1) := by
  have hnone : hupStateNone = -1 := rfl
  cases t with
  | ignored hin => exact .inl hin
  | opened hs => simp [isBody, hs] at hb
  | closed hin he => simp [isBody, he] at hb
  | stored hin _ _ hs => exact .inr ⟨by omega, hs⟩
  | record hin _ _ hs => exact .inr ⟨by omega, hs⟩
  | dropped _ _ _ hs => exact .inl hs
  | recordDropped _ _ _ hs => exact .inl hs

/-- Body bytes move the position by one each, until the frame is dropped. -/
theorem position_body (fw : Firmware N W X) {body : Bytes} (hb : ∀ b ∈ body, isBody b = true)
    {m : Machine N W X} (ok : HandleOk m.handle) {k : Nat}
    (hk : m.handle.state = hupStateNone ∨ m.handle.state = k) :
    (processHupacket fw m body).handle.state = hupStateNone ∨
      (processHupacket fw m body).handle.state = k + body.length := by
  induction body generalizing m k with
  | nil => simpa [processHupacket] using hk
  | cons b body ih =>
    have hbody := hb b (by simp)
    have hstep : (processByte fw m b).handle.state = hupStateNone ∨
        (processByte fw m b).handle.state = ((k + 1 : Nat) : Int) := by
      obtain ⟨ev, t, -⟩ := turn_processByte fw ok b
      refine (t.body hbody).imp id fun hmoved => ?_
      rw [hmoved.2, hk.resolve_left hmoved.1]
      rfl
    have hrun := ih (fun c hc => hb c (List.mem_cons_of_mem b hc)) (handleOk_processByte fw ok b)
      hstep
    refine hrun.imp id fun h => ?_
    rw [List.length_cons]
    exact Eq.trans h (by push_cast; ring)

/-- Bytes between frames are ignored. -/
theorem processHupacket_noise (fw : Firmware N W X) {q : Bytes}
    (hq : ∀ b ∈ q, isStartMark b = false) {m : Machine N W X}
    (hm : m.handle.state = hupStateNone) : processHupacket fw m q = m := by
  induction q with
  | nil => rfl
  | cons b q ih =>
    have hb := processByte_idle fw hm (hq b (by simp))
    refine Eq.trans ?_ (ih fun c hc => hq c (List.mem_cons_of_mem b hc))
    simp [processHupacket, hb]

theorem oversized_dropped (fw : Firmware N W X) {m : Machine N W X} (ok : HandleOk m.handle)
    {s : Bytes} (hg : Guarded (processByte fw) NoEndWhenFull m s) : OversizedDropped fw m s := by
  intro p start body q hstart hbody hlen hq hpre
  have hopen : endOfPacket ∉ start :: body := by
    intro hm
    rcases List.mem_cons.mp hm with rfl | hm
    · revert hstart
      decide
    · have := hbody _ hm
      revert this
      decide
  have hsil := silent_processHupacket fw (processHupacket fw m p) hopen
  have okp := handleOk_processHupacket fw ok p
  have hpos := position_body fw hbody (handleOk_processByte fw okp start) (k := 0) (by
    rw [processByte_start _ hstart]
    exact .inr rfl)
  have hfull := hg (p ++ start :: body) endOfPacket (by
    refine List.IsPrefix.trans ?_ hpre
    simp [frame])
  have hidle : (processHupacket fw (processHupacket fw m p) (start :: body)).handle.state =
      hupStateNone := by
    refine hpos.resolve_right fun he => ?_
    have ok' := handleOk_processHupacket fw okp (start :: body)
    have hle := ok'.state
    have he' : (processHupacket fw (processHupacket fw m p) (start :: body)).handle.state =
        body.length := he.trans (by simp)
    rw [he'] at hle
    refine hfull rfl ?_
    change (processHupacket fw m (p ++ start :: body)).handle.state = N
    rw [processHupacket_append, he']
    have hnone : hupStateNone = -1 := rfl
    omega
  have hrun : processHupacket fw m (p ++ (frame start body ++ q)) =
      processHupacket fw (processHupacket fw m p) (start :: body) := by
    have hsplit : p ++ (frame start body ++ q) = p ++ (start :: body) ++ (endOfPacket :: q) := by
      simp [frame]
    rw [hsplit, processHupacket_append, processHupacket_append]
    refine processHupacket_noise fw (fun b hb => ?_) hidle
    rcases List.mem_cons.mp hb with rfl | hb
    · decide
    · exact hq b hb
  rw [hrun]
  exact ⟨hsil, hidle⟩

theorem bufferSafe_iff (fw : Firmware N W X) {m : Machine N W X} (ok : HandleOk m.handle)
    (safe : BufferSafe m) (s : Bytes) :
    Always (processByte fw) BufferSafe m s ↔ Guarded (processByte fw) NoEndWhenFull m s :=
  always_iff_guarded (I := fun m => HandleOk m.handle ∧ BufferSafe m)
    (fun _ _ inv hc => bufferSafe_step fw inv hc) (fun _ _ _ hc => bufferSafe_break fw hc)
    (fun _ inv => inv.2) ⟨ok, safe⟩

theorem bufferSafe_fresh (w : W) : BufferSafe (.fresh N w : Machine N W X) := by
  intro i hi
  simp [Machine.fresh] at hi

/-- **The receive buffer.** In a run from a fresh handle, cut into calls in any
way, every store into the buffer is inside it and oversized frames are dropped,
exactly if no end mark arrives while the buffer is full. -/
theorem buffer_safe_iff (fw : Firmware N W X) (w : W) (chunks : List Bytes) :
    (Always (processByte fw) BufferSafe (.fresh N w) chunks.flatten ∧
        OversizedDropped fw (.fresh N w) chunks.flatten) ↔
      Guarded (processByte fw) NoEndWhenFull (.fresh N w) chunks.flatten := by
  have ok := handleOk_fresh N
  rw [bufferSafe_iff fw ok (bufferSafe_fresh w)]
  exact ⟨And.left, fun hg => ⟨hg, oversized_dropped fw ok hg⟩⟩

/-- A frame whose body fills the buffer meets its end mark with no room left. -/
theorem full_frame_not_guarded (fw : Firmware N W X) (m : Machine N W X) {start : UInt8}
    {body : Bytes} (hstart : isStartMark start = true) (hbody : ∀ b ∈ body, isBody b = true)
    (hlen : body.length = N) (hrec : body.count recordMark ≤ 63) :
    ¬ Guarded (processByte fw) NoEndWhenFull m (frame start body) := by
  intro hg
  have r := receive_body fw m hstart hbody (by omega) hrec
  exact hg (start :: body) endOfPacket (List.prefix_refl _) rfl (r.state.trans (by omega))

/-- A command of 1536 letters: the end mark is stored into the flag behind the
buffer, and the frame is processed instead of dropped. -/
theorem full_frame_overruns :
    ¬ (Always (processByte (image (W := Unit) (X := Empty) [] [])) BufferSafe (.fresh packetSize ())
        [frame enqOfCommand (List.replicate packetSize 97)].flatten ∧
      OversizedDropped (image [] []) (.fresh packetSize () : Machine packetSize Unit Empty)
        [frame enqOfCommand (List.replicate packetSize 97)].flatten) := by
  rintro ⟨hsafe, -⟩
  have hg := (bufferSafe_iff _ (handleOk_fresh packetSize) (bufferSafe_fresh ()) _).mp hsafe
  rw [List.flatten_singleton] at hg
  refine full_frame_not_guarded _ _ rfl (fun b hb => ?_) List.length_replicate ?_ hg
  · rw [List.eq_of_mem_replicate hb]
    decide
  · rw [List.count_replicate]
    decide

/-! ## The argument table -/

/-- The table and the stores into it so far are as the code relies on. -/
structure TableSafe (m : Machine N W X) : Prop where
  argc : m.handle.argc ≤ 64
  inFrame : m.handle.state ≠ hupStateNone → 1 ≤ m.handle.argc
  argv : ∀ i (h : i < 64), i < m.handle.argc → m.handle.argv[i] < N
  stores : ∀ i, .storeArgv i ∈ m.log → i < 64

/-- A record mark inside a frame finds room for its pointer, and the byte it
points to is inside the buffer. -/
def RecordFits (m : Machine N W X) (b : UInt8) : Prop :=
  b = recordMark → m.handle.state ≠ hupStateNone →
    m.handle.argc < 64 ∧ m.handle.state + 1 ≠ N

/-- The table stores of one byte. -/
theorem Turn.table {h h' : HupHandle N} {b : UInt8} {ev : List (Event X)} (t : Turn h b h' ev)
    {i : Nat} (hi : .storeArgv i ∈ ev) :
    i = 0 ∨ (b = recordMark ∧ h.state ≠ hupStateNone ∧ i = h.argc) := by
  have hnone : hupStateNone = -1 := rfl
  cases t with
  | ignored => simp at hi
  | opened => exact .inl (by simpa using hi)
  | closed => simp at hi
  | stored => simp at hi
  | record hin hb => exact .inr ⟨hb, by omega, by simpa using hi⟩
  | dropped => simp at hi
  | recordDropped hin hb => exact .inr ⟨hb, hin, by simpa using hi⟩

theorem Turn.args {h h' : HupHandle N} {b : UInt8} {ev : List (Event X)} (t : Turn h b h' ev)
    (hN : 0 < N) (hin : h.state ≠ hupStateNone → 1 ≤ h.argc)
    (hargv : ∀ i (hi : i < 64), i < h.argc → h.argv[i] < N)
    (hc : b = recordMark → h.state ≠ hupStateNone → h.argc < 64 ∧ h.state + 1 ≠ N) :
    (h'.state ≠ hupStateNone → 1 ≤ h'.argc) ∧
      ∀ i (hi : i < 64), i < h'.argc → h'.argv[i] < N := by
  have hnone : hupStateNone = -1 := rfl
  have hreset : h'.state = hupStateNone → h'.argc = 0 → (h'.state ≠ hupStateNone → 1 ≤ h'.argc) ∧
      ∀ i (hi : i < 64), i < h'.argc → h'.argv[i] < N :=
    fun hs hc => ⟨fun h => absurd hs h, fun i _ h => by omega⟩
  cases t with
  | ignored => exact ⟨hin, hargv⟩
  | opened hb hs hc hv =>
    refine ⟨fun _ => by omega, fun i hi hlt => ?_⟩
    obtain rfl : i = 0 := by omega
    simp [hv, hN]
  | closed _ _ hs =>
    rcases hs with ⟨h1, h2, h3⟩ | ⟨h1, h2⟩
    · rw [h1, h2, h3]
      exact ⟨hin, hargv⟩
    · exact hreset h1 h2
  | stored hpos _ _ hs hc hv =>
    rw [hc, hv]
    exact ⟨fun _ => hin (by omega), hargv⟩
  | record hpos hb harg hs hc' hv =>
    have hfit := hc hb (by omega)
    refine ⟨fun _ => by omega, fun i hi hlt => ?_⟩
    simp only [hv]
    rw [Vector.getElem_setIfInBounds]
    split
    · omega
    · exact hargv i hi (by omega)
  | dropped _ _ _ hs hc => exact hreset hs hc
  | recordDropped _ _ _ hs hc => exact hreset hs hc

theorem tableSafe_step (fw : Firmware N W X) {m : Machine N W X}
    (inv : HandleOk m.handle ∧ TableSafe m) {b : UInt8} (hc : RecordFits m b) :
    HandleOk (processByte fw m b).handle ∧ TableSafe (processByte fw m b) := by
  obtain ⟨ok, safe⟩ := inv
  obtain ⟨ev, t, hlog⟩ := turn_processByte fw ok b
  have ok' := t.ok ok fw.sizePos
  obtain ⟨hin, hargv⟩ := t.args fw.sizePos safe.inFrame safe.argv hc
  refine ⟨ok', ok'.argc, hin, hargv, fun i hi => ?_⟩
  rw [← mem_stores rfl, hlog, List.mem_append, mem_stores rfl] at hi
  rcases hi with hi | hi
  · exact safe.stores i hi
  · rcases t.table hi with rfl | ⟨hb, hne, rfl⟩
    · omega
    · exact (hc hb hne).1

theorem tableSafe_break (fw : Firmware N W X) {m : Machine N W X}
    (inv : HandleOk m.handle ∧ TableSafe m) {b : UInt8} (hc : ¬ RecordFits m b) :
    ¬ TableSafe (processByte fw m b) := by
  intro safe
  obtain ⟨ok, -⟩ := inv
  obtain ⟨rfl, hin, hfit⟩ : b = recordMark ∧ m.handle.state ≠ hupStateNone ∧
      (m.handle.argc < 64 → m.handle.state + 1 = N) := by
    simpa [RecordFits] using hc
  have hpos := ok.state.resolve_left hin
  have hargc := ok.argc
  obtain ⟨ev, t, hlog⟩ := turn_processByte fw ok recordMark
  have hpush : .storeArgv m.handle.argc ∈ ev → m.handle.argc < 64 := fun hm => by
    refine safe.stores _ ?_
    rw [← mem_stores rfl, hlog]
    exact List.mem_append_right _ hm
  have hargv := safe.argv
  generalize (processByte fw m recordMark).handle = h' at t hargv
  cases t with
  | ignored hidle => exact hin hidle
  | opened hb => revert hb; decide
  | closed _ hb => revert hb; decide
  | stored _ _ hr => exact hr rfl
  | record _ _ harg hs hc hv =>
    have := hargv m.handle.argc harg (by omega)
    have hlast := hfit harg
    simp only [hv, Vector.getElem_setIfInBounds_self] at this
    omega
  | dropped _ _ hr => exact hr rfl
  | recordDropped _ _ hfull =>
    have := hfit (hpush (by simp))
    have := hpush (by simp)
    omega

theorem tableSafe_fresh (w : W) : TableSafe (.fresh N w : Machine N W X) :=
  ⟨Nat.zero_le _, fun h => absurd rfl h, fun i _ h => absurd h (Nat.not_lt_zero i), fun i h => by
    simp [Machine.fresh] at h⟩

theorem tableSafe_iff (fw : Firmware N W X) (w : W) (s : Bytes) :
    Always (processByte fw) TableSafe (.fresh N w) s ↔
      Guarded (processByte fw) RecordFits (.fresh N w) s :=
  always_iff_guarded (I := fun m => HandleOk m.handle ∧ TableSafe m)
    (fun _ _ inv hc => tableSafe_step fw inv hc) (fun _ _ inv hc => tableSafe_break fw inv hc)
    (fun _ inv => inv.2) ⟨handleOk_fresh N, tableSafe_fresh w⟩

/-- **The argument table.** In a run from a fresh handle, cut into calls in any
way, the table is safe after every byte exactly if every record mark inside a
frame fits. -/
theorem table_safe_iff (fw : Firmware N W X) (w : W) (chunks : List Bytes) :
    Always (processByte fw) TableSafe (.fresh N w) chunks.flatten ↔
      Guarded (processByte fw) RecordFits (.fresh N w) chunks.flatten :=
  tableSafe_iff fw w chunks.flatten

/-- With 63 records the table is full, and a further record mark does not fit. -/
theorem full_table_not_guarded (fw : Firmware N W X) (m : Machine N W X) {start : UInt8}
    {body : Bytes} (hstart : isStartMark start = true) (hbody : ∀ b ∈ body, isBody b = true)
    (hlen : body.length ≤ N) (hrec : body.count recordMark = 63) :
    ¬ Guarded (processByte fw) RecordFits m (start :: body ++ [recordMark]) := by
  intro hg
  have r := receive_body fw m hstart hbody hlen (by omega)
  have hfit : (processHupacket fw m (start :: body)).handle.argc < 64 :=
    (hg _ _ (List.prefix_refl _) rfl r.inside).1
  have hargc := r.argc
  omega

/-- A command of 64 record marks: the 65th pointer is stored behind the table. -/
theorem record_marks_overrun :
    ¬ Always (processByte (image (W := Unit) (X := Empty) [] [])) TableSafe (.fresh packetSize ())
      [enqOfCommand :: List.replicate 64 recordMark].flatten := by
  rw [tableSafe_iff, List.flatten_singleton, List.replicate_succ' (n := 63), ← List.cons_append]
  refine full_table_not_guarded _ _ rfl ?_ ?_ ?_
  · exact List.all_eq_true.mp (by decide)
  · decide
  · rw [List.count_replicate_self]

end Sdkz.Hu
