import Sdkz.Hu.Service

/-! # The parser refines the server

`Refines` relates a machine to a server: same world, same verdict, the frame the
server holds open is the one the handle has received, and what is seen is the
same. One byte keeps the relation (`refines_processByte`) as long as no end mark
meets a full buffer, and so does a stream. What that says about the code ends with the
first reply that does not fit `tx_buffer`, so `parser_refines_server` asks that all fit. -/

namespace Sdkz.Hu
open Sdkz.Base

variable {N : Nat} {W X : Type}

/-! ## What the handle holds of an open frame -/

/-- A frame that fits the handle so far. -/
structure Fits (N : Nat) (start : UInt8) (body : Bytes) : Prop where
  opens : isStartMark start = true
  inside : ∀ b ∈ body, isBody b = true
  length : body.length ≤ N
  records : body.count recordMark ≤ 63

/-- The handle is outside any frame, or has received the open one. -/
inductive Tracks (h : HupHandle N) : Option (UInt8 × Bytes) → Prop
  | idle (outside : h.state = hupStateNone) : Tracks h none
  | inside {start : UInt8} {body : Bytes} (received : Receiving start body h)
      (fits : Fits N start body) : Tracks h (some (start, body))

theorem Fits.append {start b : UInt8} {body : Bytes} (f : Fits N start body)
    (hb : isBody b = true) (ha : admits N body b = true) : Fits N start (body ++ [b]) := by
  obtain ⟨hlen, hrec⟩ := admits_iff.mp ha
  refine ⟨f.opens, fun c hc => ?_, ?_, ?_⟩
  · rcases List.mem_append.mp hc with hc | hc
    · exact f.inside c hc
    · rw [List.mem_singleton.mp hc]
      exact hb
  · rw [List.length_append, List.length_singleton]
    omega
  · have hcount := f.records
    rw [List.count_append]
    by_cases he : b = recordMark
    · have := hrec he
      rw [he, List.count_singleton_self]
      omega
    · rw [List.count_singleton, beq_false_of_ne he]
      simpa using hcount

theorem Tracks.ok {h : HupHandle N} {start : UInt8} {body : Bytes}
    (t : Tracks h (some (start, body))) : HandleOk h := by
  cases t with
  | inside r f =>
    have hlen := f.length
    have hrec := f.records
    refine ⟨.inr ?_, ?_⟩
    · rw [r.state]
      omega
    · rw [r.argc]
      omega

/-- A byte the server takes is received. -/
theorem tracks_admitted (fw : Firmware N W X) {m : Machine N W X} {start b : UInt8} {body : Bytes}
    (r : Receiving start body m.handle) (f : Fits N start body) (hb : isBody b = true)
    (ha : admits N body b = true) :
    Tracks (processByte fw m b).handle (some (start, body ++ [b])) := by
  obtain ⟨hlen, hrec⟩ := admits_iff.mp ha
  exact .inside (r.step fw hb hlen hrec) (f.append hb ha)

/-- A byte there is no room for drops the frame. -/
theorem tracks_dropped (fw : Firmware N W X) {m : Machine N W X} {start b : UInt8} {body : Bytes}
    (r : Receiving start body m.handle) (f : Fits N start body) (hb : isBody b = true)
    (ha : ¬ admits N body b = true) : Tracks (processByte fw m b).handle none := by
  have hfull : body.length = N ∨ (b = recordMark ∧ body.count recordMark = 63) := by
    have hlen := f.length
    have hrec := f.records
    by_contra hne
    obtain ⟨hlong, hfew⟩ := not_or.mp hne
    refine ha (admits_iff.mpr ⟨by omega, fun he => ?_⟩)
    have hmore : body.count recordMark ≠ 63 := fun h => hfew ⟨he, h⟩
    omega
  have hstate := r.state
  have hargc := r.argc
  obtain ⟨ev, t, -⟩ := turn_processByte fw (Tracks.ok (.inside r f)) b
  refine .idle ?_
  generalize (processByte fw m b).handle = h' at t
  cases t with
  | ignored hin => exact hin
  | opened hs => simp [isBody, hs] at hb
  | closed hin he => simp [isBody, he] at hb
  | stored hin _ hr =>
    rcases hfull with hl | ⟨he, -⟩
    · omega
    · exact absurd he hr
  | record hin _ harg => omega
  | dropped _ _ _ hs => exact hs
  | recordDropped _ _ _ hs => exact hs

/-! ## Machine and server side by side -/

/-- The machine, which had shown `shown` before, is where the server is. -/
structure Refines (shown : List (Event X)) (m : Machine N W X) (s : Server W X) : Prop where
  world : m.world = s.world
  verdict : m.handle.crcMatch = s.verdict
  opened : Tracks m.handle s.opened
  seen : visible m.log = shown ++ s.seen

section Byte
variable {fw : Firmware N W X} {services : Services W X} {shown : List (Event X)}
  {m : Machine N W X} {s : Server W X}

/-- A silent step keeps everything but the open frame. -/
theorem Refines.silent (h : Refines shown m s) {m' : Machine N W X} (hs : Silent m m')
    {opened : Option (UInt8 × Bytes)} (ht : Tracks m'.handle opened) :
    Refines shown m' { s with opened := opened } :=
  ⟨hs.world.trans h.world, hs.crcMatch.trans h.verdict, ht, hs.unseen.seen.trans h.seen⟩

/-- A command with a wrong CRC: the answer is sent, and the frame stays open. -/
theorem Refines.rejected (h : Refines shown m s) {body : Bytes}
    (c : Closed enqOfCommand body m.handle) (f : Fits N enqOfCommand body)
    (hv : verdictOf fw body = some false) :
    Refines shown (processData fw m) { s with
      verdict := false, opened := some (enqOfCommand, body)
      seen := s.seen ++ [.send (crcNak fw body)] } := by
  have hs := processData_rejected c hv
  obtain ⟨crc, hcrc⟩ : ∃ crc, m.handle.crc16 = some crc := by
    cases hc : m.handle.crc16 with
    | none =>
      have := c.verdict fw
      rw [hc, hv] at this
      cases this
    | some crc => exact ⟨crc, rfl⟩
  have hrun : processData fw m =
      hupacketSendBuffer fw (hupacketNakResponse (setMatch m false) (-enmCrc16)) := by
    have hver := c.verdict fw
    rw [hcrc, hv, Option.map_some, Option.some.injEq] at hver
    have hresp : m.handle.response = false := c.response
    simp [processData, hcrc, Machine.mapHandle, hver, hresp, setMatch]
  have hbuild := hupacketNakResponse_builds (setMatch m false) (-enmCrc16)
  obtain ⟨hworld, hseen⟩ := hupacketSendBuffer_seen fw hbuild
  have hquiet : Unseen m (hupacketNakResponse (setMatch m false) (-enmCrc16)) :=
    ((Unseen.refl m).mapHandle _).nakResponse _
  have hsent : reply fw (setMatch m false).handle.crc16.isSome
      (nakOfResponse :: (setMatch m false).handle.header ++ recordMark :: itoa10 (-enmCrc16)) =
      crcNak fw body := by
    have hsome : (setMatch m false).handle.crc16 = some crc := hcrc
    have hheader : (setMatch m false).handle.header = unsplit body := (c.withMatch false).header
    rw [hsome, hheader]
    rfl
  refine ⟨?_, ?_, ?_, ?_⟩
  · rw [hrun, hworld, hquiet.world]
    exact h.world
  · rw [hs.handle]
    rfl
  · rw [hs.handle]
    have r := (c.withMatch false).toReceiving
    exact .inside ⟨r.state, r.argc, r.argv, r.buffer, r.response, r.id, r.sequence, r.crc16⟩ f
  · rw [hrun, hseen, hsent, hquiet.seen, h.seen, List.append_assoc]

/-- Any other complete frame reaches the tables. -/
theorem Refines.presented (h : Refines shown m s) (hp : fw.Provides services) {start : UInt8}
    {body : Bytes} (c : Closed start body m.handle) :
    Refines shown (dispatch fw m) (s.present services start body) := by
  have hentry : Option.Rel HupCmd.Serves (entryFor fw start body)
      (services (packetOf start body).response (commandOf body)) := hp _ (commandOf body)
  have hpacket : (presentedTo m start body).handle.packet = packetOf start body := c.packet
  have hverdict : (presentedTo m start body).handle.crcMatch = s.verdict :=
    c.split.crcMatch.trans h.verdict
  have hlog : visible (presentedTo m start body).log =
      shown ++ (s.seen ++ [.lookup (packetOf start body) s.verdict]) := by
    rw [presentedTo, visible_append, h.seen, List.append_assoc, ← h.verdict]
    rfl
  rw [dispatch_eq fw c, Server.present, h.verdict]
  generalize services (packetOf start body).response (commandOf body) = service at hentry ⊢
  generalize entryFor fw start body = entry at hentry ⊢
  cases hentry with
  | none => exact ⟨h.world, hverdict, .idle rfl, hlog⟩
  | @some e serve hserves =>
    generalize hmc : (presentedTo m start body).emit
      (.call (packetOf start body) s.verdict) = mc
    have hworld : mc.world = s.world := hmc ▸ h.world
    have hpk : mc.handle.packet = packetOf start body := hmc ▸ hpacket
    have hm : mc.handle.crcMatch = s.verdict := hmc ▸ hverdict
    have hshown : visible mc.log = shown ++ (s.seen ++
        [.lookup (packetOf start body) s.verdict, .call (packetOf start body) s.verdict]) := by
      rw [← hmc, Machine.emit, visible_append, hlog]
      simp [visible, List.filter, Event.isVisible]
    have hargc : 0 < mc.handle.argc := by
      have hkeep : mc.handle.argc = m.handle.argc := hmc ▸ c.split.argc
      rw [hkeep, c.argc]
      omega
    have hwork := hserves.world mc hargc
    have hseen := hserves.seen mc hargc
    have hkept := (e.replies mc ((records body).length + 1) (commandOf body :: records body)).1
    rw [hpk, hm, hworld] at hwork hseen
    refine ⟨hwork, ?_, .idle rfl, ?_⟩
    · refine Eq.trans ?_ hm
      change (e.func mc _ _).handle.crcMatch = _
      rw [hkept]
    · refine hseen.trans ?_
      rw [hshown]
      simp

/-- **One byte.** Machine and server take it alike, unless it is an end mark that
meets a full buffer. -/
theorem refines_processByte (hp : fw.Provides services) {b : UInt8} (h : Refines shown m s)
    (hroom : s.EndFits N b) :
    Refines shown (processByte fw m b) (s.read fw services b) := by
  unfold Server.read
  by_cases hs : isStartMark b = true
  · rw [if_pos hs]
    have hne : b ≠ endOfPacket := by
      rintro rfl
      revert hs
      decide
    exact h.silent (silent_processByte fw m hne)
      (.inside (receiving_start fw m hs) ⟨hs, by simp, by simp, by simp⟩)
  rw [if_neg hs]
  have hs : isStartMark b = false := by simpa using hs
  have hopened := h.opened
  cases ho : s.opened with
  | none =>
    rw [ho] at hopened
    cases hopened with
    | idle hidle =>
      rw [processByte_idle fw hidle hs]
      exact h
  | some open_ =>
    obtain ⟨start, body⟩ := open_
    rw [ho] at hopened
    cases hopened with
    | inside r f =>
      dsimp only
      by_cases he : b = endOfPacket
      · rw [if_pos he, he, processByte_end r.inside]
        have hlen : body.length < N := by
          have := hroom he start body ho
          have := f.length
          omega
        have c := r.close hlen
        have hclosed : Refines shown (storeByte m 0) { s with opened := some (start, body) } :=
          h.silent (silent_storeByte m 0) (.inside c.toReceiving f)
        unfold Server.complete
        by_cases hv : start = enqOfCommand ∧ verdictOf fw body = some false
        · rw [if_pos hv]
          obtain ⟨rfl, hv⟩ := hv
          have := hclosed.rejected c f hv
          rwa [← ho] at this
        · rw [if_neg hv, processData_presented c hv, hclosed.verdict, ← ho]
          have hset : Refines shown (setMatch (storeByte m 0)
              ((verdictOf fw body).getD s.verdict)) { s with
                verdict := (verdictOf fw body).getD s.verdict, opened := some (start, body) } :=
            ⟨hclosed.world, rfl, .inside (c.withMatch _).toReceiving f, hclosed.seen⟩
          rw [← ho] at hset
          exact hset.presented hp (c.withMatch _)
      · rw [if_neg he]
        have hb : isBody b = true := by simp [isBody, hs, he]
        have hsil := silent_processByte fw m he
        by_cases ha : admits N body b = true
        · rw [if_pos ha]
          exact h.silent hsil (tracks_admitted fw r f hb ha)
        · rw [if_neg ha]
          exact h.silent hsil (tracks_dropped fw r f hb ha)

/-- The end mark meets a full buffer in the machine exactly if it does in the
server. -/
theorem Refines.endFits (h : Refines shown m s) (b : UInt8) :
    NoEndWhenFull m b ↔ s.EndFits N b := by
  have hopened := h.opened
  unfold NoEndWhenFull Server.EndFits
  cases ho : s.opened with
  | none =>
    rw [ho] at hopened
    cases hopened with
    | idle hidle =>
      have hnone : hupStateNone = -1 := rfl
      exact iff_of_true (fun _ => by omega) (by simp)
  | some open_ =>
    obtain ⟨start, body⟩ := open_
    rw [ho] at hopened
    cases hopened with
    | inside r f =>
      rw [r.state]
      simp

end Byte

theorem simulates_server {fw : Firmware N W X} {services : Services W X} (hp : fw.Provides services)
    (shown : List (Event X)) :
    Simulates (processByte fw) (Server.read fw services) NoEndWhenFull (Refines shown) :=
  fun _ _ b h hc => refines_processByte hp h ((h.endFits b).mp hc)

theorem refines_fresh (w : W) : Refines [] (.fresh N w : Machine N W X) (.fresh w) :=
  ⟨rfl, rfl, .idle rfl, rfl⟩

theorem refines_feed {fw : Firmware N W X} {services : Services W X} (hp : fw.Provides services)
    (w : W) (chunks : List Bytes)
    (hg : Guarded (processByte fw) NoEndWhenFull (.fresh N w) chunks.flatten) :
    Refines [] (feed fw (.fresh N w) chunks)
      ((Server.fresh w).readAll fw services chunks.flatten) := by
  have := (simulates_server hp []).run (refines_fresh w) hg
  rwa [← processHupacket, ← feed_eq] at this

/-- **The parser refines the server.** On every stream, cut into calls in any way, in
which no end mark meets a full buffer and to which every reply fits, world, verdict and
everything seen are those of the server, and the parser is idle exactly if the server
has no frame open. -/
theorem parser_refines_server {fw : Firmware N W X} {services : Services W X}
    (hp : fw.Provides services) (w : W) (chunks : List Bytes)
    (hg : Guarded (processByte fw) NoEndWhenFull (.fresh N w) chunks.flatten)
    (_hfit : RepliesFit N (feed fw (.fresh N w) chunks).log) :
    let m := feed fw (.fresh N w) chunks
    let s := (Server.fresh w).readAll fw services chunks.flatten
    m.world = s.world ∧ m.handle.crcMatch = s.verdict ∧ visible m.log = s.seen ∧
      (m.handle.state = hupStateNone ↔ s.opened = none) := by
  intro m s
  have h : Refines [] m s := refines_feed hp w chunks hg
  refine ⟨h.world, h.verdict, by simpa using h.seen, ?_⟩
  have hopened := h.opened
  cases ho : s.opened with
  | none =>
    rw [ho] at hopened
    cases hopened with
    | idle hidle => exact iff_of_true hidle rfl
  | some open_ =>
    rw [ho] at hopened
    cases hopened with
    | inside r f => exact iff_of_false r.inside (by simp)

instance (m : Machine N W X) (b : UInt8) : Decidable (NoEndWhenFull m b) :=
  inferInstanceAs (Decidable (b = endOfPacket → m.handle.state ≠ N))

/-- An entry that does nothing provides the service that does nothing. -/
theorem idleEntry_provides (name : Bytes) :
    (image (W := W) (X := X) [idleEntry name] []).Provides fun response n =>
      if response = false ∧ n = name then some fun w _ _ => (w, []) else none := by
  intro response n
  cases response with
  | true => exact .none
  | false =>
    by_cases hn : n = name
    · simpa [image, idleEntry, hn] using
        Option.Rel.some (r := HupCmd.Serves) (a := idleEntry (N := packetSize) name)
          (b := fun (w : W) _ _ => (w, ([] : List (Event X))))
          ⟨fun _ _ => rfl, fun _ _ => (List.append_nil _).symm⟩
    · simp [image, idleEntry, hn, Ne.symm hn]

/-- A command in two calls, in front of it the end mark of nothing. -/
theorem idle_command_refines :
    let fw := image (W := Unit) (X := Empty) [idleEntry (ascii "v")] []
    let services : Services Unit Empty := fun response n =>
      if response = false ∧ n = ascii "v" then some fun w _ _ => (w, []) else none
    visible (feed fw (.fresh packetSize ()) [[endOfPacket, enqOfCommand], [118, endOfPacket]]).log =
      ((Server.fresh ()).readAll fw services [endOfPacket, enqOfCommand, 118, endOfPacket]).seen :=
  (parser_refines_server (idleEntry_provides (ascii "v")) ()
    [[endOfPacket, enqOfCommand], [118, endOfPacket]] (by decide +kernel)
    (by decide +kernel)).2.2.1

/-! ## History -/

/-- A start mark takes any machine to a server that has just opened a frame. -/
theorem refines_start (fw : Firmware N W X) (m : Machine N W X) {b : UInt8}
    (hb : isStartMark b = true) : Refines (visible m.log) (processByte fw m b)
      ⟨m.world, m.handle.crcMatch, some (b, []), []⟩ := by
  have hne : b ≠ endOfPacket := by
    rintro rfl
    revert hb
    decide
  have hsil := silent_processByte fw m hne
  refine ⟨hsil.world, hsil.crcMatch, ?_, ?_⟩
  · exact .inside (receiving_start fw m hb) ⟨hb, by simp, by simp, by simp⟩
  · rw [hsil.unseen.seen]
    exact (List.append_nil _).symm

theorem Tracks.state {h : HupHandle N} {opened : Option (UInt8 × Bytes)} (t : Tracks h opened) :
    h.state = opened.elim hupStateNone fun p => (p.2.length : Int) := by
  cases t with
  | idle hs => exact hs
  | inside r _ => exact r.state

theorem Refines.since {fw : Firmware N W X} {m : Machine N W X} {s : Server W X} {stream : Bytes}
    (h : Refines (visible m.log) (processHupacket fw m stream) s) :
    visible (since m (processHupacket fw m stream)) = s.seen := by
  obtain ⟨new, hnew⟩ := processHupacket_log fw m stream
  have hseen := h.seen
  rw [← hnew, visible_append] at hseen
  rw [since_eq hnew.symm]
  exact List.append_cancel_left hseen

/-- **No history.** Two machines with the same world and the same verdict, whatever
their handles hold, react alike to every stream that begins with a start mark and
in which no end mark meets a full buffer, as long as every reply of either one fits,
the earlier ones too. -/
theorem history_independent {fw : Firmware N W X} {services : Services W X}
    (hp : fw.Provides services) {m m' : Machine N W X} (hw : m'.world = m.world)
    (hv : m'.handle.crcMatch = m.handle.crcMatch) {b : UInt8} (hb : isStartMark b = true)
    {stream : Bytes} (hg : Guarded (processByte fw) NoEndWhenFull m (b :: stream))
    (_hfit : RepliesFit N (processHupacket fw m (b :: stream)).log)
    (_hfit' : RepliesFit N (processHupacket fw m' (b :: stream)).log) :
    let r := processHupacket fw m (b :: stream)
    let r' := processHupacket fw m' (b :: stream)
    visible (since m' r') = visible (since m r) ∧ r'.world = r.world ∧
      r'.handle.crcMatch = r.handle.crcMatch ∧ r'.handle.state = r.handle.state := by
  intro r r'
  obtain ⟨-, hg⟩ := guarded_cons.mp hg
  have hstart := refines_start fw m hb
  have hstart' := refines_start fw m' hb
  rw [hw, hv] at hstart'
  -- the guard of one run is that of the server, and so that of the other
  have hserver := ((simulates_server hp _).guarded (fun _ _ a h => h.endFits a) hstart).mp hg
  have hg' := ((simulates_server hp _).guarded (fun _ _ a h => h.endFits a) hstart').mpr hserver
  have h := (simulates_server hp _).run hstart hg
  have h' := (simulates_server hp _).run hstart' hg'
  refine ⟨?_, h'.world.trans h.world.symm, h'.verdict.trans h.verdict.symm, ?_⟩
  · have hseen : visible (since m r) = _ := Refines.since h
    have hseen' : visible (since m' r') = _ := Refines.since h'
    exact hseen'.trans hseen.symm
  · exact h'.opened.state.trans h.opened.state.symm

/-- A command behind the half of another one and on a fresh machine. -/
theorem half_command_forgotten :
    let fw := image (W := Unit) (X := Empty) [idleEntry (ascii "v")] []
    let m : Machine packetSize Unit Empty := .fresh packetSize ()
    let m' := processHupacket fw m [enqOfCommand, 118, recordMark]
    visible (since m' (processHupacket fw m' [enqOfCommand, 118, endOfPacket])) =
      visible (since m (processHupacket fw m [enqOfCommand, 118, endOfPacket])) := by
  intro fw m m'
  have hv : m'.handle.crcMatch = m.handle.crcMatch := by decide +kernel
  have hg : Guarded (processByte fw) NoEndWhenFull m [enqOfCommand, 118, endOfPacket] := by
    decide +kernel
  exact (history_independent (idleEntry_provides (ascii "v")) (Subsingleton.elim _ _) hv rfl hg
    (by decide +kernel) (by decide +kernel)).1

end Sdkz.Hu
