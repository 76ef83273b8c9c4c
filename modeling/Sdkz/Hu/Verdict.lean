import Sdkz.Hu.Safety

/-! # The CRC verdict

What a CRC field should mean is `CrcMatches`: nothing but hexadecimal digits, and
as a number the CRC of the bytes in front of the mark. What the code asks is
`crcAccepts`: `strtoul` of the field, cut to 16 bits. A command the code rejects
is answered, but the parser stays inside the frame; a response without a field
is shown the verdict on an earlier packet. -/

namespace Sdkz.Hu
open Sdkz.Base

variable {N : Nat} {W X : Type}

/-! ## Calls and sends in the log -/

/-- What was logged between two machines of a run. -/
def since (m m' : Machine N W X) : List (Event X) := m'.log.drop m.log.length

def Event.called {X : Type} : Event X → Option (Packet × Bool)
  | .call p v => some (p, v)
  | _ => none

def Event.sent {X : Type} : Event X → Option Bytes
  | .send s => some s
  | _ => none

def Event.presented {X : Type} : Event X → Option (Packet × Bool)
  | .lookup p v => some (p, v)
  | _ => none

/-- The packets that reached the tables, with the verdict the handle held. -/
def presented (log : List (Event X)) : List (Packet × Bool) := log.filterMap Event.presented

/-- The handler calls with the packet and the verdict they were shown. -/
def calls (log : List (Event X)) : List (Packet × Bool) := log.filterMap Event.called

/-- The bytes handed to the transport, send by send. -/
def sends (log : List (Event X)) : List Bytes := log.filterMap Event.sent

theorem since_eq {m m' : Machine N W X} {ev : List (Event X)} (h : m'.log = m.log ++ ev) :
    since m m' = ev := by
  rw [since, h, List.drop_left]

theorem calls_stores {ev : List (Event X)} (h : ∀ e ∈ ev, e.isStore) : calls ev = [] :=
  List.filterMap_eq_nil_iff.mpr fun e he => by
    have := h e he
    cases e <;> simp_all [Event.isStore, Event.called]

theorem calls_replies {ev : List (Event X)} (h : ∀ e ∈ ev, e.isReply) : calls ev = [] :=
  List.filterMap_eq_nil_iff.mpr fun e he => by
    have := h e he
    cases e <;> simp_all [Event.isReply, Event.called]

theorem sends_stores {ev : List (Event X)} (h : ∀ e ∈ ev, e.isStore) : sends ev = [] :=
  List.filterMap_eq_nil_iff.mpr fun e he => by
    have := h e he
    cases e <;> simp_all [Event.isStore, Event.sent]

theorem presented_stores {ev : List (Event X)} (h : ∀ e ∈ ev, e.isStore) : presented ev = [] :=
  List.filterMap_eq_nil_iff.mpr fun e he => by
    have := h e he
    cases e <;> simp_all [Event.isStore, Event.presented]

theorem presented_replies {ev : List (Event X)} (h : ∀ e ∈ ev, e.isReply) : presented ev = [] :=
  List.filterMap_eq_nil_iff.mpr fun e he => by
    have := h e he
    cases e <;> simp_all [Event.isReply, Event.presented]

theorem presented_append (a b : List (Event X)) :
    presented (a ++ b) = presented a ++ presented b :=
  List.filterMap_append

theorem calls_append (a b : List (Event X)) : calls (a ++ b) = calls a ++ calls b :=
  List.filterMap_append

theorem sends_append (a b : List (Event X)) : sends (a ++ b) = sends a ++ sends b :=
  List.filterMap_append

theorem sends_fits {ev : List (Event X)} {n : Nat} (h : ∀ e ∈ ev, e.Fits n) : sends ev = [] :=
  List.filterMap_eq_nil_iff.mpr fun e he => by
    have := h e he
    cases e <;> simp_all [Event.Fits, Event.sent]

/-- What a reply leaves in the log. -/
theorem Sends.logged {m m' : Machine N W X} {s : Bytes} (h : Sends m m' s) :
    calls (since m m') = [] ∧ sends (since m m') = [s] := by
  obtain ⟨ev, hlog, -, hev⟩ := h.log
  rw [since_eq (hlog.trans (List.append_assoc _ _ _))]
  constructor
  · refine calls_replies fun e he => ?_
    rcases List.mem_append.mp he with he | he
    · exact (hev e he).isReply
    · rw [List.mem_singleton.mp he]
      rfl
  · rw [sends_append, sends_fits hev]
    rfl

/-- A reply behind other events. -/
theorem since_trans {m mc m' m'' : Machine N W X} {ev : List (Event X)} {s : Bytes}
    (hlog : mc.log = m.log ++ ev) (he : m'.log = mc.log) (h : Sends m' m'' s) :
    since m m'' = ev ++ since m' m'' := by
  obtain ⟨ev', hlog', -⟩ := h.log
  have hnew : since m' m'' = ev' ++ [.send s] := since_eq (hlog'.trans (List.append_assoc _ _ _))
  rw [hnew]
  refine since_eq ?_
  rw [hlog', he, hlog]
  simp

/-! ## The log only grows -/

theorem dispatch_log (fw : Firmware N W X) (m : Machine N W X) : m.log <+: (dispatch fw m).log := by
  unfold dispatch
  dsimp only [Machine.mapHandle]
  split
  · rename_i c _
    obtain ⟨-, ev, hlog, -⟩ := c.replies
      ((Machine.emit ⟨m.world, m.handle.split, m.log⟩
        (.lookup m.handle.split.packet m.handle.split.crcMatch)).emit
        (.call m.handle.split.packet m.handle.split.crcMatch))
      m.handle.split.argc m.handle.split.args
    rw [hlog]
    exact (List.prefix_append _ _).trans ((List.prefix_append _ _).trans (List.prefix_append _ _))
  · exact List.prefix_append _ _

theorem processData_log (fw : Firmware N W X) (m : Machine N W X) :
    m.log <+: (processData fw m).log := by
  unfold processData
  cases hc : m.handle.crc16 with
  | none => exact dispatch_log fw m
  | some crc =>
    simp only
    split
    · obtain ⟨-, ev, hlog, -⟩ := (hupacketSendBuffer_sends fw (hupacketNakResponse_builds
        (m.mapHandle fun h => { h with crcMatch := crcVerdict fw h crc }) (-enmCrc16))).replies
      rw [hlog]
      exact List.prefix_append _ _
    · exact dispatch_log fw (m.mapHandle fun h => { h with crcMatch := crcVerdict fw h crc })

theorem processByte_log (fw : Firmware N W X) (m : Machine N W X) (b : UInt8) :
    m.log <+: (processByte fw m b).log := by
  by_cases hb : b = endOfPacket
  · subst hb
    by_cases hm : m.handle.state = hupStateNone
    · rw [processByte_idle fw hm (by decide)]
    · rw [processByte_end hm]
      exact (List.prefix_append _ _).trans (processData_log fw (storeByte m 0))
  · obtain ⟨ev, hlog, -⟩ := (silent_processByte fw m hb).log
    rw [hlog]
    exact List.prefix_append _ _

theorem processHupacket_log (fw : Firmware N W X) (m : Machine N W X) (s : Bytes) :
    m.log <+: (processHupacket fw m s).log := by
  induction s generalizing m with
  | nil => exact List.prefix_refl _
  | cons b s ih => exact (processByte_log fw m b).trans (ih _)

/-- What two stretches of a run log is logged by the run. -/
theorem since_append {m m' m'' : Machine N W X} (h : m.log <+: m'.log) (h' : m'.log <+: m''.log) :
    since m m'' = since m m' ++ since m' m'' := by
  obtain ⟨ev, hlog⟩ := h
  obtain ⟨ev', hlog'⟩ := h'
  rw [since_eq hlog.symm, since_eq hlog'.symm]
  refine since_eq ?_
  rw [← hlog', ← hlog, List.append_assoc]

/-- Only an end mark inside a frame is answered. -/
theorem sends_processByte (fw : Firmware N W X) (m : Machine N W X) (b : UInt8)
    (hb : b ≠ endOfPacket ∨ m.handle.state = hupStateNone) :
    sends (since m (processByte fw m b)) = [] := by
  by_cases he : b = endOfPacket
  · subst he
    have hsame : processByte fw m endOfPacket = m :=
      processByte_idle fw (hb.resolve_left fun h => h rfl) (by decide)
    have hnone : since m m = [] := since_eq (List.append_nil _).symm
    rw [hsame, hnone]
    rfl
  · obtain ⟨ev, hlog, hev⟩ := (silent_processByte fw m he).log
    rw [since_eq hlog, sends_stores hev]

/-! ## The outcome of a frame in the log -/

/-- A command with a wrong CRC: one answer, no call, and the parser still holds
the frame. -/
theorem frame_rejected (fw : Firmware N W X) (m : Machine N W X) {body : Bytes}
    (f : InLimits N enqOfCommand body) (hv : verdictOf fw body = some false) :
    calls (since m (processHupacket fw m (frame enqOfCommand body))) = [] ∧
      sends (since m (processHupacket fw m (frame enqOfCommand body))) = [crcNak fw body] ∧
      Closed enqOfCommand body (processHupacket fw m (frame enqOfCommand body)).handle := by
  obtain ⟨mc, hsil, hclosed, hrun⟩ := process_frame fw m f
  have hs := processData_rejected hclosed hv
  obtain ⟨ev, hlog, hev⟩ := hsil.log
  have hkept : (setMatch mc false).log = mc.log := rfl
  have hnew := since_trans hlog hkept hs
  rw [hrun, hnew]
  obtain ⟨hcalls, hsends⟩ := hs.logged
  refine ⟨?_, ?_, ?_⟩
  · rw [calls_append, calls_stores hev, hcalls]
    rfl
  · rw [sends_append, sends_stores hev, hsends]
    rfl
  · rw [hs.handle]
    have c := hclosed.withMatch false
    exact ⟨⟨c.state, c.argc, c.argv, c.buffer, c.response, c.id, c.sequence, c.crc16⟩, c.terminated⟩

/-- Any other frame reaches the tables once, and the entry for it, if there is
one, is called. -/
theorem frame_presented (fw : Firmware N W X) (m : Machine N W X) {start : UInt8} {body : Bytes}
    (f : InLimits N start body)
    (hv : ¬ (start = enqOfCommand ∧ verdictOf fw body = some false)) :
    calls (since m (processHupacket fw m (frame start body))) =
      ((entryFor fw start body).map fun _ =>
        (packetOf start body, (verdictOf fw body).getD m.handle.crcMatch)).toList ∧
      presented (since m (processHupacket fw m (frame start body))) =
        [(packetOf start body, (verdictOf fw body).getD m.handle.crcMatch)] ∧
      (entryFor fw start body = none →
        sends (since m (processHupacket fw m (frame start body))) = []) ∧
      (processHupacket fw m (frame start body)).handle.state = hupStateNone := by
  obtain ⟨mc, hsil, hclosed, hrun⟩ := process_frame fw m f
  obtain ⟨ev, hlog, hev⟩ := hsil.log
  rw [hrun, processData_presented hclosed hv, hsil.crcMatch]
  generalize (verdictOf fw body).getD m.handle.crcMatch = v
  have hc : Closed start body (setMatch mc v).handle := hclosed.withMatch v
  have hpres : (presentedTo (setMatch mc v) start body).log =
      m.log ++ (ev ++ [.lookup (packetOf start body) v]) := by
    simp [presentedTo, setMatch, Machine.mapHandle, hlog]
  rw [dispatch_eq fw hc]
  cases entryFor fw start body with
  | none =>
    have hnew : since m ((presentedTo (setMatch mc v) start body).mapHandle .reset) =
        ev ++ [.lookup (packetOf start body) v] := since_eq hpres
    simp only [hnew]
    refine ⟨?_, ?_, fun _ => ?_, rfl⟩
    · rw [calls_append, calls_stores hev]
      rfl
    · rw [presented_append, presented_stores hev]
      rfl
    · rw [sends_append, sends_stores hev]
      rfl
  | some e =>
    obtain ⟨-, ev', hlog', hev'⟩ := e.replies
      ((presentedTo (setMatch mc v) start body).emit (.call (packetOf start body) v))
      ((records body).length + 1) (commandOf body :: records body)
    have hnew : since m ((e.func
        ((presentedTo (setMatch mc v) start body).emit (.call (packetOf start body) v))
        ((records body).length + 1) (commandOf body :: records body)).mapHandle .reset) =
        ev ++ ([.lookup (packetOf start body) v, .call (packetOf start body) v] ++ ev') := by
      refine since_eq (hlog'.trans ?_)
      simp only [Machine.emit, hpres]
      simp
    have hv' : (setMatch mc v).handle.crcMatch = v := rfl
    simp only [hv', hnew]
    refine ⟨?_, ?_, by simp, rfl⟩
    · rw [calls_append, calls_append, calls_stores hev, calls_replies hev']
      rfl
    · rw [presented_append, presented_append, presented_stores hev, presented_replies hev']
      rfl

/-! ## What the CRC field should say -/

/-- The number a field of hexadecimal digits denotes. -/
def crcNumber (post : Bytes) : Nat := digitsValue 16 (scanDigits 16 post)

/-- The field is a number in hexadecimal digits, and it is the CRC of the bytes
in front of the mark. -/
structure CrcMatches (fw : Firmware N W X) (pre post : Bytes) : Prop where
  nonempty : post ≠ []
  digits : ∀ c ∈ post, isHexDigit c = true
  value : crcNumber post = (fw.crc16 pre).toNat

/-- The frame carries a CRC field, and it matches. -/
def CarriesMatch (fw : Firmware N W X) (body : Bytes) : Prop :=
  ∃ pre post, crcSplit body = some (pre, post) ∧ CrcMatches fw pre post

/-- The frame carries a CRC field, and it does not match. -/
def CarriesMismatch (fw : Firmware N W X) (body : Bytes) : Prop :=
  ∃ pre post, crcSplit body = some (pre, post) ∧ ¬ CrcMatches fw pre post

/-! ## Rejecting a command -/

/-- A negative reply with the status `rc` behind its header record. -/
def IsNak (s : Bytes) (rc : Int) : Prop :=
  ∃ header tail, recordMark ∉ header ∧ s = nakOfResponse :: header ++ recordMark :: itoa10 rc ++ tail

/-- The command has no effect but one negative answer, and is over with it. -/
structure RejectedCompletely (fw : Firmware N W X) (m : Machine N W X) (body : Bytes) : Prop where
  noCall : calls (since m (processHupacket fw m (frame enqOfCommand body))) = []
  oneNak : ∃ s, sends (since m (processHupacket fw m (frame enqOfCommand body))) = [s] ∧
    IsNak s (-enmCrc16)
  idle : (processHupacket fw m (frame enqOfCommand body)).handle.state = hupStateNone
  quiet : ∀ more, (∀ b ∈ more, isStartMark b = false) →
    let m' := processHupacket fw m (frame enqOfCommand body)
    calls (since m' (processHupacket fw m' more)) = [] ∧
      sends (since m' (processHupacket fw m' more)) = []

/-- A second end mark behind a rejected frame sends a second answer. -/
theorem rejected_answers_again (fw : Firmware N W X) {m : Machine N W X} {body : Bytes}
    (c : Closed enqOfCommand body m.handle) (hlen : body.length < N)
    (hv : verdictOf fw body = some false) :
    sends (since m (processHupacket fw m [endOfPacket])) = [crcNak fw body] := by
  have hs := processData_rejected (c.toReceiving.close hlen) hv
  have hrun : processHupacket fw m [endOfPacket] = processData fw (storeByte m 0) :=
    processByte_end c.inside
  have hlog : (storeByte m 0).log = m.log ++ [.storeBuffer m.handle.state] := rfl
  have hkept : (setMatch (storeByte m 0) false).log = (storeByte m 0).log := rfl
  have hnew := since_trans hlog hkept hs
  rw [hrun, hnew, sends_append, hs.logged.2]
  rfl

theorem rejected_not_completely (fw : Firmware N W X) (m : Machine N W X) {body : Bytes}
    (f : InLimits N enqOfCommand body) (hv : verdictOf fw body = some false) :
    ¬ RejectedCompletely fw m body := by
  intro r
  obtain ⟨-, -, hclosed⟩ := frame_rejected fw m f hv
  have hagain := rejected_answers_again fw hclosed f.length hv
  have hmark : ∀ b ∈ [endOfPacket], isStartMark b = false := by
    intro b hb
    rw [List.mem_singleton.mp hb]
    decide
  rw [(r.quiet [endOfPacket] hmark).2] at hagain
  cases hagain

/-- **A wrong CRC is never rejected completely**, whatever the state before: the
early return leaves the parser inside the frame, and the next end mark answers
again. -/
theorem mismatch_not_rejected (fw : Firmware N W X) (m : Machine N W X) {body : Bytes}
    (f : InLimits N enqOfCommand body) (hwrong : CarriesMismatch fw body) :
    ¬ RejectedCompletely fw m body := by
  obtain ⟨pre, post, hs, -⟩ := hwrong
  have hver : verdictOf fw body = some (crcAccepts fw pre post) := by rw [verdictOf, hs]; rfl
  cases hacc : crcAccepts fw pre post with
  | false => exact rejected_not_completely fw m f (hver.trans (congrArg some hacc))
  | true =>
    -- the code takes the field for a match: the command is called, or nothing is sent
    intro r
    have hv : ¬ (enqOfCommand = enqOfCommand ∧ verdictOf fw body = some false) := by
      rw [hver, hacc]
      simp
    obtain ⟨hcalls, -, hnone, -⟩ := frame_presented fw m f hv
    cases he : entryFor fw enqOfCommand body with
    | none =>
      obtain ⟨s, hsent, -⟩ := r.oneNak
      rw [hnone he] at hsent
      cases hsent
    | some e =>
      rw [r.noCall, he] at hcalls
      cases hcalls

/-- An empty command with the CRC field `1`, where the CRC of no bytes is 0. -/
theorem wrong_crc_mismatch : InLimits packetSize enqOfCommand [crcMark, 49] ∧
    CarriesMismatch (image (W := Unit) (X := Empty) [] []) [crcMark, 49] := by
  refine ⟨⟨rfl, List.all_eq_true.mp (by decide), by decide, by decide⟩, [], [49], rfl, fun h => ?_⟩
  exact absurd h.value (by decide)

theorem wrong_crc_left_open :
    ¬ RejectedCompletely (image [] []) (.fresh packetSize () : Machine packetSize Unit Empty)
      [crcMark, 49] :=
  mismatch_not_rejected _ _ wrong_crc_mismatch.1 wrong_crc_mismatch.2

theorem wrong_crc_not_rejected :
    ¬ (InLimits packetSize enqOfCommand [crcMark, 49] →
      CarriesMismatch (image (W := Unit) (X := Empty) [] []) [crcMark, 49] →
      RejectedCompletely (image [] []) (.fresh packetSize () : Machine packetSize Unit Empty)
        [crcMark, 49]) := fun h =>
  rejected_not_completely _ _ wrong_crc_mismatch.1 (by decide)
    (h wrong_crc_mismatch.1 wrong_crc_mismatch.2)

/-! ## Which verdict a handler acts on -/

/-- The calls a frame causes concern its own CRC field: a command is called on a
field only if it matches, and a response is told exactly whether its frame
carries a match. -/
structure VerdictSound (fw : Firmware N W X) (m : Machine N W X) (start : UInt8) (body : Bytes) :
    Prop where
  command : start = enqOfCommand →
    ∀ c ∈ calls (since m (processHupacket fw m (frame start body))), ¬ CarriesMismatch fw body
  response : start ≠ enqOfCommand →
    ∀ c ∈ calls (since m (processHupacket fw m (frame start body))),
      (c.2 = true ↔ CarriesMatch fw body)

/-- A field of hexadecimal digits that stays below 2^16. -/
structure PlainCrc (post : Bytes) : Prop where
  nonempty : post ≠ []
  digits : ∀ c ∈ post, isHexDigit c = true
  small : crcNumber post < 2 ^ 16

/-- The image with another CRC function. -/
def Firmware.withCrc (fw : Firmware N W X) (crc16 : Bytes → UInt16) : Firmware N W X :=
  { fw with crc16 := crc16 }

/-- When the verdict a handler acts on is about its own frame: without a CRC field
no earlier verdict may be held for a response, and a CRC field is a plain one with
no other CRC mark in front of it. -/
def VerdictCondition (fw : Firmware N W X) (m : Machine N W X) (start : UInt8) (body : Bytes) :
    Prop :=
  entryFor fw start body ≠ none →
    match crcSplit body with
    | none => start ≠ enqOfCommand → m.handle.crcMatch = false
    | some (pre, post) => PlainCrc post ∧ crcMark ∉ pre

theorem PlainCrc.scan {post : Bytes} (p : PlainCrc post) :
    strtoul 16 (post.takeWhile (· != 0)) = crcNumber post := by
  have hz : post.takeWhile (· != 0) = post := takeWhile_all fun c hc => by
    have := p.digits c hc
    simp only [bne_iff_ne]
    rintro rfl
    revert this
    decide
  have hsmall := p.small
  have hscan : scanNumber 16 post = (false, crcNumber post) := scanNumber_hex p.nonempty p.digits
  rw [hz]
  simp only [strtoul, hscan, ulongMax]
  rw [if_neg (by omega)]
  rfl

theorem CrcMatches.plain {fw : Firmware N W X} {pre post : Bytes} (h : CrcMatches fw pre post) :
    PlainCrc post :=
  ⟨h.nonempty, h.digits, by rw [h.value]; exact (fw.crc16 pre).toNat_lt⟩

theorem crcAccepts_iff (fw : Firmware N W X) (pre post : Bytes) : crcAccepts fw pre post = true ↔
    strtoul 16 (post.takeWhile (· != 0)) % 2 ^ 16 = (fw.crc16 (stored pre)).toNat := by
  rw [crcAccepts, beq_iff_eq, ← UInt16.toNat_inj, Nat.toUInt16, UInt16.toNat_ofNat']
  exact eq_comm

/-- A plain field behind the only CRC mark is compared with the CRC of what was
received. -/
theorem PlainCrc.accepts_iff {post : Bytes} (p : PlainCrc post) (fw : Firmware N W X) {pre : Bytes}
    (hone : crcMark ∉ pre) : crcAccepts fw pre post = true ↔ CrcMatches fw pre post := by
  have hstored : stored pre = pre := map_eq_self fun b hb =>
    if_neg fun h : b = crcMark => hone (h ▸ hb)
  rw [crcAccepts_iff, p.scan, Nat.mod_eq_of_lt p.small, hstored]
  exact ⟨fun h => ⟨p.nonempty, p.digits, h⟩, fun h => h.value⟩

/-- Any other field is taken for a match by mistake for some CRC function: the
function is wrong where the field is odd, or tells the NUL of an earlier mark from
the mark. -/
theorem exists_false_match (fw : Firmware N W X) {pre post : Bytes}
    (h : ¬ (PlainCrc post ∧ crcMark ∉ pre)) : ∃ crc16,
      crcAccepts (fw.withCrc crc16) pre post = true ∧ ¬ CrcMatches (fw.withCrc crc16) pre post := by
  have hmod : strtoul 16 (post.takeWhile (· != 0)) % 2 ^ 16 < 2 ^ 16 := Nat.mod_lt _ (by decide)
  by_cases hp : PlainCrc post
  · have hmark : crcMark ∈ pre := by
      by_contra hone
      exact h ⟨hp, hone⟩
    have hne : pre ≠ stored pre := by
      intro he
      rw [he] at hmark
      obtain ⟨b, -, hb⟩ := List.mem_map.mp hmark
      split at hb
      · exact absurd hb (by decide)
      · rename_i hb'
        exact hb' hb
    refine ⟨fun s => if s = stored pre then UInt16.ofNat (crcNumber post)
      else UInt16.ofNat (crcNumber post) + 1, ?_, fun hm => ?_⟩
    · rw [crcAccepts_iff, hp.scan, Nat.mod_eq_of_lt hp.small]
      change _ = (if stored pre = stored pre then _ else _ : UInt16).toNat
      rw [if_pos rfl, UInt16.toNat_ofNat', Nat.mod_eq_of_lt hp.small]
    · have hvalue : crcNumber post =
          (if pre = stored pre then UInt16.ofNat (crcNumber post)
            else UInt16.ofNat (crcNumber post) + 1 : UInt16).toNat := hm.value
      have hsmall := hp.small
      rw [if_neg hne, UInt16.toNat_add, UInt16.toNat_ofNat'] at hvalue
      simp only [UInt16.toNat_one] at hvalue
      omega
  · refine ⟨fun _ => UInt16.ofNat (strtoul 16 (post.takeWhile (· != 0)) % 2 ^ 16), ?_,
      fun hm => hp hm.plain⟩
    rw [crcAccepts_iff]
    change _ = (UInt16.ofNat (strtoul 16 (post.takeWhile (· != 0)) % 2 ^ 16)).toNat
    rw [UInt16.toNat_ofNat', Nat.mod_mod]

theorem carriesMatch_of_none (fw : Firmware N W X) {body : Bytes} (h : crcSplit body = none) :
    ¬ CarriesMatch fw body ∧ ¬ CarriesMismatch fw body := by
  constructor <;> (rintro ⟨pre, post, hs, -⟩; rw [h] at hs; cases hs)

theorem carriesMatch_of_some (fw : Firmware N W X) {body pre post : Bytes}
    (h : crcSplit body = some (pre, post)) :
    (CarriesMatch fw body ↔ CrcMatches fw pre post) ∧
      (CarriesMismatch fw body ↔ ¬ CrcMatches fw pre post) := by
  constructor <;> constructor
  · rintro ⟨p, q, hs, hm⟩
    rw [h] at hs
    cases hs
    exact hm
  · exact fun hm => ⟨pre, post, h, hm⟩
  · rintro ⟨p, q, hs, hm⟩
    rw [h] at hs
    cases hs
    exact hm
  · exact fun hm => ⟨pre, post, h, hm⟩

/-- The calls of any frame within the limits. -/
theorem calls_frame (fw : Firmware N W X) (m : Machine N W X) {start : UInt8} {body : Bytes}
    (f : InLimits N start body) :
    calls (since m (processHupacket fw m (frame start body))) =
      if start = enqOfCommand ∧ verdictOf fw body = some false then []
      else ((entryFor fw start body).map fun _ =>
        (packetOf start body, (verdictOf fw body).getD m.handle.crcMatch)).toList := by
  by_cases hv : start = enqOfCommand ∧ verdictOf fw body = some false
  · rw [if_pos hv]
    obtain ⟨rfl, hv⟩ := hv
    exact (frame_rejected fw m f hv).1
  · rw [if_neg hv]
    exact (frame_presented fw m f hv).1

/-- Nothing is said of a frame nobody is called for. -/
theorem verdictSound_of_nil {fw : Firmware N W X} {m : Machine N W X} {start : UInt8} {body : Bytes}
    (hnil : calls (since m (processHupacket fw m (frame start body))) = []) :
    VerdictSound fw m start body := by
  constructor <;> (intro _ c hc; rw [hnil] at hc; cases hc)

theorem verdictSound_of_one {fw : Firmware N W X} {m : Machine N W X} {start : UInt8} {body : Bytes}
    {c : Packet × Bool}
    (hone : calls (since m (processHupacket fw m (frame start body))) = [c]) :
    VerdictSound fw m start body ↔ (start = enqOfCommand → ¬ CarriesMismatch fw body) ∧
      (start ≠ enqOfCommand → (c.2 = true ↔ CarriesMatch fw body)) := by
  have hmem : c ∈ calls (since m (processHupacket fw m (frame start body))) := by
    rw [hone]
    exact List.mem_singleton_self c
  constructor
  · intro h
    exact ⟨fun hstart => h.command hstart c hmem, fun hstart => h.response hstart c hmem⟩
  · rintro ⟨hcommand, hresponse⟩
    refine ⟨fun hstart d _ => hcommand hstart, fun hstart d hd => ?_⟩
    obtain rfl := List.mem_singleton.mp (hone ▸ hd)
    exact hresponse hstart

/-- Without a CRC field a response is shown the verdict on an earlier packet. -/
theorem verdict_sound_unmarked (fw : Firmware N W X) (m : Machine N W X) {start : UInt8}
    {body : Bytes} (f : InLimits N start body) (he : entryFor fw start body = some e)
    (hs : crcSplit body = none) :
    VerdictSound fw m start body ↔ (start ≠ enqOfCommand → m.handle.crcMatch = false) := by
  have hver : verdictOf fw body = none := by rw [verdictOf, hs]; rfl
  obtain ⟨hno, hno'⟩ := carriesMatch_of_none fw hs
  have hone : calls (since m (processHupacket fw m (frame start body))) =
      [(packetOf start body, m.handle.crcMatch)] := by simp [calls_frame fw m f, he, hver]
  rw [verdictSound_of_one hone]
  simp [hno, hno']

/-- With a CRC field the verdict is that of the comparison. -/
theorem verdict_sound_marked (fw : Firmware N W X) (m : Machine N W X) {start : UInt8}
    {body pre post : Bytes} (f : InLimits N start body) (he : entryFor fw start body = some e)
    (hs : crcSplit body = some (pre, post)) :
    VerdictSound fw m start body ↔ (crcAccepts fw pre post = true → CrcMatches fw pre post) ∧
      (start ≠ enqOfCommand → CrcMatches fw pre post → crcAccepts fw pre post = true) := by
  have hver : verdictOf fw body = some (crcAccepts fw pre post) := by rw [verdictOf, hs]; rfl
  have hcalls := calls_frame fw m f
  obtain ⟨hmatch, hmismatch⟩ := carriesMatch_of_some fw hs
  rw [he, hver] at hcalls
  by_cases hstart : start = enqOfCommand
  · cases hacc : crcAccepts fw pre post with
    | false =>
      -- the command is rejected
      have hnil : calls (since m (processHupacket fw m (frame start body))) = [] := by
        rw [hcalls, if_pos ⟨hstart, by rw [hacc]⟩]
      exact iff_of_true (verdictSound_of_nil hnil)
        ⟨fun h => absurd h (by decide), fun h => absurd hstart h⟩
    | true =>
      have hone : calls (since m (processHupacket fw m (frame start body))) =
          [(packetOf start body, true)] := by simp [hcalls, hacc]
      rw [verdictSound_of_one hone]
      simp [hstart, hmismatch]
  · have hone : calls (since m (processHupacket fw m (frame start body))) =
        [(packetOf start body, crcAccepts fw pre post)] := by simp [hcalls, hstart]
    rw [verdictSound_of_one hone, hmatch]
    simp only [hstart, ne_eq, not_false_eq_true, forall_const, IsEmpty.forall_iff, true_and]
    exact iff_iff_implies_and_implies

/-- **The verdict is about the current frame**, from any state and so after any
history and whatever the CRC function is, exactly under `VerdictCondition`. -/
theorem verdict_sound_iff (fw : Firmware N W X) (m : Machine N W X) {start : UInt8} {body : Bytes}
    (f : InLimits N start body) :
    (∀ crc16, VerdictSound (fw.withCrc crc16) m start body) ↔ VerdictCondition fw m start body := by
  cases he : entryFor fw start body with
  | none =>
    -- nobody is called
    have hnil : ∀ crc16, calls (since m (processHupacket (fw.withCrc crc16) m (frame start body))) =
        [] := by
      intro crc16
      have hnone : entryFor (fw.withCrc crc16) start body = none := he
      rw [calls_frame (fw.withCrc crc16) m f, hnone]
      split <;> rfl
    exact iff_of_true (fun crc16 => verdictSound_of_nil (hnil crc16)) fun h => absurd he h
  | some e =>
    have hcalled : entryFor fw start body ≠ none := by simp [he]
    have hentry : ∀ crc16, entryFor (fw.withCrc crc16) start body = some e := fun _ => he
    unfold VerdictCondition
    cases hs : crcSplit body with
    | none =>
      have hunmarked := fun crc16 => verdict_sound_unmarked (fw.withCrc crc16) m f (hentry crc16) hs
      exact ⟨fun h _ => (hunmarked fw.crc16).mp (h fw.crc16),
        fun h crc16 => (hunmarked crc16).mpr (h hcalled)⟩
    | some p =>
      obtain ⟨pre, post⟩ := p
      have hmarked := fun crc16 => verdict_sound_marked (fw.withCrc crc16) m f (hentry crc16) hs
      constructor
      · intro h _
        by_contra hodd
        obtain ⟨crc16, hacc, hwrong⟩ := exists_false_match fw hodd
        exact hwrong (((hmarked crc16).mp (h crc16)).1 hacc)
      · intro h crc16
        obtain ⟨hp, hone⟩ := h hcalled
        have haccepts := hp.accepts_iff (fw.withCrc crc16) hone
        exact (hmarked crc16).mpr ⟨haccepts.mp, fun _ => haccepts.mpr⟩

/-- A table entry whose function does nothing. -/
def idleEntry (cmd : Bytes) : HupCmd N W X where
  cmd := cmd
  func := fun m _ _ => m
  replies := fun _ _ _ => ⟨rfl, [], by simp, by simp⟩

/-- A response without a CRC field, on a fresh handle. -/
theorem verdict_sound_fresh : VerdictSound (image [] [idleEntry (ascii "v")])
    (.fresh packetSize () : Machine packetSize Unit Empty) ackOfResponse (ascii "v") :=
  (verdict_sound_iff (image [] [idleEntry (ascii "v")])
    (.fresh packetSize () : Machine packetSize Unit Empty)
    (show InLimits packetSize ackOfResponse (ascii "v") from
      ⟨rfl, List.all_eq_true.mp (by decide), by decide, by decide⟩)).mpr
    (fun _ _ => rfl) (crc16 0x1021 0x0000)

/-- The same response behind an empty one whose field `0` is its CRC: the handler
is shown the earlier match. -/
theorem stale_verdict_shown : ¬ VerdictSound (image [] [idleEntry (ascii "v")])
    (processHupacket (image [] [idleEntry (ascii "v")])
      (.fresh packetSize () : Machine packetSize Unit Empty) (frame ackOfResponse [crcMark, 48]))
    ackOfResponse (ascii "v") := by
  intro h
  have f : InLimits packetSize ackOfResponse (ascii "v") :=
    ⟨rfl, List.all_eq_true.mp (by decide), by decide, by decide⟩
  have hmatch : (processHupacket (image [] [idleEntry (ascii "v")])
      (.fresh packetSize () : Machine packetSize Unit Empty)
      (frame ackOfResponse [crcMark, 48])).handle.crcMatch = true := by decide +kernel
  have hcalls := calls_frame (image [] [idleEntry (ascii "v")]) (processHupacket
    (image [] [idleEntry (ascii "v")]) (.fresh packetSize () : Machine packetSize Unit Empty)
    (frame ackOfResponse [crcMark, 48])) f
  have hmem := h.response (by decide) (packetOf ackOfResponse (ascii "v"), true) (by
    rw [hcalls, hmatch]
    exact List.mem_singleton_self _)
  exact (carriesMatch_of_none _ rfl).1 (hmem.mp rfl)

end Sdkz.Hu
