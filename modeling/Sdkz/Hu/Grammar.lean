import Sdkz.Hu.Outcome

/-! # The packet grammar and the parser

The reference side reads a stream declaratively: every start mark opens a
segment that reaches up to the next start mark, end mark or the end of the
stream, and the segments an end mark closes are the packets. `packets` lists
them, with header, records and CRC field split at their marks. The parser side
is `feed` from a fresh handle. -/

namespace Sdkz.Hu
open Sdkz.Base

variable {N : Nat} {W X : Type}

/-! ## The reference grammar -/

/-- A start mark of the stream with the bytes behind it, and whether an end mark
follows them. -/
structure Segment where
  start : UInt8
  body : Bytes
  closed : Bool

def segments : Bytes → List Segment
  | [] => []
  | b :: s =>
    if isStartMark b then
      ⟨b, s.takeWhile isBody, (s.dropWhile isBody).head? == some endOfPacket⟩ :: segments s
    else segments s

/-- A body `id@command:sequence RS record RS .. CRC-MARK crc`, read by splitting. -/
def grammarPacket (start : UInt8) (body : Bytes) : Packet :=
  let texts := (before crcMark body).splitOn recordMark
  let header := texts.headD []
  let command := if idMark ∈ header then behind idMark header else header
  { response := start == ackOfResponse || start == nakOfResponse
    id := if idMark ∈ header then some (before idMark header) else none
    argv := before sequenceMark command :: texts.tail
    sequence := if sequenceMark ∈ command then some (behind sequenceMark command) else none
    crc16 := if crcMark ∈ body then some (behind crcMark body) else none }

def completed (gs : List Segment) : List Packet :=
  (gs.filter (·.closed)).map fun g => grammarPacket g.start g.body

def packets (s : Bytes) : List Packet := completed (segments s)

/-- The limits of the format. -/
structure Segment.Regular (N : Nat) (g : Segment) : Prop where
  noNul : 0 ∉ g.body
  recordLimit : g.body.count recordMark ≤ 63
  oneCrc : g.body.count crcMark ≤ 1
  crcLast : recordMark ∉ behind crcMark g.body
  length : g.body.length < N

/-- The CRC field of a completed command, if it has one, is its CRC. -/
def Segment.CrcOk (fw : Firmware N W X) (g : Segment) : Prop :=
  g.closed → g.start = enqOfCommand → crcMark ∈ g.body →
    (strtoul 16 (behind crcMark g.body)).toUInt16 = fw.crc16 (before crcMark g.body)

/-! ## The packet of a regular body -/

/-- Without NUL and CRC mark, header and records are the pieces between the marks. -/
theorem splitOn_eq {s : Bytes} (hz : 0 ∉ s) (hc : crcMark ∉ s) :
    s.splitOn recordMark = field s :: records s := by
  induction s with
  | nil => rfl
  | cons b s ih =>
    simp only [List.mem_cons, not_or] at hz hc
    rw [List.splitOn_cons_eq_if_modifyHead, ih hz.2 hc.2]
    by_cases hb : b = recordMark
    · simp [hb, field, records, endsText]
    · have he : endsText b = false := by simp [endsText, Ne.symm hz.1, Ne.symm hc.1, hb]
      simp [hb, field, records, he]

/-- **A regular body is read as the grammar says.** -/
theorem packetOf_eq_grammar {g : Segment} (r : g.Regular N) (hstart : isStartMark g.start = true) :
    packetOf g.start g.body = grammarPacket g.start g.body := by
  have hresp : (g.start != enqOfCommand) = (g.start == ackOfResponse || g.start == nakOfResponse) := by
    simp only [isStartMark, Bool.or_eq_true, beq_iff_eq] at hstart
    rcases hstart with (h | h) | h <;> rw [h] <;> decide
  have hzb : 0 ∉ before crcMark g.body := fun h =>
    r.noNul ((List.takeWhile_sublist _).mem h)
  have hsplit := splitOn_eq hzb (not_mem_before crcMark g.body)
  have htexts : field g.body = field (before crcMark g.body) ∧
      records g.body = records (before crcMark g.body) := by
    by_cases hc : crcMark ∈ g.body
    · have he := split_at_first hc
      have hfield := field_append_crc (before crcMark g.body) (behind crcMark g.body)
      have hrecords := records_append_crc (a := before crcMark g.body) r.crcLast
      rw [he] at hfield hrecords
      exact ⟨hfield, hrecords⟩
    · rw [before_eq_self hc]
      exact ⟨rfl, rfl⟩
  have hcrc : (crcSplit g.body).map (fun s => field s.2) =
      if crcMark ∈ g.body then some (behind crcMark g.body) else none := by
    by_cases hc : crcMark ∈ g.body
    · have hpost : ∀ b ∈ behind crcMark g.body, endsText b = false := by
        intro b hb
        have hbody : b ≠ 0 := fun h => r.noNul (h ▸ List.mem_of_mem_drop hb)
        have hcrc : b ≠ crcMark := by
          obtain ⟨-, hno⟩ := crcSplit_eq (crcSplit_of_mem r.oneCrc hc)
          exact fun h => hno (h ▸ hb)
        have hrec : b ≠ recordMark := fun h => r.crcLast (h ▸ hb)
        simp [endsText, hbody, hcrc, hrec]
      rw [crcSplit_of_mem r.oneCrc hc, if_pos hc, Option.map_some, field_eq_self hpost]
    · rw [crcSplit_of_notMem hc, if_neg hc]
      rfl
  simp only [packetOf, grammarPacket, hsplit, hresp, hcrc, htexts.1, htexts.2, commandOf, afterId,
    List.headD_cons, List.tail_cons]

theorem Segment.CrcOk.verdict {fw : Firmware N W X} {g : Segment} (hok : g.CrcOk fw)
    (r : g.Regular N) (hclosed : g.closed = true) :
    ¬ (g.start = enqOfCommand ∧ verdictOf fw g.body = some false) := by
  rintro ⟨hs, hv⟩
  by_cases hc : crcMark ∈ g.body
  · have hpost : (behind crcMark g.body).takeWhile (· != 0) = behind crcMark g.body :=
      takeWhile_all fun b hb => by
        simpa using fun h : b = 0 => r.noNul (h ▸ List.mem_of_mem_drop hb)
    have hpre : stored (before crcMark g.body) = before crcMark g.body := by
      refine map_eq_self fun b hb => ?_
      have : b ≠ crcMark := fun h => not_mem_before crcMark g.body (h ▸ hb)
      rw [if_neg this]
    rw [verdictOf, crcSplit_of_mem r.oneCrc hc, Option.map_some, crcAccepts, hpost, hpre,
      hok hclosed hs hc] at hv
    simp at hv
  · rw [verdictOf, crcSplit_of_notMem hc] at hv
    cases hv

/-! ## The parser follows the grammar -/

/-- The parser is idle, or has taken `body` behind a start mark. -/
def AtPoint (h : HupHandle N) : Option (UInt8 × Bytes) → Prop
  | none => h.state = hupStateNone
  | some (start, body) => Receiving start body h

/-- The segments of what is still to come, from such a point on. -/
def segmentsFrom : Option (UInt8 × Bytes) → Bytes → List Segment
  | none, s => segments s
  | some (start, body), s =>
    ⟨start, body ++ s.takeWhile isBody, (s.dropWhile isBody).head? == some endOfPacket⟩ :: segments s

/-- Every segment but an open last one ends with the parser idle. -/
def endsIdle (gs : List Segment) : Prop := ∀ g, gs.getLast? = some g → g.closed = true

theorem segmentsFrom_start {point : Option (UInt8 × Bytes)} {b : UInt8} (s : Bytes)
    (hb : isStartMark b = true) : segmentsFrom point (b :: s) =
      (match point with | none => [] | some (start, body) => [⟨start, body, false⟩]) ++
        segmentsFrom (some (b, [])) s := by
  have hbody : isBody b = false := by simp [isBody, hb]
  have hend : b ≠ endOfPacket := by
    rintro rfl
    revert hb
    decide
  cases point <;> simp [segmentsFrom, segments, hb, hbody, hend]

theorem segmentsFrom_noise {b : UInt8} (s : Bytes) (hb : isStartMark b = false) :
    segmentsFrom none (b :: s) = segmentsFrom none s := by
  simp [segmentsFrom, segments, hb]

theorem segmentsFrom_end (start : UInt8) (body s : Bytes) :
    segmentsFrom (some (start, body)) (endOfPacket :: s) =
      ⟨start, body, true⟩ :: segmentsFrom none s := by
  simp +decide [segmentsFrom, segments, isBody]

theorem segmentsFrom_body {start b : UInt8} {body : Bytes} (s : Bytes) (hb : isBody b = true) :
    segmentsFrom (some (start, body)) (b :: s) = segmentsFrom (some (start, body ++ [b])) s := by
  have hs : isStartMark b = false := by
    cases hs : isStartMark b <;> simp_all [isBody]
  simp [segmentsFrom, segments, hs, hb]

/-- The end mark presents the packet of a segment, and the parser is idle. -/
theorem segment_closed (fw : Firmware N W X) {m : Machine N W X} {start : UInt8} {body : Bytes}
    (r : Receiving start body m.handle) (hopen : isStartMark start = true)
    (hreg : Segment.Regular N ⟨start, body, true⟩) (hcrc : Segment.CrcOk fw ⟨start, body, true⟩) :
    lookups (processByte fw m endOfPacket).log = lookups m.log ++ [grammarPacket start body] ∧
      (processByte fw m endOfPacket).handle.state = hupStateNone := by
  have hok := hcrc.verdict hreg rfl
  have c : Closed start body (storeByte m 0).handle := r.close hreg.length
  have hstored : lookups (storeByte m 0).log = lookups m.log := (silent_storeByte m 0).lookups
  have cm : Closed start body (setMatch (storeByte m 0)
      ((verdictOf fw body).getD (storeByte m 0).handle.crcMatch)).handle := c.withMatch _
  obtain ⟨hlog, hstate⟩ := dispatch_lookups fw cm
  rw [processByte_end r.inside, processData_presented c hok]
  refine ⟨?_, hstate⟩
  rw [hlog, packetOf_eq_grammar hreg hopen, ← hstored]
  rfl

/-- From a point on, the parser reads a stream as the grammar does. -/
structure Reads (fw : Firmware N W X) (m : Machine N W X) (point : Option (UInt8 × Bytes))
    (s : Bytes) : Prop where
  log : lookups (processHupacket fw m s).log = lookups m.log ++ completed (segmentsFrom point s)
  idle : (processHupacket fw m s).handle.state = hupStateNone ↔ endsIdle (segmentsFrom point s)

section Reads
variable {fw : Firmware N W X} {m : Machine N W X} {point : Option (UInt8 × Bytes)} {b start : UInt8}
  {body s : Bytes}

theorem Reads.nil (hat : AtPoint m.handle point) : Reads fw m point [] := by
  cases point with
  | none =>
    have hat : m.handle.state = hupStateNone := hat
    exact ⟨by simp [processHupacket, segmentsFrom, segments, completed],
      by simp [segmentsFrom, segments, endsIdle, processHupacket, hat]⟩
  | some p =>
    have hat : Receiving p.1 p.2 m.handle := hat
    exact ⟨by simp [processHupacket, segmentsFrom, segments, completed],
      by simpa [segmentsFrom, segments, endsIdle, processHupacket] using hat.inside⟩

/-- A start mark opens a segment, whatever was going on. -/
theorem Reads.opened (point : Option (UInt8 × Bytes)) (hb : isStartMark b = true)
    (h : Reads fw (processByte fw m b) (some (b, [])) s) : Reads fw m point (b :: s) := by
  have hquiet : lookups (processByte fw m b).log = lookups m.log := by
    refine (silent_processByte fw m ?_).lookups
    rintro rfl
    revert hb
    decide
  refine ⟨h.log.trans ?_, h.idle.trans ?_⟩
  · rw [hquiet, segmentsFrom_start s hb]
    cases point <;> simp [completed]
  · rw [segmentsFrom_start s hb]
    cases point <;> simp [endsIdle, segmentsFrom]

theorem Reads.noise (hat : m.handle.state = hupStateNone) (hb : isStartMark b = false)
    (h : Reads fw m none s) : Reads fw m none (b :: s) := by
  have hgo : processHupacket fw m (b :: s) = processHupacket fw m s :=
    congrArg (processHupacket fw · s) (processByte_idle fw hat hb)
  refine ⟨?_, ?_⟩
  · rw [hgo, segmentsFrom_noise s hb]
    exact h.log
  · rw [hgo, segmentsFrom_noise s hb]
    exact h.idle

/-- The end mark closes the segment. -/
theorem Reads.closed (r : Receiving start body m.handle) (hopen : isStartMark start = true)
    (hreg : Segment.Regular N ⟨start, body, true⟩) (hcrc : Segment.CrcOk fw ⟨start, body, true⟩)
    (h : Reads fw (processByte fw m endOfPacket) none s) :
    Reads fw m (some (start, body)) (endOfPacket :: s) := by
  obtain ⟨hlog, -⟩ := segment_closed fw r hopen hreg hcrc
  refine ⟨h.log.trans ?_, h.idle.trans ?_⟩
  · rw [hlog, segmentsFrom_end]
    simp [completed]
  · rw [segmentsFrom_end]
    cases hlast : segmentsFrom none s with
    | nil => simp [endsIdle]
    | cons g gs => simp [endsIdle]

/-- One more byte of the body. -/
theorem Reads.more (hb : isBody b = true) (he : b ≠ endOfPacket)
    (h : Reads fw (processByte fw m b) (some (start, body ++ [b])) s) :
    Reads fw m (some (start, body)) (b :: s) := by
  refine ⟨h.log.trans ?_, h.idle.trans ?_⟩
  · rw [(silent_processByte fw m he).lookups, segmentsFrom_body s hb]
  · rw [segmentsFrom_body s hb]

/-- A body that keeps the limits, with what is still to come, has room for its bytes. -/
theorem Segment.Regular.room {rest : Bytes} {closed : Bool}
    (hreg : Segment.Regular N ⟨start, body ++ [b] ++ rest, closed⟩) :
    body.length < N ∧ (b = recordMark → body.count recordMark < 63) := by
  have hlength := hreg.length
  have hrecords := hreg.recordLimit
  simp only [List.length_append, List.length_singleton] at hlength
  refine ⟨by omega, ?_⟩
  rintro rfl
  simp only [List.count_append, List.count_singleton_self] at hrecords
  omega

end Reads

theorem follows_grammar (fw : Firmware N W X) (s : Bytes) :
    ∀ (point : Option (UInt8 × Bytes)) (m : Machine N W X), AtPoint m.handle point →
      (∀ p, point = some p → isStartMark p.1 = true) →
      (∀ g ∈ segmentsFrom point s, g.Regular N) → (∀ g ∈ segmentsFrom point s, g.CrcOk fw) →
      Reads fw m point s := by
  induction s with
  | nil => exact fun point m hat _ _ _ => .nil hat
  | cons b s ih =>
    intro point m hat hopen hreg hcrc
    by_cases hb : isStartMark b = true
    · rw [segmentsFrom_start s hb] at hreg hcrc
      exact .opened point hb (ih _ _ (receiving_start fw m hb) (by rintro p hp; cases hp; exact hb)
        (fun g hg => hreg g (List.mem_append_right _ hg))
        fun g hg => hcrc g (List.mem_append_right _ hg))
    have hb : isStartMark b = false := by simpa using hb
    cases point with
    | none =>
      rw [segmentsFrom_noise s hb] at hreg hcrc
      exact .noise hat hb (ih none m hat (by simp) hreg hcrc)
    | some p =>
      obtain ⟨start, body⟩ := p
      have r : Receiving start body m.handle := hat
      by_cases he : b = endOfPacket
      · subst he
        rw [segmentsFrom_end] at hreg hcrc
        have hregular := hreg _ List.mem_cons_self
        have hmatches := hcrc _ List.mem_cons_self
        have hstate := (segment_closed fw r (hopen _ rfl) hregular hmatches).2
        exact .closed r (hopen _ rfl) hregular hmatches (ih none _ hstate (by simp)
          (fun g hg => hreg g (List.mem_cons_of_mem _ hg))
          fun g hg => hcrc g (List.mem_cons_of_mem _ hg))
      · have hbody : isBody b = true := by simp [isBody, hb, he]
        rw [segmentsFrom_body s hbody] at hreg hcrc
        obtain ⟨hlen, hrec⟩ := (hreg _ List.mem_cons_self).room
        exact .more hbody he (ih _ _ (r.step fw hbody hlen hrec)
          (by rintro p hp; cases hp; exact hopen (start, body) rfl) hreg hcrc)

/-- **Framing and argument decomposition.** A stream whose segments keep the
limits of the format and whose completed commands carry no wrong CRC, cut into
calls in any way, presents to the tables exactly the packets of the grammar, and
leaves the parser idle exactly if it does not end inside a frame. -/
theorem feed_presents_packets (fw : Firmware N W X) (w : W) (chunks : List Bytes)
    (hreg : ∀ g ∈ segments chunks.flatten, g.Regular N)
    (hcrc : ∀ g ∈ segments chunks.flatten, g.CrcOk fw) :
    lookups (feed fw (.fresh N w) chunks).log = packets chunks.flatten ∧
      ((feed fw (.fresh N w) chunks).handle.state = hupStateNone ↔
        endsIdle (segments chunks.flatten)) := by
  rw [feed_eq]
  have hfresh : AtPoint (HupHandle.fresh N) none := rfl
  obtain ⟨hlog, hidle⟩ := follows_grammar fw chunks.flatten none (.fresh N w) hfresh (by simp)
    hreg hcrc
  exact ⟨hlog, hidle⟩

/-- A stray byte, then one command with id, sequence, record and CRC field, cut
in the middle of its header. -/
theorem feed_presents_command :
    lookups (feed (image (W := Unit) (X := Empty) [] []) (.fresh packetSize ())
        [65 :: enqOfCommand :: ascii "19@er",
          ascii "ase:7" ++ recordMark :: ascii "slot0" ++ crcMark :: ascii "73a1" ++ [endOfPacket]]).log =
      [⟨false, some (ascii "19"), [ascii "erase", ascii "slot0"], some (ascii "7"),
        some (ascii "73a1")⟩] := by
  have hseg : segments [65 :: enqOfCommand :: ascii "19@er",
      ascii "ase:7" ++ recordMark :: ascii "slot0" ++ crcMark :: ascii "73a1" ++ [endOfPacket]].flatten =
      [⟨enqOfCommand, ascii "19@erase:7" ++ recordMark :: ascii "slot0" ++ crcMark :: ascii "73a1",
        true⟩] := rfl
  refine (feed_presents_packets (image (W := Unit) (X := Empty) [] []) () _ ?_ ?_).1.trans ?_
  · rw [hseg]
    intro g hg
    obtain rfl := List.mem_singleton.mp hg
    exact ⟨by decide, by decide, by decide, by decide, by decide⟩
  · rw [hseg]
    intro g hg
    obtain rfl := List.mem_singleton.mp hg
    exact fun _ _ _ => by decide +kernel
  · rw [packets, hseg]
    decide

end Sdkz.Hu
