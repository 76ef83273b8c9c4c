import Sdkz.Hu.Dispatch

/-! # The outcome of a frame

For a frame within the limits of buffer and table, from any state: either it is
a command whose CRC field does not match, and the code answers `crcNak` and
returns early (`processData_rejected`), or it reaches the tables as `packetOf`
its body (`processData_presented`, `dispatch_eq`). -/

namespace Sdkz.Hu
open Sdkz.Base

variable {N : Nat} {W X : Type}

/-- A frame that fits buffer and argument table. -/
structure InLimits (N : Nat) (start : UInt8) (body : Bytes) : Prop where
  opens : isStartMark start = true
  inside : ∀ b ∈ body, isBody b = true
  length : body.length < N
  records : body.count recordMark ≤ 63

theorem process_frame (fw : Firmware N W X) (m : Machine N W X) {start : UInt8} {body : Bytes}
    (f : InLimits N start body) :
    ∃ mc, Silent m mc ∧ Closed start body mc.handle ∧
      processHupacket fw m (frame start body) = processData fw mc := by
  have r := receive_body fw m f.opens f.inside (by have := f.length; omega) f.records
  have hquiet : Silent m (processHupacket fw m (start :: body)) := by
    apply silent_processHupacket
    intro hm
    rcases List.mem_cons.mp hm with he | hm
    · have := f.opens
      rw [← he] at this
      revert this
      decide
    · have := f.inside _ hm
      revert this
      decide
  refine ⟨_, hquiet.trans (silent_storeByte _ 0), r.close f.length, ?_⟩
  rw [frame, processHupacket_append]
  exact processByte_end r.inside

/-! ## The CRC verdict -/

/-- The comparison of `process_data`, on the bytes before and behind the CRC mark:
both sides see the buffer, where earlier CRC marks are NUL. -/
def crcAccepts (fw : Firmware N W X) (pre post : Bytes) : Bool :=
  fw.crc16 (stored pre) == (strtoul 16 (post.takeWhile (· != 0))).toUInt16

def verdictOf (fw : Firmware N W X) (body : Bytes) : Option Bool :=
  (crcSplit body).map fun s => crcAccepts fw s.1 s.2

theorem Closed.verdict (fw : Firmware N W X) {start : UInt8} {body : Bytes} {h : HupHandle N}
    (c : Closed start body h) : h.crc16.map (crcVerdict fw h) = verdictOf fw body := by
  obtain ⟨rest, hrest⟩ := c.terminated
  rw [c.crc16, crcStart, Option.map_map, verdictOf]
  cases hs : crcSplit body with
  | none => rfl
  | some p =>
    obtain ⟨pre, post⟩ := p
    obtain ⟨he, hno⟩ := crcSplit_eq hs
    have hstored : stored body = stored pre ++ 0 :: post := by
      have hpost : stored post = post := by
        refine map_eq_self fun b hb => ?_
        have hne : b ≠ crcMark := fun hc => hno (hc ▸ hb)
        rw [if_neg hne]
      rw [he]
      simp only [stored, List.map_append, List.map_cons, if_true]
      exact congrArg _ (congrArg _ hpost)
    have hlen : (stored pre).length = pre.length := List.length_map _
    have htext : h.text (pre.length + 1) = post.takeWhile (· != 0) := by
      have hle : pre.length + 1 ≤ (stored body).length := by rw [hstored]; simp [hlen]
      rw [HupHandle.text, hrest, cstr_of_terminated hle, hstored]
      simp [← hlen]
    have hpre : h.buffer.toList.take pre.length = stored pre := by
      rw [hrest, hstored, ← hlen]
      simp
    simp only [Option.map_some, Function.comp, crcVerdict, crcAccepts, htext, Nat.add_sub_cancel,
      hpre]

theorem Closed.withMatch {start : UInt8} {body : Bytes} {h : HupHandle N} (c : Closed start body h)
    (v : Bool) : Closed start body { h with crcMatch := v } :=
  ⟨⟨c.state, c.argc, c.argv, c.buffer, c.response, c.id, c.sequence, c.crc16⟩, c.terminated⟩

def setMatch (m : Machine N W X) (v : Bool) : Machine N W X :=
  m.mapHandle fun h => { h with crcMatch := v }

/-! ## Rejected commands -/

/-- A body as a string, before any record is cut off: it ends at a NUL or at the
first CRC mark. -/
def unsplit (body : Bytes) : Bytes := body.takeWhile fun b => b != 0 && b != crcMark

/-- A complete reply from its text: CRC field and end mark follow. -/
def reply (fw : Firmware N W X) (crc : Bool) (s : Bytes) : Bytes :=
  s ++ crcSuffix fw crc s ++ [endOfPacket]

/-- The answer to a command with a wrong CRC. -/
def crcNak (fw : Firmware N W X) (body : Bytes) : Bytes :=
  reply fw true (nakOfResponse :: unsplit body ++ recordMark :: itoa10 (-enmCrc16))

theorem Closed.header {start : UInt8} {body : Bytes} {h : HupHandle N} (c : Closed start body h) :
    h.header = unsplit body := by
  obtain ⟨rest, hrest⟩ := c.terminated
  have htext : h.text 0 = unsplit body := by
    rw [HupHandle.text, hrest, cstr_of_terminated (Nat.zero_le _), List.drop_zero, stored,
      List.takeWhile_map]
    have hpred : ((· != (0 : UInt8)) ∘ fun b => if b = crcMark then 0 else b) =
        fun b => b != 0 && b != crcMark := by
      funext b
      by_cases hb : b = crcMark <;> simp [hb]
    rw [hpred]
    refine map_eq_self fun b hb => ?_
    have hne : b ≠ crcMark := by
      have := List.mem_takeWhile_imp hb
      simp only [Bool.and_eq_true, bne_iff_ne] at this
      exact this.2
    rw [if_neg hne]
  rw [h.header_eq, c.id, c.sequence, c.argv_zero, htext]
  exact List.append_nil _

theorem processData_rejected {fw : Firmware N W X} {m : Machine N W X} {body : Bytes}
    (c : Closed enqOfCommand body m.handle) (hv : verdictOf fw body = some false) :
    Sends (setMatch m false) (processData fw m) (crcNak fw body) := by
  cases hc : m.handle.crc16 with
  | none =>
    have := c.verdict fw
    rw [hc, hv] at this
    cases this
  | some crc =>
    have hver : crcVerdict fw m.handle crc = false := by
      have := c.verdict fw
      rw [hc, hv] at this
      exact Option.some.inj this
    have hresp : m.handle.response = false := c.response
    have hpd : processData fw m =
        hupacketSendBuffer fw (hupacketNakResponse (setMatch m false) (-enmCrc16)) := by
      simp [processData, hc, Machine.mapHandle, hver, hresp, setMatch]
    have hb := hupacketNakResponse_builds (setMatch m false) (-enmCrc16)
    have hhead : (setMatch m false).handle.header = unsplit body := (c.withMatch false).header
    have hsome : (setMatch m false).handle.crc16.isSome = true := by
      change m.handle.crc16.isSome = true
      rw [hc]
      rfl
    have hs := hupacketSendBuffer_sends fw hb
    rw [hhead, hsome] at hs
    rw [hpd]
    exact hs

/-! ## Presented packets -/

theorem processData_presented {fw : Firmware N W X} {m : Machine N W X} {start : UInt8}
    {body : Bytes} (c : Closed start body m.handle)
    (hv : ¬ (start = enqOfCommand ∧ verdictOf fw body = some false)) :
    processData fw m = dispatch fw (setMatch m ((verdictOf fw body).getD m.handle.crcMatch)) := by
  rw [← c.verdict fw] at hv ⊢
  cases hc : m.handle.crc16 with
  | none =>
    have hsame : setMatch m m.handle.crcMatch = m := rfl
    simp [processData, hc, hsame]
  | some crc =>
    rw [hc] at hv
    simp only [Option.map_some, Option.getD_some]
    have hgo : (!crcVerdict fw m.handle crc && !m.handle.response) = false := by
      rw [c.response]
      by_cases hs : start = enqOfCommand
      · have : crcVerdict fw m.handle crc ≠ false := fun hf =>
          hv ⟨hs, congrArg some hf⟩
        simp [this]
      · simp [hs]
    simp [processData, hc, Machine.mapHandle, hgo, setMatch]

/-- The machine a table entry is called with. -/
def presentedTo (m : Machine N W X) (start : UInt8) (body : Bytes) : Machine N W X :=
  ⟨m.world, m.handle.split, m.log ++ [.lookup (packetOf start body) m.handle.crcMatch]⟩

/-- The table entry for a frame, if there is one. -/
def entryFor (fw : Firmware N W X) (start : UInt8) (body : Bytes) : Option (HupCmd N W X) :=
  (if start != enqOfCommand then fw.hupResp else fw.hupCmd).find? fun c => c.cmd == commandOf body

/-- The split is made once, in front of everything else. -/
theorem dispatch_of_split (fw : Firmware N W X) (m : Machine N W X) {h : HupHandle N}
    (hs : m.handle.split = h) :
    dispatch fw m = (match lookupCmd (if h.response then fw.hupResp else fw.hupCmd) h with
      | some e => e.func ((⟨m.world, h, m.log ++ [Event.lookup h.packet h.crcMatch]⟩ :
          Machine N W X).emit (.call h.packet h.crcMatch)) h.argc h.args
      | none => ⟨m.world, h, m.log ++ [Event.lookup h.packet h.crcMatch]⟩).mapHandle .reset := by
  cases hl : lookupCmd (if h.response then fw.hupResp else fw.hupCmd) h <;>
    simp only [dispatch, Machine.mapHandle, Machine.emit, hs, hl]

theorem dispatch_eq (fw : Firmware N W X) {m : Machine N W X} {start : UInt8} {body : Bytes}
    (c : Closed start body m.handle) :
    dispatch fw m = match entryFor fw start body with
      | some e => (e.func
          ((presentedTo m start body).emit (.call (packetOf start body) m.handle.crcMatch))
          ((records body).length + 1) (commandOf body :: records body)).mapHandle .reset
      | none => (presentedTo m start body).mapHandle .reset := by
  have hm := c.split.crcMatch
  have hargc : m.handle.split.argc = (records body).length + 1 := by
    rw [c.split.argc, records_eq 0, List.length_map, recordStarts_length]
    exact c.argc
  have hcmd := c.split.command
  have hp := c.packet
  unfold presentedTo
  generalize hs : m.handle.split = h at *
  have hr : h.response = (start != enqOfCommand) := congrArg Packet.response hp
  have hargs : h.args = commandOf body :: records body := congrArg Packet.argv hp
  have hlook : lookupCmd (if h.response then fw.hupResp else fw.hupCmd) h =
      entryFor fw start body := by
    rw [lookupCmd, entryFor, hr, hcmd]
    rfl
  rw [dispatch_of_split fw m hs, hlook, hp, hm, hargs, hargc]
  cases entryFor fw start body <;> rfl

/-- The machine the function of a table entry is called with for a frame: the
handle is split, and nothing was sent so far. -/
structure CalledWith (start : UInt8) (body : Bytes) (m m' : Machine N W X) : Prop where
  world : m'.world = m.world
  handle : ∃ h, Closed start body h ∧ m'.handle = h.split
  log : ∃ ev : List (Event X), m'.log = m.log ++ ev ∧ ∀ e ∈ ev, e.isReply = false

theorem isReply_of_isStore {e : Event X} (h : e.isStore = true) : e.isReply = false := by
  cases e <;> simp_all [Event.isStore, Event.isReply]

theorem calledWith_presented {m mc : Machine N W X} {start : UInt8} {body : Bytes}
    {ev : List (Event X)} (hw : mc.world = m.world) (hc : Closed start body mc.handle)
    (hlog : mc.log = m.log ++ ev) (hev : ∀ e ∈ ev, e.isStore) : CalledWith start body m
      ((presentedTo mc start body).emit (.call (packetOf start body) mc.handle.crcMatch)) := by
  unfold presentedTo
  refine ⟨hw, ⟨mc.handle, hc, ?_⟩, ?_⟩
  · generalize mc.handle.split = h
    rfl
  · refine ⟨ev ++ [.lookup (packetOf start body) mc.handle.crcMatch,
      .call (packetOf start body) mc.handle.crcMatch], ?_, fun x hx => ?_⟩
    · simp [Machine.emit, hlog]
    · rcases List.mem_append.mp hx with hx | hx
      · exact isReply_of_isStore (hev x hx)
      · simp only [List.mem_cons, List.not_mem_nil, or_false] at hx
        rcases hx with rfl | rfl <;> rfl

/-- A frame that passes the CRC check is a call of its table entry. -/
theorem frame_calls (fw : Firmware N W X) (m : Machine N W X) {start : UInt8} {body : Bytes}
    (f : InLimits N start body)
    (hv : ¬ (start = enqOfCommand ∧ verdictOf fw body = some false)) {e : HupCmd N W X}
    (he : entryFor fw start body = some e) :
    ∃ m', CalledWith start body m m' ∧ processHupacket fw m (frame start body) =
      (e.func m' ((records body).length + 1) (commandOf body :: records body)).mapHandle
        .reset := by
  obtain ⟨mc, hsil, hclosed, hrun⟩ := process_frame fw m f
  obtain ⟨ev, hlog, hev⟩ := hsil.log
  rw [hrun, processData_presented hclosed hv]
  have hworld : (setMatch mc ((verdictOf fw body).getD mc.handle.crcMatch)).world = m.world :=
    hsil.world
  have hc : Closed start body
      (setMatch mc ((verdictOf fw body).getD mc.handle.crcMatch)).handle := hclosed.withMatch _
  generalize hset : setMatch mc ((verdictOf fw body).getD mc.handle.crcMatch) = ms at *
  have hkept : ms.log = m.log ++ ev := by
    rw [← hset]
    exact hlog
  rw [dispatch_eq fw hc, he]
  exact ⟨_, calledWith_presented hworld hc hkept hev, rfl⟩

/-! ## Packets in the log -/

/-- The packets presented to the tables, in order. -/
def lookups (log : List (Event X)) : List Packet :=
  log.filterMap fun e => match e with
    | .lookup p _ => some p
    | _ => none

theorem lookups_append (a b : List (Event X)) : lookups (a ++ b) = lookups a ++ lookups b :=
  List.filterMap_append

theorem lookups_stores {ev : List (Event X)} (h : ∀ e ∈ ev, e.isStore) : lookups ev = [] :=
  List.filterMap_eq_nil_iff.mpr fun e he => by
    cases e <;> first | rfl | exact absurd (h _ he) (by simp [Event.isStore])

theorem lookups_replies {ev : List (Event X)} (h : ∀ e ∈ ev, e.isReply) : lookups ev = [] :=
  List.filterMap_eq_nil_iff.mpr fun e he => by
    cases e <;> first | rfl | exact absurd (h _ he) (by simp [Event.isReply])

theorem Silent.lookups {m m' : Machine N W X} (h : Silent m m') :
    lookups m'.log = lookups m.log := by
  obtain ⟨ev, hlog, hev⟩ := h.log
  rw [hlog, lookups_append, lookups_stores hev, List.append_nil]

/-- A presented packet appears in the log once, and the parser is idle again. -/
theorem dispatch_lookups (fw : Firmware N W X) {m : Machine N W X} {start : UInt8} {body : Bytes}
    (c : Closed start body m.handle) :
    lookups (dispatch fw m).log = lookups m.log ++ [packetOf start body] ∧
      (dispatch fw m).handle.state = hupStateNone := by
  rw [dispatch_eq fw c]
  cases entryFor fw start body with
  | none => exact ⟨by simp [Machine.mapHandle, presentedTo, lookups], rfl⟩
  | some e =>
    refine ⟨?_, rfl⟩
    obtain ⟨-, ev, hlog, hev⟩ := e.replies
      ((presentedTo m start body).emit (.call (packetOf start body) m.handle.crcMatch))
      ((records body).length + 1) (commandOf body :: records body)
    simp only [Machine.mapHandle, hlog, lookups_append, lookups_replies hev]
    simp [Machine.emit, presentedTo, lookups]

end Sdkz.Hu
