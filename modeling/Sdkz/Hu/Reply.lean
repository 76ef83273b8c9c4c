import Sdkz.Hu.Flash
import Sdkz.Hu.Verdict

/-! # The reply to a request

A command frame is answered on one of two paths: the CRC check of the packet code
rejects it before it is split, or one of the flash commands gets it. `answerOf`
names the reply of either path. On the first path the header string of the reply
is the whole body up to its CRC mark, records included, because no record mark
has been replaced yet; both the length and the form of the reply suffer from
that. -/

namespace Sdkz.Hu
open Sdkz.Base

variable {N : Nat} {W : Type}

/-! ## The status of a request -/

/-- Status and echoed records of a request the flash commands answer. -/
def requestStatus (b : Board W) (m : Machine N W FlashCall) (body : Bytes) :
    Option (Int × List Bytes) :=
  let argv := commandOf body :: records body
  let argc := (records body).length + 1
  if commandOf body = ascii "erase" then
    some ((eraseArea b m argc argv).2.1, echoed argc argv argFlashPartition argFlashPartition)
  else if commandOf body = ascii "flash" then
    some ((flashChunk b m argc argv).2.1, echoed argc argv argFlashPartition argFlashLength)
  else if commandOf body = ascii "wrprt" ∧ b.flashHasExOp then
    some ((wrprtArea b m argc argv).2.1, echoed argc argv argFlashPartition argFlashWriteProtect)
  else none

/-- The start of the reply to a request, up to its CRC field. -/
def statusText (header : Bytes) (rc : Int) (echo : List Bytes) : Bytes :=
  (if rc = 0 then ackOfResponse else nakOfResponse) :: header ++ joined (itoa10 rc :: echo)

/-- The reply to a command frame, if the packet code or a flash command answers. -/
def answerOf (b : Board W) (fw : Firmware N W FlashCall) (m : Machine N W FlashCall)
    (body : Bytes) : Option Bytes :=
  if verdictOf fw body = some false then some (crcNak fw body)
  else (requestStatus b m body).map fun r =>
    reply fw (crcSplit body).isSome (statusText (field body) r.1 r.2)

/-! ## The status depends on the world only -/

theorem openFlashPartition_world (b : Board W) {m m' : Machine N W FlashCall}
    (h : m'.world = m.world) (name : Bytes) :
    (openFlashPartition b m' name).2 = (openFlashPartition b m name).2 ∧
      (openFlashPartition b m' name).1.world = (openFlashPartition b m name).1.world := by
  unfold openFlashPartition
  rw [h]
  simp only
  split
  · exact ⟨rfl, rfl⟩
  · simp only [Machine.emit]
    split <;> exact ⟨rfl, rfl⟩

theorem wrprtArea_world (b : Board W) {m m' : Machine N W FlashCall} (h : m'.world = m.world)
    (argc : Nat) (argv : List Bytes) :
    (wrprtArea b m' argc argv).2 = (wrprtArea b m argc argv).2 := by
  unfold wrprtArea
  split
  · exact (openFlashPartition_world b h _).1
  · rfl

theorem eraseArea_world (b : Board W) {m m' : Machine N W FlashCall} (h : m'.world = m.world)
    (argc : Nat) (argv : List Bytes) :
    (eraseArea b m' argc argv).2 = (eraseArea b m argc argv).2 := by
  unfold eraseArea
  split
  · obtain ⟨hr, hw⟩ := openFlashPartition_world b h (argv.getD argFlashPartition [])
    generalize openFlashPartition b m' (argv.getD argFlashPartition []) = r' at hr hw
    generalize openFlashPartition b m (argv.getD argFlashPartition []) = r at hr hw
    obtain ⟨m1', rc', fa'⟩ := r'
    obtain ⟨m1, rc, fa⟩ := r
    simp only [Prod.mk.injEq] at hr hw
    obtain ⟨rfl, rfl⟩ := hr
    cases fa' with
    | none => rfl
    | some fa =>
      simp only [hw]
      split <;> rfl
  · rfl

theorem flashChunk_world (b : Board W) {m m' : Machine N W FlashCall} (h : m'.world = m.world)
    (argc : Nat) (argv : List Bytes) :
    (flashChunk b m' argc argv).2 = (flashChunk b m argc argv).2 := by
  unfold flashChunk
  split
  · rfl
  · obtain ⟨hr, hw⟩ := openFlashPartition_world b h (argv.getD argFlashPartition [])
    generalize openFlashPartition b m' (argv.getD argFlashPartition []) = r' at hr hw
    generalize openFlashPartition b m (argv.getD argFlashPartition []) = r at hr hw
    obtain ⟨m1', rc', fa'⟩ := r'
    obtain ⟨m1, rc, fa⟩ := r
    simp only [Prod.mk.injEq] at hr hw
    obtain ⟨rfl, rfl⟩ := hr
    cases fa' with
    | none => rfl
    | some fa =>
      simp only
      split
      · rfl
      · split
        · rfl
        · simp only [writeChunk, Machine.mapHandle, hw]
          split <;> rfl

/-! ## The answered frame -/

/-- The new part of a log with one answer in it: it is the longest string the
builder left in `tx_buffer`, and the only one sent. -/
structure AnsweredBy (new : List (Event FlashCall)) (s : Bytes) : Prop where
  sent : sends new = [s]
  built : .txString s ∈ new
  longest : ∀ t, .txString t ∈ new → t.length ≤ s.length

theorem Sends.answeredBy {m m' m'' m3 : Machine N W FlashCall} {ev : List (Event FlashCall)}
    {s : Bytes} (hlog : m'.log = m.log ++ ev) (hev : ∀ e ∈ ev, e.isReply = false)
    (h : Sends m' m'' s) (hl : m3.log = m''.log) : AnsweredBy (since m m3) s := by
  obtain ⟨ev', hlog', hs, hfit⟩ := h.log
  have hnew : since m m3 = ev ++ (ev' ++ [.send s]) := since_eq (by rw [hl, hlog', hlog]; simp)
  have hquiet : sends ev = [] := List.filterMap_eq_nil_iff.mpr fun e he => by
    have := hev e he
    cases e <;> simp_all [Event.isReply, Event.sent]
  rw [hnew]
  refine ⟨?_, by simp [hs], fun t ht => ?_⟩
  · rw [sends_append, sends_append, hquiet, sends_fits hfit]
    rfl
  · rcases List.mem_append.mp ht with ht | ht
    · have := hev _ ht
      simp [Event.isReply] at this
    · rcases List.mem_append.mp ht with ht | ht
      · exact hfit _ ht
      · simp at ht

theorem requestReply_split (fw : Firmware N W FlashCall) {body : Bytes} {h : HupHandle N}
    (c : Closed enqOfCommand body h) (rc : Int) (echo : List Bytes) :
    requestReply fw h.split rc echo = reply fw (crcSplit body).isSome
      (statusText (field body) rc echo) := by
  have hcrc : h.split.crc16.isSome = (crcSplit body).isSome := by
    rw [c.split.crc16]
    change h.crc16.isSome = _
    rw [c.crc16, crcStart, Option.isSome_map]
  rw [requestReply, hcrc, replyStart, c.split.header]
  simp [statusText, joined]

/-- The entry of the table for the commands of this module. -/
theorem entryFor_withFlash (b : Board W) (fw : Firmware N W FlashCall) (body : Bytes) :
    (commandOf body = ascii "erase" →
      entryFor (withFlash b fw) enqOfCommand body = some (hupCmdErase b fw)) ∧
    (commandOf body = ascii "flash" →
      entryFor (withFlash b fw) enqOfCommand body = some (hupCmdFlash b fw)) ∧
    (commandOf body = ascii "wrprt" →
      entryFor (withFlash b fw) enqOfCommand body = some (hupCmdWrprt b fw)) := by
  refine ⟨fun h => ?_, fun h => ?_, fun h => ?_⟩ <;>
    simp +decide [entryFor, withFlash, hupCmdErase, hupCmdFlash, hupCmdWrprt, h]

/-- A request for a flash command is answered with its status. -/
theorem request_answered (b : Board W) (fw : Firmware N W FlashCall) (m : Machine N W FlashCall)
    {body : Bytes} (f : InLimits N enqOfCommand body) (hv : verdictOf fw body ≠ some false)
    {r : Int × List Bytes} (hr : requestStatus b m body = some r) :
    ∃ m' m'' : Machine N W FlashCall, CalledWith enqOfCommand body m m' ∧
      Sends m' m'' (reply fw (crcSplit body).isSome (statusText (field body) r.1 r.2)) ∧
      (processHupacket (withFlash b fw) m (frame enqOfCommand body)).log = m''.log := by
  obtain ⟨herase, hflash, hwrprt⟩ := entryFor_withFlash b fw body
  have hgo : ∀ {e}, entryFor (withFlash b fw) enqOfCommand body = some e → ∃ m',
      CalledWith enqOfCommand body m m' ∧
        (processHupacket (withFlash b fw) m (frame enqOfCommand body)).log =
          (e.func m' ((records body).length + 1) (commandOf body :: records body)).log := by
    intro e he
    obtain ⟨m', hm', hrun⟩ := frame_calls (withFlash b fw) m f (fun h => hv h.2) he
    exact ⟨m', hm', by rw [hrun]; rfl⟩
  unfold requestStatus at hr
  simp only at hr
  split at hr
  · rename_i hc
    obtain rfl := Option.some.inj hr
    obtain ⟨m', hm', hrun⟩ := hgo (herase hc)
    obtain ⟨h, hclosed, hh⟩ := hm'.handle
    refine ⟨m', (hupCmdErase b fw).func m' _ _, hm', ?_, hrun⟩
    rw [← requestReply_split fw hclosed, ← hh, ← eraseArea_world b hm'.world]
    exact answerRequest_sends b fw (eraseArea_operates b m' _ _) _ _ _ _
  · split at hr
    · rename_i hc
      obtain rfl := Option.some.inj hr
      obtain ⟨m', hm', hrun⟩ := hgo (hflash hc)
      obtain ⟨h, hclosed, hh⟩ := hm'.handle
      refine ⟨m', (hupCmdFlash b fw).func m' _ _, hm', ?_, hrun⟩
      rw [← requestReply_split fw hclosed, ← hh, ← flashChunk_world b hm'.world]
      exact answerRequest_sends b fw (flashChunk_operates b m' _ _) _ _ _ _
    · split at hr
      · rename_i hc
        obtain rfl := Option.some.inj hr
        obtain ⟨m', hm', hrun⟩ := hgo (hwrprt hc.1)
        obtain ⟨h, hclosed, hh⟩ := hm'.handle
        refine ⟨m', (hupCmdWrprt b fw).func m' _ _, hm', ?_, hrun⟩
        have hop := answerRequest_sends b fw (wrprtArea_operates b m' ((records body).length + 1)
          (commandOf body :: records body)) ((records body).length + 1)
          (commandOf body :: records body) argFlashPartition argFlashWriteProtect
        rw [← requestReply_split fw hclosed, ← hh, ← wrprtArea_world b hm'.world]
        simpa [hupCmdWrprt, wrprt, hc.2] using hop
      · cases hr

/-- **Every answered frame** sends exactly the reply `answerOf` names. -/
theorem frame_answered (b : Board W) (fw : Firmware N W FlashCall) (m : Machine N W FlashCall)
    {body s : Bytes} (f : InLimits N enqOfCommand body) (hs : answerOf b fw m body = some s) :
    AnsweredBy (since m (processHupacket (withFlash b fw) m (frame enqOfCommand body))) s := by
  unfold answerOf at hs
  split at hs
  · rename_i hv
    obtain rfl := Option.some.inj hs
    obtain ⟨mc, hsil, hclosed, hrun⟩ := process_frame (withFlash b fw) m f
    obtain ⟨ev, hlog, hev⟩ := hsil.log
    have hnak : Sends (setMatch mc false) (processData (withFlash b fw) mc)
        (crcNak (withFlash b fw) body) := processData_rejected hclosed hv
    have hlog' : (setMatch mc false).log = m.log ++ ev := hlog
    rw [hrun]
    exact hnak.answeredBy hlog' (fun e he => isReply_of_isStore (hev e he)) rfl
  · rename_i hv
    obtain ⟨r, hr, rfl⟩ := Option.map_eq_some_iff.mp hs
    obtain ⟨m', m'', hm', hsends, hdone⟩ := request_answered b fw m f hv hr
    obtain ⟨ev, hlog, hev⟩ := hm'.log
    exact hsends.answeredBy hlog hev hdone

/-! ## The length of a reply -/

/-- What a CRC field takes: the mark and the digits. -/
def crcRoom (fw : Firmware N W FlashCall) (crc : Bool) (text : Bytes) : Nat :=
  if crc then 1 + (itoa16 (fw.crc16 text).toNat).length else 0

/-- What a reply takes in `tx_buffer`: start mark, header, status, records, CRC
field, end mark and NUL. -/
def replyRoom (fw : Firmware N W FlashCall) (crc : Bool) (header : Bytes) (rc : Int)
    (echo : List Bytes) : Nat :=
  1 + header.length + (1 + (itoa10 rc).length) + (echo.map (·.length + 1)).sum +
    crcRoom fw crc (header ++ joined (itoa10 rc :: echo)) + 1 + 1

/-- What the answer to a command frame takes. On the path of a CRC mismatch the
header is the body up to its CRC mark. -/
def answerRoom (b : Board W) (fw : Firmware N W FlashCall) (m : Machine N W FlashCall)
    (body : Bytes) : Option Nat :=
  if verdictOf fw body = some false then some (replyRoom fw true (unsplit body) (-enmCrc16) [])
  else (requestStatus b m body).map fun r =>
    replyRoom fw (crcSplit body).isSome (field body) r.1 r.2

theorem reply_length (fw : Firmware N W FlashCall) (crc : Bool) (ch : UInt8) (header : Bytes)
    (rc : Int) (echo : List Bytes) :
    (reply fw crc (ch :: header ++ joined (itoa10 rc :: echo))).length + 1 =
      replyRoom fw crc header rc echo := by
  have hsuffix : (crcSuffix fw crc (ch :: header ++ joined (itoa10 rc :: echo))).length =
      crcRoom fw crc (header ++ joined (itoa10 rc :: echo)) := by
    cases crc with
    | false => rfl
    | true =>
      simp only [crcSuffix, crcRoom, if_true, List.length_cons, List.cons_append, List.drop_succ_cons,
        List.drop_zero]
      omega
  simp only [reply, replyRoom, List.length_append, hsuffix, length_joined, List.length_cons,
    List.length_nil, List.map_cons, List.sum_cons]
  omega

theorem answer_length (b : Board W) (fw : Firmware N W FlashCall) (m : Machine N W FlashCall)
    {body : Bytes} {n : Nat} (hn : answerRoom b fw m body = some n) :
    ∃ s, answerOf b fw m body = some s ∧ s.length + 1 = n := by
  unfold answerRoom at hn
  unfold answerOf
  split at hn
  · rename_i hv
    obtain rfl := Option.some.inj hn
    refine ⟨_, if_pos hv, ?_⟩
    have := reply_length fw true nakOfResponse (unsplit body) (-enmCrc16) []
    simpa [crcNak, joined] using this
  · rename_i hv
    obtain ⟨r, hr, rfl⟩ := Option.map_eq_some_iff.mp hn
    refine ⟨reply fw (crcSplit body).isSome (statusText (field body) r.1 r.2), ?_, ?_⟩
    · rw [if_neg hv, hr]
      rfl
    · exact reply_length fw _ _ (field body) r.1 r.2

/-- A board with two partitions whose drivers always succeed. -/
def plainBoard : Board Unit where
  flashHasExOp := false
  retentionBootloaderInfo := false
  outputSettings := false
  fixedPartitions := [(ascii "slot0", 0), (ascii "slot1", 1)]
  settingsRuntimeGet := fun w => (w, 1, 0)
  blinfoLookup := fun w => (w, 0, 0)
  flashAreaOpen := fun w id => (w, .ok ⟨id, 0x40000⟩)
  flashAreaErase := fun w _ _ _ => (w, 0)
  flashAreaWrite := fun w _ _ _ => (w, 0)
  flashAreaClose := fun w _ => w

/-! ## The form of a reply -/

/-- The header record of a request, as received. -/
def headerRecord (body : Bytes) : Bytes :=
  body.takeWhile fun b => b != recordMark && b != crcMark

/-- The status of the answer to a command frame. -/
def answerStatus (b : Board W) (fw : Firmware N W FlashCall) (m : Machine N W FlashCall)
    (body : Bytes) : Option Int :=
  if verdictOf fw body = some false then some (-enmCrc16)
  else (requestStatus b m body).map (·.1)

/-- The reply names its request: start mark, the header record as received, the
status, and then records of the request in their order; a CRC field may follow. -/
def Identifies (body : Bytes) (rc : Int) (s : Bytes) : Prop :=
  ∃ start echo crc, (start = ackOfResponse ∨ start = nakOfResponse) ∧
    echo.Sublist (records body) ∧ (crc = [] ∨ ∃ digits, crc = crcMark :: digits) ∧
    s = start :: headerRecord body ++ joined (itoa10 rc :: echo) ++ crc ++ [endOfPacket]

theorem headerRecord_eq {body : Bytes} (hz : 0 ∉ body) : headerRecord body = field body := by
  refine takeWhile_congr fun b hb => ?_
  have hne : (b == 0) = false := by simpa using fun h : b = 0 => hz (h ▸ hb)
  rw [endsText, hne, Bool.false_or, Bool.not_or, Bool.and_comm]
  rfl

theorem crcSuffix_cases (fw : Firmware N W FlashCall) (crc : Bool) (s : Bytes) :
    crcSuffix fw crc s = [] ∨ ∃ digits, crcSuffix fw crc s = crcMark :: digits := by
  cases crc with
  | false => exact .inl rfl
  | true => exact .inr ⟨_, rfl⟩

/-! ### Replies of the flash commands -/

theorem range_getD (c : Bytes) (rs : List Bytes) {n : Nat} (hn : n ≤ rs.length) :
    (List.range' 1 n).map (fun i => (c :: rs).getD i []) = rs.take n := by
  induction n with
  | zero => rfl
  | succ n ih =>
    have hlt : n < rs.length := by omega
    rw [List.range'_1_concat, List.map_append, ih (by omega), List.take_succ_eq_append_getElem hlt]
    simp [Nat.add_comm 1 n, hlt]

theorem echoed_sublist (c : Bytes) (rs : List Bytes) (stop : Nat) :
    (echoed (rs.length + 1) (c :: rs) 1 stop).Sublist rs := by
  have hn : (if stop ≥ rs.length + 1 then rs.length + 1 - 1 else stop) + 1 - 1 ≤ rs.length := by
    split <;> omega
  rw [echoed, range_getD c rs hn]
  exact List.take_sublist _ rs

theorem requestStatus_echo {b : Board W} {m : Machine N W FlashCall} {body : Bytes}
    {r : Int × List Bytes} (hr : requestStatus b m body = some r) : r.2.Sublist (records body) := by
  unfold requestStatus at hr
  simp only at hr
  split at hr
  · obtain rfl := Option.some.inj hr
    exact echoed_sublist _ _ _
  · split at hr
    · obtain rfl := Option.some.inj hr
      exact echoed_sublist _ _ _
    · split at hr
      · obtain rfl := Option.some.inj hr
        exact echoed_sublist _ _ _
      · cases hr

/-! ### The reply of the CRC check -/

theorem unsplit_eq {body : Bytes} (hz : 0 ∉ body) : unsplit body = before crcMark body :=
  takeWhile_congr fun b hb => by
    have hne : b ≠ 0 := fun h => hz (h ▸ hb)
    simp [hne]

/-- The records in front of the first CRC mark. -/
def firstRecords (body : Bytes) : List Bytes := records (before crcMark body)

theorem before_eq_joined {body : Bytes} (hz : 0 ∉ body) :
    before crcMark body = field body ++ joined (firstRecords body) := by
  have hzb : 0 ∉ before crcMark body := fun h => hz ((List.takeWhile_sublist _).mem h)
  have hf : field (before crcMark body) = field body := by
    by_cases hc : crcMark ∈ body
    · rw [← field_append_crc (before crcMark body) (behind crcMark body), split_at_first hc]
    · rw [before_eq_self hc]
  rw [firstRecords, ← hf, field_joined_records hzb (not_mem_before _ _)]

theorem firstRecords_isPrefix (body : Bytes) : firstRecords body <+: records body := by
  by_cases hc : crcMark ∈ body
  · have hsplit := records_append_crcMark (before crcMark body) (behind crcMark body)
    rw [split_at_first hc] at hsplit
    rw [hsplit]
    exact List.prefix_append _ _
  · rw [firstRecords, before_eq_self hc]

/-- The text of the status behind a rejected request. -/
abbrev mismatchText : Bytes := itoa10 (-enmCrc16)

/-- The records of a rejected request, with the status behind them, read as a
status with records behind it. -/
def RejectedInForm (body : Bytes) : Prop :=
  match firstRecords body with
  | [] => True
  | r :: rs => r = mismatchText ∧ (rs ++ [mismatchText]).Sublist (records body)

theorem crcNak_eq (fw : Firmware N W FlashCall) {body : Bytes} (hz : 0 ∉ body) :
    ∃ digits, crcNak fw body = nakOfResponse :: field body ++
      joined (firstRecords body ++ [mismatchText]) ++ crcMark :: digits ++ [endOfPacket] := by
  refine ⟨itoa16 (fw.crc16 ((nakOfResponse :: unsplit body ++
    recordMark :: mismatchText).drop 1)).toNat, ?_⟩
  rw [crcNak, reply, crcSuffix, if_pos rfl]
  simp only [unsplit_eq hz, before_eq_joined hz, joined_append]
  simp [joined]

/-- Records joined in front of a CRC mark are determined by the bytes. -/
theorem joined_crc_inj {ts us : List Bytes} (ht : ∀ t ∈ ts, PlainText t) (hu : ∀ u ∈ us, PlainText u)
    {c d : Bytes} (hd : d = [] ∨ ∃ digits, d = crcMark :: digits)
    (h : joined ts ++ crcMark :: c = joined us ++ d) : ts = us := by
  have hnone : ∀ {vs : List Bytes}, (∀ v ∈ vs, PlainText v) → crcMark ∉ joined vs := by
    intro vs hvs hm
    rcases mem_joined hm with he | ⟨v, hv, hm⟩
    · revert he
      decide
    · exact (hvs v hv).notMem rfl hm
  have hjoined : joined ts = joined us := by
    rcases hd with rfl | ⟨digits, rfl⟩
    · rw [List.append_nil] at h
      exact absurd (h ▸ by simp) (hnone hu)
    · rw [← before_append c (hnone ht), h, before_append digits (hnone hu)]
  rw [← records_joined ht, hjoined, records_joined hu]

/-- The reply to a rejected request has the form of a reply exactly in this case. -/
theorem crcNak_identifies_iff (fw : Firmware N W FlashCall) {body : Bytes}
    (f : InLimits N enqOfCommand body) (hz : 0 ∉ body) :
    Identifies body (-enmCrc16) (crcNak fw body) ↔ RejectedInForm body := by
  obtain ⟨digits, hnak⟩ := crcNak_eq fw hz
  have hplain := records_plain f.inside
  have hstatus : PlainText mismatchText := plainText_itoa10 _
  have hfirst : ∀ t ∈ firstRecords body, PlainText t := fun t ht =>
    hplain t ((firstRecords_isPrefix body).subset ht)
  constructor
  · rintro ⟨start, echo, crc, -, hsub, hcrc, he⟩
    rw [hnak, headerRecord_eq hz] at he
    have hcut := List.append_cancel_right he
    simp only [List.cons_append, List.append_assoc, List.cons.injEq] at hcut
    have hts : firstRecords body ++ [mismatchText] = mismatchText :: echo := by
      refine joined_crc_inj (fun t ht => ?_) (fun u hu => ?_) hcrc
        (List.append_cancel_left hcut.2)
      · rcases List.mem_append.mp ht with ht | ht
        · exact hfirst t ht
        · rw [List.mem_singleton.mp ht]
          exact hstatus
      · rcases List.mem_cons.mp hu with rfl | hu
        · exact hstatus
        · exact hplain u (hsub.subset hu)
    unfold RejectedInForm
    cases hr : firstRecords body with
    | nil => trivial
    | cons r rs =>
      rw [hr, List.cons_append] at hts
      obtain ⟨hr', hrs⟩ := List.cons.inj hts
      exact ⟨hr', hrs ▸ hsub⟩
  · intro h
    unfold RejectedInForm at h
    cases hr : firstRecords body with
    | nil =>
      refine ⟨nakOfResponse, [], crcMark :: digits, .inr rfl, List.nil_sublist _, .inr ⟨_, rfl⟩, ?_⟩
      rw [hnak, headerRecord_eq hz, hr]
      rfl
    | cons r rs =>
      rw [hr] at h
      obtain ⟨rfl, hsub⟩ := h
      refine ⟨nakOfResponse, rs ++ [mismatchText], crcMark :: digits, .inr rfl, hsub,
        .inr ⟨_, rfl⟩, ?_⟩
      rw [hnak, headerRecord_eq hz, hr]
      rfl

/-- **A reply identifies its request**, unless it is the answer to a CRC mismatch
in a request with records. -/
theorem reply_identifies_iff (b : Board W) (fw : Firmware N W FlashCall)
    (m : Machine N W FlashCall) {body : Bytes} (f : InLimits N enqOfCommand body) (hz : 0 ∉ body)
    {rc : Int} (hrc : answerStatus b fw m body = some rc) :
    (∃ s, sends (since m (processHupacket (withFlash b fw) m (frame enqOfCommand body))) = [s] ∧
      Identifies body rc s) ↔ (verdictOf fw body = some false → RejectedInForm body) := by
  unfold answerStatus at hrc
  split at hrc
  · rename_i hv
    obtain rfl := Option.some.inj hrc
    have ha := frame_answered b fw m f (if_pos hv)
    rw [ha.sent, ← crcNak_identifies_iff fw f hz]
    constructor
    · rintro ⟨s, hs, h⟩ -
      exact (List.singleton_inj.mp hs) ▸ h
    · exact fun h => ⟨_, rfl, h hv⟩
  · rename_i hv
    obtain ⟨r, hr, rfl⟩ := Option.map_eq_some_iff.mp hrc
    have hs : answerOf b fw m body = some (reply fw (crcSplit body).isSome
        (statusText (field body) r.1 r.2)) := by
      rw [answerOf, if_neg hv, hr]
      rfl
    have ha := frame_answered b fw m f hs
    refine ⟨fun _ h => absurd h hv, fun _ => ⟨_, ha.sent, ?_⟩⟩
    refine ⟨if r.1 = 0 then ackOfResponse else nakOfResponse, r.2,
      crcSuffix fw (crcSplit body).isSome (statusText (field body) r.1 r.2), ?_,
      requestStatus_echo hr, crcSuffix_cases fw _ _, ?_⟩
    · split
      · exact .inl rfl
      · exact .inr rfl
    · rw [headerRecord_eq hz]
      rfl

theorem erase_reply_identifies :
    ∃ s, sends (since (.fresh packetSize ()) (processHupacket (withFlash plainBoard (image [] []))
        (.fresh packetSize ()) (frame enqOfCommand (ascii "7@erase:1")))) = [s] ∧
      Identifies (ascii "7@erase:1") (-einval) s :=
  (reply_identifies_iff plainBoard (image [] []) (.fresh packetSize ())
    ⟨rfl, List.all_eq_true.mp (by decide), by decide, by decide⟩ (by decide)
    (show _ = some (-einval) by decide +kernel)).mpr fun h => absurd h (by decide)

/-- An erase request for `slot0` with a wrong CRC field `0`: the reply names the
partition in front of the status. -/
theorem rejected_reply_misplaces :
    answerRoom plainBoard (image [] []) (.fresh packetSize ())
        (ascii "erase" ++ recordMark :: ascii "slot0" ++ crcMark :: ascii "0") = some 25 ∧
      ¬ ∃ s, sends (since (.fresh packetSize ())
        (processHupacket (withFlash plainBoard (image [] [])) (.fresh packetSize ())
          (frame enqOfCommand
            (ascii "erase" ++ recordMark :: ascii "slot0" ++ crcMark :: ascii "0")))) = [s] ∧
        Identifies (ascii "erase" ++ recordMark :: ascii "slot0" ++ crcMark :: ascii "0")
          (-enmCrc16) s := by
  have f : InLimits packetSize enqOfCommand
      (ascii "erase" ++ recordMark :: ascii "slot0" ++ crcMark :: ascii "0") :=
    ⟨rfl, List.all_eq_true.mp (by decide), by decide, by decide⟩
  have hv : verdictOf (image (W := Unit) (X := FlashCall) [] [])
      (ascii "erase" ++ recordMark :: ascii "slot0" ++ crcMark :: ascii "0") = some false := by
    decide +kernel
  have ha := frame_answered plainBoard (image [] []) (.fresh packetSize ()) f (if_pos hv)
  refine ⟨by decide +kernel, ?_⟩
  rintro ⟨s, hs, h⟩
  obtain rfl := List.singleton_inj.mp (ha.sent.symm.trans hs)
  have hform := (crcNak_identifies_iff (image [] []) f (by decide)).mp h
  exact absurd hform.1 (by decide)

end Sdkz.Hu
