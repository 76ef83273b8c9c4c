import Sdkz.Hu.Text
import Sdkz.Hu.Verdict

/-! # A reply read back by a peer

`sendResponse` is a whole reply as the handlers build it: an ACK or a NAK, then
records, then the send. Whatever the sender put in, a peer's parser takes out:
`responsePacket` is what both sides agree on. -/

namespace Sdkz.Hu
open Sdkz.Base

variable {N : Nat} {W X : Type}

/-! ## Sending -/

/-- The start of a reply: `hupacket_ack_response` or `hupacket_nak_response`. -/
inductive Answer where
  | ack
  | nak (rc : Int)

/-- A record added by `hupacket_record_str`, `_int` or `_hex`. -/
inductive Record where
  | str (s : Bytes)
  | int (v : Int)
  | hex (v : Nat)

def Answer.start : Answer → UInt8
  | .ack => ackOfResponse
  | .nak _ => nakOfResponse

def Answer.status : Answer → Int
  | .ack => noError
  | .nak rc => rc

def Record.text : Record → Bytes
  | .str s => s
  | .int v => itoa10 v
  | .hex v => itoa16 v

def answer (m : Machine N W X) : Answer → Machine N W X
  | .ack => hupacketAckResponse m
  | .nak rc => hupacketNakResponse m rc

def addRecord (m : Machine N W X) : Record → Machine N W X
  | .str s => hupacketRecordStr m s
  | .int v => hupacketRecordInt m v
  | .hex v => hupacketRecordHex m v

def sendResponse (fw : Firmware N W X) (m : Machine N W X) (a : Answer) (rs : List Record) :
    Machine N W X :=
  hupacketSendBuffer fw (rs.foldl addRecord (answer m a))

theorem answer_builds (m : Machine N W X) (a : Answer) :
    Builds m (answer m a) (a.start :: (m.handle.header ++ joined [itoa10 a.status])) := by
  have hj : joined [itoa10 a.status] = recordMark :: itoa10 a.status := by simp [joined]
  rw [hj]
  cases a with
  | ack => exact (hupacketResetBuffer_builds m ackOfResponse (by decide)).recordInt 0
  | nak rc => exact (hupacketResetBuffer_builds m nakOfResponse (by decide)).recordInt rc

theorem addRecord_builds {m m' : Machine N W X} {s : Bytes} (h : Builds m m' s) (r : Record) :
    Builds m (addRecord m' r) (s ++ joined [r.text]) := by
  have hj : joined [r.text] = recordMark :: r.text := by simp [joined]
  rw [hj]
  cases r with
  | str s => exact h.recordStr s
  | int v => exact h.recordInt v
  | hex v => exact h.recordHex v

theorem addRecords_builds {m m' : Machine N W X} {s : Bytes} (h : Builds m m' s)
    (rs : List Record) :
    Builds m (rs.foldl addRecord m') (s ++ joined (rs.map Record.text)) := by
  induction rs generalizing m' s with
  | nil => exact h.of_eq (List.append_nil s).symm
  | cons r rs ih =>
    refine (ih (addRecord_builds h r)).of_eq ?_
    simp [joined]

/-- The bytes between start mark and CRC field of a reply. -/
def replyBody (h : HupHandle N) (a : Answer) (rs : List Record) : Bytes :=
  h.header ++ joined (itoa10 a.status :: rs.map Record.text)

theorem sendResponse_sends (fw : Firmware N W X) (m : Machine N W X) (a : Answer)
    (rs : List Record) : Sends m (sendResponse fw m a rs)
      (reply fw m.handle.crc16.isSome (a.start :: replyBody m.handle a rs)) := by
  have hb := addRecords_builds (answer_builds m a) rs
  have he : a.start :: (m.handle.header ++ joined [itoa10 a.status]) ++
      joined (rs.map Record.text) = a.start :: replyBody m.handle a rs := by
    simp [replyBody, joined]
  exact hupacketSendBuffer_sends fw (hb.of_eq he)

/-! ## Clean senders -/

/-- The strings a sender's handle points to make a header. -/
def CleanSender (h : HupHandle N) : Prop :=
  CleanHeader (h.id.map h.text) (h.text h.argv0) (h.sequence.map h.text)

def Record.Clean : Record → Prop
  | .str s => PlainText s
  | .int _ | .hex _ => True

theorem Record.Clean.plain {r : Record} (h : r.Clean) : PlainText r.text := by
  cases r with
  | str s => exact h
  | int v => exact plainText_itoa10 v
  | hex v => exact plainText_itoa16 v

theorem CleanSender.header_plain {h : HupHandle N} (c : CleanSender h) : PlainText h.header := by
  rw [h.header_eq]
  exact c.plain

/-! ## What the peer reads -/

/-- The packet a reply stands for. -/
def responsePacket (fw : Firmware N W X) (h : HupHandle N) (a : Answer) (rs : List Record) :
    Packet where
  response := true
  id := h.id.map h.text
  argv := h.text h.argv0 :: itoa10 a.status :: rs.map Record.text
  sequence := h.sequence.map h.text
  crc16 := h.crc16.map fun _ => itoa16 (fw.crc16 (replyBody h a rs)).toNat

section Reading
variable {h : HupHandle N} {a : Answer} {rs : List Record}

theorem replyTexts_plain (hrs : ∀ r ∈ rs, r.Clean) :
    ∀ t ∈ itoa10 a.status :: rs.map Record.text, PlainText t := by
  intro t ht
  rcases List.mem_cons.mp ht with rfl | ht
  · exact plainText_itoa10 _
  · obtain ⟨r, hr, rfl⟩ := List.mem_map.mp ht
    exact (hrs r hr).plain

theorem reply_packet (c : CleanSender h) (hrs : ∀ r ∈ rs, r.Clean) (fw : Firmware N W X) :
    packetOf a.start (replyBody h a rs ++ crcTexts fw h.crc16.isSome (replyBody h a rs)) =
      responsePacket fw h a rs := by
  have ht := replyTexts_plain (a := a) hrs
  have htexts : field (replyBody h a rs ++ crcTexts fw h.crc16.isSome (replyBody h a rs)) =
      h.header ∧ records (replyBody h a rs ++ crcTexts fw h.crc16.isSome (replyBody h a rs)) =
        itoa10 a.status :: rs.map Record.text := framed_texts fw _ c.header_plain ht
  have hcrc : crcSplit (replyBody h a rs ++ crcTexts fw h.crc16.isSome (replyBody h a rs)) =
      if h.crc16.isSome then some (replyBody h a rs, itoa16 (fw.crc16 (replyBody h a rs)).toNat)
      else none := framed_crcSplit fw _ c.header_plain ht
  have hstart : (a.start != enqOfCommand) = true := by cases a <;> rfl
  have hpost : field (itoa16 (fw.crc16 (replyBody h a rs)).toNat) =
      itoa16 (fw.crc16 (replyBody h a rs)).toNat :=
    field_eq_self fun b hb => (plainText_itoa16 _).ends hb
  have hheader : h.header = headerOf (h.id.map h.text) (h.text h.argv0)
      (h.sequence.map h.text) := h.header_eq
  simp only [packetOf, responsePacket, commandOf, htexts.1, htexts.2, hcrc, hstart, hheader,
    c.id_parts.1, c.command_parts.1, c.command_parts.2]
  cases h.crc16 with
  | none => rfl
  | some p => simp [hpost]

theorem Answer.start_mark (a : Answer) : isStartMark a.start = true := by
  cases a <;> rfl

theorem Answer.start_ne (a : Answer) : a.start ≠ enqOfCommand := by
  cases a with
  | ack => decide
  | nak rc => exact (by decide : nakOfResponse ≠ enqOfCommand)

end Reading

/-- **A peer reads what was sent.** A reply of a clean sender that fits
`tx_buffer` is sent once, and a peer that takes its bytes, in any state, presents
exactly the packet the reply stands for, with a verdict that is positive if the
reply carries a CRC field. -/
theorem sent_reply_presented {W' X' : Type} (fw : Firmware N W X) (fw' : Firmware N W' X')
    (hfn : fw'.crc16 = fw.crc16) (m : Machine N W X) (peer : Machine N W' X') {a : Answer}
    {rs : List Record} (c : CleanSender m.handle) (hrs : ∀ r ∈ rs, r.Clean) (hlen : rs.length ≤ 62)
    (hfits : (sendResponse fw m a rs).handle.txBuffer.length + 1 ≤ N) :
    let s := (sendResponse fw m a rs).handle.txBuffer
    sends (since m (sendResponse fw m a rs)) = [s] ∧
      ∃ v, presented (since peer (processHupacket fw' peer s)) =
          [(responsePacket fw m.handle a rs, v)] ∧
        (m.handle.crc16.isSome = true → v = true) := by
  have hs := sendResponse_sends fw m a rs
  refine ⟨by rw [hs.logged.2, hs.handle], ?_⟩
  have htx : (sendResponse fw m a rs).handle.txBuffer = frame a.start (replyBody m.handle a rs ++
      crcTexts fw m.handle.crc16.isSome (replyBody m.handle a rs)) := by
    rw [hs.handle]
    simp [reply, frame, crcSuffix, crcTexts]
  rw [htx] at hfits ⊢
  have ht := replyTexts_plain (a := a) hrs
  have f : InLimits N a.start (replyBody m.handle a rs ++
      crcTexts fw m.handle.crc16.isSome (replyBody m.handle a rs)) := by
    refine framed_inLimits fw _ a.start_mark c.header_plain ht ?_ ?_
    · simp only [List.length_cons, List.length_map]
      omega
    · simp only [frame, replyBody, List.length_append, List.length_cons, List.length_nil]
        at hfits ⊢
      omega
  have hver : verdictOf fw' (replyBody m.handle a rs ++
      crcTexts fw m.handle.crc16.isSome (replyBody m.handle a rs)) =
        if m.handle.crc16.isSome then some true else none :=
    framed_verdict fw _ fw' hfn c.header_plain ht
  obtain ⟨-, hpres, -, -⟩ := frame_presented fw' peer f fun h => a.start_ne h.1
  rw [reply_packet c hrs fw, hver] at hpres
  exact ⟨_, hpres, fun h => by rw [h]; rfl⟩

/-- The handle of a sender that answers the command `flash` of the peer 19. -/
def flashSender : HupHandle packetSize :=
  { HupHandle.fresh packetSize with
    buffer := .ofFn fun i => (ascii "19" ++ 0 :: ascii "flash")[i.val]?.getD 0
    argv := .replicate 64 3
    id := some 0
    crc16 := some 0 }

theorem flash_reply_presented :
    let m : Machine packetSize Unit Empty := ⟨(), flashSender, []⟩
    let rs := [Record.str (ascii "slot0"), .hex 65536, .int (-5)]
    let s := (sendResponse (image [] []) m .ack rs).handle.txBuffer
    sends (since m (sendResponse (image [] []) m .ack rs)) = [s] ∧
      ∃ v, presented (since (.fresh packetSize ()) (processHupacket (image [] [])
          (.fresh packetSize () : Machine packetSize Unit Empty) s)) =
          [(responsePacket (image (W := Unit) (X := Empty) [] []) flashSender .ack rs, v)] ∧
        (flashSender.crc16.isSome = true → v = true) := by
  have hid : flashSender.text 0 = ascii "19" := by decide +kernel
  have hcmd : flashSender.text flashSender.argv0 = ascii "flash" := by decide +kernel
  have clean : CleanSender flashSender := by
    refine ⟨fun s hs => ?_, ?_, ?_, by simp [flashSender, HupHandle.fresh, HupHandle.reset]⟩
    · obtain rfl : flashSender.text 0 = s := Option.some.inj hs
      rw [hid]
      exact ⟨by decide, by decide⟩
    · rw [hcmd]
      decide
    · rw [hcmd]
      decide
  refine sent_reply_presented (image [] []) (image [] []) rfl ⟨(), flashSender, []⟩
    (.fresh packetSize ()) clean ?_ (by decide) (by decide +kernel)
  intro r hr
  rcases List.mem_cons.mp hr with rfl | hr
  · change PlainText (ascii "slot0")
    decide
  · simp only [List.mem_cons, List.not_mem_nil, or_false] at hr
    rcases hr with rfl | rfl <;> trivial

end Sdkz.Hu
