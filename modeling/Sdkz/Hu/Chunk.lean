import Sdkz.Hu.Reply

/-! # A flash chunk as the packet format documents it

The comment on the packet format gives a chunk of 0x100 bytes as its example, and
the decoder's output buffer is sized for one. `_flash` takes the chunk the other
way round: the lengths it turns down are the ones up to `ASCII85_MAX_CHUNK_SIZE`. -/

namespace Sdkz.Hu
open Sdkz.Base

variable {N : Nat} {W : Type}

/-! ## Chunks -/

/-- A `flash` command: its header, the texts of its records, the data, and
whether it carries a CRC field. -/
structure ChunkRequest where
  id : Option Bytes
  sequence : Option Bytes
  name : Bytes
  offsetText : Bytes
  lengthText : Bytes
  data : Bytes
  crc : Bool

namespace ChunkRequest

def header (r : ChunkRequest) : Bytes := headerOf r.id (ascii "flash") r.sequence

def echo (r : ChunkRequest) : List Bytes := [r.name, r.offsetText, r.lengthText]

def texts (r : ChunkRequest) : List Bytes := r.echo ++ [ascii85 r.data]

/-- The body of the command frame. -/
def body (fw : Firmware N W FlashCall) (r : ChunkRequest) : Bytes :=
  r.header ++ joined r.texts ++ crcTexts fw r.crc (r.header ++ joined r.texts)

/-- A chunk of a size the format allows, for a partition that can be opened. -/
structure Valid (b : Board W) (fw : Firmware N W FlashCall) (m : Machine N W FlashCall)
    (r : ChunkRequest) (fa : FlashArea) (offset : Nat) : Prop where
  headerClean : CleanHeader r.id (ascii "flash") r.sequence
  namePlain : PlainText r.name
  offsetPlain : PlainText r.offsetText
  lengthPlain : PlainText r.lengthText
  size : 1 ≤ r.data.length ∧ (r.data.length : Int) ≤ ascii85MaxChunkSize
  offsetRange : offset < 2 ^ 31
  opens : (openFlashPartition b m r.name).2 = (0, some fa)
  offsetReads : strtol 16 r.offsetText = offset
  lengthReads : strtol 16 r.lengthText = r.data.length
  fits : (r.body fw).length < N

end ChunkRequest

/-! ## What a chunk should do -/

def FlashCall.written : FlashCall → Option (FlashArea × Int × Bytes)
  | .write fa offset data => some (fa, offset, data)
  | _ => none

/-- The writes among driver calls, in order. -/
def writes (xs : List FlashCall) : List (FlashArea × Int × Bytes) :=
  xs.filterMap FlashCall.written

/-- The chunk is written, once, and a successful write is acknowledged. -/
def ChunkWritten (b : Board W) (fw : Firmware N W FlashCall) (m : Machine N W FlashCall)
    (r : ChunkRequest) (fa : FlashArea) (offset : Nat) : Prop :=
  let new := since m (processHupacket (withFlash b fw) m (frame enqOfCommand (r.body fw)))
  let w := (openFlashPartition b m r.name).1.world
  writes (driverCalls new) = [(fa, (offset : Int), r.data)] ∧
    ((b.flashAreaWrite w fa offset r.data).2 = 0 →
      sends new = [reply fw r.crc (statusText r.header 0 r.echo)])

/-! ## What it does -/

section Rejected
variable {b : Board W} {fw : Firmware N W FlashCall} {m : Machine N W FlashCall}
  {r : ChunkRequest} {fa : FlashArea} {offset : Nat}

theorem plainText_ascii85 (d : Bytes) : PlainText (ascii85 d) := by
  intro c hc
  have hall : ∀ c : UInt8, isAscii85 c = true → isPlain c = true :=
    forall_byte (by decide +kernel)
  exact hall c (ascii85_ok hc)

theorem ChunkRequest.Valid.texts_plain (v : r.Valid b fw m fa offset) :
    ∀ t ∈ r.texts, PlainText t := by
  intro t ht
  simp only [ChunkRequest.texts, ChunkRequest.echo, List.cons_append, List.nil_append,
    List.mem_cons, List.not_mem_nil, or_false] at ht
  rcases ht with rfl | rfl | rfl | rfl
  · exact v.namePlain
  · exact v.offsetPlain
  · exact v.lengthPlain
  · exact plainText_ascii85 r.data

theorem ChunkRequest.Valid.inLimits (v : r.Valid b fw m fa offset) :
    InLimits N enqOfCommand (r.body fw) :=
  framed_inLimits fw r.crc rfl v.headerClean.plain v.texts_plain
    (by simp [ChunkRequest.texts, ChunkRequest.echo]) v.fits

theorem ChunkRequest.Valid.parts (v : r.Valid b fw m fa offset) :
    commandOf (r.body fw) = ascii "flash" ∧ records (r.body fw) = r.texts ∧
      field (r.body fw) = r.header ∧ (crcSplit (r.body fw)).isSome = r.crc ∧
      verdictOf fw (r.body fw) ≠ some false := by
  have htexts := framed_texts fw r.crc v.headerClean.plain v.texts_plain
  have hsplit := framed_crcSplit fw r.crc v.headerClean.plain v.texts_plain
  have hver := framed_verdict fw r.crc fw rfl v.headerClean.plain v.texts_plain
  refine ⟨?_, htexts.2, htexts.1, ?_, ?_⟩
  · rw [commandOf]
    exact (congrArg _ (congrArg _ htexts.1)).trans v.headerClean.command_parts.1
  · refine (congrArg Option.isSome hsplit).trans ?_
    cases r.crc <;> rfl
  · intro h
    have h := hver.symm.trans h
    revert h
    cases r.crc <;> simp

/-- A size up to the maximum is turned down behind the open. -/
theorem flashChunk_rejected (v : r.Valid b fw m fa offset) (c : Bytes)
    {m' : Machine N W FlashCall} (h : m'.world = m.world) :
    flashChunk b m' 5 (c :: r.texts) =
      ((openFlashPartition b m' r.name).1, -einval, some fa) := by
  have hopen := (openFlashPartition_world b h r.name).1.trans v.opens
  have hsize : ¬ ascii85MaxChunkSize < strtol 16 r.lengthText := by
    rw [v.lengthReads]
    exact not_lt.mpr v.size.2
  unfold flashChunk
  rw [if_neg (by decide)]
  have hname : (c :: r.texts).getD argFlashPartition [] = r.name := rfl
  have hlength : (c :: r.texts).getD argFlashLength [] = r.lengthText := rfl
  rw [hname, hlength]
  generalize openFlashPartition b m' r.name = o at hopen
  obtain ⟨m1, rc, fa'⟩ := o
  simp only [Prod.mk.injEq] at hopen
  obtain ⟨rfl, rfl⟩ := hopen
  simp [not_lt.mp hsize]

/-- No driver call of an open is a write. -/
theorem openFlashPartition_writes (b : Board W) (m : Machine N W FlashCall) (name : Bytes) :
    writes (driverCalls (openFlashPartition b m name).1.log) = writes (driverCalls m.log) := by
  unfold openFlashPartition
  simp only
  split
  · rfl
  · split <;> simp [Machine.emit, driverCalls, Event.driven, writes, FlashCall.written]

theorem driverCalls_unreplied {X : Type} {ev : List (Event X)}
    (h : ∀ e ∈ ev, e.isReply = false) : driverCalls ev = [] :=
  List.filterMap_eq_nil_iff.mpr fun e he => by
    have := h e he
    cases e <;> simp_all [Event.isReply, Event.driven]

/-- **A chunk of up to 0x100 bytes is turned down.** Nothing is written, and the
answer is a NAK. -/
theorem chunk_rejected (v : r.Valid b fw m fa offset) :
    let new := since m (processHupacket (withFlash b fw) m (frame enqOfCommand (r.body fw)))
    writes (driverCalls new) = [] ∧
      sends new = [reply fw r.crc (statusText r.header (-einval) r.echo)] := by
  obtain ⟨hcommand, hrecords, hfield, hcrc, hver⟩ := v.parts
  have hlen : r.texts.length + 1 = 5 := rfl
  constructor
  · obtain ⟨m', hm', hrun⟩ := frame_calls (withFlash b fw) m v.inLimits (fun h => hver h.2)
      ((entryFor_withFlash b fw (r.body fw)).2.1 hcommand)
    obtain ⟨ev, hlog, hev⟩ := hm'.log
    have hdone : (processHupacket (withFlash b fw) m (frame enqOfCommand (r.body fw))).log =
        (answerRequest b fw ((openFlashPartition b m' r.name).1, -einval, some fa) 5
          (commandOf (r.body fw) :: r.texts) argFlashPartition argFlashLength).log := by
      rw [hrun, ← flashChunk_rejected v (commandOf (r.body fw)) hm'.world, hrecords]
      rfl
    obtain ⟨-, ev', hlog', -⟩ := (answerRequest_sends b fw
      (flashChunk_operates b m' 5 (commandOf (r.body fw) :: r.texts)) 5
      (commandOf (r.body fw) :: r.texts) argFlashPartition argFlashLength).replies
    rw [flashChunk_rejected v (commandOf (r.body fw)) hm'.world] at hlog'
    have hnew : since m (processHupacket (withFlash b fw) m (frame enqOfCommand (r.body fw))) =
        ev ++ ev' := since_eq (by rw [hdone, hlog', hlog, List.append_assoc])
    have hcalls := driverCalls_answerRequest b fw
      ((openFlashPartition b m' r.name).1, -einval, some fa) 5
      (commandOf (r.body fw) :: r.texts) argFlashPartition argFlashLength
    rw [hlog', driverCalls_append] at hcalls
    have hwrites := congrArg writes hcalls
    simp only [writes, List.filterMap_append] at hwrites
    have hopen := openFlashPartition_writes b m' r.name
    simp only [writes] at hopen
    rw [hopen] at hwrites
    rw [hnew, driverCalls_append, driverCalls_unreplied hev, List.nil_append]
    exact List.append_cancel_left hwrites
  · have hstatus : requestStatus b m (r.body fw) = some (-einval, r.echo) := by
      have hne : ¬ ascii "flash" = ascii "erase" := by decide
      have hecho : echoed 5 (ascii "flash" :: r.texts) argFlashPartition argFlashLength =
          r.echo := rfl
      rw [requestStatus, hcommand, hrecords, hlen, if_neg hne, if_pos rfl, hecho,
        flashChunk_rejected v (ascii "flash") rfl]
    have hanswer : answerOf b fw m (r.body fw) =
        some (reply fw r.crc (statusText r.header (-einval) r.echo)) := by
      rw [answerOf, if_neg hver, hstatus, hcrc, hfield]
      rfl
    exact (frame_answered b fw m v.inLimits hanswer).sent

/-- **No chunk the packet format allows is ever written.** -/
theorem chunk_not_written (v : r.Valid b fw m fa offset) : ¬ ChunkWritten b fw m r fa offset := by
  intro h
  have hw := h.1
  rw [(chunk_rejected v).1] at hw
  cases hw

end Rejected

/-! ## A chunk of four bytes -/

/-- Four bytes for the start of `slot0`. -/
def smallChunk : ChunkRequest where
  id := none
  sequence := none
  name := ascii "slot0"
  offsetText := ascii "0"
  lengthText := ascii "4"
  data := [1, 2, 3, 4]
  crc := true

theorem smallChunk_valid : smallChunk.Valid plainBoard (image [] []) (.fresh packetSize ())
    ⟨0, 0x40000⟩ 0 where
  headerClean := by
    refine ⟨fun s hs => ?_, by decide, by decide, fun s hs => ?_⟩ <;> cases hs
  namePlain := by decide
  offsetPlain := by decide
  lengthPlain := by decide
  size := by decide
  offsetRange := by decide
  opens := by decide +kernel
  offsetReads := by decide +kernel
  lengthReads := by decide +kernel
  fits := by decide +kernel

theorem smallChunk_left_out :
    ¬ ChunkWritten plainBoard (image [] []) (.fresh packetSize ()) smallChunk ⟨0, 0x40000⟩ 0 :=
  chunk_not_written smallChunk_valid

/-- The driver would have written the chunk, and nothing was asked of it. -/
theorem smallChunk_not_written :
    smallChunk.Valid plainBoard (image [] []) (.fresh packetSize ()) ⟨0, 0x40000⟩ 0 ∧
      ¬ ChunkWritten plainBoard (image [] []) (.fresh packetSize ()) smallChunk
        ⟨0, 0x40000⟩ 0 := by
  refine ⟨smallChunk_valid, fun h => ?_⟩
  have hw := h.1
  rw [(chunk_rejected smallChunk_valid).1] at hw
  cases hw

end Sdkz.Hu
