import Sdkz.Hu.Ascii85
import Sdkz.Hu.Outcome
import Sdkz.Hu.Text

/-! # The flash commands (lib/hu/huflash.c)

`wrprt`, `erase` and `flash` open a partition by name, work on it and answer with
a status and some of the request's records. The drivers are a `Board`: what each
call returns, as a function of the state of the world. A driver that fails to
open an area leaves the caller's pointer alone. -/

namespace Sdkz.Hu
open Sdkz.Base

/-- The fields of `struct flash_area` the commands pass on. -/
structure FlashArea where
  faId : UInt8
  faSize : Nat
deriving DecidableEq, Repr

/-- The calls of the flash driver. -/
inductive FlashCall where
  | open (id : UInt8)
  | erase (fa : FlashArea) (off : Int) (len : Nat)
  | write (fa : FlashArea) (off : Int) (data : Bytes)
  | close (fa : FlashArea)
deriving DecidableEq, Repr

/-- The configuration, the partition table and the drivers. -/
structure Board (W : Type) where
  flashHasExOp : Bool
  retentionBootloaderInfo : Bool
  outputSettings : Bool
  fixedPartitions : List (Bytes × UInt8)
  settingsRuntimeGet : W → W × Int × UInt8
  blinfoLookup : W → W × Int × UInt8
  flashAreaOpen : W → UInt8 → W × Except {rc : Int // rc ≠ 0} FlashArea
  flashAreaErase : W → FlashArea → Int → Nat → W × Int
  flashAreaWrite : W → FlashArea → Int → Bytes → W × Int
  flashAreaClose : W → FlashArea → W

def eio : Int := 5

def ascii85ErrorCodeStart : Int := 255
def ascii85MaxChunkSize : Int := 256

/-! ## Argument indices -/

abbrev argFlashPartition : Nat := 1
abbrev argEraseMax : Nat := 2
abbrev argFlashWriteProtect : Nat := argEraseMax
abbrev argWrprtMax : Nat := 3
abbrev argFlashOffset : Nat := argEraseMax
abbrev argFlashLength : Nat := 3
abbrev argFlashAscii85Data : Nat := 4
abbrev argFlashMax : Nat := 5

section Commands
variable {N : Nat} {W : Type}

/-! ## Partitions -/

def getPartitionId (b : Board W) (partitionName : Bytes) : Int :=
  match b.fixedPartitions.find? (·.1 == partitionName) with
  | some p => p.2.toNat
  | none => -einval

/-- `bootloader_active_slot`: return value and slot. -/
def bootloaderActiveSlot (b : Board W) (w : W) : W × Int × UInt8 :=
  if b.outputSettings then
    match b.settingsRuntimeGet w with
    | (w, rc, slot) => (w, if rc ≠ 1 then (if rc < 0 then rc else -eio) else 0, slot)
  else
    match b.blinfoLookup w with
    | (w, rc, slot) => (w, if rc < 0 then rc else 0, slot)

/-- The part of `open_flash_partition` that turns the name into an id. -/
def resolvePartition (b : Board W) (w : W) (partitionName : Bytes) : W × Int :=
  if b.retentionBootloaderInfo && partitionName == ascii "inactive" then
    match bootloaderActiveSlot b w with
    | (w, rc, partitionId) =>
      (w, if rc ≠ 0 then getPartitionId b partitionName
        else if partitionId = 0 then getPartitionId b (ascii "slot1")
        else if partitionId = 1 then getPartitionId b (ascii "slot0")
        else -einval)
  else (w, getPartitionId b partitionName)

/-- Only the id 0 gets as far as the driver: any other one is returned as it is,
and the caller takes it for an error. -/
def openFlashPartition (b : Board W) (m : Machine N W FlashCall) (partitionName : Bytes) :
    Machine N W FlashCall × Int × Option FlashArea :=
  let (w, rc) := resolvePartition b m.world partitionName
  let m := { m with world := w }
  if rc ≠ 0 then (m, rc, none)
  else
    let m := m.emit (.device (.open rc.toNat.toUInt8))
    match b.flashAreaOpen m.world rc.toNat.toUInt8 with
    | (w, .ok fa) => ({ m with world := w }, 0, some fa)
    | (w, .error rc) => ({ m with world := w }, rc, none)

def closeFlashPartition (b : Board W) (m : Machine N W FlashCall) (fa : Option FlashArea) :
    Machine N W FlashCall :=
  match fa with
  | some fa => { m with world := b.flashAreaClose m.world fa }.emit (.device (.close fa))
  | none => m

/-! ## Replies -/

def setStatus (m : Machine N W FlashCall) (rc : Int) : Machine N W FlashCall :=
  if rc = 0 then hupacketAckResponse m else hupacketNakResponse m rc

def setDone (fw : Firmware N W FlashCall) (m : Machine N W FlashCall) (argc : Nat)
    (argv : List Bytes) (start stop : Nat) : Machine N W FlashCall :=
  let stop := if stop ≥ argc then argc - 1 else stop
  hupacketSendBuffer fw ((List.range' start (stop + 1 - start)).foldl
    (fun m i => hupacketRecordStr m (argv.getD i [])) m)

/-- The end of every command: status, close, records, send. -/
def answerRequest (b : Board W) (fw : Firmware N W FlashCall)
    (r : Machine N W FlashCall × Int × Option FlashArea) (argc : Nat) (argv : List Bytes)
    (start stop : Nat) : Machine N W FlashCall :=
  setDone fw (closeFlashPartition b (setStatus r.1 r.2.1) r.2.2) argc argv start stop

/-! ## The commands

Each command first works on the flash; the result is the status and the area to
close. -/

def wrprtArea (b : Board W) (m : Machine N W FlashCall) (argc : Nat) (argv : List Bytes) :
    Machine N W FlashCall × Int × Option FlashArea :=
  if argc ≥ argWrprtMax then openFlashPartition b m (argv.getD argFlashPartition [])
  else (m, -einval, none)

def wrprt (b : Board W) (fw : Firmware N W FlashCall) (m : Machine N W FlashCall) (argc : Nat)
    (argv : List Bytes) : Machine N W FlashCall :=
  if b.flashHasExOp then
    answerRequest b fw (wrprtArea b m argc argv) argc argv argFlashPartition argFlashWriteProtect
  else m

def eraseArea (b : Board W) (m : Machine N W FlashCall) (argc : Nat) (argv : List Bytes) :
    Machine N W FlashCall × Int × Option FlashArea :=
  if argc ≥ argEraseMax then
    match openFlashPartition b m (argv.getD argFlashPartition []) with
    | (m, rc, some fa) =>
      if rc ≠ 0 then (m, rc, some fa)
      else
        let (w, rc) := b.flashAreaErase m.world fa 0 fa.faSize
        ({ m with world := w }.emit (.device (.erase fa 0 fa.faSize)), rc, some fa)
    | r => r
  else (m, -einval, none)

def erase (b : Board W) (fw : Firmware N W FlashCall) (m : Machine N W FlashCall) (argc : Nat)
    (argv : List Bytes) : Machine N W FlashCall :=
  answerRequest b fw (eraseArea b m argc argv) argc argv argFlashPartition argFlashPartition

/-- The status behind the decoder: its error, or a length that is not the announced one. -/
def decodeStatus (decoded : Decoded) (size : Int) : Int :=
  let rc := if decoded.outLength < 0 then
      -(decoded.outLength + ascii85ErrorCodeStart + eascii85) else 0
  if rc = 0 ∧ decoded.outLength ≠ size then -edesza85 else rc

/-- The decoder works in `tx_buffer`. -/
def writeChunk (b : Board W) (m : Machine N W FlashCall) (fa : FlashArea) (size : Int)
    (argv : List Bytes) : Machine N W FlashCall × Int :=
  let offset := strtol 16 (argv.getD argFlashOffset [])
  let data := argv.getD argFlashAscii85Data []
  let decoded := decodeAscii85 (stringAt data) data.length (ascii85MaxChunkSize * 5)
  let m := m.mapHandle fun h => { h with txBuffer := decoded.outp }
  let rc := decodeStatus decoded size
  if rc ≠ 0 then (m, rc)
  else
    let (w, rc) := b.flashAreaWrite m.world fa offset (decoded.outp.take size.toNat)
    ({ m with world := w }.emit (.device (.write fa offset (decoded.outp.take size.toNat))), rc)

def flashChunk (b : Board W) (m : Machine N W FlashCall) (argc : Nat) (argv : List Bytes) :
    Machine N W FlashCall × Int × Option FlashArea :=
  if argc < argFlashMax then (m, -einval, none)
  else
    match openFlashPartition b m (argv.getD argFlashPartition []) with
    | (m, rc, some fa) =>
      if rc ≠ 0 then (m, rc, some fa)
      else
        let size := strtol 16 (argv.getD argFlashLength [])
        if size ≤ ascii85MaxChunkSize then (m, -einval, some fa)
        else
          let (m, rc) := writeChunk b m fa size argv
          (m, rc, some fa)
    | r => r

def flash (b : Board W) (fw : Firmware N W FlashCall) (m : Machine N W FlashCall) (argc : Nat)
    (argv : List Bytes) : Machine N W FlashCall :=
  answerRequest b fw (flashChunk b m argc argv) argc argv argFlashPartition argFlashLength

/-! ## What working on the flash leaves alone -/

/-- From `m` to `m'` only drivers were called, and `tx_buffer` may have been used
as scratch space. -/
structure Operates (m m' : Machine N W FlashCall) : Prop where
  handle : m'.handle = { m.handle with txBuffer := m'.handle.txBuffer }
  log : ∃ xs : List FlashCall, m'.log = m.log ++ xs.map .device

theorem Operates.refl (m : Machine N W FlashCall) : Operates m m := ⟨rfl, [], by simp⟩

theorem Operates.call {m m' : Machine N W FlashCall} (h : Operates m m') (w : W) (x : FlashCall) :
    Operates m ({ m' with world := w }.emit (.device x)) := by
  obtain ⟨xs, hlog⟩ := h.log
  exact ⟨h.handle, xs ++ [x], by simp [Machine.emit, hlog]⟩

theorem Operates.world {m m' : Machine N W FlashCall} (h : Operates m m') (w : W) :
    Operates m { m' with world := w } := ⟨h.handle, h.log⟩

theorem Operates.scratch {m m' : Machine N W FlashCall} (h : Operates m m') (s : Bytes) :
    Operates m (m'.mapHandle fun h => { h with txBuffer := s }) := by
  refine ⟨?_, h.log⟩
  simp only [Machine.mapHandle]
  rw [h.handle]

theorem openFlashPartition_operates (b : Board W) (m : Machine N W FlashCall) (name : Bytes) :
    Operates m (openFlashPartition b m name).1 := by
  unfold openFlashPartition
  simp only
  split
  · exact (Operates.refl m).world _
  · have hopen := (Operates.refl m).call (resolvePartition b m.world name).1
      (.open (resolvePartition b m.world name).2.toNat.toUInt8)
    split <;> exact hopen.world _

theorem wrprtArea_operates (b : Board W) (m : Machine N W FlashCall) (argc : Nat)
    (argv : List Bytes) : Operates m (wrprtArea b m argc argv).1 := by
  unfold wrprtArea
  split
  · exact openFlashPartition_operates b m _
  · exact .refl m

theorem eraseArea_operates (b : Board W) (m : Machine N W FlashCall) (argc : Nat)
    (argv : List Bytes) : Operates m (eraseArea b m argc argv).1 := by
  unfold eraseArea
  split
  · have hopen := openFlashPartition_operates b m (argv.getD argFlashPartition [])
    generalize openFlashPartition b m (argv.getD argFlashPartition []) = r at hopen
    obtain ⟨m', rc, fa⟩ := r
    cases fa with
    | none => exact hopen
    | some fa =>
      simp only
      split
      · exact hopen
      · exact hopen.call _ _
  · exact .refl m

theorem writeChunk_operates (b : Board W) {m m' : Machine N W FlashCall} (h : Operates m m')
    (fa : FlashArea) (size : Int) (argv : List Bytes) :
    Operates m (writeChunk b m' fa size argv).1 := by
  unfold writeChunk
  simp only
  split
  · exact h.scratch _
  · exact (h.scratch _).call _ _

theorem flashChunk_operates (b : Board W) (m : Machine N W FlashCall) (argc : Nat)
    (argv : List Bytes) : Operates m (flashChunk b m argc argv).1 := by
  unfold flashChunk
  split
  · exact .refl m
  · have hopen := openFlashPartition_operates b m (argv.getD argFlashPartition [])
    generalize openFlashPartition b m (argv.getD argFlashPartition []) = r at hopen
    obtain ⟨m', rc, fa⟩ := r
    cases fa with
    | none => exact hopen
    | some fa =>
      simp only
      split
      · exact hopen
      · split
        · exact hopen
        · exact writeChunk_operates b hopen fa _ argv

/-! ## The reply of a command -/

/-- The records a command echoes. -/
def echoed (argc : Nat) (argv : List Bytes) (start stop : Nat) : List Bytes :=
  (List.range' start ((if stop ≥ argc then argc - 1 else stop) + 1 - start)).map
    fun i => argv.getD i []

theorem Operates.builds {m m' m'' : Machine N W FlashCall} {s : Bytes} (h : Operates m m')
    (hb : Builds m' m'' s) : Builds m m'' s := by
  obtain ⟨xs, hlog⟩ := h.log
  obtain ⟨ev, hlog', hev⟩ := hb.log
  refine ⟨?_, xs.map .device ++ ev, by rw [hlog', hlog, List.append_assoc], fun e he => ?_⟩
  · rw [hb.handle, h.handle]
  · rcases List.mem_append.mp he with he | he
    · obtain ⟨x, -, rfl⟩ := List.mem_map.mp he
      trivial
    · exact hev e he

theorem Builds.call {m m' : Machine N W FlashCall} {s : Bytes} (h : Builds m m' s) (w : W)
    (x : FlashCall) : Builds m ({ m' with world := w }.emit (.device x)) s := by
  obtain ⟨ev, hlog, hev⟩ := h.log
  refine ⟨h.handle, ev ++ [.device x], by simp [Machine.emit, hlog], fun e he => ?_⟩
  rcases List.mem_append.mp he with he | he
  · exact hev e he
  · rw [List.mem_singleton.mp he]
    trivial

theorem setStatus_builds (m : Machine N W FlashCall) (rc : Int) :
    Builds m (setStatus m rc) (replyStart m.handle rc) := by
  unfold setStatus
  split
  · rename_i hrc
    rw [hrc]
    exact hupacketAckResponse_builds m
  · rename_i hrc
    refine (hupacketNakResponse_builds m rc).of_eq ?_
    rw [replyStart, if_neg hrc]

theorem recordArgs_builds {m m' : Machine N W FlashCall} {s : Bytes} (h : Builds m m' s)
    (argv : List Bytes) (is : List Nat) :
    Builds m (is.foldl (fun m i => hupacketRecordStr m (argv.getD i [])) m')
      (s ++ joined (is.map fun i => argv.getD i [])) := by
  induction is generalizing m' s with
  | nil => exact h.of_eq (List.append_nil s).symm
  | cons i is ih =>
    refine (ih (h.recordStr (argv.getD i []))).of_eq ?_
    simp [joined]

/-- The answer to a request whose work ended with the status `r.2.1`. -/
def requestReply (fw : Firmware N W FlashCall) (h : HupHandle N) (rc : Int)
    (echo : List Bytes) : Bytes :=
  reply fw h.crc16.isSome (replyStart h rc ++ joined echo)

theorem answerRequest_sends (b : Board W) (fw : Firmware N W FlashCall)
    {m : Machine N W FlashCall} {r : Machine N W FlashCall × Int × Option FlashArea}
    (h : Operates m r.1) (argc : Nat) (argv : List Bytes) (start stop : Nat) :
    Sends m (answerRequest b fw r argc argv start stop)
      (requestReply fw m.handle r.2.1 (echoed argc argv start stop)) := by
  have hheader : replyStart r.1.handle r.2.1 = replyStart m.handle r.2.1 := by
    rw [h.handle]
    rfl
  have hstatus : Builds m (setStatus r.1 r.2.1) (replyStart m.handle r.2.1) :=
    hheader ▸ h.builds (setStatus_builds r.1 r.2.1)
  have hclosed : Builds m (closeFlashPartition b (setStatus r.1 r.2.1) r.2.2)
      (replyStart m.handle r.2.1) := by
    cases r.2.2 with
    | none => exact hstatus
    | some fa => exact hstatus.call _ _
  exact hupacketSendBuffer_sends fw (recordArgs_builds hclosed argv _)

/-! ## Driver calls in the log -/

def Event.driven {X : Type} : Event X → Option X
  | .device x => some x
  | _ => none

/-- The driver calls, in order. -/
def driverCalls {X : Type} (log : List (Event X)) : List X := log.filterMap Event.driven

section Builder
variable {X : Type} (m : Machine N W X)

@[simp] theorem driverCalls_append (a b : List (Event X)) :
    driverCalls (a ++ b) = driverCalls a ++ driverCalls b := List.filterMap_append

@[simp] theorem driverCalls_appendStr (str : Bytes) :
    driverCalls (hupacketAppendStr m str).log = driverCalls m.log := by
  simp [hupacketAppendStr, Machine.mapHandle, Machine.emit, driverCalls, Event.driven]

@[simp] theorem driverCalls_appendChar (ch : UInt8) :
    driverCalls (hupacketAppendChar m ch).log = driverCalls m.log := by
  unfold hupacketAppendChar
  split
  · exact driverCalls_appendStr m [ch]
  · rfl

@[simp] theorem driverCalls_recordStr (str : Bytes) :
    driverCalls (hupacketRecordStr m str).log = driverCalls m.log := by
  simp [hupacketRecordStr]

@[simp] theorem driverCalls_recordInt (val : Int) :
    driverCalls (hupacketRecordInt m val).log = driverCalls m.log := by
  simp [hupacketRecordInt, hupacketAppendInt]

@[simp] theorem driverCalls_resetBuffer (stx : UInt8) :
    driverCalls (hupacketResetBuffer m stx).log = driverCalls m.log := by
  have hclear : driverCalls (m.mapHandle fun h => { h with txBuffer := [] }).log =
      driverCalls m.log := rfl
  simp only [hupacketResetBuffer]
  cases m.handle.id <;> cases m.handle.sequence <;> simp [hclear]

@[simp] theorem driverCalls_sendBuffer (fw : Firmware N W X) :
    driverCalls (hupacketSendBuffer fw m).log = driverCalls m.log := by
  have hsend : ∀ m : Machine N W X, ∀ s, driverCalls (m.emit (.send s)).log = driverCalls m.log :=
    fun m s => by simp [Machine.emit, driverCalls, Event.driven]
  simp only [hupacketSendBuffer]
  cases m.handle.crc16 <;> simp [hsend, hupacketAppendHex]

end Builder

theorem driverCalls_setStatus (m : Machine N W FlashCall) (rc : Int) :
    driverCalls (setStatus m rc).log = driverCalls m.log := by
  unfold setStatus
  split <;> simp [hupacketAckResponse, hupacketNakResponse]

theorem driverCalls_setDone (fw : Firmware N W FlashCall) (m : Machine N W FlashCall)
    (argc : Nat) (argv : List Bytes) (start stop : Nat) :
    driverCalls (setDone fw m argc argv start stop).log = driverCalls m.log := by
  unfold setDone
  simp only [driverCalls_sendBuffer]
  generalize List.range' start _ = is
  induction is generalizing m with
  | nil => rfl
  | cons i is ih =>
    rw [List.foldl_cons, ih, driverCalls_recordStr]

/-- The reply itself calls no driver but the one that closes the area. -/
theorem driverCalls_answerRequest (b : Board W) (fw : Firmware N W FlashCall)
    (r : Machine N W FlashCall × Int × Option FlashArea) (argc : Nat) (argv : List Bytes)
    (start stop : Nat) : driverCalls (answerRequest b fw r argc argv start stop).log =
      driverCalls r.1.log ++ (r.2.2.map FlashCall.close).toList := by
  have hclose : ∀ (m : Machine N W FlashCall) (fa : Option FlashArea),
      driverCalls (closeFlashPartition b m fa).log =
        driverCalls m.log ++ (fa.map FlashCall.close).toList := by
    intro m fa
    cases fa with
    | none => simp [closeFlashPartition]
    | some fa => simp [closeFlashPartition, Machine.emit, driverCalls, Event.driven]
  rw [answerRequest, driverCalls_setDone, hclose, driverCalls_setStatus]

/-! ## The table entries -/

section Table
variable (b : Board W) (fw : Firmware N W FlashCall)

def hupCmdErase : HupCmd N W FlashCall where
  cmd := ascii "erase"
  func := erase b fw
  replies m argc argv :=
    (answerRequest_sends b fw (eraseArea_operates b m argc argv) argc argv _ _).replies

def hupCmdFlash : HupCmd N W FlashCall where
  cmd := ascii "flash"
  func := flash b fw
  replies m argc argv :=
    (answerRequest_sends b fw (flashChunk_operates b m argc argv) argc argv _ _).replies

def hupCmdWrprt : HupCmd N W FlashCall where
  cmd := ascii "wrprt"
  func := wrprt b fw
  replies m argc argv := by
    unfold wrprt
    split
    · exact (answerRequest_sends b fw (wrprtArea_operates b m argc argv) argc argv _ _).replies
    · exact ⟨rfl, [], by simp, by simp⟩

/-- The image with the flash commands linked in; the section is sorted by name. -/
def withFlash : Firmware N W FlashCall :=
  { fw with hupCmd := [hupCmdErase b fw, hupCmdFlash b fw, hupCmdWrprt b fw] ++ fw.hupCmd }

end Table

end Commands

end Sdkz.Hu
