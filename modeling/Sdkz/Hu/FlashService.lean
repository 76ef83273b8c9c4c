import Sdkz.Hu.Refine
import Sdkz.Hu.Reply

/-! # The flash commands as services

`Work` is what a flash command does before it answers, without handle and log:
the world it leaves, the driver calls, the status and the area it has to close.
`Work.serve` adds the close and the one reply. The functions of the table entries
do exactly this (`withFlash_provides`), so the image with the flash commands
refines the server with these services. -/

namespace Sdkz.Hu
open Sdkz.Base

variable {N : Nat} {W : Type}

/-! ## Work -/

structure Work (W : Type) where
  world : W
  calls : List FlashCall
  status : Int
  area : Option FlashArea

namespace Work

/-- Nothing is done, and the request is turned down. -/
def refuse (w : W) : Work W := ⟨w, [], -einval, none⟩

/-- The partition of a name is opened. -/
def opened (b : Board W) (w : W) (name : Bytes) : Work W :=
  let r := resolvePartition b w name
  if r.2 ≠ 0 then ⟨r.1, [], r.2, none⟩
  else match b.flashAreaOpen r.1 r.2.toNat.toUInt8 with
    | (w, .ok fa) => ⟨w, [.open r.2.toNat.toUInt8], 0, some fa⟩
    | (w, .error rc) => ⟨w, [.open r.2.toNat.toUInt8], rc, none⟩

/-- A driver call on the open area, and what it returned. -/
def call (k : Work W) (x : FlashCall) (r : W × Int) : Work W :=
  { k with world := r.1, calls := k.calls ++ [x], status := r.2 }

def erase (b : Board W) (w : W) (argv : List Bytes) : Work W :=
  if argv.length < argEraseMax then refuse w
  else
    let k := opened b w (argv.getD argFlashPartition [])
    match k.area with
    | none => k
    | some fa => k.call (.erase fa 0 fa.faSize) (b.flashAreaErase k.world fa 0 fa.faSize)

def wrprt (b : Board W) (w : W) (argv : List Bytes) : Work W :=
  if argv.length < argWrprtMax then refuse w
  else opened b w (argv.getD argFlashPartition [])

/-- Decoded data of the announced length is written. -/
def write (b : Board W) (k : Work W) (fa : FlashArea) (size : Int) (argv : List Bytes) : Work W :=
  let offset := strtol 16 (argv.getD argFlashOffset [])
  let data := argv.getD argFlashAscii85Data []
  let decoded := decodeAscii85 (stringAt data) data.length (ascii85MaxChunkSize * 5)
  let rc := decodeStatus decoded size
  if rc ≠ 0 then { k with status := rc }
  else k.call (.write fa offset (decoded.outp.take size.toNat))
    (b.flashAreaWrite k.world fa offset (decoded.outp.take size.toNat))

def flash (b : Board W) (w : W) (argv : List Bytes) : Work W :=
  if argv.length < argFlashMax then refuse w
  else
    let k := opened b w (argv.getD argFlashPartition [])
    match k.area with
    | none => k
    | some fa =>
      let size := strtol 16 (argv.getD argFlashLength [])
      if size ≤ ascii85MaxChunkSize then { k with status := -einval } else k.write b fa size argv

/-- The world behind the close. -/
def closed (b : Board W) (k : Work W) : W :=
  match k.area with
  | none => k.world
  | some fa => b.flashAreaClose k.world fa

/-- All driver calls of the request. -/
def session (k : Work W) : List FlashCall := k.calls ++ (k.area.map FlashCall.close).toList

end Work

/-- The header record of a reply to a packet. -/
def Packet.header (p : Packet) : Bytes := headerOf p.id (p.argv.headD []) p.sequence

/-- The work of a request, the close, and one reply with some of its records. -/
def Work.serve (b : Board W) (fw : Firmware N W FlashCall) (k : Work W) (p : Packet)
    (start stop : Nat) : W × List (Event FlashCall) :=
  (k.closed b, k.session.map .device ++ [.send (reply fw p.crc16.isSome
    (statusText p.header k.status (echoed p.argv.length p.argv start stop)))])

section Services
variable (b : Board W) (fw : Firmware N W FlashCall)

def eraseService : Service W FlashCall := fun w p _ =>
  (Work.erase b w p.argv).serve b fw p argFlashPartition argFlashPartition

def flashService : Service W FlashCall := fun w p _ =>
  (Work.flash b w p.argv).serve b fw p argFlashPartition argFlashLength

/-- Without the operation of the driver the command is compiled to nothing. -/
def wrprtService : Service W FlashCall := fun w p _ =>
  if b.flashHasExOp then
    (Work.wrprt b w p.argv).serve b fw p argFlashPartition argFlashWriteProtect
  else (w, [])

/-- The services of an image with the flash commands in front of its own. -/
def flashServices (services : Services W FlashCall) : Services W FlashCall := fun response name =>
  if response then services true name
  else if name = ascii "erase" then some (eraseService b fw)
  else if name = ascii "flash" then some (flashService b fw)
  else if name = ascii "wrprt" then some (wrprtService b fw)
  else services false name

end Services

/-! ## The functions of the source do this work -/

/-- The machine part of a command has done `k`. -/
structure Does (m : Machine N W FlashCall) (r : Machine N W FlashCall × Int × Option FlashArea)
    (k : Work W) : Prop where
  world : r.1.world = k.world
  log : r.1.log = m.log ++ k.calls.map .device
  result : r.2 = (k.status, k.area)

section Functions
variable (b : Board W) (m : Machine N W FlashCall)

theorem openFlashPartition_does (name : Bytes) :
    Does m (openFlashPartition b m name) (Work.opened b m.world name) := by
  unfold openFlashPartition Work.opened
  generalize resolvePartition b m.world name = r
  obtain ⟨w, rc⟩ := r
  by_cases hrc : rc = 0
  · simp only [hrc, ne_eq, not_true_eq_false, if_false, Machine.emit]
    generalize b.flashAreaOpen w (0 : Int).toNat.toUInt8 = o
    obtain ⟨w', e | fa⟩ := o
    · exact ⟨rfl, rfl, rfl⟩
    · exact ⟨rfl, rfl, rfl⟩
  · simp only [ne_eq, hrc, not_false_eq_true, if_true]
    exact ⟨rfl, by simp, rfl⟩

theorem Work.opened_status {b : Board W} {w : W} {name : Bytes} {fa : FlashArea}
    (h : (Work.opened b w name).area = some fa) : (Work.opened b w name).status = 0 := by
  unfold Work.opened at h ⊢
  simp only at h ⊢
  split
  · rename_i hrc
    rw [if_pos hrc] at h
    cases h
  · rename_i hrc
    rw [if_neg hrc] at h
    revert h
    split <;> simp

theorem wrprtArea_does (argv : List Bytes) :
    Does m (wrprtArea b m argv.length argv) (Work.wrprt b m.world argv) := by
  unfold wrprtArea Work.wrprt
  by_cases hargc : argv.length < argWrprtMax
  · rw [if_neg (by omega), if_pos hargc]
    exact ⟨rfl, by simp [Work.refuse], rfl⟩
  · rw [if_pos (by omega), if_neg hargc]
    exact openFlashPartition_does b m _

theorem eraseArea_does (argv : List Bytes) :
    Does m (eraseArea b m argv.length argv) (Work.erase b m.world argv) := by
  unfold eraseArea Work.erase
  by_cases hargc : argv.length < argEraseMax
  · rw [if_neg (by omega), if_pos hargc]
    exact ⟨rfl, by simp [Work.refuse], rfl⟩
  · rw [if_pos (by omega), if_neg hargc]
    have hopen := openFlashPartition_does b m (argv.getD argFlashPartition [])
    have hstatus : ∀ fa, (Work.opened b m.world (argv.getD argFlashPartition [])).area = some fa →
        (Work.opened b m.world (argv.getD argFlashPartition [])).status = 0 :=
      fun fa => Work.opened_status
    generalize openFlashPartition b m (argv.getD argFlashPartition []) = r at hopen
    generalize Work.opened b m.world (argv.getD argFlashPartition []) = k at hopen hstatus
    obtain ⟨mo, rc, fa⟩ := r
    obtain ⟨hw, hlog, hres⟩ := hopen
    simp only [Prod.mk.injEq] at hres
    obtain ⟨rfl, rfl⟩ := hres
    dsimp only
    cases harea : k.area with
    | none => exact ⟨hw, hlog, by rw [harea]⟩
    | some fa =>
      have hw : mo.world = k.world := hw
      have hlog : mo.log = m.log ++ k.calls.map .device := hlog
      dsimp only
      rw [if_neg (by simpa using hstatus fa harea), hw]
      refine ⟨rfl, ?_, ?_⟩
      · simp [Machine.emit, Work.call, hlog]
      · simp [Work.call, harea]

theorem writeChunk_does {mo : Machine N W FlashCall} {k : Work W} {fa : FlashArea}
    (harea : k.area = some fa) (hw : mo.world = k.world)
    (hlog : mo.log = m.log ++ k.calls.map .device) (size : Int) (argv : List Bytes) :
    Does m ((writeChunk b mo fa size argv).1, (writeChunk b mo fa size argv).2, some fa)
      (k.write b fa size argv) := by
  unfold writeChunk Work.write
  simp only [Machine.mapHandle, hw]
  generalize decodeAscii85 (stringAt (argv.getD argFlashAscii85Data [])) _ _ = d
  by_cases hrc : decodeStatus d size = 0
  · simp only [hrc, ne_eq, not_true_eq_false, if_false]
    refine ⟨rfl, ?_, ?_⟩
    · simp [Machine.emit, Work.call, hlog]
    · simp [Work.call, harea]
  · simp only [hrc, ne_eq, not_false_eq_true, if_true]
    exact ⟨rfl, hlog, by rw [harea]⟩

theorem flashChunk_does (argv : List Bytes) :
    Does m (flashChunk b m argv.length argv) (Work.flash b m.world argv) := by
  unfold flashChunk Work.flash
  by_cases hargc : argv.length < argFlashMax
  · rw [if_pos hargc, if_pos hargc]
    exact ⟨rfl, by simp [Work.refuse], rfl⟩
  · rw [if_neg hargc, if_neg hargc]
    have hopen := openFlashPartition_does b m (argv.getD argFlashPartition [])
    have hstatus : ∀ fa, (Work.opened b m.world (argv.getD argFlashPartition [])).area = some fa →
        (Work.opened b m.world (argv.getD argFlashPartition [])).status = 0 :=
      fun fa => Work.opened_status
    generalize openFlashPartition b m (argv.getD argFlashPartition []) = r at hopen
    generalize Work.opened b m.world (argv.getD argFlashPartition []) = k at hopen hstatus
    obtain ⟨mo, rc, fa⟩ := r
    obtain ⟨hw, hlog, hres⟩ := hopen
    simp only [Prod.mk.injEq] at hres
    obtain ⟨rfl, rfl⟩ := hres
    dsimp only
    cases harea : k.area with
    | none => exact ⟨hw, hlog, by rw [harea]⟩
    | some fa =>
      dsimp only
      rw [if_neg (by simpa using hstatus fa harea)]
      split
      · exact ⟨hw, hlog, rfl⟩
      · exact writeChunk_does b m harea hw hlog _ argv

end Functions

/-! ## The table entries provide the services -/

theorem HupHandle.packet_header {h : HupHandle N} (hargc : 0 < h.argc) :
    h.packet.header = h.header := by
  have hhead : h.packet.argv.headD [] = h.text h.argv0 := by
    obtain ⟨n, hn⟩ : ∃ n, h.argc = n + 1 := ⟨h.argc - 1, by omega⟩
    have hcons : h.argv.toList = h.argv0 :: h.argv.toList.drop 1 := by
      have := List.drop_eq_getElem_cons (l := h.argv.toList) (i := 0) (by simp)
      simpa using this
    simp only [HupHandle.packet, HupHandle.args, hn]
    rw [hcons, List.take_succ_cons, List.map_cons, List.headD_cons]
  rw [Packet.header, hhead, h.header_eq]
  rfl

theorem setStatus_unseen (m : Machine N W FlashCall) (rc : Int) : Unseen m (setStatus m rc) := by
  unfold setStatus
  split
  · exact (Unseen.refl m).ackResponse
  · exact (Unseen.refl m).nakResponse rc

theorem recordArgs_unseen {m m' : Machine N W FlashCall} (h : Unseen m m') (argv : List Bytes)
    (is : List Nat) :
    Unseen m (is.foldl (fun m i => hupacketRecordStr m (argv.getD i [])) m') := by
  induction is generalizing m' with
  | nil => exact h
  | cons i is ih => exact ih (h.recordStr _)

theorem visible_devices (xs : List FlashCall) :
    visible (xs.map .device) = xs.map .device :=
  List.filter_eq_self.mpr fun e he => by
    obtain ⟨x, -, rfl⟩ := List.mem_map.mp he
    rfl

/-- What is seen of a request: its driver calls, then its one reply. -/
theorem answerRequest_seen (b : Board W) (fw : Firmware N W FlashCall)
    {m : Machine N W FlashCall} {r : Machine N W FlashCall × Int × Option FlashArea} {k : Work W}
    (hop : Operates m r.1) (d : Does m r k) (hargc : 0 < m.handle.argc) (start stop : Nat) :
    let argv := m.handle.packet.argv
    let m' := answerRequest b fw r argv.length argv start stop
    m'.world = (k.serve b fw m.handle.packet start stop).1 ∧
      visible m'.log = visible m.log ++ (k.serve b fw m.handle.packet start stop).2 := by
  intro argv m'
  obtain ⟨mr, rc, fa⟩ := r
  obtain ⟨hw, hlog, hres⟩ := d
  simp only [Prod.mk.injEq] at hres
  obtain ⟨rfl, rfl⟩ := hres
  have hop : Operates m mr := hop
  have hw : mr.world = k.world := hw
  have hset := setStatus_unseen mr k.status
  have hclose : (closeFlashPartition b (setStatus mr k.status) k.area).world = k.closed b ∧
      visible (closeFlashPartition b (setStatus mr k.status) k.area).log =
        visible m.log ++ k.session.map .device := by
    have hseen : visible (setStatus mr k.status).log = visible m.log ++ k.calls.map .device := by
      have hlog : mr.log = m.log ++ k.calls.map .device := hlog
      rw [hset.seen, hlog, visible_append, visible_devices]
    unfold closeFlashPartition Work.closed Work.session
    cases k.area with
    | none => exact ⟨hset.world.trans hw, by simpa using hseen⟩
    | some fa =>
      refine ⟨congrArg (b.flashAreaClose · fa) (hset.world.trans hw), ?_⟩
      simp only [Machine.emit, visible_append, hseen]
      simp [visible, List.filter, Event.isVisible]
  have hstatus : Builds m (setStatus mr k.status) (replyStart m.handle k.status) := by
    have hkeep : replyStart mr.handle k.status = replyStart m.handle k.status := by
      rw [hop.handle]
      rfl
    exact hkeep ▸ hop.builds (setStatus_builds mr k.status)
  have hbuilt : Builds m (closeFlashPartition b (setStatus mr k.status) k.area)
      (replyStart m.handle k.status) := by
    unfold closeFlashPartition
    cases k.area with
    | none => exact hstatus
    | some fa => exact hstatus.call _ _
  obtain ⟨hworld, hseen⟩ := hupacketSendBuffer_seen fw (recordArgs_builds hbuilt argv
    (List.range' start ((if stop ≥ argv.length then argv.length - 1 else stop) + 1 - start)))
  have hrecords := recordArgs_unseen
    (Unseen.refl (closeFlashPartition b (setStatus mr k.status) k.area)) argv
    (List.range' start ((if stop ≥ argv.length then argv.length - 1 else stop) + 1 - start))
  have hcrc : m.handle.packet.crc16.isSome = m.handle.crc16.isSome := Option.isSome_map
  have htext : replyStart m.handle k.status ++ joined (echoed argv.length argv start stop) =
      statusText m.handle.packet.header k.status (echoed argv.length argv start stop) := by
    rw [HupHandle.packet_header hargc]
    simp [replyStart, statusText, joined]
  refine ⟨hworld.trans (hrecords.world.trans hclose.1), ?_⟩
  refine hseen.trans ?_
  rw [hrecords.seen, hclose.2, Work.serve, List.append_assoc, hcrc, ← htext]
  rfl

section Table
variable (b : Board W) (fw : Firmware N W FlashCall)

theorem hupCmdErase_serves : (hupCmdErase b fw).Serves (eraseService b fw) where
  world m hargc := (answerRequest_seen b fw (eraseArea_operates b m _ _) (eraseArea_does b m _)
    hargc _ _).1
  seen m hargc := (answerRequest_seen b fw (eraseArea_operates b m _ _) (eraseArea_does b m _)
    hargc _ _).2

theorem hupCmdFlash_serves : (hupCmdFlash b fw).Serves (flashService b fw) where
  world m hargc := (answerRequest_seen b fw (flashChunk_operates b m _ _) (flashChunk_does b m _)
    hargc _ _).1
  seen m hargc := (answerRequest_seen b fw (flashChunk_operates b m _ _) (flashChunk_does b m _)
    hargc _ _).2

theorem hupCmdWrprt_serves : (hupCmdWrprt b fw).Serves (wrprtService b fw) := by
  have hanswer := fun (m : Machine N W FlashCall) (hargc : 0 < m.handle.argc) =>
    answerRequest_seen b fw (wrprtArea_operates b m m.handle.packet.argv.length
      m.handle.packet.argv) (wrprtArea_does b m m.handle.packet.argv) hargc argFlashPartition
      argFlashWriteProtect
  cases hex : b.flashHasExOp with
  | true =>
    refine ⟨fun m hargc => ?_, fun m hargc => ?_⟩
    · simpa [hupCmdWrprt, wrprt, wrprtService, hex] using (hanswer m hargc).1
    · simpa [hupCmdWrprt, wrprt, wrprtService, hex] using (hanswer m hargc).2
  | false =>
    refine ⟨fun m hargc => ?_, fun m hargc => ?_⟩ <;>
      simp [hupCmdWrprt, wrprt, wrprtService, hex]

/-- The image with the flash commands linked in provides their services. -/
theorem withFlash_provides {services : Services W FlashCall} (hp : fw.Provides services) :
    (withFlash b fw).Provides (flashServices b fw services) := by
  intro response name
  cases response with
  | true => exact hp true name
  | false =>
    have hrest := hp false name
    by_cases h1 : name = ascii "erase"
    · simpa +decide [withFlash, flashServices, hupCmdErase, h1] using
        Option.Rel.some (hupCmdErase_serves b fw)
    · by_cases h2 : name = ascii "flash"
      · simpa +decide [withFlash, flashServices, hupCmdErase, hupCmdFlash, h2] using
          Option.Rel.some (hupCmdFlash_serves b fw)
      · by_cases h3 : name = ascii "wrprt"
        · simpa +decide [withFlash, flashServices, hupCmdErase, hupCmdFlash, hupCmdWrprt, h3] using
            Option.Rel.some (hupCmdWrprt_serves b fw)
        · simpa [withFlash, flashServices, hupCmdErase, hupCmdFlash, hupCmdWrprt, h1, h2, h3,
            Ne.symm h1, Ne.symm h2, Ne.symm h3] using hrest

end Table

end Sdkz.Hu
