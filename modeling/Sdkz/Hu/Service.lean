import Sdkz.Base.Simulation
import Sdkz.Hu.Safety
import Sdkz.Hu.Verdict

/-! # The server behind the packet code

`Server` says what the packet code and its tables are for. It has no buffer and
no argument table: it keeps the frame that is open as a list of bytes, answers a
command whose CRC does not match, and hands every other complete frame to the
service of its name. A service turns the world, the packet and the verdict into
the next world and the events that can be seen from outside.

`HupCmd.Serves` connects a table entry with its service: its function sees no
more of the handle than the packet and the verdict. -/

namespace Sdkz.Hu
open Sdkz.Base

variable {N : Nat} {W X : Type}

/-! ## What can be seen -/

/-- The stores into the handle and the strings left in `tx_buffer` stay inside. -/
def Event.isVisible {X : Type} : Event X → Bool
  | .storeBuffer _ | .storeArgv _ | .txString _ => false
  | _ => true

def visible (log : List (Event X)) : List (Event X) := log.filter Event.isVisible

@[simp] theorem visible_nil : visible ([] : List (Event X)) = [] := rfl

@[simp] theorem visible_append (a b : List (Event X)) : visible (a ++ b) = visible a ++ visible b :=
  List.filter_append _ _

/-- From `m` to `m'` the world is kept and nothing can be seen. -/
structure Unseen (m m' : Machine N W X) : Prop where
  world : m'.world = m.world
  seen : visible m'.log = visible m.log

theorem Unseen.refl (m : Machine N W X) : Unseen m m := ⟨rfl, rfl⟩

theorem Unseen.trans {m m' m'' : Machine N W X} (h : Unseen m m') (h' : Unseen m' m'') :
    Unseen m m'' := ⟨h'.world.trans h.world, h'.seen.trans h.seen⟩

theorem Unseen.mapHandle {m m' : Machine N W X} (h : Unseen m m')
    (f : HupHandle N → HupHandle N) : Unseen m (m'.mapHandle f) := ⟨h.world, h.seen⟩

theorem Silent.unseen {m m' : Machine N W X} (h : Silent m m') : Unseen m m' := by
  obtain ⟨ev, hlog, hev⟩ := h.log
  refine ⟨h.world, ?_⟩
  have hnone : visible ev = [] := List.filter_eq_nil_iff.mpr fun e he => by
    have := hev e he
    cases e <;> simp_all [Event.isStore, Event.isVisible]
  rw [hlog, visible_append, hnone, List.append_nil]

/-! ## The reply builder is not seen before it sends -/

section Builder
variable {m m' : Machine N W X}

theorem Unseen.appendStr (h : Unseen m m') (str : Bytes) : Unseen m (hupacketAppendStr m' str) := by
  refine ⟨h.world, ?_⟩
  rw [← h.seen]
  simp [hupacketAppendStr, Machine.mapHandle, Machine.emit, visible, Event.isVisible]

theorem Unseen.appendChar (h : Unseen m m') (ch : UInt8) : Unseen m (hupacketAppendChar m' ch) := by
  unfold hupacketAppendChar
  split
  · exact h.appendStr [ch]
  · exact h

theorem Unseen.recordStr (h : Unseen m m') (str : Bytes) : Unseen m (hupacketRecordStr m' str) :=
  (h.appendChar recordMark).appendStr str

theorem Unseen.recordInt (h : Unseen m m') (val : Int) : Unseen m (hupacketRecordInt m' val) :=
  h.recordStr (itoa10 val)

theorem Unseen.resetBuffer (h : Unseen m m') (stx : UInt8) :
    Unseen m (hupacketResetBuffer m' stx) := by
  have hclear := (h.mapHandle fun h => { h with txBuffer := [] }).appendChar stx
  simp only [hupacketResetBuffer]
  cases m'.handle.id with
  | none =>
    cases m'.handle.sequence with
    | none => exact hclear.appendStr _
    | some sq => exact ((hclear.appendStr _).appendChar _).appendStr _
  | some id =>
    have hid := (hclear.appendStr (m'.handle.text id)).appendChar idMark
    cases m'.handle.sequence with
    | none => exact hid.appendStr _
    | some sq => exact ((hid.appendStr _).appendChar _).appendStr _

theorem Unseen.ackResponse (h : Unseen m m') : Unseen m (hupacketAckResponse m') :=
  (h.resetBuffer ackOfResponse).recordInt noError

theorem Unseen.nakResponse (h : Unseen m m') (rc : Int) : Unseen m (hupacketNakResponse m' rc) :=
  (h.resetBuffer nakOfResponse).recordInt rc

end Builder

/-- A send shows the bytes in `tx_buffer` and nothing else. -/
theorem hupacketSendBuffer_seen (fw : Firmware N W X) {m m' : Machine N W X} {s : Bytes}
    (hb : Builds m m' s) : (hupacketSendBuffer fw m').world = m'.world ∧
      visible (hupacketSendBuffer fw m').log =
        visible m'.log ++ [.send (reply fw m.handle.crc16.isSome s)] := by
  have hs : (hupacketSendBuffer fw m').handle.txBuffer = reply fw m.handle.crc16.isSome s := by
    rw [(hupacketSendBuffer_sends fw hb).handle]
    rfl
  have hshow : ∀ mc : Machine N W X, Unseen m' mc →
      (mc.emit (.send mc.handle.txBuffer)).world = m'.world ∧
      visible (mc.emit (.send mc.handle.txBuffer)).log =
        visible m'.log ++ [.send (mc.emit (.send mc.handle.txBuffer)).handle.txBuffer] := by
    intro mc hmc
    refine ⟨hmc.world, ?_⟩
    rw [Machine.emit, visible_append, hmc.seen]
    rfl
  rw [← hs]
  unfold hupacketSendBuffer
  cases m'.handle.crc16 with
  | none => exact hshow _ ((Unseen.refl m').appendChar endOfPacket)
  | some p =>
    exact hshow _ ((((Unseen.refl m').appendChar crcMark).appendStr _).appendChar endOfPacket)

/-! ## The abstract server -/

/-- What becomes of the world for a packet and the verdict on it, and what is
seen of that. -/
abbrev Service (W X : Type) : Type := W → Packet → Bool → W × List (Event X)

/-- The services for commands and, with `true`, for responses, by name. -/
abbrev Services (W X : Type) : Type := Bool → Bytes → Option (Service W X)

structure Server (W X : Type) where
  world : W
  /-- the verdict of the last CRC check -/
  verdict : Bool
  /-- the start mark and the body so far of the open frame -/
  opened : Option (UInt8 × Bytes)
  seen : List (Event X)

/-- A body of at most `N` bytes and at most 63 records takes one more byte. -/
def admits (N : Nat) (body : Bytes) (b : UInt8) : Bool :=
  body.length < N && (b != recordMark || body.count recordMark < 63)

theorem admits_iff {body : Bytes} {b : UInt8} : admits N body b = true ↔
    body.length < N ∧ (b = recordMark → body.count recordMark < 63) := by
  simp [admits, Classical.or_iff_not_imp_left]

namespace Server

def fresh (w : W) : Server W X := ⟨w, false, none, []⟩

/-- A packet is presented to the services with the verdict kept. -/
def present (services : Services W X) (s : Server W X) (start : UInt8) (body : Bytes) :
    Server W X :=
  let p := packetOf start body
  match services p.response (commandOf body) with
  | none => { s with opened := none, seen := s.seen ++ [.lookup p s.verdict] }
  | some serve =>
    let r := serve s.world p s.verdict
    { s with
      world := r.1, opened := none
      seen := s.seen ++ ([.lookup p s.verdict, .call p s.verdict] ++ r.2) }

/-- The end of a frame. A rejected command stays open. -/
def complete (fw : Firmware N W X) (services : Services W X) (s : Server W X) (start : UInt8)
    (body : Bytes) : Server W X :=
  if start = enqOfCommand ∧ verdictOf fw body = some false then
    { s with verdict := false, seen := s.seen ++ [.send (crcNak fw body)] }
  else { s with verdict := (verdictOf fw body).getD s.verdict }.present services start body

def read (fw : Firmware N W X) (services : Services W X) (s : Server W X) (b : UInt8) :
    Server W X :=
  if isStartMark b then { s with opened := some (b, []) }
  else match s.opened with
    | none => s
    | some (start, body) =>
      if b = endOfPacket then s.complete fw services start body
      else if admits N body b then { s with opened := some (start, body ++ [b]) }
      else { s with opened := none }

def readAll (fw : Firmware N W X) (services : Services W X) (s : Server W X) (stream : Bytes) :
    Server W X := stream.foldl (read fw services) s

/-- No end mark closes a body that fills the buffer. -/
def EndFits (N : Nat) (s : Server W X) (b : UInt8) : Prop :=
  b = endOfPacket → ∀ start body, s.opened = some (start, body) → body.length ≠ N

end Server

/-! ## Table entries and services -/

/-- A table entry does what the service says, whatever else the handle holds. It
is never called without `argv[0]`. -/
structure HupCmd.Serves (c : HupCmd N W X) (serve : Service W X) : Prop where
  world : ∀ m, 0 < m.handle.argc →
    (c.func m m.handle.packet.argv.length m.handle.packet.argv).world =
      (serve m.world m.handle.packet m.handle.crcMatch).1
  seen : ∀ m, 0 < m.handle.argc →
    visible (c.func m m.handle.packet.argv.length m.handle.packet.argv).log =
      visible m.log ++ (serve m.world m.handle.packet m.handle.crcMatch).2

/-- The tables of the image provide the services: the first entry of a name does
what the service of that name says. -/
def Firmware.Provides (fw : Firmware N W X) (services : Services W X) : Prop :=
  ∀ response name, Option.Rel HupCmd.Serves
    ((if response then fw.hupResp else fw.hupCmd).find? (·.cmd == name)) (services response name)

end Sdkz.Hu
