import Sdkz.Base.Numeral

/-! # The packet handle and the reply builder

`struct hup_handle` of hupacket.h with the functions of hupacket.c that build a
reply in `tx_buffer`. Pointers into `buffer` are offsets. `tx_buffer` holds the
string in it: the builder only appends to that string, without a bound, so its
length is unbounded here. Behind `tx_buffer` lie `user_data` and `send`, which are
not in the model: as long as `RepliesFit` they are what `init_hupacket` stored, and
what the code does behind a longer string the model does not say. A theorem about
what is sent, or about what follows, has to assume that the replies fit.

A `Machine` is the handle together with the devices behind the handlers and a
log of everything the code does that the outside or another part of memory can
observe. -/

namespace Sdkz.Hu
open Sdkz.Base

abbrev enqOfCommand : UInt8 := 0x05
abbrev ackOfResponse : UInt8 := 0x06
abbrev nakOfResponse : UInt8 := 0x15
abbrev endOfPacket : UInt8 := 0x04
abbrev crcMark : UInt8 := 0x1a
abbrev recordMark : UInt8 := 0x1e
abbrev idMark : UInt8 := 64
abbrev sequenceMark : UInt8 := 58

/-- `HUP_STATE_NONE`: outside a frame. -/
abbrev hupStateNone : Int := -1

/-! ## Error numbers (huerrno.h, errno.h) -/

/-- The first number the C library leaves to applications. -/
def elastError : Int := 2000
def noError : Int := 0
def einval : Int := 22
def enmCrc16 : Int := elastError + 0
def edesza85 : Int := elastError + 2
def eascii85 : Int := elastError + 3

/-! ## The handle -/

/-- `struct hup_handle`, with `N = RECV_BUFFER_SIZE = CONFIG_HU_PACKET_SIZE`, of which no
reply has run past `tx_buffer` into the fields behind it. -/
structure HupHandle (N : Nat) where
  argc : Nat
  argv : Vector Nat 64
  state : Int
  buffer : Vector UInt8 N
  response : Bool
  crcMatch : Bool
  id : Option Nat
  sequence : Option Nat
  crc16 : Option Nat
  txBuffer : Bytes
deriving DecidableEq, Repr

theorem argv_pos : 0 < 64 := by decide

namespace HupHandle
variable {N : Nat}

/-- `argv[0]`: the header string, and after the split the command. -/
abbrev argv0 (h : HupHandle N) : Nat := getElem h.argv 0 argv_pos

/-- The string a pointer into `buffer` points to. -/
def text (h : HupHandle N) (p : Nat) : Bytes := cstr h.buffer.toList p

/-- `reset_hupacket`. The verdict `crcMatch` is not among the fields it resets. -/
def reset (h : HupHandle N) : HupHandle N :=
  { h with state := hupStateNone, argc := 0, crc16 := none, id := none, sequence := none }

/-- The block `init_hupacket` gets, all zero, then reset. -/
def fresh (N : Nat) : HupHandle N :=
  reset
    { argc := 0, argv := .replicate 64 0, state := 0, buffer := .replicate N 0
      response := false, crcMatch := false, id := none, sequence := none, crc16 := none
      txBuffer := [] }

end HupHandle

/-- A packet as the command and response tables see it. -/
structure Packet where
  response : Bool
  id : Option Bytes
  argv : List Bytes
  sequence : Option Bytes
  crc16 : Option Bytes
deriving DecidableEq, Repr

/-- What the packet code does that can be observed. -/
inductive Event (X : Type) where
  /-- a store into `buffer[i]` by `process_hupacket` -/
  | storeBuffer (i : Int)
  /-- a store into `argv[i]` by `process_hupacket` -/
  | storeArgv (i : Nat)
  /-- a packet reaches the lookup in the `hup_cmd` or `hup_resp` table -/
  | lookup (p : Packet) (crcMatch : Bool)
  /-- the function of a matching table entry is called -/
  | call (p : Packet) (crcMatch : Bool)
  /-- the string `strcat` leaves in `tx_buffer` -/
  | txString (s : Bytes)
  /-- the bytes handed to the transport's `send` -/
  | send (bytes : Bytes)
  /-- a call into a device driver -/
  | device (x : X)
deriving DecidableEq, Repr

structure Machine (N : Nat) (W X : Type) where
  world : W
  handle : HupHandle N
  log : List (Event X)

namespace Machine
variable {N : Nat} {W X : Type}

def emit (m : Machine N W X) (e : Event X) : Machine N W X := { m with log := m.log ++ [e] }

def mapHandle (m : Machine N W X) (f : HupHandle N → HupHandle N) : Machine N W X :=
  { m with handle := f m.handle }

/-- The state after `init_hupacket`. -/
def fresh (N : Nat) (w : W) : Machine N W X := ⟨w, .fresh N, []⟩

end Machine

/-- Every string left in `tx_buffer` fits with its NUL: nothing was stored into
`user_data` and `send`. -/
def RepliesFit {X : Type} (N : Nat) (log : List (Event X)) : Prop :=
  ∀ t, .txString t ∈ log → t.length + 1 ≤ N

def Event.built {X : Type} : Event X → Option Bytes
  | .txString t => some t
  | _ => none

instance {X : Type} (N : Nat) (log : List (Event X)) : Decidable (RepliesFit N log) :=
  decidable_of_iff (∀ t ∈ log.filterMap Event.built, t.length + 1 ≤ N) <| by
    refine forall_congr' fun t => imp_congr_left ?_
    rw [List.mem_filterMap]
    constructor
    · rintro ⟨e, he, ht⟩
      cases e <;> cases ht
      exact he
    · exact fun h => ⟨_, h, rfl⟩

theorem repliesFit_append {X : Type} {N : Nat} {a b : List (Event X)} :
    RepliesFit N (a ++ b) ↔ RepliesFit N a ∧ RepliesFit N b := by
  simp only [RepliesFit, List.mem_append, or_imp, forall_and]

/-- The events a handler can cause. -/
def Event.isReply {X : Type} : Event X → Bool
  | .txString _ | .send _ | .device _ => true
  | _ => false

/-- What a handler does to the machine: it talks to devices, writes `tx_buffer`
and sends; it touches no other part of the handle. A call whose reply runs past
`tx_buffer` does more, and is left out. -/
def Replies {N : Nat} {W X : Type} (m m' : Machine N W X) : Prop :=
  m'.handle = { m.handle with txBuffer := m'.handle.txBuffer } ∧
    ∃ ev : List (Event X), m'.log = m.log ++ ev ∧ ∀ e ∈ ev, e.isReply

/-- An entry of the `hup_cmd` or the `hup_resp` section, in calls whose replies fit. -/
structure HupCmd (N : Nat) (W X : Type) where
  cmd : Bytes
  func : Machine N W X → Nat → List Bytes → Machine N W X
  replies : ∀ m argc argv, Replies m (func m argc argv)

/-- What the linked image supplies to the packet code: the CRC function with its
polynomial and seed, the two tables, and the place of the handle in memory. A
handle lies above the first `N` bytes of the address space and does not wrap. -/
structure Firmware (N : Nat) (W X : Type) where
  crc16 : Bytes → UInt16
  hupCmd : List (HupCmd N W X)
  hupResp : List (HupCmd N W X)
  bufferAddr : Nat
  sizePos : 0 < N
  addrAbove : N ≤ bufferAddr
  addrFits : bufferAddr + N + 1 < 2 ^ 32

/-- The kernel's `crc16`: most significant bit first, no reflection. -/
def crc16 (poly seed : UInt16) (src : Bytes) : UInt16 :=
  let shift (crc : UInt16) : UInt16 :=
    if crc &&& 0x8000 ≠ 0 then (crc <<< 1) ^^^ poly else crc <<< 1
  src.foldl (fun crc b => Nat.iterate shift 8 (crc ^^^ (b.toUInt16 <<< (8 : UInt16)))) seed

/-- `CONFIG_HU_PACKET_SIZE` where the configuration does not set it. -/
abbrev packetSize : Nat := 1536

/-- An image with the default packet size and the given tables. -/
def image {W X : Type} (hupCmd hupResp : List (HupCmd packetSize W X)) :
    Firmware packetSize W X where
  crc16 := crc16 0x1021 0x0000
  hupCmd := hupCmd
  hupResp := hupResp
  bufferAddr := 0x20000000
  sizePos := by decide
  addrAbove := by decide
  addrFits := by decide

/-! ## The reply builder

Every caller passes `NULL` or `tx_buffer` itself as the buffer to append to. -/

section Builder
variable {N : Nat} {W X : Type}

def hupacketAppendStr (m : Machine N W X) (str : Bytes) : Machine N W X :=
  (m.mapHandle fun h => { h with txBuffer := h.txBuffer ++ str }).emit
    (.txString (m.handle.txBuffer ++ str))

def hupacketAppendChar (m : Machine N W X) (ch : UInt8) : Machine N W X :=
  if ch ≠ 0 then hupacketAppendStr m [ch] else m

def hupacketAppendInt (m : Machine N W X) (val : Int) : Machine N W X :=
  hupacketAppendStr m (itoa10 val)

def hupacketAppendHex (m : Machine N W X) (val : Nat) : Machine N W X :=
  hupacketAppendStr m (itoa16 val)

def hupacketRecordStr (m : Machine N W X) (str : Bytes) : Machine N W X :=
  hupacketAppendStr (hupacketAppendChar m recordMark) str

def hupacketRecordInt (m : Machine N W X) (val : Int) : Machine N W X :=
  hupacketAppendInt (hupacketAppendChar m recordMark) val

def hupacketRecordHex (m : Machine N W X) (val : Nat) : Machine N W X :=
  hupacketAppendHex (hupacketAppendChar m recordMark) val

def hupacketResetBuffer (m : Machine N W X) (stx : UInt8) : Machine N W X :=
  let h := m.handle
  let m := m.mapHandle fun h => { h with txBuffer := [] }
  let m := hupacketAppendChar m stx
  let m := match h.id with
    | some id => hupacketAppendChar (hupacketAppendStr m (h.text id)) idMark
    | none => m
  let m := hupacketAppendStr m (h.text h.argv0)
  match h.sequence with
  | some sequence => hupacketAppendStr (hupacketAppendChar m sequenceMark) (h.text sequence)
  | none => m

def hupacketAckResponse (m : Machine N W X) : Machine N W X :=
  hupacketRecordInt (hupacketResetBuffer m ackOfResponse) noError

def hupacketNakResponse (m : Machine N W X) (rc : Int) : Machine N W X :=
  hupacketRecordInt (hupacketResetBuffer m nakOfResponse) rc

/-- The CRC is taken over the string behind the start mark. -/
def hupacketSendBuffer (fw : Firmware N W X) (m : Machine N W X) : Machine N W X :=
  let m := match m.handle.crc16 with
    | some _ =>
      let crcCalculated := fw.crc16 (m.handle.txBuffer.drop 1)
      hupacketAppendHex (hupacketAppendChar m crcMark) crcCalculated.toNat
    | none => m
  let m := hupacketAppendChar m endOfPacket
  m.emit (.send m.handle.txBuffer)

end Builder

/-! ## What the builder leaves behind -/

section Spec
variable {N : Nat} {W X : Type}

/-- What happens while a reply is put together: device calls, and strings no
longer than `n` left in `tx_buffer`. -/
def Event.Fits {X : Type} (n : Nat) : Event X → Prop
  | .txString t => t.length ≤ n
  | .device _ => True
  | _ => False

/-- From `m`, the builder has reached `m'` with the string `s` in `tx_buffer`. -/
structure Builds (m m' : Machine N W X) (s : Bytes) : Prop where
  handle : m'.handle = { m.handle with txBuffer := s }
  log : ∃ ev : List (Event X), m'.log = m.log ++ ev ∧ ∀ e ∈ ev, e.Fits s.length

/-- From `m`, the string `s` was built in `tx_buffer` and sent. -/
structure Sends (m m' : Machine N W X) (s : Bytes) : Prop where
  handle : m'.handle = { m.handle with txBuffer := s }
  log : ∃ ev : List (Event X), m'.log = m.log ++ ev ++ [.send s] ∧ .txString s ∈ ev ∧
    ∀ e ∈ ev, e.Fits s.length

theorem Event.Fits.mono {e : Event X} {a b : Nat} (h : e.Fits a) (hab : a ≤ b) : e.Fits b := by
  cases e with
  | txString t => exact Nat.le_trans h hab
  | device x => trivial
  | _ => exact h

theorem Event.Fits.isReply {e : Event X} {n : Nat} (h : e.Fits n) : e.isReply = true := by
  cases e with
  | txString t => rfl
  | device x => rfl
  | _ => exact h.elim

theorem Builds.clear (m : Machine N W X) :
    Builds m (m.mapHandle fun h => { h with txBuffer := [] }) [] :=
  ⟨rfl, [], by simp [Machine.mapHandle], by simp⟩

theorem Builds.of_eq {m m' : Machine N W X} {s t : Bytes} (h : Builds m m' s) (e : s = t) :
    Builds m m' t := e ▸ h

theorem Builds.appendStr {m m' : Machine N W X} {s : Bytes} (h : Builds m m' s) (str : Bytes) :
    Builds m (hupacketAppendStr m' str) (s ++ str) := by
  obtain ⟨ev, hlog, hev⟩ := h.log
  have hs : m'.handle.txBuffer = s := by rw [h.handle]
  refine ⟨?_, ev ++ [.txString (s ++ str)], ?_, fun e he => ?_⟩
  · simp [hupacketAppendStr, Machine.mapHandle, Machine.emit, h.handle]
  · simp [hupacketAppendStr, Machine.mapHandle, Machine.emit, hs, hlog]
  · rcases List.mem_append.mp he with he | he
    · exact (hev e he).mono (by simp)
    · rw [List.mem_singleton.mp he]
      exact Nat.le_refl _

theorem Builds.appendChar {m m' : Machine N W X} {s : Bytes} (h : Builds m m' s) (ch : UInt8)
    (hc : ch ≠ 0) : Builds m (hupacketAppendChar m' ch) (s ++ [ch]) := by
  rw [hupacketAppendChar, if_pos hc]
  exact h.appendStr [ch]

theorem Builds.recordStr {m m' : Machine N W X} {s : Bytes} (h : Builds m m' s) (str : Bytes) :
    Builds m (hupacketRecordStr m' str) (s ++ recordMark :: str) :=
  ((h.appendChar recordMark (by decide)).appendStr str).of_eq (by simp)

theorem Builds.recordInt {m m' : Machine N W X} {s : Bytes} (h : Builds m m' s) (val : Int) :
    Builds m (hupacketRecordInt m' val) (s ++ recordMark :: itoa10 val) :=
  h.recordStr (itoa10 val)

theorem Builds.recordHex {m m' : Machine N W X} {s : Bytes} (h : Builds m m' s) (val : Nat) :
    Builds m (hupacketRecordHex m' val) (s ++ recordMark :: itoa16 val) :=
  h.recordStr (itoa16 val)

/-- The header record a reply starts with: id, command and sequence. -/
def HupHandle.header (h : HupHandle N) : Bytes :=
  (match h.id with | some id => h.text id ++ [idMark] | none => []) ++ h.text h.argv0 ++
    (match h.sequence with | some sequence => sequenceMark :: h.text sequence | none => [])

theorem hupacketResetBuffer_builds (m : Machine N W X) (stx : UInt8) (hstx : stx ≠ 0) :
    Builds m (hupacketResetBuffer m stx) (stx :: m.handle.header) := by
  have start := (Builds.clear m).appendChar stx hstx
  simp only [hupacketResetBuffer, HupHandle.header]
  cases m.handle.id with
  | none =>
    have named := start.appendStr (m.handle.text m.handle.argv0)
    cases m.handle.sequence with
    | none => simpa using named
    | some sq =>
      simpa using (named.appendChar sequenceMark (by decide)).appendStr (m.handle.text sq)
  | some id =>
    have named := ((start.appendStr (m.handle.text id)).appendChar idMark (by decide)).appendStr
      (m.handle.text m.handle.argv0)
    cases m.handle.sequence with
    | none => simpa using named
    | some sq =>
      simpa using (named.appendChar sequenceMark (by decide)).appendStr (m.handle.text sq)

/-- The start of every reply: start mark, header record, status record. -/
def replyStart (h : HupHandle N) (rc : Int) : Bytes :=
  (if rc = 0 then ackOfResponse else nakOfResponse) :: h.header ++ recordMark :: itoa10 rc

theorem hupacketAckResponse_builds (m : Machine N W X) :
    Builds m (hupacketAckResponse m) (replyStart m.handle 0) :=
  (hupacketResetBuffer_builds m ackOfResponse (by decide)).recordInt 0

theorem hupacketNakResponse_builds (m : Machine N W X) (rc : Int) :
    Builds m (hupacketNakResponse m rc)
      (nakOfResponse :: m.handle.header ++ recordMark :: itoa10 rc) :=
  (hupacketResetBuffer_builds m nakOfResponse (by decide)).recordInt rc

/-- The CRC field a reply gets if the frame it answers has one. -/
def crcSuffix (fw : Firmware N W X) (crc : Bool) (s : Bytes) : Bytes :=
  if crc then crcMark :: itoa16 (fw.crc16 (s.drop 1)).toNat else []

/-- The last append before a send leaves the longest string. -/
theorem Builds.send {m m' : Machine N W X} {s : Bytes} (h : Builds m m' s) (ch : UInt8)
    (hc : ch ≠ 0) :
    Sends m ((hupacketAppendChar m' ch).emit (.send (hupacketAppendChar m' ch).handle.txBuffer))
      (s ++ [ch]) := by
  obtain ⟨ev, hlog, hev⟩ := h.log
  have hs : m'.handle.txBuffer = s := by rw [h.handle]
  rw [hupacketAppendChar, if_pos hc]
  refine ⟨?_, ev ++ [.txString (s ++ [ch])], ?_, by simp, fun e he => ?_⟩
  · simp [hupacketAppendStr, Machine.mapHandle, Machine.emit, h.handle]
  · simp [hupacketAppendStr, Machine.mapHandle, Machine.emit, hs, hlog]
  · rcases List.mem_append.mp he with he | he
    · exact (hev e he).mono (by simp)
    · rw [List.mem_singleton.mp he]
      exact Nat.le_refl _

theorem hupacketSendBuffer_sends (fw : Firmware N W X) {m m' : Machine N W X} {s : Bytes}
    (h : Builds m m' s) :
    Sends m (hupacketSendBuffer fw m')
      (s ++ crcSuffix fw m.handle.crc16.isSome s ++ [endOfPacket]) := by
  have hs : m'.handle.txBuffer = s := by rw [h.handle]
  have hcrc : m'.handle.crc16 = m.handle.crc16 := by rw [h.handle]
  unfold hupacketSendBuffer crcSuffix
  rw [hcrc, hs]
  cases m.handle.crc16 with
  | none => simpa using h.send endOfPacket (by decide)
  | some _ =>
    have hb := (h.appendChar crcMark (by decide)).appendStr
      (itoa16 (fw.crc16 (s.drop 1)).toNat)
    exact (hb.of_eq (by simp)).send endOfPacket (by decide)

/-- A reply that was sent is what a handler may do. -/
theorem Sends.replies {m m' : Machine N W X} {s : Bytes} (h : Sends m m' s) : Replies m m' := by
  obtain ⟨ev, hlog, -, hev⟩ := h.log
  refine ⟨by rw [h.handle], ev ++ [.send s], by rw [hlog, List.append_assoc], fun e he => ?_⟩
  rcases List.mem_append.mp he with he | he
  · exact (hev e he).isReply
  · rw [List.mem_singleton.mp he]
    rfl

end Spec

end Sdkz.Hu
