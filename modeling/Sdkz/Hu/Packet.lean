import Sdkz.Hu.Handle

/-! # The packet parser (lib/hu/hupacket.c)

`process_hupacket` takes the stream one byte at a time; the end mark starts
`process_data`, which checks the CRC, splits header and records in place and
calls the handler the tables name.

Two stores can miss their array, and the structure layout decides what they
hit: `buffer[N]` is the flag `response`, and `argv[64]` is the word of `state`
(pointers and `int` have 32 bits on the targets). -/

namespace Sdkz.Hu
open Sdkz.Base

variable {N : Nat} {W X : Type}

def isStartMark (ch : UInt8) : Bool :=
  ch == enqOfCommand || ch == ackOfResponse || ch == nakOfResponse

namespace HupHandle

/-- `buffer[i] = v`, where the byte behind the buffer is `response`. -/
def storeBuffer (h : HupHandle N) (i : Int) (v : UInt8) : HupHandle N :=
  if 0 ≤ i ∧ i < N then { h with buffer := h.buffer.setIfInBounds i.toNat v }
  else if i = N then { h with response := v != 0 }
  else h

/-- `argv[i] = &buffer[p]`, where the word behind the table is `state`. -/
def storeArgv (bufferAddr : Nat) (h : HupHandle N) (i p : Nat) : HupHandle N :=
  if i < 64 then { h with argv := h.argv.setIfInBounds i p }
  else if i = 64 then { h with state := Int.bmod (bufferAddr + p) (2 ^ 32) }
  else h

/-- `state < sizeof(buffer)`: the `int` is converted to the unsigned `size_t`. -/
def hasRoom (h : HupHandle N) : Bool := (h.state % 2 ^ 32).toNat < N

/-- `*(argv[i] - 1) = '\0'` for `i` from 1 up to `argc - 1`. -/
def splitRecords (h : HupHandle N) : HupHandle N :=
  let records := (h.argv.toList.take h.argc).drop 1
  { h with buffer := records.foldl (fun buffer p => buffer.setIfInBounds (p - 1) 0) h.buffer }

/-- `seperate_header`: cut the header string at the first `ch`; `put` stores the
pointers to the two parts. -/
def seperateHeader (h : HupHandle N) (put : Nat → Nat → HupHandle N → HupHandle N)
    (ch : UInt8) : HupHandle N :=
  match strchr h.buffer.toList h.argv0 ch with
  | some tmp => put h.argv0 (tmp + 1) { h with buffer := h.buffer.setIfInBounds tmp 0 }
  | none => h

def seperateId (h : HupHandle N) : HupHandle N :=
  h.seperateHeader
    (fun ptr dst h => { h with id := some ptr, argv := h.argv.set 0 dst argv_pos }) idMark

def seperateSequence (h : HupHandle N) : HupHandle N :=
  h.seperateHeader
    (fun ptr dst h => { h with argv := h.argv.set 0 ptr argv_pos, sequence := some dst })
    sequenceMark

/-- The in-place split: records first, then the id, then the sequence. -/
def split (h : HupHandle N) : HupHandle N := h.splitRecords.seperateId.seperateSequence

def args (h : HupHandle N) : List Bytes := (h.argv.toList.take h.argc).map h.text

def packet (h : HupHandle N) : Packet where
  response := h.response
  id := h.id.map h.text
  argv := h.args
  sequence := h.sequence.map h.text
  crc16 := h.crc16.map h.text

end HupHandle

/-- `argv[argc ++] = &buffer[p]`. -/
def pushArgv (fw : Firmware N W X) (m : Machine N W X) (p : Nat) : Machine N W X :=
  (m.mapHandle fun h => { h.storeArgv fw.bufferAddr h.argc p with argc := h.argc + 1 }).emit
    (.storeArgv m.handle.argc)

def storeByte (m : Machine N W X) (v : UInt8) : Machine N W X :=
  (m.mapHandle fun h => h.storeBuffer h.state v).emit (.storeBuffer m.handle.state)

/-- The table lookup: the first entry whose name is `argv[0]`. -/
def lookupCmd (table : List (HupCmd N W X)) (h : HupHandle N) : Option (HupCmd N W X) :=
  table.find? fun c => c.cmd == h.text h.argv0

/-- `process_data` behind the CRC check. -/
def dispatch (fw : Firmware N W X) (m : Machine N W X) : Machine N W X :=
  let m := m.mapHandle .split
  let h := m.handle
  let m := m.emit (.lookup h.packet h.crcMatch)
  let m := match lookupCmd (if h.response then fw.hupResp else fw.hupCmd) h with
    | some c => c.func (m.emit (.call h.packet h.crcMatch)) h.argc h.args
    | none => m
  m.mapHandle .reset

/-- The verdict of the CRC check for a CRC field at `crc`. -/
def crcVerdict (fw : Firmware N W X) (h : HupHandle N) (crc : Nat) : Bool :=
  let crcCalculated := fw.crc16 (h.buffer.toList.take (crc - 1))
  let crcReceived := (strtoul 16 (h.text crc)).toUInt16
  crcCalculated == crcReceived

def processData (fw : Firmware N W X) (m : Machine N W X) : Machine N W X :=
  match m.handle.crc16 with
  | none => dispatch fw m
  | some crc =>
    let m := m.mapHandle fun h => { h with crcMatch := crcVerdict fw h crc }
    if !m.handle.crcMatch && !m.handle.response then
      -- this return leaves the parser where it is, without the reset of the normal path
      hupacketSendBuffer fw (hupacketNakResponse m (-enmCrc16))
    else dispatch fw m

/-- The default branch: append a byte if there is room, otherwise drop the frame. -/
def appendByte (m : Machine N W X) (ch : UInt8) : Machine N W X :=
  if m.handle.hasRoom then
    (storeByte m ch).mapHandle fun h => { h with state := h.state + 1 }
  else m.mapHandle .reset

/-- One turn of the loop of `process_hupacket`. -/
def processByte (fw : Firmware N W X) (m : Machine N W X) (ch : UInt8) : Machine N W X :=
  if m.handle.state = hupStateNone && !isStartMark ch then m
  else if isStartMark ch then
    let m := m.mapHandle fun h =>
      { h.reset with state := h.reset.state + 1, response := ch != enqOfCommand }
    pushArgv fw m m.handle.state.toNat
  else if ch = endOfPacket then processData fw (storeByte m 0)
  else if ch = crcMark then
    if m.handle.hasRoom then
      (storeByte m 0).mapHandle fun h =>
        { h with state := h.state + 1, crc16 := some (h.state + 1).toNat }
    else m.mapHandle .reset
  else if ch = recordMark then
    -- no break: the mark itself is stored by the default branch
    appendByte (pushArgv fw m (m.handle.state + 1).toNat) ch
  else appendByte m ch

def processHupacket (fw : Firmware N W X) (m : Machine N W X) (data : Bytes) : Machine N W X :=
  data.foldl (processByte fw) m

/-- A stream that arrives in pieces, one `process_hupacket` call for each. -/
def feed (fw : Firmware N W X) (m : Machine N W X) (chunks : List Bytes) : Machine N W X :=
  chunks.foldl (processHupacket fw) m

theorem processHupacket_append (fw : Firmware N W X) (m : Machine N W X) (a b : Bytes) :
    processHupacket fw m (a ++ b) = processHupacket fw (processHupacket fw m a) b :=
  List.foldl_append

/-- How the stream is cut into calls does not matter. -/
theorem feed_eq (fw : Firmware N W X) (m : Machine N W X) (chunks : List Bytes) :
    feed fw m chunks = processHupacket fw m chunks.flatten :=
  List.foldl_flatten.symm

end Sdkz.Hu
