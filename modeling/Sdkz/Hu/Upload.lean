import Mathlib.Data.List.GetD
import Sdkz.Hu.Remote

/-! # Loading an image

An image goes into a partition in pieces: the area is erased, and then every
piece is written behind the one before it. `Board.Keeps` says what a driver
promises about the bytes of its areas; nothing is assumed of calls that fail.

If every response is an acknowledgement, the area holds the image
(`upload_installed`). With a driver that does all it is asked for, this happens
exactly if the partition is the one with the id 0, the image fits, and every
piece is a `Takeable` one (`upload_acknowledged_iff`). -/

namespace Sdkz.Hu
open Sdkz.Base

variable {N : Nat} {W W' X' : Type}

/-! ## Areas and their bytes -/

/-- The bytes of the areas, by id. -/
abbrev Cells : Type := UInt8 → Nat → UInt8

def erased (c : Cells) (id : UInt8) (size : Nat) : Cells := fun j i =>
  if j = id ∧ i < size then 0xff else c j i

def written (c : Cells) (id : UInt8) (offset : Nat) (data : Bytes) : Cells := fun j i =>
  if j = id ∧ offset ≤ i ∧ i < offset + data.length then data.getD (i - offset) 0 else c j i

/-- What a flash driver promises: only erase and write change bytes, an erase that
succeeds leaves `0xff`, and a write that succeeds was inside of the area and has
put the data into bytes that were erased. -/
structure Board.Keeps (b : Board W) (cells : W → Cells) (size : UInt8 → Nat) : Prop where
  settings : ∀ w, cells (b.settingsRuntimeGet w).1 = cells w
  blinfo : ∀ w, cells (b.blinfoLookup w).1 = cells w
  opens : ∀ w id, cells (b.flashAreaOpen w id).1 = cells w
  opened : ∀ w id fa, (b.flashAreaOpen w id).2 = .ok fa → fa = ⟨id, size id⟩
  closes : ∀ w fa, cells (b.flashAreaClose w fa) = cells w
  erases : ∀ w id, (b.flashAreaErase w ⟨id, size id⟩ 0 (size id)).2 = 0 →
    cells (b.flashAreaErase w ⟨id, size id⟩ 0 (size id)).1 = erased (cells w) id (size id)
  inside : ∀ w id offset data, (b.flashAreaWrite w ⟨id, size id⟩ offset data).2 = 0 →
    0 ≤ offset ∧ offset + data.length ≤ size id
  writes : ∀ w id (offset : Nat) data, (b.flashAreaWrite w ⟨id, size id⟩ offset data).2 = 0 →
    (∀ i < data.length, cells w id (offset + i) = 0xff) →
      cells (b.flashAreaWrite w ⟨id, size id⟩ offset data).1 = written (cells w) id offset data

/-- A driver that does what it is asked for whenever that lies in the area. -/
structure Board.Works (b : Board W) (size : UInt8 → Nat) : Prop where
  opens : ∀ w id, (b.flashAreaOpen w id).2 = .ok ⟨id, size id⟩
  erases : ∀ w id, (b.flashAreaErase w ⟨id, size id⟩ 0 (size id)).2 = 0
  writes : ∀ w id offset data, (b.flashAreaWrite w ⟨id, size id⟩ offset data).2 = 0 ↔
    0 ≤ offset ∧ offset + data.length ≤ size id

/-! ## The commands of an upload -/

/-- A piece of an image, with the parts of the command that carries it. -/
structure Piece where
  id : Option Bytes
  sequence : Option Bytes
  crc : Bool
  data : Bytes

/-- An image in pieces for a partition, and the parts of the erase command. -/
structure Upload where
  id : Option Bytes
  sequence : Option Bytes
  crc : Bool
  name : Bytes
  pieces : List Piece

/-- The command that writes a piece at an offset. -/
def Piece.request (name : Bytes) (offset : Nat) (p : Piece) : Request where
  id := p.id
  command := ascii "flash"
  sequence := p.sequence
  texts := [name, itoa16 offset, itoa16 p.data.length, ascii85 p.data]
  crc := p.crc

/-- Pieces are written one behind the other. -/
def pieceRequests (name : Bytes) : Nat → List Piece → List Request
  | _, [] => []
  | offset, p :: ps => p.request name offset :: pieceRequests name (offset + p.data.length) ps

def imageOf (ps : List Piece) : Bytes := ps.flatMap Piece.data

namespace Upload

def image (u : Upload) : Bytes := imageOf u.pieces

def eraseRequest (u : Upload) : Request where
  id := u.id
  command := ascii "erase"
  sequence := u.sequence
  texts := [u.name]
  crc := u.crc

def requests (u : Upload) : List Request := u.eraseRequest :: pieceRequests u.name 0 u.pieces

end Upload

/-- A piece the flash command takes: longer than 256 bytes, and in a text of at
most 320 characters. -/
structure Takeable (data : Bytes) : Prop where
  longer : 256 < data.length
  coded : (data.length : Int) ≤ ascii85InLengthMax
  text : (ascii85 data).length ≤ 320

/-- Every response says that its request was done. -/
def Acknowledged (ps : List Packet) : Prop := ∀ p ∈ ps, p.argv.getD 1 [] = itoa10 noError

/-- The bytes with an image in the erased area 0. -/
def loaded (c : Cells) (size : Nat) (image : Bytes) : Cells := fun j i =>
  if j = 0 ∧ i < size then image.getD i 0xff else c j i

/-! ## The data of a piece -/

theorem window_stringAt (s : Bytes) : window (stringAt s) 0 s.length = s := by
  refine List.ext_getElem (by simp) fun i h₁ h₂ => ?_
  simp [window, stringAt, h₂]

/-- With room for four bytes a character the decoder returns what the text stands
for. -/
theorem decodeAscii85_is {inp : Nat → UInt8} {n : Nat} {outMaxLength : Int}
    (hn : (n : Int) ≤ ascii85InLengthMax) (hroom : 4 * (n : Int) ≤ outMaxLength) :
    (decodeAscii85 inp n outMaxLength).Is [] (referenceDecode (window inp 0 n)) := by
  unfold decodeAscii85 ascii85GetMaxDecodedLength
  simp only
  rw [if_neg (by omega), if_neg (by omega)]
  exact decodeLoop_reference inp [] [] (Nat.le_add_left n 0)

/-- The data of a flash command, as it is decoded. -/
abbrev decodedText (s : Bytes) : Decoded :=
  decodeAscii85 (stringAt s) s.length (ascii85MaxChunkSize * 5)

/-- A text that stands for data is decoded to it if it is short enough. -/
theorem decodedText_is {s data : Bytes} (hs : s.length ≤ 320) (hdata : referenceDecode s = .ok data) :
    (decodedText s).outLength = data.length ∧ (decodedText s).outp = data := by
  have hmax : ascii85MaxChunkSize * 5 = 1280 := rfl
  have hlimit : ascii85InLengthMax = 65536 := rfl
  have his : (decodedText s).Is [] (referenceDecode (window (stringAt s) 0 s.length)) :=
    decodeAscii85_is (by omega) (by omega)
  rw [window_stringAt, hdata] at his
  exact his

/-- The status behind the decoder is 0 exactly if the text is short enough and
stands for data of the announced length. -/
theorem decodedText_status {s : Bytes} {size : Nat} : decodeStatus (decodedText s) size = 0 ↔
    s.length ≤ 320 ∧ ∃ data, referenceDecode s = .ok data ∧ data.length = size := by
  have hmax : ascii85MaxChunkSize * 5 = 1280 := rfl
  refine (decodeStatus_zero (size : Int) (decodeAscii85_length _ _ _)).trans ⟨fun h => ?_, fun h => ?_⟩
  · obtain ⟨hnonneg, hsize⟩ := h
    obtain ⟨hroom, href, hout⟩ := decodeAscii85_decoded hnonneg
    rw [window_stringAt] at href
    exact ⟨by omega, _, href, by omega⟩
  · obtain ⟨hs, data, hdata, hsize⟩ := h
    obtain ⟨hlength, -⟩ := decodedText_is hs hdata
    change 0 ≤ (decodedText s).outLength ∧ (decodedText s).outLength = size
    omega

/-- The text of data is its reference encoding, or nothing if the data is longer
than the codec takes. -/
theorem ascii85_eq (data : Bytes) : ascii85 data =
    if (data.length : Int) ≤ ascii85InLengthMax then referenceEncode data else [] := by
  unfold ascii85
  split
  · rename_i h
    rw [encodeAscii85_reference h (Int.le_refl _), window_stringAt]
  · rename_i h
    unfold encodeAscii85 ascii85GetMaxEncodedLength
    simp only
    rw [if_pos (Or.inr (by omega)), if_pos (show ascii85ErrInBufTooLarge < 0 by decide)]

/-- Nothing but the text of data that the codec takes is decoded to its length. -/
theorem ascii85_status {data : Bytes} (hpos : 0 < data.length) :
    decodeStatus (decodedText (ascii85 data)) data.length = 0 ↔
      (data.length : Int) ≤ ascii85InLengthMax ∧ (ascii85 data).length ≤ 320 := by
  rw [decodedText_status, and_comm]
  refine and_congr_left fun _ => ⟨fun ⟨d, hd, hlength⟩ => ?_, fun h => ⟨data, ?_, rfl⟩⟩
  · by_contra hlong
    rw [ascii85_eq, if_neg hlong, referenceDecode] at hd
    rw [← Except.ok.inj hd] at hlength
    exact Nat.ne_of_lt hpos hlength
  · rw [ascii85_eq, if_pos h, referenceDecode_encode]

theorem ascii85_decoded {data : Bytes} (hcoded : (data.length : Int) ≤ ascii85InLengthMax)
    (htext : (ascii85 data).length ≤ 320) : (decodedText (ascii85 data)).outp = data := by
  refine (decodedText_is htext ?_).2
  rw [ascii85_eq, if_pos hcoded, referenceDecode_encode]

/-! ## The work of the commands -/

section Work
variable {b : Board W} {cells : W → Cells} {size : UInt8 → Nat}

theorem resolvePartition_keeps (k : b.Keeps cells size) (w : W) (name : Bytes) :
    cells (resolvePartition b w name).1 = cells w := by
  unfold resolvePartition
  split
  · simp only [bootloaderActiveSlot]
    split
    · exact k.settings w
    · exact k.blinfo w
  · rfl

/-- An open keeps all bytes, and hands out the area 0 or fails. -/
theorem Work.opened_keeps (k : b.Keeps cells size) (w : W) (name : Bytes) :
    cells (Work.opened b w name).world = cells w ∧
      ((Work.opened b w name).status = 0 ∧ (Work.opened b w name).area = some ⟨0, size 0⟩ ∨
        (Work.opened b w name).status ≠ 0 ∧ (Work.opened b w name).area = none) := by
  have hkeep := resolvePartition_keeps k w name
  unfold Work.opened
  generalize resolvePartition b w name = r at hkeep ⊢
  obtain ⟨w₁, rc⟩ := r
  by_cases hrc : rc = 0
  · subst hrc
    have hopens := k.opens w₁ 0
    have hopened := k.opened w₁ 0
    simp only [ne_eq, not_true_eq_false, if_false]
    rw [show (0 : Int).toNat.toUInt8 = 0 from rfl]
    generalize b.flashAreaOpen w₁ 0 = o at hopens hopened ⊢
    obtain ⟨w₂, rc | fa⟩ := o
    · exact ⟨hopens.trans hkeep, .inr ⟨rc.2, rfl⟩⟩
    · exact ⟨hopens.trans hkeep, .inl ⟨rfl, congrArg some (hopened fa rfl)⟩⟩
  · rw [if_pos hrc]
    exact ⟨hkeep, .inr ⟨hrc, rfl⟩⟩

theorem Work.closed_keeps (k : b.Keeps cells size) (done : Work W) :
    cells (done.closed b) = cells done.world := by
  unfold Work.closed
  split
  · rfl
  · exact k.closes _ _

theorem Upload.erase_work (u : Upload) (w : W) : u.eraseRequest.work b w =
    match (Work.opened b w u.name).area with
    | none => Work.opened b w u.name
    | some fa => (Work.opened b w u.name).call (.erase fa 0 fa.faSize)
        (b.flashAreaErase (Work.opened b w u.name).world fa 0 fa.faSize) := by
  unfold Request.work Upload.eraseRequest
  rw [if_pos rfl]
  rfl

/-- The command of a piece, in its own terms. -/
theorem Piece.work_eq {p : Piece} {name : Bytes} {offset : Nat} (w : W) (hoffset : offset < 2 ^ 31)
    (hdata : p.data.length < 2 ^ 31) : (p.request name offset).work b w =
    match (Work.opened b w name).area with
    | none => Work.opened b w name
    | some fa =>
      if p.data.length ≤ 256 then { Work.opened b w name with status := -einval }
      else if decodeStatus (decodedText (ascii85 p.data)) p.data.length ≠ 0 then
        { Work.opened b w name with
          status := decodeStatus (decodedText (ascii85 p.data)) p.data.length }
      else (Work.opened b w name).call (.write fa offset p.data)
        (b.flashAreaWrite (Work.opened b w name).world fa offset p.data) := by
  have hwork : (p.request name offset).work b w =
      Work.flash b w [ascii "flash", name, itoa16 offset, itoa16 p.data.length, ascii85 p.data] := by
    unfold Request.work Piece.request
    rw [if_neg (show ¬ ascii "flash" = ascii "erase" by decide), if_pos rfl]
  rw [hwork, Work.flash, if_neg (by simp)]
  simp only [argFlashPartition, argFlashLength, List.getD_cons_succ, List.getD_cons_zero]
  rw [strtol_itoa16 hdata]
  have hmax : ((p.data.length : Int) ≤ ascii85MaxChunkSize) = (p.data.length ≤ 256) := by
    rw [ascii85MaxChunkSize]
    exact propext (by omega)
  simp only [hmax]
  generalize Work.opened b w name = o
  cases harea : o.area with
  | none => rfl
  | some fa =>
    by_cases hshort : p.data.length ≤ 256
    · simp only [if_pos hshort]
    simp only [if_neg hshort, Work.write, argFlashOffset, argEraseMax, argFlashAscii85Data,
      List.getD_cons_succ, List.getD_cons_zero, strtol_itoa16 hoffset, Int.toNat_natCast]
    by_cases hstatus : decodeStatus (decodedText (ascii85 p.data)) p.data.length = 0
    · obtain ⟨hcoded, htext⟩ := (ascii85_status (by omega)).mp hstatus
      rw [if_neg (not_not.mpr hstatus), if_neg (not_not.mpr hstatus),
        ascii85_decoded hcoded htext, List.take_length]
    · rw [if_pos hstatus, if_pos hstatus, harea]

/-- An erase command that succeeds leaves an empty image. -/
theorem erase_loaded (k : b.Keeps cells size) {u : Upload} {w : W}
    (hdone : (u.eraseRequest.work b w).status = 0) :
    cells ((u.eraseRequest.work b w).closed b) = loaded (cells w) (size 0) [] := by
  obtain ⟨hkeep, hopened⟩ := Work.opened_keeps k w u.name
  rw [Work.closed_keeps k]
  rw [u.erase_work] at hdone ⊢
  generalize Work.opened b w u.name = o at *
  rcases hopened with ⟨-, harea⟩ | ⟨hstatus, harea⟩
  · rw [harea] at hdone ⊢
    refine (k.erases o.world 0 hdone).trans ?_
    rw [hkeep]
    funext j i
    simp [erased, loaded]
  · rw [harea] at hdone
    exact absurd hdone hstatus

/-- The bytes behind the image are erased. -/
theorem loaded_blank {c : Cells} {n i : Nat} {image : Bytes} (hi : image.length ≤ i) (hn : i < n) :
    loaded c n image 0 i = 0xff := by
  rw [loaded, if_pos ⟨rfl, hn⟩]
  simp [hi]

/-- A write behind the image lengthens it. -/
theorem written_loaded {c : Cells} {n : Nat} {image data : Bytes}
    (hfits : image.length + data.length ≤ n) :
    written (loaded c n image) 0 image.length data = loaded c n (image ++ data) := by
  funext j i
  unfold written loaded
  by_cases hj : j = 0
  · simp only [hj, true_and]
    by_cases hbefore : i < image.length
    · rw [if_neg (by omega), if_pos (by omega), if_pos (by omega), List.getD_append _ _ _ _ hbefore]
    · by_cases hdata : i < image.length + data.length
      · rw [if_pos (by omega), if_pos (by omega), List.getD_append_right _ _ _ _ (by omega)]
        have hlt : i - image.length < data.length := by omega
        simp [hlt]
      · rw [if_neg (by omega)]
        split
        · have hend : data.length ≤ i - image.length := by omega
          rw [List.getD_append_right _ _ _ _ (by omega), List.getD_eq_default _ _ (by omega),
            List.getD_eq_default _ _ hend]
        · rfl
  · simp only [hj, false_and, if_false]

/-- A piece whose command succeeds fits, and lengthens the image. -/
theorem piece_loaded (k : b.Keeps cells size) {p : Piece} {name : Bytes} {c : Cells}
    {image : Bytes} {w : W} (hw : cells w = loaded c (size 0) image)
    (hoffset : image.length < 2 ^ 31) (hdata : p.data.length < 2 ^ 31)
    (hdone : ((p.request name image.length).work b w).status = 0) :
    cells (((p.request name image.length).work b w).closed b) =
        loaded c (size 0) (image ++ p.data) ∧ image.length + p.data.length ≤ size 0 := by
  obtain ⟨hkeep, hopened⟩ := Work.opened_keeps k w name
  rw [Work.closed_keeps k]
  rw [p.work_eq w hoffset hdata] at hdone ⊢
  generalize Work.opened b w name = o at *
  rcases hopened with ⟨-, harea⟩ | ⟨hstatus, harea⟩
  · rw [harea] at hdone ⊢
    by_cases hshort : p.data.length ≤ 256
    · simp only [if_pos hshort] at hdone
      exact absurd hdone (by decide)
    simp only [if_neg hshort] at hdone ⊢
    by_cases hcode : decodeStatus (decodedText (ascii85 p.data)) p.data.length = 0
    · rw [if_neg (not_not.mpr hcode)] at hdone ⊢
      have hfits : image.length + p.data.length ≤ size 0 := by
        have := (k.inside o.world 0 image.length p.data hdone).2
        omega
      refine ⟨(k.writes o.world 0 image.length p.data hdone fun i hi => ?_).trans ?_, hfits⟩
      · rw [hkeep, hw]
        exact loaded_blank (by omega) (by omega)
      · rw [hkeep, hw]
        exact written_loaded hfits
    · rw [if_pos hcode] at hdone
      exact absurd hdone hcode
  · rw [harea] at hdone
    exact absurd hdone hstatus

/-- Pieces whose commands all succeed have been put behind the image. -/
theorem pieces_loaded (k : b.Keeps cells size) {name : Bytes} {c : Cells} (ps : List Piece)
    {image : Bytes} {w : W} (hw : cells w = loaded c (size 0) image)
    (hfits : image.length ≤ size 0) (hshort : (image ++ imageOf ps).length < 2 ^ 31)
    (hdone : ∀ done ∈ works b w (pieceRequests name image.length ps), done.status = 0) :
    cells (worldAfter b w (pieceRequests name image.length ps)) =
      loaded c (size 0) (image ++ imageOf ps) ∧ (image ++ imageOf ps).length ≤ size 0 := by
  induction ps generalizing image w with
  | nil => simpa [pieceRequests, worldAfter, imageOf] using And.intro hw hfits
  | cons p ps ih =>
    have himage : image ++ imageOf (p :: ps) = image ++ p.data ++ imageOf ps := by
      simp [imageOf]
    rw [himage] at hshort ⊢
    simp only [List.length_append] at hshort
    rw [pieceRequests, works] at hdone
    obtain ⟨hloaded, hfits'⟩ := piece_loaded k hw (by omega) (by omega)
      (hdone _ List.mem_cons_self)
    rw [← List.length_append] at hdone hfits'
    have hrest := ih hloaded hfits' (by simp only [List.length_append]; omega)
      fun done h => hdone done (List.mem_cons_of_mem _ h)
    rw [List.length_append] at hrest
    exact hrest

end Work

/-! ## With a driver that does all it is asked for -/

section Working
variable {b : Board W} {size : UInt8 → Nat} {id : Int} {name : Bytes}

theorem Work.opened_works (k : b.Works size) (hname : ∀ w, (resolvePartition b w name).2 = id)
    (w : W) : if id = 0 then
      (Work.opened b w name).status = 0 ∧ (Work.opened b w name).area = some ⟨0, size 0⟩
    else (Work.opened b w name).status ≠ 0 ∧ (Work.opened b w name).area = none := by
  have hid := hname w
  unfold Work.opened
  generalize resolvePartition b w name = r at hid ⊢
  obtain ⟨w₁, rc⟩ := r
  obtain rfl : rc = id := hid
  by_cases hrc : rc = 0
  · subst hrc
    have hopens := k.opens w₁ 0
    rw [if_pos rfl, if_neg (not_not.mpr rfl), show (0 : Int).toNat.toUInt8 = 0 from rfl]
    generalize b.flashAreaOpen w₁ 0 = o at hopens ⊢
    obtain ⟨w₂, result⟩ := o
    obtain rfl : result = .ok ⟨0, size 0⟩ := hopens
    exact ⟨rfl, rfl⟩
  · rw [if_neg hrc, if_pos hrc]
    exact ⟨hrc, rfl⟩

theorem erase_status (k : b.Works size) {u : Upload}
    (hname : ∀ w, (resolvePartition b w u.name).2 = id) (w : W) :
    (u.eraseRequest.work b w).status = 0 ↔ id = 0 := by
  have hopened := Work.opened_works k hname w
  rw [u.erase_work]
  generalize Work.opened b w u.name = o at *
  by_cases hid : id = 0
  · rw [if_pos hid] at hopened
    rw [hopened.2]
    exact ⟨fun _ => hid, fun _ => k.erases o.world 0⟩
  · rw [if_neg hid] at hopened
    rw [hopened.2]
    exact ⟨fun h => absurd h hopened.1, fun h => absurd h hid⟩

theorem piece_status (k : b.Works size) (hname : ∀ w, (resolvePartition b w name).2 = 0)
    {p : Piece} {offset : Nat} (w : W) (hoffset : offset < 2 ^ 31) (hdata : p.data.length < 2 ^ 31) :
    ((p.request name offset).work b w).status = 0 ↔
      Takeable p.data ∧ offset + p.data.length ≤ size 0 := by
  have hopened := Work.opened_works k hname w
  rw [if_pos rfl] at hopened
  rw [p.work_eq w hoffset hdata]
  generalize Work.opened b w name = o at *
  rw [hopened.2]
  by_cases hshort : p.data.length ≤ 256
  · simp only [if_pos hshort]
    exact ⟨fun h => absurd h (by decide), fun h => absurd h.1.longer (by omega)⟩
  simp only [if_neg hshort]
  have hcode : decodeStatus (decodedText (ascii85 p.data)) p.data.length = 0 ↔ _ :=
    ascii85_status (by omega)
  by_cases hstatus : decodeStatus (decodedText (ascii85 p.data)) p.data.length = 0
  · rw [if_neg (not_not.mpr hstatus)]
    have htake : Takeable p.data := ⟨by omega, (hcode.mp hstatus).1, (hcode.mp hstatus).2⟩
    refine (k.writes o.world 0 offset p.data).trans ⟨fun h => ⟨htake, ?_⟩, fun h => ?_⟩ <;> omega
  · rw [if_pos hstatus]
    exact ⟨fun h => absurd h hstatus, fun h => absurd (hcode.mpr ⟨h.1.coded, h.1.text⟩) hstatus⟩

/-- The commands of pieces all succeed exactly if each piece is takeable and all
of them fit. -/
theorem pieces_status (k : b.Works size) (hname : ∀ w, (resolvePartition b w name).2 = 0)
    (ps : List Piece) {offset : Nat} (w : W) (hfits : offset ≤ size 0)
    (hshort : offset + (imageOf ps).length < 2 ^ 31) :
    (∀ done ∈ works b w (pieceRequests name offset ps), done.status = 0) ↔
      (∀ p ∈ ps, Takeable p.data) ∧ offset + (imageOf ps).length ≤ size 0 := by
  induction ps generalizing offset w with
  | nil => simpa [pieceRequests, works, imageOf] using hfits
  | cons p ps ih =>
    have himage : (imageOf (p :: ps)).length = p.data.length + (imageOf ps).length := by
      simp [imageOf]
    rw [himage] at hshort ⊢
    have hpiece : ((p.request name offset).work b w).status = 0 ↔ _ :=
      piece_status k hname w (by omega) (by omega)
    rw [pieceRequests, works, List.forall_mem_cons, hpiece, List.forall_mem_cons]
    by_cases hone : offset + p.data.length ≤ size 0
    · rw [ih _ hone (by omega), Nat.add_assoc]
      tauto
    · exact ⟨fun h => absurd h.1.2 hone, fun h => absurd h.2 (by omega)⟩

end Working

/-! ## Uploads -/

/-- The image lies at the start of the area 0, erased bytes behind it, and all
other bytes are as they were. -/
structure Installed (size : Nat) (image : Bytes) (old new : Cells) : Prop where
  fits : image.length ≤ size
  start : ∀ i, (h : i < image.length) → new 0 i = image[i]
  rest : ∀ i, image.length ≤ i → i < size → new 0 i = 0xff
  others : ∀ j i, ¬ (j = 0 ∧ i < size) → new j i = old j i

theorem loaded_installed {c : Cells} {size : Nat} {image : Bytes} (hfits : image.length ≤ size) :
    Installed size image c (loaded c size image) where
  fits := hfits
  start i hi := by
    rw [loaded, if_pos ⟨rfl, by omega⟩]
    simp [hi]
  rest i hi hn := loaded_blank hi hn
  others j i h := if_neg h

/-- The client sees acknowledgements exactly for work that ended with status 0. -/
theorem acknowledged_iff (b : Board W) (fw : Firmware N W FlashCall) (requests : List Request)
    (w : W) : Acknowledged (List.zipWith (Request.response b fw) requests
        ((works b w requests).map Work.status)) ↔
      ∀ done ∈ works b w requests, done.status = 0 := by
  induction requests generalizing w with
  | nil => simp [Acknowledged, works]
  | cons r requests ih =>
    have hrest := ih ((r.work b w).closed b)
    unfold Acknowledged at hrest ⊢
    rw [works, List.map_cons, List.zipWith_cons_cons, List.forall_mem_cons, List.forall_mem_cons,
      hrest]
    exact and_congr_left fun _ => itoa10_eq_zero

section Uploads
variable {b : Board W} {fw : Firmware N W FlashCall} {u : Upload}

/-- An upload whose commands all succeed is installed. -/
theorem Upload.done_installed {cells : W → Cells} {size : UInt8 → Nat} (k : b.Keeps cells size)
    (hshort : u.image.length < 2 ^ 31) {w : W}
    (hdone : ∀ done ∈ works b w u.requests, done.status = 0) :
    Installed (size 0) u.image (cells w) (cells (worldAfter b w u.requests)) := by
  rw [Upload.requests, works, List.forall_mem_cons] at hdone
  obtain ⟨hloaded, himage⟩ := pieces_loaded k u.pieces (erase_loaded k hdone.1) (Nat.zero_le _)
    hshort hdone.2
  exact hloaded ▸ loaded_installed himage

/-- **An acknowledged upload is installed.** The commands of an upload are sent to
a node in any state. If a client, in any state, then has read nothing but
acknowledgements, the area holds the image, whatever the driver does in calls that
fail. -/
theorem upload_installed {cells : W → Cells} {size : UInt8 → Nat} (k : b.Keeps cells size)
    (hclean : ∀ r ∈ u.requests, r.Clean b fw) (hshort : u.image.length < 2 ^ 31)
    (node : Machine N W FlashCall) (fw' : Firmware N W' X') (client : Machine N W' X')
    (hfits : ∀ s ∈ sends (since node (processHupacket (withFlash b fw) node
      (u.requests.flatMap fun r => frame enqOfCommand (r.body fw)))), s.length + 1 ≤ N)
    (hack : Acknowledged ((presented (since client (processHupacket fw' client
      (sends (since node (processHupacket (withFlash b fw) node
        (u.requests.flatMap fun r => frame enqOfCommand (r.body fw))))).flatten))).map (·.1))) :
    Installed (size 0) u.image (cells node.world) (cells (processHupacket (withFlash b fw) node
      (u.requests.flatMap fun r => frame enqOfCommand (r.body fw))).world) := by
  obtain ⟨hworld, -, hreplies⟩ := node_performs hclean node
  rw [hreplies] at hfits hack
  rw [client_reads hclean hfits, acknowledged_iff] at hack
  rw [hworld]
  exact Upload.done_installed k hshort hack

/-- **What can be uploaded.** With a driver that does all it is asked for, every
command of an upload is acknowledged exactly if the name stands for the id 0, the
image fits the area, and each piece is longer than 256 bytes and has a text of at
most 320 characters. -/
theorem upload_acknowledged_iff {size : UInt8 → Nat} (k : b.Works size) {id : Int}
    (hname : ∀ w, (resolvePartition b w u.name).2 = id)
    (hclean : ∀ r ∈ u.requests, r.Clean b fw) (hshort : u.image.length < 2 ^ 31)
    (node : Machine N W FlashCall) (fw' : Firmware N W' X') (client : Machine N W' X')
    (hfits : ∀ s ∈ sends (since node (processHupacket (withFlash b fw) node
      (u.requests.flatMap fun r => frame enqOfCommand (r.body fw)))), s.length + 1 ≤ N) :
    Acknowledged ((presented (since client (processHupacket fw' client
      (sends (since node (processHupacket (withFlash b fw) node
        (u.requests.flatMap fun r => frame enqOfCommand (r.body fw))))).flatten))).map (·.1)) ↔
      id = 0 ∧ (∀ p ∈ u.pieces, Takeable p.data) ∧ u.image.length ≤ size 0 := by
  obtain ⟨-, -, hreplies⟩ := node_performs hclean node
  rw [hreplies] at hfits ⊢
  rw [client_reads hclean hfits, acknowledged_iff, Upload.requests, works, List.forall_mem_cons,
    erase_status k hname]
  refine and_congr_right fun hid => ?_
  subst hid
  rw [pieces_status k hname u.pieces _ (Nat.zero_le _) (by rwa [Nat.zero_add]), Nat.zero_add]
  rfl

end Uploads

/-! ## An upload of 260 bytes -/

/-- A board that is its memory. -/
def memoryBoard : Board Cells where
  flashHasExOp := false
  retentionBootloaderInfo := false
  outputSettings := false
  fixedPartitions := [(ascii "slot0", 0), (ascii "slot1", 1)]
  settingsRuntimeGet := fun w => (w, 1, 0)
  blinfoLookup := fun w => (w, 0, 0)
  flashAreaOpen := fun w id => (w, .ok ⟨id, 0x40000⟩)
  flashAreaErase := fun w fa _ len => (erased w fa.faId len, 0)
  flashAreaWrite := fun w fa offset data =>
    if 0 ≤ offset ∧ offset + data.length ≤ fa.faSize then
      (written w fa.faId offset.toNat data, 0)
    else (w, -einval)
  flashAreaClose := fun w _ => w

theorem memoryBoard_works : memoryBoard.Works fun _ => 0x40000 where
  opens _ _ := rfl
  erases _ _ := rfl
  writes w id offset data := by
    simp only [memoryBoard]
    split
    · exact iff_of_true rfl ‹_›
    · exact iff_of_false (show -einval ≠ 0 by decide) ‹_›

theorem memoryBoard_keeps : memoryBoard.Keeps (fun c => c) fun _ => 0x40000 where
  settings _ := rfl
  blinfo _ := rfl
  opens _ _ := rfl
  opened _ _ _ h := (Except.ok.inj h).symm
  closes _ _ := rfl
  erases _ _ _ := rfl
  inside w id offset data h := (memoryBoard_works.writes w id offset data).mp h
  writes w id offset data h _ := by
    have hin := (memoryBoard_works.writes w id offset data).mp h
    simp only [memoryBoard]
    rw [if_pos hin]
    rfl

def sparseData : Bytes := List.replicate 260 0

theorem length_sparseData : sparseData.length = 260 := List.length_replicate

/-- A sparse image of one piece for `slot0`. -/
def sparseUpload : Upload where
  id := none
  sequence := none
  crc := true
  name := ascii "slot0"
  pieces := [⟨none, none, false, sparseData⟩]

theorem sparseUpload_image : sparseUpload.image = sparseData := List.append_nil _

theorem sparseUpload_clean : ∀ r ∈ sparseUpload.requests,
    r.Clean memoryBoard (image [] [] : Firmware packetSize Cells FlashCall) := by
  have hheader : ∀ command, PlainText command → idMark ∉ command ∧ sequenceMark ∉ command →
      CleanHeader none command none :=
    fun command hplain hmarks => ⟨by simp, hplain, hmarks, by simp⟩
  intro r hr
  rcases List.mem_pair.mp hr with rfl | rfl
  · exact ⟨hheader _ (by decide) (by decide), by decide, by decide, by decide +kernel, rfl⟩
  · exact ⟨hheader _ (by decide) (by decide), by decide +kernel, by decide, by decide +kernel, rfl⟩

/-- What it leaves of a node that was just started, with sevens in its memory. -/
def sparseNode : Machine packetSize Cells FlashCall :=
  processHupacket (withFlash memoryBoard (image [] [])) (.fresh packetSize fun _ _ => 7)
    (sparseUpload.requests.flatMap fun r => frame enqOfCommand
      (r.body (image [] [] : Firmware packetSize Cells FlashCall)))

theorem sparseUpload_takeable : ∀ p ∈ sparseUpload.pieces, Takeable p.data := by
  intro p hp
  obtain rfl := List.mem_singleton.mp hp
  have hlimit : ascii85InLengthMax = 65536 := rfl
  have hlength := length_sparseData
  exact ⟨by simp only; omega, by simp only; omega, by decide +kernel⟩

theorem sparseUpload_name (w : Cells) :
    (resolvePartition memoryBoard w sparseUpload.name).2 = 0 := rfl

theorem sparseUpload_done (w : Cells) :
    ∀ done ∈ works memoryBoard w sparseUpload.requests, done.status = 0 := by
  rw [Upload.requests, works, List.forall_mem_cons,
    erase_status memoryBoard_works sparseUpload_name]
  refine ⟨rfl, (pieces_status memoryBoard_works sparseUpload_name _ _ (Nat.zero_le _) ?_).mpr
    ⟨sparseUpload_takeable, ?_⟩⟩ <;>
    rw [show imageOf sparseUpload.pieces = sparseData from sparseUpload_image, length_sparseData] <;>
    decide

theorem sparseUpload_fits : ∀ s ∈ sends (since (.fresh packetSize fun _ _ => 7) sparseNode),
    s.length + 1 ≤ packetSize := by
  obtain ⟨-, -, hreplies⟩ := node_performs sparseUpload_clean (.fresh packetSize fun _ _ => 7)
  have hstatuses : (works memoryBoard (fun _ _ => 7) sparseUpload.requests).map Work.status =
      [0, 0] := List.eq_replicate_iff.mpr ⟨rfl, fun s hs => by
    obtain ⟨done, hdone, rfl⟩ := List.mem_map.mp hs
    exact sparseUpload_done _ done hdone⟩
  have hsends : sends (since (.fresh packetSize fun _ _ => 7) sparseNode) = List.zipWith
      (Request.responseFrame memoryBoard (image [] [])) sparseUpload.requests [0, 0] :=
    hreplies.trans (congrArg _ hstatuses)
  rw [hsends]
  decide +kernel

theorem sparseUpload_installed :
    Installed 0x40000 sparseUpload.image (fun _ _ => 7) sparseNode.world := by
  refine upload_installed memoryBoard_keeps sparseUpload_clean
    (by rw [sparseUpload_image, length_sparseData]; decide) (.fresh packetSize fun _ _ => 7)
    (image (W := Unit) (X := Empty) [] []) (.fresh packetSize ()) sparseUpload_fits ?_
  obtain ⟨-, -, hreplies⟩ := node_performs sparseUpload_clean (.fresh packetSize fun _ _ => 7)
  have hfits := sparseUpload_fits
  rw [sparseNode, hreplies] at hfits
  rw [hreplies, client_reads sparseUpload_clean hfits, acknowledged_iff]
  exact sparseUpload_done _

/-- The client of the same upload has read acknowledgements only. -/
theorem sparseUpload_acknowledged :
    Acknowledged ((presented (since (.fresh packetSize () : Machine packetSize Unit Empty)
      (processHupacket (image [] []) (.fresh packetSize ())
        (sends (since (.fresh packetSize fun _ _ => 7) sparseNode)).flatten))).map (·.1)) := by
  refine (upload_acknowledged_iff memoryBoard_works sparseUpload_name sparseUpload_clean ?_
    (.fresh packetSize fun _ _ => 7) (image (W := Unit) (X := Empty) [] []) (.fresh packetSize ())
    sparseUpload_fits).mpr ⟨rfl, sparseUpload_takeable, ?_⟩ <;>
    rw [sparseUpload_image, length_sparseData] <;> decide

end Sdkz.Hu
