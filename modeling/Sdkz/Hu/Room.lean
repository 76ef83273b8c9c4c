import Sdkz.Hu.Write

/-! # The room a reply needs in `tx_buffer`

A reply repeats the header record and some of the records of its request, with a
status and a CRC field of its own. The status is an `int` and the CRC has sixteen
bits, so the request alone bounds the reply: `LeavesRoom` for the frames of the
parser, `FlashRoom` for the arguments of the flash command. Both bounds are met,
by a driver that turns an open down with a long enough number. -/

namespace Sdkz.Hu
open Sdkz.Base

variable {N : Nat} {W : Type}

/-! ## What a status and a CRC field take -/

/-- An `int` of the targets. -/
def IsInt (v : Int) : Prop := -2147483648 ≤ v ∧ v < 2147483648

instance (v : Int) : Decidable (IsInt v) := inferInstanceAs (Decidable (_ ∧ _))

/-- What the flash calls return are `int`s. -/
structure Board.ReturnsInts (b : Board W) : Prop where
  openError : ∀ w id rc, (b.flashAreaOpen w id).2 = .error rc → IsInt rc.1
  erase : ∀ w fa off len, IsInt (b.flashAreaErase w fa off len).2
  write : ∀ w fa off data, IsInt (b.flashAreaWrite w fa off data).2

/-- The characters a status can take: any `int`, or `-EINVAL` where an argument is
missing. -/
def statusRoom (argc needed : Nat) : Nat := if argc < needed then 3 else 11

/-- A CRC field with its mark and four digits. -/
def crcFieldRoom (crc : Bool) : Nat := if crc then 5 else 0

theorem itoa10_room {v : Int} (h : IsInt v) : (itoa10 v).length ≤ 11 :=
  length_itoa10_le (by have := h.1; omega) (by have := h.2; omega)

theorem crcRoom_le (fw : Firmware N W FlashCall) (crc : Bool) (text : Bytes) :
    crcRoom fw crc text ≤ crcFieldRoom crc := by
  have hdigits := length_itoa16_le (fw.crc16 text).toNat_lt
  cases crc with
  | false => exact Nat.le_refl 0
  | true =>
    change 1 + _ ≤ 5
    omega

/-- Start mark, the record mark of the status, end mark and NUL are the four
characters every reply has. -/
theorem replyRoom_le (fw : Firmware N W FlashCall) (crc : Bool) (header : Bytes) {rc : Int}
    (echo : List Bytes) {n : Nat} (hrc : (itoa10 rc).length ≤ n) :
    replyRoom fw crc header rc echo ≤
      header.length + (echo.map (·.length + 1)).sum + n + crcFieldRoom crc + 4 := by
  have hcrc := crcRoom_le fw crc (header ++ joined (itoa10 rc :: echo))
  unfold replyRoom
  omega

/-! ## The statuses of a flash command -/

section Statuses
variable {b : Board W}

theorem isInt_einval : IsInt (-einval) := by decide

theorem getPartitionId_isInt (b : Board W) (name : Bytes) : IsInt (getPartitionId b name) := by
  unfold getPartitionId
  split
  · rename_i p _
    have := p.2.toNat_lt
    exact ⟨by omega, by omega⟩
  · exact isInt_einval

theorem resolvePartition_isInt (b : Board W) (w : W) (name : Bytes) :
    IsInt (resolvePartition b w name).2 := by
  unfold resolvePartition
  split
  · simp only
    split
    · exact getPartitionId_isInt b name
    · split
      · exact getPartitionId_isInt b _
      · split
        · exact getPartitionId_isInt b _
        · exact isInt_einval
  · exact getPartitionId_isInt b name

theorem openFlashPartition_isInt (ints : b.ReturnsInts) (m : Machine N W FlashCall)
    (name : Bytes) : IsInt (openFlashPartition b m name).2.1 := by
  have hresolved := resolvePartition_isInt b m.world name
  unfold openFlashPartition
  simp only
  split
  · exact hresolved
  · have herror := ints.openError (resolvePartition b m.world name).1
      (resolvePartition b m.world name).2.toNat.toUInt8
    simp only [Machine.emit]
    split
    · exact (by decide : IsInt 0)
    · rename_i h
      exact herror _ (congrArg Prod.snd h)

/-- The decoder's errors, shifted, and a length that was not declared. -/
theorem decodeStatus_isInt (inp : Nat → UInt8) (inLength outMaxLength size : Int) :
    IsInt (decodeStatus (decodeAscii85 inp inLength outMaxLength) size) := by
  have hlength := decodeAscii85_length inp inLength outMaxLength
  generalize decodeAscii85 inp inLength outMaxLength = d at hlength
  simp only [ascii85ErrOutBufTooSmall, ascii85ErrDecodeOverflow] at hlength
  simp only [decodeStatus, IsInt, ascii85ErrorCodeStart, eascii85, edesza85, elastError]
  split <;> split <;> omega

/-- What the work of a flash command returns: `-EINVAL` if an argument is missing, the
error of an open that failed, and always an `int`. -/
structure StatusSpec (b : Board W)
    (work : Machine N W FlashCall → Nat → List Bytes → Machine N W FlashCall × Int × Option FlashArea)
    (needed : Nat) : Prop where
  missing : ∀ m argc argv, argc < needed → (work m argc argv).2.1 = -einval
  refused : ∀ m argc argv rc, needed ≤ argc →
    (openFlashPartition b m (argv.getD argFlashPartition [])).2 = (rc, none) →
      (work m argc argv).2.1 = rc
  isInt : b.ReturnsInts → ∀ m argc argv, IsInt (work m argc argv).2.1

theorem wrprtArea_status (b : Board W) : StatusSpec (N := N) b (wrprtArea b) argWrprtMax where
  missing m argc argv h := by rw [wrprtArea, if_neg (Nat.not_le.mpr h)]
  refused m argc argv rc h hopen := by rw [wrprtArea, if_pos h, hopen]
  isInt ints m argc argv := by
    unfold wrprtArea
    split
    · exact openFlashPartition_isInt ints m _
    · exact isInt_einval

theorem eraseArea_status (b : Board W) : StatusSpec (N := N) b (eraseArea b) argEraseMax where
  missing m argc argv h := by rw [eraseArea, if_neg (Nat.not_le.mpr h)]
  refused m argc argv rc h hopen := by
    rw [eraseArea, if_pos h]
    generalize openFlashPartition b m _ = r at hopen
    obtain ⟨m', r⟩ := r
    obtain rfl : r = (rc, none) := hopen
    rfl
  isInt ints m argc argv := by
    unfold eraseArea
    split
    · have hopen := openFlashPartition_isInt ints m (argv.getD argFlashPartition [])
      generalize openFlashPartition b m (argv.getD argFlashPartition []) = r at hopen
      obtain ⟨m', rc, fa⟩ := r
      cases fa with
      | none => exact hopen
      | some fa =>
        simp only
        split
        · exact hopen
        · exact ints.erase _ _ _ _
    · exact isInt_einval

theorem flashChunk_status (b : Board W) : StatusSpec (N := N) b (flashChunk b) argFlashMax where
  missing m argc argv h := by rw [flashChunk, if_pos h]
  refused m argc argv rc h hopen := by
    rw [flashChunk, if_neg (Nat.not_lt.mpr h)]
    generalize openFlashPartition b m _ = r at hopen
    obtain ⟨m', r⟩ := r
    obtain rfl : r = (rc, none) := hopen
    rfl
  isInt ints m argc argv := by
    unfold flashChunk
    split
    · exact isInt_einval
    · have hopen := openFlashPartition_isInt ints m (argv.getD argFlashPartition [])
      generalize openFlashPartition b m (argv.getD argFlashPartition []) = r at hopen
      obtain ⟨m', rc, fa⟩ := r
      cases fa with
      | none => exact hopen
      | some fa =>
        simp only
        split
        · exact hopen
        · split
          · exact isInt_einval
          · unfold writeChunk
            simp only
            split
            · exact decodeStatus_isInt _ _ _ _
            · exact ints.write _ _ _ _

/-- The digits of a status have room. -/
theorem StatusSpec.room {needed : Nat}
    {work : Machine N W FlashCall → Nat → List Bytes → Machine N W FlashCall × Int × Option FlashArea}
    (spec : StatusSpec b work needed) (ints : b.ReturnsInts) (m : Machine N W FlashCall) (argc : Nat)
    (argv : List Bytes) : (itoa10 (work m argc argv).2.1).length ≤ statusRoom argc needed := by
  unfold statusRoom
  split
  · rename_i hmissing
    rw [spec.missing m argc argv hmissing]
    decide
  · exact itoa10_room (spec.isInt ints m argc argv)

end Statuses

/-! ## A driver that needs the most room -/

/-- A board with one partition, which cannot be opened. -/
def refusingBoard (name : Bytes) (rc : {rc : Int // rc ≠ 0}) : Board W where
  flashHasExOp := true
  retentionBootloaderInfo := false
  outputSettings := false
  fixedPartitions := [(name, 0)]
  settingsRuntimeGet := fun w => (w, 1, 0)
  blinfoLookup := fun w => (w, 0, 0)
  flashAreaOpen := fun w _ => (w, .error rc)
  flashAreaErase := fun w _ _ _ => (w, 0)
  flashAreaWrite := fun w _ _ _ => (w, 0)
  flashAreaClose := fun w _ => w

theorem refusingBoard_returnsInts (name : Bytes) {rc : {rc : Int // rc ≠ 0}} (h : IsInt rc.1) :
    (refusingBoard (W := W) name rc).ReturnsInts where
  openError w id rc' h' := by
    obtain rfl : rc = rc' := Except.error.inj h'
    exact h
  erase _ _ _ _ := by
    show IsInt 0
    decide
  write _ _ _ _ := by
    show IsInt 0
    decide

theorem refusingBoard_refuses (m : Machine N W FlashCall) (name : Bytes)
    (rc : {rc : Int // rc ≠ 0}) :
    (openFlashPartition (refusingBoard name rc) m name).2 = (rc.1, none) := by
  have hid : resolvePartition (refusingBoard name rc) m.world name = (m.world, 0) := by
    simp [resolvePartition, refusingBoard, getPartitionId]
  unfold openFlashPartition
  rw [hid]
  rfl

/-- The status of a request it turns down. -/
theorem StatusSpec.refusing {name : Bytes} {rc : {rc : Int // rc ≠ 0}} {needed : Nat}
    {work : Machine N W FlashCall → Nat → List Bytes → Machine N W FlashCall × Int × Option FlashArea}
    (spec : StatusSpec (refusingBoard name rc) work needed) (m : Machine N W FlashCall) (argc : Nat)
    {argv : List Bytes} (hname : argv.getD argFlashPartition [] = name) :
    (work m argc argv).2.1 = if argc < needed then -einval else rc.1 := by
  split
  · exact spec.missing m argc argv ‹_›
  · refine spec.refused m argc argv rc.1 (Nat.not_lt.mp ‹_›) ?_
    rw [hname]
    exact refusingBoard_refuses m name rc

/-- Two statuses of eleven characters. -/
def longStatus (last : Bool) : {rc : Int // rc ≠ 0} :=
  if last then ⟨-2147483647, by decide⟩ else ⟨-2147483648, by decide⟩

theorem longStatus_spec (last : Bool) :
    IsInt (longStatus last).1 ∧ (itoa10 (longStatus last).1).length = 11 := by
  cases last <;> decide +kernel

/-! ## Which frames are answered within `tx_buffer` -/

/-- How many arguments a flash command needs, and the last one it echoes. -/
def flashArguments (body : Bytes) : Option (Nat × Nat) :=
  if commandOf body = ascii "erase" then some (argEraseMax, argFlashPartition)
  else if commandOf body = ascii "flash" then some (argFlashMax, argFlashLength)
  else if commandOf body = ascii "wrprt" then some (argWrprtMax, argFlashWriteProtect)
  else none

/-- The packet code turns the frame down, or one of the flash commands answers. -/
def Answered (b : Board W) (fw : Firmware N W FlashCall) (body : Bytes) : Prop :=
  verdictOf fw body = some false ∨
    (flashArguments body).isSome ∧ (commandOf body = ascii "wrprt" → b.flashHasExOp)

/-- The frame leaves room for every reply to it. The reply to a wrong CRC has the body
up to its first CRC mark for header, the status `-2000` and a CRC field; the reply of
a command has the header record, a status and the echoed records. -/
structure LeavesRoom (fw : Firmware N W FlashCall) (body : Bytes) : Prop where
  mismatch : verdictOf fw body = some false → (unsplit body).length + 14 ≤ N
  request : verdictOf fw body ≠ some false → ∀ needed last,
    flashArguments body = some (needed, last) →
      (field body).length + (((records body).take last).map (·.length + 1)).sum +
        statusRoom ((records body).length + 1) needed + crcFieldRoom (crcSplit body).isSome + 4 ≤ N

theorem echoed_take (c : Bytes) (rs : List Bytes) (last : Nat) :
    echoed (rs.length + 1) (c :: rs) 1 last = rs.take last := by
  unfold echoed
  split
  · rename_i hall
    rw [range_getD c rs (by omega), List.take_of_length_le (by omega),
      List.take_of_length_le (by omega)]
  · rw [range_getD c rs (by omega), Nat.add_sub_cancel]

/-- A request for a flash command gets the status of that command's work. -/
theorem requestStatus_spec (b : Board W) (m : Machine N W FlashCall) {body : Bytes}
    {needed last : Nat} (h : flashArguments body = some (needed, last))
    (hop : commandOf body = ascii "wrprt" → b.flashHasExOp) :
    needed ≤ last + 2 ∧ ∃ work, StatusSpec (N := N) b work needed ∧
      requestStatus b m body = some ((work m ((records body).length + 1)
        (commandOf body :: records body)).2.1, (records body).take last) := by
  unfold flashArguments at h
  unfold requestStatus
  simp only
  by_cases herase : commandOf body = ascii "erase"
  · rw [if_pos herase] at h ⊢
    obtain ⟨rfl, rfl⟩ := Prod.mk.inj (Option.some.inj h)
    exact ⟨by decide, eraseArea b, eraseArea_status b, by rw [echoed_take]⟩
  · rw [if_neg herase] at h ⊢
    by_cases hflash : commandOf body = ascii "flash"
    · rw [if_pos hflash] at h ⊢
      obtain ⟨rfl, rfl⟩ := Prod.mk.inj (Option.some.inj h)
      exact ⟨by decide, flashChunk b, flashChunk_status b, by rw [echoed_take]⟩
    · rw [if_neg hflash] at h ⊢
      split at h
      · rename_i hwrprt
        rw [if_pos ⟨hwrprt, hop hwrprt⟩]
        obtain ⟨rfl, rfl⟩ := Prod.mk.inj (Option.some.inj h)
        exact ⟨by decide, wrprtArea b, wrprtArea_status b, by rw [echoed_take]⟩
      · cases h

/-- The answer decides whether the replies fit. -/
theorem AnsweredBy.fits_iff {new : List (Event FlashCall)} {s : Bytes} (h : AnsweredBy new s) :
    RepliesFit N new ↔ s.length + 1 ≤ N := by
  constructor
  · exact fun hfits => hfits s h.built
  · intro hs t ht
    have := h.longest t ht
    omega

theorem answer_fits_iff (b : Board W) (fw : Firmware N W FlashCall) (m : Machine N W FlashCall)
    {body : Bytes} (f : InLimits N enqOfCommand body) {n : Nat}
    (hn : answerRoom b fw m body = some n) :
    RepliesFit N (since m (processHupacket (withFlash b fw) m (frame enqOfCommand body))) ↔
      n ≤ N := by
  obtain ⟨s, hs, rfl⟩ := answer_length b fw m hn
  exact (frame_answered b fw m f hs).fits_iff

section Frames
variable {fw : Firmware N W FlashCall} {m : Machine N W FlashCall} {body : Bytes}

theorem answerRoom_request {b : Board W} (hv : verdictOf fw body ≠ some false)
    {r : Int × List Bytes} (hr : requestStatus b m body = some r) : answerRoom b fw m body =
      some (replyRoom fw (crcSplit body).isSome (field body) r.1 r.2) := by
  rw [answerRoom, if_neg hv, hr]
  rfl

theorem LeavesRoom.fits (room : LeavesRoom fw body) (f : InLimits N enqOfCommand body) {b : Board W}
    (ints : b.ReturnsInts) (ha : Answered b fw body) :
    RepliesFit N (since m (processHupacket (withFlash b fw) m (frame enqOfCommand body))) := by
  by_cases hv : verdictOf fw body = some false
  · refine (answer_fits_iff b fw m f (if_pos hv)).mpr ?_
    have hdigits : (itoa10 (-enmCrc16)).length ≤ 5 := by decide
    have hreply := replyRoom_le fw true (unsplit body) [] hdigits
    have := room.mismatch hv
    simp only [crcFieldRoom, List.map_nil, List.sum_nil, if_true] at hreply
    omega
  · obtain ⟨hargs, hop⟩ := ha.resolve_left hv
    obtain ⟨⟨needed, last⟩, hargs⟩ := Option.isSome_iff_exists.mp hargs
    obtain ⟨-, work, spec, hstatus⟩ := requestStatus_spec b m hargs hop
    refine (answer_fits_iff b fw m f (answerRoom_request hv hstatus)).mpr ?_
    exact (replyRoom_le fw _ _ _ (spec.room ints m _ _)).trans (room.request hv needed last hargs)

/-! ### The bound is met -/

/-- Another CRC function is taken for the one of the image if it judges the field of the
frame in the same way. -/
def SameVerdict (fw : Firmware N W FlashCall) (body : Bytes) (crc16 : Bytes → UInt16) : Prop :=
  verdictOf (fw.withCrc crc16) body = verdictOf fw body

/-- A wrong field is wrong for a constant of four digits too. -/
theorem exists_wrong_crc (h : verdictOf fw body = some false) :
    ∃ c : UInt16, SameVerdict fw body (fun _ => c) ∧ (itoa16 c.toNat).length = 4 := by
  unfold SameVerdict
  rw [h]
  unfold verdictOf at h ⊢
  obtain ⟨⟨pre, post⟩, hs, -⟩ := Option.map_eq_some_iff.mp h
  rw [hs]
  by_cases hnumber : (strtoul 16 (post.takeWhile (· != 0))).toUInt16 = 0xffff
  · refine ⟨0xfffe, ?_, by decide +kernel⟩
    simp only [Option.map_some, crcAccepts, Firmware.withCrc, hnumber]
    decide
  · refine ⟨0xffff, ?_, by decide +kernel⟩
    simp only [Option.map_some, crcAccepts, Firmware.withCrc, Option.some.injEq]
    exact beq_false_of_ne (Ne.symm hnumber)

/-- The CRC function of the image in front of the field, and four digits elsewhere. -/
def fourDigits (fw : Firmware N W FlashCall) (body : Bytes) (t : Bytes) : UInt16 :=
  match crcSplit body with
  | some (pre, _) => if t = stored pre then fw.crc16 t else 0xffff
  | none => 0xffff

theorem fourDigits_verdict (fw : Firmware N W FlashCall) (body : Bytes) :
    SameVerdict fw body (fourDigits fw body) := by
  unfold SameVerdict verdictOf
  cases hs : crcSplit body with
  | none => rfl
  | some p =>
    have hpre : fourDigits fw body (stored p.1) = fw.crc16 (stored p.1) := by
      simp only [fourDigits, hs, if_true]
    simp only [Option.map_some, crcAccepts, Firmware.withCrc, hpre]

theorem fourDigits_room {text : Bytes} (h : ∀ p, crcSplit body = some p → text ≠ stored p.1) :
    crcRoom (fw.withCrc (fourDigits fw body)) (crcSplit body).isSome text =
      crcFieldRoom (crcSplit body).isSome := by
  cases hs : crcSplit body with
  | none => rfl
  | some p =>
    have hcrc : fourDigits fw body text = 0xffff := by
      simp only [fourDigits, hs, if_neg (h p hs)]
    have hdigits : (itoa16 (0xffff : UInt16).toNat).length = 4 := by decide +kernel
    simp only [crcRoom, crcFieldRoom, Firmware.withCrc, hcrc, Option.isSome_some, if_true, hdigits]

/-- The text of a reply in front of its CRC field has one record mark more than the
request, if all records are echoed. -/
theorem statusText_ne_stored {rc : Int} (hbody : ∀ c ∈ body, isBody c = true) {pre post : Bytes}
    (hs : crcSplit body = some (pre, post)) :
    field body ++ joined (itoa10 rc :: records body) ≠ stored pre := by
  intro he
  have hstored : (stored pre).count recordMark ≤ body.count recordMark := by
    obtain ⟨rfl, -⟩ := crcSplit_eq hs
    rw [List.count_append, stored]
    refine le_trans ?_ (Nat.le_add_right _ _)
    generalize pre = s
    induction s with
    | nil => exact Nat.le_refl 0
    | cons c s ih =>
      rw [List.map_cons, List.count_cons, List.count_cons]
      refine Nat.add_le_add ih ?_
      by_cases hc : c = crcMark
      · simp +decide [hc]
      · rw [if_neg hc]
  have hplain : ∀ t ∈ itoa10 rc :: records body, PlainText t := by
    intro t ht
    rcases List.mem_cons.mp ht with rfl | ht
    · exact plainText_itoa10 rc
    · exact records_plain hbody t ht
  have hrecords : (records body).length = body.count recordMark := by
    rw [records_eq 0 body, List.length_map, recordStarts_length]
  rw [← he, List.count_append, count_joined hplain, List.length_cons, hrecords] at hstored
  omega

/-- One of them makes a text that is not the one the CRC field of the frame is for. -/
theorem exists_longStatus (body header : Bytes) (echo : List Bytes) : ∃ which : Bool, ∀ p,
    crcSplit body = some p →
      header ++ joined (itoa10 (longStatus which).1 :: echo) ≠ stored p.1 := by
  by_contra hboth
  push Not at hboth
  obtain ⟨p, hp, hp'⟩ := hboth true
  obtain ⟨q, hq, hq'⟩ := hboth false
  obtain rfl := Option.some.inj (hp.symm.trans hq)
  have hsame := List.append_cancel_left (hp'.trans hq'.symm)
  simp only [joined_cons, List.cons_append, List.cons.injEq, true_and] at hsame
  exact absurd (List.append_cancel_right hsame) (by decide +kernel)

/-- Some board and some CRC function make the reply to a request as long as it can be. -/
theorem exists_long_reply (f : InLimits N enqOfCommand body) (hv : verdictOf fw body ≠ some false)
    {needed last : Nat} (hargs : flashArguments body = some (needed, last)) :
    ∃ (b : Board W) (crc16 : Bytes → UInt16), b.ReturnsInts ∧ SameVerdict fw body crc16 ∧
      Answered b (fw.withCrc crc16) body ∧ answerRoom b (fw.withCrc crc16) m body =
        some ((field body).length + (((records body).take last).map (·.length + 1)).sum +
          statusRoom ((records body).length + 1) needed + crcFieldRoom (crcSplit body).isSome + 4) := by
  obtain ⟨which, hwhich⟩ := exists_longStatus body (field body) ((records body).take last)
  obtain ⟨hint, hdigits⟩ := longStatus_spec which
  let b : Board W := refusingBoard ((commandOf body :: records body).getD argFlashPartition [])
    (longStatus which)
  obtain ⟨hlast, work, spec, hstatus⟩ := requestStatus_spec b m hargs fun _ => rfl
  rw [spec.refusing m _ rfl] at hstatus
  have hverdict := fourDigits_verdict fw body
  have hv' : verdictOf (fw.withCrc (fourDigits fw body)) body ≠ some false := by rwa [hverdict]
  refine ⟨b, fourDigits fw body, refusingBoard_returnsInts _ hint, hverdict,
    .inr ⟨by rw [hargs]; rfl, fun _ => rfl⟩, (answerRoom_request hv' hstatus).trans ?_⟩
  refine congrArg some ?_
  rw [replyRoom]
  unfold statusRoom
  simp only
  split
  · -- an argument is missing, so all records are echoed
    have hall : (records body).take last = records body := List.take_of_length_le (by omega)
    have htext : ∀ p, crcSplit body = some p →
        field body ++ joined (itoa10 (-einval) :: (records body).take last) ≠ stored p.1 := by
      rintro ⟨pre, post⟩ hp
      rw [hall]
      exact statusText_ne_stored f.inside hp
    have hthree : (itoa10 (-einval)).length = 3 := by decide
    rw [fourDigits_room htext, hthree]
    omega
  · rw [fourDigits_room hwhich, hdigits]
    omega

end Frames

theorem plainBoard_returnsInts : plainBoard.ReturnsInts where
  openError _ _ _ h := by cases h
  erase _ _ _ _ := by
    show IsInt 0
    decide
  write _ _ _ _ := by
    show IsInt 0
    decide

/-- `erase` without arguments leaves room for every reply. -/
theorem erase_leavesRoom : LeavesRoom (image (W := Unit) (X := FlashCall) [] []) (ascii "erase") where
  mismatch h := absurd h (by decide)
  request _ needed last h := by
    have hargs : flashArguments (ascii "erase") = some (argEraseMax, argFlashPartition) := by decide
    obtain ⟨rfl, rfl⟩ := Prod.mk.inj (Option.some.inj (hargs.symm.trans h))
    decide

/-- The handle and the arguments leave room for every reply of the flash command: the
header record, a status, the echoed arguments and a CRC field. -/
def FlashRoom (h : HupHandle N) (argc : Nat) (argv : List Bytes) : Prop :=
  h.header.length +
    ((echoed argc argv argFlashPartition argFlashLength).map (·.length + 1)).sum +
      statusRoom argc argFlashMax + crcFieldRoom h.crc16.isSome + 4 ≤ N

instance (h : HupHandle N) (argc : Nat) (argv : List Bytes) : Decidable (FlashRoom h argc argv) :=
  inferInstanceAs (Decidable (_ ≤ N))

/-- The flash command is sound, and neither what it decodes nor what it answers runs past
`tx_buffer`, so that the answer is sent as it is. -/
structure FlashKept (b : Board W) (m : Machine N W FlashCall) (argc : Nat) (argv : List Bytes)
    (new : List (Event FlashCall)) : Prop extends FlashSound b m argc argv new where
  scratch : argFlashMax ≤ argc → ∀ i ∈ (flashDecoded argv).stores, i < N
  fits : RepliesFit N new

/-- The flash command sends one reply, and its room is the one `FlashRoom` bounds. -/
theorem flash_fits_iff (b : Board W) (fw : Firmware N W FlashCall) (m : Machine N W FlashCall)
    (argc : Nat) (argv : List Bytes) : RepliesFit N (since m (flash b fw m argc argv)) ↔
      replyRoom fw m.handle.crc16.isSome m.handle.header (flashChunk b m argc argv).2.1
        (echoed argc argv argFlashPartition argFlashLength) ≤ N := by
  have hsends := answerRequest_sends b fw (flashChunk_operates b m argc argv) argc argv
    argFlashPartition argFlashLength
  have hanswered : AnsweredBy (since m (flash b fw m argc argv)) _ :=
    hsends.answeredBy (List.append_nil m.log).symm (by simp) rfl
  rw [hanswered.fits_iff, ← reply_length fw _ (if (flashChunk b m argc argv).2.1 = 0 then
    ackOfResponse else nakOfResponse), requestReply, replyStart]
  simp [joined]

end Sdkz.Hu
