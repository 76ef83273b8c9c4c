import Sdkz.Hu.Outcome

/-! # Bodies put together from texts

A plain text has no NUL and no control byte of the format. Texts joined by record
marks are read back as records, whatever the texts are. -/

namespace Sdkz.Hu
open Sdkz.Base

/-- Texts as records: a record mark in front of each. -/
def joined (ts : List Bytes) : Bytes := ts.flatMap (recordMark :: ·)

/-- A byte that is neither NUL nor a control byte of the format. -/
def isPlain (b : UInt8) : Bool := isBody b && !endsText b

def PlainText (s : Bytes) : Prop := ∀ b ∈ s, isPlain b = true

instance (s : Bytes) : Decidable (PlainText s) :=
  decidable_of_iff (s.all isPlain = true) List.all_eq_true

theorem PlainText.body {s : Bytes} (h : PlainText s) {b : UInt8} (hb : b ∈ s) : isBody b = true :=
  (Bool.and_eq_true_iff.mp (h b hb)).1

theorem PlainText.ends {s : Bytes} (h : PlainText s) {b : UInt8} (hb : b ∈ s) :
    endsText b = false := by
  simpa using (Bool.and_eq_true_iff.mp (h b hb)).2

theorem PlainText.append {s t : Bytes} (hs : PlainText s) (ht : PlainText t) :
    PlainText (s ++ t) := fun b hb => (List.mem_append.mp hb).elim (hs b) (ht b)

theorem PlainText.notMem {s : Bytes} (h : PlainText s) {b : UInt8} (hb : endsText b = true) :
    b ∉ s := fun hm => by
  rw [h.ends hm] at hb
  cases hb

theorem plainText_itoa10 (v : Int) : PlainText (itoa10 v) := by
  intro b hb
  have hall : ∀ c : UInt8, (c = 45 ∨ (48 ≤ c ∧ c ≤ 57)) → isPlain c = true :=
    forall_byte (by decide +kernel)
  exact hall b (itoa10_mem hb)

theorem plainText_itoa16 (v : Nat) : PlainText (itoa16 v) := by
  intro b hb
  have hall : ∀ c : UInt8, isHexDigit c = true → isPlain c = true :=
    forall_byte (by decide +kernel)
  exact hall b (itoa16_hex hb)

/-! ## Reading joined texts -/

theorem records_plain_append {a : Bytes} (ha : PlainText a) (s : Bytes) :
    records (a ++ s) = records s := by
  induction a with
  | nil => rfl
  | cons b a ih =>
    have hb : b ≠ recordMark := fun h => ha.notMem (b := recordMark) rfl (by simp [h])
    simp only [List.cons_append, records, hb, if_false]
    exact ih fun c hc => ha c (List.mem_cons_of_mem b hc)

theorem field_plain_joined {a : Bytes} (ha : PlainText a) (ts : List Bytes) :
    field (a ++ joined ts) = a := by
  have hstop : ∀ b ∈ a, (!endsText b) = true := fun b hb => by simp [ha.ends hb]
  cases ts with
  | nil => simpa [joined, field] using takeWhile_all hstop
  | cons t ts => exact takeWhile_append_stop hstop (by decide)

theorem records_joined {ts : List Bytes} (h : ∀ t ∈ ts, PlainText t) :
    records (joined ts) = ts := by
  induction ts with
  | nil => rfl
  | cons t ts ih =>
    have ht := h t (by simp)
    have hj : joined (t :: ts) = recordMark :: (t ++ joined ts) := by simp [joined]
    rw [hj, records, if_pos rfl, field_plain_joined ht, records_plain_append ht,
      ih fun u hu => h u (List.mem_cons_of_mem t hu)]

theorem mem_joined {ts : List Bytes} {b : UInt8} (hb : b ∈ joined ts) :
    b = recordMark ∨ ∃ t ∈ ts, b ∈ t := by
  obtain ⟨t, ht, hb⟩ := List.mem_flatMap.mp hb
  rcases List.mem_cons.mp hb with rfl | hb
  · exact .inl rfl
  · exact .inr ⟨t, ht, hb⟩

theorem count_joined {ts : List Bytes} (h : ∀ t ∈ ts, PlainText t) :
    (joined ts).count recordMark = ts.length := by
  rw [← recordStarts_length 0, ← List.length_map (f := fun p => field ((joined ts).drop (p - 0))),
    ← records_eq, records_joined h]

theorem joined_cons (t : Bytes) (ts : List Bytes) :
    joined (t :: ts) = recordMark :: t ++ joined ts := rfl

theorem joined_append (ts us : List Bytes) : joined (ts ++ us) = joined ts ++ joined us :=
  List.flatMap_append

theorem length_joined (ts : List Bytes) : (joined ts).length = (ts.map (·.length + 1)).sum := by
  induction ts with
  | nil => rfl
  | cons t ts ih =>
    rw [joined_cons, List.length_append, ih, List.map_cons, List.sum_cons, List.length_cons]

/-- A body without NUL and CRC mark is its header and its records. -/
theorem field_joined_records {s : Bytes} (hz : 0 ∉ s) (hc : crcMark ∉ s) :
    field s ++ joined (records s) = s := by
  induction s with
  | nil => rfl
  | cons b s ih =>
    simp only [List.mem_cons, not_or] at hz hc
    have ih := ih hz.2 hc.2
    by_cases hb : b = recordMark
    · have hf : field (b :: s) = [] := by simp [field, hb, endsText]
      rw [hf, records, if_pos hb, joined_cons, List.nil_append, List.cons_append, ih, hb]
    · have he : endsText b = false := by simp [endsText, Ne.symm hz.1, Ne.symm hc.1, hb]
      have hf : field (b :: s) = b :: field s := by simp [field, he]
      rw [hf, records, if_neg hb, List.cons_append, ih]

theorem field_plain {s : Bytes} (h : ∀ b ∈ s, isBody b = true) : PlainText (field s) := by
  intro b hb
  have hne := List.mem_takeWhile_imp hb
  simp only [Bool.not_eq_true'] at hne
  simp [isPlain, h b ((List.takeWhile_sublist _).mem hb), hne]

theorem records_plain {s : Bytes} (h : ∀ b ∈ s, isBody b = true) :
    ∀ t ∈ records s, PlainText t := by
  induction s with
  | nil => simp [records]
  | cons b s ih =>
    have hs : ∀ c ∈ s, isBody c = true := fun c hc => h c (List.mem_cons_of_mem b hc)
    intro t ht
    by_cases hb : b = recordMark
    · rw [records, if_pos hb] at ht
      rcases List.mem_cons.mp ht with rfl | ht
      · exact field_plain hs
      · exact ih hs t ht
    · rw [records, if_neg hb] at ht
      exact ih hs t ht

/-- Behind a CRC mark the records start anew. -/
theorem records_append_crcMark (a post : Bytes) :
    records (a ++ crcMark :: post) = records a ++ records post := by
  induction a with
  | nil =>
    have hne : crcMark ≠ recordMark := by decide
    simp [records, hne]
  | cons b a ih =>
    by_cases hb : b = recordMark
    · simp only [List.cons_append, records, hb, if_true, ih, field_append_crc]
    · simp only [List.cons_append, records, hb, if_false, ih]

/-! ## Headers -/

/-- A header record from its parts. -/
def headerOf (id : Option Bytes) (command : Bytes) (sequence : Option Bytes) : Bytes :=
  id.elim [] (· ++ [idMark]) ++ command ++ sequence.elim [] (sequenceMark :: ·)

/-- The parts of a header keep to the format: no control byte, no second id mark,
and no sequence mark in the command. -/
structure CleanHeader (id : Option Bytes) (command : Bytes) (sequence : Option Bytes) : Prop where
  idClean : ∀ s, id = some s → PlainText s ∧ idMark ∉ s
  commandPlain : PlainText command
  commandMarks : idMark ∉ command ∧ sequenceMark ∉ command
  sequenceClean : ∀ s, sequence = some s → PlainText s ∧ idMark ∉ s

section Header
variable {id sequence : Option Bytes} {command : Bytes}

theorem CleanHeader.plain (c : CleanHeader id command sequence) :
    PlainText (headerOf id command sequence) := by
  have hmark : isPlain idMark = true ∧ isPlain sequenceMark = true := by decide
  refine (PlainText.append ?_ c.commandPlain).append ?_
  · cases id with
    | none => exact fun b hb => by cases hb
    | some s =>
      refine (c.idClean s rfl).1.append fun b hb => ?_
      rw [List.mem_singleton.mp hb]
      exact hmark.1
  · cases sequence with
    | none => exact fun b hb => by cases hb
    | some s =>
      intro b hb
      rcases List.mem_cons.mp hb with rfl | hb
      · exact hmark.2
      · exact (c.sequenceClean s rfl).1 b hb

/-- The id is read back, and what is behind it. -/
theorem CleanHeader.id_parts (c : CleanHeader id command sequence) :
    (if idMark ∈ headerOf id command sequence
      then some (before idMark (headerOf id command sequence)) else none) = id ∧
      afterId (headerOf id command sequence) =
        command ++ sequence.elim [] (sequenceMark :: ·) := by
  have hrest : idMark ∉ command ++ sequence.elim [] (sequenceMark :: ·) := by
    rw [List.mem_append, not_or]
    refine ⟨c.commandMarks.1, ?_⟩
    cases sequence with
    | none => simp
    | some s => simpa +decide using (c.sequenceClean s rfl).2
  rw [headerOf, List.append_assoc, afterId]
  cases id with
  | none =>
    rw [Option.elim_none, List.nil_append, if_neg hrest, if_neg hrest]
    exact ⟨rfl, rfl⟩
  | some s =>
    have hs := (c.idClean s rfl).2
    rw [Option.elim_some, List.append_assoc, List.singleton_append]
    have hm : idMark ∈ s ++ idMark :: (command ++ sequence.elim [] (sequenceMark :: ·)) := by simp
    rw [if_pos hm, if_pos hm, before_append _ hs, behind_append _ hs]
    exact ⟨rfl, rfl⟩

/-- Command and sequence are read back. -/
theorem CleanHeader.command_parts (c : CleanHeader id command sequence) :
    before sequenceMark (afterId (headerOf id command sequence)) = command ∧
      (if sequenceMark ∈ afterId (headerOf id command sequence)
        then some (behind sequenceMark (afterId (headerOf id command sequence))) else none) =
        sequence := by
  have hcmd := c.commandMarks.2
  rw [c.id_parts.2]
  cases sequence with
  | none =>
    rw [Option.elim_none, List.append_nil, if_neg hcmd, before_eq_self hcmd]
    exact ⟨rfl, rfl⟩
  | some s =>
    rw [Option.elim_some, before_append _ hcmd, behind_append _ hcmd, if_pos (by simp)]
    exact ⟨rfl, rfl⟩

end Header

/-! ## Framed texts

A body as a sender puts it together: a header, records, and a CRC field over
both if it wants one. -/

section Framed
variable {N : Nat} {W X : Type} (fw : Firmware N W X) (crc : Bool)

/-- The CRC field of a body, if it gets one. -/
def crcTexts (s : Bytes) : Bytes :=
  if crc then crcMark :: itoa16 (fw.crc16 s).toNat else []

variable {header : Bytes} {ts : List Bytes}

theorem framed_mem (hh : PlainText header) (ht : ∀ t ∈ ts, PlainText t) {b : UInt8}
    (hb : b ∈ header ++ joined ts) : b = recordMark ∨ isPlain b = true := by
  rcases List.mem_append.mp hb with hb | hb
  · exact .inr (hh b hb)
  · rcases mem_joined hb with rfl | ⟨t, hm, hb⟩
    · exact .inl rfl
    · exact .inr (ht t hm b hb)

theorem framed_noCrc (hh : PlainText header) (ht : ∀ t ∈ ts, PlainText t) :
    crcMark ∉ header ++ joined ts := by
  intro hm
  rcases framed_mem hh ht hm with he | hp
  · revert he
    decide
  · revert hp
    decide

theorem crcTexts_mem {s : Bytes} {b : UInt8} (hb : b ∈ crcTexts fw crc s) :
    b = crcMark ∨ isPlain b = true := by
  unfold crcTexts at hb
  split at hb
  · exact (List.mem_cons.mp hb).imp id (plainText_itoa16 _ b)
  · cases hb

/-- The texts of a body, whether or not a CRC field follows. -/
theorem framed_texts (hh : PlainText header) (ht : ∀ t ∈ ts, PlainText t) :
    field (header ++ joined ts ++ crcTexts fw crc (header ++ joined ts)) = header ∧
      records (header ++ joined ts ++ crcTexts fw crc (header ++ joined ts)) = ts := by
  have hfield : field (header ++ joined ts) = header := field_plain_joined hh ts
  have hrecords : records (header ++ joined ts) = ts := by
    rw [records_plain_append hh, records_joined ht]
  cases crc with
  | false => simpa [crcTexts] using ⟨hfield, hrecords⟩
  | true =>
    simp only [crcTexts, if_true]
    rw [field_append_crc, records_append_crc ((plainText_itoa16 _).notMem rfl)]
    exact ⟨hfield, hrecords⟩

theorem framed_crcSplit (hh : PlainText header) (ht : ∀ t ∈ ts, PlainText t) :
    crcSplit (header ++ joined ts ++ crcTexts fw crc (header ++ joined ts)) =
      if crc then some (header ++ joined ts, itoa16 (fw.crc16 (header ++ joined ts)).toNat)
      else none := by
  have hno := framed_noCrc hh ht
  generalize header ++ joined ts = s at hno
  cases crc with
  | false => simpa [crcTexts] using crcSplit_of_notMem hno
  | true =>
    simp only [crcTexts, if_true]
    have hpost : crcMark ∉ itoa16 (fw.crc16 s).toNat := (plainText_itoa16 _).notMem rfl
    have hcount : (s ++ crcMark :: itoa16 (fw.crc16 s).toNat).count crcMark ≤ 1 := by
      rw [List.count_append, List.count_cons_self, List.count_eq_zero.mpr hno,
        List.count_eq_zero.mpr hpost]
    rw [crcSplit_of_mem hcount (by simp), before_append _ hno, behind_append _ hno]

/-- The CRC check passes on the other side, with the same CRC function. -/
theorem framed_verdict {W' X' : Type} (fw' : Firmware N W' X') (hfn : fw'.crc16 = fw.crc16)
    (hh : PlainText header) (ht : ∀ t ∈ ts, PlainText t) :
    verdictOf fw' (header ++ joined ts ++ crcTexts fw crc (header ++ joined ts)) =
      if crc then some true else none := by
  rw [verdictOf, framed_crcSplit fw crc hh ht]
  have hno := framed_noCrc hh ht
  generalize header ++ joined ts = s at hno
  cases crc with
  | false => rfl
  | true =>
    have hstored : stored s = s := by
      refine map_eq_self fun b hb => if_neg ?_
      rintro rfl
      exact hno hb
    have hz : (itoa16 (fw.crc16 s).toNat).takeWhile (· != 0) = itoa16 (fw.crc16 s).toNat :=
      takeWhile_all fun b hb => by
        simpa using fun he : b = 0 => (plainText_itoa16 _).notMem (b := 0) rfl (he ▸ hb)
    have hlt := (fw.crc16 s).toNat_lt
    simp only [if_true, Option.map_some, crcAccepts, hstored, hz, hfn]
    rw [strtoul_itoa16 (by omega)]
    simp

/-- A body of framed texts that fits the buffer is within the limits. -/
theorem framed_inLimits {start : UInt8} (hstart : isStartMark start = true)
    (hh : PlainText header) (ht : ∀ t ∈ ts, PlainText t) (hlen : ts.length ≤ 63)
    (hfits : (header ++ joined ts ++ crcTexts fw crc (header ++ joined ts)).length < N) :
    InLimits N start (header ++ joined ts ++ crcTexts fw crc (header ++ joined ts)) := by
  have hmarks : isBody recordMark = true ∧ isBody crcMark = true := by decide
  have hzero : (crcTexts fw crc (header ++ joined ts)).count recordMark = 0 :=
    List.count_eq_zero.mpr fun hm => by
      rcases crcTexts_mem fw crc hm with he | hp
      · revert he
        decide
      · revert hp
        decide
  have hheader : header.count recordMark = 0 := List.count_eq_zero.mpr (hh.notMem rfl)
  refine ⟨hstart, fun b hb => ?_, hfits, ?_⟩
  · rcases List.mem_append.mp hb with hb | hb
    · rcases framed_mem hh ht hb with rfl | hp
      · exact hmarks.1
      · exact (Bool.and_eq_true_iff.mp hp).1
    · rcases crcTexts_mem fw crc hb with rfl | hp
      · exact hmarks.2
      · exact (Bool.and_eq_true_iff.mp hp).1
  · rw [List.count_append, List.count_append, hzero, hheader, count_joined ht]
    omega

end Framed

end Sdkz.Hu
