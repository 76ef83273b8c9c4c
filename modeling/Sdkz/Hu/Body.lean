import Sdkz.Hu.Packet

/-! # The texts of a frame body

A frame is a start mark, a body without start and end marks, and `endOfPacket`.
The body is cut into texts by record marks, by CRC marks and by NUL: the header
comes first, a record behind each record mark, the CRC field behind the last CRC
mark. `packetOf` is the packet of a body; nothing here knows the parser. -/

namespace Sdkz.Hu
open Sdkz.Base

/-- A text ends at a NUL and at the marks the parser replaces by one. -/
def endsText (b : UInt8) : Bool := b == 0 || b == crcMark || b == recordMark

def field (s : Bytes) : Bytes := s.takeWhile (!endsText ·)

/-- The records of a body: the text behind each record mark. -/
def records : Bytes → List Bytes
  | [] => []
  | b :: s => if b = recordMark then field s :: records s else records s

/-- The offsets behind the record marks of a body that starts at `i`. -/
def recordStarts : Nat → Bytes → List Nat
  | _, [] => []
  | i, b :: s => if b = recordMark then (i + 1) :: recordStarts (i + 1) s else recordStarts (i + 1) s

/-- The bytes before and behind the last CRC mark. -/
def crcSplit : Bytes → Option (Bytes × Bytes)
  | [] => none
  | b :: s => match crcSplit s with
    | some (pre, post) => some (b :: pre, post)
    | none => if b = crcMark then some ([], s) else none

/-- The offset of the CRC field. -/
def crcStart (body : Bytes) : Option Nat := (crcSplit body).map fun s => s.1.length + 1

/-- A body as it lies in the buffer while it is received. -/
def stored (body : Bytes) : Bytes := body.map fun b => if b = crcMark then 0 else b

/-- A body as it lies in the buffer when the handlers see it. -/
def cleared (body : Bytes) : Bytes := body.map fun b => if endsText b then 0 else b

/-- The header without its id. -/
def afterId (header : Bytes) : Bytes := if idMark ∈ header then behind idMark header else header

/-- The name the tables are searched for. -/
def commandOf (body : Bytes) : Bytes := before sequenceMark (afterId (field body))

/-- The packet of a body. -/
def packetOf (start : UInt8) (body : Bytes) : Packet where
  response := start != enqOfCommand
  id := if idMark ∈ field body then some (before idMark (field body)) else none
  argv := commandOf body :: records body
  sequence := if sequenceMark ∈ afterId (field body) then
    some (behind sequenceMark (afterId (field body))) else none
  crc16 := (crcSplit body).map fun s => field s.2

/-- The bytes of a frame. -/
def frame (start : UInt8) (body : Bytes) : Bytes := start :: body ++ [endOfPacket]

theorem recordStarts_append (i : Nat) (s : Bytes) (b : UInt8) :
    recordStarts i (s ++ [b]) =
      recordStarts i s ++ if b = recordMark then [i + s.length + 1] else [] := by
  induction s generalizing i with
  | nil => by_cases hb : b = recordMark <;> simp [recordStarts, hb]
  | cons c s ih =>
    have hl : i + 1 + s.length = i + (s.length + 1) := by omega
    by_cases hc : c = recordMark <;> simp [recordStarts, hc, ih, hl]

theorem recordStarts_length (i : Nat) (s : Bytes) :
    (recordStarts i s).length = s.count recordMark := by
  induction s generalizing i with
  | nil => rfl
  | cons c s ih => by_cases hc : c = recordMark <;> simp [recordStarts, hc, ih]

theorem crcSplit_append (s : Bytes) (b : UInt8) :
    crcSplit (s ++ [b]) = if b = crcMark then some (s, [])
      else (crcSplit s).map fun p => (p.1, p.2 ++ [b]) := by
  induction s with
  | nil => by_cases hb : b = crcMark <;> simp [crcSplit, hb]
  | cons c s ih =>
    simp only [List.cons_append, crcSplit, ih]
    by_cases hb : b = crcMark
    · simp [hb]
    · simp only [hb, if_false]
      cases crcSplit s with
      | none => by_cases hc : c = crcMark <;> simp [hc]
      | some p => simp

theorem crcStart_append (s : Bytes) (b : UInt8) :
    crcStart (s ++ [b]) = if b = crcMark then some (s.length + 1) else crcStart s := by
  unfold crcStart
  rw [crcSplit_append]
  by_cases hb : b = crcMark
  · simp [hb]
  · simp only [hb, if_false, Option.map_map]
    rfl

theorem crcSplit_eq_none {s : Bytes} (h : crcSplit s = none) : crcMark ∉ s := by
  induction s with
  | nil => simp
  | cons c s ih =>
    simp only [crcSplit] at h
    cases hs : crcSplit s with
    | some p => simp [hs] at h
    | none =>
      simp only [hs] at h
      split at h
      · cases h
      · rename_i hc
        simpa using ⟨Ne.symm hc, ih hs⟩

theorem crcSplit_eq {s pre post : Bytes} (h : crcSplit s = some (pre, post)) :
    s = pre ++ crcMark :: post ∧ crcMark ∉ post := by
  induction s generalizing pre post with
  | nil => simp [crcSplit] at h
  | cons c s ih =>
    simp only [crcSplit] at h
    cases hs : crcSplit s with
    | some p =>
      obtain ⟨p, q⟩ := p
      simp only [hs, Option.some.injEq, Prod.mk.injEq] at h
      obtain ⟨rfl, rfl⟩ := h
      obtain ⟨he, hn⟩ := ih hs
      exact ⟨by simp [he], hn⟩
    | none =>
      simp only [hs] at h
      split at h
      · rename_i hc
        simp only [Option.some.injEq, Prod.mk.injEq] at h
        obtain ⟨rfl, rfl⟩ := h
        exact ⟨by simp [hc], crcSplit_eq_none hs⟩
      · cases h

/-- The text at an offset of a cleared body. -/
theorem cstr_cleared {body rest : Bytes} {p : Nat} (hp : p ≤ body.length) :
    cstr (cleared body ++ 0 :: rest) p = field (body.drop p) := by
  have hlen : p ≤ (cleared body).length := by simpa [cleared] using hp
  rw [cstr_of_terminated hlen, cleared, ← List.map_drop, List.takeWhile_map]
  have hpred : ((· != (0 : UInt8)) ∘ fun b => if endsText b = true then 0 else b) =
      (!endsText ·) := by
    funext b
    by_cases hb : endsText b = true
    · simp [hb]
    · have : b ≠ 0 := fun h0 => hb (by simp [endsText, h0])
      simp [hb, this]
  rw [hpred]
  refine map_eq_self fun b hb => ?_
  have := List.mem_takeWhile_imp hb
  simp only [Bool.not_eq_true'] at this
  simp [this]

/-- A record starts behind the header text. -/
theorem field_lt_recordStarts {s : Bytes} {i p : Nat} (hp : p ∈ recordStarts i s) :
    i + (field s).length < p ∧ p ≤ i + s.length := by
  induction s generalizing i with
  | nil => simp [recordStarts] at hp
  | cons b s ih =>
    by_cases hb : b = recordMark
    · simp only [recordStarts, hb, if_true, List.mem_cons] at hp
      have hf : field (b :: s) = [] := by simp [field, hb, endsText]
      rw [hf]
      rcases hp with rfl | hp
      · simp
      · have := ih hp
        simp only [List.length_nil, List.length_cons]
        omega
    · simp only [recordStarts, hb, if_false] at hp
      obtain ⟨h1, h2⟩ := ih hp
      have hf : (field (b :: s)).length ≤ (field s).length + 1 := by
        simp only [field, List.takeWhile_cons]
        split <;> simp
      simp only [List.length_cons]
      omega

/-- A CRC mark ends the text in front of it. -/
theorem field_append_crc (a post : Bytes) : field (a ++ crcMark :: post) = field a := by
  unfold field
  by_cases hz : ∃ x ∈ a, (!endsText x) = false
  · exact takeWhile_append_left hz
  · have hall : ∀ x ∈ a, (!endsText x) = true := by
      intro x hx
      by_contra hne
      exact hz ⟨x, hx, by simpa using hne⟩
    rw [takeWhile_append_stop hall (by simp [endsText]), takeWhile_all hall]

theorem field_lt_crcSplit {s pre post : Bytes} (h : crcSplit s = some (pre, post)) :
    (field s).length ≤ pre.length := by
  obtain ⟨rfl, -⟩ := crcSplit_eq h
  rw [field_append_crc]
  exact (List.takeWhile_prefix _).length_le

theorem records_eq (i : Nat) (s : Bytes) :
    records s = (recordStarts i s).map fun p => field (s.drop (p - i)) := by
  induction s generalizing i with
  | nil => rfl
  | cons b s ih =>
    have hshift : (recordStarts (i + 1) s).map (fun p => field (s.drop (p - (i + 1)))) =
        (recordStarts (i + 1) s).map fun p => field ((b :: s).drop (p - i)) := by
      refine List.map_congr_left fun p hp => ?_
      have := (field_lt_recordStarts hp).1
      rw [show p - i = p - (i + 1) + 1 by omega, List.drop_succ_cons]
    by_cases hb : b = recordMark
    · simp only [records, recordStarts, hb, if_true, List.map_cons, Nat.add_sub_cancel_left]
      rw [ih (i + 1), hshift, hb]
      rfl
    · simp only [records, recordStarts, hb, if_false]
      rw [ih (i + 1), hshift]

theorem field_eq_self {s : Bytes} (h : ∀ b ∈ s, endsText b = false) : field s = s :=
  takeWhile_all fun b hb => by simp [h b hb]

theorem records_eq_nil {s : Bytes} (h : recordMark ∉ s) : records s = [] := by
  induction s with
  | nil => rfl
  | cons b s ih =>
    simp only [List.mem_cons, not_or] at h
    simp [records, Ne.symm h.1, ih h.2]

theorem records_append_crc {a post : Bytes} (h : recordMark ∉ post) :
    records (a ++ crcMark :: post) = records a := by
  induction a with
  | nil => simp +decide [records, records_eq_nil h]
  | cons b a ih =>
    by_cases hb : b = recordMark
    · simp only [List.cons_append, records, hb, if_true, ih, field_append_crc]
    · simp only [List.cons_append, records, hb, if_false, ih]

theorem crcSplit_of_notMem {s : Bytes} (h : crcMark ∉ s) : crcSplit s = none := by
  cases hs : crcSplit s with
  | none => rfl
  | some p => exact absurd ((crcSplit_eq hs).1 ▸ by simp) h

/-- With one CRC mark, the last one is the first one. -/
theorem crcSplit_of_mem {s : Bytes} (hone : s.count crcMark ≤ 1) (h : crcMark ∈ s) :
    crcSplit s = some (before crcMark s, behind crcMark s) := by
  cases hs : crcSplit s with
  | none => exact absurd h (crcSplit_eq_none hs)
  | some p =>
    obtain ⟨pre, post⟩ := p
    obtain ⟨he, -⟩ := crcSplit_eq hs
    have hpre : crcMark ∉ pre := by
      intro hm
      have := List.count_pos_iff.mpr hm
      rw [he, List.count_append, List.count_cons_self] at hone
      omega
    rw [he, before_append post hpre, behind_append post hpre]

end Sdkz.Hu
