import Mathlib.Data.List.TakeWhile

/-! # NUL-terminated strings inside a byte buffer

A C string is a position in a buffer: its text runs up to the first NUL. Code
that stores a NUL over a separator cuts one string in two in place. The lemmas
say what such a store does to the string it cuts, to the string that starts
behind it and to every string that does not contain the position. -/

namespace Sdkz.Base

abbrev Bytes := List UInt8

/-- The bytes of a text written as a string literal (ASCII only). -/
def ascii (s : String) : Bytes := s.toList.map fun c => c.toNat.toUInt8

/-- The text of the C string at offset `off`. -/
def cstr (buf : Bytes) (off : Nat) : Bytes := (buf.drop off).takeWhile (· != 0)

/-- `strchr`: the offset of the first `ch` in the string at `off`. -/
def strchr (buf : Bytes) (off : Nat) (ch : UInt8) : Option Nat :=
  if ch ∈ cstr buf off then some (off + ((cstr buf off).takeWhile (· != ch)).length) else none

/-! ## Prefixes under a store -/

section TakeWhile
variable {α : Type} {p : α → Bool}

theorem takeWhile_set_stop {l : List α} {k : Nat} {v : α} (hv : p v = false)
    (hk : k ≤ (l.takeWhile p).length) : (l.set k v).takeWhile p = (l.takeWhile p).take k := by
  induction l generalizing k with
  | nil => simp
  | cons a l ih =>
    by_cases ha : p a = true
    · cases k with
      | zero => simp [hv]
      | succ k =>
        simp only [List.takeWhile_cons, ha, if_true, List.length_cons] at hk
        simp [ha, ih (Nat.le_of_succ_le_succ hk)]
    · have hk0 : k = 0 := by simpa [ha] using hk
      subst hk0
      simp [hv]

theorem takeWhile_set_beyond {l : List α} {k : Nat} {v : α}
    (hk : (l.takeWhile p).length < k) : (l.set k v).takeWhile p = l.takeWhile p := by
  induction l generalizing k with
  | nil => simp
  | cons a l ih =>
    obtain ⟨k, rfl⟩ : ∃ j, k = j + 1 := ⟨k - 1, by omega⟩
    by_cases ha : p a = true
    · simp only [List.takeWhile_cons, ha, if_true, List.length_cons] at hk
      simp [ha, ih (Nat.lt_of_succ_lt_succ hk)]
    · simp [ha]

theorem takeWhile_drop {l : List α} {k : Nat} (hk : k ≤ (l.takeWhile p).length) :
    (l.drop k).takeWhile p = (l.takeWhile p).drop k := by
  induction l generalizing k with
  | nil => simp
  | cons a l ih =>
    cases k with
    | zero => rfl
    | succ k =>
      by_cases ha : p a = true
      · simp only [List.takeWhile_cons, ha, if_true, List.length_cons] at hk
        simp [ha, ih (Nat.le_of_succ_le_succ hk)]
      · simp [ha] at hk

/-- A list that contains a stopping element splits there. -/
theorem takeWhile_append_stop {l r : List α} {a : α} (hl : ∀ x ∈ l, p x = true)
    (ha : p a = false) : (l ++ a :: r).takeWhile p = l := by
  induction l with
  | nil => simp [ha]
  | cons b l ih =>
    simp [hl b (by simp), ih fun x hx => hl x (by simp [hx])]

theorem takeWhile_all {l : List α} (hl : ∀ x ∈ l, p x = true) : l.takeWhile p = l :=
  List.takeWhile_eq_self_iff.mpr hl

theorem takeWhile_append_left {l r : List α} (h : ∃ x ∈ l, p x = false) :
    (l ++ r).takeWhile p = l.takeWhile p := by
  induction l with
  | nil => simp at h
  | cons b l ih =>
    by_cases hb : p b = true
    · obtain ⟨x, hx, hpx⟩ := h
      have hx' : x ∈ l := by
        rcases List.mem_cons.mp hx with rfl | hx
        · simp [hb] at hpx
        · exact hx
      simp [hb, ih ⟨x, hx', hpx⟩]
    · simp [hb]

theorem takeWhile_congr {p q : α → Bool} {l : List α} (h : ∀ x ∈ l, p x = q x) :
    l.takeWhile p = l.takeWhile q := by
  induction l with
  | nil => rfl
  | cons x l ih =>
    have ih := ih fun y hy => h y (List.mem_cons_of_mem x hy)
    rw [List.takeWhile_cons, List.takeWhile_cons, h x (by simp), ih]

/-- A map that fixes every element fixes the list. -/
theorem map_eq_self {f : α → α} {l : List α} (h : ∀ x ∈ l, f x = x) : l.map f = l := by
  induction l with
  | nil => rfl
  | cons b l ih => simp [h b (by simp), ih fun x hx => h x (by simp [hx])]

end TakeWhile

/-! ## Splitting a text at a separator -/

/-- The text before the first `ch`. -/
def before (ch : UInt8) (s : Bytes) : Bytes := s.takeWhile (· != ch)

/-- The text behind the first `ch`, empty if there is none. -/
def behind (ch : UInt8) (s : Bytes) : Bytes := s.drop ((before ch s).length + 1)

theorem before_length_lt {ch : UInt8} {s : Bytes} (h : ch ∈ s) :
    (before ch s).length < s.length := by
  induction s with
  | nil => simp at h
  | cons a s ih =>
    by_cases ha : a = ch
    · simp [before, ha]
    · have := ih ((List.mem_cons.mp h).resolve_left (Ne.symm ha))
      simpa [before, ha] using this

theorem before_prefix (ch : UInt8) (s : Bytes) : s.take (before ch s).length = before ch s :=
  List.prefix_iff_eq_take.mp (List.takeWhile_prefix _) |>.symm

theorem not_mem_before (ch : UInt8) (s : Bytes) : ch ∉ before ch s := fun h => by
  simpa using List.mem_takeWhile_imp h

theorem split_at_first {ch : UInt8} {s : Bytes} (h : ch ∈ s) :
    before ch s ++ ch :: behind ch s = s := by
  induction s with
  | nil => simp at h
  | cons a s ih =>
    by_cases ha : a = ch
    · simp [before, behind, ha]
    · have := ih ((List.mem_cons.mp h).resolve_left (Ne.symm ha))
      simpa [before, behind, ha] using this

theorem before_eq_self {ch : UInt8} {s : Bytes} (h : ch ∉ s) : before ch s = s :=
  takeWhile_all fun x hx => by simpa using fun he : x = ch => h (he ▸ hx)

theorem before_append {ch : UInt8} {a : Bytes} (b : Bytes) (h : ch ∉ a) :
    before ch (a ++ ch :: b) = a :=
  takeWhile_append_stop (fun x hx => by simpa using fun he : x = ch => h (he ▸ hx)) (by simp)

theorem behind_append {ch : UInt8} {a : Bytes} (b : Bytes) (h : ch ∉ a) :
    behind ch (a ++ ch :: b) = b := by
  simp [behind, before_append b h]

/-! ## Strings of a buffer under a store -/

/-- Only the bytes up to the first NUL behind `off` matter. -/
theorem cstr_of_terminated {xs ys : Bytes} {off : Nat} (h : off ≤ xs.length) :
    cstr (xs ++ 0 :: ys) off = (xs.drop off).takeWhile (· != 0) := by
  rw [cstr, List.drop_append_of_le_length h]
  by_cases hz : ∃ x ∈ xs.drop off, (x != 0) = false
  · exact takeWhile_append_left hz
  · have hall : ∀ x ∈ xs.drop off, (x != 0) = true := by
      intro x hx
      by_contra hne
      exact hz ⟨x, hx, by simpa using hne⟩
    rw [takeWhile_append_stop hall (by simp), takeWhile_all hall]

theorem cstr_set_before {buf : Bytes} {off i : Nat} {v : UInt8} (h : i < off) :
    cstr (buf.set i v) off = cstr buf off := by
  simp [cstr, List.drop_set, h]

theorem cstr_set_beyond {buf : Bytes} {off i : Nat} {v : UInt8}
    (h : off + (cstr buf off).length < i) : cstr (buf.set i v) off = cstr buf off := by
  have hi : ¬ i < off := by omega
  simp only [cstr, List.drop_set, hi, if_false]
  exact takeWhile_set_beyond (by simp only [cstr] at h; omega)

/-- Storing a NUL inside the string cuts it there. -/
theorem cstr_set_cut {buf : Bytes} {off i : Nat} (ho : off ≤ i)
    (h : i ≤ off + (cstr buf off).length) :
    cstr (buf.set i 0) off = (cstr buf off).take (i - off) := by
  have hi : ¬ i < off := by omega
  simp only [cstr, List.drop_set, hi, if_false]
  exact takeWhile_set_stop (by simp) (by simp only [cstr] at h; omega)

/-- A pointer into the string reads the rest of it. -/
theorem cstr_suffix {buf : Bytes} {off k : Nat} (h : k ≤ (cstr buf off).length) :
    cstr buf (off + k) = (cstr buf off).drop k := by
  rw [cstr, ← List.drop_drop]
  exact takeWhile_drop h

theorem strchr_eq_some {buf : Bytes} {off tmp : Nat} {ch : UInt8}
    (h : strchr buf off ch = some tmp) :
    ch ∈ cstr buf off ∧ tmp = off + (before ch (cstr buf off)).length := by
  unfold strchr at h
  split at h
  · exact ⟨‹_›, (Option.some.inj h).symm⟩
  · cases h

theorem strchr_eq_none {buf : Bytes} {off : Nat} {ch : UInt8}
    (h : strchr buf off ch = none) : ch ∉ cstr buf off := by
  unfold strchr at h
  split at h
  · cases h
  · assumption

/-- What `strchr` and a NUL stored at its result do to the string: the text
before the separator stays at `off`, the text behind it starts one further. -/
theorem cstr_split_at {buf : Bytes} {off tmp : Nat} {ch : UInt8}
    (h : strchr buf off ch = some tmp) :
    cstr (buf.set tmp 0) off = before ch (cstr buf off) ∧
      cstr (buf.set tmp 0) (tmp + 1) = behind ch (cstr buf off) := by
  obtain ⟨hm, ht⟩ := strchr_eq_some h
  have hlt := before_length_lt hm
  constructor
  · rw [cstr_set_cut (by omega) (by omega), ht, Nat.add_sub_cancel_left, before_prefix]
  · rw [cstr_set_before (by omega), ht, Nat.add_assoc, cstr_suffix (by omega)]
    rfl

end Sdkz.Base
