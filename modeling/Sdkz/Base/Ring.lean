import Mathlib.Data.Nat.ModEq
import Mathlib.Logic.Function.Basic

/-! # A ring buffer with claims

The four positions count bytes since the start and never wrap; the byte at a
position lies in the cell of its remainder. A claim moves a head ahead of its
tail over cells that lie side by side. The matching finish moves the tail by as
much as it is told and takes the head back to it. `Holds` says which stream the
ring carries: the positions between `getTail` and `putTail` hold its bytes. -/

namespace Sdkz.Base

/-- The state of a ring of `size` cells. -/
structure Ring (α : Type) (size : Nat) where
  buffer : Nat → α
  putHead : Nat
  putTail : Nat
  getHead : Nat
  getTail : Nat
  getTail_le : getTail ≤ getHead
  getHead_le : getHead ≤ putTail
  putTail_le : putTail ≤ putHead
  putHead_le : putHead ≤ getTail + size

namespace Ring
variable {α : Type} {size : Nat}

/-- An empty ring over any memory. -/
def init (size : Nat) (buffer : Nat → α) : Ring α size where
  buffer := buffer
  putHead := 0
  putTail := 0
  getHead := 0
  getTail := 0
  getTail_le := Nat.le_refl 0
  getHead_le := Nat.le_refl 0
  putTail_le := Nat.le_refl 0
  putHead_le := Nat.zero_le _

def spaceGet (r : Ring α size) : Nat := size - (r.putHead - r.getTail)

def sizeGet (r : Ring α size) : Nat := r.putTail - r.getHead

def isEmpty (r : Ring α size) : Bool := r.getHead == r.putTail

/-- How much of `n` a claim gets: what is free, as far as the cells go on. -/
def putClaimed (r : Ring α size) (n : Nat) : Nat :=
  min (min n r.spaceGet) (size - r.putHead % size)

def putClaim (r : Ring α size) (n : Nat) : Ring α size where
  buffer := r.buffer
  putHead := r.putHead + r.putClaimed n
  putTail := r.putTail
  getHead := r.getHead
  getTail := r.getTail
  getTail_le := r.getTail_le
  getHead_le := r.getHead_le
  putTail_le := Nat.le_trans r.putTail_le (Nat.le_add_right _ _)
  putHead_le := by
    have := r.putHead_le
    have hspace : r.putClaimed n ≤ r.spaceGet :=
      Nat.le_trans (Nat.min_le_left _ _) (Nat.min_le_right _ _)
    unfold spaceGet at hspace
    have := r.getTail_le
    have := r.getHead_le
    have := r.putTail_le
    omega

/-- `none` is the error for more than was claimed. -/
def putFinish (r : Ring α size) (n : Nat) : Option (Ring α size) :=
  if h : n ≤ r.putHead - r.putTail then
    some
      { r with
        putHead := r.putTail + n
        putTail := r.putTail + n
        getHead_le := Nat.le_trans r.getHead_le (Nat.le_add_right _ _)
        putTail_le := Nat.le_refl _
        putHead_le := by
          have := r.putHead_le
          have := r.putTail_le
          omega }
  else none

def getClaimed (r : Ring α size) (n : Nat) : Nat :=
  min (min n r.sizeGet) (size - r.getHead % size)

def getClaim (r : Ring α size) (n : Nat) : Ring α size where
  buffer := r.buffer
  putHead := r.putHead
  putTail := r.putTail
  getHead := r.getHead + r.getClaimed n
  getTail := r.getTail
  getTail_le := Nat.le_trans r.getTail_le (Nat.le_add_right _ _)
  getHead_le := by
    have hsize : r.getClaimed n ≤ r.sizeGet :=
      Nat.le_trans (Nat.min_le_left _ _) (Nat.min_le_right _ _)
    have := r.getHead_le
    unfold sizeGet at hsize
    omega
  putTail_le := r.putTail_le
  putHead_le := r.putHead_le

def getFinish (r : Ring α size) (n : Nat) : Option (Ring α size) :=
  if h : n ≤ r.getHead - r.getTail then
    some
      { r with
        getHead := r.getTail + n
        getTail := r.getTail + n
        getTail_le := Nat.le_refl _
        getHead_le := by
          have := r.getHead_le
          have := r.getTail_le
          omega
        putHead_le := by
          have := r.putHead_le
          omega }
  else none

/-- What lies at the positions from `pos` on. -/
def bytesAt (r : Ring α size) (pos n : Nat) : List α :=
  (List.range' pos n).map fun p => r.buffer (p % size)

/-- Memory with `xs` written at the positions from `pos` on. -/
def writeAt (size : Nat) (buffer : Nat → α) (pos : Nat) : List α → Nat → α
  | [] => buffer
  | x :: xs => writeAt size (Function.update buffer (pos % size) x) (pos + 1) xs

def write (r : Ring α size) (pos : Nat) (xs : List α) : Ring α size :=
  { r with buffer := writeAt size r.buffer pos xs }

/-- How much of `n` a put copies: what is free. -/
def putCount (r : Ring α size) (n : Nat) : Nat := min n r.spaceGet

/-- `ring_buf_put`: claims, copies and one finish. -/
def put (r : Ring α size) (xs : List α) : Ring α size where
  buffer := writeAt size r.buffer r.putHead (xs.take (r.putCount xs.length))
  putHead := r.putTail + r.putCount xs.length
  putTail := r.putTail + r.putCount xs.length
  getHead := r.getHead
  getTail := r.getTail
  getTail_le := r.getTail_le
  getHead_le := Nat.le_trans r.getHead_le (Nat.le_add_right _ _)
  putTail_le := Nat.le_refl _
  putHead_le := by
    have hspace : r.putCount xs.length ≤ r.spaceGet := Nat.min_le_right _ _
    unfold spaceGet at hspace
    have := r.getTail_le
    have := r.getHead_le
    have := r.putTail_le
    have := r.putHead_le
    omega

def getCount (r : Ring α size) (n : Nat) : Nat := min n r.sizeGet

/-- The bytes `ring_buf_get` copies. -/
def got (r : Ring α size) (n : Nat) : List α := r.bytesAt r.getHead (r.getCount n)

/-- The ring behind `ring_buf_get`. -/
def get (r : Ring α size) (n : Nat) : Ring α size where
  buffer := r.buffer
  putHead := r.putHead
  putTail := r.putTail
  getHead := r.getTail + r.getCount n
  getTail := r.getTail + r.getCount n
  getTail_le := Nat.le_refl _
  getHead_le := by
    have hsize : r.getCount n ≤ r.sizeGet := Nat.min_le_right _ _
    have := r.getTail_le
    have := r.getHead_le
    unfold sizeGet at hsize
    omega
  putTail_le := r.putTail_le
  putHead_le := by
    have := r.putHead_le
    omega

/-- The bytes that were put and not yet released. -/
def content (r : Ring α size) : List α := r.bytesAt r.getTail (r.putTail - r.getTail)

theorem putClaim_putHead (r : Ring α size) (n : Nat) :
    (r.putClaim n).putHead = r.putHead + r.putClaimed n := rfl

theorem getClaim_getHead (r : Ring α size) (n : Nat) :
    (r.getClaim n).getHead = r.getHead + r.getClaimed n := rfl

theorem content_eq_nil {r : Ring α size} : r.content = [] ↔ r.putTail ≤ r.getTail := by
  rw [content, bytesAt, List.map_eq_nil_iff, List.range'_eq_nil_iff, Nat.sub_eq_zero_iff_le]

/-- A claim gets something exactly if there is something to get. -/
theorem getClaimed_pos {r : Ring α size} {n : Nat} (hsize : 0 < size) (hn : 0 < n) :
    0 < r.getClaimed n ↔ 0 < r.sizeGet := by
  have hturn := Nat.mod_lt r.getHead hsize
  unfold getClaimed
  omega

theorem putClaimed_pos {r : Ring α size} {n : Nat} (hsize : 0 < size) (hn : 0 < n) :
    0 < r.putClaimed n ↔ 0 < r.spaceGet := by
  have hturn := Nat.mod_lt r.putHead hsize
  unfold putClaimed
  omega

theorem getClaimed_le (r : Ring α size) (n : Nat) : r.getClaimed n ≤ r.sizeGet :=
  Nat.le_trans (Nat.min_le_left _ _) (Nat.min_le_right _ _)

theorem putClaimed_le (r : Ring α size) (n : Nat) : r.putClaimed n ≤ r.spaceGet :=
  Nat.le_trans (Nat.min_le_left _ _) (Nat.min_le_right _ _)

/-! ## Writing -/

theorem writeAt_of_ne {buffer : Nat → α} {pos i : Nat} {xs : List α}
    (h : ∀ j < xs.length, (pos + j) % size ≠ i) : writeAt size buffer pos xs i = buffer i := by
  induction xs generalizing buffer pos with
  | nil => rfl
  | cons x xs ih =>
    have hhead : pos % size ≠ i := h 0 (by simp)
    rw [writeAt, ih fun j hj => ?_, Function.update_of_ne hhead.symm]
    rw [Nat.add_assoc, Nat.add_comm 1 j]
    exact h (j + 1) (by simpa using hj)

/-- Positions less than a turn apart have cells of their own. -/
theorem cell_ne {p q : Nat} (hpq : p < q) (hq : q < p + size) : q % size ≠ p % size := by
  intro h
  have hdvd := (Nat.modEq_iff_dvd' (Nat.le_of_lt hpq)).mp (show p ≡ q [MOD size] from h.symm)
  have := Nat.le_of_dvd (by omega) hdvd
  omega

theorem writeAt_get (buffer : Nat → α) (pos : Nat) {j : Nat} {xs : List α}
    (hlen : xs.length ≤ size) (hj : j < xs.length) :
    writeAt size buffer pos xs ((pos + j) % size) = xs[j] := by
  induction xs generalizing buffer pos j with
  | nil => cases hj
  | cons x xs ih =>
    have hlen' : xs.length + 1 ≤ size := hlen
    cases j with
    | zero =>
      rw [writeAt, writeAt_of_ne fun k hk => ?_, Nat.add_zero, Function.update_self]
      · rfl
      · exact cell_ne (by omega) (by omega)
    | succ j =>
      have hrest := ih (Function.update buffer (pos % size) x) (pos + 1) (by omega)
        (Nat.lt_of_succ_lt_succ hj)
      rw [Nat.add_right_comm] at hrest
      exact hrest

/-! ## The stream in the ring -/

/-- The ring carries the stream `s`: all of `s` was put, and what was not released
lies where it belongs. -/
structure Holds (r : Ring α size) (s : List α) : Prop where
  length : s.length = r.putTail
  cells : ∀ p (h : p < s.length), r.getTail ≤ p → r.buffer (p % size) = s[p]

theorem init_holds (buffer : Nat → α) : (init size buffer).Holds [] := ⟨rfl, by simp⟩

section Stream
variable {r : Ring α size} {s : List α}

/-- Only what was put has been released. -/
theorem Holds.released (h : r.Holds s) : r.getTail ≤ s.length := by
  rw [h.length]
  exact Nat.le_trans r.getTail_le r.getHead_le

/-- Any stretch that is still held, read off the ring. -/
theorem Holds.bytesAt (h : r.Holds s) {pos n : Nat} (hpos : r.getTail ≤ pos)
    (hn : pos + n ≤ s.length) : r.bytesAt pos n = (s.drop pos).take n := by
  apply List.ext_getElem
  · simp [Ring.bytesAt]
    omega
  · intro i hi hi'
    have hlt : i < n := by simpa [Ring.bytesAt] using hi
    simp only [Ring.bytesAt, List.getElem_map, List.getElem_range', Nat.one_mul,
      List.getElem_take, List.getElem_drop]
    exact h.cells (pos + i) (by omega) (by omega)

theorem Holds.content (h : r.Holds s) : r.content = s.drop r.getTail := by
  have hle := Nat.le_trans r.getTail_le r.getHead_le
  have hlen := h.length
  rw [Ring.content, h.bytesAt (Nat.le_refl _) (by omega), List.take_of_length_le]
  rw [List.length_drop, hlen]

/-- What was released, and what is still there. -/
theorem Holds.split (h : r.Holds s) : s.take r.getTail ++ r.content = s := by
  rw [h.content, List.take_append_drop]

/-- Bytes written where the stream ends, and committed. -/
theorem Holds.append (h : r.Holds s) {r' : Ring α size} {xs : List α}
    (hbuffer : r'.buffer = writeAt size r.buffer r.putTail xs)
    (hput : r'.putTail = r.putTail + xs.length) (hget : r.getTail ≤ r'.getTail)
    (hroom : r.putTail + xs.length ≤ r.getTail + size) : r'.Holds (s ++ xs) := by
  have hlen := h.length
  have htail := Nat.le_trans r.getTail_le r.getHead_le
  refine ⟨by rw [List.length_append, hlen, hput], fun p hp hpos => ?_⟩
  rw [List.length_append] at hp
  rw [hbuffer]
  by_cases hlt : p < s.length
  · rw [List.getElem_append_left hlt, writeAt_of_ne fun j hj => ?_]
    · exact h.cells p hlt (by omega)
    · exact cell_ne (by omega) (by omega)
  · obtain ⟨j, rfl⟩ := Nat.exists_eq_add_of_le (Nat.le_of_not_lt hlt)
    rw [List.getElem_append_right (Nat.le_add_right _ _), ← hlen]
    simp only [Nat.add_sub_cancel_left]
    exact writeAt_get _ _ (by omega) (by omega)

/-- Nothing of the stream is lost when positions move that only the heads or the
released part depend on. -/
theorem Holds.move (h : r.Holds s) {r' : Ring α size} (hbuffer : r'.buffer = r.buffer)
    (hput : r'.putTail = r.putTail) (hget : r.getTail ≤ r'.getTail) : r'.Holds s :=
  ⟨h.length.trans hput.symm, fun p hp hpos => by rw [hbuffer]; exact h.cells p hp (by omega)⟩

theorem Holds.put (h : r.Holds s) (hhead : r.putHead = r.putTail) (xs : List α) :
    (r.put xs).Holds (s ++ xs.take (r.putCount xs.length)) := by
  have hcount : r.putCount xs.length ≤ r.spaceGet := Nat.min_le_right _ _
  have hle : r.putCount xs.length ≤ xs.length := Nat.min_le_left _ _
  have hlen : (xs.take (r.putCount xs.length)).length = r.putCount xs.length := by
    rw [List.length_take, Nat.min_eq_left hle]
  have := r.putHead_le
  unfold spaceGet at hcount
  refine h.append ?_ ?_ (Nat.le_refl _) ?_
  · simp only [Ring.put, hhead]
  · simp only [Ring.put, hlen]
  · rw [hlen]
    omega

theorem Holds.get (h : r.Holds s) (n : Nat) : (r.get n).Holds s :=
  h.move rfl rfl (Nat.le_add_right _ _)

theorem Holds.got (h : r.Holds s) (n : Nat) :
    r.got n = (s.drop r.getHead).take (r.getCount n) := by
  have hle := r.getHead_le
  have hcount : r.getCount n ≤ r.sizeGet := Nat.min_le_right _ _
  have hlen := h.length
  unfold sizeGet at hcount
  exact h.bytesAt r.getTail_le (by omega)

/-- What was claimed can be finished. -/
theorem exists_getFinish {n : Nat} (hn : n ≤ r.getHead - r.getTail) :
    ∃ r', r.getFinish n = some r' :=
  ⟨_, dif_pos hn⟩

theorem exists_putFinish {n : Nat} (hn : n ≤ r.putHead - r.putTail) :
    ∃ r', r.putFinish n = some r' :=
  ⟨_, dif_pos hn⟩

theorem getFinish_some {n : Nat} {r' : Ring α size} (h : r.getFinish n = some r') :
    n ≤ r.getHead - r.getTail ∧ r'.buffer = r.buffer ∧ r'.putHead = r.putHead ∧
      r'.putTail = r.putTail ∧ r'.getHead = r.getTail + n ∧ r'.getTail = r.getTail + n := by
  unfold getFinish at h
  split at h
  · rename_i hn
    obtain rfl := Option.some.inj h
    exact ⟨hn, rfl, rfl, rfl, rfl, rfl⟩
  · cases h

theorem putFinish_some {n : Nat} {r' : Ring α size} (h : r.putFinish n = some r') :
    n ≤ r.putHead - r.putTail ∧ r'.buffer = r.buffer ∧ r'.getHead = r.getHead ∧
      r'.getTail = r.getTail ∧ r'.putHead = r.putTail + n ∧ r'.putTail = r.putTail + n := by
  unfold putFinish at h
  split at h
  · rename_i hn
    obtain rfl := Option.some.inj h
    exact ⟨hn, rfl, rfl, rfl, rfl, rfl⟩
  · cases h

theorem Holds.getFinish (h : r.Holds s) {n : Nat} {r' : Ring α size}
    (hr : r.getFinish n = some r') : r'.Holds s := by
  obtain ⟨-, hbuffer, -, hput, -, hget⟩ := getFinish_some hr
  exact h.move hbuffer hput (by omega)

end Stream

end Ring

end Sdkz.Base
