import Mathlib.Algebra.Group.Nat.Defs
import Sdkz.Base.Run

/-! # The flash areas of Python (app/micropython/zephyr_storage.c)

A file system keeps its blocks in a `FlashArea`. In the simple form `writeblocks` erases the
block it begins with; in the extended form, and behind that block, the file system has to
erase first. What it may then rely on is a `Disk`: the bytes of which it knows the value. -/

namespace Sdkz.Mp
open Sdkz.Base

/-! ## What is known of a memory -/

section Disk
variable {α : Type*}

/-- The bytes that are known. -/
abbrev Disk (α : Type*) := Nat → Option α

/-- `value` is known of the bytes of a range. -/
def Disk.fill (d : Disk α) (pos len : Nat) (value : Nat → Option α) : Disk α :=
  fun i => if pos ≤ i ∧ i < pos + len then value (i - pos) else d i

def Disk.Knows (d : Disk α) (mem : Nat → α) : Prop := ∀ i b, d i = some b → mem i = b

theorem Disk.fill_inside (d : Disk α) {pos len i : Nat} (value : Nat → Option α) (hi : i < len) :
    d.fill pos len value (pos + i) = value i := by
  unfold Disk.fill
  rw [if_pos ⟨Nat.le_add_right .., Nat.add_lt_add_left hi pos⟩, Nat.add_sub_cancel_left]

theorem Disk.fill_outside (d : Disk α) {pos len i : Nat} (value : Nat → Option α)
    (hi : i < pos ∨ pos + len ≤ i) : d.fill pos len value i = d i :=
  if_neg (by omega)

/-- Outside of the range nothing changes, and inside it nothing else is known. -/
theorem Disk.Knows.fill {d : Disk α} {mem mem' : Nat → α} (h : d.Knows mem) {pos len : Nat}
    {value : Nat → Option α} (hframe : ∀ i, i < pos ∨ pos + len ≤ i → mem' i = mem i)
    (hvalue : ∀ i, i < len → ∀ b, value i = some b → mem' (pos + i) = b) :
    (d.fill pos len value).Knows mem' := by
  intro i b hb
  by_cases hi : pos ≤ i ∧ i < pos + len
  · obtain ⟨j, rfl⟩ := Nat.exists_eq_add_of_le hi.1
    have hj : j < len := by omega
    rw [d.fill_inside value hj] at hb
    exact hvalue j hj b hb
  · have hout : i < pos ∨ pos + len ≤ i := by omega
    rw [d.fill_outside value hout] at hb
    exact (hframe i hout).trans (h i b hb)

end Disk

/-! ## The driver -/

/-- `flash_area_read`, `flash_area_erase` and `flash_area_write` of an area. They may fail at
any time, and what they were to change is then not known. -/
structure FlashMap where
  /-- `flash_area_erased_val` -/
  erasedVal : UInt8
  read : (Nat → UInt8) → Int → Nat → Int × List UInt8
  erase : (Nat → UInt8) → Int → Nat → Int × (Nat → UInt8)
  write : (Nat → UInt8) → Int → List UInt8 → Int × (Nat → UInt8)
  read_ok : ∀ mem (pos len : Nat), (read mem pos len).1 = 0 →
    (read mem pos len).2 = (List.range len).map fun i => mem (pos + i)
  erase_ok : ∀ mem (pos len i : Nat), (erase mem pos len).1 = 0 → i < len →
    (erase mem pos len).2 (pos + i) = erasedVal
  erase_frame : ∀ mem (pos len i : Nat), i < pos ∨ pos + len ≤ i →
    (erase mem pos len).2 i = mem i
  write_ok : ∀ mem (pos i : Nat) data b, (write mem pos data).1 = 0 → data[i]? = some b →
    mem (pos + i) = erasedVal → (write mem pos data).2 (pos + i) = b
  write_frame : ∀ mem (pos i : Nat) data, i < pos ∨ pos + data.length ≤ i →
    (write mem pos data).2 i = mem i

/-- `zephyr_flash_area_obj_t`; the area is smaller than the offsets into it can be. -/
structure FlashArea where
  faSize : Nat
  blockSize : Nat
  blockCount : Nat
  blockSize_pos : 0 < blockSize
  faSize_lt : faSize < 2 ^ 31
  blocks_le : blockCount * blockSize ≤ faSize

/-- The first argument is what `flash_area_open` finds. -/
def zephyrFlashAreaMakeNew (opened : Option {size : Nat // size < 2 ^ 31}) (blockSize : Int) :
    Except String FlashArea :=
  if h : blockSize ≤ 0 then .error "invalid block size"
  else
    match opened with
    | none => .error "unable to open flash area"
    | some size => .ok {
        faSize := size
        blockSize := blockSize.toNat
        blockCount := size / blockSize.toNat
        blockSize_pos := by omega
        faSize_lt := size.2
        blocks_le := Nat.div_mul_le_self .. }

namespace FlashArea

inductive Ioctl where
  | init | deinit | sync | blockCount | blockSize | blockErase | other
deriving DecidableEq

variable (area : FlashArea) (flash : FlashMap)

/-- The arithmetic of offsets has 32 bits. -/
def offset (blockNum ofs : Int) : Int :=
  ((blockNum * area.blockSize).bmod (2 ^ 32) + ofs).bmod (2 ^ 32)

def zephyrFlashAreaReadblocks (mem : Nat → UInt8) (blockNum : Int) (len : Nat)
    (ofs : Option Int) : Int × List UInt8 :=
  flash.read mem (area.offset blockNum (ofs.getD 0)) len

def zephyrFlashAreaWriteblocks (mem : Nat → UInt8) (blockNum : Int) (buf : List UInt8)
    (ofs : Option Int) : Int × (Nat → UInt8) :=
  match ofs with
  | none =>
    let erased := flash.erase mem (area.offset blockNum 0) area.blockSize
    if erased.1 ≠ 0 then erased else flash.write erased.2 (area.offset blockNum 0) buf
  | some ofs => flash.write mem (area.offset blockNum ofs) buf

def zephyrFlashAreaIoctl (mem : Nat → UInt8) (cmd : Ioctl) (blockNum : Int) :
    Int × (Nat → UInt8) :=
  match cmd with
  | .init | .deinit | .sync => (0, mem)
  | .blockCount => (area.blockCount, mem)
  | .blockSize => (area.blockSize, mem)
  | .blockErase => flash.erase mem (area.offset blockNum 0) area.blockSize
  | .other => (-1, mem)

inductive Call where
  | readblocks (blockNum : Int) (len : Nat) (ofs : Option Int)
  | writeblocks (blockNum : Int) (buf : List UInt8) (ofs : Option Int)
  | ioctl (cmd : Ioctl) (blockNum : Int)

/-- What the call returns, and the memory behind it. -/
def call (mem : Nat → UInt8) : Call → Int × (Nat → UInt8)
  | .readblocks blockNum len ofs =>
    ((area.zephyrFlashAreaReadblocks flash mem blockNum len ofs).1, mem)
  | .writeblocks blockNum buf ofs => area.zephyrFlashAreaWriteblocks flash mem blockNum buf ofs
  | .ioctl cmd blockNum => area.zephyrFlashAreaIoctl flash mem cmd blockNum

/-! ## The disk of a file system -/

/-- Where `ofs` is in block `blockNum`. -/
def position (blockNum ofs : Int) : Nat := blockNum.toNat * area.blockSize + ofs.toNat

/-- What is known behind a call that returned `ret`. -/
def known (d : Disk UInt8) (ret : Int) : Call → Disk UInt8
  | .readblocks .. => d
  | .writeblocks blockNum buf none =>
    let pos := area.position blockNum 0
    if ret = 0 then
      (d.fill pos area.blockSize fun _ => some flash.erasedVal).fill pos buf.length (buf[·]?)
    else d.fill pos (max area.blockSize buf.length) fun _ => none
  | .writeblocks blockNum buf (some ofs) =>
    d.fill (area.position blockNum ofs) buf.length fun i => if ret = 0 then buf[i]? else none
  | .ioctl .blockErase blockNum =>
    d.fill (area.position blockNum 0) area.blockSize fun _ =>
      if ret = 0 then some flash.erasedVal else none
  | .ioctl .. => d

/-- The block is one of the area, and the offset leads into it. -/
def inArea (blockNum ofs : Int) : Bool :=
  0 ≤ blockNum && blockNum < area.blockCount && 0 ≤ ofs && ofs ≤ area.blockSize

/-- Blocks of the area are named, and bytes are known to be erased when they are written. -/
def follows (d : Disk UInt8) : Call → Bool
  | .readblocks .. => true
  | .writeblocks blockNum buf none =>
    area.inArea blockNum 0 && (List.range buf.length).all fun i =>
      i < area.blockSize || d (area.position blockNum 0 + i) = some flash.erasedVal
  | .writeblocks blockNum buf (some ofs) =>
    area.inArea blockNum ofs && (List.range buf.length).all fun i =>
      d (area.position blockNum ofs + i) = some flash.erasedVal
  | .ioctl .blockErase blockNum => area.inArea blockNum 0
  | .ioctl .. => true

/-- The memory, and what the file system knows of it. -/
structure Storage where
  mem : Nat → UInt8
  disk : Disk UInt8

def mount (mem : Nat → UInt8) : Storage := ⟨mem, fun _ => none⟩

def step (s : Storage) (c : Call) : Storage :=
  let result := area.call flash s.mem c
  ⟨result.2, area.known flash s.disk result.1 c⟩

/-! ## Reads return what is known -/

variable {area flash} {mem : Nat → UInt8} {d : Disk UInt8}

theorem block_end_le {n : Nat} (h : n < area.blockCount) :
    n * area.blockSize + area.blockSize ≤ area.faSize :=
  calc n * area.blockSize + area.blockSize = (n + 1) * area.blockSize := (Nat.succ_mul ..).symm
    _ ≤ area.blockCount * area.blockSize := Nat.mul_le_mul_right _ h
    _ ≤ area.faSize := area.blocks_le

/-- In the blocks of the area no offset wraps around. -/
theorem offset_eq {blockNum ofs : Int} (h : area.inArea blockNum ofs) :
    area.offset blockNum ofs = area.position blockNum ofs := by
  simp only [inArea, Bool.and_eq_true, decide_eq_true_eq] at h
  obtain ⟨⟨⟨hnum, hcount⟩, hofs⟩, hsize⟩ := h
  obtain ⟨n, rfl⟩ := Int.eq_ofNat_of_zero_le hnum
  obtain ⟨k, rfl⟩ := Int.eq_ofNat_of_zero_le hofs
  have hblock := area.block_end_le (n := n) (by omega)
  have hlt := area.faSize_lt
  have hsmall : ∀ x : Nat, x < 2 ^ 31 → (x : Int).bmod (2 ^ 32) = x := by
    intro x hx
    rw [Int.bmod_def]
    omega
  unfold offset position
  simp only [Int.toNat_natCast]
  have hstart : ((n : Int) * area.blockSize).bmod (2 ^ 32) =
      ((n * area.blockSize : Nat) : Int) := by
    rw [← Int.natCast_mul]
    exact hsmall _ (by omega)
  rw [hstart, ← Int.natCast_add]
  exact hsmall _ (by omega)

theorem erase_knows (h : d.Knows mem) (pos len : Nat) :
    (d.fill pos len fun _ =>
      if (flash.erase mem pos len).1 = 0 then some flash.erasedVal else none).Knows
      (flash.erase mem pos len).2 := by
  refine h.fill (flash.erase_frame mem pos len) fun i hi b hb => ?_
  by_cases hret : (flash.erase mem pos len).1 = 0
  · rw [if_pos hret] at hb
    exact (flash.erase_ok mem pos len i hret hi).trans (Option.some.inj hb)
  · rw [if_neg hret] at hb
    cases hb

theorem write_knows (h : d.Knows mem) (pos : Nat) {buf : List UInt8}
    (herased : ∀ i < buf.length, d (pos + i) = some flash.erasedVal) :
    (d.fill pos buf.length fun i =>
      if (flash.write mem pos buf).1 = 0 then buf[i]? else none).Knows
      (flash.write mem pos buf).2 := by
  refine h.fill (fun i => flash.write_frame mem pos i buf) fun i hi b hb => ?_
  by_cases hret : (flash.write mem pos buf).1 = 0
  · rw [if_pos hret] at hb
    exact flash.write_ok mem pos i buf b hret hb (h _ _ (herased i hi))
  · rw [if_neg hret] at hb
    cases hb

/-- Less may be known. -/
theorem knows_forget (h : d.Knows mem) {d' : Disk UInt8} (hless : ∀ i, d' i = none ∨ d' i = d i) :
    d'.Knows mem := by
  intro i b hb
  rcases hless i with hnone | hsame
  · rw [hnone] at hb
    cases hb
  · exact h i b (hsame ▸ hb)

theorem writeblocks_simple_knows (h : d.Knows mem) {blockNum : Int} {buf : List UInt8}
    (hf : area.follows flash d (.writeblocks blockNum buf none)) :
    (area.known flash d (area.zephyrFlashAreaWriteblocks flash mem blockNum buf none).1
      (.writeblocks blockNum buf none)).Knows
      (area.zephyrFlashAreaWriteblocks flash mem blockNum buf none).2 := by
  simp only [follows, Bool.and_eq_true, List.all_eq_true, List.mem_range, Bool.or_eq_true,
    decide_eq_true_eq] at hf
  obtain ⟨hin, hbytes⟩ := hf
  unfold zephyrFlashAreaWriteblocks known
  dsimp only
  rw [offset_eq hin]
  generalize area.position blockNum 0 = pos at hbytes ⊢
  have herase := @erase_knows flash mem d h pos area.blockSize
  by_cases hret : (flash.erase mem pos area.blockSize).1 = 0
  · rw [if_neg (not_not.mpr hret)]
    simp only [hret, if_true] at herase
    have herased : ∀ i < buf.length,
        (d.fill pos area.blockSize fun _ => some flash.erasedVal) (pos + i) =
          some flash.erasedVal := by
      intro i hi
      by_cases hblock : i < area.blockSize
      · exact d.fill_inside _ hblock
      · rw [d.fill_outside _ (by omega)]
        exact (hbytes i hi).resolve_left hblock
    have hwrite := write_knows herase pos herased
    split
    · rename_i hok
      simpa only [hok, if_true] using hwrite
    · rename_i hfail
      simp only [hfail, if_false] at hwrite
      refine knows_forget hwrite fun i => ?_
      by_cases hi : pos ≤ i ∧ i < pos + max area.blockSize buf.length
      · exact .inl (if_pos hi)
      · refine .inr ?_
        rw [Disk.fill_outside _ _ (by omega), Disk.fill_outside _ _ (by omega),
          Disk.fill_outside _ _ (by omega)]
  · rw [if_pos hret, if_neg hret]
    simp only [hret, if_false] at herase
    refine knows_forget herase fun i => ?_
    by_cases hi : pos ≤ i ∧ i < pos + max area.blockSize buf.length
    · exact .inl (if_pos hi)
    · refine .inr ?_
      rw [Disk.fill_outside _ _ (by omega), Disk.fill_outside _ _ (by omega)]

/-- What a file system that follows the rules knows stays true. -/
theorem step_knows {s : Storage} {c : Call} (h : s.disk.Knows s.mem)
    (hf : area.follows flash s.disk c) :
    (area.step flash s c).disk.Knows (area.step flash s c).mem := by
  unfold step
  dsimp only
  cases c with
  | readblocks => exact h
  | writeblocks blockNum buf ofs =>
    cases ofs with
    | none => exact writeblocks_simple_knows h hf
    | some ofs =>
      simp only [follows, Bool.and_eq_true, List.all_eq_true, List.mem_range,
        decide_eq_true_eq] at hf
      have hresult : area.call flash s.mem (.writeblocks blockNum buf (some ofs)) =
          flash.write s.mem (area.position blockNum ofs) buf := by
        rw [← offset_eq hf.1]
        rfl
      rw [hresult]
      exact write_knows h _ hf.2
  | ioctl cmd blockNum =>
    cases cmd with
    | blockErase =>
      have hresult : area.call flash s.mem (.ioctl .blockErase blockNum) =
          flash.erase s.mem (area.position blockNum 0) area.blockSize := by
        rw [← offset_eq hf]
        rfl
      rw [hresult]
      exact erase_knows h _ _
    | _ => exact h

/-- In every run, whatever fails in between, what a read returns is what the file system knows. -/
theorem readblocks_known {l : List Call}
    (hl : Guarded (area.step flash) (fun s c => area.follows flash s.disk c) (mount mem) l)
    {blockNum : Int} {ofs : Option Int} (hin : area.inArea blockNum (ofs.getD 0)) {len i : Nat}
    {b : UInt8} {data : List UInt8} (hi : i < len)
    (hread : area.zephyrFlashAreaReadblocks flash (l.foldl (area.step flash) (mount mem)).mem
      blockNum len ofs = (0, data))
    (hknown : (l.foldl (area.step flash) (mount mem)).disk
      (area.position blockNum (ofs.getD 0) + i) = some b) :
    data[i]? = some b := by
  have hinv : Always (area.step flash) (fun s => s.disk.Knows s.mem) (mount mem) l :=
    hl.always (fun _ _ => step_knows) fun _ _ h => nomatch h
  unfold zephyrFlashAreaReadblocks at hread
  rw [offset_eq hin] at hread
  have hdata := flash.read_ok _ _ _ (congrArg Prod.fst hread)
  rw [hread] at hdata
  dsimp only at hdata
  rw [hdata, List.getElem?_map, List.getElem?_range hi, Option.map_some, hinv.last _ _ hknown]

/-! ## What is written is read back -/

variable (area) in
/-- The call erases or writes the byte. -/
def touches (pos : Nat) : Call → Bool
  | .readblocks .. => false
  | .writeblocks blockNum buf none =>
    area.position blockNum 0 ≤ pos &&
      pos < area.position blockNum 0 + max area.blockSize buf.length
  | .writeblocks blockNum buf (some ofs) =>
    area.position blockNum ofs ≤ pos && pos < area.position blockNum ofs + buf.length
  | .ioctl .blockErase blockNum =>
    area.position blockNum 0 ≤ pos && pos < area.position blockNum 0 + area.blockSize
  | .ioctl .. => false

theorem known_untouched {pos : Nat} {c : Call} (h : area.touches pos c = false) (d : Disk UInt8)
    (ret : Int) : area.known flash d ret c pos = d pos := by
  cases c with
  | readblocks => rfl
  | writeblocks blockNum buf ofs =>
    cases ofs with
    | none =>
      simp only [touches, Bool.and_eq_false_iff, decide_eq_false_iff_not] at h
      unfold known
      dsimp only
      split
      · rw [Disk.fill_outside _ _ (by omega), Disk.fill_outside _ _ (by omega)]
      · rw [Disk.fill_outside _ _ (by omega)]
    | some ofs =>
      simp only [touches, Bool.and_eq_false_iff, decide_eq_false_iff_not] at h
      have hout : pos < area.position blockNum ofs ∨
          area.position blockNum ofs + buf.length ≤ pos := by omega
      unfold known
      exact d.fill_outside _ hout
  | ioctl cmd blockNum =>
    cases cmd with
    | blockErase =>
      simp only [touches, Bool.and_eq_false_iff, decide_eq_false_iff_not] at h
      have hout : pos < area.position blockNum 0 ∨
          area.position blockNum 0 + area.blockSize ≤ pos := by omega
      unfold known
      exact d.fill_outside _ hout
    | _ => rfl

theorem disk_untouched {pos : Nat} {l : List Call} (h : ∀ c ∈ l, area.touches pos c = false)
    (s : Storage) : (l.foldl (area.step flash) s).disk pos = s.disk pos := by
  induction l generalizing s with
  | nil => rfl
  | cons c l ih =>
    rw [List.foldl_cons, ih (fun c hc => h c (List.mem_cons_of_mem _ hc))]
    exact known_untouched (h c List.mem_cons_self) ..

theorem known_written {buf : List UInt8} {j : Nat} (hj : j < buf.length) (d : Disk UInt8)
    (blockNum : Int) (ofs : Option Int) :
    area.known flash d 0 (.writeblocks blockNum buf ofs) (area.position blockNum (ofs.getD 0) + j) =
      buf[j]? := by
  cases ofs with
  | none => exact Disk.fill_inside _ _ hj
  | some ofs => exact d.fill_inside _ hj

/-- **A flash area is a disk**: what `writeblocks` has written, in either form, is what
`readblocks` returns, whatever is called in between and whatever of it fails, as long as no call
touches the byte again. -/
theorem written_read_back {l l' : List Call} {blockNum : Int} {buf : List UInt8}
    {ofs : Option Int}
    (hl : Guarded (area.step flash) (fun s c => area.follows flash s.disk c) (mount mem)
      (l ++ .writeblocks blockNum buf ofs :: l'))
    (hwritten : (area.zephyrFlashAreaWriteblocks flash
      (l.foldl (area.step flash) (mount mem)).mem blockNum buf ofs).1 = 0)
    {j : Nat} (hj : j < buf.length)
    (hrest : ∀ c ∈ l', area.touches (area.position blockNum (ofs.getD 0) + j) c = false)
    {blockNum' : Int} {ofs' : Option Int} (hin : area.inArea blockNum' (ofs'.getD 0))
    {len i : Nat} {data : List UInt8} (hi : i < len)
    (hsame : area.position blockNum' (ofs'.getD 0) + i =
      area.position blockNum (ofs.getD 0) + j)
    (hread : area.zephyrFlashAreaReadblocks flash
      ((l ++ .writeblocks blockNum buf ofs :: l').foldl (area.step flash) (mount mem)).mem
      blockNum' len ofs' = (0, data)) :
    data[i]? = buf[j]? := by
  rw [List.getElem?_eq_getElem hj]
  refine readblocks_known hl hin hi hread ?_
  rw [hsame, List.foldl_append, List.foldl_cons, disk_untouched hrest,
    ← List.getElem?_eq_getElem hj]
  generalize l.foldl (area.step flash) (mount mem) = s at hwritten ⊢
  unfold step call
  dsimp only
  rw [hwritten]
  exact known_written hj ..

end FlashArea

/-! ## A NOR flash -/

/-- A write can only clear bits, and a call outside of the area fails with `-EINVAL`. -/
def norFlash (size : Nat) : FlashMap where
  erasedVal := 0xff
  read mem pos len :=
    if 0 ≤ pos ∧ pos + len ≤ size then (0, (List.range len).map fun i => mem (pos.toNat + i))
    else (-22, [])
  erase mem pos len :=
    if 0 ≤ pos ∧ pos + len ≤ size then
      (0, fun i => if pos ≤ i ∧ i < pos + len then 0xff else mem i)
    else (-22, mem)
  write mem pos data :=
    if 0 ≤ pos ∧ pos + data.length ≤ size then
      (0, fun i => if pos ≤ i then (data[i - pos.toNat]?).elim (mem i) (mem i &&& ·) else mem i)
    else (-22, mem)
  read_ok mem pos len h := by
    split at h
    · rename_i hin
      rw [if_pos hin, Int.toNat_natCast]
    · cases h
  erase_ok mem pos len i h hi := by
    split at h
    · rename_i hin
      rw [if_pos hin]
      exact if_pos (by omega)
    · cases h
  erase_frame mem pos len i hi := by
    split
    · exact if_neg (by omega)
    · rfl
  write_ok mem pos i data b h hb herased := by
    split at h
    · rename_i hin
      have hat : pos + i - (pos : Int).toNat = i := by omega
      rw [if_pos hin]
      dsimp only
      rw [if_pos (by omega), hat, hb, Option.elim_some, herased]
      exact UInt8.neg_one_and
    · cases h
  write_frame mem pos i data hi := by
    split
    · dsimp only
      split
      · have hout : data[i - (pos : Int).toNat]? = none := List.getElem?_eq_none (by omega)
        rw [hout]
        rfl
      · rfl
    · rfl

theorem norFlash_erase {size pos len : Nat} (h : pos + len ≤ size) (mem : Nat → UInt8) :
    ((norFlash size).erase mem pos len).1 = 0 := by
  unfold norFlash
  dsimp only
  rw [if_pos (by omega)]

theorem norFlash_write {size pos : Nat} {data : List UInt8} (h : pos + data.length ≤ size)
    (mem : Nat → UInt8) {j : Nat} {b : UInt8} (hb : data[j]? = some b) :
    ((norFlash size).write mem pos data).2 (pos + j) = mem (pos + j) &&& b := by
  have hat : pos + j - (pos : Int).toNat = j := by omega
  unfold norFlash
  dsimp only
  rw [if_pos (by omega)]
  dsimp only
  rw [if_pos (by omega), hat, hb, Option.elim_some]

namespace FlashArea
variable {area : FlashArea} {mem : Nat → UInt8}

/-- What the simple form leaves on a NOR flash: behind its first block nothing is erased. -/
theorem writeblocks_nor {blockNum : Int} {buf : List UInt8} (hin : area.inArea blockNum 0)
    (hfit : area.position blockNum 0 + buf.length ≤ area.faSize) {j : Nat} {b : UInt8}
    (hb : buf[j]? = some b) :
    (area.zephyrFlashAreaWriteblocks (norFlash area.faSize) mem blockNum buf none).2
        (area.position blockNum 0 + j) =
      if j < area.blockSize then b else mem (area.position blockNum 0 + j) &&& b := by
  have hblock : area.position blockNum 0 + area.blockSize ≤ area.faSize := by
    simp only [inArea, Bool.and_eq_true, decide_eq_true_eq] at hin
    exact area.block_end_le (n := blockNum.toNat) (by omega)
  unfold zephyrFlashAreaWriteblocks
  rw [offset_eq hin]
  generalize area.position blockNum 0 = pos at hfit hblock ⊢
  have hret : ¬ ((norFlash area.faSize).erase mem pos area.blockSize).1 ≠ 0 :=
    not_not.mpr (norFlash_erase hblock mem)
  dsimp only
  rw [if_neg hret, norFlash_write hfit _ hb]
  split
  · rename_i hj
    rw [(norFlash area.faSize).erase_ok mem pos _ j (not_not.mp hret) hj]
    exact UInt8.neg_one_and
  · rename_i hj
    rw [(norFlash area.faSize).erase_frame mem pos _ _ (.inr (by omega))]

/-- **A buffer of several blocks** is on a NOR flash what was written exactly if every bit that
it sets behind its first block was still set. -/
theorem writeblocks_nor_iff {blockNum : Int} {buf : List UInt8} (hin : area.inArea blockNum 0)
    (hfit : area.position blockNum 0 + buf.length ≤ area.faSize) :
    (∀ j b, buf[j]? = some b →
      (area.zephyrFlashAreaWriteblocks (norFlash area.faSize) mem blockNum buf none).2
        (area.position blockNum 0 + j) = b) ↔
    ∀ j b, buf[j]? = some b → area.blockSize ≤ j →
      mem (area.position blockNum 0 + j) &&& b = b := by
  refine ⟨fun h j b hb hj => ?_, fun h j b hb => ?_⟩
  · have hbyte := h j b hb
    rwa [writeblocks_nor hin hfit hb, if_neg (Nat.not_lt.mpr hj)] at hbyte
  · rw [writeblocks_nor hin hfit hb]
    split
    · rfl
    · exact h j b hb (by omega)

/-- Four blocks of four bytes. -/
def fourBlocks : FlashArea := ⟨16, 4, 4, by decide, by decide, by decide⟩

/-- Two bytes are written into block 1 behind an erasure, then block 0 at once, and a read
behind the area fails. -/
theorem piece_read_back : ([0xff, 1, 2, 0xff] : List UInt8)[1]? = ([1, 2] : List UInt8)[0]? :=
  @written_read_back fourBlocks (norFlash 16) (fun _ => 0) [.ioctl .blockErase 1]
    [.writeblocks 0 [5, 6, 7, 8] none, .readblocks 7 4 none] 1 [1, 2] (some 1) (by decide)
    (by decide) 0 (by decide) (by decide) 1 none (by decide) 4 1 [0xff, 1, 2, 0xff] (by decide)
    (by decide) (by decide)

end FlashArea

end Sdkz.Mp
