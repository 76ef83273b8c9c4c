import Sdkz.Base.Memory

/-! # The pool allocator (lib/hu/palloc.c)

The free blocks are a singly linked list in address order, threaded through the
headers of the blocks; each pool ends in a marker of size zero, and the last
marker in memory ends the list. `size_t` has `2 ^ k` bytes and wraps.

`_anchor` is an object of its own, so a link is either that object or an address
inside some pool. A loop that follows a null pointer or does not end has the
result `none`: a walk that takes `2 ^ w` steps has been somewhere twice. The
semaphore is left out here; what it protects is `pallocLocked`. -/

namespace Sdkz.Palloc
open Sdkz.Base

/-! ## Sizes -/

def sizeofSizeT (k : Nat) : Nat := 2 ^ k

/-- Where `size_t` wraps. -/
def sizeMod (k : Nat) : Nat := 2 ^ (8 * sizeofSizeT k)

def alignedMask (k : Nat) : Nat := sizeofSizeT k - 1

def sizeNot (k a : Nat) : Nat := sizeMod k - 1 - a

def sizeAdd (k a b : Nat) : Nat := (a + b) % sizeMod k

def sizeSub (k a b : Nat) : Nat := (a + sizeMod k - b) % sizeMod k

/-- `ALIGNED_VALUE`. -/
def alignedValue (k a : Nat) : Nat := sizeAdd k a (alignedMask k) &&& sizeNot k (alignedMask k)

def sizeofLink (k : Nat) : Nat := alignedValue k (2 * sizeofSizeT k)

/-- `PALLOC_ALLOCATED`, the most significant bit. -/
def pallocAllocated (k : Nat) : Nat := 2 ^ (8 * sizeofSizeT k - 1)

/-! ## Links -/

/-- A `link_t *` that is not null. -/
inductive LinkPtr where
  | anchor
  | block (addr : Nat)
deriving DecidableEq, Repr

/-- Memory and the static variables. -/
structure Heap (k : Nat) where
  mem : Memory
  anchorNext : Nat
  anchorSize : Nat
  ppoolLast : Nat
  poolSize : Nat
  freeSize : Nat
  numAlloc : Nat
  numFree : Nat

section Links
variable {k : Nat}

/-- `plink->next`, an address or null. -/
def Heap.next (h : Heap k) : LinkPtr → Nat
  | .anchor => h.anchorNext
  | .block a => h.mem.load (sizeofSizeT k) a

def Heap.flagNsize (h : Heap k) : LinkPtr → Nat
  | .anchor => h.anchorSize
  | .block a => h.mem.load (sizeofSizeT k) (a + sizeofSizeT k)

def Heap.setNext (h : Heap k) (plink : LinkPtr) (next : Nat) : Heap k :=
  match plink with
  | .anchor => { h with anchorNext := next }
  | .block a => { h with mem := h.mem.store (sizeofSizeT k) a next }

def Heap.setFlagNsize (h : Heap k) (plink : LinkPtr) (size : Nat) : Heap k :=
  match plink with
  | .anchor => { h with anchorSize := size }
  | .block a => { h with mem := h.mem.store (sizeofSizeT k) (a + sizeofSizeT k) size }

def setLink (h : Heap k) (plink : LinkPtr) (size next : Nat) : Heap k :=
  (h.setFlagNsize plink size).setNext plink next

def setBlock (h : Heap k) (pstart pend size next : Nat) (plink : Option LinkPtr) : Heap k :=
  let h := setLink h (.block pstart) size pend
  let h := setLink h (.block pend) 0 next
  match plink with
  | some plink => h.setNext plink pstart
  | none => h

/-- A pointer as a link, unless it is null. -/
def toLink (a : Nat) : Option LinkPtr := if a = 0 then none else some (.block a)

/-! ## `palloc` -/

/-- The part of `palloc` in front of the critical section: the rounded size and
the local `plink`, unless the request is turned down. -/
def pallocEntry (h : Heap k) (size : Nat) : Option (Nat × Nat) :=
  if h.anchorNext = 0 ∨ size = 0 then none
  else
    let size := alignedValue k (sizeAdd k size (sizeofLink k))
    if size &&& pallocAllocated k ≠ 0 then none
    else if size > h.freeSize then none
    else some (size, h.anchorNext)

/-- The search for a block: `prev_plink` and `plink` behind the loop. -/
def searchLoop (h : Heap k) (size : Nat) : Nat → LinkPtr → Nat → Option (LinkPtr × Nat)
  | 0, _, _ => none
  | fuel + 1, prev, plink =>
    if h.flagNsize (.block plink) < size ∧ h.next (.block plink) ≠ 0 then
      searchLoop h size fuel (.block plink) (h.next (.block plink))
    else some (prev, plink)

/-- Cuts `size` bytes off a block that leaves more than two headers. -/
def splitBlock (h : Heap k) (size : Nat) (prev : LinkPtr) (plink : Nat) : Heap k :=
  let rest := sizeSub k (h.flagNsize (.block plink)) size
  if rest > sizeofLink k * 2 then
    let nextPlink := sizeAdd k plink size
    let h := setLink h (.block nextPlink) rest (h.next prev)
    let h := h.setFlagNsize (.block plink) size
    h.setNext prev nextPlink
  else h

/-- Marks a block that is off the list as allocated. -/
def takeBlock (h : Heap k) (plink : Nat) : Heap k :=
  let h : Heap k := { h with freeSize := sizeSub k h.freeSize (h.flagNsize (.block plink)) }
  let h := h.setFlagNsize (.block plink) (h.flagNsize (.block plink) ||| pallocAllocated k)
  let h := h.setNext (.block plink) 0
  { h with numAlloc := sizeAdd k h.numAlloc 1 }

/-- The critical section of `palloc`, with the locals read before it. -/
def pallocLocked (h : Heap k) (size plink : Nat) : Option (Heap k × Nat) :=
  match searchLoop h size (sizeMod k) .anchor plink with
  | none => none
  | some (prev, plink) =>
    if plink = h.ppoolLast then some (h, 0)
    else
      let ptr := sizeAdd k (h.next prev) (sizeofLink k)
      let h := h.setNext prev (h.next (.block plink))
      some (takeBlock (splitBlock h size prev plink) plink, ptr)

def palloc (h : Heap k) (size : Nat) : Option (Heap k × Nat) :=
  match pallocEntry h size with
  | none => some (h, 0)
  | some (size, plink) => pallocLocked h size plink

/-! ## `pfree` -/

/-- `for (itor = &_anchor; itor->next < plink; itor = itor->next);` -/
def insertLoop (h : Heap k) (plink : Nat) : Nat → LinkPtr → Option LinkPtr
  | 0, _ => none
  | fuel + 1, itor =>
    if h.next itor < plink then
      match toLink (h.next itor) with
      | none => none
      | some itor => insertLoop h plink fuel itor
    else some itor

/-- Joins the block with the one in front of it, if they touch; the block that
is to be listed. The anchor touches no block. -/
def joinPrev (h : Heap k) (itor : LinkPtr) (plink : Nat) : Heap k × Nat :=
  match itor with
  | .anchor => (h, plink)
  | .block a =>
    if sizeAdd k a (h.flagNsize itor) = plink then
      (h.setFlagNsize itor (sizeAdd k (h.flagNsize itor) (h.flagNsize (.block plink))), a)
    else (h, plink)

/-- Joins the block with the one behind it, if they touch and that one is not the
last marker, and lets it point to what follows. -/
def joinNext (h : Heap k) (itor : LinkPtr) (plink : Nat) : Heap k :=
  let next := h.next itor
  if sizeAdd k plink (h.flagNsize (.block plink)) = next then
    if next ≠ h.ppoolLast then
      setLink h (.block plink)
        (sizeAdd k (h.flagNsize (.block plink)) (h.flagNsize (.block next)))
        (h.next (.block next))
    else h.setNext (.block plink) h.ppoolLast
  else h.setNext (.block plink) next

def insertLink (h : Heap k) (plink : Nat) : Option (Heap k) :=
  match insertLoop h plink (sizeMod k) .anchor with
  | none => none
  | some itor =>
    let (h, plink) := joinPrev h itor plink
    let h := joinNext h itor plink
    some (if itor ≠ .block plink then h.setNext itor plink else h)

def pfree (h : Heap k) (p : Nat) : Option (Heap k) :=
  if p = 0 then some h
  else
    let plink := sizeSub k p (sizeofLink k)
    let size := h.flagNsize (.block plink)
    if size &&& pallocAllocated k ≠ 0 ∧ h.next (.block plink) = 0 then
      let size := size &&& sizeNot k (pallocAllocated k)
      let h := h.setFlagNsize (.block plink) size
      let h : Heap k := { h with freeSize := sizeAdd k h.freeSize size }
      (insertLink h plink).map fun h => ({ h with numFree := sizeAdd k h.numFree 1 } : Heap k)
    else some h

/-! ## `pcalloc` and `prealloc` -/

def pcalloc (h : Heap k) (num size : Nat) : Option (Heap k × Nat) :=
  let tsize := (num * size) % sizeMod k
  if tsize > 0 then
    (palloc h tsize).map fun (h, ptr) =>
      if ptr ≠ 0 then (({ h with mem := h.mem.fill ptr tsize 0 } : Heap k), ptr) else (h, ptr)
  else some (h, 0)

def prealloc (h : Heap k) (ap nbytes : Nat) : Option (Heap k × Nat) :=
  if ap = 0 then palloc h nbytes
  else
    let plink := sizeSub k ap (sizeofLink k)
    let csize := h.flagNsize (.block plink) &&& sizeNot k (pallocAllocated k)
    if csize < nbytes then
      match palloc h nbytes with
      | none => none
      | some (h, ptr) =>
        if ptr ≠ 0 then
          (pfree ({ h with mem := h.mem.copy ptr ap nbytes } : Heap k) ap).map fun h => (h, ptr)
        else some (h, ptr)
    else some (h, ap)

/-! ## `palloc_init` -/

/-- The search for the place of a new pool: `prev_pstart` and `next_pstart` behind
the loop. -/
def initLoop (h : Heap k) (start : Nat) : Nat → LinkPtr → Nat → Option (LinkPtr × Nat)
  | 0, _, _ => none
  | fuel + 1, prev, next =>
    if next ≠ 0 ∧ next < start then
      initLoop h start fuel (if h.next (.block next) ≠ 0 then .block next else prev)
        (h.next (.block next))
    else some (prev, next)

/-- A pool above all listed blocks; its marker is the new end of the list. -/
def appendPool (h : Heap k) (start blockSize : Nat) : Heap k :=
  let plink := toLink h.ppoolLast
  let last := sizeSub k (sizeAdd k start blockSize) (sizeofLink k)
  let h : Heap k := { h with ppoolLast := last }
  let h := setBlock h start last (sizeSub k blockSize (sizeofLink k)) 0 plink
  if h.anchorNext = 0 then setLink h .anchor 0 start else h

/-- A pool below a listed block. -/
def insertPool (h : Heap k) (start blockSize : Nat) (prev : LinkPtr) (next : Nat) : Heap k :=
  setBlock h start (sizeSub k (sizeAdd k start blockSize) (sizeofLink k))
    (sizeSub k blockSize (sizeofLink k)) next (some prev)

def countPool (h : Heap k) (start blockSize : Nat) : Heap k :=
  { h with
    freeSize := sizeAdd k h.freeSize (h.flagNsize (.block start))
    poolSize := sizeAdd k h.poolSize blockSize }

def pallocInit (h : Heap k) (pstart pend : Nat) : Option (Heap k) :=
  let start := alignedValue k pstart
  let stop := alignedValue k pend
  let blockSize := sizeSub k stop start
  if blockSize > sizeofLink k * 2 then
    match initLoop h start (sizeMod k) .anchor h.anchorNext with
    | none => none
    | some (prev, next) =>
      if next = 0 then some (countPool (appendPool h start blockSize) start blockSize)
      else if next > start then
        some (countPool (insertPool h start blockSize prev next) start blockSize)
      else some h
  else some h

/-- The allocator before the first `palloc_init`, with any contents of memory. -/
def Heap.initial (mem : Memory) : Heap k := ⟨mem, 0, 0, 0, 0, 0, 0, 0⟩

end Links

end Sdkz.Palloc
