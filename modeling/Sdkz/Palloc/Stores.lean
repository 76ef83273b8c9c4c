import Sdkz.Palloc.Free
import Sdkz.Palloc.Init

/-! # The headers that are stored to

For each operation the links it stores to, in the words of its code; of memory
nothing but these headers changes. This holds in every heap, also in one that is
not laid out. -/

namespace Sdkz.Palloc
open Sdkz.Base

variable {k : Nat} {h h' : Heap k} {a n p q plink : Nat} {r : LinkPtr}

/-- The links that `palloc` stores to. -/
def pallocLinks (h : Heap k) (size : Nat) : List LinkPtr :=
  match pallocEntry h size with
  | none => []
  | some (size, plink) =>
    match searchLoop h size (sizeMod k) .anchor plink with
    | none => []
    | some (prev, plink) =>
      if plink = h.ppoolLast then []
      else
        let h := h.setNext prev (h.next (.block plink))
        let rest := sizeSub k (h.flagNsize (.block plink)) size
        prev :: .block plink ::
          (if rest > sizeofLink k * 2 then [.block (sizeAdd k plink size)] else [])

/-- The links that `_insert_link` stores to. -/
def insertLinks (h : Heap k) (plink : Nat) : List LinkPtr :=
  match insertLoop h plink (sizeMod k) .anchor with
  | none => []
  | some itor => [itor, .block (joinPrev h itor plink).2]

/-- The links that `pfree` stores to. -/
def pfreeLinks (h : Heap k) (p : Nat) : List LinkPtr :=
  if p = 0 then []
  else
    let plink := sizeSub k p (sizeofLink k)
    let size := h.flagNsize (.block plink)
    if size &&& pallocAllocated k ≠ 0 ∧ h.next (.block plink) = 0 then
      .block plink :: insertLinks (unmark h plink (size &&& sizeNot k (pallocAllocated k))) plink
    else []

/-- The links that `palloc_init` stores to. -/
def pallocInitLinks (h : Heap k) (pstart pend : Nat) : List LinkPtr :=
  let start := alignedValue k pstart
  let blockSize := sizeSub k (alignedValue k pend) start
  let last := sizeSub k (sizeAdd k start blockSize) (sizeofLink k)
  if blockSize > sizeofLink k * 2 then
    match initLoop h start (sizeMod k) .anchor h.anchorNext with
    | none => []
    | some (prev, next) =>
      if next = 0 then
        .block start :: .block last :: ((toLink h.ppoolLast).toList ++
          if h.anchorNext = 0 then [.anchor] else [])
      else if next > start then [.block start, .block last, prev]
      else []
  else []

/-- An address in none of the headers of some links. -/
def Off (k : Nat) (l : List LinkPtr) (a : Nat) : Prop :=
  ∀ b, LinkPtr.block b ∈ l → a < b ∨ b + sizeofLink k ≤ a

theorem Off.setNext {l : List LinkPtr} {v : Nat} (ho : Off k l a) (hr : r ∈ l) :
    (h.setNext r v).mem a = h.mem a :=
  setNext_outside fun b hb => ho b (hb ▸ hr)

theorem Off.setFlagNsize {l : List LinkPtr} {v : Nat} (ho : Off k l a) (hr : r ∈ l) :
    (h.setFlagNsize r v).mem a = h.mem a :=
  setFlagNsize_outside fun b hb => ho b (hb ▸ hr)

theorem Off.setLink {l : List LinkPtr} {size v : Nat} (ho : Off k l a) (hr : r ∈ l) :
    (setLink h r size v).mem a = h.mem a := by
  rw [Palloc.setLink, ho.setNext hr, ho.setFlagNsize hr]

/-! ## `palloc` -/

theorem Off.splitBlock {l : List LinkPtr} (ho : Off k l a) (hr : r ∈ l) (hp : .block plink ∈ l)
    (hrest : sizeSub k (h.flagNsize (.block plink)) n > sizeofLink k * 2 →
      .block (sizeAdd k plink n) ∈ l) : (splitBlock h n r plink).mem a = h.mem a := by
  simp only [Palloc.splitBlock]
  split
  · rename_i hlarge
    rw [ho.setNext hr, ho.setFlagNsize hp, ho.setLink (hrest hlarge)]
  · rfl

theorem Off.takeBlock {l : List LinkPtr} (ho : Off k l a) (hp : .block plink ∈ l) :
    (takeBlock h plink).mem a = h.mem a := by
  simp only [Palloc.takeBlock]
  rw [ho.setNext hp, ho.setFlagNsize hp]

/-- **`palloc`** changes no byte but in the headers it stores to. -/
theorem palloc_mem (hrun : palloc h n = some (h', q)) (ho : Off k (pallocLinks h n) a) :
    h'.mem a = h.mem a := by
  unfold palloc at hrun
  unfold pallocLinks at ho
  cases hentry : pallocEntry h n with
  | none =>
    rw [hentry] at hrun
    obtain ⟨rfl, -⟩ := Prod.mk.inj (Option.some.inj hrun)
    rfl
  | some e =>
    obtain ⟨size, plink⟩ := e
    rw [hentry] at hrun ho
    simp only [pallocLocked] at hrun ho
    cases hsearch : searchLoop h size (sizeMod k) .anchor plink with
    | none =>
      rw [hsearch] at hrun
      cases hrun
    | some found =>
      obtain ⟨prev, plink⟩ := found
      rw [hsearch] at hrun ho
      simp only at hrun ho
      split at hrun
      · obtain ⟨rfl, -⟩ := Prod.mk.inj (Option.some.inj hrun)
        rfl
      · rename_i hne
        rw [if_neg hne] at ho
        obtain ⟨rfl, -⟩ := Prod.mk.inj (Option.some.inj hrun)
        have hplink : LinkPtr.block plink ∈ prev :: .block plink ::
            (if sizeSub k ((h.setNext prev (h.next (.block plink))).flagNsize (.block plink)) size >
              sizeofLink k * 2 then [LinkPtr.block (sizeAdd k plink size)] else []) :=
          List.mem_cons_of_mem _ List.mem_cons_self
        rw [ho.takeBlock hplink, ho.splitBlock List.mem_cons_self hplink fun hlarge => by
          simp [hlarge], ho.setNext List.mem_cons_self]

/-! ## `pfree` -/

theorem Off.joinPrev {l : List LinkPtr} (ho : Off k l a) (hr : r ∈ l) :
    (joinPrev h r plink).1.mem a = h.mem a := by
  cases r with
  | anchor => rfl
  | block b =>
    simp only [Palloc.joinPrev]
    split
    · exact ho.setFlagNsize hr
    · rfl

theorem Off.joinNext {l : List LinkPtr} (ho : Off k l a) (hp : .block plink ∈ l) :
    (joinNext h r plink).mem a = h.mem a := by
  simp only [Palloc.joinNext]
  split
  · split
    · exact ho.setLink hp
    · exact ho.setNext hp
  · exact ho.setNext hp

theorem insertLink_mem (hrun : insertLink h plink = some h') (ho : Off k (insertLinks h plink) a) :
    h'.mem a = h.mem a := by
  unfold insertLink at hrun
  unfold insertLinks at ho
  cases hloop : insertLoop h plink (sizeMod k) .anchor with
  | none =>
    rw [hloop] at hrun
    cases hrun
  | some itor =>
    cases hjoin : Palloc.joinPrev h itor plink with
    | mk h₁ joined =>
      simp only [hloop, hjoin] at hrun ho
      have hitor : itor ∈ [itor, .block joined] := List.mem_cons_self
      have hjoined : .block joined ∈ [itor, .block joined] := by simp
      have hprev : h₁.mem a = h.mem a := by
        have hsame : (Palloc.joinPrev h itor plink).1.mem a = h.mem a := ho.joinPrev hitor
        rw [← hsame, hjoin]
      by_cases he : itor = .block joined
      · rw [if_neg (not_not.mpr he)] at hrun
        obtain rfl := Option.some.inj hrun
        rw [ho.joinNext hjoined, hprev]
      · rw [if_pos he] at hrun
        obtain rfl := Option.some.inj hrun
        rw [ho.setNext hitor, ho.joinNext hjoined, hprev]

theorem unmark_mem {size : Nat} (ho : Off k [.block plink] a) :
    (unmark h plink size).mem a = h.mem a :=
  ho.setFlagNsize (List.mem_singleton_self _)

/-- **`pfree`** changes no byte but in the headers it stores to. -/
theorem pfree_mem (hrun : pfree h p = some h') (ho : Off k (pfreeLinks h p) a) :
    h'.mem a = h.mem a := by
  unfold pfree at hrun
  unfold pfreeLinks at ho
  split at hrun
  · obtain rfl := Option.some.inj hrun
    rfl
  · rename_i hp
    rw [if_neg hp] at ho
    simp only at hrun ho
    split at hrun
    · rename_i hlive
      rw [if_pos hlive] at ho
      obtain ⟨h₁, hinsert, rfl⟩ := Option.map_eq_some_iff.mp hrun
      have hrest := insertLink_mem (a := a) hinsert fun b hb => ho b (List.mem_cons_of_mem _ hb)
      refine hrest.trans (unmark_mem fun b hb => ho b ?_)
      rw [List.mem_singleton.mp hb]
      exact List.mem_cons_self
    · obtain rfl := Option.some.inj hrun
      rfl

/-! ## `palloc_init` -/

theorem Off.setBlock {l : List LinkPtr} {pstart pend size next : Nat} {prev : Option LinkPtr}
    (ho : Off k l a) (hstart : .block pstart ∈ l) (hend : .block pend ∈ l)
    (hprev : ∀ r, prev = some r → r ∈ l) :
    (setBlock h pstart pend size next prev).mem a = h.mem a := by
  simp only [Palloc.setBlock]
  cases prev with
  | none => rw [ho.setLink hend, ho.setLink hstart]
  | some r =>
    simp only
    rw [ho.setNext (hprev r rfl), ho.setLink hend, ho.setLink hstart]

theorem Off.appendPool {l : List LinkPtr} {start size : Nat} (ho : Off k l a)
    (hstart : .block start ∈ l)
    (hlast : .block (sizeSub k (sizeAdd k start size) (sizeofLink k)) ∈ l)
    (hprev : ∀ r, toLink h.ppoolLast = some r → r ∈ l) : (appendPool h start size).mem a = h.mem a := by
  simp only [Palloc.appendPool]
  split
  · exact ho.setBlock hstart hlast hprev
  · exact ho.setBlock hstart hlast hprev

/-- **`palloc_init`** changes no byte but in the headers it stores to. -/
theorem pallocInit_mem {pstart pend : Nat} (hrun : pallocInit h pstart pend = some h')
    (ho : Off k (pallocInitLinks h pstart pend) a) : h'.mem a = h.mem a := by
  simp only [pallocInit] at hrun
  simp only [pallocInitLinks] at ho
  generalize alignedValue k pstart = start at hrun ho
  generalize sizeSub k (alignedValue k pend) start = size at hrun ho
  by_cases hlarge : size > sizeofLink k * 2
  · rw [if_pos hlarge] at hrun ho
    cases hloop : initLoop h start (sizeMod k) .anchor h.anchorNext with
    | none =>
      rw [hloop] at hrun
      cases hrun
    | some found =>
      obtain ⟨prev, next⟩ := found
      rw [hloop] at hrun ho
      simp only at hrun ho
      by_cases hend : next = 0
      · rw [if_pos hend] at hrun ho
        obtain rfl := Option.some.inj hrun
        exact ho.appendPool List.mem_cons_self (List.mem_cons_of_mem _ List.mem_cons_self)
          fun r hr => by simp [hr]
      · rw [if_neg hend] at hrun ho
        by_cases hbelow : next > start
        · rw [if_pos hbelow] at hrun ho
          obtain rfl := Option.some.inj hrun
          exact Off.setBlock ho (by simp) (by simp) fun r hr => by simp [Option.some.inj hr]
        · rw [if_neg hbelow] at hrun
          obtain rfl := Option.some.inj hrun
          rfl
  · rw [if_neg hlarge] at hrun
    obtain rfl := Option.some.inj hrun
    rfl

end Sdkz.Palloc
