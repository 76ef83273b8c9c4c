import Sdkz.Palloc.Served

/-! # What the counters say

Of each pool, every byte is free, held or the header of its marker. And the calls that
returned something are as many more than the frees as there are pointers held, as far as
the two counters do not wrap differently. -/

namespace Sdkz.Palloc
open Sdkz.Base

variable {k : Nat}

/-- The static variables account for the pools and for what is held. -/
structure Session.Balanced (s : Session k) : Prop where
  pools : s.heap.poolSize = (s.regions.map Region.length).sum
  bytes : s.heap.poolSize = s.heap.freeSize + (s.live.map fun p => (s.blockAt p).size).sum +
    s.regions.length * sizeofLink k
  calls : s.heap.numAlloc = sizeAdd k s.heap.numFree s.live.length

def Balanced (s : Option (Session k)) : Prop := ∃ t, s = some t ∧ t.Balanced

/-! ## Bytes -/

section Bytes
variable {s : Session k} {ps : List Pool}

/-- What is not free or live is the header of a marker. -/
theorem sum_blocks (k : Nat) (ps : List Pool) :
    ((listed ps).map Block.size).sum + ((lives ps).map Block.size).sum + ps.length * sizeofLink k =
      ((regions k ps).map Region.length).sum := by
  induction ps with
  | nil => rw [List.length_nil, Nat.zero_mul]; rfl
  | cons p ps ih =>
    have hcells : (p.free.map Block.size).sum + (p.live.map Block.size).sum = span p.cells :=
      sum_blocksOf p.start p.cells
    have hmarks : (p.marks.map Block.size).sum = 0 := by
      unfold Pool.marks
      split <;> rfl
    have hspan := p.span_le k
    have hlen : (p.region k).length = p.stop k - p.start := rfl
    simp only [listed_cons, lives_cons, List.map_append, List.sum_append, hmarks, regions,
      List.map_cons, List.sum_cons, hlen, List.length_cons, Nat.succ_mul] at ih ⊢
    omega

theorem Valid.pools (v : Valid s ps) :
    s.heap.poolSize = (s.regions.map Region.length).sum := by
  rw [v.rep.poolSize]
  exact (v.regions.map Region.length).sum_eq.symm

theorem Valid.bytes (v : Valid s ps) :
    s.heap.poolSize = s.heap.freeSize + (s.live.map fun p => (s.blockAt p).size).sum +
      s.regions.length * sizeofLink k := by
  have hlive : (s.live.map fun p => (s.blockAt p).size).sum = ((lives ps).map Block.size).sum := by
    rw [(v.live.map fun p => (s.blockAt p).size).sum_eq, List.map_map]
    congr 1
    refine List.map_congr_left fun b hb => ?_
    rw [Function.comp_apply, v.blockAt hb]
  have hlength : s.regions.length = ps.length := by
    rw [v.regions.length_eq, Palloc.regions, List.length_map]
  rw [v.rep.poolSize, v.rep.freeSize, hlive, hlength]
  exact (sum_blocks k ps).symm

end Bytes

/-! ## Calls -/

/-- Neither counter has moved. -/
structure SameCounters (h h' : Heap k) : Prop where
  numAlloc : h'.numAlloc = h.numAlloc
  numFree : h'.numFree = h.numFree

section Counters
variable {h h' : Heap k} {r : LinkPtr} {n p q a : Nat}

theorem SameCounters.trans {h'' : Heap k} (H : SameCounters h h') (H' : SameCounters h' h'') :
    SameCounters h h'' :=
  ⟨H'.numAlloc.trans H.numAlloc, H'.numFree.trans H.numFree⟩

theorem setNext_counters (h : Heap k) (r : LinkPtr) (a : Nat) : SameCounters h (h.setNext r a) := by
  cases r <;> exact ⟨rfl, rfl⟩

theorem setFlagNsize_counters (h : Heap k) (r : LinkPtr) (a : Nat) :
    SameCounters h (h.setFlagNsize r a) := by
  cases r <;> exact ⟨rfl, rfl⟩

theorem setLink_counters (h : Heap k) (r : LinkPtr) (n a : Nat) : SameCounters h (setLink h r n a) :=
  (setFlagNsize_counters h r n).trans (setNext_counters _ r a)

theorem setBlock_counters (h : Heap k) (pstart pend size next : Nat) (plink : Option LinkPtr) :
    SameCounters h (setBlock h pstart pend size next plink) := by
  have hblock := (setLink_counters h (.block pstart) size pend).trans
    (setLink_counters _ (.block pend) 0 next)
  cases plink with
  | none => exact hblock
  | some r => exact hblock.trans (setNext_counters _ r pstart)

theorem unmark_counters (h : Heap k) (a n : Nat) : SameCounters h (unmark h a n) := ⟨rfl, rfl⟩

theorem splitBlock_counters (h : Heap k) (n : Nat) (r : LinkPtr) (a : Nat) :
    SameCounters h (splitBlock h n r a) := by
  unfold splitBlock
  simp only
  split
  · exact ((setLink_counters h _ _ _).trans (setFlagNsize_counters _ _ _)).trans
      (setNext_counters _ _ _)
  · exact ⟨rfl, rfl⟩

/-- A request is turned down, or counted. -/
theorem palloc_counters (hrun : palloc h n = some (h', q)) :
    q = 0 ∨ h'.numAlloc = sizeAdd k h.numAlloc 1 ∧ h'.numFree = h.numFree := by
  unfold palloc at hrun
  split at hrun
  · exact .inl (Prod.mk.inj (Option.some.inj hrun)).2.symm
  · unfold pallocLocked at hrun
    split at hrun
    · cases hrun
    · split at hrun
      · exact .inl (Prod.mk.inj (Option.some.inj hrun)).2.symm
      · right
        obtain ⟨rfl, -⟩ := Prod.mk.inj (Option.some.inj hrun)
        have hsplit : ∀ size prev plink,
            SameCounters h (splitBlock (h.setNext prev (h.next (.block plink))) size prev plink) :=
          fun size prev plink => (setNext_counters h prev _).trans (splitBlock_counters _ size prev plink)
        exact ⟨congrArg (sizeAdd k · 1) (hsplit _ _ _).numAlloc, (hsplit _ _ _).numFree⟩

theorem joinPrev_counters (h : Heap k) (r : LinkPtr) (a : Nat) :
    SameCounters h (joinPrev h r a).1 := by
  unfold joinPrev
  cases r with
  | anchor => exact ⟨rfl, rfl⟩
  | block b =>
    simp only
    split
    · exact setFlagNsize_counters h (.block b) _
    · exact ⟨rfl, rfl⟩

theorem joinNext_counters (h : Heap k) (r : LinkPtr) (a : Nat) :
    SameCounters h (joinNext h r a) := by
  unfold joinNext
  simp only
  split
  · split
    · exact setLink_counters _ _ _ _
    · exact setNext_counters _ _ _
  · exact setNext_counters _ _ _

theorem insertLink_counters (hrun : insertLink h a = some h') : SameCounters h h' := by
  unfold insertLink at hrun
  split at hrun
  · cases hrun
  · rename_i itor _
    have hprev := joinPrev_counters h itor a
    cases hjoin : joinPrev h itor a with
    | mk h₁ b =>
      rw [hjoin] at hrun hprev
      have hjoined : SameCounters h (joinNext h₁ itor b) :=
        hprev.trans (joinNext_counters h₁ itor b)
      obtain rfl := Option.some.inj hrun
      split
      · exact hjoined.trans (setNext_counters _ _ _)
      · exact hjoined

theorem pallocInit_counters {pstart pend : Nat} (hrun : pallocInit h pstart pend = some h') :
    SameCounters h h' := by
  unfold pallocInit at hrun
  simp only at hrun
  split at hrun
  · split at hrun
    · cases hrun
    · rename_i prev next _
      split at hrun
      · obtain rfl := Option.some.inj hrun
        have happend : SameCounters h (appendPool h (alignedValue k pstart)
            (sizeSub k (alignedValue k pend) (alignedValue k pstart))) := by
          unfold appendPool
          simp only
          have hblock : ∀ last size plink, SameCounters h (setBlock ({ h with ppoolLast := last } :
              Heap k) (alignedValue k pstart) last size 0 plink) := by
            intro last size plink
            have hset := setBlock_counters ({ h with ppoolLast := last } : Heap k)
              (alignedValue k pstart) last size 0 plink
            exact ⟨hset.numAlloc, hset.numFree⟩
          split
          · exact (hblock _ _ _).trans (setLink_counters _ _ _ _)
          · exact hblock _ _ _
        exact ⟨happend.numAlloc, happend.numFree⟩
      · split at hrun
        · obtain rfl := Option.some.inj hrun
          have hinsert := setBlock_counters h (alignedValue k pstart)
            (sizeSub k (sizeAdd k (alignedValue k pstart)
              (sizeSub k (alignedValue k pend) (alignedValue k pstart))) (sizeofLink k))
            (sizeSub k (sizeSub k (alignedValue k pend) (alignedValue k pstart)) (sizeofLink k))
            next (some prev)
          exact ⟨hinsert.numAlloc, hinsert.numFree⟩
        · obtain rfl := Option.some.inj hrun
          exact ⟨rfl, rfl⟩
  · obtain rfl := Option.some.inj hrun
    exact ⟨rfl, rfl⟩

end Counters

/-! ## Sessions -/

/-- The calls that returned something, the frees, and the pointers held. -/
def Counted (h : Heap k) (live : List Nat) : Prop := h.numAlloc = sizeAdd k h.numFree live.length

section Sessions
variable {s s' : Session k} {ps : List Pool} {h' : Heap k} {n ap q : Nat} {live : List Nat}

theorem Counted.same {h : Heap k} (C : Counted h live) (H : SameCounters h h') :
    Counted h' live := by
  rw [Counted, H.numAlloc, H.numFree]
  exact C

/-- A request that is met is counted. -/
theorem Counted.granted {h : Heap k} (C : Counted h live) (hrun : palloc h n = some (h', q))
    (hq : q ≠ 0) : Counted h' (q :: live) := by
  obtain ⟨halloc, hfree⟩ := (palloc_counters hrun).resolve_left hq
  have hcount : h.numAlloc = (h.numFree + live.length) % sizeMod k := C
  rw [Counted, halloc, hfree, List.length_cons, sizeAdd, sizeAdd, hcount, Nat.mod_add_mod,
    Nat.add_assoc]

/-- A free of a pointer that is held is counted. -/
theorem Valid.counted_free (v : Valid s ps) (C : Counted s.heap s.live) (hap : ap ∈ s.live)
    (hrun : pfree s.heap ap = some h') : Counted h' (s.live.erase ap) := by
  obtain ⟨b, hb, rfl⟩ := v.block_of_live hap
  obtain ⟨P, p, Q, B₁, B₂, rfl, hcells, haddr⟩ := lives_split hb
  have hfree := pfree_eq v.ok hcells v.rep
  rw [← haddr, show b.addr + sizeofLink k = payload k b from rfl, hrun] at hfree
  cases hinsert : insertLink (unmark s.heap b.addr b.size) b.addr with
  | none =>
    rw [hinsert] at hfree
    cases hfree
  | some h₁ =>
    rw [hinsert] at hfree
    obtain rfl := Option.some.inj hfree
    have hsame := (unmark_counters s.heap b.addr b.size).trans (insertLink_counters hinsert)
    have hpos := List.length_pos_of_mem hap
    have hcount : s.heap.numAlloc = (s.heap.numFree + s.live.length) % sizeMod k := C
    have hsum : s.heap.numFree + 1 + (s.live.length - 1) = s.heap.numFree + s.live.length := by omega
    show h₁.numAlloc = sizeAdd k (sizeAdd k h₁.numFree 1) _
    rw [hsame.numAlloc, hsame.numFree, List.length_erase_of_mem hap, sizeAdd, sizeAdd,
      Nat.mod_add_mod, hsum, hcount]

/-- A request that does no harm is met and counted, or nothing happens. -/
theorem Valid.counted_request (v : Valid s ps) (C : Counted s.heap s.live) (hn : s.Serves n) :
    palloc s.heap n = some (s.heap, 0) ∨ ∃ h' q, palloc s.heap n = some (h', q) ∧ q ≠ 0 ∧
      q ∉ s.live ∧ Counted h' (q :: s.live) := by
  rcases v.rounds_or_idle hn with hr | hidle
  · rcases v.request (.inr hr.link_le) with hidle | ⟨h', q, ps', b, hrun, hg⟩
    · exact .inl hidle
    · have hq := hg.valid.live_ne_zero List.mem_cons_self
      exact .inr ⟨h', q, hrun, hq, (List.nodup_cons.mp hg.valid.live_nodup).1, C.granted hrun hq⟩
  · exact .inl hidle

/-- A reallocation is a request and a free, or neither. -/
theorem Valid.counted_prealloc (v : Valid s ps) (C : Counted s.heap s.live)
    (hop : s.Admits (.prealloc ap n)) (hrun : s.call (.prealloc ap n) = some s') :
    Counted s'.heap s'.live := by
  change s.step (.prealloc ap n) = some s' at hrun
  rcases hop.1 with rfl | hap
  · have hnot : 0 ∉ s.live := fun h => v.live_ne_zero h rfl
    simp only [Session.step, prealloc, if_true, or_self, List.erase_of_not_mem hnot] at hrun
    obtain ⟨⟨h', q⟩, hpalloc, rfl⟩ := Option.map_eq_some_iff.mp hrun
    rcases v.counted_request C hop.2 with hidle | ⟨h₁, q₁, hmet, hq, -, hcounted⟩
    · obtain ⟨rfl, rfl⟩ := Prod.mk.inj (Option.some.inj (hidle.symm.trans hpalloc))
      exact C
    · obtain ⟨rfl, rfl⟩ := Prod.mk.inj (Option.some.inj (hmet.symm.trans hpalloc))
      simp only [if_neg hq]
      exact hcounted
  · have hne := v.live_ne_zero hap
    have hidle : Palloc.palloc s.heap n = some (s.heap, 0) → Counted s'.heap s'.live := by
      intro hidle
      have hsame := Session.prealloc_idle hne hidle
      obtain rfl := Option.some.inj (hsame.symm.trans hrun)
      exact C
    rcases v.rounds_or_idle hop.2 with hr | hnone
    · by_cases hgrow : (s.heap.flagNsize (.block (sizeSub k ap (sizeofLink k))) &&&
          sizeNot k (pallocAllocated k)) < n
      · rcases Valid.palloc_store (fun m q => m.copy q ap n) v hr
          (fun m q a ha => Memory.copy_outside ha) with hnone | ⟨h₁, q, ps₁, hmet, hq, hnew, hv⟩
        · exact hidle hnone
        · have hqa : q ≠ ap := fun he => hnew (he ▸ hap)
          obtain ⟨h₂, -, hfree, -⟩ := hv.freed (List.mem_cons_of_mem q hap)
          have hmoved : Counted ({ h₁ with mem := h₁.mem.copy q ap n } : Heap k) (q :: s.live) :=
            (C.granted hmet hq).same ⟨rfl, rfl⟩
          have hcounted := hv.counted_free hmoved (List.mem_cons_of_mem q hap) hfree
          simp only [Session.step, prealloc, if_neg hne, if_pos hgrow, hmet, ne_eq, hq,
            not_false_eq_true, if_true, hfree, Option.map_some, false_or, if_neg hqa,
            Option.some.injEq] at hrun
          subst hrun
          rwa [List.erase_cons_tail (by simpa using hqa)] at hcounted
      · simp only [Session.step, prealloc, if_neg hne, if_neg hgrow, Option.map_some, or_true,
          if_true, Option.some.injEq] at hrun
        subst hrun
        exact C
    · exact hidle hnone

/-- **One call** is counted. -/
theorem Valid.counted_call {op : Op} (v : Valid s ps) (C : Counted s.heap s.live)
    (hop : s.Admits op) (hrun : s.call op = some s') : Counted s'.heap s'.live := by
  cases op with
  | init r =>
    obtain ⟨h', hinit, rfl⟩ := Option.map_eq_some_iff.mp hrun
    exact C.same (pallocInit_counters hinit)
  | palloc n =>
    obtain ⟨⟨h', q⟩, hpalloc, rfl⟩ := Option.map_eq_some_iff.mp hrun
    rcases v.counted_request C hop with hidle | ⟨h₁, q₁, hmet, hq, -, hcounted⟩
    · obtain ⟨rfl, rfl⟩ := Prod.mk.inj (Option.some.inj (hidle.symm.trans hpalloc))
      exact C
    · obtain ⟨rfl, rfl⟩ := Prod.mk.inj (Option.some.inj (hmet.symm.trans hpalloc))
      rw [Session.granted, if_neg hq]
      exact hcounted
  | pcalloc num size =>
    rcases v.counted_request C hop with hidle | ⟨h₁, q, hmet, hq, -, hcounted⟩
    · have hsame : s.call (.pcalloc num size) = some s := Session.pcalloc_idle hidle
      obtain rfl := Option.some.inj (hsame.symm.trans hrun)
      exact C
    · change (Palloc.pcalloc s.heap num size).map s.granted = some s' at hrun
      by_cases h0 : num * size % sizeMod k > 0
      · simp only [Palloc.pcalloc, if_pos h0, hmet, Option.map_some, if_pos hq, Session.granted,
          if_neg hq, Option.some.injEq] at hrun
        subst hrun
        exact hcounted
      · simp only [Palloc.pcalloc, if_neg h0, Option.map_some, Session.granted,
          Option.some.injEq] at hrun
        subst hrun
        exact C
  | prealloc ap n => exact v.counted_prealloc C hop hrun
  | pfree p =>
    obtain ⟨h', hfree, rfl⟩ := Option.map_eq_some_iff.mp hrun
    rcases hop with rfl | hp
    · have hnot : 0 ∉ s.live := fun h => v.live_ne_zero h rfl
      obtain rfl : s.heap = h' := by simpa [Palloc.pfree] using hfree
      rw [List.erase_of_not_mem hnot]
      exact C
    · exact v.counted_free C hp hfree
  | store addr byte =>
    obtain rfl := Option.some.inj hrun
    exact C

end Sessions

/-! ## Runs -/

/-- **The counters** in every state of a run of admitted calls. -/
theorem always_balanced (k : Nat) (mem : Memory) (ops : List Op)
    (h : Guarded Session.calls Admitted (some (Session.initial k mem)) ops) :
    Always Session.calls Balanced (some (Session.initial k mem)) ops := by
  have hkeeps : ∀ (s : Option (Session k)) (op : Op), (∃ t ps, s = some t ∧ Valid t ps ∧ Counted t.heap t.live) →
      Admitted s op → ∃ t ps, Session.calls s op = some t ∧ Valid t ps ∧ Counted t.heap t.live := by
    rintro s op ⟨t, ps, rfl, v, C⟩ hop
    obtain ⟨t', ps', hrun, hv⟩ := v.call (hop t rfl)
    exact ⟨t', ps', hrun, hv, v.counted_call C (hop t rfl) hrun⟩
  have hinit : Counted (Session.initial k mem).heap (Session.initial k mem).live :=
    (Nat.zero_mod _).symm
  intro p hp
  obtain ⟨t, ps, hrun, v, C⟩ := h.always hkeeps ⟨_, [], rfl, Valid.initial mem, hinit⟩ p hp
  exact ⟨t, hrun, v.pools, v.bytes, C⟩

theorem requests_balanced : Always Session.calls Balanced (some (Session.initial 2 fun _ => 0))
    [.init ⟨4096, 4352⟩, .palloc 10, .pcalloc 3 5, .pfree 4104] :=
  always_balanced 2 _ _ (admitted_of_proper requests_proper)

end Sdkz.Palloc
