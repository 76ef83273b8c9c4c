import Sdkz.Palloc.FirstFit
import Sdkz.Palloc.Stores

/-! # What is in the memory that is held

`prealloc` compares the block with its header to the bytes that are asked for, and
copies as many bytes as are asked for: it does what it should if the block is large
enough without its header, or if a larger one is not to be had. `pcalloc` clears what
it returns, and otherwise changes headers only. -/

namespace Sdkz.Palloc
open Sdkz.Base

variable {k : Nat}

/-! ## `prealloc` -/

/-- What `prealloc` hands to `memcpy`, if it comes to that: where to, where from and how much. -/
def preallocCopy (h : Heap k) (ap nbytes : Nat) : Option (Nat × Nat × Nat) :=
  if ap = 0 then none
  else
    let plink := sizeSub k ap (sizeofLink k)
    let csize := h.flagNsize (.block plink) &&& sizeNot k (pallocAllocated k)
    if csize < nbytes then
      (palloc h nbytes).bind fun (_, ptr) => if ptr ≠ 0 then some (ptr, ap, nbytes) else none
    else none

/-- The program holds what `prealloc` returns, and no longer what that replaces. -/
def Session.moved (s : Session k) (ap : Nat) (r : Heap k × Nat) : Session k :=
  ⟨r.1, s.regions, if r.2 = 0 ∨ r.2 = ap then s.live else r.2 :: s.live.erase ap⟩

/-- The block `p` is held as before, with what is in it. -/
structure Session.Keeps (s s' : Session k) (p : Nat) : Prop where
  live : p ∈ s'.live
  block : s'.blockAt p = s.blockAt p
  bytes : ∀ a, p ≤ a → a < (s.blockAt p).stop → s'.heap.mem a = s.heap.mem a

/-- The `n` bytes that are asked for in place of `ap` are at `q`. -/
structure Session.Moves (s : Session k) (ap n : Nat) (s' : Session k) (q : Nat) : Prop where
  live : q ∈ s'.live
  room : n + sizeofLink k ≤ (s'.blockAt q).size
  kept : ∀ i, i + sizeofLink k < (s.blockAt ap).size → i < n →
    s'.heap.mem (q + i) = s.heap.mem (ap + i)
  freed : ap ∉ s'.live ↔ q ≠ ap
  reads : ∀ dst src len, preallocCopy s.heap ap n = some (dst, src, len) →
    ap ≤ src ∧ src + len ≤ (s.blockAt ap).stop
  others : ∀ p ∈ s.live, p ≠ ap → s.Keeps s' p
  checks : ∃ L, s'.Checks L

/-- `prealloc` gives the room and keeps the data, or leaves the old block alone. -/
def Session.ReallocSound (s : Session k) (ap n : Nat) : Prop :=
  ∃ h' q, prealloc s.heap ap n = some (h', q) ∧
    (q ≠ 0 → s.Moves ap n (s.moved ap (h', q)) q) ∧
    (q = 0 → s.Keeps (s.moved ap (h', q)) ap ∧ ∃ L, (s.moved ap (h', q)).Checks L)

section Realloc
variable {s : Session k} {ps : List Pool} {ap n : Nat}

/-- `prealloc` copies what it hands to `memcpy`, and frees the old block then. -/
theorem prealloc_eq {h : Heap k} {dst src len : Nat}
    (hcopy : preallocCopy h ap n = some (dst, src, len)) :
    prealloc h ap n = (palloc h n).bind fun r =>
      (pfree ({ r.1 with mem := r.1.mem.copy dst src len } : Heap k) ap).map fun h => (h, dst) := by
  unfold preallocCopy at hcopy
  unfold prealloc
  by_cases hap : ap = 0
  · rw [if_pos hap] at hcopy
    cases hcopy
  · rw [if_neg hap] at hcopy ⊢
    simp only at hcopy ⊢
    split at hcopy
    · rename_i hgrow
      obtain ⟨⟨h₁, ptr⟩, hrun, hptr⟩ := Option.bind_eq_some_iff.mp hcopy
      simp only at hptr
      split at hptr
      · rename_i hne
        obtain ⟨rfl, rfl, rfl⟩ : ptr = dst ∧ ap = src ∧ n = len := by simpa using hptr
        rw [if_pos hgrow, hrun]
        exact if_pos hne
      · cases hptr
    · cases hcopy

theorem Session.keeps_refl {p : Nat} (hp : p ∈ s.live) : s.Keeps s p := ⟨hp, rfl, fun _ _ _ => rfl⟩

theorem Valid.link_of_live (v : Valid s ps) (hap : ap ∈ s.live) :
    sizeSub k ap (sizeofLink k) = ap - sizeofLink k := by
  obtain ⟨b, hb, rfl⟩ := v.block_of_live hap
  rw [v.ok.link_of_payload hb, payload, Nat.add_sub_cancel]

/-- **Reallocation** is sound exactly if the block is large enough as it is, or is too
small, with its header, and the request is turned down. -/
theorem Valid.reallocSound_iff (v : Valid s ps) (hap : ap ∈ s.live) :
    s.ReallocSound ap n ↔ n + sizeofLink k ≤ (s.blockAt ap).size ∨
      (s.blockAt ap).size < n ∧ Refuses s.heap n := by
  have hne := v.live_ne_zero hap
  have hplink := v.link_of_live hap
  have hsame : ∀ q, q = 0 ∨ q = ap → s.moved ap (s.heap, q) = s := fun q hq => by
    rw [Session.moved, if_pos hq]
  by_cases hgrow : (s.blockAt ap).size < n
  · have hgrow' : s.heap.flagNsize (.block (sizeSub k ap (sizeofLink k))) &&&
        sizeNot k (pallocAllocated k) < n := hplink ▸ hgrow
    by_cases hrefuse : Refuses s.heap n
    · -- turned down: nothing happens
      have hrun : prealloc s.heap ap n = some (s.heap, 0) := by
        simp only [prealloc, if_neg hne, if_pos hgrow', v.refused hrefuse]
        exact if_neg (not_not.mpr rfl)
      refine iff_of_true ⟨s.heap, 0, hrun, fun h => absurd rfl h, fun _ => ?_⟩ (.inr ⟨hgrow, hrefuse⟩)
      rw [hsame 0 (.inl rfl)]
      exact ⟨Session.keeps_refl hap, _, v.checks⟩
    · -- more bytes are read than there are
      refine iff_of_false ?_ (by rintro (hle | ⟨-, h⟩) <;> [omega; exact hrefuse h])
      rintro ⟨h', q, hrun, hmoves, -⟩
      obtain ⟨h₁, A, b, C, hpalloc, -⟩ := v.not_refused (Nat.ne_of_gt (Nat.zero_lt_of_lt hgrow)) hrefuse
      have hptr : payload k b ≠ 0 := payload_ne_zero k b
      have hcopy : preallocCopy s.heap ap n = some (payload k b, ap, n) := by
        simp only [preallocCopy, if_neg hne, if_pos hgrow', hpalloc, Option.bind_some]
        exact if_pos hptr
      rw [prealloc_eq hcopy, hpalloc, Option.bind_some] at hrun
      obtain ⟨h₂, -, hpair⟩ := Option.map_eq_some_iff.mp hrun
      have hq := (Prod.mk.inj hpair).2
      obtain ⟨-, hread⟩ := (hmoves (hq ▸ hptr)).reads _ _ _ hcopy
      obtain ⟨c, hc, rfl⟩ := v.block_of_live hap
      rw [v.blockAt hc] at hgrow hread
      rw [payload, Block.stop] at hread
      omega
  · -- the old block is returned
    have hgrow' : ¬ s.heap.flagNsize (.block (sizeSub k ap (sizeofLink k))) &&&
        sizeNot k (pallocAllocated k) < n := hplink ▸ hgrow
    have hrun : prealloc s.heap ap n = some (s.heap, ap) := by
      simp only [prealloc, if_neg hne, if_neg hgrow']
    have hnone : preallocCopy s.heap ap n = none := by
      simp only [preallocCopy, if_neg hne, if_neg hgrow']
    constructor
    · rintro ⟨h', q, hrun', hmoves, -⟩
      obtain ⟨rfl, rfl⟩ := Prod.mk.inj (Option.some.inj (hrun.symm.trans hrun'))
      have hroom := (hmoves hne).room
      rw [hsame ap (.inr rfl)] at hroom
      exact .inl hroom
    · rintro (hroom | ⟨hlt, -⟩)
      · refine ⟨s.heap, ap, hrun, fun _ => ?_, fun h => absurd h hne⟩
        rw [hsame ap (.inr rfl)]
        refine ⟨hap, hroom, fun _ _ _ => rfl, iff_of_false (not_not.mpr hap) (not_not.mpr rfl),
          fun dst src len hcopy => ?_, fun p hp _ => Session.keeps_refl hp, _, v.checks⟩
        cases hnone.symm.trans hcopy
      · exact absurd hlt hgrow

end Realloc

/-- The session is there, and the blocks that are held can be exchanged for others of
exactly the sizes that are sound. -/
def Reallocating (s : Option (Session k)) : Prop :=
  ∃ t, s = some t ∧ ∀ ap ∈ t.live, ∀ n, n + sizeofLink k < sizeMod k →
    (t.ReallocSound ap n ↔ n + sizeofLink k ≤ (t.blockAt ap).size ∨
      (t.blockAt ap).size < n ∧ Refuses t.heap n)

/-- **Reallocation** in every state of a run of admitted calls. -/
theorem always_reallocating (k : Nat) (mem : Memory) (ops : List Op)
    (h : Guarded Session.calls Admitted (some (Session.initial k mem)) ops) :
    Always Session.calls Reallocating (some (Session.initial k mem)) ops := by
  intro l hl
  obtain ⟨t, ps, hrun, hv⟩ := always_laid_calls h l hl
  exact ⟨t, hrun, fun ap hap n _ => hv.reallocSound_iff hap⟩

theorem requests_reallocating :
    Always Session.calls Reallocating (some (Session.initial 2 fun _ => 0))
      [.init ⟨4096, 4352⟩, .palloc 10, .pcalloc 3 5, .pfree 4104] :=
  always_reallocating 2 _ _ (admitted_of_proper requests_proper)

/-- A block of 20 bytes, 8 of them its header, is returned for 13 bytes; and 21 bytes
are copied out of it. -/
theorem growth_unsound :
    Guarded Session.next Permitted (some (Session.initial 2 fun _ => 0))
        [.init ⟨4096, 4352⟩, .palloc 10] ∧
      21 + sizeofLink 2 < sizeMod 2 ∧ ∃ t, [Op.init ⟨4096, 4352⟩, .palloc 10].foldl Session.calls
        (some (Session.initial 2 fun _ => 0)) = some t ∧ 4104 ∈ t.live ∧
          ¬ t.ReallocSound 4104 13 ∧ ¬ t.ReallocSound 4104 21 := by
  have hproper := requests_proper.of_prefix (p := [.init ⟨4096, 4352⟩, .palloc 10]) ⟨_, rfl⟩
  obtain ⟨t, ps, hrun, v⟩ := (always_laid_calls (admitted_of_proper hproper)).last
  refine ⟨fun p a hp t ht => (hproper p a hp t ht).1, by decide, t, hrun, ?_⟩
  have hstate : ∀ u, [Op.init ⟨4096, 4352⟩, .palloc 10].foldl Session.calls
      (some (Session.initial 2 fun _ => 0)) = some u → 4104 ∈ u.live ∧
        (u.blockAt 4104).size = 20 ∧ (u.blockAt 4104).stop = 4116 ∧
        preallocCopy u.heap 4104 21 = some (4124, 4104, 21) ∧
        (prealloc u.heap 4104 21).map Prod.snd = some 4124 := by
    decide +kernel
  obtain ⟨hlive, hsize, hstop, hcopy, hret⟩ := hstate t hrun
  refine ⟨hlive, fun hsound => ?_, ?_⟩
  · rcases (v.reallocSound_iff hlive).mp hsound with hle | ⟨hlt, -⟩
    · rw [hsize] at hle
      exact absurd hle (by decide)
    · rw [hsize] at hlt
      exact absurd hlt (by decide)
  · rintro ⟨h', q, hq, hmoves, -⟩
    rw [hq] at hret
    obtain rfl : q = 4124 := Option.some.inj hret
    obtain ⟨-, hread⟩ := (hmoves (by decide)).reads _ _ _ hcopy
    rw [hstop] at hread
    exact absurd hread (by decide)

/-! ## `pcalloc` -/

section Links
variable {s : Session k} {ps : List Pool} {A C : List Block} {b : Block} {n : Nat}

/-- The headers that a request stores to: those of the block in front, of the block that
is taken and of what is left of it. -/
theorem Valid.palloc_links (v : Valid s ps) (hn : n ≠ 0) (hr : Rounds k n)
    (hold : listed ps = A ++ b :: C) (hsmall : ∀ x ∈ A, x.size < wholeNeed k n)
    (hroom : wholeNeed k n ≤ b.size) :
    ∀ x, LinkPtr.block x ∈ pallocLinks s.heap n →
      x ∈ (A.getLast?.toList ++ b :: leftOver k (wholeNeed k n) b).map Block.addr := by
  rw [← hr.need_eq] at *
  obtain ⟨hentry, hsearch⟩ := palloc_search v.ok v.rep hold hn hroom hsmall
  have hmem : b ∈ listed ps := by simp [hold]
  have hbounds := v.ok.listed_bounds hmem
  have hprev : InUse ps ((links A).getLastD .anchor) :=
    InUse.of_links (L := A) (fun x hx => by simp [hold, hx]) (getLastD_mem _ _)
  have hsize : (s.heap.setNext ((links A).getLastD .anchor)
      (s.heap.next (.block b.addr))).flagNsize (.block b.addr) = b.size :=
    (flagNsize_setNext v.ok.allApart hprev (InUse.of_listed hmem)).trans (v.rep.lists.sizes b hmem)
  have hrest : sizeSub k b.size (need k n) = b.size - need k n :=
    sizeSub_eq hroom ((Nat.le_add_left _ _).trans_lt hbounds.stop)
  have hstop := hbounds.stop
  rw [Block.stop] at hstop
  have hnext : sizeAdd k b.addr (need k n) = b.addr + need k n := sizeAdd_eq (by omega)
  intro x hx
  simp only [pallocLinks, hentry, hsearch, hsize, hrest, hnext] at hx
  split at hx
  · cases hx
  · simp only [List.map_append, List.map_cons, List.mem_append, List.mem_cons]
    rcases List.mem_cons.mp hx with hx | hx
    · left
      cases hA : A.getLast? with
      | none =>
        rw [List.getLast?_eq_none_iff.mp hA] at hx
        cases hx
      | some c =>
        obtain ⟨A', rfl⟩ := List.getLast?_eq_some_iff.mp hA
        rw [links_append, links_cons, getLastD_append_cons] at hx
        simp [LinkPtr.block.inj hx]
    · rcases List.mem_cons.mp hx with hx | hx
      · exact .inr (.inl (LinkPtr.block.inj hx))
      · right
        right
        unfold leftOver
        split at hx
        · rename_i hlarge
          rw [if_pos hlarge]
          simpa using hx
        · cases hx

end Links

/-- At `q`, in what was the block `b`, there are `n` bytes that are held and cleared, and
besides them nothing changes but the headers of the blocks `hs`. -/
structure Session.Clears (s : Session k) (n : Nat) (hs : List Block) (b : Block) (h' : Heap k)
    (q : Nat) : Prop where
  ptr : q = payload k b
  live : q ∈ (s.granted (h', q)).live
  room : n + sizeofLink k ≤ ((s.granted (h', q)).blockAt q).size
  zero : ∀ i < n, h'.mem (q + i) = 0
  frame : ∀ a, h'.mem a ≠ s.heap.mem a →
    (q ≤ a ∧ a < ((s.granted (h', q)).blockAt q).stop) ∨
      ∃ c ∈ hs, c.addr ≤ a ∧ a < c.addr + sizeofLink k
  checks : ∃ L, (s.granted (h', q)).Checks L

/-- `pcalloc` clears the bytes of the product, or nothing changes; `front` says which of
the blocks in front of the one that is taken may have their header changed. -/
def Session.CallocSound (s : Session k) (num size : Nat) (front : List Block → List Block) : Prop :=
  ∃ L h' q, Lists s.heap L ∧ pcalloc s.heap num size = some (h', q) ∧ (q = 0 → h' = s.heap) ∧
    (q ≠ 0 → ∃ A b C, L = A ++ b :: C ∧
      s.Clears (num * size) (front A ++ b :: leftOver k (wholeNeed k (num * size)) b) b h' q)

/-- The block directly in front, the `next` of which is set. -/
def lastBlock (A : List Block) : List Block := A.getLast?.toList

section Calloc
variable {s : Session k} {ps ps' : List Pool} {A C : List Block} {b : Block} {h' : Heap k}
  {n num size : Nat}

/-- What is taken is cleared. -/
theorem Valid.clears (v : Valid s ps) (hn : n ≠ 0) (hr : Rounds k n) (hold : listed ps = A ++ b :: C)
    (hrun : palloc s.heap n = some (h', payload k b)) (htakes : s.Takes n A b C h' (payload k b))
    (hv : Valid (s.granted (h', payload k b)) ps') :
    s.Clears n (lastBlock A ++ b :: leftOver k (wholeNeed k n) b) b
      ({ h' with mem := h'.mem.fill (payload k b) n 0 } : Heap k) (payload k b) := by
  have hq : payload k b ≠ 0 := payload_ne_zero k b
  have hlive : payload k b ∈ (s.granted (h', payload k b)).live := by
    rw [Session.granted, if_neg hq]
    exact List.mem_cons_self
  obtain ⟨c, hc, hcb⟩ := hv.block_of_live hlive
  have hgiven := hv.blockAt hc
  rw [← hcb, htakes.given] at hgiven
  have hneed : n + sizeofLink k ≤ c.size := by
    have hle := hr.le_need
    have hroom := htakes.room
    rw [hr.need_eq] at hle
    rw [← hgiven]
    simp only
    split <;> omega
  have hstop : payload k b + n ≤ c.stop := by
    rw [hcb, payload, Block.stop]
    omega
  -- the bytes that are cleared lie in the block
  have hfilled : Valid (s.granted (({ h' with mem := h'.mem.fill (payload k b) n 0 } : Heap k),
      payload k b)) ps' := by
    have houtside : ∀ a, a < payload k c ∨ c.stop ≤ a →
        h'.mem.fill (payload k b) n 0 a = h'.mem a := by
      intro a ha
      refine Memory.fill_outside (ha.imp (fun h => ?_) fun h => hstop.trans h)
      rw [hcb]
      exact h
    have hstore := hv.store hc houtside
    rw [Session.granted, if_neg hq] at hstore ⊢
    exact hstore
  have hblock := hfilled.blockAt hc
  rw [← hcb] at hblock
  refine ⟨rfl, hlive, hblock ▸ hneed, fun i hi => ?_, fun a ha => ?_, _, hfilled.checks⟩
  · exact if_pos ⟨Nat.le_add_right _ _, Nat.add_lt_add_left hi _⟩
  · rw [hblock]
    by_cases hin : payload k b ≤ a ∧ a < payload k b + n
    · exact .inl ⟨hin.1, hin.2.trans_le hstop⟩
    · right
      have hkeep : (h'.mem.fill (payload k b) n 0) a = h'.mem a := if_neg hin
      have hchange : h'.mem a ≠ s.heap.mem a := fun he => ha (hkeep.trans he)
      have hoff : ¬ Off k (pallocLinks s.heap n) a := fun ho => hchange (palloc_mem hrun ho)
      rw [Off] at hoff
      push Not at hoff
      obtain ⟨x, hx, hle, hlt⟩ := hoff
      obtain ⟨d, hd, rfl⟩ := List.mem_map.mp
        (v.palloc_links hn hr hold htakes.smaller htakes.room x hx)
      exact ⟨d, hd, hle, hlt⟩

/-- **Cleared memory** for a product that rounds, and for one that is turned down. -/
theorem Valid.callocSound (v : Valid s ps) (hcond : Rounds k (num * size) ∨
    num * size % sizeMod k = 0 ∨ Refuses s.heap (num * size % sizeMod k)) :
    s.CallocSound num size lastBlock := by
  have hidle : Palloc.palloc s.heap (num * size % sizeMod k) = some (s.heap, 0) →
      s.CallocSound num size lastBlock := by
    intro hrun
    refine ⟨_, s.heap, 0, v.rep.lists, ?_, fun _ => rfl, fun h => absurd rfl h⟩
    by_cases h0 : num * size % sizeMod k > 0
    · simp only [pcalloc, if_pos h0, hrun, Option.map_some]
      rfl
    · exact if_neg h0
  have hzero : num * size % sizeMod k = 0 → s.CallocSound num size lastBlock := by
    intro h0
    refine hidle ?_
    rw [h0]
    simp [palloc, pallocEntry]
  rcases hcond with hr | h0 | hrefuse
  · have hmod : num * size % sizeMod k = num * size := by
      unfold Rounds at hr
      exact Nat.mod_eq_of_lt (by omega)
    by_cases hn : num * size = 0
    · exact hzero (hmod.trans hn)
    by_cases hlarge : ∃ b ∈ listed ps, wholeNeed k (num * size) ≤ b.size
    · obtain ⟨h', A, b, C, ps', hrun, hold, htakes, hv⟩ := v.takes hn hr hlarge
      have hclears := v.clears hn hr hold hrun htakes hv
      have hq : payload k b ≠ 0 := payload_ne_zero k b
      refine ⟨_, _, payload k b, v.rep.lists, ?_, fun h => absurd h hq,
        fun _ => ⟨A, b, C, hold, hclears⟩⟩
      simp only [pcalloc, hmod, if_pos (Nat.pos_of_ne_zero hn), hrun, Option.map_some, if_pos hq]
    · refine hidle ?_
      rw [hmod]
      refine palloc_none v.ok v.rep fun b hb => ?_
      rw [hr.need_eq]
      exact Nat.lt_of_not_le fun hle => hlarge ⟨b, hb, hle⟩
  · exact hzero h0
  · exact hidle (v.refused hrefuse)

end Calloc

/-- The session is there, and `pcalloc` is sound for each product that rounds or is
turned down. -/
def Callocating (s : Option (Session k)) : Prop :=
  ∃ t, s = some t ∧ ∀ num size, num < sizeMod k → size < sizeMod k →
    Rounds k (num * size) ∨ num * size % sizeMod k = 0 ∨ Refuses t.heap (num * size % sizeMod k) →
      t.CallocSound num size lastBlock

/-- **Cleared memory** in every state of a run of admitted calls. -/
theorem always_callocating (k : Nat) (mem : Memory) (ops : List Op)
    (h : Guarded Session.calls Admitted (some (Session.initial k mem)) ops) :
    Always Session.calls Callocating (some (Session.initial k mem)) ops := by
  intro l hl
  obtain ⟨t, ps, hrun, hv⟩ := always_laid_calls h l hl
  exact ⟨t, hrun, fun num size _ _ hcond => hv.callocSound hcond⟩

theorem requests_callocating :
    Always Session.calls Callocating (some (Session.initial 2 fun _ => 0))
      [.init ⟨4096, 4352⟩, .palloc 10, .pcalloc 3 5, .pfree 4104] :=
  always_callocating 2 _ _ (admitted_of_proper requests_proper)

/-- The block behind the freed one is taken, and the header of the freed one changes; and
a product that wraps is given two bytes. -/
theorem calloc_changes_front :
    Guarded Session.next Permitted (some (Session.initial 2 fun _ => 0))
        [.init ⟨4096, 4352⟩, .palloc 10, .pcalloc 3 5, .pfree 4104] ∧
      ∃ t, [Op.init ⟨4096, 4352⟩, .palloc 10, .pcalloc 3 5, .pfree 4104].foldl Session.calls
        (some (Session.initial 2 fun _ => 0)) = some t ∧
          ¬ t.CallocSound 4 8 (fun _ => []) ∧ ¬ t.CallocSound 2147483649 2 lastBlock := by
  obtain ⟨t, ps, hrun, v⟩ := (always_laid_calls (admitted_of_proper requests_proper)).last
  refine ⟨fun p a hp t ht => (requests_proper p a hp t ht).1, t, hrun, ?_⟩
  have hstate : ∀ u, [Op.init ⟨4096, 4352⟩, .palloc 10, .pcalloc 3 5, .pfree 4104].foldl
      Session.calls (some (Session.initial 2 fun _ => 0)) = some u → u.heap.mem 4096 = 44 ∧
        (pcalloc u.heap 4 8).map (fun r => (r.2, r.1.mem 4096)) = some (4148, 84) ∧
        (pcalloc u.heap 2147483649 2).map (fun r => (r.2, ((u.granted r).blockAt r.2).size)) =
          some (4104, 20) := by
    decide +kernel
  obtain ⟨hbefore, hfront, hwrap⟩ := hstate t hrun
  constructor
  · rintro ⟨L, h', q, -, hq, -, hclears⟩
    rw [hq] at hfront
    obtain ⟨rfl, hafter⟩ := Prod.mk.inj (Option.some.inj hfront)
    obtain ⟨A, b, C, -, hc⟩ := hclears (by decide)
    have hptr : 4148 = b.addr + 8 := hc.ptr
    have hchange : h'.mem 4096 ≠ t.heap.mem 4096 := by
      rw [hafter, hbefore]
      decide
    rcases hc.frame 4096 hchange with ⟨hle, -⟩ | ⟨c, hmem, hle, -⟩
    · exact absurd hle (by decide)
    · rcases List.mem_cons.mp hmem with rfl | hmem
      · omega
      · unfold leftOver at hmem
        split at hmem
        · rw [List.mem_singleton.mp hmem] at hle
          simp only at hle
          omega
        · cases hmem
  · rintro ⟨L, h', q, -, hq, -, hclears⟩
    rw [hq] at hwrap
    obtain ⟨rfl, hsize⟩ := Prod.mk.inj (Option.some.inj hwrap)
    obtain ⟨A, b, C, -, hc⟩ := hclears (by decide)
    have hroom := hc.room
    rw [hsize] at hroom
    exact absurd hroom (by decide)

end Sdkz.Palloc
