import Sdkz.Palloc.Represents

/-! # `palloc` on a layout

A request takes the first free cell that is large enough, and cuts off what would
leave more than two headers. If no cell is large enough, nothing changes. -/

namespace Sdkz.Palloc
open Sdkz.Base

variable {k : Nat} {h h' : Heap k} {ps P Q : List Pool} {p : Pool} {b : Block}
  {n m s a : Nat} {B₁ B₂ : List Cell} {S : LinkPtr → Prop} {next flag : LinkPtr → Nat}

/-- The size of a block for a request of `n` bytes, as `palloc` computes it. -/
def need (k n : Nat) : Nat := alignedValue k (sizeAdd k n (sizeofLink k))

/-- Neither the addition of the header nor the rounding wraps. -/
def Rounds (k n : Nat) : Prop := n + sizeofLink k + alignedMask k < sizeMod k

instance (k n : Nat) : Decidable (Rounds k n) := inferInstanceAs (Decidable (_ < _))

theorem Rounds.le_need (hr : Rounds k n) : n + sizeofLink k ≤ need k n := by
  unfold Rounds at hr
  rw [need, sizeAdd_eq (by omega)]
  exact le_alignedValue hr

/-- What becomes of a free cell of size `s` that is taken. -/
def taken (k m s : Nat) : List Cell :=
  if s - m > sizeofLink k * 2 then [⟨m, true⟩, ⟨s - m, false⟩] else [⟨s, true⟩]

theorem span_taken (hm : m ≤ s) : span (taken k m s) = s := by
  unfold taken
  split
  · simp only [span_cons, span_nil]
    omega
  · rfl

theorem isChain_taken (hc : (B₁ ++ ([(⟨s, false⟩ : Cell)] ++ B₂)).IsChain NotBothFree) :
    (B₁ ++ (taken k m s ++ B₂)).IsChain NotBothFree := by
  obtain ⟨h1, h2, -⟩ := List.isChain_append.mp hc
  have hB₂ : B₂.IsChain NotBothFree := (List.isChain_append.mp h2).2.1
  unfold taken
  split
  · refine List.isChain_append.mpr ⟨h1, ?_, fun x _ y hy => .inr ?_⟩
    · refine List.isChain_cons_cons.mpr ⟨.inl rfl, ?_⟩
      cases B₂ with
      | nil => exact List.isChain_singleton _
      | cons c B₂ =>
        obtain ⟨hfree, hrest⟩ := List.isChain_cons_cons.mp h2
        refine List.isChain_cons_cons.mpr ⟨.inr ?_, hrest⟩
        exact hfree.resolve_left (by simp)
    · obtain rfl := Option.some.inj hy
      rfl
  · refine List.isChain_append.mpr ⟨h1, ?_, fun x _ y hy => .inr ?_⟩
    · cases B₂ with
      | nil => exact List.isChain_singleton _
      | cons c B₂ => exact List.isChain_cons_cons.mpr ⟨.inl rfl, hB₂⟩
    · obtain rfl := Option.some.inj hy
      rfl

/-- The layout with a cell taken. -/
def takeCell (k m s : Nat) (P : List Pool) (p : Pool) (Q : List Pool) (B₁ B₂ : List Cell) :
    List Pool := P ++ ⟨p.start, B₁ ++ (taken k m s ++ B₂), p.marked⟩ :: Q

section Layout
variable (ok : LayoutOk k (P ++ p :: Q)) (hcells : p.cells = B₁ ++ ([⟨s, false⟩] ++ B₂))
  (hm : m ≤ s) (hlink : sizeofLink k ≤ m) (hword : sizeofSizeT k ∣ m)
include ok hcells hm hlink hword

theorem takeCell_ok : LayoutOk k (takeCell k m s P p Q B₁ B₂) := by
  have hp := ok.pool
  have hs : sizeofSizeT k ∣ s := hp.words _ (by simp [hcells] : (⟨s, false⟩ : Cell) ∈ p.cells)
  have hmarker : p.start + span (B₁ ++ (taken k m s ++ B₂)) = p.marker := by
    rw [Pool.marker, hcells, span_append, span_append, span_append, span_taken hm]
    rfl
  have htaken : ∀ c ∈ taken k m s, sizeofLink k ≤ c.size ∧ sizeofSizeT k ∣ c.size := by
    intro c hc
    unfold taken at hc
    split at hc
    · simp only [List.mem_cons, List.not_mem_nil, or_false] at hc
      rcases hc with rfl | rfl
      · exact ⟨hlink, hword⟩
      · exact ⟨by simp only; omega, Nat.dvd_sub hs hword⟩
    · rw [List.mem_singleton.mp hc]
      exact ⟨hlink.trans hm, hs⟩
  have hall : ∀ c ∈ B₁ ++ (taken k m s ++ B₂), sizeofLink k ≤ c.size ∧ sizeofSizeT k ∣ c.size := by
    intro c hc
    simp only [List.mem_append] at hc
    rcases hc with hc | hc | hc
    · have hmem : c ∈ p.cells := by simp [hcells, hc]
      exact ⟨hp.large c hmem, hp.words c hmem⟩
    · exact htaken c hc
    · have hmem : c ∈ p.cells := by simp [hcells, hc]
      exact ⟨hp.large c hmem, hp.words c hmem⟩
  have hregion : Pool.region k ⟨p.start, B₁ ++ (taken k m s ++ B₂), p.marked⟩ = p.region k := by
    simp only [Pool.region, Pool.stop, Pool.marker] at hmarker ⊢
    rw [hmarker]
  refine ok.replace ⟨hp.positive, hp.aligned, fun c hc => (hall c hc).1, fun c hc => (hall c hc).2,
    isChain_taken (hcells ▸ hp.coalesced), ?_⟩ hregion fun hQ => ok.marked p (by simp [hQ])
  exact (congrArg Region.stop hregion).trans_lt hp.bounded

end Layout

/-! ## The stores -/

/-- Taking a block off: it is marked as allocated and no longer counted. -/
theorem takeBlock_relinked (hS : AllApart k S) (R : Relinked S h h' next flag)
    (ha : S (.block a)) (hs : flag (.block a) = s) (hlt : s < pallocAllocated k) :
    Relinked S h (takeBlock h' a) (Function.update next (.block a) 0)
        (Function.update flag (.block a) (s + pallocAllocated k)) ∧
      (takeBlock h' a).freeSize = sizeSub k h'.freeSize s ∧
      (takeBlock h' a).ppoolLast = h'.ppoolLast ∧ (takeBlock h' a).poolSize = h'.poolSize := by
  have hsize : h'.flagNsize (.block a) = s := (R.flagNsize _ ha).trans hs
  let counted : Heap k := { h' with freeSize := sizeSub k h'.freeSize (h'.flagNsize (.block a)) }
  have hcounted : counted.flagNsize (.block a) = s := hsize
  have hflag : s + pallocAllocated k < sizeMod k := by
    rw [sizeMod_eq_double]
    omega
  have Rc : Relinked S h counted next flag := R.statics rfl rfl rfl
  have Rf : Relinked S h
      ((counted.setFlagNsize (.block a) (s + pallocAllocated k)).setNext (.block a) 0) _ _ :=
    (Rc.setFlagNsize hS ha hflag).setNext hS ha (Nat.two_pow_pos _)
  have htake : takeBlock h' a =
      { (counted.setFlagNsize (.block a) (s + pallocAllocated k)).setNext (.block a) 0 with
        numAlloc := sizeAdd k ((counted.setFlagNsize (.block a)
          (s + pallocAllocated k)).setNext (.block a) 0).numAlloc 1 } := by
    rw [← or_allocated hlt, ← hcounted]
    rfl
  rw [htake]
  refine ⟨Rf.statics rfl rfl rfl, ?_, ?_, ?_⟩
  · simp only [freeSize_setNext, freeSize_setFlagNsize]
    rw [← hsize]
  · simp only [ppoolLast_setNext, ppoolLast_setFlagNsize]
    rfl
  · simp only [poolSize_setNext, poolSize_setFlagNsize]
    rfl

/-- A split: the rest follows `prev` on the list. -/
theorem splitBlock_relinked {r : LinkPtr} {v : Nat} (hS : AllApart k S)
    (R : Relinked S h h' next flag) (hr : S r) (ha : S (.block a)) (hrest : S (.block (a + m)))
    (hs : flag (.block a) = s) (hm : m ≤ s) (hlt : a + s < sizeMod k) (hlarge : s - m > sizeofLink k * 2)
    (hv : next r = v) (hvlt : v < sizeMod k) :
    Relinked S h (splitBlock h' m r a)
        (Function.update (Function.update next (.block (a + m)) v) r (a + m))
        (Function.update (Function.update flag (.block (a + m)) (s - m)) (.block a) m) ∧
      (splitBlock h' m r a).freeSize = h'.freeSize ∧
      (splitBlock h' m r a).ppoolLast = h'.ppoolLast ∧
      (splitBlock h' m r a).poolSize = h'.poolSize := by
  have hsize : h'.flagNsize (.block a) = s := (R.flagNsize _ ha).trans hs
  have hnext : h'.next r = v := (R.next _ hr).trans hv
  have hsub : sizeSub k s m = s - m := sizeSub_eq hm (by omega)
  have hadd : sizeAdd k a m = a + m := sizeAdd_eq (by omega)
  simp only [splitBlock, hsize, hsub, hadd, hnext, if_pos hlarge]
  refine ⟨?_, by simp, by simp, by simp⟩
  exact ((R.setLink hS hrest (by omega) hvlt).setFlagNsize hS ha (by omega)).setNext hS hr (by omega)

/-! ## A cell is taken -/

/-- What the links in use hold behind the taking of the cell `s` at `a`, with `C`
behind it on the list. -/
structure Took (S : LinkPtr → Prop) (h h' : Heap k) (A C : List Block) (a m s : Nat) : Prop where
  outside : ∀ x, (∀ b, S (.block b) → x < b ∨ b + sizeofLink k ≤ x) → h'.mem x = h.mem x
  next : ∀ r, S r → r ≠ .block a → r ≠ (links A).getLastD .anchor →
    (∀ b ∈ blocksOf false a (taken k m s), r ≠ b.link) → h'.next r = h.next r
  flagNsize : ∀ r, S r → r ≠ .block a → (∀ b ∈ blocksOf false a (taken k m s), r ≠ b.link) →
    h'.flagNsize r = h.flagNsize r
  path : Path h'.follow ((links A).getLastD .anchor) (links (blocksOf false a (taken k m s)))
  seam : h'.next ((links (blocksOf false a (taken k m s))).getLastD ((links A).getLastD .anchor)) =
    headAddr C
  rest : ∀ b ∈ blocksOf false a (taken k m s), h'.flagNsize b.link = b.size
  live : ∀ b ∈ blocksOf true a (taken k m s),
    h'.flagNsize b.link = b.size + pallocAllocated k ∧ h'.next b.link = 0
  freeSize : h'.freeSize + s = h.freeSize + ((blocksOf false a (taken k m s)).map Block.size).sum
  ppoolLast : h'.ppoolLast = h.ppoolLast
  poolSize : h'.poolSize = h.poolSize

theorem blocksOf_taken (k m s a : Nat) :
    blocksOf false a (taken k m s) =
        (if s - m > sizeofLink k * 2 then [⟨a + m, s - m⟩] else []) ∧
      blocksOf true a (taken k m s) =
        [⟨a, if s - m > sizeofLink k * 2 then m else s⟩] := by
  unfold taken
  split
  · exact ⟨rfl, rfl⟩
  · exact ⟨rfl, rfl⟩

section Cut
variable {A C : List Block} (hS : AllApart k S) (hprev : S ((links A).getLastD .anchor))
  (ha : S (.block a)) (hne : (links A).getLastD .anchor ≠ .block a)
  (hsize : h.flagNsize (.block a) = s) (hm : m ≤ s) (hlt : a + s < sizeMod k)
  (hs : s < pallocAllocated k) (hC : headAddr C < sizeMod k) (hfree : s ≤ h.freeSize)
  (hfreelt : h.freeSize < sizeMod k)
include hS hprev ha hne hsize hm hlt hs hC hfree hfreelt

/-- A large cell is cut, and its rest takes its place on the list. -/
theorem took_cut (hpos : 0 < m) (hlarge : s - m > sizeofLink k * 2) (hy : S (.block (a + m)))
    (hyprev : (links A).getLastD .anchor ≠ .block (a + m)) :
    Took S h (takeBlock (splitBlock (h.setNext ((links A).getLastD .anchor) (headAddr C)) m
      ((links A).getLastD .anchor) a) a) A C a m s := by
  obtain ⟨hrestEq, hliveEq⟩ := blocksOf_taken k m s a
  rw [if_pos hlarge] at hrestEq hliveEq
  generalize hprevEq : (links A).getLastD .anchor = prev at hprev hne hyprev
  have R := (Relinked.refl S h).setNext hS hprev hC
  have hya : LinkPtr.block (a + m) ≠ .block a := fun he => by
    have := LinkPtr.block.inj he
    omega
  obtain ⟨R', hfree', hlast', hpool'⟩ := splitBlock_relinked hS R hprev ha hy hsize hm hlt hlarge
    (Function.update_self _ _ _) hC
  obtain ⟨R'', hfree'', hlast'', hpool''⟩ := takeBlock_relinked hS R' ha
    (Function.update_self _ _ _) (hm.trans_lt hs)
  refine ⟨R''.outside, fun r hr h1 h2 h3 => ?_, fun r hr h1 h3 => ?_, ?_, ?_, ?_, ?_, ?_, ?_, ?_⟩
  · have hry : r ≠ .block (a + m) := h3 ⟨a + m, s - m⟩ (by simp [hrestEq])
    rw [hprevEq] at h2
    rw [R''.next r hr]
    simp [h1, h2, hry]
  · have hry : r ≠ .block (a + m) := h3 ⟨a + m, s - m⟩ (by simp [hrestEq])
    rw [R''.flagNsize r hr]
    simp [h1, hry]
  · rw [hrestEq, hprevEq]
    refine ⟨?_, trivial⟩
    rw [Heap.follow, R''.next prev hprev, Function.update_of_ne hne, Function.update_self]
    exact toLink_of_ne (by omega)
  · rw [hrestEq]
    change Heap.next _ (.block (a + m)) = _
    rw [R''.next _ hy]
    simp [hya, hyprev.symm]
  · rw [hrestEq]
    intro b hb
    rw [List.mem_singleton.mp hb]
    refine (R''.flagNsize _ hy).trans ?_
    simp [hya]
  · rw [hliveEq]
    intro b hb
    rw [List.mem_singleton.mp hb]
    exact ⟨(R''.flagNsize _ ha).trans (Function.update_self _ _ _),
      (R''.next _ ha).trans (Function.update_self _ _ _)⟩
  · rw [hfree'', hfree', hrestEq]
    simp only [freeSize_setNext, List.map_cons, List.map_nil, List.sum_singleton]
    rw [sizeSub_eq (by omega) hfreelt]
    omega
  · rw [hlast'', hlast', ppoolLast_setNext]
  · rw [hpool'', hpool', poolSize_setNext]

/-- A cell without room for a rest is taken as it is. -/
theorem took_whole (hsmall : ¬ s - m > sizeofLink k * 2) :
    Took S h (takeBlock (splitBlock (h.setNext ((links A).getLastD .anchor) (headAddr C)) m
      ((links A).getLastD .anchor) a) a) A C a m s := by
  obtain ⟨hrestEq, hliveEq⟩ := blocksOf_taken k m s a
  rw [if_neg hsmall] at hrestEq hliveEq
  generalize hprevEq : (links A).getLastD .anchor = prev at hprev hne
  have R := (Relinked.refl S h).setNext hS hprev hC
  have hwhole : splitBlock (h.setNext prev (headAddr C)) m prev a =
      h.setNext prev (headAddr C) := by
    have hflag : (h.setNext prev (headAddr C)).flagNsize (.block a) = s :=
      (R.flagNsize _ ha).trans hsize
    simp only [splitBlock, hflag]
    rw [if_neg (by rwa [sizeSub_eq hm (by omega)])]
  rw [hwhole]
  obtain ⟨R'', hfree'', hlast'', hpool''⟩ := takeBlock_relinked hS R ha hsize hs
  refine ⟨R''.outside, fun r hr h1 h2 h3 => ?_, fun r hr h1 h3 => ?_, ?_, ?_, ?_, ?_, ?_, ?_, ?_⟩
  · rw [hprevEq] at h2
    rw [R''.next r hr]
    simp [h1, h2]
  · rw [R''.flagNsize r hr]
    simp [h1]
  · rw [hrestEq]
    trivial
  · rw [hrestEq, hprevEq]
    refine (R''.next prev hprev).trans ?_
    simp [hne]
  · rw [hrestEq]
    intro b hb
    cases hb
  · rw [hliveEq]
    intro b hb
    rw [List.mem_singleton.mp hb]
    exact ⟨(R''.flagNsize _ ha).trans (Function.update_self _ _ _),
      (R''.next _ ha).trans (Function.update_self _ _ _)⟩
  · rw [hfree'', freeSize_setNext, hrestEq, sizeSub_eq hfree hfreelt]
    simp
    omega
  · rw [hlast'', ppoolLast_setNext]
  · rw [hpool'', poolSize_setNext]

theorem took_block (hpos : 0 < m) (hrest : ∀ b ∈ blocksOf false a (taken k m s), S b.link)
    (hfresh : ∀ b ∈ blocksOf false a (taken k m s), (links A).getLastD .anchor ≠ b.link)
    (hnext : h.next (.block a) = headAddr C) :
    Took S h (takeBlock (splitBlock (h.setNext ((links A).getLastD .anchor)
      (h.next (.block a))) m ((links A).getLastD .anchor) a) a) A C a m s := by
  rw [hnext]
  by_cases hlarge : s - m > sizeofLink k * 2
  · have hmem : (⟨a + m, s - m⟩ : Block) ∈ blocksOf false a (taken k m s) := by
      simp [(blocksOf_taken k m s a).1, hlarge]
    exact took_cut hS hprev ha hne hsize hm hlt hs hC hfree hfreelt hpos hlarge (hrest _ hmem)
      (hfresh _ hmem)
  · exact took_whole hS hprev ha hne hsize hm hlt hs hC hfree hfreelt hlarge

end Cut

section Layouts
variable {A C : List Block} {ps' : List Pool} {a : Nat} (hT : Took (InUse ps') h h' A C a m s)
  (ok : LayoutOk k ps) (ok' : LayoutOk k ps') (hold : listed ps = A ++ ([⟨a, s⟩] ++ C))
  (hnew : listed ps' = A ++ (blocksOf false a (taken k m s) ++ C))
  (hlive : ∀ b, b ∈ lives ps' ↔ b ∈ lives ps ∨ b ∈ blocksOf true a (taken k m s))
include hT ok ok' hold hnew hlive

/-- The list behind the taking is that of the layout with the cell taken. -/
theorem Took.lists (hl : Lists h (listed ps)) : Lists h' (listed ps') := by
  -- the links of the list are not the taken one
  have hne_a : ∀ r ∈ .anchor :: links (listed ps'), r ≠ .block a := by
    intro r hr he
    rcases List.mem_cons.mp hr with rfl | hr
    · cases he
    · obtain ⟨b, hb, rfl⟩ := List.mem_map.mp hr
      obtain ⟨c, hc, hca⟩ : ∃ b ∈ blocksOf true a (taken k m s), b.addr = a := by
        rw [(blocksOf_taken k m s a).2]
        exact ⟨_, List.mem_singleton_self _, rfl⟩
      exact ok'.lives_ne_listed ((hlive c).mpr (.inr hc)) hb (hca.trans (LinkPtr.block.inj he).symm)
  have hsub : ∀ b ∈ A ++ C, b ∈ listed ps' ∧ b ∈ listed ps := by
    intro b hb
    simp only [hnew, hold, List.mem_append] at hb ⊢
    tauto
  have hlinks : ∀ r ∈ .anchor :: links (A ++ C), r ≠ .block a := fun r hr => by
    refine hne_a r ((List.Sublist.cons_cons _ (List.Sublist.map _ ?_)).mem hr)
    rw [hnew]
    exact List.Sublist.append_left (List.sublist_append_right _ _) A
  rw [hnew]
  refine ⟨linked_splice (hold ▸ hl.linked) (ok'.outer_nodup hnew) (fun b hb => ?_)
    (fun r hr hne => ?_) hT.path hT.seam, fun b hb => ?_⟩
  · exact ok.nonNull b (by simp [hold, hb])
  · exact hT.next r (InUse.of_links (fun b hb => (hsub b hb).1) hr) (hlinks r hr) hne
      fun b hb => ok'.link_ne hnew hr hb
  · by_cases hrest : b ∈ blocksOf false a (taken k m s)
    · exact hT.rest b hrest
    · have hb : b ∈ A ++ C := by
        simp only [List.mem_append] at hb ⊢
        tauto
      have hr : b.link ∈ .anchor :: links (A ++ C) :=
        List.mem_cons_of_mem _ (List.mem_map_of_mem hb)
      exact (hT.flagNsize b.link (InUse.of_listed (hsub b hb).1) (hlinks _ hr)
        fun c hc => ok'.link_ne hnew hr hc).trans (hl.sizes b (hsub b hb).2)

/-- Blocks that were live keep their headers, and the taken one has its own. -/
theorem Took.lives
    (hl : ∀ b ∈ lives ps, h.flagNsize b.link = b.size + pallocAllocated k ∧ h.next b.link = 0) :
    ∀ b ∈ Palloc.lives ps', h'.flagNsize b.link = b.size + pallocAllocated k ∧
      h'.next b.link = 0 := by
  intro b hb
  have htaken : (⟨a, s⟩ : Block) ∈ listed ps := by simp [hold]
  rcases (hlive b).mp hb with hbold | hbnew
  · have hin : InUse ps' b.link := InUse.of_lives hb
    have hfresh : ∀ c ∈ blocksOf false a (taken k m s), b.link ≠ c.link := fun c hc he =>
      ok'.lives_ne_listed hb (by simp [hnew, hc]) (LinkPtr.block.inj he)
    have hna : b.link ≠ .block a := fun he =>
      ok.lives_ne_listed hbold htaken (LinkPtr.block.inj he)
    have hnp : b.link ≠ (links A).getLastD .anchor := by
      intro he
      have hprev := getLastD_mem LinkPtr.anchor (links A)
      rw [← he] at hprev
      rcases List.mem_cons.mp hprev with he | hmem
      · cases he
      · obtain ⟨c, hc, hcb⟩ := List.mem_map.mp hmem
        exact ok.lives_ne_listed hbold (by simp [hold, hc]) (LinkPtr.block.inj hcb).symm
    rw [hT.flagNsize _ hin hna hfresh, hT.next _ hin hna hnp hfresh]
    exact hl b hbold
  · exact hT.live b hbnew

end Layouts

/-- Where the blocks of a layout are before and behind a cell. -/
def before (P : List Pool) (p : Pool) (B₁ : List Cell) : List Block :=
  listed P ++ blocksOf false p.start B₁

def behind (p : Pool) (a : Nat) (B₂ : List Cell) (Q : List Pool) : List Block :=
  blocksOf false a B₂ ++ p.marks ++ listed Q

section Take
variable (ok : LayoutOk k (P ++ p :: Q)) (hcells : p.cells = B₁ ++ ([⟨s, false⟩] ++ B₂))
  (hm : m ≤ s) (hlink : sizeofLink k ≤ m) (hword : sizeofSizeT k ∣ m)

theorem listed_cell {l : Bool} (hcells : p.cells = B₁ ++ ([⟨s, l⟩] ++ B₂)) :
    listed (P ++ p :: Q) = before P p B₁ ++ (blocksOf false (p.start + span B₁) [⟨s, l⟩] ++
      behind p (p.start + span B₁ + s) B₂ Q) := listed_place hcells

include hcells hm in
theorem listed_takeCell : listed (takeCell k m s P p Q B₁ B₂) = before P p B₁ ++
    (blocksOf false (p.start + span B₁) (taken k m s) ++
      behind p (p.start + span B₁ + s) B₂ Q) := by
  have hmarker : p.start + span (B₁ ++ (taken k m s ++ B₂)) = p.marker := by
    rw [Pool.marker, hcells, span_append, span_append, span_append, span_taken hm]
    rfl
  have hmarks : Pool.marks ⟨p.start, B₁ ++ (taken k m s ++ B₂), p.marked⟩ = p.marks := by
    simp only [Pool.marks, Pool.marker] at hmarker ⊢
    rw [hmarker]
  rw [takeCell, listed_place rfl, span_taken hm, hmarks]
  rfl

include hcells hm in
theorem mem_lives_takeCell : b ∈ lives (takeCell k m s P p Q B₁ B₂) ↔
    b ∈ lives (P ++ p :: Q) ∨ b ∈ blocksOf true (p.start + span B₁) (taken k m s) := by
  have hnone : blocksOf true (p.start + span B₁) [(⟨s, false⟩ : Cell)] = [] := rfl
  have hspan : span [(⟨s, false⟩ : Cell)] = s := rfl
  rw [takeCell, lives_place rfl, lives_place hcells, span_taken hm, hnone, hspan]
  simp only [List.mem_append, List.not_mem_nil, false_or]
  tauto

/-- The block that is taken. -/
def takenBlock (k m s a : Nat) : Block := ⟨a, if s - m > sizeofLink k * 2 then m else s⟩

include hcells hm in
theorem lives_takeCell : (lives (takeCell k m s P p Q B₁ B₂)).Perm
    (takenBlock k m s (p.start + span B₁) :: lives (P ++ p :: Q)) := by
  have hnone : blocksOf true (p.start + span B₁) [(⟨s, false⟩ : Cell)] = [] := rfl
  have hspan : span [(⟨s, false⟩ : Cell)] = s := rfl
  rw [takeCell, lives_place rfl, lives_place hcells, span_taken hm, hnone, hspan,
    (blocksOf_taken k m s _).2]
  exact List.perm_middle

include hcells hm in
theorem regions_takeCell :
    regions k (takeCell k m s P p Q B₁ B₂) = regions k (P ++ p :: Q) := by
  have hspan : span (B₁ ++ (taken k m s ++ B₂)) = span p.cells := by
    rw [hcells, span_append, span_append, span_append, span_append, span_taken hm]
    rfl
  simp [regions, takeCell, Pool.region, Pool.stop, Pool.marker, hspan]

include ok hcells hm hlink hword in
/-- **Taking a cell** leads to the layout with the cell taken. -/
theorem take_represents (rep : Represents h (P ++ p :: Q))
    (hT : Took (InUse (takeCell k m s P p Q B₁ B₂)) h h' (before P p B₁)
      (behind p (p.start + span B₁ + s) B₂ Q) (p.start + span B₁) m s) :
    Represents h' (takeCell k m s P p Q B₁ B₂) := by
  have ok' := takeCell_ok ok hcells hm hlink hword
  have hold : listed (P ++ p :: Q) = before P p B₁ ++ ([⟨p.start + span B₁, s⟩] ++
      behind p (p.start + span B₁ + s) B₂ Q) := listed_cell hcells
  have hnew := listed_takeCell (P := P) (Q := Q) (k := k) hcells hm
  have hlive := fun b => mem_lives_takeCell (P := P) (Q := Q) (k := k) (b := b) hcells hm
  refine ⟨hT.lists ok ok' hold hnew hlive rep.lists, hT.lives ok ok' hold hnew hlive rep.lives,
    ?_, ?_, ?_⟩
  · rw [hT.ppoolLast, rep.ppoolLast]
    refine (lastMarker_replace ?_).symm
    rw [Pool.marker, Pool.marker, hcells, span_append, span_append, span_append, span_taken hm]
    rfl
  · have hfree := hT.freeSize
    have hsum := rep.freeSize
    rw [hold] at hsum
    rw [hnew]
    simp only [List.map_append, List.sum_append, List.map_cons, List.map_nil, List.sum_cons,
      List.sum_nil] at hsum ⊢
    omega
  · rw [hT.poolSize, rep.poolSize, regions_takeCell hcells hm]

end Take

/-! ## Requests -/

theorem pallocEntry_eq (h0 : h.anchorNext ≠ 0) (hn : n ≠ 0)
    (hflag : need k n &&& pallocAllocated k = 0) (hfree : need k n ≤ h.freeSize) :
    pallocEntry h n = some (need k n, h.anchorNext) := by
  have hlow : ¬ (h.anchorNext = 0 ∨ n = 0) := not_or.mpr ⟨h0, hn⟩
  have hflag' : ¬ alignedValue k (sizeAdd k n (sizeofLink k)) &&& pallocAllocated k ≠ 0 :=
    not_not.mpr hflag
  have hfree' : ¬ alignedValue k (sizeAdd k n (sizeofLink k)) > h.freeSize := not_lt.mpr hfree
  simp only [pallocEntry]
  rw [if_neg hlow, if_neg hflag', if_neg hfree']
  rfl

/-- If no block but the last marker is large enough, a request fails a test in front of the
critical section, or the search ends at the last marker. -/
theorem palloc_search_refused (ok : LayoutOk k ps) (rep : Represents h ps)
    (hall : ∀ b ∈ listed ps, b.addr ≠ lastMarker ps → b.size < need k n) :
    pallocEntry h n = none ∨ ∃ prev, pallocEntry h n = some (need k n, h.anchorNext) ∧
      searchLoop h (need k n) (sizeMod k) .anchor h.anchorNext = some (prev, h.ppoolLast) := by
  cases hentry : pallocEntry h n with
  | none => exact .inl rfl
  | some r =>
    obtain ⟨size, plink⟩ := r
    obtain ⟨h0, rfl, rfl⟩ : h.anchorNext ≠ 0 ∧ size = need k n ∧ plink = h.anchorNext := by
      simp only [pallocEntry] at hentry
      split at hentry
      · cases hentry
      · rename_i hlow
        split at hentry
        · cases hentry
        · split at hentry
          · cases hentry
          · obtain ⟨rfl, rfl⟩ := Prod.mk.inj (Option.some.inj hentry)
            exact ⟨(not_or.mp hlow).1, rfl, rfl⟩
    have hnext : h.anchorNext = headAddr (listed ps) := linked_next rep.lists.linked
    have hne : ps ≠ [] := by
      rintro rfl
      exact h0 hnext
    obtain ⟨L, hL⟩ := ok.getLast_listed hne
    have hlists := rep.lists
    have hlen := ok.listed_length
    have hnull := ok.nonNull
    have hapart := ok.listed_apart
    rw [hL] at hlists hlen hnull hall hnext hapart
    rw [List.length_append, List.length_singleton] at hlen
    have hfront : ∀ x ∈ L, x.size < need k n := by
      intro x hx
      have hpos := sizeofLink_pos k
      have hle := (List.pairwise_append.mp hapart).2.2 x hx _ (List.mem_singleton_self _)
      exact hall x (List.mem_append_left _ hx) (by simp only at hle; omega)
    have hsearch : searchLoop h (need k n) (sizeMod k) .anchor
        (headAddr (L ++ [⟨lastMarker ps, 0⟩])) = some ((links L).getLastD .anchor, lastMarker ps) :=
      searchLoop_eq (b := ⟨lastMarker ps, 0⟩) hlists.linked hnull hlists.sizes hfront (.inr rfl)
        (by omega)
    rw [← hnext, ← rep.ppoolLast] at hsearch
    exact .inr ⟨_, rfl, hsearch⟩

/-- Then nothing happens. -/
theorem palloc_refused (ok : LayoutOk k ps) (rep : Represents h ps)
    (hall : ∀ b ∈ listed ps, b.addr ≠ lastMarker ps → b.size < need k n) :
    palloc h n = some (h, 0) := by
  unfold palloc
  rcases palloc_search_refused ok rep hall with hentry | ⟨prev, hentry, hsearch⟩
  · rw [hentry]
  · rw [hentry]
    simp only [pallocLocked]
    rw [hsearch]
    exact if_pos rfl

/-- Without a large enough block nothing happens. -/
theorem palloc_none (ok : LayoutOk k ps) (rep : Represents h ps)
    (hall : ∀ b ∈ listed ps, b.size < need k n) : palloc h n = some (h, 0) :=
  palloc_refused ok rep fun b hb _ => hall b hb

/-- A request passes the tests in front of the critical section, and the search ends at
the first block that is large enough. -/
theorem palloc_search {A C : List Block} (ok : LayoutOk k ps) (rep : Represents h ps)
    (hold : listed ps = A ++ b :: C) (hn : n ≠ 0) (hm : need k n ≤ b.size)
    (hfirst : ∀ x ∈ A, x.size < need k n) :
    pallocEntry h n = some (need k n, h.anchorNext) ∧
      searchLoop h (need k n) (sizeMod k) .anchor h.anchorNext =
        some ((links A).getLastD .anchor, b.addr) := by
  have hmem : b ∈ listed ps := by simp [hold]
  have hlists := hold ▸ rep.lists
  have hnull := hold ▸ ok.nonNull
  have hlen := ok.listed_length
  rw [hold, List.length_append] at hlen
  have hanchor : h.anchorNext = headAddr (A ++ b :: C) := linked_next hlists.linked
  have hfree : b.size ≤ h.freeSize := by
    rw [rep.freeSize]
    exact List.single_le_sum (by simp) _ (List.mem_map_of_mem (f := Block.size) hmem)
  have hsearch := searchLoop_eq hlists.linked hnull hlists.sizes hfirst (.inl hm)
    (show A.length < sizeMod k by omega)
  rw [← hanchor] at hsearch
  exact ⟨pallocEntry_eq (hanchor ▸ headAddr_ne hnull) hn
    (and_allocated (hm.trans_lt (ok.listed_bounds hmem).size)) (hm.trans hfree), hsearch⟩

/-- What `palloc` returns for the first block that is large enough, also if the size it
computes has wrapped and does not leave a layout. -/
theorem palloc_found {A C : List Block} (ok : LayoutOk k ps) (rep : Represents h ps)
    (hold : listed ps = A ++ b :: C) (hn : n ≠ 0) (hm : need k n ≤ b.size)
    (hfirst : ∀ x ∈ A, x.size < need k n) (hlast : b.addr ≠ lastMarker ps) :
    ∃ h', palloc h n = some (h', b.addr + sizeofLink k) := by
  obtain ⟨hentry, hsearch⟩ := palloc_search ok rep hold hn hm hfirst
  have hlinked := (hold ▸ rep.lists).linked
  obtain ⟨-, htail⟩ := linked_append.mp (links_append A _ ▸ hlinked)
  have hprev : h.next ((links A).getLastD .anchor) = b.addr := linked_next htail
  have hbounds := ok.listed_bounds (b := b) (by simp [hold])
  rw [palloc, hentry]
  simp only [pallocLocked]
  rw [hsearch]
  simp only
  rw [if_neg (rep.ppoolLast ▸ hlast), hprev, sizeAdd_eq hbounds.header]
  exact ⟨_, rfl⟩

/-- A search that ends at a free cell that is large enough takes it. -/
theorem pallocLocked_some {plink : Nat} (ok : LayoutOk k (P ++ p :: Q))
    (rep : Represents h (P ++ p :: Q)) (hcells : p.cells = B₁ ++ ([⟨s, false⟩] ++ B₂)) (hm : m ≤ s)
    (hlink : sizeofLink k ≤ m) (hword : sizeofSizeT k ∣ m)
    (hsearch : searchLoop h m (sizeMod k) .anchor plink =
      some ((links (before P p B₁)).getLastD .anchor, p.start + span B₁)) :
    ∃ h', pallocLocked h m plink = some (h', p.start + span B₁ + sizeofLink k) ∧
      Took (InUse (takeCell k m s P p Q B₁ B₂)) h h' (before P p B₁)
        (behind p (p.start + span B₁ + s) B₂ Q) (p.start + span B₁) m s := by
  have ok' := takeCell_ok ok hcells hm hlink hword
  have hold : listed (P ++ p :: Q) = _ := listed_cell hcells
  have hnew := listed_takeCell (P := P) (Q := Q) (k := k) hcells hm
  have hlive := fun b => mem_lives_takeCell (P := P) (Q := Q) (k := k) (b := b) hcells hm
  have hmarker : p.start + span B₁ + s ≤ p.marker := by
    rw [Pool.marker, hcells, span_append, span_append]
    simp only [span_cons, span_nil]
    omega
  have hlast := (hmarker.trans (ok.marker_le_last (List.mem_append_right P List.mem_cons_self)))
  generalize ha : p.start + span B₁ = a at *
  generalize hA : before P p B₁ = A at *
  generalize hC : behind p (a + s) B₂ Q = C at *
  generalize hps : takeCell k m s P p Q B₁ B₂ = ps' at *
  have hone : blocksOf false a [(⟨s, false⟩ : Cell)] = [⟨a, s⟩] := rfl
  rw [hone] at hold
  have hmem : (⟨a, s⟩ : Block) ∈ listed (P ++ p :: Q) := by simp [hold]
  have hbounds := ok.listed_bounds hmem
  have hlinkpos := sizeofLink_pos k
  have hstop : a + s < sizeMod k := hbounds.stop
  have hlists := hold ▸ rep.lists
  have hlinked := hlists.linked
  have hfree : s ≤ h.freeSize := by
    rw [rep.freeSize]
    exact List.single_le_sum (by simp) _ (List.mem_map_of_mem (f := Block.size) hmem)
  have hfreelt : h.freeSize < sizeMod k := by
    rw [rep.freeSize]
    have := sum_blocks_le k (P ++ p :: Q)
    have := ok.total
    omega
  obtain ⟨-, htail⟩ := linked_append.mp (links_append A _ ▸ hlinked)
  have hprev : h.next ((links A).getLastD .anchor) = a := linked_next htail
  have hnext : h.next (.block a) = headAddr C := linked_next htail.2
  have hnotlast : a ≠ h.ppoolLast := by
    rw [rep.ppoolLast]
    omega
  have hbefore : InUse ps' ((links A).getLastD .anchor) := by
    refine InUse.of_links (L := A) (fun b hb => ?_) (getLastD_mem _ _)
    simp [hnew, hb]
  have htaken : InUse ps' (.block a) := by
    obtain ⟨c, hc, rfl⟩ : ∃ b ∈ blocksOf true a (taken k m s), b.addr = a := by
      rw [(blocksOf_taken k m s a).2]
      exact ⟨_, List.mem_singleton_self _, rfl⟩
    exact InUse.of_lives ((hlive c).mpr (.inr hc))
  have hne : (links A).getLastD .anchor ≠ .block a := fun he =>
    ok.link_ne (c := ⟨a, s⟩) hold (prev_mem A C) (List.mem_singleton_self _) he
  have hbehind : headAddr C < sizeMod k := ok.headAddr_lt fun b hb => by simp [hold, hb]
  refine ⟨_, ?_, took_block ok'.allApart hbefore htaken hne (hlists.sizes ⟨a, s⟩ (by simp)) hm hstop
    hbounds.size hbehind hfree hfreelt (by omega) (fun b hb => ?_) (fun b hb => ?_) hnext⟩
  · simp only [pallocLocked]
    rw [hsearch]
    simp only
    rw [if_neg hnotlast, hprev, sizeAdd_eq hbounds.header]
  · exact InUse.of_listed (by simp [hnew, hb])
  · exact ok'.link_ne hnew (prev_mem A C) hb

/-- The first block that is large enough is taken. -/
theorem palloc_some (ok : LayoutOk k (P ++ p :: Q)) (rep : Represents h (P ++ p :: Q))
    (hcells : p.cells = B₁ ++ ([⟨s, false⟩] ++ B₂)) (hn : n ≠ 0) (hm : need k n ≤ s)
    (hlink : sizeofLink k ≤ need k n) (hfirst : ∀ b ∈ before P p B₁, b.size < need k n) :
    ∃ h', palloc h n = some (h', p.start + span B₁ + sizeofLink k) ∧
      Took (InUse (takeCell k (need k n) s P p Q B₁ B₂)) h h' (before P p B₁)
        (behind p (p.start + span B₁ + s) B₂ Q) (p.start + span B₁) (need k n) s := by
  have hold : listed (P ++ p :: Q) = before P p B₁ ++ (⟨p.start + span B₁, s⟩ ::
    behind p (p.start + span B₁ + s) B₂ Q) := listed_cell hcells
  obtain ⟨hentry, hsearch⟩ := palloc_search ok rep hold hn hm hfirst
  obtain ⟨h', hlocked, hT⟩ := pallocLocked_some ok rep hcells hm hlink (dvd_alignedValue k _) hsearch
  refine ⟨h', ?_, hT⟩
  rw [palloc, hentry]
  exact hlocked

/-- The first large enough cell. -/
theorem exists_cell (hlarge : ∃ b ∈ listed ps, m ≤ b.size) (hm : 0 < m) :
    ∃ P p Q B₁ B₂ s, ps = P ++ p :: Q ∧ p.cells = B₁ ++ ([⟨s, false⟩] ++ B₂) ∧ m ≤ s ∧
      ∀ b ∈ before P p B₁, b.size < m := by
  obtain ⟨b, hb⟩ : ∃ b, (listed ps).find? (fun b => decide (m ≤ b.size)) = some b := by
    obtain ⟨b, hb, hs⟩ := hlarge
    exact Option.isSome_iff_exists.mp (List.find?_isSome.mpr ⟨b, hb, decide_eq_true hs⟩)
  obtain ⟨hs, A, C, hsplit, hA⟩ := List.find?_eq_some_iff_append.mp hb
  have hs := of_decide_eq_true hs
  obtain ⟨P, p, Q, B₁, B₂, rfl, hcells, -, hbefore, -⟩ := listed_split hsplit (by omega)
  refine ⟨P, p, Q, B₁, B₂, b.size, rfl, hcells, hs, fun c hc => ?_⟩
  have hc' := hA c (hbefore ▸ hc)
  simpa using hc'

/-- **`palloc`** on a layout: nothing happens, or the first large enough cell is taken. -/
theorem palloc_represents (ok : LayoutOk k ps) (rep : Represents h ps)
    (hn : n = 0 ∨ sizeofLink k ≤ need k n) :
    (palloc h n = some (h, 0) ∧ (n ≠ 0 → ∀ b ∈ listed ps, b.size < need k n)) ∨
      ∃ P p Q B₁ B₂ s h', ps = P ++ p :: Q ∧ p.cells = B₁ ++ ([⟨s, false⟩] ++ B₂) ∧
        need k n ≤ s ∧ (∀ b ∈ before P p B₁, b.size < need k n) ∧
        palloc h n = some (h', p.start + span B₁ + sizeofLink k) ∧
        Represents h' (takeCell k (need k n) s P p Q B₁ B₂) ∧
        ∀ a, (∀ b ∈ headers (takeCell k (need k n) s P p Q B₁ B₂), a < b ∨ b + sizeofLink k ≤ a) →
          h'.mem a = h.mem a := by
  by_cases h0 : n = 0
  · refine .inl ⟨?_, fun hne => absurd h0 hne⟩
    simp [palloc, pallocEntry, h0]
  by_cases hlarge : ∃ b ∈ listed ps, need k n ≤ b.size
  · have hlink := hn.resolve_left h0
    have hpos := sizeofLink_pos k
    obtain ⟨P, p, Q, B₁, B₂, s, rfl, hcells, hs, hfirst⟩ := exists_cell hlarge (by omega)
    obtain ⟨h', hrun, hT⟩ := palloc_some ok rep hcells h0 hs hlink hfirst
    exact .inr ⟨P, p, Q, B₁, B₂, s, h', rfl, hcells, hs, hfirst, hrun,
      take_represents ok hcells hs hlink (dvd_alignedValue k _) rep hT, hT.outside⟩
  · have hall : ∀ b ∈ listed ps, b.size < need k n := fun b hb =>
      Nat.lt_of_not_le fun hle => hlarge ⟨b, hb, hle⟩
    exact .inl ⟨palloc_none ok rep hall, fun _ => hall⟩

end Sdkz.Palloc
