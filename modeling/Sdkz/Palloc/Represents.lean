import Sdkz.Palloc.Walk

/-! # A layout in memory

`Represents h ps` says that the headers in memory and the static variables are
those of the layout `ps`. The links in use are the anchor and the headers of the
layout; in a layout that is `Ok` they do not overlap, and the list is in address
order. -/

namespace Sdkz.Palloc
open Sdkz.Base

variable {k : Nat} {h h' : Heap k} {ps P Q : List Pool} {p : Pool} {b c : Block}

/-- The links in use. -/
def InUse (ps : List Pool) : LinkPtr → Prop
  | .anchor => True
  | .block a => a ∈ headers ps

/-- `L` is the allocator's list in memory. -/
structure Lists (h : Heap k) (L : List Block) : Prop where
  linked : Linked h.follow .anchor (links L)
  sizes : ∀ b ∈ L, h.flagNsize b.link = b.size

structure Represents (h : Heap k) (ps : List Pool) : Prop where
  lists : Lists h (listed ps)
  lives : ∀ b ∈ lives ps, h.flagNsize b.link = b.size + pallocAllocated k ∧ h.next b.link = 0
  ppoolLast : h.ppoolLast = lastMarker ps
  freeSize : h.freeSize = ((listed ps).map Block.size).sum
  poolSize : h.poolSize = ((regions k ps).map Region.length).sum

/-- The static variables besides the anchor do not matter. -/
theorem Lists.statics {L : List Block} (hl : Lists h L) (hmem : h'.mem = h.mem)
    (hnext : h'.anchorNext = h.anchorNext) (hsize : h'.anchorSize = h.anchorSize) : Lists h' L := by
  have R := (Relinked.refl (fun _ => True) h).statics hmem hnext hsize
  refine ⟨hl.linked.congr fun r _ => ?_, fun b hb => ?_⟩
  · rw [Heap.follow, Heap.follow, R.next r trivial]
  · rw [R.flagNsize _ trivial, hl.sizes b hb]

/-- A list is the blocks at its links. -/
theorem Lists.eq_map {L : List Block} (hl : Lists h L) :
    L = (links L).map fun r => match r with
      | .anchor => ⟨0, 0⟩
      | .block a => ⟨a, h.flagNsize (.block a)⟩ := by
  rw [links, List.map_map]
  refine (List.map_id L).symm.trans (List.map_congr_left fun b hb => ?_)
  exact congrArg (Block.mk b.addr) (hl.sizes b hb).symm

/-- Memory has one list. -/
theorem Lists.unique {L L' : List Block} (hl : Lists h L) (hl' : Lists h L') : L = L' := by
  rw [hl.eq_map, hl'.eq_map, hl.linked.unique hl'.linked]

/-- The list with another middle part, `mid` for `D`, after some stores. -/
theorem linked_splice {A D C mid : List Block}
    (hl : Linked h.follow .anchor (links (A ++ (D ++ C))))
    (hn : (.anchor :: links (A ++ C)).Nodup) (hnull : NonNull C)
    (hkeep : ∀ r ∈ .anchor :: links (A ++ C), r ≠ (links A).getLastD .anchor →
      h'.next r = h.next r)
    (hmid : Path h'.follow ((links A).getLastD .anchor) (links mid))
    (hseam : h'.next ((links mid).getLastD ((links A).getLastD .anchor)) = headAddr C) :
    Linked h'.follow .anchor (links (A ++ (mid ++ C))) := by
  rw [links_append] at hn hkeep
  rw [links_append, links_append] at hl ⊢
  refine hl.splice hn (fun r hr hne => ?_) hmid ?_
  · rw [Heap.follow, Heap.follow, hkeep r hr hne]
  · rw [Heap.follow, hseam, toLink_headAddr hnull]

/-! ## The links in use -/

theorem InUse.of_listed (hb : b ∈ listed ps) : InUse ps b.link := listed_header hb

theorem InUse.of_lives (hb : b ∈ lives ps) : InUse ps b.link := lives_header hb

theorem LayoutOk.allApart (ok : LayoutOk k ps) : AllApart k (InUse ps) := by
  intro r s hr hs
  cases r with
  | anchor =>
    cases s with
    | anchor => exact .inl rfl
    | block b => exact .inr trivial
  | block a =>
    cases s with
    | anchor => exact .inr trivial
    | block b =>
      by_cases hab : a = b
      · exact .inl (by rw [hab])
      · refine .inr ?_
        let R : Nat → Nat → Prop := fun x y => x + sizeofLink k ≤ y ∨ y + sizeofLink k ≤ x
        have hsymm : Std.Symm R := ⟨fun _ _ h => h.symm⟩
        have hpair : (headers ps).Pairwise R := ok.headers_apart.imp fun {x y} h => Or.inl h
        exact hpair.forall hr hs hab

/-! ## The order of the list -/

theorem blocksOf_sublist {l : Bool} {a : Nat} {cs : List Cell} :
    ((blocksOf l a cs).map Block.addr ++ [a + span cs]).Sublist (headersOf a cs) := by
  induction cs generalizing a with
  | nil => exact List.Sublist.refl _
  | cons c cs ih =>
    have ih := ih (a := a + c.size)
    rw [blocksOf, headersOf, span_cons, ← Nat.add_assoc]
    split
    · exact ih.cons_cons a
    · exact ih.cons a

theorem Pool.listed_sublist (p : Pool) : ((p.free ++ p.marks).map Block.addr).Sublist p.headers := by
  have hall : (p.free.map Block.addr ++ [p.marker]).Sublist p.headers := blocksOf_sublist
  rw [List.map_append]
  refine List.Sublist.trans (List.Sublist.append_left ?_ _) hall
  unfold Pool.marks
  split
  · exact List.Sublist.refl _
  · exact List.nil_sublist _

theorem listed_sublist (ps : List Pool) : ((listed ps).map Block.addr).Sublist (headers ps) := by
  induction ps with
  | nil => exact List.Sublist.refl _
  | cons p ps ih =>
    rw [listed_cons, List.map_append]
    exact p.listed_sublist.append ih

theorem lives_sublist (ps : List Pool) : ((lives ps).map Block.addr).Sublist (headers ps) := by
  induction ps with
  | nil => exact List.Sublist.refl _
  | cons p ps ih =>
    have hall : (p.live.map Block.addr ++ [p.marker]).Sublist p.headers := blocksOf_sublist
    rw [lives_cons, List.map_append]
    exact ((List.sublist_append_left _ _).trans hall).append ih

/-- The list is in address order, with room for the headers. -/
theorem LayoutOk.listed_apart (ok : LayoutOk k ps) :
    (listed ps).Pairwise fun b c => b.addr + sizeofLink k ≤ c.addr :=
  List.pairwise_map.mp (ok.headers_apart.sublist (listed_sublist ps))

theorem sizeofLink_pos (k : Nat) : 0 < sizeofLink k := by
  have := sizeofSizeT_pos k
  rw [sizeofLink_eq]
  omega

theorem LayoutOk.lives_nodup (ok : LayoutOk k ps) : (links (lives ps)).Nodup := by
  have hpos := sizeofLink_pos k
  have hapart := List.pairwise_map.mp (ok.headers_apart.sublist (lives_sublist ps))
  refine List.Pairwise.map _ (fun b c h he => ?_) hapart
  have := LinkPtr.block.inj he
  omega

/-- What an address on the list is good for. -/
structure InBounds (k : Nat) (b : Block) : Prop where
  positive : 0 < b.addr
  header : b.addr + sizeofLink k < sizeMod k
  stop : b.stop < sizeMod k
  size : b.size < pallocAllocated k

theorem LayoutOk.bounds_of (ok : LayoutOk k ps) (hp : p ∈ ps) (hstart : p.start ≤ b.addr)
    (hstop : b.stop ≤ p.marker) : InBounds k b := by
  have hok := ok.pools p hp
  have hpos := hok.positive
  have hlt := hok.bounded
  have hlen := ok.region_length hp
  rw [Pool.stop] at hlt hlen
  rw [Block.stop] at hstop
  refine ⟨by omega, by omega, ?_, by omega⟩
  rw [Block.stop]
  omega

theorem LayoutOk.listed_bounds (ok : LayoutOk k ps) (hb : b ∈ listed ps) : InBounds k b := by
  obtain ⟨p, hp, hb⟩ := mem_listed.mp hb
  rcases hb with hb | hb
  · obtain ⟨-, hstart, hstop, -⟩ := Pool.mem_free hb
    exact ok.bounds_of hp hstart hstop
  · rw [Pool.mem_marks hb]
    exact ok.bounds_of hp (Nat.le_add_right _ _) (Nat.le_refl _)

theorem LayoutOk.lives_bounds (ok : LayoutOk k ps) (hb : b ∈ lives ps) : InBounds k b := by
  obtain ⟨p, hp, hb⟩ := mem_lives.mp hb
  obtain ⟨-, hstart, hstop, -⟩ := Pool.mem_live hb
  exact ok.bounds_of hp hstart hstop

theorem LayoutOk.nonNull (ok : LayoutOk k ps) : NonNull (listed ps) := fun _ hb =>
  Nat.ne_of_gt (ok.listed_bounds hb).positive

theorem LayoutOk.headAddr_lt {L : List Block} (ok : LayoutOk k ps)
    (hsub : ∀ b ∈ L, b ∈ listed ps) : headAddr L < sizeMod k := by
  cases L with
  | nil => exact Nat.two_pow_pos _
  | cons b L =>
    have := (ok.listed_bounds (hsub b List.mem_cons_self)).header
    exact (Nat.le_add_right _ _).trans_lt this

/-- The walks have enough steps. -/
theorem LayoutOk.listed_length (ok : LayoutOk k ps) : (listed ps).length < sizeMod k := by
  have hpos := sizeofLink_pos k
  have hnodup : (0 :: (listed ps).map Block.addr).Nodup := by
    refine List.nodup_cons.mpr ⟨fun hm => ?_, List.Pairwise.map _ (fun b c h => ?_) ok.listed_apart⟩
    · obtain ⟨b, hb, he⟩ := List.mem_map.mp hm
      exact ok.nonNull b hb he
    · exact fun he => by omega
  have hsub : 0 :: (listed ps).map Block.addr ⊆ List.range (sizeMod k) := by
    intro a ha
    rw [List.mem_range]
    rcases List.mem_cons.mp ha with rfl | ha
    · exact Nat.two_pow_pos _
    · obtain ⟨b, hb, rfl⟩ := List.mem_map.mp ha
      have := (ok.listed_bounds hb).header
      omega
  have hlen := hnodup.length_le_of_subset hsub
  rw [List.length_cons, List.length_map, List.length_range] at hlen
  exact hlen

/-- The links of the list, behind the anchor, are all different. -/
theorem LayoutOk.links_nodup (ok : LayoutOk k ps) : (.anchor :: links (listed ps)).Nodup := by
  have hpos := sizeofLink_pos k
  refine List.nodup_cons.mpr ⟨fun hm => ?_, List.Pairwise.map _ (fun b c h he => ?_) ok.listed_apart⟩
  · obtain ⟨b, -, he⟩ := List.mem_map.mp hm
    cases he
  · have := LinkPtr.block.inj he
    omega

/-- A middle part of a list of different links has links of its own. -/
theorem link_ne_of_nodup {A D C : List Block} (hn : (.anchor :: links (A ++ (D ++ C))).Nodup)
    {r : LinkPtr} (hr : r ∈ .anchor :: links (A ++ C)) (hc : c ∈ D) : r ≠ c.link := by
  intro he
  have hlink : c.link ∈ links D := List.mem_map_of_mem hc
  rw [links_append] at hr
  rw [links_append, links_append] at hn
  have hsplit : (.anchor :: links A ++ (links D ++ links C)).Nodup := hn
  rcases List.mem_append.mp (show r ∈ .anchor :: links A ++ links C from hr) with hr | hr
  · exact (List.nodup_append.mp hsplit).2.2 r hr _ (List.mem_append_left _ hlink) he
  · exact (List.nodup_append.mp (List.nodup_append.mp hsplit).2.1).2.2 _ hlink r hr he.symm

theorem outer_nodup {A D C : List Block} (hn : (.anchor :: links (A ++ (D ++ C))).Nodup) :
    (.anchor :: links (A ++ C)).Nodup := by
  refine hn.sublist (List.Sublist.cons_cons _ (List.Sublist.map _ ?_))
  exact List.Sublist.append_left (List.sublist_append_right _ _) A

theorem LayoutOk.link_ne {A D C : List Block} (ok : LayoutOk k ps) (hps : listed ps = A ++ (D ++ C))
    {r : LinkPtr} (hr : r ∈ .anchor :: links (A ++ C)) (hc : c ∈ D) : r ≠ c.link :=
  link_ne_of_nodup (hps ▸ ok.links_nodup) hr hc

theorem LayoutOk.outer_nodup {A D C : List Block} (ok : LayoutOk k ps)
    (hps : listed ps = A ++ (D ++ C)) : (.anchor :: links (A ++ C)).Nodup :=
  Palloc.outer_nodup (hps ▸ ok.links_nodup)

/-- The link in front of a place is one of the links before it. -/
theorem prev_mem (A C : List Block) :
    (links A).getLastD .anchor ∈ .anchor :: links (A ++ C) := by
  rw [links_append]
  exact List.mem_append_left (links C) (getLastD_mem LinkPtr.anchor (links A))

theorem InUse.of_links {L : List Block} {r : LinkPtr} (hsub : ∀ b ∈ L, b ∈ listed ps)
    (hr : r ∈ .anchor :: links L) : InUse ps r := by
  rcases List.mem_cons.mp hr with rfl | hr
  · trivial
  · obtain ⟨b, hb, rfl⟩ := List.mem_map.mp hr
    exact InUse.of_listed (hsub b hb)

/-- An address belongs to one pool. -/
theorem LayoutOk.pool_unique {q : Pool} {a : Nat} (ok : LayoutOk k ps) (hp : p ∈ ps) (hq : q ∈ ps)
    (hap : p.start ≤ a ∧ a < p.stop k) (haq : q.start ≤ a ∧ a < q.stop k) : p = q := by
  by_contra hne
  let R : Pool → Pool → Prop := fun p q => p.stop k ≤ q.start ∨ q.stop k ≤ p.start
  have hsymm : Std.Symm R := ⟨fun _ _ h => h.symm⟩
  have hpair : ps.Pairwise R := (List.pairwise_map.mp ok.ordered).imp fun {p q} h => Or.inl h
  rcases hpair.forall hp hq hne with h | h <;> omega

/-- A live block is not on the list. -/
theorem LayoutOk.lives_ne_listed (ok : LayoutOk k ps) (hb : b ∈ lives ps) (hc : c ∈ listed ps) :
    b.addr ≠ c.addr := by
  intro he
  have hpos := sizeofLink_pos k
  obtain ⟨p, hp, hb⟩ := mem_lives.mp hb
  obtain ⟨q, hq, hc⟩ := mem_listed.mp hc
  obtain ⟨-, hstart, hstop, hcell⟩ := Pool.mem_live hb
  have hlarge := (ok.pools p hp).large _ hcell
  have hin : q.start ≤ c.addr ∧ c.addr ≤ q.marker := by
    rcases hc with hc | hc
    · obtain ⟨-, hstart, hstop, -⟩ := Pool.mem_free hc
      exact ⟨hstart, (Nat.le_add_right _ _).trans hstop⟩
    · rw [Pool.mem_marks hc]
      exact ⟨Nat.le_add_right _ _, Nat.le_refl _⟩
  simp only [Block.stop] at *
  obtain rfl : p = q := by
    refine ok.pool_unique hp hq (a := c.addr) ⟨he ▸ hstart, ?_⟩ ⟨hin.1, ?_⟩
    · rw [Pool.stop]
      omega
    · rw [Pool.stop]
      omega
  rcases hc with hc | hc
  · refine blocksOf_ne (fun d hd => ?_) hb hc he
    exact hpos.trans_le ((ok.pools p hp).large d hd)
  · rw [Pool.mem_marks hc] at he
    simp only at he
    omega

/-- No header lies inside a block. -/
theorem LayoutOk.headers_around {x : Nat} {B₁ B₂ : List Cell} {d : Cell}
    (ok : LayoutOk k (P ++ p :: Q)) (hcells : p.cells = B₁ ++ d :: B₂)
    (hx : x ∈ headers (P ++ p :: Q)) :
    x + sizeofLink k ≤ p.start + span B₁ ∨ x = p.start + span B₁ ∨
      p.start + span B₁ + d.size ≤ x := by
  have hspan : p.marker = p.start + span B₁ + d.size + span B₂ := by
    rw [Pool.marker, hcells, span_append, span_cons]
    omega
  obtain ⟨q, hq, hxq⟩ := List.mem_flatMap.mp hx
  have hin := Pool.mem_headers hxq
  rcases List.mem_append.mp hq with hq | hq
  · have := ok.around.1 q hq
    rw [Pool.stop] at this
    omega
  · rcases List.mem_cons.mp hq with rfl | hq
    · have hapart := headersOf_apart (a := q.start) ok.pool.large
      rw [Pool.headers] at hxq
      rw [hcells, headersOf_append, headersOf] at hxq hapart
      rcases List.mem_append.mp hxq with hx | hx
      · exact .inl ((List.pairwise_append.mp hapart).2.2 x hx _ List.mem_cons_self)
      · rcases List.mem_cons.mp hx with hx | hx
        · exact .inr (.inl hx)
        · exact .inr (.inr (mem_headersOf hx).1)
    · have := ok.around.2 q hq
      rw [Pool.stop] at this
      omega

end Sdkz.Palloc
