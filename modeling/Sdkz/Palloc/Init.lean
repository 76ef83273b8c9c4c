import Sdkz.Palloc.Represents

/-! # `palloc_init` on a layout

A region becomes a pool with one free cell. Its place is between the pools below
it and those above it; its marker is listed, also if it is not the last one. -/

namespace Sdkz.Palloc
open Sdkz.Base

variable {k : Nat} {h h' : Heap k} {ps P Q : List Pool} {r : Region} {S : LinkPtr → Prop}

/-- Memory that `palloc_init` takes as it is. -/
structure Region.Ok (k : Nat) (r : Region) : Prop where
  positive : 0 < r.start
  start : sizeofSizeT k ∣ r.start
  stop : sizeofSizeT k ∣ r.stop
  large : 2 * sizeofLink k < r.length
  bounded : r.stop < sizeMod k

/-- A region that is apart from those of the layout, with a size that a header has room for. -/
structure Region.Fits (k : Nat) (r : Region) (rs : List Region) : Prop where
  ok : r.Ok k
  disjoint : ∀ s ∈ rs, r.stop ≤ s.start ∨ s.stop ≤ r.start
  small : r.length < pallocAllocated k

def newPool (k : Nat) (r : Region) : Pool := ⟨r.start, [⟨r.length - sizeofLink k, false⟩], true⟩

/-! ## The layout -/

section Layout
variable (hr : r.Ok k)
include hr

theorem Region.Ok.newPool_marker : (newPool k r).marker = r.stop - sizeofLink k := by
  have hlarge := hr.large
  rw [Region.length] at hlarge
  simp only [Pool.marker, newPool, span_cons, span_nil, Region.length]
  omega

theorem Region.Ok.start_ne_marker : r.start ≠ (newPool k r).marker := by
  have hlarge := hr.large
  rw [hr.newPool_marker]
  rw [Region.length] at hlarge
  omega

theorem Region.Ok.newPool_stop : (newPool k r).stop k = r.stop := by
  have hlarge := hr.large
  rw [Region.length] at hlarge
  rw [Pool.stop, hr.newPool_marker]
  omega

theorem Region.Ok.newPool_region : (newPool k r).region k = r := by
  rw [Pool.region, hr.newPool_stop]
  rfl

theorem Region.Ok.newPool_ok : (newPool k r).Ok k := by
  have hlink : sizeofSizeT k ∣ sizeofLink k := by
    rw [sizeofLink_eq]
    exact Nat.dvd_mul_left _ _
  have hlarge := hr.large
  refine ⟨hr.positive, hr.start, fun c hc => ?_, fun c hc => ?_, List.isChain_singleton _, ?_⟩
  · rw [List.mem_singleton.mp hc]
    simp only
    omega
  · rw [List.mem_singleton.mp hc]
    exact Nat.dvd_sub (Nat.dvd_sub hr.stop hr.start) hlink
  · rw [hr.newPool_stop]
    exact hr.bounded

end Layout

/-- A region has its place among the pools. -/
theorem LayoutOk.split_at (ok : LayoutOk k ps)
    (hr : ∀ s ∈ regions k ps, r.stop ≤ s.start ∨ s.stop ≤ r.start) :
    ∃ P Q, ps = P ++ Q ∧ (∀ p ∈ P, p.stop k ≤ r.start) ∧ ∀ q ∈ Q, r.stop ≤ q.start := by
  have hordered := ok.ordered
  clear ok
  induction ps with
  | nil => exact ⟨[], [], rfl, by simp, by simp⟩
  | cons p ps ih =>
    obtain ⟨hfirst, hrest⟩ := List.pairwise_cons.mp hordered
    obtain ⟨P, Q, rfl, hP, hQ⟩ := ih (fun s hs => hr s (List.mem_cons_of_mem _ hs)) hrest
    rcases hr _ List.mem_cons_self with h | h
    · refine ⟨[], p :: (P ++ Q), rfl, by simp, fun q hq => ?_⟩
      rcases List.mem_cons.mp hq with rfl | hq
      · exact h
      · have hpq := hfirst _ (List.mem_map_of_mem hq)
        have hlen : p.start ≤ p.stop k := (Nat.le_add_right _ _).trans (Nat.le_add_right _ _)
        exact (h.trans hlen).trans hpq
    · refine ⟨p :: P, Q, rfl, fun q hq => ?_, hQ⟩
      rcases List.mem_cons.mp hq with rfl | hq
      · exact h
      · exact hP q hq

section Place
variable (ok : LayoutOk k (P ++ Q)) (hr : r.Fits k (regions k (P ++ Q)))
  (hP : ∀ p ∈ P, p.stop k ≤ r.start) (hQ : ∀ q ∈ Q, r.stop ≤ q.start)

theorem listed_newPool : listed (P ++ newPool k r :: Q) = listed P ++
    ([⟨r.start, r.length - sizeofLink k⟩, ⟨(newPool k r).marker, 0⟩] ++ listed Q) := by
  rw [listed_append, listed_cons]
  rfl

theorem lives_newPool : lives (P ++ newPool k r :: Q) = lives (P ++ Q) := by
  rw [lives_append, lives_append, lives_cons]
  rfl

theorem lastMarker_newPool (hne : Q ≠ []) :
    lastMarker (P ++ newPool k r :: Q) = lastMarker (P ++ Q) := by
  cases Q with
  | nil => exact absurd rfl hne
  | cons q Q => simp [lastMarker, List.getLast?_append]

include hr in
theorem regions_newPool : (regions k (P ++ newPool k r :: Q)).Perm (r :: regions k (P ++ Q)) := by
  have hregion := hr.ok.newPool_region
  simp only [regions, List.map_append, List.map_cons, hregion]
  exact List.perm_middle

include ok hr hP hQ in
theorem newPool_layout : LayoutOk k (P ++ newPool k r :: Q) := by
  have hregion := hr.ok.newPool_region
  refine ⟨fun p hp => ?_, ?_, fun p hp => ?_, fun s hs => ?_⟩
  · rcases List.mem_append.mp hp with hp | hp
    · exact ok.pools p (List.mem_append_left _ hp)
    · rcases List.mem_cons.mp hp with rfl | hp
      · exact hr.ok.newPool_ok
      · exact ok.pools p (List.mem_append_right _ hp)
  · have hordered := ok.ordered
    simp only [regions, List.map_append, List.map_cons, hregion, List.pairwise_append,
      List.pairwise_cons] at hordered ⊢
    obtain ⟨hPP, hQQ, hPQ⟩ := hordered
    refine ⟨hPP, ⟨fun s hs => ?_, hQQ⟩, fun s hs t ht => ?_⟩
    · obtain ⟨q, hq, rfl⟩ := List.mem_map.mp hs
      exact hQ q hq
    · rcases List.mem_cons.mp ht with rfl | ht
      · obtain ⟨p, hp, rfl⟩ := List.mem_map.mp hs
        exact hP p hp
      · exact hPQ s hs t ht
  · cases Q with
    | nil =>
      rw [List.getLast?_concat] at hp
      obtain rfl := Option.some.inj hp
      rfl
    | cons q Q =>
      refine ok.marked p ?_
      simpa [List.getLast?_append] using hp
  · rcases List.mem_cons.mp ((regions_newPool hr).mem_iff.mp hs) with rfl | hs
    · exact hr.small
    · exact ok.small s hs

end Place

/-! ## The stores -/

/-- What the links in use hold behind the listing of a block at `start` and of a
marker at `last`, between `prev` and `next`. -/
structure Placed (S : LinkPtr → Prop) (h h' : Heap k) (prev : LinkPtr)
    (start last size next : Nat) : Prop where
  outside : ∀ a, (∀ b, S (.block b) → a < b ∨ b + sizeofLink k ≤ a) → h'.mem a = h.mem a
  next : ∀ s, S s → h'.next s = if s = prev then start else if s = .block last then next
    else if s = .block start then last else h.next s
  flagNsize : ∀ b, S (.block b) → h'.flagNsize (.block b) =
    if b = last then 0 else if b = start then size else h.flagNsize (.block b)
  freeSize : h'.freeSize = h.freeSize
  poolSize : h'.poolSize = h.poolSize

section Stores
variable {start last size next blockSize : Nat} {prev : LinkPtr} {nextOf flagOf : LinkPtr → Nat}

theorem setBlock_relinked (hS : AllApart k S) (R : Relinked S h h' nextOf flagOf)
    (hstart : S (.block start)) (hlast : S (.block last)) (hsize : size < sizeMod k)
    (hl : last < sizeMod k) (hnext : next < sizeMod k) :
    Relinked S h (setBlock h' start last size next none)
      (Function.update (Function.update nextOf (.block start) last) (.block last) next)
      (Function.update (Function.update flagOf (.block start) size) (.block last) 0) :=
  (R.setLink hS hstart hsize hl).setLink hS hlast (Nat.two_pow_pos _) hnext

theorem setBlock_some (h : Heap k) : setBlock h start last size next (some prev) =
    (setBlock h start last size next none).setNext prev start := rfl

theorem Relinked.placed (R : Relinked S h h' (Function.update (Function.update
      (Function.update h.next (.block start) last) (.block last) next) prev start) flagOf)
    (hflag : ∀ b, flagOf (.block b) = Function.update (Function.update h.flagNsize (.block start)
      size) (.block last) 0 (.block b))
    (hfree : h'.freeSize = h.freeSize) (hpool : h'.poolSize = h.poolSize) :
    Placed S h h' prev start last size next := by
  refine ⟨R.outside, fun s hs => ?_, fun b hb => ?_, hfree, hpool⟩
  · simp only [R.next s hs, Function.update_apply]
  · simp only [R.flagNsize _ hb, hflag, Function.update_apply, LinkPtr.block.injEq]

section Pool
variable (hS : AllApart k S) (hstart : S (.block start))
  (hlast : S (.block (start + blockSize - sizeofLink k))) (hprev : S prev)
  (hlarge : sizeofLink k ≤ blockSize) (hstop : start + blockSize < sizeMod k)
include hS hstart hlast hprev hlarge hstop

/-- A pool between `prev` and `next`. -/
theorem insertPool_placed (hnext : next < sizeMod k) :
    Placed S h (insertPool h start blockSize prev next) prev start
        (start + blockSize - sizeofLink k) (blockSize - sizeofLink k) next ∧
      (insertPool h start blockSize prev next).ppoolLast = h.ppoolLast := by
  rw [insertPool, sizeAdd_eq hstop, sizeSub_eq (by omega) hstop, sizeSub_eq hlarge (by omega),
    setBlock_some]
  have R := (setBlock_relinked hS (Relinked.refl S h) hstart hlast
    (show blockSize - sizeofLink k < sizeMod k by omega) (by omega) hnext).setNext hS hprev
    (show start < sizeMod k by omega)
  exact ⟨R.placed (fun b => rfl) (by simp [setBlock]) (by simp [setBlock]), by simp [setBlock]⟩

/-- A pool behind the last marker `prev`: the list is not empty. -/
theorem appendPool_behind (hplink : toLink h.ppoolLast = some prev) (hne : prev ≠ .anchor)
    (hsome : h.anchorNext ≠ 0) :
    Placed S h (appendPool h start blockSize) prev start (start + blockSize - sizeofLink k)
        (blockSize - sizeofLink k) 0 ∧
      (appendPool h start blockSize).ppoolLast = start + blockSize - sizeofLink k := by
  rw [appendPool, sizeAdd_eq hstop, sizeSub_eq (by omega) hstop, sizeSub_eq hlarge (by omega)]
  let moved : Heap k := { h with ppoolLast := start + blockSize - sizeofLink k }
  have hmoved : Relinked S h moved h.next h.flagNsize := (Relinked.refl S h).statics rfl rfl rfl
  have R := (setBlock_relinked hS hmoved hstart hlast
    (show blockSize - sizeofLink k < sizeMod k by omega) (by omega) (Nat.two_pow_pos _)).setNext
    hS hprev (show start < sizeMod k by omega)
  rw [← setBlock_some] at R
  have hkeep : (setBlock moved start (start + blockSize - sizeofLink k)
      (blockSize - sizeofLink k) 0 (some prev)).anchorNext ≠ 0 := by
    cases prev with
    | anchor => exact absurd rfl hne
    | block b => exact hsome
  simp only [hplink]
  rw [if_neg hkeep]
  exact ⟨R.placed (fun b => rfl) (by simp [setBlock, moved]) (by simp [setBlock, moved]),
    by simp [setBlock]⟩

end Pool

/-- The first pool: the anchor is set to it. -/
theorem appendPool_first (hS : AllApart k S) (hstart : S (.block start))
    (hlast : S (.block (start + blockSize - sizeofLink k))) (hin : S .anchor)
    (hlarge : sizeofLink k ≤ blockSize) (hstop : start + blockSize < sizeMod k)
    (hplink : toLink h.ppoolLast = none) (hnone : h.anchorNext = 0) :
    Placed S h (appendPool h start blockSize) .anchor start (start + blockSize - sizeofLink k)
        (blockSize - sizeofLink k) 0 ∧
      (appendPool h start blockSize).ppoolLast = start + blockSize - sizeofLink k := by
  rw [appendPool, sizeAdd_eq hstop, sizeSub_eq (by omega) hstop, sizeSub_eq hlarge (by omega)]
  let moved : Heap k := { h with ppoolLast := start + blockSize - sizeofLink k }
  have hmoved : Relinked S h moved h.next h.flagNsize := (Relinked.refl S h).statics rfl rfl rfl
  have R := (setBlock_relinked hS hmoved hstart hlast
    (show blockSize - sizeofLink k < sizeMod k by omega) (by omega) (Nat.two_pow_pos _)).setLink
    hS hin (Nat.two_pow_pos _) (show start < sizeMod k by omega)
  have hempty : (setBlock moved start (start + blockSize - sizeofLink k)
      (blockSize - sizeofLink k) 0 none).anchorNext = 0 := hnone
  simp only [hplink]
  rw [if_pos hempty]
  refine ⟨R.placed (fun b => ?_) (by simp [setBlock, moved]) (by simp [setBlock, moved]),
    by simp [setBlock]⟩
  rw [Function.update_of_ne (by simp)]

/-- A pool behind all others. -/
theorem appendPool_placed (ok : LayoutOk k P) (rep : Represents h P) (hS : AllApart k S)
    (hsub : ∀ s ∈ .anchor :: links (listed P), S s) (hstart : S (.block start))
    (hlast : S (.block (start + blockSize - sizeofLink k))) (hlarge : sizeofLink k ≤ blockSize)
    (hstop : start + blockSize < sizeMod k) :
    Placed S h (appendPool h start blockSize) ((links (listed P)).getLastD .anchor) start
        (start + blockSize - sizeofLink k) (blockSize - sizeofLink k) 0 ∧
      (appendPool h start blockSize).ppoolLast = start + blockSize - sizeofLink k := by
  have hanchor : h.anchorNext = headAddr (listed P) := linked_next rep.lists.linked
  have hprev : S ((links (listed P)).getLastD .anchor) := hsub _ (getLastD_mem _ _)
  have hptr := rep.ppoolLast
  by_cases hP : P = []
  · subst hP
    exact appendPool_first hS hstart hlast (hsub _ List.mem_cons_self) hlarge hstop
      (by rw [hptr]; rfl) hanchor
  · obtain ⟨L, hL⟩ := ok.getLast_listed hP
    have hlastD : (links (listed P)).getLastD .anchor = .block (lastMarker P) := by
      simp [hL, Block.link]
    have hmem : (⟨lastMarker P, 0⟩ : Block) ∈ listed P := by simp [hL]
    have hnull := ok.nonNull
    have hmarker : lastMarker P ≠ 0 := hnull _ hmem
    refine appendPool_behind hS hstart hlast hprev hlarge hstop ?_ (hlastD ▸ nofun) ?_
    · rw [hptr, hlastD]
      exact toLink_of_ne hmarker
    · rw [hL] at hanchor hnull
      exact hanchor ▸ headAddr_ne hnull

end Stores

/-! ## A region is given -/

theorem start_mem_newPool :
    (⟨r.start, r.length - sizeofLink k⟩ : Block) ∈ listed (P ++ newPool k r :: Q) := by
  simp [listed_newPool]

theorem marker_mem_newPool :
    (⟨(newPool k r).marker, 0⟩ : Block) ∈ listed (P ++ newPool k r :: Q) := by
  simp [listed_newPool]

theorem listed_sub_newPool {b : Block} (hb : b ∈ listed P ++ listed Q) :
    b ∈ listed (P ++ newPool k r :: Q) := by
  simp only [listed_newPool, List.mem_append] at hb ⊢
  tauto

section Given
variable (ok : LayoutOk k (P ++ Q)) (hr : r.Fits k (regions k (P ++ Q)))
  (hP : ∀ p ∈ P, p.stop k ≤ r.start) (hQ : ∀ q ∈ Q, r.stop ≤ q.start)

section Placed
variable (rep : Represents h (P ++ Q))
  (hpl : Placed (InUse (P ++ newPool k r :: Q)) h h' ((links (listed P)).getLastD .anchor)
    r.start (newPool k r).marker (r.length - sizeofLink k) (headAddr (listed Q)))
include ok hr hP hQ rep hpl

theorem placed_lists : Lists h' (listed (P ++ newPool k r :: Q)) := by
  have ok' := newPool_layout ok hr hP hQ
  have hnew := listed_newPool (k := k) (r := r) (P := P) (Q := Q)
  have hold : listed (P ++ Q) = listed P ++ ([] ++ listed Q) := listed_append P Q
  have hstart := InUse.of_listed (start_mem_newPool (k := k) (r := r) (P := P) (Q := Q))
  have hmark := InUse.of_listed (marker_mem_newPool (k := k) (r := r) (P := P) (Q := Q))
  have hprev : InUse (P ++ newPool k r :: Q) ((links (listed P)).getLastD .anchor) :=
    InUse.of_links (L := listed P ++ listed Q) (fun b hb => listed_sub_newPool hb) (prev_mem _ _)
  -- the two new links are none of the old ones
  have hfresh : ∀ s ∈ .anchor :: links (listed P ++ listed Q),
      s ≠ .block (newPool k r).marker ∧ s ≠ .block r.start := fun s hs =>
    ⟨ok'.link_ne (c := ⟨(newPool k r).marker, 0⟩) hnew hs (by simp),
      ok'.link_ne (c := ⟨r.start, r.length - sizeofLink k⟩) hnew hs (by simp)⟩
  obtain ⟨hpm, hps⟩ := hfresh _ (prev_mem _ _)
  have hne : r.start ≠ (newPool k r).marker := hr.ok.start_ne_marker
  have hne' : LinkPtr.block r.start ≠ .block (newPool k r).marker := fun he =>
    hne (LinkPtr.block.inj he)
  refine ⟨?_, fun b hb => ?_⟩
  · rw [hnew]
    refine linked_splice (hold ▸ rep.lists.linked) (ok'.outer_nodup hnew) (fun b hb => ?_)
      (fun s hs hsp => ?_) ⟨?_, ?_, trivial⟩ ?_
    · exact ok.nonNull b (by simp [hold, hb])
    · obtain ⟨hsm, hss⟩ := hfresh s hs
      rw [hpl.next s (InUse.of_links (fun b hb => listed_sub_newPool hb) hs), if_neg hsp,
        if_neg hsm, if_neg hss]
    · rw [Heap.follow, hpl.next _ hprev, if_pos rfl]
      exact toLink_of_ne (Nat.ne_of_gt hr.ok.positive)
    · change toLink (h'.next (.block r.start)) = _
      rw [hpl.next (.block r.start) hstart, if_neg hps.symm, if_neg hne', if_pos rfl]
      exact toLink_of_ne (ok'.nonNull _ marker_mem_newPool)
    · change h'.next (.block (newPool k r).marker) = _
      rw [hpl.next (.block (newPool k r).marker) hmark, if_neg hpm.symm, if_pos rfl]
  · have hother : b ∈ listed P ++ listed Q → h'.flagNsize b.link = b.size := by
      intro hb
      obtain ⟨hsm, hss⟩ := hfresh b.link (List.mem_cons_of_mem _ (List.mem_map_of_mem hb))
      simp only [Block.link, ne_eq, LinkPtr.block.injEq] at hsm hss
      rw [Block.link, hpl.flagNsize _ (InUse.of_listed (listed_sub_newPool hb)), if_neg hsm,
        if_neg hss]
      exact rep.lists.sizes b (by simpa [hold] using hb)
    rw [hnew] at hb
    simp only [List.mem_append, List.mem_cons, List.not_mem_nil, or_false] at hb
    rcases hb with hb | (rfl | rfl) | hb
    · exact hother (List.mem_append_left _ hb)
    · refine (hpl.flagNsize r.start hstart).trans ?_
      rw [if_neg hne, if_pos rfl]
    · exact (hpl.flagNsize (newPool k r).marker hmark).trans (if_pos rfl)
    · exact hother (List.mem_append_right _ hb)

omit rep in
/-- The headers of the live blocks are left alone. -/
theorem placed_lives {b : Block} (hb : b ∈ lives (P ++ newPool k r :: Q)) :
    h'.flagNsize b.link = h.flagNsize b.link ∧ h'.next b.link = h.next b.link := by
  have ok' := newPool_layout ok hr hP hQ
  have hin := InUse.of_lives hb
  have hfresh : ∀ c ∈ listed (P ++ newPool k r :: Q), b.link ≠ c.link := fun c hc he =>
    ok'.lives_ne_listed hb hc (LinkPtr.block.inj he)
  have hstart : b.link ≠ .block r.start := hfresh _ start_mem_newPool
  have hmark : b.link ≠ .block (newPool k r).marker := hfresh _ marker_mem_newPool
  have hprev : b.link ≠ (links (listed P)).getLastD .anchor := by
    intro he
    have hmem := getLastD_mem LinkPtr.anchor (links (listed P))
    rw [← he] at hmem
    rcases List.mem_cons.mp hmem with he | hmem
    · cases he
    · obtain ⟨c, hc, hcb⟩ := List.mem_map.mp hmem
      exact hfresh c (listed_sub_newPool (List.mem_append_left _ hc)) hcb.symm
  have hnext := hpl.next _ hin
  have hflag := hpl.flagNsize _ hin
  rw [if_neg hprev, if_neg hmark, if_neg hstart] at hnext
  simp only [Block.link, ne_eq, LinkPtr.block.injEq] at hstart hmark
  rw [if_neg hmark, if_neg hstart] at hflag
  exact ⟨hflag, hnext⟩

/-- Listing the new pool leads to the layout with it. -/
theorem placed_represents (hlast : h'.ppoolLast = lastMarker (P ++ newPool k r :: Q)) :
    Represents (countPool h' r.start r.length) (P ++ newPool k r :: Q) := by
  have hlists := placed_lists ok hr hP hQ rep hpl
  have hregions := ((regions_newPool hr).map Region.length).sum_eq
  have htotal := (newPool_layout ok hr hP hQ).total
  rw [hregions, List.map_cons, List.sum_cons] at htotal
  refine ⟨hlists.statics rfl rfl rfl, fun b hb => ?_, hlast, ?_, ?_⟩
  · obtain ⟨hflag, hnext⟩ := placed_lives ok hr hP hQ hpl hb
    change h'.flagNsize b.link = _ ∧ h'.next b.link = 0
    rw [hflag, hnext]
    rw [lives_newPool] at hb
    exact rep.lives b hb
  · have hsum := sum_blocks_le k (P ++ Q)
    have hflag : h'.flagNsize (.block r.start) = r.length - sizeofLink k :=
      hlists.sizes _ start_mem_newPool
    change sizeAdd k h'.freeSize (h'.flagNsize (.block r.start)) = _
    rw [hpl.freeSize, hflag, rep.freeSize, sizeAdd_eq (by omega),
      listed_newPool, listed_append]
    simp only [List.map_append, List.sum_append, List.map_cons, List.map_nil, List.sum_cons,
      List.sum_nil]
    omega
  · change sizeAdd k h'.poolSize r.length = _
    rw [hpl.poolSize, rep.poolSize, sizeAdd_eq (by omega), hregions, List.map_cons, List.sum_cons]
    omega

end Placed

/-- The blocks below the region, and those above it. -/
theorem listed_below (hP : ∀ p ∈ P, p.stop k ≤ r.start) {b : Block} (hb : b ∈ listed P) :
    b.addr < r.start := by
  obtain ⟨p, hp, hb⟩ := mem_listed.mp hb
  have hstop := hP p hp
  have hpos := sizeofLink_pos k
  rw [Pool.stop] at hstop
  rcases hb with hb | hb
  · have hle := (Pool.mem_free hb).2.2.1
    rw [Block.stop] at hle
    omega
  · rw [Pool.mem_marks hb]
    simp only
    omega

theorem listed_above (hQ : ∀ q ∈ Q, r.stop ≤ q.start) {b : Block} (hb : b ∈ listed Q) :
    r.stop ≤ b.addr := by
  obtain ⟨q, hq, hb⟩ := mem_listed.mp hb
  refine (hQ q hq).trans ?_
  rcases hb with hb | hb
  · exact (Pool.mem_free hb).2.1
  · rw [Pool.mem_marks hb]
    exact Nat.le_add_right _ _

theorem headAddr_above (hQ : ∀ q ∈ Q, r.stop ≤ q.start) (hne : listed Q ≠ []) :
    r.stop ≤ headAddr (listed Q) := by
  cases hQl : listed Q with
  | nil => exact absurd hQl hne
  | cons b L => exact listed_above hQ (b := b) (by simp [hQl])

include ok hr hP hQ in
/-- A pool above the region has something on the list. -/
theorem listed_ne_nil (hne : Q ≠ []) : listed Q ≠ [] := by
  intro hnil
  obtain ⟨q, hq⟩ := List.exists_mem_of_ne_nil Q hne
  obtain ⟨L, hL⟩ := ok.getLast_listed (by simp [hne])
  rw [listed_append, hnil, List.append_nil] at hL
  have hbelow : lastMarker (P ++ Q) < r.start :=
    listed_below hP (b := ⟨lastMarker (P ++ Q), 0⟩) (by simp [hL])
  have habove := ok.marker_le_last (List.mem_append_right P hq)
  have hstart := hQ q hq
  have hlarge := hr.ok.large
  rw [Region.length] at hlarge
  rw [Pool.marker] at habove
  omega

include ok hr hP hQ in
/-- The loop finds the place between the pools below the region and those above it. -/
theorem pallocInit_eq (rep : Represents h (P ++ Q)) :
    ∃ prev, (listed Q ≠ [] → prev = (links (listed P)).getLastD .anchor) ∧
      pallocInit h r.start r.stop =
        if headAddr (listed Q) = 0 then
          some (countPool (appendPool h r.start r.length) r.start r.length)
        else if headAddr (listed Q) > r.start then
          some (countPool (insertPool h r.start r.length prev (headAddr (listed Q))) r.start r.length)
        else some h := by
  have hlarge := hr.ok.large
  have hbounded := hr.ok.bounded
  have hlength : r.length = r.stop - r.start := rfl
  have hlinked := rep.lists.linked
  have hnull := ok.nonNull
  have hlen := ok.listed_length
  rw [listed_append] at hlinked hnull hlen
  rw [List.length_append] at hlen
  have hanchor : h.anchorNext = headAddr (listed P ++ listed Q) := linked_next hlinked
  obtain ⟨prev, hloop, hprev⟩ := initLoop_eq (n := r.start) hlinked hnull
    (fun b hb => listed_below hP hb)
    (fun hne => (Nat.le_of_lt (by omega)).trans (headAddr_above hQ hne))
    (show (listed P).length < sizeMod k by omega)
  have hstart := alignedValue_of_dvd hr.ok.start (add_mask_lt hr.ok.start (by omega))
  have hstop := alignedValue_of_dvd hr.ok.stop (add_mask_lt hr.ok.stop hbounded)
  have hsize : sizeSub k r.stop r.start = r.length := sizeSub_eq (by omega) hbounded
  refine ⟨prev, hprev, ?_⟩
  simp only [pallocInit, hstart, hstop, hsize, hanchor, hloop]
  exact if_pos (by omega)

include ok hr hP hQ in
/-- **`palloc_init`** on a fitting region leads to the layout with one more pool. -/
theorem pallocInit_represents (rep : Represents h (P ++ Q)) :
    ∃ h', pallocInit h r.start r.stop = some h' ∧ Represents h' (P ++ newPool k r :: Q) ∧
      ∀ a, (∀ b ∈ headers (P ++ newPool k r :: Q), a < b ∨ b + sizeofLink k ≤ a) →
        h'.mem a = h.mem a := by
  have ok' := newPool_layout ok hr hP hQ
  have hlarge := hr.ok.large
  have hbounded := hr.ok.bounded
  have hlength : r.start + r.length = r.stop := by
    rw [Region.length] at *
    omega
  have hmarker : r.start + r.length - sizeofLink k = (newPool k r).marker := by
    rw [hlength, hr.ok.newPool_marker]
  have hsub := fun b hb => listed_sub_newPool (k := k) (r := r) (P := P) (Q := Q) (b := b) hb
  have hstart_in := InUse.of_listed (start_mem_newPool (k := k) (r := r) (P := P) (Q := Q))
  have hmark_in := InUse.of_listed (marker_mem_newPool (k := k) (r := r) (P := P) (Q := Q))
  rw [← hmarker] at hmark_in
  obtain ⟨prev, hprev, hrun⟩ := pallocInit_eq ok hr hP hQ rep
  rw [hrun]
  by_cases hQe : Q = []
  · subst hQe
    rw [List.append_nil] at ok rep
    obtain ⟨hpl, hlast⟩ := appendPool_placed ok rep ok'.allApart
      (fun s hs => InUse.of_links (fun b hb => hsub b (List.mem_append_left _ hb)) hs)
      hstart_in hmark_in (by omega) (show r.start + r.length < sizeMod k by omega)
    rw [hmarker] at hpl hlast
    rw [← List.append_nil P] at ok rep
    refine ⟨_, if_pos rfl, placed_represents ok hr hP hQ rep hpl ?_, hpl.outside⟩
    rw [hlast, lastMarker_append]
  · have hne := listed_ne_nil ok hr hP hQ hQe
    have habove := headAddr_above hQ hne
    have hprev_in : InUse (P ++ newPool k r :: Q) prev := by
      rw [hprev hne]
      exact InUse.of_links (L := listed P ++ listed Q) hsub (prev_mem _ _)
    obtain ⟨hpl, hlast⟩ := insertPool_placed (h := h) ok'.allApart hstart_in hmark_in hprev_in
      (by omega) (show r.start + r.length < sizeMod k by omega)
      (ok'.headAddr_lt fun b hb => hsub b (List.mem_append_right (listed P) hb))
    rw [hmarker] at hpl
    refine ⟨_, (if_neg (by omega)).trans (if_pos (by omega)), ?_, hpl.outside⟩
    rw [hprev hne] at hpl hlast ⊢
    refine placed_represents ok hr hP hQ rep hpl ?_
    rw [hlast, rep.ppoolLast, lastMarker_newPool hQe]

end Given

end Sdkz.Palloc
