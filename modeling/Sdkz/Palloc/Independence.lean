import Sdkz.Base.Simulation
import Sdkz.Palloc.Confluence
import Sdkz.Palloc.Counters

/-! # The allocator has no history

Where the free blocks are depends on the regions and on the blocks that are held, and on
nothing else: not on the order of the calls, nor on which markers they left on the list. Two
programs that hold the same blocks of the same regions are given the same pointers from then
on, whatever they did before. -/

namespace Sdkz.Palloc
open Sdkz.Base

variable {k : Nat}

/-- The same regions were given to the allocator, and the same blocks are held. -/
structure Session.Agrees (s t : Session k) : Prop where
  regions : s.regions.Perm t.regions
  live : s.live.Perm t.live
  blocks : ∀ p ∈ s.live, s.blockAt p = t.blockAt p

/-- The free blocks are the same, too. -/
structure Session.Alike (s t : Session k) : Prop extends s.Agrees t where
  free : ∃ L L', Lists s.heap L ∧ Lists t.heap L' ∧
    L.filter (fun b => b.size ≠ 0) = L'.filter fun b => b.size ≠ 0
  freeSize : s.heap.freeSize = t.heap.freeSize
  poolSize : s.heap.poolSize = t.heap.poolSize
  answers : ∀ n, Rounds k n → (palloc s.heap n).map Prod.snd = (palloc t.heap n).map Prod.snd

/-! ## Lists in address order -/

section Order
variable {ps qs : List Pool} {p q : Pool} {b : Block}

theorem LayoutOk.lives_apart (ok : LayoutOk k ps) :
    (lives ps).Pairwise fun b c => b.addr + sizeofLink k ≤ c.addr :=
  List.pairwise_map.mp (ok.headers_apart.sublist (lives_sublist ps))

theorem LayoutOk.lives_eq_of_perm (okp : LayoutOk k ps) (okq : LayoutOk k qs)
    (h : (lives ps).Perm (lives qs)) : lives ps = lives qs := by
  have hpos := sizeofLink_pos k
  refine List.Perm.eq_of_pairwise (fun b c _ _ hbc hcb => ?_) okp.lives_apart okq.lives_apart h
  omega

theorem Pool.start_lt_stop (k : Nat) (p : Pool) : p.start < p.stop k := by
  have hpos := sizeofLink_pos k
  rw [Pool.stop, Pool.marker]
  omega

theorem LayoutOk.regions_eq_of_perm (okp : LayoutOk k ps) (okq : LayoutOk k qs)
    (h : (regions k ps).Perm (regions k qs)) : regions k ps = regions k qs := by
  refine List.Perm.eq_of_pairwise (fun r t hr ht hrt htr => ?_) okp.ordered okq.ordered h
  obtain ⟨p, -, rfl⟩ := List.mem_map.mp hr
  obtain ⟨q, -, rfl⟩ := List.mem_map.mp ht
  have hp := p.start_lt_stop k
  have hq := q.start_lt_stop k
  simp only [Pool.region] at hrt htr
  omega

end Order

/-! ## The free blocks are the gaps -/

/-- The free blocks of a layout, without the markers. -/
def frees (ps : List Pool) : List Block := ps.flatMap Pool.free

section Gaps
variable {ps qs : List Pool} {p q : Pool} {b : Block}

theorem LayoutOk.filter_listed (ok : LayoutOk k ps) :
    (listed ps).filter (fun b => b.size ≠ 0) = frees ps := by
  have hpools := ok.pools
  clear ok
  induction ps with
  | nil => rfl
  | cons p ps ih =>
    have hfree : ∀ b ∈ p.free, decide (b.size ≠ 0) = true := by
      intro b hb
      have hlarge := (hpools p List.mem_cons_self).large _ (Pool.mem_free hb).2.2.2
      have hpos := sizeofLink_pos k
      simp only at hlarge
      exact decide_eq_true (by omega)
    have hmarks : ∀ b ∈ p.marks, ¬ decide (b.size ≠ 0) = true := by
      intro b hb
      rw [Pool.mem_marks hb]
      simp
    rw [listed_cons, List.filter_append, List.filter_append, List.filter_eq_self.mpr hfree,
      List.filter_eq_nil_iff.mpr hmarks, List.append_nil,
      ih fun q hq => hpools q (List.mem_cons_of_mem p hq)]
    rfl

/-- A layout is determined by its regions and its live blocks, but for the markers. -/
theorem LayoutOk.frees_unique (okp : LayoutOk k ps) (okq : LayoutOk k qs)
    (hregions : regions k ps = regions k qs) (hlives : lives ps = lives qs) :
    frees ps = frees qs := by
  have hpok := okp.pools
  have hqok := okq.pools
  have hpord : ps.Pairwise fun r s => r.stop k ≤ s.start := List.pairwise_map.mp okp.ordered
  have hqord : qs.Pairwise fun r s => r.stop k ≤ s.start := List.pairwise_map.mp okq.ordered
  clear okp okq
  induction ps generalizing qs with
  | nil =>
    obtain rfl := List.map_eq_nil_iff.mp hregions.symm
    rfl
  | cons p ps ih =>
    cases qs with
    | nil => cases hregions
    | cons q qs =>
      obtain ⟨hhead, htail⟩ := List.cons.inj hregions
      obtain ⟨hstart, hstop⟩ := Region.mk.inj hhead
      have hmarker : p.marker = q.marker := Nat.add_right_cancel hstop
      obtain ⟨hpl, hpr⟩ := lives_front hpok hpord
      obtain ⟨hql, hqr⟩ := lives_front hqok hqord
      rw [hlives, hmarker] at hpl hpr
      have hlive : p.live = q.live := hpl.symm.trans hql
      have hrec := ih htail (hpr.symm.trans hqr) (fun r hr => hpok r (List.mem_cons_of_mem p hr))
        (fun r hr => hqok r (List.mem_cons_of_mem q hr)) (List.pairwise_cons.mp hpord).2
        (List.pairwise_cons.mp hqord).2
      have hpos : ∀ r : Pool, r.Ok k → ∀ c ∈ r.cells, 0 < c.size := fun r hr c hc =>
        (sizeofLink_pos k).trans_le (hr.large c hc)
      have hp := hpok p List.mem_cons_self
      have hq := hqok q List.mem_cons_self
      simp only [Pool.marker, Pool.live, hstart] at hmarker hlive
      have hcells := cells_unique hp.coalesced hq.coalesced (hpos p hp) (hpos q hq) hlive
        (Nat.add_left_cancel hmarker)
      rw [frees, List.flatMap_cons, frees, List.flatMap_cons, Pool.free, Pool.free, hstart, hcells]
      exact congrArg _ hrec

end Gaps

/-! ## What the calls do to the blocks -/

section Calls
variable {s : Session k} {ps : List Pool} {n a : Nat} {b : Block}

theorem LayoutOk.mem_frees (ok : LayoutOk k ps) :
    b ∈ frees ps ↔ b ∈ listed ps ∧ b.size ≠ 0 := by
  rw [← ok.filter_listed, List.mem_filter, decide_eq_true_eq]

/-- A request that rounds takes the first free block that is large enough. -/
theorem Valid.first (v : Valid s ps) (hn : n ≠ 0) (hr : Rounds k n) :
    ((frees ps).find? (fun b => need k n ≤ b.size) = none ∧
      palloc s.heap n = some (s.heap, 0)) ∨
    ∃ b h' ps', (frees ps).find? (fun b => need k n ≤ b.size) = some b ∧
      palloc s.heap n = some (h', payload k b) ∧ need k n ≤ b.size ∧
      Valid ⟨h', s.regions, payload k b :: s.live⟩ ps' ∧
      Palloc.regions k ps' = Palloc.regions k ps ∧
      (lives ps').Perm (takenBlock k (need k n) b.size b.addr :: lives ps) := by
  have hlink := hr.link_le
  have hpos := sizeofLink_pos k
  rcases palloc_represents v.ok v.rep (.inr hlink) with ⟨hrun, hnone⟩ |
    ⟨P, p, Q, B₁, B₂, size, h', rfl, hcells, hsize, hfirst, hrun, hrep, -⟩
  · refine .inl ⟨List.find?_eq_none.mpr fun b hb => ?_, hrun⟩
    have hsmall := hnone hn b (v.ok.mem_frees.mp hb).1
    simpa using hsmall
  · right
    have hperm := lives_takeCell (k := k) (P := P) (Q := Q) hcells hsize
    have hregions := regions_takeCell (k := k) (P := P) (Q := Q) hcells hsize
    refine ⟨⟨p.start + span B₁, size⟩, h', _, ?_, hrun, hsize, ?_, hregions, hperm⟩
    · have hone : blocksOf false (p.start + span B₁) [(⟨size, false⟩ : Cell)] =
          [⟨p.start + span B₁, size⟩] := rfl
      have hlarge : size ≠ 0 := by omega
      rw [← v.ok.filter_listed, listed_place hcells, hone, List.filter_append, List.singleton_append,
        List.filter_cons_of_pos (by simpa using hlarge)]
      refine List.find?_eq_some_iff_append.mpr ⟨by simpa using hsize, _, _, rfl, fun x hx => ?_⟩
      have hsmall := hfirst x (List.mem_filter.mp hx).1
      simpa using hsmall
    · refine ⟨takeCell_ok v.ok hcells hsize hlink (dvd_alignedValue k _), hrep,
        hregions.symm ▸ v.regions, ?_, v.taken⟩
      exact (v.live.cons _).trans (hperm.map (payload k)).symm

/-- A free gives up its block. -/
theorem Valid.given_up (v : Valid s ps) (hb : b ∈ lives ps) :
    ∃ h' ps', pfree s.heap (payload k b) = some h' ∧
      Valid ⟨h', s.regions, s.live.erase (payload k b)⟩ ps' ∧
      Palloc.regions k ps' = Palloc.regions k ps ∧
      (lives ps).Perm (b :: lives ps') := by
  obtain ⟨P, p, Q, B₁, B₂, rfl, hcells, haddr⟩ := lives_split hb
  have hcells : p.cells = B₁ ++ ([⟨b.size, true⟩] ++ B₂) := hcells
  obtain ⟨h', hrun, hrep, -⟩ := pfree_represents v.ok hcells v.rep
  obtain ⟨X, Y, hX, hXY⟩ := lives_freeCell v.ok hcells
  have hregions := regions_freeCell v.ok hcells
  have hblock : (⟨p.start + span B₁, b.size⟩ : Block) = b := by rw [← haddr]
  have hperm : (lives (P ++ p :: Q)).Perm (b :: lives (freeCell P p Q B₁ b.size B₂)) := by
    rw [hX, hXY, hblock]
    exact List.perm_middle
  rw [← haddr] at hrun
  refine ⟨h', _, hrun, ⟨freeCell_ok v.ok hcells, hrep, hregions.symm ▸ v.regions, ?_, v.taken⟩,
    hregions, hperm⟩
  have herase := (v.live.trans (hperm.map (payload k))).erase (payload k b)
  rwa [List.map_cons, List.erase_cons_head] at herase

end Calls

/-! ## Two sessions side by side -/

/-- Two heaps that are laid out alike, but for the markers. -/
structure Paired (s t : Session k) (ps qs : List Pool) : Prop where
  left : Valid s ps
  right : Valid t qs
  regions : Palloc.regions k ps = Palloc.regions k qs
  lives : Palloc.lives ps = Palloc.lives qs

section Paired
variable {s t : Session k} {ps qs : List Pool} {n a ap num size : Nat}

theorem Valid.lives_perm (v : Valid s ps) : (s.live.map s.blockAt).Perm (lives ps) := by
  have hblocks : (lives ps).map (s.blockAt ∘ payload k) = (lives ps).map id :=
    List.map_congr_left fun b hb => v.blockAt hb
  refine (v.live.map s.blockAt).trans ?_
  rw [List.map_map, hblocks, List.map_id]

/-- Sessions that agree are laid out alike. -/
theorem Session.Agrees.paired (h : s.Agrees t) (v : Valid s ps) (w : Valid t qs) :
    Paired s t ps qs := by
  refine ⟨v, w, v.ok.regions_eq_of_perm w.ok (v.regions.symm.trans (h.regions.trans w.regions)),
    v.ok.lives_eq_of_perm w.ok (v.lives_perm.symm.trans ?_)⟩
  rw [List.map_congr_left h.blocks]
  exact (h.live.map t.blockAt).trans w.lives_perm

theorem Paired.agrees (R : Paired s t ps qs) : s.Agrees t where
  regions := R.left.regions.trans (R.regions ▸ R.right.regions.symm)
  live := R.left.live.trans (R.lives ▸ R.right.live.symm)
  blocks := by
    intro p hp
    obtain ⟨b, hb, rfl⟩ := R.left.block_of_live hp
    rw [R.left.blockAt hb, R.right.blockAt (R.lives ▸ hb)]

theorem Paired.frees (R : Paired s t ps qs) : frees ps = Palloc.frees qs :=
  R.left.ok.frees_unique R.right.ok R.regions R.lives

/-- Layouts with the same live blocks in any order are alike. -/
theorem Paired.of_perm (v : Valid s ps) (w : Valid t qs)
    (hregions : Palloc.regions k ps = Palloc.regions k qs)
    (hperm : (Palloc.lives ps).Perm (Palloc.lives qs)) : Paired s t ps qs :=
  ⟨v, w, hregions, v.ok.lives_eq_of_perm w.ok hperm⟩

/-- A request is turned down by both, or both take the same block; what is stored into it does
not matter. -/
theorem Paired.request (R : Paired s t ps qs) (hn : n ≠ 0) (hr : Rounds k n) :
    (palloc s.heap n = some (s.heap, 0) ∧ palloc t.heap n = some (t.heap, 0)) ∨
    ∃ h₁ h₂ q ps' qs', palloc s.heap n = some (h₁, q) ∧ palloc t.heap n = some (h₂, q) ∧
      q ≠ 0 ∧ q ∉ s.live ∧ q ∉ t.live ∧ ∀ m₁ m₂ : Memory,
        (∀ a, a < q ∨ q + n ≤ a → m₁ a = h₁.mem a ∧ m₂ a = h₂.mem a) →
        Paired ⟨({ h₁ with mem := m₁ } : Heap k), s.regions, q :: s.live⟩
          ⟨({ h₂ with mem := m₂ } : Heap k), t.regions, q :: t.live⟩ ps' qs' := by
  rcases R.left.first hn hr with ⟨hnone, hrun⟩ |
    ⟨b, h₁, ps', hfind, hrun, hroom, hv, hregions, hlives⟩
  · rcases R.right.first hn hr with ⟨-, hrun'⟩ | ⟨b, h₂, qs', hfind, -⟩
    · exact .inl ⟨hrun, hrun'⟩
    · rw [← R.frees, hnone] at hfind
      cases hfind
  · rcases R.right.first hn hr with ⟨hnone, -⟩ |
      ⟨c, h₂, qs', hfind', hrun', -, hw, hregions', hlives'⟩
    · rw [← R.frees, hfind] at hnone
      cases hnone
    · rw [← R.frees, hfind] at hfind'
      obtain rfl := Option.some.inj hfind'
      have hneed := hr.le_need
      have hstop : ∀ m, m = takenBlock k (need k n) b.size b.addr →
          payload k m = payload k b ∧ payload k b + n ≤ m.stop := by
        rintro m rfl
        refine ⟨rfl, ?_⟩
        rw [payload, Block.stop, takenBlock]
        simp only
        split <;> omega
      obtain ⟨hpayload, hend⟩ := hstop _ rfl
      refine .inr ⟨h₁, h₂, payload k b, ps', qs', hrun, hrun', payload_ne_zero k b,
        (List.nodup_cons.mp hv.live_nodup).1, (List.nodup_cons.mp hw.live_nodup).1,
        fun m₁ m₂ hsame => ?_⟩
      have hout : ∀ a, a < payload k (takenBlock k (need k n) b.size b.addr) ∨
          (takenBlock k (need k n) b.size b.addr).stop ≤ a → m₁ a = h₁.mem a ∧ m₂ a = h₂.mem a := by
        intro a ha
        rw [hpayload] at ha
        exact hsame a (ha.imp id hend.trans)
      refine .of_perm (hv.store (hlives.mem_iff.mpr List.mem_cons_self) fun a ha => (hout a ha).1)
        (hw.store (hlives'.mem_iff.mpr List.mem_cons_self) fun a ha => (hout a ha).2) ?_ ?_
      · rw [hregions, hregions', R.regions]
      · exact hlives.trans (R.lives ▸ hlives'.symm)

/-- A free gives up the same block. -/
theorem Paired.free (R : Paired s t ps qs) (ha : a ∈ s.live) :
    ∃ h₁ h₂ ps' qs', pfree s.heap a = some h₁ ∧ pfree t.heap a = some h₂ ∧
      Paired ⟨h₁, s.regions, s.live.erase a⟩ ⟨h₂, t.regions, t.live.erase a⟩ ps' qs' := by
  obtain ⟨b, hb, rfl⟩ := R.left.block_of_live ha
  obtain ⟨h₁, ps', hrun, hv, hregions, hlives⟩ := R.left.given_up hb
  obtain ⟨h₂, qs', hrun', hw, hregions', hlives'⟩ := R.right.given_up (R.lives ▸ hb)
  refine ⟨h₁, h₂, ps', qs', hrun, hrun', .of_perm hv hw ?_ ?_⟩
  · rw [hregions, hregions', R.regions]
  · exact (List.perm_cons b).mp (hlives.symm.trans (R.lives ▸ hlives'))

theorem Paired.init_step {r : Region} (R : Paired s t ps qs) (hr : r.Fits k s.regions) :
    ∃ s' t' ps' qs', s.step (.init r) = some s' ∧ t.step (.init r) = some t' ∧
      Paired s' t' ps' qs' := by
  have hr' : r.Fits k t.regions :=
    ⟨hr.ok, fun q hq => hr.disjoint q (R.agrees.regions.mem_iff.mpr hq), hr.small⟩
  obtain ⟨h₁, ps', hrun, hlives, hv⟩ := R.left.given hr
  obtain ⟨h₂, qs', hrun', hlives', hw⟩ := R.right.given hr'
  refine ⟨_, _, ps', qs', by rw [Session.step, hrun]; rfl, by rw [Session.step, hrun']; rfl, ?_⟩
  refine ⟨hv, hw, hv.ok.regions_eq_of_perm hw.ok ?_, by rw [hlives, hlives', R.lives]⟩
  exact hv.regions.symm.trans ((R.agrees.regions.cons r).trans hw.regions)

theorem Paired.palloc_step (R : Paired s t ps qs) (hr : Rounds k n) :
    ∃ s' t' ps' qs', s.step (.palloc n) = some s' ∧ t.step (.palloc n) = some t' ∧
      Paired s' t' ps' qs' := by
  have hidle : palloc s.heap n = some (s.heap, 0) ∧ palloc t.heap n = some (t.heap, 0) →
      ∃ s' t' ps' qs', s.step (.palloc n) = some s' ∧ t.step (.palloc n) = some t' ∧
        Paired s' t' ps' qs' := by
    rintro ⟨hrun, hrun'⟩
    refine ⟨s, t, ps, qs, ?_, ?_, R⟩
    · rw [Session.step, hrun]
      rfl
    · rw [Session.step, hrun']
      rfl
  by_cases hn : n = 0
  · exact hidle ⟨by simp [palloc, pallocEntry, hn], by simp [palloc, pallocEntry, hn]⟩
  · rcases R.request hn hr with hnone | ⟨h₁, h₂, q, ps', qs', hrun, hrun', hq, -, -, hpair⟩
    · exact hidle hnone
    · refine ⟨_, _, ps', qs', ?_, ?_, hpair h₁.mem h₂.mem fun a _ => ⟨rfl, rfl⟩⟩
      · simp only [Session.step, hrun, Option.map_some, Session.granted, if_neg hq]
      · simp only [Session.step, hrun', Option.map_some, Session.granted, if_neg hq]

theorem Paired.pcalloc_step (R : Paired s t ps qs) (hr : Rounds k (num * size % sizeMod k)) :
    ∃ s' t' ps' qs', s.step (.pcalloc num size) = some s' ∧ t.step (.pcalloc num size) = some t' ∧
      Paired s' t' ps' qs' := by
  by_cases h0 : num * size % sizeMod k > 0
  · rcases R.request (Nat.ne_of_gt h0) hr with ⟨hrun, hrun'⟩ |
      ⟨h₁, h₂, q, ps', qs', hrun, hrun', hq, -, -, hpair⟩
    · exact ⟨s, t, ps, qs, Session.pcalloc_idle hrun, Session.pcalloc_idle hrun', R⟩
    · refine ⟨_, _, ps', qs', ?_, ?_, hpair (h₁.mem.fill q (num * size % sizeMod k) 0)
        (h₂.mem.fill q (num * size % sizeMod k) 0)
        fun a ha => ⟨Memory.fill_outside ha, Memory.fill_outside ha⟩⟩
      · simp only [Session.step, Palloc.pcalloc, if_pos h0, hrun, Option.map_some, if_pos hq,
          Session.granted, if_neg hq]
      · simp only [Session.step, Palloc.pcalloc, if_pos h0, hrun', Option.map_some, if_pos hq,
          Session.granted, if_neg hq]
  · refine ⟨s, t, ps, qs, ?_, ?_, R⟩
    · simp only [Session.step, Palloc.pcalloc, if_neg h0]
      rfl
    · simp only [Session.step, Palloc.pcalloc, if_neg h0]
      rfl

/-- What `prealloc` compares the request with is the size of the block. -/
theorem Valid.size_of_live (v : Valid s ps) (hap : ap ∈ s.live) :
    s.heap.flagNsize (.block (sizeSub k ap (sizeofLink k))) &&& sizeNot k (pallocAllocated k) =
      (s.blockAt ap).size := by
  obtain ⟨b, hb, rfl⟩ := v.block_of_live hap
  rw [v.ok.link_of_payload hb, Session.blockAt, payload, Nat.add_sub_cancel]

theorem Paired.prealloc_step (R : Paired s t ps qs) (hap : ap = 0 ∨ ap ∈ s.live) (hr : Rounds k n) :
    ∃ s' t' ps' qs', s.step (.prealloc ap n) = some s' ∧ t.step (.prealloc ap n) = some t' ∧
      Paired s' t' ps' qs' := by
  rcases hap with rfl | hap
  · have hnull : ∀ {u : Session k} {us}, Valid u us → u.step (.prealloc 0 n) = u.step (.palloc n) := by
      intro u us w
      have hnot : 0 ∉ u.live := fun h => w.live_ne_zero h rfl
      simp only [Session.step, Palloc.prealloc, if_true, or_self, List.erase_of_not_mem hnot]
      rfl
    rw [hnull R.left, hnull R.right]
    exact R.palloc_step hr
  · have hap' : ap ∈ t.live := R.agrees.live.mem_iff.mp hap
    have hne := R.left.live_ne_zero hap
    have hsize := R.left.size_of_live hap
    have hsize' := R.right.size_of_live hap'
    rw [← R.agrees.blocks ap hap] at hsize'
    by_cases hgrow : (s.blockAt ap).size < n
    · rcases R.request (by omega) hr with ⟨hrun, hrun'⟩ |
        ⟨h₁, h₂, q, ps', qs', hrun, hrun', hq, hnew, hnew', hpair⟩
      · exact ⟨s, t, ps, qs, Session.prealloc_idle hne hrun, Session.prealloc_idle hne hrun', R⟩
      · have hqa : q ≠ ap := fun he => hnew (he ▸ hap)
        obtain ⟨h₃, h₄, ps'', qs'', hfree, hfree', R'⟩ :=
          (hpair (h₁.mem.copy q ap n) (h₂.mem.copy q ap n)
            fun a ha => ⟨Memory.copy_outside ha, Memory.copy_outside ha⟩).free
              (List.mem_cons_of_mem q hap)
        rw [List.erase_cons_tail (by simpa using hqa), List.erase_cons_tail (by simpa using hqa)] at R'
        refine ⟨_, _, ps'', qs'', ?_, ?_, R'⟩
        · simp only [Session.step, Palloc.prealloc, if_neg hne, hsize, if_pos hgrow, hrun, ne_eq, hq,
            not_false_eq_true, if_true, hfree, Option.map_some, false_or, if_neg hqa]
        · simp only [Session.step, Palloc.prealloc, if_neg hne, hsize', if_pos hgrow, hrun', ne_eq,
            hq, not_false_eq_true, if_true, hfree', Option.map_some, false_or, if_neg hqa]
    · refine ⟨s, t, ps, qs, ?_, ?_, R⟩
      · simp only [Session.step, Palloc.prealloc, if_neg hne, hsize, if_neg hgrow, Option.map_some,
          or_true, if_true]
      · simp only [Session.step, Palloc.prealloc, if_neg hne, hsize', if_neg hgrow, Option.map_some,
          or_true, if_true]

/-- **One step** on both sides. -/
theorem Paired.step {op : Op} (R : Paired s t ps qs) (hop : s.Permits op) (hr : op.Rounds k) :
    ∃ s' t' ps' qs', s.step op = some s' ∧ t.step op = some t' ∧ Paired s' t' ps' qs' := by
  cases op with
  | init r => exact R.init_step hop
  | palloc n => exact R.palloc_step hr
  | pcalloc num size => exact R.pcalloc_step hr
  | prealloc ap n => exact R.prealloc_step hop.1 hr
  | pfree p =>
    rcases hop with rfl | hp
    · have hnull : ∀ {u : Session k} {us}, Valid u us → u.step (.pfree 0) = some u := by
        intro u us w
        have hnot : 0 ∉ u.live := fun h => w.live_ne_zero h rfl
        simp only [Session.step, Palloc.pfree, if_true, Option.map_some, List.erase_of_not_mem hnot]
      exact ⟨s, t, ps, qs, hnull R.left, hnull R.right, R⟩
    · obtain ⟨h₁, h₂, ps', qs', hrun, hrun', R'⟩ := R.free hp
      exact ⟨_, _, ps', qs', by rw [Session.step, hrun]; rfl, by rw [Session.step, hrun']; rfl, R'⟩
  | store addr byte =>
    obtain ⟨p, hp, hle, hlt⟩ := hop
    have hlt' : addr < (t.blockAt p).stop := R.agrees.blocks p hp ▸ hlt
    obtain ⟨b, hb, rfl⟩ := R.left.block_of_live hp
    rw [R.left.blockAt hb] at hlt
    refine ⟨_, _, ps, qs, rfl, rfl, R.left.store hb fun a ha => Function.update_of_ne ?_ _ _,
      R.right.store (R.lives ▸ hb) fun a ha => Function.update_of_ne ?_ _ _, R.regions, R.lives⟩
    · omega
    · omega

end Paired

/-! ## Runs -/

section Runs
variable {s t : Session k} {ps qs : List Pool}

theorem Paired.alike (R : Paired s t ps qs) : s.Alike t where
  toAgrees := R.agrees
  free := by
    refine ⟨listed ps, listed qs, R.left.rep.lists, R.right.rep.lists, ?_⟩
    rw [R.left.ok.filter_listed, R.right.ok.filter_listed, R.frees]
  freeSize := by
    have hleft := sum_blocks k ps
    have hright := sum_blocks k qs
    have hlength := congrArg List.length R.regions
    rw [Palloc.regions, Palloc.regions, List.length_map, List.length_map] at hlength
    rw [R.regions, R.lives, hlength] at hleft
    rw [R.left.rep.freeSize, R.right.rep.freeSize]
    omega
  poolSize := by rw [R.left.rep.poolSize, R.right.rep.poolSize, R.regions]
  answers := by
    intro n hr
    by_cases hn : n = 0
    · simp [palloc, pallocEntry, hn]
    · rcases R.request hn hr with ⟨hrun, hrun'⟩ | ⟨h₁, h₂, q, -, -, hrun, hrun', -⟩
      · rw [hrun, hrun']
        rfl
      · rw [hrun, hrun']
        rfl

end Runs

/-- Two sessions that are there, and alike. -/
def Alike (s t : Option (Session k)) : Prop := ∃ u v, s = some u ∧ t = some v ∧ u.Alike v

def Agrees (s t : Option (Session k)) : Prop := ∃ u v, s = some u ∧ t = some v ∧ u.Agrees v

theorem simulates_paired : Simulates (Session.next (k := k)) Session.next Proper fun s t =>
    ∃ u v ps qs, s = some u ∧ t = some v ∧ Paired u v ps qs := by
  rintro s t op ⟨u, v, ps, qs, rfl, rfl, R⟩ hop
  obtain ⟨u', v', ps', qs', hu, hv, R'⟩ := R.step (hop u rfl).1 (hop u rfl).2
  exact ⟨u', v', ps', qs', hu, hv, R'⟩

/-- **No history**: if two programs hold the same blocks of the same regions, whatever their
calls were, then whatever calls follow, on both sides, they are given the same pointers, and the
free blocks are the same. -/
theorem history_forgotten (mem mem' : Memory) (ops ops' more : List Op)
    (h : Guarded Session.next Proper (some (Session.initial k mem)) ops)
    (h' : Guarded Session.next Proper (some (Session.initial k mem')) ops')
    (hagrees : Agrees (ops.foldl Session.next (some (Session.initial k mem)))
      (ops'.foldl Session.next (some (Session.initial k mem'))))
    (hmore : Guarded Session.next Proper (ops.foldl Session.next (some (Session.initial k mem))) more) :
    Alike ((ops ++ more).foldl Session.next (some (Session.initial k mem)))
      ((ops' ++ more).foldl Session.next (some (Session.initial k mem'))) := by
  obtain ⟨u, ps, hu, v⟩ := (always_laid h).last
  obtain ⟨u', qs, hu', w⟩ := (always_laid h').last
  obtain ⟨a, b, ha, hb, hab⟩ := hagrees
  obtain rfl := Option.some.inj (hu.symm.trans ha)
  obtain rfl := Option.some.inj (hu'.symm.trans hb)
  obtain ⟨c, d, ps', qs', hc, hd, R⟩ := simulates_paired.run ⟨u, u', ps, qs, hu, hu', hab.paired v w⟩ hmore
  rw [List.foldl_append, List.foldl_append]
  exact ⟨c, d, hc, hd, R.alike⟩

/-- **A block that is given back leaves no trace**: all calls that follow are answered as if it
had never been requested. -/
theorem request_returned (mem : Memory) (ops more : List Op) {s : Session k} {h' : Heap k}
    {n q : Nat}
    (h : Guarded Session.next Proper (some (Session.initial k mem)) ops)
    (hs : ops.foldl Session.next (some (Session.initial k mem)) = some s) (hr : Rounds k n)
    (hrun : palloc s.heap n = some (h', q)) (hq : q ≠ 0)
    (hmore : Guarded Session.next Proper (some s) more) :
    Alike ((ops ++ more).foldl Session.next (some (Session.initial k mem)))
      ((ops ++ [Op.palloc n, .pfree q] ++ more).foldl Session.next (some (Session.initial k mem))) := by
  obtain ⟨u, ps, hu, v⟩ := (always_laid h).last
  obtain rfl := Option.some.inj (hs.symm.trans hu)
  have hn : n ≠ 0 := by
    rintro rfl
    have hnull : palloc s.heap 0 = some (s.heap, 0) := by simp [palloc, pallocEntry]
    exact hq (Prod.mk.inj (Option.some.inj (hrun.symm.trans hnull))).2
  rcases v.first hn hr with ⟨-, hidle⟩ | ⟨b, h₁, ps₁, -, hmet, -, v₁, hregions₁, hlives₁⟩
  · exact absurd (Prod.mk.inj (Option.some.inj (hrun.symm.trans hidle))).2 hq
  · obtain ⟨rfl, rfl⟩ := Prod.mk.inj (Option.some.inj (hmet.symm.trans hrun))
    obtain ⟨h₂, ps₂, hfree, v₂, hregions₂, hlives₂⟩ :=
      v₁.given_up (hlives₁.mem_iff.mpr List.mem_cons_self)
    have hpayload : payload k (takenBlock k (need k n) b.size b.addr) = payload k b := rfl
    rw [hpayload] at hfree v₂
    simp only [List.erase_cons_head] at v₂
    have hback : [Op.palloc n, .pfree (payload k b)].foldl Session.next (some s) =
        some ⟨h₂, s.regions, s.live⟩ := by
      simp only [List.foldl_cons, List.foldl_nil, Session.next, Option.bind_some, Session.step, hrun,
        Option.map_some, Session.granted, if_neg hq, hfree, List.erase_cons_head]
    have R : Paired s ⟨h₂, s.regions, s.live⟩ ps ps₂ :=
      .of_perm v v₂ (by rw [hregions₂, hregions₁]) ((List.perm_cons _).mp (hlives₁.symm.trans hlives₂))
    obtain ⟨c, d, ps', qs', hc, hd, R'⟩ := simulates_paired.run ⟨s, _, ps, ps₂, rfl, rfl, R⟩ hmore
    rw [List.foldl_append, List.foldl_append, List.foldl_append, hs, hback]
    exact ⟨c, d, hc, hd, R'.alike⟩

/-! ## Runs can be tried out -/

section Checks

instance (k : Nat) (r : Region) : Decidable (r.Ok k) :=
  decidable_of_iff (0 < r.start ∧ sizeofSizeT k ∣ r.start ∧ sizeofSizeT k ∣ r.stop ∧
      2 * sizeofLink k < r.length ∧ r.stop < sizeMod k)
    ⟨fun ⟨hpos, hstart, hstop, hlarge, hlt⟩ => ⟨hpos, hstart, hstop, hlarge, hlt⟩,
      fun h => ⟨h.positive, h.start, h.stop, h.large, h.bounded⟩⟩

instance (k : Nat) (r : Region) (rs : List Region) : Decidable (r.Fits k rs) :=
  decidable_of_iff (r.Ok k ∧ (∀ s ∈ rs, r.stop ≤ s.start ∨ s.stop ≤ r.start) ∧
      r.length < pallocAllocated k)
    ⟨fun ⟨hok, hapart, hsmall⟩ => ⟨hok, hapart, hsmall⟩, fun h => ⟨h.ok, h.disjoint, h.small⟩⟩

instance decidablePermits (s : Session k) : ∀ op, Decidable (s.Permits op)
  | .init r => inferInstanceAs (Decidable (r.Fits k s.regions))
  | .palloc size => inferInstanceAs (Decidable (size + sizeofLink k < sizeMod k))
  | .pcalloc num size =>
    inferInstanceAs (Decidable (num * size % sizeMod k + sizeofLink k < sizeMod k))
  | .prealloc ap nbytes =>
    inferInstanceAs (Decidable ((ap = 0 ∨ ap ∈ s.live) ∧ nbytes + sizeofLink k < sizeMod k))
  | .pfree p => inferInstanceAs (Decidable (p = 0 ∨ p ∈ s.live))
  | .store addr _ =>
    inferInstanceAs (Decidable (∃ p ∈ s.live, p ≤ addr ∧ addr < (s.blockAt p).stop))

instance decidableRounds (k : Nat) : ∀ op : Op, Decidable (op.Rounds k)
  | .palloc size => inferInstanceAs (Decidable (Palloc.Rounds k size))
  | .pcalloc num size => inferInstanceAs (Decidable (Palloc.Rounds k (num * size % sizeMod k)))
  | .prealloc _ nbytes => inferInstanceAs (Decidable (Palloc.Rounds k nbytes))
  | .init _ | .pfree _ | .store _ _ => inferInstanceAs (Decidable True)

instance decidableProper : ∀ (s : Option (Session k)) (op : Op), Decidable (Proper s op)
  | none, _ => isTrue fun _ h => by cases h
  | some s, op => decidable_of_iff (s.Permits op ∧ op.Rounds k)
      ⟨fun h _ hs => Option.some.inj hs ▸ h, fun h => h s rfl⟩

instance (s t : Session k) : Decidable (s.Agrees t) :=
  decidable_of_iff (s.regions.Perm t.regions ∧ s.live.Perm t.live ∧
      ∀ p ∈ s.live, s.blockAt p = t.blockAt p)
    ⟨fun ⟨hregions, hlive, hblocks⟩ => ⟨hregions, hlive, hblocks⟩,
      fun h => ⟨h.regions, h.live, h.blocks⟩⟩

instance decidableAgrees : ∀ s t : Option (Session k), Decidable (Agrees s t)
  | some s, some t => decidable_of_iff (s.Agrees t)
      ⟨fun h => ⟨s, t, rfl, rfl, h⟩, fun ⟨_, _, hs, ht, h⟩ => by
        rw [Option.some.inj hs, Option.some.inj ht]
        exact h⟩
  | none, _ => isFalse fun ⟨_, _, h, _⟩ => by cases h
  | some _, none => isFalse fun ⟨_, _, _, h, _⟩ => by cases h

end Checks

/-- The same block is held behind different calls and over different memory. -/
theorem two_pasts_forgotten : Alike
    ([Op.init ⟨4096, 4352⟩, .palloc 10, .pcalloc 3 5, .pfree 4104, .palloc 100].foldl Session.next
      (some (Session.initial 2 fun _ => 0)))
    ([Op.init ⟨4096, 4352⟩, .palloc 12, .palloc 16, .palloc 7, .pfree 4104, .pfree 4148,
      .palloc 100].foldl Session.next (some (Session.initial 2 fun _ => 255))) :=
  history_forgotten _ _ [.init ⟨4096, 4352⟩, .palloc 10, .pcalloc 3 5, .pfree 4104]
    [.init ⟨4096, 4352⟩, .palloc 12, .palloc 16, .palloc 7, .pfree 4104, .pfree 4148]
    [.palloc 100] (by decide +kernel) (by decide +kernel) (by decide +kernel) (by decide +kernel)

/-- A request in front of another one is given back. -/
theorem one_request_returned : Alike
    ([Op.init ⟨4096, 4352⟩, .palloc 10, .palloc 100].foldl Session.next
      (some (Session.initial 2 fun _ => 0)))
    ([Op.init ⟨4096, 4352⟩, .palloc 10, .palloc 50, .pfree 4124, .palloc 100].foldl Session.next
      (some (Session.initial 2 fun _ => 0))) := by
  have hptr : ∀ s, [Op.init ⟨4096, 4352⟩, .palloc 10].foldl Session.next
      (some (Session.initial 2 fun _ => 0)) = some s →
      (palloc s.heap 50).map Prod.snd = some 4124 := by decide +kernel
  have hproper : Guarded Session.next Proper (some (Session.initial 2 fun _ => 0))
      [.init ⟨4096, 4352⟩, .palloc 10, .palloc 100] := by decide +kernel
  have hsome : ([Op.init ⟨4096, 4352⟩, .palloc 10].foldl Session.next
      (some (Session.initial 2 fun _ => 0))).isSome := by decide +kernel
  obtain ⟨s, hs⟩ := Option.isSome_iff_exists.mp hsome
  obtain ⟨⟨h', q⟩, hrun, rfl⟩ := Option.map_eq_some_iff.mp (hptr s hs)
  have hmore : Guarded Session.next Proper (some s) [.palloc 100] := by
    intro p op hp
    rw [← hs, ← List.foldl_append]
    exact hproper _ op (by simpa using hp)
  exact request_returned _ [.init ⟨4096, 4352⟩, .palloc 10] [.palloc 100]
    (hproper.of_prefix ⟨[.palloc 100], rfl⟩) hs (by decide +kernel) hrun (by decide) hmore

end Sdkz.Palloc
