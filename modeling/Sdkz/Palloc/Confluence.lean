import Sdkz.Palloc.Served

/-! # The order of frees

A layout is determined by its pools, its live blocks and the markers on the list,
since the free cells are the gaps between the live ones. What is left of these by a
run of frees depends on which pointers were freed, not on the order. -/

namespace Sdkz.Palloc
open Sdkz.Base

variable {k : Nat}

/-! ## The free cells are the gaps -/

section Cells
variable {a : Nat} {c : Cell} {cs ds : List Cell}

theorem span_eq_zero (hpos : ∀ c ∈ cs, 0 < c.size) (h : span cs = 0) : cs = [] := by
  cases cs with
  | nil => rfl
  | cons c cs =>
    have := hpos c List.mem_cons_self
    rw [span_cons] at h
    omega

/-- Behind a free cell there is the end or a live block. -/
theorem behind_free {n : Nat} (hc : (⟨n, false⟩ :: cs).IsChain NotBothFree) :
    cs = [] ∨ ∃ m ds, cs = ⟨m, true⟩ :: ds := by
  cases cs with
  | nil => exact .inl rfl
  | cons d ds =>
    obtain ⟨m, live⟩ := d
    obtain rfl : live = true := (List.isChain_cons_cons.mp hc).1.resolve_left (by simp)
    exact .inr ⟨m, ds, rfl⟩

/-- The first live block says how long a free cell at the front is. -/
theorem free_front_unique {n m : Nat} (hc : (⟨n, false⟩ :: cs).IsChain NotBothFree)
    (hd : (⟨m, false⟩ :: ds).IsChain NotBothFree)
    (hlive : blocksOf true (a + n) cs = blocksOf true (a + m) ds)
    (hspan : n + span cs = m + span ds) : n = m := by
  rcases behind_free hc with rfl | ⟨x, cs, rfl⟩
  · rcases behind_free hd with rfl | ⟨y, ds, rfl⟩
    · simpa using hspan
    · simp [blocksOf] at hlive
  · rcases behind_free hd with rfl | ⟨y, ds, rfl⟩
    · simp [blocksOf] at hlive
    · have hhead := (List.cons.inj hlive).1
      have haddr : a + n = a + m := congrArg Block.addr hhead
      omega

/-- No live block is where a free cell is. -/
theorem front_not_live {n m : Nat} (hm : 0 < m) : (⟨a, n⟩ : Block) ∉ blocksOf true (a + m) cs := by
  intro hmem
  have := (mem_blocksOf hmem).2.1
  simp only at this
  omega

theorem cells_unique (hc : cs.IsChain NotBothFree) (hd : ds.IsChain NotBothFree)
    (hcpos : ∀ c ∈ cs, 0 < c.size) (hdpos : ∀ c ∈ ds, 0 < c.size)
    (hlive : blocksOf true a cs = blocksOf true a ds) (hspan : span cs = span ds) : cs = ds := by
  induction cs generalizing a ds with
  | nil => exact (span_eq_zero hdpos hspan.symm).symm
  | cons c cs ih =>
    cases ds with
    | nil => exact span_eq_zero hcpos hspan
    | cons d ds =>
      have hcpos' := fun x hx => hcpos x (List.mem_cons_of_mem c hx)
      have hdpos' := fun x hx => hdpos x (List.mem_cons_of_mem d hx)
      have hc' : cs.IsChain NotBothFree := (List.isChain_cons.mp hc).2
      have hd' : ds.IsChain NotBothFree := (List.isChain_cons.mp hd).2
      obtain ⟨n, cl⟩ := c
      obtain ⟨m, dl⟩ := d
      have hn : 0 < n := hcpos ⟨n, cl⟩ List.mem_cons_self
      have hm : 0 < m := hdpos ⟨m, dl⟩ List.mem_cons_self
      simp only [span_cons] at hspan
      cases cl with
      | true =>
        cases dl with
        | true =>
          obtain ⟨hhead, htail⟩ := List.cons.inj hlive
          obtain rfl : n = m := congrArg Block.size hhead
          rw [ih hc' hd' hcpos' hdpos' htail (by omega)]
        | false =>
          have hfront : ⟨a, n⟩ :: blocksOf true (a + n) cs = blocksOf true (a + m) ds := hlive
          exact absurd (hfront ▸ List.mem_cons_self) (front_not_live hm)
      | false =>
        cases dl with
        | true =>
          have hfront : ⟨a, m⟩ :: blocksOf true (a + m) ds = blocksOf true (a + n) cs := hlive.symm
          exact absurd (hfront ▸ List.mem_cons_self) (front_not_live hn)
        | false =>
          have htail : blocksOf true (a + n) cs = blocksOf true (a + m) ds := hlive
          obtain rfl := free_front_unique hc hd htail hspan
          rw [ih hc' hd' hcpos' hdpos' htail (by omega)]

end Cells

/-! ## Layouts -/

/-- A pool without its cells. -/
def Pool.frame (p : Pool) : Nat × Nat × Bool := (p.start, p.marker, p.marked)

section Layouts
variable {ps qs P Q : List Pool} {p q : Pool} {b c : Block}

theorem lives_front (hok : ∀ r ∈ p :: ps, r.Ok k)
    (hord : (p :: ps).Pairwise fun r s => r.stop k ≤ s.start) :
    (lives (p :: ps)).filter (fun b => b.addr < p.marker) = p.live ∧
      (lives (p :: ps)).filter (fun b => ¬ b.addr < p.marker) = lives ps := by
  have hpos := sizeofLink_pos k
  have hp : ∀ b ∈ p.live, b.addr < p.marker := by
    intro b hb
    obtain ⟨-, -, hstop, hcell⟩ := Pool.mem_live hb
    have hlarge : sizeofLink k ≤ b.size := (hok p List.mem_cons_self).large _ hcell
    rw [Block.stop] at hstop
    omega
  have hps : ∀ b ∈ lives ps, ¬ b.addr < p.marker := by
    intro b hb
    obtain ⟨q, hq, hb⟩ := mem_lives.mp hb
    have hstart := (Pool.mem_live hb).2.1
    have hstop := (List.pairwise_cons.mp hord).1 q hq
    rw [Pool.stop] at hstop
    omega
  rw [lives_cons, List.filter_append, List.filter_append]
  constructor
  · rw [List.filter_eq_self.mpr (by simpa using hp), List.filter_eq_nil_iff.mpr (by simpa using hps),
      List.append_nil]
  · rw [List.filter_eq_nil_iff.mpr (by simpa using hp), List.filter_eq_self.mpr (by simpa using hps),
      List.nil_append]

/-- A layout is determined by its frames and its live blocks. -/
theorem LayoutOk.unique (okp : LayoutOk k ps) (okq : LayoutOk k qs)
    (hframe : ps.map Pool.frame = qs.map Pool.frame) (hlives : lives ps = lives qs) : ps = qs := by
  have hpok := okp.pools
  have hqok := okq.pools
  have hpord : ps.Pairwise fun r s => r.stop k ≤ s.start := List.pairwise_map.mp okp.ordered
  have hqord : qs.Pairwise fun r s => r.stop k ≤ s.start := List.pairwise_map.mp okq.ordered
  clear okp okq
  induction ps generalizing qs with
  | nil => exact (List.map_eq_nil_iff.mp hframe.symm).symm
  | cons p ps ih =>
    cases qs with
    | nil => cases hframe
    | cons q qs =>
      obtain ⟨hhead, htail⟩ := List.cons.inj hframe
      obtain ⟨hpl, hpr⟩ := lives_front hpok hpord
      obtain ⟨hql, hqr⟩ := lives_front hqok hqord
      obtain ⟨hstart, hrest⟩ := Prod.mk.inj hhead
      obtain ⟨hmarker, hmarked⟩ := Prod.mk.inj hrest
      rw [hlives, hmarker] at hpl hpr
      have hlive : p.live = q.live := hpl.symm.trans hql
      have hrec := ih htail (hpr.symm.trans hqr) (fun r hr => hpok r (List.mem_cons_of_mem p hr))
        (fun r hr => hqok r (List.mem_cons_of_mem q hr)) (List.pairwise_cons.mp hpord).2
        (List.pairwise_cons.mp hqord).2
      obtain ⟨ps1, pcells, pm⟩ := p
      obtain ⟨qs1, qcells, qm⟩ := q
      simp only [Pool.marker, Pool.live] at hstart hmarker hmarked hlive
      subst hstart hmarked
      have hpos : ∀ r : Pool, r.Ok k → ∀ c ∈ r.cells, 0 < c.size := fun r hr c hc =>
        (sizeofLink_pos k).trans_le (hr.large c hc)
      have hp := hpok _ List.mem_cons_self
      have hq := hqok _ List.mem_cons_self
      have hcells : pcells = qcells := cells_unique hp.coalesced hq.coalesced (hpos _ hp) (hpos _ hq)
        hlive (Nat.add_left_cancel hmarker)
      rw [hcells, hrec]

/-- Different live blocks have different addresses. -/
theorem LayoutOk.lives_inj (ok : LayoutOk k ps) (hb : b ∈ lives ps) (hc : c ∈ lives ps)
    (he : b.addr = c.addr) : b = c :=
  List.inj_on_of_nodup_map ok.lives_nodup hb hc (congrArg LinkPtr.block he)

end Layouts

/-! ## What frees leave -/

/-- The frame of a pool when the blocks behind the pointers `l` are freed: its marker
leaves the list with the block in front of it, unless it is the last one. -/
def frameAfter (k : Nat) (ps : List Pool) (l : List Nat) (p : Pool) : Nat × Nat × Bool :=
  (p.start, p.marker, p.marked && decide (p.marker = lastMarker ps ∨
    ∀ b ∈ lives ps, payload k b ∈ l → b.stop ≠ p.marker))

/-- The same for one block, that ends at `stop`. -/
def frameFreed (last stop : Nat) : Nat × Nat × Bool → Nat × Nat × Bool
  | (start, marker, marked) => (start, marker, marked && decide (marker = last ∨ stop ≠ marker))

/-- `ps'` is `ps` with the blocks behind the pointers `l` freed. -/
structure Freed (k : Nat) (ps : List Pool) (l : List Nat) (ps' : List Pool) : Prop where
  ok : LayoutOk k ps'
  frames : ps'.map Pool.frame = ps.map (frameAfter k ps l)
  lives : lives ps' = (Palloc.lives ps).filter fun b => payload k b ∉ l

section Freed
variable {ps ps' ps'' P Q : List Pool} {p : Pool} {l l' : List Nat} {n : Nat} {B₁ B₂ : List Cell}

theorem Freed.refl (ok : LayoutOk k ps) : Freed k ps [] ps := by
  refine ⟨ok, List.map_congr_left fun p _ => ?_, ?_⟩
  · simp [Pool.frame, frameAfter]
  · exact (List.filter_eq_self.mpr fun b _ => by simp).symm

/-- **The order does not matter.** -/
theorem Freed.unique (F : Freed k ps l ps') (F' : Freed k ps l' ps'') (hl : ∀ a, a ∈ l ↔ a ∈ l') :
    ps' = ps'' := by
  refine F.ok.unique F'.ok ?_ ?_
  · rw [F.frames, F'.frames]
    refine List.map_congr_left fun p _ => ?_
    simp only [frameAfter, hl]
  · rw [F.lives, F'.lives]
    simp only [hl]

theorem lastMarker_congr (h : ps'.map Pool.marker = ps.map Pool.marker) :
    lastMarker ps' = lastMarker ps := by
  have hlast := congrArg List.getLast? h
  rw [List.getLast?_map, List.getLast?_map] at hlast
  rw [lastMarker, lastMarker, hlast]

theorem Freed.markers (F : Freed k ps l ps') : ps'.map Pool.marker = ps.map Pool.marker := by
  have h := congrArg (List.map fun f => f.2.1) F.frames
  rwa [List.map_map, List.map_map] at h

section Cell
variable (ok : LayoutOk k (P ++ p :: Q)) (hcells : p.cells = B₁ ++ ([⟨n, true⟩] ++ B₂))
include ok hcells

omit ok in
theorem marker_eq : p.marker = p.start + span B₁ + n + span B₂ := by
  have hone : span [(⟨n, true⟩ : Cell)] = n := rfl
  rw [Pool.marker, hcells, span_append, span_append, hone]
  omega

/-- A freed cell touches the marker of its own pool at most. -/
theorem marker_ne_of_mem {q : Pool} (hq : q ∈ P ∨ q ∈ Q) :
    p.start + span B₁ + n ≠ q.marker := by
  have hle : p.start + span B₁ + n ≤ p.marker := by
    rw [marker_eq hcells]
    exact Nat.le_add_right _ _
  have hpos := sizeofLink_pos k
  rcases hq with hq | hq
  · have := ok.around.1 q hq
    rw [Pool.stop] at this
    omega
  · have := ok.around.2 q hq
    rw [Pool.stop] at this
    rw [Pool.marker] at *
    omega

theorem touches_marker_iff : p.start + span B₁ + n = p.marker ↔ B₂ = [] := by
  rw [marker_eq hcells]
  constructor
  · intro h
    refine span_eq_zero (fun c hc => ?_) (by omega : span B₂ = 0)
    exact (sizeofLink_pos k).trans_le (ok.pool.large c (by simp [hcells, hc]))
  · rintro rfl
    rfl

omit hcells in
theorem marker_last_iff : p.marker = lastMarker (P ++ p :: Q) ↔ Q = [] := by
  constructor
  · intro h
    by_contra hne
    obtain ⟨q, hq⟩ := List.exists_mem_of_ne_nil Q hne
    have hlast := ok.marker_le_last (List.mem_append_right P (List.mem_cons_of_mem p hq))
    have hstop := ok.around.2 q hq
    have hpos := sizeofLink_pos k
    rw [Pool.stop] at hstop
    rw [Pool.marker] at hlast
    omega
  · rintro rfl
    exact lastMarker_append.symm

theorem frames_freeCell : (freeCell P p Q B₁ n B₂).map Pool.frame = (P ++ p :: Q).map
    fun q => frameFreed (lastMarker (P ++ p :: Q)) (p.start + span B₁ + n) q.frame := by
  have hother : ∀ q, q ∈ P ∨ q ∈ Q →
      q.frame = frameFreed (lastMarker (P ++ p :: Q)) (p.start + span B₁ + n) q.frame := by
    intro q hq
    have hne := marker_ne_of_mem ok hcells hq
    simp [frameFreed, Pool.frame, hne]
  have hself : (freedPool p Q B₁ n B₂).frame =
      frameFreed (lastMarker (P ++ p :: Q)) (p.start + span B₁ + n) p.frame := by
    rw [Pool.frame, freedPool_marker ok hcells]
    simp only [frameFreed, Pool.frame, freedPool, marker_last_iff ok, ne_eq,
      touches_marker_iff ok hcells]
    cases B₂ <;> cases Q <;> simp
  rw [freeCell, List.map_append, List.map_cons, List.map_append, List.map_cons, hself,
    List.map_congr_left fun q hq => hother q (.inl hq),
    List.map_congr_left fun q hq => hother q (.inr hq)]

end Cell

/-- One more free. -/
theorem Freed.step (ok : LayoutOk k ps) (F : Freed k ps l (P ++ p :: Q))
    (hcells : p.cells = B₁ ++ ([⟨n, true⟩] ++ B₂)) :
    Freed k ps (payload k ⟨p.start + span B₁, n⟩ :: l) (freeCell P p Q B₁ n B₂) := by
  obtain ⟨X, Y, hX, hXY⟩ := lives_freeCell F.ok hcells
  have hb : (⟨p.start + span B₁, n⟩ : Block) ∈ Palloc.lives ps := by
    have hmem := live_mem F.ok hcells
    rw [F.lives] at hmem
    exact (List.mem_filter.mp hmem).1
  refine ⟨freeCell_ok F.ok hcells, ?_, ?_⟩
  · rw [frames_freeCell F.ok hcells, lastMarker_congr F.markers]
    have hmap := congrArg (List.map (frameFreed (lastMarker ps) (p.start + span B₁ + n))) F.frames
    rw [List.map_map, List.map_map] at hmap
    refine hmap.trans (List.map_congr_left fun q _ => ?_)
    have hiff : (∀ c ∈ Palloc.lives ps, payload k c ∈ payload k ⟨p.start + span B₁, n⟩ :: l →
        c.stop ≠ q.marker) ↔ (∀ c ∈ Palloc.lives ps, payload k c ∈ l → c.stop ≠ q.marker) ∧
          p.start + span B₁ + n ≠ q.marker := by
      constructor
      · exact fun h => ⟨fun c hc hcl => h c hc (List.mem_cons_of_mem _ hcl),
          h _ hb List.mem_cons_self⟩
      · rintro ⟨hold, hnew⟩ c hc hcl
        rcases List.mem_cons.mp hcl with he | hcl
        · rw [ok.lives_inj hc hb (Nat.add_right_cancel he)]
          exact hnew
        · exact hold c hc hcl
    have hstep : ∀ last stop start marker marked, frameFreed last stop (start, marker, marked) =
        (start, marker, marked && decide (marker = last ∨ stop ≠ marker)) := fun _ _ _ _ _ => rfl
    rw [Function.comp_apply, frameAfter, frameAfter, hstep, Prod.mk.injEq, Prod.mk.injEq,
      Bool.eq_iff_iff]
    simp only [Bool.and_eq_true, decide_eq_true_eq, hiff]
    tauto
  · have hne : ∀ b ∈ X ++ Y, payload k b ≠ payload k ⟨p.start + span B₁, n⟩ := by
      intro b hb he
      have hnodup := F.ok.lives_nodup
      rw [hX] at hnodup
      have hlink : b.link = (⟨p.start + span B₁, n⟩ : Block).link :=
        congrArg LinkPtr.block (Nat.add_right_cancel he)
      rw [links_append, links_append] at hnodup
      have hout := (List.nodup_cons.mp (List.nodup_middle.mp hnodup)).1
      have hmem : (⟨p.start + span B₁, n⟩ : Block).link ∈ links X ++ links Y := by
        rw [← links_append]
        exact List.mem_map.mpr ⟨b, hb, hlink⟩
      exact hout hmem
    have hfilter : (Palloc.lives (P ++ p :: Q)).filter
        (fun b => payload k b ≠ payload k ⟨p.start + span B₁, n⟩) = X ++ Y := by
      rw [hX, List.filter_append, List.filter_append]
      have hX' := List.filter_eq_self.mpr fun b hb =>
        decide_eq_true (hne b (List.mem_append_left Y hb))
      have hY' := List.filter_eq_self.mpr fun b hb =>
        decide_eq_true (hne b (List.mem_append_right X hb))
      rw [hX', hY']
      simp
    rw [hXY, ← hfilter, F.lives, List.filter_filter]
    refine List.filter_congr fun b _ => ?_
    simp [not_or]

end Freed

/-! ## Runs of frees -/

/-- `pfree` on each of the pointers, one after the other. -/
def freeAll (h : Heap k) (l : List Nat) : Option (Heap k) := l.foldlM pfree h

theorem freeAll_cons (h : Heap k) (a : Nat) (l : List Nat) :
    freeAll h (a :: l) = (pfree h a).bind fun h => freeAll h l := List.foldlM_cons

section Runs
variable {h : Heap k} {ps ps' : List Pool} {l l₀ : List Nat}

theorem freeAll_represents (ok : LayoutOk k ps) (F : Freed k ps l₀ ps') (rep : Represents h ps')
    (hl : l.Nodup) (hlive : ∀ a ∈ l, ∃ b ∈ lives ps, a = payload k b) (hnew : ∀ a ∈ l, a ∉ l₀) :
    ∃ h' ps'', freeAll h l = some h' ∧ Represents h' ps'' ∧ Freed k ps (l.reverse ++ l₀) ps'' := by
  induction l generalizing h ps' l₀ with
  | nil => exact ⟨h, ps', rfl, rep, F⟩
  | cons a l ih =>
    obtain ⟨hal, hnodup⟩ := List.nodup_cons.mp hl
    obtain ⟨b, hb, rfl⟩ := hlive a List.mem_cons_self
    have hb' : b ∈ lives ps' := by
      rw [F.lives]
      exact List.mem_filter.mpr ⟨hb, by simpa using hnew _ List.mem_cons_self⟩
    obtain ⟨P, p, Q, B₁, B₂, rfl, hcells, haddr⟩ := lives_split hb'
    obtain ⟨h₁, hrun, hrep, -⟩ := pfree_represents F.ok hcells rep
    have F₁ := F.step ok hcells
    have hblock : (⟨p.start + span B₁, b.size⟩ : Block) = b := by rw [← haddr]
    have hptr : p.start + span B₁ + sizeofLink k = payload k b := by rw [payload, haddr]
    rw [hblock] at F₁
    rw [hptr] at hrun
    have hnew' : ∀ c ∈ l, c ∉ payload k b :: l₀ := by
      intro c hc hm
      rcases List.mem_cons.mp hm with rfl | hm
      · exact hal hc
      · exact hnew c (List.mem_cons_of_mem _ hc) hm
    obtain ⟨h', ps'', hrest, hrep', F'⟩ := ih F₁ hrep hnodup
      (fun c hc => hlive c (List.mem_cons_of_mem _ hc)) hnew'
    refine ⟨h', ps'', ?_, hrep', ?_⟩
    · rw [freeAll_cons, hrun]
      exact hrest
    · rw [List.reverse_cons, List.append_assoc]
      exact F'

end Runs

/-! ## Sessions -/

/-- Coalescing on the list `L`: no two free blocks touch, the order of frees does not
matter, and when nothing is held each region is one free block. -/
structure Session.Coalesces (s : Session k) (L : List Block) : Prop where
  lists : Lists s.heap L
  apart : ∀ b ∈ L, ∀ c ∈ L, b.size ≠ 0 → c.size ≠ 0 → b.stop ≠ c.addr
  anyOrder : ∀ l l' : List Nat, l.Nodup → (∀ a ∈ l, a ∈ s.live) → l.Perm l' →
    ∃ h h' L', freeAll s.heap l = some h ∧ freeAll s.heap l' = some h' ∧ Lists h L' ∧
      Lists h' L' ∧ h.freeSize = h'.freeSize
  whole : ∀ l : List Nat, l.Perm s.live → ∃ h L', freeAll s.heap l = some h ∧ Lists h L' ∧
    ∀ r ∈ s.regions, L'.filter (fun b => b.size ≠ 0 ∧ r.start ≤ b.addr ∧ b.addr < r.stop) =
      [⟨r.start, r.length - sizeofLink k⟩]

def Coalescing (s : Option (Session k)) : Prop := ∃ t L, s = some t ∧ t.Coalesces L

section Layout
variable {ps P Q : List Pool} {p : Pool} {b c : Block} {a : Nat} {cs : List Cell}

/-- The block at the front of some cells. -/
theorem blocksOf_front {l : Bool} (hpos : ∀ c ∈ cs, 0 < c.size) (hb : b ∈ blocksOf l a cs)
    (ha : b.addr = a) : ∃ ds, cs = ⟨b.size, l⟩ :: ds := by
  cases cs with
  | nil => cases hb
  | cons c cs =>
    have hc := hpos c List.mem_cons_self
    have hrest : b ∉ blocksOf l (a + c.size) cs := fun hm => by
      have := (mem_blocksOf hm).2.1
      omega
    rw [blocksOf] at hb
    split at hb
    · rename_i hl
      obtain rfl := (List.mem_cons.mp hb).resolve_right hrest
      exact ⟨cs, by rw [← hl]⟩
    · exact absurd hb hrest

/-- **No two free blocks touch.** -/
theorem LayoutOk.listed_not_adjacent (ok : LayoutOk k ps) (hb : b ∈ listed ps) (hc : c ∈ listed ps)
    (hbs : b.size ≠ 0) (hcs : c.size ≠ 0) : b.stop ≠ c.addr := by
  intro he
  obtain ⟨p, hp, hb⟩ := mem_listed.mp hb
  obtain ⟨q, hq, hc⟩ := mem_listed.mp hc
  replace hb : b ∈ p.free := hb.resolve_right fun hm => hbs (by rw [Pool.mem_marks hm])
  replace hc : c ∈ q.free := hc.resolve_right fun hm => hcs (by rw [Pool.mem_marks hm])
  obtain ⟨-, hbstart, hbstop, -⟩ := Pool.mem_free hb
  obtain ⟨-, hcstart, hcstop, -⟩ := Pool.mem_free hc
  have hlink := sizeofLink_pos k
  have hpos : ∀ d ∈ p.cells, 0 < d.size := fun d hd => hlink.trans_le ((ok.pools p hp).large d hd)
  have hstop : b.stop = b.addr + b.size := rfl
  obtain rfl : p = q := by
    refine ok.pool_unique hp hq (a := c.addr) ⟨by omega, ?_⟩ ⟨hcstart, ?_⟩
    · rw [Pool.stop]
      omega
    · rw [Pool.stop]
      rw [Block.stop] at hcstop
      omega
  obtain ⟨A, C, hfree⟩ := List.append_of_mem hb
  obtain ⟨B₁, B₂, hcells, haddr, hA, hC⟩ := blocksOf_split hfree
  have hchain := (ok.pools p hp).coalesced
  rw [hfree, hA, hC] at hc
  have hcB : c ∈ blocksOf false b.stop B₂ := by
    rcases List.mem_append.mp hc with hc | hc
    · have := (mem_blocksOf hc).2.2.1
      rw [Block.stop] at this
      omega
    · rcases List.mem_cons.mp hc with rfl | hc
      · omega
      · exact hc
  rw [hcells] at hpos hchain
  obtain ⟨ds, rfl⟩ := blocksOf_front (fun d hd => hpos d (by simp [hd])) hcB he.symm
  have hpair := (List.isChain_append.mp hchain).2.1
  have := (List.isChain_cons_cons.mp hpair).1
  simp [NotBothFree] at this

/-- Cells without a live one are a single free cell. -/
theorem single_free (hc : cs.IsChain NotBothFree) (hlive : blocksOf true a cs = [])
    (hpos : 0 < span cs) : cs = [⟨span cs, false⟩] := by
  cases cs with
  | nil => exact absurd hpos (Nat.lt_irrefl 0)
  | cons c cs =>
    obtain ⟨n, live⟩ := c
    cases live with
    | true => simp [blocksOf] at hlive
    | false =>
      rcases behind_free hc with rfl | ⟨m, ds, rfl⟩
      · simp
      · simp [blocksOf] at hlive

/-- Without live blocks a pool has one free block. -/
theorem LayoutOk.whole (ok : LayoutOk k ps) (hlives : lives ps = []) (hp : p ∈ ps)
    (hr : (p.region k).Ok k) :
    (listed ps).filter (fun b => b.size ≠ 0 ∧ p.start ≤ b.addr ∧ b.addr < p.stop k) =
      [⟨p.start, (p.region k).length - sizeofLink k⟩] := by
  obtain ⟨P, Q, rfl⟩ := List.append_of_mem hp
  have hspan : (p.region k).length - sizeofLink k = span p.cells := by
    have := p.span_le k
    change p.stop k - p.start - sizeofLink k = _
    omega
  have hlarge := hr.large
  have hpos := sizeofLink_pos k
  have hlive : p.live = [] := by
    rw [lives_append, lives_cons] at hlives
    exact (List.append_eq_nil_iff.mp (List.append_eq_nil_iff.mp hlives).2).1
  have hcells := single_free ok.pool.coalesced hlive (by omega)
  have hfree : p.free = [⟨p.start, span p.cells⟩] := by
    rw [Pool.free, hcells]
    simp [blocksOf]
  have hP : (listed P).filter (fun b => b.size ≠ 0 ∧ p.start ≤ b.addr ∧ b.addr < p.stop k) = [] := by
    refine List.filter_eq_nil_iff.mpr fun b hb => ?_
    have := listed_below (r := p.region k) ok.around.1 hb
    simp only [Pool.region] at this
    simp
    omega
  have hQ : (listed Q).filter (fun b => b.size ≠ 0 ∧ p.start ≤ b.addr ∧ b.addr < p.stop k) = [] := by
    refine List.filter_eq_nil_iff.mpr fun b hb => ?_
    have := listed_above (r := p.region k) ok.around.2 hb
    simp only [Pool.region] at this
    simp
    omega
  have hmarks : p.marks.filter (fun b => b.size ≠ 0 ∧ p.start ≤ b.addr ∧ b.addr < p.stop k) = [] := by
    refine List.filter_eq_nil_iff.mpr fun b hb => ?_
    rw [Pool.mem_marks hb]
    simp
  have hself : p.start < p.stop k ∧ span p.cells ≠ 0 := by
    rw [Pool.stop, Pool.marker]
    omega
  rw [listed_append, listed_cons, List.filter_append, List.filter_append, List.filter_append, hP, hQ,
    hmarks, hfree, hspan]
  simp [hself.1, hself.2]

end Layout

section Valid
variable {s : Session k} {ps : List Pool}

/-- A valid session coalesces. -/
theorem Valid.coalesces (v : Valid s ps) : s.Coalesces (listed ps) := by
  have hfreed : ∀ l : List Nat, l.Nodup → (∀ a ∈ l, a ∈ s.live) → ∃ h' ps',
      freeAll s.heap l = some h' ∧ Represents h' ps' ∧ Freed k ps (l.reverse ++ []) ps' :=
    fun l hl hlive => freeAll_represents v.ok (Freed.refl v.ok) v.rep hl
      (fun a ha => v.block_of_live (hlive a ha)) fun a _ => List.not_mem_nil
  refine ⟨v.rep.lists, fun b hb c hc => v.ok.listed_not_adjacent hb hc, ?_, ?_⟩
  · intro l l' hl hlive hperm
    obtain ⟨h, ps₁, hrun, hrep, F⟩ := hfreed l hl hlive
    obtain ⟨h', ps₂, hrun', hrep', F'⟩ := hfreed l' (hperm.nodup_iff.mp hl)
      fun a ha => hlive a (hperm.mem_iff.mpr ha)
    obtain rfl := F.unique F' fun a => by simp [hperm.mem_iff]
    exact ⟨h, h', _, hrun, hrun', hrep.lists, hrep'.lists, hrep.freeSize.trans hrep'.freeSize.symm⟩
  · intro l hperm
    obtain ⟨h, ps', hrun, hrep, F⟩ := hfreed l (hperm.nodup_iff.mpr v.live_nodup)
      fun a ha => hperm.mem_iff.mp ha
    refine ⟨h, _, hrun, hrep.lists, fun r hr => ?_⟩
    have hnone : lives ps' = [] := by
      rw [F.lives]
      refine List.filter_eq_nil_iff.mpr fun b hb => ?_
      simpa using hperm.mem_iff.mpr (v.mem_live hb)
    have hregions : Palloc.regions k ps' = Palloc.regions k ps := by
      have hmap := congrArg (List.map fun f : Nat × Nat × Bool =>
        (⟨f.1, f.2.1 + sizeofLink k⟩ : Region)) F.frames
      rwa [List.map_map, List.map_map] at hmap
    have hmem := v.regions.mem_iff.mp hr
    rw [← hregions] at hmem
    obtain ⟨p, hp, rfl⟩ := List.mem_map.mp hmem
    exact F.ok.whole hnone hp (v.taken _ hr)

end Valid

/-- **Coalescing** in every state of a run of admitted calls. -/
theorem always_coalescing (k : Nat) (mem : Memory) (ops : List Op)
    (h : Guarded Session.calls Admitted (some (Session.initial k mem)) ops) :
    Always Session.calls Coalescing (some (Session.initial k mem)) ops := by
  intro l hl
  obtain ⟨t, ps, hrun, hv⟩ := always_laid_calls h l hl
  exact ⟨t, listed ps, hrun, hv.coalesces⟩

theorem requests_coalesce : Always Session.calls Coalescing
    (some (Session.initial 2 fun _ => 0))
    [.init ⟨4096, 4352⟩, .palloc 10, .pcalloc 3 5, .pfree 4104] :=
  always_coalescing 2 _ _ (admitted_of_proper requests_proper)

/-- After a request that wraps when it is rounded, a free leaves an empty block. -/
theorem rounding_loses_block :
    Guarded Session.next Permitted (some (Session.initial 2 fun _ => 0))
        [.init ⟨4096, 4352⟩, .palloc 4294967287] ∧
      ¬ Always Session.next Coalescing (some (Session.initial 2 fun _ => 0))
        [.init ⟨4096, 4352⟩, .palloc 4294967287] := by
  refine ⟨rounding_permitted, fun hall => ?_⟩
  obtain ⟨t, L, hrun, hc⟩ := hall.last
  have hstate : ∀ u, [Op.init ⟨4096, 4352⟩, .palloc 4294967287].foldl Session.next
      (some (Session.initial 2 fun _ => 0)) = some u → u.live = [4104] ∧
        u.regions = [⟨4096, 4352⟩] ∧ ∀ h, freeAll u.heap [4104] = some h →
          h.flagNsize (.block 4096) = 0 := by
    decide +kernel
  obtain ⟨hlive, hregions, hfree⟩ := hstate t hrun
  obtain ⟨h, L', hrun', hlists, hwhole⟩ := hc.whole [4104] (hlive ▸ List.Perm.refl _)
  have hfilter := hwhole ⟨4096, 4352⟩ (hregions ▸ List.mem_cons_self)
  have hmem : (⟨4096, 248⟩ : Block) ∈ L' :=
    (List.mem_filter.mp (hfilter ▸ List.mem_cons_self)).1
  have hsize : h.flagNsize (.block 4096) = 248 := hlists.sizes ⟨4096, 248⟩ hmem
  rw [hfree h hrun'] at hsize
  cases hsize

end Sdkz.Palloc
