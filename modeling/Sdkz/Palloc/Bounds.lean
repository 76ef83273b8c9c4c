import Sdkz.Palloc.Again
import Sdkz.Palloc.Contents

/-! # Inside of the memory that was given

`palloc_init` rounds both bounds up. A start that is rounded up stays in the region; an end
that is rounded up leaves it, and the end marker with it. If the ends are at words, every
header that is stored to and all memory that is handed out lies in a region as it was
given. -/

namespace Sdkz.Palloc
open Sdkz.Base

variable {k : Nat}

/-- The links that an operation stores to. -/
def Session.links (s : Session k) : Op → List LinkPtr
  | .init r => pallocInitLinks s.heap r.start r.stop
  | .palloc size => pallocLinks s.heap size
  | .pfree p => pfreeLinks s.heap p
  | _ => []

/-- `n` bytes at `x` lie in one of the regions, as they were given. -/
def Inside (ops : List Op) (x n : Nat) : Prop :=
  ∃ r, Op.init r ∈ ops ∧ r.start ≤ x ∧ x + n ≤ r.stop

/-- The operations that are considered here; a region has some bytes. -/
def Op.Plain (k : Nat) : Op → Prop
  | .init r => r.start < r.stop ∧ r.stop < sizeMod k
  | .palloc _ => True
  | .pfree _ => True
  | .store _ _ => True
  | _ => False

/-- A plain operation that is admitted. -/
def AdmittedPlain (s : Option (Session k)) (op : Op) : Prop :=
  ∀ t, s = some t → t.Admits op ∧ op.Plain k

/-- The regions are given apart from each other. -/
def GivenApart (ops : List Op) : Prop :=
  ∀ p r, p ++ [Op.init r] <+: ops → ∀ q, Op.init q ∈ p → r.stop ≤ q.start ∨ q.stop ≤ r.start

/-- Before each operation what is handed out lies inside, and the operation stores to headers
inside and changes no byte that is not. -/
def StaysInside (k : Nat) (mem : Memory) (ops : List Op) : Prop :=
  ∀ p op, p ++ [op] <+: ops → ∃ t t', p.foldl Session.calls (some (Session.initial k mem)) = some t ∧
    t.call op = some t' ∧ (∀ q ∈ t'.live, Inside (p ++ [op]) q ((t'.blockAt q).stop - q)) ∧
    (∀ x, .block x ∈ t.links op → Inside (p ++ [op]) x (sizeofLink k)) ∧
    ∀ a, t'.heap.mem a ≠ t.heap.mem a → Inside (p ++ [op]) a 1

/-! ## The links that are stored to -/

section Links
variable {s : Session k} {ps : List Pool} {b : Block} {x n p : Nat} {r : Region}

/-- A header lies in a region. -/
theorem Valid.header_inside (v : Valid s ps) (hx : x ∈ headers ps) :
    ∃ t ∈ s.regions, t.start ≤ x ∧ x + sizeofLink k ≤ t.stop := by
  obtain ⟨p, hp, hxp⟩ := List.mem_flatMap.mp hx
  obtain ⟨hstart, hmarker⟩ := Pool.mem_headers hxp
  exact ⟨p.region k, v.regions.mem_iff.mpr (List.mem_map_of_mem hp), hstart,
    Nat.add_le_add_right hmarker _⟩

/-- A request that is turned down stores nothing. -/
theorem Valid.links_refused (v : Valid s ps) (hr : Refuses s.heap n) : pallocLinks s.heap n = [] := by
  unfold pallocLinks
  rcases palloc_search_refused v.ok v.rep (v.refuses_iff.mp hr) with hentry | ⟨prev, hentry, hsearch⟩
  · rw [hentry]
  · rw [hentry]
    simp only
    rw [hsearch]
    exact if_pos rfl

theorem Valid.palloc_inside (v : Valid s ps) (hn : s.Serves n)
    (hx : LinkPtr.block x ∈ pallocLinks s.heap n) :
    ∃ t ∈ s.regions, t.start ≤ x ∧ x + sizeofLink k ≤ t.stop := by
  have hnone : ¬ Refuses s.heap n := fun h => by
    rw [v.links_refused h] at hx
    cases hx
  have hn0 : n ≠ 0 := by
    rintro rfl
    rw [pallocLinks, pallocEntry, if_pos (.inr rfl)] at hx
    cases hx
  have hround : Rounds k n := (hn.resolve_left hn0).resolve_right hnone
  obtain ⟨h', A, b, C, -, hold, hroom, hsmall⟩ := v.not_refused hn0 hnone
  rw [hround.need_eq] at hroom hsmall
  have hb : b ∈ listed ps := by simp [hold]
  obtain ⟨c, hc, rfl⟩ := List.mem_map.mp (v.palloc_links hn0 hround hold hsmall hroom x hx)
  rcases List.mem_append.mp hc with hc | hc
  · have hcA : c ∈ A := List.mem_of_getLast? (Option.mem_toList.mp hc)
    exact v.header_inside (listed_header (by simp [hold, hcA]))
  · rcases List.mem_cons.mp hc with rfl | hc
    · exact v.header_inside (listed_header hb)
    · -- what is left of a block lies in it
      obtain ⟨p, hp, -, hstart, hstop⟩ := block_pool (.inl hb)
      refine ⟨p.region k, v.regions.mem_iff.mpr (List.mem_map_of_mem hp), ?_⟩
      unfold leftOver at hc
      split at hc
      · rw [List.mem_singleton.mp hc]
        simp only [Pool.region, Pool.stop, Block.stop] at hstop ⊢
        omega
      · cases hc

theorem Valid.pfree_inside (v : Valid s ps) (hp : p = 0 ∨ p ∈ s.live)
    (hx : LinkPtr.block x ∈ pfreeLinks s.heap p) :
    ∃ t ∈ s.regions, t.start ≤ x ∧ x + sizeofLink k ≤ t.stop := by
  rcases hp with rfl | hp
  · rw [pfreeLinks, if_pos rfl] at hx
    cases hx
  · obtain ⟨b, hb, rfl⟩ := v.block_of_live hp
    obtain ⟨P, p, Q, B₁, B₂, rfl, hcells, haddr⟩ := lives_split hb
    have hcells : p.cells = B₁ ++ ([⟨b.size, true⟩] ++ B₂) := hcells
    have I := insertable v.ok hcells v.rep
    obtain ⟨A', x', hbefore⟩ : ∃ A' x', joinBefore (before P p B₁) ⟨p.start + span B₁, b.size⟩ =
      (A', x') := ⟨_, _, rfl⟩
    obtain ⟨h₁, hprev, hx', -⟩ := I.joins hbefore rfl
    have hloop := I.loop
    have hitor := I.links_inUse (prev_mem _ (behind p (p.start + span B₁ + b.size) B₂ Q))
    have hlive : InUse (P ++ p :: Q) (.block b.addr) := InUse.of_lives hb
    rw [← haddr] at hprev hloop
    -- the check of the header succeeds
    obtain ⟨hflag, hnext⟩ := v.rep.lives b hb
    have hflag : s.heap.flagNsize (.block b.addr) = b.size + pallocAllocated k := hflag
    have hnext : s.heap.next (.block b.addr) = 0 := hnext
    have hsize := (v.ok.lives_bounds hb).size
    have hne : payload k b ≠ 0 := v.live_ne_zero hp
    refine v.header_inside ?_
    simp only [pfreeLinks, v.ok.link_of_payload hb, hflag, hnext, add_allocated_and_not hsize] at hx
    rw [if_neg hne, if_pos ⟨add_allocated_and hsize, trivial⟩, insertLinks, hloop] at hx
    simp only [hprev] at hx
    rcases List.mem_cons.mp hx with hx | hx
    · rw [LinkPtr.block.inj hx]
      exact hlive
    · rcases List.mem_cons.mp hx with hx | hx
      · rw [← hx] at hitor
        exact hitor
      · rw [List.mem_singleton] at hx
        rw [LinkPtr.block.inj hx]
        exact hx'

/-- The headers of a pool that is put on the list are its own two and listed ones. -/
theorem Valid.init_inside (v : Valid s ps) (hr : r.Ok k)
    (hx : LinkPtr.block x ∈ pallocInitLinks s.heap r.start r.stop) :
    ∃ t ∈ r :: s.regions, t.start ≤ x ∧ x + sizeofLink k ≤ t.stop := by
  obtain ⟨A, C, prev, hold, -, -, hloop, hprev⟩ := v.init_place r.start
  obtain ⟨hstart, hstop, hsize⟩ := hr.computed
  have hlarge := hr.large
  have hbounded := hr.bounded
  have hlength : r.length = r.stop - r.start := rfl
  have hlisted : x ∈ headers ps → ∃ t ∈ r :: s.regions, t.start ≤ x ∧ x + sizeofLink k ≤ t.stop := by
    intro hmem
    obtain ⟨t, ht, hin⟩ := v.header_inside hmem
    exact ⟨t, List.mem_cons_of_mem _ ht, hin⟩
  have hown : x = r.start ∨ x = r.stop - sizeofLink k →
      ∃ t ∈ r :: s.regions, t.start ≤ x ∧ x + sizeofLink k ≤ t.stop := by
    intro he
    refine ⟨r, List.mem_cons_self, ?_⟩
    rcases he with rfl | rfl <;> omega
  simp only [pallocInitLinks, hstart, hstop, hsize, hr.computed_last, hloop] at hx
  rw [if_pos (by omega)] at hx
  by_cases hend : headAddr C = 0
  · rw [if_pos hend] at hx
    simp only [List.mem_cons, List.mem_append, Option.mem_toList, LinkPtr.block.injEq] at hx
    rcases hx with hx | hx | hx | hx
    · exact hown (.inl hx)
    · exact hown (.inr hx)
    · -- the marker that was the last one
      rw [v.rep.ppoolLast] at hx
      unfold toLink at hx
      split at hx
      · cases hx
      · rename_i hne
        obtain rfl := LinkPtr.block.inj (Option.some.inj hx)
        obtain ⟨L, hL⟩ := v.ok.getLast_listed (by rintro rfl; exact hne rfl)
        exact hlisted (listed_header (b := ⟨lastMarker ps, 0⟩) (by simp [hL]))
    · split at hx
      · cases List.mem_singleton.mp hx
      · cases hx
  · rw [if_neg hend] at hx
    split at hx
    · simp only [List.mem_cons, LinkPtr.block.injEq, List.not_mem_nil, or_false] at hx
      rcases hx with hx | hx | hx
      · exact hown (.inl hx)
      · exact hown (.inr hx)
      · have hC : C ≠ [] := by
          rintro rfl
          exact hend rfl
        have huse : InUse ps ((links A).getLastD .anchor) :=
          InUse.of_links (L := A) (fun b hb => by simp [hold, hb]) (getLastD_mem _ _)
        rw [← hprev hC, ← hx] at huse
        exact hlisted huse
    · cases hx

end Links

/-! ## Rounded ends -/

section Ends
variable {a : Nat} {h : Heap k} {r : Region}

theorem pallocInitLinks_rounded (h : Heap k) (r : Region) : pallocInitLinks h r.start r.stop =
    pallocInitLinks h (r.rounded k).start (r.rounded k).stop := by
  simp only [pallocInitLinks, Region.rounded, alignedValue_alignedValue]

theorem pallocInitLinks_short (hr : ¬ r.Taken k) : pallocInitLinks h r.start r.stop = [] := if_neg hr

/-- An address that wraps when it is rounded becomes zero. -/
theorem alignedValue_wraps (ha : a < sizeMod k) (hw : sizeMod k ≤ a + alignedMask k) :
    alignedValue k a = 0 := by
  have hpos := sizeofSizeT_pos k
  have hword := size_lt_sizeMod k
  have hrest : (a + alignedMask k) % sizeMod k = a + alignedMask k - sizeMod k := by
    rw [Nat.mod_eq_sub_mod hw]
    exact Nat.mod_eq_of_lt (by rw [alignedMask]; omega)
  rw [alignedValue, sizeAdd, hrest, and_not_mask (by rw [alignedMask]; omega),
    Nat.div_eq_of_lt (by rw [alignedMask]; omega), Nat.zero_mul]

/-- Rounding adds less than a word. -/
theorem alignedValue_bounds (h : a + alignedMask k < sizeMod k) :
    a ≤ alignedValue k a ∧ alignedValue k a < a + sizeofSizeT k := by
  refine ⟨le_alignedValue h, ?_⟩
  have hpos := sizeofSizeT_pos k
  have hle := Nat.div_mul_le_self (a + alignedMask k) (sizeofSizeT k)
  rw [alignedValue_eq h]
  rw [alignedMask] at hle ⊢
  omega

/-- The bounds that `palloc_init` works on, if they are in order. -/
theorem Region.rounded_bounds (hlt : r.start < r.stop) (hbounded : r.stop < sizeMod k)
    (hr : (r.rounded k).Ok k) :
    r.start ≤ (r.rounded k).start ∧ r.stop ≤ (r.rounded k).stop ∧
      (r.rounded k).stop < r.stop + sizeofSizeT k := by
  have hstop : r.stop + alignedMask k < sizeMod k := by
    by_contra hwrap
    have hzero : (r.rounded k).stop = 0 := alignedValue_wraps hbounded (not_lt.mp hwrap)
    have hlarge := hr.large
    rw [Region.length, hzero, Nat.zero_sub] at hlarge
    exact absurd hlarge (Nat.not_lt_zero _)
  obtain ⟨hle, hword⟩ := alignedValue_bounds hstop
  exact ⟨le_alignedValue (by omega), hle, hword⟩

/-- A word is no longer than a header. -/
theorem sizeofSizeT_le_sizeofLink (k : Nat) : sizeofSizeT k ≤ sizeofLink k := by
  rw [sizeofLink_eq]
  omega

end Ends

/-! ## The regions of a run -/

section Runs
variable {s s' : Session k} {ps : List Pool} {op : Op} {ops p : List Op} {r : Region} {x n : Nat}
  {mem : Memory}

/-- A region that an admitted call adds is the one it was given, with rounded bounds. -/
theorem Session.call_regions_of (hplain : op.Plain k) (hrun : s.call op = some s') :
    ∀ t ∈ s'.regions, t ∈ s.regions ∨ ∃ r, op = .init r ∧ r.Taken k ∧ t = r.rounded k := by
  intro t ht
  cases op with
  | init r =>
    obtain ⟨h', -, rfl⟩ := Option.map_eq_some_iff.mp hrun
    simp only at ht
    split at ht
    · rename_i htaken
      rcases List.mem_cons.mp ht with rfl | ht
      · exact .inr ⟨r, rfl, htaken, rfl⟩
      · exact .inl ht
    · exact .inl ht
  | palloc n =>
    obtain ⟨a, -, rfl⟩ := Option.map_eq_some_iff.mp hrun
    exact .inl ht
  | pfree q =>
    obtain ⟨h', -, rfl⟩ := Option.map_eq_some_iff.mp hrun
    exact .inl ht
  | store addr byte =>
    obtain rfl := Option.some.inj hrun
    exact .inl ht
  | pcalloc num size => exact hplain.elim
  | prealloc ap n => exact hplain.elim

/-- The regions that are known are the taken ones of those that were given. -/
theorem regions_from_run (hplain : ∀ o ∈ p, o.Plain k)
    (hrun : p.foldl Session.calls (some (Session.initial k mem)) = some s) :
    ∀ t ∈ s.regions, ∃ r, Op.init r ∈ p ∧ r.Taken k ∧ t = r.rounded k := by
  induction p using List.reverseRecOn generalizing s with
  | nil =>
    obtain rfl := Option.some.inj hrun
    exact fun t ht => absurd ht List.not_mem_nil
  | append_singleton p op ih =>
    rw [List.foldl_append, List.foldl_cons, List.foldl_nil] at hrun
    obtain ⟨u, hu, hcall⟩ := Option.bind_eq_some_iff.mp hrun
    intro t ht
    rcases Session.call_regions_of (hplain op (by simp)) hcall t ht with ht | ⟨r, rfl, hr⟩
    · obtain ⟨r, hr, htaken⟩ := ih (fun o ho => hplain o (List.mem_append_left _ ho)) hu t ht
      exact ⟨r, List.mem_append_left _ hr, htaken⟩
    · exact ⟨r, by simp, hr⟩

/-- In an admitted call all headers lie in the regions that are known behind it. -/
theorem Valid.links_inside (v : Valid s ps) (hop : s.Admits op) (hplain : op.Plain k)
    (hrun : s.call op = some s') (hx : LinkPtr.block x ∈ s.links op) :
    ∃ t ∈ s'.regions, t.start ≤ x ∧ x + sizeofLink k ≤ t.stop := by
  have hkeep := (Session.call_regions hrun).1
  cases op with
  | init r =>
    by_cases ht : r.Taken k
    · rw [Session.links, pallocInitLinks_rounded] at hx
      obtain ⟨t, ht', hin⟩ := v.init_inside (hop ht).ok hx
      rcases List.mem_cons.mp ht' with rfl | ht'
      · exact ⟨_, (Session.call_regions hrun).2 r rfl ht, hin⟩
      · exact ⟨t, hkeep t ht', hin⟩
    · rw [Session.links, pallocInitLinks_short ht] at hx
      cases hx
  | palloc n =>
    obtain ⟨t, ht, hin⟩ := v.palloc_inside hop hx
    exact ⟨t, hkeep t ht, hin⟩
  | pfree q =>
    obtain ⟨t, ht, hin⟩ := v.pfree_inside hop hx
    exact ⟨t, hkeep t ht, hin⟩
  | store addr byte => cases hx
  | pcalloc num size => exact hplain.elim
  | prealloc ap n => exact hplain.elim

/-- What is held lies in the regions, behind its header. -/
theorem Valid.live_inside (v : Valid s ps) {q : Nat} (hq : q ∈ s.live) :
    ∃ t ∈ s.regions, t.start ≤ q ∧ (s.blockAt q).stop ≤ t.stop ∧ q ≤ (s.blockAt q).stop := by
  obtain ⟨b, hb, rfl⟩ := v.block_of_live hq
  obtain ⟨p, hp, hbp⟩ := mem_lives.mp hb
  obtain ⟨-, hstart, hstop, hcell⟩ := Pool.mem_live hbp
  have hlarge : sizeofLink k ≤ b.size := (v.ok.pools p hp).large _ hcell
  refine ⟨p.region k, v.regions.mem_iff.mpr (List.mem_map_of_mem hp), ?_⟩
  rw [v.blockAt hb]
  simp only [Pool.region, Pool.stop, payload, Block.stop] at hstop ⊢
  omega

/-- A byte that an admitted call changes lies in the regions. -/
theorem Valid.changes_inside (v : Valid s ps) (hop : s.Admits op) (hplain : op.Plain k)
    (hrun : s.call op = some s') {a : Nat} (ha : s'.heap.mem a ≠ s.heap.mem a) :
    ∃ t ∈ s'.regions, t.start ≤ a ∧ a + 1 ≤ t.stop := by
  -- a header that is stored to has the byte
  have hheader : ¬ Off k (s.links op) a → ∃ t ∈ s'.regions, t.start ≤ a ∧ a + 1 ≤ t.stop := by
    intro hoff
    unfold Off at hoff
    push Not at hoff
    obtain ⟨b, hb, hle, hlt⟩ := hoff
    obtain ⟨t, ht, hstart, hstop⟩ := v.links_inside hop hplain hrun hb
    exact ⟨t, ht, by omega, by omega⟩
  cases op with
  | init r =>
    obtain ⟨h', hinit, rfl⟩ := Option.map_eq_some_iff.mp hrun
    exact hheader fun hoff => ha (pallocInit_mem hinit hoff)
  | palloc n =>
    obtain ⟨⟨h', q⟩, hpalloc, rfl⟩ := Option.map_eq_some_iff.mp hrun
    exact hheader fun hoff => ha (palloc_mem hpalloc hoff)
  | pfree q =>
    obtain ⟨h', hpfree, rfl⟩ := Option.map_eq_some_iff.mp hrun
    exact hheader fun hoff => ha (pfree_mem hpfree hoff)
  | store addr byte =>
    obtain rfl := Option.some.inj hrun
    obtain rfl : a = addr := by
      by_contra hne
      exact ha (Function.update_of_ne hne _ _)
    obtain ⟨p, hp, hle, hlt⟩ := hop
    obtain ⟨t, ht, hstart, hstop, -⟩ := v.live_inside hp
    exact ⟨t, ht, hstart.trans hle, hlt.trans_le hstop⟩
  | pcalloc num size => exact hplain.elim
  | prealloc ap n => exact hplain.elim

end Runs

/-! ## Ends at words -/

section Words
variable {s : Session k} {ps : List Pool} {ops p : List Op} {r : Region} {mem : Memory}

/-- The end marker is at the end of the rounded region. -/
theorem Valid.marker_stored (v : Valid s ps) (hfits : (r.rounded k).Fits k s.regions) :
    LinkPtr.block ((r.rounded k).stop - sizeofLink k) ∈ pallocInitLinks s.heap r.start r.stop := by
  rw [pallocInitLinks_rounded]
  generalize r.rounded k = r at hfits ⊢
  have hr := hfits.ok
  obtain ⟨A, C, prev, hold, -, hC, hloop, -⟩ := v.init_place r.start
  obtain ⟨hstart, hstop, hsize⟩ := hr.computed
  have hlarge := hr.large
  have hbounded := hr.bounded
  have hlength : r.length = r.stop - r.start := rfl
  simp only [pallocInitLinks, hstart, hstop, hsize, hr.computed_last, hloop]
  rw [if_pos (by omega)]
  by_cases hend : headAddr C = 0
  · rw [if_pos hend]
    exact List.mem_cons_of_mem _ List.mem_cons_self
  · -- the block behind it lies in another region
    rw [if_neg hend]
    cases C with
    | nil => exact absurd rfl hend
    | cons c C =>
      have hle : r.start ≤ c.addr := hC (by simp)
      have hc : c ∈ listed ps := by simp [hold]
      obtain ⟨t, ht, htstart, htstop⟩ := v.header_inside (listed_header hc)
      have hpos := sizeofLink_pos k
      have habove : headAddr (c :: C) > r.start := by
        change c.addr > r.start
        rcases hfits.disjoint t ht with h | h <;> omega
      rw [if_pos habove]
      exact List.mem_cons_of_mem _ List.mem_cons_self

/-- The marker of a region that does not end at a word lies in none. -/
theorem marker_outside (hlt : r.start < r.stop) (hbounded : r.stop < sizeMod k)
    (hr : (r.rounded k).Ok k) (hstop : ¬ sizeofSizeT k ∣ r.stop)
    (hapart : ∀ q, Op.init q ∈ p → r.stop ≤ q.start ∨ q.stop ≤ r.start) :
    ¬ Inside (p ++ [.init r]) ((r.rounded k).stop - sizeofLink k) (sizeofLink k) := by
  rintro ⟨q, hq, hle, hge⟩
  obtain ⟨hstart, hend, hword⟩ := Region.rounded_bounds hlt hbounded hr
  have hlink := sizeofSizeT_le_sizeofLink k
  have hlarge := hr.large
  rw [Region.length] at hlarge
  rcases List.mem_append.mp hq with hq | hq
  · rcases hapart q hq with h | h <;> omega
  · obtain rfl := Op.init.inj (List.mem_singleton.mp hq)
    have he : (q.rounded k).stop = q.stop := by omega
    exact hstop (he ▸ hr.stop)

/-- The state in front of an operation, and what may be done there. -/
theorem plain_state {op : Op}
    (h : Guarded Session.calls AdmittedPlain (some (Session.initial k mem)) ops)
    (hp : p ++ [op] <+: ops) : ∃ t t' ps,
      p.foldl Session.calls (some (Session.initial k mem)) = some t ∧ t.call op = some t' ∧
        (p ++ [op]).foldl Session.calls (some (Session.initial k mem)) = some t' ∧
        Valid t ps ∧ t.Admits op ∧ op.Plain k := by
  have hadmitted : Guarded Session.calls Admitted (some (Session.initial k mem)) ops :=
    fun p op hp t ht => (h p op hp t ht).1
  obtain ⟨t, ps, hrun, v⟩ := always_laid_calls hadmitted p ((List.prefix_append p _).trans hp)
  obtain ⟨hop, hplain⟩ := h p op hp t hrun
  obtain ⟨t', ps', hcall, -⟩ := v.call hop
  refine ⟨t, t', ps, hrun, hcall, ?_, v, hop, hplain⟩
  rw [List.foldl_append, hrun]
  exact hcall

/-- What lies in a region that is known lies in one that was given, if that ends at a word. -/
theorem Valid.inside_of_known {x n : Nat} (v : Valid s ps) (hplain : ∀ o ∈ p, o.Plain k)
    (hrun : p.foldl Session.calls (some (Session.initial k mem)) = some s)
    (hwords : ∀ r, Op.init r ∈ p → r.Taken k → sizeofSizeT k ∣ r.stop)
    (hx : ∃ t ∈ s.regions, t.start ≤ x ∧ x + n ≤ t.stop) : Inside p x n := by
  obtain ⟨t, ht, hle, hge⟩ := hx
  obtain ⟨r, hr, htaken, rfl⟩ := regions_from_run hplain hrun t ht
  obtain ⟨hlt, hbounded⟩ := hplain _ hr
  obtain ⟨hstart, -, -⟩ := Region.rounded_bounds hlt hbounded (v.taken _ ht)
  have hword := hwords r hr htaken
  have hstop : (r.rounded k).stop = r.stop :=
    alignedValue_of_dvd hword (add_mask_lt hword hbounded)
  exact ⟨r, hr, hstart.trans hle, hstop ▸ hge⟩

end Words

/-- **Inside of the memory that was given**: a run of admitted calls stays there exactly if
all regions that are taken end at words. -/
theorem always_inside_iff (k : Nat) (mem : Memory) (ops : List Op)
    (h : Guarded Session.calls AdmittedPlain (some (Session.initial k mem)) ops)
    (hapart : GivenApart ops) :
    StaysInside k mem ops ↔ ∀ r, Op.init r ∈ ops → r.Taken k → sizeofSizeT k ∣ r.stop := by
  have hplain : ∀ p, p <+: ops → ∀ o ∈ p, o.Plain k := by
    intro p hp o ho
    obtain ⟨a, b, rfl⟩ := List.append_of_mem ho
    have hao : a ++ [o] <+: ops := List.IsPrefix.trans ⟨b, by simp⟩ hp
    obtain ⟨-, -, -, -, -, -, -, -, hplain⟩ := plain_state h hao
    exact hplain
  constructor
  · intro hinside r hr ht
    by_contra hstop
    obtain ⟨p, q, rfl⟩ := List.append_of_mem hr
    have hp : p ++ [.init r] <+: p ++ Op.init r :: q := ⟨q, by simp⟩
    obtain ⟨t, t', ps, hrun, -, -, v, hop, hlt, hbounded⟩ := plain_state h hp
    obtain ⟨u, u', hu, -, -, hlinks, -⟩ := hinside p _ hp
    obtain rfl := Option.some.inj (hrun.symm.trans hu)
    have hfits := hop ht
    exact marker_outside hlt hbounded hfits.ok hstop (hapart p r hp)
      (hlinks _ (v.marker_stored hfits))
  · intro hwords p op hp
    obtain ⟨t, t', ps, hrun, hcall, hrun', v, hop, hop'⟩ := plain_state h hp
    obtain ⟨t'', ps', hcall', v'⟩ := v.call hop
    obtain rfl := Option.some.inj (hcall.symm.trans hcall')
    have hgiven : ∀ x n, (∃ u ∈ t'.regions, u.start ≤ x ∧ x + n ≤ u.stop) →
        Inside (p ++ [op]) x n := fun x n =>
      v'.inside_of_known (hplain _ hp) hrun' fun r hr => hwords r (hp.subset hr)
    refine ⟨t, t', hrun, hcall, fun q hq => ?_, fun x hx => ?_, fun a ha => ?_⟩
    · obtain ⟨u, hu, hle, hge, hq⟩ := v'.live_inside hq
      exact hgiven _ _ ⟨u, hu, hle, by omega⟩
    · exact hgiven _ _ (v.links_inside hop hop' hcall hx)
    · exact hgiven _ _ (v.changes_inside hop hop' hcall ha)

theorem plain_requests_inside :
    StaysInside 2 (fun _ => 0) [.init ⟨4098, 4352⟩, .palloc 10, .pfree 4108] ↔
      ∀ r, Op.init r ∈ [Op.init ⟨4098, 4352⟩, .palloc 10, .pfree 4108] → r.Taken 2 →
        sizeofSizeT 2 ∣ r.stop := by
  have hfits : Region.Fits 2 ⟨4100, 4352⟩ [] :=
    ⟨⟨by decide, by decide, by decide, by decide, by decide⟩, by simp, by decide⟩
  refine always_inside_iff 2 _ _ ?_ ?_
  · refine guarded_cons.mpr ⟨?_, guarded_cons.mpr ⟨?_, guarded_cons.mpr ⟨?_, guarded_nil⟩⟩⟩
    · intro t ht
      obtain rfl := Option.some.inj ht
      exact ⟨fun _ => hfits, by decide, by decide⟩
    · exact fun t _ => ⟨.inr (.inl (by decide +kernel)), trivial⟩
    · intro t ht
      have hlive : ∀ u, [Op.init ⟨4098, 4352⟩, .palloc 10].foldl Session.calls
          (some (Session.initial 2 fun _ => 0)) = some u → 4108 ∈ u.live := by
        decide +kernel
      exact ⟨.inr (hlive t ht), trivial⟩
  · intro p r hp q hq
    have hnil : p = [] := by
      cases p with
      | nil => rfl
      | cons o p =>
        obtain ⟨-, hp⟩ := List.cons_prefix_cons.mp hp
        have hr := hp.subset (List.mem_append_right p (List.mem_singleton_self (Op.init r)))
        simp at hr
    rw [hnil] at hq
    cases hq

/-- The region ends at 4353, and the marker is stored up to 4356. -/
theorem rounded_end_outside :
    Guarded Session.calls AdmittedPlain (some (Session.initial 2 fun _ => 1)) [.init ⟨4096, 4353⟩] ∧
      GivenApart [.init ⟨4096, 4353⟩] ∧ ¬ StaysInside 2 (fun _ => 1) [.init ⟨4096, 4353⟩] := by
  refine ⟨?_, ?_, fun hinside => ?_⟩
  · have hfits : Region.Fits 2 ⟨4096, 4356⟩ [] :=
      ⟨⟨by decide, by decide, by decide, by decide, by decide⟩, by simp, by decide⟩
    refine guarded_cons.mpr ⟨fun t ht => ?_, guarded_nil⟩
    obtain rfl := Option.some.inj ht
    exact ⟨fun _ => hfits, by decide, by decide⟩
  · intro p r hp q hq
    cases p with
    | nil => cases hq
    | cons o p =>
      obtain ⟨-, hp⟩ := List.cons_prefix_cons.mp hp
      exact absurd (List.prefix_nil.mp hp) (by simp)
  · obtain ⟨t, t', ht, ht', -, -, hchange⟩ := hinside [] (.init ⟨4096, 4353⟩) (List.prefix_refl _)
    obtain rfl := Option.some.inj ht
    have hbyte : ∀ u, (Session.initial 2 fun _ => 1).call (.init ⟨4096, 4353⟩) = some u →
        u.heap.mem 4353 ≠ 1 := by
      decide +kernel
    obtain ⟨r, hr, hle, hge⟩ := hchange 4353 (hbyte t' ht')
    obtain rfl := Op.init.inj (List.mem_singleton.mp hr)
    exact absurd hge (by decide)

end Sdkz.Palloc
