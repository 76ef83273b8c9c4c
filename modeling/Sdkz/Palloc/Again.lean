import Sdkz.Palloc.Served

/-! # A region that is given twice

`palloc_init` knows a region again by a listed block at its start. If the first block
of the region is in use there is none, and the region is put on the list once more. -/

namespace Sdkz.Palloc
open Sdkz.Base

variable {k : Nat}

/-- Giving the region again changes nothing: the list, the static variables and the headers
of what is held are as before. -/
structure Session.SameHeap (s : Session k) (h' : Heap k) : Prop where
  lists : ∃ L, Lists s.heap L ∧ Lists h' L
  ppoolLast : h'.ppoolLast = s.heap.ppoolLast
  freeSize : h'.freeSize = s.heap.freeSize
  poolSize : h'.poolSize = s.heap.poolSize
  held : ∀ p ∈ s.live, h'.flagNsize (s.blockAt p).link = s.heap.flagNsize (s.blockAt p).link ∧
    h'.next (s.blockAt p).link = s.heap.next (s.blockAt p).link

def Session.AgainIdle (s : Session k) (r : Region) : Prop :=
  ∃ h', pallocInit s.heap r.start r.stop = some h' ∧ s.SameHeap h'

/-- The first block of the region is listed. -/
def Session.StartsFree (s : Session k) (r : Region) : Prop :=
  ∃ L, Lists s.heap L ∧ ∃ b ∈ L, b.addr = (r.rounded k).start

/-! ## The place of the region -/

section Place
variable {h : Heap k} {L : List Block} {a start size : Nat}

/-- A list of blocks is cut at an address. -/
theorem cut_at (L : List Block) (a : Nat) :
    ∃ A C, L = A ++ C ∧ (∀ x ∈ A, x.addr < a) ∧ (C ≠ [] → a ≤ headAddr C) := by
  induction L with
  | nil => exact ⟨[], [], rfl, by simp, fun h => absurd rfl h⟩
  | cons b L ih =>
    by_cases hb : b.addr < a
    · obtain ⟨A, C, rfl, hA, hC⟩ := ih
      refine ⟨b :: A, C, rfl, fun x hx => ?_, hC⟩
      rcases List.mem_cons.mp hx with rfl | hx
      · exact hb
      · exact hA x hx
    · exact ⟨[], b :: L, rfl, by simp, fun _ => not_lt.mp hb⟩

@[simp] theorem poolSize_setBlock {pstart pend next : Nat} {prev : Option LinkPtr} :
    (setBlock h pstart pend size next prev).poolSize = h.poolSize := by
  cases prev <;> simp [setBlock]

/-- A pool that is put on the list counts. -/
theorem poolSize_appendPool :
    (countPool (appendPool h start size) start size).poolSize = sizeAdd k h.poolSize size := by
  simp only [countPool, appendPool]
  split <;> simp

theorem poolSize_insertPool {prev : LinkPtr} {next : Nat} :
    (countPool (insertPool h start size prev next) start size).poolSize =
      sizeAdd k h.poolSize size := by
  simp [countPool, insertPool]

end Place

section Valid
variable {s : Session k} {ps : List Pool} {r : Region}

theorem Session.sameHeap_refl {L : List Block} (hL : Lists s.heap L) : s.SameHeap s.heap :=
  ⟨⟨L, hL, hL⟩, rfl, rfl, rfl, fun _ _ => ⟨rfl, rfl⟩⟩

/-- What the size of all pools grows by is seen. -/
theorem Valid.poolSize_grows {n : Nat} (v : Valid s ps) (h0 : 0 < n) (hn : n < sizeMod k) :
    sizeAdd k s.heap.poolSize n ≠ s.heap.poolSize := by
  have hlt : s.heap.poolSize < sizeMod k := by
    rw [v.rep.poolSize]
    exact v.ok.total
  intro he
  rw [sizeAdd] at he
  by_cases hwrap : s.heap.poolSize + n < sizeMod k
  · rw [Nat.mod_eq_of_lt hwrap] at he
    omega
  · rw [Nat.mod_eq_sub_mod (by omega), Nat.mod_eq_of_lt (by omega)] at he
    omega

/-- What `palloc_init` computes of bounds that it takes as they are. -/
theorem Region.Ok.computed (hr : r.Ok k) : alignedValue k r.start = r.start ∧
    alignedValue k r.stop = r.stop ∧ sizeSub k r.stop r.start = r.length := by
  have hlarge := hr.large
  have hbounded := hr.bounded
  rw [Region.length] at hlarge
  refine ⟨?_, ?_, sizeSub_eq (by omega) hbounded⟩
  · exact alignedValue_of_dvd hr.start (add_mask_lt hr.start (by omega))
  · exact alignedValue_of_dvd hr.stop (add_mask_lt hr.stop hbounded)

/-- The end marker is the last header of the region. -/
theorem Region.Ok.computed_last (hr : r.Ok k) :
    sizeSub k (sizeAdd k r.start r.length) (sizeofLink k) = r.stop - sizeofLink k := by
  have hlarge := hr.large
  have hbounded := hr.bounded
  rw [Region.length] at hlarge ⊢
  rw [sizeAdd_eq (by omega), sizeSub_eq (by omega) (by omega)]
  omega

/-- The loop of `palloc_init` cuts the list at the start of the region. -/
theorem Valid.init_place (v : Valid s ps) (a : Nat) :
    ∃ A C prev, listed ps = A ++ C ∧ (∀ x ∈ A, x.addr < a) ∧ (C ≠ [] → a ≤ headAddr C) ∧
      initLoop s.heap a (sizeMod k) .anchor s.heap.anchorNext = some (prev, headAddr C) ∧
      (C ≠ [] → prev = (links A).getLastD .anchor) := by
  obtain ⟨A, C, hold, hA, hC⟩ := cut_at (listed ps) a
  have hlinked := v.rep.lists.linked
  have hnull := v.ok.nonNull
  have hlen := v.ok.listed_length
  rw [hold] at hlinked hnull hlen
  rw [List.length_append] at hlen
  have hanchor : s.heap.anchorNext = headAddr (A ++ C) := linked_next hlinked
  obtain ⟨prev, hloop, hprev⟩ := initLoop_eq (n := a) hlinked hnull hA hC
    (show A.length < sizeMod k by omega)
  exact ⟨A, C, prev, hold, hA, hC, hanchor ▸ hloop, hprev⟩

/-- **The same region again** changes nothing exactly if its first block is listed. -/
theorem Valid.againIdle_iff (v : Valid s ps) (hr : r.Ok k) :
    s.AgainIdle r ↔ ∃ b ∈ listed ps, b.addr = r.start := by
  obtain ⟨A, C, prev, hold, hA, hC, hloop, -⟩ := v.init_place r.start
  have hordered := v.ok.listed_apart
  rw [hold] at hordered
  have hlarge := hr.large
  have hbounded := hr.bounded
  have hlength : r.length = r.stop - r.start := rfl
  obtain ⟨hstart, hstop, hsize⟩ := hr.computed
  have hrun : pallocInit s.heap r.start r.stop =
      if headAddr C = 0 then
        some (countPool (appendPool s.heap r.start r.length) r.start r.length)
      else if headAddr C > r.start then
        some (countPool (insertPool s.heap r.start r.length prev (headAddr C)) r.start r.length)
      else some s.heap := by
    simp only [pallocInit, hstart, hstop, hsize, hloop]
    exact if_pos (by omega)
  have hgrow := v.poolSize_grows (n := r.length) (by omega) (by omega)
  constructor
  · -- otherwise the pool is counted again
    rintro ⟨h', hidle, hsame⟩
    rw [hrun] at hidle
    by_cases hend : headAddr C = 0
    · rw [if_pos hend] at hidle
      obtain rfl := Option.some.inj hidle
      exact absurd (poolSize_appendPool.symm.trans hsame.poolSize) hgrow
    · rw [if_neg hend] at hidle
      by_cases hbelow : headAddr C > r.start
      · rw [if_pos hbelow] at hidle
        obtain rfl := Option.some.inj hidle
        exact absurd (poolSize_insertPool.symm.trans hsame.poolSize) hgrow
      · cases C with
        | nil => exact absurd rfl hend
        | cons c C =>
          have hle : r.start ≤ c.addr := hC (by simp)
          exact ⟨c, by simp [hold], Nat.le_antisymm (not_lt.mp hbelow) hle⟩
  · rintro ⟨b, hb, he⟩
    have hhead : headAddr C = r.start := by
      rw [hold] at hb
      rcases List.mem_append.mp hb with hb | hb
      · exact absurd he (Nat.ne_of_lt (hA b hb))
      · cases C with
        | nil => cases hb
        | cons c C =>
          have hle : r.start ≤ c.addr := hC (by simp)
          rcases List.mem_cons.mp hb with rfl | hb
          · exact he
          · have := (List.pairwise_cons.mp (List.pairwise_append.mp hordered).2.1).1 b hb
            have := sizeofLink_pos k
            omega
    have hpos := hr.positive
    rw [hhead, if_neg (by omega), if_neg (Nat.lt_irrefl _)] at hrun
    exact ⟨s.heap, hrun, Session.sameHeap_refl v.rep.lists⟩

end Valid

/-! ## Runs -/

section Runs
variable {s s' : Session k} {op : Op}

/-- The regions that are given stay known. -/
theorem Session.call_regions (hrun : s.call op = some s') :
    (∀ r ∈ s.regions, r ∈ s'.regions) ∧
      ∀ r, op = .init r → r.Taken k → r.rounded k ∈ s'.regions := by
  cases op with
  | init r =>
    obtain ⟨h', -, rfl⟩ := Option.map_eq_some_iff.mp hrun
    refine ⟨fun t ht => ?_, fun t he ht => ?_⟩
    · simp only
      split
      · exact List.mem_cons_of_mem _ ht
      · exact ht
    · obtain rfl := Op.init.inj he
      simp only [if_pos ht]
      exact List.mem_cons_self
  | palloc n =>
    obtain ⟨r, -, rfl⟩ := Option.map_eq_some_iff.mp hrun
    exact ⟨fun t ht => ht, fun t he => by cases he⟩
  | pcalloc num size =>
    obtain ⟨r, -, rfl⟩ := Option.map_eq_some_iff.mp hrun
    exact ⟨fun t ht => ht, fun t he => by cases he⟩
  | prealloc ap n =>
    obtain ⟨r, -, rfl⟩ := Option.map_eq_some_iff.mp hrun
    exact ⟨fun t ht => ht, fun t he => by cases he⟩
  | pfree p =>
    obtain ⟨h', -, rfl⟩ := Option.map_eq_some_iff.mp hrun
    exact ⟨fun t ht => ht, fun t he => by cases he⟩
  | store addr byte =>
    obtain rfl := Option.some.inj hrun
    exact ⟨fun t ht => ht, fun t he => by cases he⟩

/-- Each region that was given and taken is known behind the run. -/
theorem regions_of_run {mem : Memory} {p : List Op} {t : Session k}
    (hrun : p.foldl Session.calls (some (Session.initial k mem)) = some t) :
    ∀ r, Op.init r ∈ p → r.Taken k → r.rounded k ∈ t.regions := by
  induction p using List.reverseRecOn generalizing t with
  | nil => exact fun r hr => absurd hr List.not_mem_nil
  | append_singleton p op ih =>
    rw [List.foldl_append, List.foldl_cons, List.foldl_nil] at hrun
    obtain ⟨u, hu, hcall⟩ := Option.bind_eq_some_iff.mp hrun
    obtain ⟨hkeep, hnew⟩ := Session.call_regions hcall
    intro r hr ht
    rcases List.mem_append.mp hr with hr | hr
    · exact hkeep _ (ih hu r hr ht)
    · exact hnew r (List.mem_singleton.mp hr).symm ht

end Runs

/-- **A region again**, in every state of a run of admitted calls: nothing changes exactly
if the region was ignored before or its first block is listed. -/
theorem again_idle_iff (k : Nat) (mem : Memory) (ops : List Op)
    (h : Guarded Session.calls Admitted (some (Session.initial k mem)) ops) :
    ∀ p, p <+: ops → ∃ t, p.foldl Session.calls (some (Session.initial k mem)) = some t ∧
      ∀ r, Op.init r ∈ p → (t.AgainIdle r ↔ ¬ r.Taken k ∨ t.StartsFree r) := by
  intro p hp
  obtain ⟨t, ps, hrun, v⟩ := always_laid_calls h p hp
  refine ⟨t, hrun, fun r hr => ?_⟩
  by_cases ht : r.Taken k
  · have hok : (r.rounded k).Ok k := v.taken _ (regions_of_run hrun r hr ht)
    have hidle : t.AgainIdle r ↔ t.AgainIdle (r.rounded k) := by
      rw [Session.AgainIdle, pallocInit_rounded]
      rfl
    have hfree : t.StartsFree r ↔ ∃ b ∈ listed ps, b.addr = (r.rounded k).start := by
      constructor
      · rintro ⟨L, hL, hb⟩
        rwa [hL.unique v.rep.lists] at hb
      · exact fun hb => ⟨_, v.rep.lists, hb⟩
    rw [hidle, v.againIdle_iff hok, hfree]
    exact ⟨.inr, fun h => h.resolve_left (not_not.mpr ht)⟩
  · refine iff_of_true ⟨t.heap, pallocInit_short ht, ?_⟩ (.inl ht)
    exact Session.sameHeap_refl v.rep.lists

theorem requests_again_idle :
    ∃ t, [Op.init ⟨4096, 4352⟩, .palloc 10, .pcalloc 3 5, .pfree 4104].foldl Session.calls
      (some (Session.initial 2 fun _ => 0)) = some t ∧
        ∀ r, Op.init r ∈ [Op.init ⟨4096, 4352⟩, .palloc 10, .pcalloc 3 5, .pfree 4104] →
          (t.AgainIdle r ↔ ¬ r.Taken 2 ∨ t.StartsFree r) :=
  again_idle_iff 2 _ _ (admitted_of_proper requests_proper) _ (List.prefix_refl _)

/-- The first block of the region is in use, and the region counts twice. -/
theorem used_region_counts_again :
    Guarded Session.next Permitted (some (Session.initial 2 fun _ => 0))
        [.init ⟨4096, 4352⟩, .palloc 10] ∧
      ∃ t, [Op.init ⟨4096, 4352⟩, .palloc 10].foldl Session.calls
        (some (Session.initial 2 fun _ => 0)) = some t ∧ ¬ t.AgainIdle ⟨4096, 4352⟩ := by
  have hproper := requests_proper.of_prefix (p := [.init ⟨4096, 4352⟩, .palloc 10]) ⟨_, rfl⟩
  obtain ⟨t, ps, hrun, v⟩ := (always_laid_calls (admitted_of_proper hproper)).last
  refine ⟨fun p a hp t ht => (hproper p a hp t ht).1, t, hrun, ?_⟩
  rintro ⟨h', hidle, hsame⟩
  have hstate : ∀ u, [Op.init ⟨4096, 4352⟩, .palloc 10].foldl Session.calls
      (some (Session.initial 2 fun _ => 0)) = some u → u.heap.poolSize = 256 ∧
        (pallocInit u.heap 4096 4352).map Heap.poolSize = some 512 := by
    decide +kernel
  obtain ⟨hbefore, hafter⟩ := hstate t hrun
  rw [hidle] at hafter
  have hpool : h'.poolSize = 512 := Option.some.inj hafter
  have hkept := hsame.poolSize
  rw [hpool, hbefore] at hkept
  cases hkept

end Sdkz.Palloc
