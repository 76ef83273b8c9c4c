import Sdkz.Palloc.WellFormed

/-! # Every request that does no harm

`palloc_init` rounds its bounds and ignores what is too short for two headers. A
request does no harm if its size rounds, and also if it is turned down: no listed
block but the last marker is as large as the size that `palloc` computes. Runs of
such calls keep the heap laid out. -/

namespace Sdkz.Palloc
open Sdkz.Base

variable {k : Nat}

/-- A region with the bounds that `palloc_init` works on. -/
def Region.rounded (k : Nat) (r : Region) : Region := ⟨alignedValue k r.start, alignedValue k r.stop⟩

/-- The region is not ignored. -/
def Region.Taken (k : Nat) (r : Region) : Prop :=
  sizeSub k (r.rounded k).stop (r.rounded k).start > sizeofLink k * 2

instance (k : Nat) (r : Region) : Decidable (r.Taken k) :=
  inferInstanceAs (Decidable (_ > _))

/-- The program knows the region that `palloc_init` made of the one it gave. -/
def Session.call (s : Session k) : Op → Option (Session k)
  | .init r =>
    (pallocInit s.heap r.start r.stop).map fun h =>
      ⟨h, if r.Taken k then r.rounded k :: s.regions else s.regions, s.live⟩
  | op => s.step op

/-- A call that does not return leaves no session. -/
def Session.calls (s : Option (Session k)) (op : Op) : Option (Session k) := s.bind (·.call op)

/-- No listed block but the last marker is as large as the size that `palloc` computes. -/
def Refuses (h : Heap k) (n : Nat) : Prop :=
  ∀ L, Lists h L → ∀ b ∈ L, b.addr ≠ h.ppoolLast → b.size < need k n

/-- A request that does no harm. -/
def Session.Serves (s : Session k) (n : Nat) : Prop := n = 0 ∨ Rounds k n ∨ Refuses s.heap n

/-- What a program may do so that the heap stays laid out; a region that is taken is, with
rounded bounds, apart from the others, with a size that a header has room for. -/
def Session.Admits (s : Session k) : Op → Prop
  | .init r => r.Taken k → (r.rounded k).Fits k s.regions
  | .palloc size => s.Serves size
  | .pcalloc num size => s.Serves (num * size % sizeMod k)
  | .prealloc ap nbytes => (ap = 0 ∨ ap ∈ s.live) ∧ s.Serves nbytes
  | .pfree p => p = 0 ∨ p ∈ s.live
  | .store addr _ => ∃ p ∈ s.live, p ≤ addr ∧ addr < (s.blockAt p).stop

def Admitted (s : Option (Session k)) (op : Op) : Prop := ∀ t, s = some t → t.Admits op

/-! ## Rounded bounds -/

section Rounded
variable {a pstart pend : Nat} {h : Heap k} {r : Region}

theorem alignedValue_lt (k a : Nat) : alignedValue k a < sizeMod k :=
  Nat.and_lt_two_pow _ (by
    have hpos : 0 < sizeMod k := Nat.two_pow_pos _
    rw [sizeNot, sizeMod] at *
    omega)

/-- Rounding once is enough. -/
theorem alignedValue_alignedValue (k a : Nat) : alignedValue k (alignedValue k a) = alignedValue k a :=
  alignedValue_of_dvd (dvd_alignedValue k a) (add_mask_lt (dvd_alignedValue k a) (alignedValue_lt k a))

theorem pallocInit_rounded (h : Heap k) (r : Region) :
    pallocInit h r.start r.stop = pallocInit h (r.rounded k).start (r.rounded k).stop := by
  simp only [pallocInit, Region.rounded, alignedValue_alignedValue]

/-- A region that is too short is ignored. -/
theorem pallocInit_short (hr : ¬ r.Taken k) : pallocInit h r.start r.stop = some h := if_neg hr

/-- Word-aligned bounds stay as they are. -/
theorem Region.rounded_of_dvd (hstart : sizeofSizeT k ∣ r.start) (hstop : sizeofSizeT k ∣ r.stop)
    (hle : r.start ≤ r.stop) (hlt : r.stop < sizeMod k) : r.rounded k = r := by
  rw [Region.rounded, alignedValue_of_dvd hstart (add_mask_lt hstart (hle.trans_lt hlt)),
    alignedValue_of_dvd hstop (add_mask_lt hstop hlt)]

end Rounded

/-! ## Requests that are turned down -/

section Requests
variable {s : Session k} {ps : List Pool} {n num size ap : Nat} {op : Op}

theorem Valid.refuses_iff (v : Valid s ps) : Refuses s.heap n ↔
    ∀ b ∈ listed ps, b.addr ≠ lastMarker ps → b.size < need k n := by
  rw [← v.rep.ppoolLast]
  refine ⟨fun h => h _ v.rep.lists, fun h L hL => ?_⟩
  rw [hL.unique v.rep.lists]
  exact h

theorem Valid.refused (v : Valid s ps) (hr : Refuses s.heap n) :
    Palloc.palloc s.heap n = some (s.heap, 0) :=
  palloc_refused v.ok v.rep (v.refuses_iff.mp hr)

/-- A request that is not turned down is given something. -/
theorem Valid.not_refused (v : Valid s ps) (hn : n ≠ 0) (hr : ¬ Refuses s.heap n) :
    ∃ h' A b C, Palloc.palloc s.heap n = some (h', payload k b) ∧ listed ps = A ++ b :: C ∧
      need k n ≤ b.size ∧ ∀ x ∈ A, x.size < need k n := by
  -- the search ends at the first block that is large enough
  have hsome : ∃ b ∈ listed ps, need k n ≤ b.size ∧ b.addr ≠ lastMarker ps := by
    rw [v.refuses_iff] at hr
    push Not at hr
    obtain ⟨b, hb, hne, hle⟩ := hr
    exact ⟨b, hb, hle, hne⟩
  obtain ⟨c, hc, hcs, hclast⟩ := hsome
  obtain ⟨b, hb⟩ : ∃ b, (listed ps).find? (fun b => decide (need k n ≤ b.size)) = some b :=
    Option.isSome_iff_exists.mp (List.find?_isSome.mpr ⟨c, hc, decide_eq_true hcs⟩)
  obtain ⟨hbs, A, C, hsplit, hA⟩ := List.find?_eq_some_iff_append.mp hb
  have hfirst : ∀ x ∈ A, x.size < need k n := fun x hx => by simpa using hA x hx
  -- it is not the last marker, behind which there is nothing
  have hlast : b.addr ≠ lastMarker ps := by
    intro he
    have hne : ps ≠ [] := by
      rintro rfl
      cases hc
    obtain ⟨L, hL⟩ := v.ok.getLast_listed hne
    have hapart := v.ok.listed_apart
    have hpos := sizeofLink_pos k
    rw [hsplit] at hc hapart
    have hcA : c ∈ A ∨ c ∈ C := by
      simp only [List.mem_append, List.mem_cons] at hc
      rcases hc with hc | rfl | hc
      · exact .inl hc
      · exact absurd he hclast
      · exact .inr hc
    rcases hcA with hcA | hcC
    · exact absurd (hfirst c hcA) (not_lt.mpr hcs)
    · have hbc := (List.pairwise_cons.mp (List.pairwise_append.mp hapart).2.1).1 c hcC
      have hcL : c ∈ L ++ [⟨lastMarker ps, 0⟩] := by simp [← hL, hsplit, hcC]
      rcases List.mem_append.mp hcL with hcL | hcL
      · have hapartL := hL ▸ v.ok.listed_apart
        have := (List.pairwise_append.mp hapartL).2.2 c hcL _ (List.mem_singleton_self _)
        simp only at this
        omega
      · exact hclast (by rw [List.mem_singleton.mp hcL])
  obtain ⟨h', hrun⟩ := palloc_found v.ok v.rep hsplit hn (of_decide_eq_true hbs) hfirst hlast
  exact ⟨h', A, b, C, hrun, hsplit, of_decide_eq_true hbs, hfirst⟩

/-- A request that does no harm rounds, or nothing happens. -/
theorem Valid.rounds_or_idle (v : Valid s ps) (hn : s.Serves n) :
    Rounds k n ∨ Palloc.palloc s.heap n = some (s.heap, 0) := by
  rcases hn with rfl | hn | hn
  · right
    simp [Palloc.palloc, pallocEntry]
  · exact .inl hn
  · exact .inr (v.refused hn)

theorem Session.pcalloc_idle (hidle : Palloc.palloc s.heap (num * size % sizeMod k) = some (s.heap, 0)) :
    s.step (.pcalloc num size) = some s := by
  by_cases h0 : num * size % sizeMod k > 0
  · simp only [Session.step, pcalloc, if_pos h0, hidle, Option.map_some]
    rfl
  · simp only [Session.step, pcalloc, if_neg h0]
    rfl

theorem Session.prealloc_idle (hap : ap ≠ 0) (hidle : Palloc.palloc s.heap n = some (s.heap, 0)) :
    s.step (.prealloc ap n) = some s := by
  by_cases hgrow : (s.heap.flagNsize (.block (sizeSub k ap (sizeofLink k))) &&&
      sizeNot k (pallocAllocated k)) < n
  · simp only [Session.step, prealloc, if_neg hap, if_pos hgrow, hidle, ne_eq, not_true, if_false,
      Option.map_some, true_or, if_true]
  · simp only [Session.step, prealloc, if_neg hap, if_neg hgrow, Option.map_some, or_true, if_true]

/-- **One call** that is admitted returns, and leaves the heap laid out. -/
theorem Valid.call (v : Valid s ps) (hop : s.Admits op) :
    ∃ s' ps', s.call op = some s' ∧ Valid s' ps' := by
  cases op with
  | init r =>
    by_cases ht : r.Taken k
    · obtain ⟨h', ps', hrun, -, hv⟩ := v.given (hop ht)
      rw [← pallocInit_rounded] at hrun
      refine ⟨_, ps', ?_, hv⟩
      rw [Session.call, hrun, if_pos ht]
      rfl
    · refine ⟨s, ps, ?_, v⟩
      rw [Session.call, pallocInit_short ht, if_neg ht]
      rfl
  | palloc n =>
    rcases v.rounds_or_idle hop with hr | hidle
    · exact v.palloc_step hr
    · refine ⟨s, ps, ?_, v⟩
      change s.step (.palloc n) = some s
      rw [Session.step, hidle]
      rfl
  | pcalloc num size =>
    rcases v.rounds_or_idle hop with hr | hidle
    · exact v.pcalloc_step hr
    · exact ⟨s, ps, Session.pcalloc_idle hidle, v⟩
  | prealloc ap n =>
    rcases v.rounds_or_idle hop.2 with hr | hidle
    · exact v.prealloc_step hop.1 hr
    · by_cases hap : ap = 0
      · subst hap
        refine ⟨s, ps, ?_, v⟩
        simp only [Session.call, Session.step, prealloc, if_true, hidle, Option.map_some, or_self]
      · exact ⟨s, ps, Session.prealloc_idle hap hidle, v⟩
  | pfree p => exact v.pfree_step hop
  | store addr byte => exact v.store_step hop

end Requests

/-! ## Runs -/

theorem laid_call (s : Option (Session k)) (op : Op) (hs : Laid s) (hp : Admitted s op) :
    Laid (Session.calls s op) := by
  obtain ⟨t, ps, rfl, v⟩ := hs
  obtain ⟨t', ps', hrun, hv⟩ := v.call (hp t rfl)
  exact ⟨t', ps', hrun, hv⟩

/-- **Every run** of admitted calls is laid out throughout. -/
theorem always_laid_calls {mem : Memory} {ops : List Op}
    (h : Guarded Session.calls Admitted (some (Session.initial k mem)) ops) :
    Always Session.calls Laid (some (Session.initial k mem)) ops :=
  h.always laid_call ⟨_, [], rfl, Valid.initial mem⟩

/-! ## Proper runs

A region that fits is given as it is, so that the runs of the other relation are runs
of this one. -/

section Proper
variable {s : Session k} {r : Region} {op : Op} {ops : List Op}

theorem Region.Ok.rounded_eq (hr : r.Ok k) : r.rounded k = r := by
  have hlarge := hr.large
  rw [Region.length] at hlarge
  exact Region.rounded_of_dvd hr.start hr.stop (by omega) hr.bounded

theorem Region.Ok.taken (hr : r.Ok k) : r.Taken k := by
  have hlarge := hr.large
  rw [Region.length] at hlarge
  rw [Region.Taken, hr.rounded_eq, sizeSub_eq (by omega) hr.bounded]
  omega

theorem Session.call_eq_step (hop : s.Permits op) : s.call op = s.step op := by
  cases op with
  | init r =>
    have hr : r.Ok k := Region.Fits.ok hop
    rw [Session.call, if_pos hr.taken, hr.rounded_eq]
    rfl
  | palloc n => rfl
  | pcalloc num size => rfl
  | prealloc ap n => rfl
  | pfree p => rfl
  | store addr byte => rfl

theorem Session.Permits.admits (hop : s.Permits op) (hr : op.Rounds k) : s.Admits op := by
  cases op with
  | init r =>
    have hfits : r.Fits k s.regions := hop
    exact fun _ => hfits.ok.rounded_eq.symm ▸ hfits
  | palloc n => exact .inr (.inl hr)
  | pcalloc num size => exact .inr (.inl hr)
  | prealloc ap n => exact ⟨hop.1, .inr (.inl hr)⟩
  | pfree p => exact hop
  | store addr byte => exact hop

theorem admitted_of_proper {t : Option (Session k)} (h : Guarded Session.next Proper t ops) :
    Guarded Session.calls Admitted t ops := by
  induction ops generalizing t with
  | nil => exact guarded_nil
  | cons op ops ih =>
    obtain ⟨hp, h⟩ := guarded_cons.mp h
    have hsame : Session.calls t op = Session.next t op := by
      cases t with
      | none => rfl
      | some s => exact Session.call_eq_step (hp s rfl).1
    rw [← hsame] at h
    exact guarded_cons.mpr ⟨fun s hs => (hp s hs).1.admits (hp s hs).2, ih h⟩

end Proper

/-- **Every state** of a run of admitted calls is well formed. -/
theorem heap_always_wellFormed (k : Nat) (mem : Memory) (ops : List Op)
    (h : Guarded Session.calls Admitted (some (Session.initial k mem)) ops) :
    Always Session.calls WellFormed (some (Session.initial k mem)) ops := by
  intro l hl
  obtain ⟨t, ps, hrun, hv⟩ := always_laid_calls h l hl
  exact ⟨t, listed ps, hrun, hv.checks⟩

theorem requests_wellFormed : Always Session.calls WellFormed
    (some (Session.initial 2 fun _ => 0))
    [.init ⟨4096, 4352⟩, .palloc 10, .pcalloc 3 5, .pfree 4104] :=
  heap_always_wellFormed 2 _ _ (admitted_of_proper requests_proper)

/-- The block that it takes stays on the list. -/
theorem rounding_breaks_list :
    Guarded Session.next Permitted (some (Session.initial 2 fun _ => 0))
        [.init ⟨4096, 4352⟩, .palloc 4294967287] ∧
      ¬ Always Session.next WellFormed (some (Session.initial 2 fun _ => 0))
        [.init ⟨4096, 4352⟩, .palloc 4294967287] := by
  refine ⟨rounding_permitted, fun hall => ?_⟩
  obtain ⟨t, L, hrun, hc⟩ := hall.last
  have hstate : ∀ u, [Op.init ⟨4096, 4352⟩, .palloc 4294967287].foldl Session.next
      (some (Session.initial 2 fun _ => 0)) = some u → u.heap.anchorNext = 4096 ∧
        u.heap.next (.block 4096) = 0 ∧ u.heap.ppoolLast = 4344 ∧ u.regions ≠ [] := by
    decide +kernel
  obtain ⟨hanchor, hnext, hlast, hregions⟩ := hstate t hrun
  have hlinked : Linked t.heap.follow .anchor [.block 4096] := by
    refine ⟨?_, ?_⟩
    · rw [Heap.follow, Heap.next, hanchor]
      rfl
    · rw [Linked, Heap.follow, hnext]
      rfl
  obtain ⟨A, hA⟩ := hc.last hregions
  have hsame := hc.lists.linked.unique hlinked
  rw [hA, hlast] at hsame
  have hget := congrArg List.getLast? hsame
  simp [Block.link] at hget

/-- One region on a 32-bit machine: a free block, and the marker behind it. -/
theorem one_region : ∃ t ps, [Op.init ⟨4096, 4352⟩].foldl Session.calls
    (some (Session.initial 2 fun _ => 0)) = some t ∧ Valid t ps ∧
      Lists t.heap [⟨4096, 248⟩, ⟨4344, 0⟩] ∧ t.heap.ppoolLast = 4344 := by
  have hproper := requests_proper.of_prefix (p := [.init ⟨4096, 4352⟩]) ⟨_, rfl⟩
  obtain ⟨t, ps, hrun, v⟩ := (always_laid_calls (admitted_of_proper hproper)).last
  have hstate : ∀ u, [Op.init ⟨4096, 4352⟩].foldl Session.calls
      (some (Session.initial 2 fun _ => 0)) = some u → u.heap.anchorNext = 4096 ∧
        u.heap.next (.block 4096) = 4344 ∧ u.heap.next (.block 4344) = 0 ∧
        u.heap.flagNsize (.block 4096) = 248 ∧ u.heap.flagNsize (.block 4344) = 0 ∧
        u.heap.ppoolLast = 4344 := by
    decide +kernel
  obtain ⟨hanchor, hnext, hend, hsize, hmark, hlast⟩ := hstate t hrun
  refine ⟨t, ps, hrun, v, ⟨⟨congrArg toLink hanchor, congrArg toLink hnext, congrArg toLink hend⟩,
    fun b hb => ?_⟩, hlast⟩
  simp only [List.mem_cons, List.not_mem_nil, or_false] at hb
  rcases hb with rfl | rfl
  · exact hsize
  · exact hmark

/-- A request that wraps when it is rounded is not turned down there. -/
theorem one_region_not_refused {t : Session 2} (hl : Lists t.heap [⟨4096, 248⟩, ⟨4344, 0⟩])
    (hlast : t.heap.ppoolLast = 4344) : ¬ Refuses t.heap 4294967287 := by
  intro hr
  have hlt := hr _ hl ⟨4096, 248⟩ List.mem_cons_self (by rw [hlast]; decide)
  have hneed : need 2 4294967287 = 0 := by decide +kernel
  rw [hneed] at hlt
  exact Nat.not_lt_zero _ hlt

end Sdkz.Palloc
