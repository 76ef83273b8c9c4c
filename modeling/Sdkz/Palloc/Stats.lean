import Sdkz.Palloc.FirstFit

/-! # Statistics (`palloc_stats`)

The loop looks at every listed block and keeps the largest size and the smallest one
that is not zero. Both lose a header in unsigned arithmetic. The largest request that
would be met is another one: a request that wraps when it is rounded is met by any
block. -/

namespace Sdkz.Palloc
open Sdkz.Base

variable {k : Nat}

/-- The locals of `palloc_stats`. -/
structure Tally where
  links : Nat
  largest : Nat
  smallest : Nat
deriving DecidableEq, Repr

/-- The body of the loop, on `itor->flagNsize`. -/
def Tally.count (k : Nat) (t : Tally) (size : Nat) : Tally where
  links := sizeAdd k t.links 1
  largest := if t.largest < size then size else t.largest
  smallest := if size > 0 ∧ t.smallest > size then size else t.smallest

/-- The loop. -/
def statsLoop (h : Heap k) : Nat → Nat → Tally → Option Tally
  | 0, _, _ => none
  | fuel + 1, itor, t =>
    if itor ≠ 0 then
      statsLoop h fuel (h.next (.block itor)) (t.count k (h.flagNsize (.block itor)))
    else some t

/-- What `palloc_stats` returns and stores. -/
structure Stats where
  free : Nat
  largest : Nat
  smallest : Nat
  links : Nat
deriving DecidableEq, Repr

def pallocStats (h : Heap k) : Option Stats :=
  (statsLoop h (sizeMod k) h.anchorNext ⟨0, 0, sizeMod k - 1⟩).map fun t =>
    { free := h.freeSize
      largest := sizeSub k t.largest (sizeofLink k)
      smallest := sizeSub k (if t.smallest = sizeMod k - 1 then 0 else t.smallest) (sizeofLink k)
      links := t.links }

/-! ## The loop -/

section Loop
variable {h : Heap k} {r : LinkPtr} {L : List Block} {t : Tally}

theorem statsLoop_eq {fuel : Nat} (hl : Linked h.follow r (links L)) (hnull : NonNull L)
    (hsize : ∀ x ∈ L, h.flagNsize x.link = x.size) (hfuel : L.length < fuel) :
    statsLoop h fuel (headAddr L) t = some ((L.map Block.size).foldl (Tally.count k) t) := by
  induction L generalizing r fuel t with
  | nil =>
    cases fuel with
    | zero => cases hfuel
    | succ fuel => exact if_neg (not_not.mpr rfl)
  | cons b L ih =>
    cases fuel with
    | zero => cases hfuel
    | succ fuel =>
      have hnext : h.next (.block b.addr) = headAddr L := linked_next hl.2
      have hb : h.flagNsize (.block b.addr) = b.size := hsize b List.mem_cons_self
      have ih := ih hl.2 (fun x hx => hnull x (List.mem_cons_of_mem b hx))
        (fun x hx => hsize x (List.mem_cons_of_mem b hx)) (t := t.count k b.size)
        (Nat.lt_of_succ_lt_succ hfuel)
      have hgo : headAddr (b :: L) ≠ 0 := hnull b List.mem_cons_self
      rw [statsLoop, if_pos hgo, List.map_cons, List.foldl_cons, ← ih]
      rw [show headAddr (b :: L) = b.addr from rfl, hnext, hb]

end Loop

/-! ## Largest and smallest -/

/-- Nothing is larger than the largest size, and it is one of them. -/
theorem tally_largest (k : Nat) (sizes : List Nat) (t : Tally) :
    t.largest ≤ (sizes.foldl (Tally.count k) t).largest ∧
    (∀ n ∈ sizes, n ≤ (sizes.foldl (Tally.count k) t).largest) ∧
    ((sizes.foldl (Tally.count k) t).largest = t.largest ∨
      (sizes.foldl (Tally.count k) t).largest ∈ sizes) := by
  induction sizes generalizing t with
  | nil => exact ⟨Nat.le_refl _, by simp, .inl rfl⟩
  | cons n sizes ih =>
    obtain ⟨hle, hall, hor⟩ := ih (t.count k n)
    have hmax : t.largest ≤ (t.count k n).largest ∧ n ≤ (t.count k n).largest ∧
        ((t.count k n).largest = t.largest ∨ (t.count k n).largest = n) := by
      unfold Tally.count
      simp only
      split <;> omega
    rw [List.foldl_cons]
    refine ⟨hmax.1.trans hle, fun m hm => ?_, ?_⟩
    · rcases List.mem_cons.mp hm with rfl | hm
      · exact hmax.2.1.trans hle
      · exact hall m hm
    · rcases hor with he | hmem
      · rw [he]
        exact hmax.2.2.imp id fun h => List.mem_cons.mpr (.inl h)
      · exact .inr (List.mem_cons_of_mem n hmem)

/-- Of the sizes that are not zero none is smaller than the smallest, and it is one of them. -/
theorem tally_smallest (k : Nat) (sizes : List Nat) (t : Tally) :
    (sizes.foldl (Tally.count k) t).smallest ≤ t.smallest ∧
    (∀ n ∈ sizes, n ≠ 0 → (sizes.foldl (Tally.count k) t).smallest ≤ n) ∧
    ((sizes.foldl (Tally.count k) t).smallest = t.smallest ∨
      (sizes.foldl (Tally.count k) t).smallest ∈ sizes ∧
        (sizes.foldl (Tally.count k) t).smallest ≠ 0) := by
  induction sizes generalizing t with
  | nil => exact ⟨Nat.le_refl _, by simp, .inl rfl⟩
  | cons n sizes ih =>
    obtain ⟨hle, hall, hor⟩ := ih (t.count k n)
    have hmin : (t.count k n).smallest ≤ t.smallest ∧ (n ≠ 0 → (t.count k n).smallest ≤ n) ∧
        ((t.count k n).smallest = t.smallest ∨ (t.count k n).smallest = n ∧ n ≠ 0) := by
      unfold Tally.count
      simp only
      split <;> omega
    rw [List.foldl_cons]
    refine ⟨hle.trans hmin.1, fun m hm h0 => ?_, ?_⟩
    · rcases List.mem_cons.mp hm with rfl | hm
      · exact hle.trans (hmin.2.1 h0)
      · exact hall m hm h0
    · rcases hor with he | ⟨hmem, h0⟩
      · rw [he]
        refine hmin.2.2.imp id fun h => ⟨List.mem_cons.mpr (.inl h.1), ?_⟩
        rw [h.1]
        exact h.2
      · exact .inr ⟨List.mem_cons_of_mem n hmem, h0⟩

/-! ## Statistics that agree with the allocator -/

/-- A request of `n` bytes would be met. -/
def Session.Meets (s : Session k) (n : Nat) : Prop := ∃ h' q, palloc s.heap n = some (h', q) ∧ q ≠ 0

/-- `st` is about the list `L`: the sum of its sizes, the largest request in `R` that would
be met, and the room in the smallest block that is not empty. -/
structure Session.StatsAgree (s : Session k) (R : Nat → Prop) (L : List Block) (st : Stats) :
    Prop where
  lists : Lists s.heap L
  stats : pallocStats s.heap = some st
  free : st.free = (L.map Block.size).sum
  largest : ∀ n, R n → s.Meets n → n ≤ st.largest
  met : st.largest = 0 ∨ R st.largest ∧ s.Meets st.largest
  smallest : ∀ b ∈ L, b.size ≠ 0 → st.smallest + sizeofLink k ≤ b.size
  found : (∃ b ∈ L, b.size ≠ 0 ∧ st.smallest + sizeofLink k = b.size) ∨
    st.smallest = 0 ∧ ∀ b ∈ L, b.size = 0

def Session.StatsExact (s : Session k) (R : Nat → Prop) : Prop := ∃ L st, s.StatsAgree R L st

/-- Some listed block is not empty. -/
def Session.HasFree (s : Session k) : Prop := ∃ L, Lists s.heap L ∧ ∃ b ∈ L, b.size ≠ 0

section Valid
variable {s : Session k} {ps : List Pool} {b : Block} {n : Nat} {R : Nat → Prop}

theorem Valid.hasFree_iff (v : Valid s ps) : s.HasFree ↔ ∃ b ∈ listed ps, b.size ≠ 0 := by
  constructor
  · rintro ⟨L, hL, hfree⟩
    rwa [hL.unique v.rep.lists] at hfree
  · exact fun h => ⟨_, v.rep.lists, h⟩

/-- A listed block that is not empty has room for its header, and is not the last marker. -/
theorem Valid.free_block (v : Valid s ps) (hb : b ∈ listed ps) (h0 : b.size ≠ 0) :
    sizeofLink k ≤ b.size ∧ sizeofSizeT k ∣ b.size ∧ b.addr ≠ lastMarker ps := by
  obtain ⟨p, hp, hb | hb⟩ := mem_listed.mp hb
  · obtain ⟨-, -, hstop, hcell⟩ := Pool.mem_free hb
    have hle := v.ok.marker_le_last hp
    rw [Block.stop] at hstop
    exact ⟨(v.ok.pools p hp).large _ hcell, (v.ok.pools p hp).words _ hcell, by omega⟩
  · exact absurd (by rw [Pool.mem_marks hb]) h0

/-- A block of whole words is large enough in whole words if it is in bytes. -/
theorem wholeNeed_le_iff {m : Nat} (hm : sizeofSizeT k ∣ m) :
    wholeNeed k n ≤ m ↔ n + sizeofLink k ≤ m := by
  obtain ⟨q, rfl⟩ := hm
  have hpos := sizeofSizeT_pos k
  rw [wholeNeed, Nat.mul_comm _ (sizeofSizeT k), Nat.mul_le_mul_left_iff hpos, alignedMask,
    ← Nat.lt_add_one_iff, Nat.div_lt_iff_lt_mul hpos, Nat.add_mul, Nat.one_mul, Nat.mul_comm q]
  omega

theorem Valid.meets_iff (v : Valid s ps) (hr : Rounds k n) :
    s.Meets n ↔ n ≠ 0 ∧ ∃ b ∈ listed ps, b.size ≠ 0 ∧ n + sizeofLink k ≤ b.size := by
  have hpos := sizeofLink_pos k
  constructor
  · rintro ⟨h', q, hrun, hq⟩
    have hn : n ≠ 0 := by
      rintro rfl
      have hidle : palloc s.heap 0 = some (s.heap, 0) := by simp [palloc, pallocEntry]
      exact hq (Prod.mk.inj (Option.some.inj (hrun.symm.trans hidle))).2
    have hrefuse : ¬ Refuses s.heap n := fun h =>
      hq (Prod.mk.inj (Option.some.inj (hrun.symm.trans (v.refused h)))).2
    obtain ⟨-, A, b, C, -, hold, hle, -⟩ := v.not_refused hn hrefuse
    have hsize := hr.le_need.trans hle
    exact ⟨hn, b, by simp [hold], by omega, hsize⟩
  · rintro ⟨hn, b, hb, h0, hle⟩
    obtain ⟨-, hdvd, hlast⟩ := v.free_block hb h0
    have hrefuse : ¬ Refuses s.heap n := by
      intro h
      have hlt := v.refuses_iff.mp h b hb hlast
      rw [hr.need_eq] at hlt
      exact absurd ((wholeNeed_le_iff hdvd).mpr hle) (not_le.mpr hlt)
    obtain ⟨h', A, c, C, hrun, -⟩ := v.not_refused hn hrefuse
    exact ⟨h', payload k c, hrun, payload_ne_zero k c⟩

/-- What `palloc_stats` finds in the list. -/
def tallyOf (k : Nat) (L : List Block) : Tally :=
  (L.map Block.size).foldl (Tally.count k) ⟨0, 0, sizeMod k - 1⟩

theorem Valid.stats (v : Valid s ps) : pallocStats s.heap =
    some ⟨((listed ps).map Block.size).sum, sizeSub k (tallyOf k (listed ps)).largest (sizeofLink k),
      sizeSub k (if (tallyOf k (listed ps)).smallest = sizeMod k - 1 then 0
        else (tallyOf k (listed ps)).smallest) (sizeofLink k), (tallyOf k (listed ps)).links⟩ := by
  have hloop := statsLoop_eq (t := ⟨0, 0, sizeMod k - 1⟩) v.rep.lists.linked v.ok.nonNull
    v.rep.lists.sizes v.ok.listed_length
  have hanchor : s.heap.anchorNext = headAddr (listed ps) := linked_next v.rep.lists.linked
  rw [pallocStats, hanchor, hloop, ← v.rep.freeSize]
  rfl

/-- With a free block the statistics are about the largest one and the smallest one. -/
theorem Valid.stats_free (v : Valid s ps) (hfree : ∃ b ∈ listed ps, b.size ≠ 0) :
    ∃ c ∈ listed ps, ∃ d ∈ listed ps, c.size ≠ 0 ∧ d.size ≠ 0 ∧ (∀ x ∈ listed ps, x.size ≤ c.size) ∧
      (∀ x ∈ listed ps, x.size ≠ 0 → d.size ≤ x.size) ∧
      pallocStats s.heap = some ⟨((listed ps).map Block.size).sum, c.size - sizeofLink k,
        d.size - sizeofLink k, (tallyOf k (listed ps)).links⟩ := by
  obtain ⟨b, hb, h0⟩ := hfree
  have hhalf := sizeMod_eq_double k
  have hbmem := List.mem_map_of_mem (f := Block.size) hb
  obtain ⟨-, hmax, hmaxmem⟩ := tally_largest k ((listed ps).map Block.size) ⟨0, 0, sizeMod k - 1⟩
  obtain ⟨-, hmin, hminmem⟩ := tally_smallest k ((listed ps).map Block.size) ⟨0, 0, sizeMod k - 1⟩
  obtain ⟨c, hc, hcs⟩ : ∃ c ∈ listed ps, c.size = (tallyOf k (listed ps)).largest := by
    rcases hmaxmem with he | hmem
    · have hle := hmax _ hbmem
      rw [he] at hle
      exact absurd (Nat.le_zero.mp hle) h0
    · exact List.mem_map.mp hmem
  obtain ⟨d, hd, hds, hd0⟩ : ∃ d ∈ listed ps, d.size = (tallyOf k (listed ps)).smallest ∧
      d.size ≠ 0 := by
    rcases hminmem with he | ⟨hmem, hne⟩
    · have hle := hmin _ hbmem h0
      have hlt := (v.ok.listed_bounds hb).size
      rw [he] at hle
      simp only at hle
      omega
    · obtain ⟨d, hd, hds⟩ := List.mem_map.mp hmem
      exact ⟨d, hd, hds, hds ▸ hne⟩
  have hcmax : ∀ x ∈ listed ps, x.size ≤ c.size := fun x hx => by
    rw [hcs]
    exact hmax _ (List.mem_map_of_mem hx)
  have hdmin : ∀ x ∈ listed ps, x.size ≠ 0 → d.size ≤ x.size := fun x hx hx0 => by
    rw [hds]
    exact hmin _ (List.mem_map_of_mem hx) hx0
  have hc0 : c.size ≠ 0 := Nat.ne_of_gt ((Nat.pos_of_ne_zero h0).trans_le (hcmax b hb))
  have hclink := (v.free_block hc hc0).1
  have hdlink := (v.free_block hd hd0).1
  have hclt := (v.ok.listed_bounds hc).size
  have hdlt := (v.ok.listed_bounds hd).size
  refine ⟨c, hc, d, hd, hc0, hd0, hcmax, hdmin, ?_⟩
  rw [v.stats, ← hcs, ← hds, if_neg (by omega), sizeSub_eq hclink (by omega),
    sizeSub_eq hdlink (by omega)]

/-- Without a free block the smallest one is stored as minus one header. -/
theorem Valid.stats_none (v : Valid s ps) (hall : ∀ b ∈ listed ps, b.size = 0) :
    ∃ st, pallocStats s.heap = some st ∧ st.smallest = sizeMod k - sizeofLink k := by
  have hinit : (tallyOf k (listed ps)).smallest = sizeMod k - 1 := by
    rcases (tally_smallest k ((listed ps).map Block.size) ⟨0, 0, sizeMod k - 1⟩).2.2 with he | ⟨hmem, h0⟩
    · exact he
    · obtain ⟨b, hb, hbs⟩ := List.mem_map.mp hmem
      exact absurd (hall b hb) (hbs ▸ h0)
  have hpos := sizeofLink_pos k
  refine ⟨_, v.stats, ?_⟩
  simp only [hinit, if_true, sizeSub, Nat.zero_add]
  exact Nat.mod_eq_of_lt (by have : 0 < sizeMod k := Nat.two_pow_pos _; omega)

theorem Valid.hasFree_of_exact (v : Valid s ps) (hs : s.StatsExact R) : s.HasFree := by
  obtain ⟨L, st, ha⟩ := hs
  have hL := ha.lists.unique v.rep.lists
  rcases ha.found with ⟨b, hb, h0, -⟩ | ⟨hzero, hall⟩
  · exact ⟨L, ha.lists, b, hb, h0⟩
  · obtain ⟨st', hst, hsmall⟩ := v.stats_none fun b hb => hall b (hL ▸ hb)
    obtain rfl := Option.some.inj (hst.symm.trans ha.stats)
    have hlink := sizeofLink_eq k
    have hword := size_lt_sizeMod k
    omega

/-- With a free block they agree, as far as requests go that round. -/
theorem Valid.exact_of_hasFree (v : Valid s ps) (hfree : s.HasFree) : s.StatsExact (Rounds k) := by
  obtain ⟨c, hc, d, hd, hc0, hd0, hmax, hmin, hst⟩ := v.stats_free (v.hasFree_iff.mp hfree)
  obtain ⟨hclink, hcdvd, -⟩ := v.free_block hc hc0
  have hdlink := (v.free_block hd hd0).1
  have hround : Rounds k (c.size - sizeofLink k) := by
    have hclt := (v.ok.listed_bounds hc).size
    rw [Rounds, Nat.sub_add_cancel hclink]
    exact add_mask_lt hcdvd (by rw [sizeMod_eq_double]; omega)
  refine ⟨_, _, v.rep.lists, hst, rfl, fun n hr hn => ?_, ?_, fun x hx hx0 => ?_,
    .inl ⟨d, hd, hd0, Nat.sub_add_cancel hdlink⟩⟩
  · obtain ⟨-, x, hx, -, hle⟩ := (v.meets_iff hr).mp hn
    exact Nat.le_sub_of_add_le (hle.trans (hmax x hx))
  · by_cases hzero : c.size - sizeofLink k = 0
    · exact .inl hzero
    · exact .inr ⟨hround, (v.meets_iff hround).mpr
        ⟨hzero, c, hc, hc0, Nat.le_of_eq (Nat.sub_add_cancel hclink)⟩⟩
  · exact (Nat.sub_add_cancel hdlink).trans_le (hmin x hx hx0)

/-- The size that palloc computes has wrapped. -/
theorem need_wrapped (hmask : alignedMask k ≠ 0) : need k (sizeMod k - 1 - sizeofLink k) = 0 := by
  have hword := size_lt_sizeMod k
  have hlink := sizeofLink_eq k
  have hlt : sizeAdd k (sizeMod k - 1) (alignedMask k) < sizeMod k := Nat.mod_lt _ (Nat.two_pow_pos _)
  have hadd : sizeAdd k (sizeMod k - 1) (alignedMask k) = sizeofSizeT k - 2 := by
    rw [alignedMask] at hmask
    rw [sizeAdd, alignedMask, show sizeMod k - 1 + (sizeofSizeT k - 1) =
      sizeofSizeT k - 2 + sizeMod k by omega, Nat.add_mod_right, Nat.mod_eq_of_lt (by omega)]
  have hpos := sizeofSizeT_pos k
  rw [need, sizeAdd_eq (by omega), Nat.sub_add_cancel (by omega), alignedValue, and_not_mask hlt, hadd,
    Nat.div_eq_of_lt (by omega), Nat.zero_mul]

/-- A request that wraps when it is rounded would be met too. -/
theorem Valid.wrapped_met (v : Valid s ps) (hmask : alignedMask k ≠ 0) (hfree : s.HasFree) :
    s.Meets (sizeMod k - 1 - sizeofLink k) := by
  obtain ⟨b, hb, h0⟩ := v.hasFree_iff.mp hfree
  have hword := size_lt_sizeMod k
  have hlink := sizeofLink_eq k
  have hpos := sizeofSizeT_pos k
  have hrefuse : ¬ Refuses s.heap (sizeMod k - 1 - sizeofLink k) := by
    intro h
    have hlt := v.refuses_iff.mp h b hb (v.free_block hb h0).2.2
    rw [need_wrapped hmask] at hlt
    exact Nat.not_lt_zero _ hlt
  obtain ⟨h', A, c, C, hrun, -⟩ := v.not_refused (by omega) hrefuse
  exact ⟨h', payload k c, hrun, payload_ne_zero k c⟩

/-- **Statistics** are exact if a word has one byte and a free block is left; and as far as
requests go that round, exactly if a free block is left. -/
theorem Valid.statsExact_iff (v : Valid s ps) :
    (s.StatsExact (fun n => n + sizeofLink k < sizeMod k) ↔ alignedMask k = 0 ∧ s.HasFree) ∧
      (s.StatsExact (Rounds k) ↔ s.HasFree) := by
  refine ⟨?_, v.hasFree_of_exact, v.exact_of_hasFree⟩
  by_cases hmask : alignedMask k = 0
  · have hsame : (fun n => n + sizeofLink k < sizeMod k) = Rounds k := by
      funext n
      rw [Rounds, hmask, Nat.add_zero]
    rw [hsame]
    exact ⟨fun h => ⟨hmask, v.hasFree_of_exact h⟩, fun h => v.exact_of_hasFree h.2⟩
  · refine iff_of_false (fun hs => ?_) fun h => hmask h.1
    have hfree := v.hasFree_of_exact hs
    have hmet := v.wrapped_met hmask hfree
    obtain ⟨c, hc, d, -, -, -, -, -, hst⟩ := v.stats_free (v.hasFree_iff.mp hfree)
    obtain ⟨L, st, ha⟩ := hs
    obtain rfl := Option.some.inj (hst.symm.trans ha.stats)
    have hhalf := sizeMod_eq_double k
    have hword := size_lt_sizeMod k
    have hlink := sizeofLink_eq k
    have hpos := sizeofSizeT_pos k
    -- but the largest size is that of a block
    have hle : sizeMod k - 1 - sizeofLink k ≤ c.size - sizeofLink k := ha.largest _ (by omega) hmet
    have hlt := (v.ok.listed_bounds hc).size
    omega

end Valid

/-! ## Runs -/

/-- The session is there. Its statistics are exact if a word has one byte and a free block
is left; as far as requests go that round, exactly if a free block is left. -/
def Counting (s : Option (Session k)) : Prop :=
  ∃ t, s = some t ∧
    (t.StatsExact (fun n => n + sizeofLink k < sizeMod k) ↔ alignedMask k = 0 ∧ t.HasFree) ∧
    (t.StatsExact (Rounds k) ↔ t.HasFree)

/-- **Statistics** in every state of a run of admitted calls. -/
theorem always_counting (k : Nat) (mem : Memory) (ops : List Op)
    (h : Guarded Session.calls Admitted (some (Session.initial k mem)) ops) :
    Always Session.calls Counting (some (Session.initial k mem)) ops := by
  intro l hl
  obtain ⟨t, ps, hrun, hv⟩ := always_laid_calls h l hl
  exact ⟨t, hrun, hv.statsExact_iff⟩

theorem requests_counting :
    Always Session.calls Counting (some (Session.initial 2 fun _ => 0))
      [.init ⟨4096, 4352⟩, .palloc 10, .pcalloc 3 5, .pfree 4104] :=
  always_counting 2 _ _ (admitted_of_proper requests_proper)

/-- The whole region is taken. -/
theorem exhausting_proper : Guarded Session.next Proper (some (Session.initial 2 fun _ => 0))
    [.init ⟨4096, 4352⟩, .palloc 240] := by
  refine guarded_cons.mpr ⟨(guarded_cons.mp requests_proper).1, guarded_cons.mpr ⟨?_, guarded_nil⟩⟩
  intro t ht
  exact ⟨show 240 + sizeofLink 2 < sizeMod 2 by decide, show Rounds 2 240 by decide⟩

/-- Then the smallest block is said to have 4294967288 bytes. -/
theorem exhausted_not_exact :
    Guarded Session.next Permitted (some (Session.initial 2 fun _ => 0))
        [.init ⟨4096, 4352⟩, .palloc 240] ∧
      ∃ t, [Op.init ⟨4096, 4352⟩, .palloc 240].foldl Session.calls
        (some (Session.initial 2 fun _ => 0)) = some t ∧ t.regions ≠ [] ∧
          ¬ t.StatsExact (fun n => n + sizeofLink 2 < sizeMod 2) := by
  obtain ⟨t, ps, hrun, v⟩ := (always_laid_calls (admitted_of_proper exhausting_proper)).last
  have hstate : ∀ u, [Op.init ⟨4096, 4352⟩, .palloc 240].foldl Session.calls
      (some (Session.initial 2 fun _ => 0)) = some u → u.regions ≠ [] ∧ u.heap.anchorNext = 4344 ∧
        u.heap.next (.block 4344) = 0 ∧ u.heap.flagNsize (.block 4344) = 0 := by
    decide +kernel
  obtain ⟨hregions, hanchor, hend, hmark⟩ := hstate t hrun
  refine ⟨fun p a hp t ht => (exhausting_proper p a hp t ht).1, t, hrun, hregions, fun hexact => ?_⟩
  have hlist : Lists t.heap [⟨4344, 0⟩] := by
    refine ⟨⟨congrArg toLink hanchor, congrArg toLink hend⟩, fun b hb => ?_⟩
    rw [List.mem_singleton.mp hb]
    exact hmark
  obtain ⟨L, hL, b, hb, h0⟩ := v.hasFree_of_exact hexact
  rw [hL.unique hlist, List.mem_singleton] at hb
  exact h0 (by rw [hb])

end Sdkz.Palloc
