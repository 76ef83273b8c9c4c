import Mathlib.Algebra.BigOperators.Ring.List
import Sdkz.Palloc.Served
import Sdkz.Palloc.Threads

/-! # First fit

What a request should do, in numbers that do not wrap: it takes the first listed
block that is large enough, and there is an answer exactly if there is such a block.
`palloc` does so for each size that rounds and for each request that it turns down,
and for no other. -/

namespace Sdkz.Palloc
open Sdkz.Base

variable {k : Nat}

/-- The size of the block for a request: with the header, in whole words. -/
def wholeNeed (k n : Nat) : Nat :=
  (n + sizeofLink k + alignedMask k) / sizeofSizeT k * sizeofSizeT k

/-- What is left of a block of which `m` bytes are used, if that is more than two headers. -/
def leftOver (k m : Nat) (b : Block) : List Block :=
  if b.size - m > sizeofLink k * 2 then [⟨b.addr + m, b.size - m⟩] else []

/-- The request takes the block `b` that is listed between `A` and `C`. -/
structure Session.Takes (s : Session k) (n : Nat) (A : List Block) (b : Block) (C : List Block)
    (h' : Heap k) (q : Nat) : Prop where
  smaller : ∀ x ∈ A, x.size < wholeNeed k n
  room : wholeNeed k n ≤ b.size
  ptr : q = payload k b
  word : sizeofSizeT k ∣ q
  free : Lists h' (A ++ (leftOver k (wholeNeed k n) b ++ C))
  given : (s.granted (h', q)).blockAt q =
    ⟨b.addr, if b.size - wholeNeed k n > sizeofLink k * 2 then wholeNeed k n else b.size⟩
  flagged : h'.flagNsize b.link &&& pallocAllocated k ≠ 0 ∧ h'.next b.link = 0
  held : ∀ p ∈ s.live, h'.flagNsize (s.blockAt p).link = s.heap.flagNsize (s.blockAt p).link ∧
    h'.next (s.blockAt p).link = s.heap.next (s.blockAt p).link ∧
    ∀ a, p ≤ a → a < (s.blockAt p).stop → h'.mem a = s.heap.mem a

/-- `palloc` on a request of `n` bytes is first fit: there is an answer if there is a
large enough block, it is the one with the lowest address, and otherwise nothing changes. -/
def Session.FirstFit (s : Session k) (n : Nat) : Prop :=
  ∃ L h' q, Lists s.heap L ∧ L.Pairwise (fun b c => b.addr < c.addr) ∧
    palloc s.heap n = some (h', q) ∧ (q ≠ 0 ↔ ∃ b ∈ L, wholeNeed k n ≤ b.size) ∧
    (q = 0 → h' = s.heap) ∧ (q ≠ 0 → ∃ A b C, L = A ++ b :: C ∧ s.Takes n A b C h' q)

/-- `palloc` withstands a request of `n` bytes: nothing changes, or there is a live block
with room for them, and what is listed and what is held stays apart. -/
def Session.Withstands (s : Session k) (n : Nat) : Prop :=
  ∃ h' q, palloc s.heap n = some (h', q) ∧ (q = 0 → h' = s.heap) ∧
    (q ≠ 0 → q ∈ (s.granted (h', q)).live ∧
      n + sizeofLink k ≤ ((s.granted (h', q)).blockAt q).size ∧ ∃ L, (s.granted (h', q)).Safe L)

/-! ## Sizes -/

section Sizes
variable {n : Nat}

/-- A size that rounds is what it should be. -/
theorem Rounds.need_eq (hr : Rounds k n) : need k n = wholeNeed k n := by
  unfold Rounds at hr
  rw [need, wholeNeed, sizeAdd_eq (by omega), alignedValue_eq hr]

/-- A size that does not round would need all of the address space. -/
theorem sizeMod_le_wholeNeed (hr : ¬ Rounds k n) : sizeMod k ≤ wholeNeed k n := by
  obtain ⟨q, hq⟩ := dvd_sizeMod k
  rw [Rounds, not_lt, hq] at hr
  rw [hq, wholeNeed, Nat.mul_comm]
  exact Nat.mul_le_mul_right _ ((Nat.le_div_iff_mul_le (sizeofSizeT_pos k)).mpr (Nat.mul_comm _ q ▸ hr))

/-- No header says that a block is that large. -/
theorem flag_lt (k a : Nat) : a &&& sizeNot k (pallocAllocated k) < pallocAllocated k := by
  have hnot : sizeNot k (pallocAllocated k) = pallocAllocated k - 1 := by
    rw [sizeNot, sizeMod_eq_double]
    omega
  have hpos : 0 < pallocAllocated k := Nat.two_pow_pos _
  have hle : a &&& sizeNot k (pallocAllocated k) ≤ sizeNot k (pallocAllocated k) := Nat.and_le_right
  omega

end Sizes

/-! ## The cell that is taken -/

section Taken
variable {s : Session k} {ps P Q : List Pool} {p : Pool} {b : Block} {n : Nat}

theorem Pool.Ok.dvd_addr {B₁ B₂ : List Cell} {c : Cell} (hp : p.Ok k)
    (hcells : p.cells = B₁ ++ c :: B₂) : sizeofSizeT k ∣ p.start + span B₁ := by
  refine Nat.dvd_add hp.aligned (List.dvd_sum fun m hm => ?_)
  obtain ⟨d, hd, rfl⟩ := List.mem_map.mp hm
  exact hp.words d (by simp [hcells, hd])

/-- The blocks that are held keep their headers and what is in them. -/
theorem Valid.held_kept {h' : Heap k} {ps' : List Pool} (v : Valid s ps) (ok' : LayoutOk k ps')
    (rep' : Represents h' ps') (hlives : ∀ b ∈ lives ps, b ∈ lives ps')
    (hmem : ∀ a, (∀ b ∈ headers ps', a < b ∨ b + sizeofLink k ≤ a) → h'.mem a = s.heap.mem a) :
    ∀ q ∈ s.live, h'.flagNsize (s.blockAt q).link = s.heap.flagNsize (s.blockAt q).link ∧
      h'.next (s.blockAt q).link = s.heap.next (s.blockAt q).link ∧
      ∀ a, q ≤ a → a < (s.blockAt q).stop → h'.mem a = s.heap.mem a := by
  intro q hq
  obtain ⟨b, hb, rfl⟩ := v.block_of_live hq
  obtain ⟨hflag, hnext⟩ := v.rep.lives b hb
  obtain ⟨hflag', hnext'⟩ := rep'.lives b (hlives b hb)
  rw [v.blockAt hb]
  refine ⟨hflag'.trans hflag.symm, hnext'.trans hnext.symm, fun a hle hlt => hmem a fun x hx => ?_⟩
  have := ok'.payload_clear (hlives b hb) hx
  omega

/-- A request that rounds and finds a block takes the first one. -/
theorem Valid.takes (v : Valid s ps) (hn : n ≠ 0) (hr : Rounds k n)
    (hlarge : ∃ b ∈ listed ps, wholeNeed k n ≤ b.size) :
    ∃ h' A b C ps', palloc s.heap n = some (h', payload k b) ∧ listed ps = A ++ b :: C ∧
      s.Takes n A b C h' (payload k b) ∧ Valid (s.granted (h', payload k b)) ps' := by
  rw [← hr.need_eq] at hlarge
  rcases palloc_represents v.ok v.rep (.inr hr.link_le) with ⟨-, hnone⟩ |
    ⟨P, p, Q, B₁, B₂, size, h', rfl, hcells, hsize, hfirst, hrun, hrep, hmem⟩
  · obtain ⟨b, hb, hle⟩ := hlarge
    exact absurd (hnone hn b hb) (not_lt.mpr hle)
  have hold := listed_cell (P := P) (Q := Q) hcells
  have hnew := listed_takeCell (k := k) (P := P) (Q := Q) hcells hsize
  have ok' := takeCell_ok v.ok hcells hsize hr.link_le (dvd_alignedValue k _)
  have hperm := lives_takeCell (k := k) (P := P) (Q := Q) hcells hsize
  have hmemb : takenBlock k (need k n) size (p.start + span B₁) ∈
      lives (takeCell k (need k n) size P p Q B₁ B₂) := hperm.mem_iff.mpr List.mem_cons_self
  have hq : p.start + span B₁ + sizeofLink k ≠ 0 := payload_ne_zero k ⟨p.start + span B₁, size⟩
  -- the session with the pointer that is returned
  have hv : Valid (s.granted (h', p.start + span B₁ + sizeofLink k))
      (takeCell k (need k n) size P p Q B₁ B₂) := by
    refine ⟨ok', hrep, (regions_takeCell hcells hsize).symm ▸ v.regions, ?_, v.taken⟩
    rw [Session.granted, if_neg hq]
    exact (v.live.cons _).trans (hperm.map (payload k)).symm
  refine ⟨h', before P p B₁, ⟨p.start + span B₁, size⟩, behind p (p.start + span B₁ + size) B₂ Q,
    _, hrun, hold, ?_, hv⟩
  rw [(blocksOf_taken k _ size _).1] at hnew
  obtain ⟨hflag, hnext⟩ := hrep.lives _ hmemb
  rw [hr.need_eq] at *
  refine ⟨hfirst, hsize, rfl, ?_, ?_, ?_, ?_, ?_⟩
  · rw [payload, sizeofLink_eq]
    exact Nat.dvd_add (v.ok.pool.dvd_addr hcells) (Nat.dvd_mul_left _ _)
  · exact hnew ▸ hrep.lists
  · exact hv.blockAt hmemb
  · exact ⟨hflag ▸ add_allocated_and (ok'.lives_bounds hmemb).size, hnext⟩
  · exact v.held_kept ok' hrep (fun b hb => hperm.mem_iff.mpr (List.mem_cons_of_mem _ hb)) hmem

end Taken

/-! ## States of a run -/

section States
variable {s : Session k} {ps : List Pool} {n : Nat}

/-- What a listed block has room for does not wrap when it is rounded. -/
theorem Valid.rounds_of_large {b : Block} (v : Valid s ps) (hb : b ∈ listed ps)
    (hle : wholeNeed k n ≤ b.size) : Rounds k n := by
  by_contra hround
  have hstop := (v.ok.listed_bounds hb).stop
  have hwhole := sizeMod_le_wholeNeed hround
  rw [Block.stop] at hstop
  omega

/-- **First fit**, exactly for what rounds and for what is turned down. -/
theorem Valid.firstFit_iff (v : Valid s ps) (hn : n ≠ 0) :
    s.FirstFit n ↔ Rounds k n ∨ Refuses s.heap n := by
  constructor
  · rintro ⟨L, h', q, hL, -, hrun, hiff, -⟩
    rw [or_iff_not_imp_left]
    intro hround
    by_contra hrefuse
    -- something is returned, but no block is as large as the address space
    obtain ⟨h'', A, b, C, hrun', hsplit, -⟩ := v.not_refused hn hrefuse
    have hq : q = payload k b := (Prod.mk.inj (Option.some.inj (hrun.symm.trans hrun'))).2
    obtain ⟨c, hc, hlarge⟩ := hiff.mp (hq ▸ payload_ne_zero k b)
    rw [hL.unique v.rep.lists] at hc
    exact hround (v.rounds_of_large hc hlarge)
  · intro hn'
    have hordered : (listed ps).Pairwise fun b c => b.addr < c.addr := v.checks.ordered
    by_cases hlarge : ∃ b ∈ listed ps, wholeNeed k n ≤ b.size
    · obtain ⟨c, hc, hle⟩ := hlarge
      have hround : Rounds k n := v.rounds_of_large hc hle
      obtain ⟨h', A, b, C, -, hrun, hsplit, htakes, -⟩ := v.takes hn hround ⟨c, hc, hle⟩
      have hq : payload k b ≠ 0 := payload_ne_zero k b
      exact ⟨_, h', _, v.rep.lists, hordered, hrun, ⟨fun _ => ⟨c, hc, hle⟩, fun _ => hq⟩,
        fun h => absurd h hq, fun _ => ⟨A, b, C, hsplit, htakes⟩⟩
    · have hidle : palloc s.heap n = some (s.heap, 0) := by
        rcases hn' with hround | hrefuse
        · refine palloc_none v.ok v.rep fun b hb => ?_
          rw [hround.need_eq]
          exact Nat.lt_of_not_le fun hle => hlarge ⟨b, hb, hle⟩
        · exact v.refused hrefuse
      exact ⟨_, _, 0, v.rep.lists, hordered, hidle, ⟨fun h => absurd rfl h, fun h => absurd h hlarge⟩,
        fun _ => rfl, fun h => absurd rfl h⟩

/-- **No size breaks the heap**, exactly of those that round or are turned down. -/
theorem Valid.withstands_iff (v : Valid s ps) : s.Withstands n ↔ s.Serves n := by
  constructor
  · rintro ⟨h', q, hrun, -, hroom⟩
    by_contra hserve
    obtain ⟨hn, hround, hrefuse⟩ : n ≠ 0 ∧ ¬ Rounds k n ∧ ¬ Refuses s.heap n :=
      ⟨fun h => hserve (.inl h), fun h => hserve (.inr (.inl h)), fun h => hserve (.inr (.inr h))⟩
    obtain ⟨h'', A, b, C, hrun', -⟩ := v.not_refused hn hrefuse
    have hq : q = payload k b := (Prod.mk.inj (Option.some.inj (hrun.symm.trans hrun'))).2
    obtain ⟨-, hle, -⟩ := hroom (hq ▸ payload_ne_zero k b)
    -- the header has no room for a size that does not round
    have hlt : ((s.granted (h', q)).blockAt q).size < pallocAllocated k := flag_lt k _
    have hword := size_lt_sizeMod k
    rw [Rounds, alignedMask, not_lt] at hround
    rw [sizeMod_eq_double] at hround hword
    omega
  · intro hserve
    rcases v.rounds_or_idle hserve with hround | hidle
    · rcases v.request (.inr hround.link_le) with hidle | ⟨h', q, ps', b, hrun, hg⟩
      · exact ⟨_, 0, hidle, fun _ => rfl, fun h => absurd rfl h⟩
      · have hq : q ≠ 0 := hg.valid.live_ne_zero List.mem_cons_self
        have hv : Valid (s.granted (h', q)) ps' := by
          rw [Session.granted, if_neg hq]
          exact hg.valid
        refine ⟨h', q, hrun, fun h => absurd h hq, fun _ => ⟨?_, ?_, _, hv.safe⟩⟩
        · rw [Session.granted, if_neg hq]
          exact List.mem_cons_self
        · have hsize := hv.blockAt (hg.lives.mem_iff.mpr List.mem_cons_self)
          rw [← hg.ptr] at hsize
          rw [hsize]
          exact hround.le_need.trans hg.room
    · exact ⟨_, 0, hidle, fun _ => rfl, fun h => absurd rfl h⟩

end States

/-! ## Runs -/

/-- The session is there, and every request with a header that does not wrap is first fit
exactly if it rounds or is turned down. -/
def FitsFirst (s : Option (Session k)) : Prop :=
  ∃ t, s = some t ∧ ∀ n, 0 < n → n + sizeofLink k < sizeMod k →
    (t.FirstFit n ↔ Rounds k n ∨ Refuses t.heap n)

/-- The session is there, and withstands exactly the requests that do no harm. -/
def Withstanding (s : Option (Session k)) : Prop :=
  ∃ t, s = some t ∧ ∀ n, n < sizeMod k → (t.Withstands n ↔ t.Serves n)

/-- **First fit** in every state of a run of admitted calls. -/
theorem always_first_fit (k : Nat) (mem : Memory) (ops : List Op)
    (h : Guarded Session.calls Admitted (some (Session.initial k mem)) ops) :
    Always Session.calls FitsFirst (some (Session.initial k mem)) ops := by
  intro l hl
  obtain ⟨t, ps, hrun, hv⟩ := always_laid_calls h l hl
  exact ⟨t, hrun, fun n hn _ => hv.firstFit_iff (Nat.ne_of_gt hn)⟩

theorem requests_first_fit : Always Session.calls FitsFirst (some (Session.initial 2 fun _ => 0))
    [.init ⟨4096, 4352⟩, .palloc 10, .pcalloc 3 5, .pfree 4104] :=
  always_first_fit 2 _ _ (admitted_of_proper requests_proper)

/-- A request that wraps when it is rounded is given the first block. -/
theorem wrapped_not_first_fit :
    Guarded Session.next Permitted (some (Session.initial 2 fun _ => 0)) [.init ⟨4096, 4352⟩] ∧
      4294967287 + sizeofLink 2 < sizeMod 2 ∧ ∃ t, [Op.init ⟨4096, 4352⟩].foldl Session.calls
        (some (Session.initial 2 fun _ => 0)) = some t ∧ ¬ t.FirstFit 4294967287 := by
  refine ⟨rounding_permitted.of_prefix ⟨_, rfl⟩, by decide, ?_⟩
  obtain ⟨t, ps, hrun, v, hl, hlast⟩ := one_region
  refine ⟨t, hrun, fun hfit => ?_⟩
  rcases (v.firstFit_iff (by decide)).mp hfit with hround | hrefuse
  · exact absurd hround (by decide)
  · exact one_region_not_refused hl hlast hrefuse

/-- **Any size** in every state of a run of admitted calls. -/
theorem always_withstanding (k : Nat) (mem : Memory) (ops : List Op)
    (h : Guarded Session.calls Admitted (some (Session.initial k mem)) ops) :
    Always Session.calls Withstanding (some (Session.initial k mem)) ops := by
  intro l hl
  obtain ⟨t, ps, hrun, hv⟩ := always_laid_calls h l hl
  exact ⟨t, hrun, fun n _ => hv.withstands_iff⟩

theorem requests_withstood : Always Session.calls Withstanding (some (Session.initial 2 fun _ => 0))
    [.init ⟨4096, 4352⟩, .palloc 10, .pcalloc 3 5, .pfree 4104] :=
  always_withstanding 2 _ _ (admitted_of_proper requests_proper)

/-- It has no room for what was asked for. -/
theorem wrapped_not_withstood :
    Guarded Session.next Permitted (some (Session.initial 2 fun _ => 0)) [.init ⟨4096, 4352⟩] ∧
      4294967287 < sizeMod 2 ∧ ∃ t, [Op.init ⟨4096, 4352⟩].foldl Session.calls
        (some (Session.initial 2 fun _ => 0)) = some t ∧ ¬ t.Withstands 4294967287 := by
  refine ⟨rounding_permitted.of_prefix ⟨_, rfl⟩, by decide, ?_⟩
  obtain ⟨t, ps, hrun, v, hl, hlast⟩ := one_region
  refine ⟨t, hrun, fun hstand => ?_⟩
  rcases v.withstands_iff.mp hstand with hzero | hround | hrefuse
  · cases hzero
  · exact absurd hround (by decide)
  · exact one_region_not_refused hl hlast hrefuse

end Sdkz.Palloc
