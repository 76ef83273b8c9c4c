import Sdkz.Palloc.Session

/-! # Well-formed heaps

What a debugger would check, without a layout: the list as it is linked in memory,
the headers behind the pointers that the program holds, and that together they tile
every region. A valid session passes the check. -/

namespace Sdkz.Palloc
open Sdkz.Base

variable {k : Nat}

/-- Blocks that are not empty and follow one another from `a` to `e`. -/
def Tiles : Nat → List Block → Nat → Prop
  | a, [], e => a = e
  | a, b :: T, e => b.addr = a ∧ b.size ≠ 0 ∧ Tiles b.stop T e

/-- A block of the heap: a listed one that is no marker, or one that is held. -/
def Session.IsBlock (s : Session k) (L : List Block) (b : Block) : Prop :=
  b ∈ L ∧ b.size ≠ 0 ∨ b ∈ s.live.map s.blockAt

/-- The check, on the list `L` that is linked in memory. -/
structure Session.Checks (s : Session k) (L : List Block) : Prop where
  lists : Lists s.heap L
  ordered : L.Pairwise fun b c => b.addr < c.addr
  last : s.regions ≠ [] → ∃ A, L = A ++ [⟨s.heap.ppoolLast, 0⟩]
  inside : ∀ b, b ∈ L ∨ s.IsBlock L b →
    ∃ r ∈ s.regions, r.start ≤ b.addr ∧ b.stop + sizeofLink k ≤ r.stop
  tiled : ∀ r ∈ s.regions, ∃ T, Tiles r.start T (r.stop - sizeofLink k) ∧
    ∀ b, b ∈ T ↔ s.IsBlock L b ∧ r.start ≤ b.addr ∧ b.addr < r.stop
  words : ∀ b, s.IsBlock L b → b.size ≠ 0 ∧ sizeofSizeT k ∣ b.size
  flags : ∀ b, s.IsBlock L b →
    ((s.heap.flagNsize b.link &&& pallocAllocated k ≠ 0 ∧ s.heap.next b.link = 0) ↔
      payload k b ∈ s.live)
  freeSize : s.heap.freeSize = (L.map Block.size).sum

/-- The session is there, and passes the check. -/
def WellFormed (s : Option (Session k)) : Prop := ∃ t L, s = some t ∧ t.Checks L

/-! ## Cells tile -/

section Cells
variable {a : Nat} {cs : List Cell} {b : Block}

/-- All cells that are laid out from `a` on. -/
def cellsAt : Nat → List Cell → List Block
  | _, [] => []
  | a, c :: cs => ⟨a, c.size⟩ :: cellsAt (a + c.size) cs

theorem tiles_cellsAt (hpos : ∀ c ∈ cs, c.size ≠ 0) : Tiles a (cellsAt a cs) (a + span cs) := by
  induction cs generalizing a with
  | nil => rfl
  | cons c cs ih =>
    have ih := ih (a := a + c.size) fun d hd => hpos d (List.mem_cons_of_mem c hd)
    rw [span_cons, ← Nat.add_assoc]
    exact ⟨rfl, hpos c List.mem_cons_self, ih⟩

theorem mem_cellsAt : b ∈ cellsAt a cs ↔ b ∈ blocksOf false a cs ∨ b ∈ blocksOf true a cs := by
  induction cs generalizing a with
  | nil => simp [cellsAt, blocksOf]
  | cons c cs ih =>
    rw [cellsAt, blocksOf, blocksOf, List.mem_cons, ih]
    cases c.live with
    | true =>
      simp only [Bool.true_eq_false, if_false, if_true, List.mem_cons]
      tauto
    | false =>
      simp only [Bool.false_eq_true, if_false, if_true, List.mem_cons]
      tauto

end Cells

/-! ## Valid sessions pass -/

section Valid
variable {s : Session k} {ps : List Pool} {p : Pool} {b : Block}

theorem Valid.mem_held (v : Valid s ps) : b ∈ s.live.map s.blockAt ↔ b ∈ lives ps := by
  have hheld : ∀ c ∈ lives ps, s.blockAt (payload k c) = c := fun c hc => v.blockAt hc
  rw [(v.live.map s.blockAt).mem_iff, List.map_map]
  constructor
  · intro hb
    obtain ⟨c, hc, rfl⟩ := List.mem_map.mp hb
    rw [Function.comp_apply, hheld c hc]
    exact hc
  · exact fun hb => List.mem_map.mpr ⟨b, hb, hheld b hb⟩

theorem Valid.isBlock_iff (v : Valid s ps) :
    s.IsBlock (listed ps) b ↔ b ∈ listed ps ∧ b.size ≠ 0 ∨ b ∈ lives ps := by
  rw [Session.IsBlock, v.mem_held]

theorem Valid.mem_live (v : Valid s ps) (hb : b ∈ lives ps) : payload k b ∈ s.live :=
  v.live.mem_iff.mpr (List.mem_map_of_mem hb)

theorem Valid.not_mem_live (v : Valid s ps) (hb : b ∈ listed ps) : payload k b ∉ s.live := by
  intro hp
  obtain ⟨c, hc, hcb⟩ := v.block_of_live hp
  exact v.ok.lives_ne_listed hc hb (Nat.add_right_cancel hcb).symm

/-- A block lies in one pool, in front of its marker. -/
theorem block_pool (hb : b ∈ listed ps ∨ b ∈ lives ps) :
    ∃ p ∈ ps, (b ∈ p.free ∨ b ∈ p.live ∨ b.size = 0) ∧ p.start ≤ b.addr ∧ b.stop ≤ p.marker := by
  rcases hb with hb | hb
  · obtain ⟨p, hp, hb⟩ := mem_listed.mp hb
    rcases hb with hb | hb
    · exact ⟨p, hp, .inl hb, (Pool.mem_free hb).2.1, (Pool.mem_free hb).2.2.1⟩
    · rw [Pool.mem_marks hb]
      exact ⟨p, hp, .inr (.inr rfl), Nat.le_add_right _ _, Nat.le_refl _⟩
  · obtain ⟨p, hp, hb⟩ := mem_lives.mp hb
    exact ⟨p, hp, .inr (.inl hb), (Pool.mem_live hb).2.1, (Pool.mem_live hb).2.2.1⟩

/-- The cells of a pool are the blocks in its region. -/
theorem LayoutOk.mem_cells (ok : LayoutOk k ps) (hp : p ∈ ps) :
    b ∈ cellsAt p.start p.cells ↔ (b ∈ listed ps ∧ b.size ≠ 0 ∨ b ∈ lives ps) ∧
      p.start ≤ b.addr ∧ b.addr < p.stop k := by
  have hpos := sizeofLink_pos k
  rw [mem_cellsAt]
  constructor
  · rintro (hb | hb)
    · obtain ⟨-, hstart, hstop, hcell⟩ := Pool.mem_free hb
      have hlarge : sizeofLink k ≤ b.size := (ok.pools p hp).large _ hcell
      rw [Pool.stop]
      rw [Block.stop] at hstop
      exact ⟨.inl ⟨mem_listed.mpr ⟨p, hp, .inl hb⟩, by omega⟩, hstart, by omega⟩
    · obtain ⟨-, hstart, hstop, -⟩ := Pool.mem_live hb
      rw [Pool.stop]
      rw [Block.stop] at hstop
      exact ⟨.inr (mem_lives.mpr ⟨p, hp, hb⟩), hstart, by omega⟩
  · rintro ⟨hb, hstart, hstop⟩
    have hblock : b ∈ listed ps ∨ b ∈ lives ps := hb.imp And.left id
    obtain ⟨q, hq, hkind, hqstart, hqstop⟩ := block_pool hblock
    have hqin : b.addr < q.stop k := by
      rw [Pool.stop]
      rw [Block.stop] at hqstop
      omega
    obtain rfl := ok.pool_unique hp hq ⟨hstart, hstop⟩ ⟨hqstart, hqin⟩
    rcases hkind with hfree | hlive | hzero
    · exact .inl hfree
    · exact .inr hlive
    · rcases hb with ⟨-, hne⟩ | hb
      · exact absurd hzero hne
      · obtain ⟨r, hr, hb⟩ := mem_lives.mp hb
        have hlarge : sizeofLink k ≤ b.size := (ok.pools r hr).large _ (Pool.mem_live hb).2.2.2
        omega

/-- **A valid session** passes the check. -/
theorem Valid.checks (v : Valid s ps) : s.Checks (listed ps) := by
  have hpos := sizeofLink_pos k
  refine ⟨v.rep.lists, v.ok.listed_apart.imp fun h => by omega, fun hne => ?_, fun b hb => ?_,
    fun r hr => ?_, fun b hb => ?_, fun b hb => ?_, v.rep.freeSize⟩
  · have hps : ps ≠ [] := by
      rintro rfl
      exact hne (List.perm_nil.mp v.regions)
    rw [v.rep.ppoolLast]
    exact v.ok.getLast_listed hps
  · have hb : b ∈ listed ps ∨ b ∈ lives ps :=
      hb.elim .inl fun hb => (v.isBlock_iff.mp hb).imp And.left id
    obtain ⟨p, hp, -, hstart, hstop⟩ := block_pool hb
    refine ⟨p.region k, v.regions.mem_iff.mpr (List.mem_map_of_mem hp), hstart, ?_⟩
    exact Nat.add_le_add_right hstop _
  · obtain ⟨p, hp, rfl⟩ := List.mem_map.mp (v.regions.mem_iff.mp hr)
    have hmarker : (p.region k).stop - sizeofLink k = p.start + span p.cells :=
      Nat.add_sub_cancel _ _
    refine ⟨cellsAt p.start p.cells, ?_, fun b => ?_⟩
    · rw [hmarker]
      refine tiles_cellsAt fun c hc => ?_
      have := (v.ok.pools p hp).large c hc
      omega
    · rw [v.isBlock_iff]
      exact v.ok.mem_cells hp
  · have hcell : ∃ p ∈ ps, ∃ c ∈ p.cells, c.size = b.size := by
      rcases v.isBlock_iff.mp hb with ⟨hb, hne⟩ | hb
      · obtain ⟨p, hp, hb⟩ := mem_listed.mp hb
        rcases hb with hb | hb
        · exact ⟨p, hp, _, (Pool.mem_free hb).2.2.2, rfl⟩
        · exact absurd (by rw [Pool.mem_marks hb]) hne
      · obtain ⟨p, hp, hb⟩ := mem_lives.mp hb
        exact ⟨p, hp, _, (Pool.mem_live hb).2.2.2, rfl⟩
    obtain ⟨p, hp, c, hc, hsize⟩ := hcell
    have hlarge := (v.ok.pools p hp).large c hc
    rw [← hsize]
    exact ⟨by omega, (v.ok.pools p hp).words c hc⟩
  · rcases v.isBlock_iff.mp hb with ⟨hb, hne⟩ | hb
    · have hflag := v.rep.lists.sizes b hb
      have hclear := and_allocated (v.ok.listed_bounds hb).size
      rw [hflag]
      exact ⟨fun h => absurd hclear h.1, fun h => absurd h (v.not_mem_live hb)⟩
    · obtain ⟨hflag, hnext⟩ := v.rep.lives b hb
      rw [hflag]
      exact ⟨fun _ => v.mem_live hb, fun _ =>
        ⟨add_allocated_and (v.ok.lives_bounds hb).size, hnext⟩⟩

end Valid

/-! ## Two runs -/

/-- A region and a few requests on a 32-bit machine. -/
theorem requests_proper : Guarded Session.next Proper (some (Session.initial 2 fun _ => 0))
    [.init ⟨4096, 4352⟩, .palloc 10, .pcalloc 3 5, .pfree 4104] := by
  have hround : ∀ n, n < 100 → Rounds 2 n := by
    intro n hn
    have hword : 100 + sizeofLink 2 + alignedMask 2 < sizeMod 2 := by decide +kernel
    unfold Rounds
    omega
  have hfits : Region.Fits 2 ⟨4096, 4352⟩ [] :=
    ⟨⟨by decide, by decide, by decide, by decide, by decide⟩, by simp, by decide⟩
  refine guarded_cons.mpr ⟨?_, guarded_cons.mpr ⟨?_, guarded_cons.mpr ⟨?_, guarded_cons.mpr ⟨?_, ?_⟩⟩⟩⟩
  · intro t ht
    obtain rfl := Option.some.inj ht
    exact ⟨hfits, trivial⟩
  · exact fun t ht => ⟨(show (10 + sizeofLink 2 < sizeMod 2) by decide), hround 10 (by decide)⟩
  · exact fun t ht => ⟨(show (3 * 5 % sizeMod 2 + sizeofLink 2 < sizeMod 2) by decide),
      hround _ (by decide)⟩
  · intro t ht
    have hlive : ∀ u, Session.next (Session.next (Session.next (some (Session.initial 2 fun _ => 0))
        (.init ⟨4096, 4352⟩)) (.palloc 10)) (.pcalloc 3 5) = some u → 4104 ∈ u.live := by
      decide +kernel
    exact ⟨.inr (hlive t ht), trivial⟩
  · exact fun p a hp => absurd (List.prefix_nil.mp hp) (by simp)

/-- A request whose size and header do not wrap, but which wraps when it is rounded. -/
theorem rounding_permitted : Guarded Session.next Permitted (some (Session.initial 2 fun _ => 0))
    [.init ⟨4096, 4352⟩, .palloc 4294967287] := by
  have hfits : Region.Fits 2 ⟨4096, 4352⟩ [] :=
    ⟨⟨by decide, by decide, by decide, by decide, by decide⟩, by simp, by decide⟩
  refine guarded_cons.mpr ⟨?_, guarded_cons.mpr ⟨?_, ?_⟩⟩
  · intro t ht
    obtain rfl := Option.some.inj ht
    exact hfits
  · exact fun t ht => show (4294967287 + sizeofLink 2 < sizeMod 2) by decide
  · exact fun p a hp => absurd (List.prefix_nil.mp hp) (by simp)

end Sdkz.Palloc
