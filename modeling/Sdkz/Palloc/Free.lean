import Mathlib.Data.List.Nodup
import Sdkz.Palloc.Alloc
import Sdkz.Palloc.Insert

/-! # `pfree` on a layout

A live cell becomes free and is joined with its free neighbours. If it is the last
cell of its pool, the marker behind it leaves the list, unless it is the last
marker in memory. -/

namespace Sdkz.Palloc
open Sdkz.Base

variable {k : Nat} {h h' : Heap k} {P Q : List Pool} {p : Pool} {b : Block}
  {n : Nat} {B₁ B₂ E₁ E₂ : List Cell}

/-- The cells before a free cell, and its size, joined with a free cell before it. -/
def joinLeft (B₁ : List Cell) (n : Nat) : List Cell × Nat :=
  match B₁.getLast? with
  | some ⟨m, false⟩ => (B₁.dropLast, m + n)
  | _ => (B₁, n)

/-- The same for the cells behind it. -/
def joinRight (n : Nat) : List Cell → Nat × List Cell
  | ⟨m, false⟩ :: B₂ => (n + m, B₂)
  | B₂ => (n, B₂)

/-- The size of the freed cell, joined on both sides. -/
def freedSize (B₁ : List Cell) (n : Nat) (B₂ : List Cell) : Nat :=
  (joinRight (joinLeft B₁ n).2 B₂).1

def freedCells (B₁ : List Cell) (n : Nat) (B₂ : List Cell) : List Cell :=
  (joinLeft B₁ n).1 ++ ([⟨freedSize B₁ n B₂, false⟩] ++ (joinRight (joinLeft B₁ n).2 B₂).2)

/-- The pool with the live cell between `B₁` and `B₂` freed; `Q` are the pools
behind it. -/
def freedPool (p : Pool) (Q : List Pool) (B₁ : List Cell) (n : Nat) (B₂ : List Cell) : Pool :=
  ⟨p.start, freedCells B₁ n B₂, p.marked && (!B₂.isEmpty || Q.isEmpty)⟩

def freeCell (P : List Pool) (p : Pool) (Q : List Pool) (B₁ : List Cell) (n : Nat)
    (B₂ : List Cell) : List Pool := P ++ freedPool p Q B₁ n B₂ :: Q

theorem joinLeft_cases (B₁ : List Cell) (n : Nat) :
    (∃ m, B₁ = (joinLeft B₁ n).1 ++ [⟨m, false⟩] ∧ (joinLeft B₁ n).2 = m + n) ∨
      (joinLeft B₁ n = (B₁, n) ∧ ∀ c ∈ B₁.getLast?, c.live = true) := by
  rcases List.eq_nil_or_concat B₁ with rfl | ⟨E, ⟨m, live⟩, rfl⟩
  · exact .inr ⟨rfl, by simp⟩
  · rw [List.concat_eq_append]
    cases live with
    | true => exact .inr ⟨by simp [joinLeft], by simp⟩
    | false => exact .inl ⟨m, by simp [joinLeft], by simp [joinLeft]⟩

theorem joinRight_cases (n : Nat) (B₂ : List Cell) :
    (∃ m, B₂ = ⟨m, false⟩ :: (joinRight n B₂).2 ∧ (joinRight n B₂).1 = n + m) ∨
      (joinRight n B₂ = (n, B₂) ∧ ∀ c ∈ B₂.head?, c.live = true) := by
  cases B₂ with
  | nil => exact .inr ⟨rfl, by simp⟩
  | cons c B₂ =>
    obtain ⟨m, live⟩ := c
    cases live with
    | true => exact .inr ⟨rfl, by simp⟩
    | false => exact .inl ⟨m, rfl, rfl⟩

/-! ## The cells -/

/-- What joining with the cell before does to the cells. -/
structure LeftJoined (B₁ : List Cell) (n : Nat) (E₁ : List Cell) (n₁ : Nat) : Prop where
  span : span E₁ + n₁ = Palloc.span B₁ + n
  sub : ∀ c ∈ E₁, c ∈ B₁
  chain : E₁.IsChain NotBothFree
  last : ∀ c ∈ E₁.getLast?, c.live = true
  size : n₁ = n ∨ ∃ m, (⟨m, false⟩ : Cell) ∈ B₁ ∧ n₁ = m + n
  lives : ∀ a, blocksOf true a E₁ = blocksOf true a B₁

structure RightJoined (n₁ : Nat) (B₂ : List Cell) (n₂ : Nat) (E₂ : List Cell) : Prop where
  span : n₂ + span E₂ = n₁ + Palloc.span B₂
  sub : ∀ c ∈ E₂, c ∈ B₂
  chain : E₂.IsChain NotBothFree
  head : ∀ c ∈ E₂.head?, c.live = true
  size : n₂ = n₁ ∨ ∃ m, (⟨m, false⟩ : Cell) ∈ B₂ ∧ n₂ = n₁ + m
  lives : ∀ a, blocksOf true (a + n₂) E₂ = blocksOf true (a + n₁) B₂

theorem leftJoined (hc : B₁.IsChain NotBothFree) (n : Nat) :
    LeftJoined B₁ n (joinLeft B₁ n).1 (joinLeft B₁ n).2 := by
  rcases joinLeft_cases B₁ n with ⟨m, hB, hn⟩ | ⟨he, hlive⟩
  · generalize (joinLeft B₁ n).1 = E at *
    generalize (joinLeft B₁ n).2 = n₁ at *
    subst hB hn
    obtain ⟨hE, -, hlast⟩ := List.isChain_append.mp hc
    refine ⟨?_, fun c hc => List.mem_append_left _ hc, hE, fun c hc => ?_,
      .inr ⟨m, by simp, rfl⟩, fun a => ?_⟩
    · simp only [span_append, span_cons, span_nil]
      omega
    · exact (hlast c hc ⟨m, false⟩ rfl).resolve_right (by simp)
    · rw [blocksOf_append]
      exact (List.append_nil _).symm
  · rw [he]
    exact ⟨rfl, fun c hc => hc, hc, hlive, .inl rfl, fun a => rfl⟩

theorem rightJoined (hc : B₂.IsChain NotBothFree) (n : Nat) :
    RightJoined n B₂ (joinRight n B₂).1 (joinRight n B₂).2 := by
  rcases joinRight_cases n B₂ with ⟨m, hB, hn⟩ | ⟨he, hlive⟩
  · generalize (joinRight n B₂).2 = E at *
    generalize (joinRight n B₂).1 = n₂ at *
    subst hB hn
    refine ⟨?_, fun c hc => List.mem_cons_of_mem _ hc, ?_, fun c hc => ?_,
      .inr ⟨m, by simp, rfl⟩, fun a => ?_⟩
    · simp only [span_cons]
      omega
    · cases E with
      | nil => exact List.IsChain.nil
      | cons c E => exact (List.isChain_cons_cons.mp hc).2
    · cases E with
      | nil => cases hc
      | cons d E =>
        obtain rfl := Option.some.inj hc
        rename_i hchain
        exact (List.isChain_cons_cons.mp hchain).1.resolve_left (by simp)
    · rw [blocksOf, if_neg (by simp), Nat.add_assoc]
  · rw [he]
    exact ⟨rfl, fun c hc => hc, hc, hlive, .inl rfl, fun a => rfl⟩

/-! ## The list -/

/-- On the list, the block before is the free cell before. -/
theorem joinBefore_cells {L : List Block} {a : Nat} (hL : ∀ b ∈ L, b.stop < a)
    (hpos : ∀ c ∈ B₁, 0 < c.size) :
    joinBefore (L ++ blocksOf false a B₁) ⟨a + span B₁, n⟩ =
      (L ++ blocksOf false a (joinLeft B₁ n).1,
        ⟨a + span (joinLeft B₁ n).1, (joinLeft B₁ n).2⟩) := by
  rcases joinLeft_cases B₁ n with ⟨m, hB, hn⟩ | ⟨he, hlive⟩
  · generalize (joinLeft B₁ n).1 = E at *
    generalize (joinLeft B₁ n).2 = n₁ at *
    subst hB hn
    have hone : blocksOf false (a + span E) [⟨m, false⟩] = [⟨a + span E, m⟩] := rfl
    have htouch : (⟨a + span E, m⟩ : Block).stop = a + span (E ++ [⟨m, false⟩]) := by
      simp only [Block.stop, span_append, span_cons, span_nil]
      omega
    rw [blocksOf_append, hone, ← List.append_assoc, joinBefore_concat, if_pos htouch]
  · rw [he]
    -- nothing before the cell reaches it
    have hfar : ∀ b ∈ L ++ blocksOf false a B₁, b.stop ≠ a + span B₁ := by
      intro b hb
      rcases List.mem_append.mp hb with hb | hb
      · have := hL b hb
        omega
      · rcases List.eq_nil_or_concat B₁ with rfl | ⟨E, c, rfl⟩
        · cases hb
        · rw [List.concat_eq_append] at *
          have hc : c.live = true := hlive c (by simp)
          have hcpos := hpos c (by simp)
          have hnone : blocksOf false (a + span E) [c] = [] := by simp [blocksOf, hc]
          rw [blocksOf_append, hnone, List.append_nil] at hb
          have := (mem_blocksOf hb).2.2.1
          rw [span_append, span_cons]
          omega
    rcases joinBefore_cases (L ++ blocksOf false a B₁) ⟨a + span B₁, n⟩ with hb | ⟨A, b, hA, htouch, -⟩
    · exact hb
    · exact absurd htouch (hfar b (by simp [hA]))

theorem joinAfter_far {last : Nat} {x : Block} {C : List Block} (h : ∀ c ∈ C, x.stop ≠ c.addr) :
    joinAfter last x C = (x, C) := by
  cases C with
  | nil => rfl
  | cons c C => exact if_neg fun he => h c List.mem_cons_self he.1

/-- What is listed behind a pool lies behind its end. -/
theorem LayoutOk.listed_behind (ok : LayoutOk k (P ++ p :: Q)) (hb : b ∈ listed Q) :
    p.stop k ≤ b.addr := by
  obtain ⟨q, hq, hb⟩ := mem_listed.mp hb
  have hstart := ok.around.2 q hq
  rcases hb with hb | hb
  · exact hstart.trans (Pool.mem_free hb).2.1
  · rw [Pool.mem_marks hb]
    exact hstart.trans (Nat.le_add_right _ _)

theorem LayoutOk.listed_before (ok : LayoutOk k (P ++ p :: Q)) (hb : b ∈ listed P) :
    b.stop + sizeofLink k ≤ p.start := by
  obtain ⟨q, hq, hb⟩ := mem_listed.mp hb
  have hstop := ok.around.1 q hq
  rw [Pool.stop] at hstop
  rcases hb with hb | hb
  · have := (Pool.mem_free hb).2.2.1
    omega
  · rw [Pool.mem_marks hb]
    exact hstop

/-- A live cell behind the block keeps the next listed block away from it. -/
theorem joinAfter_live {e a n₁ : Nat} {c : Cell} {E : List Cell} (ok : LayoutOk k (P ++ p :: Q))
    (hpos : 0 < c.size) (hlive : c.live = true) (hstop : e + n₁ = a)
    (hmarker : a + span (c :: E) = p.marker) :
    joinAfter (lastMarker (P ++ p :: Q)) ⟨e, n₁⟩ (behind p a (c :: E) Q) =
      (⟨e, n₁⟩, behind p a (c :: E) Q) := by
  have hlink := sizeofLink_pos k
  have hbehind := fun b hb => ok.listed_behind (b := b) hb
  rw [Pool.stop] at hbehind
  have hx : (⟨e, n₁⟩ : Block).stop = a := hstop
  rw [span_cons] at hmarker
  refine joinAfter_far fun b hb => ?_
  rw [hx]
  rcases List.mem_append.mp hb with hb | hb
  · rcases List.mem_append.mp hb with hb | hb
    · rw [blocksOf, if_neg (by simp [hlive])] at hb
      have := (mem_blocksOf hb).2.1
      omega
    · rw [Pool.mem_marks hb]
      simp only
      omega
  · have := hbehind b hb
    omega

/-- Behind the last cell of a pool its marker is taken in, unless it ends the list. -/
theorem joinAfter_marker {e a n₁ : Nat} {cells : List Cell} (ok : LayoutOk k (P ++ p :: Q))
    (hstop : e + n₁ = a) (hmarker : a = p.marker) (hspan : span cells = span p.cells) :
    joinAfter (lastMarker (P ++ p :: Q)) ⟨e, n₁⟩ (behind p a [] Q) =
      (⟨e, n₁⟩, behind ⟨p.start, cells, p.marked && Q.isEmpty⟩ a [] Q) := by
  have hlink := sizeofLink_pos k
  have hlast := ok.marker_le_last (List.mem_append_right P List.mem_cons_self)
  have hbehind := fun b hb => ok.listed_behind (b := b) hb
  rw [Pool.stop] at hbehind
  have hx : (⟨e, n₁⟩ : Block).stop = a := hstop
  cases Q with
  | nil =>
    have hm : p.marked = true := ok.marked p (by simp)
    have hmark : lastMarker (P ++ [p]) = p.marker := lastMarker_append
    have hone : behind p a [] [] = [⟨a, 0⟩] := by
      simp [behind, blocksOf, Pool.marks, hm, listed, hmarker]
    have hstay : joinAfter p.marker ⟨e, n₁⟩ [⟨a, 0⟩] = (⟨e, n₁⟩, [⟨a, 0⟩]) :=
      if_neg fun h => h.2 hmarker
    have hsame : Pool.marks ⟨p.start, cells, p.marked && ([] : List Pool).isEmpty⟩ = p.marks := by
      simp [Pool.marks, Pool.marker, hspan]
    rw [hmark, hone, hstay, behind, hsame, ← hone, behind]
  | cons q Q =>
    have hgone : Pool.marks ⟨p.start, cells, p.marked && (q :: Q).isEmpty⟩ = [] := by
      simp [Pool.marks]
    have hrest : behind ⟨p.start, cells, p.marked && (q :: Q).isEmpty⟩ a [] (q :: Q) =
        listed (q :: Q) := by
      rw [behind, hgone]
      rfl
    rw [hrest]
    cases hm : p.marked with
    | false =>
      have hnone : behind p a [] (q :: Q) = listed (q :: Q) := by
        simp [behind, blocksOf, Pool.marks, hm]
      rw [hnone]
      refine joinAfter_far fun b hb => ?_
      have := hbehind b hb
      rw [hx]
      omega
    | true =>
      have hmark : behind p a [] (q :: Q) = ⟨a, 0⟩ :: listed (q :: Q) := by
        simp [behind, blocksOf, Pool.marks, hm, hmarker]
      have hq := ok.around.2 q List.mem_cons_self
      have hqlast := ok.marker_le_last (List.mem_append_right P
        (List.mem_cons_of_mem p (List.mem_cons_self (a := q) (l := Q))))
      have hne : a ≠ lastMarker (P ++ p :: q :: Q) := by
        rw [Pool.stop] at hq
        have : q.start ≤ q.marker := Nat.le_add_right _ _
        omega
      rw [hmark]
      exact if_pos ⟨hx, hne⟩

/-- On the list, the block behind is the free cell behind, or the marker. -/
theorem joinAfter_cells {e a n₁ : Nat} {cells : List Cell} (ok : LayoutOk k (P ++ p :: Q))
    (hsub : ∀ c ∈ B₂, 0 < c.size) (hstop : e + n₁ = a) (hmarker : a + span B₂ = p.marker)
    (hspan : span cells = span p.cells) :
    joinAfter (lastMarker (P ++ p :: Q)) ⟨e, n₁⟩ (behind p a B₂ Q) =
      (⟨e, (joinRight n₁ B₂).1⟩,
        behind ⟨p.start, cells, p.marked && (!B₂.isEmpty || Q.isEmpty)⟩ (e + (joinRight n₁ B₂).1)
          (joinRight n₁ B₂).2 Q) := by
  have hlast := ok.marker_le_last (List.mem_append_right P List.mem_cons_self)
  have hx : (⟨e, n₁⟩ : Block).stop = a := hstop
  have hmarks : Pool.marks ⟨p.start, cells, p.marked⟩ = p.marks := by
    simp only [Pool.marks, Pool.marker, hspan]
  rcases joinRight_cases n₁ B₂ with ⟨m, hB, hn⟩ | ⟨he, hlive⟩
  · generalize (joinRight n₁ B₂).2 = E at *
    generalize (joinRight n₁ B₂).1 = n₂ at *
    subst hB hn
    have hm := hsub ⟨m, false⟩ List.mem_cons_self
    have hne : a ≠ lastMarker (P ++ p :: Q) := by
      rw [span_cons] at hmarker
      simp only at hmarker hm
      omega
    have hcons : behind p a (⟨m, false⟩ :: E) Q = ⟨a, m⟩ :: behind p (a + m) E Q := rfl
    rw [hcons, joinAfter, if_pos ⟨hx, hne⟩, ← Nat.add_assoc, hstop, behind, behind]
    simp only [List.isEmpty_cons, Bool.not_false, Bool.true_or, Bool.and_true, hmarks]
  · rw [he, hstop]
    cases B₂ with
    | cons c E =>
      rw [joinAfter_live ok (hsub c List.mem_cons_self) (hlive c rfl) hstop hmarker, behind, behind]
      simp only [List.isEmpty_cons, Bool.not_false, Bool.true_or, Bool.and_true, hmarks]
    | nil =>
      rw [span_nil, Nat.add_zero] at hmarker
      exact joinAfter_marker ok hstop hmarker hspan

/-! ## The layout -/

section Layout
variable (ok : LayoutOk k (P ++ p :: Q)) (hcells : p.cells = B₁ ++ ([⟨n, true⟩] ++ B₂))
include ok hcells

theorem joined_cells : LeftJoined B₁ n (joinLeft B₁ n).1 (joinLeft B₁ n).2 ∧
    RightJoined (joinLeft B₁ n).2 B₂ (freedSize B₁ n B₂) (joinRight (joinLeft B₁ n).2 B₂).2 := by
  have hchain := ok.pool.coalesced
  rw [hcells] at hchain
  obtain ⟨h₁, h₂, -⟩ := List.isChain_append.mp hchain
  exact ⟨leftJoined h₁ n, rightJoined (List.isChain_append.mp h₂).2.1 _⟩

theorem span_freedCells : span (freedCells B₁ n B₂) = span p.cells := by
  obtain ⟨hl, hr⟩ := joined_cells ok hcells
  have hls := hl.span
  have hrs := hr.span
  rw [hcells, freedCells]
  simp only [span_append, span_cons, span_nil]
  omega

theorem freedPool_marker : (freedPool p Q B₁ n B₂).marker = p.marker :=
  congrArg (p.start + ·) (span_freedCells ok hcells)

theorem freedPool_region : (freedPool p Q B₁ n B₂).region k = p.region k := by
  rw [Pool.region, Pool.region, Pool.stop, Pool.stop, freedPool_marker ok hcells]
  rfl

theorem regions_freeCell : regions k (freeCell P p Q B₁ n B₂) = regions k (P ++ p :: Q) := by
  simp [regions, freeCell, freedPool_region ok hcells]

theorem lastMarker_freeCell : lastMarker (freeCell P p Q B₁ n B₂) = lastMarker (P ++ p :: Q) :=
  lastMarker_replace (freedPool_marker ok hcells)

theorem freeCell_ok : LayoutOk k (freeCell P p Q B₁ n B₂) := by
  have hp := ok.pool
  obtain ⟨hl, hr⟩ := joined_cells ok hcells
  have hold : ∀ c : Cell, c ∈ B₁ ∨ c = ⟨n, true⟩ ∨ c ∈ B₂ →
      sizeofLink k ≤ c.size ∧ sizeofSizeT k ∣ c.size := by
    intro c hc
    have hmem : c ∈ p.cells := by
      rw [hcells]
      simp only [List.mem_append, List.mem_singleton]
      exact hc
    exact ⟨hp.large c hmem, hp.words c hmem⟩
  have hn := hold ⟨n, true⟩ (.inr (.inl rfl))
  have hleft : sizeofLink k ≤ (joinLeft B₁ n).2 ∧ sizeofSizeT k ∣ (joinLeft B₁ n).2 := by
    rcases hl.size with he | ⟨m, hm, he⟩
    · rw [he]
      exact hn
    · have := hold _ (.inl hm)
      rw [he]
      exact ⟨hn.1.trans (Nat.le_add_left _ _), Nat.dvd_add this.2 hn.2⟩
  have hjoined : sizeofLink k ≤ freedSize B₁ n B₂ ∧ sizeofSizeT k ∣ freedSize B₁ n B₂ := by
    rcases hr.size with he | ⟨m, hm, he⟩
    · rw [he]
      exact hleft
    · have := hold _ (.inr (.inr hm))
      rw [he]
      exact ⟨hleft.1.trans (Nat.le_add_right _ _), Nat.dvd_add hleft.2 this.2⟩
  have hall : ∀ c ∈ freedCells B₁ n B₂, sizeofLink k ≤ c.size ∧ sizeofSizeT k ∣ c.size := by
    intro c hc
    simp only [freedCells, List.mem_append, List.mem_singleton] at hc
    rcases hc with hc | rfl | hc
    · exact hold c (.inl (hl.sub c hc))
    · exact hjoined
    · exact hold c (.inr (.inr (hr.sub c hc)))
  have hregion := freedPool_region ok hcells
  refine ok.replace ⟨hp.positive, hp.aligned, fun c hc => (hall c hc).1, fun c hc => (hall c hc).2,
    ?_, (congrArg Region.stop hregion).trans_lt hp.bounded⟩ hregion fun hQ => ?_
  · refine List.isChain_append.mpr ⟨hl.chain, ?_, fun c hc _ _ => .inl (hl.last c hc)⟩
    refine List.isChain_append.mpr ⟨List.isChain_singleton _, hr.chain, fun _ _ c hc => ?_⟩
    exact .inr (hr.head c hc)
  · rw [freedPool, ok.marked p (by simp [hQ]), hQ]
    simp

theorem cells_pos : ∀ c ∈ B₁ ++ B₂, 0 < c.size := by
  intro c hc
  refine (sizeofLink_pos k).trans_le (ok.pool.large c ?_)
  rw [hcells]
  simp only [List.mem_append] at hc ⊢
  tauto

/-- The list of the new layout is the old one with the block inserted. -/
theorem listed_freeCell : listed (freeCell P p Q B₁ n B₂) =
    insertBlock (lastMarker (P ++ p :: Q)) (before P p B₁) ⟨p.start + span B₁, n⟩
      (behind p (p.start + span B₁ + n) B₂ Q) := by
  have hpos := cells_pos ok hcells
  have hlink := sizeofLink_pos k
  have hl := (joined_cells ok hcells).1.span
  have hbefore : joinBefore (before P p B₁) ⟨p.start + span B₁, n⟩ = _ :=
    joinBefore_cells (L := listed P) (fun b hb => by
      have := ok.listed_before hb
      omega) fun c hc => hpos c (List.mem_append_left _ hc)
  have hstop : p.start + span (joinLeft B₁ n).1 + (joinLeft B₁ n).2 = p.start + span B₁ + n := by
    omega
  have hmarker : p.start + span B₁ + n + span B₂ = p.marker := by
    rw [Pool.marker, hcells]
    simp only [span_append, span_cons, span_nil]
    omega
  have hafter := joinAfter_cells ok (fun c hc => hpos c (List.mem_append_right _ hc)) hstop hmarker
    (span_freedCells ok hcells)
  simp only [insertBlock, hbefore, hafter]
  rw [freeCell, listed_place (p := freedPool p Q B₁ n B₂) rfl]
  rfl

/-- One block less is live. -/
theorem lives_freeCell : ∃ X Y, lives (P ++ p :: Q) = X ++ ([⟨p.start + span B₁, n⟩] ++ Y) ∧
    lives (freeCell P p Q B₁ n B₂) = X ++ Y := by
  obtain ⟨hl, hr⟩ := joined_cells ok hcells
  refine ⟨lives P ++ blocksOf true p.start B₁,
    blocksOf true (p.start + span B₁ + n) B₂ ++ lives Q, lives_place hcells, ?_⟩
  have hspan : p.start + span (joinLeft B₁ n).1 + (joinLeft B₁ n).2 = p.start + span B₁ + n := by
    have := hl.span
    omega
  have hone : span [(⟨freedSize B₁ n B₂, false⟩ : Cell)] = freedSize B₁ n B₂ := rfl
  have hstart : (freedPool p Q B₁ n B₂).start = p.start := rfl
  rw [freeCell, lives_place (p := freedPool p Q B₁ n B₂) rfl, hstart, hl.lives, hone, hr.lives, hspan]
  rfl

end Layout

/-! ## The stores -/

/-- The heap with a live block unmarked, as `pfree` hands it to the insertion. -/
def unmark (h : Heap k) (a n : Nat) : Heap k :=
  { h.setFlagNsize (.block a) n with freeSize := sizeAdd k h.freeSize n }

theorem listed_live (hcells : p.cells = B₁ ++ ([⟨n, true⟩] ++ B₂)) : listed (P ++ p :: Q) =
    before P p B₁ ++ ([] ++ behind p (p.start + span B₁ + n) B₂ Q) := listed_cell hcells

section Represents
variable (ok : LayoutOk k (P ++ p :: Q)) (hcells : p.cells = B₁ ++ ([⟨n, true⟩] ++ B₂))
include ok hcells

theorem live_mem : (⟨p.start + span B₁, n⟩ : Block) ∈ lives (P ++ p :: Q) := by
  obtain ⟨X, Y, hX, -⟩ := lives_freeCell ok hcells
  simp [hX]

theorem before_lt (hb : b ∈ before P p B₁) : b.addr < p.start + span B₁ := by
  have hlink := sizeofLink_pos k
  rcases List.mem_append.mp hb with hb | hb
  · have := ok.listed_before hb
    rw [Block.stop] at this
    omega
  · obtain ⟨-, -, hstop, hmem⟩ := mem_blocksOf hb
    have := cells_pos ok hcells _ (List.mem_append_left _ hmem)
    simp only [Block.stop] at hstop this
    omega

theorem le_behind (hb : b ∈ behind p (p.start + span B₁ + n) B₂ Q) : p.start + span B₁ ≤ b.addr := by
  have hmarker : p.marker = p.start + span B₁ + n + span B₂ := by
    rw [Pool.marker, hcells]
    simp only [span_append, span_cons, span_nil]
    omega
  rcases List.mem_append.mp hb with hb | hb
  · rcases List.mem_append.mp hb with hb | hb
    · have := (mem_blocksOf hb).2.1
      omega
    · rw [Pool.mem_marks hb]
      simp only
      omega
  · have := ok.listed_behind hb
    rw [Pool.stop] at this
    omega

theorem behind_ne_nil : behind p (p.start + span B₁ + n) B₂ Q ≠ [] := by
  intro hnil
  obtain ⟨L, hL⟩ := ok.getLast_listed (by simp)
  rw [listed_live hcells, hnil, List.append_nil, List.append_nil] at hL
  have hlt := before_lt ok hcells (b := ⟨lastMarker (P ++ p :: Q), 0⟩) (by simp [hL])
  have hle := ok.marker_le_last (List.mem_append_right P (List.mem_cons_self (a := p) (l := Q)))
  rw [Pool.marker, hcells] at hle
  simp only [span_append] at hle hlt
  omega

theorem unmark_relinked (h : Heap k) :
    Relinked (InUse (P ++ p :: Q)) h (unmark h (p.start + span B₁) n) h.next
      (Function.update h.flagNsize (.block (p.start + span B₁)) n) := by
  have hlt := (ok.lives_bounds (live_mem ok hcells)).size
  have hn : n < sizeMod k := by
    rw [sizeMod_eq_double]
    simp only at hlt
    omega
  exact ((Relinked.refl _ h).setFlagNsize ok.allApart (InUse.of_lives (live_mem ok hcells))
    hn).statics rfl rfl rfl

/-- No link of the list is the freed one. -/
theorem freed_link_ne {r : LinkPtr}
    (hr : r ∈ .anchor :: links (before P p B₁ ++ behind p (p.start + span B₁ + n) B₂ Q)) :
    r ≠ .block (p.start + span B₁) := by
  have hlisted : listed (P ++ p :: Q) = _ := listed_live hcells
  rw [List.nil_append] at hlisted
  intro he
  rcases List.mem_cons.mp hr with rfl | hr
  · cases he
  · obtain ⟨b, hb, rfl⟩ := List.mem_map.mp hr
    exact ok.lives_ne_listed (live_mem ok hcells) (hlisted ▸ hb) (LinkPtr.block.inj he).symm

theorem freed_nodup : (LinkPtr.anchor :: links (before P p B₁ ++ ([⟨p.start + span B₁, n⟩] ++
    behind p (p.start + span B₁ + n) B₂ Q))).Nodup := by
  have hlisted : listed (P ++ p :: Q) = _ := listed_live hcells
  rw [List.nil_append] at hlisted
  obtain ⟨-, hrest⟩ := List.nodup_cons.mp (hlisted ▸ ok.links_nodup)
  rw [links_append] at hrest
  refine List.nodup_cons.mpr ⟨fun hm => ?_, ?_⟩
  · obtain ⟨b, -, he⟩ := List.mem_map.mp hm
    cases he
  · rw [links_append, links_append]
    refine List.nodup_middle.mpr (List.nodup_cons.mpr ⟨fun hm => ?_, hrest⟩)
    refine freed_link_ne ok hcells (List.mem_cons_of_mem _ ?_) rfl
    rw [links_append]
    exact hm

/-- The free blocks and the freed one together do not fill the address space. -/
theorem freed_total : ((before P p B₁).map Block.size).sum + n +
    ((behind p (p.start + span B₁ + n) B₂ Q).map Block.size).sum < sizeMod k := by
  have hlive : n ≤ ((lives (P ++ p :: Q)).map Block.size).sum :=
    List.single_le_sum (by simp) _ (List.mem_map_of_mem (f := Block.size) (live_mem ok hcells))
  have hsum := sum_blocks_le k (P ++ p :: Q)
  have htotal := ok.total
  rw [listed_live hcells, List.nil_append, List.map_append, List.sum_append] at hsum
  omega

theorem insertable (rep : Represents h (P ++ p :: Q)) :
    Insertable (InUse (P ++ p :: Q)) (unmark h (p.start + span B₁) n) (before P p B₁)
      ⟨p.start + span B₁, n⟩ (behind p (p.start + span B₁ + n) B₂ Q) := by
  have hx := live_mem ok hcells
  have hlisted : listed (P ++ p :: Q) = _ := listed_live hcells
  have R := unmark_relinked ok hcells h
  have hlinks := fun r hr => freed_link_ne ok hcells (r := r) hr
  have hnodup := freed_nodup ok hcells
  have htotal := freed_total ok hcells
  have hbefore := fun b hb => before_lt ok hcells (b := b) hb
  have hle := fun b hb => le_behind ok hcells (b := b) hb
  have hne := behind_ne_nil ok hcells
  generalize p.start + span B₁ = a at *
  generalize before P p B₁ = A at *
  generalize behind p (a + n) B₂ Q = C at *
  rw [List.nil_append] at hlisted
  have hmem : ∀ b ∈ A ++ ([⟨a, n⟩] ++ C), b ∈ listed (P ++ p :: Q) ∨ b ∈ lives (P ++ p :: Q) := by
    intro b hb
    rw [hlisted]
    simp only [List.mem_append, List.mem_singleton] at hb ⊢
    rcases hb with hb | rfl | hb
    · exact .inl (.inl hb)
    · exact .inr hx
    · exact .inl (.inr hb)
  have hlists := hlisted ▸ rep.lists
  refine ⟨ok.allApart, trivial, ⟨hlists.linked.congr fun r hr => ?_, fun b hb => ?_⟩,
    fun b hb => ?_, fun b hb => ?_, ?_, hnodup, hbefore, ?_, ?_, ?_⟩
  · rw [Heap.follow, Heap.follow, R.next r (InUse.of_links (fun b hb => hlisted ▸ hb) hr)]
  · rw [R.flagNsize _ (InUse.of_listed (hlisted ▸ hb)), Function.update_of_ne]
    · exact hlists.sizes b hb
    · exact hlinks _ (List.mem_cons_of_mem _ (List.mem_map_of_mem hb))
  · exact (hmem b hb).elim InUse.of_listed InUse.of_lives
  · exact (hmem b hb).elim ok.listed_bounds ok.lives_bounds
  · exact (R.flagNsize _ (InUse.of_lives hx)).trans (Function.update_self _ _ _)
  · cases C with
    | nil => exact absurd rfl hne
    | cons c C => exact hle c List.mem_cons_self
  · simp only [List.map_append, List.map_cons, List.map_nil, List.sum_append, List.sum_cons,
      List.sum_nil]
    omega
  · have := ok.listed_length
    rw [hlisted, List.length_append] at this
    omega

/-- The blocks that stay live are not touched: theirs is not the freed header, and
none on the list. -/
theorem live_outside (hb : b ∈ lives (freeCell P p Q B₁ n B₂)) : b ∈ lives (P ++ p :: Q) ∧
    b.link ≠ .block (p.start + span B₁) ∧
    b.link ∉ .anchor :: links (before P p B₁ ++ ([⟨p.start + span B₁, n⟩] ++
      behind p (p.start + span B₁ + n) B₂ Q)) := by
  obtain ⟨X, Y, hX, hXY⟩ := lives_freeCell ok hcells
  have hbold : b ∈ lives (P ++ p :: Q) := by
    rw [hXY] at hb
    rw [hX]
    simp only [List.mem_append] at hb ⊢
    tauto
  have hnx : b.link ≠ .block (p.start + span B₁) := by
    have hnodup := ok.lives_nodup
    rw [hX] at hnodup
    rw [hXY] at hb
    refine link_ne_of_nodup (c := ⟨p.start + span B₁, n⟩) (List.nodup_cons.mpr ⟨?_, hnodup⟩)
      (List.mem_cons_of_mem _ (List.mem_map_of_mem hb)) (List.mem_singleton_self _)
    intro hm
    obtain ⟨c, -, he⟩ := List.mem_map.mp hm
    cases he
  have hlisted : ∀ c, c ∈ before P p B₁ ∨ c ∈ behind p (p.start + span B₁ + n) B₂ Q →
      c ∈ listed (P ++ p :: Q) := fun c hc => by
    rw [listed_live hcells]
    simpa using hc
  refine ⟨hbold, hnx, fun hm => ?_⟩
  rcases List.mem_cons.mp hm with he | hm
  · cases he
  · obtain ⟨c, hc, he⟩ := List.mem_map.mp hm
    simp only [List.mem_append, List.mem_singleton] at hc
    rcases hc with hc | rfl | hc
    · exact ok.lives_ne_listed hbold (hlisted c (.inl hc)) (LinkPtr.block.inj he).symm
    · exact hnx he.symm
    · exact ok.lives_ne_listed hbold (hlisted c (.inr hc)) (LinkPtr.block.inj he).symm

/-- A pointer to a live block passes the check of its header. -/
theorem pfree_eq (rep : Represents h (P ++ p :: Q)) :
    pfree h (p.start + span B₁ + sizeofLink k) =
      (insertLink (unmark h (p.start + span B₁) n) (p.start + span B₁)).map
        fun h => ({ h with numFree := sizeAdd k h.numFree 1 } : Heap k) := by
  have hx := live_mem ok hcells
  have hbounds := ok.lives_bounds hx
  obtain ⟨hflag, hnext⟩ := rep.lives _ hx
  have hlink := sizeofLink_pos k
  have hplink : sizeSub k (p.start + span B₁ + sizeofLink k) (sizeofLink k) = p.start + span B₁ := by
    rw [sizeSub_eq (Nat.le_add_left _ _) hbounds.header, Nat.add_sub_cancel]
  have hflag' : h.flagNsize (.block (p.start + span B₁)) = n + pallocAllocated k := hflag
  have hnext' : h.next (.block (p.start + span B₁)) = 0 := hnext
  have hmarked := add_allocated_and hbounds.size
  have hclear := add_allocated_and_not hbounds.size
  simp only at hmarked hclear
  unfold pfree
  simp only [hplink, hflag', hnext', hclear]
  rw [if_neg (by omega), if_pos ⟨hmarked, trivial⟩]
  simp [unmark]

/-- **`pfree`** leads to the layout with the cell freed. -/
theorem pfree_represents (rep : Represents h (P ++ p :: Q)) :
    ∃ h', pfree h (p.start + span B₁ + sizeofLink k) = some h' ∧
      Represents h' (freeCell P p Q B₁ n B₂) ∧
      ∀ a, (∀ b ∈ headers (P ++ p :: Q), a < b ∨ b + sizeofLink k ≤ a) → h'.mem a = h.mem a := by
  have R := unmark_relinked ok hcells h
  obtain ⟨h₂, hrun, hins⟩ := (insertable ok hcells rep).inserted
  have hrun' : insertLink (unmark h (p.start + span B₁) n) (p.start + span B₁) = some h₂ := hrun
  have hlast : (unmark h (p.start + span B₁) n).ppoolLast = lastMarker (P ++ p :: Q) := by
    rw [← rep.ppoolLast]
    simp [unmark]
  rw [pfree_eq ok hcells rep, hrun']
  refine ⟨_, rfl, ⟨?_, fun b hb => ?_, ?_, ?_, ?_⟩, fun a ha => ?_⟩
  · rw [listed_freeCell ok hcells, ← hlast]
    exact hins.lists.statics rfl rfl rfl
  · obtain ⟨hbold, hnx, hout⟩ := live_outside ok hcells hb
    have hin := InUse.of_lives hbold
    have hkeep := rep.lives b hbold
    rw [← R.next _ hin, ← hins.next _ hin hout] at hkeep
    have hflags : h₂.flagNsize b.link = h.flagNsize b.link := by
      rw [hins.flagNsize _ hin hout, R.flagNsize _ hin, Function.update_of_ne hnx]
    rw [← hflags] at hkeep
    exact hkeep
  · rw [lastMarker_freeCell ok hcells, ← hlast]
    exact hins.ppoolLast
  · have htotal := freed_total ok hcells
    have hold := rep.freeSize
    rw [listed_freeCell ok hcells, sum_insertBlock]
    change h₂.freeSize = _
    rw [hins.freeSize]
    change sizeAdd k h.freeSize n = _
    rw [listed_live hcells, List.nil_append, List.map_append, List.sum_append] at hold
    have hblock : (⟨p.start + span B₁, n⟩ : Block).size = n := rfl
    rw [sizeAdd_eq (by omega), hblock]
    omega
  · rw [regions_freeCell ok hcells, ← rep.poolSize]
    change h₂.poolSize = _
    rw [hins.poolSize]
    simp [unmark]
  · have hclear : ∀ b, InUse (P ++ p :: Q) (.block b) → a < b ∨ b + sizeofLink k ≤ a := ha
    change h₂.mem a = _
    rw [hins.outside a hclear, R.outside a hclear]

end Represents

end Sdkz.Palloc
