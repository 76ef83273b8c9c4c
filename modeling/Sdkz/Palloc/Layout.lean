import Mathlib.Data.List.Chain
import Mathlib.Algebra.Order.BigOperators.Group.List
import Sdkz.Palloc.Link

/-! # The layout of the pools

What the allocator is for: each pool is cut into cells, one behind the other up to
its end marker, and a cell is free or live. The allocator's list holds the free
cells and some of the markers, in address order. -/

namespace Sdkz.Palloc

/-- A block, or a marker if it is empty. -/
structure Block where
  addr : Nat
  size : Nat
deriving DecidableEq, Repr

def Block.stop (b : Block) : Nat := b.addr + b.size

structure Cell where
  size : Nat
  live : Bool
deriving DecidableEq, Repr

/-- What cells take together. -/
def span (cells : List Cell) : Nat := (cells.map Cell.size).sum

/-- The live or the free ones among cells that are laid out from `a` on. -/
def blocksOf (live : Bool) : Nat → List Cell → List Block
  | _, [] => []
  | a, c :: cells =>
    if c.live = live then ⟨a, c.size⟩ :: blocksOf live (a + c.size) cells
    else blocksOf live (a + c.size) cells

/-- Where the headers are: one for each cell, and the marker behind them. -/
def headersOf : Nat → List Cell → List Nat
  | a, [] => [a]
  | a, c :: cells => a :: headersOf (a + c.size) cells

/-- A pool; `marked` says whether its marker is on the list. -/
structure Pool where
  start : Nat
  cells : List Cell
  marked : Bool
deriving DecidableEq, Repr

namespace Pool

def marker (p : Pool) : Nat := p.start + span p.cells

/-- The end of the region. -/
def stop (k : Nat) (p : Pool) : Nat := p.marker + sizeofLink k

def marks (p : Pool) : List Block := if p.marked then [⟨p.marker, 0⟩] else []

def free (p : Pool) : List Block := blocksOf false p.start p.cells

def live (p : Pool) : List Block := blocksOf true p.start p.cells

def headers (p : Pool) : List Nat := headersOf p.start p.cells

end Pool

/-- The allocator's list. -/
def listed (ps : List Pool) : List Block := ps.flatMap fun p => p.free ++ p.marks

def lives (ps : List Pool) : List Block := ps.flatMap Pool.live

def headers (ps : List Pool) : List Nat := ps.flatMap Pool.headers

/-- The last marker in memory, null if there is no pool. -/
def lastMarker (ps : List Pool) : Nat := (ps.getLast?.map Pool.marker).getD 0

/-! ## Taking lists apart -/

section Split
variable {α β : Type*} {x : α} {xs ys zs ws : List α}

theorem append_eq_split (h : xs ++ ys = zs ++ x :: ws) :
    (∃ us, xs = zs ++ x :: us ∧ ws = us ++ ys) ∨ ∃ us, zs = xs ++ us ∧ ys = us ++ x :: ws := by
  rcases List.append_eq_append_iff.mp h with ⟨us, rfl, hys⟩ | ⟨us, rfl, hus⟩
  · exact .inr ⟨us, rfl, hys⟩
  · cases us with
    | nil => exact .inr ⟨[], by simp, by simpa using hus.symm⟩
    | cons u us =>
      obtain ⟨rfl, rfl⟩ := List.cons.inj hus
      exact .inl ⟨us, rfl, rfl⟩

theorem flatMap_eq_split {f : β → List α} {bs : List β} (h : bs.flatMap f = zs ++ x :: ws) :
    ∃ ps b qs us vs, bs = ps ++ b :: qs ∧ f b = us ++ x :: vs ∧ zs = ps.flatMap f ++ us ∧
      ws = vs ++ qs.flatMap f := by
  induction bs generalizing zs with
  | nil => simp at h
  | cons b bs ih =>
    rw [List.flatMap_cons] at h
    rcases append_eq_split h with ⟨vs, hb, hws⟩ | ⟨us, rfl, htail⟩
    · exact ⟨[], b, bs, zs, vs, rfl, hb, rfl, hws⟩
    · obtain ⟨ps, c, qs, us', vs, rfl, hc, rfl, hws⟩ := ih htail
      exact ⟨b :: ps, c, qs, us', vs, rfl, hc, by simp, hws⟩

end Split

/-! ## Cells -/

section Cells
variable {l : Bool} {a : Nat} {c : Cell} {cs ds : List Cell}

@[simp] theorem span_nil : span [] = 0 := rfl

@[simp] theorem span_cons (c : Cell) (cs : List Cell) : span (c :: cs) = c.size + span cs := by
  simp [span]

@[simp] theorem span_append (cs ds : List Cell) : span (cs ++ ds) = span cs + span ds := by
  simp [span]

theorem blocksOf_append : blocksOf l a (cs ++ ds) = blocksOf l a cs ++ blocksOf l (a + span cs) ds := by
  induction cs generalizing a with
  | nil => rfl
  | cons c cs ih =>
    simp only [List.cons_append, blocksOf, ih, span_cons, Nat.add_assoc]
    split <;> rfl

theorem headersOf_append :
    headersOf a (cs ++ ds) = (headersOf a cs).dropLast ++ headersOf (a + span cs) ds := by
  induction cs generalizing a with
  | nil => rfl
  | cons c cs ih =>
    have hne : headersOf (a + c.size) cs ≠ [] := by cases cs <;> simp [headersOf]
    rw [List.cons_append, headersOf, headersOf, ih, List.dropLast_cons_of_ne_nil hne, span_cons,
      Nat.add_assoc, List.cons_append]

theorem mem_headersOf {x : Nat} (h : x ∈ headersOf a cs) : a ≤ x ∧ x ≤ a + span cs := by
  induction cs generalizing a with
  | nil => simp_all [headersOf]
  | cons c cs ih =>
    rcases List.mem_cons.mp h with rfl | h
    · exact ⟨Nat.le_refl _, Nat.le_add_right _ _⟩
    · have := ih h
      rw [span_cons]
      omega

theorem marker_mem_headersOf (a : Nat) (cs : List Cell) : a + span cs ∈ headersOf a cs := by
  induction cs generalizing a with
  | nil => simp [headersOf]
  | cons c cs ih =>
    have := ih (a + c.size)
    rw [span_cons, ← Nat.add_assoc]
    exact List.mem_cons_of_mem a this

theorem mem_blocksOf {b : Block} (h : b ∈ blocksOf l a cs) :
    b.addr ∈ headersOf a cs ∧ a ≤ b.addr ∧ b.stop ≤ a + span cs ∧ ⟨b.size, l⟩ ∈ cs := by
  induction cs generalizing a with
  | nil => cases h
  | cons c cs ih =>
    rw [blocksOf] at h
    have hrest : b ∈ blocksOf l (a + c.size) cs → b.addr ∈ headersOf a (c :: cs) ∧ a ≤ b.addr ∧
        b.stop ≤ a + span (c :: cs) ∧ ⟨b.size, l⟩ ∈ c :: cs := by
      intro h
      obtain ⟨hh, hle, hstop, hmem⟩ := ih h
      rw [span_cons]
      exact ⟨List.mem_cons_of_mem a hh, by omega, by omega, List.mem_cons_of_mem c hmem⟩
    split at h
    · rename_i hl
      rcases List.mem_cons.mp h with rfl | h
      · refine ⟨by simp [headersOf], Nat.le_refl a, ?_, ?_⟩
        · simp only [Block.stop, span_cons]
          omega
        · rw [← hl]
          exact List.mem_cons_self
      · exact hrest h
    · exact hrest h

/-- The place of a block among the cells. -/
theorem blocksOf_split {A C : List Block} {b : Block} (h : blocksOf l a cs = A ++ b :: C) :
    ∃ B₁ B₂, cs = B₁ ++ ⟨b.size, l⟩ :: B₂ ∧ b.addr = a + span B₁ ∧ A = blocksOf l a B₁ ∧
      C = blocksOf l b.stop B₂ := by
  induction cs generalizing a A with
  | nil => simp [blocksOf] at h
  | cons c cs ih =>
    rw [blocksOf] at h
    split at h
    · rename_i hl
      cases A with
      | nil =>
        obtain ⟨rfl, rfl⟩ := List.cons.inj h
        refine ⟨[], cs, ?_, rfl, rfl, rfl⟩
        rw [← hl]
        rfl
      | cons x A =>
        obtain ⟨rfl, htail⟩ := List.cons.inj h
        obtain ⟨B₁, B₂, rfl, hb, rfl, hC⟩ := ih htail
        refine ⟨c :: B₁, B₂, rfl, ?_, ?_, hC⟩
        · rw [hb, span_cons, Nat.add_assoc]
        · rw [blocksOf, if_pos hl]
    · rename_i hl
      obtain ⟨B₁, B₂, rfl, hb, rfl, hC⟩ := ih h
      refine ⟨c :: B₁, B₂, rfl, ?_, ?_, hC⟩
      · rw [hb, span_cons, Nat.add_assoc]
      · rw [blocksOf, if_neg hl]

/-- Headers are at least a link apart if the cells are at least that large. -/
theorem headersOf_apart {n : Nat} (h : ∀ c ∈ cs, n ≤ c.size) :
    (headersOf a cs).Pairwise fun x y => x + n ≤ y := by
  induction cs generalizing a with
  | nil => exact List.pairwise_singleton _ _
  | cons c cs ih =>
    refine List.pairwise_cons.mpr ⟨fun y hy => ?_, ih fun d hd => h d (List.mem_cons_of_mem c hd)⟩
    have := (mem_headersOf hy).1
    have := h c List.mem_cons_self
    omega

/-- A block of one kind is no block of the other. -/
theorem blocksOf_ne {b d : Block} (hpos : ∀ c ∈ cs, 0 < c.size) (hb : b ∈ blocksOf true a cs)
    (hd : d ∈ blocksOf false a cs) : b.addr ≠ d.addr := by
  induction cs generalizing a with
  | nil => cases hb
  | cons c cs ih =>
    have hc := hpos c List.mem_cons_self
    have ih := ih (a := a + c.size) fun d hd => hpos d (List.mem_cons_of_mem c hd)
    rw [blocksOf] at hb hd
    cases hl : c.live with
    | true =>
      simp only [hl, if_true, List.mem_cons, Bool.true_eq_false, if_false] at hb hd
      have hlow := (mem_blocksOf hd).2.1
      rcases hb with rfl | hb
      · intro he
        simp only at he
        omega
      · exact ih hb hd
    | false =>
      simp only [hl, if_true, List.mem_cons, Bool.false_eq_true, if_false] at hb hd
      have hlow := (mem_blocksOf hb).2.1
      rcases hd with rfl | hd
      · intro he
        simp only at he
        omega
      · exact ih hb hd

end Cells

/-! ## Pools -/

/-- Neighbours that cannot be joined. -/
def NotBothFree (c d : Cell) : Prop := c.live = true ∨ d.live = true

/-- A pool as the allocator keeps it. -/
structure Pool.Ok (k : Nat) (p : Pool) : Prop where
  positive : 0 < p.start
  aligned : sizeofSizeT k ∣ p.start
  large : ∀ c ∈ p.cells, sizeofLink k ≤ c.size
  words : ∀ c ∈ p.cells, sizeofSizeT k ∣ c.size
  coalesced : p.cells.IsChain NotBothFree
  bounded : p.stop k < sizeMod k

/-- Memory that is given to the allocator. -/
structure Region where
  start : Nat
  stop : Nat
deriving DecidableEq, Repr

def Region.length (r : Region) : Nat := r.stop - r.start

def Pool.region (k : Nat) (p : Pool) : Region := ⟨p.start, p.stop k⟩

def regions (k : Nat) (ps : List Pool) : List Region := ps.map (Pool.region k)

/-- The layout of all pools, in address order. -/
structure LayoutOk (k : Nat) (ps : List Pool) : Prop where
  pools : ∀ p ∈ ps, p.Ok k
  ordered : (regions k ps).Pairwise fun r s => r.stop ≤ s.start
  marked : ∀ p, ps.getLast? = some p → p.marked = true
  /-- no size runs into the flag of a header -/
  small : ∀ r ∈ regions k ps, r.length < pallocAllocated k

section Pools
variable {k : Nat} {ps P Q : List Pool} {p : Pool} {b : Block}

theorem listed_append (P Q : List Pool) : listed (P ++ Q) = listed P ++ listed Q :=
  List.flatMap_append

theorem listed_cons (p : Pool) (Q : List Pool) :
    listed (p :: Q) = p.free ++ p.marks ++ listed Q := rfl

theorem lives_append (P Q : List Pool) : lives (P ++ Q) = lives P ++ lives Q :=
  List.flatMap_append

theorem lives_cons (p : Pool) (Q : List Pool) : lives (p :: Q) = p.live ++ lives Q := rfl

theorem Pool.mem_headers {x : Nat} (h : x ∈ p.headers) : p.start ≤ x ∧ x ≤ p.marker :=
  mem_headersOf h

theorem Pool.mem_free (h : b ∈ p.free) :
    b.addr ∈ p.headers ∧ p.start ≤ b.addr ∧ b.stop ≤ p.marker ∧ ⟨b.size, false⟩ ∈ p.cells :=
  mem_blocksOf h

theorem Pool.mem_live (h : b ∈ p.live) :
    b.addr ∈ p.headers ∧ p.start ≤ b.addr ∧ b.stop ≤ p.marker ∧ ⟨b.size, true⟩ ∈ p.cells :=
  mem_blocksOf h

theorem Pool.mem_marks (h : b ∈ p.marks) : b = ⟨p.marker, 0⟩ := by
  unfold Pool.marks at h
  split at h
  · exact List.mem_singleton.mp h
  · cases h

theorem mem_listed : b ∈ listed ps ↔ ∃ p ∈ ps, b ∈ p.free ∨ b ∈ p.marks := by
  simp [listed]

theorem mem_lives : b ∈ lives ps ↔ ∃ p ∈ ps, b ∈ p.live := by
  simp [lives]

theorem listed_header (h : b ∈ listed ps) : b.addr ∈ headers ps := by
  obtain ⟨p, hp, hb⟩ := mem_listed.mp h
  refine List.mem_flatMap.mpr ⟨p, hp, ?_⟩
  rcases hb with hb | hb
  · exact (Pool.mem_free hb).1
  · rw [Pool.mem_marks hb]
    exact marker_mem_headersOf p.start p.cells

theorem lives_header (h : b ∈ lives ps) : b.addr ∈ headers ps := by
  obtain ⟨p, hp, hb⟩ := mem_lives.mp h
  exact List.mem_flatMap.mpr ⟨p, hp, (Pool.mem_live hb).1⟩

/-- The headers of all pools are apart. -/
theorem LayoutOk.headers_apart (ok : LayoutOk k ps) :
    (headers ps).Pairwise fun x y => x + sizeofLink k ≤ y := by
  refine List.pairwise_flatMap.mpr ⟨fun p hp => headersOf_apart (ok.pools p hp).large, ?_⟩
  refine (List.pairwise_map.mp ok.ordered).imp fun {p q} h x hx y hy => ?_
  have := (Pool.mem_headers hx).2
  have := (Pool.mem_headers hy).1
  simp only [Pool.region, Pool.stop] at h
  omega

/-- The place of a block that is not empty, in its pool and on the list. -/
theorem listed_split {A C : List Block} (h : listed ps = A ++ b :: C) (hb : b.size ≠ 0) :
    ∃ P p Q B₁ B₂, ps = P ++ p :: Q ∧ p.cells = B₁ ++ ⟨b.size, false⟩ :: B₂ ∧
      b.addr = p.start + span B₁ ∧ A = listed P ++ blocksOf false p.start B₁ ∧
      C = blocksOf false b.stop B₂ ++ p.marks ++ listed Q := by
  obtain ⟨P, p, Q, A', C', rfl, hp, rfl, rfl⟩ := flatMap_eq_split h
  rcases append_eq_split hp with ⟨C'', hfree, rfl⟩ | ⟨A'', -, hmarks⟩
  · obtain ⟨B₁, B₂, hcells, haddr, rfl, rfl⟩ := blocksOf_split hfree
    exact ⟨P, p, Q, B₁, B₂, rfl, hcells, haddr, rfl, rfl⟩
  · have hm : b ∈ p.marks := by simp [hmarks]
    rw [Pool.mem_marks hm] at hb
    exact absurd rfl hb

theorem lives_split (h : b ∈ lives ps) :
    ∃ P p Q B₁ B₂, ps = P ++ p :: Q ∧ p.cells = B₁ ++ ⟨b.size, true⟩ :: B₂ ∧
      b.addr = p.start + span B₁ := by
  obtain ⟨p, hp, hb⟩ := mem_lives.mp h
  obtain ⟨P, Q, rfl⟩ := List.append_of_mem hp
  obtain ⟨A, C, hlive⟩ := List.append_of_mem hb
  obtain ⟨B₁, B₂, hcells, haddr, -, -⟩ := blocksOf_split hlive
  exact ⟨P, p, Q, B₁, B₂, rfl, hcells, haddr⟩

/-- Other cells in a pool of the same extent. -/
theorem LayoutOk.replace {q : Pool} (ok : LayoutOk k (P ++ p :: Q)) (hq : q.Ok k)
    (hregion : q.region k = p.region k) (hmark : Q = [] → q.marked = true) :
    LayoutOk k (P ++ q :: Q) := by
  have hregions : regions k (P ++ q :: Q) = regions k (P ++ p :: Q) := by
    simp [regions, hregion]
  refine ⟨fun r hr => ?_, hregions ▸ ok.ordered, fun r hr => ?_, hregions ▸ ok.small⟩
  · rcases List.mem_append.mp hr with hr | hr
    · exact ok.pools r (List.mem_append_left _ hr)
    · rcases List.mem_cons.mp hr with rfl | hr
      · exact hq
      · exact ok.pools r (List.mem_append_right _ (List.mem_cons_of_mem p hr))
  · cases Q with
    | nil =>
      rw [List.getLast?_concat] at hr
      obtain rfl := Option.some.inj hr
      exact hmark rfl
    | cons s Q =>
      refine ok.marked r ?_
      simpa [List.getLast?_append] using hr

theorem LayoutOk.pool (ok : LayoutOk k (P ++ p :: Q)) : p.Ok k :=
  ok.pools p (by simp)

/-- What is before a pool ends before it, and what is behind it begins behind it. -/
theorem LayoutOk.around (ok : LayoutOk k (P ++ p :: Q)) :
    (∀ q ∈ P, q.stop k ≤ p.start) ∧ ∀ q ∈ Q, p.stop k ≤ q.start := by
  have h := ok.ordered
  simp only [regions, List.map_append, List.map_cons, List.pairwise_append,
    List.pairwise_cons] at h
  obtain ⟨-, ⟨hQ, -⟩, hP⟩ := h
  refine ⟨fun q hq => ?_, fun q hq => ?_⟩
  · exact hP _ (List.mem_map_of_mem hq) _ List.mem_cons_self
  · exact hQ _ (List.mem_map_of_mem hq)

/-! ## A place in a pool

What some cells `D` in the middle of a pool contribute, between what is before
them and what is behind. -/

section Place
variable {B₁ D B₂ : List Cell}

theorem listed_place (hcells : p.cells = B₁ ++ (D ++ B₂)) :
    listed (P ++ p :: Q) = (listed P ++ blocksOf false p.start B₁) ++
      (blocksOf false (p.start + span B₁) D ++
        (blocksOf false (p.start + span B₁ + span D) B₂ ++ p.marks ++ listed Q)) := by
  rw [listed_append, listed_cons, Pool.free, hcells, blocksOf_append, blocksOf_append]
  simp only [List.append_assoc]

theorem lives_place (hcells : p.cells = B₁ ++ (D ++ B₂)) :
    lives (P ++ p :: Q) = (lives P ++ blocksOf true p.start B₁) ++
      (blocksOf true (p.start + span B₁) D ++
        (blocksOf true (p.start + span B₁ + span D) B₂ ++ lives Q)) := by
  rw [lives_append, lives_cons, Pool.live, hcells, blocksOf_append, blocksOf_append]
  simp only [List.append_assoc]

theorem lastMarker_replace {q : Pool} (h : q.marker = p.marker) :
    lastMarker (P ++ q :: Q) = lastMarker (P ++ p :: Q) := by
  unfold lastMarker
  cases Q with
  | nil => simp [h]
  | cons r Q => simp [List.getLast?_append]

end Place

/-! ## Sizes -/

theorem LayoutOk.region_length (ok : LayoutOk k ps) (hp : p ∈ ps) :
    p.stop k - p.start < pallocAllocated k :=
  ok.small _ (List.mem_map_of_mem hp)

theorem Pool.span_le (k : Nat) (p : Pool) : span p.cells + sizeofLink k = p.stop k - p.start := by
  rw [Pool.stop, Pool.marker]
  omega

/-- Regions in address order take no more room than there is. -/
theorem sum_length_le {rs : List Region} {lo hi : Nat}
    (ho : rs.Pairwise fun r s => r.stop ≤ s.start)
    (h : ∀ r ∈ rs, lo ≤ r.start ∧ r.start ≤ r.stop ∧ r.stop ≤ hi) :
    (rs.map Region.length).sum ≤ hi - lo := by
  induction rs generalizing lo with
  | nil => exact Nat.zero_le _
  | cons r rs ih =>
    obtain ⟨hbehind, ho⟩ := List.pairwise_cons.mp ho
    obtain ⟨hlo, hle, hhi⟩ := h r List.mem_cons_self
    have hrest : (rs.map Region.length).sum ≤ hi - r.stop :=
      ih ho fun s hs => ⟨hbehind s hs, (h s (List.mem_cons_of_mem r hs)).2⟩
    rw [List.map_cons, List.sum_cons, Region.length]
    omega

/-- The pools together do not fill the address space. -/
theorem LayoutOk.total (ok : LayoutOk k ps) :
    ((regions k ps).map Region.length).sum < sizeMod k := by
  have hmod : 0 < sizeMod k := Nat.two_pow_pos _
  have hle : ((regions k ps).map Region.length).sum ≤ sizeMod k - 1 - 0 := by
    refine sum_length_le ok.ordered fun r hr => ?_
    obtain ⟨p, hp, rfl⟩ := List.mem_map.mp hr
    have hlt := (ok.pools p hp).bounded
    simp only [Pool.region, Pool.stop, Pool.marker] at hlt ⊢
    omega
  omega

/-- The cells are free or live. -/
theorem sum_blocksOf (a : Nat) (cs : List Cell) : ((blocksOf false a cs).map Block.size).sum +
    ((blocksOf true a cs).map Block.size).sum = span cs := by
  induction cs generalizing a with
  | nil => rfl
  | cons c cs ih =>
    have hrest := ih (a + c.size)
    rw [blocksOf, blocksOf, span_cons]
    cases c.live <;> simp only [if_true, Bool.false_eq_true, Bool.true_eq_false, if_false,
      List.map_cons, List.sum_cons] <;> omega

theorem sum_blocks_le (k : Nat) (ps : List Pool) :
    ((listed ps).map Block.size).sum + ((lives ps).map Block.size).sum ≤
      ((regions k ps).map Region.length).sum := by
  induction ps with
  | nil => exact Nat.le_refl 0
  | cons p ps ih =>
    have hcells : (p.free.map Block.size).sum + (p.live.map Block.size).sum = span p.cells :=
      sum_blocksOf p.start p.cells
    have hmarks : (p.marks.map Block.size).sum = 0 := by
      unfold Pool.marks
      split <;> rfl
    have hspan := p.span_le k
    have hlen : (p.region k).length = p.stop k - p.start := rfl
    simp only [listed_cons, lives_cons, List.map_append, List.sum_append, hmarks, regions,
      List.map_cons, List.sum_cons, hlen] at ih ⊢
    omega

/-! ## The end of the list -/

theorem lastMarker_append : lastMarker (P ++ [p]) = p.marker := by
  simp [lastMarker]

theorem listed_append_last (hm : p.marked = true) :
    listed (P ++ [p]) = listed P ++ p.free ++ [⟨p.marker, 0⟩] := by
  simp [listed, Pool.marks, hm]

/-- The list ends with the last marker. -/
theorem LayoutOk.getLast_listed (ok : LayoutOk k ps) (hne : ps ≠ []) :
    ∃ L, listed ps = L ++ [⟨lastMarker ps, 0⟩] := by
  obtain ⟨P, p, rfl⟩ := (List.eq_nil_or_concat ps).resolve_left hne
  rw [List.concat_eq_append] at *
  have hm := ok.marked p (by simp)
  exact ⟨listed P ++ p.free, by rw [listed_append_last hm, lastMarker_append]⟩

/-- No pool ends behind the last marker. -/
theorem LayoutOk.marker_le_last (ok : LayoutOk k ps) (hp : p ∈ ps) : p.marker ≤ lastMarker ps := by
  obtain ⟨P, q, rfl⟩ := (List.eq_nil_or_concat ps).resolve_left (List.ne_nil_of_mem hp)
  rw [List.concat_eq_append] at *
  rw [lastMarker_append]
  rcases List.mem_append.mp hp with hp | hp
  · have := ok.around.1 p hp
    rw [Pool.stop] at this
    rw [Pool.marker, Pool.marker] at *
    omega
  · rw [List.mem_singleton.mp hp]

end Pools

end Sdkz.Palloc
