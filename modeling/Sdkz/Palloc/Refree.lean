import Sdkz.Palloc.Confluence
import Sdkz.Palloc.Counters

/-! # Repeated frees

The header of a block that was freed may be a listed one by now, or lie stale inside a
larger free block. In neither case does it carry the flag: every size that is stored
by a free is without it, and later frees store to headers of blocks only. So `pfree`
turns down what was freed before. -/

namespace Sdkz.Palloc
open Sdkz.Base

variable {k : Nat} {h h' : Heap k} {ps ps' P Q : List Pool} {p : Pool} {b : Block} {n : Nat}
  {B₁ B₂ : List Cell}

/-! ## Headers -/

/-- Joining two cells leaves no new header. -/
theorem headersOf_join {a : Nat} {B C : List Cell} {c d e : Cell} (he : e.size = c.size + d.size) :
    ∀ x ∈ headersOf a (B ++ e :: C), x ∈ headersOf a (B ++ c :: d :: C) := by
  intro x hx
  rw [headersOf_append] at hx ⊢
  simp only [headersOf, List.mem_append, List.mem_cons, he, Nat.add_assoc] at hx ⊢
  tauto

/-- The state of a cell does not matter. -/
theorem headersOf_congr {a : Nat} {B C : List Cell} {c d : Cell} (hs : c.size = d.size) :
    headersOf a (B ++ c :: C) = headersOf a (B ++ d :: C) := by
  rw [headersOf_append, headersOf_append, headersOf, headersOf, hs]

theorem headersOf_freed {a : Nat} :
    ∀ x ∈ headersOf a (freedCells B₁ n B₂), x ∈ headersOf a (B₁ ++ ([⟨n, true⟩] ++ B₂)) := by
  intro x hx
  have hfree : headersOf a (B₁ ++ (⟨n, false⟩ :: B₂)) = headersOf a (B₁ ++ ([⟨n, true⟩] ++ B₂)) :=
    headersOf_congr rfl
  rw [← hfree]
  unfold freedCells freedSize at hx
  -- first the cell behind is split off again, then the one before
  have hright : x ∈ headersOf a ((joinLeft B₁ n).1 ++ ⟨(joinLeft B₁ n).2, false⟩ :: B₂) := by
    rcases joinRight_cases (joinLeft B₁ n).2 B₂ with ⟨m, hB, hs⟩ | ⟨he, -⟩
    · rw [hB]
      exact headersOf_join hs x hx
    · rw [he] at hx
      exact hx
  rcases joinLeft_cases B₁ n with ⟨m, hB, hs⟩ | ⟨he, -⟩
  · have hjoin := headersOf_join (B := (joinLeft B₁ n).1) (C := B₂) (c := ⟨m, false⟩)
      (d := ⟨n, false⟩) (e := ⟨(joinLeft B₁ n).2, false⟩) hs x hright
    rw [hB]
    simpa using hjoin
  · rw [he] at hright
    exact hright

theorem headers_freeCell (hcells : p.cells = B₁ ++ ([⟨n, true⟩] ++ B₂)) :
    ∀ x ∈ headers (freeCell P p Q B₁ n B₂), x ∈ headers (P ++ p :: Q) := by
  intro x hx
  obtain ⟨q, hq, hxq⟩ := List.mem_flatMap.mp hx
  refine List.mem_flatMap.mpr ?_
  rcases List.mem_append.mp hq with hq | hq
  · exact ⟨q, List.mem_append_left _ hq, hxq⟩
  · rcases List.mem_cons.mp hq with rfl | hq
    · refine ⟨p, List.mem_append_right _ List.mem_cons_self, ?_⟩
      rw [Pool.headers, hcells]
      exact headersOf_freed x hxq
    · exact ⟨q, List.mem_append_right _ (List.mem_cons_of_mem p hq), hxq⟩

/-! ## Flags -/

/-- The insertion stores sizes of listed blocks only. -/
theorem Insertable.flags {S : LinkPtr → Prop} {A C : List Block} {x : Block}
    (I : Insertable S h A x C) (hrun : insertLink h x.addr = some h') {r : LinkPtr} (hr : S r) :
    h'.flagNsize r = h.flagNsize r ∨
      ∃ y ∈ insertBlock h.ppoolLast A x C, h'.flagNsize r = y.size := by
  obtain ⟨A', x', hbefore⟩ : ∃ A' x', joinBefore A x = (A', x') := ⟨_, _, rfl⟩
  obtain ⟨y, C', hafter⟩ : ∃ y C', joinAfter h.ppoolLast x' C = (y, C') := ⟨_, _, rfl⟩
  obtain ⟨h₁, hprev, hx', R, -⟩ := I.joins hbefore hafter
  have hitor := I.links_inUse (prev_mem A C)
  have hflags : h'.flagNsize r = Function.update h.flagNsize x'.link y.size r := by
    simp only [insertLink, I.loop, hprev] at hrun
    split at hrun
    · obtain rfl := Option.some.inj hrun
      rw [flagNsize_setNext I.apart hitor hr, R.flagNsize r hr]
    · obtain rfl := Option.some.inj hrun
      exact R.flagNsize r hr
  by_cases he : r = x'.link
  · refine .inr ⟨y, ?_, by rw [hflags, he, Function.update_self]⟩
    simp only [insertBlock, hbefore, hafter]
    simp
  · exact .inl (hflags.trans (Function.update_of_ne he _ _))

theorem flagNsize_count {r : LinkPtr} {v : Nat} :
    ({ h with numFree := v } : Heap k).flagNsize r = h.flagNsize r := by
  cases r <;> rfl

/-- `pfree` on a layout once more: it leaves no flag where it stores a size, and counts. -/
theorem pfree_flags (ok : LayoutOk k (P ++ p :: Q)) (hcells : p.cells = B₁ ++ ([⟨n, true⟩] ++ B₂))
    (rep : Represents h (P ++ p :: Q))
    (hrun : pfree h (p.start + span B₁ + sizeofLink k) = some h') :
    h'.numFree = sizeAdd k h.numFree 1 ∧
      h'.flagNsize (.block (p.start + span B₁)) < pallocAllocated k ∧
      ∀ r, InUse (P ++ p :: Q) r → h'.flagNsize r = h.flagNsize r ∨
        h'.flagNsize r < pallocAllocated k := by
  have R := unmark_relinked ok hcells h
  have I := insertable ok hcells rep
  have hx : InUse (P ++ p :: Q) (.block (p.start + span B₁)) := InUse.of_lives (live_mem ok hcells)
  have hn : n < pallocAllocated k := (ok.lives_bounds (live_mem ok hcells)).size
  have hlast : (unmark h (p.start + span B₁) n).ppoolLast = lastMarker (P ++ p :: Q) := by
    rw [← rep.ppoolLast]
    simp [unmark]
  rw [pfree_eq ok hcells rep] at hrun
  obtain ⟨h₁, hinsert, rfl⟩ := Option.map_eq_some_iff.mp hrun
  have hsizes : ∀ r, InUse (P ++ p :: Q) r →
      h₁.flagNsize r = (unmark h (p.start + span B₁) n).flagNsize r ∨
        h₁.flagNsize r < pallocAllocated k := by
    intro r hr
    refine (I.flags hinsert hr).imp id ?_
    rintro ⟨y, hy, he⟩
    rw [hlast, ← listed_freeCell ok hcells] at hy
    rw [he]
    exact ((freeCell_ok ok hcells).listed_bounds hy).size
  refine ⟨?_, ?_, fun r hr => ?_⟩
  · change sizeAdd k h₁.numFree 1 = _
    have hsame := (unmark_counters h (p.start + span B₁) n).trans (insertLink_counters hinsert)
    exact congrArg (sizeAdd k · 1) hsame.numFree
  · rw [flagNsize_count]
    rcases hsizes _ hx with he | hlt
    · rwa [he, R.flagNsize _ hx, Function.update_self]
    · exact hlt
  · rw [flagNsize_count]
    rcases hsizes r hr with he | hlt
    · by_cases hrx : r = .block (p.start + span B₁)
      · right
        rwa [he, R.flagNsize r hr, hrx, Function.update_self]
      · left
        rw [he, R.flagNsize r hr, Function.update_of_ne hrx]
    · exact .inr hlt

/-! ## Runs of frees -/

/-- The blocks behind the pointers `l` were freed, from the layout `ps` on. -/
structure Spent (ps : List Pool) (count : Nat) (l : List Nat) (h : Heap k) (ps' : List Pool) :
    Prop where
  freed : Freed k ps l ps'
  rep : Represents h ps'
  nodup : l.Nodup
  headers : ∀ x ∈ headers ps', x ∈ Palloc.headers ps
  clear : ∀ b ∈ lives ps, payload k b ∈ l → h.flagNsize b.link < pallocAllocated k
  counted : h.numFree = (sizeAdd k · 1)^[l.length] count

section Spent
variable {l : List Nat} {count : Nat}

theorem Spent.start (ok : LayoutOk k ps) (rep : Represents h ps) : Spent ps h.numFree [] h ps :=
  ⟨Freed.refl ok, rep, List.nodup_nil, fun _ hx => hx, fun _ _ hm => absurd hm List.not_mem_nil, rfl⟩

/-- What was freed is turned down. -/
theorem Spent.again (S : Spent ps count l h ps') (ok : LayoutOk k ps) (hb : b ∈ lives ps)
    (hl : payload k b ∈ l) : pfree h (payload k b) = some h := by
  have hclear := and_allocated (S.clear b hb hl)
  simp only [pfree, ok.link_of_payload hb]
  rw [if_neg (payload_ne_zero k b)]
  exact if_neg fun hlive => hlive.1 hclear

/-- One more block is freed. -/
theorem Spent.step (S : Spent ps count l h ps') (ok : LayoutOk k ps) (hb : b ∈ lives ps)
    (hl : payload k b ∉ l) :
    ∃ h' ps'', pfree h (payload k b) = some h' ∧ Spent ps count (payload k b :: l) h' ps'' := by
  have hb' : b ∈ lives ps' := by
    rw [S.freed.lives]
    exact List.mem_filter.mpr ⟨hb, by simpa using hl⟩
  obtain ⟨P, p, Q, B₁, B₂, rfl, hcells, haddr⟩ := lives_split hb'
  have hcells : p.cells = B₁ ++ ([⟨b.size, true⟩] ++ B₂) := hcells
  obtain ⟨h', hrun, hrep, hmem⟩ := pfree_represents S.freed.ok hcells S.rep
  obtain ⟨hcount, hflag, hflags⟩ := pfree_flags S.freed.ok hcells S.rep hrun
  have hfreed := S.freed.step ok hcells
  have hblock : (⟨p.start + span B₁, b.size⟩ : Block) = b := by rw [← haddr]
  have hptr : p.start + span B₁ + sizeofLink k = payload k b := by rw [payload, haddr]
  rw [hblock] at hfreed
  rw [hptr] at hrun
  refine ⟨h', _, hrun, hfreed, hrep, List.nodup_cons.mpr ⟨hl, S.nodup⟩, fun x hx => ?_,
    fun c hc hcl => ?_, ?_⟩
  · exact S.headers x (headers_freeCell hcells x hx)
  · rcases List.mem_cons.mp hcl with he | hcl
    · have hlink : c.link = .block (p.start + span B₁) := by
        rw [Block.link, Nat.add_right_cancel he, haddr]
      rw [hlink]
      exact hflag
    · have hold := S.clear c hc hcl
      by_cases hin : InUse (P ++ p :: Q) c.link
      · rcases hflags _ hin with he | hlt
        · rwa [he]
        · exact hlt
      · -- a stale header is apart from those that are in use
        have hsame : h'.flagNsize c.link = h.flagNsize c.link := by
          refine Memory.load_congr fun a hle hlt => hmem a fun x hx => ?_
          have hapart := ok.allApart c.link (.block x) (InUse.of_lives hc) (S.headers x hx)
          rw [sizeofLink_eq]
          rcases hapart with he | hapart
          · exact absurd (he ▸ hx : InUse (P ++ p :: Q) c.link) hin
          · simp only [Block.link, Apart, sizeofLink_eq] at hapart
            omega
        rwa [hsame]
  · rw [hcount, S.counted, List.length_cons, Function.iterate_succ_apply']

/-- **Any frees** of what was live, with repetitions: each block is freed once. -/
theorem Spent.run {fs : List Nat} (S : Spent ps count l h ps') (ok : LayoutOk k ps)
    (hlive : ∀ a ∈ fs, ∃ b ∈ lives ps, a = payload k b) :
    ∃ h' ps'' l', freeAll h fs = some h' ∧ Spent ps count l' h' ps'' ∧
      ∀ a, a ∈ l' ↔ a ∈ fs ∨ a ∈ l := by
  induction fs generalizing h ps' l with
  | nil => exact ⟨h, ps', l, rfl, S, by simp⟩
  | cons a fs ih =>
    obtain ⟨b, hb, rfl⟩ := hlive a List.mem_cons_self
    have hrest : ∀ c ∈ fs, ∃ b ∈ lives ps, c = payload k b :=
      fun c hc => hlive c (List.mem_cons_of_mem _ hc)
    by_cases hl : payload k b ∈ l
    · obtain ⟨h', ps'', l', hrun, S', hmem⟩ := ih S hrest
      refine ⟨h', ps'', l', ?_, S', fun c => ?_⟩
      · rw [freeAll_cons, S.again ok hb hl]
        exact hrun
      · rw [hmem, List.mem_cons]
        constructor
        · tauto
        · rintro ((rfl | hc) | hc)
          · exact .inr hl
          · exact .inl hc
          · exact .inr hc
    · obtain ⟨h₁, ps₁, hfree, S₁⟩ := S.step ok hb hl
      obtain ⟨h', ps'', l', hrun, S', hmem⟩ := ih S₁ hrest
      refine ⟨h', ps'', l', ?_, S', fun c => ?_⟩
      · rw [freeAll_cons, hfree]
        exact hrun
      · rw [hmem, List.mem_cons, List.mem_cons]
        tauto

end Spent

/-! ## Sessions -/

/-- Frees of what is live lead to the same list and the same numbers, however often each
pointer occurs among them. -/
def Session.RepeatsHarmless (s : Session k) : Prop :=
  ∀ fs once : List Nat, (∀ a ∈ fs, a ∈ s.live) → once.Nodup → (∀ a, a ∈ once ↔ a ∈ fs) →
    ∃ h h' L, freeAll s.heap fs = some h ∧ freeAll s.heap once = some h' ∧ Lists h L ∧
      Lists h' L ∧ h.freeSize = h'.freeSize ∧ h.numFree = h'.numFree

theorem Valid.repeatsHarmless {s : Session k} (v : Valid s ps) : s.RepeatsHarmless := by
  intro fs once hlive _ hsame
  have hblock : ∀ l : List Nat, (∀ a ∈ l, a ∈ s.live) → ∀ a ∈ l, ∃ b ∈ lives ps, a = payload k b :=
    fun l hl a ha => v.block_of_live (hl a ha)
  have hstart := Spent.start v.ok v.rep
  obtain ⟨h, ps₁, l₁, hrun, S, hmem⟩ := hstart.run v.ok (hblock fs hlive)
  obtain ⟨h', ps₂, l₂, hrun', S', hmem'⟩ := hstart.run v.ok
    (hblock once fun a ha => hlive a ((hsame a).mp ha))
  have hl : ∀ a, a ∈ l₁ ↔ a ∈ l₂ := fun a => by
    rw [hmem, hmem', hsame]
  obtain rfl := S.freed.unique S'.freed hl
  have hperm : l₁.Perm l₂ := (List.perm_ext_iff_of_nodup S.nodup S'.nodup).mpr hl
  refine ⟨h, h', _, hrun, hrun', S.rep.lists, S'.rep.lists, S.rep.freeSize.trans S'.rep.freeSize.symm,
    ?_⟩
  rw [S.counted, S'.counted, hperm.length_eq]

/-- The session is there, and repeated frees are harmless. -/
def RepeatsHarmless (s : Option (Session k)) : Prop := ∃ t, s = some t ∧ t.RepeatsHarmless

/-- **Repeated frees** are harmless in every state of a run of admitted calls. -/
theorem always_repeats_harmless (k : Nat) (mem : Memory) (ops : List Op)
    (h : Guarded Session.calls Admitted (some (Session.initial k mem)) ops) :
    Always Session.calls RepeatsHarmless (some (Session.initial k mem)) ops := by
  intro l hl
  obtain ⟨t, ps, hrun, hv⟩ := always_laid_calls h l hl
  exact ⟨t, hrun, hv.repeatsHarmless⟩

theorem requests_repeats_harmless :
    Always Session.calls RepeatsHarmless (some (Session.initial 2 fun _ => 0))
      [.init ⟨4096, 4352⟩, .palloc 10, .pcalloc 3 5, .pfree 4104] :=
  always_repeats_harmless 2 _ _ (admitted_of_proper requests_proper)

/-- After a request that wraps when it is rounded, the block in front is joined with one that
carries the flag, and is freed twice. -/
theorem rounding_freed_twice :
    Guarded Session.next Permitted (some (Session.initial 2 fun _ => 0))
        [.init ⟨4096, 4352⟩, .palloc 8, .palloc 4294967287] ∧
      ¬ Always Session.calls RepeatsHarmless (some (Session.initial 2 fun _ => 0))
        [.init ⟨4096, 4352⟩, .palloc 8, .palloc 4294967287] := by
  constructor
  · refine guarded_cons.mpr ⟨(guarded_cons.mp rounding_permitted).1, guarded_cons.mpr ⟨?_,
      guarded_cons.mpr ⟨?_, guarded_nil⟩⟩⟩
    · exact fun t ht => show (8 + sizeofLink 2 < sizeMod 2) by decide
    · exact fun t ht => show (4294967287 + sizeofLink 2 < sizeMod 2) by decide
  · intro hall
    obtain ⟨t, hrun, hharmless⟩ := hall.last
    have hstate : ∀ u, [Op.init ⟨4096, 4352⟩, .palloc 8, .palloc 4294967287].foldl Session.calls
        (some (Session.initial 2 fun _ => 0)) = some u → u.live = [4120, 4104] ∧
          (freeAll u.heap [4104, 4104]).map Heap.numFree = some 2 ∧
          (freeAll u.heap [4104]).map Heap.numFree = some 1 := by
      decide +kernel
    obtain ⟨hlive, htwice, honce⟩ := hstate t hrun
    obtain ⟨h, h', L, hfs, hfs', -, -, -, hcount⟩ := hharmless [4104, 4104] [4104]
      (by rw [hlive]; decide) (by decide) (by simp)
    rw [hfs] at htwice
    rw [hfs'] at honce
    have h2 : h.numFree = 2 := Option.some.inj htwice
    have h1 : h'.numFree = 1 := Option.some.inj honce
    rw [h1, h2] at hcount
    cases hcount

end Sdkz.Palloc
