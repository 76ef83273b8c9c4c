import Sdkz.Base.Linked
import Sdkz.Palloc.Layout

/-! # The walks over the list

The three loops of the allocator, on a list that is linked in memory: each stops
where a look at the list says. None of them follows a null pointer, and `2 ^ w`
steps are enough for a list of blocks at different addresses. -/

namespace Sdkz.Palloc
open Sdkz.Base

variable {k : Nat} {h : Heap k} {r : LinkPtr} {A C L : List Block} {b : Block} {n : Nat}

def Block.link (b : Block) : LinkPtr := .block b.addr

def links (L : List Block) : List LinkPtr := L.map Block.link

/-- `next` as a reference. -/
def Heap.follow (h : Heap k) (r : LinkPtr) : Option LinkPtr := toLink (h.next r)

/-- The address of the first block, null if there is none. -/
def headAddr (L : List Block) : Nat := (L.head?.map Block.addr).getD 0

/-- No block is at the null address. -/
def NonNull (L : List Block) : Prop := ∀ b ∈ L, b.addr ≠ 0

theorem toLink_of_ne {a : Nat} (h : a ≠ 0) : toLink a = some (.block a) := if_neg h

theorem toLink_eq_none {a : Nat} : toLink a = none ↔ a = 0 := by
  unfold toLink
  split <;> simp_all

theorem toLink_eq_some {a : Nat} (h : toLink a = some b.link) : a = b.addr := by
  unfold toLink at h
  split at h
  · cases h
  · exact LinkPtr.block.inj (Option.some.inj h)

theorem toLink_headAddr (hpos : NonNull L) : toLink (headAddr L) = (links L).head? := by
  cases L with
  | nil => rfl
  | cons b L => exact toLink_of_ne (hpos b List.mem_cons_self)

@[simp] theorem links_append (A C : List Block) : links (A ++ C) = links A ++ links C :=
  List.map_append

@[simp] theorem links_cons (b : Block) (L : List Block) : links (b :: L) = b.link :: links L := rfl

@[simp] theorem links_nil : links [] = [] := rfl

/-- `next` of a link in front of a list. -/
theorem linked_next (hl : Linked h.follow r (links L)) : h.next r = headAddr L := by
  have hhead := hl.head
  cases L with
  | nil => exact toLink_eq_none.mp hhead
  | cons b L => exact toLink_eq_some hhead

theorem headAddr_ne (hpos : NonNull (A ++ b :: C)) : headAddr (A ++ b :: C) ≠ 0 := by
  cases A with
  | nil => exact hpos b (by simp)
  | cons a A => exact hpos a (by simp)

/-! ## The three loops -/

/-- The search stops at the first block that is large enough, or at the end. -/
theorem searchLoop_eq {fuel : Nat} (hl : Linked h.follow r (links (A ++ b :: C)))
    (hpos : NonNull (A ++ b :: C)) (hsize : ∀ x ∈ A ++ b :: C, h.flagNsize x.link = x.size)
    (hA : ∀ x ∈ A, x.size < n) (hstop : n ≤ b.size ∨ C = []) (hfuel : A.length < fuel) :
    searchLoop h n fuel r (headAddr (A ++ b :: C)) = some ((links A).getLastD r, b.addr) := by
  induction A generalizing r fuel with
  | nil =>
    cases fuel with
    | zero => cases hfuel
    | succ fuel =>
      have hnext : h.next b.link = headAddr C := linked_next hl.2
      have hb : h.flagNsize b.link = b.size := hsize b (by simp)
      have hdone : ¬ (h.flagNsize b.link < n ∧ h.next b.link ≠ 0) := by
        rintro ⟨hlt, hne⟩
        rcases hstop with hn | rfl
        · omega
        · exact hne hnext
      exact if_neg hdone
  | cons a A ih =>
    cases fuel with
    | zero => cases hfuel
    | succ fuel =>
      have hnext : h.next a.link = headAddr (A ++ b :: C) := linked_next hl.2
      have hne : headAddr (A ++ b :: C) ≠ 0 :=
        headAddr_ne fun x hx => hpos x (List.mem_cons_of_mem a hx)
      have ha : h.flagNsize a.link < n := by
        rw [hsize a (by simp)]
        exact hA a List.mem_cons_self
      have hgo : h.flagNsize a.link < n ∧ h.next a.link ≠ 0 := ⟨ha, hnext ▸ hne⟩
      have hlen : A.length < fuel := Nat.lt_of_succ_lt_succ hfuel
      have ih := ih hl.2 (fun x hx => hpos x (List.mem_cons_of_mem a hx))
        (fun x hx => hsize x (List.mem_cons_of_mem a hx))
        (fun x hx => hA x (List.mem_cons_of_mem a hx)) hlen
      rw [← hnext] at ih
      rw [links_cons, List.getLastD_cons]
      exact (if_pos hgo).trans ih

/-- The place of a block is behind the last one with a smaller address. -/
theorem insertLoop_eq {fuel : Nat} (hl : Linked h.follow r (links (A ++ C)))
    (hpos : NonNull A) (hA : ∀ x ∈ A, x.addr < n) (hC : n ≤ headAddr C) (hfuel : A.length < fuel) :
    insertLoop h n fuel r = some ((links A).getLastD r) := by
  induction A generalizing r fuel with
  | nil =>
    cases fuel with
    | zero => cases hfuel
    | succ fuel =>
      have hnext : h.next r = headAddr C := linked_next hl
      exact if_neg (by omega)
  | cons a A ih =>
    cases fuel with
    | zero => cases hfuel
    | succ fuel =>
      have hnext : h.next r = a.addr := linked_next hl
      have ha := hA a List.mem_cons_self
      have hlen : A.length < fuel := Nat.lt_of_succ_lt_succ hfuel
      have ih := ih hl.2 (fun x hx => hpos x (List.mem_cons_of_mem a hx))
        (fun x hx => hA x (List.mem_cons_of_mem a hx)) hlen
      rw [insertLoop, if_pos (by omega), hnext, toLink_of_ne (hpos a List.mem_cons_self), links_cons,
        List.getLastD_cons]
      exact ih

/-- The place of a pool; the last block in front of it matters only if there is
one behind it. -/
theorem initLoop_eq {fuel : Nat} (hl : Linked h.follow r (links (A ++ C)))
    (hpos : NonNull (A ++ C)) (hA : ∀ x ∈ A, x.addr < n) (hC : C ≠ [] → n ≤ headAddr C)
    (hfuel : A.length < fuel) :
    ∃ prev, initLoop h n fuel r (headAddr (A ++ C)) = some (prev, headAddr C) ∧
      (C ≠ [] → prev = (links A).getLastD r) := by
  induction A generalizing r fuel with
  | nil =>
    cases fuel with
    | zero => cases hfuel
    | succ fuel =>
      refine ⟨r, if_neg ?_, fun _ => rfl⟩
      rintro ⟨hne, hlt⟩
      cases C with
      | nil => exact hne rfl
      | cons c C =>
        have := hC (by simp)
        simp only [List.nil_append] at hlt
        omega
  | cons a A ih =>
    cases fuel with
    | zero => cases hfuel
    | succ fuel =>
      have hnext : h.next a.link = headAddr (A ++ C) := linked_next hl.2
      have ha : headAddr (a :: A ++ C) ≠ 0 ∧ headAddr (a :: A ++ C) < n :=
        ⟨hpos a (by simp), hA a List.mem_cons_self⟩
      have hgo : ∀ s, (A ++ C ≠ [] → s = a.link) → ∃ prev,
          initLoop h n fuel s (headAddr (A ++ C)) = some (prev, headAddr C) ∧
            (C ≠ [] → prev = (links A).getLastD a.link) := by
        intro s hs
        cases hAC : A ++ C with
        | nil =>
          obtain ⟨rfl, rfl⟩ := List.append_eq_nil_iff.mp hAC
          obtain ⟨fuel, rfl⟩ : ∃ f, fuel = f + 1 := ⟨fuel - 1, by simp at hfuel; omega⟩
          exact ⟨s, if_neg fun h => h.1 rfl, fun h => absurd rfl h⟩
        | cons x L =>
          rw [hs (by simp [hAC]), ← hAC]
          exact ih hl.2 (fun x hx => hpos x (List.mem_cons_of_mem a hx))
            (fun x hx => hA x (List.mem_cons_of_mem a hx))
            (by simpa using Nat.lt_of_succ_lt_succ hfuel)
      obtain ⟨prev, hrun, hprev⟩ := hgo (if h.next a.link ≠ 0 then a.link else r) fun hne => by
        have hnz : headAddr (A ++ C) ≠ 0 := by
          cases hAC : A ++ C with
          | nil => exact absurd hAC hne
          | cons x L => exact hpos x (by simp [hAC])
        rw [if_pos (hnext ▸ hnz)]
      rw [← hnext] at hrun
      refine ⟨prev, (if_pos ha).trans hrun, fun hne => ?_⟩
      rw [hprev hne, links_cons, List.getLastD_cons]

end Sdkz.Palloc
