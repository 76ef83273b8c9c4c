import Sdkz.Palloc.Represents

/-! # `_insert_link` on a list

A block is put between the blocks before it and the ones behind it; it is joined
with the neighbours it touches, but never with the last marker. -/

namespace Sdkz.Palloc
open Sdkz.Base

variable {k : Nat} {h h' : Heap k} {A C : List Block} {x : Block} {last : Nat}
  {S : LinkPtr → Prop} {next flag : LinkPtr → Nat}

/-- The block joined with the last one of `A`, if they touch. -/
def joinBefore (A : List Block) (x : Block) : List Block × Block :=
  match A.getLast? with
  | some a => if a.stop = x.addr then (A.dropLast, ⟨a.addr, a.size + x.size⟩) else (A, x)
  | none => (A, x)

/-- The block joined with the first one of `C`, if they touch. -/
def joinAfter (last : Nat) (x : Block) : List Block → Block × List Block
  | [] => (x, [])
  | c :: C => if x.stop = c.addr ∧ c.addr ≠ last then (⟨x.addr, x.size + c.size⟩, C) else (x, c :: C)

/-- The list behind the insertion. -/
def insertBlock (last : Nat) (A : List Block) (x : Block) (C : List Block) : List Block :=
  let (A, x) := joinBefore A x
  let (x, C) := joinAfter last x C
  A ++ ([x] ++ C)

theorem joinBefore_concat {A : List Block} {a : Block} :
    joinBefore (A ++ [a]) x =
      if a.stop = x.addr then (A, ⟨a.addr, a.size + x.size⟩) else (A ++ [a], x) := by
  simp [joinBefore]

theorem joinBefore_cases (A : List Block) (x : Block) :
    joinBefore A x = (A, x) ∨ ∃ A₀ a, A = A₀ ++ [a] ∧ a.stop = x.addr ∧
      joinBefore A x = (A₀, ⟨a.addr, a.size + x.size⟩) := by
  rcases List.eq_nil_or_concat A with rfl | ⟨A, a, rfl⟩
  · exact .inl rfl
  · rw [List.concat_eq_append, joinBefore_concat]
    split
    · rename_i htouch
      exact .inr ⟨A, a, rfl, htouch, rfl⟩
    · exact .inl rfl

theorem joinAfter_addr : (joinAfter last x C).1.addr = x.addr := by
  cases C with
  | nil => rfl
  | cons c C =>
    rw [joinAfter]
    split <;> rfl

/-- What is joined is a first part of the list behind the block. -/
theorem joinAfter_suffix : ∃ D, C = D ++ (joinAfter last x C).2 := by
  cases C with
  | nil => exact ⟨[], rfl⟩
  | cons c C =>
    rw [joinAfter]
    split
    · exact ⟨[c], rfl⟩
    · exact ⟨[], rfl⟩

/-- Nothing is lost or gained. -/
theorem sum_insertBlock : ((insertBlock last A x C).map Block.size).sum =
    (A.map Block.size).sum + x.size + (C.map Block.size).sum := by
  have hafter : ∀ x : Block, (joinAfter last x C).1.size +
      ((joinAfter last x C).2.map Block.size).sum = x.size + (C.map Block.size).sum := by
    intro x
    cases C with
    | nil => rfl
    | cons c C =>
      rw [joinAfter]
      split
      · simp only [List.map_cons, List.sum_cons]
        omega
      · rfl
  have hsum := hafter (joinBefore A x).2
  simp only [insertBlock, List.map_append, List.map_cons, List.map_nil, List.sum_append,
    List.sum_cons, List.sum_nil]
  rcases joinBefore_cases A x with hb | ⟨A₀, a, rfl, -, hb⟩
  · rw [hb] at hsum ⊢
    simp only at hsum ⊢
    omega
  · rw [hb] at hsum ⊢
    simp only [List.map_append, List.map_cons, List.map_nil, List.sum_append, List.sum_cons,
      List.sum_nil] at hsum ⊢
    omega

/-! ## The two joins -/

theorem joinPrev_relinked (hS : AllApart k S) (hxs : h.flagNsize x.link = x.size)
    (hA : ∀ a ∈ A, S a.link ∧ h.flagNsize a.link = a.size ∧ a.stop < sizeMod k ∧
      a.size + x.size < sizeMod k) :
    ∃ h₁, joinPrev h ((links A).getLastD .anchor) x.addr = (h₁, (joinBefore A x).2.addr) ∧
      Relinked S h h₁ h.next
        (Function.update h.flagNsize (joinBefore A x).2.link (joinBefore A x).2.size) ∧
      h₁.ppoolLast = h.ppoolLast ∧ h₁.freeSize = h.freeSize ∧ h₁.poolSize = h.poolSize := by
  have hsame : Relinked S h h h.next (Function.update h.flagNsize x.link x.size) := by
    rw [← hxs, Function.update_eq_self]
    exact Relinked.refl S h
  rcases List.eq_nil_or_concat A with rfl | ⟨A, a, rfl⟩
  · exact ⟨h, rfl, hsame, rfl, rfl, rfl⟩
  · rw [List.concat_eq_append] at *
    obtain ⟨ha, has, hstop, hsum⟩ := hA a (by simp)
    have hlast : (links (A ++ [a])).getLastD .anchor = .block a.addr := by
      simp [Block.link]
    have hadd : sizeAdd k a.addr a.size = a.stop := sizeAdd_eq hstop
    have has' : h.flagNsize (.block a.addr) = a.size := has
    have hxs' : h.flagNsize (.block x.addr) = x.size := hxs
    rw [joinBefore_concat, hlast]
    simp only [joinPrev, has', hadd, hxs']
    split
    · rw [sizeAdd_eq hsum]
      exact ⟨_, rfl, (Relinked.refl S h).setFlagNsize hS ha hsum, by simp, by simp, by simp⟩
    · exact ⟨h, rfl, hsame, rfl, rfl, rfl⟩

theorem joinNext_relinked {c : Block} {r : LinkPtr} (hS : AllApart k S)
    (R : Relinked S h h' next flag) (hr : S r) (hx : S x.link) (hc : S c.link)
    (hxs : flag x.link = x.size) (hcs : flag c.link = c.size) (hrn : next r = c.addr)
    (hcn : next c.link = headAddr C) (hlast : h'.ppoolLast = last) (hxstop : x.stop < sizeMod k)
    (hsum : x.size + c.size < sizeMod k) (hcaddr : c.addr < sizeMod k)
    (hC : headAddr C < sizeMod k) :
    Relinked S h (joinNext h' r x.addr)
        (Function.update next x.link (headAddr (joinAfter last x (c :: C)).2))
        (Function.update flag x.link (joinAfter last x (c :: C)).1.size) ∧
      (joinNext h' r x.addr).ppoolLast = h'.ppoolLast ∧
      (joinNext h' r x.addr).freeSize = h'.freeSize ∧
      (joinNext h' r x.addr).poolSize = h'.poolSize := by
  have hxs' : h'.flagNsize (.block x.addr) = x.size := (R.flagNsize _ hx).trans hxs
  have hcs' : h'.flagNsize (.block c.addr) = c.size := (R.flagNsize _ hc).trans hcs
  have hrn' : h'.next r = c.addr := (R.next _ hr).trans hrn
  have hcn' : h'.next (.block c.addr) = headAddr C := (R.next _ hc).trans hcn
  have hadd : sizeAdd k x.addr x.size = x.stop := sizeAdd_eq hxstop
  have hkeep : Function.update flag x.link x.size = flag := by
    rw [← hxs, Function.update_eq_self]
  simp only [joinNext, hxs', hcs', hrn', hcn', hadd, hlast, joinAfter, sizeAdd_eq hsum]
  by_cases htouch : x.stop = c.addr
  · by_cases hmark : c.addr = last
    · rw [if_pos htouch, if_neg (not_not.mpr hmark), if_neg fun h => h.2 hmark, hkeep]
      refine ⟨?_, by simp [hlast], by simp, by simp⟩
      exact hmark ▸ R.setNext hS hx hcaddr
    · rw [if_pos htouch, if_pos hmark, if_pos ⟨htouch, hmark⟩]
      exact ⟨R.setLink hS hx hsum hC, by simp [hlast], by simp, by simp⟩
  · rw [if_neg htouch, if_neg fun h => htouch h.1, hkeep]
    exact ⟨R.setNext hS hx hcaddr, by simp [hlast], by simp, by simp⟩

/-! ## The insertion -/

/-- What the insertion needs: the list in memory, and a place for the block in it. -/
structure Insertable (S : LinkPtr → Prop) (h : Heap k) (A : List Block) (x : Block)
    (C : List Block) : Prop where
  apart : AllApart k S
  anchor : S .anchor
  lists : Lists h (A ++ C)
  inUse : ∀ b ∈ A ++ ([x] ++ C), S b.link
  bounds : ∀ b ∈ A ++ ([x] ++ C), InBounds k b
  size : h.flagNsize x.link = x.size
  nodup : (.anchor :: links (A ++ ([x] ++ C))).Nodup
  before : ∀ a ∈ A, a.addr < x.addr
  behind : x.addr ≤ headAddr C
  total : ((A ++ ([x] ++ C)).map Block.size).sum < sizeMod k
  length : A.length < sizeMod k

/-- What the insertion does. -/
structure Inserted (S : LinkPtr → Prop) (h h' : Heap k) (A : List Block) (x : Block)
    (C : List Block) : Prop where
  lists : Lists h' (insertBlock h.ppoolLast A x C)
  next : ∀ r, S r → r ∉ .anchor :: links (A ++ ([x] ++ C)) → h'.next r = h.next r
  flagNsize : ∀ r, S r → r ∉ .anchor :: links (A ++ ([x] ++ C)) → h'.flagNsize r = h.flagNsize r
  outside : ∀ a, (∀ b, S (.block b) → a < b ∨ b + sizeofLink k ≤ a) → h'.mem a = h.mem a
  ppoolLast : h'.ppoolLast = h.ppoolLast
  freeSize : h'.freeSize = h.freeSize
  poolSize : h'.poolSize = h.poolSize

theorem Insertable.size_le (I : Insertable S h A x C) {b c : Block} (hb : b ∈ A) (hc : c ∈ C) :
    b.size + x.size + c.size < sizeMod k := by
  have htotal := I.total
  have hbA : b.size ≤ (A.map Block.size).sum :=
    List.single_le_sum (by simp) _ (List.mem_map_of_mem hb)
  have hcC : c.size ≤ (C.map Block.size).sum :=
    List.single_le_sum (by simp) _ (List.mem_map_of_mem hc)
  simp only [List.map_append, List.map_cons, List.map_nil, List.sum_append, List.sum_cons,
    List.sum_nil] at htotal
  omega

theorem Insertable.loop (I : Insertable S h A x C) :
    insertLoop h x.addr (sizeMod k) .anchor = some ((links A).getLastD .anchor) :=
  insertLoop_eq I.lists.linked
    (fun b hb => Nat.ne_of_gt (I.bounds b (List.mem_append_left _ hb)).positive) I.before I.behind
    I.length

theorem Insertable.nonNull (I : Insertable S h A x C) : NonNull C := fun b hb =>
  Nat.ne_of_gt (I.bounds b (by simp [hb])).positive

theorem Insertable.links_inUse (I : Insertable S h A x C) {r : LinkPtr}
    (hr : r ∈ .anchor :: links (A ++ C)) : S r := by
  rcases List.mem_cons.mp hr with rfl | hr
  · exact I.anchor
  · obtain ⟨b, hb, rfl⟩ := List.mem_map.mp hr
    refine I.inUse b ?_
    simp only [List.mem_append] at hb ⊢
    tauto

theorem Insertable.link_ne (I : Insertable S h A x C) {r : LinkPtr}
    (hr : r ∈ .anchor :: links (A ++ C)) : r ≠ x.link :=
  link_ne_of_nodup I.nodup hr (List.mem_singleton_self x)

/-- The stores of both joins, for the block `y` that `x` is joined to. -/
theorem Insertable.joins (I : Insertable S h A x C) {A' C' : List Block} {x' y : Block}
    (hbefore : joinBefore A x = (A', x')) (hafter : joinAfter h.ppoolLast x' C = (y, C')) :
    ∃ h₁, joinPrev h ((links A).getLastD .anchor) x.addr = (h₁, x'.addr) ∧ S x'.link ∧
      Relinked S h (joinNext h₁ ((links A).getLastD .anchor) x'.addr)
        (Function.update h.next x'.link (headAddr C')) (Function.update h.flagNsize x'.link y.size) ∧
      (joinNext h₁ ((links A).getLastD .anchor) x'.addr).ppoolLast = h.ppoolLast ∧
      (joinNext h₁ ((links A).getLastD .anchor) x'.addr).freeSize = h.freeSize ∧
      (joinNext h₁ ((links A).getLastD .anchor) x'.addr).poolSize = h.poolSize := by
  have hxb := I.bounds x (by simp)
  obtain ⟨c, C, rfl⟩ : ∃ c C₀, C = c :: C₀ := by
    cases C with
    | nil =>
      have hle : x.addr ≤ 0 := I.behind
      have := hxb.positive
      omega
    | cons c C => exact ⟨c, C, rfl⟩
  have hcb := I.bounds c (by simp)
  have hlinked := I.lists.linked
  rw [links_append] at hlinked
  obtain ⟨-, htail⟩ := linked_append.mp hlinked
  have hxc : x.size + c.size < sizeMod k := by
    have := hxb.size
    have := hcb.size
    rw [sizeMod_eq_double]
    omega
  -- the joined block ends where the block ends
  have hjoined : S x'.link ∧ x'.stop = x.stop ∧ x'.size + c.size < sizeMod k ∧
      c.link ≠ x'.link := by
    rcases joinBefore_cases A x with hb | ⟨A₀, a, rfl, htouch, hb⟩
    · obtain ⟨rfl, rfl⟩ := Prod.mk.inj (hbefore.symm.trans hb)
      refine ⟨I.inUse x' (by simp), rfl, hxc, ?_⟩
      exact link_ne_of_nodup I.nodup (List.mem_cons_of_mem _ (List.mem_map_of_mem (by simp)))
        (List.mem_singleton_self x')
    · obtain ⟨rfl, rfl⟩ := Prod.mk.inj (hbefore.symm.trans hb)
      refine ⟨I.inUse a (by simp), ?_, ?_, ?_⟩
      · simp only [Block.stop] at htouch ⊢
        omega
      · exact I.size_le (b := a) (c := c) (by simp) (by simp)
      · have hn : (.anchor :: links (A' ++ ([a] ++ ([x] ++ c :: C)))).Nodup := by
          simpa using I.nodup
        exact link_ne_of_nodup (c := a) hn (List.mem_cons_of_mem _ (List.mem_map_of_mem (by simp)))
          (List.mem_singleton_self a)
  obtain ⟨hx', hstop, hsum, hne⟩ := hjoined
  obtain ⟨h₁, hprev, R, hlast, hfree, hpool⟩ := joinPrev_relinked (A := A) I.apart I.size
    fun a ha => ⟨I.inUse a (List.mem_append_left _ ha),
      I.lists.sizes a (List.mem_append_left _ ha), (I.bounds a (List.mem_append_left _ ha)).stop, by
        have := I.size_le ha (List.mem_cons_self (a := c) (l := C))
        omega⟩
  rw [hbefore] at hprev R
  have hitor : S ((links A).getLastD .anchor) := I.links_inUse (prev_mem A _)
  have hC : headAddr C < sizeMod k := by
    cases C with
    | nil => exact Nat.two_pow_pos _
    | cons d C => exact (Nat.le_add_right _ _).trans_lt (I.bounds d (by simp)).header
  obtain ⟨R₂, hlast₂, hfree₂, hpool₂⟩ := joinNext_relinked (C := C) I.apart R hitor hx'
    (I.inUse c (by simp)) (Function.update_self _ _ _)
    ((Function.update_of_ne hne _ _).trans (I.lists.sizes c (by simp))) (linked_next htail)
    (linked_next htail.2) hlast (hstop ▸ hxb.stop) hsum
    ((Nat.le_add_right _ _).trans_lt hcb.header) hC
  rw [Function.update_idem, hafter] at R₂
  exact ⟨h₁, hprev, hx', R₂, hlast₂.trans hlast, hfree₂.trans hfree, hpool₂.trans hpool⟩

/-- The sizes behind the insertion: that of the joined block is stored, and the
blocks that stay listed keep theirs. -/
theorem Insertable.sizes (I : Insertable S h A x C) {A' C' : List Block} {y : Block} {r : LinkPtr}
    {nextOf : LinkPtr → Nat} (hA : A'.Sublist A) (hC : C'.Sublist C)
    (R : Relinked S h h' nextOf (Function.update h.flagNsize r y.size)) (hr : S r)
    (hy : y.link = r) (hne : ∀ b ∈ A' ++ C', b.link ≠ r) :
    ∀ b ∈ A' ++ ([y] ++ C'), h'.flagNsize b.link = b.size := by
  intro b hb
  by_cases hby : b = y
  · rw [hby, hy, R.flagNsize r hr, Function.update_self]
  · have hkept : b ∈ A' ++ C' := by
      simp only [List.mem_append, List.mem_singleton] at hb ⊢
      tauto
    have hlisted : b ∈ A ++ C := (hA.append hC).mem hkept
    have hblock : b ∈ A ++ ([x] ++ C) := by
      simp only [List.mem_append] at hlisted ⊢
      tauto
    rw [R.flagNsize _ (I.inUse b hblock), Function.update_of_ne (hne b hkept)]
    exact I.lists.sizes b hlisted

/-- A block that does not touch the one before it: the list is `A`, the block, and
what is left behind it. -/
theorem Insertable.spliced (I : Insertable S h A x C) {C' : List Block} {y : Block}
    (hC : ∃ D, C = D ++ C') (hx : S x.link) (hy : y.link = x.link)
    (R : Relinked S h h' (Function.update h.next x.link (headAddr C'))
      (Function.update h.flagNsize x.link y.size)) :
    Lists (h'.setNext ((links A).getLastD .anchor) x.addr) (A ++ ([y] ++ C')) ∧
      Relinked S h (h'.setNext ((links A).getLastD .anchor) x.addr)
        (Function.update (Function.update h.next x.link (headAddr C'))
          ((links A).getLastD .anchor) x.addr)
        (Function.update h.flagNsize x.link y.size) := by
  obtain ⟨D, rfl⟩ := hC
  have hxb := I.bounds x (by simp)
  have hsublist : C'.Sublist (D ++ C') := List.sublist_append_right D C'
  have hsub : ∀ r ∈ .anchor :: links (A ++ C'), r ∈ .anchor :: links (A ++ (D ++ C')) :=
    fun r hr => (List.Sublist.cons_cons _ (List.Sublist.map _ (hsublist.append_left A))).mem hr
  have hitor := I.links_inUse (prev_mem A _)
  have hne := I.link_ne (prev_mem A (D ++ C'))
  have R₃ := R.setNext I.apart hitor ((Nat.le_add_right _ _).trans_lt hxb.header)
  have hnull : NonNull C' := fun b hb => I.nonNull b (List.mem_append_right D hb)
  refine ⟨⟨linked_splice I.lists.linked (outer_nodup (outer_nodup I.nodup)) hnull
    (fun r hr hrne => ?_) ⟨?_, trivial⟩ ?_, ?_⟩, R₃⟩
  · rw [R₃.next r (I.links_inUse (hsub r hr)), Function.update_of_ne hrne,
      Function.update_of_ne (I.link_ne (hsub r hr))]
  · rw [Heap.follow, R₃.next _ hitor, Function.update_self, hy]
    exact toLink_of_ne (Nat.ne_of_gt hxb.positive)
  · change Heap.next _ y.link = _
    rw [hy, R₃.next _ hx, Function.update_of_ne hne.symm, Function.update_self]
  · exact I.sizes (List.Sublist.refl A) hsublist R₃ hx hy fun b hb =>
      I.link_ne (hsub _ (List.mem_cons_of_mem _ (List.mem_map_of_mem hb)))

/-- A block that the one before it takes in. -/
theorem Insertable.widened {a : Block} (I : Insertable S h (A ++ [a]) x C) {C' : List Block}
    {y : Block} (hC : ∃ D, C = D ++ C') (ha : S a.link) (hy : y.link = a.link)
    (R : Relinked S h h' (Function.update h.next a.link (headAddr C'))
      (Function.update h.flagNsize a.link y.size)) : Lists h' (A ++ ([y] ++ C')) := by
  obtain ⟨D, rfl⟩ := hC
  have hsublist : C'.Sublist (D ++ C') := List.sublist_append_right D C'
  have hnodup : (.anchor :: links (A ++ [a] ++ (D ++ C'))).Nodup := outer_nodup I.nodup
  have hinner : (.anchor :: links (A ++ ([a] ++ C'))).Nodup := by
    simpa using outer_nodup hnodup
  have hnull : NonNull C' := fun b hb => I.nonNull b (List.mem_append_right D hb)
  have hlink : (links (A ++ [a])).getLastD .anchor = a.link := by simp
  have hsame : links (A ++ ([y] ++ C')) = links (A ++ [a] ++ ([] ++ C')) := by
    simp [hy]
  refine ⟨?_, ?_⟩
  · rw [hsame]
    refine linked_splice I.lists.linked (outer_nodup hnodup) hnull (fun r hr hrne => ?_) trivial ?_
    · have hr' : r ∈ .anchor :: links (A ++ [a] ++ (D ++ C')) :=
        (List.Sublist.cons_cons _ (List.Sublist.map _ (hsublist.append_left _))).mem hr
      rw [hlink] at hrne
      rw [R.next r (I.links_inUse hr'), Function.update_of_ne hrne]
    · change Heap.next _ ((links (A ++ [a])).getLastD .anchor) = _
      rw [hlink, R.next _ ha, Function.update_self]
  · exact I.sizes (List.sublist_append_left A [a]) hsublist R ha hy fun b hb =>
      link_ne_of_nodup hinner (List.mem_cons_of_mem _ (List.mem_map_of_mem hb))
        (List.mem_singleton_self a)

/-- **`_insert_link`** puts the block into the list, joined with its neighbours. -/
theorem Insertable.inserted (I : Insertable S h A x C) :
    ∃ h', insertLink h x.addr = some h' ∧ Inserted S h h' A x C := by
  obtain ⟨A', x', hbefore⟩ : ∃ A' x', joinBefore A x = (A', x') := ⟨_, _, rfl⟩
  obtain ⟨y, C', hafter⟩ : ∃ y C', joinAfter h.ppoolLast x' C = (y, C') := ⟨_, _, rfl⟩
  obtain ⟨h₁, hprev, hx', R, hlast, hfree, hpool⟩ := I.joins hbefore hafter
  have hC : ∃ D, C = D ++ C' := by
    have : ∃ D, C = D ++ (joinAfter h.ppoolLast x' C).2 := joinAfter_suffix
    rwa [hafter] at this
  have hy : y.link = x'.link := by
    have : (joinAfter h.ppoolLast x' C).1.addr = x'.addr := joinAfter_addr
    rw [hafter] at this
    rw [Block.link, Block.link, this]
  have hinsert : insertBlock h.ppoolLast A x C = A' ++ ([y] ++ C') := by
    simp only [insertBlock, hbefore, hafter]
  have hrun : insertLink h x.addr = some (if (links A).getLastD .anchor ≠ x'.link then
      (joinNext h₁ ((links A).getLastD .anchor) x'.addr).setNext ((links A).getLastD .anchor) x'.addr
      else joinNext h₁ ((links A).getLastD .anchor) x'.addr) := by
    simp only [insertLink, I.loop, hprev]
    rfl
  generalize joinNext h₁ ((links A).getLastD .anchor) x'.addr = h₂ at *
  have hother : ∀ b ∈ A ++ ([x] ++ C), ∀ r ∉ .anchor :: links (A ++ ([x] ++ C)), r ≠ b.link :=
    fun b hb r hm he => hm (he ▸ List.mem_cons_of_mem _ (List.mem_map_of_mem hb))
  rcases joinBefore_cases A x with hb | ⟨A₀, a, rfl, htouch, hb⟩
  · -- the block before, if any, does not touch
    obtain ⟨rfl, rfl⟩ := Prod.mk.inj (hbefore.symm.trans hb)
    rw [if_pos (I.link_ne (prev_mem A' C))] at hrun
    obtain ⟨hlists, R₃⟩ := I.spliced hC hx' hy R
    refine ⟨_, hrun, hinsert ▸ hlists, fun r hr hm => ?_, fun r hr hm => ?_, R₃.outside, ?_, ?_, ?_⟩
    · have hprev' : r ≠ (links A').getLastD .anchor := fun he => hm (he ▸ prev_mem A' _)
      rw [R₃.next r hr, Function.update_of_ne hprev', Function.update_of_ne (hother x' (by simp) r hm)]
    · rw [R₃.flagNsize r hr, Function.update_of_ne (hother x' (by simp) r hm)]
    · rw [ppoolLast_setNext, hlast]
    · rw [freeSize_setNext, hfree]
    · rw [poolSize_setNext, hpool]
  · -- the block before takes it in
    obtain ⟨rfl, hxe⟩ := Prod.mk.inj (hbefore.symm.trans hb)
    have hlink : (links (A' ++ [a])).getLastD .anchor = a.link := by simp
    have hxa : x'.link = a.link := by rw [hxe, Block.link, Block.link]
    rw [hxa] at hx' R hy hrun
    rw [if_neg (not_not.mpr hlink)] at hrun
    refine ⟨_, hrun, hinsert ▸ I.widened hC hx' hy R, fun r hr hm => ?_, fun r hr hm => ?_,
      R.outside, hlast, hfree, hpool⟩
    · rw [R.next r hr, Function.update_of_ne (hother a (by simp) r hm)]
    · rw [R.flagNsize r hr, Function.update_of_ne (hother a (by simp) r hm)]

end Sdkz.Palloc
