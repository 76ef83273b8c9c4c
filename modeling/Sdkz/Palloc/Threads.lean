import Sdkz.Palloc.WellFormed

/-! # Threads

`palloc` looks at the list before it takes the semaphore: a thread that is between
the two has the rounded size and the first block of the list as it was then. The
critical section is sound as long as that block is still on the list, and still the
first one unless it is too small. -/

namespace Sdkz.Palloc
open Sdkz.Base

variable {k : Nat}

/-- The session that all threads share, and the locals of the threads that are in
front of the critical section. -/
structure Threads (k : Nat) where
  session : Session k
  locals : Nat → Option (Nat × Nat)

inductive Event where
  | init (r : Region)
  /-- Thread `t` calls `palloc` and comes to the semaphore, or returns null. -/
  | enter (t size : Nat)
  /-- Thread `t` goes through the critical section. -/
  | lock (t : Nat)
  | pfree (p : Nat)
deriving DecidableEq, Repr

def Threads.initial (k : Nat) (mem : Memory) : Threads k := ⟨Session.initial k mem, fun _ => none⟩

def Threads.step (s : Threads k) : Event → Option (Threads k)
  | .init r => (s.session.step (.init r)).map fun session => ⟨session, s.locals⟩
  | .enter t size =>
    match s.locals t with
    | some _ => some s
    | none => some ⟨s.session, Function.update s.locals t (pallocEntry s.session.heap size)⟩
  | .lock t =>
    match s.locals t with
    | none => some s
    | some (size, plink) =>
      (pallocLocked s.session.heap size plink).map fun r =>
        ⟨s.session.granted r, Function.update s.locals t none⟩
  | .pfree p => (s.session.step (.pfree p)).map fun session => ⟨session, s.locals⟩

def Threads.next (s : Option (Threads k)) (e : Event) : Option (Threads k) := s.bind (·.step e)

/-- The local `plink` is on the list, and the first block or too small. -/
def Fresh (h : Heap k) (size plink : Nat) : Prop :=
  ∃ L, Lists h L ∧ plink ∈ L.map Block.addr ∧
    (h.anchorNext = plink ∨ h.flagNsize (.block plink) < size)

/-- What the threads may do: a region is apart from the others, and what is freed is held. -/
def Threads.Permits (s : Threads k) : Event → Prop
  | .init r => r.Fits k s.session.regions
  | .pfree p => p ∈ s.session.live
  | _ => True

/-- A request is not rounded to less than a header, and the locals of a critical
section are fresh. -/
def Threads.Current (s : Threads k) : Event → Prop
  | .enter _ size => size = 0 ∨ sizeofLink k ≤ need k size
  | .lock t => ∀ size plink, s.locals t = some (size, plink) → Fresh s.session.heap size plink
  | _ => True

/-! ## The critical section -/

section Locked
variable {h : Heap k} {ps : List Pool} {A₀ A C : List Block} {b : Block} {m n plink fuel : Nat}

/-- A search that starts inside the list. -/
theorem searchLoop_inside (hl : Linked h.follow .anchor (links (A₀ ++ (A ++ b :: C))))
    (hpos : NonNull (A ++ b :: C)) (hsize : ∀ x ∈ A ++ b :: C, h.flagNsize x.link = x.size)
    (hA : ∀ x ∈ A, x.size < n) (hstop : n ≤ b.size ∨ C = []) (hstart : A₀ = [] ∨ A ≠ [])
    (hfuel : A.length < fuel) :
    searchLoop h n fuel .anchor (headAddr (A ++ b :: C)) =
      some ((links (A₀ ++ A)).getLastD .anchor, b.addr) := by
  rcases hstart with rfl | hne
  · exact searchLoop_eq hl hpos hsize hA hstop hfuel
  · cases A with
    | nil => exact absurd rfl hne
    | cons a A =>
      cases fuel with
      | zero => cases hfuel
      | succ fuel =>
        rw [links_append] at hl
        have htail : Linked h.follow a.link (links (A ++ b :: C)) := (linked_append.mp hl).2.2
        have hnext : h.next a.link = headAddr (A ++ b :: C) := linked_next htail
        have hne : headAddr (A ++ b :: C) ≠ 0 :=
          headAddr_ne fun x hx => hpos x (List.mem_cons_of_mem a hx)
        have ha : h.flagNsize a.link < n := by
          rw [hsize a List.mem_cons_self]
          exact hA a List.mem_cons_self
        have hgo : h.flagNsize a.link < n ∧ h.next a.link ≠ 0 := ⟨ha, hnext ▸ hne⟩
        have hlen : A.length < fuel := Nat.lt_of_succ_lt_succ hfuel
        have hrest := searchLoop_eq htail (fun x hx => hpos x (List.mem_cons_of_mem a hx))
          (fun x hx => hsize x (List.mem_cons_of_mem a hx))
          (fun x hx => hA x (List.mem_cons_of_mem a hx)) hstop hlen
        rw [← hnext] at hrest
        rw [links_append, links_cons, getLastD_append_cons]
        exact (if_pos hgo).trans hrest

/-- A search for more than there is comes to the end of the list. -/
theorem searchLoop_end (hl : Linked h.follow .anchor (links (A₀ ++ (A ++ [b]))))
    (hpos : NonNull (A ++ [b])) (hsize : ∀ x ∈ A ++ [b], h.flagNsize x.link = x.size)
    (hA : ∀ x ∈ A, x.size < n) (hfuel : A.length < fuel) :
    ∃ prev, searchLoop h n fuel .anchor (headAddr (A ++ [b])) = some (prev, b.addr) := by
  cases A with
  | nil =>
    cases fuel with
    | zero => cases hfuel
    | succ fuel =>
      rw [links_append] at hl
      have hlast : h.next b.link = 0 := linked_next (linked_append.mp hl).2.2
      exact ⟨.anchor, if_neg fun hgo => hgo.2 hlast⟩
  | cons a A => exact ⟨_, searchLoop_inside hl hpos hsize hA (.inr rfl) (.inr (by simp)) hfuel⟩

/-- Where a fresh local is on the list. -/
theorem Fresh.split (ok : LayoutOk k ps) (rep : Represents h ps) (hfresh : Fresh h m plink) :
    ∃ A₀ c L₁, listed ps = A₀ ++ c :: L₁ ∧ c.addr = plink ∧ (A₀ = [] ∨ c.size < m) := by
  obtain ⟨L, hL, hplink, hor⟩ := hfresh
  obtain rfl := hL.unique rep.lists
  have hpos := sizeofLink_pos k
  obtain ⟨c, hc, rfl⟩ := List.mem_map.mp hplink
  obtain ⟨A₀, L₁, hsplit⟩ := List.append_of_mem hc
  refine ⟨A₀, c, L₁, hsplit, rfl, ?_⟩
  rcases hor with hfirst | hsmall
  · left
    cases A₀ with
    | nil => rfl
    | cons a A₀ =>
      have hanchor : h.anchorNext = headAddr (listed ps) := linked_next rep.lists.linked
      rw [hsplit] at hanchor
      have hapart := hsplit ▸ ok.listed_apart
      have := (List.pairwise_cons.mp hapart).1 c (by simp)
      have haddr : a.addr = c.addr := hanchor.symm.trans hfirst
      omega
  · exact .inr (rep.lists.sizes c hc ▸ hsmall)

/-- **The critical section** with fresh locals: nothing happens, or a large enough
cell is taken. -/
theorem pallocLocked_represents (ok : LayoutOk k ps) (rep : Represents h ps)
    (hfresh : Fresh h m plink) (hlink : sizeofLink k ≤ m) (hword : sizeofSizeT k ∣ m) :
    pallocLocked h m plink = some (h, 0) ∨
      ∃ P p Q B₁ B₂ s h', ps = P ++ p :: Q ∧ p.cells = B₁ ++ ([⟨s, false⟩] ++ B₂) ∧ m ≤ s ∧
        pallocLocked h m plink = some (h', p.start + span B₁ + sizeofLink k) ∧
        Represents h' (takeCell k m s P p Q B₁ B₂) := by
  have hpos := sizeofLink_pos k
  obtain ⟨A₀, c, L₁, hsplit, rfl, hstart⟩ := hfresh.split ok rep
  have hlinked := rep.lists.linked
  have hnull := ok.nonNull
  have hlen := ok.listed_length
  rw [hsplit] at hlinked hnull hlen
  rw [List.length_append] at hlen
  have hnull₁ : NonNull (c :: L₁) := fun b hb => hnull b (List.mem_append_right A₀ hb)
  have hsizes : ∀ b ∈ c :: L₁, h.flagNsize b.link = b.size := fun b hb =>
    rep.lists.sizes b (hsplit ▸ List.mem_append_right A₀ hb)
  by_cases hlarge : ∃ b ∈ c :: L₁, m ≤ b.size
  · obtain ⟨b, hb⟩ : ∃ b, (c :: L₁).find? (fun b => decide (m ≤ b.size)) = some b := by
      obtain ⟨b, hb, hs⟩ := hlarge
      exact Option.isSome_iff_exists.mp (List.find?_isSome.mpr ⟨b, hb, decide_eq_true hs⟩)
    obtain ⟨hs, A, C, hcL, hA⟩ := List.find?_eq_some_iff_append.mp hb
    have hs := of_decide_eq_true hs
    have hA : ∀ x ∈ A, x.size < m := fun x hx => by simpa using hA x hx
    have hne : A₀ = [] ∨ A ≠ [] := by
      refine hstart.imp id fun hsmall hnil => ?_
      subst hnil
      obtain ⟨rfl, -⟩ := List.cons.inj hcL
      omega
    have hhead : c.addr = headAddr (A ++ b :: C) := by
      rw [← hcL]
      rfl
    rw [hcL] at hlinked hnull₁ hsizes hsplit hlen
    rw [List.length_append] at hlen
    have hsearch := searchLoop_inside hlinked hnull₁ hsizes hA (.inl hs) hne
      (show A.length < sizeMod k by omega)
    rw [← hhead] at hsearch
    rw [← List.append_assoc] at hsplit
    obtain ⟨P, p, Q, B₁, B₂, rfl, hcells, haddr, hbefore, -⟩ := listed_split hsplit (by omega)
    rw [hbefore, haddr] at hsearch
    obtain ⟨h', hrun, hT⟩ := pallocLocked_some ok rep hcells hs hlink hword hsearch
    exact .inr ⟨P, p, Q, B₁, B₂, b.size, h', rfl, hcells, hs, hrun,
      take_represents ok hcells hs hlink hword rep hT⟩
  · left
    have hall : ∀ b ∈ c :: L₁, b.size < m := fun b hb =>
      Nat.lt_of_not_le fun hle => hlarge ⟨b, hb, hle⟩
    obtain ⟨L', hL'⟩ := ok.getLast_listed fun hps => by simp [hps, listed] at hsplit
    obtain ⟨A, hA⟩ : ∃ A, c :: L₁ = A ++ [⟨lastMarker ps, 0⟩] := by
      have hlast : (c :: L₁).getLast (by simp) = ⟨lastMarker ps, 0⟩ := by
        have hget := congrArg List.getLast? (hsplit.symm.trans hL')
        simpa [List.getLast?_append, List.getLast?_eq_some_getLast] using hget
      exact ⟨_, hlast ▸ (List.dropLast_concat_getLast _).symm⟩
    have hhead : c.addr = headAddr (A ++ [⟨lastMarker ps, 0⟩]) := by
      rw [← hA]
      rfl
    rw [hA] at hlinked hnull₁ hsizes hall hlen
    rw [List.length_append] at hlen
    obtain ⟨prev, hsearch⟩ := searchLoop_end hlinked hnull₁ hsizes
      (fun x hx => hall x (List.mem_append_left _ hx)) (show A.length < sizeMod k by omega)
    rw [← hhead] at hsearch
    simp only [pallocLocked, hsearch]
    exact if_pos rep.ppoolLast.symm

end Locked

/-! ## Steps -/

/-- The shared session is valid, and the threads ask for blocks that can be cut. -/
structure Threads.Inv (s : Threads k) (ps : List Pool) : Prop where
  valid : Valid s.session ps
  locals : ∀ t size plink, s.locals t = some (size, plink) →
    sizeofLink k ≤ size ∧ sizeofSizeT k ∣ size

section Steps
variable {s : Threads k} {ps : List Pool} {h : Heap k} {n size plink : Nat}

theorem pallocEntry_size (he : pallocEntry h n = some (size, plink)) : n ≠ 0 ∧ size = need k n := by
  simp only [pallocEntry] at he
  split at he
  · cases he
  · rename_i hlow
    split at he
    · cases he
    · split at he
      · cases he
      · obtain ⟨rfl, rfl⟩ := Prod.mk.inj (Option.some.inj he)
        exact ⟨(not_or.mp hlow).2, rfl⟩

theorem Valid.locked {t : Session k} (v : Valid t ps) (hfresh : Fresh t.heap size plink)
    (hlink : sizeofLink k ≤ size) (hword : sizeofSizeT k ∣ size) :
    ∃ r ps', pallocLocked t.heap size plink = some r ∧ Valid (t.granted r) ps' := by
  rcases pallocLocked_represents v.ok v.rep hfresh hlink hword with hrun |
    ⟨P, p, Q, B₁, B₂, cell, h', rfl, hcells, hsize, hrun, hrep⟩
  · exact ⟨_, ps, hrun, v⟩
  · have hperm := lives_takeCell (k := k) (P := P) (Q := Q) hcells hsize
    have hpos := sizeofLink_pos k
    refine ⟨_, _, hrun, takeCell_ok v.ok hcells hsize hlink hword, hrep,
      (regions_takeCell hcells hsize).symm ▸ v.regions, ?_, v.taken⟩
    rw [Session.granted, if_neg (by simp only; omega)]
    exact (v.live.cons _).trans (hperm.map (payload k)).symm

theorem Threads.Inv.step {e : Event} (I : s.Inv ps) (hp : s.Permits e) (hc : s.Current e) :
    ∃ s' ps', s.step e = some s' ∧ s'.Inv ps' := by
  cases e with
  | init r =>
    obtain ⟨h', ps', hrun, -, hv⟩ := I.valid.given hp
    refine ⟨⟨⟨h', r :: s.session.regions, s.session.live⟩, s.locals⟩, ps', ?_, hv, I.locals⟩
    simp only [Threads.step, Session.step, hrun, Option.map_some]
  | enter t n =>
    cases hlocal : s.locals t with
    | some l => exact ⟨s, ps, by simp only [Threads.step, hlocal], I⟩
    | none =>
      refine ⟨⟨s.session, Function.update s.locals t (pallocEntry s.session.heap n)⟩, ps,
        by simp only [Threads.step, hlocal], I.valid, fun u size plink hu => ?_⟩
      by_cases hut : u = t
      · subst hut
        have hentry : pallocEntry s.session.heap n = some (size, plink) := by
          simpa using hu
        obtain ⟨hn, rfl⟩ := pallocEntry_size hentry
        exact ⟨hc.resolve_left hn, dvd_alignedValue k _⟩
      · refine I.locals u size plink ?_
        simpa [hut] using hu
  | lock t =>
    cases hlocal : s.locals t with
    | none => exact ⟨s, ps, by simp only [Threads.step, hlocal], I⟩
    | some l =>
      obtain ⟨size, plink⟩ := l
      obtain ⟨hlink, hword⟩ := I.locals t size plink hlocal
      obtain ⟨r, ps', hrun, hv⟩ := I.valid.locked (hc size plink hlocal) hlink hword
      refine ⟨⟨s.session.granted r, Function.update s.locals t none⟩, ps',
        by simp only [Threads.step, hlocal, hrun, Option.map_some], hv, fun u size plink hu => ?_⟩
      by_cases hut : u = t
      · simp [hut] at hu
      · refine I.locals u size plink ?_
        simpa [hut] using hu
  | pfree p =>
    obtain ⟨h', ps', hrun, hv⟩ := I.valid.freed hp
    refine ⟨⟨⟨h', s.session.regions, s.session.live.erase p⟩, s.locals⟩, ps', ?_, hv, I.locals⟩
    simp only [Threads.step, Session.step, hrun, Option.map_some]

end Steps

/-! ## Safety -/

/-- Two blocks without a byte in common. -/
def Block.Apart (b c : Block) : Prop := b.stop ≤ c.addr ∨ c.stop ≤ b.addr

/-- The list `L` is in address order and ends at the last marker; the blocks that the
threads hold are apart from each other and from the free ones. -/
structure Session.Safe (s : Session k) (L : List Block) : Prop where
  lists : Lists s.heap L
  ordered : L.Pairwise fun b c => b.addr < c.addr
  last : s.regions ≠ [] → ∃ A, L = A ++ [⟨s.heap.ppoolLast, 0⟩]
  held : (s.live.map s.blockAt).Pairwise Block.Apart
  free : ∀ b ∈ s.live.map s.blockAt, ∀ c ∈ L, b.Apart c

def Safe (s : Option (Threads k)) : Prop := ∃ t L, s = some t ∧ t.session.Safe L

section Safety
variable {s : Session k} {ps : List Pool} {b c : Block}

/-- A live block is apart from what else has a header of its own. -/
theorem LayoutOk.live_apart (ok : LayoutOk k ps) (hb : b ∈ lives ps)
    (hc : c ∈ lives ps ∨ c ∈ listed ps) (hne : b.addr ≠ c.addr) : b.Apart c := by
  have hpos := sizeofLink_pos k
  have around : ∀ {d e : Block}, d ∈ lives ps ∨ d ∈ listed ps ∧ d.size ≠ 0 → e.addr ∈ headers ps →
      e.addr + sizeofLink k ≤ d.addr ∨ e.addr = d.addr ∨ d.stop ≤ e.addr := by
    intro d e hd he
    have hcell : ∃ P p Q B₁ B₂ l, ps = P ++ p :: Q ∧ p.cells = B₁ ++ ⟨d.size, l⟩ :: B₂ ∧
        d.addr = p.start + span B₁ := by
      rcases hd with hd | ⟨hd, hsize⟩
      · obtain ⟨P, p, Q, B₁, B₂, h⟩ := lives_split hd
        exact ⟨P, p, Q, B₁, B₂, true, h⟩
      · obtain ⟨A, C, hsplit⟩ := List.append_of_mem hd
        obtain ⟨P, p, Q, B₁, B₂, h, hcells, haddr, -⟩ := listed_split hsplit hsize
        exact ⟨P, p, Q, B₁, B₂, false, h, hcells, haddr⟩
    obtain ⟨P, p, Q, B₁, B₂, l, rfl, hcells, haddr⟩ := hcell
    have := ok.headers_around hcells he
    rw [Block.stop, haddr]
    exact this
  have hbc := around (.inl hb) (hc.elim lives_header listed_header)
  have hstop : c.stop = c.addr + c.size := rfl
  by_cases hsize : c.size = 0
  · rw [Block.Apart]
    omega
  · have hcb := around (hc.imp id fun h => ⟨h, hsize⟩) (lives_header hb)
    rw [Block.Apart]
    omega

theorem Valid.safe (v : Valid s ps) : s.Safe (listed ps) := by
  have hc := v.checks
  refine ⟨hc.lists, hc.ordered, hc.last, ?_, fun b hb c hcl => ?_⟩
  · have hsymm : Std.Symm Block.Apart := ⟨fun _ _ h => Or.symm h⟩
    have hnodup : (s.live.map s.blockAt).Pairwise fun b c => b.addr ≠ c.addr := by
      refine List.pairwise_map.mpr (v.live_nodup.imp_of_mem fun {a a'} ha ha' hne he => hne ?_)
      obtain ⟨b, hb, rfl⟩ := v.block_of_live ha
      obtain ⟨c, hc, rfl⟩ := v.block_of_live ha'
      rw [v.blockAt hb, v.blockAt hc] at he
      rw [payload, payload, he]
    exact hnodup.imp_of_mem fun {b c} hb hc hne =>
      v.ok.live_apart (v.mem_held.mp hb) (.inl (v.mem_held.mp hc)) hne
  · have hb := v.mem_held.mp hb
    exact v.ok.live_apart hb (.inr hcl) (v.ok.lives_ne_listed hb hcl)

end Safety

/-- The threads do what they may. -/
def Allowed (s : Option (Threads k)) (e : Event) : Prop := ∀ t, s = some t → t.Permits e

/-- Their locals are also fresh. -/
def AllowedFresh (s : Option (Threads k)) (e : Event) : Prop :=
  ∀ t, s = some t → t.Permits e ∧ t.Current e

/-- **Every interleaving** whose critical sections have fresh locals is safe. -/
theorem always_safe (k : Nat) (mem : Memory) (events : List Event)
    (h : Guarded Threads.next AllowedFresh (some (Threads.initial k mem)) events) :
    Always Threads.next Safe (some (Threads.initial k mem)) events := by
  have hinv : Always Threads.next (fun s => ∃ t ps, s = some t ∧ t.Inv ps)
      (some (Threads.initial k mem)) events := by
    refine h.always (fun s e hs hp => ?_) ⟨_, [], rfl, Valid.initial mem, by simp [Threads.initial]⟩
    obtain ⟨t, ps, rfl, I⟩ := hs
    obtain ⟨hperm, hcur⟩ := hp t rfl
    obtain ⟨t', ps', hrun, I'⟩ := I.step hperm hcur
    exact ⟨t', ps', hrun, I'⟩
  intro l hl
  obtain ⟨t, ps, hrun, I⟩ := hinv l hl
  exact ⟨t, listed ps, hrun, I.valid.safe⟩

/-- Two threads come to the semaphore, and one of them goes through. -/
theorem first_thread_safe : Always Threads.next Safe (some (Threads.initial 2 fun _ => 0))
    [.init ⟨4096, 4352⟩, .enter 0 8, .enter 1 8, .lock 0] := by
  have hfits : Region.Fits 2 ⟨4096, 4352⟩ [] :=
    ⟨⟨by decide, by decide, by decide, by decide, by decide⟩, by simp, by decide⟩
  have hneed : sizeofLink 2 ≤ need 2 8 := by decide +kernel
  refine always_safe 2 _ _ (guarded_cons.mpr ⟨?_, guarded_cons.mpr ⟨?_, guarded_cons.mpr ⟨?_,
    guarded_cons.mpr ⟨?_, ?_⟩⟩⟩⟩)
  · intro t ht
    obtain rfl := Option.some.inj ht
    exact ⟨hfits, trivial⟩
  · exact fun t ht => ⟨trivial, .inr hneed⟩
  · exact fun t ht => ⟨trivial, .inr hneed⟩
  · intro t ht
    refine ⟨trivial, fun size plink hlocal => ?_⟩
    have hstate : ∀ u, Threads.next (Threads.next (Threads.next (some (Threads.initial 2 fun _ => 0))
        (.init ⟨4096, 4352⟩)) (.enter 0 8)) (.enter 1 8) = some u → u.locals 0 = some (16, 4096) ∧
          u.session.heap.anchorNext = 4096 ∧ u.session.heap.next (.block 4096) = 4344 ∧
          u.session.heap.next (.block 4344) = 0 ∧ u.session.heap.flagNsize (.block 4096) = 248 ∧
          u.session.heap.flagNsize (.block 4344) = 0 := by
      decide +kernel
    obtain ⟨h0, hanchor, hnext, hend, hsize, hmark⟩ := hstate t ht
    obtain ⟨rfl, rfl⟩ := Prod.mk.inj (Option.some.inj (h0.symm.trans hlocal))
    refine ⟨[⟨4096, 248⟩, ⟨4344, 0⟩], ⟨⟨?_, ?_, ?_⟩, ?_⟩, by simp, .inl hanchor⟩
    · rw [Heap.follow, Heap.next, hanchor]
      rfl
    · exact congrArg toLink hnext
    · exact congrArg toLink hend
    · intro b hb
      simp only [List.mem_cons, List.not_mem_nil, or_false] at hb
      rcases hb with rfl | rfl
      · exact hsize
      · exact hmark
  · exact fun p a hp => absurd (List.prefix_nil.mp hp) (by simp)

/-- Two threads read the same first block in front of the semaphore: the second one
cuts the block that the first one was given, and drops the list behind it. -/
theorem stale_plink_breaks_list :
    Guarded Threads.next Allowed (some (Threads.initial 2 fun _ => 0))
        [.init ⟨4096, 4352⟩, .enter 0 8, .enter 1 8, .lock 1, .lock 0] ∧
      ¬ Always Threads.next Safe (some (Threads.initial 2 fun _ => 0))
        [.init ⟨4096, 4352⟩, .enter 0 8, .enter 1 8, .lock 1, .lock 0] := by
  constructor
  · have hfits : Region.Fits 2 ⟨4096, 4352⟩ [] :=
      ⟨⟨by decide, by decide, by decide, by decide, by decide⟩, by simp, by decide⟩
    refine guarded_cons.mpr ⟨?_, fun p e hp t ht => ?_⟩
    · intro t ht
      obtain rfl := Option.some.inj ht
      exact hfits
    · have he := hp.subset (List.mem_append_right p (List.mem_singleton_self e))
      simp only [List.mem_cons, List.not_mem_nil, or_false] at he
      rcases he with rfl | rfl | rfl | rfl <;> trivial
  · intro hall
    obtain ⟨t, L, hrun, hc⟩ := hall.last
    have hstate : ∀ u, [Event.init ⟨4096, 4352⟩, .enter 0 8, .enter 1 8, .lock 1, .lock 0].foldl
        Threads.next (some (Threads.initial 2 fun _ => 0)) = some u →
          u.session.heap.anchorNext = 4112 ∧ u.session.heap.next (.block 4112) = 0 ∧
          u.session.heap.ppoolLast = 4344 ∧ u.session.regions ≠ [] := by
      decide +kernel
    obtain ⟨hanchor, hnext, hlast, hregions⟩ := hstate t hrun
    have hlinked : Linked t.session.heap.follow .anchor [.block 4112] := by
      refine ⟨?_, congrArg toLink hnext⟩
      rw [Heap.follow, Heap.next, hanchor]
      rfl
    obtain ⟨A, hA⟩ := hc.last hregions
    have hsame := hc.lists.linked.unique hlinked
    rw [hA, hlast] at hsame
    have hget := congrArg List.getLast? hsame
    simp [Block.link] at hget

end Sdkz.Palloc
