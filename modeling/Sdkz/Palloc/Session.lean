import Sdkz.Base.Run
import Sdkz.Palloc.Free
import Sdkz.Palloc.Init

/-! # The allocator and the program that uses it

A `Session` is the heap together with what the program knows: the regions it has
given to the allocator and the pointers it holds. The program may also store into
the memory it holds. `Valid` connects a session with a layout, and each operation
keeps it. -/

namespace Sdkz.Palloc
open Sdkz.Base

variable {k : Nat}

structure Session (k : Nat) where
  heap : Heap k
  regions : List Region
  live : List Nat

/-- What the program may call, and a store of one byte. -/
inductive Op where
  | init (r : Region)
  | palloc (size : Nat)
  | pcalloc (num size : Nat)
  | prealloc (ap nbytes : Nat)
  | pfree (p : Nat)
  | store (addr : Nat) (byte : UInt8)
deriving DecidableEq, Repr

def Session.initial (k : Nat) (mem : Memory) : Session k := ⟨Heap.initial mem, [], []⟩

/-- The program holds what it is given. -/
def Session.granted (s : Session k) (r : Heap k × Nat) : Session k :=
  ⟨r.1, s.regions, if r.2 = 0 then s.live else r.2 :: s.live⟩

def Session.step (s : Session k) : Op → Option (Session k)
  | .init r =>
    (pallocInit s.heap r.start r.stop).map fun h => ⟨h, r :: s.regions, s.live⟩
  | .palloc size => (Palloc.palloc s.heap size).map s.granted
  | .pcalloc num size => (Palloc.pcalloc s.heap num size).map s.granted
  | .prealloc ap nbytes =>
    (Palloc.prealloc s.heap ap nbytes).map fun (h, ptr) =>
      ⟨h, s.regions, if ptr = 0 ∨ ptr = ap then s.live else ptr :: s.live.erase ap⟩
  | .pfree p => (Palloc.pfree s.heap p).map fun h => ⟨h, s.regions, s.live.erase p⟩
  | .store addr byte =>
    some ⟨{ s.heap with mem := Function.update s.heap.mem addr byte }, s.regions, s.live⟩

/-- A call that does not return leaves no session. -/
def Session.next (s : Option (Session k)) (op : Op) : Option (Session k) := s.bind (·.step op)

/-- The block behind a pointer, as its header has it. -/
def Session.blockAt (s : Session k) (p : Nat) : Block :=
  ⟨p - sizeofLink k,
    s.heap.flagNsize (.block (p - sizeofLink k)) &&& sizeNot k (pallocAllocated k)⟩

/-- What a program may do: a region it gives is apart from the others, no request
wraps with the header, and it frees and stores to what it holds. -/
def Session.Permits (s : Session k) : Op → Prop
  | .init r => r.Fits k s.regions
  | .palloc size => size + sizeofLink k < sizeMod k
  | .pcalloc num size => num * size % sizeMod k + sizeofLink k < sizeMod k
  | .prealloc ap nbytes => (ap = 0 ∨ ap ∈ s.live) ∧ nbytes + sizeofLink k < sizeMod k
  | .pfree p => p = 0 ∨ p ∈ s.live
  | .store addr _ => ∃ p ∈ s.live, p ≤ addr ∧ addr < (s.blockAt p).stop

/-- Neither does a request wrap when it is rounded. -/
def Op.Rounds (k : Nat) : Op → Prop
  | .palloc size => Palloc.Rounds k size
  | .pcalloc num size => Palloc.Rounds k (num * size % sizeMod k)
  | .prealloc _ nbytes => Palloc.Rounds k nbytes
  | _ => True

/-! ## The memory the program holds -/

/-- The pointer to a block that the program holds. -/
def payload (k : Nat) (b : Block) : Nat := b.addr + sizeofLink k

section Payload
variable {h h' : Heap k} {ps : List Pool} {b : Block}

theorem payload_ne_zero (k : Nat) (b : Block) : payload k b ≠ 0 := by
  have hpos := sizeofLink_pos k
  rw [payload]
  omega

/-- The header is in front of what the program holds. -/
theorem LayoutOk.link_of_payload (ok : LayoutOk k ps) (hb : b ∈ lives ps) :
    sizeSub k (payload k b) (sizeofLink k) = b.addr := by
  rw [payload, sizeSub_eq (Nat.le_add_left _ _) (ok.lives_bounds hb).header, Nat.add_sub_cancel]

/-- The headers decide what is represented. -/
theorem Represents.of_headers {mem : Memory} (rep : Represents h ps)
    (hmem : ∀ x ∈ headers ps, ∀ a, x ≤ a → a < x + sizeofLink k → mem a = h.mem a) :
    Represents ({ h with mem := mem } : Heap k) ps := by
  have hkeep : ∀ r, InUse ps r → ({ h with mem := mem } : Heap k).next r = h.next r ∧
      ({ h with mem := mem } : Heap k).flagNsize r = h.flagNsize r := by
    intro r hr
    cases r with
    | anchor => exact ⟨rfl, rfl⟩
    | block x =>
      have hbytes := hmem x hr
      rw [sizeofLink_eq] at hbytes
      exact ⟨Memory.load_congr fun a hle hlt => hbytes a (by omega) (by omega),
        Memory.load_congr fun a hle hlt => hbytes a (by omega) (by omega)⟩
  refine ⟨⟨rep.lists.linked.congr fun r hr => ?_, fun b hb => ?_⟩, fun b hb => ?_, rep.ppoolLast,
    rep.freeSize, rep.poolSize⟩
  · rw [Heap.follow, Heap.follow, (hkeep r (InUse.of_links (fun b hb => hb) hr)).1]
  · rw [(hkeep _ (InUse.of_listed hb)).2]
    exact rep.lists.sizes b hb
  · obtain ⟨hnext, hflag⟩ := hkeep _ (InUse.of_lives hb)
    rw [hnext, hflag]
    exact rep.lives b hb

/-- No header overlaps the memory the program holds. -/
theorem LayoutOk.payload_clear (ok : LayoutOk k ps) (hb : b ∈ lives ps) {x : Nat}
    (hx : x ∈ headers ps) : x + sizeofLink k ≤ payload k b ∨ b.stop ≤ x := by
  obtain ⟨P, p, Q, B₁, B₂, rfl, hcells, haddr⟩ := lives_split hb
  have hclear := ok.headers_around hcells hx
  simp only at hclear
  rw [payload, Block.stop, haddr]
  omega

/-- A store into the memory the program holds. -/
theorem Represents.of_payload {mem : Memory} (ok : LayoutOk k ps) (rep : Represents h ps)
    (hb : b ∈ Palloc.lives ps) (hmem : ∀ a, a < payload k b ∨ b.stop ≤ a → mem a = h.mem a) :
    Represents ({ h with mem := mem } : Heap k) ps := by
  refine rep.of_headers fun x hx a hle hlt => hmem a ?_
  have := ok.payload_clear hb hx
  omega

end Payload

/-! ## Valid sessions -/

/-- The heap is laid out as `ps`, and the program knows the regions and the live blocks. -/
structure Valid (s : Session k) (ps : List Pool) : Prop where
  ok : LayoutOk k ps
  rep : Represents s.heap ps
  regions : s.regions.Perm (regions k ps)
  live : s.live.Perm ((lives ps).map (payload k))
  taken : ∀ r ∈ s.regions, r.Ok k

section Valid
variable {s : Session k} {ps : List Pool} {r : Region} {n a : Nat}

theorem Valid.initial (mem : Memory) : Valid (Session.initial k mem) [] := by
  have hnone : LayoutOk k [] :=
    ⟨by simp, List.Pairwise.nil, by simp, fun r hr => absurd hr List.not_mem_nil⟩
  refine ⟨hnone, ⟨⟨rfl, by simp [listed]⟩, by simp [lives], rfl, rfl, rfl⟩, List.Perm.refl _,
    List.Perm.refl _, fun r hr => absurd hr List.not_mem_nil⟩

/-- A pointer that is held belongs to a live block. -/
theorem Valid.block_of_live (v : Valid s ps) (ha : a ∈ s.live) : ∃ b ∈ lives ps, a = payload k b := by
  obtain ⟨b, hb, rfl⟩ := List.mem_map.mp (v.live.mem_iff.mp ha)
  exact ⟨b, hb, rfl⟩

theorem Valid.live_nodup (v : Valid s ps) : s.live.Nodup := by
  refine v.live.nodup_iff.mpr (List.Pairwise.map _ (fun b c hne he => ?_)
    (List.pairwise_map.mp v.ok.lives_nodup))
  exact hne (congrArg LinkPtr.block (Nat.add_right_cancel he))

theorem Valid.live_ne_zero (v : Valid s ps) (ha : a ∈ s.live) : a ≠ 0 := by
  obtain ⟨b, hb, rfl⟩ := v.block_of_live ha
  exact payload_ne_zero k b

theorem Valid.given (v : Valid s ps) (hr : r.Fits k s.regions) :
    ∃ h' ps', pallocInit s.heap r.start r.stop = some h' ∧ lives ps' = lives ps ∧
      Valid ⟨h', r :: s.regions, s.live⟩ ps' := by
  obtain ⟨ok, rep, hregions, hlive, htaken⟩ := v
  have hr : r.Fits k (Palloc.regions k ps) :=
    ⟨hr.ok, fun t ht => hr.disjoint t (hregions.mem_iff.mpr ht), hr.small⟩
  obtain ⟨P, Q, rfl, hP, hQ⟩ := ok.split_at hr.disjoint
  obtain ⟨h', hrun, hrep, -⟩ := pallocInit_represents ok hr hP hQ rep
  have hlives : lives (P ++ newPool k r :: Q) = lives (P ++ Q) := lives_newPool
  refine ⟨h', _, hrun, hlives, newPool_layout ok hr hP hQ, hrep,
    (hregions.cons r).trans (regions_newPool hr).symm, hlives ▸ hlive, fun t ht => ?_⟩
  rcases List.mem_cons.mp ht with rfl | ht
  · exact hr.ok
  · exact htaken t ht

/-- What a request that is met leads to. -/
structure Granted (s : Session k) (ps : List Pool) (n : Nat) (h' : Heap k) (q : Nat)
    (ps' : List Pool) (b : Block) : Prop where
  valid : Valid ⟨h', s.regions, q :: s.live⟩ ps'
  lives : (lives ps').Perm (b :: lives ps)
  ptr : q = payload k b
  room : need k n ≤ b.size

/-- A request leads to a valid session. -/
theorem Valid.request (v : Valid s ps) (hn : n = 0 ∨ sizeofLink k ≤ need k n) :
    Palloc.palloc s.heap n = some (s.heap, 0) ∨
      ∃ h' q ps' b, Palloc.palloc s.heap n = some (h', q) ∧ Granted s ps n h' q ps' b := by
  rcases palloc_represents v.ok v.rep hn with ⟨hrun, -⟩ |
    ⟨P, p, Q, B₁, B₂, size, h', rfl, hcells, hsize, hfirst, hrun, hrep, -⟩
  · exact .inl hrun
  · by_cases h0 : n = 0
    · left
      simp [Palloc.palloc, pallocEntry, h0]
    have hlink := hn.resolve_left h0
    have hperm := lives_takeCell (k := k) (P := P) (Q := Q) hcells hsize
    refine .inr ⟨h', _, _, _, hrun, ⟨takeCell_ok v.ok hcells hsize hlink (dvd_alignedValue k _), hrep,
      (regions_takeCell hcells hsize).symm ▸ v.regions, ?_, v.taken⟩, hperm, rfl, ?_⟩
    · exact (v.live.cons _).trans (hperm.map (payload k)).symm
    · rw [takenBlock]
      simp only
      split
      · exact Nat.le_refl _
      · exact hsize

/-- A pointer that is held is freed. -/
theorem Valid.freed (v : Valid s ps) (ha : a ∈ s.live) :
    ∃ h' ps', Palloc.pfree s.heap a = some h' ∧ Valid ⟨h', s.regions, s.live.erase a⟩ ps' := by
  obtain ⟨b, hb, rfl⟩ := v.block_of_live ha
  obtain ⟨P, p, Q, B₁, B₂, rfl, hcells, haddr⟩ := lives_split hb
  have hcells : p.cells = B₁ ++ ([⟨b.size, true⟩] ++ B₂) := hcells
  obtain ⟨h', hrun, hrep, -⟩ := pfree_represents v.ok hcells v.rep
  obtain ⟨X, Y, hX, hXY⟩ := lives_freeCell v.ok hcells
  have hperm := v.live.trans ((hX ▸ List.perm_middle).map (payload k))
  rw [← haddr] at hrun hperm
  refine ⟨h', _, hrun, freeCell_ok v.ok hcells, hrep,
    (regions_freeCell v.ok hcells).symm ▸ v.regions, ?_, v.taken⟩
  have herase := hperm.erase (payload k b)
  rw [hXY]
  rwa [List.map_cons, show payload k ⟨b.addr, b.size⟩ = payload k b from rfl,
    List.erase_cons_head] at herase

/-- A store into the memory that the program holds. -/
theorem Valid.store {mem : Memory} {b : Block} (v : Valid s ps) (hb : b ∈ lives ps)
    (hmem : ∀ a, a < payload k b ∨ b.stop ≤ a → mem a = s.heap.mem a) :
    Valid ⟨({ s.heap with mem := mem } : Heap k), s.regions, s.live⟩ ps :=
  ⟨v.ok, v.rep.of_payload v.ok hb hmem, v.regions, v.live, v.taken⟩

theorem Valid.blockAt {b : Block} (v : Valid s ps) (hb : b ∈ lives ps) :
    s.blockAt (payload k b) = b := by
  have hflag := (v.rep.lives b hb).1
  rw [Session.blockAt, payload, Nat.add_sub_cancel, show LinkPtr.block b.addr = b.link from rfl,
    hflag, add_allocated_and_not (v.ok.lives_bounds hb).size]

end Valid

/-! ## The operations keep a session valid -/

section Keeps
variable {s : Session k} {ps : List Pool} {n ap num size : Nat}

theorem Rounds.link_le (hr : Rounds k n) : sizeofLink k ≤ need k n :=
  (Nat.le_add_left _ _).trans hr.le_need

/-- A request and a store into what it returns. -/
theorem Valid.palloc_store (mem : Memory → Nat → Memory) (v : Valid s ps) (hr : Rounds k n)
    (hmem : ∀ m q a, a < q ∨ q + n ≤ a → mem m q a = m a) :
    palloc s.heap n = some (s.heap, 0) ∨
      ∃ h' q ps', palloc s.heap n = some (h', q) ∧ q ≠ 0 ∧ q ∉ s.live ∧
        Valid ⟨({ h' with mem := mem h'.mem q } : Heap k), s.regions, q :: s.live⟩ ps' := by
  rcases v.request (.inr hr.link_le) with hrun | ⟨h', q, ps', b, hrun, hg⟩
  · exact .inl hrun
  · have hb : b ∈ lives ps' := hg.lives.mem_iff.mpr List.mem_cons_self
    have hneed := hr.le_need
    have hroom := hg.room
    refine .inr ⟨h', q, ps', hrun, hg.valid.live_ne_zero List.mem_cons_self,
      (List.nodup_cons.mp hg.valid.live_nodup).1, hg.valid.store hb fun a ha => hmem _ _ _ ?_⟩
    rw [hg.ptr]
    rw [payload, Block.stop] at *
    omega

theorem Valid.palloc_step (v : Valid s ps) (hr : Rounds k n) :
    ∃ s' ps', s.step (.palloc n) = some s' ∧ Valid s' ps' := by
  rcases v.request (.inr hr.link_le) with hrun | ⟨h', q, ps', b, hrun, hg⟩
  · exact ⟨s, ps, by rw [Session.step, hrun]; rfl, v⟩
  · have hq := hg.valid.live_ne_zero List.mem_cons_self
    refine ⟨⟨h', s.regions, q :: s.live⟩, ps', ?_, hg.valid⟩
    simp only [Session.step, hrun, Option.map_some, Session.granted, if_neg hq]

theorem Valid.pcalloc_step (v : Valid s ps) (hr : Rounds k (num * size % sizeMod k)) :
    ∃ s' ps', s.step (.pcalloc num size) = some s' ∧ Valid s' ps' := by
  by_cases h0 : num * size % sizeMod k > 0
  · rcases Valid.palloc_store (fun m q => m.fill q (num * size % sizeMod k) 0) v hr
      (fun m q a ha => Memory.fill_outside ha) with hrun | ⟨h', q, ps', hrun, hq, -, hv⟩
    · refine ⟨s, ps, ?_, v⟩
      simp only [Session.step, pcalloc, if_pos h0, hrun, Option.map_some]
      rfl
    · refine ⟨_, ps', ?_, hv⟩
      simp only [Session.step, pcalloc, if_pos h0, hrun, Option.map_some, if_pos hq,
        Session.granted, if_neg hq]
  · refine ⟨s, ps, ?_, v⟩
    simp only [Session.step, pcalloc, if_neg h0]
    rfl

theorem Valid.pfree_step {p : Nat} (v : Valid s ps) (hp : p = 0 ∨ p ∈ s.live) :
    ∃ s' ps', s.step (.pfree p) = some s' ∧ Valid s' ps' := by
  rcases hp with rfl | hp
  · have hnot : 0 ∉ s.live := fun h => v.live_ne_zero h rfl
    refine ⟨s, ps, ?_, v⟩
    simp only [Session.step, Palloc.pfree, if_true, Option.map_some, List.erase_of_not_mem hnot]
  · obtain ⟨h', ps', hrun, hv⟩ := v.freed hp
    refine ⟨_, ps', ?_, hv⟩
    rw [Session.step, hrun]
    rfl

theorem Valid.prealloc_step (v : Valid s ps) (hap : ap = 0 ∨ ap ∈ s.live) (hr : Rounds k n) :
    ∃ s' ps', s.step (.prealloc ap n) = some s' ∧ Valid s' ps' := by
  rcases hap with rfl | hap
  · have hnot : 0 ∉ s.live := fun h => v.live_ne_zero h rfl
    obtain ⟨s', ps', hrun, hv⟩ := v.palloc_step hr
    refine ⟨s', ps', ?_, hv⟩
    rw [← hrun]
    simp only [Session.step, prealloc, if_true, or_self, List.erase_of_not_mem hnot]
    rfl
  · have hne := v.live_ne_zero hap
    obtain ⟨b, hb, hpb⟩ := v.block_of_live hap
    have hplink : sizeSub k ap (sizeofLink k) = ap - sizeofLink k := by
      rw [hpb, v.ok.link_of_payload hb, payload, Nat.add_sub_cancel]
    by_cases hgrow : (s.heap.flagNsize (.block (ap - sizeofLink k)) &&&
        sizeNot k (pallocAllocated k)) < n
    · rcases Valid.palloc_store (fun m q => m.copy q ap n) v hr
        (fun m q a ha => Memory.copy_outside ha) with hrun | ⟨h', q, ps', hrun, hq, hnew, hv⟩
      · refine ⟨s, ps, ?_, v⟩
        simp only [Session.step, prealloc, if_neg hne, hplink, if_pos hgrow, hrun, ne_eq,
          not_true, if_false, Option.map_some, true_or, if_true]
      · obtain ⟨h'', ps'', hfree, hv'⟩ := hv.freed (List.mem_cons_of_mem q hap)
        have hqa : q ≠ ap := fun he => hnew (he ▸ hap)
        refine ⟨_, ps'', ?_, hv'⟩
        simp only [Session.step, prealloc, if_neg hne, hplink, if_pos hgrow, hrun, ne_eq, hq,
          not_false_eq_true, if_true, hfree, Option.map_some, false_or, if_neg hqa]
        rw [List.erase_cons_tail (by simpa using hqa)]
    · refine ⟨s, ps, ?_, v⟩
      simp only [Session.step, prealloc, if_neg hne, hplink, if_neg hgrow, Option.map_some,
        or_true, if_true]

theorem Valid.store_step {addr : Nat} {byte : UInt8} (v : Valid s ps)
    (haddr : ∃ p ∈ s.live, p ≤ addr ∧ addr < (s.blockAt p).stop) :
    ∃ s' ps', s.step (.store addr byte) = some s' ∧ Valid s' ps' := by
  obtain ⟨p, hp, hle, hlt⟩ := haddr
  obtain ⟨b, hb, rfl⟩ := v.block_of_live hp
  rw [v.blockAt hb] at hlt
  refine ⟨_, ps, rfl, v.store hb fun a ha => Function.update_of_ne ?_ _ _⟩
  omega

/-- **One step.** A permitted operation whose request rounds returns, and leaves the
heap laid out. -/
theorem Valid.step {op : Op} (v : Valid s ps) (hp : s.Permits op) (hr : op.Rounds k) :
    ∃ s' ps', s.step op = some s' ∧ Valid s' ps' := by
  cases op with
  | init r =>
    obtain ⟨h', ps', hrun, -, hv⟩ := v.given hp
    exact ⟨_, ps', by rw [Session.step, hrun]; rfl, hv⟩
  | palloc n => exact v.palloc_step hr
  | pcalloc num size => exact v.pcalloc_step hr
  | prealloc ap n => exact v.prealloc_step hp.1 hr
  | pfree p => exact v.pfree_step hp
  | store addr byte => exact v.store_step hp

end Keeps

/-! ## Runs -/

/-- The program does what it may. -/
def Permitted (s : Option (Session k)) (op : Op) : Prop := ∀ t, s = some t → t.Permits op

/-- It also makes no request that wraps when it is rounded. -/
def Proper (s : Option (Session k)) (op : Op) : Prop :=
  ∀ t, s = some t → t.Permits op ∧ op.Rounds k

/-- The session is there, and its heap is laid out. -/
def Laid (s : Option (Session k)) : Prop := ∃ t ps, s = some t ∧ Valid t ps

theorem laid_next (s : Option (Session k)) (op : Op) (hs : Laid s) (hp : Proper s op) :
    Laid (Session.next s op) := by
  obtain ⟨t, ps, rfl, v⟩ := hs
  obtain ⟨hperm, hround⟩ := hp t rfl
  obtain ⟨t', ps', hrun, hv⟩ := v.step hperm hround
  exact ⟨t', ps', hrun, hv⟩

/-- **Every run** of proper steps is laid out throughout. -/
theorem always_laid {mem : Memory} {ops : List Op}
    (h : Guarded Session.next Proper (some (Session.initial k mem)) ops) :
    Always Session.next Laid (some (Session.initial k mem)) ops :=
  h.always laid_next ⟨_, [], rfl, Valid.initial mem⟩

end Sdkz.Palloc
