import Sdkz.App.HupServer

/-! # The sockets of the servers (lib/app/udp.c)

`_init_udp` acquires a block and a bound socket or nothing, and `_deinit_udp` gives
both back. Addresses and descriptors that were given back come up again, so that a
handle that is closed twice would take the socket of another server with it.

Below the servers of `HupServer` this makes the transport handles, which are there
names that are never used again, real: through any sequence of proper calls the open
sockets are those of the servers that are set up. -/

namespace Sdkz.App
open Sdkz.Base

namespace UdpSocket

/-- What `errno` is set to by a call that fails. -/
structure Failure where
  errno : Int
  pos : 0 < errno

/-- What the calls of `_init_udp` result in. -/
structure Outcome where
  malloc : Option Nat
  socket : Except Failure Nat
  bind : Except Failure Unit

/-- The blocks of `malloc` and the open sockets, and the field `sock` of the handle at an
address. -/
structure Net where
  blocks : List Nat
  sockets : List Nat
  sock : Nat → Int

namespace Net

def initial : Net := ⟨[], [], fun _ => 0⟩

/-- `_bind_udp` -/
def bindUdp (n : Net) (h : Nat) (o : Outcome) : Int × Net :=
  match o.socket with
  | .error e => (-e.errno, { n with sock := Function.update n.sock h (-1) })
  | .ok fd =>
    let n := { n with sockets := fd :: n.sockets, sock := Function.update n.sock h fd }
    match o.bind with
    | .error e => (-e.errno, { n with sockets := n.sockets.erase fd })
    | .ok () => (0, n)

/-- `_init_udp` -/
def initUdp (n : Net) (o : Outcome) : Option Nat × Net :=
  match o.malloc with
  | none => (none, n)
  | some h =>
    let r := bindUdp { n with blocks := h :: n.blocks } h o
    if r.1 ≠ 0 then (none, { r.2 with blocks := r.2.blocks.erase h }) else (some h, r.2)

/-- `_deinit_udp` -/
def deinitUdp (n : Net) (h : Nat) : Net :=
  let n := if 0 ≤ n.sock h then { n with sockets := n.sockets.erase (n.sock h).toNat } else n
  { n with blocks := n.blocks.erase h }

/-- A block or a descriptor that is handed out is not in use. -/
def Fresh (n : Net) (o : Outcome) : Prop :=
  (∀ h, o.malloc = some h → h ∉ n.blocks) ∧ ∀ fd, o.socket = .ok fd → fd ∉ n.sockets

variable {n : Net} {o : Outcome}

/-- A socket that cannot be bound is closed again. -/
theorem bindUdp_cases (n : Net) (h : Nat) (o : Outcome) :
    ((bindUdp n h o).1 ≠ 0 ∧
        ∃ v, (bindUdp n h o).2 = { n with sock := Function.update n.sock h v }) ∨
      ∃ fd : Nat, o.socket = .ok fd ∧ bindUdp n h o =
        (0, { n with sockets := fd :: n.sockets, sock := Function.update n.sock h fd }) := by
  have hneg : ∀ e : Failure, -e.errno ≠ 0 := fun e => Int.neg_ne_zero.mpr (Int.ne_of_gt e.pos)
  rw [bindUdp]
  cases o.socket with
  | error e => exact .inl ⟨hneg e, _, rfl⟩
  | ok fd =>
    cases o.bind with
    | error e =>
      refine .inl ⟨hneg e, fd, ?_⟩
      simp only [List.erase_cons_head]
    | ok u => exact .inr ⟨fd, rfl, rfl⟩

/-- A call that fails leaves what is in use as it was. -/
theorem initUdp_none (h : (n.initUdp o).1 = none) : (n.initUdp o).2.blocks = n.blocks ∧
    (n.initUdp o).2.sockets = n.sockets ∧
      ∀ q, o.malloc ≠ some q → (n.initUdp o).2.sock q = n.sock q := by
  rw [initUdp] at h ⊢
  cases hmalloc : o.malloc with
  | none => exact ⟨rfl, rfl, fun _ _ => rfl⟩
  | some p =>
    rw [hmalloc] at h
    rcases bindUdp_cases { n with blocks := p :: n.blocks } p o with ⟨hne, v, hv⟩ | ⟨fd, -, heq⟩
    · simp only [if_pos hne, hv, List.erase_cons_head, true_and]
      exact fun q hq => Function.update_of_ne (fun he => hq (congrArg some he.symm)) ..
    · simp [heq] at h

/-- A call that succeeds has a block and a socket. -/
theorem initUdp_some {p : Nat} (h : (n.initUdp o).1 = some p) :
    o.malloc = some p ∧ ∃ fd : Nat, o.socket = .ok fd ∧
      (n.initUdp o).2 = ⟨p :: n.blocks, fd :: n.sockets, Function.update n.sock p fd⟩ := by
  rw [initUdp] at h ⊢
  cases hmalloc : o.malloc with
  | none =>
    rw [hmalloc] at h
    cases h
  | some q =>
    rw [hmalloc] at h
    rcases bindUdp_cases { n with blocks := q :: n.blocks } q o with ⟨hne, -⟩ | ⟨fd, hfd, heq⟩
    · simp only [if_pos hne] at h
      cases h
    · simp only [heq, ne_eq, not_true_eq_false, if_false, Option.some.injEq] at h
      subst h
      exact ⟨rfl, fd, hfd, by simp [heq]⟩

end Net

/-! ## What the handles hold -/

section Holds
variable {ι : Type} {n : Net} {o : Outcome} {addr : ι → Nat} {l l' : List ι} {d : ι} {p : Nat}

/-- The blocks and the open sockets are those of the listed handles, and each has its own. -/
structure Holds (n : Net) (addr : ι → Nat) (l : List ι) : Prop where
  blocks : n.blocks.Perm (l.map addr)
  sockets : n.sockets.Perm (l.map fun d => (n.sock (addr d)).toNat)
  open_ : ∀ d ∈ l, 0 ≤ n.sock (addr d)
  blocksNodup : n.blocks.Nodup
  socketsNodup : n.sockets.Nodup

theorem initial_holds (addr : ι → Nat) : Holds .initial addr [] :=
  ⟨.nil, .nil, fun _ h => by (cases h), List.nodup_nil, List.nodup_nil⟩

theorem Holds.of_perm (H : Holds n addr l) (hperm : l.Perm l') : Holds n addr l' :=
  ⟨H.blocks.trans (hperm.map _), H.sockets.trans (hperm.map _),
    fun d hd => H.open_ d (hperm.mem_iff.mpr hd), H.blocksNodup, H.socketsNodup⟩

/-- A block that is handed out is that of no handle. -/
theorem Holds.apart (H : Holds n addr l) (hp : p ∉ n.blocks) : ∀ d ∈ l, addr d ≠ p := by
  rintro d hd rfl
  exact hp (H.blocks.mem_iff.mpr (List.mem_map_of_mem hd))

theorem Holds.failed (H : Holds n addr l) (hfresh : n.Fresh o) (hnone : (n.initUdp o).1 = none) :
    Holds (n.initUdp o).2 addr l := by
  obtain ⟨hblocks, hsockets, hsock⟩ := Net.initUdp_none hnone
  have hsame : ∀ d ∈ l, (n.initUdp o).2.sock (addr d) = n.sock (addr d) := fun d hd =>
    hsock _ fun hmalloc => H.apart (hfresh.1 _ hmalloc) d hd rfl
  refine ⟨hblocks ▸ H.blocks, ?_, fun d hd => ?_, hblocks ▸ H.blocksNodup,
    hsockets ▸ H.socketsNodup⟩
  · rw [hsockets, List.map_congr_left fun d hd => by rw [hsame d hd]]
    exact H.sockets
  · rw [hsame d hd]
    exact H.open_ d hd

theorem Holds.opened [DecidableEq ι] (H : Holds n addr l) (hfresh : n.Fresh o)
    (hsome : (n.initUdp o).1 = some p) (hd : d ∉ l) :
    Holds (n.initUdp o).2 (Function.update addr d p) (d :: l) := by
  obtain ⟨hmalloc, fd, hsocket, heq⟩ := Net.initUdp_some hsome
  have hp := hfresh.1 p hmalloc
  have haddr : ∀ q ∈ l, Function.update addr d p q = addr q := fun q hq =>
    Function.update_of_ne (fun he : q = d => hd (he ▸ hq)) ..
  have hsock : ∀ q ∈ l, Function.update n.sock p fd (Function.update addr d p q) =
      n.sock (addr q) := fun q hq => by
    rw [haddr q hq, Function.update_of_ne (H.apart hp q hq)]
  rw [heq]
  refine ⟨?_, ?_, fun q hq => ?_, List.nodup_cons.mpr ⟨hp, H.blocksNodup⟩,
    List.nodup_cons.mpr ⟨hfresh.2 fd hsocket, H.socketsNodup⟩⟩
  · rw [List.map_cons, Function.update_self, List.map_congr_left haddr]
    exact H.blocks.cons p
  · simp only [List.map_cons, Function.update_self, Int.toNat_natCast]
    rw [List.map_congr_left fun q hq => congrArg Int.toNat (hsock q hq)]
    exact H.sockets.cons fd
  · rcases List.mem_cons.mp hq with rfl | hq
    · simp
    · exact (H.open_ q hq).trans_eq (hsock q hq).symm

theorem Holds.closed (H : Holds n addr (d :: l)) : Holds (n.deinitUdp (addr d)) addr l := by
  have hopen := H.open_ d List.mem_cons_self
  rw [Net.deinitUdp, if_pos hopen]
  have hblocks := H.blocks.erase (addr d)
  have hsockets := H.sockets.erase (n.sock (addr d)).toNat
  rw [List.map_cons, List.erase_cons_head] at hblocks hsockets
  exact ⟨hblocks, hsockets, fun q hq => H.open_ q (List.mem_cons_of_mem _ hq),
    H.blocksNodup.erase _, H.socketsNodup.erase _⟩

theorem Holds.closedAll {closing : List ι} (H : Holds n addr (closing ++ l)) :
    Holds (closing.foldl (fun n d => n.deinitUdp (addr d)) n) addr l := by
  induction closing generalizing n with
  | nil => exact H
  | cons d closing ih => exact ih H.closed

end Holds

/-! ## Under the servers -/

section Servers
open HupServer

/-- The transport handle belongs to `udp_server`. -/
def isUdp (udp : AppApi) : Resource → Bool
  | .drv api _ => api = udp
  | .block _ => false

/-- The call comes to `_init_udp`. -/
def asks (udp : AppApi) : Call → Bool
  | .init api _ o => api = udp && api.init && o.palloc
  | _ => false

/-- It comes back with a transport handle. -/
def finds : Call → Bool
  | .init _ _ o => o.drv
  | _ => false

/-- What was put in front of a list. -/
def newer {α : Type} (l l' : List α) : List α := l'.take (l'.length - l.length)

theorem newer_append {α : Type} (l new : List α) : newer l (new ++ l) = new := by
  rw [newer, List.length_append, Nat.add_sub_cancel, List.take_left]

/-- The servers, what their transport handles hold, and where these lie. -/
structure Servers where
  session : Option Session
  net : Net
  addr : Resource → Nat

def Servers.initial : Servers := ⟨some .initial, .initial, fun _ => 0⟩

/-- A call, with what the calls of `_init_udp` result in if it comes to them. The transport
handles it gives back are closed behind it, in their order. -/
def Servers.step (udp : AppApi) (s : Servers) (c : Call × Outcome) : Servers :=
  match s.session, Session.next s.session c.1 with
  | some t, some t' =>
    let r := if asks udp c.1 then s.net.initUdp c.2 else (none, s.net)
    let opened := (newer t.world.ledger.acquired t'.world.ledger.acquired).filter (isUdp udp)
    let closed := (newer t.world.ledger.released t'.world.ledger.released).filter (isUdp udp)
    let addr := match r.1 with
      | some p => opened.foldl (fun f d => Function.update f d p) s.addr
      | none => s.addr
    ⟨some t', closed.reverse.foldl (fun n d => n.deinitUdp (addr d)) r.2, addr⟩
  | _, _ => { s with session := none }

/-- The call is proper, and its transport handle is the result of `_init_udp`. -/
def Permitted (udp : AppApi) (s : Servers) (c : Call × Outcome) : Prop :=
  Proper s.session c.1 ∧
    (asks udp c.1 → s.net.Fresh c.2 ∧ finds c.1 = (s.net.initUdp c.2).1.isSome)

/-- The calls have returned, and the open sockets are those of the servers. -/
def Exact (udp : AppApi) (s : Servers) : Prop :=
  ∃ t, s.session = some t ∧ Holds s.net s.addr (t.held.filter (isUdp udp))

variable {udp : AppApi} {t t' : Session} {c : Call}

/-- What a proper call adds to the ledger. -/
theorem ledger_step (udp : AppApi) (I : t.Inv) (hp : t.Proper c) (hstep : t.step c = some t') :
    ∃ new gone, t'.world.ledger.acquired = new ++ t.world.ledger.acquired ∧
      t'.world.ledger.released = gone ++ t.world.ledger.released ∧
      new.filter (isUdp udp) = if asks udp c && finds c then [.drv udp (t.world.next + 1)] else [] := by
  cases c with
  | init api stack o =>
    have hr : .block t.world.next ∉ t.world.ledger.released := I.not_released (Nat.le_refl _)
    simp only [Session.step] at hstep
    by_cases hsome : api.init ∧ o.palloc
    · obtain ⟨hinit, hpalloc⟩ := hsome
      by_cases hdrv : o.drv
      · rw [initHupServer_start hinit hpalloc hdrv hr] at hstep
        have hproper := hp hinit hpalloc hdrv
        -- the one transport handle that is acquired
        have hfilter : [Resource.drv api (t.world.next + 1)].filter (isUdp udp) =
            if asks udp (.init api stack o) && finds (.init api stack o) then
              [.drv udp (t.world.next + 1)] else [] := by
          by_cases hudp : api = udp
          · subst hudp
            simp [asks, finds, isUdp, hinit, hpalloc, hdrv]
          · simp [asks, isUdp, hudp]
        cases hhup : o.hup with
        | false =>
          rw [hhup, if_neg Bool.false_ne_true] at hproper
          rw [hhup, startServer_failed (World.prepared_without _ _) hr hproper] at hstep
          obtain rfl := Option.some.inj hstep
          exact ⟨[.drv api (t.world.next + 1), .block t.world.next],
            [.block t.world.next, .drv api (t.world.next + 1)], rfl, rfl, hfilter⟩
        | true =>
          rw [hhup, if_pos rfl] at hproper
          rw [hhup, startServer_started (World.prepared_with _ _) hr hproper] at hstep
          obtain rfl := Option.some.inj hstep
          exact ⟨[.block (t.world.next + 2), .drv api (t.world.next + 1), .block t.world.next], [],
            rfl, rfl, hfilter⟩
      · rw [initHupServer_no_drv hinit hpalloc hdrv hr] at hstep
        obtain rfl := Option.some.inj hstep
        refine ⟨[.block t.world.next], [.block t.world.next], rfl, rfl, ?_⟩
        simp [finds, hdrv, isUdp]
    · rw [initHupServer_nothing hsome] at hstep
      obtain rfl := Option.some.inj hstep
      refine ⟨[], [], rfl, rfl, ?_⟩
      have hasks : asks udp (.init api stack o) = false := by
        simpa [asks] using fun _ hinit => by simpa using fun h => hsome ⟨hinit, h⟩
      rw [hasks]
      rfl
  | deinit handle given =>
    cases handle with
    | none =>
      obtain rfl := Option.some.inj hstep
      exact ⟨[], [], rfl, rfl, rfl⟩
    | some h =>
      obtain ⟨hs, hd, a, hh, ha, rfl, hdeinit⟩ := hp
      obtain ⟨p, d, a', hh'⟩ := I.complete h hs
      obtain rfl := Option.some.inj (hh'.symm.trans hh)
      obtain rfl := Option.some.inj ha
      rw [Session.step, deinitHupServer_eq hh' (I.server_kept hs) hdeinit] at hstep
      obtain rfl := Option.some.inj hstep
      exact ⟨[], [.block h, .block p, .drv a' d], rfl, rfl, rfl⟩
  | turn h received =>
    rw [Session.step] at hstep
    by_cases ht : h ∈ t.world.threads
    · obtain ⟨p, d, a, hh⟩ := I.complete h (I.threads h ht)
      rw [if_pos ht, serve_eq hh (I.server_kept (I.threads h ht))] at hstep
      obtain rfl := Option.some.inj hstep
      refine ⟨[], [], ?_, ?_, rfl⟩ <;>
      · dsimp only
        split <;> rfl
    · rw [if_neg ht] at hstep
      obtain rfl := Option.some.inj hstep
      exact ⟨[], [], rfl, rfl, rfl⟩

/-- What was held and what is opened is what is closed and what is held then. -/
theorem held_step (udp : AppApi) (I : t.Inv) (I' : t'.Inv) {new gone : List Resource}
    (hnew : t'.world.ledger.acquired = new ++ t.world.ledger.acquired)
    (hgone : t'.world.ledger.released = gone ++ t.world.ledger.released) :
    (new.filter (isUdp udp) ++ t.held.filter (isUdp udp)).Perm
      (gone.filter (isUdp udp) ++ t'.held.filter (isUdp udp)) := by
  have hbefore := I.accounts.perm.filter (isUdp udp)
  have hafter := I'.accounts.perm.filter (isUdp udp)
  rw [hnew, hgone, List.filter_append, List.filter_append, List.filter_append] at hafter
  rw [List.filter_append] at hbefore
  refine (List.perm_append_left_iff (t.world.ledger.released.filter (isUdp udp))).mp ?_
  have hleft : (t.world.ledger.released.filter (isUdp udp) ++
      (new.filter (isUdp udp) ++ t.held.filter (isUdp udp))).Perm
      (new.filter (isUdp udp) ++ t.world.ledger.acquired.filter (isUdp udp)) := by
    refine List.Perm.trans ?_ (hbefore.symm.append_left _)
    rw [← List.append_assoc, ← List.append_assoc]
    exact List.perm_append_comm.append_right _
  have hright : (gone.filter (isUdp udp) ++ t.world.ledger.released.filter (isUdp udp) ++
      t'.held.filter (isUdp udp)).Perm (t.world.ledger.released.filter (isUdp udp) ++
        (gone.filter (isUdp udp) ++ t'.held.filter (isUdp udp))) := by
    rw [← List.append_assoc]
    exact List.perm_append_comm.append_right _
  exact hleft.trans (hafter.trans hright)

/-- What `_init_udp` leaves, before anything is closed. -/
theorem opened_holds {s : Servers} {o : Outcome} (I : t.Inv)
    (H : Holds s.net s.addr (t.held.filter (isUdp udp)))
    (hpermitted : asks udp c → s.net.Fresh o ∧ finds c = (s.net.initUdp o).1.isSome)
    {new : List Resource} (hopened : new.filter (isUdp udp) =
      if asks udp c && finds c then [.drv udp (t.world.next + 1)] else []) :
    let r := if asks udp c then s.net.initUdp o else (none, s.net)
    Holds r.2 (match r.1 with
      | some p => (new.filter (isUdp udp)).foldl (fun f d => Function.update f d p) s.addr
      | none => s.addr) (new.filter (isUdp udp) ++ t.held.filter (isUdp udp)) := by
  by_cases hasks : asks udp c
  · obtain ⟨hfresh, hfinds⟩ := hpermitted hasks
    simp only [if_pos hasks]
    rw [hasks, Bool.true_and, hfinds] at hopened
    cases hr : (s.net.initUdp o).1 with
    | none =>
      rw [hr] at hopened
      rw [hopened]
      exact H.failed hfresh hr
    | some p =>
      rw [hr] at hopened
      rw [hopened]
      refine H.opened hfresh hr fun hmem => ?_
      have hheld := (List.mem_filter.mp hmem).1
      have hacquired := I.accounts.mem_acquired.mpr (.inr hheld)
      exact absurd (I.below _ hacquired) (Nat.not_lt_of_le (Nat.le_succ _))
  · rw [Bool.not_eq_true] at hasks
    simp only [hasks, Bool.false_and] at hopened ⊢
    rw [hopened]
    exact H

/-- Every state of the servers in which the calls have returned. -/
def Servers.Inv (udp : AppApi) (s : Servers) : Prop :=
  ∃ t, s.session = some t ∧ t.Inv ∧ Holds s.net s.addr (t.held.filter (isUdp udp))

theorem Servers.Inv.step {s : Servers} {c : Call × Outcome} (I : s.Inv udp)
    (hpermitted : Permitted udp s c) : (s.step udp c).Inv udp := by
  obtain ⟨t, hsession, It, H⟩ := I
  obtain ⟨t', hstep, It'⟩ := It.step (hpermitted.1 t hsession)
  obtain ⟨new, gone, hnew, hgone, hopened⟩ :=
    ledger_step udp It (hpermitted.1 t hsession) hstep
  have hheld := held_step udp It It' hnew hgone
  have hopen := opened_holds It H hpermitted.2 hopened
  have hnext : Session.next s.session c.1 = some t' := by
    rw [hsession]
    exact hstep
  refine ⟨t', ?_, It', ?_⟩
  · simp only [Servers.step, hsession, hsession ▸ hnext]
  · simp only [Servers.step, hsession, hsession ▸ hnext, hnew, hgone, newer_append]
    refine Holds.closedAll (hopen.of_perm (hheld.trans ?_))
    exact (List.reverse_perm _).symm.append_right _

/-- **The open sockets are those of the servers**, in every sequence of proper calls: what
a call that fails has opened is closed again, and no server closes the socket of another. -/
theorem sockets_always_held (udp : AppApi) {l : List (Call × Outcome)}
    (hpermitted : Guarded (Servers.step udp) (Permitted udp) .initial l) :
    Always (Servers.step udp) (Exact udp) .initial l := by
  have hinitial : Servers.initial.Inv udp := ⟨_, rfl, initial_inv, initial_holds _⟩
  intro p hp
  obtain ⟨t, hsession, -, H⟩ := hpermitted.always (fun _ _ I h => I.step h) hinitial p hp
  exact ⟨t, hsession, H⟩

def udpServer : AppApi := ⟨0, true, true⟩

/-- The port is in use while the first server has it; then both its block and its descriptor
come up again. -/
def portInUse : List (Call × Outcome) :=
  [(.init udpServer true ⟨true, true, true⟩, ⟨some 100, .ok 3, .ok ()⟩),
    (.init udpServer true ⟨true, false, true⟩, ⟨some 101, .ok 4, .error ⟨98, by decide⟩⟩),
    (.deinit (some 0) (some udpServer), ⟨none, .ok 5, .ok ()⟩),
    (.init udpServer true ⟨true, true, true⟩, ⟨some 100, .ok 3, .ok ()⟩)]

theorem portInUse_permitted :
    Guarded (Servers.step udpServer) (Permitted udpServer) .initial portInUse := by
  have hinit : ∀ (s : Servers) o (out : Outcome) h fd, o.hup → out.malloc = some h →
      out.socket = .ok fd → h ∉ s.net.blocks → fd ∉ s.net.sockets →
      finds (.init udpServer true o) = (s.net.initUdp out).1.isSome →
      Permitted udpServer s (.init udpServer true o, out) := by
    intro s o out h fd hhup hmalloc hsocket hblock hfd hfinds
    refine ⟨fun t _ _ _ _ => ?_, fun _ => ⟨⟨?_, ?_⟩, hfinds⟩⟩
    · rw [if_pos hhup]
    · intro h' heq
      exact Option.some.inj (hmalloc.symm.trans heq) ▸ hblock
    · intro fd' heq
      exact Except.ok.inj (hsocket.symm.trans heq) ▸ hfd
  simp only [portInUse, guarded_cons]
  refine ⟨hinit _ _ _ _ _ rfl rfl rfl (by decide) (by decide) rfl,
    hinit _ _ _ _ _ rfl rfl rfl (by decide) (by decide) rfl, ⟨?_, fun h => by cases h⟩,
    hinit _ _ _ _ _ rfl rfl rfl (by decide) (by decide) rfl, guarded_nil⟩
  intro t ht
  obtain rfl := Option.some.inj ht
  exact ⟨by decide, _, _, rfl, rfl, rfl, rfl⟩

theorem portInUse_held : Always (Servers.step udpServer) (Exact udpServer) .initial portInUse :=
  sockets_always_held udpServer portInUse_permitted

end Servers

end UdpSocket

end Sdkz.App
