import Mathlib.Logic.Function.Basic
import Sdkz.Base.Ledger
import Sdkz.Base.Run

/-! # Setting up and tearing down servers (app/src/hup_server.c)

`init_hup_server` acquires a block for its handle, a transport handle and a packet handle,
and starts a thread that works on them. If one of them is not to be had, the labels at its
end give back what there is. Without a stack for the thread it tears the server down, and
then falls through to the labels. -/

namespace Sdkz.App
open Sdkz.Base

namespace HupServer

/-- `struct app_api`: where it lies, and which of the functions called here are set. -/
structure AppApi where
  addr : Nat
  init : Bool
  deinit : Bool
deriving DecidableEq, Repr

/-- `struct handle`. -/
structure Handle where
  hup : Option Nat
  drv : Option Nat
  api : Option AppApi
  tid : Option Nat

/-- What is acquired and released: memory from `palloc`, and the handle of a transport. -/
inductive Resource where
  | block (p : Nat)
  | drv (api : AppApi) (d : Nat)
deriving DecidableEq, Repr

/-- No address is used again, so that each resource has its own. -/
structure World where
  /-- the address of what is acquired next -/
  next : Nat
  handles : Nat → Option Handle
  ledger : Ledger Resource
  /-- the threads that run, by the handles they work on -/
  threads : List Nat
  /-- a field of a handle was read after the handle was freed -/
  stale : Bool

/-- What the calls of `init_hup_server` result in. -/
structure Outcome where
  palloc : Bool
  drv : Bool
  hup : Bool
deriving DecidableEq, Repr

namespace World

def initial : World where
  next := 0
  handles _ := none
  ledger := .empty
  threads := []
  stale := false

def palloc (w : World) (ok : Bool) : Option Nat × World :=
  if ok then
    (some w.next, { w with next := w.next + 1, ledger := w.ledger.acquire (.block w.next) })
  else (none, w)

/-- What is in the block stays there. -/
def pfree (w : World) (p : Nat) : World := { w with ledger := w.ledger.release (.block p) }

/-- `api->init`. -/
def initDrv (w : World) (api : AppApi) (ok : Bool) : Option Nat × World :=
  if ok then
    (some w.next, { w with next := w.next + 1, ledger := w.ledger.acquire (.drv api w.next) })
  else (none, w)

/-- `api->deinit`; there is no call of a function that is not set. -/
def deinitDrv (w : World) (api : AppApi) (drv : Option Nat) : Option World :=
  if api.deinit then
    match drv with
    | some d => some { w with ledger := w.ledger.release (.drv api d) }
    | none => some w
  else none

/-- A field of the handle `h` is read. -/
def field {β : Type} (w : World) (h : Nat) (f : Handle → β) : Option (β × World) :=
  (w.handles h).map fun hd =>
    (f hd, { w with stale := w.stale || decide (.block h ∈ w.ledger.released) })

def store (w : World) (h : Nat) (f : Handle → Handle) : World :=
  { w with handles := Function.update w.handles h ((w.handles h).map f) }

/-- `memset(h, 0, sizeof(struct handle))`. -/
def memset (w : World) (h : Nat) : World :=
  { w with handles := Function.update w.handles h (some ⟨none, none, none, none⟩) }

/-- `k_thread_create`; the data of the thread is in its handle. -/
def createThread (w : World) (h : Nat) : Option Nat × World :=
  (some h, { w with threads := h :: w.threads })

/-- `k_thread_join` and `k_thread_abort`. -/
def abortThread (w : World) (tid : Nat) : World :=
  { w with threads := w.threads.filter (· ≠ tid) }

end World

/-! ## lib/hu/hupacket.c -/

def initHupacket (w : World) (h : Option Nat) (ok : Bool) : Option Nat × World :=
  match h with
  | some p => (some p, w)
  | none => w.palloc ok

def deinitHupacket (w : World) (h : Option Nat) : World :=
  match h with
  | some p => w.pfree p
  | none => w

/-! ## app/src/hup_server.c -/

/-- The transport is given back if there is one. -/
def closeDrv (w : World) (drv : Option Nat) (api : Option AppApi) : Option World :=
  match drv, api with
  | some d, some api => w.deinitDrv api (some d)
  | _, _ => some w

/-- The thread is ended if there is one. -/
def endThread (w : World) (tid : Option Nat) : World :=
  match tid with
  | some tid => w.abortThread tid
  | none => w

def deinitHupServer (w : World) (handle : Option Nat) (api : Option AppApi) : Option World :=
  match handle with
  | none => some w
  | some h => do
    let (drv, w) ← w.field h Handle.drv
    let w ← closeDrv w drv api
    let (tid, w) ← w.field h Handle.tid
    let (hup, w) ← (endThread w tid).field h Handle.hup
    some ((deinitHupacket w hup).pfree h)

/-- The label `error_drv_init_hup_server`. -/
def errorDrv (w : World) (h : Nat) : Option (Option Nat × World) := some (none, w.pfree h)

/-- The label `error_hup_init_hup_server`, and what it falls through to. -/
def errorHup (w : World) (h : Nat) (api : AppApi) : Option (Option Nat × World) :=
  if api.deinit then do
    let (drv, w) ← w.field h Handle.drv
    let w ← w.deinitDrv api drv
    errorDrv w h
  else errorDrv w h

/-- The part of `init_hup_server` behind `init_hupacket`. -/
def startServer (w : World) (h : Nat) (api : AppApi) (stack : Bool) :
    Option (Option Nat × World) := do
  let (hup, w) ← w.field h Handle.hup
  if hup = none then errorHup w h api
  else if stack then
    let (tid, w) := w.createThread h
    let w := w.store h fun hd => { hd with tid }
    -- k_thread_name_set(h->tid, name)
    let (_, w) ← w.field h Handle.tid
    some (some h, w)
  else
    let w ← deinitHupServer w (some h) (some api)
    errorHup w h api

def initHupServer (w : World) (api : AppApi) (stack : Bool) (o : Outcome) :
    Option (Option Nat × World) :=
  if api.init then
    match w.palloc o.palloc with
    | (none, w) => some (none, w)
    | (some h, w) => do
      let w := w.memset h
      let (drv, w) := w.initDrv api o.drv
      let w := w.store h fun hd => { hd with drv }
      let (drv, w) ← w.field h Handle.drv
      if drv = none then errorDrv w h
      else
        let w := w.store h fun hd => { hd with api := some api }
        let (_, w) ← w.field h Handle.drv
        let (hup, w) := initHupacket w none o.hup
        let w := w.store h fun hd => { hd with hup }
        startServer w h api stack
  else some (none, w)

/-- A turn of the loop of `_hup_server`, with what `recv` returned. -/
def serve (w : World) (h : Nat) (received : Int) : Option World := do
  let (_, w) ← w.field h Handle.api
  let (_, w) ← w.field h Handle.drv
  if received < 0 then some (w.abortThread h)
  else if received ≠ 0 then do
    let (_, w) ← w.field h Handle.hup
    some w
  else some w

/-! ## Sequences of calls -/

/-- The servers are the handles that were returned and not torn down. -/
structure Session where
  world : World
  servers : List Nat

inductive Call where
  | init (api : AppApi) (stack : Bool) (o : Outcome)
  | deinit (handle : Option Nat) (api : Option AppApi)
  | turn (h : Nat) (received : Int)
deriving DecidableEq, Repr

def Session.initial : Session := ⟨.initial, []⟩

def Session.step (s : Session) : Call → Option Session
  | .init api stack o =>
    (initHupServer s.world api stack o).map fun (h, w) => ⟨w, h.toList ++ s.servers⟩
  | .deinit handle api =>
    (deinitHupServer s.world handle api).map fun w => ⟨w, handle.elim s.servers s.servers.erase⟩
  | .turn h received =>
    if h ∈ s.world.threads then (serve s.world h received).map fun w => ⟨w, s.servers⟩
    else some s

/-- A call that does not return leaves no session. -/
def Session.next (s : Option Session) (c : Call) : Option Session := s.bind (·.step c)

/-- What belongs to a handle. -/
def Handle.resources (hd : Handle) (h : Nat) : List Resource :=
  .block h :: (hd.hup.toList.map .block ++
    match hd.drv, hd.api with
    | some d, some api => [.drv api d]
    | _, _ => [])

def World.resources (w : World) (h : Nat) : List Resource :=
  ((w.handles h).map fun hd => hd.resources h).getD []

/-- What belongs to the servers. -/
def Session.held (s : Session) : List Resource := s.servers.flatMap s.world.resources

/-- What belongs to a server was not released, and all else was released once; no field of a
handle was read after the handle was freed, and no thread goes on to read them. -/
structure Session.Clean (s : Session) : Prop where
  kept : ∀ r ∈ s.held, r ∉ s.world.ledger.released
  once : ∀ r ∈ s.world.ledger.acquired, r ∉ s.held → s.world.ledger.released.count r = 1
  read : s.world.stale = false
  running : ∀ h ∈ s.world.threads, .block h ∉ s.world.ledger.released

/-- All calls have returned, and what they acquired is accounted for. -/
def Accounted (s : Option Session) : Prop := ∃ t, s = some t ∧ t.Clean

/-- Without a packet handle the transport has a function to give it back, and with one there
is a stack for the thread; a server is torn down with the transport that it was set up with,
which has such a function. -/
def Session.Proper (s : Session) : Call → Prop
  | .init api stack o => api.init → o.palloc → o.drv → if o.hup then stack else api.deinit
  | .deinit none _ => True
  | .deinit (some h) api => h ∈ s.servers ∧ ∃ hd a, s.world.handles h = some hd ∧
      hd.api = some a ∧ api = some a ∧ a.deinit
  | .turn _ _ => True

def Proper (s : Option Session) (c : Call) : Prop := ∀ t, s = some t → t.Proper c

/-! ## Fields -/

section Fields
variable {β : Type} {w : World} {h n : Nat} {hd : Handle} {f : Handle → β}

/-- Reading a handle that is not freed leaves nothing behind. -/
theorem World.field_eq (hh : w.handles h = some hd) (hr : .block h ∉ w.ledger.released) :
    w.field h f = some (f hd, w) := by
  rw [World.field, hh, Option.map_some, decide_eq_false hr, Bool.or_false]

theorem World.field_none (hh : w.handles h = none) : w.field h f = none := by
  rw [World.field, hh, Option.map_none]

end Fields

/-! ## `deinit_hup_server` -/

section Deinit
variable {w w' : World} {h p d : Nat} {hd : Handle} {api a : AppApi} {t : Option Nat}
  {given : Option AppApi}

theorem closeDrv_some (hapi : api.deinit) :
    closeDrv w (some d) (some api) = some { w with ledger := w.ledger.release (.drv api d) } :=
  if_pos hapi

theorem endThread_eq (w : World) (tid : Option Nat) : endThread w tid =
    { w with threads := tid.elim w.threads fun tid => w.threads.filter (· ≠ tid) } := by
  cases tid <;> rfl

/-- All that belongs to the handle is released. -/
theorem deinitHupServer_eq (hh : w.handles h = some ⟨some p, some d, some a, t⟩)
    (hr : .block h ∉ w.ledger.released) (hapi : api.deinit) :
    deinitHupServer w (some h) (some api) = some { w with
      ledger := ((w.ledger.release (.drv api d)).release (.block p)).release (.block h)
      threads := t.elim w.threads fun tid => w.threads.filter (· ≠ tid) } := by
  have hr' : Resource.block h ∉ Resource.drv api d :: w.ledger.released := by
    simp [hr]
  simp only [deinitHupServer, Option.bind_eq_bind, Option.bind_some, closeDrv_some hapi,
    endThread_eq, World.field, hh, Option.map_some, Ledger.release_released, hr, hr', decide_false,
    Bool.or_false]
  rfl

/-- Without a transport its handle is kept. -/
theorem deinitHupServer_no_api (hh : w.handles h = some ⟨some p, some d, some a, t⟩)
    (hr : .block h ∉ w.ledger.released) :
    deinitHupServer w (some h) none = some { w with
      ledger := (w.ledger.release (.block p)).release (.block h)
      threads := t.elim w.threads fun tid => w.threads.filter (· ≠ tid) } := by
  simp only [deinitHupServer, Option.bind_eq_bind, Option.bind_some, closeDrv, endThread_eq,
    World.field, hh, Option.map_some, hr, decide_false, Bool.or_false]
  rfl

/-- The function that is called is not set. -/
theorem deinitHupServer_unset (hh : w.handles h = some ⟨some p, some d, some a, t⟩)
    (hr : .block h ∉ w.ledger.released) (hapi : ¬ api.deinit) :
    deinitHupServer w (some h) (some api) = none := by
  simp only [deinitHupServer, World.field_eq hh hr, Option.bind_eq_bind, Option.bind_some,
    closeDrv, World.deinitDrv, if_neg hapi, Option.bind_none]

theorem deinitHupServer_unknown (hh : w.handles h = none) :
    deinitHupServer w (some h) given = none := by
  simp only [deinitHupServer, World.field_none hh, Option.bind_eq_bind, Option.bind_none]

/-- Reading a field, once it was a freed one. -/
theorem World.field_stale {β : Type} {f : Handle → β} {v : β} (hs : w.stale = true)
    (hrun : w.field h f = some (v, w')) : w'.stale = true := by
  obtain ⟨hd, -, he⟩ := Option.map_eq_some_iff.mp hrun
  obtain ⟨-, rfl⟩ := Prod.mk.inj he
  exact Bool.or_eq_true_iff.mpr (.inl hs)

theorem closeDrv_stale {drv : Option Nat} (hs : w.stale = true)
    (hrun : closeDrv w drv given = some w') : w'.stale = true := by
  unfold closeDrv at hrun
  split at hrun
  · unfold World.deinitDrv at hrun
    split at hrun
    · obtain rfl := Option.some.inj hrun
      exact hs
    · cases hrun
  · obtain rfl := Option.some.inj hrun
    exact hs

theorem deinitHupacket_stale (w : World) (hup : Option Nat) :
    (deinitHupacket w hup).stale = w.stale := by
  cases hup <;> rfl

/-- A handle that was freed is read. -/
theorem deinitHupServer_freed (hr : .block h ∈ w.ledger.released)
    (hrun : deinitHupServer w (some h) given = some w') : w'.stale = true := by
  simp only [deinitHupServer, Option.bind_eq_bind] at hrun
  obtain ⟨⟨drv, w₁⟩, hdrv, hrun⟩ := Option.bind_eq_some_iff.mp hrun
  obtain ⟨w₂, hclose, hrun⟩ := Option.bind_eq_some_iff.mp hrun
  obtain ⟨⟨tid, w₃⟩, htid, hrun⟩ := Option.bind_eq_some_iff.mp hrun
  obtain ⟨⟨hup, w₄⟩, hhup, hrun⟩ := Option.bind_eq_some_iff.mp hrun
  obtain rfl := Option.some.inj hrun
  have hs₁ : w₁.stale = true := by
    obtain ⟨hd, -, he⟩ := Option.map_eq_some_iff.mp hdrv
    obtain ⟨-, rfl⟩ := Prod.mk.inj he
    exact Bool.or_eq_true_iff.mpr (.inr (decide_eq_true hr))
  have hs₃ : w₃.stale = true := World.field_stale (closeDrv_stale hs₁ hclose) htid
  have hs₄ : w₄.stale = true := by
    refine World.field_stale ?_ hhup
    rw [endThread_eq]
    exact hs₃
  exact (deinitHupacket_stale w₄ hup).trans hs₄

end Deinit

/-! ## `init_hup_server` -/

section Init
variable {w : World} {h p d : Nat} {api : AppApi} {stack : Bool} {o : Outcome}

/-- What `init_hup_server` has when it starts the thread. -/
def World.prepared (w : World) (api : AppApi) (hup : Bool) : World :=
  let ledger := (w.ledger.acquire (.block w.next)).acquire (.drv api (w.next + 1))
  if hup then
    { w with
      next := w.next + 3
      handles := Function.update w.handles w.next
        (some ⟨some (w.next + 2), some (w.next + 1), some api, none⟩)
      ledger := ledger.acquire (.block (w.next + 2)) }
  else
    { w with
      next := w.next + 2
      handles := Function.update w.handles w.next (some ⟨none, some (w.next + 1), some api, none⟩)
      ledger := ledger }

theorem World.prepared_without (w : World) (api : AppApi) :
    (w.prepared api false).handles w.next = some ⟨none, some (w.next + 1), some api, none⟩ :=
  Function.update_self _ _ _

theorem World.prepared_with (w : World) (api : AppApi) : (w.prepared api true).handles w.next =
    some ⟨some (w.next + 2), some (w.next + 1), some api, none⟩ :=
  Function.update_self _ _ _

theorem initHupServer_nothing (ho : ¬ (api.init ∧ o.palloc)) :
    initHupServer w api stack o = some (none, w) := by
  unfold initHupServer World.palloc
  by_cases hinit : api.init
  · have hpalloc : ¬ o.palloc := fun h => ho ⟨hinit, h⟩
    rw [if_pos hinit, if_neg hpalloc]
  · rw [if_neg hinit]

/-- Without a transport handle the block is freed. -/
theorem initHupServer_no_drv (hinit : api.init) (hpalloc : o.palloc) (hdrv : ¬ o.drv)
    (hr : .block w.next ∉ w.ledger.released) :
    initHupServer w api stack o = some (none, { w with
      next := w.next + 1
      handles := Function.update w.handles w.next (some ⟨none, none, none, none⟩)
      ledger := (w.ledger.acquire (.block w.next)).release (.block w.next) }) := by
  unfold initHupServer World.palloc
  rw [if_pos hinit, if_pos hpalloc]
  simp only [World.initDrv, if_neg hdrv, World.memset, World.store, World.field,
    Function.update_self, Function.update_idem, Option.map_some, Option.bind_eq_bind,
    Option.bind_some, Ledger.acquire_released, hr, decide_false, Bool.or_false]
  rfl

/-- With a transport handle the server is started. -/
theorem initHupServer_start (hinit : api.init) (hpalloc : o.palloc) (hdrv : o.drv)
    (hr : .block w.next ∉ w.ledger.released) :
    initHupServer w api stack o = startServer (w.prepared api o.hup) w.next api stack := by
  unfold initHupServer World.palloc
  rw [if_pos hinit, if_pos hpalloc]
  simp only [World.initDrv, if_pos hdrv, World.memset, World.store, World.field,
    Function.update_self, Function.update_idem, Option.map_some, Option.bind_eq_bind,
    Option.bind_some, Ledger.acquire_released, hr, decide_false, Bool.or_false, initHupacket,
    World.palloc, World.prepared]
  rw [if_neg (Option.some_ne_none _)]
  cases o.hup
  · simp only [Bool.false_eq_true, if_false, Function.update_self, Function.update_idem,
      Option.map_some]
  · simp only [if_true, Function.update_self, Function.update_idem, Option.map_some]

/-- Without a packet handle the transport handle and the block are given back. -/
theorem startServer_failed (hh : w.handles h = some ⟨none, some d, some api, none⟩)
    (hr : .block h ∉ w.ledger.released) (hapi : api.deinit) :
    startServer w h api stack = some (none, { w with
      ledger := (w.ledger.release (.drv api d)).release (.block h) }) := by
  simp only [startServer, World.field_eq hh hr, Option.bind_eq_bind, Option.bind_some, if_true,
    errorHup, if_pos hapi, World.deinitDrv]
  rfl

/-- There is no function to give the transport handle back. -/
theorem startServer_kept (hh : w.handles h = some ⟨none, some d, some api, none⟩)
    (hr : .block h ∉ w.ledger.released) (hapi : ¬ api.deinit) :
    startServer w h api stack = some (none, w.pfree h) := by
  simp only [startServer, World.field_eq hh hr, Option.bind_eq_bind, Option.bind_some, if_true,
    errorHup, if_neg hapi]
  rfl

theorem startServer_started (hh : w.handles h = some ⟨some p, some d, some api, none⟩)
    (hr : .block h ∉ w.ledger.released) (hstack : stack) :
    startServer w h api stack = some (some h, { w with
      handles := Function.update w.handles h (some ⟨some p, some d, some api, some h⟩)
      threads := h :: w.threads }) := by
  simp only [startServer, World.field, hh, Option.map_some, Option.bind_eq_bind, Option.bind_some,
    if_neg (Option.some_ne_none p), if_pos hstack, World.createThread, World.store,
    Function.update_self, hr, decide_false, Bool.or_false]

/-- **Without a stack** the handle is read behind its `pfree`, or there is no function to
give the transport handle back. -/
theorem startServer_torn {r : Option Nat × World}
    (hh : w.handles h = some ⟨some p, some d, some api, none⟩)
    (hr : .block h ∉ w.ledger.released) (hstack : ¬ stack)
    (hrun : startServer w h api stack = some r) : r.2.stale = true := by
  simp only [startServer, World.field_eq hh hr, Option.bind_eq_bind, Option.bind_some,
    if_neg (Option.some_ne_none p), if_neg hstack] at hrun
  obtain ⟨w₁, hdeinit, hrun⟩ := Option.bind_eq_some_iff.mp hrun
  by_cases hapi : api.deinit
  · rw [deinitHupServer_eq hh hr hapi] at hdeinit
    obtain rfl := Option.some.inj hdeinit
    simp only [errorHup, if_pos hapi, World.field, hh, Option.map_some, Option.bind_eq_bind,
      Option.bind_some, Ledger.release_released, List.mem_cons_self, decide_true, Bool.or_true,
      World.deinitDrv] at hrun
    obtain rfl := Option.some.inj hrun
    rfl
  · rw [deinitHupServer_unset hh hr hapi] at hdeinit
    cases hdeinit

end Init

/-- A turn reads the handle, and an error ends the thread. -/
theorem serve_eq {w : World} {h : Nat} {hd : Handle} {received : Int} (hh : w.handles h = some hd)
    (hr : .block h ∉ w.ledger.released) :
    serve w h received = some (if received < 0 then w.abortThread h else w) := by
  simp only [serve, World.field_eq hh hr, Option.bind_eq_bind, Option.bind_some]
  split
  · rfl
  · split <;> rfl

/-! ## The invariant -/

def Resource.id : Resource → Nat
  | .block p => p
  | .drv _ d => d

/-- Everything is accounted for, and the handles of the servers are complete. -/
structure Session.Inv (s : Session) : Prop where
  accounts : s.world.ledger.Accounts s.held
  below : ∀ r ∈ s.world.ledger.acquired, r.id < s.world.next
  complete : ∀ h ∈ s.servers, ∃ p d a, s.world.handles h = some ⟨some p, some d, some a, some h⟩
  known : ∀ h hd, s.world.handles h = some hd →
    h ∈ s.servers ∨ .block h ∈ s.world.ledger.released
  threads : ∀ h ∈ s.world.threads, h ∈ s.servers
  read : s.world.stale = false

theorem initial_inv : Session.initial.Inv where
  accounts := Ledger.empty_accounts
  below := by
    intro r hr
    cases hr
  complete := by
    intro h hs
    cases hs
  known := by
    intro h hd hh
    cases hh
  threads := by
    intro h ht
    cases ht
  read := rfl

section Invariant
variable {s : Session} {h p d : Nat} {a : AppApi} {t : Option Nat} {r : Resource} {w : World}

theorem World.resources_eq (hh : w.handles h = some ⟨some p, some d, some a, t⟩) :
    w.resources h = [.block h, .block p, .drv a d] := by
  rw [World.resources, hh]
  rfl

namespace Session

theorem Inv.server_held (I : s.Inv) (hs : h ∈ s.servers) : .block h ∈ s.held := by
  obtain ⟨p, d, a, hh⟩ := I.complete h hs
  exact List.mem_flatMap.mpr ⟨h, hs, World.resources_eq hh ▸ List.mem_cons_self⟩

/-- The handle of a server was not freed. -/
theorem Inv.server_kept (I : s.Inv) (hs : h ∈ s.servers) :
    .block h ∉ s.world.ledger.released := I.accounts.not_released (I.server_held hs)

theorem Inv.lt_next (I : s.Inv) (hs : h ∈ s.servers) : h < s.world.next :=
  I.below _ (I.accounts.mem_acquired.mpr (.inr (I.server_held hs)))

theorem Inv.not_acquired (I : s.Inv) (hr : s.world.next ≤ r.id) :
    r ∉ s.world.ledger.acquired := fun hmem => absurd (I.below r hmem) (not_lt.mpr hr)

theorem Inv.not_released (I : s.Inv) (hr : s.world.next ≤ r.id) :
    r ∉ s.world.ledger.released :=
  fun hmem => I.not_acquired hr (I.accounts.mem_acquired.mpr (.inl hmem))

/-- What belongs to the servers is what belonged to them, if their handles are the same. -/
theorem held_congr (hh : ∀ h ∈ s.servers, w.handles h = s.world.handles h) :
    s.servers.flatMap w.resources = s.held := by
  refine List.flatMap_congr fun h hs => ?_
  rw [World.resources, World.resources, hh h hs]

theorem Inv.clean (I : s.Inv) : s.Clean where
  kept := fun _ hr => I.accounts.not_released hr
  once := fun _ ha hr => I.accounts.released_once ha hr
  read := I.read
  running := fun h ht => I.server_kept (I.threads h ht)

/-! ## Setting up -/

/-- What is acquired at the next address. -/
theorem ids_acquire {l : Ledger Resource} {n : Nat} (hl : ∀ r ∈ l.acquired, r.id < n)
    (hr : r.id = n) : ∀ q ∈ (l.acquire r).acquired, q.id < n + 1 := by
  intro q hq
  rcases List.mem_cons.mp hq with rfl | hq
  · exact hr ▸ Nat.lt_succ_self _
  · exact (hl q hq).trans (Nat.lt_succ_self _)

/-- A call that fails has given back what it acquired. -/
theorem Inv.failed (I : s.Inv) {hd : Handle}
    (hhandles : w.handles = Function.update s.world.handles s.world.next (some hd))
    (haccounts : w.ledger.Accounts s.held)
    (hbelow : ∀ r ∈ w.ledger.acquired, r.id < w.next)
    (hfreed : .block s.world.next ∈ w.ledger.released)
    (hreleased : ∀ r ∈ s.world.ledger.released, r ∈ w.ledger.released)
    (hthreads : w.threads = s.world.threads) (hstale : w.stale = s.world.stale) :
    Session.Inv ⟨w, s.servers⟩ := by
  have hsame : ∀ h ∈ s.servers, w.handles h = s.world.handles h := by
    intro h hs
    rw [hhandles, Function.update_of_ne (Nat.ne_of_lt (I.lt_next hs))]
  refine ⟨?_, hbelow, fun h hs => ?_, fun h hd' hh => ?_, ?_, ?_⟩
  · have hheld : Session.held ⟨w, s.servers⟩ = s.held := held_congr hsame
    rw [hheld]
    exact haccounts
  · rw [hsame h hs]
    exact I.complete h hs
  · by_cases he : h = s.world.next
    · exact .inr (he ▸ hfreed)
    · simp only [hhandles, Function.update_of_ne he] at hh
      exact (I.known h hd' hh).imp id fun hr => hreleased _ hr
  · exact fun h ht => I.threads h (hthreads ▸ ht)
  · exact hstale.trans I.read

variable {api : AppApi} {stack : Bool} {o : Outcome} {c : Call}

/-- A server that is started holds what was acquired for it. -/
theorem Inv.started (I : s.Inv)
    (haccounts : (s.world.prepared api true).ledger.Accounts
      (.block (s.world.next + 2) :: .drv api (s.world.next + 1) :: .block s.world.next :: s.held)) :
    Session.Inv ⟨{ s.world.prepared api true with
      handles := Function.update (s.world.prepared api true).handles s.world.next
        (some ⟨some (s.world.next + 2), some (s.world.next + 1), some api, some s.world.next⟩)
      threads := s.world.next :: s.world.threads }, s.world.next :: s.servers⟩ := by
  set w : World := { s.world.prepared api true with
    handles := Function.update (s.world.prepared api true).handles s.world.next
      (some ⟨some (s.world.next + 2), some (s.world.next + 1), some api, some s.world.next⟩)
    threads := s.world.next :: s.world.threads }
  have hnew : w.handles s.world.next =
      some ⟨some (s.world.next + 2), some (s.world.next + 1), some api, some s.world.next⟩ :=
    Function.update_self _ _ _
  have hother : ∀ h, h ≠ s.world.next → w.handles h = s.world.handles h := fun h hne =>
    (Function.update_of_ne hne _ _).trans (Function.update_of_ne hne _ _)
  have hsame : ∀ h ∈ s.servers, w.handles h = s.world.handles h := fun h hs =>
    hother h (Nat.ne_of_lt (I.lt_next hs))
  refine ⟨?_, fun r hmem => ?_, fun h hs => ?_, fun h hd hh => ?_, fun h ht => ?_, I.read⟩
  · have hheld : Session.held ⟨w, s.world.next :: s.servers⟩ =
        [.block s.world.next, .block (s.world.next + 2), .drv api (s.world.next + 1)] ++ s.held := by
      rw [Session.held, List.flatMap_cons, World.resources_eq hnew, held_congr hsame]
    rw [hheld]
    refine haccounts.of_perm ?_
    show ([Resource.block (s.world.next + 2), Resource.drv api (s.world.next + 1)] ++
      Resource.block s.world.next :: s.held).Perm _
    exact List.perm_middle
  · exact ids_acquire (ids_acquire (ids_acquire I.below rfl) rfl) rfl r hmem
  · rcases List.mem_cons.mp hs with rfl | hs
    · exact ⟨_, _, _, hnew⟩
    · rw [hsame h hs]
      exact I.complete h hs
  · by_cases he : h = s.world.next
    · exact .inl (he ▸ List.mem_cons_self)
    · rw [hother h he] at hh
      exact (I.known h hd hh).imp (List.mem_cons_of_mem _) id
  · rcases List.mem_cons.mp ht with rfl | ht
    · exact List.mem_cons_self
    · exact List.mem_cons_of_mem _ (I.threads h ht)

theorem Inv.init_step (I : s.Inv) (hp : s.Proper (.init api stack o)) :
    ∃ s', s.step (.init api stack o) = some s' ∧ s'.Inv := by
  have hr : .block s.world.next ∉ s.world.ledger.released := I.not_released (Nat.le_refl _)
  have hblock : .block s.world.next ∉ s.world.ledger.acquired := I.not_acquired (Nat.le_refl _)
  have hdrv' : .drv api (s.world.next + 1) ∉ Resource.block s.world.next :: s.world.ledger.acquired := by
    have := I.not_acquired (r := .drv api (s.world.next + 1)) (Nat.le_succ _)
    simp [this]
  by_cases hsome : api.init ∧ o.palloc
  · obtain ⟨hinit, hpalloc⟩ := hsome
    by_cases hdrv : o.drv
    · have hstart : initHupServer s.world api stack o = _ :=
        initHupServer_start hinit hpalloc hdrv hr
      have hproper := hp hinit hpalloc hdrv
      have haccounts := (I.accounts.acquire hblock).acquire hdrv'
      cases hhup : o.hup with
      | false =>
        -- the transport handle and the block are given back
        rw [hhup, if_neg Bool.false_ne_true] at hproper
        rw [hhup, startServer_failed (World.prepared_without _ _) hr hproper] at hstart
        refine ⟨_, congrArg (Option.map _) hstart, ?_⟩
        exact I.failed rfl haccounts.release.release (ids_acquire (ids_acquire I.below rfl) rfl)
          List.mem_cons_self (fun r hmem => List.mem_cons_of_mem _ (List.mem_cons_of_mem _ hmem))
          rfl rfl
      | true =>
        rw [hhup, if_pos rfl] at hproper
        rw [hhup, startServer_started (World.prepared_with _ _) hr hproper] at hstart
        refine ⟨_, congrArg (Option.map _) hstart, I.started (haccounts.acquire ?_)⟩
        have := I.not_acquired (r := .block (s.world.next + 2)) (Nat.le_add_right _ _)
        simp [this]
    · refine ⟨_, congrArg (Option.map _) (initHupServer_no_drv hinit hpalloc hdrv hr), ?_⟩
      exact I.failed rfl (I.accounts.acquire hblock).release (ids_acquire I.below rfl)
        List.mem_cons_self (fun r => List.mem_cons_of_mem _) rfl rfl
  · exact ⟨s, congrArg (Option.map _) (initHupServer_nothing hsome), I⟩

/-! ## Tearing down -/

/-- What belongs to one of the servers, and what belongs to the others. -/
theorem held_erase (hs : h ∈ s.servers) :
    s.held.Perm (s.world.resources h ++ (s.servers.erase h).flatMap s.world.resources) :=
  (List.perm_cons_erase hs).flatMap_right s.world.resources

theorem Inv.deinit_step (I : s.Inv) (hs : h ∈ s.servers)
    (hh : s.world.handles h = some ⟨some p, some d, some a, some h⟩) (ha : a.deinit) :
    ∃ s', s.step (.deinit (some h) (some a)) = some s' ∧ s'.Inv := by
  refine ⟨_, congrArg (Option.map _) (deinitHupServer_eq hh (I.server_kept hs) ha), ?_⟩
  have hheld := held_erase hs
  rw [World.resources_eq hh] at hheld
  refine ⟨?_, I.below, fun q hq => ?_, fun q hd hq => ?_, fun q hq => ?_, I.read⟩
  · exact (I.accounts.of_perm (hheld.trans
      ((List.reverse_perm _).symm.append_right _))).release.release.release
  · exact I.complete q (List.mem_of_mem_erase hq)
  · by_cases he : q = h
    · exact .inr (he ▸ List.mem_cons_self)
    · refine (I.known q hd hq).imp (fun hmem => (List.mem_erase_of_ne he).mpr hmem) fun hmem => ?_
      exact List.mem_cons_of_mem _ (List.mem_cons_of_mem _ (List.mem_cons_of_mem _ hmem))
  · obtain ⟨hq, hne⟩ := List.mem_filter.mp hq
    exact (List.mem_erase_of_ne (of_decide_eq_true hne)).mpr (I.threads q hq)

/-- The transport handle of a server that is torn down without it is lost. -/
theorem Inv.lost (I : s.Inv) (hs : h ∈ s.servers)
    (hh : s.world.handles h = some ⟨some p, some d, some a, some h⟩)
    (hhandles : w.handles = s.world.handles)
    (hacquired : w.ledger.acquired = s.world.ledger.acquired)
    (hreleased : .drv a d ∉ w.ledger.released) : ¬ Session.Clean ⟨w, s.servers.erase h⟩ := by
  intro hclean
  have hheld := held_erase hs
  rw [World.resources_eq hh] at hheld
  have hmem : .drv a d ∈ s.held := hheld.mem_iff.mpr (by simp)
  -- nothing else belongs to two servers
  have hdisjoint := (List.nodup_append'.mp (hheld.nodup_iff.mp I.accounts.separate.2.1)).2.2
  have hother : .drv a d ∉ Session.held ⟨w, s.servers.erase h⟩ := by
    have hsame : w.resources = s.world.resources := by
      funext q
      rw [World.resources, World.resources, hhandles]
    rw [Session.held, hsame]
    exact fun hrest => hdisjoint (by simp) hrest
  have hone := hclean.once (.drv a d) (hacquired ▸ I.accounts.mem_acquired.mpr (.inr hmem)) hother
  rw [List.count_eq_zero_of_not_mem hreleased] at hone
  cases hone

/-! ## Turns of the threads -/

theorem Inv.turn_step (I : s.Inv) {received : Int} :
    ∃ s', s.step (.turn h received) = some s' ∧ s'.Inv := by
  by_cases ht : h ∈ s.world.threads
  · have hs := I.threads h ht
    obtain ⟨p, d, a, hh⟩ := I.complete h hs
    refine ⟨_, (if_pos ht).trans (congrArg (Option.map _) (serve_eq hh (I.server_kept hs))), ?_⟩
    split
    · exact { I with threads := fun q hq => I.threads q (List.mem_of_mem_filter hq) }
    · exact I
  · exact ⟨s, if_neg ht, I⟩

/-! ## All calls -/

theorem Inv.step (I : s.Inv) (hp : s.Proper c) : ∃ s', s.step c = some s' ∧ s'.Inv := by
  cases c with
  | init api stack o => exact I.init_step hp
  | deinit handle given =>
    cases handle with
    | none => exact ⟨s, rfl, I⟩
    | some h =>
      obtain ⟨hs, hd, b, hh, hb, rfl, hdeinit⟩ := hp
      obtain ⟨p, d, a, hh'⟩ := I.complete h hs
      obtain rfl := Option.some.inj (hh'.symm.trans hh)
      obtain rfl := Option.some.inj hb
      exact I.deinit_step hs hh' hdeinit
  | turn h received => exact I.turn_step

/-- A transport handle that is not given back belongs to no server. -/
theorem Inv.drv_kept (I : s.Inv) :
    ¬ Session.Clean ⟨(s.world.prepared api false).pfree s.world.next, s.servers⟩ := by
  intro hclean
  have hfresh : s.world.next ≤ (Resource.drv api (s.world.next + 1)).id := Nat.le_succ _
  have hsame : ∀ h ∈ s.servers,
      ((s.world.prepared api false).pfree s.world.next).handles h = s.world.handles h :=
    fun h hs => Function.update_of_ne (Nat.ne_of_lt (I.lt_next hs)) _ _
  have hother : .drv api (s.world.next + 1) ∉
      Session.held ⟨(s.world.prepared api false).pfree s.world.next, s.servers⟩ := by
    rw [Session.held, held_congr hsame]
    exact fun hheld => I.not_acquired hfresh (I.accounts.mem_acquired.mpr (.inr hheld))
  have hreleased : .drv api (s.world.next + 1) ∉
      ((s.world.prepared api false).pfree s.world.next).ledger.released := by
    have := I.not_released hfresh
    simp [World.pfree, World.prepared, this]
  have hone := hclean.once (.drv api (s.world.next + 1)) List.mem_cons_self hother
  rw [List.count_eq_zero_of_not_mem hreleased] at hone
  cases hone

/-- A call that is not proper leaves something unaccounted for. -/
theorem Inv.breaks {s' : Session} (I : s.Inv) (hp : ¬ s.Proper c) (hstep : s.step c = some s') :
    ¬ s'.Clean := by
  cases c with
  | init api stack o =>
    have hr : .block s.world.next ∉ s.world.ledger.released := I.not_released (Nat.le_refl _)
    simp only [Proper, Classical.not_imp] at hp
    obtain ⟨hinit, hpalloc, hdrv, hp⟩ := hp
    obtain ⟨⟨q, w⟩, hrun, rfl⟩ := Option.map_eq_some_iff.mp hstep
    rw [initHupServer_start hinit hpalloc hdrv hr] at hrun
    cases hhup : o.hup with
    | false =>
      rw [hhup, if_neg Bool.false_ne_true] at hp
      rw [hhup, startServer_kept (World.prepared_without _ _) hr hp] at hrun
      obtain ⟨rfl, rfl⟩ := Prod.mk.inj (Option.some.inj hrun)
      exact I.drv_kept
    | true =>
      rw [hhup, if_pos rfl] at hp
      rw [hhup] at hrun
      intro hclean
      have hstale := startServer_torn (World.prepared_with _ _) hr hp hrun
      exact Bool.false_ne_true (hclean.read.symm.trans hstale)
  | deinit handle given =>
    cases handle with
    | none => exact absurd trivial hp
    | some h =>
      obtain ⟨w, hrun, rfl⟩ := Option.map_eq_some_iff.mp hstep
      cases hh : s.world.handles h with
      | none =>
        rw [deinitHupServer_unknown hh] at hrun
        cases hrun
      | some hd =>
        rcases I.known h hd hh with hs | hfreed
        · obtain ⟨p, d, a, hh'⟩ := I.complete h hs
          have hkept := I.server_kept hs
          have hdrv : .drv a d ∉ s.world.ledger.released := I.accounts.not_released
            (List.mem_flatMap.mpr ⟨h, hs, by simp [World.resources_eq hh']⟩)
          cases given with
          | none =>
            rw [deinitHupServer_no_api hh' hkept] at hrun
            obtain rfl := Option.some.inj hrun
            exact I.lost hs hh' rfl rfl (by simp [hdrv])
          | some api =>
            by_cases hapi : api.deinit
            · rw [deinitHupServer_eq hh' hkept hapi] at hrun
              obtain rfl := Option.some.inj hrun
              have hne : a ≠ api := by
                rintro rfl
                exact hp ⟨hs, _, _, hh', rfl, rfl, hapi⟩
              exact I.lost hs hh' rfl rfl (by simp [hdrv, hne])
            · rw [deinitHupServer_unset hh' hkept hapi] at hrun
              cases hrun
        · intro hclean
          have hstale := deinitHupServer_freed hfreed hrun
          exact Bool.false_ne_true (hclean.read.symm.trans hstale)
  | turn h received => exact absurd trivial hp

end Session

end Invariant

/-- **Everything is released exactly once**, and nothing is read behind its release, exactly
in the sequences of proper calls. -/
theorem always_accounted_iff (l : List Call) :
    Always Session.next Accounted (some .initial) l ↔
      Guarded Session.next Proper (some .initial) l := by
  refine always_iff_guarded (I := fun s => ∃ t, s = some t ∧ t.Inv) ?_ ?_ ?_ ⟨_, rfl, initial_inv⟩
  · rintro s c ⟨t, rfl, I⟩ hp
    exact I.step (hp t rfl)
  · rintro s c ⟨t, rfl, I⟩ hp ⟨t', hstep, hclean⟩
    have hp' : ¬ t.Proper c := fun hproper => hp fun u hu => Option.some.inj hu ▸ hproper
    exact I.breaks hp' hstep hclean
  · rintro s ⟨t, rfl, I⟩
    exact ⟨t, rfl, I.clean⟩

/-- A transport with both functions; everything is to be had, but there is no stack. -/
def withoutStack : List Call := [.init ⟨0, true, true⟩ false ⟨true, true, true⟩]

/-- **Without a stack** the server is torn down and then given back once more: its transport
handle and its block are released twice, and its handle is read in between. -/
theorem no_stack_not_accounted :
    (∃ t, withoutStack.foldl Session.next (some .initial) = some t ∧ t.servers = [] ∧
      t.world.ledger.released.count (.drv ⟨0, true, true⟩ 1) = 2 ∧
      t.world.ledger.released.count (.block 0) = 2 ∧ t.world.stale = true) ∧
      ¬ Always Session.next Accounted (some .initial) withoutStack := by
  have hrun : ∀ t, withoutStack.foldl Session.next (some .initial) = some t → t.servers = [] ∧
      t.world.ledger.released.count (.drv ⟨0, true, true⟩ 1) = 2 ∧
      t.world.ledger.released.count (.block 0) = 2 ∧ t.world.stale = true := by
    decide +kernel
  have hsome : (withoutStack.foldl Session.next (some .initial)).isSome := by
    decide +kernel
  obtain ⟨t, ht⟩ := Option.isSome_iff_exists.mp hsome
  refine ⟨⟨t, ht, hrun t ht⟩, fun h => ?_⟩
  obtain ⟨u, hu, hclean⟩ := h.last
  exact Bool.false_ne_true (hclean.read.symm.trans (hrun u hu).2.2.2)

end HupServer

end Sdkz.App
