import Sdkz.Hu.Safety
import Sdkz.Hu.Verdict

/-! # The packet server over UDP (app/src/hup_server.c, lib/app/udp.c)

One packet handle serves every client of the socket, and `sendto` goes to the
address the last `recvfrom` filled in. Both are found through `user_data` of the
packet handle, behind `tx_buffer`: a reply that does not fit leads `_send_udp`
elsewhere. The parser has no notion of a client: it sees the datagrams as one
stream. `Ledger` runs the same parser and notes beside it which client supplied
which byte of the frame it is inside, so that a reply can be compared with the
frame it answers. -/

namespace Sdkz.App.Udp
open Sdkz.Base Sdkz.Hu

variable {A W X : Type} {N : Nat}

/-- A datagram and the address it comes from. -/
structure Datagram (A : Type) where
  client : A
  data : Bytes

/-! ## The server -/

/-- `struct handle` of the server and of the transport under it, with what
`sendto` was given. -/
structure HupServer (A : Type) (N : Nat) (W X : Type) where
  hup : Machine N W X
  /-- whether `user_data` and `send` of the packet handle are what they were set to -/
  userData : Bool
  client : Option A
  sent : List (Option A × Bytes)

namespace HupServer

def init (w : W) : HupServer A N W X := ⟨.fresh N w, true, none, []⟩

/-- Through an overwritten `user_data` no client is reached. -/
def sendUdp (s : HupServer A N W X) (buffer : Bytes) : HupServer A N W X :=
  { s with sent := s.sent ++ [(if s.userData then s.client else none, buffer)] }

/-- What the packet code does to the server under it: a string longer than `tx_buffer`
overwrites `user_data`, and a reply is handed to `_send_udp`. -/
def observe (s : HupServer A N W X) : Event X → HupServer A N W X
  | .txString t => { s with userData := s.userData && decide (t.length + 1 ≤ N) }
  | .send buffer => s.sendUdp buffer
  | _ => s

/-- `recvfrom` overwrites the address, also for an empty datagram, and drops what
does not fit the buffer. -/
def recvUdp (s : HupServer A N W X) (d : Datagram A) (size : Nat) : HupServer A N W X × Bytes :=
  ({ s with client := some d.client }, d.data.take size)

/-- One turn of the loop of `_hup_server`. -/
def turn (fw : Firmware N W X) (s : HupServer A N W X) (d : Datagram A) : HupServer A N W X :=
  let (s, received) := s.recvUdp d N
  if received.length > 0 then
    let hup := processHupacket fw s.hup received
    (since s.hup hup).foldl observe { s with hup := hup }
  else s

/-- As long as the replies fit, they go to the client. -/
theorem foldl_observe {s : HupServer A N W X} (hdata : s.userData = true) {l : List (Event X)}
    (hfit : RepliesFit N l) :
    l.foldl observe s = { s with sent := s.sent ++ (sends l).map (s.client, ·) } := by
  induction l generalizing s with
  | nil => simp [sends]
  | cons e l ih =>
    have hrest : RepliesFit N l := fun t ht => hfit t (List.mem_cons_of_mem e ht)
    rw [List.foldl_cons]
    cases e with
    | txString t =>
      have ht := hfit t List.mem_cons_self
      have hsame : s.observe (.txString t) = s := by
        rw [observe, decide_eq_true ht, Bool.and_true]
      rw [hsame, ih hdata hrest]
      rfl
    | send buffer =>
      rw [observe, ih (s := s.sendUdp buffer) hdata hrest]
      simp [sendUdp, hdata, sends, Event.sent]
    | _ => exact ih hdata hrest

/-- The parser of the server runs over the datagrams as one stream. -/
theorem turn_hup (fw : Firmware N W X) (s : HupServer A N W X) (d : Datagram A) :
    (s.turn fw d).hup = processHupacket fw s.hup (d.data.take N) := by
  have hkept : ∀ (l : List (Event X)) (s : HupServer A N W X), (l.foldl observe s).hup = s.hup := by
    intro l
    induction l with
    | nil => exact fun s => rfl
    | cons e l ih =>
      intro s
      rw [List.foldl_cons, ih]
      cases e <;> rfl
  unfold turn recvUdp
  dsimp only
  split
  · rw [hkept]
  · rename_i hempty
    have hnil : d.data.take N = [] := List.length_eq_zero_iff.mp (by omega)
    rw [hnil]
    rfl

end HupServer

/-! ## Who supplied the frame -/

/-- A reply, where it went, and the frame it answers, byte by byte with its
supplier. -/
structure Reply (A : Type) where
  client : A
  bytes : Bytes
  frame : List (A × UInt8)

structure Ledger (A : Type) (N : Nat) (W X : Type) where
  hup : Machine N W X
  /-- the frame the parser is inside, from its start mark on -/
  frame : List (A × UInt8)
  replies : List (Reply A)
  /-- whether a byte met a frame of another client -/
  crossed : Bool

namespace Ledger

def init (w : W) : Ledger A N W X := ⟨.fresh N w, [], [], false⟩

/-- The byte completes, extends or aborts a frame another client began. Behind a
rejected command the parser is still inside the frame; a start mark there aborts
nothing, because the frame has met its end mark. -/
def Crosses (t : Ledger A N W X) (x : A × UInt8) : Prop :=
  t.hup.handle.state ≠ hupStateNone ∧ (∀ y ∈ t.frame.head?, y.1 ≠ x.1) ∧
    (isStartMark x.2 → endOfPacket ∉ t.frame.map Prod.snd)

instance [DecidableEq A] (t : Ledger A N W X) (x : A × UInt8) : Decidable (t.Crosses x) :=
  inferInstanceAs (Decidable (_ ∧ _ ∧ _))

/-- The frame with the byte: a start mark begins it anew, and between frames
nothing is kept. -/
def extended (t : Ledger A N W X) (x : A × UInt8) : List (A × UInt8) :=
  if isStartMark x.2 then [x]
  else if t.hup.handle.state = hupStateNone then []
  else t.frame ++ [x]

variable [DecidableEq A]

/-- The parser takes one byte. -/
def take (fw : Firmware N W X) (t : Ledger A N W X) (x : A × UInt8) : Ledger A N W X where
  hup := processByte fw t.hup x.2
  frame := t.extended x
  replies := t.replies ++
    (sends (since t.hup (processByte fw t.hup x.2))).map fun bytes => ⟨x.1, bytes, t.extended x⟩
  crossed := t.crossed || decide (t.Crosses x)

/-- The bytes of a datagram that fit the receive buffer. -/
def received (N : Nat) (d : Datagram A) : List (A × UInt8) := (d.data.take N).map (d.client, ·)

def deliver (fw : Firmware N W X) (t : Ledger A N W X) (d : Datagram A) : Ledger A N W X :=
  (received N d).foldl (take fw) t

/-- No reply answers bytes of a client it does not go to, and no frame was touched
by a client that did not begin it. -/
structure Apart (t : Ledger A N W X) : Prop where
  replies : ∀ r ∈ t.replies, ∀ x ∈ r.frame, x.1 = r.client
  crossed : t.crossed = false

/-- The datagram does not begin inside a frame of another client. -/
def Continues (t : Ledger A N W X) (d : Datagram A) : Prop :=
  ∀ x ∈ (received N d).head?, ¬ t.Crosses x

instance (t : Ledger A N W X) (d : Datagram A) : Decidable (t.Continues d) :=
  inferInstanceAs (Decidable (∀ x ∈ (received N d).head?, ¬ t.Crosses x))

end Ledger

/-- A frame ends with the end mark of the client that gets the reply: a start
mark, no further one, the end mark. -/
def Reply.Framed (r : Reply A) : Prop :=
  ∃ x body, r.frame = x :: body ++ [(r.client, endOfPacket)] ∧ isStartMark x.2 = true ∧
    ∀ y ∈ body, isStartMark y.2 = false

/-! ## The ledger follows the server -/

/-- The parser and the replies of the server are those of the ledger. -/
structure Follows (t : Ledger A N W X) (s : HupServer A N W X) : Prop where
  hup : t.hup = s.hup
  userData : s.userData = true
  sent : t.replies.map (fun r => (some r.client, r.bytes)) = s.sent

namespace Ledger
variable [DecidableEq A]

theorem foldl_take_hup (fw : Firmware N W X) (t : Ledger A N W X) (a : A) (data : Bytes) :
    ((data.map (a, ·)).foldl (take fw) t).hup = processHupacket fw t.hup data := by
  induction data generalizing t with
  | nil => rfl
  | cons b data ih => exact ih (t.take fw (a, b))

theorem foldl_take_replies (fw : Firmware N W X) (t : Ledger A N W X) (a : A) (data : Bytes) :
    ((data.map (a, ·)).foldl (take fw) t).replies.map (fun r => (some r.client, r.bytes)) =
      t.replies.map (fun r => (some r.client, r.bytes)) ++
        (sends (since t.hup (processHupacket fw t.hup data))).map (some a, ·) := by
  induction data generalizing t with
  | nil =>
    have hnone : since t.hup (processHupacket fw t.hup []) = [] :=
      since_eq (List.append_nil _).symm
    rw [hnone]
    exact (List.append_nil _).symm
  | cons b data ih =>
    have hsplit : since t.hup (processHupacket fw t.hup (b :: data)) =
        since t.hup (processByte fw t.hup b) ++
          since (processByte fw t.hup b) (processHupacket fw (processByte fw t.hup b) data) :=
      since_append (processByte_log fw t.hup b) (processHupacket_log fw _ data)
    have hfirst : (t.take fw (a, b)).replies.map (fun r => (some r.client, r.bytes)) =
        t.replies.map (fun r => (some r.client, r.bytes)) ++
          (sends (since t.hup (processByte fw t.hup b))).map (some a, ·) := by
      rw [take, List.map_append, List.map_map]
      rfl
    rw [hsplit, sends_append, List.map_append, ← List.append_assoc, ← hfirst]
    exact ih (t.take fw (a, b))

theorem follows_turn (fw : Firmware N W X) {t : Ledger A N W X} {s : HupServer A N W X}
    (h : Follows t s) (d : Datagram A) (hfit : RepliesFit N (s.turn fw d).hup.log) :
    Follows (t.deliver fw d) (s.turn fw d) := by
  have hlog := processHupacket_log fw s.hup (d.data.take N)
  obtain ⟨new, hnew⟩ := hlog
  have hnewfit : RepliesFit N (since s.hup (processHupacket fw s.hup (d.data.take N))) := by
    rw [HupServer.turn_hup, ← hnew] at hfit
    rw [since_eq hnew.symm]
    exact (repliesFit_append.mp hfit).2
  unfold HupServer.turn HupServer.recvUdp deliver received
  dsimp only
  split
  · have hsent := HupServer.foldl_observe (s := { s with
      hup := processHupacket fw s.hup (d.data.take N), client := some d.client }) h.userData hnewfit
    rw [hsent]
    refine ⟨?_, h.userData, ?_⟩
    · rw [foldl_take_hup, h.hup]
    · rw [foldl_take_replies, h.sent, h.hup]
  · rename_i hempty
    have hnil : d.data.take N = [] := List.length_eq_zero_iff.mp (by omega)
    rw [hnil]
    exact ⟨h.hup, h.userData, h.sent⟩

theorem follows_run (fw : Firmware N W X) (w : W) {l : List (Datagram A)}
    (hfit : RepliesFit N (l.foldl (HupServer.turn fw) (.init w)).hup.log) :
    Follows (l.foldl (deliver fw) (.init w)) (l.foldl (HupServer.turn fw) (.init w)) := by
  induction l using List.reverseRecOn with
  | nil => exact ⟨rfl, rfl, rfl⟩
  | append_singleton l d ih =>
    rw [List.foldl_append, List.foldl_cons, List.foldl_nil] at hfit ⊢
    rw [List.foldl_append, List.foldl_cons, List.foldl_nil]
    refine follows_turn fw (ih ?_) d hfit
    -- the replies so far are among those of the whole run
    obtain ⟨new, hnew⟩ := processHupacket_log fw (l.foldl (HupServer.turn fw) (.init w)).hup
      (d.data.take N)
    rw [HupServer.turn_hup, ← hnew] at hfit
    exact (repliesFit_append.mp hfit).1

/-! ## Frames -/

/-- Inside a frame the ledger holds it from its start mark on, and every reply so
far answered a frame. -/
structure Framing (t : Ledger A N W X) : Prop where
  inside : t.hup.handle.state ≠ hupStateNone →
    ∃ x body, t.frame = x :: body ∧ isStartMark x.2 = true ∧ ∀ y ∈ body, isStartMark y.2 = false
  replies : ∀ r ∈ t.replies, r.Framed

theorem Framing.take (fw : Firmware N W X) {t : Ledger A N W X} (h : t.Framing) (x : A × UInt8) :
    (t.take fw x).Framing := by
  obtain ⟨a, b⟩ := x
  have hquiet (hb : b ≠ endOfPacket ∨ t.hup.handle.state = hupStateNone) :
      ∀ r ∈ (t.take fw (a, b)).replies, r.Framed := by
    intro r hr
    rw [Ledger.take, sends_processByte fw t.hup b hb] at hr
    exact h.replies r (by simpa using hr)
  by_cases hs : isStartMark b = true
  · refine ⟨fun _ => ⟨(a, b), [], ?_, hs, by simp⟩, hquiet (.inl ?_)⟩
    · simp [Ledger.take, extended, hs]
    · rintro rfl
      revert hs
      decide
  · have hs : isStartMark b = false := by simpa using hs
    by_cases hm : t.hup.handle.state = hupStateNone
    · refine ⟨fun hin => absurd ?_ hin, hquiet (.inr hm)⟩
      change (processByte fw t.hup b).handle.state = hupStateNone
      rw [processByte_idle fw hm hs]
      exact hm
    · obtain ⟨x, body, hframe, hx, hbody⟩ := h.inside hm
      have hext : t.extended (a, b) = x :: body ++ [(a, b)] := by
        simp [extended, hs, hm, hframe]
      refine ⟨fun _ => ⟨x, body ++ [(a, b)], hext, hx, fun y hy => ?_⟩, ?_⟩
      · rcases List.mem_append.mp hy with hy | hy
        · exact hbody y hy
        · rw [List.mem_singleton.mp hy]
          exact hs
      · by_cases hb : b = endOfPacket
        · subst hb
          intro r hr
          rcases List.mem_append.mp hr with hr | hr
          · exact h.replies r hr
          · obtain ⟨bytes, -, rfl⟩ := List.mem_map.mp hr
            exact ⟨x, body, hext, hx, hbody⟩
        · exact hquiet (.inl hb)

theorem framing_deliver (fw : Firmware N W X) {t : Ledger A N W X} (h : t.Framing)
    (d : Datagram A) : (t.deliver fw d).Framing := by
  unfold deliver
  induction received N d generalizing t with
  | nil => exact h
  | cons x l ih => exact ih (h.take fw x)

theorem framing_run (fw : Firmware N W X) (w : W) (l : List (Datagram A)) :
    (l.foldl (deliver fw) (.init w)).Framing := by
  have hinit : (Ledger.init w : Ledger A N W X).Framing :=
    ⟨fun hin => absurd rfl hin, fun r hr => absurd hr (List.not_mem_nil)⟩
  generalize (Ledger.init w : Ledger A N W X) = t at hinit
  induction l generalizing t with
  | nil => exact hinit
  | cons d l ih => exact ih _ (framing_deliver fw hinit d)

/-! ## Clients -/

/-- The frame the parser is inside has nothing but bytes of client `a`. -/
def OwnedBy (t : Ledger A N W X) (a : A) : Prop :=
  t.hup.handle.state ≠ hupStateNone → t.frame ≠ [] ∧ ∀ x ∈ t.frame, x.1 = a

/-- The clients were kept apart so far, and the open frame has one owner. -/
structure Inv (t : Ledger A N W X) : Prop where
  apart : t.Apart
  owned : ∃ a, t.OwnedBy a

omit [DecidableEq A] in
theorem OwnedBy.not_crosses {t : Ledger A N W X} {a : A} (h : t.OwnedBy a) (b : UInt8) :
    ¬ t.Crosses (a, b) := by
  rintro ⟨hin, hhead, -⟩
  obtain ⟨hne, hall⟩ := h hin
  obtain ⟨x, body, hframe⟩ := List.exists_cons_of_ne_nil hne
  exact hhead x (by simp [hframe]) (hall x (by simp [hframe]))

/-- A byte that crosses no frame leaves the open frame to its own client. -/
theorem Inv.take (fw : Firmware N W X) {t : Ledger A N W X} (I : t.Inv) {a : A} {b : UInt8}
    (hc : ¬ t.Crosses (a, b)) : (t.take fw (a, b)).Apart ∧ (t.take fw (a, b)).OwnedBy a := by
  have hcrossed : (t.take fw (a, b)).crossed = false := by
    simp [Ledger.take, I.apart.crossed, hc]
  have hquiet (hb : b ≠ endOfPacket ∨ t.hup.handle.state = hupStateNone) :
      (t.take fw (a, b)).Apart := by
    refine ⟨fun r hr => ?_, hcrossed⟩
    rw [Ledger.take, sends_processByte fw t.hup b hb] at hr
    exact I.apart.replies r (by simpa using hr)
  by_cases hs : isStartMark b = true
  · have hext : t.extended (a, b) = [(a, b)] := by simp [extended, hs]
    have hb : b ≠ endOfPacket := by
      rintro rfl
      revert hs
      decide
    refine ⟨hquiet (.inl hb), fun _ => ⟨?_, fun x hx => ?_⟩⟩
    · change t.extended (a, b) ≠ []
      rw [hext]
      exact List.cons_ne_nil _ _
    · have hx : x ∈ t.extended (a, b) := hx
      rw [hext, List.mem_singleton] at hx
      rw [hx]
  · have hs : isStartMark b = false := by simpa using hs
    by_cases hm : t.hup.handle.state = hupStateNone
    · refine ⟨hquiet (.inr hm), fun hin => absurd ?_ hin⟩
      change (processByte fw t.hup b).handle.state = hupStateNone
      rw [processByte_idle fw hm hs]
      exact hm
    · obtain ⟨owner, howner⟩ := I.owned
      obtain ⟨hne, hall⟩ := howner hm
      -- the byte is no start mark, so only a foreign owner could make it cross
      have hsame : owner = a := by
        by_contra hdiff
        refine hc ⟨hm, fun y hy he => hdiff ?_, fun h => ?_⟩
        · rw [← hall y (List.mem_of_mem_head? hy)]
          exact he
        · rw [hs] at h
          cases h
      have hext : t.extended (a, b) = t.frame ++ [(a, b)] := by simp [extended, hs, hm]
      have hframe : ∀ x ∈ t.extended (a, b), x.1 = a := by
        intro x hx
        rw [hext] at hx
        rcases List.mem_append.mp hx with hx | hx
        · exact (hall x hx).trans hsame
        · rw [List.mem_singleton.mp hx]
      refine ⟨⟨fun r hr => ?_, hcrossed⟩, fun _ => ⟨?_, hframe⟩⟩
      · rcases List.mem_append.mp hr with hr | hr
        · exact I.apart.replies r hr
        · obtain ⟨bytes, -, rfl⟩ := List.mem_map.mp hr
          exact hframe
      · change t.extended (a, b) ≠ []
        rw [hext]
        simp

/-- The rest of a datagram cannot cross: the open frame is its own. -/
theorem Inv.foldl_take (fw : Firmware N W X) {t : Ledger A N W X} (I : t.Inv) {a : A}
    (h : t.OwnedBy a) (data : Bytes) : ((data.map (a, ·)).foldl (Ledger.take fw) t).Inv := by
  induction data generalizing t with
  | nil => exact I
  | cons b data ih =>
    obtain ⟨hapart, howned⟩ := I.take fw (h.not_crosses b)
    exact ih ⟨hapart, a, howned⟩ howned

theorem Inv.deliver (fw : Firmware N W X) {t : Ledger A N W X} (I : t.Inv) {d : Datagram A}
    (hc : t.Continues d) : (t.deliver fw d).Inv := by
  unfold Continues received at hc
  unfold Ledger.deliver received
  cases hdata : d.data.take N with
  | nil => exact I
  | cons b data =>
    rw [hdata] at hc
    obtain ⟨hapart, howned⟩ := I.take fw (hc (d.client, b) rfl)
    exact Inv.foldl_take fw ⟨hapart, d.client, howned⟩ howned data

/-- Once a frame was crossed, it stays noted. -/
theorem crossed_foldl (fw : Firmware N W X) {t : Ledger A N W X} (h : t.crossed = true)
    (l : List (A × UInt8)) : (l.foldl (take fw) t).crossed = true := by
  induction l generalizing t with
  | nil => exact h
  | cons x l ih =>
    refine ih ?_
    rw [take, h]
    rfl

theorem crossed_deliver (fw : Firmware N W X) {t : Ledger A N W X} {d : Datagram A}
    (hc : ¬ t.Continues d) : ¬ (t.deliver fw d).Apart := by
  intro hapart
  simp only [Continues, not_forall, not_not] at hc
  obtain ⟨x, hx, hcross⟩ := hc
  obtain ⟨rest, hrest⟩ : ∃ rest, received N d = x :: rest := by
    cases hr : received N d with
    | nil => simp [hr] at hx
    | cons y rest =>
      rw [hr] at hx
      exact ⟨rest, by rw [Option.some.inj hx]⟩
  have hnoted : (t.take fw x).crossed = true := by simp [take, hcross]
  have := hapart.crossed
  rw [deliver, hrest, List.foldl_cons, crossed_foldl fw hnoted] at this
  cases this

omit [DecidableEq A] in
theorem init_inv (w : W) (a : A) : (Ledger.init w : Ledger A N W X).Inv :=
  ⟨⟨fun _ hr => absurd hr List.not_mem_nil, rfl⟩, a, fun hin => absurd rfl hin⟩

/-- Clients are kept apart exactly if no datagram begins inside a frame of another
client. -/
theorem apart_iff (fw : Firmware N W X) (w : W) (l : List (Datagram A)) :
    Always (deliver fw) Apart (.init w) l ↔ Guarded (deliver fw) Continues (.init w) l := by
  cases l with
  | nil =>
    refine ⟨fun _ => guarded_nil, fun _ p hp => ?_⟩
    rw [List.prefix_nil.mp hp]
    exact ⟨fun r hr => absurd hr List.not_mem_nil, rfl⟩
  | cons d l =>
    exact always_iff_guarded (I := Inv) (fun _ _ I hc => I.deliver fw hc)
      (fun _ _ _ hc => crossed_deliver fw hc) (fun _ I => I.apart) (init_inv w d.client)

end Ledger

/-- **Replies and clients.** In every run of the server whose replies fit, each reply
answers a frame that ends with an end mark of the client it goes to. The other bytes
of the frames are the same client's, and no client touches the frame of another,
exactly if no datagram begins inside a frame of another client. -/
theorem clients_apart_iff [DecidableEq A] (fw : Firmware N W X) (w : W) (l : List (Datagram A))
    (hfit : RepliesFit N (l.foldl (HupServer.turn fw) (.init w)).hup.log) :
    Follows (l.foldl (Ledger.deliver fw) (.init w)) (l.foldl (HupServer.turn fw) (.init w)) ∧
      (∀ r ∈ (l.foldl (Ledger.deliver fw) (.init w)).replies, r.Framed) ∧
      (Always (Ledger.deliver fw) Ledger.Apart (.init w) l ↔
        Guarded (Ledger.deliver fw) Ledger.Continues (.init w) l) :=
  ⟨Ledger.follows_run fw w hfit, (Ledger.framing_run fw w l).replies, Ledger.apart_iff fw w l⟩

/-- A client whose command, with a CRC field that does not match, comes in two
datagrams. -/
def inPieces : List (Datagram Bool) :=
  [⟨false, [enqOfCommand, 118]⟩, ⟨false, [crcMark, 48, endOfPacket]⟩]

/-- The image without commands. -/
abbrev bareImage : Firmware packetSize Unit Empty := image [] []

theorem pieces_kept_apart :
    Follows (inPieces.foldl (Ledger.deliver bareImage) (.init ()))
        (inPieces.foldl (HupServer.turn bareImage) (.init ())) ∧
      (∀ r ∈ (inPieces.foldl (Ledger.deliver bareImage) (.init ())).replies, r.Framed) ∧
      (Always (Ledger.deliver bareImage) Ledger.Apart (.init ()) inPieces ↔
        Guarded (Ledger.deliver bareImage) Ledger.Continues (.init ()) inPieces) :=
  clients_apart_iff bareImage () inPieces (by decide +kernel)

/-- A client begins a command and another one ends it, with a CRC field that does
not match. -/
def takenOver : List (Datagram Bool) :=
  [⟨false, [enqOfCommand, 118]⟩, ⟨true, [crcMark, 48, endOfPacket]⟩]

/-- **Clients mix.** The second client gets the answer to the command, with the
first client's header in it. -/
theorem frame_taken_over :
    (takenOver.foldl (HupServer.turn (image (W := Unit) (X := Empty) [] [])) (.init ())).sent =
        [(some true, crcNak (image (W := Unit) (X := Empty) [] []) [118, crcMark, 48])] ∧
      ¬ Always (Ledger.deliver (image (W := Unit) (X := Empty) [] [])) Ledger.Apart (.init ())
        takenOver := by
  refine ⟨by decide +kernel, ?_⟩
  rw [Ledger.apart_iff]
  decide +kernel

end Sdkz.App.Udp
