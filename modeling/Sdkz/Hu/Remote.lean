import Sdkz.Hu.Exchange
import Sdkz.Hu.Sessions

/-! # Flash commands called from afar

A request that goes over the wire does what the same request does when its work
is called directly: the node ends in the same world, the driver sees the same
calls, and the client reads the status of the work. `Request.work` is the direct
call, without frames, buffers and logs; `requests_performed` says that a whole
list of requests cannot be told from a list of direct calls. -/

namespace Sdkz.Hu
open Sdkz.Base

variable {N : Nat} {W X W' X' : Type}

/-! ## A frame is a call of its service -/

/-- The driver calls are seen. -/
theorem driverCalls_visible (log : List (Event X)) : driverCalls (visible log) = driverCalls log := by
  unfold driverCalls visible
  rw [List.filterMap_filter]
  refine List.filterMap_congr fun e _ => ?_
  cases e <;> rfl

/-- A frame that passes the CRC check does to the world, to the drivers and to
the transport what its service says, whatever the handle held before. -/
theorem frame_served (fw : Firmware N W X) (m : Machine N W X) {start : UInt8} {body : Bytes}
    (f : InLimits N start body)
    (hv : ¬ (start = enqOfCommand ∧ verdictOf fw body = some false)) {e : HupCmd N W X}
    (he : entryFor fw start body = some e) {serve : Service W X} (hs : e.Serves serve) :
    ∃ v, let r := serve m.world (packetOf start body) v
      let m' := processHupacket fw m (frame start body)
      m'.world = r.1 ∧ driverCalls (since m m') = driverCalls r.2 ∧
        sends (since m m') = sends r.2 := by
  obtain ⟨m₁, hcalled, hrun⟩ := frame_calls fw m f hv he
  obtain ⟨h, hclosed, hhandle⟩ := hcalled.handle
  obtain ⟨ev, hlog, hev⟩ := hcalled.log
  have hpacket : m₁.handle.packet = packetOf start body := by
    rw [hhandle]
    exact hclosed.packet
  have hargv : m₁.handle.packet.argv = commandOf body :: records body :=
    congrArg Packet.argv hpacket
  have hargc : 0 < m₁.handle.argc := by
    have hsplit : h.split.argc = h.argc := split_argc h
    have hcount : h.argc = body.count recordMark + 1 := hclosed.argc
    rw [hhandle]
    omega
  have hworld := hs.world m₁ hargc
  have hseen := hs.seen m₁ hargc
  rw [hargv, hpacket, hcalled.world] at hworld hseen
  rw [hrun]
  have hgrows : ∃ new, (e.func m₁ ((records body).length + 1)
      (commandOf body :: records body)).log = m₁.log ++ new :=
    (e.replies m₁ _ _).2.imp fun _ h => h.1
  obtain ⟨new, hnew⟩ := hgrows
  have hshown : visible new = (serve m.world (packetOf start body) m₁.handle.crcMatch).2 := by
    rw [List.length_cons, hnew, visible_append] at hseen
    exact List.append_cancel_left hseen
  have hsince : since m ((e.func m₁ ((records body).length + 1)
      (commandOf body :: records body)).mapHandle .reset) = ev ++ new :=
    since_eq (by rw [← List.append_assoc, ← hlog, ← hnew]; rfl)
  refine ⟨m₁.handle.crcMatch, hworld, ?_, ?_⟩
  · rw [hsince, driverCalls_append, driverCalls_unreplied hev, ← hshown, driverCalls_visible]
    rfl
  · have hquiet : sends ev = [] := List.filterMap_eq_nil_iff.mpr fun e he => by
      have := hev e he
      cases e <;> simp_all [Event.isReply, Event.sent]
    rw [hsince, sends_append, hquiet, ← hshown, sends_visible]
    rfl

/-! ## Direct calls -/

/-- What a request does when it is called directly. -/
def Request.work (b : Board W) (w : W) (r : Request) : Work W :=
  if r.command = ascii "erase" then .erase b w (r.command :: r.texts)
  else if r.command = ascii "flash" then .flash b w (r.command :: r.texts)
  else .wrprt b w (r.command :: r.texts)

/-- The work of requests called one after the other. -/
def works (b : Board W) : W → List Request → List (Work W)
  | _, [] => []
  | w, r :: requests => r.work b w :: works b ((r.work b w).closed b) requests

/-- The world behind them. -/
def worldAfter (b : Board W) (w : W) (requests : List Request) : W :=
  requests.foldl (fun w r => (r.work b w).closed b) w

/-- The response to a request that ended with a status. -/
def Request.response (b : Board W) (fw : Firmware N W FlashCall) (r : Request) (status : Int) :
    Packet :=
  let texts := itoa10 status :: r.texts.take ((r.echoes b).getD 0)
  { response := true, id := r.id, argv := r.command :: texts, sequence := r.sequence
    crc16 := if r.crc then some (itoa16 (fw.crc16 (r.header ++ joined texts)).toNat) else none }

/-- Its frame on the wire. -/
def Request.responseFrame (b : Board W) (fw : Firmware N W FlashCall) (r : Request)
    (status : Int) : Bytes :=
  frame (statusMark status) (r.answer fw status ((r.echoes b).getD 0))

/-! ## One request -/

section Single
variable {b : Board W} {fw : Firmware N W FlashCall} {r : Request}

/-- The entry for a request, and how many records it echoes. -/
theorem Request.entry (answered : (r.echoes b).isSome) (hcommand : commandOf (r.body fw) = r.command)
    (w : W) {p : Packet} (hargv : p.argv = r.command :: r.texts) :
    ∃ e serve k, entryFor (withFlash b fw) enqOfCommand (r.body fw) = some e ∧ e.Serves serve ∧
      r.echoes b = some k ∧ ∀ v, serve w p v = (r.work b w).serve b fw p 1 k := by
  obtain ⟨herase, hflash, hwrprt⟩ := entryFor_withFlash b fw (r.body fw)
  unfold Request.echoes at answered ⊢
  unfold Request.work
  rw [hcommand] at herase hflash hwrprt
  by_cases h1 : r.command = ascii "erase"
  · refine ⟨_, _, 1, herase h1, hupCmdErase_serves b fw, if_pos h1, fun v => ?_⟩
    rw [if_pos h1, eraseService, hargv]
  rw [if_neg h1] at answered ⊢
  by_cases h2 : r.command = ascii "flash"
  · refine ⟨_, _, 3, hflash h2, hupCmdFlash_serves b fw, if_pos h2, fun v => ?_⟩
    rw [if_neg h1, if_pos h2, flashService, hargv]
  rw [if_neg h2] at answered ⊢
  by_cases h3 : r.command = ascii "wrprt" ∧ b.flashHasExOp = true
  · refine ⟨_, _, 2, hwrprt h3.1, hupCmdWrprt_serves b fw, if_pos h3, fun v => ?_⟩
    rw [if_neg h1, if_neg h2, wrprtService, if_pos h3.2, hargv]
  · rw [if_neg h3] at answered
    cases answered

/-- **One request is one direct call**, and its reply carries the status. -/
theorem request_performed (c : r.Clean b fw) (m : Machine N W FlashCall) :
    let k := r.work b m.world
    let m' := processHupacket (withFlash b fw) m (frame enqOfCommand (r.body fw))
    m'.world = k.closed b ∧ driverCalls (since m m') = k.session ∧
      sends (since m m') = [r.responseFrame b fw k.status] := by
  obtain ⟨f, hver, -, -, hcommand⟩ := c.read
  have hpacket : packetOf enqOfCommand (r.body fw) = _ :=
    framed_packet fw r.crc enqOfCommand c.headerClean c.textsPlain
  have hargv : (packetOf enqOfCommand (r.body fw)).argv = r.command :: r.texts := by rw [hpacket]
  have hheader : (packetOf enqOfCommand (r.body fw)).header = r.header := by
    rw [hpacket]
    rfl
  have hcrc : (packetOf enqOfCommand (r.body fw)).crc16.isSome = r.crc := by
    rw [hpacket]
    cases r.crc <;> rfl
  obtain ⟨e, serve, n, he, hserves, hn, hwork⟩ := Request.entry c.answered hcommand m.world hargv
  obtain ⟨v, hworld, hcalls, hsent⟩ := frame_served (withFlash b fw) m f (fun h => hver h.2) he
    hserves
  rw [hwork v] at hworld hcalls hsent
  refine ⟨hworld, ?_, ?_⟩
  · rw [hcalls, Work.serve, driverCalls_append, driverCalls_devices]
    exact List.append_nil _
  · rw [hsent, serve_sends, hcrc, hheader, hargv, List.length_cons, echoed_eq_take]
    simp [reply, frame, crcSuffix, crcTexts, Request.responseFrame, Request.answer, statusText,
      statusMark, hn]

/-- The client reads the response. -/
theorem response_read (c : r.Clean b fw) {status : Int}
    (hfits : (r.responseFrame b fw status).length + 1 ≤ N) (fw' : Firmware N W' X')
    (client : Machine N W' X') :
    (presented (since client (processHupacket fw' client (r.responseFrame b fw status)))).map
      (·.1) = [r.response b fw status] := by
  obtain ⟨n, hn⟩ := Option.isSome_iff_exists.mp c.answered
  have hget : (r.echoes b).getD 0 = n := by rw [hn, Option.getD_some]
  obtain ⟨hmark, hresponse⟩ := statusMark_mark status
  unfold Request.responseFrame Request.response at *
  rw [hget] at hfits ⊢
  obtain ⟨hplain, f⟩ := c.answer_inLimits hn hfits
  have hpacket : packetOf (statusMark status) (r.answer fw status n) = _ :=
    framed_packet fw r.crc (statusMark status) c.headerClean hplain
  obtain ⟨-, hpres, -, -⟩ := frame_presented fw' client f fun h => hresponse h.1
  have hmark : (statusMark status != enqOfCommand) = true := by simpa using hresponse
  rw [hpres, List.map_singleton, hpacket, hmark]
  rfl

end Single

/-! ## A list of requests -/

theorem driverCalls_run (fw : Firmware N W X) (m : Machine N W X) (a s : Bytes) :
    driverCalls (since m (processHupacket fw m (a ++ s))) =
      driverCalls (since m (processHupacket fw m a)) ++
        driverCalls (since (processHupacket fw m a)
          (processHupacket fw (processHupacket fw m a) s)) := by
  rw [processHupacket_append, since_append (processHupacket_log fw m a)
    (processHupacket_log fw _ s), driverCalls_append]

section Run
variable {b : Board W} {fw : Firmware N W FlashCall} {requests : List Request}

/-- A node performs the requests it is sent, one after the other. -/
theorem node_performs (hclean : ∀ r ∈ requests, r.Clean b fw) (node : Machine N W FlashCall) :
    let node' := processHupacket (withFlash b fw) node
      (requests.flatMap fun r => frame enqOfCommand (r.body fw))
    let done := works b node.world requests
    node'.world = worldAfter b node.world requests ∧
      driverCalls (since node node') = done.flatMap Work.session ∧
      sends (since node node') =
        List.zipWith (Request.responseFrame b fw) requests (done.map Work.status) := by
  induction requests generalizing node with
  | nil =>
    have hquiet : since node node = [] := since_eq (List.append_nil _).symm
    simp only [List.flatMap_nil, processHupacket, List.foldl_nil, hquiet]
    exact ⟨rfl, rfl, rfl⟩
  | cons r requests ih =>
    obtain ⟨hworld, hcalls, hreply⟩ := request_performed (hclean r List.mem_cons_self) node
    obtain ⟨hworlds, hall, hreplies⟩ := ih (fun r' h => hclean r' (List.mem_cons_of_mem r h))
      (processHupacket (withFlash b fw) node (frame enqOfCommand (r.body fw)))
    rw [hworld] at hworlds hall hreplies
    intro node' done
    have hdone : done = r.work b node.world ::
        works b ((r.work b node.world).closed b) requests := rfl
    refine ⟨?_, ?_, ?_⟩
    · exact (congrArg Machine.world (processHupacket_append _ _ _ _)).trans hworlds
    · rw [hdone, List.flatMap_cons, ← hall, ← hcalls]
      exact driverCalls_run _ _ _ _
    · rw [hdone, List.map_cons, List.zipWith_cons_cons, ← hreplies, ← List.singleton_append,
        ← hreply]
      exact sends_run _ _ _ _

/-- A client reads responses that fit its buffer, one after the other. -/
theorem client_reads (hclean : ∀ r ∈ requests, r.Clean b fw) {statuses : List Int}
    (hfits : ∀ s ∈ List.zipWith (Request.responseFrame b fw) requests statuses, s.length + 1 ≤ N)
    (fw' : Firmware N W' X') (client : Machine N W' X') :
    (presented (since client (processHupacket fw' client
      (List.zipWith (Request.responseFrame b fw) requests statuses).flatten))).map (·.1) =
        List.zipWith (Request.response b fw) requests statuses := by
  have hnone : since client client = [] := since_eq (List.append_nil _).symm
  induction requests generalizing client statuses with
  | nil =>
    simp only [List.zipWith_nil_left, List.flatten_nil, processHupacket, List.foldl_nil, hnone]
    rfl
  | cons r requests ih =>
    cases statuses with
    | nil =>
      simp only [List.zipWith_nil_right, List.flatten_nil, processHupacket, List.foldl_nil, hnone]
      rfl
    | cons status statuses =>
      rw [List.zipWith_cons_cons, List.forall_mem_cons] at hfits
      rw [List.zipWith_cons_cons, List.zipWith_cons_cons, List.flatten_cons, presented_run,
        List.map_append, response_read (hclean r List.mem_cons_self) hfits.1,
        ih (fun r' h => hclean r' (List.mem_cons_of_mem r h)) hfits.2 _
          (since_eq (List.append_nil _).symm)]
      rfl

/-- **Requests over the wire are direct calls.** A node in any state that is sent
requests one behind the other ends in the world in which the same requests called
directly end, the driver sees the same calls, and a client in any state reads, one
for each request and in order, exactly the responses with the statuses of these
calls, as long as the replies fit `tx_buffer`. -/
theorem requests_performed (hclean : ∀ r ∈ requests, r.Clean b fw) (node : Machine N W FlashCall)
    (fw' : Firmware N W' X') (client : Machine N W' X')
    (hfits : ∀ s ∈ sends (since node (processHupacket (withFlash b fw) node
      (requests.flatMap fun r => frame enqOfCommand (r.body fw)))), s.length + 1 ≤ N) :
    let node' := processHupacket (withFlash b fw) node
      (requests.flatMap fun r => frame enqOfCommand (r.body fw))
    let done := works b node.world requests
    node'.world = worldAfter b node.world requests ∧
      driverCalls (since node node') = done.flatMap Work.session ∧
      (presented (since client (processHupacket fw' client
        (sends (since node node')).flatten))).map (·.1) =
        List.zipWith (Request.response b fw) requests (done.map Work.status) := by
  obtain ⟨hworld, hcalls, hreplies⟩ := node_performs hclean node
  rw [hreplies] at hfits
  intro node' done
  refine ⟨hworld, hcalls, ?_⟩
  rw [hreplies]
  exact client_reads hclean hfits fw' client

end Run

/-- An erase that is turned down in the middle of another frame, then one that
works: the driver is called for the second one only. -/
theorem two_erases_performed :
    let b := plainBoard
    let fw : Firmware packetSize Unit FlashCall := image [] []
    let requests : List Request :=
      [⟨none, ascii "erase", none, [], false⟩, ⟨none, ascii "erase", none, [ascii "slot0"], true⟩]
    let node := processHupacket (withFlash b fw) (.fresh packetSize ()) [enqOfCommand, 118]
    let node' := processHupacket (withFlash b fw) node
      (requests.flatMap fun r => frame enqOfCommand (r.body fw))
    driverCalls (since node node') =
        [.open 0, .erase ⟨0, 0x40000⟩ 0 0x40000, .close ⟨0, 0x40000⟩] ∧
      (presented (since (.fresh packetSize () : Machine packetSize Unit Empty)
        (processHupacket (image [] []) (.fresh packetSize ())
          (sends (since node node')).flatten))).map (·.1) =
        List.zipWith (Request.response b fw) requests [-einval, 0] := by
  intro b fw requests node node'
  have hclean : ∀ r ∈ requests, r.Clean b fw := by
    intro r hr
    rcases List.mem_pair.mp hr with rfl | rfl
    · exact ⟨⟨by simp, by decide, by decide, by simp⟩, by simp, by decide, by decide +kernel, rfl⟩
    · exact ⟨⟨by simp, by decide, by decide, by simp⟩, by decide, by decide, by decide +kernel,
        rfl⟩
  have hfits : ∀ s ∈ sends (since node node'), s.length + 1 ≤ packetSize := by decide +kernel
  exact (requests_performed hclean node (image (W := Unit) (X := Empty) [] []) _ hfits).2

end Sdkz.Hu
