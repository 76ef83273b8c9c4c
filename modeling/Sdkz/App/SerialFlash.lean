import Sdkz.App.UartSettles
import Sdkz.Hu.InFlight
import Sdkz.Hu.Upload

/-! # Flash commands over the serial line

The server of `app/src/hup_server.c` runs over the interrupt-driven UART, with the commands
of `lib/hu/huflash.c`, and a client at the other end of the line sends it requests. At any
moment some bytes of the requests are on their way to the parser, and some of the replies
are on their way to the client. The world is then the one behind the first requests, the
client has read no more than the responses to these (`requests_always_served`), and an
upload of which it has read an acknowledgement for each command is in the flash
(`upload_always_installed`). When the line is at rest it has read all responses
(`requests_settle`). -/

namespace Sdkz.App
open Sdkz.Base Sdkz.Hu

namespace UartServer
variable {N : Nat} {W W' X' : Type} {b : Board W} {fw : Firmware N W FlashCall} {w : W}

/-- What a client has read of some bytes. -/
def readBy (fw' : Firmware N W' X') (client : Machine N W' X') (t : Bytes) : List Packet :=
  (presented (since client (processHupacket fw' client t))).map (·.1)

/-- The first `k` requests are performed, and a beginning of their replies is on the line. -/
structure Served (b : Board W) (fw : Firmware N W FlashCall) (w : W) (requests : List Request)
    (k : Nat) (s : UartServer N W FlashCall) : Prop where
  count : k ≤ requests.length
  world : s.hup.world = worldAfter b w (requests.take k)
  calls : driverCalls s.hup.log = ((Hu.works b w requests).take k).flatMap Work.session
  replies : s.uart.taken <+: ((responseFrames b fw w requests).take k).flatten

theorem since_fresh {X : Type} (w : W) (m : Machine N W X) : since (.fresh N w) m = m.log :=
  since_eq (List.nil_append _).symm

section Serving
variable {requests : List Request}

/-- The parser has seen a beginning of what was delivered, and the hardware has taken a
beginning of what it answered. -/
theorem Serves.served (hclean : ∀ r ∈ requests, r.Clean b fw) {s : UartServer N W FlashCall}
    (I : s.Serves (withFlash b fw) w) (hdelivered : s.uart.delivered <+: requestBytes fw requests) :
    ∃ k, s.Served b fw w requests k := by
  obtain ⟨⟨parsed, hhup, hinput⟩, houtput⟩ := I.answering
  have hparsed : parsed <+: requestBytes fw requests := by
    refine List.IsPrefix.trans ?_ hdelivered
    rw [← hinput, List.append_assoc]
    exact List.prefix_append _ _
  obtain ⟨k, hk, hworld, hcalls, hsent⟩ := node_arrived hclean (.fresh N w) hparsed
  rw [← hhup, since_fresh] at hcalls hsent
  refine ⟨k, hk, hhup ▸ hworld, hcalls, ?_⟩
  rw [← (show _ = (responseFrames b fw w requests).take k from hsent), ← houtput, List.append_assoc,
    List.append_assoc]
  exact List.prefix_append _ _

/-- The client has read no more than the responses to what is performed. -/
theorem Served.read {k : Nat} {s : UartServer N W FlashCall} (V : s.Served b fw w requests k)
    (hclean : ∀ r ∈ requests, r.Clean b fw)
    (hfits : ∀ f ∈ responseFrames b fw w requests, f.length + 1 ≤ N)
    (fw' : Firmware N W' X') (client : Machine N W' X') {t : Bytes} (ht : t <+: s.uart.taken) :
    ∃ j ≤ k, readBy fw' client t = (responses b fw w requests).take j := by
  have hreplies := ht.trans V.replies
  rw [← responseFrames_take] at hreplies
  obtain ⟨j, hj, hread⟩ := client_arrived (fun r hr => hclean r (List.mem_of_mem_take hr))
    (fun f hf => hfits f (List.mem_of_mem_take (by rw [← responseFrames_take]; exact hf)))
    fw' client hreplies
  rw [List.length_take, Nat.min_eq_left V.count] at hj
  refine ⟨j, hj, ?_⟩
  rw [readBy, hread, responses_take, List.take_take, Nat.min_eq_left hj]

end Serving

section Runs
variable {txData rxData : Nat → UInt8} {l : List Event} {requests : List Request}

theorem serves_always
    (hperm : Guarded (step (withFlash b fw)) (fun s e => s.permits e) (init w txData rxData) l)
    (hsettled : Guarded (step (withFlash b fw)) (fun s e => s.within Uart.settled e)
      (init w txData rxData) l) :
    Always (step (withFlash b fw)) (Serves (withFlash b fw) w) (init w txData rxData) l := by
  have hboth : Guarded (step (withFlash b fw)) (fun s e => s.permits e ∧ s.within Uart.settled e)
      (init w txData rxData) l := fun p e hp => ⟨hperm p e hp, hsettled p e hp⟩
  exact hboth.always (fun s e I h => I.step h.1 h.2) (init_serves _ w txData rxData)

/-- **Requests are served one after the other**, whatever happens between the steps of the
server: as long as what was delivered belongs to requests, exactly the first of them have been
performed, and the client has read the responses to some of these. -/
theorem requests_always_served (hclean : ∀ r ∈ requests, r.Clean b fw)
    (hfits : ∀ f ∈ responseFrames b fw w requests, f.length + 1 ≤ N)
    (fw' : Firmware N W' X') (client : Machine N W' X')
    (hperm : Guarded (step (withFlash b fw)) (fun s e => s.permits e) (init w txData rxData) l)
    (hsettled : Guarded (step (withFlash b fw)) (fun s e => s.within Uart.settled e)
      (init w txData rxData) l) :
    Always (step (withFlash b fw)) (fun s => s.uart.delivered <+: requestBytes fw requests →
      ∃ k, s.Served b fw w requests k ∧ ∀ t, t <+: s.uart.taken →
        ∃ j ≤ k, readBy fw' client t = (responses b fw w requests).take j)
      (init w txData rxData) l := by
  have hinv := serves_always hperm hsettled
  intro p hp hdelivered
  obtain ⟨k, V⟩ := (hinv p hp).served hclean hdelivered
  exact ⟨k, V, fun t ht => V.read hclean hfits fw' client ht⟩

/-- **An upload is installed when it is acknowledged**: in any state of a run in which the
client has read as many responses as it sent requests, and all of them acknowledgements. -/
theorem upload_always_installed {cells : W → Cells} {size : UInt8 → Nat} (k : b.Keeps cells size)
    {u : Upload} (hclean : ∀ r ∈ u.requests, r.Clean b fw) (hshort : u.image.length < 2 ^ 31)
    (hfits : ∀ f ∈ responseFrames b fw w u.requests, f.length + 1 ≤ N)
    (fw' : Firmware N W' X') (client : Machine N W' X')
    (hperm : Guarded (step (withFlash b fw)) (fun s e => s.permits e) (init w txData rxData) l)
    (hsettled : Guarded (step (withFlash b fw)) (fun s e => s.within Uart.settled e)
      (init w txData rxData) l) :
    Always (step (withFlash b fw)) (fun s => s.uart.delivered <+: requestBytes fw u.requests →
      ∀ t, t <+: s.uart.taken → (readBy fw' client t).length = u.requests.length →
        Acknowledged (readBy fw' client t) →
          Installed (size 0) u.image (cells w) (cells s.hup.world))
      (init w txData rxData) l := by
  have hinv := serves_always hperm hsettled
  intro p hp hdelivered t ht hlength hack
  obtain ⟨n, V⟩ := (hinv p hp).served hclean hdelivered
  obtain ⟨j, hj, hread⟩ := V.read hclean hfits fw' client ht
  have hcount := V.count
  -- there are as many responses only if every request is performed
  have hall : j = u.requests.length := by
    rw [hread, List.length_take, length_responses] at hlength
    omega
  have hdone : n = u.requests.length := by omega
  rw [hread, hall, ← length_responses b fw w, List.take_length, responses, acknowledged_iff] at hack
  rw [V.world, hdone, List.take_length]
  exact Upload.done_installed k hshort hack

/-- **All requests are answered in the end.** -/
theorem requests_settle (hclean : ∀ r ∈ requests, r.Clean b fw)
    (hfits : ∀ f ∈ responseFrames b fw w requests, f.length + 1 ≤ N)
    (fw' : Firmware N W' X') (client : Machine N W' X') {s : UartServer N W FlashCall}
    (hreached : s.Reached (withFlash b fw) w) (hdelivered : s.uart.delivered = requestBytes fw requests) :
    ∃ n, ∀ l, Guarded (step (withFlash b fw)) (fun s e => s.works e) s l → l.length ≤ n ∧
      let t := l.foldl (step (withFlash b fw)) s
      (∀ e, ¬ t.works e) → t.hup.world = worldAfter b w requests ∧
        driverCalls t.hup.log = (Hu.works b w requests).flatMap Work.session ∧
        readBy fw' client t.uart.taken = responses b fw w requests := by
  have hrests := hreached.rests
  refine ⟨s.rank (withFlash b fw), fun l hworks => ?_⟩
  obtain ⟨hlength, hsame, hsettled⟩ := run_settles hrests hworks
  refine ⟨hlength, fun hstuck => ?_⟩
  obtain ⟨hparsed, htaken⟩ := hsettled hstuck
  rw [hsame, hdelivered] at hparsed
  obtain ⟨hworld, hcalls, hsent⟩ := node_performs hclean (.fresh N w)
  rw [← requestBytes, ← hparsed, since_fresh] at hcalls hsent
  refine ⟨hparsed ▸ hworld, hcalls, ?_⟩
  rw [readBy, htaken, hsent]
  exact client_reads hclean hfits fw' client

end Runs

/-! ## An empty image -/

/-- A client clears the area of `slot0`. -/
def clearing : Upload where
  id := none
  sequence := none
  crc := false
  name := ascii "slot0"
  pieces := []

/-- The image of the server, and of a client without entries. -/
def bareImage : Firmware packetSize Cells FlashCall := image [] []

theorem clearing_clean : ∀ r ∈ clearing.requests, r.Clean memoryBoard bareImage := by
  intro r hr
  rw [List.mem_singleton.mp hr]
  have hheader : CleanHeader none (ascii "erase") none :=
    ⟨by simp, by decide, by decide, by simp⟩
  exact ⟨hheader, by decide, by decide, by decide +kernel, rfl⟩

theorem clearing_fits : ∀ f ∈ responseFrames memoryBoard bareImage (fun _ _ => 7) clearing.requests,
    f.length + 1 ≤ packetSize := by
  decide +kernel

/-- The command arrives while the server waits; it is performed. -/
def clearingRun : List Event :=
  [.recv, .uart .get, .uart (.turn (some (.ok (requestBytes bareImage clearing.requests))) none),
    .uart .takeRx, .uart .get] ++ List.replicate 13 .process ++ [.send, .uart .put, .uart .enable]

/-- The reply is taken in two parts. -/
def clearingSent : List Event := [.uart (.turn none (some 8)), .uart (.turn none (some 7))]

/-- The server when it starts, with sevens in its memory. -/
abbrev clearingStart : UartServer packetSize Cells FlashCall :=
  init (fun _ _ => 7) (fun _ => 0) (fun _ => 0)

/-- The server behind the run. -/
abbrev clearingEnd : UartServer packetSize Cells FlashCall :=
  (clearingRun ++ clearingSent).foldl (step (withFlash memoryBoard bareImage)) clearingStart

/-- The client before it has read anything. -/
abbrev clearingClient : Machine packetSize Cells FlashCall := .fresh packetSize fun _ _ => 0

theorem clearing_guarded :
    Guarded (step (withFlash memoryBoard bareImage)) (fun s e => s.permits e) clearingStart
      (clearingRun ++ clearingSent) ∧
    Guarded (step (withFlash memoryBoard bareImage)) (fun s e => s.within Uart.settled e)
      clearingStart (clearingRun ++ clearingSent) := by
  decide +kernel

theorem clearing_served :
    Always (step (withFlash memoryBoard bareImage))
      (fun s => s.uart.delivered <+: requestBytes bareImage clearing.requests →
        ∃ k, s.Served memoryBoard bareImage (fun _ _ => 7) clearing.requests k ∧
          ∀ t, t <+: s.uart.taken → ∃ j ≤ k, readBy bareImage clearingClient t =
            (responses memoryBoard bareImage (fun _ _ => 7) clearing.requests).take j)
      clearingStart (clearingRun ++ clearingSent) :=
  requests_always_served clearing_clean clearing_fits _ _ clearing_guarded.1 clearing_guarded.2

/-- When the client has read the reply the area is erased. -/
theorem clearing_installed :
    Installed 0x40000 clearing.image (fun _ _ => 7) clearingEnd.hup.world := by
  have hdelivered : clearingEnd.uart.delivered <+: requestBytes bareImage clearing.requests := by
    decide +kernel
  have hcount : (readBy bareImage clearingClient clearingEnd.uart.taken).length =
      clearing.requests.length := by
    decide +kernel
  have hack : Acknowledged (readBy bareImage clearingClient clearingEnd.uart.taken) := by
    unfold Acknowledged
    decide +kernel
  have hrun := upload_always_installed memoryBoard_keeps clearing_clean (by decide) clearing_fits
    bareImage clearingClient clearing_guarded.1 clearing_guarded.2
  unfold clearingEnd clearingStart
  exact hrun.last hdelivered _ (List.prefix_refl _) hcount hack

theorem clearing_settles : ∃ n, ∀ l,
    let fw := withFlash memoryBoard bareImage
    let s := clearingRun.foldl (step fw) clearingStart
    Guarded (step fw) (fun s e => s.works e) s l → l.length ≤ n ∧
      let t := l.foldl (step fw) s
      (∀ e, ¬ t.works e) →
        t.hup.world = worldAfter memoryBoard (fun _ _ => 7) clearing.requests ∧
        driverCalls t.hup.log =
          (Hu.works memoryBoard (fun _ _ => 7) clearing.requests).flatMap Work.session ∧
        readBy bareImage clearingClient t.uart.taken =
          responses memoryBoard bareImage (fun _ _ => 7) clearing.requests :=
  requests_settle clearing_clean clearing_fits _ _
    ⟨_, _, clearingRun, by decide +kernel, rfl⟩ (by decide +kernel)

end UartServer

end Sdkz.App
