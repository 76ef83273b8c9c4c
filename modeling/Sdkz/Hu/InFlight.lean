import Sdkz.Hu.Remote

/-! # Requests and responses on their way

A stream of frames can be cut anywhere. What has arrived of it are some whole frames and
the beginning of one more, and nothing can be seen of the beginning. So a node that has
received a part of the bytes of some requests has performed the first of them, and a client
that has received a part of the replies has read the first responses. -/

namespace Sdkz.Hu
open Sdkz.Base

variable {N : Nat} {W X W' X' : Type}

/-! ## The beginning of a frame -/

theorem driverCalls_stores {ev : List (Event X)} (h : ∀ e ∈ ev, e.isStore) : driverCalls ev = [] :=
  List.filterMap_eq_nil_iff.mpr fun e he => by
    have := h e he
    cases e <;> simp_all [Event.isStore, Event.driven]

/-- Nothing can be seen of what is taken silently. -/
theorem Silent.unnoticed {m m' : Machine N W X} (h : Silent m m') :
    sends (since m m') = [] ∧ presented (since m m') = [] ∧ driverCalls (since m m') = [] := by
  obtain ⟨ev, hlog, hev⟩ := h.log
  rw [since_eq hlog]
  exact ⟨sends_stores hev, presented_stores hev, driverCalls_stores hev⟩

/-- What has arrived of frames are the first of them, and bytes in front of an end mark. -/
theorem prefix_frames {fs : List Bytes} (hfs : ∀ f ∈ fs, ∃ t, endOfPacket ∉ t ∧ f = t ++ [endOfPacket])
    {s : Bytes} (hs : s <+: fs.flatten) :
    ∃ k ≤ fs.length, ∃ tail, endOfPacket ∉ tail ∧ s = (fs.take k).flatten ++ tail := by
  induction fs generalizing s with
  | nil => exact ⟨0, Nat.le_refl 0, [], List.not_mem_nil, List.prefix_nil.mp hs⟩
  | cons f fs ih =>
    obtain ⟨⟨t, ht, hf⟩, hfs⟩ := List.forall_mem_cons.mp hfs
    rw [List.flatten_cons] at hs
    rcases List.prefix_or_prefix_of_prefix hs (List.prefix_append f _) with hin | ⟨rest, rfl⟩
    · rcases List.prefix_concat_iff.mp (hf ▸ hin) with hwhole | hpart
      · refine ⟨1, by simp, [], List.not_mem_nil, ?_⟩
        simp [hwhole, hf]
      · exact ⟨0, Nat.zero_le _, s, fun h => ht (hpart.subset h), rfl⟩
    · obtain ⟨k, hk, tail, htail, hrest⟩ := ih hfs ((List.prefix_append_right_inj f).mp hs)
      refine ⟨k + 1, Nat.succ_le_succ hk, tail, htail, ?_⟩
      rw [hrest, List.take_succ_cons, List.flatten_cons, List.append_assoc]

/-- A frame ends with its only end mark. -/
theorem InLimits.ends {start : UInt8} {body : Bytes} (f : InLimits N start body) :
    ∃ t, endOfPacket ∉ t ∧ frame start body = t ++ [endOfPacket] := by
  refine ⟨start :: body, fun h => ?_, rfl⟩
  rcases List.mem_cons.mp h with he | hm
  · exact absurd (he ▸ f.opens) (by decide)
  · exact absurd (f.inside _ hm) (by decide)

/-! ## The responses to requests -/

/-- The responses to requests that are performed one after the other. -/
def responses (b : Board W) (fw : Firmware N W FlashCall) (w : W) (requests : List Request) :
    List Packet :=
  List.zipWith (Request.response b fw) requests ((works b w requests).map Work.status)

/-- Their frames. -/
def responseFrames (b : Board W) (fw : Firmware N W FlashCall) (w : W) (requests : List Request) :
    List Bytes :=
  List.zipWith (Request.responseFrame b fw) requests ((works b w requests).map Work.status)

/-- What the client puts on the line. -/
def requestBytes (fw : Firmware N W FlashCall) (requests : List Request) : Bytes :=
  requests.flatMap fun r => frame enqOfCommand (r.body fw)

theorem works_take (b : Board W) (w : W) (requests : List Request) (k : Nat) :
    works b w (requests.take k) = (works b w requests).take k := by
  induction requests generalizing w k with
  | nil => simp [works]
  | cons r requests ih =>
    cases k with
    | zero => rfl
    | succ k => rw [List.take_succ_cons, works, works, List.take_succ_cons, ih]

theorem length_works (b : Board W) (w : W) (requests : List Request) :
    (works b w requests).length = requests.length := by
  induction requests generalizing w with
  | nil => rfl
  | cons r requests ih => rw [works, List.length_cons, List.length_cons, ih]

section Taken
variable (b : Board W) (fw : Firmware N W FlashCall) (w : W) (requests : List Request)

theorem responses_take (k : Nat) :
    responses b fw w (requests.take k) = (responses b fw w requests).take k := by
  rw [responses, responses, works_take, List.map_take, List.take_zipWith]

theorem responseFrames_take (k : Nat) :
    responseFrames b fw w (requests.take k) = (responseFrames b fw w requests).take k := by
  rw [responseFrames, responseFrames, works_take, List.map_take, List.take_zipWith]

theorem length_responses : (responses b fw w requests).length = requests.length := by
  rw [responses, List.length_zipWith, List.length_map, length_works, Nat.min_self]

theorem length_responseFrames : (responseFrames b fw w requests).length = requests.length := by
  rw [responseFrames, List.length_zipWith, List.length_map, length_works, Nat.min_self]

end Taken

/-! ## What has arrived -/

section Arrived
variable {b : Board W} {fw : Firmware N W FlashCall} {requests : List Request}

/-- A node that has received a part of requests has performed the first of them. -/
theorem node_arrived (hclean : ∀ r ∈ requests, r.Clean b fw) (node : Machine N W FlashCall)
    {s : Bytes} (hs : s <+: requestBytes fw requests) :
    let node' := processHupacket (withFlash b fw) node s
    ∃ k ≤ requests.length, node'.world = worldAfter b node.world (requests.take k) ∧
      driverCalls (since node node') =
        ((works b node.world requests).take k).flatMap Work.session ∧
      sends (since node node') = (responseFrames b fw node.world requests).take k := by
  intro node'
  rw [requestBytes, List.flatMap_def] at hs
  obtain ⟨k, hk, tail, htail, hcut⟩ := prefix_frames (fun f hf => by
    obtain ⟨r, hr, rfl⟩ := List.mem_map.mp hf
    exact (hclean r hr).read.1.ends) hs
  rw [List.length_map] at hk
  rw [← List.map_take, ← List.flatMap_def] at hcut
  obtain ⟨hworld, hcalls, hsent⟩ :=
    node_performs (fun r hr => hclean r (List.mem_of_mem_take hr)) node
  have hsilent := silent_processHupacket (withFlash b fw) (processHupacket (withFlash b fw) node
    ((requests.take k).flatMap fun r => frame enqOfCommand (r.body fw))) htail
  obtain ⟨hnone, -, hquiet⟩ := hsilent.unnoticed
  refine ⟨k, hk, ?_, ?_, ?_⟩
  · rw [← hworld, ← hsilent.world, ← processHupacket_append, ← hcut]
  · rw [← works_take, ← hcalls]
    change driverCalls (since node (processHupacket (withFlash b fw) node s)) = _
    rw [hcut, driverCalls_run, hquiet, List.append_nil]
  · rw [← responseFrames_take, responseFrames, ← hsent]
    change sends (since node (processHupacket (withFlash b fw) node s)) = _
    rw [hcut, sends_run, hnone, List.append_nil]

/-- A client that has received a part of the replies has read the first responses. -/
theorem client_arrived (hclean : ∀ r ∈ requests, r.Clean b fw) {w : W}
    (hfits : ∀ f ∈ responseFrames b fw w requests, f.length + 1 ≤ N)
    (fw' : Firmware N W' X') (client : Machine N W' X') {s : Bytes}
    (hs : s <+: (responseFrames b fw w requests).flatten) :
    ∃ j ≤ requests.length, (presented (since client (processHupacket fw' client s))).map (·.1) =
      (responses b fw w requests).take j := by
  obtain ⟨j, hj, tail, htail, hcut⟩ := prefix_frames (fun f hf => by
    obtain ⟨i, hi, rfl⟩ := List.mem_iff_getElem.mp hf
    rw [length_responseFrames] at hi
    have hr := hclean _ (List.getElem_mem hi)
    obtain ⟨n, hn⟩ := Option.isSome_iff_exists.mp hr.answered
    have hfit := hfits _ (List.getElem_mem (by rw [length_responseFrames]; exact hi))
    simp only [responseFrames, List.getElem_zipWith, Request.responseFrame, hn,
      Option.getD_some] at hfit ⊢
    exact (hr.answer_inLimits hn hfit).2.ends) hs
  rw [length_responseFrames] at hj
  have hquiet := (silent_processHupacket fw' (processHupacket fw' client
    ((responseFrames b fw w requests).take j).flatten) htail).unnoticed.2.1
  refine ⟨j, hj, ?_⟩
  rw [hcut, presented_run, hquiet, List.append_nil, ← responses_take, ← responseFrames_take]
  exact client_reads (fun r hr => hclean r (List.mem_of_mem_take hr)) (fun f hf => hfits f
    (List.mem_of_mem_take (by rw [← responseFrames_take]; exact hf))) fw' client

end Arrived

end Sdkz.Hu
