import Sdkz.Hu.Answers
import Sdkz.Hu.RoundTrip

/-! # Requests and responses between two nodes

A client puts requests for the flash commands together and sends them one after
the other; a node answers them, and the client's parser reads the answers. Each
answer is read as the response to its request: same id, same command, same
sequence, a status, and the records the command echoes. Neither node has to be in
a particular state.

A reply never makes the node that reads it send anything, so two nodes that are
connected do not answer each other's answers. -/

namespace Sdkz.Hu
open Sdkz.Base

variable {N : Nat} {W W' X' : Type}

/-! ## Packets of framed texts -/

/-- A frame is read as the parts it was made of. -/
theorem framed_packet {X : Type} (fw : Firmware N W X) (crc : Bool) (start : UInt8)
    {id sequence : Option Bytes} {command : Bytes} {ts : List Bytes}
    (c : CleanHeader id command sequence) (ht : ∀ t ∈ ts, PlainText t) :
    let body := headerOf id command sequence ++ joined ts
    packetOf start (body ++ crcTexts fw crc body) =
      { response := start != enqOfCommand, id := id, argv := command :: ts, sequence := sequence
        crc16 := if crc then some (itoa16 (fw.crc16 body).toNat) else none } := by
  intro body
  have htexts : field (body ++ crcTexts fw crc body) = headerOf id command sequence ∧
      records (body ++ crcTexts fw crc body) = ts := framed_texts fw crc c.plain ht
  have hsplit : crcSplit (body ++ crcTexts fw crc body) =
      if crc then some (body, itoa16 (fw.crc16 body).toNat) else none :=
    framed_crcSplit fw crc c.plain ht
  have hdigits : field (itoa16 (fw.crc16 body).toNat) = itoa16 (fw.crc16 body).toNat :=
    field_eq_self fun b hb => (plainText_itoa16 _).ends hb
  simp only [packetOf, commandOf, htexts.1, htexts.2, hsplit, c.id_parts.1, c.command_parts.1,
    c.command_parts.2]
  cases crc with
  | true => simp [hdigits]
  | false => rfl

/-! ## Requests -/

/-- A command as a client puts it together. -/
structure Request where
  id : Option Bytes
  command : Bytes
  sequence : Option Bytes
  texts : List Bytes
  crc : Bool

namespace Request

def header (r : Request) : Bytes := headerOf r.id r.command r.sequence

def body (fw : Firmware N W FlashCall) (r : Request) : Bytes :=
  r.header ++ joined r.texts ++ crcTexts fw r.crc (r.header ++ joined r.texts)

/-- How many of its records the answer to a flash command repeats. -/
def echoes (b : Board W) (r : Request) : Option Nat :=
  if r.command = ascii "erase" then some 1
  else if r.command = ascii "flash" then some 3
  else if r.command = ascii "wrprt" ∧ b.flashHasExOp then some 2
  else none

/-- A request for a flash command that keeps to the format and fits the buffer. -/
structure Clean (b : Board W) (fw : Firmware N W FlashCall) (r : Request) : Prop where
  headerClean : CleanHeader r.id r.command r.sequence
  textsPlain : ∀ t ∈ r.texts, PlainText t
  count : r.texts.length ≤ 63
  fits : (r.body fw).length < N
  answered : (r.echoes b).isSome

/-- The answer to a request with the given status: what follows its start mark. -/
def answer (fw : Firmware N W FlashCall) (r : Request) (status : Int) (k : Nat) : Bytes :=
  r.header ++ joined (itoa10 status :: r.texts.take k) ++
    crcTexts fw r.crc (r.header ++ joined (itoa10 status :: r.texts.take k))

/-- The packet with its verdict is the response to the request. -/
structure RespondedBy (b : Board W) (r : Request) (p : Packet × Bool) : Prop where
  response : p.1.response = true
  id : p.1.id = r.id
  sequence : p.1.sequence = r.sequence
  argv : ∃ status k, r.echoes b = some k ∧
    p.1.argv = r.command :: itoa10 status :: r.texts.take k
  crc : p.1.crc16.isSome = r.crc
  verdict : r.crc = true → p.2 = true

end Request

/-- The start mark of a status. -/
def statusMark (status : Int) : UInt8 := if status = 0 then ackOfResponse else nakOfResponse

theorem statusMark_mark (status : Int) :
    isStartMark (statusMark status) = true ∧ statusMark status ≠ enqOfCommand := by
  unfold statusMark
  split <;> decide

/-- The echoed records are the first ones behind the command. -/
theorem echoed_eq_take (command : Bytes) (ts : List Bytes) (k : Nat) :
    echoed (ts.length + 1) (command :: ts) 1 k = ts.take k := by
  have hstop : (if k ≥ ts.length + 1 then ts.length + 1 - 1 else k) + 1 - 1 = min k ts.length := by
    split <;> omega
  rw [echoed, hstop]
  refine List.ext_getElem ?_ fun i h₁ h₂ => ?_
  · simp
  · have hi : i < ts.length := by
      rw [List.length_take] at h₂
      omega
    simp [Nat.add_comm 1 i, List.getElem?_eq_getElem hi]

section Answering
variable {b : Board W} {fw : Firmware N W FlashCall} {r : Request}

theorem Request.Clean.read (c : r.Clean b fw) : InLimits N enqOfCommand (r.body fw) ∧
    verdictOf fw (r.body fw) ≠ some false ∧ field (r.body fw) = r.header ∧
    records (r.body fw) = r.texts ∧ commandOf (r.body fw) = r.command := by
  obtain ⟨hfield, hrecords⟩ := framed_texts fw r.crc c.headerClean.plain c.textsPlain
  have hpacket := congrArg Packet.argv
    (framed_packet fw r.crc enqOfCommand c.headerClean c.textsPlain)
  refine ⟨?_, ?_, hfield, hrecords, (List.cons.inj hpacket).1⟩
  · exact framed_inLimits fw r.crc rfl c.headerClean.plain c.textsPlain c.count c.fits
  · have hver : verdictOf fw (r.body fw) = if r.crc then some true else none :=
      framed_verdict fw r.crc fw rfl c.headerClean.plain c.textsPlain
    rw [hver]
    cases r.crc <;> simp

/-- **A node answers a request**, whatever it did before: one reply, with some
status. -/
theorem request_replied (c : r.Clean b fw) (m : Machine N W FlashCall) : ∃ status k,
    r.echoes b = some k ∧
      sends (since m (processHupacket (withFlash b fw) m (frame enqOfCommand (r.body fw)))) =
        [frame (statusMark status) (r.answer fw status k)] := by
  obtain ⟨f, hver, hfield, hrecords, hcommand⟩ := c.read
  have hcrc : (crcSplit (r.body fw)).isSome = r.crc := by
    have hsplit := framed_crcSplit fw r.crc c.headerClean.plain c.textsPlain
    change (crcSplit (r.body fw)) = _ at hsplit
    rw [hsplit]
    cases r.crc <;> rfl
  have hanswer : ∀ status k, requestStatus b m (r.body fw) = some (status, r.texts.take k) →
      sends (since m (processHupacket (withFlash b fw) m (frame enqOfCommand (r.body fw)))) =
        [frame (statusMark status) (r.answer fw status k)] := by
    intro status k hstatus
    have hs : answerOf b fw m (r.body fw) = some (reply fw r.crc
        (statusText r.header status (r.texts.take k))) := by
      rw [answerOf, if_neg hver, hstatus, Option.map_some, hcrc, hfield]
    rw [(frame_answered b fw m f hs).sent]
    simp [reply, frame, crcSuffix, crcTexts, Request.answer, statusText, statusMark]
  have hargv := echoed_eq_take r.command r.texts
  have hgo : ∀ k, r.echoes b = some k → ∃ status,
      requestStatus b m (r.body fw) = some (status, r.texts.take k) := by
    intro k hk
    unfold requestStatus
    unfold Request.echoes at hk
    rw [hcommand, hrecords]
    dsimp only
    by_cases h1 : r.command = ascii "erase"
    · rw [if_pos h1] at hk ⊢
      obtain rfl := Option.some.inj hk
      exact ⟨_, by rw [← hargv 1]⟩
    rw [if_neg h1] at hk ⊢
    by_cases h2 : r.command = ascii "flash"
    · rw [if_pos h2] at hk ⊢
      obtain rfl := Option.some.inj hk
      exact ⟨_, by rw [← hargv 3]⟩
    rw [if_neg h2] at hk ⊢
    by_cases h3 : r.command = ascii "wrprt" ∧ b.flashHasExOp = true
    · rw [if_pos h3] at hk ⊢
      obtain rfl := Option.some.inj hk
      exact ⟨_, by rw [← hargv 2]⟩
    · rw [if_neg h3] at hk
      cases hk
  obtain ⟨k, hk⟩ := Option.isSome_iff_exists.mp c.answered
  obtain ⟨status, hstatus⟩ := hgo k hk
  exact ⟨status, k, hk, hanswer status k hstatus⟩

/-- An answer that fits the buffer is a frame within the limits. -/
theorem Request.Clean.answer_inLimits (c : r.Clean b fw) {status : Int} {k : Nat}
    (hk : r.echoes b = some k)
    (hfits : (frame (statusMark status) (r.answer fw status k)).length + 1 ≤ N) :
    (∀ t ∈ itoa10 status :: r.texts.take k, PlainText t) ∧
      InLimits N (statusMark status) (r.answer fw status k) := by
  have hk3 : k ≤ 3 := by
    unfold Request.echoes at hk
    revert hk
    repeat' split
    all_goals
      intro hk
      cases hk
    all_goals omega
  have hplain : ∀ t ∈ itoa10 status :: r.texts.take k, PlainText t := by
    intro t ht
    rcases List.mem_cons.mp ht with rfl | ht
    · exact plainText_itoa10 status
    · exact c.textsPlain t (List.mem_of_mem_take ht)
  refine ⟨hplain, framed_inLimits fw r.crc (statusMark_mark status).1 c.headerClean.plain hplain
    ?_ ?_⟩
  · rw [List.length_cons, List.length_take]
    omega
  · simp only [frame, List.length_append, List.length_cons, List.length_nil, Request.answer,
      Request.header] at hfits ⊢
    omega

/-- A client reads an answer that fits its buffer as the response, whatever it
received before. -/
theorem answer_read (c : r.Clean b fw) {status : Int} {k : Nat} (hk : r.echoes b = some k)
    (hfits : (frame (statusMark status) (r.answer fw status k)).length + 1 ≤ N)
    (fw' : Firmware N W' X') (hfn : fw'.crc16 = fw.crc16) (client : Machine N W' X') : ∃ p,
    presented (since client (processHupacket fw' client
      (frame (statusMark status) (r.answer fw status k)))) = [p] ∧ r.RespondedBy b p := by
  obtain ⟨hplain, f⟩ := c.answer_inLimits hk hfits
  have hresponse := (statusMark_mark status).2
  have hver : verdictOf fw' (r.answer fw status k) = if r.crc then some true else none :=
    framed_verdict fw r.crc fw' hfn c.headerClean.plain hplain
  have hpacket : packetOf (statusMark status) (r.answer fw status k) = _ :=
    framed_packet fw r.crc (statusMark status) c.headerClean hplain
  obtain ⟨-, hpres, -, -⟩ := frame_presented fw' client f fun h => hresponse h.1
  refine ⟨_, hpres, ?_⟩
  rw [hpacket, hver]
  refine ⟨?_, rfl, rfl, ⟨status, k, hk, rfl⟩, ?_, fun hcrc => ?_⟩
  · simpa using hresponse
  · cases r.crc <;> rfl
  · dsimp only
    rw [hcrc]
    rfl

end Answering

/-! ## A conversation -/

theorem presented_run {X : Type} (fw : Firmware N W X) (m : Machine N W X) (a s : Bytes) :
    presented (since m (processHupacket fw m (a ++ s))) =
      presented (since m (processHupacket fw m a)) ++
        presented (since (processHupacket fw m a)
          (processHupacket fw (processHupacket fw m a) s)) := by
  rw [processHupacket_append, since_append (processHupacket_log fw m a)
    (processHupacket_log fw _ s), presented_append]

theorem sends_run {X : Type} (fw : Firmware N W X) (m : Machine N W X) (a s : Bytes) :
    sends (since m (processHupacket fw m (a ++ s))) =
      sends (since m (processHupacket fw m a)) ++
        sends (since (processHupacket fw m a)
          (processHupacket fw (processHupacket fw m a) s)) := by
  rw [processHupacket_append, since_append (processHupacket_log fw m a)
    (processHupacket_log fw _ s), sends_append]

/-- **Every request gets its response.** Requests sent one behind the other to a
node in any state and any world are answered so that the client, in any state,
reads the responses to them, one for each and in their order, as long as the
replies fit `tx_buffer`. -/
theorem requests_responded {b : Board W} {fw : Firmware N W FlashCall} {requests : List Request}
    (hclean : ∀ r ∈ requests, r.Clean b fw) (node : Machine N W FlashCall)
    (fw' : Firmware N W' X') (hfn : fw'.crc16 = fw.crc16) (client : Machine N W' X')
    (hfits : ∀ s ∈ sends (since node (processHupacket (withFlash b fw) node
      (requests.flatMap fun r => frame enqOfCommand (r.body fw)))), s.length + 1 ≤ N) :
    let replies := sends (since node (processHupacket (withFlash b fw) node
      (requests.flatMap fun r => frame enqOfCommand (r.body fw))))
    List.Forall₂ (fun r p => r.RespondedBy b p) requests
      (presented (since client (processHupacket fw' client replies.flatten))) := by
  induction requests generalizing node client with
  | nil =>
    have hnone : since client client = [] := since_eq (List.append_nil _).symm
    have hquiet : since node node = [] := since_eq (List.append_nil _).symm
    simp only [List.flatMap_nil, processHupacket, List.foldl_nil, hquiet]
    have hsends : sends ([] : List (Event FlashCall)) = [] := rfl
    rw [hsends, List.flatten_nil, List.foldl_nil, hnone]
    exact .nil
  | cons r requests ih =>
    have hr := hclean r (by simp)
    rw [List.flatMap_cons] at hfits ⊢
    obtain ⟨status, k, hk, hreply⟩ := request_replied hr node
    rw [sends_run, hreply] at hfits ⊢
    obtain ⟨p, hread, hresponse⟩ := answer_read hr hk
      (hfits (frame (statusMark status) (r.answer fw status k)) (by simp)) fw' hfn client
    have hrest := ih (fun r' h => hclean r' (List.mem_cons_of_mem r h))
      (processHupacket (withFlash b fw) node (frame enqOfCommand (r.body fw)))
      (processHupacket fw' client (frame (statusMark status) (r.answer fw status k)))
      fun s hs => hfits s (List.mem_append_right _ hs)
    intro replies
    have hflat : replies.flatten = frame (statusMark status) (r.answer fw status k) ++
        (sends (since (processHupacket (withFlash b fw) node (frame enqOfCommand (r.body fw)))
          (processHupacket (withFlash b fw)
            (processHupacket (withFlash b fw) node (frame enqOfCommand (r.body fw)))
            (requests.flatMap fun r => frame enqOfCommand (r.body fw))))).flatten := by
      simp [replies]
    rw [hflat, presented_run, hread]
    exact .cons hresponse hrest

/-- Two requests, the second one with a CRC field, to a node in the middle of
another frame. -/
theorem two_requests_responded :
    let b := plainBoard
    let fw : Firmware packetSize Unit FlashCall := image [] []
    let requests : List Request :=
      [⟨some (ascii "19"), ascii "erase", none, [ascii "slot0"], false⟩,
        ⟨none, ascii "flash", some (ascii "7"), [], true⟩]
    let node := processHupacket (withFlash b fw) (.fresh packetSize ()) [enqOfCommand, 118]
    let replies := sends (since node (processHupacket (withFlash b fw) node
      (requests.flatMap fun r => frame enqOfCommand (r.body fw))))
    List.Forall₂ (fun r p => r.RespondedBy b p) requests
      (presented (since (.fresh packetSize () : Machine packetSize Unit Empty)
        (processHupacket (image [] []) (.fresh packetSize ()) replies.flatten))) := by
  intro b fw requests node replies
  have hclean : ∀ r ∈ requests, r.Clean b fw := by
    intro r hr
    rcases List.mem_pair.mp hr with rfl | rfl
    · exact ⟨⟨by simp; decide, by decide, by decide, by simp⟩, by decide, by decide,
        by decide +kernel, rfl⟩
    · exact ⟨⟨by simp, by decide, by decide, by simp; decide⟩, by simp, by decide,
        by decide +kernel, rfl⟩
  have hfits : ∀ s ∈ replies, s.length + 1 ≤ packetSize := by decide +kernel
  exact requests_responded hclean node (image (W := Unit) (X := Empty) [] []) rfl _ hfits

/-! ## Answers are not answered -/

/-- A whole frame that is no command. -/
def Inert (s : Bytes) : Prop :=
  ∃ start body, isStartMark start = true ∧ start ≠ enqOfCommand ∧ (∀ b ∈ body, isBody b = true) ∧
    s = frame start body

/-- What the services send for a packet of clean texts is no command. -/
def Services.Inert {X : Type} (services : Services W X) : Prop :=
  ∀ response name serve, services response name = some serve →
    ∀ w p v, PlainText p.header → (∀ t ∈ p.argv, PlainText t) →
      ∀ s ∈ sends (serve w p v).2, Hu.Inert s

theorem inert_reply {X : Type} (fw : Firmware N W X) (crc : Bool) {start : UInt8} {text : Bytes}
    (hmark : isStartMark start = true) (hstart : start ≠ enqOfCommand)
    (htext : ∀ b ∈ text, isBody b = true) : Inert (reply fw crc (start :: text)) := by
  refine ⟨start, text ++ crcSuffix fw crc (start :: text), hmark, hstart, fun b hb => ?_, ?_⟩
  · rcases List.mem_append.mp hb with hb | hb
    · exact htext b hb
    · unfold crcSuffix at hb
      split at hb
      · rcases List.mem_cons.mp hb with rfl | hb
        · decide
        · exact (plainText_itoa16 _).body hb
      · cases hb
  · simp [reply, frame]

theorem isBody_joined {ts : List Bytes} (h : ∀ t ∈ ts, PlainText t) {b : UInt8}
    (hb : b ∈ joined ts) : isBody b = true := by
  rcases mem_joined hb with rfl | ⟨t, ht, hbt⟩
  · decide
  · exact (h t ht).body hbt

section Inertness
variable {X : Type} {fw : Firmware N W X} {services : Services W X}

theorem packetOf_plain (start : UInt8) {body : Bytes} (h : ∀ b ∈ body, isBody b = true) :
    PlainText (packetOf start body).header ∧ ∀ t ∈ (packetOf start body).argv, PlainText t := by
  have hfield := field_plain h
  refine ⟨by rwa [packetOf_header], fun t ht => ?_⟩
  rcases List.mem_cons.mp ht with rfl | ht
  · intro b hb
    have hafter : b ∈ afterId (field body) := (List.takeWhile_prefix _).sublist.mem hb
    refine hfield b ?_
    unfold afterId at hafter
    split at hafter
    · exact List.mem_of_mem_drop hafter
    · exact hafter
  · exact records_plain h t ht

/-- The open frame is a body, and nothing sent is a command. -/
structure Server.Quiet (s : Server W X) : Prop where
  opened : ∀ start body, s.opened = some (start, body) → ∀ b ∈ body, isBody b = true
  sent : ∀ x ∈ sends s.seen, Inert x

theorem Server.Quiet.complete (hi : services.Inert) {s : Server W X} (q : s.Quiet) {start : UInt8}
    {body : Bytes} (ho : s.opened = some (start, body)) :
    (s.complete fw services start body).Quiet := by
  have hbody := q.opened start body ho
  unfold Server.complete
  split
  · refine ⟨q.opened, fun x hx => ?_⟩
    rw [sends_append] at hx
    rcases List.mem_append.mp hx with hx | hx
    · exact q.sent x hx
    · obtain rfl : x = crcNak fw body := by simpa [sends, Event.sent] using hx
      refine inert_reply fw true (by decide) (by decide) fun b hb => ?_
      rcases List.mem_append.mp hb with hb | hb
      · exact hbody b ((List.takeWhile_prefix _).sublist.mem hb)
      · rcases List.mem_cons.mp hb with rfl | hb
        · decide
        · exact (plainText_itoa10 _).body hb
  · refine ⟨fun _ _ h => ?_, fun x hx => ?_⟩
    · unfold Server.present at h
      dsimp only at h
      split at h <;> cases h
    · rw [present_sends] at hx
      rcases List.mem_append.mp hx with hx | hx
      · exact q.sent x hx
      · cases hserve : services (start != enqOfCommand) (commandOf body) with
        | none =>
          rw [hserve] at hx
          cases hx
        | some serve =>
          rw [hserve] at hx
          have hplain := packetOf_plain start hbody
          exact hi _ _ serve hserve _ _ _ hplain.1 hplain.2 x hx

theorem Server.Quiet.read (hi : services.Inert) {s : Server W X} (q : s.Quiet) (b : UInt8) :
    (s.read fw services b).Quiet := by
  unfold Server.read
  split
  · refine ⟨fun start body h => ?_, q.sent⟩
    obtain ⟨-, rfl⟩ := Prod.mk.inj (Option.some.inj h)
    simp
  · rename_i hs
    cases ho : s.opened with
    | none => exact q
    | some frame =>
      obtain ⟨start, body⟩ := frame
      dsimp only
      split
      · exact q.complete hi ho
      · rename_i he
        split
        · refine ⟨fun start' body' h => ?_, q.sent⟩
          obtain ⟨rfl, rfl⟩ := Prod.mk.inj (Option.some.inj h)
          intro c hc
          rcases List.mem_append.mp hc with hc | hc
          · exact q.opened start body ho c hc
          · rw [List.mem_singleton.mp hc]
            simp only [Bool.not_eq_true] at hs
            simp [isBody, hs, he]
        · exact ⟨fun _ _ h => absurd h (by simp), q.sent⟩

theorem Server.Quiet.readAll (hi : services.Inert) {s : Server W X} (q : s.Quiet) (stream : Bytes) :
    (s.readAll fw services stream).Quiet := by
  induction stream generalizing s with
  | nil => exact q
  | cons b stream ih => exact ih (q.read hi b)

/-- A start mark and a body are received, or the frame is dropped on the way. -/
theorem tracks_body (fw : Firmware N W X) (m : Machine N W X) {start : UInt8} {body : Bytes}
    (hmark : isStartMark start = true) (hbody : ∀ b ∈ body, isBody b = true) :
    Tracks (processHupacket fw m (start :: body)).handle none ∨
      Tracks (processHupacket fw m (start :: body)).handle (some (start, body)) := by
  induction body using List.reverseRecOn with
  | nil =>
    exact .inr (.inside (receiving_start fw m hmark) ⟨hmark, by simp, by simp, by simp⟩)
  | append_singleton body b ih =>
    have hb := hbody b (by simp)
    have hrun : processHupacket fw m (start :: (body ++ [b])) =
        processByte fw (processHupacket fw m (start :: body)) b := by
      rw [← List.cons_append, processHupacket_append]
      rfl
    rw [hrun]
    rcases ih fun c hc => hbody c (List.mem_append_left _ hc) with h | h
    · cases h with
      | idle hidle =>
        have hs : isStartMark b = false := by
          cases hs : isStartMark b <;> simp_all [isBody]
        rw [processByte_idle fw hidle hs]
        exact .inl (.idle hidle)
    · cases h with
      | inside r f =>
        by_cases ha : admits N body b = true
        · exact .inr (tracks_admitted fw r f hb ha)
        · exact .inl (tracks_dropped fw r f hb ha)

/-- A node without handlers for responses sends nothing when it reads a frame that
is no command and fits. -/
theorem inert_unanswered (hresp : fw.hupResp = []) (m : Machine N W X) {s : Bytes} (hs : Inert s)
    (hfits : s.length + 1 ≤ N) : sends (since m (processHupacket fw m s)) = [] := by
  obtain ⟨start, body, hmark, hstart, hbody, rfl⟩ := hs
  have hlen : body.length < N := by
    simp only [frame, List.length_append, List.length_cons, List.length_nil] at hfits
    omega
  have hopen : endOfPacket ∉ start :: body := by
    intro hm
    rcases List.mem_cons.mp hm with rfl | hm
    · revert hmark
      decide
    · have := hbody _ hm
      revert this
      decide
  rcases tracks_body fw m hmark hbody with h | h
  · -- dropped on the way: the end mark finds the parser idle
    cases h with
    | idle hidle =>
      obtain ⟨ev, hlog, hev⟩ := (silent_processHupacket fw m hopen).log
      rw [frame, processHupacket_append]
      have hend : processHupacket fw (processHupacket fw m (start :: body)) [endOfPacket] =
          processHupacket fw m (start :: body) := processByte_idle fw hidle (by decide)
      rw [hend, since_eq hlog, sends_stores hev]
  · cases h with
    | inside r f =>
      have hentry : entryFor fw start body = none := by simp [entryFor, hstart, hresp]
      exact (frame_presented fw m ⟨hmark, hbody, hlen, f.records⟩
        fun h => hstart h.1).2.2.1 hentry

end Inertness

/-- The flash commands repeat records of their request behind a status. -/
theorem flashServices_inert (b : Board W) (fw : Firmware N W FlashCall)
    {services : Services W FlashCall} (hi : services.Inert) :
    (flashServices b fw services).Inert := by
  have hserve : ∀ (k : Work W) (p : Packet) (start stop : Nat), PlainText p.header →
      (∀ t ∈ p.argv, PlainText t) → ∀ s ∈ sends (k.serve b fw p start stop).2, Inert s := by
    intro k p start stop hheader hargv s hs
    rw [serve_sends, List.mem_singleton] at hs
    rw [hs]
    have hmark := statusMark_mark k.status
    refine inert_reply fw p.crc16.isSome hmark.1 hmark.2 fun c hc => ?_
    rcases List.mem_append.mp hc with hc | hc
    · exact hheader.body hc
    · refine isBody_joined (fun t ht => ?_) hc
      rcases List.mem_cons.mp ht with rfl | ht
      · exact plainText_itoa10 _
      · obtain ⟨i, -, rfl⟩ := List.mem_map.mp ht
        rw [List.getD_eq_getElem?_getD]
        cases hget : p.argv[i]? with
        | none => exact fun _ h => absurd h List.not_mem_nil
        | some t => exact hargv t (List.mem_of_getElem? hget)
  intro response name serve hfind w p v hheader hargv s hs
  unfold flashServices at hfind
  split at hfind
  · exact hi true name serve hfind w p v hheader hargv s hs
  · split at hfind
    · obtain rfl := Option.some.inj hfind
      exact hserve _ p _ _ hheader hargv s hs
    · split at hfind
      · obtain rfl := Option.some.inj hfind
        exact hserve _ p _ _ hheader hargv s hs
      · split at hfind
        · obtain rfl := Option.some.inj hfind
          unfold wrprtService at hs
          split at hs
          · exact hserve _ p _ _ hheader hargv s hs
          · cases hs
        · exact hi false name serve hfind w p v hheader hargv s hs

/-- **Answers are not answered.** Whatever stream a node has read in which no end
mark met a full buffer, what it sent makes a node without handlers for responses
send nothing, in whatever state that node is, as long as the replies fit. -/
theorem replies_unanswered {X : Type} {fw : Firmware N W X} {services : Services W X}
    (hp : fw.Provides services) (hi : services.Inert) (w : W) (chunks : List Bytes)
    (hg : Guarded (processByte fw) NoEndWhenFull (.fresh N w) chunks.flatten)
    (fw' : Firmware N W' X') (hresp : fw'.hupResp = []) (peer : Machine N W' X')
    (hfits : ∀ s ∈ sends (feed fw (.fresh N w) chunks).log, s.length + 1 ≤ N) :
    sends (since peer (feed fw' peer (sends (feed fw (.fresh N w) chunks).log))) = [] := by
  have hseen := (refines_feed hp w chunks hg).seen
  rw [List.nil_append] at hseen
  have hquiet : ((Server.fresh w).readAll fw services chunks.flatten).Quiet :=
    Server.Quiet.readAll hi ⟨fun _ _ h => absurd h (by simp [Server.fresh]),
      by simp [Server.fresh, sends]⟩ _
  have hinert : ∀ s ∈ sends (feed fw (.fresh N w) chunks).log, Inert s := by
    rw [← sends_visible, hseen]
    exact hquiet.sent
  rw [feed_eq]
  generalize sends (feed fw (.fresh N w) chunks).log = replies at hfits hinert
  induction replies generalizing peer with
  | nil =>
    have hnone : since peer peer = [] := since_eq (List.append_nil _).symm
    rw [List.flatten_nil, processHupacket, List.foldl_nil, hnone]
    rfl
  | cons s replies ih =>
    rw [List.flatten_cons, sends_run, inert_unanswered hresp peer (hinert s (by simp))
      (hfits s (by simp)), List.nil_append]
    exact ih _ (fun t ht => hfits t (List.mem_cons_of_mem s ht))
      fun t ht => hinert t (List.mem_cons_of_mem s ht)

/-- The answers of the flash commands to an erase and to a command with a wrong CRC,
read by a node of the same image. -/
theorem flash_replies_unanswered :
    let fw : Firmware packetSize Unit FlashCall := withFlash plainBoard (image [] [])
    let chunks := [frame enqOfCommand (ascii "erase"), frame enqOfCommand [118, crcMark, 49]]
    sends (since (.fresh packetSize ()) (feed fw (.fresh packetSize ())
      (sends (feed fw (.fresh packetSize ()) chunks).log))) = [] := by
  intro fw chunks
  refine replies_unanswered (withFlash_provides plainBoard (image [] []) empty_provides)
    (flashServices_inert plainBoard (image [] []) fun _ _ _ h => by cases h) () chunks
    (by decide +kernel) fw rfl (.fresh packetSize ()) (by decide +kernel)

end Sdkz.Hu
