import Mathlib.Data.List.Forall2
import Sdkz.Hu.FlashService

/-! # One answer for each command

The server sends for two reasons only: it turns a command with a wrong CRC down,
or the service of a command answers. So the replies on the wire are the answers
to the completed commands that get one, in order, one for each, and every answer
carries the header of its command. -/

namespace Sdkz.Hu
open Sdkz.Base

variable {N : Nat} {W X : Type}

/-! ## Services that answer -/

/-- The service sends one reply, with the header of its packet and a CRC field if
the packet has one. -/
def Answers (fw : Firmware N W X) (serve : Service W X) : Prop :=
  ∀ w p v, ∃ rc echo,
    sends (serve w p v).2 = [reply fw p.crc16.isSome (statusText p.header rc echo)]

def Mute (serve : Service W X) : Prop := ∀ w p v, sends (serve w p v).2 = []

/-- The commands named by `answered` are answered, and nothing else is. -/
structure AnswersExactly (fw : Firmware N W X) (services : Services W X) (answered : Bytes → Bool) :
    Prop where
  answers : ∀ name, answered name = true → ∃ serve, services false name = some serve ∧
    Answers fw serve
  others : ∀ name serve, answered name = false → services false name = some serve → Mute serve
  responses : ∀ name serve, services true name = some serve → Mute serve

/-! ## Completed frames -/

/-- The frames that meet an end mark, in order, each with its whole body. -/
def Server.completed (fw : Firmware N W X) (services : Services W X) :
    Server W X → Bytes → List (UInt8 × Bytes)
  | _, [] => []
  | s, b :: stream =>
    (if b = endOfPacket then s.opened.toList else []) ++
      completed fw services (s.read fw services b) stream

/-- A command the packet code turns down, or whose service answers. -/
def expectsAnswer (fw : Firmware N W X) (answered : Bytes → Bool) (f : UInt8 × Bytes) : Bool :=
  f.1 == enqOfCommand && (verdictOf fw f.2 == some false || answered (commandOf f.2))

/-- The one reply a frame gets: the code for a wrong CRC behind the body up to its
CRC mark, or a status behind the header record. -/
def IsAnswer (fw : Firmware N W X) (f : UInt8 × Bytes) (s : Bytes) : Prop :=
  if verdictOf fw f.2 = some false then s = crcNak fw f.2
  else ∃ rc echo, s = reply fw (crcSplit f.2).isSome (statusText (field f.2) rc echo)

/-- A header record is put together again from its parts. -/
theorem packetOf_header (start : UInt8) (body : Bytes) :
    (packetOf start body).header = field body := by
  have hcmd : commandOf body ++ Option.elim (packetOf start body).sequence [] (sequenceMark :: ·) =
      afterId (field body) := by
    unfold commandOf packetOf
    dsimp only
    by_cases hm : sequenceMark ∈ afterId (field body)
    · rw [if_pos hm]
      exact split_at_first hm
    · rw [if_neg hm, before_eq_self hm]
      exact List.append_nil _
  rw [Packet.header, headerOf, List.append_assoc]
  change _ ++ (commandOf body ++ _) = _
  rw [hcmd, afterId]
  unfold packetOf
  dsimp only
  by_cases hm : idMark ∈ field body
  · rw [if_pos hm, if_pos hm, Option.elim_some, List.append_assoc]
    exact split_at_first hm
  · rw [if_neg hm, if_neg hm]
    rfl

/-- What is sent is part of what is seen. -/
theorem sends_visible (log : List (Event X)) : sends (visible log) = sends log := by
  unfold sends visible
  rw [List.filterMap_filter]
  refine List.filterMap_congr fun e _ => ?_
  cases e <;> rfl

section Run
variable {fw : Firmware N W X} {services : Services W X} {answered : Bytes → Bool}

/-- A presented packet sends what its service sends. -/
theorem present_sends (services : Services W X) (s : Server W X) (start : UInt8) (body : Bytes) :
    sends (s.present services start body).seen = sends s.seen ++
      ((services (start != enqOfCommand) (commandOf body)).elim []
        fun serve => sends (serve s.world (packetOf start body) s.verdict).2) := by
  have hresp : (packetOf start body).response = (start != enqOfCommand) := rfl
  unfold Server.present
  dsimp only
  rw [hresp]
  cases services (start != enqOfCommand) (commandOf body) with
  | none => exact sends_append _ _
  | some serve =>
    dsimp only
    rw [sends_append, sends_append]
    rfl

/-- The end of a frame sends the answer it expects. -/
theorem complete_answers (ho : AnswersExactly fw services answered) (s : Server W X)
    (start : UInt8) (body : Bytes) : ∃ answers,
      sends (s.complete fw services start body).seen = sends s.seen ++ answers ∧
      List.Forall₂ (IsAnswer fw) ([(start, body)].filter (expectsAnswer fw answered)) answers := by
  unfold Server.complete
  by_cases hv : start = enqOfCommand ∧ verdictOf fw body = some false
  · -- turned down by the packet code
    rw [if_pos hv]
    have hexp : expectsAnswer fw answered (start, body) = true := by simp [expectsAnswer, hv]
    refine ⟨[crcNak fw body], sends_append _ _, ?_⟩
    rw [List.filter_cons_of_pos hexp]
    exact .cons (by rw [IsAnswer, if_pos hv.2]) .nil
  rw [if_neg hv]
  rw [present_sends]
  generalize (verdictOf fw body).getD s.verdict = v
  by_cases hs : start = enqOfCommand
  · have hver : verdictOf fw body ≠ some false := fun h => hv ⟨hs, h⟩
    have hcommand : (start != enqOfCommand) = false := by simp [hs]
    have hexp : expectsAnswer fw answered (start, body) = answered (commandOf body) := by
      simp [expectsAnswer, hs, hver]
    rw [hcommand]
    cases ha : answered (commandOf body) with
    | true =>
      obtain ⟨serve, hserve, hanswers⟩ := ho.answers _ ha
      obtain ⟨rc, echo, hsent⟩ := hanswers s.world (packetOf start body) v
      rw [hserve, List.filter_cons_of_pos (hexp.trans ha)]
      refine ⟨_, congrArg (sends s.seen ++ ·) hsent, .cons ?_ .nil⟩
      rw [IsAnswer, if_neg hver]
      refine ⟨rc, echo, ?_⟩
      rw [packetOf_header]
      simp [packetOf]
    | false =>
      rw [List.filter_cons_of_neg (by simp [hexp, ha])]
      refine ⟨[], congrArg (sends s.seen ++ ·) ?_, .nil⟩
      cases hserve : services false (commandOf body) with
      | none => rfl
      | some serve => exact ho.others _ serve ha hserve _ _ _
  · -- a response
    have hresponse : (start != enqOfCommand) = true := by simp [hs]
    rw [hresponse, List.filter_cons_of_neg (by simp [expectsAnswer, hs])]
    refine ⟨[], congrArg (sends s.seen ++ ·) ?_, .nil⟩
    cases hserve : services true (commandOf body) with
    | none => rfl
    | some serve => exact ho.responses _ serve hserve _ _ _

/-- One byte sends the answers to the frame it completes. -/
theorem read_answers (ho : AnswersExactly fw services answered) (s : Server W X) (b : UInt8) :
    ∃ answers, sends (s.read fw services b).seen = sends s.seen ++ answers ∧
      List.Forall₂ (IsAnswer fw)
        ((if b = endOfPacket then s.opened.toList else []).filter (expectsAnswer fw answered))
        answers := by
  unfold Server.read
  by_cases hs : isStartMark b = true
  · have hne : b ≠ endOfPacket := by
      rintro rfl
      revert hs
      decide
    rw [if_pos hs, if_neg hne]
    exact ⟨[], (List.append_nil _).symm, .nil⟩
  rw [if_neg hs]
  cases hopened : s.opened with
  | none => exact ⟨[], (List.append_nil _).symm, by simp⟩
  | some frame =>
    obtain ⟨start, body⟩ := frame
    dsimp only
    by_cases he : b = endOfPacket
    · rw [if_pos he, if_pos he]
      exact complete_answers ho s start body
    · rw [if_neg he, if_neg he]
      refine ⟨[], ?_, .nil⟩
      split <;> exact (List.append_nil _).symm

theorem readAll_answers (ho : AnswersExactly fw services answered) (s : Server W X)
    (stream : Bytes) : ∃ answers,
      sends (s.readAll fw services stream).seen = sends s.seen ++ answers ∧
      List.Forall₂ (IsAnswer fw)
        ((s.completed fw services stream).filter (expectsAnswer fw answered)) answers := by
  induction stream generalizing s with
  | nil => exact ⟨[], (List.append_nil _).symm, .nil⟩
  | cons b stream ih =>
    obtain ⟨first, hfirst, hone⟩ := read_answers ho s b
    obtain ⟨rest, hrest, hall⟩ := ih (s.read fw services b)
    refine ⟨first ++ rest, ?_, ?_⟩
    · rw [← List.append_assoc, ← hfirst]
      exact hrest
    · rw [Server.completed, List.filter_append]
      exact List.rel_append hone hall

/-- **One answer for each command, in order.** On every stream, cut into calls in
any way, in which no end mark meets a full buffer and to which every reply fits, what
is sent are the answers to the completed commands that expect one, one for each and in
their order. -/
theorem commands_answered_in_order (hp : fw.Provides services)
    (ho : AnswersExactly fw services answered) (w : W) (chunks : List Bytes)
    (hg : Guarded (processByte fw) NoEndWhenFull (.fresh N w) chunks.flatten)
    (_hfit : RepliesFit N (feed fw (.fresh N w) chunks).log) :
    List.Forall₂ (IsAnswer fw)
      (((Server.fresh w).completed fw services chunks.flatten).filter (expectsAnswer fw answered))
      (sends (feed fw (.fresh N w) chunks).log) := by
  have hseen := (refines_feed hp w chunks hg).seen
  rw [List.nil_append] at hseen
  obtain ⟨answers, hsent, hall⟩ := readAll_answers ho (Server.fresh w) chunks.flatten
  rw [← sends_visible, hseen, hsent]
  exact hall

end Run

/-! ## The flash commands answer -/

section Flash
variable (b : Board W) (fw : Firmware N W FlashCall)

theorem sends_devices (xs : List FlashCall) : sends (xs.map Event.device) = [] :=
  List.filterMap_eq_nil_iff.mpr fun e he => by
    obtain ⟨x, -, rfl⟩ := List.mem_map.mp he
    rfl

theorem serve_sends (k : Work W) (p : Packet) (start stop : Nat) :
    sends (k.serve b fw p start stop).2 = [reply fw p.crc16.isSome
      (statusText p.header k.status (echoed p.argv.length p.argv start stop))] := by
  rw [Work.serve, sends_append, sends_devices]
  rfl

/-- The names an image with the flash commands answers. Without the operation of
the driver `wrprt` is never answered, also if the image has one of its own. -/
def flashAnswered (answered : Bytes → Bool) (name : Bytes) : Bool :=
  if name = ascii "erase" then true
  else if name = ascii "flash" then true
  else if name = ascii "wrprt" then b.flashHasExOp
  else answered name

theorem flash_answersExactly {services : Services W FlashCall} {answered : Bytes → Bool}
    (ho : AnswersExactly fw services answered) :
    AnswersExactly (withFlash b fw) (flashServices b fw services) (flashAnswered b answered) where
  answers name ha := by
    unfold flashAnswered at ha
    unfold flashServices
    by_cases h1 : name = ascii "erase"
    · exact ⟨eraseService b fw, by simp [h1], fun w p _ => ⟨_, _, serve_sends b fw _ p _ _⟩⟩
    by_cases h2 : name = ascii "flash"
    · exact ⟨flashService b fw, by simp +decide [h2], fun w p _ => ⟨_, _, serve_sends b fw _ p _ _⟩⟩
    by_cases h3 : name = ascii "wrprt"
    · have hex : b.flashHasExOp = true := by simpa +decide [h3] using ha
      refine ⟨wrprtService b fw, by simp +decide [h3], fun w p _ => ?_⟩
      rw [wrprtService, if_pos hex]
      exact ⟨_, _, serve_sends b fw _ p _ _⟩
    · obtain ⟨serve, hserve, hanswers⟩ := ho.answers name (by simpa [h1, h2, h3] using ha)
      exact ⟨serve, by simpa [h1, h2, h3] using hserve, hanswers⟩
  others name serve ha hserve := by
    unfold flashAnswered at ha
    unfold flashServices at hserve
    by_cases h1 : name = ascii "erase"
    · simp [h1] at ha
    by_cases h2 : name = ascii "flash"
    · simp [h2] at ha
    by_cases h3 : name = ascii "wrprt"
    · have hex : b.flashHasExOp = false := by simpa +decide [h3] using ha
      simp only [h3, Bool.false_eq_true, if_false] at hserve
      obtain rfl : wrprtService b fw = serve := by simpa +decide using hserve
      intro w p v
      rw [wrprtService, if_neg (by simp [hex])]
      rfl
    · exact ho.others name serve (by simpa [h1, h2, h3] using ha)
        (by simpa [h1, h2, h3] using hserve)
  responses name serve hserve := ho.responses name serve (by simpa [flashServices] using hserve)

end Flash

/-- An image without entries of its own. -/
theorem empty_provides : (image (W := W) (X := X) [] []).Provides fun _ _ => none := by
  intro response name
  cases response <;> exact .none

theorem empty_answersExactly : AnswersExactly (image (W := W) (X := X) [] []) (fun _ _ => none)
    fun _ => false :=
  ⟨by simp, by simp, by simp⟩

/-- A command nobody knows, then a flash command cut in two: one answer. -/
theorem erase_answered_in_order :
    let fw := withFlash plainBoard (image [] [])
    let services := flashServices plainBoard (image [] []) fun _ _ => none
    let chunks := [frame enqOfCommand (ascii "x"), enqOfCommand :: ascii "er",
      ascii "ase" ++ [endOfPacket]]
    List.Forall₂ (IsAnswer fw)
      (((Server.fresh ()).completed fw services chunks.flatten).filter
        (expectsAnswer fw (flashAnswered plainBoard fun _ => false)))
      (sends (feed fw (.fresh packetSize ()) chunks).log) :=
  commands_answered_in_order (withFlash_provides plainBoard (image [] []) empty_provides)
    (flash_answersExactly plainBoard (image [] []) empty_answersExactly) () _ (by decide +kernel)
    (by decide +kernel)

end Sdkz.Hu
