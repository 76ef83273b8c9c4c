import Sdkz.Hu.Frame

/-! # What happens at the end mark

`Closed` is the handle between the end mark and `process_data`. From there the
code either answers a CRC mismatch or splits the body in place and looks its
command up. `Closed.split` computes the split: the handle then points to the
texts `packetOf` names, and the header can be put together again from its parts.
`process_frame` is the whole path from the start mark on, in any state. -/

namespace Sdkz.Hu
open Sdkz.Base

variable {N : Nat} {W X : Type}

/-- The handle when `process_data` is called for a frame. -/
structure Closed (start : UInt8) (body : Bytes) (h : HupHandle N) : Prop extends
    Receiving start body h where
  terminated : ∃ rest, h.buffer.toList = stored body ++ 0 :: rest

theorem Receiving.close {start : UInt8} {body : Bytes} {m : Machine N W X}
    (r : Receiving start body m.handle) (hlen : body.length < N) :
    Closed start body (storeByte m 0).handle := by
  have hstate : m.handle.state.toNat = body.length := by rw [r.state, Int.toNat_natCast]
  have hlist : m.handle.buffer.toList.set body.length 0 =
      stored body ++ 0 :: m.handle.buffer.toList.drop (body.length + 1) := by
    rw [List.set_eq_take_append_cons_drop, if_pos (by simpa using hlen), r.buffer]
  have hh : (storeByte m 0).handle =
      { m.handle with buffer := m.handle.buffer.setIfInBounds body.length 0 } := by
    have hin : 0 ≤ m.handle.state ∧ m.handle.state < N := by rw [r.state]; omega
    simp [storeByte, Machine.mapHandle, Machine.emit, HupHandle.storeBuffer, hin, hstate]
  rw [hh]
  refine ⟨⟨r.state, r.argc, r.argv, ?_, r.response, r.id, r.sequence, r.crc16⟩, ?_⟩
  · rw [Vector.toList_setIfInBounds, hlist]
    simp [stored]
  · exact ⟨_, by rw [Vector.toList_setIfInBounds, hlist]⟩

/-! ## Splitting the body -/

theorem foldl_set_toList (ps : List Nat) (v : Vector UInt8 N) :
    (ps.foldl (fun buffer p => buffer.setIfInBounds (p - 1) 0) v).toList =
      ps.foldl (fun l p => l.set (p - 1) 0) v.toList := by
  induction ps generalizing v with
  | nil => rfl
  | cons p ps ih => simp [ih]

/-- The record marks of a received body are the stores of the split. -/
theorem foldl_set_stored (body pre rest : Bytes) :
    (recordStarts pre.length body).foldl (fun l p => l.set (p - 1) 0)
      (pre ++ stored body ++ rest) = pre ++ cleared body ++ rest := by
  induction body generalizing pre with
  | nil => rfl
  | cons b body ih =>
    have hgo : ∀ v : UInt8, (recordStarts (pre.length + 1) body).foldl
        (fun l p => l.set (p - 1) 0) (pre ++ v :: stored body ++ rest) =
        pre ++ v :: cleared body ++ rest := by
      intro v
      simpa using ih (pre ++ [v])
    by_cases hb : b = recordMark
    · have hset : (pre ++ stored (b :: body) ++ rest).set pre.length 0 =
          pre ++ 0 :: stored body ++ rest := by
        simp [stored]
      simp only [recordStarts, hb, if_true, List.foldl_cons, Nat.add_sub_cancel]
      rw [← hb, hset, hgo]
      simp [cleared, endsText, hb]
    · simp only [recordStarts, hb, if_false]
      by_cases hc : b = crcMark
      · simpa [stored, cleared, endsText, hc] using hgo 0
      · by_cases hz : b = 0
        · simpa +decide [stored, cleared, endsText, hz] using hgo 0
        · simpa [stored, cleared, endsText, hb, hc, hz] using hgo b

theorem Closed.splitRecords {start : UInt8} {body : Bytes} {h : HupHandle N}
    (c : Closed start body h) :
    ∃ rest, h.splitRecords.buffer.toList = cleared body ++ 0 :: rest := by
  obtain ⟨rest, hrest⟩ := c.terminated
  refine ⟨rest, ?_⟩
  simp only [HupHandle.splitRecords, foldl_set_toList, c.argv, List.drop_succ_cons, List.drop_zero,
    hrest]
  simpa using foldl_set_stored body [] (0 :: rest)

/-- What `seperate_header` leaves untouched. -/
structure SameBut (h h' : HupHandle N) : Prop where
  argc : h'.argc = h.argc
  tail : h'.argv.toList.drop 1 = h.argv.toList.drop 1
  response : h'.response = h.response
  crcMatch : h'.crcMatch = h.crcMatch
  crc16 : h'.crc16 = h.crc16

theorem argv_set_zero (v : Vector Nat 64) (p : Nat) :
    (v.set 0 p argv_pos).toList.drop 1 = v.toList.drop 1 ∧
      getElem (v.set 0 p argv_pos) 0 argv_pos = p := by
  refine ⟨?_, by simp⟩
  rw [Vector.toList_set, List.drop_set, if_pos (by omega)]

/-- A NUL stored over the first `ch` of the header string `argv[0]`, at `tmp`. -/
structure Cut (ch : UInt8) (tmp : Nat) (h h' : HupHandle N) : Prop where
  found : ch ∈ h.text h.argv0
  place : tmp = h.argv0 + (before ch (h.text h.argv0)).length
  whole : tmp + 1 + (behind ch (h.text h.argv0)).length = h.argv0 + (h.text h.argv0).length
  left : h'.text h.argv0 = before ch (h.text h.argv0)
  right : h'.text (tmp + 1) = behind ch (h.text h.argv0)
  above : ∀ p, tmp < p → h'.text p = h.text p
  below : ∀ p, p + (h.text p).length < tmp → h'.text p = h.text p

theorem cut_of_strchr {ch : UInt8} {tmp : Nat} {h h' : HupHandle N}
    (hs : strchr h.buffer.toList h.argv0 ch = some tmp)
    (hb : h'.buffer = h.buffer.setIfInBounds tmp 0) : Cut ch tmp h h' := by
  obtain ⟨hm, ht⟩ := strchr_eq_some hs
  obtain ⟨hleft, hright⟩ := cstr_split_at hs
  have htext : ∀ p, h'.text p = cstr (h.buffer.toList.set tmp 0) p := by
    intro p
    rw [HupHandle.text, hb, Vector.toList_setIfInBounds]
  have hlen := congrArg List.length (split_at_first hm)
  rw [List.length_append, List.length_cons] at hlen
  refine ⟨hm, ht, ?_, (htext _).trans hleft, (htext _).trans hright, ?_, ?_⟩
  · rw [ht, HupHandle.text]
    omega
  · exact fun p hp => (htext p).trans (cstr_set_before hp)
  · exact fun p hp => (htext p).trans (cstr_set_beyond hp)

/-- The handle after the id was cut off: id and command as texts. Texts behind
the header are where they were. -/
structure Named (header : Bytes) (h h' : HupHandle N) : Prop extends SameBut h h' where
  id : h'.id.map h'.text = if idMark ∈ header then some (before idMark header) else none
  idEnd : ∀ p, h'.id = some p → p + (h'.text p).length < h'.argv0
  command : h'.text h'.argv0 = afterId header
  commandEnd : h'.argv0 + (h'.text h'.argv0).length = header.length
  others : ∀ p, header.length < p → h'.text p = h.text p
  sequence : h'.sequence = h.sequence

theorem seperateId_named {h : HupHandle N} (hid : h.id = none) (h0 : h.argv0 = 0) :
    Named (h.text h.argv0) h h.seperateId := by
  cases hs : strchr h.buffer.toList h.argv0 idMark with
  | none =>
    have hm : idMark ∉ h.text h.argv0 := strchr_eq_none hs
    have he : h.seperateId = h := by simp only [HupHandle.seperateId, HupHandle.seperateHeader, hs]
    rw [he]
    exact ⟨⟨rfl, rfl, rfl, rfl, rfl⟩, by rw [hid, if_neg hm]; rfl, by simp [hid],
      by rw [afterId, if_neg hm],
      by omega, fun _ _ => rfl, rfl⟩
  | some tmp =>
    have he : h.seperateId = { h with
        buffer := h.buffer.setIfInBounds tmp 0, id := some h.argv0
        argv := h.argv.set 0 (tmp + 1) argv_pos } := by
      simp only [HupHandle.seperateId, HupHandle.seperateHeader, hs]
    have cut : Cut idMark tmp h h.seperateId := cut_of_strchr hs (by rw [he])
    obtain ⟨hm, hplace, hwhole, hleft, hright, habove, -⟩ := cut
    have hargv : h.seperateId.argv0 = tmp + 1 := by
      rw [he]
      exact (argv_set_zero _ _).2
    have hidp : h.seperateId.id = some h.argv0 := by rw [he]
    refine ⟨⟨by rw [he], by rw [he]; exact (argv_set_zero _ _).1, by rw [he], by rw [he],
      by rw [he]⟩, ?_, ?_, ?_, ?_, ?_, by rw [he]⟩
    · rw [hidp, Option.map_some, hleft, if_pos hm]
    · intro p hp
      rw [hidp] at hp
      obtain rfl := Option.some.inj hp
      rw [hargv, hleft]
      omega
    · rw [hargv, hright, afterId, if_pos hm]
    · rw [hargv, hright]
      omega
    · exact fun p hp => habove p (by omega)

/-- The handle when the tables are consulted: both cuts are made. -/
structure Split (header : Bytes) (h h' : HupHandle N) : Prop extends SameBut h h' where
  id : h'.id.map h'.text = if idMark ∈ header then some (before idMark header) else none
  command : h'.text h'.argv0 = before sequenceMark (afterId header)
  sequence : h'.sequence.map h'.text =
    if sequenceMark ∈ afterId header then some (behind sequenceMark (afterId header)) else none
  others : ∀ p, header.length < p → h'.text p = h.text p

theorem seperateSequence_split {header : Bytes} {h g : HupHandle N} (n : Named header h g)
    (hseq : h.sequence = none) : Split header h g.seperateSequence := by
  have hcmd := n.command
  cases hs : strchr g.buffer.toList g.argv0 sequenceMark with
  | none =>
    have hm : sequenceMark ∉ g.text g.argv0 := strchr_eq_none hs
    have he : g.seperateSequence = g := by
      simp only [HupHandle.seperateSequence, HupHandle.seperateHeader, hs]
    rw [he]
    rw [hcmd] at hm
    exact ⟨n.toSameBut, n.id, by rw [hcmd, before_eq_self hm],
      by rw [n.sequence, hseq, if_neg hm]; rfl, n.others⟩
  | some tmp =>
    have he : g.seperateSequence = { g with
        buffer := g.buffer.setIfInBounds tmp 0, argv := g.argv.set 0 g.argv0 argv_pos
        sequence := some (tmp + 1) } := by
      simp only [HupHandle.seperateSequence, HupHandle.seperateHeader, hs]
    have cut : Cut sequenceMark tmp g g.seperateSequence := cut_of_strchr hs (by rw [he])
    obtain ⟨hm, hplace, hwhole, hleft, hright, habove, hbelow⟩ := cut
    have hargv : g.seperateSequence.argv0 = g.argv0 := by
      rw [he]
      exact (argv_set_zero _ _).2
    have hend := n.commandEnd
    refine ⟨⟨by rw [he]; exact n.argc, by rw [he]; exact (argv_set_zero _ _).1.trans n.tail,
      by rw [he]; exact n.response, by rw [he]; exact n.crcMatch, by rw [he]; exact n.crc16⟩,
      ?_, ?_, ?_, ?_⟩
    · have hidp : g.seperateSequence.id = g.id := by rw [he]
      rw [hidp, ← n.id]
      cases hid : g.id with
      | none => rfl
      | some p =>
        -- the id string ends in front of the command, so the second cut is behind it
        have := n.idEnd p hid
        rw [Option.map_some, Option.map_some, hbelow p (by omega)]
    · rw [hargv, hleft, hcmd]
    · have hsp : g.seperateSequence.sequence = some (tmp + 1) := by rw [he]
      rw [hsp, Option.map_some, hright, ← hcmd, if_pos hm]
    · intro p hp
      rw [habove p (by omega), n.others p hp]

theorem HupHandle.header_eq (h : HupHandle N) : h.header =
    ((h.id.map h.text).elim [] (· ++ [idMark])) ++ h.text h.argv0 ++
      ((h.sequence.map h.text).elim [] (sequenceMark :: ·)) := by
  unfold HupHandle.header
  cases h.id <;> cases h.sequence <;> rfl

/-- The header record is put together again as it was received. -/
theorem Split.header {header : Bytes} {h h' : HupHandle N} (s : Split header h h') :
    h'.header = header := by
  have hcmd : before sequenceMark (afterId header) ++ Option.elim
      (if sequenceMark ∈ afterId header then some (behind sequenceMark (afterId header)) else none)
      [] (sequenceMark :: ·) = afterId header := by
    by_cases hm : sequenceMark ∈ afterId header
    · rw [if_pos hm]
      exact split_at_first hm
    · rw [if_neg hm, before_eq_self hm]
      exact List.append_nil _
  rw [h'.header_eq, s.id, s.command, s.sequence, List.append_assoc, hcmd, afterId]
  by_cases hm : idMark ∈ header
  · rw [if_pos hm, if_pos hm, Option.elim_some, List.append_assoc]
    exact split_at_first hm
  · rw [if_neg hm, if_neg hm]
    rfl

theorem Closed.argv_zero {start : UInt8} {body : Bytes} {h : HupHandle N}
    (c : Closed start body h) : h.argv0 = 0 := by
  have hhead := congrArg (·[0]?) c.argv
  have hpos : 0 < h.argc := by rw [c.argc]; omega
  simpa [List.getElem?_take_of_lt hpos] using hhead

theorem Closed.text {start : UInt8} {body : Bytes} {h : HupHandle N} (c : Closed start body h)
    {p : Nat} (hp : p ≤ body.length) : h.splitRecords.text p = field (body.drop p) := by
  obtain ⟨rest, hrest⟩ := c.splitRecords
  rw [HupHandle.text, hrest, cstr_cleared hp]

theorem Closed.split {start : UInt8} {body : Bytes} {h : HupHandle N} (c : Closed start body h) :
    Split (field body) h.splitRecords h.split := by
  have htext : h.splitRecords.text h.splitRecords.argv0 = field body := by
    have h0 : h.splitRecords.argv0 = 0 := c.argv_zero
    rw [h0]
    exact c.text (Nat.zero_le _)
  exact seperateSequence_split (htext ▸ seperateId_named c.id c.argv_zero) c.sequence

/-- **The split yields the packet of the body.** -/
theorem Closed.packet {start : UInt8} {body : Bytes} {h : HupHandle N} (c : Closed start body h) :
    h.split.packet = packetOf start body := by
  have s := c.split
  have hothers : ∀ p, (field body).length < p → p ≤ body.length →
      h.split.text p = field (body.drop p) := fun p hp hp' => (s.others p hp).trans (c.text hp')
  have hargs : h.split.args = commandOf body :: records body := by
    have hlist : h.split.argv.toList.take h.split.argc = h.split.argv0 :: recordStarts 0 body := by
      have hargc : h.split.argc = body.count recordMark + 1 := s.argc.trans c.argc
      have htail : h.split.argv.toList.drop 1 = h.argv.toList.drop 1 := s.tail
      have hcons : h.split.argv.toList = h.split.argv0 :: h.split.argv.toList.drop 1 := by
        have := List.drop_eq_getElem_cons (l := h.split.argv.toList) (i := 0) (by simp)
        simpa using this
      rw [hcons, htail, hargc, List.take_succ_cons, List.take_drop, Nat.add_comm, ← c.argc, c.argv]
      rfl
    rw [HupHandle.args, hlist, List.map_cons, s.command, records_eq 0]
    refine congrArg _ (List.map_congr_left fun p hp => ?_)
    have := field_lt_recordStarts hp
    exact hothers p (by omega) (by omega)
  have hcrc : h.split.crc16.map h.split.text = (crcSplit body).map fun s => field s.2 := by
    rw [s.crc16]
    change h.crc16.map _ = _
    rw [c.crc16, crcStart, Option.map_map]
    cases hs : crcSplit body with
    | none => rfl
    | some p =>
      obtain ⟨pre, post⟩ := p
      obtain ⟨he, -⟩ := crcSplit_eq hs
      have hle := field_lt_crcSplit hs
      have hpost : body.drop (pre.length + 1) = post := by rw [he]; simp
      have hlen : pre.length + 1 ≤ body.length := by rw [he]; simp
      simp only [Option.map_some, Function.comp]
      rw [hothers _ (by omega) hlen, hpost]
  have hresp : h.split.response = (start != enqOfCommand) := s.response.trans c.response
  simp only [HupHandle.packet, packetOf, hargs, hcrc, hresp, s.id, s.sequence]

end Sdkz.Hu
