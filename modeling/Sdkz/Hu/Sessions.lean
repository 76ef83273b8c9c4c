import Sdkz.Hu.Answers
import Sdkz.Hu.Write

/-! # The flash driver over a whole run

Whatever arrives, the calls of the flash driver are sessions, one behind the
other: the area is opened, at most one thing is done with it, and it is closed
before the next session. The only area ever opened has the id 0, an erase takes
the whole of it, and a write is a `Chunk`.

`Chunk` is narrow. The announced length has to exceed 256, but the decoder is
given text for at most 1280 bytes of output at four bytes a character, 320
characters, and five characters make four bytes unless they are a `z`. What is
written therefore holds one zero word for every 3.2 bytes above 256. -/

namespace Sdkz.Hu
open Sdkz.Base

variable {N : Nat} {W : Type}

/-! ## What short texts decode to -/

/-- The aligned words of four zero bytes. -/
def zeroWords : Bytes → Nat
  | a :: b :: c :: d :: s => (if [a, b, c, d] = [0, 0, 0, 0] then 1 else 0) + zeroWords s
  | _ => 0

theorem zeroWords_append {g : Bytes} (hg : g.length = 4) (s : Bytes) :
    zeroWords (g ++ s) = (if g = [0, 0, 0, 0] then 1 else 0) + zeroWords s := by
  match g, hg with
  | [a, b, c, d], _ => rfl

theorem zeroWords_le (s : Bytes) : 4 * zeroWords s ≤ s.length := by
  fun_induction zeroWords s with
  | case1 a b c d s ih =>
    simp only [List.length_cons]
    split <;> omega
  | case2 => omega

theorem length_bigEndian {n v : Nat} (hn : n ≤ 4) : (bigEndian n v).length = n := by
  simp only [bigEndian, List.length_map, List.length_take, length_radix]
  omega

theorem map_eq_ok {ε α β : Type} {f : α → β} {r : Except ε α} {d : β} (h : r.map f = .ok d) :
    ∃ a, r = .ok a ∧ f a = d := by
  cases r with
  | error e => cases h
  | ok a => exact ⟨a, rfl, Except.ok.inj h⟩

/-- A text of `n` characters makes `4 / 5 * n` bytes, and 3.2 more for each zero
word. -/
theorem referenceDecode_zeroWords {s d : Bytes} (h : referenceDecode s = .ok d) :
    5 * d.length ≤ 4 * s.length + 16 * zeroWords d := by
  induction s using referenceDecode.induct generalizing d with
  | case1 =>
    rw [referenceDecode] at h
    obtain rfl := Except.ok.inj h
    exact Nat.zero_le _
  | case2 s ih =>
    rw [referenceDecode_zero] at h
    obtain ⟨r, hr, rfl⟩ := map_eq_ok h
    have hrest := ih hr
    have hlen : (bigEndian 4 0).length = 4 := length_bigEndian (Nat.le_refl 4)
    have hzero : bigEndian 4 0 = [0, 0, 0, 0] := by decide
    rw [zeroWords_append hlen, if_pos hzero, List.length_append, hlen, List.length_cons]
    omega
  | case3 c s hz g =>
    rename_i hbad
    rw [referenceDecode, if_neg hz, if_pos hbad] at h
    cases h
  | case4 c s hz g hbad =>
    rename_i hover
    rw [referenceDecode, if_neg hz, if_neg hbad, if_pos hover] at h
    cases h
  | case5 c s hz g hbad hover =>
    rename_i ih
    rw [referenceDecode, if_neg hz, if_neg hbad, if_neg hover] at h
    have hg : ((c :: s).take 5).length = min 5 (s.length + 1) := by
      rw [List.length_take, List.length_cons]
    change g.length = _ at hg
    change (referenceDecode ((c :: s).drop 5)).map (bigEndian (g.length - 1) (groupValue g) ++ ·) =
      .ok d at h
    obtain ⟨r, hr, rfl⟩ := map_eq_ok h
    have hrest := ih hr
    have hlen : (bigEndian (g.length - 1) (groupValue g)).length = g.length - 1 :=
      length_bigEndian (by omega)
    rw [List.length_drop, List.length_cons] at hrest
    by_cases hfull : 5 ≤ s.length + 1
    · have hfour : (bigEndian (g.length - 1) (groupValue g)).length = 4 := by omega
      rw [zeroWords_append hfour, List.length_append, hfour, List.length_cons]
      omega
    · -- a short group is the last one
      have hnil : (c :: s).drop 5 = [] :=
        List.drop_eq_nil_of_le (by rw [List.length_cons]; omega)
      rw [hnil, referenceDecode] at hr
      obtain rfl := Except.ok.inj hr
      rw [List.append_nil, hlen, List.length_cons]
      omega

/-- A decoder that does not report an error was given room for four bytes a
character, and put down what the text stands for. -/
theorem decodeAscii85_decoded {inp : Nat → UInt8} {n : Nat} {outMaxLength : Int}
    (h : 0 ≤ (decodeAscii85 inp n outMaxLength).outLength) :
    4 * (n : Int) ≤ outMaxLength ∧
      referenceDecode (window inp 0 n) = .ok (decodeAscii85 inp n outMaxLength).outp ∧
      (decodeAscii85 inp n outMaxLength).outLength =
        (decodeAscii85 inp n outMaxLength).outp.length := by
  unfold decodeAscii85 ascii85GetMaxDecodedLength at h ⊢
  simp only at h ⊢
  by_cases hlarge : (n : Int) < 0 ∨ ascii85InLengthMax < n
  · rw [if_pos hlarge, if_pos (by decide)] at h
    exact absurd h (by decide)
  · rw [if_neg hlarge] at h ⊢
    rw [if_neg (by omega)] at h ⊢
    split
    · rename_i hmany
      rw [if_pos hmany] at h
      exact absurd h (by decide)
    · rename_i hroom
      rw [if_neg hroom] at h
      have hreference := decodeLoop_reference (n := n) inp [] [] (Nat.le_add_left n 0)
      rw [Int.toNat_natCast] at h ⊢
      refine ⟨by omega, ?_⟩
      cases hr : referenceDecode (window inp 0 n) with
      | error rc =>
        rw [hr] at hreference
        have hrc : (decodeLoop inp n n 0 [] []).outLength = rc := hreference
        rw [hrc] at h
        rcases referenceDecode_error hr with rfl | rfl <;> exact absurd h (by decide)
      | ok bs =>
        rw [hr] at hreference
        obtain ⟨hlen, hout⟩ := hreference
        rw [hlen, hout]
        exact ⟨rfl, rfl⟩

/-! ## Sessions -/

/-- The bytes of a write. -/
structure Chunk (data : Bytes) : Prop where
  longer : 256 < data.length
  atMost : data.length ≤ 1280
  zeros : 5 * (data.length - 256) ≤ 16 * zeroWords data

/-- The driver calls of one frame. -/
inductive Session : List FlashCall → Prop
  | none : Session []
  | refused : Session [.open 0]
  | looked (fa : FlashArea) : Session [.open 0, .close fa]
  | erased (fa : FlashArea) : Session [.open 0, .erase fa 0 fa.faSize, .close fa]
  | written (fa : FlashArea) (offset : Int) (data : Bytes) (chunk : Chunk data) :
      Session [.open 0, .write fa offset data, .close fa]

/-- An open hands out an area only if it asked for the one with the id 0. -/
theorem Work.opened_calls (b : Board W) (w : W) (name : Bytes) :
    (Work.opened b w name).area = none ∧
        ((Work.opened b w name).calls = [] ∨ (Work.opened b w name).calls = [.open 0]) ∨
      ∃ fa, (Work.opened b w name).area = some fa ∧ (Work.opened b w name).calls = [.open 0] := by
  unfold Work.opened
  dsimp only
  by_cases hrc : (resolvePartition b w name).2 = 0
  · rw [if_neg (not_not_intro hrc), hrc]
    generalize b.flashAreaOpen (resolvePartition b w name).1 (0 : Int).toNat.toUInt8 = o
    obtain ⟨w', e | fa⟩ := o
    · exact .inl ⟨rfl, .inr rfl⟩
    · exact .inr ⟨fa, rfl, rfl⟩
  · rw [if_pos hrc]
    exact .inl ⟨rfl, .inl rfl⟩

theorem Work.opened_session (b : Board W) (w : W) (name : Bytes) :
    Session (Work.opened b w name).session := by
  unfold Work.session
  rcases Work.opened_calls b w name with ⟨harea, hcalls | hcalls⟩ | ⟨fa, harea, hcalls⟩
  · rw [harea, hcalls]
    exact .none
  · rw [harea, hcalls]
    exact .refused
  · rw [harea, hcalls]
    exact .looked fa

theorem Work.refuse_session (w : W) : Session (Work.refuse w).session := .none

theorem Work.wrprt_session (b : Board W) (w : W) (argv : List Bytes) :
    Session (Work.wrprt b w argv).session := by
  unfold Work.wrprt
  split
  · exact Work.refuse_session w
  · exact Work.opened_session b w _

theorem Work.erase_session (b : Board W) (w : W) (argv : List Bytes) :
    Session (Work.erase b w argv).session := by
  unfold Work.erase
  split
  · exact Work.refuse_session w
  · have hopen := Work.opened_session b w (argv.getD argFlashPartition [])
    rcases Work.opened_calls b w (argv.getD argFlashPartition []) with
      ⟨harea, -⟩ | ⟨fa, harea, hcalls⟩
    · simpa only [harea] using hopen
    · simp only [harea, Work.session, Work.call, hcalls]
      exact .erased fa

/-- What a write command hands to the driver was announced as more than 256 bytes
and decoded from a text short enough for the decoder. -/
theorem Work.write_session (b : Board W) {k : Work W} {fa : FlashArea} {size : Int}
    {argv : List Bytes} (harea : k.area = some fa) (hcalls : k.calls = [.open 0])
    (hsize : ascii85MaxChunkSize < size) : Session (k.write b fa size argv).session := by
  unfold Work.write
  dsimp only
  generalize argv.getD argFlashAscii85Data [] = text
  have hlength := decodeAscii85_length (stringAt text) text.length (ascii85MaxChunkSize * 5)
  have hdecoded := @decodeAscii85_decoded (stringAt text) text.length (ascii85MaxChunkSize * 5)
  generalize decodeAscii85 (stringAt text) text.length (ascii85MaxChunkSize * 5) = d
    at hlength hdecoded ⊢
  by_cases hrc : decodeStatus d size = 0
  · rw [if_neg (not_not_intro hrc)]
    obtain ⟨hpos, hannounced⟩ := (decodeStatus_zero size hlength).mp hrc
    obtain ⟨htext, hreference, hlen⟩ := hdecoded hpos
    have hall : d.outp.take size.toNat = d.outp := List.take_of_length_le (by omega)
    simp only [Work.session, Work.call, harea, hcalls, hall]
    have hzeros := referenceDecode_zeroWords hreference
    have hwords := zeroWords_le d.outp
    rw [length_window] at hzeros
    simp only [ascii85MaxChunkSize] at hsize htext
    exact .written fa _ d.outp ⟨by omega, by omega, by omega⟩
  · rw [if_pos hrc]
    simp only [Work.session, harea, hcalls]
    exact .looked fa

theorem Work.flash_session (b : Board W) (w : W) (argv : List Bytes) :
    Session (Work.flash b w argv).session := by
  unfold Work.flash
  split
  · exact Work.refuse_session w
  · have hopen := Work.opened_session b w (argv.getD argFlashPartition [])
    rcases Work.opened_calls b w (argv.getD argFlashPartition []) with
      ⟨harea, -⟩ | ⟨fa, harea, hcalls⟩
    · simpa only [harea] using hopen
    · simp only [harea]
      split
      · simp only [Work.session, hcalls]
        exact .looked fa
      · rename_i hsize
        exact Work.write_session b harea hcalls (not_le.mp hsize)

/-! ## Sessions of the table entries -/

/-- Each call of the entry is one session of the driver. -/
def Sessions (c : HupCmd N W FlashCall) : Prop :=
  ∀ m argv, ∃ s, Session s ∧
    driverCalls (c.func m argv.length argv).log = driverCalls m.log ++ s

theorem driverCalls_devices (xs : List FlashCall) : driverCalls (xs.map Event.device) = xs := by
  rw [driverCalls, List.filterMap_map]
  exact List.filterMap_some

theorem Does.driverCalls (b : Board W) (fw : Firmware N W FlashCall) {m : Machine N W FlashCall}
    {r : Machine N W FlashCall × Int × Option FlashArea} {k : Work W} (d : Does m r k) (argc : Nat)
    (argv : List Bytes) (start stop : Nat) :
    Hu.driverCalls (answerRequest b fw r argc argv start stop).log =
      Hu.driverCalls m.log ++ k.session := by
  rw [driverCalls_answerRequest, d.log, d.result, driverCalls_append, driverCalls_devices,
    List.append_assoc]
  rfl

section Table
variable (b : Board W) (fw : Firmware N W FlashCall)

theorem hupCmdErase_sessions : Sessions (hupCmdErase b fw) := fun m argv =>
  ⟨_, Work.erase_session b m.world argv, (eraseArea_does b m argv).driverCalls b fw _ _ _ _⟩

theorem hupCmdFlash_sessions : Sessions (hupCmdFlash b fw) := fun m argv =>
  ⟨_, Work.flash_session b m.world argv, (flashChunk_does b m argv).driverCalls b fw _ _ _ _⟩

theorem hupCmdWrprt_sessions : Sessions (hupCmdWrprt b fw) := by
  intro m argv
  by_cases hex : b.flashHasExOp = true
  · refine ⟨_, Work.wrprt_session b m.world argv, ?_⟩
    have hrun : (hupCmdWrprt b fw).func m argv.length argv = answerRequest b fw
        (wrprtArea b m argv.length argv) argv.length argv argFlashPartition
        argFlashWriteProtect := if_pos hex
    rw [hrun]
    exact (wrprtArea_does b m argv).driverCalls b fw _ _ _ _
  · have hrun : (hupCmdWrprt b fw).func m argv.length argv = m := if_neg hex
    rw [hrun]
    exact ⟨[], .none, (List.append_nil _).symm⟩

end Table

/-! ## The whole run -/

section Run
variable {fw : Firmware N W FlashCall}

theorem split_argc (h : HupHandle N) : h.split.argc = h.argc := by
  have hsep : ∀ (h : HupHandle N) (put : Nat → Nat → HupHandle N → HupHandle N) (ch : UInt8),
      (∀ p q h, (put p q h).argc = h.argc) → (h.seperateHeader put ch).argc = h.argc := by
    intro h put ch hput
    unfold HupHandle.seperateHeader
    split
    · exact hput _ _ _
    · rfl
  have hid : ∀ h : HupHandle N, h.seperateId.argc = h.argc := fun h => by
    rw [HupHandle.seperateId, hsep]
    exact fun _ _ _ => rfl
  have hseq : ∀ h : HupHandle N, h.seperateSequence.argc = h.argc := fun h => by
    rw [HupHandle.seperateSequence, hsep]
    exact fun _ _ _ => rfl
  rw [HupHandle.split, hseq, hid]
  rfl

/-- The tables see a handle with at most 64 arguments, so with as many texts. -/
theorem dispatch_session (hall : ∀ c ∈ fw.hupCmd ++ fw.hupResp, Sessions c)
    {m : Machine N W FlashCall} (ok : m.handle.argc ≤ 64) : ∃ s, Session s ∧
      driverCalls (dispatch fw m).log = driverCalls m.log ++ s := by
  have hargs : m.handle.split.args.length = m.handle.split.argc := by
    rw [HupHandle.args, List.length_map, List.length_take, Vector.length_toList, split_argc]
    omega
  generalize hs : m.handle.split = h at hargs
  rw [dispatch_of_split fw m hs]
  cases hl : lookupCmd (if h.response then fw.hupResp else fw.hupCmd) h with
  | none =>
    refine ⟨[], .none, ?_⟩
    dsimp only [Machine.mapHandle]
    rw [driverCalls_append]
    rfl
  | some c =>
    have hmem : c ∈ fw.hupCmd ++ fw.hupResp := by
      have hfound := List.mem_of_find?_eq_some hl
      split at hfound
      · exact List.mem_append_right _ hfound
      · exact List.mem_append_left _ hfound
    dsimp only [Machine.mapHandle]
    rw [← hargs]
    obtain ⟨s, hsession, hcalls⟩ := hall c hmem _ h.args
    refine ⟨s, hsession, hcalls.trans (congrArg (· ++ s) ?_)⟩
    simp only [Machine.emit, driverCalls_append, List.append_assoc]
    exact List.append_nil _

theorem processData_session (hall : ∀ c ∈ fw.hupCmd ++ fw.hupResp, Sessions c)
    {m : Machine N W FlashCall} (ok : m.handle.argc ≤ 64) : ∃ s, Session s ∧
      driverCalls (processData fw m).log = driverCalls m.log ++ s := by
  unfold processData
  cases m.handle.crc16 with
  | none => exact dispatch_session hall ok
  | some crc =>
    simp only
    split
    · refine ⟨[], .none, ?_⟩
      rw [driverCalls_sendBuffer, hupacketNakResponse, driverCalls_recordInt,
        driverCalls_resetBuffer, List.append_nil]
      rfl
    · exact dispatch_session (m := m.mapHandle fun h =>
        { h with crcMatch := crcVerdict fw h crc }) hall ok

/-- One byte is at most one session. -/
theorem processByte_session (hall : ∀ c ∈ fw.hupCmd ++ fw.hupResp, Sessions c)
    {m : Machine N W FlashCall} (ok : HandleOk m.handle) (b : UInt8) : ∃ s, Session s ∧
      driverCalls (processByte fw m b).log = driverCalls m.log ++ s := by
  by_cases he : b = endOfPacket
  · subst he
    by_cases hm : m.handle.state = hupStateNone
    · rw [processByte_idle fw hm (by decide)]
      exact ⟨[], .none, (List.append_nil _).symm⟩
    · rw [processByte_end hm]
      have hargc : (storeByte m 0).handle.argc ≤ 64 := by
        have := (storeBuffer_fields m.handle m.handle.state 0).2.1
        have hkeep : (storeByte m 0).handle.argc = m.handle.argc := this
        rw [hkeep]
        exact ok.argc
      obtain ⟨s, hs, hcalls⟩ := processData_session hall hargc
      refine ⟨s, hs, hcalls.trans (congrArg (· ++ s) ?_)⟩
      simp [storeByte, Machine.mapHandle, Machine.emit, driverCalls, Event.driven]
  · obtain ⟨ev, hlog, hev⟩ := (silent_processByte fw m he).log
    refine ⟨[], .none, ?_⟩
    have hquiet : driverCalls ev = [] := List.filterMap_eq_nil_iff.mpr fun e he => by
      have := hev e he
      cases e <;> simp_all [Event.isStore, Event.driven]
    rw [hlog, driverCalls_append, hquiet]

theorem processHupacket_sessions (hall : ∀ c ∈ fw.hupCmd ++ fw.hupResp, Sessions c)
    (stream : Bytes) {m : Machine N W FlashCall} (ok : HandleOk m.handle) :
    ∃ sessions : List (List FlashCall), (∀ s ∈ sessions, Session s) ∧
      driverCalls (processHupacket fw m stream).log = driverCalls m.log ++ sessions.flatten := by
  induction stream generalizing m with
  | nil => exact ⟨[], by simp, (List.append_nil _).symm⟩
  | cons b stream ih =>
    obtain ⟨s, hs, hcalls⟩ := processByte_session hall ok b
    obtain ⟨rest, hrest, hmore⟩ := ih (handleOk_processByte fw ok b)
    refine ⟨s :: rest, ?_, ?_⟩
    · intro x hx
      rcases List.mem_cons.mp hx with rfl | hx
      · exact hs
      · exact hrest x hx
    · rw [List.flatten_cons, ← List.append_assoc, ← hcalls]
      exact hmore

/-- **The flash driver is used in sessions.** Over every stream, cut into calls in
any way, with other commands that leave the driver alone, the driver calls are
whole sessions one behind the other. A reply that runs past `tx_buffer` ends the run,
behind a whole session. -/
theorem flash_driver_in_sessions (b : Board W) (fw : Firmware N W FlashCall)
    (hother : ∀ c ∈ fw.hupCmd ++ fw.hupResp, ∀ m argc argv,
      driverCalls (c.func m argc argv).log = driverCalls m.log) (w : W) (chunks : List Bytes) :
    ∃ sessions : List (List FlashCall), (∀ s ∈ sessions, Session s) ∧
      driverCalls (feed (withFlash b fw) (.fresh N w) chunks).log = sessions.flatten := by
  have hall : ∀ c ∈ (withFlash b fw).hupCmd ++ (withFlash b fw).hupResp, Sessions c := by
    intro c hc
    simp only [withFlash, List.cons_append, List.nil_append, List.mem_cons] at hc
    rcases hc with rfl | rfl | rfl | hc
    · exact hupCmdErase_sessions b fw
    · exact hupCmdFlash_sessions b fw
    · exact hupCmdWrprt_sessions b fw
    · exact fun m argv => ⟨[], .none, by rw [hother c hc, List.append_nil]⟩
  obtain ⟨sessions, hs, hcalls⟩ := processHupacket_sessions hall chunks.flatten (handleOk_fresh N)
    (m := .fresh N w)
  rw [feed_eq]
  exact ⟨sessions, hs, hcalls⟩

/-- The image without other commands. -/
theorem flash_commands_in_sessions : ∃ sessions : List (List FlashCall),
    (∀ s ∈ sessions, Session s) ∧
    driverCalls (feed (withFlash plainBoard (image [] [])) (.fresh packetSize ())
      [frame enqOfCommand (ascii "erase" ++ recordMark :: ascii "slot0")]).log = sessions.flatten :=
  flash_driver_in_sessions plainBoard (image [] []) (by simp [image]) () _

end Run

end Sdkz.Hu
