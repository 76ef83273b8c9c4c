import Sdkz.Hu.Reply

/-! # Partitions by name

A request names the area it works on: by an entry of the partition table, or as
`inactive`, which is the slot that is not running. `open_flash_partition` carries
the id and the error code in one `int`, and its test takes every id but 0 for an
error. -/

namespace Sdkz.Hu
open Sdkz.Base

variable {N : Nat} {W : Type}

/-! ## What a name stands for -/

/-- The slot to write when `slot` is the running one. -/
def otherSlot (slot : UInt8) : Option Bytes :=
  if slot = 0 then some (ascii "slot1") else if slot = 1 then some (ascii "slot0") else none

/-- The table gives `id` to the name, or to the slot `inactive` stands for. -/
def Board.Target (b : Board W) (w : W) (name : Bytes) (id : UInt8) : Prop :=
  if b.retentionBootloaderInfo ∧ name = ascii "inactive" then
    (bootloaderActiveSlot b w).2.1 = 0 ∧
      ∃ slot, otherSlot (bootloaderActiveSlot b w).2.2 = some slot ∧ (slot, id) ∈ b.fixedPartitions
  else (name, id) ∈ b.fixedPartitions

/-- No name stands twice in the table, and `inactive` is not an entry of its own. -/
structure Board.TableOk (b : Board W) : Prop where
  distinct : (b.fixedPartitions.map Prod.fst).Nodup
  inactive : ascii "inactive" ∉ b.fixedPartitions.map Prod.fst

theorem getPartitionId_mem {b : Board W} (ok : b.TableOk) {name : Bytes} {id : UInt8}
    (h : (name, id) ∈ b.fixedPartitions) : getPartitionId b name = id.toNat := by
  have hfind : b.fixedPartitions.find? (·.1 == name) = some (name, id) := by
    have hdistinct := ok.distinct
    generalize b.fixedPartitions = table at h hdistinct
    induction table with
    | nil => cases h
    | cons p table ih =>
      obtain ⟨hp, htable⟩ := List.nodup_cons.mp hdistinct
      rcases List.mem_cons.mp h with rfl | h
      · simp
      · have hne : p.1 ≠ name := fun e => hp (e ▸ List.mem_map_of_mem h)
        rw [List.find?_cons_of_neg (by simpa using hne), ih h htable]
  rw [getPartitionId, hfind]

theorem getPartitionId_unknown {b : Board W} {name : Bytes}
    (h : ∀ id, (name, id) ∉ b.fixedPartitions) : getPartitionId b name = -einval := by
  have hfind : b.fixedPartitions.find? (·.1 == name) = none := by
    rw [List.find?_eq_none]
    intro p hp hname
    have : p.1 = name := by simpa using hname
    exact h p.2 (this ▸ hp)
  rw [getPartitionId, hfind]

theorem Board.TableOk.not_inactive {b : Board W} (ok : b.TableOk) (id : UInt8) :
    (ascii "inactive", id) ∉ b.fixedPartitions :=
  fun h => ok.inactive (List.mem_map_of_mem (f := Prod.fst) h)

/-- A name that stands for an id is resolved to it. -/
theorem resolvePartition_target {b : Board W} (ok : b.TableOk) {w : W} {name : Bytes}
    {id : UInt8} (h : b.Target w name id) : (resolvePartition b w name).2 = id.toNat := by
  unfold Board.Target at h
  unfold resolvePartition
  split at h
  · rename_i hinactive
    obtain ⟨hrc, slot, hslot, hmem⟩ := h
    rw [if_pos (by simpa using hinactive)]
    generalize bootloaderActiveSlot b w = r at hrc hslot
    obtain ⟨w', rc, running⟩ := r
    subst hrc
    unfold otherSlot at hslot
    simp only [ne_eq, not_true, if_false]
    split at hslot
    · rename_i hrun
      rw [if_pos hrun, ← getPartitionId_mem ok hmem, Option.some.inj hslot]
    · rename_i hrun
      split at hslot
      · rename_i hrun'
        rw [if_neg hrun, if_pos hrun', ← getPartitionId_mem ok hmem, Option.some.inj hslot]
      · cases hslot
  · rename_i hnamed
    rw [if_neg (by simpa using hnamed)]
    exact getPartitionId_mem ok h

/-- A name that stands for nothing is resolved to an error. -/
theorem resolvePartition_unknown {b : Board W} (ok : b.TableOk) {w : W} {name : Bytes}
    (h : ∀ id, ¬ b.Target w name id) : (resolvePartition b w name).2 = -einval := by
  unfold Board.Target at h
  unfold resolvePartition
  split at h
  · rename_i hinactive
    rw [if_pos (by simpa using hinactive)]
    generalize bootloaderActiveSlot b w = r at h
    obtain ⟨w', rc, running⟩ := r
    simp only
    split
    · rw [hinactive.2]
      exact getPartitionId_unknown ok.not_inactive
    · rename_i hrc
      have hnone : ∀ slot, otherSlot running = some slot →
          ∀ id, (slot, id) ∉ b.fixedPartitions := fun slot hslot id hmem =>
        h id ⟨not_not.mp hrc, slot, hslot, hmem⟩
      unfold otherSlot at hnone
      split
      · rename_i hrun
        exact getPartitionId_unknown (hnone _ (by rw [if_pos hrun]))
      · rename_i hrun
        split
        · rename_i hrun'
          exact getPartitionId_unknown (hnone _ (by rw [if_neg hrun, if_pos hrun']))
        · rfl
  · rename_i hnamed
    rw [if_neg (by simpa using hnamed)]
    exact getPartitionId_unknown h

/-! ## Answers -/

/-- A reply with a positive status mark and the status 0 behind the header. -/
def Acknowledges (h : HupHandle N) (s : Bytes) : Prop := replyStart h 0 <+: s

/-- A reply with a negative status mark and another status. -/
def Refuses (h : HupHandle N) (s : Bytes) : Prop := ∃ rc, rc ≠ 0 ∧ replyStart h rc <+: s

theorem requestReply_starts (fw : Firmware N W FlashCall) (h : HupHandle N) (rc : Int)
    (echo : List Bytes) : replyStart h rc <+: requestReply fw h rc echo := by
  rw [requestReply, reply]
  simp only [List.append_assoc]
  exact List.prefix_append _ _

/-- A reply with another status starts with another mark. -/
theorem acknowledges_iff (fw : Firmware N W FlashCall) (h : HupHandle N) (rc : Int)
    (echo : List Bytes) : Acknowledges h (requestReply fw h rc echo) ↔ rc = 0 := by
  constructor
  · intro hack
    by_contra hrc
    obtain ⟨t, ht⟩ := hack
    obtain ⟨t', ht'⟩ := requestReply_starts fw h rc echo
    have hmark := ht.trans ht'.symm
    simp only [replyStart, if_neg hrc, if_true, List.cons_append, List.cons.injEq] at hmark
    exact absurd hmark.1 (by decide)
  · rintro rfl
    exact requestReply_starts fw h 0 echo

theorem refuses_iff (fw : Firmware N W FlashCall) (h : HupHandle N) (rc : Int)
    (echo : List Bytes) : Refuses h (requestReply fw h rc echo) ↔ rc ≠ 0 := by
  constructor
  · rintro ⟨rc', hrc', t, ht⟩ rfl
    obtain ⟨t', ht'⟩ := requestReply_starts fw h 0 echo
    have hmark := ht.trans ht'.symm
    simp only [replyStart, if_neg hrc', if_true, List.cons_append, List.cons.injEq] at hmark
    exact absurd hmark.1 (by decide)
  · exact fun hrc => ⟨rc, hrc, requestReply_starts fw h rc echo⟩

/-- What a request logs: the driver calls of its work, the close, one reply. -/
theorem answerRequest_since (b : Board W) (fw : Firmware N W FlashCall)
    {m : Machine N W FlashCall} {r : Machine N W FlashCall × Int × Option FlashArea}
    (h : Operates m r.1) (xs : List FlashCall) (hlog : r.1.log = m.log ++ xs.map .device)
    (argc : Nat) (argv : List Bytes) (start stop : Nat) :
    let new := since m (answerRequest b fw r argc argv start stop)
    driverCalls new = xs ++ (r.2.2.map FlashCall.close).toList ∧
      sends new = [requestReply fw m.handle r.2.1 (echoed argc argv start stop)] := by
  have hsends := answerRequest_sends b fw h argc argv start stop
  constructor
  · obtain ⟨ev, hnew, -⟩ := hsends.log
    have hcalls := driverCalls_answerRequest b fw r argc argv start stop
    have hxs : driverCalls (xs.map (.device : FlashCall → Event FlashCall)) = xs := by
      simp [driverCalls, List.filterMap_map, Function.comp_def, Event.driven]
    rw [List.append_assoc] at hnew
    rw [hlog, driverCalls_append m.log (xs.map _), hxs, List.append_assoc, hnew,
      driverCalls_append m.log] at hcalls
    rw [since_eq hnew]
    exact List.append_cancel_left hcalls
  · have hnil : m.log = m.log ++ [] := (List.append_nil _).symm
    exact (hsends.answeredBy hnil (by simp) rfl).sent

/-! ## Opening what was named -/

/-- What `open_flash_partition` returns when the driver was asked. -/
def openResult : Except {rc : Int // rc ≠ 0} FlashArea → Int × Option FlashArea
  | .ok fa => (0, some fa)
  | .error rc => (rc, none)

/-- A name that stands for an id opens that id; any other name opens nothing. -/
structure OpensNamed (b : Board W) (m : Machine N W FlashCall) (name : Bytes) : Prop where
  known : ∀ id, b.Target m.world name id →
    (openFlashPartition b m name).1.log = m.log ++ [.device (.open id)] ∧
      (openFlashPartition b m name).2 =
        openResult (b.flashAreaOpen (resolvePartition b m.world name).1 id).2
  unknown : (∀ id, ¬ b.Target m.world name id) →
    (openFlashPartition b m name).1.log = m.log ∧ (openFlashPartition b m name).2.1 < 0 ∧
      (openFlashPartition b m name).2.2 = none

/-- What an erase request on the area `id` has to do, in the world behind the
resolution of the name: erase the whole area, and acknowledge a success only. -/
def Erases (b : Board W) (h : HupHandle N) (w : W) (id : UInt8) (calls : List FlashCall)
    (sent : List Bytes) : Prop :=
  match b.flashAreaOpen w id with
  | (w, .ok fa) => calls = [.open id, .erase fa 0 fa.faSize, .close fa] ∧
      ∃ s, sent = [s] ∧ (Acknowledges h s ↔ (b.flashAreaErase w fa 0 fa.faSize).2 = 0)
  | (_, .error _) => calls = [.open id] ∧ ∃ s, sent = [s] ∧ ¬ Acknowledges h s

/-- Every erase request on a known partition whose reply fits `tx_buffer` erases it. -/
def ErasesNamed (b : Board W) (fw : Firmware N W FlashCall) (m : Machine N W FlashCall)
    (name : Bytes) : Prop :=
  ∀ argc argv, argEraseMax ≤ argc → argv.getD argFlashPartition [] = name →
    ∀ id, b.Target m.world name id →
      let new := since m (erase b fw m argc argv)
      RepliesFit N new →
        Erases b m.handle (resolvePartition b m.world name).1 id (driverCalls new) (sends new)

/-- The id 0 is handed to the driver. -/
theorem openFlashPartition_zero {b : Board W} {m : Machine N W FlashCall} {name : Bytes}
    (h : (resolvePartition b m.world name).2 = 0) :
    (openFlashPartition b m name).1.log = m.log ++ [.device (.open 0)] ∧
      (openFlashPartition b m name).1.world =
        (b.flashAreaOpen (resolvePartition b m.world name).1 0).1 ∧
      (openFlashPartition b m name).2 =
        openResult (b.flashAreaOpen (resolvePartition b m.world name).1 0).2 := by
  unfold openFlashPartition
  simp only [h, ne_eq, not_true, if_false]
  generalize hopen : b.flashAreaOpen _ _ = o
  have hopen' : b.flashAreaOpen (resolvePartition b m.world name).1 0 = o := hopen
  rw [hopen']
  obtain ⟨w, fa | rc⟩ := o <;> exact ⟨rfl, rfl, rfl⟩

/-- Any other result of the resolution comes back as it is. -/
theorem openFlashPartition_nonzero {b : Board W} {m : Machine N W FlashCall} {name : Bytes}
    (h : (resolvePartition b m.world name).2 ≠ 0) :
    openFlashPartition b m name = ({ m with world := (resolvePartition b m.world name).1 },
      (resolvePartition b m.world name).2, none) := by
  unfold openFlashPartition
  simp only [if_pos h]

theorem openFlashPartition_named {b : Board W} (ok : b.TableOk) {m : Machine N W FlashCall}
    {name : Bytes} (h : ∀ id, b.Target m.world name id → id = 0) : OpensNamed b m name where
  known id hid := by
    obtain rfl := h id hid
    obtain ⟨hlog, -, hres⟩ := openFlashPartition_zero (resolvePartition_target ok hid)
    exact ⟨hlog, hres⟩
  unknown hnone := by
    have hrc := resolvePartition_unknown ok hnone
    rw [openFlashPartition_nonzero (by rw [hrc]; decide)]
    exact ⟨rfl, hrc.trans_lt (by decide), rfl⟩

/-- An erase request on the area with the id 0. -/
theorem erase_zero {b : Board W} (fw : Firmware N W FlashCall) {m : Machine N W FlashCall}
    {argc : Nat} {argv : List Bytes} (hargc : argEraseMax ≤ argc)
    (h : (resolvePartition b m.world (argv.getD argFlashPartition [])).2 = 0) :
    let new := since m (erase b fw m argc argv)
    Erases b m.handle (resolvePartition b m.world (argv.getD argFlashPartition [])).1 0
      (driverCalls new) (sends new) := by
  obtain ⟨hlog, hworld, hres⟩ := openFlashPartition_zero h
  have hoperates := eraseArea_operates b m argc argv
  unfold Erases
  generalize hopened : openFlashPartition b m (argv.getD argFlashPartition []) = r at *
  obtain ⟨m', rc, fa⟩ := r
  simp only at hlog hworld hres
  generalize b.flashAreaOpen _ 0 = o at hworld hres ⊢
  obtain ⟨w, refused | area⟩ := o
  · have harea : eraseArea b m argc argv = (m', refused.1, none) := by
      rw [eraseArea, if_pos hargc, hopened]
      simp only [openResult, Prod.mk.injEq] at hres
      obtain ⟨rfl, rfl⟩ := hres
      rfl
    rw [harea] at hoperates
    have hdone := answerRequest_since b fw hoperates [.open 0] hlog argc argv
      argFlashPartition argFlashPartition
    rw [erase, harea]
    refine ⟨hdone.1, _, hdone.2, ?_⟩
    rw [acknowledges_iff]
    exact refused.2
  · obtain ⟨rfl, rfl⟩ := Prod.mk.inj hres
    have harea : eraseArea b m argc argv =
        (({ m' with world := (b.flashAreaErase m'.world area 0 area.faSize).1 } :
            Machine N W FlashCall).emit (.device (.erase area 0 area.faSize)),
          (b.flashAreaErase m'.world area 0 area.faSize).2, some area) := by
      rw [eraseArea, if_pos hargc, hopened]
      rfl
    rw [harea] at hoperates
    have hlog' := congrArg (· ++ [Event.device (.erase area 0 area.faSize)]) hlog
    simp only [List.append_assoc] at hlog'
    have hdone := answerRequest_since b fw hoperates
      [.open 0, .erase area 0 area.faSize] hlog' argc argv
      argFlashPartition argFlashPartition
    rw [erase, harea]
    refine ⟨hdone.1, _, hdone.2, ?_⟩
    rw [acknowledges_iff, hworld]

/-- **A partition is opened and erased by its name exactly if its id is 0.** A name
without an id is turned down as it should be. -/
theorem partition_operated_iff {b : Board W} (ok : b.TableOk) (fw : Firmware N W FlashCall)
    (m : Machine N W FlashCall) (name : Bytes) :
    OpensNamed b m name ∧ ErasesNamed b fw m name ↔
      ∀ id, b.Target m.world name id → id = 0 := by
  constructor
  · rintro ⟨hopens, -⟩ id hid
    by_contra hne
    have hrc := resolvePartition_target ok hid
    have hnonzero : (resolvePartition b m.world name).2 ≠ 0 := by
      rw [hrc]
      exact fun h => hne (UInt8.toNat_inj.mp (by exact_mod_cast h))
    have hlog := (hopens.known id hid).1
    rw [openFlashPartition_nonzero hnonzero] at hlog
    exact absurd (List.append_cancel_left ((List.append_nil _).trans hlog)) (by simp)
  · intro h
    refine ⟨openFlashPartition_named ok h, fun argc argv hargc hname id hid _ => ?_⟩
    obtain rfl := h id hid
    subst hname
    exact erase_zero fw hargc (resolvePartition_target ok hid)

theorem plainBoard_tableOk : plainBoard.TableOk := ⟨by decide, by decide⟩

/-- `slot0` has the id 0 on the board with two partitions. -/
theorem slot0_operated : plainBoard.TableOk ∧
    OpensNamed plainBoard (.fresh packetSize ()) (ascii "slot0") ∧
    ErasesNamed plainBoard (image [] []) (.fresh packetSize ()) (ascii "slot0") :=
  ⟨plainBoard_tableOk, (partition_operated_iff plainBoard_tableOk (image [] [])
    (.fresh packetSize ()) (ascii "slot0")).mpr fun id hid => by
      have hmem : (ascii "slot0", id) ∈ plainBoard.fixedPartitions := hid
      simpa [plainBoard, show ¬ ascii "slot0" = ascii "slot1" by decide] using hmem⟩

/-- `slot1` has the id 1: it is in the table, and opening it does not reach the
driver. -/
theorem slot1_not_operated :
    plainBoard.TableOk ∧ plainBoard.Target () (ascii "slot1") 1 ∧
      ¬ (OpensNamed plainBoard (.fresh packetSize ()) (ascii "slot1") ∧
        ErasesNamed plainBoard (image [] []) (.fresh packetSize ()) (ascii "slot1")) := by
  have htarget : plainBoard.Target () (ascii "slot1") 1 := by
    show (ascii "slot1", (1 : UInt8)) ∈ plainBoard.fixedPartitions
    decide
  refine ⟨plainBoard_tableOk, htarget, fun h => ?_⟩
  have hlog := (h.1.known 1 htarget).1
  exact absurd hlog (by decide)

end Sdkz.Hu
