import TfsBroker.Lib.Runs
import TfsBroker.Fs2.Names
import TfsBroker.Mbroker.Box

/-!
# The boxes as a bounded set of names

Requests of managers are handled one after the other, and no session has a box open.
The table of boxes, their number and the directory of the file system then tell the
same set of names. The directory takes fewer names than there are slots for boxes, so
that a box whose file was created always gets a slot.

## Main results

* `Represents.create`, `Represents.delete` — one request
* `boxes_refine_names` — all requests after `init_mbroker`
-/

namespace TfsBroker.Mbroker

open Fs2 State Tables Runs

variable {m m' : Broker} {boxes : ℕ → Box} {box : Box} {S : Finset CString} {n : CString} {i : ℕ}

/-- A name of 1 to 30 bytes. -/
structure BoxName where
  name : CString
  pos : 0 < name.strlen
  le : name.strlen ≤ 30

/-- Requests of managers. -/
inductive Request
  | create (n : BoxName)
  | delete (n : BoxName)

/-- The `op_code` of the request. -/
def Request.opCode : Request → ℕ
  | create _ => createBoxOp
  | delete _ => deleteBoxOp

/-- The `box_name` of the request. -/
def Request.boxName : Request → CString
  | create n | delete n => n.name

/-- The names that were created and not deleted since, after one more answer. -/
def ledger (S : Finset CString) (r : Request) (resp : ManagerResponse) : Finset CString :=
  if resp.retCode = 0 then
    match r with
    | .create n => insert n.name S
    | .delete n => S.erase n.name
  else S

/-- One request: what `handle_manager` leaves, and the names after its answer. -/
def serve (x : Broker × Finset CString) (r : Request) : Option (Broker × Finset CString) :=
  (handleManager x.1 r.opCode r.boxName).map fun (resp, m) => (m, ledger x.2 r resp)

/-- `init_mbroker` was called. -/
def Started (x : Broker × Finset CString) : Prop :=
  (∃ boxes heap, initMbroker boxes heap = some x.1) ∧ x.2 = ∅

/-- `get_box`, the number of boxes and the directory tell the names in `S`. -/
structure TellsNames (m : Broker) (S : Finset CString) : Prop where
  getBox_iff : ∀ n, getBox m.mbrokerBoxes n ≠ none ↔ n ∈ S
  boxCount_eq : m.boxCount = S.card
  live : ∀ i < m.tfs.maxDirEntries, Directory.Live m.tfs.fsData 0 i →
    ∃ n ∈ S, Directory.Names m.tfs.fsData 0 i n
  entry : ∀ n ∈ S, ∃! i, i < m.tfs.maxDirEntries ∧ Directory.Names m.tfs.fsData 0 i n

/-- A request to create `n` is answered 0 exactly if `n` is new and the directory has
room. The slot search then finds a slot for the box, which is empty. -/
def AnswersCreate (m : Broker) (S : Finset CString) (n : CString) : Prop :=
  ∃ resp m', handleManager m createBoxOp n = some (resp, m') ∧
    (resp.retCode = 0 ↔ n ∉ S ∧ S.card < m.tfs.blockSize / dirEntrySize) ∧
    (resp.retCode = 0 → ∃ i k : ℕ, freeSlot m.mbrokerBoxes = some i ∧
      getBox m'.mbrokerBoxes n = some i ∧ (m'.mbrokerBoxes i).size = 0 ∧
      tfsLookup m'.tfs (some (m'.mbrokerBoxes i).name) rootDirInum = .ret k ∧
      (m'.tfs.inodeTable k).iSize = 0)

/-- A request to delete `n` is answered 0 exactly if `n` has a box. -/
def AnswersDelete (m : Broker) (S : Finset CString) (n : CString) : Prop :=
  ∃ resp m', handleManager m deleteBoxOp n = some (resp, m') ∧ (resp.retCode = 0 ↔ n ∈ S)

/-! ### The table of boxes -/

/-- The slots of the boxes hold the names in `S`. -/
abbrev BoxNames (boxes : ℕ → Box) (S : Finset CString) : Prop :=
  Tabulates (fun i n => isBox (boxes i) n = true) boxCountMax S

theorem getBox_eq_none_iff (h : BoxNames boxes S) : getBox boxes n = none ↔ n ∉ S := by
  simp only [h.mem_iff, getBox_eq_none, not_exists, not_and, Bool.not_eq_true]

/-- A slot that holds no box of any name is not in use. -/
theorem exists_freeSlot (h : BoxNames boxes S) (hcard : S.card < boxCountMax) :
    ∃ i, freeSlot boxes = some i := by
  rw [← Option.ne_none_iff_exists']
  intro hfull
  obtain ⟨i, hi, hnone⟩ := h.exists_empty hcard
  exact hnone (boxes i).name.tail (isBox_eq_true.mpr ⟨freeSlot_eq_none.mp hfull i hi, rfl⟩)

/-- A new box in a free slot. -/
theorem slots_enter (h : BoxNames boxes S) (hi : freeSlot boxes = some i) (hn : n ∉ S) :
    BoxNames (Function.update boxes i ⟨slashed n, 0, 0, 0, false, .USED⟩) (insert n S) := by
  obtain ⟨hlt, hfree⟩ := freeSlot_eq_some hi
  refine h.enter hlt (fun b hb => ?_) hn (fun b => ?_) fun j _ hji b => ?_
  · have hused := (isBox_eq_true.mp hb).1
    rw [hfree] at hused
    cases hused
  · rw [Function.update_self, isBox_eq_true]
    simp [eq_comm]
  · rw [Function.update_of_ne hji]

/-- A box leaves its slot. -/
theorem slots_clear (h : BoxNames boxes S) (hi : getBox boxes n = some i) :
    BoxNames (Function.update boxes i { boxes i with allocState := .NOT_USED }) (S.erase n) := by
  obtain ⟨hlt, hbox⟩ := getBox_eq_some hi
  refine h.clear hlt hbox (fun b => ?_) fun j _ hji b => ?_
  · simp [isBox]
  · rw [Function.update_of_ne hji]

/-- The boxes in use are those of the names in `S`, and none of them is locked. -/
structure Catalogued (boxes : ℕ → Box) (S : Finset CString) : Prop where
  slots : Tabulates (fun i n => isBox (boxes i) n = true) boxCountMax S
  used : ∀ i, (boxes i).allocState = .USED →
    (boxes i).name = slashed (boxes i).name.tail ∧ (boxes i).mutex = false

namespace Catalogued

theorem getBox_eq_none (h : Catalogued boxes S) : getBox boxes n = none ↔ n ∉ S :=
  getBox_eq_none_iff h.slots

/-- `get_box` finds the boxes of the names in `S`. -/
theorem getBox_ne_none (h : Catalogued boxes S) (n : CString) : getBox boxes n ≠ none ↔ n ∈ S := by
  rw [ne_eq, h.getBox_eq_none, not_not]

/-- A new box in a free slot. -/
theorem enter (h : Catalogued boxes S) (hi : freeSlot boxes = some i) (hn : n ∉ S) :
    Catalogued (Function.update boxes i ⟨slashed n, 0, 0, 0, false, .USED⟩) (insert n S) where
  slots := slots_enter h.slots hi hn
  used j hj := by
    by_cases hji : j = i
    · subst hji
      simp
    · rw [Function.update_of_ne hji] at hj ⊢
      exact h.used j hj

/-- A box leaves its slot. -/
theorem clear (h : Catalogued boxes S) (hi : getBox boxes n = some i) :
    Catalogued (Function.update boxes i { boxes i with allocState := .NOT_USED }) (S.erase n) where
  slots := slots_clear h.slots hi
  used j hj := by
    by_cases hji : j = i
    · subst hji
      rw [Function.update_self] at hj
      cases hj
    · rw [Function.update_of_ne hji] at hj ⊢
      exact h.used j hj

end Catalogued

/-! ### One request -/

/-- The broker holds the boxes of the names in `S`. -/
structure Represents (m : Broker) (S : Finset CString) : Prop where
  params : m.tfs.fsParams = mbrokerParams
  files : EmptyFiles m.tfs.toFs S
  boxes : Catalogued m.mbrokerBoxes S
  count : m.boxCount = S.card

/-- `MAX_DIR_ENTRIES`, with the parameters of `init_mbroker`. -/
theorem maxDirEntries_of_params (h : m.tfs.fsParams = mbrokerParams) :
    m.tfs.maxDirEntries = 23 := by
  rw [maxDirEntries, blockSize, h]
  rfl

namespace Represents

theorem maxDirEntries_eq (h : Represents m S) : m.tfs.maxDirEntries = 23 :=
  maxDirEntries_of_params h.params

theorem inodeTableSize_eq (h : Represents m S) : m.tfs.inodeTableSize = 1024 := by
  rw [inodeTableSize, h.params]
  rfl

theorem maxOpenFiles_eq (h : Represents m S) : m.tfs.maxOpenFiles = 16 := by
  rw [maxOpenFiles, h.params]
  rfl

/-- There are fewer names than slots for boxes. -/
theorem card_lt (h : Represents m S) : S.card < boxCountMax := by
  have hle : S.card ≤ m.tfs.maxDirEntries := h.files.entries.card_le
  rw [h.maxDirEntries_eq] at hle
  exact hle.trans_lt (by decide)

end Represents

theorem validPathname_slashed {n : CString} (h : 0 < n.strlen) :
    validPathname (some (slashed n)) = true := by
  have hpos : 1 < n.bytes.length + 1 := Nat.succ_lt_succ h
  simp only [TfsBroker.validPathname, slashed, CString.strlen, List.length_cons, Bool.and_eq_true,
    beq_iff_eq]
  exact ⟨decide_eq_true hpos, rfl⟩

theorem BoxName.validPathname (n : BoxName) : validPathname (some (slashed n.name)) = true :=
  validPathname_slashed n.pos

theorem BoxName.boxInitialize (n : BoxName) :
    boxInitialize n.name = some ⟨slashed n.name, 0, 0, 0, false, .USED⟩ := by
  have hfits : (slashed n.name).strlen < boxNameLength := Nat.succ_le_succ (Nat.succ_le_succ n.le)
  exact if_pos hfits

@[simp] theorem subName_slashed (n : CString) : subName (some (slashed n)) = n := tail_slashed

namespace Represents

variable {resp : ManagerResponse} {n : BoxName}

/-- `create_box` of a name that has a box. -/
theorem createBox_dup (h : Represents m S) (hn : n.name ∈ S) :
    createBox m resp n.name = some (-1, resp.setErrorMsg respErrDuplicateBox, m) := by
  obtain ⟨i, hi⟩ := Option.ne_none_iff_exists'.mp ((h.boxes.getBox_ne_none n.name).mpr hn)
  unfold createBox
  simp only [hi]

/-- `create_box` when the directory is full. -/
theorem createBox_full (h : Represents m S) (hn : n.name ∉ S) (hfull : S.card = m.tfs.maxDirEntries) :
    ∃ tfs, createBox m resp n.name =
        some (-1, resp.setErrorMsg respErrCreateBox, { m with tfs }) ∧
      Represents { m with tfs } S := by
  have hlen : n.name.strlen < maxFileName := n.le.trans_lt (by decide)
  obtain ⟨tfs, hopen, hfiles, hparams⟩ := h.files.tfsOpen_full n.validPathname
    (by rwa [subName_slashed]) (by rwa [subName_slashed])
    (by rw [h.maxDirEntries_eq, h.inodeTableSize_eq]; decide) hfull
  have hclose : tfsClose tfs (-1) = .ret (-1, tfs) := rfl
  refine ⟨tfs, ?_, hparams.trans h.params, hfiles, h.boxes, h.count⟩
  have hnone := h.boxes.getBox_eq_none.mpr hn
  unfold createBox
  simp only [hnone, n.boxInitialize, Option.bind_some, hopen, hclose, Outcome.toOption,
    Option.map_some]
  rw [if_pos trivial]

/-- `create_box` of a new name, for which there is room. The slot search finds a slot. -/
theorem createBox_new (h : Represents m S) (hn : n.name ∉ S) (hcard : S.card < m.tfs.maxDirEntries) :
    ∃ tfs i, freeSlot m.mbrokerBoxes = some i ∧
      createBox m resp n.name = some (0, resp, { m with
        tfs, mbrokerBoxes := Function.update m.mbrokerBoxes i
          ⟨slashed n.name, 0, 0, 0, false, .USED⟩ }) ∧
      Represents ⟨Function.update m.mbrokerBoxes i ⟨slashed n.name, 0, 0, 0, false, .USED⟩,
        m.boxCount + 1, tfs⟩ (insert n.name S) := by
  have hlen : n.name.strlen < maxFileName := n.le.trans_lt (by decide)
  obtain ⟨tfs, tfs', hopen, hclose, hfiles, hparams⟩ := h.files.tfsOpen_new n.validPathname
    (by rwa [subName_slashed]) (by rwa [subName_slashed])
    (by rw [h.maxDirEntries_eq, h.inodeTableSize_eq]; decide) hcard
    (by rw [h.maxOpenFiles_eq]; decide)
  rw [subName_slashed] at hfiles
  obtain ⟨i, hi⟩ := exists_freeSlot h.boxes.slots h.card_lt
  refine ⟨tfs', i, hi, ?_, hparams.trans h.params, hfiles, h.boxes.enter hi hn, ?_⟩
  · have hnone := h.boxes.getBox_eq_none.mpr hn
    unfold createBox enterBox
    simp only [hnone, n.boxInitialize, Option.bind_some, hopen, hclose, Outcome.toOption,
      Option.map_some, hi]
    rw [if_neg (by decide)]
  · rw [Finset.card_insert_of_notMem hn, h.count]
    rfl

/-- `delete_box` of a name that has no box. -/
theorem deleteBox_unknown (h : Represents m S) (hn : n.name ∉ S) :
    deleteBox m resp n.name = some (-1, resp.setErrorMsg respErrUnknownBox, m) := by
  unfold deleteBox
  simp only [h.boxes.getBox_eq_none.mpr hn]

/-- `delete_box` of a box. -/
theorem deleteBox_known (h : Represents m S) (hn : n.name ∈ S) :
    ∃ tfs i, deleteBox m resp n.name = some (0, resp, { m with
        tfs, mbrokerBoxes := Function.update m.mbrokerBoxes i
          { m.mbrokerBoxes i with allocState := .NOT_USED } }) ∧
      Represents ⟨Function.update m.mbrokerBoxes i
        { m.mbrokerBoxes i with allocState := .NOT_USED }, m.boxCount - 1, tfs⟩
        (S.erase n.name) := by
  obtain ⟨i, hi⟩ := Option.ne_none_iff_exists'.mp ((h.boxes.getBox_ne_none n.name).mpr hn)
  obtain ⟨hused, htail⟩ := isBox_eq_true.mp (getBox_eq_some hi).2
  obtain ⟨hname, hmutex⟩ := h.boxes.used i hused
  rw [htail] at hname
  obtain ⟨tfs, hunlink, hfiles, hparams⟩ := h.files.tfsUnlink n.validPathname
    (by rwa [subName_slashed])
  rw [subName_slashed] at hfiles
  refine ⟨tfs, i, ?_, hparams.trans h.params, hfiles, h.boxes.clear hi, ?_⟩
  · unfold deleteBox
    simp only [hi, hmutex, hname, hunlink, Outcome.toOption, Option.map_some]
    rw [if_neg (by decide), if_neg (by decide)]
    rfl
  · rw [Finset.card_erase_of_mem hn, h.count]
    have hpos : 0 < S.card := Finset.card_pos.mpr ⟨_, hn⟩
    dsimp only
    omega

/-- The answer to a request to create a box. -/
theorem create (h : Represents m S) (n : BoxName) : ∃ resp m',
    handleManager m createBoxOp n.name = some (resp, m') ∧
      Represents m' (ledger S (.create n) resp) ∧
      (resp.retCode = 0 ↔ n.name ∉ S ∧ S.card < m.tfs.blockSize / dirEntrySize) ∧
      (resp.retCode = 0 → ∃ i k : ℕ, freeSlot m.mbrokerBoxes = some i ∧
        getBox m'.mbrokerBoxes n.name = some i ∧ (m'.mbrokerBoxes i).size = 0 ∧
        tfsLookup m'.tfs (some (m'.mbrokerBoxes i).name) rootDirInum = .ret k ∧
        (m'.tfs.inodeTable k).iSize = 0) := by
  have hle : S.card ≤ m.tfs.maxDirEntries := h.files.entries.card_le
  have hneg : (-1 : ℤ) ≠ 0 := by decide
  by_cases hn : n.name ∈ S
  · -- a duplicate
    refine ⟨_, _, by rw [handleManager, if_pos rfl, h.createBox_dup hn]; rfl, ?_, ?_, ?_⟩
    · exact h
    · exact iff_of_false hneg fun hroom => hroom.1 hn
    · exact fun hret => absurd hret hneg
  rcases hle.lt_or_eq with hcard | hfull
  · obtain ⟨tfs, i, hi, hcreate, hnew⟩ := h.createBox_new hn hcard
    refine ⟨_, _, by rw [handleManager, if_pos rfl, hcreate]; rfl, hnew, ?_, fun _ => ?_⟩
    · exact iff_of_true rfl ⟨hn, hcard⟩
    · -- the new box and its file
      obtain ⟨k, hlookup, -, hempty⟩ := hnew.files.lookup n.validPathname
        (by rw [subName_slashed]; exact Finset.mem_insert_self _ _)
      have hbox : getBox (Function.update m.mbrokerBoxes i
          ⟨slashed n.name, 0, 0, 0, false, .USED⟩) n.name = some i := by
        refine getBox_update (h.boxes.getBox_eq_none.mpr hn) (freeSlot_eq_some hi).1 ?_
        exact isBox_eq_true.mpr ⟨rfl, tail_slashed⟩
      refine ⟨i, k, hi, hbox, ?_, ?_, hempty⟩
      · simp
      · simpa using hlookup
  · obtain ⟨tfs, hcreate, hsame⟩ := h.createBox_full hn hfull
    refine ⟨_, _, by rw [handleManager, if_pos rfl, hcreate]; rfl, hsame, ?_, ?_⟩
    · exact iff_of_false hneg fun hroom => hroom.2.ne hfull
    · exact fun hret => absurd hret hneg

/-- The answer to a request to delete a box. -/
theorem delete (h : Represents m S) (n : BoxName) : ∃ resp m',
    handleManager m deleteBoxOp n.name = some (resp, m') ∧
      Represents m' (ledger S (.delete n) resp) ∧ (resp.retCode = 0 ↔ n.name ∈ S) := by
  have hneg : (-1 : ℤ) ≠ 0 := by decide
  have hop : deleteBoxOp ≠ createBoxOp := by decide
  by_cases hn : n.name ∈ S
  · obtain ⟨tfs, i, hdelete, hless⟩ := h.deleteBox_known hn
    refine ⟨_, _, by rw [handleManager, if_neg hop, if_pos rfl, hdelete]; rfl, hless, ?_⟩
    exact iff_of_true rfl hn
  · refine ⟨_, _, by rw [handleManager, if_neg hop, if_pos rfl, h.deleteBox_unknown hn]; rfl, h, ?_⟩
    exact iff_of_false hneg hn

/-- Every request leaves the names right. -/
theorem serve {x y : Broker × Finset CString} {r : Request} (h : Represents x.1 x.2)
    (hserve : serve x r = some y) : Represents y.1 y.2 := by
  obtain ⟨⟨resp, m⟩, hreq, rfl⟩ := Option.map_eq_some_iff.mp hserve
  cases r with
  | create n =>
    obtain ⟨resp', m', hreq', hrep, -⟩ := h.create n
    obtain ⟨rfl, rfl⟩ := Prod.mk.inj (Option.some_inj.mp (hreq'.symm.trans hreq))
    exact hrep
  | delete n =>
    obtain ⟨resp', m', hreq', hrep, -⟩ := h.delete n
    obtain ⟨rfl, rfl⟩ := Prod.mk.inj (Option.some_inj.mp (hreq'.symm.trans hreq))
    exact hrep

end Represents

/-! ### Any number of requests -/

/-- `init_mbroker` leaves no boxes. -/
theorem Started.represents {x : Broker × Finset CString} (h : Started x) : Represents x.1 x.2 := by
  obtain ⟨⟨boxes, heap, hinit⟩, hempty⟩ := h
  rw [initMbroker_eq] at hinit
  rw [← Option.some_inj.mp hinit, hempty]
  refine ⟨rfl, EmptyFiles.init heap mbrokerParams (by decide) (by decide), ⟨.empty ?_, ?_⟩, rfl⟩
  · intro i _ n
    simp [initialBroker, isBox]
  · intro i hi
    cases hi

theorem represents_of_reachable {x : Broker × Finset CString} (h : Reachable serve Started x) :
    Represents x.1 x.2 :=
  h.invariant (I := fun x => Represents x.1 x.2) (fun _ hx => hx.represents)
    fun _ _ _ hx _ hserve => hx.serve hserve

/-- The table of boxes, their number and the directory tell the names that were created
and not deleted since, and the answers follow from these names. -/
theorem boxes_refine_names {m : Broker} {S : Finset CString}
    (h : Reachable serve Started (m, S)) :
    TellsNames m S ∧ ∀ n : BoxName, AnswersCreate m S n.name ∧ AnswersDelete m S n.name := by
  have hrep : Represents m S := represents_of_reachable h
  have hentries := hrep.files.entries
  refine ⟨⟨hrep.boxes.getBox_ne_none, hrep.count, fun i hi hlive => ?_, fun n hn => ?_⟩,
    fun n => ⟨?_, ?_⟩⟩
  · obtain ⟨n, hn⟩ := (live_iff_names hrep.files.toDirInv hi).mp hlive
    exact ⟨n, hentries.mem hi hn, hn⟩
  · obtain ⟨i, hi, hin⟩ := (hentries.mem_iff n).mp hn
    exact ⟨i, ⟨hi, hin⟩, fun j hj => hentries.slot_unique j hj.1 i hi n hj.2 hin⟩
  · obtain ⟨resp, m', hreq, -, hret, hnew⟩ := hrep.create n
    exact ⟨resp, m', hreq, hret, hnew⟩
  · obtain ⟨resp, m', hreq, -, hret⟩ := hrep.delete n
    exact ⟨resp, m', hreq, hret⟩

/-- The name `a`. -/
private def nameA : BoxName := ⟨⟨[97], by decide⟩, by decide, by decide⟩

/-- The name `b`. -/
private def nameB : BoxName := ⟨⟨[98], by decide⟩, by decide, by decide⟩

/-- Two boxes were created, and one of them was deleted. -/
theorem boxes_refine_names_one : ∃ m, Reachable serve Started (m, {⟨[98], by decide⟩}) ∧
    TellsNames m {⟨[98], by decide⟩} ∧ ∀ n : BoxName,
      AnswersCreate m {⟨[98], by decide⟩} n.name ∧ AnswersDelete m {⟨[98], by decide⟩} n.name := by
  have hstart : Started (.fresh, ∅) := ⟨⟨_, _, initMbroker_eq _ _⟩, rfl⟩
  obtain ⟨⟨m, S⟩, hreach, hS⟩ := exists_of_runList serve
    [.create nameA, .create nameB, .delete nameA] (fun x => decide (x.2 = {⟨[98], by decide⟩}))
    hstart (by decide +kernel)
  obtain rfl : S = {⟨[98], by decide⟩} := of_decide_eq_true hS
  exact ⟨m, hreach, boxes_refine_names hreach⟩

end TfsBroker.Mbroker
