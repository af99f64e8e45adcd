import TfsBroker.Fs2.Refinement

/-!
# The boxes of the broker (`mbroker/box.c`, `mbroker/mbroker.c`)

The broker keeps a table of boxes and stores the messages of each in a file of
`fs2/` that has the name of the box behind a `'/'`. The functions are given for
requests handled one at a time; there `none` stands for a call that does not return:
a lock that is held, an access outside the data area, an assertion of `fs2/`, or a
buffer that is written beyond its end.

Names and messages are copied at their string meaning. `box_initialize` puts the
`'/'` and the name together in an array one byte too small for the terminator.
-/

namespace TfsBroker.Mbroker

open Fs2

/-- `BOX_COUNT_MAX`. -/
def boxCountMax : ℕ := 1024

/-- `BOX_NAME_LENGTH`, the size of the name array of a box. -/
def boxNameLength : ℕ := 32

/-- `MESSAGE_LENGTH`, the size of the message array of a request and of the buffer of
a subscriber. -/
def messageLength : ℕ := 1024

/-- `box_allocation_state_t`. -/
inductive BoxAllocationState
  | USED
  | NOT_USED
  deriving DecidableEq, Repr

/-- `box_t`; `mutex` tells whether its mutex is held. Who waits on its condition is
known to the waiting threads. -/
structure Box where
  name : CString
  nPublishers : ℕ
  nSubscribers : ℕ
  size : ℕ
  mutex : Bool
  allocState : BoxAllocationState
  deriving DecidableEq

/-- The static variables of `mbroker.c`, and the file system. -/
structure Broker where
  mbrokerBoxes : ℕ → Box
  boxCount : ℤ
  tfs : State

/-- Assign to `mbroker_boxes[i]`. -/
def Broker.setBox (m : Broker) (i : ℕ) (box : Box) : Broker :=
  { m with mbrokerBoxes := Function.update m.mbrokerBoxes i box }

/-- The parameters of `init_mbroker`. -/
def mbrokerParams : TfsParams where
  maxInodeCount := boxCountMax
  maxBlockCount := tfsDefaultParams.maxBlockCount
  maxOpenFilesCount := tfsDefaultParams.maxOpenFilesCount
  blockSize := tfsDefaultParams.blockSize

/-- `init_mbroker`, on the memory that `malloc` gave for the boxes and for the file
system. -/
def initMbroker (boxes : ℕ → Box) (heap : Heap) : Option Broker :=
  match tfsInit heap mbrokerParams with
  | .ret (true, tfs) =>
    some ⟨fun i => { boxes i with mutex := false, allocState := .NOT_USED }, 0, tfs⟩
  | _ => none

/-- The test of `get_box` on one box. -/
def isBox (box : Box) (name : CString) : Bool := box.allocState = .USED && box.name.tail = name

/-- `get_box`: the index of the box. -/
def getBox (boxes : ℕ → Box) (name : CString) : Option ℕ :=
  (List.range boxCountMax).find? fun i => isBox (boxes i) name

/-- The slot search of `create_box`. -/
def freeSlot (boxes : ℕ → Box) : Option ℕ :=
  (List.range boxCountMax).find? fun i => (boxes i).allocState = .NOT_USED

/-- The slot assignment of `create_box`. A box for which there is no slot is lost. -/
def enterBox (boxes : ℕ → Box) (newBox : Box) : ℕ → Box :=
  match freeSlot boxes with
  | some i => Function.update boxes i newBox
  | none => boxes

/-- The name with a `'/'` before it. -/
def slashed (name : CString) : CString :=
  ⟨47 :: name.bytes, by simpa using name.nul_free⟩

/-- `box_initialize`. -/
def boxInitialize (name : CString) : Option Box :=
  if (slashed name).strlen < boxNameLength then
    some ⟨slashed name, 0, 0, 0, false, .USED⟩
  else none

/-! ### Requests of managers -/

/-- `manager_response_t`. -/
structure ManagerResponse where
  opCode : ℕ
  retCode : ℤ
  errorMessage : String
  deriving DecidableEq

/-- `RESP_ERR_DUPLICATE_BOX`. -/
def respErrDuplicateBox : String := "Box already exists\n"

/-- `RESP_ERR_CREATE_BOX`. -/
def respErrCreateBox : String := "Couldn't create box\n"

/-- `RESP_ERR_UNKNOWN_BOX`. -/
def respErrUnknownBox : String := "Box doesn't exist\n"

/-- `RESP_ERR_DELETE_BOX`. -/
def respErrDeleteBox : String := "Couldn't delete box\n"

/-- `manager_response_set_error_msg`. -/
def ManagerResponse.setErrorMsg (resp : ManagerResponse) (msg : String) : ManagerResponse :=
  { resp with errorMessage := msg }

/-- `create_box`. The response for a failing `box_initialize` is never given:
`strcpy` does not fail. -/
def createBox (m : Broker) (resp : ManagerResponse) (name : CString) :
    Option (ℤ × ManagerResponse × Broker) :=
  match getBox m.mbrokerBoxes name with
  | some _ => some (-1, resp.setErrorMsg respErrDuplicateBox, m)
  | none =>
    (boxInitialize name).bind fun newBox =>
      (tfsOpen m.tfs (some newBox.name) tfsOCreat).toOption.bind fun (fd, tfs) =>
        (tfsClose tfs fd).toOption.map fun (_, tfs) =>
          if fd = -1 then (-1, resp.setErrorMsg respErrCreateBox, { m with tfs })
          else
            -- under `mbroker_boxes_lock`, which every holder gives back
            (0, resp, { m with tfs, mbrokerBoxes := enterBox m.mbrokerBoxes newBox })

/-- `delete_box`. When `tfs_unlink` fails it returns with the mutex held. -/
def deleteBox (m : Broker) (resp : ManagerResponse) (name : CString) :
    Option (ℤ × ManagerResponse × Broker) :=
  match getBox m.mbrokerBoxes name with
  | none => some (-1, resp.setErrorMsg respErrUnknownBox, m)
  | some i =>
    let box := m.mbrokerBoxes i
    if box.mutex then none
    else
      (tfsUnlink m.tfs (some box.name)).toOption.map fun (r, tfs) =>
        if r ≠ 0 then
          (-1, resp.setErrorMsg respErrDeleteBox, { m with tfs }.setBox i { box with mutex := true })
        else (0, resp, { m with tfs }.setBox i { box with allocState := .NOT_USED })

/-- `CREATE_BOX_OP`. -/
def createBoxOp : ℕ := 3

/-- `DELETE_BOX_OP`. -/
def deleteBoxOp : ℕ := 5

/-- `handle_manager` once the pipe of the client is open: the response it sends. -/
def handleManager (m : Broker) (opCode : ℕ) (boxName : CString) :
    Option (ManagerResponse × Broker) :=
  let resp : ManagerResponse := ⟨opCode + 1, 0, ""⟩
  if opCode = createBoxOp then
    (createBox m resp boxName).map fun (ret, resp, m) =>
      ({ resp with retCode := ret }, if ret = 0 then { m with boxCount := m.boxCount + 1 } else m)
  else if opCode = deleteBoxOp then
    (deleteBox m resp boxName).map fun (ret, resp, m) =>
      ({ resp with retCode := ret }, if ret = 0 then { m with boxCount := m.boxCount - 1 } else m)
  else some (resp, m)

/-! ### Messages -/

/-- `write_message`. The terminator is a write of its own. -/
def writeMessage (s : State) (fd : ℤ) (message : CString) : Outcome (ℤ × State) :=
  let len := message.strlen
  (tfsWrite s fd message.byteAt len).bind fun (ret, s) =>
    if ret ≠ len then .ret (-1, s)
    else
      (tfsWrite s fd (fun _ => 0) 1).bind fun (r, s) =>
        if r = -1 then .ret (-1, s) else .ret (ret, s)

/-- The loop of `read_message`: `buffer` are the bytes read so far, and `room` more
fit. -/
def readLoop (s : State) (fd : ℤ) (buffer : List UInt8) : ℕ → Outcome (ℤ × List UInt8 × State)
  | 0 =>
    (tfsRead s fd 1).bind fun (r, s) => if r.ret ≠ 1 then .ret (-1, buffer, s) else .fault
  | room + 1 =>
    (tfsRead s fd 1).bind fun (r, s) =>
      if r.ret ≠ 1 then .ret (-1, buffer, s)
      else
        let buffer := buffer ++ r.bytes
        if r.bytes = [0] then .ret (buffer.length, buffer, s) else readLoop s fd buffer room

/-- `read_message` into a buffer of `MESSAGE_LENGTH` bytes: its result, and the bytes
it put at the start of the buffer. -/
def readMessage (s : State) (fd : ℤ) : Outcome (ℤ × List UInt8 × State) :=
  readLoop s fd [] messageLength

/-- `handle_publisher` with the lock of its box, for one message: the result of
`write_message`, and the box and the file system it leaves. -/
def publish (s : State) (box : Box) (fd : ℤ) (message : CString) : Outcome (ℤ × Box × State) :=
  (writeMessage s fd message).bind fun (ret, s) =>
    if ret = -1 then .ret (ret, box, s)
    else .ret (ret, { box with size := (box.size + ret.toNat + 1) % sizeRange }, s)

/-! ### After `init_mbroker` -/

/-- The broker that `init_mbroker` leaves. -/
def initialBroker (boxes : ℕ → Box) (heap : Heap) : Broker :=
  ⟨fun i => { boxes i with mutex := false, allocState := .NOT_USED }, 0, initState heap mbrokerParams⟩

/-- `init_mbroker` succeeds. -/
theorem initMbroker_eq (boxes : ℕ → Box) (heap : Heap) :
    initMbroker boxes heap = some (initialBroker boxes heap) := by
  have hinit : tfsInit heap mbrokerParams = .ret (true, initState heap mbrokerParams) :=
    tfsInit_eq_ret.mpr ⟨by decide, by decide, rfl⟩
  unfold initMbroker initialBroker
  simp only [hinit]

/-- Memory that happens to hold zeros. -/
def Box.zeroed : Box := ⟨.empty, 0, 0, 0, false, .USED⟩

/-- A broker that was just started. -/
def Broker.fresh : Broker := initialBroker (fun _ => .zeroed) .zeroed

/-! ### The table of boxes -/

variable {m m' : Broker} {resp resp' : ManagerResponse} {name : CString} {boxes : ℕ → Box}
  {box : Box} {i : ℕ} {ret : ℤ}

theorem isBox_eq_true : isBox box name = true ↔ box.allocState = .USED ∧ box.name.tail = name := by
  simp [isBox]

theorem getBox_eq_none :
    getBox boxes name = none ↔ ∀ i < boxCountMax, isBox (boxes i) name = false := by
  simp only [getBox, List.find?_eq_none, List.mem_range, Bool.not_eq_true]

theorem getBox_eq_some (h : getBox boxes name = some i) :
    i < boxCountMax ∧ isBox (boxes i) name = true := by
  unfold getBox at h
  have hmem := List.mem_of_find?_eq_some h
  have hbox := List.find?_some h
  exact ⟨List.mem_range.mp hmem, hbox⟩

theorem freeSlot_eq_some (h : freeSlot boxes = some i) :
    i < boxCountMax ∧ (boxes i).allocState = .NOT_USED := by
  unfold freeSlot at h
  have hmem := List.mem_of_find?_eq_some h
  have hfree := List.find?_some h
  exact ⟨List.mem_range.mp hmem, of_decide_eq_true hfree⟩

theorem freeSlot_eq_none :
    freeSlot boxes = none ↔ ∀ i < boxCountMax, (boxes i).allocState = .USED := by
  have hstate : ∀ a : BoxAllocationState, a ≠ .NOT_USED ↔ a = .USED := by
    intro a
    cases a <;> simp
  simp only [freeSlot, List.find?_eq_none, List.mem_range, decide_eq_true_eq, hstate]

@[simp] theorem tail_slashed : (slashed name).tail = name := by cases name; rfl

theorem boxInitialize_eq_some (h : boxInitialize name = some box) :
    name.strlen + 1 < boxNameLength ∧ box = ⟨slashed name, 0, 0, 0, false, .USED⟩ := by
  unfold boxInitialize at h
  split at h
  · rename_i hlen
    exact ⟨hlen, (Option.some_inj.mp h).symm⟩
  · cases h

theorem enterBox_cases (boxes : ℕ → Box) (box : Box) (i : ℕ) :
    enterBox boxes box i = boxes i ∨ freeSlot boxes = some i ∧ enterBox boxes box i = box := by
  unfold enterBox
  cases freeSlot boxes with
  | none => exact .inl rfl
  | some j =>
    by_cases hij : i = j
    · subst hij
      exact .inr ⟨rfl, Function.update_self _ _ _⟩
    · exact .inl (Function.update_of_ne hij _ _)

/-- A box of a name that no other has is found in its slot. -/
theorem getBox_update (hnone : getBox boxes name = none) (hi : i < boxCountMax)
    (hbox : isBox box name = true) : getBox (Function.update boxes i box) name = some i := by
  have hall := getBox_eq_none.mp hnone
  unfold getBox
  rw [List.find?_range_eq_some]
  refine ⟨by rw [Function.update_self, hbox], List.mem_range.mpr hi, fun j hj => ?_⟩
  rw [Function.update_of_ne hj.ne, hall j (hj.trans hi)]
  rfl

/-- A new box is the only one of its name. -/
theorem getBox_enterBox (hnone : getBox boxes name = none)
    (h : getBox (enterBox boxes box) name = some i) :
    freeSlot boxes = some i ∧ enterBox boxes box i = box := by
  obtain ⟨hi, hname⟩ := getBox_eq_some h
  rcases enterBox_cases boxes box i with hold | hnew
  · rw [hold, getBox_eq_none.mp hnone i hi] at hname
    cases hname
  · exact hnew

/-- The ways `create_box` can go: there is a box of the name, or its file is opened and
closed, and the box gets a slot unless `tfs_open` failed. -/
theorem createBox_cases (h : createBox m resp name = some (ret, resp', m')) :
    ((∃ i, getBox m.mbrokerBoxes name = some i) ∧ ret = -1 ∧ m' = m) ∨
    ∃ box fd tfs r tfs', getBox m.mbrokerBoxes name = none ∧ boxInitialize name = some box ∧
      tfsOpen m.tfs (some box.name) tfsOCreat = .ret (fd, tfs) ∧
      tfsClose tfs fd = .ret (r, tfs') ∧
      ((fd = -1 ∧ ret = -1 ∧ m' = { m with tfs := tfs' }) ∨
        (fd ≠ -1 ∧ ret = 0 ∧
          m' = { m with tfs := tfs', mbrokerBoxes := enterBox m.mbrokerBoxes box })) := by
  unfold createBox at h
  cases hget : getBox m.mbrokerBoxes name with
  | some i =>
    rw [hget] at h
    obtain ⟨rfl, hrest⟩ := Prod.mk.inj (Option.some_inj.mp h)
    exact .inl ⟨⟨i, rfl⟩, rfl, (Prod.mk.inj hrest).2.symm⟩
  | none =>
    simp only [hget] at h
    obtain ⟨box, hbox, h⟩ := Option.bind_eq_some_iff.mp h
    obtain ⟨⟨fd, tfs⟩, hopen, h⟩ := Option.bind_eq_some_iff.mp h
    obtain ⟨⟨r, tfs'⟩, hclose, h⟩ := Option.map_eq_some_iff.mp h
    rw [Outcome.toOption_eq_some] at hopen hclose
    refine .inr ⟨box, fd, tfs, r, tfs', rfl, hbox, hopen, hclose, ?_⟩
    dsimp only at h
    split at h
    · rename_i hfd
      obtain ⟨rfl, hrest⟩ := Prod.mk.inj h
      exact .inl ⟨hfd, rfl, (Prod.mk.inj hrest).2.symm⟩
    · rename_i hfd
      obtain ⟨rfl, hrest⟩ := Prod.mk.inj h
      exact .inr ⟨hfd, rfl, (Prod.mk.inj hrest).2.symm⟩

end TfsBroker.Mbroker
