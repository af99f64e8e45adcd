import TfsBroker.Lib.Runs
import TfsBroker.Mbroker.Box

/-!
# The worker threads of the broker (`mbroker/mbroker.c`)

Every worker thread handles one registration request after the other. A step is one
call of the file system, one operation on a mutex or a condition variable, or one
access to the table of boxes; `get_box`, the slot assignment under
`mbroker_boxes_lock`, `write_message` and `read_message` are one step each, and so is
the exchange of a frame with a client. `handle_list` changes nothing, and is left out.

A thread keeps the index of its box where the source keeps a pointer to it. The
assignment of a new box to a slot overwrites the mutex of the slot, which is then
free. A broadcast wakes the threads that wait on the condition of that slot.
-/

namespace TfsBroker.Mbroker

open Fs2

/-- What `create_box` does next. -/
inductive CreatePc
  /-- Create the file: `get_box` found no box of the name. -/
  | absent
  /-- Close the file. -/
  | opened (fd : ℤ)
  /-- Look for a slot, and assign the box to it. -/
  | closed
  /-- Increment `box_count` and answer. -/
  | entered
  deriving DecidableEq, Repr

/-- What `delete_box` does next. -/
inductive DeletePc
  /-- Lock the box that `get_box` found. -/
  | found (i : ℕ)
  /-- Unlink the file. -/
  | locked (i : ℕ)
  /-- Set `alloc_state`. -/
  | unlinked (i : ℕ)
  /-- Unlock the box. -/
  | cleared (i : ℕ)
  /-- Broadcast. -/
  | unlocked (i : ℕ)
  /-- Decrement `box_count` and answer. -/
  | deleted
  deriving DecidableEq, Repr

/-- What `handle_publisher` does next. -/
inductive PublisherPc
  /-- Lock the box that `get_box` found. -/
  | found (i : ℕ)
  /-- Look at `n_publishers`. -/
  | locked (i : ℕ)
  /-- Open the file. -/
  | admitted (i : ℕ)
  /-- Unlock the box and end. -/
  | refused (i : ℕ)
  /-- Increment `n_publishers`. -/
  | opened (i : ℕ) (fd : ℤ)
  /-- Unlock the box. -/
  | counted (i : ℕ) (fd : ℤ)
  /-- Read a request from the pipe. -/
  | waiting (i : ℕ) (fd : ℤ)
  /-- Look at `alloc_state`. -/
  | received (i : ℕ) (fd : ℤ) (message : CString)
  /-- Lock the box. -/
  | checked (i : ℕ) (fd : ℤ) (message : CString)
  /-- Write the message. -/
  | writing (i : ℕ) (fd : ℤ) (message : CString)
  /-- Unlock the box and leave: the write failed. -/
  | failed (i : ℕ) (fd : ℤ)
  /-- Add to `size`. -/
  | written (i : ℕ) (fd ret : ℤ)
  /-- Unlock the box. -/
  | sized (i : ℕ) (fd : ℤ)
  /-- Broadcast. -/
  | unlocked (i : ℕ) (fd : ℤ)
  /-- Lock the box, to leave. -/
  | leaving (i : ℕ) (fd : ℤ)
  /-- Decrement `n_publishers`. -/
  | lockedToLeave (i : ℕ) (fd : ℤ)
  /-- Unlock the box. -/
  | uncounted (i : ℕ) (fd : ℤ)
  /-- Close the file and end. -/
  | left (fd : ℤ)
  deriving DecidableEq

/-- What `handle_subscriber` does next. -/
inductive SubscriberPc
  /-- Lock the box that `get_box` found. -/
  | found (i : ℕ)
  /-- Open the file. -/
  | locked (i : ℕ)
  /-- Unlock the box and end. -/
  | refused (i : ℕ)
  /-- Increment `n_subscribers`. -/
  | opened (i : ℕ) (fd : ℤ)
  /-- Unlock the box. -/
  | counted (i : ℕ) (fd : ℤ)
  /-- Lock the box. -/
  | looping (i : ℕ) (fd : ℤ) (totalRead : ℕ)
  /-- Compare `total_read` with `size`, and wait unless it is less. -/
  | looking (i : ℕ) (fd : ℤ) (totalRead : ℕ)
  /-- Nothing; it waits on the condition of the box. -/
  | asleep (i : ℕ) (fd : ℤ) (totalRead : ℕ)
  /-- Lock the box, in `cond_wait`. -/
  | woken (i : ℕ) (fd : ℤ) (totalRead : ℕ)
  /-- Read a message. -/
  | reading (i : ℕ) (fd : ℤ) (totalRead : ℕ)
  /-- Look at `alloc_state`. -/
  | read (i : ℕ) (fd : ℤ) (totalRead : ℕ) (ret : ℤ) (buffer : List UInt8)
  /-- Send the message. -/
  | sending (i : ℕ) (fd : ℤ) (totalRead : ℕ) (buffer : List UInt8)
  /-- Unlock the box. -/
  | sent (i : ℕ) (fd : ℤ) (totalRead : ℕ)
  /-- Decrement `n_subscribers`. -/
  | leaving (i : ℕ) (fd : ℤ)
  /-- Close the file. -/
  | uncounted (i : ℕ) (fd : ℤ)
  /-- Unlock the box and end. -/
  | left (i : ℕ)
  deriving DecidableEq

/-- Where a worker thread stands. -/
inductive Pc
  | idle
  | create (boxName : CString) (p : CreatePc)
  | delete (p : DeletePc)
  | publisher (p : PublisherPc)
  | subscriber (p : SubscriberPc)
  deriving DecidableEq

/-- What a worker thread gets from outside. -/
inductive Act
  /-- A registration request. -/
  | accept (opCode : ℕ) (boxName : CString)
  /-- A request of a publisher, or the end of its pipe. -/
  | receive (message : Option CString)
  /-- Whether a message could be sent to a subscriber. -/
  | send (ok : Bool)
  /-- Nothing. -/
  | go
  deriving DecidableEq

/-- What a step does beyond the broker and the thread itself. -/
inductive Output
  | none
  /-- The response to a manager. -/
  | respond (resp : ManagerResponse)
  /-- `cond_broadcast` on the condition of a slot. -/
  | broadcast (i : ℕ)
  /-- The message to a subscriber. -/
  | deliver (buffer : List UInt8)
  deriving DecidableEq

/-- What a step leaves. -/
structure Step where
  broker : Broker
  pc : Pc
  output : Output := .none

/-- `mutex_lock`, which waits while the mutex is held. -/
def Broker.lock (m : Broker) (i : ℕ) : Option Broker :=
  if (m.mbrokerBoxes i).mutex then none else some (m.setBox i { m.mbrokerBoxes i with mutex := true })

/-- `mutex_unlock`. -/
def Broker.unlock (m : Broker) (i : ℕ) : Broker :=
  m.setBox i { m.mbrokerBoxes i with mutex := false }

/-- `PUBLISHER_OP_CODE`, the request of `handle_publisher`. -/
def registerPublisherOp : ℕ := 1

/-- The request of `handle_subscriber`. -/
def registerSubscriberOp : ℕ := 2

/-- `requests_handler`, up to the end of `get_box`. -/
def accept (m : Broker) (opCode : ℕ) (boxName : CString) : Step :=
  if opCode = registerPublisherOp then
    match getBox m.mbrokerBoxes boxName with
    | none => ⟨m, .idle, .none⟩
    | some i => ⟨m, .publisher (.found i), .none⟩
  else if opCode = registerSubscriberOp then
    match getBox m.mbrokerBoxes boxName with
    | none => ⟨m, .idle, .none⟩
    | some i => ⟨m, .subscriber (.found i), .none⟩
  else if opCode = createBoxOp then
    match getBox m.mbrokerBoxes boxName with
    | none => ⟨m, .create boxName .absent, .none⟩
    | some _ => ⟨m, .idle, .respond ⟨createBoxOp + 1, -1, respErrDuplicateBox⟩⟩
  else if opCode = deleteBoxOp then
    match getBox m.mbrokerBoxes boxName with
    | none => ⟨m, .idle, .respond ⟨deleteBoxOp + 1, -1, respErrUnknownBox⟩⟩
    | some i => ⟨m, .delete (.found i), .none⟩
  else ⟨m, .idle, .none⟩

/-- One step of `create_box`, and of `handle_manager` after it. -/
def createStep (m : Broker) (boxName : CString) : CreatePc → Option Step
  | .absent =>
    (boxInitialize boxName).bind fun newBox =>
      (tfsOpen m.tfs (some newBox.name) tfsOCreat).toOption.map fun (fd, tfs) =>
        ⟨{ m with tfs }, .create boxName (.opened fd), .none⟩
  | .opened fd =>
    (tfsClose m.tfs fd).toOption.map fun (_, tfs) =>
      if fd = -1 then
        ⟨{ m with tfs }, .idle, .respond ⟨createBoxOp + 1, -1, respErrCreateBox⟩⟩
      else ⟨{ m with tfs }, .create boxName .closed, .none⟩
  | .closed =>
    (boxInitialize boxName).map fun newBox =>
      ⟨{ m with mbrokerBoxes := enterBox m.mbrokerBoxes newBox }, .create boxName .entered, .none⟩
  | .entered =>
    some ⟨{ m with boxCount := m.boxCount + 1 }, .idle, .respond ⟨createBoxOp + 1, 0, ""⟩⟩

/-- One step of `delete_box`, and of `handle_manager` after it. When `tfs_unlink` fails
the box stays locked. -/
def deleteStep (m : Broker) : DeletePc → Option Step
  | .found i => (m.lock i).map fun m => ⟨m, .delete (.locked i), .none⟩
  | .locked i =>
    (tfsUnlink m.tfs (some (m.mbrokerBoxes i).name)).toOption.map fun (r, tfs) =>
      if r ≠ 0 then ⟨{ m with tfs }, .idle, .respond ⟨deleteBoxOp + 1, -1, respErrDeleteBox⟩⟩
      else ⟨{ m with tfs }, .delete (.unlinked i), .none⟩
  | .unlinked i =>
    some ⟨m.setBox i { m.mbrokerBoxes i with allocState := .NOT_USED }, .delete (.cleared i), .none⟩
  | .cleared i => some ⟨m.unlock i, .delete (.unlocked i), .none⟩
  | .unlocked i => some ⟨m, .delete .deleted, .broadcast i⟩
  | .deleted =>
    some ⟨{ m with boxCount := m.boxCount - 1 }, .idle, .respond ⟨deleteBoxOp + 1, 0, ""⟩⟩

/-- One step of `handle_publisher` other than reading a request. -/
def publisherStep (m : Broker) : PublisherPc → Option Step
  | .found i => (m.lock i).map fun m => ⟨m, .publisher (.locked i), .none⟩
  | .locked i =>
    some ⟨m, .publisher (if (m.mbrokerBoxes i).nPublishers = 1 then .refused i else .admitted i),
      .none⟩
  | .admitted i =>
    (tfsOpen m.tfs (some (m.mbrokerBoxes i).name) tfsOAppend).toOption.map fun (fd, tfs) =>
      ⟨{ m with tfs }, .publisher (if fd = -1 then .refused i else .opened i fd), .none⟩
  | .refused i => some ⟨m.unlock i, .idle, .none⟩
  | .opened i fd =>
    let box := m.mbrokerBoxes i
    some ⟨m.setBox i { box with nPublishers := (box.nPublishers + 1) % sizeRange },
      .publisher (.counted i fd), .none⟩
  | .counted i fd => some ⟨m.unlock i, .publisher (.waiting i fd), .none⟩
  | .waiting _ _ => none
  | .received i fd message =>
    some ⟨m, .publisher (if (m.mbrokerBoxes i).allocState = .NOT_USED then .leaving i fd
      else .checked i fd message), .none⟩
  | .checked i fd message =>
    (m.lock i).map fun m => ⟨m, .publisher (.writing i fd message), .none⟩
  | .writing i fd message =>
    (writeMessage m.tfs fd message).toOption.map fun (ret, tfs) =>
      ⟨{ m with tfs }, .publisher (if ret = -1 then .failed i fd else .written i fd ret), .none⟩
  | .failed i fd => some ⟨m.unlock i, .publisher (.leaving i fd), .none⟩
  | .written i fd ret =>
    let box := m.mbrokerBoxes i
    some ⟨m.setBox i { box with size := (box.size + ret.toNat + 1) % sizeRange },
      .publisher (.sized i fd), .none⟩
  | .sized i fd => some ⟨m.unlock i, .publisher (.unlocked i fd), .none⟩
  | .unlocked i fd => some ⟨m, .publisher (.waiting i fd), .broadcast i⟩
  | .leaving i fd => (m.lock i).map fun m => ⟨m, .publisher (.lockedToLeave i fd), .none⟩
  | .lockedToLeave i fd =>
    let box := m.mbrokerBoxes i
    some ⟨m.setBox i { box with nPublishers := subSize box.nPublishers 1 },
      .publisher (.uncounted i fd), .none⟩
  | .uncounted i fd => some ⟨m.unlock i, .publisher (.left fd), .none⟩
  | .left fd => (tfsClose m.tfs fd).toOption.map fun (_, tfs) => ⟨{ m with tfs }, .idle, .none⟩

/-- One step of `handle_subscriber` other than sending a message. -/
def subscriberStep (m : Broker) : SubscriberPc → Option Step
  | .found i => (m.lock i).map fun m => ⟨m, .subscriber (.locked i), .none⟩
  | .locked i =>
    (tfsOpen m.tfs (some (m.mbrokerBoxes i).name) 0).toOption.map fun (fd, tfs) =>
      ⟨{ m with tfs }, .subscriber (if fd = -1 then .refused i else .opened i fd), .none⟩
  | .refused i => some ⟨m.unlock i, .idle, .none⟩
  | .opened i fd =>
    let box := m.mbrokerBoxes i
    some ⟨m.setBox i { box with nSubscribers := (box.nSubscribers + 1) % sizeRange },
      .subscriber (.counted i fd), .none⟩
  | .counted i fd => some ⟨m.unlock i, .subscriber (.looping i fd 0), .none⟩
  | .looping i fd totalRead =>
    (m.lock i).map fun m => ⟨m, .subscriber (.looking i fd totalRead), .none⟩
  | .looking i fd totalRead =>
    -- `cond_wait` unlocks the mutex and falls asleep in one step
    if (m.mbrokerBoxes i).size ≤ totalRead then
      some ⟨m.unlock i, .subscriber (.asleep i fd totalRead), .none⟩
    else some ⟨m, .subscriber (.reading i fd totalRead), .none⟩
  | .asleep _ _ _ => none
  | .woken i fd totalRead =>
    (m.lock i).map fun m => ⟨m, .subscriber (.reading i fd totalRead), .none⟩
  | .reading i fd totalRead =>
    (readMessage m.tfs fd).toOption.map fun (ret, buffer, tfs) =>
      ⟨{ m with tfs },
        .subscriber (if ret = -1 then .leaving i fd else .read i fd totalRead ret buffer), .none⟩
  | .read i fd totalRead ret buffer =>
    some ⟨m, .subscriber (if (m.mbrokerBoxes i).allocState = .NOT_USED then .leaving i fd
      else .sending i fd ((totalRead + ret.toNat) % sizeRange) buffer), .none⟩
  | .sending _ _ _ _ => none
  | .sent i fd totalRead => some ⟨m.unlock i, .subscriber (.looping i fd totalRead), .none⟩
  | .leaving i fd =>
    let box := m.mbrokerBoxes i
    some ⟨m.setBox i { box with nSubscribers := subSize box.nSubscribers 1 },
      .subscriber (.uncounted i fd), .none⟩
  | .uncounted i fd =>
    (tfsClose m.tfs fd).toOption.map fun (_, tfs) => ⟨{ m with tfs }, .subscriber (.left i), .none⟩
  | .left i => some ⟨m.unlock i, .idle, .none⟩

/-- One step of a worker thread, if it can take it. -/
def step (m : Broker) : Pc → Act → Option Step
  | .idle, .accept opCode boxName => some (accept m opCode boxName)
  | .create boxName p, .go => createStep m boxName p
  | .delete p, .go => deleteStep m p
  | .publisher (.waiting i fd), .receive message =>
    some ⟨m, .publisher (match message with
      | some message => .received i fd message
      | none => .leaving i fd), .none⟩
  | .publisher p, .go => publisherStep m p
  | .subscriber (.sending i fd totalRead buffer), .send ok =>
    some (if ok then ⟨m, .subscriber (.sent i fd totalRead), .deliver buffer⟩
      else ⟨m, .subscriber (.leaving i fd), .none⟩)
  | .subscriber p, .go => subscriberStep m p
  | _, _ => none

/-! ### All threads -/

/-- The broker with its `max_sessions` worker threads. -/
structure Sys where
  maxSessions : ℕ
  sessions_index : maxSessions ≤ intMax
  broker : Broker
  pc : ℕ → Pc

/-- One step of one thread. -/
structure Turn where
  thread : ℕ
  act : Act

/-- The threads after a broadcast on the condition of slot `i`. -/
def wake (pc : ℕ → Pc) (i : ℕ) : ℕ → Pc := fun t =>
  match pc t with
  | .subscriber (.asleep j fd totalRead) =>
    if j = i then .subscriber (.woken j fd totalRead) else .subscriber (.asleep j fd totalRead)
  | p => p

/-- The other threads after a step. -/
def Output.wakes (pc : ℕ → Pc) : Output → ℕ → Pc
  | broadcast i => wake pc i
  | none | respond _ | deliver _ => pc

/-- A step of the system. -/
def Sys.next (x : Sys) (e : Turn) : Option Sys :=
  if e.thread < x.maxSessions then
    (step x.broker (x.pc e.thread) e.act).map fun r =>
      { x with
        broker := r.broker
        pc := Function.update (r.output.wakes x.pc) e.thread r.pc }
  else none

/-- `init_mbroker` was called, and the worker threads wait for requests. -/
def Sys.Initial (x : Sys) : Prop :=
  (∃ boxes heap, initMbroker boxes heap = some x.broker) ∧ x.pc = fun _ => .idle

/-- A broadcast moves only threads that wait on the condition. -/
theorem Output.wakes_cases (o : Output) (pc : ℕ → Pc) (t : ℕ) : o.wakes pc t = pc t ∨
    ∃ i fd totalRead, pc t = .subscriber (.asleep i fd totalRead) ∧
      o.wakes pc t = .subscriber (.woken i fd totalRead) := by
  cases o with
  | broadcast j =>
    simp only [Output.wakes, wake]
    split
    · rename_i i fd totalRead hpc
      split
      · exact .inr ⟨i, fd, totalRead, hpc, rfl⟩
      · exact .inl hpc.symm
    · exact .inl rfl
  | none | respond | deliver => exact .inl rfl

/-- A step of the system is a step of one thread. -/
theorem Sys.next_eq_some {x y : Sys} {e : Turn} (h : x.next e = some y) :
    ∃ r, step x.broker (x.pc e.thread) e.act = some r ∧
      y.broker = r.broker ∧ y.pc e.thread = r.pc ∧
      (∀ t, t ≠ e.thread → y.pc t = r.output.wakes x.pc t) ∧
      e.thread < x.maxSessions ∧ y.maxSessions = x.maxSessions := by
  unfold Sys.next at h
  split at h
  · rename_i hlt
    obtain ⟨r, hstep, rfl⟩ := Option.map_eq_some_iff.mp h
    exact ⟨r, hstep, rfl, Function.update_self _ _ _, fun t ht => Function.update_of_ne ht _ _,
      hlt, rfl⟩
  · cases h

end TfsBroker.Mbroker
