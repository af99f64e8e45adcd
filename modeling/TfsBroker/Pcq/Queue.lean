import TfsBroker.Lib.Memory
import TfsBroker.Lib.Runs

/-!
# The producer-consumer queue (`producer-consumer/pcqueue.c`)

`pcq_enqueue` and `pcq_dequeue` are the same sequence of lock, wait and unlock
operations on opposite sides of the queue, so a thread is described by its call
and the stage of that sequence it is at. Every stage is one step: an operation on
one of the five mutexes or two condition variables, the test of the wait loop, or
one of the three assignments under the locks. A sleeping thread may wake up at any
time (`Act.wake`), with or without a broadcast.

`put` and `taken` record the elements stored and read, in that order.
-/

namespace TfsBroker.Pcq

/-- A side of the queue, which names `pcq_pusher_condvar` and its lock and
`pcq_head_lock`, or `pcq_popper_condvar` and its lock and `pcq_tail_lock`. -/
inductive Side
  | pusher
  | popper
  deriving DecidableEq, Repr

/-- The side that a call on this side wakes up. -/
def Side.other : Side → Side
  | pusher => popper
  | popper => pusher

/-- A call of one of the two functions. -/
inductive Call (α : Type*)
  | pcqEnqueue (elem : α)
  | pcqDequeue
  deriving DecidableEq

/-- The condition variable a call waits on, with the locks that go with it. -/
def Call.side {α : Type*} : Call α → Side
  | pcqEnqueue _ => .pusher
  | pcqDequeue => .popper

/-- What a call does next. -/
inductive Stage
  /-- Lock the mutex of its condition variable: at the start, or in `cond_wait`
  after it was woken. -/
  | lockCondvar
  /-- Lock `pcq_current_size_lock`. -/
  | lockSize
  /-- Test whether it has to wait. -/
  | check
  /-- Unlock `pcq_current_size_lock`, before it waits. -/
  | unlockToWait
  /-- Call `cond_wait`: unlock the mutex and fall asleep in one step. -/
  | wait
  /-- Nothing; it is asleep on its condition variable. -/
  | asleep
  /-- Lock `pcq_head_lock` or `pcq_tail_lock`. -/
  | lockEnd
  /-- Change `pcq_current_size`. -/
  | count
  /-- Store or read the element. -/
  | cell
  /-- Move `pcq_head` or `pcq_tail` on. -/
  | advance
  | unlockEnd
  | unlockSize
  | unlockCondvar
  /-- Call `cond_broadcast` for the other side and return. -/
  | broadcast
  deriving DecidableEq, Repr

/-- Where a thread is. -/
inductive Pc (α : Type*)
  /-- Outside both functions. -/
  | idle
  | inCall (call : Call α) (stage : Stage)
  deriving DecidableEq

/-- `pc_queue_t` without its locks; `cells` is the number of pointers that
`pcq_buffer` has room for. -/
structure PcQueue (α : Type*) where
  pcqBuffer : ℕ → α
  cells : ℕ
  pcqCapacity : ℕ
  pcqCurrentSize : ℕ
  pcqHead : ℕ
  pcqTail : ℕ

/-- `pcq_create`; `malloc` is what the allocation of the buffer returned. The size
of that allocation is computed in a `size_t`. -/
def pcqCreate {α : Type*} (malloc : Option (ℕ → α)) (capacity : UInt64) : Option (PcQueue α) :=
  malloc.map fun buffer =>
    { pcqBuffer := buffer
      cells := 8 * capacity.toNat % sizeRange / 8
      pcqCapacity := capacity.toNat
      pcqCurrentSize := 0
      pcqHead := 0
      pcqTail := 0 }

namespace PcQueue

variable {α : Type*} (q : PcQueue α)

/-- The test of the wait loop of `side`. -/
def mustWait : Side → Prop
  | .pusher => q.pcqCurrentSize = q.pcqCapacity
  | .popper => q.pcqCurrentSize = 0

instance (side : Side) : Decidable (q.mustWait side) := by
  cases side <;> exact decEq _ _

/-- `pcq_current_size++` and `pcq_current_size--`, which wrap as a `size_t` does. -/
def count : Side → PcQueue α
  | .pusher => { q with pcqCurrentSize := (q.pcqCurrentSize + 1) % sizeRange }
  | .popper =>
    { q with
      pcqCurrentSize := if q.pcqCurrentSize = 0 then sizeRange - 1 else q.pcqCurrentSize - 1 }

/-- The index of the cell that a call on `side` accesses. -/
def index : Side → ℕ
  | .pusher => q.pcqHead
  | .popper => q.pcqTail

/-- `pcq_buffer[pcq_head] = elem`. -/
def store (elem : α) : PcQueue α :=
  { q with pcqBuffer := Function.update q.pcqBuffer q.pcqHead elem }

/-- `pcq_head = (pcq_head + 1) % pcq_capacity`, and the same for `pcq_tail`. -/
def advance : Side → PcQueue α
  | .pusher => { q with pcqHead := (q.pcqHead + 1) % sizeRange % q.pcqCapacity }
  | .popper => { q with pcqTail := (q.pcqTail + 1) % sizeRange % q.pcqCapacity }

variable {q} {side : Side}

@[simp] theorem count_capacity : (q.count side).pcqCapacity = q.pcqCapacity := by
  cases side <;> rfl

@[simp] theorem count_cells : (q.count side).cells = q.cells := by cases side <;> rfl

@[simp] theorem count_index {side' : Side} : (q.count side).index side' = q.index side' := by
  cases side <;> cases side' <;> rfl

@[simp] theorem mustWait_advance {side' : Side} :
    (q.advance side).mustWait side' ↔ q.mustWait side' := by
  cases side <;> cases side' <;> rfl

end PcQueue

/-- What a thread does: begin a call, do the next step of its call, or wake up. -/
inductive Act (α : Type*)
  | call (call : Call α)
  | step
  | wake

/-- The queue, its locks with the threads that hold them, and the threads. -/
structure Sys (T α : Type*) where
  queue : PcQueue α
  currentSizeLock : Option T
  endLock : Side → Option T
  condvarLock : Side → Option T
  pc : T → Pc α
  put : List α
  taken : List α

namespace Sys

variable {T α : Type*} [DecidableEq T] (σ : Sys T α) (t : T)

/-- The thread `t` goes on to `stage` of `call`. -/
def goto (call : Call α) (stage : Stage) : Sys T α :=
  { σ with pc := Function.update σ.pc t (.inCall call stage) }

/-- `cond_broadcast` on the condition variable of `side`. -/
def wakeAll (side : Side) : Sys T α :=
  { σ with
    pc := fun u =>
      match σ.pc u with
      | .inCall call .asleep =>
        if call.side = side then .inCall call .lockCondvar else .inCall call .asleep
      | pc => pc }

/-- The access to the cell, and what it adds to the histories. An access outside
the allocated buffer has no next step. -/
def access (call : Call α) : Option (Sys T α) :=
  if σ.queue.index call.side < σ.queue.cells then
    match call with
    | .pcqEnqueue elem => some { σ with queue := σ.queue.store elem, put := σ.put ++ [elem] }
    | .pcqDequeue => some { σ with taken := σ.taken ++ [σ.queue.pcqBuffer σ.queue.pcqTail] }
  else none

/-- One step of the thread `t` in `call`. Taking a mutex is enabled while nobody
holds it, and the modulo has no result for a capacity of 0. -/
def stepCall (call : Call α) : Stage → Option (Sys T α)
  | .lockCondvar =>
    if σ.condvarLock call.side = none then
      some { σ.goto t call .lockSize with
        condvarLock := Function.update σ.condvarLock call.side (some t) }
    else none
  | .lockSize =>
    if σ.currentSizeLock = none then some { σ.goto t call .check with currentSizeLock := some t }
    else none
  | .check =>
    some (σ.goto t call (if σ.queue.mustWait call.side then .unlockToWait else .lockEnd))
  | .unlockToWait => some { σ.goto t call .wait with currentSizeLock := none }
  | .wait =>
    some { σ.goto t call .asleep with
      condvarLock := Function.update σ.condvarLock call.side none }
  | .asleep => none
  | .lockEnd =>
    if σ.endLock call.side = none then
      some { σ.goto t call .count with endLock := Function.update σ.endLock call.side (some t) }
    else none
  | .count => some { σ.goto t call .cell with queue := σ.queue.count call.side }
  | .cell => (σ.access call).map fun σ => σ.goto t call .advance
  | .advance =>
    if σ.queue.pcqCapacity = 0 then none
    else some { σ.goto t call .unlockEnd with queue := σ.queue.advance call.side }
  | .unlockEnd =>
    some { σ.goto t call .unlockSize with endLock := Function.update σ.endLock call.side none }
  | .unlockSize => some { σ.goto t call .unlockCondvar with currentSizeLock := none }
  | .unlockCondvar =>
    some { σ.goto t call .broadcast with
      condvarLock := Function.update σ.condvarLock call.side none }
  | .broadcast =>
    some { σ.wakeAll call.side.other with
      pc := Function.update (σ.wakeAll call.side.other).pc t .idle }

/-- One step of the thread `e.1`. -/
def next (σ : Sys T α) (e : T × Act α) : Option (Sys T α) :=
  match σ.pc e.1, e.2 with
  | .idle, .call call => some (σ.goto e.1 call .lockCondvar)
  | .inCall call .asleep, .wake => some (σ.goto e.1 call .lockCondvar)
  | .inCall call stage, .step => σ.stepCall e.1 call stage
  | _, _ => none

omit [DecidableEq T] in
/-- After a successful `pcq_create`, before any call. -/
def Start (σ : Sys T α) : Prop :=
  (∃ malloc capacity, pcqCreate malloc capacity = some σ.queue) ∧ σ.currentSizeLock = none ∧
    (∀ side, σ.endLock side = none ∧ σ.condvarLock side = none) ∧ (∀ t, σ.pc t = .idle) ∧
    σ.put = [] ∧ σ.taken = []

end Sys

end TfsBroker.Pcq
