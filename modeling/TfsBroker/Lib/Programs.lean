import Mathlib.Logic.Relation
import Mathlib.Logic.Function.Basic
import Mathlib.Order.Nat

/-!
# Threads that run programs with locks

A `Prog S L C α` takes and releases locks, changes the shared state in atomic
accesses, and ends by returning a value of `α` or by going on as another call
`c : C`. Threads run such programs: one step of a thread is one lock operation, one
access, or the beginning of a call. `held` records the locks a thread acquired and
has not released.

`WaitsFor t u` says that `t` cannot take the lock it is about to take, and that `u`
holds it. Locks that carry a rank and are only ever acquired in increasing order
exclude cycles of waiting threads, whatever the programs are.

## Main results

* `Sys.no_waiting_cycle` — ranked acquisition excludes cycles of waiting threads
-/

namespace TfsBroker.Programs

universe u

/-- A program over shared state `S`, locks `L` and calls `C`. -/
inductive Prog (S L C α : Type u) : Type u
  /-- Return. -/
  | ret (a : α)
  /-- Take the lock `l`, for writing or for reading. -/
  | lock (l : L) (write : Bool) (next : Prog S L C α)
  /-- Release the lock `l`. -/
  | unlock (l : L) (next : Prog S L C α)
  /-- Read and change the shared state; what comes next depends on what was read. -/
  | access (upd : S → S) (next : S → Prog S L C α)
  /-- Go on as the call `c`. -/
  | jump (c : C)
  /-- The process has stopped. -/
  | stop

namespace Prog

variable {S L C α β : Type u}

/-- Go on with the result of a program. -/
protected def bind : Prog S L C α → (α → Prog S L C β) → Prog S L C β
  | ret a, f => f a
  | lock l w p, f => lock l w (p.bind f)
  | unlock l p, f => unlock l (p.bind f)
  | access upd p, f => access upd fun s => (p s).bind f
  | jump c, _ => jump c
  | stop, _ => stop

instance : Monad (Prog S L C) where
  pure := ret
  bind := Prog.bind

/-- Take a lock for writing. -/
def wrlock (l : L) : Prog S L C PUnit := lock l true (ret ⟨⟩)

/-- Take a lock for reading. -/
def rdlock (l : L) : Prog S L C PUnit := lock l false (ret ⟨⟩)

/-- Release a lock. -/
def release (l : L) : Prog S L C PUnit := unlock l (ret ⟨⟩)

/-- Read from the shared state. -/
def read (f : S → α) : Prog S L C α := access id fun s => ret (f s)

/-- Change the shared state. -/
def modify (f : S → S) : Prog S L C PUnit := access f fun _ => ret ⟨⟩

/-- Change the shared state and answer. -/
def update (f : S → α × S) : Prog S L C α := access (fun s => (f s).2) fun s => ret (f s).1

/-- The lock a program is about to take, and whether for writing. -/
def wants : Prog S L C α → Option (L × Bool)
  | lock l w _ => some (l, w)
  | _ => none

/-- The call has returned. -/
def Returned : Prog S L C α → Prop
  | ret _ => True
  | _ => False

end Prog

/-- What taking and releasing a lock does to the shared state; `none` while the
lock cannot be taken. -/
structure Locks (S L : Type u) where
  acquire : L → Bool → S → Option S
  free : L → S → S

/-- A thread: the call it is in, the program it still has to run and the locks it
holds. -/
structure Thread (S L C R : Type u) where
  call : Option C
  prog : Prog S L C R
  held : List L

/-- The shared state and the threads. -/
structure Sys (S L C R : Type u) (T : Type*) where
  shared : S
  thread : T → Thread S L C R

variable {S L C R : Type u} {T : Type*}

namespace Thread

variable [DecidableEq L] (K : Locks S L) (start : C → Prog S L C R)

/-- The next step of a thread in a call, if it can take one. -/
def step (th : Thread S L C R) (s : S) : Option (Thread S L C R × S) :=
  match th.prog with
  | .ret _ => none
  | .lock l w p => (K.acquire l w s).map fun s' => ({ th with prog := p, held := l :: th.held }, s')
  | .unlock l p => some ({ th with prog := p, held := th.held.erase l }, K.free l s)
  | .access upd p => some ({ th with prog := p s }, upd s)
  | .jump c => some ({ th with call := some c, prog := start c }, s)
  | .stop => none

/-- Begin the call `c`, outside any call. -/
def enter (th : Thread S L C R) (c : C) (s : S) : Option (Thread S L C R × S) :=
  match th.prog with
  | .ret _ => some ({ th with call := some c, prog := start c }, s)
  | _ => none

/-- The lock a thread is about to take ranks above those it holds. -/
def Ranked (rank : L → ℕ) (th : Thread S L C R) : Prop :=
  ∀ l w, th.prog.wants = some (l, w) → ∀ x ∈ th.held, rank x < rank l

end Thread

namespace Sys

variable [DecidableEq T] [DecidableEq L] (K : Locks S L) (start : C → Prog S L C R)

/-- One step of the thread `e.1`: it begins a call, or goes on with the one it is in. -/
def next (σ : Sys S L C R T) (e : T × Option C) : Option (Sys S L C R T) :=
  ((e.2.elim ((σ.thread e.1).step K start σ.shared)
    fun c => (σ.thread e.1).enter start c σ.shared)).map fun r =>
      ⟨r.2, Function.update σ.thread e.1 r.1⟩

/-- A step that takes a lock meets `promise`, which may read the call it is part of. -/
def Promised (promise : Option C → L → S → Prop) (σ : Sys S L C R T) (e : T × Option C) : Prop :=
  e.2 = none → ∀ l w, (σ.thread e.1).prog.wants = some (l, w) →
    promise (σ.thread e.1).call l σ.shared

end Sys

namespace Sys

variable {σ : Sys S L C R T} {K : Locks S L} {rank : L → ℕ} {t u : T}

/-- The thread `t` waits for a lock that `u` holds. -/
def WaitsFor (K : Locks S L) (σ : Sys S L C R T) (t u : T) : Prop :=
  ∃ l w, (σ.thread t).prog.wants = some (l, w) ∧ K.acquire l w σ.shared = none ∧
    l ∈ (σ.thread u).held

/-- Along a chain of waiting threads the ranks of the locks rise. -/
theorem rank_le_of_waits (h : ∀ t, (σ.thread t).Ranked rank)
    (hwaits : Relation.TransGen (WaitsFor K σ) t u) :
    ∃ l w, (σ.thread t).prog.wants = some (l, w) ∧ ∃ x ∈ (σ.thread u).held, rank l ≤ rank x := by
  induction hwaits with
  | single hwait =>
    obtain ⟨l, w, hwants, -, hheld⟩ := hwait
    exact ⟨l, w, hwants, l, hheld, le_rfl⟩
  | tail _ hwait ih =>
    obtain ⟨l, w, hl, x, hx, hle⟩ := ih
    obtain ⟨y, w', hwants, -, hheld⟩ := hwait
    have hlt : rank x < rank y := h _ y w' hwants x hx
    exact ⟨l, w, hl, y, hheld, hle.trans hlt.le⟩

/-- Threads that acquire locks in the order of their ranks never wait for one another
in a cycle. -/
theorem no_waiting_cycle (h : ∀ t, (σ.thread t).Ranked rank) (t : T) :
    ¬ Relation.TransGen (WaitsFor K σ) t t := by
  intro hwaits
  obtain ⟨l, w, hl, x, hx, hle⟩ := rank_le_of_waits h hwaits
  exact absurd (h t l w hl x hx) (not_lt.mpr hle)

end Sys

end TfsBroker.Programs
