import Mathlib.Logic.Equiv.Basic
import TfsBroker.Lib.Ownership
import TfsBroker.Pcq.Calls
import TfsBroker.Protocol.Requests

/-!
# How registrations come to the workers (`mbroker/mbroker.c`)

The main thread allocates a request, reads a registration into it and puts its address in the queue;
a worker takes the address, handles the request and frees it. The queue holds addresses, which
`malloc` gives again once they are free. Nevertheless every registration is handled from the memory
that it was read into: an allocated request belongs to the main thread, to the queue or to one
worker, except for those that the main thread has lost, when it read nothing or only a part.

## Main results

* `Inv.next` — what every step keeps
* `registrations_handed_over` — every run
-/

namespace TfsBroker.Intake

open Pcq Runs Ownership
open Protocol (registrationRequestSize)

/-! ### The system -/

/-- Where the main thread is in its loop, with its variable `req`. -/
inductive MainPc
  | allocating
  | reading (req : ℕ)
  | enqueueing (req : ℕ)
  | exited (req : ℕ)
  deriving DecidableEq

/-- Where a worker is in `worker_thread_fn`: in `pcq_dequeue`, which may have read its element, or in
`requests_handler`. -/
inductive WorkerPc
  | dequeueing (elem : Option ℕ)
  | handling (req : ℕ)
  deriving DecidableEq

/-- The queue, the requests in memory, and the threads. The main thread is the thread `none` of the
queue. Beside them stand the registrations that were read, the workers that took them, and the
requests that were lost, all in order. -/
structure Server where
  queue : Sys (Option ℕ) ℕ
  heap : ℕ → Option (List UInt8)
  main : MainPc
  worker : ℕ → WorkerPc
  requests : List (List UInt8)
  takers : List ℕ
  lost : List ℕ

/-- `malloc` gives the address `req`, where some bytes are; `read` stores some bytes or fails, and
`interrupt_var` is set or not when it is tested after it; a thread begins a call of the queue or goes
on with it; a worker ends its request. -/
inductive Event
  | malloc (req : ℕ) (bytes : List UInt8)
  | read (bytes : Option (List UInt8)) (interrupted : Bool)
  | dequeue (w : ℕ)
  | step (t : Option ℕ)
  | wake (t : Option ℕ)
  | free (w : ℕ)

namespace Server

/-- The bytes that are read are stored over the first ones of the request. -/
def fill (g : Server) (req : ℕ) (bytes : List UInt8) : Server :=
  { g with
    heap := Function.update g.heap req
      ((g.heap req).map fun old => bytes ++ old.drop bytes.length) }

/-- A worker after a step of its call of `pcq_dequeue`. -/
def dequeued (g : Server) (w : ℕ) : WorkerPc :=
  match g.queue.pc (some w), g.worker w with
  | .inCall _ .cell, _ => .dequeueing (some (g.queue.queue.pcqBuffer g.queue.queue.pcqTail))
  | .inCall _ .broadcast, .dequeueing (some req) => .handling req
  | _, pc => pc

/-- The workers that have taken a request, after a step of `w`. -/
def takes (g : Server) (w : ℕ) : List ℕ :=
  match g.queue.pc (some w) with
  | .inCall _ .cell => g.takers ++ [w]
  | _ => g.takers

/-- The loop of the main thread from the result of `read` on. -/
def readStep (g : Server) (req : ℕ) (bytes : Option (List UInt8)) (interrupted : Bool) :
    Option Server :=
  if bytes = some [] then some { g with main := .allocating, lost := req :: g.lost }
  else if bytes.map List.length ≠ some registrationRequestSize ∧ ¬ interrupted then
    some { g.fill req (bytes.getD []) with main := .allocating, lost := req :: g.lost }
  else if interrupted then some { g.fill req (bytes.getD []) with main := .exited req }
  else
    (g.queue.next (none, .call (.pcqEnqueue req))).map fun queue =>
      { g.fill req (bytes.getD []) with
        queue
        main := .enqueueing req
        requests := g.requests ++ [bytes.getD []] }

/-- What the event does while the process runs. -/
def act (g : Server) : Event → Option Server
  | .malloc req bytes =>
    if g.main = .allocating ∧ g.heap req = none ∧ bytes.length = registrationRequestSize then
      some { g with main := .reading req, heap := Function.update g.heap req (some bytes) }
    else none
  | .read bytes interrupted =>
    match g.main with
    | .reading req =>
      if (bytes.getD []).length ≤ registrationRequestSize then g.readStep req bytes interrupted
      else none
    | _ => none
  | .dequeue w =>
    if g.worker w = .dequeueing none then
      (g.queue.next (some w, .call .pcqDequeue)).map fun queue => { g with queue }
    else none
  | .step none =>
    (g.queue.next (none, .step)).map fun queue =>
      { g with queue, main := if queue.pc none = .idle then .allocating else g.main }
  | .step (some w) =>
    (g.queue.next (some w, .step)).map fun queue =>
      { g with queue, worker := Function.update g.worker w (g.dequeued w), takers := g.takes w }
  | .wake t => (g.queue.next (t, .wake)).map fun queue => { g with queue }
  | .free w =>
    match g.worker w with
    | .handling req =>
      some { g with
        heap := Function.update g.heap req none
        worker := Function.update g.worker w (.dequeueing none) }
    | .dequeueing _ => none

/-- One step. When the main thread has exited, the process has ended. -/
def next (g : Server) (e : Event) : Option Server :=
  match g.main with
  | .exited _ => none
  | _ => g.act e

/-- The broker has created its queue and its threads. -/
def Initial (g : Server) : Prop :=
  g.queue.Start ∧ (∀ b, g.heap b = none) ∧ g.main = .allocating ∧
    (∀ w, g.worker w = .dequeueing none) ∧ g.requests = [] ∧ g.takers = [] ∧ g.lost = []

end Server

/-! ### Who has a request -/

/-- The main thread, the queue at the index of the request among all that were put in, or a
worker. -/
inductive Holder
  | main
  | slot (i : ℕ)
  | worker (w : ℕ)
  deriving DecidableEq

/-- A thread in a call has stored or read its element. -/
def past : Pc ℕ → Bool
  | .idle => false
  | .inCall _ stage => stage.past

/-- The request of the main thread. It has given it away when `pcq_enqueue` has stored it. -/
def MainPc.own : MainPc → Pc ℕ → Option ℕ
  | .allocating, _ => none
  | .reading req, _ | .exited req, _ => some req
  | .enqueueing req, pc => if past pc then none else some req

/-- The request of a worker. -/
def WorkerPc.own : WorkerPc → Option ℕ
  | .dequeueing elem => elem
  | .handling req => some req

namespace Server

/-- The request that a holder has. -/
def own (g : Server) : Holder → Option ℕ
  | .main => g.main.own (g.queue.pc none)
  | .slot i => if g.queue.taken.length ≤ i then g.queue.put[i]? else none
  | .worker w => (g.worker w).own

/-- The address is that of a request that is allocated and not lost. -/
def InUse (g : Server) (b : ℕ) : Prop := g.heap b ≠ none ∧ b ∉ g.lost

/-- The last registration that `w` took is the number `i`. -/
def Took (g : Server) (w i : ℕ) : Prop :=
  g.takers[i]? = some w ∧ ∀ j, i < j → g.takers[j]? ≠ some w

/-- The registration that a holder has its request for, by its number. -/
def Has (g : Server) : Holder → ℕ → Prop
  | .main, i => i = g.queue.put.length
  | .slot j, i => i = j
  | .worker w, i => g.Took w i

end Server

/-- The registrations that the main thread has read and not put in the queue. -/
def MainPc.pending : MainPc → Pc ℕ → ℕ
  | .enqueueing _, pc => if past pc then 0 else 1
  | .allocating, _ | .reading _, _ | .exited _, _ => 0

/-- The main thread stands in the queue where its loop says. -/
def MainPc.At : MainPc → Pc ℕ → Prop
  | .enqueueing req, pc => ∃ stage, pc = .inCall (.pcqEnqueue req) stage
  | .allocating, pc | .reading _, pc | .exited _, pc => pc = .idle

/-- The same for a worker. -/
def WorkerPc.At : WorkerPc → Pc ℕ → Prop
  | .dequeueing none, pc => pc = .idle ∨ ∃ stage, pc = .inCall .pcqDequeue stage ∧ stage.past = false
  | .dequeueing (some _), pc => ∃ stage, pc = .inCall .pcqDequeue stage ∧ stage.past = true
  | .handling _, pc => pc = .idle

namespace Server

/-- Where the threads are. -/
structure Control (g : Server) : Prop where
  queue : g.queue.Inv
  main : g.main.At (g.queue.pc none)
  worker : ∀ w, (g.worker w).At (g.queue.pc (some w))

/-- Who has what. -/
structure Kept (g : Server) : Prop where
  owns : Owns g.own g.InUse
  noLeak : NoLeak g.own g.InUse
  lost : ∀ b ∈ g.lost, g.heap b ≠ none
  buffer : ∀ req, g.main = .reading req →
    ∃ old, g.heap req = some old ∧ old.length = registrationRequestSize
  takers : g.takers.length = g.queue.taken.length
  requests : g.requests.length = g.queue.put.length + g.main.pending (g.queue.pc none)
  registered : ∀ h b, g.own h = some b → (h = .main → ∃ req, g.main = .enqueueing req) →
    ∃ i, g.Has h i ∧ g.heap b = g.requests[i]?

/-- What every step keeps. -/
structure Inv (g : Server) : Prop where
  control : g.Control
  kept : g.Kept

end Server

/-! ### Threads that another one may have woken -/

/-- The thread is where it was, or was woken. -/
def Stays (pc pc' : Pc ℕ) : Prop :=
  pc' = pc ∨ ∃ call, pc = .inCall call .asleep ∧ pc' = .inCall call .lockCondvar

variable {pc pc' : Pc ℕ} {m : MainPc} {v : WorkerPc}

theorem Stays.past (h : Stays pc pc') : past pc' = past pc := by
  rcases h with rfl | ⟨call, rfl, rfl⟩ <;> rfl

theorem Stays.main_own (h : Stays pc pc') : m.own pc' = m.own pc := by
  cases m with
  | enqueueing req => simp only [MainPc.own, h.past]
  | allocating | reading _ | exited _ => rfl

theorem Stays.main_pending (h : Stays pc pc') : m.pending pc' = m.pending pc := by
  cases m with
  | enqueueing req => simp only [MainPc.pending, h.past]
  | allocating | reading _ | exited _ => rfl

theorem Stays.main_at (h : Stays pc pc') (hat : m.At pc) : m.At pc' := by
  rcases h with rfl | ⟨call, rfl, rfl⟩
  · exact hat
  · cases m with
    | enqueueing req =>
      obtain ⟨stage, hpc⟩ := hat
      cases hpc
      exact ⟨_, rfl⟩
    | allocating | reading _ | exited _ => cases hat

theorem Stays.worker_at (h : Stays pc pc') (hat : v.At pc) : v.At pc' := by
  rcases h with rfl | ⟨call, rfl, rfl⟩
  · exact hat
  · cases v with
    | dequeueing elem =>
      cases elem with
      | none =>
        rcases hat with hpc | ⟨stage, hpc, -⟩
        · cases hpc
        · cases hpc
          exact .inr ⟨_, rfl, rfl⟩
      | some req =>
        obtain ⟨stage, hpc, hpast⟩ := hat
        cases hpc
        cases hpast
    | handling req => cases hat

/-! ### What the steps do to the requests -/

namespace Server

variable {g g' : Server} {req w : ℕ} {bytes : List UInt8} {heap : ℕ → Option (List UInt8)}

/-- A step that leaves a request where it is leaves it with its holder. -/
theorem own_eq (hmain : g'.main.own (g'.queue.pc none) = g.main.own (g.queue.pc none))
    (hput : g'.queue.put = g.queue.put) (htaken : g'.queue.taken = g.queue.taken)
    (hworker : ∀ w, (g'.worker w).own = (g.worker w).own) : g'.own = g.own := by
  funext h
  cases h with
  | main => exact hmain
  | slot i => simp only [own, hput, htaken]
  | worker w => exact hworker w

/-- A step of a call that neither stores nor reads an element. -/
theorem Kept.quiet (h : g.Kept) (hown : g'.own = g.own) (hheap : g'.heap = g.heap)
    (hlost : g'.lost = g.lost) (hmain : g'.main = g.main ∨ g'.main = .allocating)
    (hput : g'.queue.put = g.queue.put) (htaken : g'.queue.taken = g.queue.taken)
    (hpending : g'.main.pending (g'.queue.pc none) = g.main.pending (g.queue.pc none))
    (hrequests : g'.requests = g.requests) (htakers : g'.takers = g.takers) : g'.Kept := by
  have huse : ∀ b, g'.InUse b ↔ g.InUse b := fun b => by simp only [InUse, hheap, hlost]
  have hchange : Change g.own g.InUse g'.own g'.InUse := .keep hown huse
  refine ⟨h.owns.change hchange, h.noLeak.change hchange, ?_, ?_, ?_, ?_, ?_⟩
  · rw [hlost, hheap]
    exact h.lost
  · intro req hreq
    rw [hheap]
    rcases hmain with hmain | hmain
    · exact h.buffer req (hmain.symm.trans hreq)
    · rw [hmain] at hreq
      cases hreq
  · rw [htakers, htaken]
    exact h.takers
  · rw [hrequests, hput, hpending]
    exact h.requests
  · intro a b hb ha
    rw [hown] at hb
    have ha' : a = .main → ∃ req, g.main = .enqueueing req := by
      intro heq
      obtain ⟨req, hreq⟩ := ha heq
      rcases hmain with hmain | hmain
      · exact ⟨req, hmain.symm.trans hreq⟩
      · rw [hmain] at hreq
        cases hreq
    obtain ⟨i, hi, hcontent⟩ := h.registered a b hb ha'
    rw [hheap, hrequests]
    refine ⟨i, ?_, hcontent⟩
    cases a <;> simpa only [Has, Took, hput, htakers] using hi

/-- The others have their registrations still, when only the memory of the main thread changes. -/
theorem Kept.registered_others (h : g.Kept) {a : Holder} {b : ℕ} (ha : a ≠ .main)
    (hb : g'.own a = some b) (hmain : ∀ a, g.own a = some req → a = .main)
    (hother : ∀ c, c ≠ req → g'.heap c = g.heap c) (hput : g'.queue.put = g.queue.put)
    (htaken : g'.queue.taken = g.queue.taken) (hworker : g'.worker = g.worker)
    (htakers : g'.takers = g.takers) (hrequests : g.requests <+: g'.requests) :
    ∃ i, g'.Has a i ∧ g'.heap b = g'.requests[i]? := by
  have hown : g.own a = some b := by
    cases a with
    | main => exact absurd rfl ha
    | slot i => simpa only [own, hput, htaken] using hb
    | worker w => simpa only [own, hworker] using hb
  obtain ⟨i, hi, hcontent⟩ := h.registered a b hown fun heq => absurd heq ha
  refine ⟨i, ?_, ?_⟩
  · cases a with
    | main => exact absurd rfl ha
    | slot j => exact hi
    | worker w => simpa only [Has, Took, htakers] using hi
  · have hne : b ≠ req := by
      rintro rfl
      exact ha (hmain a hown)
    obtain ⟨bytes, hbytes⟩ := Option.ne_none_iff_exists'.mp (hcontent ▸ (h.owns.backed a b hown).1)
    obtain ⟨hlt, -⟩ := List.getElem?_eq_some_iff.mp hbytes
    obtain ⟨later, hlater⟩ := hrequests
    rw [hother b hne, hcontent, ← hlater, List.getElem?_append_left hlt]

/-- `malloc` gives a request that nobody has. -/
theorem Kept.malloc (h : g.Kept) (hmain : g.main = .allocating) (hfree : g.heap req = none)
    (hlength : bytes.length = registrationRequestSize) :
    Kept { g with main := .reading req, heap := Function.update g.heap req (some bytes) } := by
  have hne : ∀ b, g.heap b ≠ none → b ≠ req := by
    rintro b hb rfl
    exact hb hfree
  have hchange : Change g.own g.InUse
      (own { g with main := .reading req, heap := Function.update g.heap req (some bytes) })
      (InUse { g with main := .reading req, heap := Function.update g.heap req (some bytes) }) := by
    refine .acquire .main req ?_ (fun huse => huse.1 hfree) rfl ?_ fun c => ?_
    · simp only [own, hmain, MainPc.own]
    · intro j hj
      cases j with
      | main => exact absurd rfl hj
      | slot i => rfl
      | worker w => rfl
    · simp only [InUse]
      by_cases hc : c = req
      · subst hc
        rw [Function.update_self]
        exact ⟨fun _ => .inl rfl, fun _ => ⟨by simp, fun hlost => h.lost c hlost hfree⟩⟩
      · rw [Function.update_of_ne hc]
        simp [hc]
  refine ⟨h.owns.change hchange, h.noLeak.change hchange, ?_, ?_, h.takers, ?_, ?_⟩
  · intro b hb
    dsimp only
    rw [Function.update_of_ne (hne b (h.lost b hb))]
    exact h.lost b hb
  · rintro _ ⟨⟩
    exact ⟨bytes, Function.update_self .., hlength⟩
  · have hrequests := h.requests
    rw [hmain] at hrequests
    exact hrequests
  · intro a b hb ha
    have hreading : a ≠ .main := by
      intro heq
      obtain ⟨_, hreq⟩ := ha heq
      cases hreq
    refine h.registered_others hreading hb (fun a ha => ?_)
      (fun c hc => Function.update_of_ne hc _ _) rfl rfl rfl rfl (List.prefix_refl _)
    exact absurd hfree (h.owns.backed a req ha).1

/-- What the main thread writes to the memory of its request, and does not hand over. -/
theorem Kept.lose (h : g.Kept) (hmain : g.main = .reading req) (hreq : heap req ≠ none)
    (hother : ∀ c, c ≠ req → heap c = g.heap c) :
    Kept { g with heap, main := .allocating, lost := req :: g.lost } := by
  have hown : g.own .main = some req := by simp only [own, hmain, MainPc.own]
  have hnone : ∀ c, heap c ≠ none ↔ g.heap c ≠ none := by
    intro c
    by_cases hc : c = req
    · subst hc
      exact iff_of_true hreq (h.owns.backed _ _ hown).1
    · rw [hother c hc]
  have hchange : Change g.own g.InUse
      (own { g with heap, main := .allocating, lost := req :: g.lost })
      (InUse { g with heap, main := .allocating, lost := req :: g.lost }) := by
    refine .release .main req hown rfl ?_ fun c => ?_
    · intro j hj
      cases j with
      | main => exact absurd rfl hj
      | slot i => rfl
      | worker w => rfl
    · simp only [InUse, hnone, List.mem_cons, not_or]
      tauto
  refine ⟨h.owns.change hchange, h.noLeak.change hchange, ?_, by simp, h.takers, ?_, ?_⟩
  · intro b hb
    rcases List.mem_cons.mp hb with rfl | hb
    · exact hreq
    · exact (hnone b).mpr (h.lost b hb)
  · have hrequests := h.requests
    rw [hmain] at hrequests
    exact hrequests
  · intro a b hb ha
    have hallocating : a ≠ .main := by
      intro heq
      obtain ⟨_, hreq⟩ := ha heq
      cases hreq
    exact h.registered_others hallocating hb (fun a ha => h.owns.exclusive _ _ req ha hown) hother
      rfl rfl rfl rfl (List.prefix_refl _)

/-- The main thread keeps its request when it goes on with it. -/
theorem Kept.keep (h : g.Kept) (hmain : g.main = .reading req) (hreq : heap req ≠ none)
    (hother : ∀ c, c ≠ req → heap c = g.heap c) (hheap : g'.heap = heap)
    (hown : g'.main.own (g'.queue.pc none) = some req) (hreading : ∀ r, g'.main ≠ .reading r)
    (hput : g'.queue.put = g.queue.put) (htaken : g'.queue.taken = g.queue.taken)
    (hworker : g'.worker = g.worker) (htakers : g'.takers = g.takers) (hlost : g'.lost = g.lost)
    (hrequests : g'.requests.length = g.queue.put.length + g'.main.pending (g'.queue.pc none))
    (hlater : g.requests <+: g'.requests)
    (hregistered : ∀ r, g'.main = .enqueueing r → heap req = g'.requests[g.queue.put.length]?) :
    g'.Kept := by
  have hold : g.own .main = some req := by simp only [own, hmain, MainPc.own]
  have hsame : g'.own = g.own := by
    refine own_eq ?_ hput htaken fun w => by rw [hworker]
    rw [hown]
    exact hold.symm
  have huse : ∀ b, g'.InUse b ↔ g.InUse b := by
    intro b
    simp only [InUse, hheap, hlost]
    by_cases hb : b = req
    · subst hb
      have := (h.owns.backed _ _ hold).1
      tauto
    · rw [hother b hb]
  have hchange : Change g.own g.InUse g'.own g'.InUse := .keep hsame huse
  refine ⟨h.owns.change hchange, h.noLeak.change hchange, ?_, ?_, ?_, ?_, ?_⟩
  · intro b hb
    rw [hlost] at hb
    by_cases hc : b = req
    · subst hc
      rwa [hheap]
    · rw [hheap, hother b hc]
      exact h.lost b hb
  · intro r hr
    exact absurd hr (hreading r)
  · rw [htakers, htaken]
    exact h.takers
  · rw [hput]
    exact hrequests
  · intro a b hb ha
    by_cases hmain' : a = .main
    · subst hmain'
      obtain ⟨r, hr⟩ := ha rfl
      obtain rfl : b = req := Option.some_inj.mp (hb.symm.trans hown)
      refine ⟨g'.queue.put.length, rfl, ?_⟩
      rw [hheap, hput]
      exact hregistered r hr
    · exact h.registered_others hmain' hb (fun a ha => h.owns.exclusive _ _ req ha hold)
        (fun c hc => by rw [hheap, hother c hc]) hput htaken hworker htakers hlater

/-- `pcq_enqueue` stores the request: the main thread hands it over to the queue. -/
theorem Kept.stores {τ : Sys (Option ℕ) ℕ} (h : g.Kept) (hmain : g.main = .enqueueing req)
    (hpast : past (g.queue.pc none) = false) (hpast' : past (τ.pc none) = true)
    (hle : g.queue.taken.length ≤ g.queue.put.length) (hput : τ.put = g.queue.put ++ [req])
    (htaken : τ.taken = g.queue.taken) : Kept { g with queue := τ } := by
  have hmine : g.own .main = some req := by
    simp only [own, hmain, MainPc.own, hpast, Bool.false_eq_true, if_false]
  have hgone : own { g with queue := τ } .main = none := by
    simp only [own, hmain, MainPc.own, hpast', if_true]
  have hslot : ∀ j, j ≠ g.queue.put.length → own { g with queue := τ } (.slot j) = g.own (.slot j) := by
    intro j hj
    simp only [own, hput, htaken]
    split
    · rcases Nat.lt_or_gt_of_ne hj with hlt | hgt
      · rw [List.getElem?_append_left hlt]
      · rw [List.getElem?_eq_none (by rw [List.length_append]; exact hgt),
          List.getElem?_eq_none hgt.le]
    · rfl
  have hswap : own { g with queue := τ } =
      g.own ∘ Equiv.swap .main (.slot g.queue.put.length) := by
    funext a
    cases a with
    | main =>
      rw [hgone, Function.comp_apply, Equiv.swap_apply_left]
      simp only [own, List.getElem?_eq_none le_rfl, ite_self]
    | slot j =>
      by_cases hj : j = g.queue.put.length
      · subst hj
        rw [Function.comp_apply, Equiv.swap_apply_right, hmine]
        simp only [own, hput, htaken, if_pos hle, List.getElem?_concat_length]
      · rw [Function.comp_apply, Equiv.swap_apply_of_ne_of_ne (by simp) (by simpa using hj)]
        exact hslot j hj
    | worker w => rw [Function.comp_apply, Equiv.swap_apply_of_ne_of_ne (by simp) (by simp)]; rfl
  have huse : ∀ b, InUse { g with queue := τ } b ↔ g.InUse b := fun b => Iff.rfl
  refine ⟨hswap ▸ h.owns.comp (Equiv.injective _) huse,
    hswap ▸ h.noLeak.comp (Equiv.surjective _) huse, h.lost, h.buffer, ?_, ?_, ?_⟩
  · dsimp only
    rw [htaken]
    exact h.takers
  · have hrequests := h.requests
    simp only [hmain, MainPc.pending, hpast, Bool.false_eq_true, if_false] at hrequests
    simp only [hmain, MainPc.pending, hpast', if_true, hput, List.length_append,
      List.length_singleton, hrequests]
  · intro a b hb _
    cases a with
    | main =>
      rw [hgone] at hb
      cases hb
    | slot j =>
      by_cases hj : j = g.queue.put.length
      · subst hj
        rw [hswap, Function.comp_apply, Equiv.swap_apply_right] at hb
        exact h.registered .main b hb fun _ => ⟨req, hmain⟩
      · exact h.registered (.slot j) b ((hslot j hj).symm.trans hb) (by simp)
    | worker w => exact h.registered (.worker w) b hb (by simp)

/-- `pcq_dequeue` reads a request: the queue hands it over to the worker. -/
theorem Kept.reads {τ : Sys (Option ℕ) ℕ} (h : g.Kept) (hworker : g.worker w = .dequeueing none)
    (hmain : g.main.own (τ.pc none) = g.main.own (g.queue.pc none))
    (hpending : g.main.pending (τ.pc none) = g.main.pending (g.queue.pc none))
    (hnext : g.queue.put[g.queue.taken.length]? = some req) (hput : τ.put = g.queue.put)
    (htaken : τ.taken = g.queue.taken ++ [req]) :
    Kept { g with
      queue := τ
      worker := Function.update g.worker w (.dequeueing (some req))
      takers := g.takers ++ [w] } := by
  set g' : Server := { g with
    queue := τ
    worker := Function.update g.worker w (.dequeueing (some req))
    takers := g.takers ++ [w] }
  have hmine : g'.own (.worker w) = some req := by
    simp only [own, g', Function.update_self, WorkerPc.own]
  have hothers : ∀ v, v ≠ w → g'.own (.worker v) = g.own (.worker v) := by
    intro v hv
    simp only [own, g', Function.update_of_ne hv]
  have hslot : ∀ j, j ≠ g.queue.taken.length → g'.own (.slot j) = g.own (.slot j) := by
    intro j hj
    have hiff : g.queue.taken.length + 1 ≤ j ↔ g.queue.taken.length ≤ j := by omega
    simp only [own, g', hput, htaken, List.length_append, List.length_singleton, hiff]
  have hswap : g'.own = g.own ∘ Equiv.swap (.worker w) (.slot g.queue.taken.length) := by
    funext a
    cases a with
    | main =>
      rw [Function.comp_apply, Equiv.swap_apply_of_ne_of_ne (by simp) (by simp)]
      exact hmain
    | slot j =>
      by_cases hj : j = g.queue.taken.length
      · subst hj
        rw [Function.comp_apply, Equiv.swap_apply_right]
        simp only [own, g', htaken, hworker, WorkerPc.own, List.length_append,
          List.length_singleton, Nat.not_succ_le_self, if_false]
      · rw [Function.comp_apply, Equiv.swap_apply_of_ne_of_ne (by simp) (by simpa using hj)]
        exact hslot j hj
    | worker v =>
      by_cases hv : v = w
      · subst hv
        rw [Function.comp_apply, Equiv.swap_apply_left, hmine]
        simp only [own, le_refl, if_true, hnext]
      · rw [Function.comp_apply, Equiv.swap_apply_of_ne_of_ne (by simpa using hv) (by simp)]
        exact hothers v hv
  have huse : ∀ b, g'.InUse b ↔ g.InUse b := fun b => Iff.rfl
  refine ⟨hswap ▸ h.owns.comp (Equiv.injective _) huse,
    hswap ▸ h.noLeak.comp (Equiv.surjective _) huse, h.lost, h.buffer, ?_, ?_, ?_⟩
  · simp only [g', htaken, List.length_append, List.length_singleton, h.takers]
  · simp only [g', hput, hpending]
    exact h.requests
  · intro a b hb ha
    cases a with
    | main =>
      obtain ⟨i, hi, hcontent⟩ := h.registered .main b (hmain.symm.trans hb) ha
      exact ⟨i, hi.trans (congrArg List.length hput).symm, hcontent⟩
    | slot j =>
      by_cases hj : j = g.queue.taken.length
      · subst hj
        simp only [own, g', htaken, List.length_append, List.length_singleton,
          Nat.not_succ_le_self, if_false] at hb
        cases hb
      · exact h.registered (.slot j) b ((hslot j hj).symm.trans hb) (by simp)
    | worker v =>
      by_cases hv : v = w
      · subst hv
        obtain rfl : req = b := Option.some_inj.mp (hmine.symm.trans hb)
        obtain ⟨i, rfl, hcontent⟩ := h.registered (.slot g.queue.taken.length) req
          (by simp only [own, le_refl, if_true, hnext]) (by simp)
        refine ⟨_, ⟨?_, fun j hj => ?_⟩, hcontent⟩
        · simp only [g', ← h.takers, List.getElem?_concat_length]
        · simp only [g']
          rw [List.getElem?_eq_none (by rw [List.length_append, h.takers]; exact hj)]
          simp
      · obtain ⟨i, ⟨hi, hlast⟩, hcontent⟩ :=
          h.registered (.worker v) b ((hothers v hv).symm.trans hb) (by simp)
        obtain ⟨hlt, -⟩ := List.getElem?_eq_some_iff.mp hi
        refine ⟨i, ⟨?_, fun j hj => ?_⟩, hcontent⟩
        · simp only [g', List.getElem?_append_left hlt, hi]
        · simp only [g', List.getElem?_append]
          split
          · exact hlast j hj
          · rw [List.getElem?_singleton]
            split
            · simpa using Ne.symm hv
            · simp

/-- A worker frees its request. -/
theorem Kept.frees (h : g.Kept) (hworker : g.worker w = .handling req) :
    Kept { g with
      heap := Function.update g.heap req none
      worker := Function.update g.worker w (.dequeueing none) } := by
  set g' : Server := { g with
    heap := Function.update g.heap req none
    worker := Function.update g.worker w (.dequeueing none) }
  have hmine : g.own (.worker w) = some req := by simp only [own, hworker, WorkerPc.own]
  have hgone : g'.own (.worker w) = none := by
    simp only [own, g', Function.update_self, WorkerPc.own]
  have hothers : ∀ a, a ≠ .worker w → g'.own a = g.own a := by
    intro a ha
    cases a with
    | main => rfl
    | slot j => rfl
    | worker v =>
      have hv : v ≠ w := by
        rintro rfl
        exact ha rfl
      simp only [own, g', Function.update_of_ne hv]
  have hchange : Change g.own g.InUse g'.own g'.InUse := by
    refine .release (.worker w) req hmine hgone hothers fun c => ?_
    simp only [InUse, g']
    by_cases hc : c = req
    · subst hc
      simp
    · rw [Function.update_of_ne hc]
      simp [hc]
  have hne : ∀ a b, a ≠ .worker w → g.own a = some b → b ≠ req := by
    rintro a b ha hb rfl
    exact ha (h.owns.exclusive _ _ b hb hmine)
  refine ⟨h.owns.change hchange, h.noLeak.change hchange, ?_, ?_, h.takers, h.requests, ?_⟩
  · intro b hb
    have hb' : b ≠ req := by
      rintro rfl
      exact (h.owns.backed _ _ hmine).2 hb
    simp only [g', Function.update_of_ne hb']
    exact h.lost b hb
  · intro r hr
    have hreading : g.main = .reading r := hr
    have hr' : r ≠ req := hne .main r (by simp) (by simp only [own, hreading, MainPc.own])
    simp only [g', Function.update_of_ne hr']
    exact h.buffer r hr
  · intro a b hb ha
    have haw : a ≠ .worker w := by
      rintro rfl
      rw [hgone] at hb
      cases hb
    rw [hothers a haw] at hb
    obtain ⟨i, hi, hcontent⟩ := h.registered a b hb ha
    refine ⟨i, ?_, ?_⟩
    · cases a <;> exact hi
    · simp only [g', Function.update_of_ne (hne a b haw hb)]
      exact hcontent

end Server

/-! ### Every step -/

namespace Server

variable {g g' : Server} {e : Event} {t : Option ℕ} {w : ℕ} {σ τ : Sys (Option ℕ) ℕ}

theorem stays_of_othersStay (h : Sys.OthersStay σ τ t) {u : Option ℕ} (hu : u ≠ t) :
    Stays (σ.pc u) (τ.pc u) :=
  h u hu

theorem stays_goto {call : Call ℕ} {stage : Stage} {u : Option ℕ} (hu : u ≠ t) :
    Stays (σ.pc u) ((σ.goto t call stage).pc u) :=
  .inl (Function.update_of_ne hu _ _)

/-- The main thread begins `pcq_enqueue`, or goes on with it. -/
theorem Control.main_step (h : g.Control) (hothers : Sys.OthersStay g.queue τ none) (hinv : τ.Inv)
    (hqueue : g'.queue = τ) (hworker : g'.worker = g.worker) (hmain : g'.main.At (τ.pc none)) :
    g'.Control := by
  refine ⟨hqueue ▸ hinv, hqueue ▸ hmain, fun v => ?_⟩
  rw [hqueue, hworker]
  exact (stays_of_othersStay hothers (by simp)).worker_at (h.worker v)

/-- A worker begins `pcq_dequeue`, or goes on with it. -/
theorem Control.worker_step (h : g.Control) (hothers : Sys.OthersStay g.queue τ (some w))
    (hinv : τ.Inv) (hqueue : g'.queue = τ) (hmain : g'.main = g.main)
    (hworker : ∀ v, v ≠ w → g'.worker v = g.worker v)
    (hat : (g'.worker w).At (τ.pc (some w))) : g'.Control := by
  refine ⟨hqueue ▸ hinv, ?_, fun v => ?_⟩
  · rw [hqueue, hmain]
    exact (stays_of_othersStay hothers (by simp)).main_at h.main
  · rw [hqueue]
    by_cases hv : v = w
    · subst hv
      exact hat
    · rw [hworker v hv]
      exact (stays_of_othersStay hothers (by simpa using hv)).worker_at (h.worker v)

theorem Inv.malloc {req : ℕ} {bytes : List UInt8} (h : g.Inv)
    (hstep : g.act (.malloc req bytes) = some g') : g'.Inv := by
  simp only [act] at hstep
  split at hstep
  · rename_i hguard
    obtain ⟨hmain, hfree, hlength⟩ := hguard
    obtain rfl := Option.some_inj.mp hstep
    have hat := h.control.main
    rw [hmain] at hat
    exact ⟨⟨h.control.queue, hat, h.control.worker⟩, h.kept.malloc hmain hfree hlength⟩
  · cases hstep

theorem Inv.read {bytes : Option (List UInt8)} {interrupted : Bool} (h : g.Inv)
    (hstep : g.act (.read bytes interrupted) = some g') : g'.Inv := by
  simp only [act] at hstep
  split at hstep
  case h_2 => cases hstep
  rename_i req hmain
  split at hstep
  case isFalse => cases hstep
  have hat := h.control.main
  rw [hmain] at hat
  obtain ⟨old, hold, hlength⟩ := h.kept.buffer req hmain
  have hfill : ∀ bytes, (g.fill req bytes).heap req ≠ none := by
    intro bytes
    simp only [fill, Function.update_self, hold]
    simp
  have hother : ∀ bytes c, c ≠ req → (g.fill req bytes).heap c = g.heap c := fun bytes c hc =>
    Function.update_of_ne hc _ _
  unfold readStep at hstep
  split at hstep
  · obtain rfl := Option.some_inj.mp hstep
    exact ⟨⟨h.control.queue, hat, h.control.worker⟩,
      h.kept.lose hmain (by simp [hold]) fun _ _ => rfl⟩
  split at hstep
  · obtain rfl := Option.some_inj.mp hstep
    exact ⟨⟨h.control.queue, hat, h.control.worker⟩, h.kept.lose hmain (hfill _) (hother _)⟩
  have hrequests := h.kept.requests
  rw [hmain] at hrequests
  split at hstep
  · obtain rfl := Option.some_inj.mp hstep
    exact ⟨⟨h.control.queue, hat, h.control.worker⟩,
      h.kept.keep hmain (hfill _) (hother _) rfl rfl (by simp) rfl rfl rfl rfl rfl hrequests
        (List.prefix_refl _) (by simp)⟩
  · rename_i hwhole hquiet
    obtain ⟨τ, hτ, rfl⟩ := Option.map_eq_some_iff.mp hstep
    obtain ⟨-, hqueue⟩ := Sys.of_next_call hτ
    have hpc : τ.pc none = .inCall (.pcqEnqueue req) .lockCondvar := Sys.pc_goto (by rw [hqueue])
    refine ⟨h.control.main_step (Sys.othersStay_goto (by rw [hqueue]))
      (h.control.queue.next hτ) rfl rfl ⟨_, hpc⟩, ?_⟩
    have hsize : (bytes.getD []).length = registrationRequestSize := by
      by_contra hne
      refine hwhole ⟨fun hsome => hne ?_, hquiet⟩
      obtain ⟨whole, rfl, hlen⟩ := Option.map_eq_some_iff.mp hsome
      exact hlen
    refine h.kept.keep hmain (hfill (bytes.getD [])) (hother _) rfl ?_ (by simp)
      (by rw [hqueue]; rfl) (by rw [hqueue]; rfl) rfl rfl rfl ?_ (List.prefix_append _ _) ?_
    · simp only [MainPc.own, hpc]
      rfl
    · simp only [MainPc.pending, hpc, List.length_append, List.length_singleton, hrequests]
      rfl
    · intro r _
      have hput : g.queue.put.length = g.requests.length := hrequests.symm
      simp only [fill, Function.update_self, hold, Option.map_some]
      rw [hput, List.getElem?_concat_length, List.drop_eq_nil_of_le (hlength.trans hsize.symm).le,
        List.append_nil]

theorem Inv.dequeue (h : g.Inv) (hstep : g.act (.dequeue w) = some g') : g'.Inv := by
  simp only [act] at hstep
  split at hstep
  · rename_i hworker
    obtain ⟨τ, hτ, rfl⟩ := Option.map_eq_some_iff.mp hstep
    obtain ⟨-, rfl⟩ := Sys.of_next_call hτ
    have hmain : Stays (g.queue.pc none) ((g.queue.goto (some w) .pcqDequeue .lockCondvar).pc none) :=
      stays_goto (by simp)
    refine ⟨h.control.worker_step (Sys.othersStay_goto rfl) (h.control.queue.next hτ) rfl rfl
      (fun _ _ => rfl) ?_, ?_⟩
    · dsimp only
      rw [hworker]
      exact .inr ⟨_, Sys.pc_goto rfl, rfl⟩
    · exact h.kept.quiet (own_eq hmain.main_own rfl rfl fun _ => rfl) rfl rfl (.inl rfl) rfl rfl
        hmain.main_pending rfl rfl
  · cases hstep

theorem Inv.wake (h : g.Inv) (hstep : g.act (.wake t) = some g') : g'.Inv := by
  obtain ⟨τ, hτ, rfl⟩ := Option.map_eq_some_iff.mp hstep
  obtain ⟨call, hasleep, rfl⟩ := Sys.of_next_wake hτ
  have hstays : ∀ u, Stays (g.queue.pc u) ((g.queue.goto t call .lockCondvar).pc u) := by
    intro u
    by_cases hu : u = t
    · subst hu
      exact .inr ⟨call, hasleep, Sys.pc_goto rfl⟩
    · exact stays_goto hu
  refine ⟨⟨h.control.queue.next hτ, (hstays _).main_at h.control.main,
    fun v => (hstays _).worker_at (h.control.worker v)⟩, ?_⟩
  exact h.kept.quiet (own_eq (hstays _).main_own rfl rfl fun _ => rfl) rfl rfl (.inl rfl) rfl rfl
    (hstays _).main_pending rfl rfl

theorem Inv.free (h : g.Inv) (hstep : g.act (.free w) = some g') : g'.Inv := by
  simp only [act] at hstep
  split at hstep
  · rename_i req hworker
    obtain rfl := Option.some_inj.mp hstep
    have hidle := h.control.worker w
    rw [hworker] at hidle
    refine ⟨⟨h.control.queue, h.control.main, fun v => ?_⟩, h.kept.frees hworker⟩
    by_cases hv : v = w
    · subst hv
      dsimp only
      rw [Function.update_self]
      exact .inl hidle
    · dsimp only
      rw [Function.update_of_ne hv]
      exact h.control.worker v
  · cases hstep

theorem Inv.mainStep (h : g.Inv) (hstep : g.act (.step none) = some g') : g'.Inv := by
  obtain ⟨τ, hτ, rfl⟩ := Option.map_eq_some_iff.mp hstep
  obtain ⟨call, stage, hpc, hcall⟩ := Sys.of_next_step hτ
  obtain ⟨hothers, haccess⟩ := Sys.step_access hcall
  have hinv := h.control.queue.next hτ
  have hat := h.control.main
  cases hmain : g.main with
  | allocating | reading _ | exited _ =>
    rw [hmain, hpc] at hat
    cases hat
  | enqueueing req =>
    rw [hmain, hpc] at hat
    obtain ⟨_, hat⟩ := hat
    cases hat
    cases haccess with
    | goes stage' hpc' hpast _ _ hput htaken =>
      have hsame : past (τ.pc none) = past (g.queue.pc none) := by
        rw [hpc, hpc']
        exact hpast
      rw [hpc', if_neg (by simp)]
      refine ⟨h.control.main_step hothers hinv rfl rfl ⟨_, hpc'⟩, ?_⟩
      refine h.kept.quiet (own_eq ?_ hput htaken fun _ => rfl) rfl rfl (.inl hmain.symm) hput htaken ?_
        rfl rfl
      · simp only [MainPc.own, hmain, hsame]
      · simp only [MainPc.pending, hmain, hsame]
    | stores elem hcell hput' hpc' hput htaken =>
      obtain rfl := Call.pcqEnqueue.inj hput'
      rw [hpc', if_neg (by simp)]
      refine ⟨h.control.main_step hothers hinv rfl rfl ⟨_, hpc'⟩, ?_⟩
      have hstored := h.kept.stores (τ := τ) hmain (by rw [hpc, hcell]; rfl) (by rw [hpc']; rfl)
        h.control.queue.prefix_put.length_le hput htaken
      rw [hmain] at hstored
      exact hstored
    | reads _ hcall' => cases hcall'
    | returns hbroadcast hpc' hput htaken =>
      rw [if_pos hpc']
      refine ⟨h.control.main_step hothers hinv rfl rfl hpc', ?_⟩
      refine h.kept.quiet (own_eq ?_ hput htaken fun _ => rfl) rfl rfl (.inr rfl) hput htaken ?_ rfl rfl
      · simp only [MainPc.own, hmain, hpc, hbroadcast]
        rfl
      · simp only [MainPc.pending, hmain, hpc, hbroadcast]
        rfl

theorem Inv.workerStep (h : g.Inv) (hstep : g.act (.step (some w)) = some g') : g'.Inv := by
  obtain ⟨τ, hτ, rfl⟩ := Option.map_eq_some_iff.mp hstep
  obtain ⟨call, stage, hpc, hcall⟩ := Sys.of_next_step hτ
  obtain ⟨hothers, haccess⟩ := Sys.step_access hcall
  have hinv := h.control.queue.next hτ
  have hat := h.control.worker w
  have hstays : Stays (g.queue.pc none) (τ.pc none) := stays_of_othersStay hothers (by simp)
  have hne : ∀ v, v ≠ w → ∀ pc, Function.update g.worker w pc v = g.worker v := fun v hv _ =>
    Function.update_of_ne hv _ _
  cases hworker : g.worker w with
  | handling req =>
    rw [hworker, hpc] at hat
    cases hat
  | dequeueing elem =>
    have hdequeue : call = .pcqDequeue ∧ stage.past = elem.isSome := by
      rw [hworker, hpc] at hat
      cases elem with
      | none =>
        obtain hidle | ⟨_, hin, hpast⟩ := hat
        · cases hidle
        · cases hin
          exact ⟨rfl, hpast⟩
      | some req =>
        obtain ⟨_, hin, hpast⟩ := hat
        cases hin
        exact ⟨rfl, hpast⟩
    obtain ⟨rfl, hpast⟩ := hdequeue
    cases haccess with
    | goes stage' hpc' hsame hcell hbroadcast hput htaken =>
      have hdequeued : g.dequeued w = g.worker w := by
        unfold dequeued
        rw [hpc]
        cases stage <;> first | rfl | exact absurd rfl hcell | exact absurd rfl hbroadcast
      have htakes : g.takes w = g.takers := by
        unfold takes
        rw [hpc]
        cases stage <;> first | rfl | exact absurd rfl hcell
      rw [hdequeued, htakes, Function.update_eq_self]
      refine ⟨h.control.worker_step hothers hinv rfl rfl (fun _ _ => rfl) ?_, ?_⟩
      · dsimp only
        rw [hworker, hpc']
        cases elem with
        | none => exact .inr ⟨_, rfl, hsame.trans hpast⟩
        | some req => exact ⟨_, rfl, hsame.trans hpast⟩
      · exact h.kept.quiet (own_eq hstays.main_own hput htaken fun _ => rfl) rfl rfl (.inl rfl) hput
          htaken hstays.main_pending rfl rfl
    | stores _ _ hcall' => cases hcall'
    | reads hcell _ hpc' hput htaken =>
      subst hcell
      obtain rfl : elem = none := by simpa [Stage.past] using hpast.symm
      have hdequeued : g.dequeued w =
          .dequeueing (some (g.queue.queue.pcqBuffer g.queue.queue.pcqTail)) := by
        simp only [dequeued, hpc]
      have htakes : g.takes w = g.takers ++ [w] := by simp only [takes, hpc]
      rw [hdequeued, htakes]
      refine ⟨h.control.worker_step hothers hinv rfl rfl (fun v hv => hne v hv _) ?_, ?_⟩
      · dsimp only
        rw [Function.update_self, hpc']
        exact ⟨_, rfl, rfl⟩
      · exact h.kept.reads hworker hstays.main_own hstays.main_pending
          (Sys.getElem?_put h.control.queue hpc hcall hput htaken) hput htaken
    | returns hbroadcast hpc' hput htaken =>
      subst hbroadcast
      obtain ⟨req, rfl⟩ : ∃ req, elem = some req := Option.isSome_iff_exists.mp hpast.symm
      have hdequeued : g.dequeued w = .handling req := by simp only [dequeued, hpc, hworker]
      have htakes : g.takes w = g.takers := by simp only [takes, hpc]
      rw [hdequeued, htakes]
      refine ⟨h.control.worker_step hothers hinv rfl rfl (fun v hv => hne v hv _) ?_, ?_⟩
      · dsimp only
        rw [Function.update_self]
        exact hpc'
      · refine h.kept.quiet (own_eq hstays.main_own hput htaken fun v => ?_) rfl rfl (.inl rfl) hput
          htaken hstays.main_pending rfl rfl
        by_cases hv : v = w
        · subst hv
          simp only [Function.update_self, hworker, WorkerPc.own]
        · simp only [hne v hv]

/-- Every step keeps the invariant. -/
theorem Inv.next (h : g.Inv) (hstep : g.next e = some g') : g'.Inv := by
  unfold Server.next at hstep
  split at hstep
  · cases hstep
  · cases e with
    | malloc req bytes => exact h.malloc hstep
    | read bytes interrupted => exact h.read hstep
    | dequeue w => exact h.dequeue hstep
    | wake t => exact h.wake hstep
    | free w => exact h.free hstep
    | step t =>
      cases t with
      | none => exact h.mainStep hstep
      | some w => exact h.workerStep hstep

end Server

namespace Server

variable {g : Server}

theorem Initial.inv (h : g.Initial) : g.Inv := by
  obtain ⟨hstart, hheap, hmain, hworker, hrequests, htakers, hlost⟩ := h
  obtain ⟨-, -, -, hidle, hput, htaken⟩ := id hstart
  have hnone : ∀ a, g.own a = none := by
    intro a
    cases a with
    | main => simp only [own, hmain, MainPc.own]
    | slot i => simp only [own, hput, List.getElem?_nil, ite_self]
    | worker w => simp only [own, hworker w, WorkerPc.own]
  refine ⟨⟨hstart.inv, ?_, fun w => ?_⟩, ⟨⟨?_, ?_⟩, ?_, ?_, ?_, ?_, ?_, ?_⟩⟩
  · rw [hmain]
    exact hidle none
  · rw [hworker w]
    exact .inl (hidle (some w))
  · simp [hnone]
  · simp [hnone]
  · exact fun b hb => absurd (hheap b) hb.1
  · simp [hlost]
  · simp [hmain]
  · rw [htakers, htaken]
  · simp only [hrequests, hput, hmain, MainPc.pending, List.length_nil]
  · simp [hnone]

end Server

/-- How the registrations that were read are shared out: the allocated requests are one each of the
main thread, of the queue or of a worker, or lost; the workers have taken the first registrations;
those that no worker has taken wait in requests of their own; and a worker handles the last one that
it took. -/
structure HandedOver (g : Server) : Prop where
  owns : Owns g.own g.InUse
  noLeak : NoLeak g.own g.InUse
  taken : g.takers.length ≤ g.requests.length
  waiting : ∀ i bytes, g.takers.length ≤ i → g.requests[i]? = some bytes →
    ∃ a req, g.own a = some req ∧ g.heap req = some bytes ∧
      (a = .slot i ∨ a = .main ∧ i + 1 = g.requests.length)
  handled : ∀ w req, g.worker w = .handling req →
    ∃ i bytes, g.Took w i ∧ g.requests[i]? = some bytes ∧ g.heap req = some bytes

namespace Server

variable {g : Server}

theorem Inv.handedOver (h : g.Inv) : HandedOver g := by
  obtain ⟨hcontrol, hkept⟩ := h
  have hle := hcontrol.queue.prefix_put.length_le
  have htakers := hkept.takers
  have hrequests := hkept.requests
  refine ⟨hkept.owns, hkept.noLeak, by omega, ?_, ?_⟩
  · intro i bytes hi hbytes
    obtain ⟨hlt, -⟩ := List.getElem?_eq_some_iff.mp hbytes
    by_cases hput : i < g.queue.put.length
    · have hslot : g.own (.slot i) = some g.queue.put[i] := by
        simp only [own, if_pos (htakers ▸ hi), List.getElem?_eq_getElem hput]
      obtain ⟨j, rfl, hcontent⟩ := hkept.registered _ _ hslot (by simp)
      exact ⟨_, _, hslot, hcontent.trans hbytes, .inl rfl⟩
    · -- the last one, which the main thread is about to put in
      cases hmain : g.main with
      | allocating | reading _ | exited _ =>
        simp only [hmain, MainPc.pending] at hrequests
        omega
      | enqueueing req =>
        cases hpast : past (g.queue.pc none) with
        | true =>
          simp only [hmain, MainPc.pending, hpast, if_true] at hrequests
          omega
        | false =>
          simp only [hmain, MainPc.pending, hpast, Bool.false_eq_true, if_false] at hrequests
          have hmine : g.own .main = some req := by
            simp only [own, hmain, MainPc.own, hpast, Bool.false_eq_true, if_false]
          obtain ⟨j, hj, hcontent⟩ := hkept.registered _ _ hmine fun _ => ⟨req, hmain⟩
          obtain rfl : j = i := by
            have hj' : j = g.queue.put.length := hj
            omega
          exact ⟨_, _, hmine, hcontent.trans hbytes, .inr ⟨rfl, by omega⟩⟩
  · intro w req hworker
    have hmine : g.own (.worker w) = some req := by simp only [own, hworker, WorkerPc.own]
    obtain ⟨i, hi, hcontent⟩ := hkept.registered _ _ hmine (by simp)
    obtain ⟨bytes, hbytes⟩ := Option.ne_none_iff_exists'.mp (hkept.owns.backed _ _ hmine).1
    exact ⟨i, bytes, hi, hcontent.symm.trans hbytes, hbytes⟩

end Server

/-- In every state of the broker, whatever the number of its workers, the size of the queue, the
addresses that `malloc` gives and the results of `read`: no two threads share a request, every
allocated one that is not lost has its owner, no registration that was read is lost on the way, and a
worker handles the bytes of the one that it took, which no other worker takes. -/
theorem registrations_handed_over {g : Server} (h : Reachable Server.next Server.Initial g) :
    HandedOver g :=
  (h.invariant (fun _ => Server.Initial.inv) fun _ _ _ hinv _ hstep => hinv.next hstep).handedOver

/-- The broker with a queue of one cell. -/
def Server.one : Server where
  queue :=
    { queue := ⟨fun _ => 0, 1, 1, 0, 0, 0⟩
      currentSizeLock := none
      endLock := fun _ => none
      condvarLock := fun _ => none
      pc := fun _ => .idle
      put := []
      taken := [] }
  heap := fun _ => none
  main := .allocating
  worker := fun _ => .dequeueing none
  requests := []
  takers := []
  lost := []

theorem Server.initial_one : Server.one.Initial :=
  ⟨⟨⟨some fun _ => 0, 1, rfl⟩, rfl, fun _ => ⟨rfl, rfl⟩, fun _ => rfl, rfl, rfl⟩, fun _ => rfl, rfl,
    fun _ => rfl, rfl, rfl, rfl⟩

/-- A request as it comes from `malloc`, or as it was read. -/
def filled (byte : UInt8) : List UInt8 := List.replicate registrationRequestSize byte

/-- The request 5 is lost, since `read` returned 0; 7 is handled by the worker 1 and freed, and then
given again for the registration that the worker 0 handles. -/
def Server.oneEvents : List Event :=
  [.malloc 5 (filled 0), .read (some []) false, .malloc 7 (filled 0), .read (some (filled 3)) false] ++
    List.replicate 11 (.step none) ++ [.dequeue 1] ++ List.replicate 11 (.step (some 1)) ++
    [.free 1, .malloc 7 (filled 3), .read (some (filled 5)) false] ++
    List.replicate 11 (.step none) ++ [.dequeue 0] ++ List.replicate 11 (.step (some 0))

theorem registrations_handed_over_one : ∃ g : Server, g.lost = [5] ∧ g.takers = [1, 0] ∧
    g.worker 0 = .handling 7 ∧ HandedOver g := by
  obtain ⟨g, hreach, hg⟩ := exists_of_runList Server.next Server.oneEvents
    (fun g => decide (g.lost = [5] ∧ g.takers = [1, 0] ∧ g.worker 0 = .handling 7))
    Server.initial_one (by decide +kernel)
  obtain ⟨hlost, htakers, hworker⟩ := of_decide_eq_true hg
  exact ⟨g, hlost, htakers, hworker, registrations_handed_over hreach⟩

end TfsBroker.Intake
