import TfsBroker.Pcq.Queue
import TfsBroker.Lib.RingBuffer

/-!
# The queue is a bounded FIFO

Head, tail and size have three locks, but every access to any of them happens
under `pcq_current_size_lock`. So it is enough to say what holds of the queue while
that lock is free (`Fifo`), and what the thread that holds it knows at each stage
of its call (`View`).

## Main results

* `Fifo.push`, `Fifo.pop` — the three assignments of a call, taken together
* `bounded_fifo` — the queue in every state in which `pcq_current_size_lock` is free
-/

namespace TfsBroker.Pcq

open Runs RingBuffer

variable {T α : Type*} {q : PcQueue α} {put taken : List α} {elem : α} {side : Side}

/-- The elements in the queue, in the order in which they are taken out. -/
def PcQueue.contents (q : PcQueue α) : List α :=
  window q.pcqBuffer q.pcqTail q.pcqCurrentSize q.pcqCapacity

/-- The queue holds what was put in and not taken out yet. -/
structure Fifo (q : PcQueue α) (put taken : List α) : Prop where
  size_le : q.pcqCurrentSize ≤ q.pcqCapacity
  capacity_lt : q.pcqCapacity < sizeRange
  tail_lt : 0 < q.pcqCapacity → q.pcqTail < q.pcqCapacity
  head : 0 < q.pcqCapacity → q.pcqHead = (q.pcqTail + q.pcqCurrentSize) % q.pcqCapacity
  order : taken ++ q.contents = put
  cells : q.cells = 8 * q.pcqCapacity % sizeRange / 8

namespace Fifo

/-- A call that does not have to wait is one on a queue with a cell. -/
theorem capacity_pos (h : Fifo q put taken) (hgo : ¬ q.mustWait side) : 0 < q.pcqCapacity := by
  have hle := h.size_le
  cases side <;> simp only [PcQueue.mustWait] at hgo <;> omega

/-- What the three assignments of `pcq_enqueue` do together. -/
theorem push (h : Fifo q put taken) (hgo : ¬ q.mustWait .pusher) :
    Fifo (((q.count .pusher).store elem).advance .pusher) (put ++ [elem]) taken := by
  have hle := h.size_le
  have hlt := h.capacity_lt
  have hpos := h.capacity_pos hgo
  have hroom : q.pcqCurrentSize < q.pcqCapacity := lt_of_le_of_ne hle hgo
  have hhead : q.pcqHead < q.pcqCapacity :=
    (h.head hpos).trans_lt (Nat.mod_lt _ hpos)
  -- neither the counter nor the head leaves the range of a `size_t`
  have hsize : (q.pcqCurrentSize + 1) % sizeRange = q.pcqCurrentSize + 1 :=
    Nat.mod_eq_of_lt (by omega)
  have hnext : (q.pcqHead + 1) % sizeRange = q.pcqHead + 1 := Nat.mod_eq_of_lt (by omega)
  constructor <;> simp only [PcQueue.count, PcQueue.store, PcQueue.advance, PcQueue.contents, hsize,
    hnext]
  · exact hroom
  · exact hlt
  · exact h.tail_lt
  · intro _
    rw [h.head hpos, Nat.mod_add_mod, Nat.add_assoc]
  · rw [h.head hpos, window_store hroom, ← List.append_assoc]
    exact congrArg (· ++ [elem]) h.order
  · exact h.cells

/-- What the three assignments of `pcq_dequeue` do together. -/
theorem pop (h : Fifo q put taken) (hgo : ¬ q.mustWait .popper) :
    Fifo ((q.count .popper).advance .popper) put (taken ++ [q.pcqBuffer q.pcqTail]) := by
  have hle := h.size_le
  have hlt := h.capacity_lt
  have hpos := h.capacity_pos hgo
  have htail := h.tail_lt hpos
  obtain ⟨n, hn⟩ : ∃ n, q.pcqCurrentSize = n + 1 := Nat.exists_eq_succ_of_ne_zero hgo
  have hsize : (if q.pcqCurrentSize = 0 then sizeRange - 1 else q.pcqCurrentSize - 1) = n := by
    have hne : q.pcqCurrentSize ≠ 0 := hgo
    rw [if_neg hne]
    omega
  have hnext : (q.pcqTail + 1) % sizeRange = q.pcqTail + 1 := Nat.mod_eq_of_lt (by omega)
  have horder := h.order
  constructor <;> simp only [PcQueue.count, PcQueue.advance, PcQueue.contents, hsize, hnext]
  · omega
  · exact hlt
  · exact fun _ => Nat.mod_lt _ hpos
  · intro _
    rw [h.head hpos, hn, Nat.mod_add_mod, Nat.add_assoc, Nat.add_comm 1 n]
  · rw [PcQueue.contents, hn, window_succ, Nat.mod_eq_of_lt htail] at horder
    rw [List.append_assoc]
    exact horder
  · exact h.cells

/-- A call that does not have to wait accesses a cell of the buffer, as long as the
size of the buffer fits in a `size_t`. -/
theorem index_lt (h : Fifo q put taken) (hgo : ¬ q.mustWait side)
    (hfits : 8 * q.pcqCapacity < sizeRange) : q.index side < q.cells := by
  have hpos := h.capacity_pos hgo
  have hcells : q.cells = q.pcqCapacity := by
    rw [h.cells, Nat.mod_eq_of_lt hfits, Nat.mul_div_cancel_left _ (by omega)]
  rw [hcells]
  cases side with
  | pusher => exact (h.head hpos).trans_lt (Nat.mod_lt _ hpos)
  | popper => exact h.tail_lt hpos

end Fifo

/-! ### What the holder of `pcq_current_size_lock` knows -/

/-- What is true of the queue while the holder of `pcq_current_size_lock` is at a
stage of its call; at the other stages it does not hold the lock. -/
def View (q : PcQueue α) (put taken : List α) : Pc α → Prop
  | .idle => False
  | .inCall call stage =>
    match stage with
    | .check | .unlockEnd | .unlockSize => Fifo q put taken
    | .unlockToWait => Fifo q put taken ∧ q.mustWait call.side
    | .lockEnd | .count => Fifo q put taken ∧ ¬ q.mustWait call.side
    | .cell => ∃ q₀, Fifo q₀ put taken ∧ ¬ q₀.mustWait call.side ∧ q = q₀.count call.side
    | .advance => 0 < q.pcqCapacity ∧ Fifo (q.advance call.side) put taken
    | _ => False

/-- A thread at `pc` holds `pcq_current_size_lock`. -/
def Pc.holdsSize : Pc α → Bool
  | .idle => false
  | .inCall _ stage =>
    match stage with
    | .check | .unlockToWait | .lockEnd | .count | .cell | .advance | .unlockEnd | .unlockSize => true
    | _ => false

theorem View.holdsSize {pc : Pc α} (h : View q put taken pc) : pc.holdsSize = true := by
  cases pc with
  | idle => exact h.elim
  | inCall call stage => cases stage <;> first | rfl | exact h.elim

namespace Sys

/-- The lock protects the queue. -/
structure Inv (σ : Sys T α) : Prop where
  holder : ∀ t, (σ.pc t).holdsSize = true → σ.currentSizeLock = some t
  free : σ.currentSizeLock = none → Fifo σ.queue σ.put σ.taken
  held : ∀ t, σ.currentSizeLock = some t → View σ.queue σ.put σ.taken (σ.pc t)

/-- Threads other than `t` are where they were, or were woken. -/
def OthersStay (σ τ : Sys T α) (t : T) : Prop :=
  ∀ u, u ≠ t → τ.pc u = σ.pc u ∨
    ∃ call, σ.pc u = .inCall call .asleep ∧ τ.pc u = .inCall call .lockCondvar

variable {σ τ : Sys T α} {t : T} {call : Call α} {stage : Stage}

theorem OthersStay.of_holdsSize (h : OthersStay σ τ t) {u : T} (hu : u ≠ t)
    (hholds : (τ.pc u).holdsSize = true) : τ.pc u = σ.pc u := by
  rcases h u hu with heq | ⟨call, -, hwoken⟩
  · exact heq
  · rw [hwoken] at hholds
    cases hholds

/-- A step of a thread that does not hold the lock and does not take it. -/
theorem Inv.outside (h : σ.Inv) (hothers : OthersStay σ τ t) (hqueue : τ.queue = σ.queue)
    (hput : τ.put = σ.put) (htaken : τ.taken = σ.taken)
    (hlock : τ.currentSizeLock = σ.currentSizeLock) (ht : (σ.pc t).holdsSize = false)
    (ht' : (τ.pc t).holdsSize = false) : τ.Inv := by
  rw [← Bool.not_eq_true] at ht ht'
  refine ⟨fun u hu => ?_, fun hfree => ?_, fun u hu => ?_⟩
  · have hut : u ≠ t := fun heq => ht' (heq ▸ hu)
    rw [hlock]
    exact h.holder u (hothers.of_holdsSize hut hu ▸ hu)
  · rw [hqueue, hput, htaken]
    exact h.free (hlock ▸ hfree)
  · have hview := h.held u (hlock ▸ hu)
    have hut : u ≠ t := fun heq => ht (heq ▸ hview.holdsSize)
    have hsame : τ.pc u = σ.pc u := by
      rcases hothers u hut with heq | ⟨call, hasleep, -⟩
      · exact heq
      · rw [hasleep] at hview
        exact hview.elim
    rw [hqueue, hput, htaken, hsame]
    exact hview

/-- A step of a thread that holds the lock, or takes it while it is free: it may
change the queue, since nobody else knows anything about it. -/
theorem Inv.inside (h : σ.Inv) (hothers : OthersStay σ τ t)
    (hlock : σ.currentSizeLock = none ∨ σ.currentSizeLock = some t)
    (hlock' : τ.currentSizeLock = some t) (hview : View τ.queue τ.put τ.taken (τ.pc t)) :
    τ.Inv := by
  refine ⟨fun u hu => ?_, fun hfree => ?_, fun u hu => ?_⟩
  · by_contra hne
    have hut : u ≠ t := fun heq => hne (heq ▸ hlock')
    have hold := h.holder u (hothers.of_holdsSize hut hu ▸ hu)
    rcases hlock with hnone | hsome
    · rw [hnone] at hold
      cases hold
    · exact hut (Option.some_inj.mp (hold.symm.trans hsome))
  · rw [hlock'] at hfree
    cases hfree
  · obtain rfl : t = u := Option.some_inj.mp (hlock'.symm.trans hu)
    exact hview

/-- A step of the holder that releases the lock. -/
theorem Inv.release (h : σ.Inv) (hothers : OthersStay σ τ t)
    (hlock : σ.currentSizeLock = some t) (hlock' : τ.currentSizeLock = none)
    (ht : (τ.pc t).holdsSize = false) (hfifo : Fifo τ.queue τ.put τ.taken) : τ.Inv := by
  rw [← Bool.not_eq_true] at ht
  refine ⟨fun u hu => ?_, fun _ => hfifo, fun u hu => ?_⟩
  · have hut : u ≠ t := fun heq => ht (heq ▸ hu)
    have hold := h.holder u (hothers.of_holdsSize hut hu ▸ hu)
    exact absurd (Option.some_inj.mp (hold.symm.trans hlock)) hut
  · rw [hlock'] at hu
    cases hu

variable [DecidableEq T]

/-! ### The steps -/

theorem othersStay_goto (h : τ.pc = (σ.goto t call stage).pc) : OthersStay σ τ t := by
  intro u hu
  refine .inl ?_
  rw [h]
  exact Function.update_of_ne hu _ _

theorem othersStay_broadcast {side : Side} {pc' : Pc α}
    (h : τ.pc = Function.update (σ.wakeAll side).pc t pc') : OthersStay σ τ t := by
  intro u hu
  rw [h, Function.update_of_ne hu]
  unfold wakeAll
  dsimp only
  split
  · rename_i call hasleep
    split
    · exact .inr ⟨call, hasleep, rfl⟩
    · exact .inl hasleep.symm
  · exact .inl rfl

theorem pc_goto (h : τ.pc = (σ.goto t call stage).pc) : τ.pc t = .inCall call stage := by
  rw [h]
  exact Function.update_self ..

omit [DecidableEq T] in
theorem access_eq_some (h : σ.access call = some τ) :
    τ.pc = σ.pc ∧ τ.currentSizeLock = σ.currentSizeLock ∧
      ∀ side, τ.queue.mustWait side ↔ σ.queue.mustWait side := by
  unfold access at h
  split at h
  · cases call with
    | pcqEnqueue elem =>
      obtain rfl := Option.some_inj.mp h
      exact ⟨rfl, rfl, fun side => by cases side <;> rfl⟩
    | pcqDequeue =>
      obtain rfl := Option.some_inj.mp h
      exact ⟨rfl, rfl, fun _ => Iff.rfl⟩
  · cases h

omit [DecidableEq T] in
/-- Once the element is stored or read, only `pcq_head` or `pcq_tail` is left to
move on. -/
theorem view_access {q₀ : PcQueue α} (hfifo : Fifo q₀ σ.put σ.taken)
    (hgo : ¬ q₀.mustWait call.side) (hqueue : σ.queue = q₀.count call.side)
    (h : σ.access call = some τ) :
    0 < τ.queue.pcqCapacity ∧ Fifo (τ.queue.advance call.side) τ.put τ.taken := by
  have hpos := hfifo.capacity_pos hgo
  unfold access at h
  split at h
  · cases call with
    | pcqEnqueue elem =>
      obtain rfl := Option.some_inj.mp h
      dsimp only
      rw [hqueue]
      exact ⟨hpos, hfifo.push hgo⟩
    | pcqDequeue =>
      obtain rfl := Option.some_inj.mp h
      dsimp only
      rw [hqueue]
      exact ⟨hpos, hfifo.pop hgo⟩
  · cases h

/-- Every step of a call keeps the invariant. -/
theorem Inv.stepCall (h : σ.Inv) (hpc : σ.pc t = .inCall call stage)
    (hstep : σ.stepCall t call stage = some τ) : τ.Inv := by
  have hview : (σ.pc t).holdsSize = true → σ.currentSizeLock = some t ∧
      View σ.queue σ.put σ.taken (σ.pc t) := fun ht => ⟨h.holder t ht, h.held t (h.holder t ht)⟩
  rw [hpc] at hview
  cases stage with
  | lockCondvar =>
    simp only [Sys.stepCall] at hstep
    split at hstep
    · obtain rfl := Option.some_inj.mp hstep
      exact h.outside (othersStay_goto rfl) rfl rfl rfl rfl (by rw [hpc]; rfl)
        (by rw [pc_goto rfl]; rfl)
    · cases hstep
  | lockSize =>
    simp only [Sys.stepCall] at hstep
    split at hstep
    · rename_i hfree
      obtain rfl := Option.some_inj.mp hstep
      refine h.inside (othersStay_goto rfl) (.inl hfree) rfl ?_
      rw [pc_goto rfl]
      exact h.free hfree
    · cases hstep
  | check =>
    obtain ⟨hlock, hfifo⟩ := hview rfl
    obtain rfl := Option.some_inj.mp hstep
    refine h.inside (othersStay_goto rfl) (.inr hlock) hlock ?_
    rw [pc_goto rfl]
    split
    · rename_i hwait
      exact ⟨hfifo, hwait⟩
    · rename_i hgo
      exact ⟨hfifo, hgo⟩
  | unlockToWait =>
    obtain ⟨hlock, hfifo, -⟩ := hview rfl
    obtain rfl := Option.some_inj.mp hstep
    exact h.release (othersStay_goto rfl) hlock rfl (by rw [pc_goto rfl]; rfl) hfifo
  | wait =>
    obtain rfl := Option.some_inj.mp hstep
    exact h.outside (othersStay_goto rfl) rfl rfl rfl rfl (by rw [hpc]; rfl)
      (by rw [pc_goto rfl]; rfl)
  | asleep => cases hstep
  | lockEnd =>
    obtain ⟨hlock, hfifo⟩ := hview rfl
    simp only [Sys.stepCall] at hstep
    split at hstep
    · obtain rfl := Option.some_inj.mp hstep
      refine h.inside (othersStay_goto rfl) (.inr hlock) hlock ?_
      rw [pc_goto rfl]
      exact hfifo
    · cases hstep
  | count =>
    obtain ⟨hlock, hfifo, hgo⟩ := hview rfl
    obtain rfl := Option.some_inj.mp hstep
    refine h.inside (othersStay_goto rfl) (.inr hlock) hlock ?_
    rw [pc_goto rfl]
    exact ⟨σ.queue, hfifo, hgo, rfl⟩
  | cell =>
    obtain ⟨hlock, q₀, hfifo, hgo, hqueue⟩ := hview rfl
    obtain ⟨υ, haccess, rfl⟩ := Option.map_eq_some_iff.mp hstep
    obtain ⟨hsame, hkeep, -⟩ := access_eq_some haccess
    refine h.inside (fun u hu => .inl ?_) (.inr hlock) (hkeep.trans hlock) ?_
    · exact (Function.update_of_ne hu _ _).trans (congrFun hsame u)
    · have hview := view_access hfifo hgo hqueue haccess
      rw [pc_goto rfl]
      exact hview
  | advance =>
    obtain ⟨hlock, -, hfifo⟩ := hview rfl
    simp only [Sys.stepCall] at hstep
    split at hstep
    · cases hstep
    · obtain rfl := Option.some_inj.mp hstep
      refine h.inside (othersStay_goto rfl) (.inr hlock) hlock ?_
      rw [pc_goto rfl]
      exact hfifo
  | unlockEnd =>
    obtain ⟨hlock, hfifo⟩ := hview rfl
    obtain rfl := Option.some_inj.mp hstep
    refine h.inside (othersStay_goto rfl) (.inr hlock) hlock ?_
    rw [pc_goto rfl]
    exact hfifo
  | unlockSize =>
    obtain ⟨hlock, hfifo⟩ := hview rfl
    obtain rfl := Option.some_inj.mp hstep
    exact h.release (othersStay_goto rfl) hlock rfl (by rw [pc_goto rfl]; rfl) hfifo
  | unlockCondvar =>
    obtain rfl := Option.some_inj.mp hstep
    exact h.outside (othersStay_goto rfl) rfl rfl rfl rfl (by rw [hpc]; rfl)
      (by rw [pc_goto rfl]; rfl)
  | broadcast =>
    obtain rfl := Option.some_inj.mp hstep
    refine h.outside (othersStay_broadcast rfl) rfl rfl rfl rfl (by rw [hpc]; rfl) ?_
    change (Function.update (σ.wakeAll call.side.other).pc t .idle t).holdsSize = false
    rw [Function.update_self]
    rfl

/-- The three kinds of steps: a call begins, a sleeper wakes up, a call goes on. -/
theorem next_cases {a : Act α} (h : next σ (t, a) = some τ) :
    (∃ call, σ.pc t = .idle ∧ τ = σ.goto t call .lockCondvar) ∨
    (∃ call, σ.pc t = .inCall call .asleep ∧ τ = σ.goto t call .lockCondvar) ∨
    ∃ call stage, σ.pc t = .inCall call stage ∧ σ.stepCall t call stage = some τ := by
  unfold next at h
  split at h
  · rename_i call hidle _
    exact .inl ⟨call, hidle, (Option.some_inj.mp h).symm⟩
  · rename_i call hasleep _
    exact .inr (.inl ⟨call, hasleep, (Option.some_inj.mp h).symm⟩)
  · rename_i call stage hpc _
    exact .inr (.inr ⟨call, stage, hpc, h⟩)
  · cases h

theorem Inv.next {a : Act α} (h : σ.Inv) (hnext : next σ (t, a) = some τ) : τ.Inv := by
  rcases next_cases hnext with ⟨call, hpc, rfl⟩ | ⟨call, hpc, rfl⟩ | ⟨call, stage, hpc, hstep⟩
  · exact h.outside (othersStay_goto rfl) rfl rfl rfl rfl (by rw [hpc]; rfl)
      (by rw [pc_goto rfl]; rfl)
  · exact h.outside (othersStay_goto rfl) rfl rfl rfl rfl (by rw [hpc]; rfl)
      (by rw [pc_goto rfl]; rfl)
  · exact h.stepCall hpc hstep

omit [DecidableEq T] in
theorem Start.inv (h : Start σ) : σ.Inv := by
  obtain ⟨⟨malloc, capacity, hcreate⟩, hlock, -, hidle, hput, htaken⟩ := h
  obtain ⟨buffer, -, hqueue⟩ := Option.map_eq_some_iff.mp hcreate
  refine ⟨fun t ht => ?_, fun _ => ?_, fun t ht => ?_⟩
  · rw [hidle t] at ht
    cases ht
  · rw [← hqueue, hput, htaken]
    exact ⟨Nat.zero_le _, capacity.toNat_lt, id, fun _ => (Nat.zero_mod _).symm, rfl, rfl⟩
  · rw [hlock] at ht
    cases ht

end Sys

/-- The queue is a bounded FIFO: what was taken out, followed by the cells from the
tail on, is what was put in. -/
structure BoundedFifo (σ : Sys T α) : Prop where
  size_le : σ.queue.pcqCurrentSize ≤ σ.queue.pcqCapacity
  head : 0 < σ.queue.pcqCapacity → σ.queue.pcqHead =
    (σ.queue.pcqTail + σ.queue.pcqCurrentSize) % σ.queue.pcqCapacity
  order : σ.taken ++ (List.range σ.queue.pcqCurrentSize).map (fun i =>
    σ.queue.pcqBuffer ((σ.queue.pcqTail + i) % σ.queue.pcqCapacity)) = σ.put

variable [DecidableEq T] {σ : Sys T α}

/-- In every state that any number of threads reach, whatever the capacity: while
`pcq_current_size_lock` is free the queue is a bounded FIFO, and no thread is about
to evaluate a modulo by a capacity of 0. A buffer whose size fits in a `size_t` is
never accessed outside its cells. -/
theorem bounded_fifo (h : Reachable Sys.next Sys.Start σ) :
    (σ.currentSizeLock = none → BoundedFifo σ) ∧
    (∀ t call, σ.pc t = .inCall call .advance → 0 < σ.queue.pcqCapacity) ∧
    (8 * σ.queue.pcqCapacity < sizeRange → ∀ t call, σ.pc t = .inCall call .cell →
      σ.queue.index call.side < σ.queue.cells) := by
  have hinv : σ.Inv := h.invariant (fun _ => Sys.Start.inv)
    fun _ e _ hinv _ hnext => hinv.next (t := e.1) (a := e.2) hnext
  have hview : ∀ t call stage, σ.pc t = .inCall call stage →
      (Pc.inCall call stage).holdsSize = true →
      View σ.queue σ.put σ.taken (.inCall call stage) := by
    intro t call stage hpc hholds
    rw [← hpc] at hholds ⊢
    exact hinv.held t (hinv.holder t hholds)
  refine ⟨fun hfree => ?_, fun t call hpc => ?_, fun hfits t call hpc => ?_⟩
  · have hfifo := hinv.free hfree
    exact ⟨hfifo.size_le, hfifo.head, hfifo.order⟩
  · exact (hview t call _ hpc rfl).1
  · obtain ⟨q₀, hfifo, hgo, hqueue⟩ := hview t call _ hpc rfl
    rw [hqueue, PcQueue.count_capacity] at hfits
    rw [hqueue, PcQueue.count_cells, PcQueue.count_index]
    exact hfifo.index_lt hgo hfits

/-- Two threads and an empty queue with one cell. -/
def Sys.two : Sys Bool ℕ where
  queue := ⟨fun _ => 0, 1, 1, 0, 0, 0⟩
  currentSizeLock := none
  endLock := fun _ => none
  condvarLock := fun _ => none
  pc := fun _ => .idle
  put := []
  taken := []

theorem Sys.start_two : Sys.Start Sys.two :=
  ⟨⟨some fun _ => 0, 1, rfl⟩, rfl, fun _ => ⟨rfl, rfl⟩, fun _ => rfl, rfl, rfl⟩

/-- The steps of a call that does not have to wait. -/
def callSteps (t : Bool) (call : Call ℕ) : List (Bool × Act ℕ) :=
  (t, .call call) :: List.replicate 11 (t, .step)

/-- The element 7 went through a queue of one cell, and 8 is in it. -/
theorem bounded_fifo_two : ∃ σ : Sys Bool ℕ, σ.put = [7, 8] ∧ σ.taken = [7] ∧
    BoundedFifo σ := by
  obtain ⟨σ, hreach, hσ⟩ := exists_of_runList Sys.next
    (callSteps true (.pcqEnqueue 7) ++ callSteps false .pcqDequeue ++ callSteps true (.pcqEnqueue 8))
    (fun σ : Sys Bool ℕ => decide (σ.currentSizeLock = none ∧ σ.put = [7, 8] ∧ σ.taken = [7]))
    Sys.start_two (by decide +kernel)
  obtain ⟨hfree, hput, htaken⟩ := of_decide_eq_true hσ
  exact ⟨σ, hput, htaken, (bounded_fifo hreach).1 hfree⟩

end TfsBroker.Pcq
