import TfsBroker.Pcq.Wakeup
import TfsBroker.Lib.Work
import Mathlib.Tactic.Ring

/-!
# The queue comes to rest

The five mutexes of the queue are taken in one order, so no two calls wait for each other.
Every call steps towards its return or its sleep, and only a broadcast sends threads back, which
is the last step of a call. So the calls that have begun come to rest: without further calls and
without spurious wake-ups they take a bounded number of steps, after which every thread has
returned or sleeps.

## Main results

* `Sys.not_stuck` — some thread can go on, as long as one is neither outside nor asleep
* `Sys.work_lt` — every step lowers the work that is left
* `comes_to_rest` — both, in every reachable state
-/

namespace TfsBroker.Pcq

open Runs Work

variable {T α : Type*} {σ τ : Sys T α} {t u : T} {call : Call α} {stage : Stage} {side : Side}

/-! ### Who holds the locks -/

/-- A call at this stage holds the mutex of its condition variable. -/
def Stage.holdsCondvar : Stage → Bool
  | lockCondvar | asleep | broadcast => false
  | _ => true

/-- A call at this stage holds `pcq_head_lock` or `pcq_tail_lock`. -/
def Stage.holdsEnd : Stage → Bool
  | count | cell | advance | unlockEnd => true
  | _ => false

/-- The thread is in a call on `side`, at a stage that meets `p`. -/
def Pc.At (p : Stage → Bool) (side : Side) : Pc α → Prop
  | .idle => False
  | .inCall call stage => call.side = side ∧ p stage = true

/-- Locking one of two mutexes changes the holder of no other. -/
theorem lock_cases {locks : Side → Option T} {side' : Side}
    (h : Function.update locks side (some t) side' = some u) :
    side' = side ∧ u = t ∨ locks side' = some u := by
  by_cases hside : side' = side
  · subst hside
    rw [Function.update_self] at h
    exact .inl ⟨rfl, (Option.some_inj.mp h).symm⟩
  · rw [Function.update_of_ne hside] at h
    exact .inr h

theorem unlock_cases {locks : Side → Option T} {side' : Side}
    (h : Function.update locks side none side' = some u) : side' ≠ side ∧ locks side' = some u := by
  by_cases hside : side' = side
  · subst hside
    rw [Function.update_self] at h
    cases h
  · rw [Function.update_of_ne hside] at h
    exact ⟨hside, h⟩

namespace Sys

/-- A mutex is held by a thread that is at a stage of its call where it has locked it. -/
structure Locks (σ : Sys T α) : Prop where
  condvar : ∀ side t, σ.condvarLock side = some t → (σ.pc t).At Stage.holdsCondvar side
  ends : ∀ side t, σ.endLock side = some t → (σ.pc t).At Stage.holdsEnd side

/-- A thread that is not moved, or woken up, holds what it held. -/
theorem OthersStay.at {p : Stage → Bool} (h : OthersStay σ τ t) (hu : u ≠ t)
    (hp : p .asleep = false) (hat : (σ.pc u).At p side) : (τ.pc u).At p side := by
  rcases h u hu with heq | ⟨call, hasleep, -⟩
  · rwa [heq]
  · rw [hasleep] at hat
    cases hp.symm.trans hat.2

/-- A step after which `t` holds what it has locked, and nobody else holds more. -/
theorem Locks.of_step (h : σ.Locks) (hothers : OthersStay σ τ t)
    (hcondvar : ∀ side u, τ.condvarLock side = some u → u ≠ t → σ.condvarLock side = some u)
    (hends : ∀ side u, τ.endLock side = some u → u ≠ t → σ.endLock side = some u)
    (hself : ∀ side, τ.condvarLock side = some t → (τ.pc t).At Stage.holdsCondvar side)
    (hself' : ∀ side, τ.endLock side = some t → (τ.pc t).At Stage.holdsEnd side) : τ.Locks where
  condvar := by
    intro side u hu
    by_cases hut : u = t
    · subst hut
      exact hself side hu
    · exact hothers.at hut rfl (h.condvar side u (hcondvar side u hu hut))
  ends := by
    intro side u hu
    by_cases hut : u = t
    · subst hut
      exact hself' side hu
    · exact hothers.at hut rfl (h.ends side u (hends side u hu hut))

variable [DecidableEq T]

/-- A step that neither locks nor unlocks the two kinds of mutexes. -/
theorem Locks.goto {next : Stage} (h : σ.Locks) (hpc : σ.pc t = .inCall call stage)
    (hgoto : τ.pc = (σ.goto t call next).pc) (hcondvar : τ.condvarLock = σ.condvarLock)
    (hends : τ.endLock = σ.endLock)
    (hstage : stage.holdsCondvar = true → next.holdsCondvar = true)
    (hstage' : stage.holdsEnd = true → next.holdsEnd = true) : τ.Locks := by
  refine h.of_step (othersStay_goto hgoto) (fun side u hu _ => hcondvar ▸ hu)
    (fun side u hu _ => hends ▸ hu) (fun side ht => ?_) fun side ht => ?_
  · have hat := h.condvar side t (hcondvar ▸ ht)
    rw [hpc] at hat
    rw [pc_goto hgoto]
    exact ⟨hat.1, hstage hat.2⟩
  · have hat := h.ends side t (hends ▸ ht)
    rw [hpc] at hat
    rw [pc_goto hgoto]
    exact ⟨hat.1, hstage' hat.2⟩

omit [DecidableEq T] in
theorem access_locks (h : σ.access call = some τ) :
    τ.condvarLock = σ.condvarLock ∧ τ.endLock = σ.endLock := by
  unfold access at h
  split at h
  · cases call <;> obtain rfl := Option.some_inj.mp h <;> exact ⟨rfl, rfl⟩
  · cases h

theorem Locks.stepCall (h : σ.Locks) (hpc : σ.pc t = .inCall call stage)
    (hstep : σ.stepCall t call stage = some τ) : τ.Locks := by
  -- the thread holds no other mutex of these kinds than that of its stage
  have hat : ∀ side, σ.condvarLock side = some t → call.side = side ∧ stage.holdsCondvar = true := by
    intro side ht
    have hat := h.condvar side t ht
    rwa [hpc] at hat
  have hat' : ∀ side, σ.endLock side = some t → call.side = side ∧ stage.holdsEnd = true := by
    intro side ht
    have hat := h.ends side t ht
    rwa [hpc] at hat
  cases stage with
  | lockCondvar =>
    simp only [Sys.stepCall] at hstep
    split at hstep
    · obtain rfl := Option.some_inj.mp hstep
      refine h.of_step (othersStay_goto rfl) (fun side u hu hut => ?_) (fun side u hu _ => hu)
        (fun side ht => ?_) fun side ht => ?_
      · exact (lock_cases hu).resolve_left fun hself => hut hself.2
      · rw [pc_goto rfl]
        rcases lock_cases ht with ⟨rfl, -⟩ | hold
        · exact ⟨rfl, rfl⟩
        · cases (hat side hold).2
      · cases (hat' side ht).2
    · cases hstep
  | lockSize =>
    simp only [Sys.stepCall] at hstep
    split at hstep
    · obtain rfl := Option.some_inj.mp hstep
      exact h.goto hpc rfl rfl rfl (fun _ => rfl) Bool.noConfusion
    · cases hstep
  | check =>
    obtain rfl := Option.some_inj.mp hstep
    refine h.goto hpc rfl rfl rfl (fun _ => ?_) Bool.noConfusion
    split <;> rfl
  | unlockToWait | unlockSize =>
    obtain rfl := Option.some_inj.mp hstep
    exact h.goto hpc rfl rfl rfl (fun _ => rfl) Bool.noConfusion
  | wait | unlockCondvar =>
    obtain rfl := Option.some_inj.mp hstep
    refine h.of_step (othersStay_goto rfl) (fun side u hu _ => ?_) (fun side u hu _ => hu)
      (fun side ht => ?_) fun side ht => ?_
    · exact (unlock_cases hu).2
    · obtain ⟨hside, hold⟩ := unlock_cases ht
      exact absurd (hat side hold).1.symm hside
    · cases (hat' side ht).2
  | asleep => cases hstep
  | lockEnd =>
    simp only [Sys.stepCall] at hstep
    split at hstep
    · obtain rfl := Option.some_inj.mp hstep
      refine h.of_step (othersStay_goto rfl) (fun side u hu _ => hu) (fun side u hu hut => ?_)
        (fun side ht => ?_) fun side ht => ?_
      · exact (lock_cases hu).resolve_left fun hself => hut hself.2
      · rw [pc_goto rfl]
        exact ⟨(hat side ht).1, rfl⟩
      · rw [pc_goto rfl]
        rcases lock_cases ht with ⟨rfl, -⟩ | hold
        · exact ⟨rfl, rfl⟩
        · cases (hat' side hold).2
    · cases hstep
  | count =>
    obtain rfl := Option.some_inj.mp hstep
    exact h.goto hpc rfl rfl rfl (fun _ => rfl) fun _ => rfl
  | cell =>
    obtain ⟨υ, haccess, rfl⟩ := Option.map_eq_some_iff.mp hstep
    obtain ⟨hcondvar, hends⟩ := access_locks haccess
    exact h.goto hpc (congrArg (Function.update · t _) (access_eq_some haccess).1) hcondvar hends
      (fun _ => rfl) fun _ => rfl
  | advance =>
    simp only [Sys.stepCall] at hstep
    split at hstep
    · cases hstep
    · obtain rfl := Option.some_inj.mp hstep
      exact h.goto hpc rfl rfl rfl (fun _ => rfl) fun _ => rfl
  | unlockEnd =>
    obtain rfl := Option.some_inj.mp hstep
    refine h.of_step (othersStay_goto rfl) (fun side u hu _ => hu) (fun side u hu _ => ?_)
      (fun side ht => ?_) fun side ht => ?_
    · exact (unlock_cases hu).2
    · rw [pc_goto rfl]
      exact ⟨(hat side ht).1, rfl⟩
    · obtain ⟨hside, hold⟩ := unlock_cases ht
      exact absurd (hat' side hold).1.symm hside
  | broadcast =>
    obtain rfl := Option.some_inj.mp hstep
    refine h.of_step (othersStay_broadcast rfl) (fun side u hu _ => hu) (fun side u hu _ => hu)
      (fun side ht => ?_) fun side ht => ?_
    · cases (hat side ht).2
    · cases (hat' side ht).2

theorem Locks.next {a : Act α} (h : σ.Locks) (hnext : next σ (t, a) = some τ) : τ.Locks := by
  rcases next_cases hnext with ⟨call, hpc, rfl⟩ | ⟨call, hpc, rfl⟩ | ⟨call, stage, hpc, hstep⟩
  · refine h.of_step (othersStay_goto rfl) (fun side u hu _ => hu) (fun side u hu _ => hu)
      (fun side ht => ?_) fun side ht => ?_
    · have hat := h.condvar side t ht
      rw [hpc] at hat
      exact hat.elim
    · have hat := h.ends side t ht
      rw [hpc] at hat
      exact hat.elim
  · exact h.goto hpc rfl rfl rfl Bool.noConfusion Bool.noConfusion
  · exact h.stepCall hpc hstep

omit [DecidableEq T] in
theorem Start.locks (h : Start σ) : σ.Locks := by
  obtain ⟨-, -, hfree, -⟩ := h
  constructor
  · intro side t ht
    rw [(hfree side).2] at ht
    cases ht
  · intro side t ht
    rw [(hfree side).1] at ht
    cases ht

/-! ### No call waits for ever -/

omit [DecidableEq T] in
/-- Whoever has locked `pcq_head_lock` or `pcq_tail_lock` has locked `pcq_current_size_lock`. -/
theorem holdsSize_of_holdsEnd {pc : Pc α} (h : pc.At Stage.holdsEnd side) :
    pc.holdsSize = true := by
  cases pc with
  | idle => exact h.elim
  | inCall call stage => cases stage <;> first | rfl | cases h.2

omit [DecidableEq T] in
/-- The access to the cell is enabled inside the buffer. -/
theorem access_isSome (hindex : σ.queue.index call.side < σ.queue.cells) :
    ∃ τ, σ.access call = some τ := by
  unfold access
  rw [if_pos hindex]
  cases call with
  | pcqEnqueue elem => exact ⟨_, rfl⟩
  | pcqDequeue => exact ⟨_, rfl⟩

theorem next_step (hpc : σ.pc t = .inCall call stage) :
    σ.next (t, .step) = σ.stepCall t call stage := by
  cases stage <;> simp only [next, hpc]

/-- The holder of `pcq_current_size_lock` can go on. -/
theorem holder_steps (hinv : σ.Inv) (hlocks : σ.Locks)
    (hfits : 8 * σ.queue.pcqCapacity < sizeRange) (ht : σ.currentSizeLock = some t) :
    ∃ τ, σ.next (t, .step) = some τ := by
  have hview := hinv.held t ht
  cases hpc : σ.pc t with
  | idle =>
    rw [hpc] at hview
    exact hview.elim
  | inCall call stage =>
    rw [hpc] at hview
    rw [next_step hpc]
    cases stage with
    | lockCondvar | lockSize | wait | asleep | unlockCondvar | broadcast => exact hview.elim
    | check | unlockToWait | count | unlockEnd | unlockSize => exact ⟨_, rfl⟩
    | lockEnd =>
      -- the lock of this end is not held: its holder would have `pcq_current_size_lock`
      cases hend : σ.endLock call.side with
      | none => exact ⟨_, if_pos hend⟩
      | some u =>
        have hat := hlocks.ends call.side u hend
        have hholder := hinv.holder u (holdsSize_of_holdsEnd hat)
        obtain rfl := Option.some_inj.mp (ht.symm.trans hholder)
        rw [hpc] at hat
        cases hat.2
    | cell =>
      obtain ⟨q₀, hfifo, hgo, hqueue⟩ := hview
      have hindex : σ.queue.index call.side < σ.queue.cells := by
        rw [hqueue, PcQueue.count_capacity] at hfits
        rw [hqueue, PcQueue.count_cells, PcQueue.count_index]
        exact hfifo.index_lt hgo hfits
      obtain ⟨υ, haccess⟩ := access_isSome hindex
      exact ⟨υ.goto t call .advance, congrArg (Option.map _) haccess⟩
    | advance => exact ⟨_, if_neg hview.1.ne'⟩

/-- As long as a thread is neither outside both functions nor asleep, some thread can go on. -/
theorem not_stuck (hinv : σ.Inv) (hlocks : σ.Locks) (hfits : 8 * σ.queue.pcqCapacity < sizeRange)
    (hpc : σ.pc t = .inCall call stage) (hstage : stage ≠ .asleep) :
    ∃ u τ, σ.next (u, .step) = some τ := by
  -- a thread that waits for `pcq_current_size_lock` waits for its holder
  have hsize : ∀ t call, σ.pc t = .inCall call .lockSize → ∃ u τ, σ.next (u, .step) = some τ := by
    intro t call hpc
    cases hlock : σ.currentSizeLock with
    | none => exact ⟨t, _, (next_step hpc).trans (if_pos hlock)⟩
    | some u => exact ⟨u, holder_steps hinv hlocks hfits hlock⟩
  have hholds : ∀ t, (σ.pc t).holdsSize = true → ∃ u τ, σ.next (u, .step) = some τ :=
    fun t ht => ⟨t, holder_steps hinv hlocks hfits (hinv.holder t ht)⟩
  cases stage with
  | asleep => exact absurd rfl hstage
  | lockSize => exact hsize t call hpc
  | check | unlockToWait | lockEnd | count | cell | advance | unlockEnd | unlockSize =>
    exact hholds t (by rw [hpc]; rfl)
  | wait | unlockCondvar | broadcast => exact ⟨t, _, next_step hpc⟩
  | lockCondvar =>
    cases hlock : σ.condvarLock call.side with
    | none => exact ⟨t, _, (next_step hpc).trans (if_pos hlock)⟩
    | some u =>
      -- it waits for a thread that is further on
      have hat := hlocks.condvar call.side u hlock
      cases hu : σ.pc u with
      | idle =>
        rw [hu] at hat
        exact hat.elim
      | inCall call' stage' =>
        rw [hu] at hat
        cases stage' with
        | lockCondvar | asleep | broadcast => cases hat.2
        | lockSize => exact hsize u call' hu
        | wait | unlockCondvar => exact ⟨u, _, next_step hu⟩
        | _ => exact hholds u (by rw [hu]; rfl)

end Sys

/-! ### The work that is left -/

/-- How many steps a call takes from this stage on, if it is not woken again. -/
def Stage.left : Stage → ℕ
  | lockCondvar => 13
  | lockSize => 12
  | check => 11
  | unlockToWait => 10
  | wait => 9
  | asleep => 0
  | lockEnd => 8
  | count => 7
  | cell => 6
  | advance => 5
  | unlockEnd => 4
  | unlockSize => 3
  | unlockCondvar => 2
  | broadcast => 1

/-- The work of a thread, one of `n`: its broadcast makes up for the threads it wakes. -/
def Pc.work (n : ℕ) : Pc α → ℕ
  | .idle => 0
  | .inCall _ stage => 13 * n + stage.left

theorem Stage.left_le (stage : Stage) : stage.left ≤ 13 := by
  cases stage <;> decide

namespace Sys

variable [Fintype T]

/-- The work of all threads. -/
def work (σ : Sys T α) : ℕ := ∑ t, (σ.pc t).work (Fintype.card T)

theorem work_le (σ : Sys T α) : σ.work ≤ 13 * Fintype.card T * (Fintype.card T + 1) := by
  have hone : ∀ t ∈ Finset.univ, (σ.pc t).work (Fintype.card T) ≤ 13 * Fintype.card T + 13 := by
    intro t _
    cases σ.pc t with
    | idle => exact Nat.zero_le _
    | inCall call stage => exact Nat.add_le_add_left stage.left_le _
  have hsum := Finset.sum_le_card_nsmul _ _ _ hone
  rw [Finset.card_univ, Nat.nsmul_eq_mul] at hsum
  calc σ.work ≤ Fintype.card T * (13 * Fintype.card T + 13) := hsum
    _ = 13 * Fintype.card T * (Fintype.card T + 1) := by ring

variable [DecidableEq T]

/-- A step of `t` that goes on in its call. -/
theorem work_goto {next : Stage} (hpc : σ.pc t = .inCall call stage)
    (hgoto : τ.pc = (σ.goto t call next).pc) (hlt : next.left < stage.left) : τ.work < σ.work := by
  refine Finset.sum_lt_sum (fun u _ => ?_) ⟨t, Finset.mem_univ t, ?_⟩
  · by_cases hut : u = t
    · rw [hut, pc_goto hgoto, hpc]
      exact Nat.add_le_add_left hlt.le _
    · rw [hgoto]
      exact (congrArg _ (Function.update_of_ne hut _ _)).le
  · rw [pc_goto hgoto, hpc]
    exact Nat.add_lt_add_left hlt _

/-- The last step of a call. Every other thread gets at most the work of a woken one. -/
theorem work_broadcast (hpc : σ.pc t = .inCall call .broadcast) (hothers : OthersStay σ τ t)
    (hidle : τ.pc t = .idle) : τ.work < σ.work := by
  refine sum_lt_of_pays (c := 13) (Finset.mem_univ t) ?_ fun u _ hu => ?_
  · rw [hpc, hidle, Finset.card_univ]
    exact (Nat.zero_add _).trans_lt (Nat.lt_succ_self _)
  · rcases hothers u hu with heq | ⟨call', hasleep, hwoken⟩
    · rw [heq]
      exact Nat.le_add_right _ _
    · rw [hasleep, hwoken]
      exact le_rfl

/-- Every step lowers the work that is left. -/
theorem work_lt (hstep : σ.next (t, .step) = some τ) : τ.work < σ.work := by
  cases hpc : σ.pc t with
  | idle =>
    simp only [next, hpc] at hstep
    cases hstep
  | inCall call stage =>
    have hcall := (next_step hpc).symm.trans hstep
    cases stage with
    | lockCondvar | lockSize | lockEnd =>
      simp only [stepCall] at hcall
      split at hcall
      · obtain rfl := Option.some_inj.mp hcall
        exact work_goto hpc rfl (by decide)
      · cases hcall
    | check =>
      obtain rfl := Option.some_inj.mp hcall
      refine work_goto hpc rfl ?_
      split <;> decide
    | unlockToWait | wait | count | unlockEnd | unlockSize | unlockCondvar =>
      obtain rfl := Option.some_inj.mp hcall
      exact work_goto hpc rfl (by decide)
    | asleep => cases hcall
    | cell =>
      obtain ⟨υ, haccess, rfl⟩ := Option.map_eq_some_iff.mp hcall
      exact work_goto hpc (congrArg (Function.update · t _) (access_eq_some haccess).1) (by decide)
    | advance =>
      simp only [stepCall] at hcall
      split at hcall
      · cases hcall
      · obtain rfl := Option.some_inj.mp hcall
        exact work_goto hpc rfl (by decide)
    | broadcast =>
      obtain rfl := Option.some_inj.mp hcall
      exact work_broadcast hpc (othersStay_broadcast rfl) (Function.update_self ..)

end Sys

/-- From every state that threads reach, the calls that have begun come to rest: a run without
further calls and spurious wake-ups has at most `13 * n * (n + 1)` steps of the `n` threads, and
when no thread can go on each is outside both functions or sleeps on a condition variable. -/
theorem comes_to_rest [Fintype T] [DecidableEq T] (h : Reachable Sys.next Sys.Start σ)
    (hfits : 8 * σ.queue.pcqCapacity < sizeRange) :
    (∀ es τ, Run Sys.next (fun _ e => e.2 = .step) σ es τ →
      es.length ≤ 13 * Fintype.card T * (Fintype.card T + 1)) ∧
    ((∀ t, σ.next (t, .step) = none) →
      ∀ t, σ.pc t = .idle ∨ ∃ call, σ.pc t = .inCall call .asleep) := by
  refine ⟨fun es τ hrun => ?_, fun hstuck t => ?_⟩
  · refine (hrun.length_le (I := fun _ => True) (fun τ e υ _ hstep hnext => ?_) trivial).trans
      σ.work_le
    obtain ⟨t, a⟩ := e
    obtain rfl : a = .step := hstep
    exact ⟨trivial, Sys.work_lt hnext⟩
  have hinv : σ.Inv ∧ σ.Locks := by
    refine h.invariant (I := fun σ => σ.Inv ∧ σ.Locks) (fun _ hs => ⟨hs.inv, hs.locks⟩) ?_
    exact fun _ e _ hσ _ hnext => ⟨hσ.1.next (t := e.1) (a := e.2) hnext,
      hσ.2.next (t := e.1) (a := e.2) hnext⟩
  cases hpc : σ.pc t with
  | idle => exact .inl rfl
  | inCall call stage =>
    by_cases hstage : stage = .asleep
    · exact .inr ⟨call, by rw [hstage]⟩
    · obtain ⟨u, τ, hstep⟩ := Sys.not_stuck hinv.1 hinv.2 hfits hpc hstage
      cases (hstuck u).symm.trans hstep

/-- A dequeuer that has locked the queue comes to rest. -/
theorem comes_to_rest_two : ∃ σ : Sys Bool ℕ, σ.pc false = .inCall .pcqDequeue .check ∧
    ∀ es τ, Run Sys.next (fun _ e => e.2 = .step) σ es τ → es.length ≤ 78 := by
  obtain ⟨σ, hreach, hσ⟩ := exists_of_runList Sys.next
    [(false, Act.call Call.pcqDequeue), (false, .step), (false, .step)]
    (fun σ : Sys Bool ℕ => decide (σ.pc false = .inCall .pcqDequeue .check ∧
      8 * σ.queue.pcqCapacity < sizeRange))
    Sys.start_two (by decide +kernel)
  obtain ⟨hpc, hfits⟩ := of_decide_eq_true hσ
  exact ⟨σ, hpc, (comes_to_rest hreach hfits).1⟩

end TfsBroker.Pcq
