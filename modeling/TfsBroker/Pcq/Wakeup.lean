import TfsBroker.Pcq.Fifo

/-!
# Wake-ups of the queue

A call that found it has to wait releases `pcq_current_size_lock` before it calls
`cond_wait`, and the call that makes it obsolete broadcasts without any lock. A
broadcast in between is lost. Every other order is safe: whoever waits, or is about
to, either still has to or some call on the other side has yet to broadcast.

## Main results

* `no_lost_wakeup` — no thread sleeps for nothing, in every run whose broadcasts are
  heard by all threads that need them
* `wakeup_lost` — a run in which a thread sleeps beside an element
-/

namespace TfsBroker.Pcq

open Runs

/-- A call at this stage has changed `pcq_current_size` and not yet broadcast. -/
def Stage.broadcastPending : Stage → Bool
  | cell | advance | unlockEnd | unlockSize | unlockCondvar | broadcast => true
  | _ => false

/-- A call at this stage goes to sleep without a further test, or is asleep. -/
def Stage.waits : Stage → Bool
  | wait | asleep => true
  | _ => false

namespace Sys

variable {T α : Type*} {σ τ : Sys T α} {t u v : T} {call : Call α} {stage : Stage} {side : Side}

/-- The call of `v` on `side` will broadcast to the other side. -/
def Owes (σ : Sys T α) (v : T) (side : Side) : Prop :=
  ∃ call stage, σ.pc v = .inCall call stage ∧ call.side = side ∧ stage.broadcastPending = true

/-- If the step is a broadcast, then every thread it is meant for that is about to
call `cond_wait` still has to wait, or another broadcast is to come. -/
def BroadcastHeard (σ : Sys T α) (e : T × Act α) : Prop :=
  ∀ call, σ.pc e.1 = .inCall call .broadcast →
    ∀ u call', σ.pc u = .inCall call' .wait → call'.side = call.side.other →
      σ.queue.mustWait call'.side ∨ ∃ v, v ≠ e.1 ∧ σ.Owes v call.side

/-- Whoever waits has to, or some call on the other side has yet to broadcast. -/
def Heard (σ : Sys T α) : Prop :=
  ∀ u call stage, σ.pc u = .inCall call stage → stage.waits = true →
    σ.queue.mustWait call.side ∨ ∃ v, σ.Owes v call.side.other

/-- All other threads are asleep or outside both functions. -/
def Quiet (σ : Sys T α) (t : T) : Prop :=
  ∀ u, u ≠ t → σ.pc u = .idle ∨ ∃ call, σ.pc u = .inCall call .asleep

/-- Nobody sleeps for nothing while all other threads are quiet. -/
def NoLostWakeup (σ : Sys T α) : Prop :=
  ∀ t call, σ.pc t = .inCall call .asleep → σ.Quiet t → σ.queue.mustWait call.side

theorem not_owes_of_stage (hpc : σ.pc t = .inCall call stage)
    (hstage : stage.broadcastPending = false) : ¬ σ.Owes t side := by
  rintro ⟨call', stage', hpc', -, hpending⟩
  obtain ⟨rfl, rfl⟩ := Pc.inCall.inj (hpc.symm.trans hpc')
  rw [hstage] at hpending
  cases hpending

/-- Who is woken owed no broadcast. -/
theorem OthersStay.owes (h : OthersStay σ τ t) (hv : v ≠ t) (howes : σ.Owes v side) :
    τ.Owes v side := by
  rcases h v hv with heq | ⟨call, hasleep, -⟩
  · obtain ⟨call, stage, hpc, hrest⟩ := howes
    exact ⟨call, stage, heq.trans hpc, hrest⟩
  · exact absurd howes (not_owes_of_stage hasleep rfl)

/-- Who waits after the step of another thread waited before. -/
theorem OthersStay.waits (h : OthersStay σ τ t) (hu : u ≠ t) (hpc : τ.pc u = .inCall call stage)
    (hstage : stage.waits = true) : σ.pc u = .inCall call stage := by
  rcases h u hu with heq | ⟨call', -, hwoken⟩
  · exact heq.symm.trans hpc
  · obtain ⟨-, rfl⟩ := Pc.inCall.inj (hwoken.symm.trans hpc)
    cases hstage

/-- A step that changes neither who has to wait nor the broadcasts to come. -/
theorem Heard.same (h : σ.Heard) (hothers : OthersStay σ τ t)
    (hqueue : ∀ side, σ.queue.mustWait side → τ.queue.mustWait side)
    (howes : ∀ side, σ.Owes t side → τ.Owes t side)
    (hself : ∀ call stage, τ.pc t = .inCall call stage → stage.waits = true →
      τ.queue.mustWait call.side ∨ ∃ v, τ.Owes v call.side.other) : τ.Heard := by
  intro u call stage hpc hstage
  by_cases hut : u = t
  · subst hut
    exact hself call stage hpc hstage
  · refine (h u call stage (hothers.waits hut hpc hstage) hstage).imp (hqueue _) ?_
    rintro ⟨v, hv⟩
    by_cases hvt : v = t
    · subst hvt
      exact ⟨v, howes _ hv⟩
    · exact ⟨v, hothers.owes hvt hv⟩

variable [DecidableEq T]

/-- A step of `t` that goes on in its call and does not change `pcq_current_size`. -/
theorem Heard.goto {next : Stage} (h : σ.Heard) (hpc : σ.pc t = .inCall call stage)
    (hgoto : τ.pc = (σ.goto t call next).pc)
    (hqueue : ∀ side, σ.queue.mustWait side → τ.queue.mustWait side)
    (hpending : stage.broadcastPending = true → next.broadcastPending = true)
    (hwaits : next.waits = false) : τ.Heard := by
  have hpc' := pc_goto hgoto
  refine h.same (othersStay_goto hgoto) hqueue (fun side => ?_) fun call' stage' hnext hstage => ?_
  · rintro ⟨call', stage', hold, hside, hstage⟩
    obtain ⟨rfl, rfl⟩ := Pc.inCall.inj (hpc.symm.trans hold)
    exact ⟨call, next, hpc', hside, hpending hstage⟩
  · obtain ⟨-, rfl⟩ := Pc.inCall.inj (hpc'.symm.trans hnext)
    rw [hwaits] at hstage
    cases hstage

/-- The change of `pcq_current_size` makes threads on the other side wait for
nothing, but its call owes them a broadcast. -/
theorem Heard.count (h : σ.Heard) (hpc : σ.pc t = .inCall call .count)
    (hgo : ¬ σ.queue.mustWait call.side) (hgoto : τ.pc = (σ.goto t call .cell).pc) :
    τ.Heard := by
  have hothers := othersStay_goto hgoto
  have hpc' := pc_goto hgoto
  intro u call' stage hu hstage
  have hut : u ≠ t := by
    rintro rfl
    obtain ⟨-, rfl⟩ := Pc.inCall.inj (hpc'.symm.trans hu)
    cases hstage
  by_cases hside : call'.side = call.side
  · rcases h u call' stage (hothers.waits hut hu hstage) hstage with hwait | ⟨v, hv⟩
    · exact absurd (hside ▸ hwait) hgo
    · have hvt : v ≠ t := by
        rintro rfl
        exact not_owes_of_stage hpc rfl hv
      exact .inr ⟨v, hothers.owes hvt hv⟩
  · refine .inr ⟨t, call, .cell, hpc', ?_, rfl⟩
    cases hc : call.side <;> cases hc' : call'.side <;> simp_all [Side.other]

/-- A broadcast wakes up all that sleep, and those about to sleep are heard. -/
theorem Heard.broadcast {a : Act α} (h : σ.Heard) (hheard : σ.BroadcastHeard (t, a))
    (hpc : σ.pc t = .inCall call .broadcast)
    (hgoto : τ.pc = Function.update (σ.wakeAll call.side.other).pc t .idle)
    (hqueue : τ.queue = σ.queue) : τ.Heard := by
  have hothers : OthersStay σ τ t := othersStay_broadcast hgoto
  intro u call' stage hu hstage
  have hut : u ≠ t := by
    rintro rfl
    rw [hgoto, Function.update_self] at hu
    cases hu
  have hold := hothers.waits hut hu hstage
  rw [hqueue]
  by_cases hside : call'.side = call.side.other
  · -- those that slept are awake, so `u` is about to sleep
    have hwait : stage = .wait := by
      cases stage with
      | wait => rfl
      | asleep =>
        rw [hgoto, Function.update_of_ne hut] at hu
        simp [wakeAll, hold, hside] at hu
      | _ => cases hstage
    subst hwait
    refine (hheard call hpc u call' hold hside).imp_right ?_
    rintro ⟨v, hvt, hv⟩
    refine ⟨v, ?_⟩
    have hback : call'.side.other = call.side := by
      rw [hside]
      cases call.side <;> rfl
    rw [hback]
    exact hothers.owes hvt hv
  · refine (h u call' stage hold hstage).imp_right ?_
    rintro ⟨v, hv⟩
    have hvt : v ≠ t := by
      rintro rfl
      obtain ⟨c, s, hc, hcside, -⟩ := hv
      obtain ⟨rfl, -⟩ := Pc.inCall.inj (hpc.symm.trans hc)
      refine hside ?_
      rw [hcside]
      cases call'.side <;> rfl
    exact ⟨v, hothers.owes hvt hv⟩

/-- A step of a call keeps `Heard`, if its broadcast is heard. -/
theorem Heard.stepCall (h : σ.Heard) (hinv : σ.Inv) {a : Act α}
    (hheard : σ.BroadcastHeard (t, a)) (hpc : σ.pc t = .inCall call stage)
    (hstep : σ.stepCall t call stage = some τ) : τ.Heard := by
  have hview : (σ.pc t).holdsSize = true → View σ.queue σ.put σ.taken (σ.pc t) := fun ht =>
    hinv.held t (hinv.holder t ht)
  rw [hpc] at hview
  cases stage with
  | lockCondvar | lockSize | lockEnd =>
    simp only [Sys.stepCall] at hstep
    split at hstep
    · obtain rfl := Option.some_inj.mp hstep
      exact h.goto hpc rfl (fun _ => id) Bool.noConfusion rfl
    · cases hstep
  | check =>
    obtain rfl := Option.some_inj.mp hstep
    refine h.goto hpc rfl (fun _ => id) Bool.noConfusion ?_
    split <;> rfl
  | unlockToWait =>
    -- the test was made under the lock, so it still holds
    obtain ⟨-, hwait⟩ := hview rfl
    obtain rfl := Option.some_inj.mp hstep
    refine h.same (othersStay_goto rfl) (fun _ => id)
      (fun side hside => absurd hside (not_owes_of_stage hpc rfl)) fun call' stage' hpc' _ => ?_
    obtain ⟨rfl, -⟩ := Pc.inCall.inj ((pc_goto rfl).symm.trans hpc')
    exact .inl hwait
  | wait =>
    have hτ := Option.some_inj.mp hstep
    have hgoto : τ.pc = (σ.goto t call .asleep).pc := by rw [← hτ]
    have hothers : OthersStay σ τ t := othersStay_goto hgoto
    subst hτ
    refine h.same hothers (fun _ => id)
      (fun side hside => absurd hside (not_owes_of_stage hpc rfl)) fun call' stage' hpc' _ => ?_
    obtain ⟨rfl, -⟩ := Pc.inCall.inj ((pc_goto rfl).symm.trans hpc')
    refine (h t call .wait hpc rfl).imp_right ?_
    rintro ⟨v, hv⟩
    have hvt : v ≠ t := by
      rintro rfl
      exact not_owes_of_stage hpc rfl hv
    exact ⟨v, hothers.owes hvt hv⟩
  | asleep => cases hstep
  | count =>
    obtain ⟨-, hgo⟩ := hview rfl
    obtain rfl := Option.some_inj.mp hstep
    exact h.count hpc hgo rfl
  | cell =>
    obtain ⟨υ, haccess, rfl⟩ := Option.map_eq_some_iff.mp hstep
    obtain ⟨hsame, -, hwait⟩ := access_eq_some haccess
    exact h.goto hpc (congrArg (Function.update · t _) hsame) (fun side => (hwait side).mpr)
      (fun _ => rfl) rfl
  | advance =>
    simp only [Sys.stepCall] at hstep
    split at hstep
    · cases hstep
    · obtain rfl := Option.some_inj.mp hstep
      exact h.goto hpc rfl (fun side => PcQueue.mustWait_advance.mpr) (fun _ => rfl) rfl
  | unlockEnd | unlockSize | unlockCondvar =>
    obtain rfl := Option.some_inj.mp hstep
    exact h.goto hpc rfl (fun _ => id) (fun _ => rfl) rfl
  | broadcast =>
    obtain rfl := Option.some_inj.mp hstep
    exact h.broadcast hheard hpc rfl rfl

theorem Heard.next {a : Act α} (h : σ.Heard) (hinv : σ.Inv) (hheard : σ.BroadcastHeard (t, a))
    (hnext : next σ (t, a) = some τ) : τ.Heard := by
  rcases next_cases hnext with ⟨call, hpc, rfl⟩ | ⟨call, hpc, rfl⟩ | ⟨call, stage, hpc, hstep⟩
  · refine h.same (othersStay_goto rfl) (fun _ => id) (fun side => ?_) fun call' stage hpc' hwaits => ?_
    · rintro ⟨call', stage, hpc', -⟩
      rw [hpc] at hpc'
      cases hpc'
    · obtain ⟨-, rfl⟩ := Pc.inCall.inj ((pc_goto rfl).symm.trans hpc')
      cases hwaits
  · exact h.goto hpc rfl (fun _ => id) Bool.noConfusion rfl
  · exact h.stepCall hinv hheard hpc hstep

omit [DecidableEq T] in
theorem Start.heard (h : Start σ) : σ.Heard := by
  intro u call stage hpc _
  rw [h.2.2.2.1 u] at hpc
  cases hpc

omit [DecidableEq T] in
/-- A quiet thread owes no broadcast. -/
theorem Heard.noLostWakeup (h : σ.Heard) : σ.NoLostWakeup := by
  intro t call hpc hquiet
  refine (h t call .asleep hpc rfl).resolve_right ?_
  rintro ⟨v, hv⟩
  by_cases hvt : v = t
  · subst hvt
    exact not_owes_of_stage hpc rfl hv
  · rcases hquiet v hvt with hidle | ⟨call', hasleep⟩
    · obtain ⟨call', stage, hpc', -⟩ := hv
      rw [hidle] at hpc'
      cases hpc'
    · exact not_owes_of_stage hasleep rfl hv

end Sys

variable {T α : Type*} [DecidableEq T] {σ : Sys T α}

/-- In every run whose broadcasts are heard, a thread sleeps beside quiet threads
only if it has to: a dequeuer on an empty queue, an enqueuer on a full one. -/
theorem no_lost_wakeup (h : Reach Sys.next Sys.Start Sys.BroadcastHeard σ) : σ.NoLostWakeup := by
  have hinv : σ.Inv ∧ σ.Heard := by
    refine h.invariant (I := fun σ => σ.Inv ∧ σ.Heard) (fun _ hs => ⟨hs.inv, hs.heard⟩) ?_
    exact fun _ e _ hσ hheard hnext => ⟨hσ.1.next hnext, hσ.2.next hσ.1 hheard hnext⟩
  exact hinv.2.noLostWakeup

/-- The step is no broadcast. -/
def Pc.notBroadcast {α : Type*} : Pc α → Bool
  | .inCall _ .broadcast => false
  | _ => true

omit [DecidableEq T] in
theorem broadcastHeard_of_notBroadcast (σ : Sys T α) (e : T × Act α)
    (h : (σ.pc e.1).notBroadcast = true) : σ.BroadcastHeard e := by
  intro call hpc
  rw [hpc] at h
  cases h

/-- A dequeuer sleeps on an empty queue. -/
theorem no_lost_wakeup_two : ∃ σ : Sys Bool ℕ, σ.pc false = .inCall .pcqDequeue .asleep ∧
    σ.NoLostWakeup := by
  obtain ⟨σ, hreach, hσ⟩ := exists_reach_of_runList Sys.next Sys.BroadcastHeard
    (fun σ e => (σ.pc e.1).notBroadcast) broadcastHeard_of_notBroadcast
    ((false, Act.call Call.pcqDequeue) :: List.replicate 5 (false, .step))
    (fun σ : Sys Bool ℕ => decide (σ.pc false = .inCall .pcqDequeue .asleep))
    Sys.start_two (by decide +kernel)
  exact ⟨σ, of_decide_eq_true hσ, no_lost_wakeup hreach⟩

/-- The dequeuer found an empty queue and sleeps beside the element that was put in
before it called `cond_wait`. -/
theorem wakeup_lost : ¬ ∀ σ : Sys Bool ℕ, Reachable Sys.next Sys.Start σ → σ.NoLostWakeup := by
  intro hheard
  obtain ⟨σ, hreach, hσ⟩ := exists_of_runList Sys.next
    ((false, Act.call Call.pcqDequeue) :: List.replicate 4 (false, .step) ++
      callSteps true (.pcqEnqueue 7) ++ [(false, .step)])
    (fun σ : Sys Bool ℕ => decide (σ.pc false = .inCall .pcqDequeue .asleep ∧
      σ.pc true = .idle ∧ σ.queue.pcqCurrentSize = 1))
    Sys.start_two (by decide +kernel)
  obtain ⟨hasleep, hidle, hsize⟩ := of_decide_eq_true hσ
  have hquiet : σ.Quiet false := by
    intro u hu
    cases u with
    | false => exact absurd rfl hu
    | true => exact .inl hidle
  have hempty : σ.queue.pcqCurrentSize = 0 := hheard σ hreach false _ hasleep hquiet
  omega

end TfsBroker.Pcq
