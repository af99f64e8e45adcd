import TfsBroker.Pcq.Fifo

/-!
# What a call does with its element

A call of `pcq_enqueue` stores its element and one of `pcq_dequeue` reads one, each at a single
step; all other steps leave the elements alone. The element that is read is the next one that was
stored and not yet read.

## Main results

* `Sys.step_access` — the three kinds of steps of a call
* `Sys.getElem?_put` — the element that is read
-/

namespace TfsBroker.Pcq

variable {T α : Type*} {σ τ : Sys T α} {t : T} {call : Call α} {stage : Stage}

/-- The call has stored or read its element. -/
def Stage.past : Stage → Bool
  | advance | unlockEnd | unlockSize | unlockCondvar | broadcast => true
  | _ => false

namespace Sys

/-- What a step of a call does: it goes on, stores or reads its element, or returns. -/
inductive Access (σ : Sys T α) (t : T) (call : Call α) (stage : Stage) (τ : Sys T α) : Prop
  | goes (stage' : Stage) : τ.pc t = .inCall call stage' → stage'.past = stage.past →
      stage ≠ .cell → stage ≠ .broadcast → τ.put = σ.put → τ.taken = σ.taken →
      Access σ t call stage τ
  | stores (elem : α) : stage = .cell → call = .pcqEnqueue elem →
      τ.pc t = .inCall call .advance → τ.put = σ.put ++ [elem] → τ.taken = σ.taken →
      Access σ t call stage τ
  | reads : stage = .cell → call = .pcqDequeue → τ.pc t = .inCall call .advance →
      τ.put = σ.put → τ.taken = σ.taken ++ [σ.queue.pcqBuffer σ.queue.pcqTail] →
      Access σ t call stage τ
  | returns : stage = .broadcast → τ.pc t = .idle → τ.put = σ.put → τ.taken = σ.taken →
      Access σ t call stage τ

variable [DecidableEq T]

theorem of_next_call (h : next σ (t, .call call) = some τ) :
    σ.pc t = .idle ∧ τ = σ.goto t call .lockCondvar := by
  simp only [next] at h
  split at h
  · rename_i call' hidle heq
    obtain rfl := Act.call.inj heq
    exact ⟨hidle, (Option.some_inj.mp h).symm⟩
  · cases ‹_ = Act.wake›
  · cases ‹_ = Act.step›
  · cases h

theorem of_next_step (h : next σ (t, .step) = some τ) :
    ∃ call stage, σ.pc t = .inCall call stage ∧ σ.stepCall t call stage = some τ := by
  simp only [next] at h
  split at h
  · cases ‹_ = Act.call _›
  · cases ‹_ = Act.wake›
  · rename_i call stage hpc _
    exact ⟨call, stage, hpc, h⟩
  · cases h

theorem of_next_wake (h : next σ (t, .wake) = some τ) :
    ∃ call, σ.pc t = .inCall call .asleep ∧ τ = σ.goto t call .lockCondvar := by
  simp only [next] at h
  split at h
  · cases ‹_ = Act.call _›
  · rename_i call hasleep _
    exact ⟨call, hasleep, (Option.some_inj.mp h).symm⟩
  · cases ‹_ = Act.step›
  · cases h

theorem step_access (hstep : σ.stepCall t call stage = some τ) :
    OthersStay σ τ t ∧ Access σ t call stage τ := by
  cases stage with
  | lockCondvar | lockSize | lockEnd =>
    simp only [stepCall] at hstep
    split at hstep
    · obtain rfl := Option.some_inj.mp hstep
      exact ⟨othersStay_goto rfl, .goes _ (pc_goto rfl) rfl (by simp) (by simp) rfl rfl⟩
    · cases hstep
  | advance =>
    simp only [stepCall] at hstep
    split at hstep
    · cases hstep
    · obtain rfl := Option.some_inj.mp hstep
      exact ⟨othersStay_goto rfl, .goes _ (pc_goto rfl) rfl (by simp) (by simp) rfl rfl⟩
  | check =>
    obtain rfl := Option.some_inj.mp hstep
    refine ⟨othersStay_goto rfl, .goes _ (pc_goto rfl) ?_ (by simp) (by simp) rfl rfl⟩
    split <;> rfl
  | unlockToWait | wait | count | unlockEnd | unlockSize | unlockCondvar =>
    obtain rfl := Option.some_inj.mp hstep
    exact ⟨othersStay_goto rfl, .goes _ (pc_goto rfl) rfl (by simp) (by simp) rfl rfl⟩
  | asleep => cases hstep
  | cell =>
    obtain ⟨υ, haccess, rfl⟩ := Option.map_eq_some_iff.mp hstep
    have hothers : OthersStay σ (υ.goto t call .advance) t := fun u hu => .inl
      ((Function.update_of_ne hu _ _).trans (congrFun (access_eq_some haccess).1 u))
    refine ⟨hothers, ?_⟩
    unfold access at haccess
    split at haccess
    · cases call with
      | pcqEnqueue elem =>
        obtain rfl := Option.some_inj.mp haccess
        exact .stores elem rfl rfl (pc_goto rfl) rfl rfl
      | pcqDequeue =>
        obtain rfl := Option.some_inj.mp haccess
        exact .reads rfl rfl (pc_goto rfl) rfl rfl
    · cases haccess
  | broadcast =>
    obtain rfl := Option.some_inj.mp hstep
    exact ⟨othersStay_broadcast rfl, .returns rfl (Function.update_self ..) rfl rfl⟩

omit [DecidableEq T] in
/-- What was taken out is the first part of what was put in, whoever is in the middle of a call. -/
theorem Inv.prefix_put (h : σ.Inv) : σ.taken <+: σ.put := by
  cases hlock : σ.currentSizeLock with
  | none => exact ⟨_, (h.free hlock).order⟩
  | some t =>
    have hview := h.held t hlock
    cases hpc : σ.pc t with
    | idle =>
      rw [hpc] at hview
      exact hview.elim
    | inCall call stage =>
      rw [hpc] at hview
      cases stage with
      | check | unlockEnd | unlockSize => exact ⟨_, Fifo.order hview⟩
      | unlockToWait | lockEnd | count => exact ⟨_, hview.1.order⟩
      | cell =>
        obtain ⟨q₀, hfifo, -⟩ := hview
        exact ⟨_, hfifo.order⟩
      | advance => exact ⟨_, hview.2.order⟩
      | _ => exact hview.elim

/-- A call reads the first element that was stored and not yet read. -/
theorem getElem?_put (h : σ.Inv) (hpc : σ.pc t = .inCall call stage)
    (hstep : σ.stepCall t call stage = some τ) {elem : α} (hput : τ.put = σ.put)
    (htaken : τ.taken = σ.taken ++ [elem]) : σ.put[σ.taken.length]? = some elem := by
  obtain ⟨rest, hrest⟩ := (h.stepCall hpc hstep).prefix_put
  rw [← hput, ← hrest, htaken, List.append_assoc,
    List.getElem?_append_right le_rfl, Nat.sub_self]
  rfl

end Sys

end TfsBroker.Pcq
