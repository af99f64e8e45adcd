import Mathlib.Data.Nat.Notation
import Mathlib.Logic.Relation

/-!
# Runs of a system given by an executable step

A system is a partial function `next : σ → α → Option σ`: in state `s` the
event `a` leads to `t` when `next s a = some t` and is disabled otherwise.
`Reach next start ok` are the states reached from a start state by events that
all meet the side condition `ok`, which may read the state before the event.

## Main results

* `Reach.invariant` — what the start states have and every admitted event keeps
  holds in every reached state
* `Reach.of_runList` — a list of events that executes reaches its last state
* `Reach.mono` — fewer admitted events reach fewer states
* `exists_of_runList` — a state reached by executing a list of events
* `Run.invariant` — what every admitted event keeps holds at the end of a run
* `Run.length_le` — events that all lower a number make short runs
* `answers_eq` — two systems that simulate each other give the same answers
* `Dialogue.refine` — a system that is read as another one has the same dialogues
-/

namespace TfsBroker.Runs

variable {σ α : Type*} {next : σ → α → Option σ} {start : σ → Prop}
  {ok ok' : σ → α → Prop} {s t : σ}

/-- The states reached from `start` by events that all meet `ok`. -/
inductive Reach (next : σ → α → Option σ) (start : σ → Prop) (ok : σ → α → Prop) :
    σ → Prop
  | init {s : σ} : start s → Reach next start ok s
  | step {s t : σ} {a : α} :
      Reach next start ok s → ok s a → next s a = some t → Reach next start ok t

/-- The states reached from `start` by any events. -/
abbrev Reachable (next : σ → α → Option σ) (start : σ → Prop) : σ → Prop :=
  Reach next start fun _ _ => True

/-- Run a list of events, stopping at the first one that is disabled. -/
def runList (next : σ → α → Option σ) : σ → List α → Option σ
  | s, [] => some s
  | s, a :: as => (next s a).bind fun t => runList next t as

theorem Reach.invariant {I : σ → Prop} (hstart : ∀ s, start s → I s)
    (hstep : ∀ s a t, I s → ok s a → next s a = some t → I t)
    (h : Reach next start ok s) : I s := by
  induction h with
  | init hs => exact hstart _ hs
  | step _ hok hnext ih => exact hstep _ _ _ ih hok hnext

theorem Reach.mono (hle : ∀ s a, ok s a → ok' s a) (h : Reach next start ok s) :
    Reach next start ok' s := by
  induction h with
  | init hs => exact .init hs
  | step _ hok hnext ih => exact .step ih (hle _ _ hok) hnext

theorem Reach.reachable (h : Reach next start ok s) : Reachable next start s :=
  h.mono fun _ _ _ => trivial

/-- A list of events that executes reaches its last state, if each event passes a
test that implies the side condition. -/
theorem Reach.of_runList {check : σ → α → Bool} (hcheck : ∀ s a, check s a = true → ok s a)
    {as : List α} (h : Reach next start ok s)
    (hrun : runList (fun s a => if check s a then next s a else none) s as = some t) :
    Reach next start ok t := by
  induction as generalizing s with
  | nil =>
    obtain rfl := Option.some_inj.mp hrun
    exact h
  | cons a as ih =>
    obtain ⟨u, hu, hrest⟩ := Option.bind_eq_some_iff.mp hrun
    dsimp only at hu
    split at hu
    · rename_i hok
      exact ih (.step h (hcheck s a hok) hu) hrest
    · cases hu

/-- A run of events that pass the test and ends in a state with the computable
property `p` reaches such a state. -/
theorem exists_reach_of_runList (next : σ → α → Option σ) (ok : σ → α → Prop)
    (check : σ → α → Bool) (hcheck : ∀ s a, check s a = true → ok s a) (as : List α)
    (p : σ → Bool) (h : start s)
    (hrun : (runList (fun s a => if check s a then next s a else none) s as).any p = true) :
    ∃ t, Reach next start ok t ∧ p t = true := by
  obtain ⟨t, ht, hp⟩ := (Option.any_eq_true _ _).mp hrun
  exact ⟨t, Reach.of_runList hcheck (.init h) ht, hp⟩

/-- The same for a run of any events. -/
theorem exists_of_runList (next : σ → α → Option σ) (as : List α) (p : σ → Bool)
    (h : start s) (hrun : (runList next s as).any p = true) :
    ∃ t, Reachable next start t ∧ p t = true :=
  exists_reach_of_runList next _ (fun _ _ => true) (fun _ _ _ => trivial) as p h
    (by simpa using hrun)

/-! ### Runs of bounded length -/

/-- A run of events that all meet `ok`, from one state to another. -/
inductive Run (next : σ → α → Option σ) (ok : σ → α → Prop) : σ → List α → σ → Prop
  | nil (s : σ) : Run next ok s [] s
  | cons {s t u : σ} {a : α} {as : List α} :
      ok s a → next s a = some t → Run next ok t as u → Run next ok s (a :: as) u

/-- A list of events that executes is a run, if each event passes a test that implies the side
condition. -/
theorem Run.of_runList {check : σ → α → Bool} (hcheck : ∀ s a, check s a = true → ok s a)
    {as : List α} (hrun : runList (fun s a => if check s a then next s a else none) s as = some t) :
    Run next ok s as t := by
  induction as generalizing s with
  | nil =>
    obtain rfl := Option.some_inj.mp hrun
    exact .nil s
  | cons a as ih =>
    obtain ⟨u, hu, hrest⟩ := Option.bind_eq_some_iff.mp hrun
    dsimp only at hu
    split at hu
    · rename_i hok
      exact .cons (hcheck s a hok) hu (ih hrest)
    · cases hu

/-- What every admitted event keeps holds at the end of a run. -/
theorem Run.invariant {I : σ → Prop} {as : List α}
    (hstep : ∀ s a t, I s → ok s a → next s a = some t → I t)
    (h : Run next ok s as t) (hs : I s) : I t := by
  induction h with
  | nil => exact hs
  | cons hok hnext _ ih => exact ih (hstep _ _ _ hs hok hnext)

/-- Where every event that meets `ok` lowers `work`, and keeps what that takes, a run has at most
as many events as there is work. -/
theorem Run.length_le {I : σ → Prop} {work : σ → ℕ} {as : List α}
    (hstep : ∀ s a t, I s → ok s a → next s a = some t → I t ∧ work t < work s)
    (h : Run next ok s as t) (hs : I s) : as.length ≤ work s := by
  induction h with
  | nil => exact Nat.zero_le _
  | cons hok hnext _ ih =>
    obtain ⟨ht, hlt⟩ := hstep _ _ _ hs hok hnext
    exact Nat.le_trans (Nat.succ_le_succ (ih ht)) hlt

/-! ### Answers

A step that answers is a partial function `step : σ → α → Option (β × σ)`. -/

section Answers

variable {τ β : Type*} {step : σ → α → Option (β × σ)} {step' : τ → α → Option (β × τ)} {u : τ}

/-- What a list of calls answers, up to the first one that does not return. -/
def answers (step : σ → α → Option (β × σ)) (s : σ) : List α → List (Option β)
  | [] => []
  | a :: as =>
    match step s a with
    | none => [none]
    | some (b, t) => some b :: answers step t as

/-- Every call of the run meets `ok`, in the state before it. -/
def Along (ok : σ → α → Prop) (step : σ → α → Option (β × σ)) (s : σ) : List α → Prop
  | [] => True
  | a :: as => ok s a ∧ ∀ b t, step s a = some (b, t) → Along ok step t as

instance decidableAlong {ok : σ → α → Prop} [∀ s a, Decidable (ok s a)] :
    (s : σ) → (as : List α) → Decidable (Along ok step s as)
  | _, [] => .isTrue trivial
  | s, a :: as =>
    match h : step s a with
    | none => decidable_of_iff (ok s a) (by simp [Along, h])
    | some (b, t) =>
      let _ : Decidable (Along ok step t as) := decidableAlong t as
      decidable_of_iff (ok s a ∧ Along ok step t as) (by simp [Along, h])

/-- Calls that answer alike in related states, and leave them related, give the same
answers. -/
theorem answers_eq {R : σ → τ → Prop}
    (hstep : ∀ s u a, R s u → ok s a →
      Option.Rel (fun x y => x.1 = y.1 ∧ R x.2 y.2) (step s a) (step' u a))
    {as : List α} (h : R s u) (hok : Along ok step s as) :
    answers step' u as = answers step s as := by
  induction as generalizing s u with
  | nil => rfl
  | cons a as ih =>
    obtain ⟨hhere, hrest⟩ := hok
    have hcall := hstep s u a h hhere
    simp only [answers]
    cases hs : step s a with
    | none =>
      rw [hs] at hcall
      cases hu : step' u a with
      | none => rfl
      | some y =>
        rw [hu] at hcall
        cases hcall
    | some x =>
      rw [hs] at hcall
      cases hu : step' u a with
      | none =>
        rw [hu] at hcall
        cases hcall
      | some y =>
        rw [hu] at hcall
        obtain ⟨hanswer, hrel⟩ : x.1 = y.1 ∧ R x.2 y.2 := by
          cases hcall
          assumption
        have htail := ih hrel (hrest x.1 x.2 hs)
        simp only [hanswer, htail]

end Answers

/-! ### Dialogues

A step relation `step : σ → α → β → σ → Prop` allows the answer `b` to the call `a`. -/

section Dialogue

variable {τ β : Type*} {step : σ → α → β → σ → Prop} {step' : τ → α → β → τ → Prop}

/-- A list of calls with an allowed answer to each. -/
inductive Dialogue (step : σ → α → β → σ → Prop) : σ → List α → List β → σ → Prop
  | nil (s : σ) : Dialogue step s [] [] s
  | cons {s t u : σ} {a : α} {b : β} {as : List α} {bs : List β} :
      step s a b t → Dialogue step t as bs u → Dialogue step s (a :: as) (b :: bs) u

/-- What every answered call keeps holds at the end of a dialogue. -/
theorem Dialogue.invariant {I : σ → Prop} (hstep : ∀ s a b t, I s → step s a b t → I t)
    {as : List α} {bs : List β} (h : Dialogue step s as bs t) (hs : I s) : I t := by
  induction h with
  | nil => exact hs
  | cons hcall _ ih => exact ih (hstep _ _ _ _ hs hcall)

/-- A system that is read as another one after every step, which then allows the same answer, has
only dialogues that the other one has. -/
theorem Dialogue.refine {I : σ → Prop} {view : σ → τ}
    (hstep : ∀ s a b t, I s → step s a b t → I t ∧ step' (view s) a b (view t))
    {as : List α} {bs : List β} (h : Dialogue step s as bs t) (hs : I s) :
    Dialogue step' (view s) as bs (view t) := by
  induction h with
  | nil => exact .nil _
  | cons hcall _ ih =>
    obtain ⟨hinv, hcall'⟩ := hstep _ _ _ _ hs hcall
    exact .cons hcall' (ih hinv)

end Dialogue

end TfsBroker.Runs
