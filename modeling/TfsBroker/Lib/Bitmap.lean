import Mathlib.Data.List.Range
import Mathlib.Logic.Function.Basic

/-!
# Allocation vectors

An allocation vector marks every index `FREE` or `TAKEN`; allocation takes the
first free index below a bound.
-/

namespace TfsBroker

/-- The state of one table slot. -/
inductive AllocationState
  | FREE
  | TAKEN
  deriving DecidableEq, Repr

/-- The first index below `n` that is `FREE`. -/
def firstFree (v : ℕ → AllocationState) (n : ℕ) : Option ℕ :=
  (List.range n).find? fun i => v i = .FREE

variable {v : ℕ → AllocationState} {n i : ℕ}

theorem AllocationState.eq_free_iff {x : AllocationState} : x = .FREE ↔ x ≠ .TAKEN := by
  cases x <;> simp

theorem firstFree_eq_some :
    firstFree v n = some i ↔ v i = .FREE ∧ i < n ∧ ∀ j < i, v j = .TAKEN := by
  have htaken : ∀ j, ¬ v j = .FREE ↔ v j = .TAKEN := by
    intro j
    cases v j <;> simp
  simp [firstFree, htaken]

theorem firstFree_eq_none : firstFree v n = none ↔ ∀ i < n, v i = .TAKEN := by
  have htaken : ∀ j, ¬ v j = .FREE ↔ v j = .TAKEN := by
    intro j
    cases v j <;> simp
  simp [firstFree, htaken]

/-- Allocation takes index 0 when it is free and in range. -/
theorem firstFree_of_zero (h : v 0 = .FREE) : firstFree v n = if 0 < n then some 0 else none := by
  split
  · rename_i hpos
    exact firstFree_eq_some.mpr ⟨h, hpos, by simp⟩
  · rename_i hzero
    exact firstFree_eq_none.mpr fun i hi => absurd (Nat.zero_lt_of_lt hi) hzero

theorem firstFree_lt (h : firstFree v n = some i) : i < n :=
  (firstFree_eq_some.mp h).2.1

theorem firstFree_free (h : firstFree v n = some i) : v i = .FREE :=
  (firstFree_eq_some.mp h).1

/-- A `TAKEN` index is never handed out. -/
theorem firstFree_ne (h : firstFree v n = some i) {j : ℕ} (hj : v j = .TAKEN) : i ≠ j := by
  rintro rfl
  rw [firstFree_free h] at hj
  cases hj

end TfsBroker
