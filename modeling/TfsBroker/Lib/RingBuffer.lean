import Mathlib.Data.List.Range
import Mathlib.Logic.Function.Basic
import Mathlib.Tactic.Ring

/-!
# The contents of a ring buffer

The elements of a ring buffer of `cap` cells are the `size` cells read cyclically
from `tail` on. Storing into the cell after them appends, and stepping over the
first cell removes the front.

## Main results

* `window_store` — what a store behind the last element does
* `window_succ` — the front and the rest
-/

namespace TfsBroker.RingBuffer

variable {α : Type*} {buf : ℕ → α} {tail size cap : ℕ}

/-- The `size` cells from `tail` on, cyclically in `cap` cells. -/
def window (buf : ℕ → α) (tail size cap : ℕ) : List α :=
  (List.range size).map fun i => buf ((tail + i) % cap)

/-- Fewer than `cap` steps do not come back to the same cell. -/
theorem add_mod_ne {i : ℕ} (hi : i < size) (hsize : size < cap) :
    (tail + i) % cap ≠ (tail + size) % cap := by
  intro heq
  have hdvd : cap ∣ (tail + size) - (tail + i) :=
    Nat.dvd_of_mod_eq_zero (Nat.sub_mod_eq_zero_of_mod_eq heq.symm)
  have hzero : (tail + size) - (tail + i) = 0 := Nat.eq_zero_of_dvd_of_lt hdvd (by omega)
  omega

/-- Storing into the cell behind the last element appends it: no cell of the window
is overwritten. -/
theorem window_store (hsize : size < cap) (x : α) :
    window (Function.update buf ((tail + size) % cap) x) tail (size + 1) cap =
      window buf tail size cap ++ [x] := by
  have hold : ∀ i ∈ List.range size,
      Function.update buf ((tail + size) % cap) x ((tail + i) % cap) = buf ((tail + i) % cap) :=
    fun i hi => Function.update_of_ne (add_mod_ne (List.mem_range.mp hi) hsize) _ _
  rw [window, window, List.range_succ, List.map_append, List.map_congr_left hold]
  simp

/-- The first cell is the front, the window from the next cell on is the rest. -/
theorem window_succ :
    window buf tail (size + 1) cap =
      buf (tail % cap) :: window buf ((tail + 1) % cap) size cap := by
  have hrest : ∀ i ∈ List.range size,
      buf ((tail + (i + 1)) % cap) = buf (((tail + 1) % cap + i) % cap) := by
    intro i _
    rw [Nat.mod_add_mod]
    congr 2
    ring
  rw [window, window, List.range_succ_eq_map, List.map_cons, List.map_map]
  exact congrArg _ (List.map_congr_left hrest)

end TfsBroker.RingBuffer
