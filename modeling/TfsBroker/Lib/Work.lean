import Mathlib.Algebra.BigOperators.Ring.Finset
import Mathlib.Algebra.Order.BigOperators.Group.Finset

/-!
# Threads that pay for the others

The work that is left in a system is the sum of what is left for its threads. A step of one
thread may make work for the others, as a broadcast does; the system comes to rest if the thread
has set aside more than that for its step.
-/

namespace TfsBroker.Work

variable {ι : Type*} [DecidableEq ι] {threads : Finset ι} {work work' : ι → ℕ} {a : ι} {c : ℕ}

/-- One thread gives up more than it makes the others do, which is at most `c` each. -/
theorem sum_lt_of_pays (ha : a ∈ threads) (hself : work' a + c * threads.card < work a)
    (hothers : ∀ b ∈ threads, b ≠ a → work' b ≤ work b + c) :
    ∑ b ∈ threads, work' b < ∑ b ∈ threads, work b := by
  have hrest : ∑ b ∈ threads.erase a, work' b ≤
      ∑ b ∈ threads.erase a, work b + c * threads.card := by
    calc ∑ b ∈ threads.erase a, work' b
        ≤ ∑ b ∈ threads.erase a, (work b + c) := Finset.sum_le_sum fun b hb =>
          hothers b (Finset.mem_of_mem_erase hb) (Finset.ne_of_mem_erase hb)
      _ = ∑ b ∈ threads.erase a, work b + (threads.erase a).card * c := by
          rw [Finset.sum_add_distrib, Finset.sum_const, Nat.nsmul_eq_mul]
      _ ≤ ∑ b ∈ threads.erase a, work b + c * threads.card := by
          rw [Nat.mul_comm]
          exact Nat.add_le_add_left (Nat.mul_le_mul_left _ Finset.card_erase_le) _
  have hwork' := Finset.add_sum_erase threads work' ha
  have hwork := Finset.add_sum_erase threads work ha
  omega

end TfsBroker.Work
