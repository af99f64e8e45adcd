import TfsBroker.Lib.Counting
import Mathlib.Data.Fintype.Basic

/-!
# Reader-writer locks and their holders

A `Rwlock` is held by one writer or by a number of readers. `Guards l W R` says
that `l` is in the state its holders put it in: `W` are the threads that hold it
for writing and `R` those that hold it for reading. Each operation of the lock has
a rule that says how the holders change with it.

## Main results

* `Guards.wrlock_eq_none` — nobody gets a lock for writing that somebody holds
* `Guards.wrlock`, `Guards.rdlock`, `Guards.unlock_writer`, `Guards.unlock_reader`
-/

namespace TfsBroker

/-- A `pthread_rwlock_t`: held by a writer, or by a number of readers. -/
structure Rwlock where
  writer : Bool
  readers : ℕ
  deriving DecidableEq, Repr

namespace Rwlock

open Counting (countOf)

/-- A lock as `rwl_init` leaves it. -/
def unlocked : Rwlock := ⟨false, 0⟩

/-- `rwl_wrlock`, when it does not have to wait. -/
def wrlock (l : Rwlock) : Option Rwlock :=
  if l.writer = false ∧ l.readers = 0 then some ⟨true, 0⟩ else none

/-- `rwl_rdlock`, when it does not have to wait. -/
def rdlock (l : Rwlock) : Option Rwlock :=
  if l.writer = false then some ⟨false, l.readers + 1⟩ else none

/-- `rwl_unlock`. -/
def unlock (l : Rwlock) : Rwlock :=
  if l.writer then ⟨false, l.readers⟩ else ⟨false, l.readers - 1⟩

variable {T : Type*} [Fintype T] {l l' : Rwlock} {W W' R R' : T → Prop} [DecidablePred R]
  [DecidablePred R'] {t : T}

/-- `l` is held for writing by `W` and for reading by `R`. -/
structure Guards (l : Rwlock) (W R : T → Prop) [DecidablePred R] : Prop where
  writer : ∀ t, W t → l.writer = true
  unique : ∀ t u, W t → W u → t = u
  readers : l.readers = countOf Finset.univ R
  exclusive : l.writer = true → l.readers = 0

namespace Guards

theorem congr (h : Guards l W R) (hW : ∀ u, W' u ↔ W u) (hR : ∀ u, R' u ↔ R u) :
    Guards l W' R' where
  writer u hu := h.writer u ((hW u).mp hu)
  unique u v hu hv := h.unique u v ((hW u).mp hu) ((hW v).mp hv)
  readers := h.readers.trans (Counting.countOf_congr fun u _ => (hR u).symm)
  exclusive := h.exclusive

theorem unlocked (hW : ∀ u, ¬ W u) (hR : ∀ u, ¬ R u) : Guards Rwlock.unlocked W R where
  writer u hu := absurd hu (hW u)
  unique u _ hu := absurd hu (hW u)
  readers := (Counting.countOf_eq_zero.mpr fun u _ => hR u).symm
  exclusive _ := rfl

theorem readers_pos (h : Guards l W R) (ht : R t) : 0 < l.readers := by
  rw [h.readers]
  exact Counting.countOf_pos.mpr ⟨t, Finset.mem_univ t, ht⟩

/-- Nobody gets a lock for writing that somebody holds. -/
theorem wrlock_eq_none (h : Guards l W R) (ht : W t ∨ R t) : l.wrlock = none := by
  refine if_neg fun hfree => ?_
  rcases ht with ht | ht
  · rw [h.writer t ht] at hfree
    exact Bool.noConfusion hfree.1
  · have := h.readers_pos ht
    omega

/-- The thread `t` got the lock for writing. -/
theorem wrlock (h : Guards l W R) (hl : l.wrlock = some l') (hW : ∀ u, W' u ↔ W u ∨ u = t)
    (hR : ∀ u, R' u ↔ R u) : Guards l' W' R' := by
  unfold Rwlock.wrlock at hl
  split at hl
  · rename_i hfree
    obtain rfl := Option.some_inj.mp hl
    have hnone : ∀ u, ¬ W u := fun u hu => by
      rw [h.writer u hu] at hfree
      exact Bool.noConfusion hfree.1
    have ht : ∀ u, W' u → u = t := fun u hu => ((hW u).mp hu).resolve_left (hnone u)
    refine ⟨fun _ _ => rfl, fun u v hu hv => (ht u hu).trans (ht v hv).symm, ?_, fun _ => rfl⟩
    rw [← hfree.2, h.readers]
    exact Counting.countOf_congr fun u _ => (hR u).symm
  · cases hl

/-- The thread `t` got the lock for reading. -/
theorem rdlock [DecidableEq T] (h : Guards l W R) (hl : l.rdlock = some l') (ht : ¬ R t)
    (hW : ∀ u, W' u ↔ W u) (hR : ∀ u, R' u ↔ R u ∨ u = t) : Guards l' W' R' := by
  unfold Rwlock.rdlock at hl
  split at hl
  · rename_i hfree
    obtain rfl := Option.some_inj.mp hl
    have hnone : ∀ u, ¬ W' u := fun u hu => by
      rw [h.writer u ((hW u).mp hu)] at hfree
      exact Bool.noConfusion hfree
    refine ⟨fun u hu => absurd hu (hnone u), fun u _ hu => absurd hu (hnone u), ?_, ?_⟩
    · rw [h.readers]
      refine (Counting.countOf_succ (Finset.mem_univ t) ht ((hR t).mpr (.inr rfl)) ?_).symm
      exact fun u _ hu => ⟨fun hr => (hR u).mpr (.inl hr), fun hr => ((hR u).mp hr).resolve_right hu⟩
    · exact fun hw => Bool.noConfusion hw
  · cases hl

/-- The writer `t` released the lock. -/
theorem unlock_writer (h : Guards l W R) (ht : W t) (hW : ∀ u, W' u ↔ W u ∧ u ≠ t)
    (hR : ∀ u, R' u ↔ R u) : Guards l.unlock W' R' := by
  have hnone : ∀ u, ¬ W' u := fun u hu =>
    ((hW u).mp hu).2 (h.unique u t ((hW u).mp hu).1 ht)
  rw [unlock, if_pos (h.writer t ht)]
  refine ⟨fun u hu => absurd hu (hnone u), fun u _ hu => absurd hu (hnone u), ?_, ?_⟩
  · exact h.readers.trans (Counting.countOf_congr fun u _ => (hR u).symm)
  · exact fun hw => Bool.noConfusion hw

/-- The reader `t` released the lock. -/
theorem unlock_reader [DecidableEq T] (h : Guards l W R) (ht : R t) (hW : ∀ u, W' u ↔ W u)
    (hR : ∀ u, R' u ↔ R u ∧ u ≠ t) : Guards l.unlock W' R' := by
  have hpos := h.readers_pos ht
  have hwriter : ¬ l.writer = true := fun hw => by
    have := h.exclusive hw
    omega
  have hnone : ∀ u, ¬ W' u := fun u hu => hwriter (h.writer u ((hW u).mp hu))
  rw [unlock, if_neg hwriter]
  refine ⟨fun u hu => absurd hu (hnone u), fun u _ hu => absurd hu (hnone u), ?_, ?_⟩
  · have hcount : countOf Finset.univ R = countOf Finset.univ R' + 1 := by
      refine Counting.countOf_succ (Finset.mem_univ t) (fun hr => ((hR t).mp hr).2 rfl) ht ?_
      exact fun u _ hu => ⟨fun hr => ((hR u).mp hr).1, fun hr => (hR u).mpr ⟨hr, hu⟩⟩
    rw [h.readers, hcount]
    rfl
  · exact fun hw => Bool.noConfusion hw

end Guards

end Rwlock

end TfsBroker
