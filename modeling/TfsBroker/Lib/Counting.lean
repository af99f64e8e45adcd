import Mathlib.Data.Finset.Card

/-!
# Counting the members of a table that have a property

The number of indices in a finite set that satisfy a predicate changes by one
when exactly one index starts or stops to satisfy it.
-/

namespace TfsBroker.Counting

variable {α : Type*} {s : Finset α} {p q : α → Prop} [DecidablePred p] [DecidablePred q] {a : α}

/-- The number of members of `s` with property `p`. -/
def countOf (s : Finset α) (p : α → Prop) [DecidablePred p] : ℕ := (s.filter p).card

theorem countOf_congr (h : ∀ b ∈ s, p b ↔ q b) : countOf s p = countOf s q :=
  congrArg Finset.card (Finset.filter_congr h)

/-- One index joins. -/
theorem countOf_succ [DecidableEq α] (ha : a ∈ s) (hp : ¬ p a) (hq : q a)
    (h : ∀ b ∈ s, b ≠ a → (p b ↔ q b)) : countOf s q = countOf s p + 1 := by
  have hinsert : s.filter q = insert a (s.filter p) := by
    ext b
    by_cases hb : b = a
    · subst hb
      simp [ha, hq]
    · simp only [Finset.mem_filter, Finset.mem_insert, hb, false_or]
      exact and_congr_right fun hbs => (h b hbs hb).symm
  rw [countOf, hinsert, Finset.card_insert_of_notMem (by simp [hp]), countOf]

theorem countOf_pos : 0 < countOf s p ↔ ∃ b ∈ s, p b := by
  simp [countOf, Finset.card_pos, Finset.Nonempty]

theorem countOf_eq_zero : countOf s p = 0 ↔ ∀ b ∈ s, ¬ p b := by
  simp [countOf, Finset.filter_eq_empty_iff]

theorem countOf_le_card : countOf s p ≤ s.card := Finset.card_filter_le _ _

theorem countOf_le_one (h : ∀ b ∈ s, p b → b = a) : countOf s p ≤ 1 := by
  refine Finset.card_le_one.mpr fun b hb c hc => ?_
  rw [Finset.mem_filter] at hb hc
  exact (h b hb.1 hb.2).trans (h c hc.1 hc.2).symm

/-- Two members with the property make the count at least two. -/
theorem eq_of_countOf_le_one (h : countOf s p ≤ 1) {b : α} (ha : a ∈ s) (hpa : p a) (hb : b ∈ s)
    (hpb : p b) : a = b :=
  Finset.card_le_one.mp h _ (by simp [ha, hpa]) _ (by simp [hb, hpb])

end TfsBroker.Counting
