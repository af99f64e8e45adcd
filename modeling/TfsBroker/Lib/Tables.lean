import Mathlib.Data.Finset.Card
import Mathlib.Data.Finset.Range

/-!
# Tables of slots that hold a set of keys

A table of `n` slots, each of which holds at most one key, and no key twice, is a
finite set with at most `n` members. A key is entered in an empty slot, and removed
by emptying its slot.

## Main results

* `Tabulates.enter`, `Tabulates.clear` — a slot is filled or emptied
* `Tabulates.exists_empty` — a slot is empty unless the set has `n` members
-/

namespace TfsBroker.Tables

variable {α : Type*} {holds holds' : ℕ → α → Prop} {n i : ℕ} {S : Finset α} {a : α}

/-- The slots below `n` hold the keys in `S`, one each. -/
structure Tabulates (holds : ℕ → α → Prop) (n : ℕ) (S : Finset α) : Prop where
  mem_iff : ∀ a, a ∈ S ↔ ∃ i < n, holds i a
  key_unique : ∀ i < n, ∀ a b, holds i a → holds i b → a = b
  slot_unique : ∀ i < n, ∀ j < n, ∀ a, holds i a → holds j a → i = j

namespace Tabulates

theorem mem (h : Tabulates holds n S) (hi : i < n) (hia : holds i a) : a ∈ S :=
  (h.mem_iff a).mpr ⟨i, hi, hia⟩

theorem empty (h : ∀ i < n, ∀ a, ¬ holds i a) : Tabulates holds n ∅ where
  mem_iff a := by
    simp only [Finset.notMem_empty, false_iff, not_exists, not_and]
    exact fun i hi => h i hi a
  key_unique i hi a _ hia _ := absurd hia (h i hi a)
  slot_unique i hi _ _ a hia _ := absurd hia (h i hi a)

theorem congr (h : Tabulates holds n S) (hsame : ∀ i < n, ∀ a, holds' i a ↔ holds i a) :
    Tabulates holds' n S where
  mem_iff a := by
    rw [h.mem_iff a]
    exact exists_congr fun i => and_congr_right fun hi => (hsame i hi a).symm
  key_unique i hi a b hia hib :=
    h.key_unique i hi a b ((hsame i hi a).mp hia) ((hsame i hi b).mp hib)
  slot_unique i hi j hj a hia hja :=
    h.slot_unique i hi j hj a ((hsame i hi a).mp hia) ((hsame j hj a).mp hja)

/-- There are as many keys as slots that hold one. -/
theorem card_eq (h : Tabulates holds n S) [DecidablePred fun i => ∃ a, holds i a] :
    S.card = ((Finset.range n).filter fun i => ∃ a, holds i a).card := by
  -- a key goes to its slot
  have hslot : ∀ a ∈ S, ∃ i < n, holds i a := fun a ha => (h.mem_iff a).mp ha
  choose! slot hlt hholds using hslot
  refine Finset.card_bij (fun a _ => slot a) (fun a ha => ?_) (fun a ha b hb hab => ?_)
    fun i hi => ?_
  · exact Finset.mem_filter.mpr ⟨Finset.mem_range.mpr (hlt a ha), a, hholds a ha⟩
  · refine h.key_unique (slot a) (hlt a ha) a b (hholds a ha) ?_
    have hb' := hholds b hb
    rwa [← hab] at hb'
  · obtain ⟨hi, a, hia⟩ := Finset.mem_filter.mp hi
    have hi := Finset.mem_range.mp hi
    have ha := h.mem hi hia
    exact ⟨a, ha, h.slot_unique _ (hlt a ha) i hi a (hholds a ha) hia⟩

theorem card_le (h : Tabulates holds n S) : S.card ≤ n := by
  classical
  rw [h.card_eq]
  exact (Finset.card_filter_le _ _).trans (Finset.card_range n).le

/-- The table is full when there are as many keys as slots. -/
theorem card_eq_iff (h : Tabulates holds n S) : S.card = n ↔ ∀ i < n, ∃ a, holds i a := by
  classical
  have hfull : ((Finset.range n).filter fun i => ∃ a, holds i a).card = (Finset.range n).card ↔
      ∀ i ∈ Finset.range n, ∃ a, holds i a := Finset.card_filter_eq_iff
  rw [Finset.card_range] at hfull
  rw [h.card_eq, hfull]
  exact forall_congr' fun i => by rw [Finset.mem_range]

theorem exists_empty (h : Tabulates holds n S) (hcard : S.card < n) :
    ∃ i < n, ∀ a, ¬ holds i a := by
  by_contra hfull
  push Not at hfull
  exact hcard.ne (h.card_eq_iff.mpr hfull)

variable [DecidableEq α]

/-- The slot `i` is filled with a new key. -/
theorem enter (h : Tabulates holds n S) (hi : i < n) (hempty : ∀ b, ¬ holds i b) (ha : a ∉ S)
    (hself : ∀ b, holds' i b ↔ b = a) (hother : ∀ j < n, j ≠ i → ∀ b, holds' j b ↔ holds j b) :
    Tabulates holds' n (insert a S) := by
  refine ⟨fun b => ?_, fun j hj b c hb hc => ?_, fun j hj k hk b hjb hkb => ?_⟩
  · rw [Finset.mem_insert, h.mem_iff]
    constructor
    · rintro (rfl | ⟨j, hj, hjb⟩)
      · exact ⟨i, hi, (hself b).mpr rfl⟩
      · have hji : j ≠ i := by
          rintro rfl
          exact hempty b hjb
        exact ⟨j, hj, (hother j hj hji b).mpr hjb⟩
    · rintro ⟨j, hj, hjb⟩
      by_cases hji : j = i
      · subst hji
        exact .inl ((hself b).mp hjb)
      · exact .inr ⟨j, hj, (hother j hj hji b).mp hjb⟩
  · by_cases hji : j = i
    · subst hji
      exact ((hself b).mp hb).trans ((hself c).mp hc).symm
    · exact h.key_unique j hj b c ((hother j hj hji b).mp hb) ((hother j hj hji c).mp hc)
  · -- the new key is in no other slot
    have hnew : ∀ l < n, l ≠ i → holds' l b → b ≠ a := by
      rintro l hl hli hlb rfl
      exact ha (h.mem hl ((hother l hl hli b).mp hlb))
    by_cases hji : j = i <;> by_cases hki : k = i
    · exact hji.trans hki.symm
    · subst hji
      exact absurd ((hself b).mp hjb) (hnew k hk hki hkb)
    · subst hki
      exact absurd ((hself b).mp hkb) (hnew j hj hji hjb)
    · exact h.slot_unique j hj k hk b ((hother j hj hji b).mp hjb) ((hother k hk hki b).mp hkb)

/-- The slot `i` of the key `a` is emptied. -/
theorem clear (h : Tabulates holds n S) (hi : i < n) (hia : holds i a) (hself : ∀ b, ¬ holds' i b)
    (hother : ∀ j < n, j ≠ i → ∀ b, holds' j b ↔ holds j b) :
    Tabulates holds' n (S.erase a) := by
  -- what the table still holds it held before, in another slot
  have hold : ∀ j < n, ∀ b, holds' j b → j ≠ i ∧ holds j b := by
    intro j hj b hjb
    have hji : j ≠ i := by
      rintro rfl
      exact hself b hjb
    exact ⟨hji, (hother j hj hji b).mp hjb⟩
  refine ⟨fun b => ?_, fun j hj b c hb hc => ?_, fun j hj k hk b hjb hkb => ?_⟩
  · rw [Finset.mem_erase, h.mem_iff]
    constructor
    · rintro ⟨hba, j, hj, hjb⟩
      have hji : j ≠ i := by
        rintro rfl
        exact hba (h.key_unique j hj b a hjb hia)
      exact ⟨j, hj, (hother j hj hji b).mpr hjb⟩
    · rintro ⟨j, hj, hjb⟩
      obtain ⟨hji, hjb⟩ := hold j hj b hjb
      refine ⟨?_, j, hj, hjb⟩
      rintro rfl
      exact hji (h.slot_unique j hj i hi b hjb hia)
  · exact h.key_unique j hj b c (hold j hj b hb).2 (hold j hj c hc).2
  · exact h.slot_unique j hj k hk b (hold j hj b hjb).2 (hold k hk b hkb).2

end Tabulates

end TfsBroker.Tables
