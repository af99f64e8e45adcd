import Mathlib.Logic.Function.Basic

/-!
# Exclusive ownership of resources

Owners `i` each hold at most one resource, `own i`; `taken` says which resources
are marked as in use. `Owns` is safety: what is owned is marked, and by one owner
only. `NoLeak` is the converse: what is marked has an owner. A `Change` is a step
that keeps both; a step that only abandons a resource keeps the first.

## Main results

* `Owns.change`, `NoLeak.change` — acquiring and releasing keep both
* `Owns.mono` — abandoning keeps ownership exclusive
* `Owns.comp`, `NoLeak.comp` — handing over keeps both
-/

namespace TfsBroker.Ownership

variable {ι β : Type*} {own own' : ι → Option β} {taken taken' : β → Prop} {i : ι} {b : β}

/-- Every owned resource is marked, and has one owner. -/
structure Owns (own : ι → Option β) (taken : β → Prop) : Prop where
  backed : ∀ i b, own i = some b → taken b
  exclusive : ∀ i j b, own i = some b → own j = some b → i = j

/-- Every marked resource has an owner. -/
def NoLeak (own : ι → Option β) (taken : β → Prop) : Prop := ∀ b, taken b → ∃ i, own i = some b

/-- Owners may give up what they own, and marks may be added. -/
theorem Owns.mono (h : Owns own taken) (hown : ∀ i b, own' i = some b → own i = some b)
    (htaken : ∀ b, taken b → taken' b) : Owns own' taken' where
  backed i b hi := htaken b (h.backed i b (hown i b hi))
  exclusive i j b hi hj := h.exclusive i j b (hown i b hi) (hown j b hj)

/-- A step that keeps owners and marks in balance: nothing changes, or an owner
that had nothing takes a resource that was not marked, or an owner gives back what
it has. -/
inductive Change (own : ι → Option β) (taken : β → Prop) (own' : ι → Option β)
    (taken' : β → Prop) : Prop
  | keep (hown : own' = own) (htaken : ∀ b, taken' b ↔ taken b)
  | acquire (i : ι) (b : β) (hnone : own i = none) (hfresh : ¬ taken b) (hi : own' i = some b)
      (hother : ∀ j, j ≠ i → own' j = own j) (htaken : ∀ c, taken' c ↔ c = b ∨ taken c)
  | release (i : ι) (b : β) (hi : own i = some b) (hgone : own' i = none)
      (hother : ∀ j, j ≠ i → own' j = own j) (htaken : ∀ c, taken' c ↔ taken c ∧ c ≠ b)

private theorem Owns.acquire (h : Owns own taken) (hfresh : ¬ taken b) (hi : own' i = some b)
    (hother : ∀ j, j ≠ i → own' j = own j) (htaken : ∀ c, taken' c ↔ c = b ∨ taken c) :
    Owns own' taken' where
  backed j c hj := by
    by_cases hji : j = i
    · subst hji
      rw [hi] at hj
      exact (htaken c).mpr (.inl (Option.some_inj.mp hj).symm)
    · rw [hother j hji] at hj
      exact (htaken c).mpr (.inr (h.backed j c hj))
  exclusive j k c hj hk := by
    have hnot : ∀ l, l ≠ i → own' l = some b → False := fun l hl hlb =>
      hfresh (h.backed l b ((hother l hl).symm.trans hlb))
    by_cases hji : j = i <;> by_cases hki : k = i
    · rw [hji, hki]
    · subst hji
      rw [hi] at hj
      obtain rfl := Option.some_inj.mp hj
      exact (hnot k hki hk).elim
    · subst hki
      rw [hi] at hk
      obtain rfl := Option.some_inj.mp hk
      exact (hnot j hji hj).elim
    · rw [hother j hji] at hj
      rw [hother k hki] at hk
      exact h.exclusive j k c hj hk

private theorem Owns.release (h : Owns own taken) (hi : own i = some b) (hgone : own' i = none)
    (hother : ∀ j, j ≠ i → own' j = own j) (htaken : ∀ c, taken' c ↔ taken c ∧ c ≠ b) :
    Owns own' taken' := by
  have hne : ∀ l c, own' l = some c → l ≠ i := by
    rintro l c hl rfl
    rw [hgone] at hl
    cases hl
  constructor
  · intro j c hj
    have hji := hne j c hj
    rw [hother j hji] at hj
    refine (htaken c).mpr ⟨h.backed j c hj, ?_⟩
    rintro rfl
    exact hji (h.exclusive j i c hj hi)
  · intro j k c hj hk
    rw [hother j (hne j c hj)] at hj
    rw [hother k (hne k c hk)] at hk
    exact h.exclusive j k c hj hk

/-- A balanced step keeps ownership exclusive. -/
theorem Owns.change (h : Owns own taken) (hc : Change own taken own' taken') :
    Owns own' taken' := by
  cases hc with
  | keep hown htaken => exact h.mono (fun i b => by rw [hown]; exact id) fun b => (htaken b).mpr
  | acquire i b _ hfresh hi hother htaken => exact h.acquire hfresh hi hother htaken
  | release i b hi hgone hother htaken => exact h.release hi hgone hother htaken

/-- A balanced step leaks nothing. -/
theorem NoLeak.change (h : NoLeak own taken) (hc : Change own taken own' taken') :
    NoLeak own' taken' := by
  intro c hc'
  cases hc with
  | keep hown htaken => exact hown ▸ h c ((htaken c).mp hc')
  | acquire i b hnone _ hi hother htaken =>
    rcases (htaken c).mp hc' with rfl | hold
    · exact ⟨i, hi⟩
    · obtain ⟨j, hj⟩ := h c hold
      refine ⟨j, (hother j ?_).trans hj⟩
      rintro rfl
      rw [hnone] at hj
      cases hj
  | release i b hi _ hother htaken =>
    obtain ⟨hold, hne⟩ := (htaken c).mp hc'
    obtain ⟨j, hj⟩ := h c hold
    refine ⟨j, (hother j ?_).trans hj⟩
    rintro rfl
    rw [hi] at hj
    exact hne (Option.some_inj.mp hj).symm

/-! ### Handing over

An owner that hands its resource to one that has none leaves as many owners as before: what each of
them has is what another one, or itself, had before. -/

/-- What every owner has another one had before, none twice. -/
theorem Owns.comp (h : Owns own taken) {f : ι → ι} (hf : Function.Injective f)
    (htaken : ∀ b, taken' b ↔ taken b) : Owns (own ∘ f) taken' where
  backed i b hi := (htaken b).mpr (h.backed (f i) b hi)
  exclusive i j b hi hj := hf (h.exclusive (f i) (f j) b hi hj)

/-- What every owner had another one has. -/
theorem NoLeak.comp (h : NoLeak own taken) {f : ι → ι} (hf : Function.Surjective f)
    (htaken : ∀ b, taken' b ↔ taken b) : NoLeak (own ∘ f) taken' := by
  intro b hb
  obtain ⟨i, hi⟩ := h b ((htaken b).mp hb)
  obtain ⟨j, rfl⟩ := hf i
  exact ⟨j, hi⟩

end TfsBroker.Ownership
