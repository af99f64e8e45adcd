import TfsBroker.Lib.CString
import Mathlib.Data.List.TakeDrop

/-!
# Strings one after the other

`framed` puts the strings of a list one after the other, each with its terminator.
Its first part is the frame of a shorter list, and what follows that is the next
string.

## Main results

* `framed_split` — the string at an index, with what is before and after it
* `length_framed_take_lt_iff` — where the next string starts
-/

namespace TfsBroker.CString

variable {strings : List CString} {s : CString} {n : ℕ}

/-- The strings one after the other, each with its terminator. -/
def framed (strings : List CString) : List UInt8 := strings.flatMap terminated

@[simp] theorem framed_nil : framed [] = [] := rfl

@[simp] theorem framed_append {strings' : List CString} :
    framed (strings ++ strings') = framed strings ++ framed strings' := List.flatMap_append

@[simp] theorem framed_singleton : framed [s] = s.terminated := by simp [framed]

/-- The string at an index, with what is before and after it. -/
theorem framed_split (h : strings[n]? = some s) :
    framed strings =
      framed (strings.take n) ++ s.terminated ++ framed (strings.drop (n + 1)) := by
  obtain ⟨hn, rfl⟩ := List.getElem?_eq_some_iff.mp h
  conv_lhs => rw [← List.take_append_drop n strings]
  rw [framed_append, List.drop_eq_getElem_cons hn, List.append_assoc]
  rfl

theorem length_framed_take_succ (h : strings[n]? = some s) :
    (framed (strings.take (n + 1))).length = (framed (strings.take n)).length + s.strlen + 1 := by
  obtain ⟨hn, rfl⟩ := List.getElem?_eq_some_iff.mp h
  rw [← List.take_concat_get' strings n hn, framed_append, List.length_append, framed_singleton,
    length_terminated, Nat.add_assoc]

/-- The frame of a shorter list ends before that of the list. -/
theorem length_framed_take_lt_iff (h : n ≤ strings.length) :
    (framed (strings.take n)).length < (framed strings).length ↔ n < strings.length := by
  constructor
  · intro hlt
    refine lt_of_le_of_ne h ?_
    rintro rfl
    rw [List.take_length] at hlt
    exact lt_irrefl _ hlt
  · intro hn
    rw [framed_split (List.getElem?_eq_getElem hn)]
    simp only [List.length_append, length_terminated]
    omega

/-- The bytes of the string at an index. -/
theorem getElem?_framed (h : strings[n]? = some s) {i : ℕ} (hi : i ≤ s.strlen) :
    (framed strings)[(framed (strings.take n)).length + i]? = some (s.byteAt i) := by
  rw [framed_split h, List.append_assoc, List.getElem?_append_right (by omega),
    Nat.add_sub_cancel_left, List.getElem?_append_left (by rw [length_terminated]; omega),
    terminated_eq_map, List.getElem?_map, List.getElem?_range (by omega)]
  rfl

end TfsBroker.CString
