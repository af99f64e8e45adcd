import TfsBroker.Lib.Wire

/-!
# Strings in arrays of a given size

What a function of the C library does with a string in an array, as long as it examines
only bytes of the array: `none` stands for a function that goes on behind the end.

## Main results

* `strlenIn_isSome`, `strcmpIn_eq_none` — when a function stays in the array
* `strlenIn_eq_some`, `strcmpIn_eq` — what it then answers
-/

namespace TfsBroker.Fields

open Wire

variable {field : List UInt8} {b : ℕ → UInt8} {s : CString} {n : ℕ}

/-- `strlen` of the string in an array. -/
def strlenIn : List UInt8 → Option ℕ
  | [] => none
  | c :: cs => if c = 0 then some 0 else (strlenIn cs).map (· + 1)

/-- `strcmp` of the string in an array with the bytes from `b` on: whether it answers 0. -/
def strcmpIn : List UInt8 → (ℕ → UInt8) → Option Bool
  | [], _ => none
  | c :: cs, b =>
    if c ≠ b 0 then some false
    else if c = 0 then some true
    else strcmpIn cs fun k => b (k + 1)

/-- The bytes from `b` on are those of the array. -/
def Agrees (field : List UInt8) (b : ℕ → UInt8) : Prop := ∀ k < field.length, field.getD k 0 = b k

/-- The length is found exactly if the array contains a NUL. -/
theorem strlenIn_isSome : (strlenIn field).isSome = true ↔ 0 ∈ field := by
  induction field with
  | nil => simp [strlenIn]
  | cons c cs ih =>
    rw [strlenIn, List.mem_cons]
    split
    · rename_i hc
      exact iff_of_true rfl (.inl hc.symm)
    · rename_i hc
      rw [Option.isSome_map, ih, or_iff_right (Ne.symm hc)]

/-- The string in the array is shorter than it. -/
theorem strlenIn_eq_some (h : strlenIn field = some n) :
    (ofArray field).strlen = n ∧ n < field.length := by
  induction field generalizing n with
  | nil => cases h
  | cons c cs ih =>
    rw [strlenIn] at h
    split at h
    · rename_i hc
      obtain rfl := Option.some_inj.mp h
      subst hc
      exact ⟨rfl, Nat.succ_pos _⟩
    · rename_i hc
      obtain ⟨l, hl, rfl⟩ := Option.map_eq_some_iff.mp h
      obtain ⟨hlen, hlt⟩ := ih hl
      refine ⟨?_, Nat.succ_lt_succ hlt⟩
      rw [← hlen, CString.strlen, bytes_ofArray_cons hc, List.length_cons, CString.strlen]

theorem agrees_cons {c : UInt8} {cs : List UInt8} :
    Agrees (c :: cs) b ↔ c = b 0 ∧ Agrees cs fun k => b (k + 1) := by
  constructor
  · intro h
    exact ⟨h 0 (Nat.succ_pos _), fun k hk => h (k + 1) (Nat.succ_lt_succ hk)⟩
  · rintro ⟨hfirst, hrest⟩ k hk
    cases k with
    | zero => exact hfirst
    | succ k => exact hrest k (Nat.lt_of_succ_lt_succ hk)

/-- The comparison goes behind the array exactly if that has no NUL and no byte of it differs. -/
theorem strcmpIn_eq_none : strcmpIn field b = none ↔ 0 ∉ field ∧ Agrees field b := by
  induction field generalizing b with
  | nil => simp [strcmpIn, Agrees]
  | cons c cs ih =>
    rw [agrees_cons, List.mem_cons, strcmpIn]
    by_cases hne : c = b 0
    · rw [if_neg (not_not.mpr hne)]
      split
      · rename_i hc
        exact iff_of_false (Option.some_ne_none _) fun h => h.1 (.inl hc.symm)
      · rename_i hc
        rw [ih, or_iff_right (Ne.symm hc), and_iff_right hne]
    · rw [if_pos hne]
      exact iff_of_false (Option.some_ne_none _) fun h => hne h.2.1

theorem mem_of_strcmpIn (h : strcmpIn field b = some true) : 0 ∈ field := by
  induction field generalizing b with
  | nil => cases h
  | cons c cs ih =>
    rw [strcmpIn] at h
    split at h
    · cases h
    split at h
    · rename_i hc
      exact List.mem_cons.mpr (.inl hc.symm)
    · exact List.mem_cons_of_mem _ (ih h)

/-- The answer of the comparison with a terminated string. -/
theorem strcmpIn_eq (h : 0 ∈ field) (hb : ∀ k ≤ s.strlen, b k = s.byteAt k) :
    strcmpIn field b = some (decide (ofArray field = s)) := by
  induction field generalizing b s with
  | nil => exact absurd h List.not_mem_nil
  | cons c cs ih =>
    have hfirst := hb 0 (Nat.zero_le _)
    obtain ⟨bytes, hnul⟩ := s
    rw [strcmpIn, hfirst]
    cases bytes with
    | nil =>
      have hzero : CString.byteAt ⟨[], hnul⟩ 0 = 0 := rfl
      rw [hzero]
      by_cases hc : c = 0
      · rw [if_neg (not_not.mpr hc), if_pos hc]
        subst hc
        rfl
      · rw [if_pos hc, decide_eq_false]
        intro heq
        have hbytes := congrArg CString.bytes heq
        rw [bytes_ofArray_cons hc] at hbytes
        cases hbytes
    | cons d ds =>
      have hd : CString.byteAt ⟨d :: ds, hnul⟩ 0 = d := rfl
      have hd0 : d ≠ 0 := fun hd => hnul (List.mem_cons.mpr (.inl hd.symm))
      rw [hd]
      by_cases hcd : c = d
      · -- the first bytes are the same
        subst hcd
        have hrest : 0 ∈ cs := (List.mem_cons.mp h).resolve_left (Ne.symm hd0)
        have htail : 0 ∉ ds := fun hmem => hnul (List.mem_cons_of_mem _ hmem)
        rw [if_neg (not_not.mpr rfl), if_neg hd0,
          ih (s := ⟨ds, htail⟩) hrest fun k hk => hb (k + 1) (Nat.succ_le_succ hk)]
        congr 1
        rw [decide_eq_decide, CString.ext'_iff, CString.ext'_iff, bytes_ofArray_cons hd0,
          List.cons_inj_right]
      · rw [if_pos hcd, decide_eq_false]
        intro heq
        have hbytes := congrArg CString.bytes heq
        by_cases hc : c = 0
        · rw [hc, bytes_ofArray_zero] at hbytes
          cases hbytes
        · rw [bytes_ofArray_cons hc] at hbytes
          exact hcd (List.cons.inj hbytes).1

end TfsBroker.Fields
