import TfsBroker.Lib.Memory
import Mathlib.Data.List.GetD

/-!
# C strings

A `CString` is a byte string without a NUL; its terminator is implicit. The
comparison and copy functions of the C library are given over a byte memory,
with the reading the standard documents: `strcmp` and `strncmp` answer 0 exactly
when the bytes up to the terminator (or up to the bound) agree, and `strncpy`
pads with NULs.
-/

namespace TfsBroker

/-- A NUL-free byte string. -/
structure CString where
  bytes : List UInt8
  nul_free : 0 ∉ bytes
  deriving DecidableEq

namespace CString

variable {s t : CString} {m m' : Memory} {a n : ℕ}

@[ext] theorem ext' (h : s.bytes = t.bytes) : s = t := by
  cases s; cases t; congr

/-- The number of bytes before the terminator. -/
def strlen (s : CString) : ℕ := s.bytes.length

/-- The bytes together with the terminator. -/
def terminated (s : CString) : List UInt8 := s.bytes ++ [0]

/-- The string that starts one byte later (`s + 1`). -/
def tail (s : CString) : CString := ⟨s.bytes.tail, fun h => s.nul_free (List.mem_of_mem_tail h)⟩

/-- The empty string. -/
def empty : CString := ⟨[], List.not_mem_nil⟩

/-- The first `n` bytes. -/
def truncate (n : ℕ) (s : CString) : CString :=
  ⟨s.bytes.take n, fun h => s.nul_free (List.mem_of_mem_take h)⟩

/-- What is left after the first `n` bytes. -/
def drop (n : ℕ) (s : CString) : CString :=
  ⟨s.bytes.drop n, fun h => s.nul_free (List.mem_of_mem_drop h)⟩

/-- `strcspn` with a single byte: the number of bytes before the first `b`. -/
def strcspn (s : CString) (b : UInt8) : ℕ := (s.bytes.takeWhile (· ≠ b)).length

/-- The byte at index `i`, and NUL from the end on. -/
def byteAt (s : CString) (i : ℕ) : UInt8 := s.bytes.getD i 0

@[simp] theorem length_terminated : s.terminated.length = s.strlen + 1 := by
  simp [terminated, strlen]

@[simp] theorem bytes_tail : s.tail.bytes = s.bytes.tail := rfl

@[simp] theorem bytes_drop : (s.drop n).bytes = s.bytes.drop n := rfl

@[simp] theorem strlen_tail : s.tail.strlen = s.strlen - 1 := by simp [strlen]

theorem terminated_injective (h : s.terminated = t.terminated) : s = t :=
  ext' (List.append_cancel_right h)

theorem byteAt_of_lt {i : ℕ} (h : i < s.strlen) : s.byteAt i ≠ 0 := by
  intro h0
  rw [byteAt, List.getD_eq_getElem _ _ h] at h0
  exact s.nul_free (h0 ▸ List.getElem_mem h)

theorem byteAt_of_ge {i : ℕ} (h : s.strlen ≤ i) : s.byteAt i = 0 :=
  List.getD_eq_default _ _ h

theorem byteAt_eq_zero {i : ℕ} : s.byteAt i = 0 ↔ s.strlen ≤ i :=
  ⟨fun h => not_lt.mp fun hlt => byteAt_of_lt hlt h, byteAt_of_ge⟩

@[simp] theorem strlen_truncate : (s.truncate n).strlen = min n s.strlen := by
  simp [truncate, strlen]

theorem truncate_of_le (h : s.strlen ≤ n) : s.truncate n = s := by
  ext1
  exact List.take_of_length_le h

theorem byteAt_truncate {i : ℕ} : (s.truncate n).byteAt i = if i < n then s.byteAt i else 0 := by
  simp only [byteAt, truncate, List.getD_eq_getElem?_getD, List.getElem?_take]
  split <;> rfl

theorem terminated_eq_map : s.terminated = (List.range (s.strlen + 1)).map s.byteAt := by
  apply List.ext_getElem
  · simp
  · intro i hi hi'
    simp only [length_terminated] at hi
    simp only [terminated, List.getElem_map, List.getElem_range, byteAt]
    rw [List.getElem_append]
    split
    · rename_i hlt
      rw [List.getD_eq_getElem _ _ hlt]
    · rename_i hge
      rw [List.getD_eq_default _ _ (by omega), List.getElem_singleton]

/-- The sign of `strcmp` on two byte strings, as unsigned characters. -/
def compareBytes : List UInt8 → List UInt8 → ℤ
  | [], [] => 0
  | [], _ :: _ => -1
  | _ :: _, [] => 1
  | a :: as, b :: bs => if a = b then compareBytes as bs else if a < b then -1 else 1

/-- The sign of `strcmp(s, t)`. -/
def strcmp (s t : CString) : ℤ := compareBytes s.bytes t.bytes

/-- `strcmp` compares in lexicographic order. -/
theorem strcmp_nonpos : strcmp s t ≤ 0 ↔ s.bytes ≤ t.bytes := by
  unfold strcmp
  generalize s.bytes = as
  generalize t.bytes = bs
  induction as generalizing bs with
  | nil => cases bs <;> simp [compareBytes]
  | cons a as ih =>
    cases bs with
    | nil => simp [compareBytes]
    | cons b bs =>
      rw [compareBytes, List.cons_le_cons_iff]
      split
      · rename_i heq
        rw [ih, heq]
        simp
      · rename_i hne
        split <;> rename_i hlt <;> simp [hne, hlt]

/-- `strcmp(m + a, s) == 0`. -/
def strcmpEq (m : Memory) (a : ℕ) (s : CString) : Bool :=
  m.slice a (s.strlen + 1) == s.terminated

/-- `strncmp(m + a, s, n) == 0`. -/
def strncmpEq (m : Memory) (a : ℕ) (s : CString) (n : ℕ) : Bool :=
  m.slice a (min n (s.strlen + 1)) == s.terminated.take n

/-- `strncpy(m + a, s, n)`: exactly `n` bytes are written, padded with NULs. -/
def strncpy (m : Memory) (a : ℕ) (s : CString) (n : ℕ) : Memory :=
  m.memcpy a n s.byteAt

/-- The string at address `a`, read before `limit` further bytes are used up;
`none` when no terminator is met. -/
def strAt (m : Memory) : ℕ → ℕ → Option CString
  | _, 0 => none
  | a, limit + 1 =>
    if h : m a = 0 then some empty
    else (strAt m (a + 1) limit).map fun s => ⟨m a :: s.bytes, by
      simpa [eq_comm, h] using s.nul_free⟩

/-- The `n` bytes at `a` hold the terminated string `s`. -/
def HoldsAt (m : Memory) (a n : ℕ) (s : CString) : Prop :=
  s.strlen < n ∧ ∀ i ≤ s.strlen, m (a + i) = s.byteAt i

theorem strcmpEq_iff : strcmpEq m a s = true ↔ ∀ i ≤ s.strlen, m (a + i) = s.byteAt i := by
  simp only [strcmpEq, beq_iff_eq, terminated_eq_map, Memory.slice, List.map_inj_left,
    List.mem_range, Nat.lt_succ_iff]

theorem strncmpEq_iff_of_lt (h : s.strlen < n) :
    strncmpEq m a s n = true ↔ ∀ i ≤ s.strlen, m (a + i) = s.byteAt i := by
  rw [← strcmpEq_iff, strncmpEq, strcmpEq, Nat.min_eq_right h,
    List.take_of_length_le (by rw [length_terminated]; omega)]

theorem strncmpEq_iff_of_ge (h : n ≤ s.strlen) :
    strncmpEq m a s n = true ↔ ∀ i < n, m (a + i) = s.byteAt i := by
  rw [strncmpEq, Nat.min_eq_left (by omega), terminated_eq_map, ← List.map_take, List.take_range,
    Nat.min_eq_left (by omega)]
  simp only [beq_iff_eq, Memory.slice, List.map_inj_left, List.mem_range]

theorem eq_of_byteAt (h : ∀ i, s.byteAt i = t.byteAt i) : s = t := by
  have hlen : s.strlen = t.strlen := by
    rcases lt_trichotomy s.strlen t.strlen with hlt | heq | hgt
    · exact absurd ((h _).symm.trans (byteAt_of_ge le_rfl)) (byteAt_of_lt hlt)
    · exact heq
    · exact absurd ((h _).trans (byteAt_of_ge le_rfl)) (byteAt_of_lt hgt)
  apply terminated_injective
  rw [terminated_eq_map, terminated_eq_map, hlen]
  exact List.map_congr_left fun i _ => h i

namespace HoldsAt

theorem congr (h : HoldsAt m a n s) (hm : m.AgreeOn m' a n) : HoldsAt m' a n s :=
  ⟨h.1, fun i hi => (hm _ (by omega) (by have := h.1; omega)).symm.trans (h.2 i hi)⟩

theorem mono {k : ℕ} (h : HoldsAt m a n s) (hk : n ≤ k) : HoldsAt m a k s :=
  ⟨h.1.trans_le hk, h.2⟩

theorem unique {k : ℕ} (h : HoldsAt m a n s) (h' : HoldsAt m a k t) : s = t := by
  have hlen : s.strlen = t.strlen := by
    rcases lt_trichotomy s.strlen t.strlen with hlt | heq | hgt
    · have h0 := (h.2 _ le_rfl).symm.trans (h'.2 _ hlt.le)
      rw [byteAt_of_ge le_rfl] at h0
      exact absurd h0.symm (byteAt_of_lt hlt)
    · exact heq
    · have h0 := (h'.2 _ le_rfl).symm.trans (h.2 _ hgt.le)
      rw [byteAt_of_ge le_rfl] at h0
      exact absurd h0.symm (byteAt_of_lt hgt)
  apply eq_of_byteAt
  intro i
  rcases Nat.lt_or_ge s.strlen i with hi | hi
  · rw [byteAt_of_ge hi.le, byteAt_of_ge (hlen ▸ hi.le)]
  · rw [← h.2 i hi, h'.2 i (hlen ▸ hi)]

/-- A bounded comparison with the field succeeds exactly on its own string. -/
theorem strncmpEq_iff (h : HoldsAt m a n s) : strncmpEq m a t n = true ↔ s = t := by
  rcases Nat.lt_or_ge t.strlen n with hlt | hge
  · rw [strncmpEq_iff_of_lt hlt]
    constructor
    · intro hpre
      exact h.unique ⟨hlt, hpre⟩
    · rintro rfl
      exact h.2
  · rw [strncmpEq_iff_of_ge hge]
    constructor
    · intro hpre
      have h0 := (h.2 _ le_rfl).symm.trans (hpre _ h.1)
      rw [byteAt_of_ge le_rfl] at h0
      exact absurd h0.symm (byteAt_of_lt (h.1.trans_le hge))
    · rintro rfl
      exact absurd h.1 (by omega)

theorem strcmpEq_iff (h : HoldsAt m a n s) : strcmpEq m a t = true ↔ s = t := by
  rw [CString.strcmpEq_iff]
  constructor
  · intro hpre
    exact h.unique ⟨Nat.lt_succ_self _, hpre⟩
  · rintro rfl
    exact h.2

end HoldsAt

theorem strAt_eq_some_iff : strAt m a n = some s ↔ HoldsAt m a n s := by
  induction n generalizing a s with
  | zero => simp [strAt, HoldsAt]
  | succ n ih =>
    by_cases h0 : m a = 0
    · rw [strAt, dif_pos h0, Option.some_inj]
      constructor
      · rintro rfl
        refine ⟨Nat.succ_pos _, fun i hi => ?_⟩
        obtain rfl := Nat.le_zero.mp hi
        exact h0
      · intro h
        refine HoldsAt.unique (n := n + 1) (k := n + 1) ⟨Nat.succ_pos _, fun i hi => ?_⟩ h
        obtain rfl := Nat.le_zero.mp hi
        exact h0
    · rw [strAt, dif_neg h0, Option.map_eq_some_iff]
      constructor
      · rintro ⟨t, ht, rfl⟩
        obtain ⟨hlt, hbytes⟩ := ih.mp ht
        refine ⟨Nat.succ_lt_succ hlt, fun i hi => ?_⟩
        cases i with
        | zero => rfl
        | succ i =>
          have := hbytes i (Nat.le_of_succ_le_succ hi)
          rwa [Nat.add_assoc, Nat.add_comm 1 i] at this
      · rintro ⟨hlt, hbytes⟩
        have ha : m a = s.byteAt 0 := hbytes 0 (Nat.zero_le _)
        obtain ⟨_ | ⟨b, rest⟩, hnul⟩ := s
        · exact absurd ha h0
        · refine ⟨⟨rest, fun hmem => hnul (List.mem_cons_of_mem _ hmem)⟩, ih.mpr ⟨?_, ?_⟩, ?_⟩
          · exact Nat.lt_of_succ_lt_succ hlt
          · intro i hi
            have := hbytes (i + 1) (Nat.succ_le_succ hi)
            rw [show a + (i + 1) = a + 1 + i by omega] at this
            exact this
          · exact ext' (congrArg (· :: rest) ha)

theorem holdsAt_strncpy (h : s.strlen < n) : HoldsAt (strncpy m a s n) a n s :=
  ⟨h, fun i hi => by
    rw [strncpy, Memory.memcpy_of_mem (by omega) (by omega), Nat.add_sub_cancel_left]⟩

theorem holdsAt_memcpy (h : s.strlen < n) : HoldsAt (m.memcpy a n s.byteAt) a n s :=
  holdsAt_strncpy h

end CString

end TfsBroker
