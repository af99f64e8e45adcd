import Mathlib.Data.List.Range
import Mathlib.Tactic.Ring
import Mathlib.Tactic.IntervalCases

/-!
# Byte memory

A flat memory maps addresses to bytes. `memcpy` copies a range in, `slice` reads
a range out, and `putInt`/`getInt` store a 32-bit `int` as four little-endian
bytes. The lemmas say what a copy changes and that a stored `int` reads back. The
ranges of the C types come first.
-/

namespace TfsBroker

/-- The number of values of a `size_t`. -/
def sizeRange : ℕ := 18446744073709551616

/-- `PTRDIFF_MAX`, the largest object `malloc` gives out. -/
def ptrdiffMax : ℕ := 9223372036854775807

/-- `INT_MAX`. -/
def intMax : ℕ := 2147483647

theorem two_le_intMax : 2 ≤ intMax := by decide

/-- A flat byte memory. -/
abbrev Memory := ℕ → UInt8

namespace Memory

variable {m m' : Memory} {a b n k x : ℕ} {src src' : ℕ → UInt8} {v : ℤ}

/-- `n` bytes of `src` copied to address `a`. -/
def memcpy (m : Memory) (a n : ℕ) (src : ℕ → UInt8) : Memory :=
  fun x => if a ≤ x ∧ x < a + n then src (x - a) else m x

/-- The `n` bytes from address `a` on. -/
def slice (m : Memory) (a n : ℕ) : List UInt8 :=
  (List.range n).map fun i => m (a + i)

/-- `m` and `m'` hold the same bytes on `[a, a + n)`. -/
def AgreeOn (m m' : Memory) (a n : ℕ) : Prop :=
  ∀ x, a ≤ x → x < a + n → m x = m' x

@[simp] theorem slice_length : (slice m a n).length = n := by simp [slice]

@[simp] theorem slice_zero : slice m a 0 = [] := rfl

theorem getElem_slice {i : ℕ} (h : i < (slice m a n).length) : (slice m a n)[i] = m (a + i) := by
  simp [slice]

theorem slice_eq_iff : slice m a n = slice m' a n ↔ AgreeOn m m' a n := by
  simp only [slice, List.map_inj_left, List.mem_range, AgreeOn]
  constructor
  · intro h x hax hx
    have := h (x - a) (by omega)
    rwa [Nat.add_sub_cancel' hax] at this
  · intro h i hi
    exact h _ (by omega) (by omega)

theorem AgreeOn.mono (h : AgreeOn m m' a n) (hb : a ≤ b) (hk : b + k ≤ a + n) :
    AgreeOn m m' b k :=
  fun x hx hx' => h x (by omega) (by omega)

theorem AgreeOn.symm (h : AgreeOn m m' a n) : AgreeOn m' m a n :=
  fun x hx hx' => (h x hx hx').symm

theorem AgreeOn.slice_eq (h : AgreeOn m m' a n) : slice m a n = slice m' a n :=
  slice_eq_iff.mpr h

theorem memcpy_of_mem (h : a ≤ x) (h' : x < a + n) : memcpy m a n src x = src (x - a) :=
  if_pos ⟨h, h'⟩

theorem memcpy_of_not_mem (h : x < a ∨ a + n ≤ x) : memcpy m a n src x = m x :=
  if_neg (by omega)

@[simp] theorem memcpy_zero : memcpy m a 0 src = m := by
  funext x
  exact memcpy_of_not_mem (by omega)

/-- A copy leaves every range beside it alone. -/
theorem agreeOn_memcpy (h : b + k ≤ a ∨ a + n ≤ b) : AgreeOn (memcpy m a n src) m b k :=
  fun _ _ _ => memcpy_of_not_mem (by omega)

/-- The same copy made in both memories. -/
theorem AgreeOn.memcpy (h : AgreeOn m m' a n) :
    AgreeOn (memcpy m b k src) (memcpy m' b k src) a n := by
  intro x hx hx'
  simp only [Memory.memcpy]
  split
  · rfl
  · exact h x hx hx'

theorem slice_memcpy_of_disjoint (h : b + k ≤ a ∨ a + n ≤ b) :
    slice (memcpy m a n src) b k = slice m b k :=
  (agreeOn_memcpy h).slice_eq

theorem slice_memcpy_self : slice (memcpy m a n src) a n = (List.range n).map src := by
  simp only [slice, List.map_inj_left, List.mem_range]
  intro i hi
  rw [memcpy_of_mem (by omega) (by omega), Nat.add_sub_cancel_left]

theorem slice_add : slice m a (n + k) = slice m a n ++ slice m (a + n) k := by
  simp [slice, List.range_add, Nat.add_assoc, Function.comp_def]

theorem slice_take (h : k ≤ n) : (slice m a n).take k = slice m a k := by
  obtain ⟨d, rfl⟩ := Nat.exists_eq_add_of_le h
  rw [slice_add, List.take_left' slice_length]

theorem slice_drop (h : k ≤ n) : (slice m a n).drop k = slice m (a + k) (n - k) := by
  obtain ⟨d, rfl⟩ := Nat.exists_eq_add_of_le h
  rw [slice_add, List.drop_left' slice_length, Nat.add_sub_cancel_left]

/-- Up to `k` bytes of a range from its byte `i` on. -/
theorem slice_drop_take {i : ℕ} (h : i ≤ n) :
    ((slice m a n).drop i).take k = slice m (a + i) (min k (n - i)) := by
  rw [slice_drop h]
  rcases Nat.le_total k (n - i) with hk | hk
  · rw [min_eq_left hk, slice_take hk]
  · rw [min_eq_right hk, List.take_of_length_le (by rw [slice_length]; exact hk)]

theorem memcpy_congr (h : ∀ i < n, src i = src' i) : memcpy m a n src = memcpy m a n src' := by
  funext x
  by_cases hx : a ≤ x ∧ x < a + n
  · rw [memcpy_of_mem hx.1 hx.2, memcpy_of_mem hx.1 hx.2, h _ (by omega)]
  · rw [memcpy_of_not_mem (by omega), memcpy_of_not_mem (by omega)]

/-- Two adjacent copies are one copy of the bytes that both sources hold in turn. -/
theorem memcpy_memcpy {buffer : ℕ → UInt8} (hfirst : ∀ i < n, buffer i = src i)
    (hsecond : ∀ i < k, buffer (n + i) = src' i) :
    memcpy (memcpy m a n src) (a + n) k src' = memcpy m a (n + k) buffer := by
  funext x
  by_cases hlow : x < a + n
  · rw [memcpy_of_not_mem (.inl hlow)]
    by_cases hx : a ≤ x
    · rw [memcpy_of_mem hx hlow, memcpy_of_mem hx (by omega), hfirst _ (by omega)]
    · rw [memcpy_of_not_mem (by omega), memcpy_of_not_mem (by omega)]
  · by_cases hx : x < a + n + k
    · have := hsecond (x - (a + n)) (by omega)
      rw [memcpy_of_mem (by omega) hx, memcpy_of_mem (by omega) (by omega), ← this]
      congr 1
      omega
    · rw [memcpy_of_not_mem (by omega), memcpy_of_not_mem (by omega), memcpy_of_not_mem (by omega)]

/-- A range that `n` bytes were copied into, from its byte `i` on. -/
theorem slice_memcpy_inside {i size : ℕ} (h : i ≤ size) :
    slice (memcpy m (a + i) n src) a (max size (i + n)) =
      (slice m a size).take i ++ (List.range n).map src ++ (slice m a size).drop (i + n) := by
  obtain ⟨d, hd⟩ := Nat.exists_eq_add_of_le (le_max_right size (i + n))
  have hrest : slice (memcpy m (a + i) n src) (a + (i + n)) d = (slice m a size).drop (i + n) := by
    rw [slice_memcpy_of_disjoint (by omega)]
    rcases Nat.le_total (i + n) size with hle | hle
    · rw [slice_drop hle]
      congr 1
      omega
    · rw [List.drop_of_length_le (by rw [slice_length]; exact hle)]
      have hzero : d = 0 := by omega
      rw [hzero, slice_zero]
  rw [hd, slice_add, slice_add, slice_memcpy_of_disjoint (by omega), slice_memcpy_self, hrest,
    slice_take h]

/-! ### 32-bit `int`s in memory -/

/-- The little-endian bytes of a 32-bit `int`. -/
def intBytes (v : ℤ) : ℕ → UInt8 :=
  fun i => UInt8.ofNat ((v % 4294967296).toNat / 256 ^ i)

/-- Store the `int` `v` at `a`. -/
def putInt (m : Memory) (a : ℕ) (v : ℤ) : Memory := memcpy m a 4 (intBytes v)

/-- The `int` stored at `a`. -/
def getInt (m : Memory) (a : ℕ) : ℤ :=
  let u := (m a).toNat + 256 * (m (a + 1)).toNat + 65536 * (m (a + 2)).toNat
    + 16777216 * (m (a + 3)).toNat
  if u < 2147483648 then u else (u : ℤ) - 4294967296

/-- The range of a 32-bit `int`. -/
def IsInt (v : ℤ) : Prop := -2147483648 ≤ v ∧ v < 2147483648

theorem AgreeOn.getInt_eq (h : AgreeOn m m' a 4) : getInt m a = getInt m' a := by
  simp only [getInt, h a (by omega) (by omega), h (a + 1) (by omega) (by omega),
    h (a + 2) (by omega) (by omega), h (a + 3) (by omega) (by omega)]

theorem getInt_memcpy_of_disjoint (h : b + 4 ≤ a ∨ a + n ≤ b) :
    getInt (memcpy m a n src) b = getInt m b :=
  (agreeOn_memcpy h).getInt_eq

private theorem toNat_intBytes (i : ℕ) :
    (intBytes v i).toNat = (v % 4294967296).toNat / 256 ^ i % 256 := by
  simp [intBytes, UInt8.toNat_ofNat']

/-- A stored `int` reads back. -/
theorem getInt_putInt (hv : IsInt v) : getInt (putInt m a v) a = v := by
  obtain ⟨hlo, hhi⟩ := hv
  have hbyte : ∀ i, i < 4 → putInt m a v (a + i) = intBytes v i := by
    intro i hi
    rw [putInt, memcpy_of_mem (by omega) (by omega), Nat.add_sub_cancel_left]
  have h0 := hbyte 0 (by omega)
  rw [Nat.add_zero] at h0
  simp only [getInt, h0, hbyte 1 (by omega), hbyte 2 (by omega), hbyte 3 (by omega),
    toNat_intBytes]
  generalize hu : (v % 4294967296).toNat = u
  have hsum : u / 256 ^ 0 % 256 + 256 * (u / 256 ^ 1 % 256) + 65536 * (u / 256 ^ 2 % 256)
      + 16777216 * (u / 256 ^ 3 % 256) = u := by
    norm_num
    omega
  rw [hsum]
  split <;> omega

end Memory

end TfsBroker
