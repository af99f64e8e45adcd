import TfsBroker.Lib.CString

/-!
# Packed structures on a pipe

A structure that one process writes to a pipe and another reads from it, byte by byte:
unsigned numbers are little-endian, and a string stands in an array of a fixed size, the
rest of which is zeros.

## Main results

* `ofBytes_toBytes` — a number of `k` bytes is read back
* `ofArray_toArray`, `ofArray_slice` — a string is read back
-/

namespace TfsBroker.Wire

variable {k n a : ℕ} {s : CString} {m : Memory}

/-- The `k` bytes of a number. -/
def toBytes : ℕ → ℕ → List UInt8
  | 0, _ => []
  | k + 1, n => UInt8.ofNat n :: toBytes k (n / 256)

/-- The number that some bytes stand for. -/
def ofBytes : List UInt8 → ℕ
  | [] => 0
  | b :: bytes => b.toNat + 256 * ofBytes bytes

/-- A string in an array of `k` bytes that held zeros. -/
def toArray (k : ℕ) (s : CString) : List UInt8 := s.bytes ++ List.replicate (k - s.strlen) 0

/-- The string in an array: its bytes before the first NUL. -/
def ofArray (bytes : List UInt8) : CString where
  bytes := bytes.takeWhile (· ≠ 0)
  nul_free h := by simpa using List.all_eq_true.mp List.all_takeWhile 0 h

theorem bytes_ofArray_zero (bytes : List UInt8) : (ofArray (0 :: bytes)).bytes = [] := rfl

theorem bytes_ofArray_cons {b : UInt8} (hb : b ≠ 0) (bytes : List UInt8) :
    (ofArray (b :: bytes)).bytes = b :: (ofArray bytes).bytes := by
  simp only [ofArray]
  rw [List.takeWhile_cons_of_pos (by simpa using hb)]

@[simp] theorem length_toBytes : (toBytes k n).length = k := by
  induction k generalizing n with
  | zero => rfl
  | succ k ih => simp [toBytes, ih]

@[simp] theorem ofBytes_toBytes (h : n < 256 ^ k) : ofBytes (toBytes k n) = n := by
  induction k generalizing n with
  | zero =>
    rw [pow_zero] at h
    simp [toBytes, ofBytes, Nat.lt_one_iff.mp h]
  | succ k ih =>
    have hdiv : n / 256 < 256 ^ k := by
      rw [pow_succ] at h
      exact Nat.div_lt_of_lt_mul (by omega)
    simp only [toBytes, ofBytes, ih hdiv, UInt8.toNat_ofNat']
    omega

@[simp] theorem length_toArray (h : s.strlen ≤ k) : (toArray k s).length = k := by
  unfold CString.strlen at h
  simp only [toArray, CString.strlen, List.length_append, List.length_replicate]
  omega

/-- The bytes of the array one by one. -/
theorem toArray_eq_map (h : s.strlen ≤ k) : toArray k s = (List.range k).map s.byteAt := by
  apply List.ext_getElem
  · simp [h]
  · intro i hi hi'
    simp only [toArray, List.getElem_map, List.getElem_range, CString.byteAt]
    rw [List.getElem_append]
    split
    · rename_i hlt
      rw [List.getD_eq_getElem _ _ hlt]
    · rename_i hge
      rw [List.getD_eq_default _ _ (not_lt.mp hge), List.getElem_replicate]

@[simp] theorem ofArray_toArray : ofArray (toArray k s) = s := by
  apply CString.ext'
  have hall : ∀ b ∈ s.bytes, decide (b ≠ 0) = true := by
    intro b hb
    exact decide_eq_true fun h0 => s.nul_free (h0 ▸ hb)
  show (toArray k s).takeWhile (· ≠ 0) = s.bytes
  unfold toArray
  rw [List.takeWhile_append_of_pos hall, List.takeWhile_replicate]
  simp

/-- A string is read back from an array that holds it, whatever stands behind its
terminator. -/
theorem ofArray_slice (h : CString.HoldsAt m a n s) : ofArray (m.slice a n) = s := by
  obtain ⟨d, rfl⟩ := Nat.exists_eq_add_of_lt h.1
  have hsize : s.strlen + d + 1 = s.strlen + 1 + d := Nat.add_right_comm _ _ _
  have hslice : m.slice a (s.strlen + 1) = s.terminated := by
    have hcmp := CString.strcmpEq_iff.mpr h.2
    exact beq_iff_eq.mp hcmp
  have hall : ∀ b ∈ s.bytes, decide (b ≠ 0) = true := by
    intro b hb
    exact decide_eq_true fun h0 => s.nul_free (h0 ▸ hb)
  ext1
  change (m.slice a (s.strlen + d + 1)).takeWhile (· ≠ 0) = s.bytes
  rw [hsize, Memory.slice_add, hslice, CString.terminated, List.append_assoc,
    List.takeWhile_append_of_pos hall, List.singleton_append, List.takeWhile_cons_of_neg (by simp),
    List.append_nil]

end TfsBroker.Wire
