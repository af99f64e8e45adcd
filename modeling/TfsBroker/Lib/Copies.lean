import TfsBroker.Lib.CString

/-!
# Sequences of copies into memory

What a function of the C library writes is a copy of some bytes to an address. A
function that only writes is the list of its copies, in order: `store` runs them, and
`Within` says that a copy stays inside an object.

## Main results

* `store_of_beside` — bytes that no copy covers stay as they were
* `apply_strcpy`, `apply_memset`, `apply_put` — what one copy leaves at an address
-/

namespace TfsBroker

/-- Bytes copied to an address. -/
structure Copy where
  address : ℕ
  bytes : List UInt8
  deriving DecidableEq

namespace Copy

variable {m : Memory} {c : Copy} {cs : List Copy} {s : CString} {a n x : ℕ} {b : UInt8}

/-- One byte. -/
def put (a : ℕ) (b : UInt8) : Copy := ⟨a, [b]⟩

/-- `memset(a, b, n)`. -/
def memset (a : ℕ) (b : UInt8) (n : ℕ) : Copy := ⟨a, List.replicate n b⟩

/-- Assign to the `int` at `a`. -/
def putInt (a : ℕ) (v : ℤ) : Copy := ⟨a, (List.range 4).map (Memory.intBytes v)⟩

/-- `strcpy(a, s)`: the bytes of the string and its terminator. -/
def strcpy (a : ℕ) (s : CString) : Copy := ⟨a, s.terminated⟩

/-- `strcat(a, t)`, when the array at `a` holds the string `s`. -/
def strcat (a : ℕ) (s t : CString) : Copy := strcpy (a + s.strlen) t

/-- The copy stays inside the `n` bytes from `a` on. -/
def Within (c : Copy) (a n : ℕ) : Prop := a ≤ c.address ∧ c.address + c.bytes.length ≤ a + n

instance : Decidable (c.Within a n) := inferInstanceAs (Decidable (_ ∧ _))

/-- Make a copy. -/
def apply (m : Memory) (c : Copy) : Memory :=
  m.memcpy c.address c.bytes.length fun i => c.bytes.getD i 0

/-- Make copies one after the other. -/
def store (m : Memory) (cs : List Copy) : Memory := cs.foldl apply m

@[simp] theorem store_nil : store m [] = m := rfl

@[simp] theorem store_cons : store m (c :: cs) = store (c.apply m) cs := rfl

theorem store_append {ds : List Copy} : store m (cs ++ ds) = store (store m cs) ds :=
  List.foldl_append

theorem apply_of_beside (h : x < c.address ∨ c.address + c.bytes.length ≤ x) :
    c.apply m x = m x :=
  Memory.memcpy_of_not_mem h

/-- A byte that no copy covers stays as it was. -/
theorem store_of_beside (h : ∀ c ∈ cs, x < c.address ∨ c.address + c.bytes.length ≤ x) :
    store m cs x = m x := by
  induction cs generalizing m with
  | nil => rfl
  | cons c cs ih =>
    rw [store_cons, ih fun d hd => h d (List.mem_cons_of_mem _ hd),
      apply_of_beside (h c List.mem_cons_self)]

theorem apply_put : (put a b).apply m x = if x = a then b else m x := by
  split
  · rename_i hx
    subst hx
    have hcopy : (put x b).apply m x = [b].getD (x - x) 0 :=
      Memory.memcpy_of_mem le_rfl (Nat.lt_succ_self x)
    rw [hcopy, Nat.sub_self, List.getD_cons_zero]
  · rename_i hx
    refine apply_of_beside ?_
    simp only [put, List.length_singleton]
    omega

theorem apply_memset :
    (memset a b n).apply m x = if a ≤ x ∧ x < a + n then b else m x := by
  have hlen : (List.replicate n b).length = n := List.length_replicate
  split
  · rename_i hx
    have hcopy : (memset a b n).apply m x = (List.replicate n b).getD (x - a) 0 :=
      Memory.memcpy_of_mem hx.1 (by simp only [memset, hlen]; exact hx.2)
    rw [hcopy, List.getD_eq_getElem _ _ (by rw [hlen]; omega), List.getElem_replicate]
  · refine apply_of_beside ?_
    simp only [memset, hlen]
    omega

theorem apply_putInt {v : ℤ} : (putInt a v).apply m x =
    if a ≤ x ∧ x < a + 4 then Memory.intBytes v (x - a) else m x := by
  have hlen : ((List.range 4).map (Memory.intBytes v)).length = 4 := by simp
  split
  · rename_i hx
    have hcopy : (putInt a v).apply m x = ((List.range 4).map (Memory.intBytes v)).getD (x - a) 0 :=
      Memory.memcpy_of_mem hx.1 (by simp only [putInt, hlen]; exact hx.2)
    rw [hcopy, List.getD_eq_getElem _ _ (by rw [hlen]; omega), List.getElem_map,
      List.getElem_range]
  · refine apply_of_beside ?_
    simp only [putInt, hlen]
    omega

theorem getD_terminated (s : CString) (i : ℕ) : s.terminated.getD i 0 = s.byteAt i := by
  unfold CString.terminated CString.byteAt
  rcases Nat.lt_or_ge i s.bytes.length with hlt | hge
  · rw [List.getD_append _ _ _ _ hlt]
  · rw [List.getD_append_right _ _ _ _ hge, List.getD_eq_default _ _ hge]
    cases i - s.bytes.length <;> simp

theorem apply_strcpy :
    (strcpy a s).apply m x = if a ≤ x ∧ x ≤ a + s.strlen then s.byteAt (x - a) else m x := by
  have hlen : s.terminated.length = s.strlen + 1 := CString.length_terminated
  split
  · rename_i hx
    have hcopy : (strcpy a s).apply m x = s.terminated.getD (x - a) 0 :=
      Memory.memcpy_of_mem hx.1 (by simp only [strcpy, hlen]; omega)
    rw [hcopy, getD_terminated]
  · refine apply_of_beside ?_
    simp only [strcpy, hlen]
    omega

end Copy

end TfsBroker
