import TfsBroker.Lib.CString
import TfsBroker.Lib.Bitmap

/-!
# What both file systems share: parameters, path names, sizes and outcomes

`fs/` and `fs2/` have the same `config.h`, the same parameter record and path
convention, and compute the sizes of reads and writes in the same way. A call of
either ends in one of four ways, collected in `Outcome`.
-/

namespace TfsBroker

/-- How a call ends. -/
inductive Outcome (α : Type*)
  /-- The call returns. -/
  | ret (a : α)
  /-- It accesses memory outside the data area or through a null pointer. -/
  | fault
  /-- An `ALWAYS_ASSERT` or `PANIC` ends the process. -/
  | abort
  /-- The bound on nested calls is used up. -/
  | deep
  deriving DecidableEq

namespace Outcome

variable {α β : Type*} {x : Outcome α} {f : α → Outcome β} {b : β}

/-- Go on after a call that returned. -/
def bind (x : Outcome α) (f : α → Outcome β) : Outcome β :=
  match x with
  | ret a => f a
  | fault => fault
  | abort => abort
  | deep => deep

/-- The result of a call that returned. -/
def toOption : Outcome α → Option α
  | ret a => some a
  | _ => none

@[simp] theorem ret_bind {a : α} : (ret a).bind f = f a := rfl

theorem bind_eq_ret : x.bind f = ret b ↔ ∃ a, x = ret a ∧ f a = ret b := by
  cases x <;> simp [bind]

theorem exists_bind_eq_ret (h : ∃ a, x = ret a) (hf : ∀ a, ∃ b, f a = ret b) :
    ∃ b, x.bind f = ret b := by
  obtain ⟨a, rfl⟩ := h
  exact hf a

/-- The call returns, unless it accesses memory outside the data area. -/
def Clean : Outcome α → Prop
  | ret _ | fault => True
  | abort | deep => False

@[simp] theorem clean_ret {a : α} : (ret a).Clean := trivial

@[simp] theorem clean_fault : (fault : Outcome α).Clean := trivial

theorem Clean.ne_abort (h : x.Clean) : x ≠ abort := by
  rintro rfl
  exact h

instance : Decidable (x ≠ fault) :=
  match x with
  | ret _ | abort | deep => .isTrue (by simp)
  | fault => .isFalse (by simp)

theorem Clean.exists_ret (h : x.Clean) (hfault : x ≠ fault) : ∃ a, x = ret a := by
  cases x with
  | ret a => exact ⟨a, rfl⟩
  | fault => exact absurd rfl hfault
  | abort | deep => exact h.elim

theorem Clean.bind (h : x.Clean) (hf : ∀ a, x = ret a → (f a).Clean) : (x.bind f).Clean := by
  cases x with
  | ret a => exact hf a rfl
  | fault => trivial
  | abort | deep => exact h.elim

theorem Clean.of_bind (h : (x.bind f).Clean) : x.Clean := by
  cases x with
  | ret | fault => trivial
  | abort | deep => exact h

/-- The call returns. -/
def Returns (x : Outcome α) : Prop := ∃ a, x = ret a

@[simp] theorem returns_ret {a : α} : (ret a).Returns := ⟨a, rfl⟩

theorem Returns.clean (h : x.Returns) : x.Clean := by
  obtain ⟨a, rfl⟩ := h
  trivial

theorem Returns.bind (h : x.Returns) (hf : ∀ a, x = ret a → (f a).Returns) :
    (x.bind f).Returns := by
  obtain ⟨a, rfl⟩ := h
  exact hf a rfl

/-- Both calls return, with related results, or both end in the same other way. -/
inductive Rel (R : α → β → Prop) : Outcome α → Outcome β → Prop
  | ret {a : α} {b : β} : R a b → Rel R (ret a) (ret b)
  | fault : Rel R fault fault
  | abort : Rel R abort abort
  | deep : Rel R deep deep

theorem Rel.bind {γ δ : Type*} {R : α → γ → Prop} {Q : β → δ → Prop} {y : Outcome γ}
    {g : γ → Outcome δ} (h : Rel R x y)
    (hf : ∀ a b, x = Outcome.ret a → y = Outcome.ret b → R a b → Rel Q (f a) (g b)) :
    Rel Q (x.bind f) (y.bind g) := by
  cases h with
  | ret hab => exact hf _ _ rfl rfl hab
  | fault => exact .fault
  | abort => exact .abort
  | deep => exact .deep

@[simp] theorem toOption_eq_some {a : α} : x.toOption = some a ↔ x = ret a := by
  cases x <;> simp [toOption]

end Outcome

/-- `ROOT_DIR_INUM`. -/
def rootDirInum : ℕ := 0

/-- `MAX_FILE_NAME`, the size of the name array of a directory entry. -/
def maxFileName : ℕ := 40

/-- `sizeof(dir_entry_t)`: a 40-byte name followed by an `int`. -/
def dirEntrySize : ℕ := 44

/-- The parameter record `tfs_params`. The tables are indexed by `int`s and the
data area is one object, so the counts stay in those ranges; a block size of
zero divides by zero in the first `inode_alloc`. -/
structure TfsParams where
  maxInodeCount : ℕ
  maxBlockCount : ℕ
  maxOpenFilesCount : ℕ
  blockSize : ℕ
  inode_index : maxInodeCount ≤ intMax := by decide
  block_index : maxBlockCount ≤ intMax := by decide
  open_index : maxOpenFilesCount ≤ intMax := by decide
  entry_index : blockSize / dirEntrySize ≤ intMax := by decide
  blockSize_pos : 0 < blockSize := by decide
  data_object : maxBlockCount * blockSize ≤ ptrdiffMax := by decide

/-- A block is smaller than the range of `size_t`. -/
theorem TfsParams.blockSize_lt (p : TfsParams) : p.blockSize < sizeRange := by
  have hindex := p.entry_index
  have hint : intMax = 2147483647 := rfl
  have hentry : dirEntrySize = 44 := rfl
  have hrange : sizeRange = 18446744073709551616 := rfl
  rw [hint, hentry] at hindex
  omega

/-- `tfs_default_params`. -/
def tfsDefaultParams : TfsParams where
  maxInodeCount := 64
  maxBlockCount := 1024
  maxOpenFilesCount := 16
  blockSize := 1024

/-- `TFS_O_CREAT`. -/
def tfsOCreat : ℕ := 1

/-- `TFS_O_TRUNC`. -/
def tfsOTrunc : ℕ := 2

/-- `TFS_O_APPEND`. -/
def tfsOAppend : ℕ := 4

/-- `mode & flag`. -/
def hasFlag (mode flag : ℕ) : Bool := mode &&& flag != 0

/-- `valid_pathname`: not a null pointer, longer than one byte, starting with
`'/'`. -/
def validPathname : Option CString → Bool
  | none => false
  | some name => 1 < name.strlen && name.byteAt 0 == 47

/-- `name + 1` for a path that passed `valid_pathname`. -/
def subName : Option CString → CString
  | none => CString.empty
  | some name => name.tail

theorem strlen_subName_pos {name : Option CString} (h : validPathname name = true) :
    0 < (subName name).strlen := by
  cases name with
  | none => simp [validPathname] at h
  | some name =>
    simp only [validPathname, Bool.and_eq_true, decide_eq_true_eq] at h
    rw [subName, CString.strlen_tail]
    omega

/-- `a - b` on `size_t`. -/
def subSize (a b : ℕ) : ℕ := (a + sizeRange - b) % sizeRange

/-- The number of bytes `tfs_write` decides to write. -/
def clampWrite (blockSize offset toWrite : ℕ) : ℕ :=
  if blockSize < (toWrite + offset) % sizeRange then subSize blockSize offset else toWrite

/-- The number of bytes `tfs_read` decides to read. -/
def clampRead (size offset len : ℕ) : ℕ :=
  if len < subSize size offset then len else subSize size offset

/-- Up to the end of the block, as much is written as was asked for. -/
theorem clampWrite_eq_min {blockSize offset toWrite : ℕ} (hoffset : offset ≤ blockSize)
    (hlt : blockSize < sizeRange) (hsum : toWrite + offset < sizeRange) :
    clampWrite blockSize offset toWrite = min toWrite (blockSize - offset) := by
  have hsub : subSize blockSize offset = blockSize - offset := by
    unfold subSize sizeRange at *
    omega
  rw [clampWrite, Nat.mod_eq_of_lt hsum, hsub]
  split <;> omega

/-- A length whose sum with the offset wraps is not cut short. -/
theorem clampWrite_of_wrap {blockSize offset toWrite : ℕ} (hoffset : offset ≤ blockSize)
    (hlen : toWrite < sizeRange) (hoff : offset < sizeRange) (hsum : sizeRange ≤ toWrite + offset) :
    clampWrite blockSize offset toWrite = toWrite := by
  rw [clampWrite, if_neg]
  rw [Nat.mod_eq_sub_mod hsum, Nat.mod_eq_of_lt (by omega)]
  omega

/-- What `tfs_read` answers: its result and the bytes it copied to the caller. -/
structure ReadResult where
  ret : ℤ
  bytes : List UInt8
  deriving DecidableEq

end TfsBroker
