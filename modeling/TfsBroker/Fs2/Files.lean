import TfsBroker.Fs2.Asserts

/-!
# Bytes of an open file of `fs2/`

What a write at the end of a file and a read inside it do, for a handle that is open
on a file whose block is known.

## Main results

* `OpenFile.tfsWrite_end` — the ways a write at the end of the file can go
* `OpenFile.tfsRead_byte` — the next byte of the file
-/

namespace TfsBroker.Fs2

open State

variable {s : State} {k b n fh j : ℕ} {buffer : ℕ → UInt8}

/-- The bytes of the file in slot `k`. -/
def fileContents (s : State) (k : ℕ) : List UInt8 :=
  s.fsData.slice (fileAddress s k) (s.inodeTable k).iSize

@[simp] theorem length_fileContents : (fileContents s k).length = (s.inodeTable k).iSize :=
  Memory.slice_length

/-- The bytes of the file `k` lie in a block of the data area. -/
structure StoredFile (s : State) (k : ℕ) : Prop where
  inode : k < s.inodeTableSize
  size_le : (s.inodeTable k).iSize ≤ s.blockSize
  block : 0 < (s.inodeTable k).iSize →
    ∃ b : ℕ, (s.inodeTable k).iDataBlock = b ∧ b < s.dataBlocks

/-- `fh` is an open handle on the file `k`. -/
structure OpenFile (s : State) (fh k : ℕ) : Prop extends StoredFile s k where
  valid : fh < s.maxOpenFiles
  on : HandleOn s fh k

/-- The state after `n` bytes were written at the end of the file `k`, to the block
`b`. -/
def appended (s : State) (fh k b n : ℕ) (buffer : ℕ → UInt8) : State :=
  { s with
    inodeTable := Function.update s.inodeTable k
      { s.inodeTable k with iSize := (s.inodeTable k).iSize + n, iDataBlock := b }
    freeBlocks :=
      if (s.inodeTable k).iSize = 0 then Function.update s.freeBlocks b .TAKEN else s.freeBlocks
    openFileTable := Function.update s.openFileTable fh
      { s.openFileTable fh with ofOffset := (s.inodeTable k).iSize + n }
    fsData := s.fsData.memcpy (b * s.blockSize + (s.inodeTable k).iSize) n buffer }

theorem blockSize_lt (s : State) : s.blockSize < sizeRange := s.fsParams.blockSize_lt

/-- A range in a block is in the data area. -/
theorem block_add_le {i : ℕ} (hb : b < s.dataBlocks) (hi : i ≤ s.blockSize) :
    b * s.blockSize + i ≤ s.dataSize := by
  have hmul : (b + 1) * s.blockSize ≤ s.dataBlocks * s.blockSize :=
    Nat.mul_le_mul_right _ hb
  rw [Nat.add_mul, Nat.one_mul] at hmul
  rw [dataSize]
  omega

/-- The end of `tfs_write`, once the file has a block. -/
private theorem store_eq {u : State} (hb : (u.inodeTable k).iDataBlock = b) (hblt : b < u.dataBlocks)
    (hend : (u.openFileTable fh).ofOffset = (u.inodeTable k).iSize)
    (hfits : (u.inodeTable k).iSize + n ≤ u.blockSize) (hpos : 0 < n) :
    ((dataBlockGet u (u.inodeTable k).iDataBlock).bind fun a =>
      if a + (u.openFileTable fh).ofOffset + n ≤ u.dataSize then
        let s := { u with fsData := u.fsData.memcpy (a + (u.openFileTable fh).ofOffset) n buffer }
        let offset := ((u.openFileTable fh).ofOffset + n) % sizeRange
        let s := s.setEntry fh { s.openFileTable fh with ofOffset := offset }
        let s :=
          if (s.inodeTable k).iSize < offset then
            s.setInode k { s.inodeTable k with iSize := offset }
          else s
        .ret ((n : ℤ), s)
      else .fault) =
      .ret ((n : ℤ), { u with
        inodeTable := Function.update u.inodeTable k
          { u.inodeTable k with iSize := (u.inodeTable k).iSize + n }
        openFileTable := Function.update u.openFileTable fh
          { u.openFileTable fh with ofOffset := (u.inodeTable k).iSize + n }
        fsData := u.fsData.memcpy (b * u.blockSize + (u.inodeTable k).iSize) n buffer }) := by
  have hget : dataBlockGet u (u.inodeTable k).iDataBlock = .ret (b * u.blockSize) :=
    dataBlockGet_eq_ret.mpr (Fs.dataBlockGet_eq_some.mpr ⟨b, hb, hblt, rfl⟩)
  have harea : b * u.blockSize + (u.inodeTable k).iSize + n ≤ u.dataSize := by
    rw [Nat.add_assoc]
    exact block_add_le hblt hfits
  have hmod : ((u.inodeTable k).iSize + n) % sizeRange = (u.inodeTable k).iSize + n :=
    Nat.mod_eq_of_lt (hfits.trans_lt (blockSize_lt u))
  have hgrow : (u.inodeTable k).iSize < (u.inodeTable k).iSize + n := by omega
  simp only [hget, Outcome.ret_bind, hend, harea, hmod, setEntry, setInode, hgrow, if_true]

namespace OpenFile

theorem getOpenFileEntry (h : OpenFile s fh k) : getOpenFileEntry s fh = some fh := by
  have hvalid : validFileHandle s fh = true := by
    simp [validFileHandle, h.valid]
  simp [Fs2.getOpenFileEntry, hvalid, h.on.1]

theorem inodeGet (h : OpenFile s fh k) :
    inodeGet s (s.openFileTable fh).ofInumber = .ret k := by
  rw [h.on.2]
  exact inodeGet_eq_ret.mpr (Fs.inodeGet_eq_some.mpr ⟨rfl, h.inode⟩)

/-- The ways a write at the end of the file can go: it has nothing to write, there is
no block for the first byte, or it writes as much as fits. -/
theorem tfsWrite_end (h : OpenFile s fh k) (buffer : ℕ → UInt8) {toWrite : ℕ}
    (hend : (s.openFileTable fh).ofOffset = (s.inodeTable k).iSize)
    (hsum : toWrite + (s.inodeTable k).iSize < sizeRange)
    (hn : n = min toWrite (s.blockSize - (s.inodeTable k).iSize)) :
    (n = 0 ∧ tfsWrite s fh buffer toWrite = .ret (0, s)) ∨
    (0 < n ∧ (s.inodeTable k).iSize = 0 ∧ firstFree s.freeBlocks s.dataBlocks = none ∧
      tfsWrite s fh buffer toWrite = .ret (-1, s)) ∨
    ∃ b, 0 < n ∧ Fs.WriteBlock s.toFs k b ∧
      tfsWrite s fh buffer toWrite = .ret (n, appended s fh k b n buffer) := by
  have hclamp : clampWrite s.blockSize (s.openFileTable fh).ofOffset toWrite = n := by
    rw [hend, clampWrite_eq_min h.size_le (blockSize_lt s) hsum, hn]
  unfold tfsWrite
  simp only [h.getOpenFileEntry, h.inodeGet, Outcome.ret_bind, hclamp]
  by_cases hpos : 0 < n
  swap
  · rw [if_neg hpos]
    exact .inl ⟨by omega, rfl⟩
  rw [if_pos hpos]
  refine .inr ?_
  -- where the write goes, once there is a block
  have hfits : (s.inodeTable k).iSize + n ≤ s.blockSize := by
    have := h.size_le
    omega
  by_cases hsize : (s.inodeTable k).iSize = 0
  · rw [if_pos hsize, dataBlockAlloc]
    cases hb : firstFree s.freeBlocks s.dataBlocks with
    | none => exact .inl ⟨hpos, hsize, rfl, rfl⟩
    | some b =>
      refine .inr ⟨b, hpos, by rw [Fs.WriteBlock, if_pos (by exact hsize)]; exact hb, ?_⟩
      refine (store_eq (b := b) (u := (s.setFreeBlock b .TAKEN).setInode k
        { s.inodeTable k with iDataBlock := b }) (by simp [setInode]) (by exact firstFree_lt hb)
        (by simpa [setInode, setFreeBlock] using hend)
        (by simpa [setInode, setFreeBlock, blockSize] using hfits) hpos).trans ?_
      simp [appended, hsize, setInode, setFreeBlock, blockSize]
  · obtain ⟨b, hb, hblt⟩ := h.block (Nat.pos_of_ne_zero hsize)
    rw [if_neg hsize]
    refine .inr ⟨b, hpos, by rw [Fs.WriteBlock, if_neg (by exact hsize)]; exact ⟨hb, hblt⟩, ?_⟩
    refine (store_eq hb hblt hend hfits hpos).trans ?_
    simp [appended, hsize, hb]

/-- A read inside the file gives its next byte. -/
theorem tfsRead_byte (h : OpenFile s fh k)
    (hlt : (s.openFileTable fh).ofOffset < (s.inodeTable k).iSize) :
    tfsRead s fh 1 = .ret
      (⟨1, [s.fsData (fileAddress s k + (s.openFileTable fh).ofOffset)]⟩,
        s.setEntry fh { s.openFileTable fh with ofOffset := (s.openFileTable fh).ofOffset + 1 }) := by
  obtain ⟨b, hb, hblt⟩ := h.block (by omega)
  have hget : dataBlockGet s (s.inodeTable k).iDataBlock = .ret (fileAddress s k) := by
    refine dataBlockGet_eq_ret.mpr (Fs.dataBlockGet_eq_some.mpr ⟨b, hb, hblt, ?_⟩)
    rw [fileAddress, hb, Int.toNat_natCast]
    rfl
  have hsize := h.size_le.trans_lt (blockSize_lt s)
  have hclamp : clampRead (s.inodeTable k).iSize (s.openFileTable fh).ofOffset 1 = 1 := by
    rw [Fs.clampRead_eq 1 hlt.le hsize]
    omega
  have harea : fileAddress s k + (s.openFileTable fh).ofOffset + 1 ≤ s.dataSize := by
    rw [fileAddress, hb, Int.toNat_natCast, Nat.add_assoc]
    exact block_add_le hblt (by have := h.size_le; omega)
  have hmod : ((s.openFileTable fh).ofOffset + 1) % sizeRange = (s.openFileTable fh).ofOffset + 1 :=
    Nat.mod_eq_of_lt (by omega)
  unfold tfsRead
  rw [h.getOpenFileEntry]
  dsimp only
  rw [h.inodeGet, Outcome.ret_bind, hclamp, if_pos Nat.zero_lt_one, hget, Outcome.ret_bind,
    if_pos harea, hmod]
  simp [Memory.slice]

/-- A read at the end of the file gives nothing. -/
theorem tfsRead_end (h : OpenFile s fh k)
    (hend : (s.openFileTable fh).ofOffset = (s.inodeTable k).iSize) (len : ℕ) :
    tfsRead s fh len = .ret (⟨0, []⟩, s) := by
  have hclamp : clampRead (s.inodeTable k).iSize (s.openFileTable fh).ofOffset len = 0 := by
    rw [Fs.clampRead_eq len hend.le (h.size_le.trans_lt (blockSize_lt s))]
    omega
  unfold tfsRead
  rw [h.getOpenFileEntry]
  dsimp only
  rw [h.inodeGet, Outcome.ret_bind, hclamp, if_neg (Nat.lt_irrefl 0)]

/-- What a write at the end leaves open, for the same handle and for the others. -/
theorem appended (h : OpenFile s j k) (buffer : ℕ → UInt8) (hb : b < s.dataBlocks)
    (hfits : (s.inodeTable k).iSize + n ≤ s.blockSize) (hon : HandleOn s fh k) :
    OpenFile (appended s fh k b n buffer) j k := by
  refine ⟨⟨h.inode, ?_, fun _ => ⟨b, ?_, hb⟩⟩, h.valid, h.on.1, ?_⟩
  · simp only [Fs2.appended, Function.update_self]
    exact hfits
  · simp [Fs2.appended]
  · by_cases hj : j = fh
    · subst hj
      simp [Fs2.appended, hon.2]
    · simp [Fs2.appended, Function.update_of_ne hj, h.on.2]

/-- Moving the offset of a handle leaves every handle open. -/
theorem seek {offset : ℕ} (h : OpenFile s j k) (hon : HandleOn s fh k) :
    OpenFile (s.setEntry fh { s.openFileTable fh with ofOffset := offset }) j k := by
  refine ⟨⟨h.inode, h.size_le, h.block⟩, h.valid, h.on.1, ?_⟩
  by_cases hj : j = fh
  · subst hj
    simp [setEntry, hon.2]
  · simp [setEntry, Function.update_of_ne hj, h.on.2]

end OpenFile

/-! ### Opening and closing -/

/-- Nothing but the open file table differs. -/
structure SameFiles (s s' : State) : Prop where
  params : s'.fsParams = s.fsParams
  nodes : s'.inodeTable = s.inodeTable
  data : s'.fsData = s.fsData

namespace SameFiles

variable {s' : State}

theorem storedFile (h : SameFiles s s') (hk : StoredFile s k) : StoredFile s' k := by
  have hsize : s'.inodeTableSize = s.inodeTableSize := by rw [inodeTableSize, inodeTableSize, h.params]
  have hblock : s'.blockSize = s.blockSize := by rw [blockSize, blockSize, h.params]
  have hblocks : s'.dataBlocks = s.dataBlocks := by rw [dataBlocks, dataBlocks, h.params]
  exact ⟨hsize ▸ hk.inode, by rw [h.nodes, hblock]; exact hk.size_le,
    by rw [h.nodes, hblocks]; exact hk.block⟩

/-- A handle whose entry is the same stays open. -/
theorem openFile (h : SameFiles s s') (hk : OpenFile s fh k)
    (hfree : s'.freeOpenFileEntries fh = s.freeOpenFileEntries fh)
    (hentry : s'.openFileTable fh = s.openFileTable fh) : OpenFile s' fh k := by
  have hmax : s'.maxOpenFiles = s.maxOpenFiles := by rw [maxOpenFiles, maxOpenFiles, h.params]
  exact ⟨h.storedFile hk.toStoredFile, hmax ▸ hk.valid, hfree.trans hk.on.1, hentry ▸ hk.on.2⟩

theorem fileContents_eq (h : SameFiles s s') (k : ℕ) : fileContents s' k = fileContents s k := by
  rw [fileContents, fileContents, fileAddress, fileAddress, h.data, h.nodes, blockSize, blockSize,
    h.params]

end SameFiles

/-- The state after the file `k` was entered in slot `i` of the open file table. -/
def registered (s : State) (i k offset : ℕ) : State :=
  (s.setFreeEntry i .TAKEN).setEntry i ⟨k, offset⟩

theorem sameFiles_registered {i offset : ℕ} : SameFiles s (registered s i k offset) := ⟨rfl, rfl, rfl⟩

/-- The ways entering a file in the open file table can go. -/
theorem addToOpenFileTable_cases (s : State) (k offset : ℕ) :
    addToOpenFileTable s k offset = (-1, s) ∨
    ∃ i, firstFree s.freeOpenFileEntries s.maxOpenFiles = some i ∧
      addToOpenFileTable s k offset = ((i : ℤ), registered s i k offset) := by
  unfold addToOpenFileTable
  cases hfirst : firstFree s.freeOpenFileEntries s.maxOpenFiles with
  | none => exact .inl rfl
  | some i => exact .inr ⟨i, rfl, rfl⟩

/-- The new handle. -/
theorem StoredFile.registered {i offset : ℕ} (h : StoredFile s k)
    (hfirst : firstFree s.freeOpenFileEntries s.maxOpenFiles = some i) :
    OpenFile (registered s i k offset) i k :=
  ⟨sameFiles_registered.storedFile h, firstFree_lt hfirst,
    by simp [HandleOn, Fs2.registered, setEntry, setFreeEntry]⟩

/-- The other handles. -/
theorem OpenFile.registered {i : ℕ} (h : OpenFile s fh k) (offset : ℕ)
    (hfirst : firstFree s.freeOpenFileEntries s.maxOpenFiles = some i) :
    fh ≠ i ∧ OpenFile (registered s i k offset) fh k ∧
      (Fs2.registered s i k offset).openFileTable fh = s.openFileTable fh := by
  have hne : fh ≠ i := by
    rintro rfl
    have hfree := firstFree_free hfirst
    rw [h.on.1] at hfree
    cases hfree
  have hentry : (Fs2.registered s i k offset).openFileTable fh = s.openFileTable fh :=
    Function.update_of_ne hne _ _
  exact ⟨hne, sameFiles_registered.openFile h (Function.update_of_ne hne _ _) hentry, hentry⟩

theorem sameFiles_closed : SameFiles s (s.setFreeEntry fh .FREE) := ⟨rfl, rfl, rfl⟩

/-- Closing an open handle. -/
theorem OpenFile.tfsClose_eq (h : OpenFile s fh k) :
    tfsClose s fh = .ret (0, s.setFreeEntry fh .FREE) := by
  have hvalid : validFileHandle s fh = true := by
    simp [validFileHandle, h.valid]
  unfold tfsClose
  simp [h.getOpenFileEntry, removeFromOpenFileTable, hvalid, h.on.1]

/-- The handles that were not closed. -/
theorem OpenFile.closed (h : OpenFile s j k) (hne : j ≠ fh) :
    OpenFile (s.setFreeEntry fh .FREE) j k :=
  sameFiles_closed.openFile h (Function.update_of_ne hne _ _) rfl

/-- A write at the end adds its bytes to the file. -/
theorem fileContents_appended (hb : Fs.WriteBlock s.toFs k b) :
    fileContents (appended s fh k b n buffer) k =
      fileContents s k ++ (List.range n).map buffer := by
  have haddr : fileAddress (appended s fh k b n buffer) k = b * s.blockSize := by
    simp [fileAddress, appended, blockSize]
  have hold : s.fsData.slice (b * s.blockSize) (s.inodeTable k).iSize = fileContents s k := by
    by_cases hsize : (s.inodeTable k).iSize = 0
    · rw [fileContents, hsize, Memory.slice_zero, Memory.slice_zero]
    · rw [Fs.WriteBlock, if_neg (by exact hsize)] at hb
      have hblock : (s.inodeTable k).iDataBlock = b := hb.1
      rw [fileContents, fileAddress, hblock, Int.toNat_natCast]
  rw [fileContents, haddr]
  simp only [appended, Function.update_self]
  rw [Memory.slice_add, Memory.slice_memcpy_of_disjoint (by omega), Memory.slice_memcpy_self, hold]

end TfsBroker.Fs2
