import TfsBroker.Fs.Handles

/-!
# What a write through an open handle does

With the offset inside the block, `tfs_write` writes what fits, unless the sum of the
length and the offset wraps: the length is then not cut short, and the copy leaves the
data area.

## Main results

* `Handle.tfsWrite_eq` — a write is exact, or it faults
-/

namespace TfsBroker.Fs

open State

variable {s s' : State} {fhandle : ℤ} {fh k b n toWrite : ℕ} {buffer : ℕ → UInt8}

/-- `fhandle` is an open handle; its entry in the open file table is `fh`, its inode `k`. -/
structure Handle (s : State) (fhandle : ℤ) (fh k : ℕ) : Prop where
  entry : getOpenFileEntry s fhandle = some fh
  inumber : (s.openFileTable fh).ofInumber = k

/-- `n` bytes of `buffer` were copied to the block of the inode `k`, from the offset of
the handle on, and no byte elsewhere; offset and size follow. -/
structure WroteExactly (s s' : State) (fh k n : ℕ) (buffer : ℕ → UInt8) : Prop where
  offset : s'.openFileTable fh =
    { s.openFileTable fh with ofOffset := (s.openFileTable fh).ofOffset + n }
  size : (s'.inodeTable k).iSize =
    max (s.inodeTable k).iSize ((s.openFileTable fh).ofOffset + n)
  bytes : ∃ b : ℕ, (0 < n → (s'.inodeTable k).iDataBlock = b ∧ b < s.dataBlocks) ∧
    (s.openFileTable fh).ofOffset + n ≤ s.blockSize ∧
    s'.fsData = s.fsData.memcpy (b * s.blockSize + (s.openFileTable fh).ofOffset) n buffer

/-- The state after a write of `n` bytes to the block `b`, if there are any. -/
def wroteTo (s : State) (fh k b n : ℕ) (buffer : ℕ → UInt8) : State :=
  if n = 0 then s else written s fh k b n buffer

theorem wroteExactly_wroteTo (hb : WriteBlock s k b)
    (hinside : (s.openFileTable fh).ofOffset ≤ (s.inodeTable k).iSize)
    (hfits : (s.openFileTable fh).ofOffset + n ≤ s.blockSize) :
    WroteExactly s (wroteTo s fh k b n buffer) fh k n buffer := by
  unfold wroteTo
  split
  · rename_i hn
    subst hn
    refine ⟨rfl, (max_eq_left hinside).symm, 0, fun h => absurd h (lt_irrefl 0), hfits, ?_⟩
    funext x
    exact (Memory.memcpy_of_not_mem (by omega)).symm
  · exact ⟨by simp [written], by simp [written], b, fun _ => ⟨by simp [written], hb.lt⟩, hfits, rfl⟩

namespace Handle

/-- A write through a handle in the block goes to the block of its inode as far as there
is room, or, when the length and the offset add up to more than a `size_t` holds, out of
the data area. -/
theorem tfsWrite_eq (h : Handle s fhandle fh k) (hlt : k < s.inodeTableSize)
    (hb : WriteBlock s k b) (hoff : (s.openFileTable fh).ofOffset ≤ s.blockSize)
    (hlen : toWrite < sizeRange) (buffer : ℕ → UInt8) :
    tfsWrite s fhandle buffer toWrite =
      if toWrite + (s.openFileTable fh).ofOffset < sizeRange then
        .ret ((min toWrite (s.blockSize - (s.openFileTable fh).ofOffset) : ℕ),
          wroteTo s fh k b (min toWrite (s.blockSize - (s.openFileTable fh).ofOffset)) buffer)
      else .fault := by
  have hinode : inodeGet s (s.openFileTable fh).ofInumber = some k :=
    inodeGet_eq_some.mpr ⟨h.inumber, hlt⟩
  have hblock : s.blockSize < sizeRange := s.fsParams.blockSize_lt
  simp only [tfsWrite, h.entry, hinode]
  by_cases hsum : toWrite + (s.openFileTable fh).ofOffset < sizeRange
  · have hclamp := clampWrite_eq_min hoff hblock hsum
    rw [if_pos hsum]
    rcases tfsWriteBody_eq s fh k buffer hclamp.symm with
      ⟨hn, heq⟩ | ⟨-, hnone, -⟩ | ⟨c, hn, hc, heq⟩
    · rw [heq, hn]
      rfl
    · exact absurd hb (hnone b)
    · -- the bytes stay in the block, and the block in the data area
      obtain rfl := hb.unique hc
      have hend : (b + 1) * s.blockSize ≤ s.dataBlocks * s.blockSize :=
        Nat.mul_le_mul_right _ hb.lt
      rw [Nat.succ_mul] at hend
      rw [heq, if_pos (by rw [dataSize]; omega), wroteTo, if_neg hn.ne']
  · have hclamp := clampWrite_of_wrap hoff hlen (hoff.trans_lt hblock) (not_lt.mp hsum)
    rw [if_neg hsum]
    rcases tfsWriteBody_eq s fh k buffer hclamp.symm with
      ⟨hn, -⟩ | ⟨-, hnone, -⟩ | ⟨c, -, -, heq⟩
    · omega
    · exact absurd hb (hnone b)
    · have hdata := dataSize_lt_sizeRange s
      rw [heq, if_neg (by omega)]

/-- Where a write is exact: the sum of length and offset does not wrap. -/
theorem writes_exactly_iff (h : Handle s fhandle fh k) (hlt : k < s.inodeTableSize)
    (hb : WriteBlock s k b)
    (hinside : (s.openFileTable fh).ofOffset ≤ (s.inodeTable k).iSize)
    (hsize : (s.inodeTable k).iSize ≤ s.blockSize) (hlen : toWrite < sizeRange)
    (buffer : ℕ → UInt8) :
    (∃ s', tfsWrite s fhandle buffer toWrite =
        .ret ((min toWrite (s.blockSize - (s.openFileTable fh).ofOffset) : ℕ), s') ∧
      WroteExactly s s' fh k (min toWrite (s.blockSize - (s.openFileTable fh).ofOffset)) buffer) ↔
    toWrite + (s.openFileTable fh).ofOffset < sizeRange := by
  have hoff := hinside.trans hsize
  have heq := h.tfsWrite_eq hlt hb hoff hlen buffer
  constructor
  · rintro ⟨s', hret, -⟩
    by_contra hsum
    rw [if_neg hsum, hret] at heq
    cases heq
  · intro hsum
    rw [if_pos hsum] at heq
    exact ⟨_, heq, wroteExactly_wroteTo hb hinside (by omega)⟩

end Handle

/-- The block a write to the file `k` goes to. -/
theorem SeqInv.exists_writeBlock (h : SeqInv s) (hk : LiveFile s k)
    (hfree : (s.inodeTable k).iSize = 0 → firstFree s.freeBlocks s.dataBlocks ≠ none) :
    ∃ b, WriteBlock s k b := by
  by_cases hsize : (s.inodeTable k).iSize = 0
  · obtain ⟨b, hb⟩ := Option.ne_none_iff_exists'.mp (hfree hsize)
    exact ⟨b, by rw [WriteBlock, if_pos hsize, hb]⟩
  · obtain ⟨-, b, hb, hblt, -⟩ := h.file_block hk (Nat.pos_of_ne_zero hsize)
    exact ⟨b, by rw [WriteBlock, if_neg hsize]; exact ⟨hb, hblt⟩⟩

/-- The file of an open handle is in use. -/
theorem SeqInv.liveFile_of_handle (h : SeqInv s) (hh : Handle s fhandle fh k) : LiveFile s k := by
  obtain ⟨k', hlive, -, hk'⟩ := h.file_of_handle hh.entry
  obtain rfl : k = k' := by exact_mod_cast hh.inumber.symm.trans hk'
  exact hlive

end TfsBroker.Fs
