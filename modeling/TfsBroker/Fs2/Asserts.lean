import TfsBroker.Fs2.History
import TfsBroker.Fs2.Refinement
import TfsBroker.Fs.Handles

/-!
# The `ALWAYS_ASSERT`s of `fs2/`

Where `fs/` answers -1 or a null pointer on a wrong number, `fs2/` ends the process.
The numbers come from the directory, from open handles and from inodes, and these are
right in every state whose counterpart of `fs/` keeps `SeqInv`. What that does not
cover is a file that never held a byte: it has no block number, and a handle on it may
not have left its start.

## Main results

* `noAssertFires` — no call ends the process
-/

namespace TfsBroker.Fs2

open State

variable {s s' : State} {name target : Option CString} {mode k b i n fh : ℕ} {fhandle r : ℤ}

/-- `fh` is an open handle on the slot `k`. -/
def HandleOn (s : State) (fh k : ℕ) : Prop :=
  s.freeOpenFileEntries fh = .TAKEN ∧ (s.openFileTable fh).ofInumber = k

instance : Decidable (HandleOn s fh k) := inferInstanceAs (Decidable (_ ∧ _))

/-- No call runs into an `ALWAYS_ASSERT`. -/
def NoAssertFires (s : State) : Prop := ∀ c, call s c ≠ .abort

/-- A handle on a file without a block stands at the start of the empty file. -/
def Backed (t : Fs.State) : Prop :=
  ∀ fh k, Fs.HandleOn t fh k → (∃ b : ℕ, (t.inodeTable k).iDataBlock = b ∧ b < t.dataBlocks) ∨
    ((t.inodeTable k).iSize = 0 ∧ (t.openFileTable fh).ofOffset = 0)

theorem dataBlockGet_returns {m : ℤ} (h : m = b) (hb : b < s.dataBlocks) :
    (dataBlockGet s m).Returns := by
  subst h
  simp [dataBlockGet, validBlockNumber, hb]

theorem dataBlockFree_returns {m : ℤ} (h : m = b) (hb : b < s.dataBlocks) :
    (dataBlockFree s m).Returns := by
  subst h
  simp [dataBlockFree, validBlockNumber, hb]

/-- Deleting an inode in use whose block number is valid if it is not empty. -/
theorem inodeDelete_returns (hk : k < s.inodeTableSize) (htaken : s.freeinodeTs k = .TAKEN)
    (hblock : 0 < (s.inodeTable k).iSize → ∃ b : ℕ, (s.inodeTable k).iDataBlock = b ∧
      b < s.dataBlocks) : (inodeDelete s k).Returns := by
  have hvalid : validInumber s k = true := by simp [validInumber, hk]
  unfold inodeDelete
  simp only [hvalid, Int.toNat_natCast, htaken, if_true]
  refine Outcome.Returns.bind ?_ fun _ _ => by simp
  split
  · rename_i hsize
    obtain ⟨b, hb, hlt⟩ := hblock hsize
    exact dataBlockFree_returns hb hlt
  · simp

theorem truncate_returns (hblock : 0 < (s.inodeTable k).iSize → ∃ b : ℕ,
    (s.inodeTable k).iDataBlock = b ∧ b < s.dataBlocks) : (truncate s k).Returns := by
  unfold truncate
  split
  · rename_i hsize
    obtain ⟨b, hb, hlt⟩ := hblock hsize
    exact Outcome.Returns.bind (dataBlockFree_returns hb hlt) fun _ _ => by simp
  · simp

theorem dataBlockGet_root (h : Fs.RootOk s.toFs) :
    dataBlockGet s (s.inodeTable 0).iDataBlock = .ret 0 := dataBlockGet_eq_ret.mpr h.dataBlockGet_root

theorem addDirEntry_returns {sub : CString} {inum : ℤ} (h : Fs.RootOk s.toFs) :
    (addDirEntry s 0 sub inum).Returns := by
  unfold addDirEntry
  split
  · simp
  split
  · simp
  · rw [dataBlockGet_root h]
    simp

theorem clearDirEntry_returns {sub : CString} (h : Fs.RootOk s.toFs) :
    (clearDirEntry s 0 sub).Returns := by
  unfold clearDirEntry
  split
  · simp
  · rw [dataBlockGet_root h]
    simp

theorem block_of_size (h : Fs.SeqInv s.toFs) (hk : Fs.LiveFile s.toFs k)
    (hsize : 0 < (s.inodeTable k).iSize) :
    ∃ b : ℕ, (s.inodeTable k).iDataBlock = b ∧ b < s.dataBlocks := by
  obtain ⟨-, b, hb, hlt, -⟩ := h.file_block hk hsize
  exact ⟨b, hb, hlt⟩

/-- `tfs_open` returns when the inodes in use have valid blocks. -/
theorem tfsOpen_returns_of_blocks (h : Fs.DirInv s.toFs)
    (hblock : ∀ k, 0 < k → k < s.inodeTableSize → s.freeinodeTs k = .TAKEN →
      0 < (s.inodeTable k).iSize →
        ∃ b : ℕ, (s.inodeTable k).iDataBlock = b ∧ b < s.dataBlocks) :
    (Fs2.tfsOpen s name mode).Returns := by
  unfold Fs2.tfsOpen
  split
  swap
  · simp
  have hget : inodeGet s rootDirInum = .ret 0 := inodeGet_eq_ret.mpr h.inodeGet_root
  have hlookup : tfsLookup s name 0 = .ret _ := tfsLookup_eq_ret h.toRootOk
  rw [hget, Outcome.ret_bind, hlookup, Outcome.ret_bind]
  split
  · rename_i hfound
    have hne : Fs.tfsLookup s.toFs name 0 ≠ -1 := by omega
    obtain ⟨-, -, k, -, -, -, hk, hpos, hlt, htaken⟩ := h.lookup rfl hne
    rw [inodeGet_eq_ret.mpr (Fs.inodeGet_eq_some.mpr ⟨hk, hlt⟩), Outcome.ret_bind]
    refine Outcome.Returns.bind ?_ fun _ _ => by simp
    split
    · exact truncate_returns (hblock k hpos hlt htaken)
    · simp
  split
  swap
  · simp
  refine Outcome.Returns.bind ?_ fun p hcreate => ?_
  · unfold inodeCreate
    cases inodeAlloc s <;> simp
  -- what `inode_create` left
  obtain ⟨created, u⟩ := p
  have hcreated := toFs_inodeCreate_file hcreate
  rw [Fs.inodeCreate_eq (by decide)] at hcreated
  cases hfirst : firstFree s.toFs.freeinodeTs s.toFs.inodeTableSize with
  | none =>
    rw [hfirst] at hcreated
    obtain ⟨rfl, -⟩ := Prod.mk.inj hcreated
    simp
  | some k =>
    rw [hfirst] at hcreated
    obtain ⟨rfl, hu⟩ := Prod.mk.inj hcreated
    have hk0 : k ≠ 0 := firstFree_ne hfirst h.root_taken
    have hroot : Fs.RootOk u.toFs := hu ▸ h.toRootOk.of_newInode hk0
    have hnode : (u.inodeTable k).iSize = 0 := by
      refine (congrArg (fun t => (t.inodeTable k).iSize) hu.symm).trans ?_
      simp [Fs.newInode, Fs.Inode.new]
    have htaken : u.freeinodeTs k = .TAKEN := by
      refine (congrArg (fun t => t.freeinodeTs k) hu.symm).trans ?_
      simp [Fs.newInode]
    have hlt : k < u.inodeTableSize := by
      have hsize : u.fsParams = s.fsParams := congrArg Fs.State.fsParams hu.symm
      exact (firstFree_lt hfirst).trans_eq (congrArg TfsParams.maxInodeCount hsize.symm)
    refine Outcome.Returns.bind (addDirEntry_returns hroot) fun v _ => ?_
    cases v with
    | none =>
      refine Outcome.Returns.bind (inodeDelete_returns hlt htaken ?_) fun _ _ => by simp
      exact fun hsize => absurd hnode hsize.ne'
    | some v => simp

theorem tfsOpen_returns (h : Fs.SeqInv s.toFs) : (Fs2.tfsOpen s name mode).Returns :=
  tfsOpen_returns_of_blocks h.toDirInv fun k hpos hlt htaken =>
    block_of_size h (h.liveFile_of_taken hpos hlt htaken InodeType.toFs_ne_link)

theorem tfsClose_returns : (Fs2.tfsClose s fhandle).Returns := by
  unfold Fs2.tfsClose
  cases hget : getOpenFileEntry s fhandle with
  | none => simp
  | some fh =>
    obtain ⟨rfl, hlt, htaken⟩ := Fs.getOpenFileEntry_eq_some.mp (getOpenFileEntry_eq_some.mp hget)
    have hvalid : validFileHandle s fh = true := by
      have hlt' : fh < s.maxOpenFiles := hlt
      simp [validFileHandle, hlt']
    have htaken' : s.freeOpenFileEntries fh = .TAKEN := htaken
    simp [removeFromOpenFileTable, hvalid, htaken']

/-- The file of an open handle, for the calls that start with one. -/
theorem file_of_handle (h : Fs.SeqInv s.toFs) (hget : getOpenFileEntry s fhandle = some fh) :
    ∃ k, Fs.LiveFile s.toFs k ∧ inodeGet s (s.openFileTable fh).ofInumber = .ret k ∧
      HandleOn s fh k := by
  have hget' := getOpenFileEntry_eq_some.mp hget
  obtain ⟨k, hlive, hinode, hk⟩ := h.file_of_handle hget'
  exact ⟨k, hlive, inodeGet_eq_ret.mpr hinode, (Fs.getOpenFileEntry_eq_some.mp hget').2.2, hk⟩

/-- A write hits no assertion if the inode of its handle is valid, with a valid block
unless it is empty. -/
theorem tfsWrite_clean_of_block {buffer : ℕ → UInt8} {toWrite : ℕ}
    (h : ∀ fh, getOpenFileEntry s fhandle = some fh →
      ∃ k, inodeGet s (s.openFileTable fh).ofInumber = .ret k ∧
        (0 < (s.inodeTable k).iSize → ∃ b : ℕ, (s.inodeTable k).iDataBlock = b ∧
          b < s.dataBlocks)) : (Fs2.tfsWrite s fhandle buffer toWrite).Clean := by
  unfold Fs2.tfsWrite
  cases hget : getOpenFileEntry s fhandle with
  | none => simp
  | some fh =>
    obtain ⟨k, hinode, hblock⟩ := h fh hget
    dsimp only
    rw [hinode, Outcome.ret_bind]
    split
    swap
    · simp
    by_cases hsize : (s.inodeTable k).iSize = 0
    · rw [if_pos hsize, dataBlockAlloc]
      cases hfirst : firstFree s.freeBlocks s.dataBlocks with
      | none => simp
      | some b =>
        refine Outcome.Clean.bind
          (dataBlockGet_returns (b := b) (by simp [setInode]) (firstFree_lt hfirst)).clean fun _ _ => ?_
        split <;> simp
    · rw [if_neg hsize]
      obtain ⟨b, hb, hlt⟩ := hblock (Nat.pos_of_ne_zero hsize)
      refine Outcome.Clean.bind (dataBlockGet_returns hb hlt).clean fun _ _ => ?_
      split <;> simp

theorem tfsWrite_clean {buffer : ℕ → UInt8} {toWrite : ℕ} (h : Fs.SeqInv s.toFs) :
    (Fs2.tfsWrite s fhandle buffer toWrite).Clean :=
  tfsWrite_clean_of_block fun _ hget => by
    obtain ⟨k, hlive, hinode, -⟩ := file_of_handle h hget
    exact ⟨k, hinode, block_of_size h hlive⟩

theorem tfsRead_clean {len : ℕ} (h : Fs.SeqInv s.toFs) (hbacked : Backed s.toFs) :
    (Fs2.tfsRead s fhandle len).Clean := by
  unfold Fs2.tfsRead
  cases hget : getOpenFileEntry s fhandle with
  | none => simp
  | some fh =>
    obtain ⟨k, hlive, hinode, hon⟩ := file_of_handle h hget
    dsimp only
    rw [hinode, Outcome.ret_bind]
    split
    swap
    · simp
    rename_i hpos
    rcases hbacked fh k hon with ⟨b, hb, hlt⟩ | ⟨hsize, hoffset⟩
    swap
    · -- there is nothing to read at the start of an empty file
      simp only [State.toFs_inodeTable, Inode.toFs_iSize, State.toFs_openFileTable,
        OpenFileEntry.toFs_ofOffset] at hsize hoffset
      rw [hsize, hoffset] at hpos
      simp [clampRead, subSize] at hpos
    refine Outcome.Clean.bind (dataBlockGet_returns hb hlt).clean fun _ _ => ?_
    split <;> simp

/-- `tfs_unlink` returns when the inodes in use have valid blocks. -/
theorem tfsUnlink_returns_of_blocks (h : Fs.DirInv s.toFs)
    (hblock : ∀ k, 0 < k → k < s.inodeTableSize → s.freeinodeTs k = .TAKEN →
      0 < (s.inodeTable k).iSize →
        ∃ b : ℕ, (s.inodeTable k).iDataBlock = b ∧ b < s.dataBlocks) :
    (Fs2.tfsUnlink s target).Returns := by
  unfold Fs2.tfsUnlink
  split
  swap
  · simp
  have hget : inodeGet s rootDirInum = .ret 0 := inodeGet_eq_ret.mpr h.inodeGet_root
  have hlookup : tfsLookup s target 0 = .ret _ := tfsLookup_eq_ret h.toRootOk
  rw [hget, Outcome.ret_bind, hlookup, Outcome.ret_bind]
  split
  · simp
  rename_i hfound
  obtain ⟨-, -, k, -, -, -, hk, hpos, hlt, htaken⟩ := h.lookup rfl hfound
  rw [hk]
  refine Outcome.Returns.bind
    (inodeDelete_returns hlt htaken (hblock k hpos hlt htaken)) fun u hdelete => ?_
  obtain ⟨blocks, free, rfl⟩ := inodeDelete_eq hdelete
  have hroot : Fs.RootOk ({ s with freeBlocks := blocks, freeinodeTs := free } : State).toFs :=
    ⟨h.root_valid, h.block_valid, h.root_type, h.root_block⟩
  refine Outcome.Returns.bind (clearDirEntry_returns hroot) fun v _ => ?_
  cases v <;> simp

theorem tfsUnlink_returns (h : Fs.SeqInv s.toFs) : (Fs2.tfsUnlink s target).Returns :=
  tfsUnlink_returns_of_blocks h.toDirInv fun k hpos hlt htaken =>
    block_of_size h (h.liveFile_of_taken hpos hlt htaken InodeType.toFs_ne_link)

/-- No call ends the process. -/
theorem noAssertFires (h : Fs.SeqInv s.toFs) (hbacked : Backed s.toFs) : NoAssertFires s := by
  intro c
  refine Outcome.Clean.ne_abort ?_
  cases c with
  | «open» name mode => exact (tfsOpen_returns h).clean
  | close fh => exact tfsClose_returns.clean
  | write fh buffer toWrite => exact tfsWrite_clean h
  | read fh len => exact Outcome.Clean.bind (tfsRead_clean h hbacked) fun _ _ => by simp
  | unlink target => exact (tfsUnlink_returns h).clean

end TfsBroker.Fs2
