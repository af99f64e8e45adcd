import TfsBroker.Fs2.Operations
import TfsBroker.Fs.Sequential

/-!
# `fs2/` does what `fs/` does, with one link for each inode

`State.toFs` reads a state of `fs2/` as one of `fs/` in which every inode has one
link and nothing is locked. A call of `fs2/` that returns does the same as the call
of `fs/` on that state. The exception is `tfs_unlink`: that of `fs2/` deletes the
inode whether or not the file is open.

## Main results

* `toFs_tfsOpen`, `toFs_tfsClose`, `toFs_tfsWrite`, `toFs_tfsRead` — the same call
  of `fs/` on the state read that way
* `tfsUnlink_cases` — what `tfs_unlink` does to it
-/

namespace TfsBroker.Fs2

open State

variable {s s' : State} {name target : Option CString} {mode k b fh : ℕ} {inum fhandle : ℤ}

/-! ### The state read as one of `fs/` -/

/-- The type of an inode, for `fs/`. -/
def InodeType.toFs : InodeType → Fs.InodeType
  | T_FILE => .T_FILE
  | T_DIRECTORY => .T_DIRECTORY

/-- An inode with one link. -/
def Inode.toFs (i : Inode) : Fs.Inode := ⟨i.iNodeType.toFs, 1, i.iSize, i.iDataBlock⟩

/-- An entry whose mutex is free. -/
def OpenFileEntry.toFs (e : OpenFileEntry) : Fs.OpenFileEntry := ⟨e.ofInumber, e.ofOffset, false⟩

/-- The state, for `fs/`. -/
def State.toFs (s : State) : Fs.State where
  fsParams := s.fsParams
  inodeTable := Inode.toFs ∘ s.inodeTable
  inodeRwl := fun _ => .unlocked
  freeinodeTs := s.freeinodeTs
  fsData := s.fsData
  freeBlocks := s.freeBlocks
  openFileTable := OpenFileEntry.toFs ∘ s.openFileTable
  freeOpenFileEntries := s.freeOpenFileEntries

theorem InodeType.toFs_eq_directory {t : InodeType} : t.toFs = .T_DIRECTORY ↔ t = .T_DIRECTORY := by
  cases t <;> simp [toFs]

theorem InodeType.toFs_ne_link {t : InodeType} : t.toFs ≠ .T_LINK := by cases t <;> simp [toFs]

@[simp] theorem Inode.toFs_iSize {i : Inode} : i.toFs.iSize = i.iSize := rfl

@[simp] theorem Inode.toFs_iDataBlock {i : Inode} : i.toFs.iDataBlock = i.iDataBlock := rfl

@[simp] theorem OpenFileEntry.toFs_ofInumber {e : OpenFileEntry} :
    e.toFs.ofInumber = e.ofInumber := rfl

@[simp] theorem OpenFileEntry.toFs_ofOffset {e : OpenFileEntry} :
    e.toFs.ofOffset = e.ofOffset := rfl

namespace State

@[simp] theorem toFs_inodeTable : s.toFs.inodeTable k = (s.inodeTable k).toFs := rfl

@[simp] theorem toFs_openFileTable : s.toFs.openFileTable fh = (s.openFileTable fh).toFs := rfl

@[simp] theorem toFs_setInode {i : Inode} : (s.setInode k i).toFs = s.toFs.setInode k i.toFs := by
  simp [toFs, setInode, Fs.State.setInode, Function.comp_update]

@[simp] theorem toFs_setEntry {e : OpenFileEntry} :
    (s.setEntry fh e).toFs = s.toFs.setEntry fh e.toFs := by
  simp [toFs, setEntry, Fs.State.setEntry, Function.comp_update]

@[simp] theorem toFs_setFreeinode {a : AllocationState} :
    (s.setFreeinode k a).toFs = s.toFs.setFreeinode k a := rfl

@[simp] theorem toFs_setFreeEntry {a : AllocationState} :
    (s.setFreeEntry fh a).toFs = s.toFs.setFreeEntry fh a := rfl

end State

/-! ### The functions of `state.c` -/

theorem inodeGet_eq_ret : inodeGet s inum = .ret k ↔ Fs.inodeGet s.toFs inum = some k := by
  unfold inodeGet Fs.inodeGet
  change (if validInumber s inum = true then _ else _) = _ ↔
    (if validInumber s inum = true then _ else _) = _
  split <;> simp

theorem dataBlockGet_eq_ret {n : ℤ} {a : ℕ} :
    dataBlockGet s n = .ret a ↔ Fs.dataBlockGet s.toFs n = some a := by
  unfold dataBlockGet Fs.dataBlockGet
  change (if validBlockNumber s n = true then _ else _) = _ ↔
    (if validBlockNumber s n = true then _ else _) = _
  split <;> simp [State.toFs, State.blockSize, Fs.State.blockSize]

/-- The two functions return unless they run into their assertion. -/
private theorem inodeGet_returns_of_clean (h : (inodeGet s inum).Clean) :
    (inodeGet s inum).Returns := by
  unfold inodeGet at h ⊢
  split
  · exact Outcome.returns_ret
  · rename_i hvalid
    rw [if_neg hvalid] at h
    exact h.elim

private theorem dataBlockGet_returns_of_clean {n : ℤ} (h : (dataBlockGet s n).Clean) :
    (dataBlockGet s n).Returns := by
  unfold dataBlockGet at h ⊢
  split
  · exact Outcome.returns_ret
  · rename_i hvalid
    rw [if_neg hvalid] at h
    exact h.elim

theorem toFs_dataBlockFree {n : ℤ} (h : dataBlockFree s n = .ret s') :
    s'.toFs = Fs.dataBlockFree s.toFs n := by
  unfold dataBlockFree at h
  split at h
  · rename_i hvalid
    obtain rfl := Outcome.ret.inj h
    exact (if_pos hvalid).symm
  · cases h

theorem toFs_inodeDelete (h : inodeDelete s inum = .ret s') :
    Fs.inodeDelete s.toFs inum = some s'.toFs := by
  unfold inodeDelete at h
  split at h
  · rename_i hvalid
    simp only at h
    split at h
    · rename_i htaken
      obtain ⟨u, hu, hs'⟩ := Outcome.bind_eq_ret.mp h
      obtain rfl := Outcome.ret.inj hs'
      have hfree : ¬ s.toFs.freeinodeTs inum.toNat = .FREE := by
        rw [show s.toFs.freeinodeTs inum.toNat = .TAKEN from htaken]
        decide
      unfold Fs.inodeDelete
      rw [if_pos (by exact hvalid)]
      dsimp only
      rw [if_neg hfree, State.toFs_setFreeinode]
      split at hu
      · rename_i hsize
        rw [if_pos (by exact hsize), toFs_dataBlockFree hu]
        rfl
      · rename_i hsize
        obtain rfl := Outcome.ret.inj hu
        rw [if_neg (by exact hsize)]
    · cases h
  · cases h

/-- Deleting an inode changes only the two allocation vectors. -/
theorem inodeDelete_eq (h : inodeDelete s inum = .ret s') :
    ∃ blocks free, s' = { s with freeBlocks := blocks, freeinodeTs := free } := by
  unfold inodeDelete at h
  split at h
  · simp only at h
    split at h
    · obtain ⟨u, hu, hs'⟩ := Outcome.bind_eq_ret.mp h
      obtain rfl := Outcome.ret.inj hs'
      split at hu
      · unfold dataBlockFree at hu
        split at hu
        · obtain rfl := Outcome.ret.inj hu
          exact ⟨_, _, rfl⟩
        · cases hu
      · obtain rfl := Outcome.ret.inj hu
        exact ⟨_, _, rfl⟩
    · cases h
  · cases h

theorem toFs_inodeCreate_file {r : Option ℕ} (h : inodeCreate s .T_FILE = .ret (r, s')) :
    Fs.inodeCreate s.toFs .T_FILE = (r, s'.toFs) := by
  have hfirst : firstFree s.toFs.freeinodeTs s.toFs.inodeTableSize =
      firstFree s.freeinodeTs s.inodeTableSize := rfl
  rw [Fs.inodeCreate_eq (by decide), hfirst]
  unfold inodeCreate inodeAlloc at h
  cases hcase : firstFree s.freeinodeTs s.inodeTableSize with
  | none =>
    simp only [hcase, Option.map_none] at h
    obtain ⟨rfl, rfl⟩ := Prod.mk.inj (Outcome.ret.inj h)
    rfl
  | some k =>
    simp only [hcase, Option.map_some] at h
    obtain ⟨rfl, rfl⟩ := Prod.mk.inj (Outcome.ret.inj h)
    simp [State.setInode, State.setFreeinode, Fs.newInode, Fs.Inode.new, State.toFs,
      Function.comp_update, Inode.toFs, InodeType.toFs]

theorem toFs_addDirEntry {sub : CString} {r : Option State}
    (h : addDirEntry s k sub inum = .ret r) :
    Fs.addDirEntry s.toFs k sub inum = .ret (r.map State.toFs) := by
  unfold addDirEntry at h
  unfold Fs.addDirEntry
  split at h
  · rename_i hlen
    obtain rfl := Outcome.ret.inj h
    rw [if_pos hlen]
    rfl
  rename_i hlen
  rw [if_neg hlen]
  simp only [State.toFs_inodeTable, Inode.toFs, ne_eq, InodeType.toFs_eq_directory]
  split at h
  · rename_i hdir
    obtain rfl := Outcome.ret.inj h
    rw [if_pos hdir]
    rfl
  rename_i hdir
  rw [if_neg hdir]
  obtain ⟨a, ha, hr⟩ := Outcome.bind_eq_ret.mp h
  obtain rfl := Outcome.ret.inj hr
  rw [dataBlockGet_eq_ret.mp ha]
  simp only [Option.map_map]
  rfl

theorem toFs_tfsLookup {root : ℕ} (hroot : (s.inodeTable root).iNodeType = .T_DIRECTORY)
    (h : tfsLookup s name root = .ret inum) : Fs.tfsLookup s.toFs name root = inum := by
  unfold tfsLookup findInDir at h
  unfold Fs.tfsLookup Fs.findInDir
  simp only [State.toFs_inodeTable, Inode.toFs, ne_eq, InodeType.toFs_eq_directory, hroot,
    not_true_eq_false, if_false] at h ⊢
  split at h
  · rename_i hvalid
    obtain ⟨a, ha, hr⟩ := Outcome.bind_eq_ret.mp h
    rw [if_pos hvalid, dataBlockGet_eq_ret.mp ha]
    rw [← Outcome.ret.inj hr]
    have hfind : Directory.findEntry s.toFs.fsData a s.toFs.maxDirEntries (subName name) =
        Directory.findEntry s.fsData a s.maxDirEntries (subName name) := rfl
    dsimp only
    rw [hfind]
    cases Directory.findEntry s.fsData a s.maxDirEntries (subName name) <;> rfl
  · rename_i hvalid
    rw [if_neg hvalid]
    exact Outcome.ret.inj h

/-- A lookup in the root directory returns. -/
theorem tfsLookup_eq_ret (hroot : Fs.RootOk s.toFs) :
    tfsLookup s name rootDirInum = .ret (Fs.tfsLookup s.toFs name 0) := by
  have htype : (s.inodeTable 0).iNodeType = .T_DIRECTORY :=
    InodeType.toFs_eq_directory.mp hroot.root_type
  have hblock : dataBlockGet s (s.inodeTable 0).iDataBlock = .ret 0 :=
    dataBlockGet_eq_ret.mpr hroot.dataBlockGet_root
  have hret : ∃ inum, tfsLookup s name 0 = .ret inum := by
    unfold tfsLookup findInDir
    rw [if_neg (not_not.mpr htype), hblock]
    split <;> exact ⟨_, rfl⟩
  obtain ⟨inum, hinum⟩ := hret
  rw [toFs_tfsLookup htype hinum]
  exact hinum

theorem toFs_addToOpenFileTable {offset : ℕ} :
    (fun r : ℤ × State => (r.1, r.2.toFs)) (addToOpenFileTable s k offset) =
      Fs.tfsOpenRegister s.toFs k offset := by
  unfold addToOpenFileTable Fs.tfsOpenRegister Fs.addToOpenFileTable
  have hfirst : firstFree s.toFs.freeOpenFileEntries s.toFs.maxOpenFiles =
      firstFree s.freeOpenFileEntries s.maxOpenFiles := rfl
  rw [hfirst]
  cases firstFree s.freeOpenFileEntries s.maxOpenFiles with
  | none => rfl
  | some i => simp [OpenFileEntry.toFs]

theorem getOpenFileEntry_eq_some :
    getOpenFileEntry s fhandle = some fh ↔ Fs.getOpenFileEntry s.toFs fhandle = some fh := by
  unfold getOpenFileEntry Fs.getOpenFileEntry
  change (if validFileHandle s fhandle = true then _ else _) = _ ↔
    (if validFileHandle s fhandle = true then _ else _) = _
  split
  · change (if s.freeOpenFileEntries fhandle.toNat ≠ .TAKEN then _ else _) = _ ↔
      (if s.freeOpenFileEntries fhandle.toNat = .FREE then _ else _) = _
    cases s.freeOpenFileEntries fhandle.toNat <;> simp
  · exact Iff.rfl

theorem getOpenFileEntry_eq_none :
    getOpenFileEntry s fhandle = none ↔ Fs.getOpenFileEntry s.toFs fhandle = none := by
  rw [Option.eq_none_iff_forall_ne_some, Option.eq_none_iff_forall_ne_some]
  exact forall_congr' fun fh => not_congr getOpenFileEntry_eq_some

/-! ### The operations -/

theorem toFs_truncate (h : truncate s k = .ret s') :
    s'.toFs = if 0 < (s.inodeTable k).iSize then Fs.truncate s.toFs k else s.toFs := by
  unfold truncate at h
  split at h
  · rename_i hsize
    obtain ⟨u, hu, hs'⟩ := Outcome.bind_eq_ret.mp h
    obtain rfl := Outcome.ret.inj hs'
    rw [if_pos hsize, Fs.truncate, State.toFs_setInode]
    dsimp only
    rw [← toFs_dataBlockFree (by exact hu)]
    rfl
  · rename_i hsize
    obtain rfl := Outcome.ret.inj h
    rw [if_neg hsize]

/-- The part of `tfs_open` that finds a file which exists. -/
theorem toFs_tfsOpen_found (hget : inodeGet s inum = .ret k)
    (htrunc : (if hasFlag mode tfsOTrunc then truncate s k else .ret s) = .ret s') :
    Fs.tfsOpenInode s.toFs inum.toNat mode =
      .ret (.opened (if hasFlag mode tfsOAppend then (s'.inodeTable k).iSize else 0), s'.toFs) := by
  obtain ⟨hinum, hlt⟩ := Fs.inodeGet_eq_some.mp (inodeGet_eq_ret.mp hget)
  have hget' : Fs.inodeGet s.toFs (inum.toNat : ℕ) = some k :=
    Fs.inodeGet_eq_some.mpr ⟨by omega, hlt⟩
  have hs' : s'.toFs = if hasFlag mode tfsOTrunc && 0 < (s.toFs.inodeTable k).iSize then
      Fs.truncate s.toFs k else s.toFs := by
    split at htrunc
    · rename_i hflag
      rw [toFs_truncate htrunc]
      simp only [hflag, Bool.true_and, decide_eq_true_eq]
      rfl
    · rename_i hflag
      obtain rfl := Outcome.ret.inj htrunc
      simp [hflag]
  unfold Fs.tfsOpenInode
  have hlink : (s.toFs.inodeTable k).iNodeType ≠ .T_LINK := InodeType.toFs_ne_link
  rw [hget']
  dsimp only
  rw [if_neg hlink, ← hs']
  rfl

/-- `tfs_open` does what that of `fs/` does where there are no symbolic links. -/
theorem toFs_tfsOpen {fd : ℤ} (hroot : Fs.RootOk s.toFs)
    (h : tfsOpen s name mode = .ret (fd, s')) :
    Fs.tfsOpen s.toFs name mode 1 = .ret (fd, s'.toFs) := by
  have htype : (s.inodeTable 0).iNodeType = .T_DIRECTORY :=
    InodeType.toFs_eq_directory.mp hroot.root_type
  unfold tfsOpen at h
  rw [Fs.tfsOpen, Fs.tfsOpenRoot, hroot.inodeGet_root]
  split at h
  · rename_i hvalid
    rw [if_pos hvalid]
    obtain ⟨root, hget, h⟩ := Outcome.bind_eq_ret.mp h
    obtain rfl : 0 = root := by
      have hroot' := (Fs.inodeGet_eq_some.mp (inodeGet_eq_ret.mp hget)).1
      exact_mod_cast hroot'
    obtain ⟨inum, hlookup, h⟩ := Outcome.bind_eq_ret.mp h
    dsimp only
    rw [toFs_tfsLookup htype hlookup]
    split at h
    · -- the file exists
      rename_i hfound
      obtain ⟨k, hk, h⟩ := Outcome.bind_eq_ret.mp h
      obtain ⟨u, hu, h⟩ := Outcome.bind_eq_ret.mp h
      have hinum : inum = (k : ℕ) := (Fs.inodeGet_eq_some.mp (inodeGet_eq_ret.mp hk)).1
      rw [if_pos hfound, Outcome.ret_bind]
      dsimp only
      rw [toFs_tfsOpen_found hk hu, Outcome.ret_bind]
      dsimp only
      rw [hinum, Int.toNat_natCast, ← toFs_addToOpenFileTable, ← hinum, Outcome.ret.inj h]
    · rename_i hmissing
      rw [if_neg hmissing]
      split at h
      · -- the file is created
        rename_i hcreat
        rw [if_pos hcreat]
        obtain ⟨⟨r, u⟩, hcreate, h⟩ := Outcome.bind_eq_ret.mp h
        rw [toFs_inodeCreate_file hcreate]
        cases r with
        | none =>
          obtain ⟨rfl, rfl⟩ := Prod.mk.inj (Outcome.ret.inj h)
          rfl
        | some k =>
          obtain ⟨r, hadd, h⟩ := Outcome.bind_eq_ret.mp h
          dsimp only
          rw [toFs_addDirEntry hadd, Outcome.ret_bind]
          cases r with
          | none =>
            obtain ⟨v, hdelete, h⟩ := Outcome.bind_eq_ret.mp h
            obtain ⟨rfl, rfl⟩ := Prod.mk.inj (Outcome.ret.inj h)
            simp only [Option.map_none, toFs_inodeDelete hdelete, Option.getD_some,
              Outcome.ret_bind]
          | some v =>
            simp only [Option.map_some, Outcome.ret_bind]
            rw [← toFs_addToOpenFileTable, Outcome.ret.inj h]
      · rename_i hcreat
        obtain ⟨rfl, rfl⟩ := Prod.mk.inj (Outcome.ret.inj h)
        rw [if_neg hcreat]
        rfl
  · rename_i hvalid
    obtain ⟨rfl, rfl⟩ := Prod.mk.inj (Outcome.ret.inj h)
    rw [if_neg hvalid]
    rfl

theorem toFs_tfsClose {r : ℤ} (h : tfsClose s fhandle = .ret (r, s')) :
    Fs.tfsClose s.toFs fhandle = (r, s'.toFs) := by
  unfold tfsClose at h
  cases hget : getOpenFileEntry s fhandle with
  | none =>
    rw [hget] at h
    obtain ⟨rfl, rfl⟩ := Prod.mk.inj (Outcome.ret.inj h)
    rw [Fs.tfsClose, getOpenFileEntry_eq_none.mp hget]
  | some fh =>
    rw [hget] at h
    obtain ⟨u, hu, h⟩ := Outcome.bind_eq_ret.mp h
    obtain ⟨rfl, rfl⟩ := Prod.mk.inj (Outcome.ret.inj h)
    have hget' := getOpenFileEntry_eq_some.mp hget
    obtain ⟨rfl, hlt, htaken⟩ := Fs.getOpenFileEntry_eq_some.mp hget'
    rcases Fs.tfsClose_cases s.toFs fh with ⟨hnone, -⟩ | ⟨fh', hsome, heq⟩
    · rw [hget'] at hnone
      cases hnone
    · rw [hget'] at hsome
      obtain rfl := Option.some_inj.mp hsome
      rw [heq]
      unfold removeFromOpenFileTable at hu
      split at hu
      · split at hu
        · rw [← Outcome.ret.inj hu]
          rfl
        · cases hu
      · cases hu

/-- A write that hits no assertion ends as that of `fs/` does. -/
theorem toFs_tfsWrite_of_clean {buffer : ℕ → UInt8} {toWrite : ℕ}
    (h : (tfsWrite s fhandle buffer toWrite).Clean) :
    Fs.tfsWrite s.toFs fhandle buffer toWrite =
      (tfsWrite s fhandle buffer toWrite).bind fun r => .ret (r.1, r.2.toFs) := by
  unfold tfsWrite at h ⊢
  unfold Fs.tfsWrite
  cases hget : getOpenFileEntry s fhandle with
  | none =>
    rw [getOpenFileEntry_eq_none.mp hget]
    rfl
  | some fh =>
    rw [hget] at h
    obtain ⟨k, hk⟩ := inodeGet_returns_of_clean (Outcome.Clean.of_bind h)
    rw [getOpenFileEntry_eq_some.mp hget]
    have hinode : Fs.inodeGet s.toFs (s.toFs.openFileTable fh).ofInumber = some k :=
      inodeGet_eq_ret.mp hk
    dsimp only at h ⊢
    rw [hk, Outcome.ret_bind] at h
    rw [hinode, hk, Outcome.ret_bind]
    unfold Fs.tfsWriteBody
    change (if 0 < clampWrite s.blockSize (s.openFileTable fh).ofOffset toWrite then _ else _) = _
    split
    · rename_i hpos
      rw [if_pos hpos] at h
      have halloc : (if (s.toFs.inodeTable k).iSize = 0 then
            (Fs.dataBlockAlloc s.toFs).map fun x =>
              x.2.setInode k { x.2.inodeTable k with iDataBlock := x.1 }
          else some s.toFs) =
          (if (s.inodeTable k).iSize = 0 then
            (dataBlockAlloc s).map fun x =>
              x.2.setInode k { x.2.inodeTable k with iDataBlock := x.1 }
          else some s).map State.toFs := by
        change (if (s.inodeTable k).iSize = 0 then _ else _) = _
        split
        · unfold Fs.dataBlockAlloc dataBlockAlloc
          rw [Option.map_map, Option.map_map, Option.map_map]
          refine congrArg (Option.map · _) (funext fun b => ?_)
          exact (State.toFs_setInode (s := s.setFreeBlock b .TAKEN) (k := k)
            (i := { s.inodeTable k with iDataBlock := b })).symm
        · rfl
      dsimp only
      rw [halloc]
      split at h
      · rename_i hnone
        rw [hnone]
        rfl
      · rename_i u hsome
        obtain ⟨a, ha⟩ := dataBlockGet_returns_of_clean (Outcome.Clean.of_bind h)
        have hblock : Fs.dataBlockGet u.toFs (u.toFs.inodeTable k).iDataBlock = some a :=
          dataBlockGet_eq_ret.mp ha
        rw [hsome]
        dsimp only [Option.map_some]
        rw [hblock, ha, Outcome.ret_bind]
        dsimp only
        by_cases hfits : a + (s.openFileTable fh).ofOffset +
            clampWrite s.blockSize (s.openFileTable fh).ofOffset toWrite ≤ u.dataSize
        · rw [if_pos (by exact hfits), if_pos hfits, Outcome.ret_bind]
          refine congrArg (fun t => Outcome.ret (_, t)) ?_
          rw [apply_ite State.toFs, State.toFs_setInode, State.toFs_setEntry]
          rfl
        · rw [if_neg (by exact hfits), if_neg hfits]
          rfl
    · rfl

theorem toFs_tfsWrite {buffer : ℕ → UInt8} {toWrite : ℕ} {r : ℤ}
    (h : tfsWrite s fhandle buffer toWrite = .ret (r, s')) :
    Fs.tfsWrite s.toFs fhandle buffer toWrite = .ret (r, s'.toFs) := by
  rw [toFs_tfsWrite_of_clean (by simp [h]), h, Outcome.ret_bind]

theorem toFs_tfsRead {len : ℕ} {r : ReadResult} (h : tfsRead s fhandle len = .ret (r, s')) :
    Fs.tfsRead s.toFs fhandle len = .ret (r, s'.toFs) := by
  unfold tfsRead at h
  unfold Fs.tfsRead
  cases hget : getOpenFileEntry s fhandle with
  | none =>
    rw [hget] at h
    obtain ⟨rfl, rfl⟩ := Prod.mk.inj (Outcome.ret.inj h)
    rw [getOpenFileEntry_eq_none.mp hget]
  | some fh =>
    rw [hget] at h
    obtain ⟨k, hk, h⟩ := Outcome.bind_eq_ret.mp h
    rw [getOpenFileEntry_eq_some.mp hget]
    have hinode : Fs.inodeGet s.toFs (s.toFs.openFileTable fh).ofInumber = some k :=
      inodeGet_eq_ret.mp hk
    dsimp only
    rw [hinode]
    unfold Fs.tfsReadBody
    change (if 0 < clampRead (s.inodeTable k).iSize (s.openFileTable fh).ofOffset len then _
      else _) = _
    dsimp only at h
    split at h
    · rename_i hpos
      rw [if_pos hpos]
      obtain ⟨a, ha, h⟩ := Outcome.bind_eq_ret.mp h
      have hblock : Fs.dataBlockGet s.toFs (s.toFs.inodeTable k).iDataBlock = some a :=
        dataBlockGet_eq_ret.mp ha
      rw [hblock]
      dsimp only
      split at h
      · rename_i hfits
        obtain ⟨rfl, rfl⟩ := Prod.mk.inj (Outcome.ret.inj h)
        rw [if_pos (by exact hfits), State.toFs_setEntry]
        rfl
      · cases h
    · rename_i hpos
      obtain ⟨rfl, rfl⟩ := Prod.mk.inj (Outcome.ret.inj h)
      rw [if_neg hpos]

/-- The ways `tfs_unlink` can go: it finds nothing, or deletes the inode it finds,
whoever has it open. -/
theorem tfsUnlink_cases {r : ℤ} (h : Fs.DirInv s.toFs) (hunlink : tfsUnlink s target = .ret (r, s')) :
    (Fs.tfsLookup s.toFs target 0 = -1 ∧ r = -1 ∧ s' = s) ∨
    ∃ k i : ℕ, Fs.tfsLookup s.toFs target 0 = k ∧ 0 < k ∧ k < s.inodeTableSize ∧
      s.freeinodeTs k = .TAKEN ∧ i < s.maxDirEntries ∧
      Directory.Names s.fsData 0 i (subName target) ∧ Directory.dInumber s.fsData 0 i = k ∧
      r = 0 ∧ s'.toFs = Fs.freed (Fs.cleared s.toFs i) k := by
  have htype : (s.inodeTable 0).iNodeType = .T_DIRECTORY :=
    InodeType.toFs_eq_directory.mp h.root_type
  unfold tfsUnlink at hunlink
  split at hunlink
  · rename_i hvalid
    obtain ⟨root, hget, hunlink⟩ := Outcome.bind_eq_ret.mp hunlink
    obtain rfl : 0 = root := by
      have hroot' := (Fs.inodeGet_eq_some.mp (inodeGet_eq_ret.mp hget)).1
      exact_mod_cast hroot'
    obtain ⟨inum, hlookup, hunlink⟩ := Outcome.bind_eq_ret.mp hunlink
    have hl := toFs_tfsLookup htype hlookup
    split at hunlink
    · rename_i hmiss
      obtain ⟨rfl, rfl⟩ := Prod.mk.inj (Outcome.ret.inj hunlink)
      exact .inl ⟨hl.trans hmiss, rfl, rfl⟩
    rename_i hfound
    obtain ⟨-, i, k, hi, hnames, hik, rfl, hpos, hlt, htaken⟩ := h.lookup hl hfound
    obtain ⟨u, hdelete, hunlink⟩ := Outcome.bind_eq_ret.mp hunlink
    obtain ⟨v, hclear, hunlink⟩ := Outcome.bind_eq_ret.mp hunlink
    -- deleting the inode leaves the directory as it was
    have hu : u.toFs = Fs.freed s.toFs k := by
      have hnot : ¬ s.toFs.freeinodeTs k = .FREE := by
        rw [htaken]
        decide
      have hboth := (toFs_inodeDelete hdelete).symm.trans (Fs.inodeDelete_eq hlt)
      rw [if_neg hnot] at hboth
      exact Option.some_inj.mp hboth
    have hmatch : Directory.matchEntry s.fsData 0 s.maxDirEntries (subName target) = some i :=
      h.wf.matchEntry_eq hi hnames (strlen_subName_pos hvalid)
    obtain ⟨blocks, free, rfl⟩ := inodeDelete_eq hdelete
    have hblock : dataBlockGet s (s.inodeTable 0).iDataBlock = .ret 0 :=
      dataBlockGet_eq_ret.mpr h.dataBlockGet_root
    unfold clearDirEntry at hclear
    rw [if_neg (not_not.mpr (by exact htype))] at hclear
    obtain ⟨a, ha, hclear⟩ := Outcome.bind_eq_ret.mp hclear
    obtain rfl : 0 = a := Outcome.ret.inj (hblock.symm.trans ha)
    have hv := (congrArg (Option.map _) hmatch).symm.trans (Outcome.ret.inj hclear)
    rw [← hv] at hunlink
    obtain ⟨rfl, rfl⟩ := Prod.mk.inj (Outcome.ret.inj hunlink)
    refine .inr ⟨k, i, hl, hpos, hlt, htaken, hi, hnames, hik, rfl, ?_⟩
    have hfs := congrArg (fun t => { t with fsData := Directory.clearEntry s.fsData 0 i }) hu
    rw [Fs.freed_eq] at hfs ⊢
    exact hfs
  · rename_i hinvalid
    obtain ⟨rfl, rfl⟩ := Prod.mk.inj (Outcome.ret.inj hunlink)
    exact .inl ⟨by rw [h.tfsLookup_eq, if_neg hinvalid], rfl, rfl⟩

/-! ### `tfs_init` -/

/-- The state a successful `tfs_init` leaves. -/
def initState (heap : Heap) (params : TfsParams) : State :=
  { stateInit heap params with
    inodeTable := Function.update heap.inodeTable 0 ⟨.T_DIRECTORY, params.blockSize, 0⟩
    freeinodeTs := Function.update (fun _ => .FREE) 0 .TAKEN
    freeBlocks := Function.update (fun _ => .FREE) 0 .TAKEN
    fsData := Directory.initEntries heap.fsData 0 (params.blockSize / dirEntrySize) }

/-- `tfs_init` succeeds exactly when there is room for the root directory. -/
theorem tfsInit_eq_ret {heap : Heap} {params : TfsParams} :
    tfsInit heap params = .ret (true, s) ↔
      0 < params.maxInodeCount ∧ 0 < params.maxBlockCount ∧ s = initState heap params := by
  have hinode : firstFree (stateInit heap params).freeinodeTs
      (stateInit heap params).inodeTableSize = if 0 < params.maxInodeCount then some 0 else none :=
    firstFree_of_zero rfl
  have hblock : ∀ (v : ℕ → AllocationState) (u : State), v 0 = .FREE → u.fsParams = params →
      firstFree v u.dataBlocks = if 0 < params.maxBlockCount then some 0 else none := by
    rintro v u hv rfl
    exact firstFree_of_zero hv
  unfold tfsInit inodeCreate inodeAlloc
  rw [hinode]
  by_cases hinodes : 0 < params.maxInodeCount
  · simp only [hinodes, if_true, Option.map_some, dataBlockAlloc, setInode, setFreeinode, true_and]
    rw [hblock _ _ rfl rfl]
    by_cases hblocks : 0 < params.maxBlockCount
    · have hvalid : ∀ u : State, u.fsParams = params → dataBlockGet u 0 = .ret 0 := by
        rintro u rfl
        exact dataBlockGet_eq_ret.mpr (Fs.dataBlockGet_eq_some.mpr
          ⟨0, rfl, hblocks, (Nat.zero_mul _).symm⟩)
      simp only [hblocks, if_true, Option.map_some, setFreeBlock, Nat.cast_zero, true_and]
      rw [hvalid _ rfl]
      simp [initState, stateInit, rootDirInum, maxDirEntries, blockSize, eq_comm]
    · simp only [hblocks, if_false, Option.map_none, false_and, iff_false]
      intro h
      obtain ⟨⟨root, u⟩, hcreate, h⟩ := Outcome.bind_eq_ret.mp h
      obtain ⟨v, -, hroot⟩ := Outcome.bind_eq_ret.mp hcreate
      obtain ⟨rfl, -⟩ := Prod.mk.inj (Outcome.ret.inj hroot)
      simp at h
  · simp [hinodes]

/-- The same memory, for `fs/`. -/
def Heap.toFs (heap : Heap) : Fs.Heap :=
  ⟨Inode.toFs ∘ heap.inodeTable, heap.fsData, OpenFileEntry.toFs ∘ heap.openFileTable⟩

/-- After `tfs_init` the state reads as one after the `tfs_init` of `fs/`. -/
theorem toFs_initState {heap : Heap} {params : TfsParams} :
    (initState heap params).toFs = Fs.initState heap.toFs params := by
  simp [initState, State.toFs, stateInit, Fs.initState, Fs.stateInit, Function.comp_update,
    Inode.toFs, InodeType.toFs, Heap.toFs]
  rfl

theorem initialised_toFs (h : Initialised s) : Fs.Initialised s.toFs := by
  obtain ⟨heap, params, h⟩ := h
  obtain ⟨hinodes, hblocks, rfl⟩ := tfsInit_eq_ret.mp h
  exact Fs.initialised_iff.mpr ⟨heap.toFs, params, hinodes, hblocks, toFs_initState⟩

end TfsBroker.Fs2
