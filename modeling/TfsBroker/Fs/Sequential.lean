import TfsBroker.Fs.Blocks

/-!
# Calls of `fs/` made one at a time

`tfs_open` made alone is put together from its parts: it changes nothing, or
creates a file, or opens the file its name resolves to through the symbolic links.
`SeqInv` is what every call made alone keeps, whatever its outcome: the directory
agrees with the inode table, ownership of blocks is exclusive, and open handles
refer to files in use.

## Main results

* `DirInv.tfsOpen_cases` — the ways `tfs_open` can go
* `SeqInv.next` — every call keeps `SeqInv`
-/

namespace TfsBroker.Fs

open State Ownership

variable {s s' : State} {name target linkName : Option CString} {mode k b i n fh depth : ℕ}

/-- The file `tfs_open` ends at, following at most `depth` symbolic links. -/
def resolve (s : State) (name : Option CString) (mode : ℕ) : ℕ → Option ℕ
  | 0 => none
  | depth + 1 =>
    let inum := tfsLookup s name 0
    if inum < 0 then none
    else if (s.inodeTable inum.toNat).iNodeType ≠ .T_LINK then some inum.toNat
    else if hasFlag mode tfsOCreat then none
    else
      (dataBlockGet s (s.inodeTable inum.toNat).iDataBlock).bind fun a =>
        (CString.strAt s.fsData a (s.dataSize - a)).bind fun target =>
          resolve s (some target) mode depth

/-- A file reached without following a symbolic link is the one its name is
entered for. -/
theorem lookup_of_resolve (h : resolve s name mode 1 = some k) : tfsLookup s name 0 = k := by
  simp only [resolve] at h
  split at h
  · cases h
  split at h
  · rw [← Option.some_inj.mp h]
    omega
  · simp at h

/-- A file in use. -/
structure LiveFile (s : State) (k : ℕ) : Prop where
  pos : 0 < k
  lt : k < s.inodeTableSize
  taken : s.freeinodeTs k = .TAKEN
  file : (s.inodeTable k).iNodeType = .T_FILE

/-- The state after `tfs_open` truncated the file it found, if it had to. -/
def found (s : State) (k mode : ℕ) : State :=
  if hasFlag mode tfsOTrunc ∧ 0 < (s.inodeTable k).iSize then truncate s k else s

/-- The state after `tfs_open` created the file `sub` in slot `k`. -/
def created (s : State) (k i : ℕ) (sub : CString) : State :=
  { newInode s k .T_FILE with fsData := Directory.fillEntry s.fsData 0 i sub k }

/-- The directory takes the new name `sub` in its entry `i`. -/
structure Room (s : State) (i : ℕ) (sub : CString) : Prop where
  len_pos : 0 < sub.strlen
  len_lt : sub.strlen < maxFileName
  first : Directory.freeEntry s.fsData 0 s.maxDirEntries = some i
  fresh : ∀ j < s.maxDirEntries, ¬ Directory.Names s.fsData 0 j sub

/-- The block of a new symbolic link does not hold directory entries. -/
theorem freeEntry_linkInode {t : CString} (h : DirInv s)
    (hb : firstFree s.freeBlocks s.dataBlocks = some b) :
    Directory.freeEntry (linkInode s k b t).fsData 0 s.maxDirEntries
      = Directory.freeEntry s.fsData 0 s.maxDirEntries := by
  have hb0 : b ≠ 0 := firstFree_ne hb h.block_taken
  have hle : s.blockSize ≤ b * s.blockSize := Nat.le_mul_of_pos_left _ (Nat.pos_of_ne_zero hb0)
  have hdir := entries_le_blockSize s
  exact Directory.freeEntry_congr (Memory.agreeOn_memcpy (.inl (by omega)))

theorem Room.lt {sub : CString} (h : Room s i sub) : i < s.maxDirEntries :=
  (Directory.freeEntry_eq_some.mp h.first).2.1

/-- An inode in use other than the root is a file or a symbolic link. -/
theorem DirInv.liveFile_of_taken (h : DirInv s) (hpos : 0 < k) (hlt : k < s.inodeTableSize)
    (htaken : s.freeinodeTs k = .TAKEN) (htype : (s.inodeTable k).iNodeType ≠ .T_LINK) :
    LiveFile s k := by
  refine ⟨hpos, hlt, htaken, ?_⟩
  have hdir := (h.node k hpos hlt htaken).not_dir
  cases hnode : (s.inodeTable k).iNodeType with
  | T_FILE => rfl
  | T_DIRECTORY => exact absurd hnode hdir
  | T_LINK => exact absurd hnode htype

theorem DirInv.liveFile (h : DirInv s) (hl : tfsLookup s name 0 = k)
    (htype : (s.inodeTable k).iNodeType ≠ .T_LINK) : LiveFile s k := by
  obtain ⟨-, -, k', -, -, -, hk, hpos, hlt, htaken⟩ := h.lookup hl (natCast_ne_neg_one k)
  obtain rfl : k = k' := by exact_mod_cast hk
  exact h.liveFile_of_taken hpos hlt htaken htype

/-- Files are created only with `TFS_O_CREAT`. -/
theorem created_flag (hopen : tfsOpenRoot s name mode = .ret (.created k, s')) :
    hasFlag mode tfsOCreat = true := by
  unfold tfsOpenRoot at hopen
  split at hopen
  · cases hget : inodeGet s rootDirInum with
    | none =>
      rw [hget] at hopen
      cases Outcome.ret.inj hopen
    | some root =>
      simp only [hget] at hopen
      split at hopen
      · cases Outcome.ret.inj hopen
      split at hopen
      · assumption
      · cases Outcome.ret.inj hopen
  · cases Outcome.ret.inj hopen

/-- The ways `tfs_open` can go. -/
theorem DirInv.tfsOpen_cases (h : DirInv s) {fd : ℤ}
    (hopen : tfsOpen s name mode depth = .ret (fd, s')) :
    (fd = -1 ∧ (s' = s ∨ ∃ k, firstFree s.freeinodeTs s.inodeTableSize = some k ∧
      s' = Fs.discarded s k (.new .T_FILE))) ∨
    (∃ k i, hasFlag mode tfsOCreat = true ∧ firstFree s.freeinodeTs s.inodeTableSize = some k ∧
      Room s i (subName name) ∧ DirInv (created s k i (subName name)) ∧
      (fd, s') = tfsOpenRegister (created s k i (subName name)) k 0) ∨
    ∃ k, resolve s name mode depth = some k ∧ LiveFile s k ∧
      (fd, s') = tfsOpenRegister (found s k mode) k
        (if hasFlag mode tfsOAppend then ((found s k mode).inodeTable k).iSize else 0) := by
  induction depth generalizing name with
  | zero => cases hopen
  | succ depth ih =>
    obtain ⟨⟨r, s1⟩, hroot, hrest⟩ := Outcome.bind_eq_ret.mp hopen
    have hcases := h.tfsOpenRoot_cases h.root_taken hroot
    rcases hcases with ⟨rfl, rfl⟩ | ⟨k, rfl, rfl, hl⟩ |
      ⟨k, hfirst, hvalid, hneg, ⟨rfl, rfl⟩ | ⟨i, hpos, hlen, hroom, rfl, rfl⟩⟩
    · obtain ⟨rfl, rfl⟩ := Prod.mk.inj (Outcome.ret.inj hrest)
      exact .inl ⟨rfl, .inl rfl⟩
    · obtain ⟨⟨r, s2⟩, hinode, hrest⟩ := Outcome.bind_eq_ret.mp hrest
      have hres : resolve s1 name mode (depth + 1) =
          if (s1.inodeTable k).iNodeType ≠ .T_LINK then some k
          else if hasFlag mode tfsOCreat then none
          else (dataBlockGet s1 (s1.inodeTable k).iDataBlock).bind fun a =>
            (CString.strAt s1.fsData a (s1.dataSize - a)).bind fun target =>
              resolve s1 (some target) mode depth := by
        rw [resolve, hl, Int.toNat_natCast, if_neg (by omega)]
      obtain ⟨-, ⟨htype, rfl, hr⟩ | ⟨htype, hs2, rfl⟩⟩ := tfsOpenInode_cases hinode
      · rcases hr with rfl | ⟨t, b, rfl, hcreat, hb, hblt, hholds⟩
        · obtain ⟨rfl, rfl⟩ := Prod.mk.inj (Outcome.ret.inj hrest)
          exact .inl ⟨rfl, .inl rfl⟩
        · have hnext : resolve s2 name mode (depth + 1) = resolve s2 (some t) mode depth := by
            have hget : dataBlockGet s2 (s2.inodeTable k).iDataBlock = some (b * s2.blockSize) :=
              dataBlockGet_eq_some.mpr ⟨b, hb, hblt, rfl⟩
            have hstr : CString.strAt s2.fsData (b * s2.blockSize)
                (s2.dataSize - b * s2.blockSize) = some t := CString.strAt_eq_some_iff.mpr hholds
            simp only [hres, htype, hcreat, hget, hstr, ne_eq, not_true_eq_false, if_false,
              Bool.false_eq_true, Option.bind_some]
          rw [hnext]
          refine (ih hrest).imp_right (Or.imp_left ?_)
          -- nothing is created through a symbolic link
          rintro ⟨-, -, hcreat', -⟩
          rw [hcreat] at hcreat'
          cases hcreat'
      · refine .inr (.inr ⟨k, ?_, h.liveFile hl htype, ?_⟩)
        · rw [hres, if_pos htype]
        · have hfound : s2 = found s1 k mode := by
            unfold found
            rcases hs2 with ⟨rfl, htrunc, hsize⟩ | ⟨rfl, hnot⟩
            · rw [if_pos ⟨htrunc, hsize⟩]
            · rw [if_neg]
              rintro ⟨htrunc, hsize⟩
              exact hsize.ne' (hnot htrunc)
          rw [← hfound]
          exact (Outcome.ret.inj hrest).symm
    · obtain ⟨rfl, rfl⟩ := Prod.mk.inj (Outcome.ret.inj hrest)
      exact .inl ⟨rfl, .inr ⟨k, hfirst, rfl⟩⟩
    · have hnew := h.not_named (h.lookup_neg hneg) hvalid
      exact .inr (.inl ⟨k, i, created_flag hroot, hfirst, ⟨hpos, hlen, hroom, hnew⟩,
        (h.tfsOpenRoot hroot).1, (Outcome.ret.inj hrest).symm⟩)

/-! ### What every call keeps -/

/-- What every call made alone keeps. -/
structure SeqInv (s : State) : Prop extends DirInv s where
  owned : Owned s
  handle_lt : ∀ fh, s.freeOpenFileEntries fh = .TAKEN → fh < s.maxOpenFiles
  handles : ∀ fh, s.freeOpenFileEntries fh = .TAKEN →
    ∃ k : ℕ, (s.openFileTable fh).ofInumber = k ∧ LiveFile s k
  file_size : ∀ k, LiveFile s k → (s.inodeTable k).iSize ≤ s.blockSize
  link_size : ∀ k < s.inodeTableSize, s.freeinodeTs k = .TAKEN →
    (s.inodeTable k).iNodeType = .T_LINK → (s.inodeTable k).iSize = 0

theorem blockSize_congr (h : s'.fsParams = s.fsParams) : s'.blockSize = s.blockSize := by
  rw [blockSize, blockSize, h]

theorem dataSize_congr (h : s'.fsParams = s.fsParams) : s'.dataSize = s.dataSize := by
  rw [dataSize, dataSize, dataBlocks_congr h, blockSize_congr h]

theorem maxOpenFiles_congr (h : s'.fsParams = s.fsParams) : s'.maxOpenFiles = s.maxOpenFiles := by
  rw [maxOpenFiles, maxOpenFiles, h]

theorem LiveFile.congr (h : LiveFile s k) (hparams : s'.fsParams = s.fsParams)
    (hfree : s'.freeinodeTs k = s.freeinodeTs k)
    (htype : (s'.inodeTable k).iNodeType = (s.inodeTable k).iNodeType) : LiveFile s' k :=
  ⟨h.pos, inodeTableSize_congr hparams ▸ h.lt, hfree ▸ h.taken, htype ▸ h.file⟩

namespace SeqInv

/-- A step that leaves the open file table alone, where every inode in use is
empty or as it was, and the files that are open stay in use. -/
theorem of_nodes (h : SeqInv s) (hdir : DirInv s') (howned : Owned s')
    (hparams : s'.fsParams = s.fsParams) (hsame : SameHandles s s')
    (hnode : ∀ k, s'.freeinodeTs k = .TAKEN → (s'.inodeTable k).iSize = 0 ∨
      (s.freeinodeTs k = .TAKEN ∧ (s'.inodeTable k).iNodeType = (s.inodeTable k).iNodeType ∧
        (s'.inodeTable k).iSize = (s.inodeTable k).iSize))
    (hopen : ∀ fh k, s.freeOpenFileEntries fh = .TAKEN → (s.openFileTable fh).ofInumber = (k : ℕ) →
      LiveFile s k → s'.freeinodeTs k = s.freeinodeTs k ∧
        (s'.inodeTable k).iNodeType = (s.inodeTable k).iNodeType) : SeqInv s' where
  toDirInv := hdir
  owned := howned
  handle_lt fh hfh := maxOpenFiles_congr hparams ▸ h.handle_lt fh (hsame.entries ▸ hfh)
  handles fh hfh := by
    rw [hsame.entries] at hfh
    obtain ⟨k, hk, hlive⟩ := h.handles fh hfh
    obtain ⟨hfree, htype⟩ := hopen fh k hfh hk hlive
    exact ⟨k, by rw [hsame.table, hk], hlive.congr hparams hfree htype⟩
  file_size k hlive := by
    rw [blockSize_congr hparams]
    rcases hnode k hlive.taken with hzero | ⟨htaken, htype, hsize⟩
    · omega
    · rw [hsize]
      exact h.file_size k
        ⟨hlive.pos, inodeTableSize_congr hparams ▸ hlive.lt, htaken, htype ▸ hlive.file⟩
  link_size k hlt htaken hlink := by
    rcases hnode k htaken with hzero | ⟨hold, htype, hsize⟩
    · exact hzero
    · rw [hsize]
      exact h.link_size k (inodeTableSize_congr hparams ▸ hlt) hold (htype ▸ hlink)

/-- A step that changes only the slot `k`, which was free. -/
theorem of_freeSlot (h : SeqInv s) (hdir : DirInv s') (howned : Owned s')
    (hparams : s'.fsParams = s.fsParams) (hsame : SameHandles s s')
    (hfree : s.freeinodeTs k = .FREE) (hsize : (s'.inodeTable k).iSize = 0)
    (hother : ∀ j, j ≠ k → s'.freeinodeTs j = s.freeinodeTs j ∧ s'.inodeTable j = s.inodeTable j) :
    SeqInv s' := by
  refine h.of_nodes hdir howned hparams hsame (fun j hj => ?_) fun fh j _ _ hlive => ?_
  · by_cases hjk : j = k
    · exact .inl (hjk ▸ hsize)
    · obtain ⟨hfreej, hnodej⟩ := hother j hjk
      exact .inr ⟨hfreej ▸ hj, by rw [hnodej], by rw [hnodej]⟩
  · have hjk : j ≠ k := by
      rintro rfl
      have htaken := hlive.taken
      rw [hfree] at htaken
      cases htaken
    obtain ⟨hfreej, hnodej⟩ := hother j hjk
    exact ⟨hfreej, by rw [hnodej]⟩

private theorem free_ne_zero (h : SeqInv s) (hfree : s.freeinodeTs k = .FREE) : k ≠ 0 := by
  rintro rfl
  rw [h.root_taken] at hfree
  cases hfree

theorem discarded (h : SeqInv s) (hfirst : firstFree s.freeinodeTs s.inodeTableSize = some k)
    {iType : InodeType} : SeqInv (Fs.discarded s k (.new iType)) := by
  have hfree := firstFree_free hfirst
  refine h.of_freeSlot (h.toDirInv.discarded hfree _)
    (Owns.change h.owned (blockChange_discarded hfree _)) rfl ⟨rfl, rfl⟩ hfree ?_ fun j hj => ?_
  · simp [Fs.discarded, Inode.new]
  · simp [Fs.discarded, Function.update_of_ne hj]

theorem created {sub : CString} (h : SeqInv s)
    (hfirst : firstFree s.freeinodeTs s.inodeTableSize = some k)
    (hdir : DirInv (created s k i sub)) : SeqInv (created s k i sub) := by
  have hfree := firstFree_free hfirst
  refine h.of_freeSlot hdir
    (Owns.change h.owned (blockChange_newInode hfree (free_ne_zero h hfree))) rfl ⟨rfl, rfl⟩ hfree
    ?_ fun j hj => ?_
  · simp [Fs.created, newInode, Inode.new]
  · simp [Fs.created, newInode, Function.update_of_ne hj]

theorem tfsSymLink (h : SeqInv s) {r : RootExit}
    (hlink : tfsSymLink s target linkName = .ret (r, s')) : SeqInv s' := by
  have hdir := (h.toDirInv.tfsSymLink hlink).1
  have hsame := h.tfsSymLink_sameHandles h.root_taken hlink
  rcases h.tfsSymLink_cases h.root_taken hlink with ⟨-, rfl, -⟩ | ⟨k, hfirst, -, -, -,
    ⟨-, -, rfl⟩ | ⟨b, t, hb, -, ⟨-, rfl, -⟩ | ⟨i, -, -, -, -, rfl⟩⟩⟩
  · exact h
  · exact h.discarded hfirst
  · have hfree := firstFree_free hfirst
    refine h.of_freeSlot hdir (owned_linkDiscarded h.owned hfree hb) rfl hsame hfree ?_
      fun j hj => ?_
    · simp [linkDiscarded, Fs.discarded, Inode.new]
    · simp [linkDiscarded, Fs.discarded, Function.update_of_ne hj]
  · refine h.of_freeSlot hdir (Owns.change h.owned (blockChange_linkInode hfirst hb)) rfl hsame
      (firstFree_free hfirst) ?_ fun j hj => ?_
    · simp [linkInode, Inode.new]
    · simp [linkInode, newInode, Function.update_of_ne hj]

theorem tfsLink (h : SeqInv s) {r : RootExit}
    (hlink : tfsLink s target linkName = .ret (r, s')) : SeqInv s' := by
  have hdir := (h.toDirInv.tfsLink hlink).1
  rcases h.tfsLink_cases hlink with ⟨-, -, rfl⟩ | ⟨k, i, -, -, -, -, -, -, -, -, rfl⟩
  · exact h
  have hnode : ∀ j, ((linked s k i (subName linkName)).inodeTable j).iNodeType
        = (s.inodeTable j).iNodeType ∧
      ((linked s k i (subName linkName)).inodeTable j).iSize = (s.inodeTable j).iSize := by
    intro j
    by_cases hj : j = k
    · subst hj
      simp [linked]
    · simp [linked, Function.update_of_ne hj]
  exact h.of_nodes hdir (Owns.change h.owned blockChange_linked) rfl ⟨rfl, rfl⟩
    (fun j hj => .inr ⟨hj, hnode j⟩) fun _ j _ _ _ => ⟨rfl, (hnode j).1⟩

/-- Deleting an inode that no open handle refers to. -/
theorem freed (h : SeqInv s) (hdir : DirInv (freed (cleared s i) k)) (hpos : 0 < k)
    (hlt : k < s.inodeTableSize) (htaken : s.freeinodeTs k = .TAKEN)
    (hclosed : ∀ fh, s.freeOpenFileEntries fh = .TAKEN → (s.openFileTable fh).ofInumber ≠ k) :
    SeqInv (freed (cleared s i) k) := by
  have hfreed : ∀ j, j ≠ k → (Fs.freed (cleared s i) k).freeinodeTs j = s.freeinodeTs j := by
    intro j hj
    rw [freed_eq]
    exact Function.update_of_ne hj _ _
  have htable : (Fs.freed (cleared s i) k).inodeTable = s.inodeTable := by
    rw [freed_eq]
    rfl
  have hsame : SameHandles s (Fs.freed (cleared s i) k) := by
    rw [freed_eq]
    exact ⟨rfl, rfl⟩
  refine h.of_nodes hdir (owned_freed h.owned hpos hlt htaken (h.link_size k hlt htaken)
    (h.node k hpos hlt htaken).not_dir) (by rw [freed_eq]; rfl) hsame
    (fun j hj => .inr ⟨?_, by rw [htable], by rw [htable]⟩) fun fh j hfh hj _ =>
      ⟨hfreed j ?_, by rw [htable]⟩
  · have hjk : j ≠ k := by
      rintro rfl
      rw [freed_eq] at hj
      simp at hj
    exact hfreed j hjk ▸ hj
  · rintro rfl
    exact hclosed fh hfh hj

theorem tfsUnlink (h : SeqInv s) {r : RootExit}
    (hunlink : tfsUnlink s target = .ret (r, s')) : SeqInv s' := by
  have hdir := (h.toDirInv.tfsUnlink hunlink).1
  rcases h.toDirInv.tfsUnlink_cases hunlink with ⟨-, rfl⟩ |
    ⟨k, i, -, hpos, hlt, htaken, hopen, -, -, -, -, ⟨-, rfl⟩ | ⟨-, rfl⟩⟩
  · exact h
  · refine h.freed hdir hpos hlt htaken fun fh hfh hj => ?_
    -- an open handle refers to a file, and `tfs_unlink` refuses files that are open
    obtain ⟨j, hj', hlive⟩ := h.handles fh hfh
    obtain rfl : j = k := by exact_mod_cast hj'.symm.trans hj
    have hfile : (s.inodeTable j).iNodeType ≠ .T_LINK := by
      rw [hlive.file]
      decide
    exact (isInOpenFileTable_eq_false hlt).mp (hopen hfile) fh (h.handle_lt fh hfh) hfh hj
  · have hnode : ∀ j, ((unlinked s k i).inodeTable j).iNodeType = (s.inodeTable j).iNodeType ∧
        ((unlinked s k i).inodeTable j).iSize = (s.inodeTable j).iSize := by
      intro j
      by_cases hj : j = k
      · subst hj
        simp [unlinked, setInode, cleared]
      · simp [unlinked, setInode, cleared, Function.update_of_ne hj]
    exact h.of_nodes hdir (Owns.change h.owned blockChange_unlinked) rfl ⟨rfl, rfl⟩
      (fun j hj => .inr ⟨hj, hnode j⟩) fun _ j _ _ _ => ⟨rfl, (hnode j).1⟩

theorem found (h : SeqInv s) (hk : LiveFile s k) : SeqInv (found s k mode) := by
  unfold Fs.found
  split
  · rename_i hcond
    have hdir := (h.toDirInv.truncate (h.isSafe hk.pos hk.lt hk.taken)).1
    have howned := Owns.change h.owned
      (blockChange_truncate h.owned hk.pos hk.lt hk.taken hk.file hcond.2)
    rw [truncate_eq] at hdir howned ⊢
    refine h.of_nodes hdir howned rfl ⟨rfl, rfl⟩ (fun j hj => ?_) fun _ j _ _ _ => ⟨rfl, ?_⟩
    · by_cases hjk : j = k
      · subst hjk
        exact .inl (by simp)
      · exact .inr ⟨hj, by simp [Function.update_of_ne hjk]⟩
    · by_cases hjk : j = k
      · subst hjk
        simp
      · simp [Function.update_of_ne hjk]
  · exact h

/-- A step that changes only the open file table. -/
theorem of_table (h : SeqInv s) (hparams : s'.fsParams = s.fsParams)
    (htable : s'.inodeTable = s.inodeTable) (hfree : s'.freeinodeTs = s.freeinodeTs)
    (hdata : s'.fsData = s.fsData) (hblocks : s'.freeBlocks = s.freeBlocks)
    (hhandle : ∀ fh, s'.freeOpenFileEntries fh = .TAKEN → fh < s.maxOpenFiles ∧
      ∃ k : ℕ, (s'.openFileTable fh).ofInumber = k ∧ LiveFile s k) : SeqInv s' where
  toDirInv := (h.toDirInv.congr s' hparams htable hfree hdata hblocks).1
  owned := Owns.change h.owned (blockChange_congr hparams htable hfree hblocks)
  handle_lt fh hfh := maxOpenFiles_congr hparams ▸ (hhandle fh hfh).1
  handles fh hfh := by
    obtain ⟨-, k, hk, hlive⟩ := hhandle fh hfh
    exact ⟨k, hk, hlive.congr hparams (by rw [hfree]) (by rw [htable])⟩
  file_size k hlive := by
    rw [htable, blockSize_congr hparams]
    exact h.file_size k (hlive.congr hparams.symm (by rw [hfree]) (by rw [htable]))
  link_size k hlt htaken hlink := by
    rw [htable] at hlink ⊢
    exact h.link_size k (inodeTableSize_congr hparams ▸ hlt) (hfree ▸ htaken) hlink

theorem tfsOpenRegister {offset : ℕ} {fd : ℤ} (h : SeqInv s) (hk : LiveFile s k)
    (hreg : (fd, s') = tfsOpenRegister s k offset) : SeqInv s' := by
  rcases tfsOpenRegister_cases s k offset with
    ⟨-, heq⟩ | ⟨fh, hfirst, heq⟩
  · rw [heq] at hreg
    obtain ⟨rfl, rfl⟩ := Prod.mk.inj hreg
    exact h
  · rw [heq] at hreg
    obtain ⟨rfl, rfl⟩ := Prod.mk.inj hreg
    refine h.of_table rfl rfl rfl rfl rfl fun fh' hfh' => ?_
    by_cases hfh : fh' = fh
    · subst hfh
      exact ⟨firstFree_lt hfirst, k, by simp [registered, setEntry], hk⟩
    · simp only [registered, setEntry, setFreeEntry, Function.update_of_ne hfh] at hfh' ⊢
      exact ⟨h.handle_lt fh' hfh', h.handles fh' hfh'⟩

theorem liveFile_created {sub : CString}
    (hfirst : firstFree s.freeinodeTs s.inodeTableSize = some k) (h : SeqInv s) :
    LiveFile (Fs.created s k i sub) k :=
  ⟨Nat.pos_of_ne_zero (free_ne_zero h (firstFree_free hfirst)), firstFree_lt hfirst,
    by simp [Fs.created, newInode], by simp [Fs.created, newInode, Inode.new]⟩

theorem liveFile_found (hk : LiveFile s k) : LiveFile (Fs.found s k mode) k := by
  unfold Fs.found
  split
  · rw [truncate_eq]
    exact hk.congr rfl rfl (by simp)
  · exact hk

theorem tfsOpen {fd : ℤ} (h : SeqInv s) (hopen : tfsOpen s name mode depth = .ret (fd, s')) :
    SeqInv s' := by
  rcases h.toDirInv.tfsOpen_cases hopen with ⟨-, rfl | ⟨k, hfirst, rfl⟩⟩ |
    ⟨k, i, -, hfirst, -, hdir, hreg⟩ | ⟨k, -, hk, hreg⟩
  · exact h
  · exact h.discarded hfirst
  · exact (h.created hfirst hdir).tfsOpenRegister (liveFile_created hfirst h) hreg
  · exact (h.found hk).tfsOpenRegister (liveFile_found hk) hreg

theorem tfsClose (h : SeqInv s) (fh : ℤ) : SeqInv (tfsClose s fh).2 := by
  rcases tfsClose_cases s fh with ⟨-, heq⟩ | ⟨fh, -, heq⟩ <;> rw [heq]
  · exact h
  · refine h.of_table rfl rfl rfl rfl rfl fun fh' hfh' => ?_
    have hne : fh' ≠ fh := by
      rintro rfl
      simp [setFreeEntry] at hfh'
    simp only [setFreeEntry, Function.update_of_ne hne] at hfh' ⊢
    exact ⟨h.handle_lt fh' hfh', h.handles fh' hfh'⟩

end SeqInv

/-- The file an open handle refers to. -/
theorem SeqInv.file_of_handle (h : SeqInv s) {fhandle : ℤ}
    (hget : getOpenFileEntry s fhandle = some fh) :
    ∃ k, LiveFile s k ∧ inodeGet s (s.openFileTable fh).ofInumber = some k ∧
      (s.openFileTable fh).ofInumber = k := by
  obtain ⟨-, -, htaken⟩ := getOpenFileEntry_eq_some.mp hget
  obtain ⟨k, hk, hlive⟩ := h.handles fh htaken
  exact ⟨k, hlive, inodeGet_eq_some.mpr ⟨hk, hlive.lt⟩, hk⟩

/-- A non-empty file owns its block. -/
theorem SeqInv.file_block (h : SeqInv s) (hk : LiveFile s k) (hsize : 0 < (s.inodeTable k).iSize) :
    ownedBlock s k = some (s.inodeTable k).iDataBlock ∧
      ∃ b : ℕ, (s.inodeTable k).iDataBlock = b ∧ b < s.dataBlocks ∧ s.freeBlocks b = .TAKEN := by
  have howns : ownedBlock s k = some (s.inodeTable k).iDataBlock :=
    ownedBlock_eq_some.mpr ⟨⟨hk.lt, hk.taken, .inr (.inl ⟨hk.file, hsize⟩)⟩, rfl⟩
  exact ⟨howns, h.owned.backed k _ howns⟩

theorem SeqInv.block_of_owner (h : SeqInv s) (hk : Owner s k) :
    ∃ b : ℕ, (s.inodeTable k).iDataBlock = b ∧ b < s.dataBlocks ∧ s.freeBlocks b = .TAKEN :=
  h.owned.backed k _ (ownedBlock_eq_some.mpr ⟨hk, rfl⟩)

theorem SeqInv.owner_unique (h : SeqInv s) (hj : Owner s j) (hk : Owner s k)
    (hblock : (s.inodeTable j).iDataBlock = (s.inodeTable k).iDataBlock) : j = k :=
  h.owned.exclusive j k _ (ownedBlock_eq_some.mpr ⟨hj, hblock⟩) (ownedBlock_eq_some.mpr ⟨hk, rfl⟩)

/-- The block a write goes to is owned by no other inode. -/
theorem SeqInv.owner_ne_writeBlock (h : SeqInv s) {j : ℕ} (hk : LiveFile s k) (hb : WriteBlock s k b)
    (hj : Owner s j) (hjk : j ≠ k) : (s.inodeTable j).iDataBlock ≠ b := by
  intro heq
  obtain ⟨c, hc, -, htaken⟩ := h.block_of_owner hj
  obtain rfl : b = c := by exact_mod_cast heq.symm.trans hc
  unfold WriteBlock at hb
  split at hb
  · -- the block of an empty file was free
    rw [firstFree_free hb] at htaken
    cases htaken
  · rename_i hne
    have hk' : Owner s k := ⟨hk.lt, hk.taken, .inr (.inl ⟨hk.file, Nat.pos_of_ne_zero hne⟩)⟩
    exact hjk (h.owner_unique hj hk' (heq.trans hb.1.symm))

theorem blockSize_le_dataSize (h : 0 < s.dataBlocks) : s.blockSize ≤ s.dataSize :=
  Nat.le_mul_of_pos_left _ h

/-- A write that stays in the data area stays in the block. -/
theorem offset_add_clampWrite_le {blockSize offset toWrite limit : ℕ} (hlimit : limit < sizeRange)
    (hpos : 0 < clampWrite blockSize offset toWrite)
    (hfits : offset + clampWrite blockSize offset toWrite ≤ limit) :
    offset + clampWrite blockSize offset toWrite ≤ blockSize := by
  simp only [clampWrite, subSize, sizeRange] at hlimit hpos hfits ⊢
  by_cases hcond : blockSize < (toWrite + offset) % 18446744073709551616
  · simp only [hcond, if_true] at hpos hfits ⊢
    omega
  · simp only [hcond, if_false] at hpos hfits ⊢
    omega

/-- A write that stays in the block writes no more than it was asked to. -/
theorem clampWrite_le {blockSize offset toWrite : ℕ}
    (hfits : offset + clampWrite blockSize offset toWrite ≤ blockSize) :
    clampWrite blockSize offset toWrite ≤ toWrite := by
  unfold clampWrite subSize sizeRange at *
  split at hfits <;> rename_i hcond
  · rw [if_pos hcond]
    omega
  · rw [if_neg hcond]

theorem clampRead_le {size offset len : ℕ} : clampRead size offset len ≤ len := by
  unfold clampRead
  split <;> omega

/-- A write made alone does nothing, or writes to the block of its file. -/
theorem SeqInv.tfsWrite_cases (h : SeqInv s) {fhandle : ℤ} {buffer : ℕ → UInt8} {toWrite : ℕ}
    {r : ℤ} (hwrite : tfsWrite s fhandle buffer toWrite = .ret (r, s')) :
    (s' = s ∧ r ≤ 0 ∧ ∀ fh (k : ℕ), getOpenFileEntry s fhandle = some fh →
      (s.openFileTable fh).ofInumber = k → (∀ b, ¬ WriteBlock s k b) ∨
        clampWrite s.blockSize (s.openFileTable fh).ofOffset toWrite = 0) ∨
    ∃ fh k b n, getOpenFileEntry s fhandle = some fh ∧
      (s.openFileTable fh).ofInumber = (k : ℕ) ∧ LiveFile s k ∧ WriteBlock s k b ∧ 0 < n ∧
      n = clampWrite s.blockSize (s.openFileTable fh).ofOffset toWrite ∧
      (s.openFileTable fh).ofOffset + n ≤ s.blockSize ∧ r = n ∧
      s' = written s fh k b n buffer := by
  unfold tfsWrite at hwrite
  cases hget : getOpenFileEntry s fhandle with
  | none =>
    rw [hget] at hwrite
    obtain ⟨rfl, rfl⟩ := Prod.mk.inj (Outcome.ret.inj hwrite)
    exact .inl ⟨rfl, by omega, by simp⟩
  | some fh =>
    obtain ⟨k, hlive, hinode, hk⟩ := h.file_of_handle hget
    simp only [hget, hinode] at hwrite
    rcases tfsWriteBody_cases hwrite with ⟨rfl, hwhy⟩ | ⟨b, hb, hpos, hfits, hr, rfl⟩
    · refine .inl ⟨rfl, by omega, fun fh' k' hfh hk' => ?_⟩
      obtain rfl := Option.some_inj.mp hfh
      obtain rfl : k = k' := by exact_mod_cast hk.symm.trans hk'
      exact hwhy.imp And.right And.right
    · refine .inr ⟨fh, k, b, _, rfl, hk, hlive, hb, hpos, rfl, ?_, hr, rfl⟩
      exact offset_add_clampWrite_le (dataSize_lt_sizeRange s) hpos (by omega)

/-- A read made alone changes at most the offset of its handle. -/
theorem SeqInv.tfsRead_cases (h : SeqInv s) {fhandle : ℤ} {len : ℕ} {r : ReadResult}
    (hread : tfsRead s fhandle len = .ret (r, s')) :
    s' = s ∨ ∃ fh k n, getOpenFileEntry s fhandle = some fh ∧
      (s.openFileTable fh).ofInumber = (k : ℕ) ∧ LiveFile s k ∧
      n = clampRead (s.inodeTable k).iSize (s.openFileTable fh).ofOffset len ∧
      s' = s.setEntry fh { s.openFileTable fh with
        ofOffset := (s.openFileTable fh).ofOffset + n } := by
  unfold tfsRead at hread
  cases hget : getOpenFileEntry s fhandle with
  | none =>
    rw [hget] at hread
    exact .inl (Prod.mk.inj (Outcome.ret.inj hread)).2.symm
  | some fh =>
    obtain ⟨k, hlive, hinode, hk⟩ := h.file_of_handle hget
    simp only [hget, hinode] at hread
    rcases tfsReadBody_cases hread with ⟨rfl, -⟩ | ⟨b, n, -, -, hn, -, -, -, rfl⟩
    · exact .inl rfl
    · exact .inr ⟨fh, k, n, rfl, hk, hlive, hn, rfl⟩

namespace SeqInv

theorem written {buffer : ℕ → UInt8} (h : SeqInv s) (hk : LiveFile s k)
    (hb : WriteBlock s k b) (hn : 0 < n)
    (hfits : (s.openFileTable fh).ofOffset + n ≤ s.blockSize) :
    SeqInv (written s fh k b n buffer) where
  toDirInv := (h.toDirInv.written (h.isSafe hk.pos hk.lt hk.taken) hb).1
  owned := Owns.change h.owned (blockChange_written hk.pos hk.lt hk.taken hk.file hb hn)
  handle_lt := h.handle_lt
  handles fh' hfh' := by
    obtain ⟨j, hj, hlive⟩ := h.handles fh' hfh'
    refine ⟨j, ?_, hlive.congr rfl rfl ?_⟩
    · by_cases hfh : fh' = fh
      · subst hfh
        simpa [Fs.written] using hj
      · simpa [Fs.written, Function.update_of_ne hfh] using hj
    · by_cases hjk : j = k
      · subst hjk
        simp [Fs.written]
      · simp [Fs.written, Function.update_of_ne hjk]
  file_size j hlive := by
    by_cases hjk : j = k
    · subst hjk
      have hold := h.file_size j hk
      simp only [Fs.written, Function.update_self]
      exact max_le hold hfits
    · have hnode : (Fs.written s fh k b n buffer).inodeTable j = s.inodeTable j :=
        Function.update_of_ne hjk _ _
      rw [hnode]
      exact h.file_size j (hlive.congr rfl rfl (by rw [hnode]))
  link_size j hlt htaken hlink := by
    have hjk : j ≠ k := by
      rintro rfl
      simp [Fs.written, hk.file] at hlink
    have hnode : (Fs.written s fh k b n buffer).inodeTable j = s.inodeTable j :=
      Function.update_of_ne hjk _ _
    rw [hnode] at hlink ⊢
    exact h.link_size j hlt htaken hlink

theorem tfsWrite {buffer : ℕ → UInt8} {toWrite : ℕ} {fhandle r : ℤ} (h : SeqInv s)
    (hwrite : tfsWrite s fhandle buffer toWrite = .ret (r, s')) : SeqInv s' := by
  rcases h.tfsWrite_cases hwrite with ⟨rfl, -⟩ |
    ⟨fh, k, b, n, -, -, hlive, hb, hpos, -, hfits, -, rfl⟩
  · exact h
  · exact h.written hlive hb hpos hfits

theorem setOffset (h : SeqInv s) {offset : ℕ} :
    SeqInv (s.setEntry fh { s.openFileTable fh with ofOffset := offset }) := by
  refine h.of_table rfl rfl rfl rfl rfl fun fh' hfh' => ⟨h.handle_lt fh' hfh', ?_⟩
  by_cases hfh : fh' = fh
  · subst hfh
    simpa [setEntry] using h.handles fh' hfh'
  · simpa [setEntry, Function.update_of_ne hfh] using h.handles fh' hfh'

theorem tfsRead {fhandle : ℤ} {len : ℕ} {r : ReadResult} (h : SeqInv s)
    (hread : tfsRead s fhandle len = .ret (r, s')) : SeqInv s' := by
  rcases h.tfsRead_cases hread with rfl | ⟨fh, k, n, -, -, -, -, rfl⟩
  · exact h
  · exact h.setOffset

end SeqInv

/-- The ways `tfs_copy_from_external_fs` can go: it stops before the file system
changes, or opens the destination, writes the buffer and may close the handle. -/
theorem tfsCopyFromExternalFs_cases {source : Option ExternalFile} {destPath : Option CString}
    {r : ℤ} (hcopy : tfsCopyFromExternalFs s source destPath depth = .ret (r, s')) :
    s' = s ∨ ∃ file fd s1, source = some file ∧ file.contents.length ≤ s.blockSize ∧
      tfsOpen s destPath (tfsOTrunc ||| tfsOCreat) depth = .ret (fd, s1) ∧
      ((fd = -1 ∧ s' = s1) ∨ fd ≠ -1 ∧ ∃ r' s2,
        tfsWrite s1 fd (fun i => file.contents.getD i 0) file.contents.length = .ret (r', s2) ∧
        (s' = s2 ∨ s' = (tfsClose s2 fd).2)) := by
  unfold tfsCopyFromExternalFs at hcopy
  cases source with
  | none => exact .inl (Prod.mk.inj (Outcome.ret.inj hcopy)).2.symm
  | some file =>
    simp only at hcopy
    split at hcopy
    · exact .inl (Prod.mk.inj (Outcome.ret.inj hcopy)).2.symm
    rename_i hlen
    have hle : file.contents.length ≤ s.blockSize := by
      rw [List.length_take] at hlen
      omega
    rw [List.take_of_length_le (by omega)] at hcopy
    obtain ⟨⟨fd, s1⟩, hopen, hcopy⟩ := Outcome.bind_eq_ret.mp hcopy
    refine .inr ⟨file, fd, s1, rfl, hle, hopen, ?_⟩
    simp only at hcopy
    split at hcopy
    · rename_i hfd
      exact .inl ⟨hfd, (Prod.mk.inj (Outcome.ret.inj hcopy)).2.symm⟩
    rename_i hfd
    obtain ⟨⟨r', s2⟩, hwrite, hcopy⟩ := Outcome.bind_eq_ret.mp hcopy
    refine .inr ⟨hfd, r', s2, hwrite, ?_⟩
    simp only at hcopy
    split at hcopy
    · exact .inr (Prod.mk.inj (Outcome.ret.inj hcopy)).2.symm
    split at hcopy
    · exact .inl (Prod.mk.inj (Outcome.ret.inj hcopy)).2.symm
    · exact .inr (Prod.mk.inj (Outcome.ret.inj hcopy)).2.symm

/-- A copy writes through a new handle, at the start of the file. -/
theorem copy_offset (hs : DirInv s) {fd : ℤ} (hfd : fd ≠ -1)
    (hopen : Fs.tfsOpen s name (tfsOTrunc ||| tfsOCreat) depth = .ret (fd, s'))
    (hget : getOpenFileEntry s' fd = some fh) : (s'.openFileTable fh).ofOffset = 0 := by
  have hreg : ∀ {u : State} {k : ℕ}, (fd, s') = Fs.tfsOpenRegister u k 0 →
      (s'.openFileTable fh).ofOffset = 0 := by
    intro u k hreg
    rcases tfsOpenRegister_cases u k 0 with ⟨-, heq⟩ | ⟨fh', -, heq⟩ <;> rw [heq] at hreg <;>
      obtain ⟨rfl, rfl⟩ := Prod.mk.inj hreg
    · exact absurd rfl hfd
    · obtain rfl : fh' = fh := by exact_mod_cast (getOpenFileEntry_eq_some.mp hget).1
      simp [registered, setEntry]
  rcases hs.tfsOpen_cases hopen with ⟨rfl, -⟩ | ⟨k, i, -, -, -, -, h⟩ | ⟨k, -, -, h⟩
  · exact absurd rfl hfd
  · exact hreg h
  · rw [if_neg (by decide)] at h
    exact hreg h

/-- A call that leads to the state `s'` returned. -/
theorem exists_ret_of_map {α : Type} {x : Outcome (α × State)}
    (h : x.toOption.map Prod.snd = some s') : ∃ r, x = .ret (r, s') := by
  obtain ⟨⟨r, t⟩, hr, rfl⟩ := Option.map_eq_some_iff.mp h
  exact ⟨r, Outcome.toOption_eq_some.mp hr⟩

/-- Every call made alone keeps `SeqInv`. -/
theorem SeqInv.next {c : Call} (h : SeqInv s) (hnext : next s c = some s') : SeqInv s' := by
  cases c with
  | «open» name mode depth =>
    obtain ⟨r, hr⟩ := exists_ret_of_map hnext
    exact h.tfsOpen hr
  | close fh =>
    obtain rfl := Option.some_inj.mp hnext
    exact h.tfsClose fh
  | write fh buffer toWrite =>
    obtain ⟨r, hr⟩ := exists_ret_of_map hnext
    exact h.tfsWrite hr
  | read fh len =>
    obtain ⟨r, hr⟩ := exists_ret_of_map hnext
    exact h.tfsRead hr
  | link target linkName =>
    obtain ⟨r, hr⟩ := exists_ret_of_map hnext
    exact h.tfsLink hr
  | symLink target linkName =>
    obtain ⟨r, hr⟩ := exists_ret_of_map hnext
    exact h.tfsSymLink hr
  | unlink target =>
    obtain ⟨r, hr⟩ := exists_ret_of_map hnext
    exact h.tfsUnlink hr
  | copyFromExternalFs source destPath depth =>
    obtain ⟨r, hr⟩ := exists_ret_of_map hnext
    rcases tfsCopyFromExternalFs_cases hr with rfl | ⟨file, fd, s1, -, -, hopen, hrest⟩
    · exact h
    have h1 := h.tfsOpen hopen
    rcases hrest with ⟨-, rfl⟩ | ⟨-, r', s2, hwrite, rfl | rfl⟩
    · exact h1
    · exact h1.tfsWrite hwrite
    · exact (h1.tfsWrite hwrite).tfsClose fd

/-- `SeqInv` holds after `tfs_init`. -/
theorem tfsInit_seqInv (h : Initialised s) : SeqInv s := by
  have hdir := tfsInit_dirInv h
  have howned := (tfsInit_owned h).1
  obtain ⟨heap, params, -, -, rfl⟩ := initialised_iff.mp h
  have hfree : ∀ k, k ≠ 0 → (initState heap params).freeinodeTs k = .FREE := by
    intro k hk
    change Function.update (fun _ => AllocationState.FREE) 0 .TAKEN k = .FREE
    rw [Function.update_of_ne hk]
  refine ⟨hdir, howned, fun fh hfh => ?_, fun fh hfh => ?_, fun k hk => ?_, fun k _ htaken htype => ?_⟩
  · cases hfh
  · cases hfh
  · have htaken := hk.taken
    rw [hfree k hk.pos.ne'] at htaken
    cases htaken
  · by_cases hk : k = 0
    · subst hk
      rw [hdir.root_type] at htype
      cases htype
    · rw [hfree k hk] at htaken
      cases htaken

end TfsBroker.Fs
