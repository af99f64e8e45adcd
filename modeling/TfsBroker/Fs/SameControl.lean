import TfsBroker.Fs.Exclusive
import TfsBroker.Fs.Handles

/-!
# What the operations of `fs/` decide by

Two states have the same control when they agree on the allocation vectors, the
inodes and handles in use, the names in the directory and the targets of the
symbolic links. What can happen in one can then happen in the other.

## Main results

* `SameControl.enabled` — a change possible in one state is possible in the other
* `SameControl.apply` — a change keeps the control of two states the same
-/

namespace TfsBroker.Fs

open State

variable {s s' : State} {name target linkName : Option CString} {mode k j b i n fh depth : ℕ}
  {t sub : CString} {c : Change}

/-- A lookup depends on the entries of the directory only. -/
theorem DirInv.lookup_congr (hs : DirInv s) (hs' : DirInv s') (hparams : s'.fsParams = s.fsParams)
    (h : Directory.Alike s.fsData s'.fsData 0 s.maxDirEntries) (name : Option CString) :
    tfsLookup s' name 0 = tfsLookup s name 0 := by
  have hwf' := hs'.wf
  rw [maxDirEntries_congr hparams] at hwf'
  rw [hs'.tfsLookup_eq, hs.tfsLookup_eq, hs'.findInDir_eq, hs.findInDir_eq,
    maxDirEntries_congr hparams, h.findEntry_eq hs.wf hwf']
  cases hfind : Directory.findEntry s.fsData 0 s.maxDirEntries (subName name) with
  | none => simp only [Option.elim_none]
  | some i =>
    obtain ⟨hi, -⟩ := hs.wf.findEntry_eq_some.mp hfind
    simp only [Option.elim_some, h.inumber i hi]

/-- What the operations decide by is the same in both states. -/
structure SameControl (s s' : State) : Prop where
  params : s'.fsParams = s.fsParams
  inodes : s'.freeinodeTs = s.freeinodeTs
  blocks : s'.freeBlocks = s.freeBlocks
  entries : s'.freeOpenFileEntries = s.freeOpenFileEntries
  node : ∀ k, s.freeinodeTs k = .TAKEN → s'.inodeTable k = s.inodeTable k
  inumber : ∀ fh, s.freeOpenFileEntries fh = .TAKEN →
    (s'.openFileTable fh).ofInumber = (s.openFileTable fh).ofInumber
  offset : ∀ fh, s.freeOpenFileEntries fh = .TAKEN →
    (s'.openFileTable fh).ofOffset = (s.openFileTable fh).ofOffset
  directory : Directory.Alike s.fsData s'.fsData 0 s.maxDirEntries
  target : ∀ k t, LiveLink s k → StoredTarget s k t → StoredTarget s' k t

namespace SameControl

theorem liveFile (h : SameControl s s') (hk : LiveFile s k) : LiveFile s' k :=
  hk.congr h.params (by rw [h.inodes]) (by rw [h.node k hk.taken])

theorem lookup (h : SameControl s s') (hs : DirInv s) (hs' : DirInv s')
    (name : Option CString) : tfsLookup s' name 0 = tfsLookup s name 0 :=
  hs.lookup_congr hs' h.params h.directory name

theorem freeEntry (h : SameControl s s') : Directory.freeEntry s'.fsData 0 s'.maxDirEntries
    = Directory.freeEntry s.fsData 0 s.maxDirEntries := by
  rw [maxDirEntries_congr h.params, h.directory.freeEntry_eq]

theorem firstInode (h : SameControl s s') : firstFree s'.freeinodeTs s'.inodeTableSize
    = firstFree s.freeinodeTs s.inodeTableSize := by
  rw [h.inodes, inodeTableSize_congr h.params]

theorem firstBlock (h : SameControl s s') : firstFree s'.freeBlocks s'.dataBlocks
    = firstFree s.freeBlocks s.dataBlocks := by
  rw [h.blocks, dataBlocks_congr h.params]

theorem firstEntry (h : SameControl s s') : firstFree s'.freeOpenFileEntries s'.maxOpenFiles
    = firstFree s.freeOpenFileEntries s.maxOpenFiles := by
  rw [h.entries, maxOpenFiles_congr h.params]

theorem getOpenFileEntry (h : SameControl s s') (fhandle : ℤ) :
    Fs.getOpenFileEntry s' fhandle = Fs.getOpenFileEntry s fhandle := by
  unfold Fs.getOpenFileEntry validFileHandle
  rw [h.entries, maxOpenFiles_congr h.params]

theorem isInOpenFileTable (h : SameControl s s') (hk : k < s.inodeTableSize) :
    Fs.isInOpenFileTable s' k = Fs.isInOpenFileTable s k := by
  have hk' : k < s'.inodeTableSize := inodeTableSize_congr h.params ▸ hk
  rw [Bool.eq_iff_iff, ← not_iff_not, Bool.not_eq_true, Bool.not_eq_true,
    isInOpenFileTable_eq_false hk, isInOpenFileTable_eq_false hk', maxOpenFiles_congr h.params,
    h.entries]
  refine forall_congr' fun fh => forall_congr' fun _ => ?_
  constructor
  · intro hne htaken
    rw [← h.inumber fh htaken]
    exact hne htaken
  · intro hne htaken
    rw [h.inumber fh htaken]
    exact hne htaken

theorem room (h : SameControl s s') (hroom : Room s i sub) : Room s' i sub := by
  refine ⟨hroom.len_pos, hroom.len_lt, h.freeEntry.trans hroom.first, fun j hj hnames => ?_⟩
  rw [maxDirEntries_congr h.params] at hj
  exact hroom.fresh j hj ((h.directory.names_iff hj).mp hnames)

theorem writeBlock_iff (h : SameControl s s') (hk : LiveFile s k) :
    WriteBlock s' k b ↔ WriteBlock s k b := by
  unfold WriteBlock
  rw [h.node k hk.taken, h.firstBlock, dataBlocks_congr h.params]

/-- A change is possible in both states. -/
theorem enabled (h : SameControl s s') (hs : DirInv s) (hs' : DirInv s') (hc : Enabled s c) :
    Enabled s' c := by
  cases hc with
  | discard hfirst => exact .discard (h.firstInode.trans hfirst)
  | create hfirst hroom => exact .create (h.firstInode.trans hfirst) (h.room hroom)
  | truncate hk hsize => exact .truncate (h.liveFile hk) (by rwa [h.node _ hk.taken])
  | register hk hfirst => exact .register (h.liveFile hk) (h.firstEntry.trans hfirst)
  | close => exact .close
  | write hopen hk hb hn hfits =>
    refine .write (by rwa [h.entries]) (h.liveFile hk) ((h.writeBlock_iff hk).mpr hb) hn ?_
    rwa [h.offset _ hopen, blockSize_congr h.params]
  | seek => exact .seek
  | discardLink hfirst hb ht =>
    exact .discardLink (h.firstInode.trans hfirst) (h.firstBlock.trans hb)
      (by rwa [h.lookup hs hs'])
  | createLink hfirst hb ht hroom =>
    exact .createLink (h.firstInode.trans hfirst) (h.firstBlock.trans hb)
      (by rwa [h.lookup hs hs']) (h.room hroom)
  | link hk hroom => exact .link (h.liveFile hk) (h.room hroom)
  | unlink hk htaken hi =>
    exact .unlink hk (by rwa [h.inodes]) (by rwa [maxDirEntries_congr h.params])
  | free hk htaken hi =>
    exact .free hk (by rwa [h.inodes]) (by rwa [maxDirEntries_congr h.params])

/-! ### A change keeps the control the same -/

private theorem blocksWithout_congr (h : SameControl s s') (n : ℤ) :
    blocksWithout s' n = blocksWithout s n := by
  unfold blocksWithout validBlockNumber
  rw [h.blocks, dataBlocks_congr h.params]

private theorem apply_vectors (h : SameControl s s') (hc : Enabled s c) :
    (c.apply s').freeinodeTs = (c.apply s).freeinodeTs ∧
      (c.apply s').freeBlocks = (c.apply s).freeBlocks ∧
      (c.apply s').freeOpenFileEntries = (c.apply s).freeOpenFileEntries := by
  cases hc with
  | truncate hk =>
    simp only [Change.apply, truncate_eq, h.inodes, h.entries, h.node _ hk.taken,
      h.blocksWithout_congr, and_self]
  | write _ hk =>
    simp only [Change.apply, written, h.inodes, h.entries, h.blocks, h.node _ hk.taken, and_self]
  | @free k i _ htaken =>
    have hnode : (cleared s' i).inodeTable k = (cleared s i).inodeTable k := h.node k htaken
    have hwithout : ∀ n, blocksWithout (cleared s' i) n = blocksWithout (cleared s i) n :=
      h.blocksWithout_congr
    have hblocks : (cleared s' i).freeBlocks = (cleared s i).freeBlocks := h.blocks
    have hinodes : (cleared s' i).freeinodeTs = (cleared s i).freeinodeTs := h.inodes
    simp only [Change.apply, freed_eq, hnode, hwithout, hblocks, hinodes, true_and]
    exact h.entries
  | discard | create | register | close | seek | discardLink | createLink | link | unlink =>
    simp only [Change.apply, discarded, created, newInode, registered, setFreeEntry, setEntry,
      linkDiscarded, linkCreated, linkInode, linked, unlinked, cleared, setInode, h.inodes,
      h.entries, h.blocks, and_self]

private theorem update_node {v v' : Inode} (hv : v' = v)
    (hj : j ≠ k → s'.inodeTable j = s.inodeTable j) :
    Function.update s'.inodeTable k v' j = Function.update s.inodeTable k v j := by
  by_cases hjk : j = k
  · subst hjk
    rw [Function.update_self, Function.update_self, hv]
  · rw [Function.update_of_ne hjk, Function.update_of_ne hjk, hj hjk]

private theorem apply_node (h : SameControl s s') (hc : Enabled s c) (j : ℕ)
    (hj : (c.apply s).freeinodeTs j = .TAKEN) :
    (c.apply s').inodeTable j = (c.apply s).inodeTable j := by
  have hother : ∀ {k}, Function.update s.freeinodeTs k .TAKEN j = .TAKEN → j ≠ k →
      s'.inodeTable j = s.inodeTable j := fun hj hjk =>
    h.node j ((Function.update_of_ne hjk _ _).symm.trans hj)
  cases hc with
  | discard | discardLink => exact update_node rfl fun _ => h.node j hj
  | create | createLink => exact update_node rfl (hother hj)
  | truncate hk =>
    simp only [Change.apply, truncate_eq] at hj ⊢
    exact update_node (by rw [h.node _ hk.taken]) fun _ => h.node j hj
  | register | close | seek => exact h.node j hj
  | write hopen hk =>
    refine update_node ?_ fun _ => h.node j hj
    rw [h.node _ hk.taken, h.offset _ hopen]
  | link hk => exact update_node (by rw [h.node _ hk.taken]) fun _ => h.node j hj
  | unlink _ htaken =>
    exact update_node (by rw [h.node _ htaken]) fun _ => h.node j hj
  | @free k i =>
    simp only [Change.apply, freed_eq] at hj ⊢
    have hjk : j ≠ k := by
      rintro rfl
      simp at hj
    exact h.node j ((Function.update_of_ne hjk _ _).symm.trans hj)

private theorem update_entry {v v' : OpenFileEntry} (hv : v'.ofInumber = v.ofInumber)
    (hv' : v'.ofOffset = v.ofOffset) {j : ℕ}
    (hj : j ≠ fh → (s'.openFileTable j).ofInumber = (s.openFileTable j).ofInumber ∧
      (s'.openFileTable j).ofOffset = (s.openFileTable j).ofOffset) :
    (Function.update s'.openFileTable fh v' j).ofInumber =
        (Function.update s.openFileTable fh v j).ofInumber ∧
      (Function.update s'.openFileTable fh v' j).ofOffset =
        (Function.update s.openFileTable fh v j).ofOffset := by
  by_cases hjk : j = fh
  · subst hjk
    simp only [Function.update_self, hv, hv', and_self]
  · simp only [Function.update_of_ne hjk, hj hjk, and_self]

private theorem apply_entry (h : SameControl s s') (hc : Enabled s c) (j : ℕ)
    (hj : (c.apply s).freeOpenFileEntries j = .TAKEN) :
    ((c.apply s').openFileTable j).ofInumber = ((c.apply s).openFileTable j).ofInumber ∧
      ((c.apply s').openFileTable j).ofOffset = ((c.apply s).openFileTable j).ofOffset := by
  have hold : ∀ {j}, s.freeOpenFileEntries j = .TAKEN →
      (s'.openFileTable j).ofInumber = (s.openFileTable j).ofInumber ∧
        (s'.openFileTable j).ofOffset = (s.openFileTable j).ofOffset := fun hj =>
    ⟨h.inumber _ hj, h.offset _ hj⟩
  cases hc with
  | register =>
    refine update_entry ?_ ?_ fun hjk => hold ((Function.update_of_ne hjk _ _).symm.trans hj) <;> rfl
  | @close fh =>
    have hjk : j ≠ fh := by
      rintro rfl
      simp [Change.apply, setFreeEntry] at hj
    exact hold ((Function.update_of_ne hjk _ _).symm.trans hj)
  | write hopen =>
    refine update_entry ?_ ?_ fun _ => hold hj
    · exact h.inumber _ hopen
    · simp only [h.offset _ hopen]
  | @seek fh offset =>
    by_cases hjk : j = fh
    · subst hjk
      refine update_entry ?_ ?_ fun _ => hold hj
      · exact h.inumber j hj
      · rfl
    · simp only [Change.apply, setEntry, Function.update_of_ne hjk]
      exact hold hj
  | truncate =>
    simp only [Change.apply, truncate_eq] at hj ⊢
    exact hold hj
  | free =>
    simp only [Change.apply, freed_eq] at hj ⊢
    exact hold hj
  | discard | create | discardLink | createLink | link | unlink => exact hold hj

theorem liveLink (h : SameControl s s') (hk : LiveLink s k) : LiveLink s' k :=
  ⟨inodeTableSize_congr h.params ▸ hk.lt, h.inodes ▸ hk.taken,
    (congrArg _ (h.node k hk.taken)).trans hk.link⟩

private theorem apply_directory (h : SameControl s s') (hs : SeqInv s) (hc : Enabled s c) :
    Directory.Alike (c.apply s).fsData (c.apply s').fsData 0 s.maxDirEntries := by
  have hentries := entries_le_blockSize s
  -- both write inside a block other than the directory's
  have hcopy : ∀ {b off n : ℕ} {src : ℕ → UInt8}, b ≠ 0 → off + n ≤ s.blockSize →
      Directory.Alike (s.fsData.memcpy (b * s.blockSize + off) n src)
        (s'.fsData.memcpy (b * s'.blockSize + off) n src) 0 s.maxDirEntries := by
    intro b off n src hb hfits
    rw [blockSize_congr h.params]
    exact h.directory.of_agreeOn ((agreeOn_directory hb hfits).mono le_rfl (by omega))
      ((agreeOn_directory hb hfits).mono le_rfl (by omega))
  have htarget : ∀ {b : ℕ} {t : CString}, firstFree s.freeBlocks s.dataBlocks = some b →
      tfsLookup s (some t) 0 ≠ -1 →
      Directory.Alike (s.fsData.memcpy (b * s.blockSize) (t.strlen + 1) t.byteAt)
        (s'.fsData.memcpy (b * s'.blockSize) (t.strlen + 1) t.byteAt) 0 s.maxDirEntries := by
    intro b t hb ht
    have hfits := (hs.target_fits ht).2.2
    have hroom : 0 + (t.strlen + 1) ≤ s.blockSize := by omega
    exact hcopy (firstFree_ne hb hs.block_taken) hroom
  cases hc with
  | discard | register | close | seek => exact h.directory
  | truncate =>
    simp only [Change.apply, truncate_eq]
    exact h.directory
  | create hfirst hroom =>
    exact h.directory.fillEntry (isInt_of_lt (firstFree_lt hfirst)) hroom.len_lt
  | write hopen hk hb _ hfits =>
    have hb0 := hs.writeBlock_ne (hs.isSafe hk.pos hk.lt hk.taken) hb
    simp only [Change.apply, written, h.offset _ hopen]
    exact hcopy hb0 hfits
  | discardLink _ hb ht => exact htarget hb ht
  | createLink hfirst hb ht hroom =>
    exact (htarget hb ht).fillEntry (isInt_of_lt (firstFree_lt hfirst)) hroom.len_lt
  | link hk hroom => exact h.directory.fillEntry (isInt_of_lt hk.lt) hroom.len_lt
  | unlink => exact h.directory.clearEntry
  | free =>
    simp only [Change.apply, freed_eq]
    exact h.directory.clearEntry

private theorem apply_target (h : SameControl s s') (hs : ExclusiveInv s)
    (hs' : ExclusiveInv s') (hc : Enabled s c) (hk : LiveLink (c.apply s) k)
    (hstored : StoredTarget (c.apply s) k t) : StoredTarget (c.apply s') k t := by
  have hc' := h.enabled hs.toDirInv hs'.toDirInv hc
  rcases hc.liveLink hk with hold | ⟨b, i, t', sub, rfl⟩
  · obtain ⟨t', hstored', -⟩ := hs.links k hold
    have hframe := hc.frame hs.root_taken
    obtain rfl :=
      hstored.unique (hstored'.of_same (hc.keepsTarget hs.toSeqInv hold) hframe.params)
    exact (h.target k t hold hstored').of_same
      (hc'.keepsTarget hs'.toSeqInv (h.liveLink hold)) (hc'.frame hs'.root_taken).params
  · obtain rfl := hstored.unique (hc.storedTarget hs.toSeqInv).2
    exact (hc'.storedTarget hs'.toSeqInv).2

/-- A change keeps the control of two states the same. -/
theorem apply (h : SameControl s s') (hs : ExclusiveInv s) (hs' : ExclusiveInv s')
    (hc : Enabled s c) : SameControl (c.apply s) (c.apply s') := by
  have hframe := (hc.frame hs.root_taken).params
  have hframe' := ((h.enabled hs.toDirInv hs'.toDirInv hc).frame hs'.root_taken).params
  obtain ⟨hinodes, hblocks, hentries⟩ := h.apply_vectors hc
  refine ⟨hframe'.trans (h.params.trans hframe.symm), hinodes, hblocks, hentries,
    h.apply_node hc, fun fh hfh => (h.apply_entry hc fh hfh).1,
    fun fh hfh => (h.apply_entry hc fh hfh).2, ?_, fun k t => h.apply_target hs hs' hc⟩
  rw [maxDirEntries_congr hframe]
  exact h.apply_directory hs.toSeqInv hc

end SameControl

/-- After `tfs_init` only the root directory is in use. -/
theorem taken_of_init {heap : Heap} {params : TfsParams}
    (h : tfsInit heap params = (true, s)) (hk : s.freeinodeTs k = .TAKEN) : k = 0 := by
  obtain rfl : initState heap params = s := by
    rw [← tfsInit_eq.2 (by rw [h]), h]
  by_contra hne
  simp [initState, Function.update_of_ne hne] at hk

/-- After `tfs_init` with the same parameters, the control is the same. -/
theorem tfsInit_sameControl {heap heap' : Heap} {params : TfsParams}
    (h : tfsInit heap params = (true, s)) (h' : tfsInit heap' params = (true, s')) :
    SameControl s s' := by
  obtain rfl : initState heap params = s := by
    rw [← tfsInit_eq.2 (by rw [h]), h]
  obtain rfl : initState heap' params = s' := by
    rw [← tfsInit_eq.2 (by rw [h']), h']
  have htaken : ∀ k, (initState heap params).freeinodeTs k = .TAKEN → k = 0 :=
    fun k => taken_of_init h
  have hroot : (initState heap' params).inodeTable 0 = (initState heap params).inodeTable 0 := by
    simp [initState]
  refine ⟨rfl, rfl, rfl, rfl, fun k hk => ?_, fun fh hfh => ?_, fun fh hfh => ?_, ?_,
    fun k t hk => ?_⟩
  · rw [htaken k hk, hroot]
  · cases hfh
  · cases hfh
  · refine ⟨fun i hi => ?_, fun i hi hlive => ?_⟩
    · exact (Directory.dInumber_initEntries hi).trans (Directory.dInumber_initEntries hi).symm
    · exact absurd (Directory.dInumber_initEntries hi) hlive
  · have hlink := hk.link
    rw [htaken k hk.taken] at hlink
    simp [initState] at hlink

end TfsBroker.Fs
