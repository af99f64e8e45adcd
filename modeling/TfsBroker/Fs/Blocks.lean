import TfsBroker.Fs.Invariant
import TfsBroker.Lib.Ownership

/-!
# Who owns which block

The root directory, a non-empty file and a symbolic link own their `i_data_block`.
For each state an operation can leave, this says what happened to the owners:
nothing, or an inode acquired or released a block, or a block was abandoned.

## Main results

* `Owned` — owned blocks are in range and `TAKEN`, and have one owner
* `BlocksExact` — the `TAKEN` blocks are exactly the owned ones
-/

namespace TfsBroker.Fs

open State Ownership

variable {s s' : State} {k b i n fh : ℕ} {sub t : CString} {m : Memory}

/-- `k` owns its `i_data_block`. -/
def Owner (s : State) (k : ℕ) : Prop :=
  k < s.inodeTableSize ∧ s.freeinodeTs k = .TAKEN ∧
    (k = rootDirInum ∨
      ((s.inodeTable k).iNodeType = .T_FILE ∧ 0 < (s.inodeTable k).iSize) ∨
      (s.inodeTable k).iNodeType = .T_LINK)

instance : Decidable (Owner s k) := inferInstanceAs (Decidable (_ ∧ _))

/-- The block the inode `k` owns. -/
def ownedBlock (s : State) (k : ℕ) : Option ℤ :=
  if Owner s k then some (s.inodeTable k).iDataBlock else none

/-- `n` is the number of a `TAKEN` block. -/
def BlockTaken (s : State) (n : ℤ) : Prop :=
  ∃ b : ℕ, n = b ∧ b < s.dataBlocks ∧ s.freeBlocks b = .TAKEN

/-- Owned blocks are in range and `TAKEN`, and have one owner. -/
def Owned (s : State) : Prop := Owns (ownedBlock s) (BlockTaken s)

theorem ownedBlock_eq_some {n : ℤ} :
    ownedBlock s k = some n ↔ Owner s k ∧ (s.inodeTable k).iDataBlock = n := by
  unfold ownedBlock
  split
  · rename_i h
    simp [h]
  · rename_i h
    simp [h]

theorem ownedBlock_eq_none : ownedBlock s k = none ↔ ¬ Owner s k := by
  simp [ownedBlock]

/-- An inode that keeps its slot and all that ownership reads keeps its block. -/
theorem ownedBlock_congr (hparams : s'.fsParams = s.fsParams)
    (hfree : s'.freeinodeTs k = s.freeinodeTs k)
    (hnode : s.freeinodeTs k = .TAKEN →
      (s'.inodeTable k).iNodeType = (s.inodeTable k).iNodeType ∧
      (s'.inodeTable k).iDataBlock = (s.inodeTable k).iDataBlock ∧
      (0 < (s'.inodeTable k).iSize ↔ 0 < (s.inodeTable k).iSize)) :
    ownedBlock s' k = ownedBlock s k := by
  by_cases htaken : s.freeinodeTs k = .TAKEN
  · obtain ⟨htype, hblock, hsize⟩ := hnode htaken
    have howner : Owner s' k ↔ Owner s k := by
      simp only [Owner, inodeTableSize_congr hparams, hfree, htype, hsize]
    simp only [ownedBlock, howner, hblock]
  · rw [ownedBlock_eq_none.mpr fun h => htaken h.2.1,
      ownedBlock_eq_none.mpr fun h => htaken (hfree ▸ h.2.1)]

theorem ownedBlock_of_free (h : s.freeinodeTs k = .FREE) : ownedBlock s k = none := by
  refine ownedBlock_eq_none.mpr fun howner => ?_
  have htaken := howner.2.1
  rw [h] at htaken
  cases htaken

theorem blockTaken_congr (hparams : s'.fsParams = s.fsParams) (hblocks : s'.freeBlocks = s.freeBlocks) :
    BlockTaken s' = BlockTaken s := by
  funext n
  simp only [BlockTaken, dataBlocks_congr hparams, hblocks]

theorem not_blockTaken_of_firstFree (h : firstFree s.freeBlocks s.dataBlocks = some b) :
    ¬ BlockTaken s b := by
  rintro ⟨c, hc, -, htaken⟩
  obtain rfl : b = c := by exact_mod_cast hc
  rw [firstFree_free h] at htaken
  cases htaken

theorem blockTaken_update_taken (hparams : s'.fsParams = s.fsParams)
    (hblocks : s'.freeBlocks = Function.update s.freeBlocks b .TAKEN) (hb : b < s.dataBlocks)
    {n : ℤ} : BlockTaken s' n ↔ n = b ∨ BlockTaken s n := by
  simp only [BlockTaken, dataBlocks_congr hparams, hblocks]
  constructor
  · rintro ⟨c, rfl, hc, htaken⟩
    by_cases hcb : c = b
    · exact .inl (by rw [hcb])
    · rw [Function.update_of_ne hcb] at htaken
      exact .inr ⟨c, rfl, hc, htaken⟩
  · rintro (rfl | ⟨c, rfl, hc, htaken⟩)
    · exact ⟨b, rfl, hb, Function.update_self ..⟩
    · refine ⟨c, rfl, hc, ?_⟩
      by_cases hcb : c = b
      · rw [hcb, Function.update_self]
      · rw [Function.update_of_ne hcb, htaken]

theorem blockTaken_update_free (hparams : s'.fsParams = s.fsParams)
    (hblocks : s'.freeBlocks = Function.update s.freeBlocks b .FREE) {n : ℤ} :
    BlockTaken s' n ↔ BlockTaken s n ∧ n ≠ b := by
  simp only [BlockTaken, dataBlocks_congr hparams, hblocks]
  constructor
  · rintro ⟨c, rfl, hc, htaken⟩
    have hcb : c ≠ b := by
      rintro rfl
      rw [Function.update_self] at htaken
      cases htaken
    rw [Function.update_of_ne hcb] at htaken
    exact ⟨⟨c, rfl, hc, htaken⟩, by exact_mod_cast hcb⟩
  · rintro ⟨⟨c, rfl, hc, htaken⟩, hne⟩
    refine ⟨c, rfl, hc, ?_⟩
    rw [Function.update_of_ne (by exact_mod_cast hne), htaken]

/-- Owners and marks stay in balance between the two states. -/
def BlockChange (s s' : State) : Prop :=
  Change (ownedBlock s) (BlockTaken s) (ownedBlock s') (BlockTaken s')

private theorem blockChange_keep (hparams : s'.fsParams = s.fsParams)
    (hblocks : s'.freeBlocks = s.freeBlocks) (hown : ∀ k, ownedBlock s' k = ownedBlock s k) :
    BlockChange s s' :=
  .keep (funext hown) fun _ => by rw [blockTaken_congr hparams hblocks]

/-- A step that changes neither inodes nor the allocation vectors. -/
theorem blockChange_congr (hparams : s'.fsParams = s.fsParams)
    (htable : s'.inodeTable = s.inodeTable) (hfree : s'.freeinodeTs = s.freeinodeTs)
    (hblocks : s'.freeBlocks = s.freeBlocks) : BlockChange s s' :=
  blockChange_keep hparams hblocks fun k =>
    ownedBlock_congr hparams (by rw [hfree]) fun _ => by simp [htable]

/-! ### Creating and naming inodes -/

private theorem ownedBlock_same {j : ℕ} (hparams : s'.fsParams = s.fsParams)
    (hfree : s'.freeinodeTs j = s.freeinodeTs j) (hnode : s'.inodeTable j = s.inodeTable j) :
    ownedBlock s' j = ownedBlock s j :=
  ownedBlock_congr hparams hfree fun _ => by simp [hnode]

theorem ownedBlock_discarded (hfree : s.freeinodeTs k = .FREE) (inode : Inode) (j : ℕ) :
    ownedBlock (discarded s k inode) j = ownedBlock s j := by
  refine ownedBlock_congr rfl rfl fun htaken => ?_
  have hjk : j ≠ k := by
    rintro rfl
    rw [hfree] at htaken
    cases htaken
  simp [discarded, Function.update_of_ne hjk]

theorem blockChange_discarded (hfree : s.freeinodeTs k = .FREE) (inode : Inode) :
    BlockChange s (discarded s k inode) :=
  blockChange_keep rfl rfl (ownedBlock_discarded hfree inode)

/-- A new file owns nothing. -/
theorem blockChange_newInode (hfree : s.freeinodeTs k = .FREE) (hk : k ≠ 0) :
    BlockChange s { newInode s k .T_FILE with fsData := m } := by
  refine blockChange_keep rfl rfl fun j => ?_
  by_cases hj : j = k
  · subst hj
    rw [ownedBlock_of_free hfree, ownedBlock_eq_none]
    simp [Owner, newInode, Inode.new, hk, rootDirInum]
  · exact ownedBlock_same rfl (by simp [newInode, Function.update_of_ne hj])
      (by simp [newInode, Function.update_of_ne hj])

/-- A new symbolic link owns the block allocated for its target. -/
theorem blockChange_linkInode (hk : firstFree s.freeinodeTs s.inodeTableSize = some k)
    (hb : firstFree s.freeBlocks s.dataBlocks = some b) :
    BlockChange s { linkInode s k b t with fsData := m } := by
  refine .acquire k b (ownedBlock_of_free (firstFree_free hk)) (not_blockTaken_of_firstFree hb)
    ?_ (fun j hj => ?_) fun n =>
      blockTaken_update_taken (by rfl) (by rfl) (firstFree_lt hb)
  · refine ownedBlock_eq_some.mpr ⟨⟨firstFree_lt hk, ?_, ?_⟩, ?_⟩ <;>
      simp [linkInode, newInode, Inode.new]
  · exact ownedBlock_same rfl (by simp [linkInode, newInode, Function.update_of_ne hj])
      (by simp [linkInode, Function.update_of_ne hj])

/-- The roll-back of a failed `tfs_sym_link` abandons the block. -/
theorem owned_linkDiscarded (h : Owned s) (hfree : s.freeinodeTs k = .FREE)
    (hb : firstFree s.freeBlocks s.dataBlocks = some b) : Owned (linkDiscarded s k b t) := by
  refine Owns.mono h (fun j n hj => ?_) fun n hn =>
    (blockTaken_update_taken (s := s) (by rfl) (by rfl) (firstFree_lt hb)).mpr (.inr hn)
  exact (ownedBlock_discarded hfree _ j).symm.trans hj

theorem blockChange_linked : BlockChange s (linked s k i sub) := by
  refine blockChange_keep rfl rfl fun j => ownedBlock_congr rfl rfl fun _ => ?_
  by_cases hj : j = k
  · subst hj
    simp [linked]
  · simp [linked, Function.update_of_ne hj]

/-! ### Removing names -/

theorem blockChange_unlinked : BlockChange s (unlinked s k i) := by
  refine blockChange_keep rfl rfl fun j => ownedBlock_congr rfl rfl fun _ => ?_
  by_cases hj : j = k
  · subst hj
    simp [unlinked, cleared, setInode]
  · simp [unlinked, cleared, setInode, Function.update_of_ne hj]

private theorem ownedBlock_freed_of_ne {j : ℕ} (hj : j ≠ k) :
    ownedBlock (freed (cleared s i) k) j = ownedBlock s j := by
  rw [freed_eq]
  exact ownedBlock_same rfl (Function.update_of_ne hj _ _) rfl

private theorem ownedBlock_freed_self : ownedBlock (freed (cleared s i) k) k = none := by
  rw [freed_eq]
  exact ownedBlock_of_free (Function.update_self ..)

/-- Deleting a file gives back the block it owns. -/
theorem blockChange_freed (h : Owned s) (hk : 0 < k) (hlt : k < s.inodeTableSize)
    (htaken : s.freeinodeTs k = .TAKEN) (htype : (s.inodeTable k).iNodeType = .T_FILE) :
    BlockChange s (freed (cleared s i) k) := by
  by_cases hsize : 0 < (s.inodeTable k).iSize
  · have howns : ownedBlock s k = some (s.inodeTable k).iDataBlock :=
      ownedBlock_eq_some.mpr ⟨⟨hlt, htaken, .inr (.inl ⟨htype, hsize⟩)⟩, rfl⟩
    refine .release k _ howns ownedBlock_freed_self (fun j => ownedBlock_freed_of_ne)
      fun n => ?_
    obtain ⟨b, hb, hblt, -⟩ := h.backed k _ howns
    rw [hb, freed_eq]
    refine blockTaken_update_free (s := s) (by rfl) ?_
    change (if 0 < (s.inodeTable k).iSize then
      blocksWithout s (s.inodeTable k).iDataBlock else s.freeBlocks) = _
    rw [if_pos hsize, hb, blocksWithout_natCast hblt]
  · refine blockChange_keep (by rw [freed_eq]; rfl) ?_ fun j => ?_
    · rw [freed_eq]
      exact if_neg hsize
    · by_cases hj : j = k
      · subst hj
        rw [ownedBlock_freed_self, eq_comm, ownedBlock_eq_none]
        simp [Owner, htype, hsize, rootDirInum, hk.ne']
      · exact ownedBlock_freed_of_ne hj

/-- Deleting any inode keeps ownership exclusive, though it can abandon a block. -/
theorem owned_freed (h : Owned s) (hk : 0 < k) (hlt : k < s.inodeTableSize)
    (htaken : s.freeinodeTs k = .TAKEN)
    (htype : (s.inodeTable k).iNodeType = .T_LINK → (s.inodeTable k).iSize = 0)
    (hdir : (s.inodeTable k).iNodeType ≠ .T_DIRECTORY) : Owned (freed (cleared s i) k) := by
  cases hnode : (s.inodeTable k).iNodeType with
  | T_DIRECTORY => exact absurd hnode hdir
  | T_FILE => exact Owns.change h (blockChange_freed h hk hlt htaken hnode)
  | T_LINK =>
    have hblocks : (freed (cleared s i) k).freeBlocks = s.freeBlocks := by
      rw [freed_eq]
      exact if_neg (by rw [show ((cleared s i).inodeTable k).iSize = 0 from htype hnode]; omega)
    refine Owns.mono h (fun j n hj => ?_) fun n hn => ?_
    · by_cases hjk : j = k
      · subst hjk
        rw [ownedBlock_freed_self] at hj
        cases hj
      · exact (ownedBlock_freed_of_ne hjk).symm.trans hj
    · rw [blockTaken_congr (s := s) (by rw [freed_eq]; rfl) hblocks]
      exact hn

/-! ### Truncating and writing -/

/-- Truncating a non-empty file gives back its block. -/
theorem blockChange_truncate (h : Owned s) (hk : 0 < k) (hlt : k < s.inodeTableSize)
    (htaken : s.freeinodeTs k = .TAKEN) (htype : (s.inodeTable k).iNodeType = .T_FILE)
    (hsize : 0 < (s.inodeTable k).iSize) : BlockChange s (truncate s k) := by
  have howns : ownedBlock s k = some (s.inodeTable k).iDataBlock :=
    ownedBlock_eq_some.mpr ⟨⟨hlt, htaken, .inr (.inl ⟨htype, hsize⟩)⟩, rfl⟩
  obtain ⟨b, hb, hblt, -⟩ := h.backed k _ howns
  rw [truncate_eq]
  refine .release k _ howns ?_ (fun j hj => ?_) fun n => ?_
  · rw [ownedBlock_eq_none]
    simp [Owner, htype, rootDirInum, hk.ne']
  · exact ownedBlock_same rfl rfl (Function.update_of_ne hj _ _)
  · rw [hb]
    exact blockTaken_update_free (s := s) (by rfl) (blocksWithout_natCast hblt)

/-- The first write to a file acquires its block; later ones change nothing. -/
theorem blockChange_written (hk : 0 < k) (hlt : k < s.inodeTableSize)
    (htaken : s.freeinodeTs k = .TAKEN) (htype : (s.inodeTable k).iNodeType = .T_FILE)
    (hb : WriteBlock s k b) (hn : 0 < n) {buffer : ℕ → UInt8} :
    BlockChange s (written s fh k b n buffer) := by
  have hother : ∀ j, j ≠ k → ownedBlock (written s fh k b n buffer) j = ownedBlock s j :=
    fun j hj => ownedBlock_same rfl rfl (Function.update_of_ne hj _ _)
  have hgrown : 0 < max (s.inodeTable k).iSize ((s.openFileTable fh).ofOffset + n) := by omega
  unfold WriteBlock at hb
  split at hb
  · rename_i hsize
    refine .acquire k b ?_ (not_blockTaken_of_firstFree hb) ?_ hother fun c => ?_
    · simp [ownedBlock_eq_none, Owner, htype, hsize, rootDirInum, hk.ne']
    · refine ownedBlock_eq_some.mpr ⟨⟨hlt, htaken, .inr (.inl ?_)⟩, ?_⟩
      · simpa [written, htype] using hgrown
      · simp [written]
    · exact blockTaken_update_taken (by rfl) (if_pos hsize) (firstFree_lt hb)
  · rename_i hsize
    refine blockChange_keep rfl (if_neg hsize) fun j => ?_
    by_cases hj : j = k
    · subst hj
      refine ownedBlock_congr rfl rfl fun _ => ?_
      simp only [written, Function.update_self, hb.1, true_and, hgrown, true_iff]
      omega
    · exact hother j hj

/-! ### After `tfs_init` -/

theorem ownedBlock_initState {heap : Heap} {params : TfsParams} (hpos : 0 < params.maxInodeCount)
    (j : ℕ) : ownedBlock (initState heap params) j = if j = 0 then some 0 else none := by
  split
  · rename_i hj
    subst hj
    exact ownedBlock_eq_some.mpr ⟨⟨hpos, rfl, .inl rfl⟩, rfl⟩
  · rename_i hj
    refine ownedBlock_of_free ?_
    change Function.update (fun _ => AllocationState.FREE) 0 .TAKEN j = .FREE
    rw [Function.update_of_ne hj]

theorem blockTaken_initState {heap : Heap} {params : TfsParams} (hpos : 0 < params.maxBlockCount)
    (n : ℤ) : BlockTaken (initState heap params) n ↔ n = 0 := by
  constructor
  · rintro ⟨b, rfl, -, htaken⟩
    by_contra hb
    change Function.update (fun _ => AllocationState.FREE) 0 .TAKEN b = .TAKEN at htaken
    rw [Function.update_of_ne (by exact_mod_cast hb)] at htaken
    cases htaken
  · rintro rfl
    exact ⟨0, rfl, hpos, rfl⟩

/-- After `tfs_init` the root directory owns the one block in use. -/
theorem tfsInit_owned (h : Initialised s) :
    Owned s ∧ NoLeak (ownedBlock s) (BlockTaken s) := by
  obtain ⟨heap, params, hinodes, hblocks, rfl⟩ := initialised_iff.mp h
  refine ⟨⟨fun i n hi => ?_, fun i j n hi hj => ?_⟩, fun n hn => ⟨0, ?_⟩⟩
  · rw [ownedBlock_initState hinodes] at hi
    split at hi
    · exact (blockTaken_initState hblocks n).mpr (Option.some_inj.mp hi).symm
    · cases hi
  · rw [ownedBlock_initState hinodes] at hi hj
    split at hi
    · rename_i hi0
      split at hj
      · rename_i hj0
        rw [hi0, hj0]
      · cases hj
    · cases hi
  · rw [ownedBlock_initState hinodes, (blockTaken_initState hblocks n).mp hn]
    rfl

end TfsBroker.Fs
