import TfsBroker.Fs.Operations

/-!
# What each operation of `fs/` can do

One inversion lemma for each operation: from a call that returns, all the ways
it can have gone and the state it left. The later proofs use these and do not
unfold the operations again.
-/

namespace TfsBroker.Fs

open State

variable {s s' : State} {name target linkName : Option CString} {mode k b fh : ℕ}

/-- What the operations need of the root inode. -/
structure RootOk (s : State) : Prop where
  root_valid : 0 < s.inodeTableSize
  block_valid : 0 < s.dataBlocks
  root_type : (s.inodeTable 0).iNodeType = .T_DIRECTORY
  root_block : (s.inodeTable 0).iDataBlock = 0

/-- Entry `i` of the root directory is live under `name` and refers to `k`. -/
def HasName (s : State) (i : ℕ) (name : CString) (k : ℤ) : Prop :=
  i < s.maxDirEntries ∧ Directory.findEntry s.fsData 0 s.maxDirEntries name = some i ∧
    Directory.dInumber s.fsData 0 i = k

theorem validInumber_eq_true {inumber : ℤ} :
    validInumber s inumber = true ↔ 0 ≤ inumber ∧ inumber < s.inodeTableSize := by
  simp [validInumber]

theorem validBlockNumber_eq_true {n : ℤ} :
    validBlockNumber s n = true ↔ 0 ≤ n ∧ n < s.dataBlocks := by
  simp [validBlockNumber]

theorem inodeGet_eq_some {inumber : ℤ} :
    inodeGet s inumber = some k ↔ inumber = k ∧ k < s.inodeTableSize := by
  unfold inodeGet
  split
  · rename_i h
    rw [validInumber_eq_true] at h
    rw [Option.some_inj]
    omega
  · rename_i h
    rw [validInumber_eq_true] at h
    simp only [reduceCtorEq, false_iff]
    omega

theorem dataBlockGet_eq_some {n : ℤ} {a : ℕ} :
    dataBlockGet s n = some a ↔ ∃ b : ℕ, n = b ∧ b < s.dataBlocks ∧ a = b * s.blockSize := by
  unfold dataBlockGet
  split
  · rename_i h
    rw [validBlockNumber_eq_true] at h
    rw [Option.some_inj]
    constructor
    · rintro rfl
      exact ⟨n.toNat, by omega, by omega, rfl⟩
    · rintro ⟨b, rfl, -, rfl⟩
      rfl
  · rename_i h
    rw [validBlockNumber_eq_true] at h
    simp only [reduceCtorEq, false_iff, not_exists, not_and]
    intro b hb hlt
    omega

theorem RootOk.inodeGet_root (h : RootOk s) : inodeGet s rootDirInum = some 0 :=
  inodeGet_eq_some.mpr ⟨rfl, h.root_valid⟩

theorem RootOk.dataBlockGet_root (h : RootOk s) :
    dataBlockGet s (s.inodeTable 0).iDataBlock = some 0 :=
  dataBlockGet_eq_some.mpr ⟨0, h.root_block, h.block_valid, (Nat.zero_mul _).symm⟩

theorem RootOk.findInDir_eq (h : RootOk s) {sub : CString} :
    findInDir s 0 sub = (Directory.findEntry s.fsData 0 s.maxDirEntries sub).elim (-1)
      fun i => Directory.dInumber s.fsData 0 i := by
  simp only [findInDir, h.root_type, ne_eq, not_true_eq_false, if_false, h.dataBlockGet_root]
  cases Directory.findEntry s.fsData 0 s.maxDirEntries sub <;> rfl

theorem RootOk.tfsLookup_eq (h : RootOk s) :
    tfsLookup s name 0 = if validPathname name then findInDir s 0 (subName name) else -1 := by
  simp only [tfsLookup, h.root_type, ne_eq, not_true_eq_false, if_false]

/-- A lookup that does not answer -1 matched a live entry. -/
theorem RootOk.lookup_hit (h : RootOk s) {inum : ℤ} (hl : tfsLookup s name 0 = inum)
    (hne : inum ≠ -1) :
    validPathname name = true ∧ ∃ i, HasName s i (subName name) inum := by
  rw [h.tfsLookup_eq] at hl
  split at hl
  · rename_i hvalid
    rw [h.findInDir_eq] at hl
    refine ⟨hvalid, ?_⟩
    cases hfind : Directory.findEntry s.fsData 0 s.maxDirEntries (subName name) with
    | none =>
      rw [hfind] at hl
      exact absurd hl.symm hne
    | some i =>
      rw [hfind] at hl
      rw [Directory.findEntry, List.find?_range_eq_some, List.mem_range] at hfind
      refine ⟨i, hfind.2.1, ?_, hl⟩
      rw [Directory.findEntry, List.find?_range_eq_some, List.mem_range]
      exact hfind
  · exact absurd hl.symm hne

/-- A live entry never refers to -1. -/
theorem live_of_findEntry {i : ℕ} {sub : CString}
    (h : Directory.findEntry s.fsData 0 s.maxDirEntries sub = some i) :
    Directory.Live s.fsData 0 i := by
  rw [Directory.findEntry, List.find?_range_eq_some, Bool.and_eq_true, bne_iff_ne] at h
  exact h.1.1

/-- A lookup of a valid path that answers -1 matched no entry. -/
theorem RootOk.lookup_miss (h : RootOk s) (hl : tfsLookup s name 0 = -1)
    (hvalid : validPathname name = true) :
    Directory.findEntry s.fsData 0 s.maxDirEntries (subName name) = none := by
  rw [h.tfsLookup_eq, if_pos hvalid, h.findInDir_eq] at hl
  cases hfind : Directory.findEntry s.fsData 0 s.maxDirEntries (subName name) with
  | none => rfl
  | some i =>
    rw [hfind] at hl
    exact absurd hl (live_of_findEntry hfind)

/-! ### Creating an inode and giving it back -/

/-- The inode a file or symbolic link starts with. -/
def Inode.new (iType : InodeType) : Inode := ⟨iType, 1, 0, -1⟩

/-- The state after `inode_create` of a file or a symbolic link in slot `k`. -/
def newInode (s : State) (k : ℕ) (iType : InodeType) : State :=
  { s with
    inodeTable := Function.update s.inodeTable k (.new iType)
    inodeRwl := Function.update s.inodeRwl k .unlocked
    freeinodeTs := Function.update s.freeinodeTs k .TAKEN }

/-- The same slot after the `inode_delete` that rolls the creation back. -/
def discarded (s : State) (k : ℕ) (i : Inode) : State :=
  { s with
    inodeTable := Function.update s.inodeTable k i
    inodeRwl := Function.update s.inodeRwl k .unlocked }

theorem inodeCreate_eq {iType : InodeType} (ht : iType ≠ .T_DIRECTORY) :
    inodeCreate s iType =
      match firstFree s.freeinodeTs s.inodeTableSize with
      | none => (none, s)
      | some k => (some k, newInode s k iType) := by
  unfold inodeCreate inodeAlloc
  cases firstFree s.freeinodeTs s.inodeTableSize with
  | none => rfl
  | some k =>
    cases iType with
    | T_DIRECTORY => exact absurd rfl ht
    | T_FILE | T_LINK =>
      simp [newInode, setInode, setRwl, setFreeinode, Inode.new]

/-- Deleting an inode of size 0 only marks it free. -/
theorem inodeDelete_of_size_zero (hk : k < s.inodeTableSize) (ht : s.freeinodeTs k = .TAKEN)
    (hsize : (s.inodeTable k).iSize = 0) : inodeDelete s k = some (s.setFreeinode k .FREE) := by
  have hvalid : validInumber s k = true := validInumber_eq_true.mpr ⟨by omega, by omega⟩
  simp [inodeDelete, hvalid, ht, hsize]

private theorem update_taken_free {v : ℕ → AllocationState} (h : v k = .FREE) :
    Function.update (Function.update v k .TAKEN) k .FREE = v := by
  rw [Function.update_idem, ← h, Function.update_eq_self]

theorem inodeDelete_newInode {iType : InodeType} (hk : k < s.inodeTableSize)
    (hfree : s.freeinodeTs k = .FREE) :
    (inodeDelete (newInode s k iType) k).getD (newInode s k iType)
      = discarded s k (.new iType) := by
  rw [inodeDelete_of_size_zero (by exact hk) (by simp [newInode]) (by simp [newInode, Inode.new])]
  simp only [Option.getD_some, setFreeinode, newInode, update_taken_free hfree]
  rfl

/-! ### Under the root lock -/

theorem RootOk.of_newInode {iType : InodeType} (h : RootOk s) (hk : k ≠ 0) :
    RootOk (newInode s k iType) where
  root_valid := h.root_valid
  block_valid := h.block_valid
  root_type := by simpa [newInode, Function.update_of_ne hk.symm] using h.root_type
  root_block := by simpa [newInode, Function.update_of_ne hk.symm] using h.root_block

/-- `add_dir_entry` on the root either refuses the name or finds no room, or fills
the first free entry with a name of 1 to 39 bytes. -/
theorem RootOk.addDirEntry_cases (h : RootOk s) {sub : CString} {inum : ℤ} {r : Option State}
    (hadd : addDirEntry s 0 sub inum = .ret r) :
    (r = none ∧ (sub.strlen = 0 ∨ maxFileName - 1 < sub.strlen ∨
      Directory.freeEntry s.fsData 0 s.maxDirEntries = none)) ∨
    ∃ i, 0 < sub.strlen ∧ sub.strlen < maxFileName ∧
      Directory.freeEntry s.fsData 0 s.maxDirEntries = some i ∧
      r = some { s with fsData := Directory.fillEntry s.fsData 0 i sub inum } := by
  unfold addDirEntry at hadd
  split at hadd
  · rename_i hlen
    exact .inl ⟨(Outcome.ret.inj hadd).symm, hlen.imp_right .inl⟩
  · rename_i hlen
    simp only [h.root_type, ne_eq, not_true_eq_false, if_false, h.dataBlockGet_root] at hadd
    have hadd := Outcome.ret.inj hadd
    cases hfree : Directory.freeEntry s.fsData 0 s.maxDirEntries with
    | none =>
      rw [hfree] at hadd
      exact .inl ⟨hadd.symm, .inr (.inr rfl)⟩
    | some i =>
      rw [hfree] at hadd
      refine .inr ⟨i, by omega, ?_, rfl, hadd.symm⟩
      have hf : maxFileName = 40 := rfl
      omega

/-- `add_dir_entry` on the root. -/
theorem RootOk.addDirEntry_eq (h : RootOk s) (sub : CString) (inum : ℤ) :
    addDirEntry s 0 sub inum = .ret (if sub.strlen = 0 ∨ maxFileName - 1 < sub.strlen then none
      else (Directory.freeEntry s.fsData 0 s.maxDirEntries).map fun i =>
        { s with fsData := Directory.fillEntry s.fsData 0 i sub inum }) := by
  unfold addDirEntry
  split
  · rfl
  · simp only [h.root_type, ne_eq, not_true_eq_false, if_false, h.dataBlockGet_root]

theorem RootOk.addDirEntry_ret (h : RootOk s) (sub : CString) (inum : ℤ) :
    ∃ r, addDirEntry s 0 sub inum = .ret r :=
  ⟨_, h.addDirEntry_eq sub inum⟩

/-- The ways `tfs_open` can leave the root lock. -/
theorem RootOk.tfsOpenRoot_cases (h : RootOk s) (h0 : s.freeinodeTs 0 = .TAKEN) {r : OpenRoot}
    (hopen : tfsOpenRoot s name mode = .ret (r, s')) :
    (r = .failed ∧ s' = s) ∨
    (∃ k : ℕ, r = .found k ∧ s' = s ∧ tfsLookup s name 0 = k) ∨
    ∃ k, firstFree s.freeinodeTs s.inodeTableSize = some k ∧ validPathname name = true ∧
      tfsLookup s name 0 < 0 ∧
      ((r = .failed ∧ s' = discarded s k (.new .T_FILE)) ∨
        ∃ i, 0 < (subName name).strlen ∧ (subName name).strlen < maxFileName ∧
          Directory.freeEntry s.fsData 0 s.maxDirEntries = some i ∧ r = .created k ∧
          s' = { newInode s k .T_FILE with
            fsData := Directory.fillEntry s.fsData 0 i (subName name) k }) := by
  unfold tfsOpenRoot at hopen
  split at hopen
  · rename_i hvalid
    simp only [h.inodeGet_root] at hopen
    split at hopen
    · rename_i hnonneg
      obtain ⟨rfl, rfl⟩ := Prod.mk.inj (Outcome.ret.inj hopen)
      exact .inr (.inl ⟨_, rfl, rfl, by omega⟩)
    · rename_i hneg
      split at hopen
      · rw [inodeCreate_eq (by decide)] at hopen
        cases hfirst : firstFree s.freeinodeTs s.inodeTableSize with
        | none =>
          rw [hfirst] at hopen
          obtain ⟨rfl, rfl⟩ := Prod.mk.inj (Outcome.ret.inj hopen)
          exact .inl ⟨rfl, rfl⟩
        | some k =>
          rw [hfirst] at hopen
          refine .inr (.inr ⟨k, rfl, hvalid, by omega, ?_⟩)
          obtain ⟨r', hadd, hrest⟩ := Outcome.bind_eq_ret.mp hopen
          rcases (h.of_newInode (firstFree_ne hfirst h0)).addDirEntry_cases hadd with
            ⟨rfl, -⟩ | ⟨i, hpos, hlen, hfree, rfl⟩
          · obtain ⟨rfl, rfl⟩ := Prod.mk.inj (Outcome.ret.inj hrest)
            exact .inl ⟨rfl, inodeDelete_newInode (firstFree_lt hfirst) (firstFree_free hfirst)⟩
          · obtain ⟨rfl, rfl⟩ := Prod.mk.inj (Outcome.ret.inj hrest)
            exact .inr ⟨i, hpos, hlen, hfree, rfl, rfl⟩
      · obtain ⟨rfl, rfl⟩ := Prod.mk.inj (Outcome.ret.inj hopen)
        exact .inl ⟨rfl, rfl⟩
  · obtain ⟨rfl, rfl⟩ := Prod.mk.inj (Outcome.ret.inj hopen)
    exact .inl ⟨rfl, rfl⟩

/-- The slot `k` once it is a symbolic link whose target is stored in block `b`. -/
def linkInode (s : State) (k b : ℕ) (target : CString) : State :=
  { newInode s k .T_LINK with
    inodeTable := Function.update s.inodeTable k { Inode.new .T_LINK with iDataBlock := b }
    freeBlocks := Function.update s.freeBlocks b .TAKEN
    fsData := s.fsData.memcpy (b * s.blockSize) (target.strlen + 1) target.byteAt }

/-- What a failed `tfs_sym_link` leaves when the directory had no room: the inode
is given back, its block is not. -/
def linkDiscarded (s : State) (k b : ℕ) (target : CString) : State :=
  { discarded s k { Inode.new .T_LINK with iDataBlock := b } with
    freeBlocks := Function.update s.freeBlocks b .TAKEN
    fsData := s.fsData.memcpy (b * s.blockSize) (target.strlen + 1) target.byteAt }

theorem RootOk.of_linkInode {t : CString} (h : RootOk s) (hk : k ≠ 0) :
    RootOk (linkInode s k b t) where
  root_valid := h.root_valid
  block_valid := h.block_valid
  root_type := by simpa [linkInode, Function.update_of_ne hk.symm] using h.root_type
  root_block := by simpa [linkInode, Function.update_of_ne hk.symm] using h.root_block

theorem inodeDelete_linkInode {t : CString} (hk : k < s.inodeTableSize)
    (hfree : s.freeinodeTs k = .FREE) :
    (inodeDelete (linkInode s k b t) k).getD (linkInode s k b t) = linkDiscarded s k b t := by
  rw [inodeDelete_of_size_zero (by exact hk) (by simp [linkInode, newInode])
    (by simp [linkInode, newInode, Inode.new])]
  simp only [Option.getD_some, setFreeinode, linkInode, newInode, update_taken_free hfree]
  rfl

/-- The ways `tfs_sym_link` can go. -/
theorem RootOk.tfsSymLink_cases (h : RootOk s) (h0 : s.freeinodeTs 0 = .TAKEN) {r : RootExit}
    (hlink : tfsSymLink s target linkName = .ret (r, s')) :
    (r = { ret := -1 } ∧ s' = s ∧ (validPathname linkName = true → tfsLookup s target 0 ≠ -1 →
      tfsLookup s linkName 0 = -1 → firstFree s.freeinodeTs s.inodeTableSize = none)) ∨
    ∃ k, firstFree s.freeinodeTs s.inodeTableSize = some k ∧ validPathname linkName = true ∧
      tfsLookup s target 0 ≠ -1 ∧ tfsLookup s linkName 0 = -1 ∧
      ((r = { ret := -1 } ∧ firstFree s.freeBlocks s.dataBlocks = none ∧
          s' = discarded s k (.new .T_LINK)) ∨
        ∃ b t, firstFree s.freeBlocks s.dataBlocks = some b ∧ target = some t ∧
          ((r = { ret := -1 } ∧ s' = linkDiscarded s k b t ∧
              (maxFileName - 1 < (subName linkName).strlen ∨
                Directory.freeEntry (linkInode s k b t).fsData 0 s.maxDirEntries = none)) ∨
            ∃ i, 0 < (subName linkName).strlen ∧ (subName linkName).strlen < maxFileName ∧
              Directory.freeEntry (linkInode s k b t).fsData 0 s.maxDirEntries = some i ∧
              r = { ret := 0 } ∧
              s' = { linkInode s k b t with
                fsData := Directory.fillEntry (linkInode s k b t).fsData 0 i (subName linkName)
                  k })) := by
  unfold tfsSymLink at hlink
  split at hlink
  · rename_i hvalid
    simp only [h.inodeGet_root] at hlink
    split at hlink
    · obtain ⟨rfl, rfl⟩ := Prod.mk.inj (Outcome.ret.inj hlink)
      rename_i htarget
      exact .inl ⟨rfl, rfl, fun _ hne => absurd htarget hne⟩
    rename_i htarget
    split at hlink
    · obtain ⟨rfl, rfl⟩ := Prod.mk.inj (Outcome.ret.inj hlink)
      rename_i hname
      exact .inl ⟨rfl, rfl, fun _ _ heq => absurd heq hname⟩
    rename_i hname
    rw [inodeCreate_eq (by decide)] at hlink
    cases hfirst : firstFree s.freeinodeTs s.inodeTableSize with
    | none =>
      rw [hfirst] at hlink
      obtain ⟨rfl, rfl⟩ := Prod.mk.inj (Outcome.ret.inj hlink)
      exact .inl ⟨rfl, rfl, fun _ _ _ => rfl⟩
    | some k =>
      rw [hfirst] at hlink
      refine .inr ⟨k, rfl, hvalid, htarget, not_not.mp hname, ?_⟩
      have hk := firstFree_lt hfirst
      have hfree := firstFree_free hfirst
      have hblocks : firstFree (newInode s k .T_LINK).freeBlocks (newInode s k .T_LINK).dataBlocks
          = firstFree s.freeBlocks s.dataBlocks := rfl
      simp only [dataBlockAlloc, hblocks] at hlink
      cases hb : firstFree s.freeBlocks s.dataBlocks with
      | none =>
        simp only [hb, Option.map_none] at hlink
        obtain ⟨rfl, rfl⟩ := Prod.mk.inj (Outcome.ret.inj hlink)
        exact .inl ⟨rfl, rfl, inodeDelete_newInode hk hfree⟩
      | some b =>
        have hget : dataBlockGet ((newInode s k .T_LINK).setFreeBlock b .TAKEN) b
            = some (b * s.blockSize) :=
          dataBlockGet_eq_some.mpr ⟨b, rfl, firstFree_lt hb, rfl⟩
        simp only [hb, Option.map_some, hget] at hlink
        cases target with
        | none => exact absurd hlink (by simp)
        | some t =>
          refine .inr ⟨b, t, rfl, rfl, ?_⟩
          simp only at hlink
          split at hlink
          · obtain ⟨r', hadd, hrest⟩ := Outcome.bind_eq_ret.mp hlink
            have hstate : setInode
                { (newInode s k .T_LINK).setFreeBlock b .TAKEN with
                  fsData := ((newInode s k .T_LINK).setFreeBlock b .TAKEN).fsData.memcpy
                    (b * s.blockSize) (t.strlen + 1) t.byteAt } k
                { (newInode s k .T_LINK).inodeTable k with iDataBlock := b } = linkInode s k b t := by
              simp [linkInode, newInode, setInode, setFreeBlock]
            change addDirEntry (setInode
                { (newInode s k .T_LINK).setFreeBlock b .TAKEN with
                  fsData := ((newInode s k .T_LINK).setFreeBlock b .TAKEN).fsData.memcpy
                    (b * s.blockSize) (t.strlen + 1) t.byteAt } k
                { (newInode s k .T_LINK).inodeTable k with iDataBlock := b }) 0 _ _ = _ at hadd
            rw [hstate] at hadd
            rcases (h.of_linkInode (firstFree_ne hfirst h0)).addDirEntry_cases hadd with
              ⟨rfl, hwhy⟩ | ⟨i, hpos, hlen, hroom, rfl⟩
            · obtain ⟨rfl, rfl⟩ := Prod.mk.inj (Outcome.ret.inj hrest)
              refine .inl ⟨rfl, ?_, hwhy.resolve_left (strlen_subName_pos hvalid).ne'⟩
              exact (congrArg (fun u => (inodeDelete u k).getD u) hstate).trans
                (inodeDelete_linkInode hk hfree)
            · obtain ⟨rfl, rfl⟩ := Prod.mk.inj (Outcome.ret.inj hrest)
              exact .inr ⟨i, hpos, hlen, hroom, rfl, rfl⟩
          · exact absurd hlink (by simp)
  · rename_i hinvalid
    obtain ⟨rfl, rfl⟩ := Prod.mk.inj (Outcome.ret.inj hlink)
    exact .inl ⟨rfl, rfl, fun hvalid => absurd hvalid hinvalid⟩

/-- The state after `tfs_link` entered a further name for the inode `k`. -/
def linked (s : State) (k i : ℕ) (name : CString) : State :=
  { s with
    fsData := Directory.fillEntry s.fsData 0 i name k
    inodeTable := Function.update s.inodeTable k
      { s.inodeTable k with iLinksCount := ((s.inodeTable k).iLinksCount + 1) % 4294967296 } }

/-- The ways `tfs_link` can go. -/
theorem RootOk.tfsLink_cases (h : RootOk s) {r : RootExit}
    (hlink : tfsLink s target linkName = .ret (r, s')) :
    (r.ret = -1 ∧ r.keepsLocks = false ∧ s' = s) ∨
    ∃ k i : ℕ, validPathname linkName = true ∧ tfsLookup s target 0 = k ∧
      tfsLookup s linkName 0 = -1 ∧ (s.inodeTable k).iNodeType ≠ .T_LINK ∧
      0 < (subName linkName).strlen ∧ (subName linkName).strlen < maxFileName ∧
      Directory.freeEntry s.fsData 0 s.maxDirEntries = some i ∧
      r = { ret := 0, locked := some k } ∧ s' = linked s k i (subName linkName) := by
  unfold tfsLink at hlink
  split at hlink
  · rename_i hvalid
    simp only [h.inodeGet_root] at hlink
    split at hlink
    · obtain ⟨rfl, rfl⟩ := Prod.mk.inj (Outcome.ret.inj hlink)
      exact .inl ⟨rfl, rfl, rfl⟩
    split at hlink
    · obtain ⟨rfl, rfl⟩ := Prod.mk.inj (Outcome.ret.inj hlink)
      exact .inl ⟨rfl, rfl, rfl⟩
    rename_i hname
    cases hget : inodeGet s (tfsLookup s target 0) with
    | none =>
      rw [hget] at hlink
      exact absurd hlink (by simp)
    | some k =>
      simp only [hget] at hlink
      split at hlink
      · obtain ⟨rfl, rfl⟩ := Prod.mk.inj (Outcome.ret.inj hlink)
        exact .inl ⟨rfl, rfl, rfl⟩
      rename_i htype
      obtain ⟨r', hadd, hrest⟩ := Outcome.bind_eq_ret.mp hlink
      rcases h.addDirEntry_cases hadd with ⟨rfl, -⟩ | ⟨i, hpos, hlen, hfree, rfl⟩
      · obtain ⟨rfl, rfl⟩ := Prod.mk.inj (Outcome.ret.inj hrest)
        exact .inl ⟨rfl, rfl, rfl⟩
      · obtain ⟨rfl, rfl⟩ := Prod.mk.inj (Outcome.ret.inj hrest)
        obtain ⟨hk, -⟩ := inodeGet_eq_some.mp hget
        refine .inr ⟨k, i, hvalid, hk, not_not.mp hname, htype, hpos, hlen, hfree, rfl, ?_⟩
        rw [hk]
        rfl
  · obtain ⟨rfl, rfl⟩ := Prod.mk.inj (Outcome.ret.inj hlink)
    exact .inl ⟨rfl, rfl, rfl⟩

/-! ### Removing a name -/

/-- `free_blocks` after `data_block_free`. -/
def blocksWithout (s : State) (n : ℤ) : ℕ → AllocationState :=
  if validBlockNumber s n then Function.update s.freeBlocks n.toNat .FREE else s.freeBlocks

theorem dataBlockFree_eq {n : ℤ} :
    dataBlockFree s n = { s with freeBlocks := blocksWithout s n } := by
  unfold dataBlockFree blocksWithout
  split <;> rfl

theorem blocksWithout_natCast (hb : b < s.dataBlocks) :
    blocksWithout s b = Function.update s.freeBlocks b .FREE :=
  if_pos (validBlockNumber_eq_true.mpr ⟨by omega, by omega⟩)

/-- Only the block given back changes. -/
theorem blocksWithout_of_ne {n : ℤ} (h : n ≠ b) : blocksWithout s n b = s.freeBlocks b := by
  unfold blocksWithout
  split
  · rename_i hvalid
    rw [validBlockNumber_eq_true] at hvalid
    exact Function.update_of_ne (by omega) _ _
  · rfl

/-- The state after `inode_delete` on the `TAKEN` inode `k`. -/
def freed (s : State) (k : ℕ) : State :=
  (if 0 < (s.inodeTable k).iSize then dataBlockFree s (s.inodeTable k).iDataBlock
    else s).setFreeinode k .FREE

theorem freed_eq : freed s k = { s with
    freeBlocks := if 0 < (s.inodeTable k).iSize then blocksWithout s (s.inodeTable k).iDataBlock
      else s.freeBlocks
    freeinodeTs := Function.update s.freeinodeTs k .FREE } := by
  unfold freed
  split
  · rw [dataBlockFree_eq]
    rfl
  · rfl

theorem inodeDelete_eq (hk : k < s.inodeTableSize) :
    inodeDelete s k = if s.freeinodeTs k = .FREE then none else some (freed s k) := by
  have hvalid : validInumber s k = true := validInumber_eq_true.mpr ⟨by omega, by omega⟩
  simp only [inodeDelete, hvalid, if_true, Int.toNat_natCast, freed]

/-- The state without the directory entry `i`. -/
def cleared (s : State) (i : ℕ) : State :=
  { s with fsData := Directory.clearEntry s.fsData 0 i }

/-- The state after `tfs_unlink` took one of several names from the inode `k`. -/
def unlinked (s : State) (k i : ℕ) : State :=
  (cleared s i).setInode k { s.inodeTable k with
    iLinksCount := ((s.inodeTable k).iLinksCount + 4294967295) % 4294967296 }

/-- The ways `tfs_unlink` can go. -/
theorem RootOk.tfsUnlink_cases (h : RootOk s) {r : RootExit}
    (hunlink : tfsUnlink s target = .ret (r, s')) :
    (r = { ret := -1 } ∧ s' = s) ∨
    ∃ k i : ℕ, tfsLookup s target 0 = k ∧ k < s.inodeTableSize ∧
      ((s.inodeTable k).iNodeType ≠ .T_LINK → isInOpenFileTable s k = false) ∧
      Directory.matchEntry s.fsData 0 s.maxDirEntries (subName target) = some i ∧
      r.locked = some k ∧
      (((s.inodeTable k).iLinksCount = 1 ∧
          ((s.freeinodeTs k = .FREE ∧ r.ret = -1 ∧ r.keepsLocks = true ∧ s' = cleared s i) ∨
            (s.freeinodeTs k = .TAKEN ∧ r.ret = 0 ∧ r.keepsLocks = false ∧
              s' = freed (cleared s i) k))) ∨
        ((s.inodeTable k).iLinksCount ≠ 1 ∧ r.ret = 0 ∧ r.keepsLocks = false ∧
          s' = unlinked s k i)) := by
  unfold tfsUnlink at hunlink
  simp only [h.inodeGet_root] at hunlink
  split at hunlink
  · obtain ⟨rfl, rfl⟩ := Prod.mk.inj (Outcome.ret.inj hunlink)
    exact .inl ⟨rfl, rfl⟩
  cases hget : inodeGet s (tfsLookup s target 0) with
  | none =>
    rw [hget] at hunlink
    exact absurd hunlink (by simp)
  | some k =>
    obtain ⟨hk, hlt⟩ := inodeGet_eq_some.mp hget
    rw [hk] at hget
    simp only [hk, hget] at hunlink
    split at hunlink
    · obtain ⟨rfl, rfl⟩ := Prod.mk.inj (Outcome.ret.inj hunlink)
      exact .inl ⟨rfl, rfl⟩
    rename_i hopen
    simp only [clearDirEntry, h.root_type, ne_eq, not_true_eq_false, if_false,
      h.dataBlockGet_root] at hunlink
    cases hmatch : Directory.matchEntry s.fsData 0 s.maxDirEntries (subName target) with
    | none =>
      simp only [hmatch, Option.map_none, Outcome.ret_bind] at hunlink
      obtain ⟨rfl, rfl⟩ := Prod.mk.inj (Outcome.ret.inj hunlink)
      exact .inl ⟨rfl, rfl⟩
    | some i =>
      refine .inr ⟨k, i, hk, hlt, ?_, rfl, ?_⟩
      · intro htype
        simpa [htype] using hopen
      simp only [hmatch, Option.map_some, Outcome.ret_bind] at hunlink
      have hdelete := inodeDelete_eq (s := cleared s i) (k := k) hlt
      change inodeDelete _ _ = if s.freeinodeTs k = .FREE then none else _ at hdelete
      split at hunlink
      · rename_i hlinks
        by_cases hfree : s.freeinodeTs k = .FREE
        · rw [if_pos hfree] at hdelete
          simp only [cleared] at hdelete
          rw [hdelete] at hunlink
          obtain ⟨rfl, rfl⟩ := Prod.mk.inj (Outcome.ret.inj hunlink)
          exact ⟨rfl, .inl ⟨hlinks, .inl ⟨hfree, rfl, rfl, rfl⟩⟩⟩
        · rw [if_neg hfree] at hdelete
          simp only [cleared] at hdelete
          rw [hdelete] at hunlink
          obtain ⟨rfl, rfl⟩ := Prod.mk.inj (Outcome.ret.inj hunlink)
          have htaken : s.freeinodeTs k = .TAKEN := by
            cases hs : s.freeinodeTs k with
            | FREE => exact absurd hs hfree
            | TAKEN => rfl
          exact ⟨rfl, .inl ⟨hlinks, .inr ⟨htaken, rfl, rfl, rfl⟩⟩⟩
      · rename_i hlinks
        obtain ⟨rfl, rfl⟩ := Prod.mk.inj (Outcome.ret.inj hunlink)
        exact ⟨rfl, .inr ⟨hlinks, rfl, rfl, rfl⟩⟩

/-! ### Under the lock of an inode -/

theorem truncate_eq : truncate s k = { s with
    freeBlocks := blocksWithout s (s.inodeTable k).iDataBlock
    inodeTable := Function.update s.inodeTable k { s.inodeTable k with iSize := 0 } } := by
  rw [truncate, dataBlockFree_eq]
  rfl

/-- The ways the part of `tfs_open` under the lock of the inode found can go. -/
theorem tfsOpenInode_cases {r : OpenInode} (hopen : tfsOpenInode s k mode = .ret (r, s')) :
    k < s.inodeTableSize ∧
    (((s.inodeTable k).iNodeType = .T_LINK ∧ s' = s ∧
        (r = .failed ∨ ∃ t b : _, r = .follow t ∧ hasFlag mode tfsOCreat = false ∧
          (s.inodeTable k).iDataBlock = (b : ℕ) ∧ b < s.dataBlocks ∧
          CString.HoldsAt s.fsData (b * s.blockSize) (s.dataSize - b * s.blockSize) t)) ∨
      ((s.inodeTable k).iNodeType ≠ .T_LINK ∧
        ((s' = truncate s k ∧ hasFlag mode tfsOTrunc = true ∧ 0 < (s.inodeTable k).iSize) ∨
          (s' = s ∧ (hasFlag mode tfsOTrunc = true → (s.inodeTable k).iSize = 0))) ∧
        r = .opened (if hasFlag mode tfsOAppend then (s'.inodeTable k).iSize else 0))) := by
  unfold tfsOpenInode at hopen
  cases hget : inodeGet s k with
  | none =>
    rw [hget] at hopen
    exact absurd hopen (by simp)
  | some k' =>
    obtain ⟨hk, hlt⟩ := inodeGet_eq_some.mp hget
    obtain rfl : k = k' := by exact_mod_cast hk
    refine ⟨hlt, ?_⟩
    simp only [hget] at hopen
    split at hopen
    · rename_i htype
      split at hopen
      · obtain ⟨rfl, rfl⟩ := Prod.mk.inj (Outcome.ret.inj hopen)
        exact .inl ⟨htype, rfl, .inl rfl⟩
      rename_i hcreat
      cases hblock : dataBlockGet s (s.inodeTable k).iDataBlock with
      | none =>
        rw [hblock] at hopen
        exact absurd hopen (by simp)
      | some a =>
        obtain ⟨b, hb, hblt, rfl⟩ := dataBlockGet_eq_some.mp hblock
        simp only [hblock] at hopen
        cases hstr : CString.strAt s.fsData (b * s.blockSize) (s.dataSize - b * s.blockSize) with
        | none =>
          rw [hstr] at hopen
          exact absurd hopen (by simp)
        | some t =>
          rw [hstr] at hopen
          obtain ⟨rfl, rfl⟩ := Prod.mk.inj (Outcome.ret.inj hopen)
          exact .inl ⟨htype, rfl, .inr ⟨t, b, rfl, by simpa using hcreat, hb, hblt,
            CString.strAt_eq_some_iff.mp hstr⟩⟩
    · rename_i htype
      obtain ⟨rfl, rfl⟩ := Prod.mk.inj (Outcome.ret.inj hopen)
      refine .inr ⟨htype, ?_, rfl⟩
      by_cases htrunc : hasFlag mode tfsOTrunc = true <;> by_cases hsize : 0 < (s.inodeTable k).iSize
      · exact .inl ⟨by simp [htrunc, hsize], htrunc, hsize⟩
      · exact .inr ⟨by simp [hsize], fun _ => by omega⟩
      · exact .inr ⟨by simp [htrunc], fun h => absurd h htrunc⟩
      · exact .inr ⟨by simp [htrunc], fun h => absurd h htrunc⟩

/-- The state after `n` bytes were written through `fh` into block `b` of the
inode `k`. -/
def written (s : State) (fh k b n : ℕ) (buffer : ℕ → UInt8) : State :=
  { s with
    inodeTable := Function.update s.inodeTable k
      { s.inodeTable k with
        iSize := max (s.inodeTable k).iSize ((s.openFileTable fh).ofOffset + n)
        iDataBlock := b }
    freeBlocks :=
      if (s.inodeTable k).iSize = 0 then Function.update s.freeBlocks b .TAKEN else s.freeBlocks
    fsData := s.fsData.memcpy (b * s.blockSize + (s.openFileTable fh).ofOffset) n buffer
    openFileTable := Function.update s.openFileTable fh
      { s.openFileTable fh with ofOffset := (s.openFileTable fh).ofOffset + n } }

/-- `b` is the block a write to inode `k` goes to: the first free one for an empty
file, else the one it has. -/
def WriteBlock (s : State) (k b : ℕ) : Prop :=
  if (s.inodeTable k).iSize = 0 then firstFree s.freeBlocks s.dataBlocks = some b
  else (s.inodeTable k).iDataBlock = b ∧ b < s.dataBlocks

theorem WriteBlock.lt (h : WriteBlock s k b) : b < s.dataBlocks := by
  unfold WriteBlock at h
  split at h
  · exact firstFree_lt h
  · exact h.2

theorem WriteBlock.unique {b' : ℕ} (h : WriteBlock s k b) (h' : WriteBlock s k b') : b = b' := by
  unfold WriteBlock at h h'
  split at h
  · rename_i hsize
    rw [if_pos hsize] at h'
    exact Option.some_inj.mp (h.symm.trans h')
  · rename_i hsize
    rw [if_neg hsize] at h'
    exact_mod_cast h.1.symm.trans h'.1

theorem dataSize_lt_sizeRange (s : State) : s.dataSize < sizeRange := by
  have hmax : ptrdiffMax < sizeRange := by decide
  exact s.fsParams.data_object.trans_lt hmax

private theorem offset_mod {fh n a : ℕ} (hfits : a + (s.openFileTable fh).ofOffset + n ≤ s.dataSize) :
    ((s.openFileTable fh).ofOffset + n) % sizeRange = (s.openFileTable fh).ofOffset + n :=
  Nat.mod_eq_of_lt (by have := dataSize_lt_sizeRange s; omega)

/-- `tfs_write` under its locks: there is nothing to write, or no block to write to,
or the bytes go to the block if that stays in the data area. -/
theorem tfsWriteBody_eq (s : State) (fh k : ℕ) (buffer : ℕ → UInt8) {toWrite n : ℕ}
    (hn : n = clampWrite s.blockSize (s.openFileTable fh).ofOffset toWrite) :
    (n = 0 ∧ tfsWriteBody s fh k buffer toWrite = .ret (0, s)) ∨
    (0 < n ∧ (∀ b, ¬ WriteBlock s k b) ∧ tfsWriteBody s fh k buffer toWrite = .ret (-1, s)) ∨
    ∃ b, 0 < n ∧ WriteBlock s k b ∧ tfsWriteBody s fh k buffer toWrite =
      if b * s.blockSize + (s.openFileTable fh).ofOffset + n ≤ s.dataSize then
        .ret (n, written s fh k b n buffer)
      else .fault := by
  unfold tfsWriteBody
  simp only [← hn]
  by_cases hpos : 0 < n
  · simp only [hpos, if_true, true_and]
    refine .inr ?_
    by_cases hsize : (s.inodeTable k).iSize = 0
    · simp only [hsize, if_true, dataBlockAlloc]
      cases hb : firstFree s.freeBlocks s.dataBlocks with
      | none => exact .inl ⟨fun b => by simp [WriteBlock, hsize, hb], rfl⟩
      | some b =>
        have hget : ∀ u : State, u.fsParams = s.fsParams →
            dataBlockGet u b = some (b * s.blockSize) := by
          intro u hu
          refine dataBlockGet_eq_some.mpr ⟨b, rfl, ?_, ?_⟩
          · rw [dataBlocks, hu]
            exact firstFree_lt hb
          · rw [blockSize, blockSize, hu]
        refine .inr ⟨b, by rwa [WriteBlock, if_pos hsize], ?_⟩
        simp only [Option.map_some, setInode, setFreeBlock, Function.update_self, setEntry, hget]
        by_cases hfits : b * s.blockSize + (s.openFileTable fh).ofOffset + n ≤ s.dataSize
        · rw [if_pos (by exact hfits), if_pos hfits, offset_mod hfits]
          have hgrow : 0 < (s.openFileTable fh).ofOffset + n := by omega
          simp [written, hsize, hgrow]
        · rw [if_neg (by exact hfits), if_neg hfits]
    · simp only [hsize, if_false]
      cases hblock : dataBlockGet s (s.inodeTable k).iDataBlock with
      | none =>
        refine .inl ⟨fun b hb => ?_, rfl⟩
        rw [WriteBlock, if_neg hsize] at hb
        rw [dataBlockGet_eq_some.mpr ⟨b, hb.1, hb.2, rfl⟩] at hblock
        cases hblock
      | some a =>
        obtain ⟨b, hb, hblt, rfl⟩ := dataBlockGet_eq_some.mp hblock
        refine .inr ⟨b, by rw [WriteBlock, if_neg hsize]; exact ⟨hb, hblt⟩, ?_⟩
        simp only [setInode, setEntry]
        by_cases hfits : b * s.blockSize + (s.openFileTable fh).ofOffset + n ≤ s.dataSize
        · rw [if_pos (by exact hfits), if_pos hfits, offset_mod hfits]
          by_cases hgrow : (s.inodeTable k).iSize < (s.openFileTable fh).ofOffset + n
          · simp [written, hsize, hgrow, hgrow.le, ← hb]
          · simp [written, hsize, hgrow, not_lt.mp hgrow, ← hb]
        · rw [if_neg (by exact hfits), if_neg hfits]
  · exact .inl ⟨by omega, by rw [if_neg hpos]⟩

/-- The ways `tfs_write` can go under its locks. -/
theorem tfsWriteBody_cases {buffer : ℕ → UInt8} {toWrite : ℕ} {r : ℤ}
    (hwrite : tfsWriteBody s fh k buffer toWrite = .ret (r, s')) :
    (s' = s ∧ ((r = -1 ∧ ∀ b, ¬ WriteBlock s k b) ∨
      (r = 0 ∧ clampWrite s.blockSize (s.openFileTable fh).ofOffset toWrite = 0))) ∨
    ∃ b, WriteBlock s k b ∧ 0 < clampWrite s.blockSize (s.openFileTable fh).ofOffset toWrite ∧
      b * s.blockSize + (s.openFileTable fh).ofOffset +
        clampWrite s.blockSize (s.openFileTable fh).ofOffset toWrite ≤ s.dataSize ∧
      r = clampWrite s.blockSize (s.openFileTable fh).ofOffset toWrite ∧
      s' = written s fh k b (clampWrite s.blockSize (s.openFileTable fh).ofOffset toWrite)
        buffer := by
  rcases tfsWriteBody_eq s fh k buffer (rfl : _ = clampWrite _ _ toWrite) with
    ⟨hzero, heq⟩ | ⟨-, hnone, heq⟩ | ⟨b, hpos, hb, heq⟩ <;> rw [heq] at hwrite
  · obtain ⟨rfl, rfl⟩ := Prod.mk.inj (Outcome.ret.inj hwrite)
    exact .inl ⟨rfl, .inr ⟨rfl, hzero⟩⟩
  · obtain ⟨rfl, rfl⟩ := Prod.mk.inj (Outcome.ret.inj hwrite)
    exact .inl ⟨rfl, .inl ⟨rfl, hnone⟩⟩
  · split at hwrite
    · rename_i hfits
      obtain ⟨rfl, rfl⟩ := Prod.mk.inj (Outcome.ret.inj hwrite)
      exact .inr ⟨b, hb, hpos, hfits, rfl, rfl⟩
    · cases hwrite

/-- `tfs_read` under its locks: there is nothing to read, or no block to read from, or
the bytes come from the block if that stays in the data area. -/
theorem tfsReadBody_eq (s : State) (fh k : ℕ) {len n : ℕ}
    (hn : n = clampRead (s.inodeTable k).iSize (s.openFileTable fh).ofOffset len) :
    (n = 0 ∧ tfsReadBody s fh k len = .ret (⟨0, []⟩, s)) ∨
    (0 < n ∧ dataBlockGet s (s.inodeTable k).iDataBlock = none ∧
      tfsReadBody s fh k len = .ret (⟨-1, []⟩, s)) ∨
    ∃ b : ℕ, 0 < n ∧ (s.inodeTable k).iDataBlock = b ∧ b < s.dataBlocks ∧
      tfsReadBody s fh k len =
        if b * s.blockSize + (s.openFileTable fh).ofOffset + n ≤ s.dataSize then
          .ret (⟨n, s.fsData.slice (b * s.blockSize + (s.openFileTable fh).ofOffset) n⟩,
            s.setEntry fh { s.openFileTable fh with ofOffset := (s.openFileTable fh).ofOffset + n })
        else .fault := by
  unfold tfsReadBody
  simp only [← hn]
  by_cases hpos : 0 < n
  · simp only [hpos, if_true, true_and]
    refine .inr ?_
    cases hblock : dataBlockGet s (s.inodeTable k).iDataBlock with
    | none => exact .inl ⟨rfl, rfl⟩
    | some a =>
      obtain ⟨b, hb, hblt, rfl⟩ := dataBlockGet_eq_some.mp hblock
      refine .inr ⟨b, hb, hblt, ?_⟩
      by_cases hfits : b * s.blockSize + (s.openFileTable fh).ofOffset + n ≤ s.dataSize
      · simp only [if_pos hfits, offset_mod hfits]
      · simp only [if_neg hfits]
  · exact .inl ⟨by omega, by rw [if_neg hpos]⟩

/-- The ways `tfs_read` can go under its locks. -/
theorem tfsReadBody_cases {len : ℕ} {r : ReadResult}
    (hread : tfsReadBody s fh k len = .ret (r, s')) :
    (s' = s ∧ r.bytes = [] ∧ ((r.ret = -1 ∧ dataBlockGet s (s.inodeTable k).iDataBlock = none) ∨
      (r.ret = 0 ∧ clampRead (s.inodeTable k).iSize (s.openFileTable fh).ofOffset len = 0))) ∨
    ∃ b n : ℕ, (s.inodeTable k).iDataBlock = b ∧ b < s.dataBlocks ∧
      n = clampRead (s.inodeTable k).iSize (s.openFileTable fh).ofOffset len ∧ 0 < n ∧
      b * s.blockSize + (s.openFileTable fh).ofOffset + n ≤ s.dataSize ∧
      r = ⟨n, s.fsData.slice (b * s.blockSize + (s.openFileTable fh).ofOffset) n⟩ ∧
      s' = s.setEntry fh { s.openFileTable fh with
        ofOffset := (s.openFileTable fh).ofOffset + n } := by
  rcases tfsReadBody_eq s fh k (rfl : _ = clampRead _ _ len) with
    ⟨hzero, heq⟩ | ⟨-, hnone, heq⟩ | ⟨b, hpos, hb, hblt, heq⟩ <;> rw [heq] at hread
  · obtain ⟨rfl, rfl⟩ := Prod.mk.inj (Outcome.ret.inj hread)
    exact .inl ⟨rfl, rfl, .inr ⟨rfl, hzero⟩⟩
  · obtain ⟨rfl, rfl⟩ := Prod.mk.inj (Outcome.ret.inj hread)
    exact .inl ⟨rfl, rfl, .inl ⟨rfl, hnone⟩⟩
  · split at hread
    · rename_i hfits
      obtain ⟨rfl, rfl⟩ := Prod.mk.inj (Outcome.ret.inj hread)
      exact .inr ⟨b, _, hb, hblt, rfl, hpos, hfits, rfl, rfl⟩
    · cases hread

/-! ### The open file table -/

theorem validFileHandle_eq_true {fhandle : ℤ} :
    validFileHandle s fhandle = true ↔ 0 ≤ fhandle ∧ fhandle < s.maxOpenFiles := by
  simp [validFileHandle]

theorem getOpenFileEntry_eq_some {fhandle : ℤ} :
    getOpenFileEntry s fhandle = some fh ↔
      fhandle = fh ∧ fh < s.maxOpenFiles ∧ s.freeOpenFileEntries fh = .TAKEN := by
  unfold getOpenFileEntry
  split
  · rename_i h
    rw [validFileHandle_eq_true] at h
    split
    · rename_i hfree
      simp only [reduceCtorEq, false_iff]
      rintro ⟨rfl, -, htaken⟩
      rw [Int.toNat_natCast, htaken] at hfree
      cases hfree
    · rename_i hfree
      rw [Option.some_inj]
      constructor
      · rintro rfl
        refine ⟨by omega, by omega, ?_⟩
        cases hs : s.freeOpenFileEntries fhandle.toNat with
        | FREE => exact absurd hs hfree
        | TAKEN => rfl
      · rintro ⟨rfl, -, -⟩
        rfl
  · rename_i h
    rw [validFileHandle_eq_true] at h
    simp only [reduceCtorEq, false_iff]
    omega

/-- Removing an entry leaves the table as it is, or frees the entry. -/
theorem removeFromOpenFileTable_cases (s : State) (fh : ℕ) :
    (removeFromOpenFileTable s fh).getD s = s ∨
      (removeFromOpenFileTable s fh).getD s = s.setFreeEntry fh .FREE := by
  unfold removeFromOpenFileTable
  split
  · split
    · exact .inl rfl
    · exact .inr rfl
  · exact .inl rfl

/-- The ways `tfs_close` can go. -/
theorem tfsClose_cases (s : State) (fhandle : ℤ) :
    (getOpenFileEntry s fhandle = none ∧ tfsClose s fhandle = (-1, s)) ∨
    ∃ fh, getOpenFileEntry s fhandle = some fh ∧
      tfsClose s fhandle = (0, s.setFreeEntry fh .FREE) := by
  unfold tfsClose
  cases hget : getOpenFileEntry s fhandle with
  | none => exact .inl ⟨rfl, rfl⟩
  | some fh =>
    obtain ⟨rfl, hlt, htaken⟩ := getOpenFileEntry_eq_some.mp hget
    have hvalid : validFileHandle s fh = true := validFileHandle_eq_true.mpr ⟨by omega, by omega⟩
    refine .inr ⟨fh, rfl, ?_⟩
    simp [removeFromOpenFileTable, hvalid, htaken]

/-- The state after the file `inum` was entered in slot `fh` of the open file
table. -/
def registered (s : State) (fh inum offset : ℕ) : State :=
  (s.setFreeEntry fh .TAKEN).setEntry fh
    { s.openFileTable fh with ofInumber := inum, ofOffset := offset }

/-- The ways the last statement of `tfs_open` can go. -/
theorem tfsOpenRegister_cases (s : State) (inum offset : ℕ) :
    (firstFree s.freeOpenFileEntries s.maxOpenFiles = none ∧
      tfsOpenRegister s inum offset = (-1, s)) ∨
    ∃ fh, firstFree s.freeOpenFileEntries s.maxOpenFiles = some fh ∧
      tfsOpenRegister s inum offset = ((fh : ℤ), registered s fh inum offset) := by
  unfold tfsOpenRegister addToOpenFileTable
  cases hfirst : firstFree s.freeOpenFileEntries s.maxOpenFiles with
  | none => exact .inl ⟨rfl, rfl⟩
  | some fh => exact .inr ⟨fh, rfl, rfl⟩

/-- A file that is not in the open file table has no handle. -/
theorem isInOpenFileTable_eq_false (hk : k < s.inodeTableSize) :
    isInOpenFileTable s k = false ↔
      ∀ fh < s.maxOpenFiles, s.freeOpenFileEntries fh = .TAKEN →
        (s.openFileTable fh).ofInumber ≠ k := by
  have hvalid : validInumber s k = true := validInumber_eq_true.mpr ⟨by omega, by omega⟩
  simp [isInOpenFileTable, hvalid]

/-- The open file table is the same in both states. -/
structure SameHandles (s s' : State) : Prop where
  table : s'.openFileTable = s.openFileTable
  entries : s'.freeOpenFileEntries = s.freeOpenFileEntries

namespace RootOk

theorem tfsOpenRoot_sameHandles (h : RootOk s) (h0 : s.freeinodeTs 0 = .TAKEN) {r : OpenRoot}
    (hopen : tfsOpenRoot s name mode = .ret (r, s')) : SameHandles s s' := by
  rcases h.tfsOpenRoot_cases h0 hopen with ⟨-, rfl⟩ | ⟨-, -, rfl, -⟩ |
    ⟨_, -, -, -, ⟨-, rfl⟩ | ⟨_, -, -, -, -, rfl⟩⟩ <;> exact ⟨rfl, rfl⟩

theorem tfsSymLink_sameHandles (h : RootOk s) (h0 : s.freeinodeTs 0 = .TAKEN) {r : RootExit}
    (hlink : tfsSymLink s target linkName = .ret (r, s')) : SameHandles s s' := by
  rcases h.tfsSymLink_cases h0 hlink with ⟨-, rfl, -⟩ | ⟨_, -, -, -, -, ⟨-, -, rfl⟩ |
    ⟨_, _, -, -, ⟨-, rfl, -⟩ | ⟨_, -, -, -, -, rfl⟩⟩⟩ <;> exact ⟨rfl, rfl⟩

theorem tfsLink_sameHandles (h : RootOk s) {r : RootExit}
    (hlink : tfsLink s target linkName = .ret (r, s')) : SameHandles s s' := by
  rcases h.tfsLink_cases hlink with ⟨-, -, rfl⟩ | ⟨_, _, -, -, -, -, -, -, -, -, rfl⟩ <;>
    exact ⟨rfl, rfl⟩

theorem tfsUnlink_sameHandles (h : RootOk s) {r : RootExit}
    (hunlink : tfsUnlink s target = .ret (r, s')) : SameHandles s s' := by
  rcases h.tfsUnlink_cases hunlink with ⟨-, rfl⟩ |
    ⟨_, _, -, -, -, -, -, ⟨-, ⟨-, -, -, rfl⟩ | ⟨-, -, -, rfl⟩⟩ | ⟨-, -, -, rfl⟩⟩
  · exact ⟨rfl, rfl⟩
  · exact ⟨rfl, rfl⟩
  · rw [freed_eq]
    exact ⟨rfl, rfl⟩
  · exact ⟨rfl, rfl⟩

end RootOk

theorem tfsOpenInode_sameHandles {r : OpenInode} (hopen : tfsOpenInode s k mode = .ret (r, s')) :
    SameHandles s s' := by
  obtain ⟨-, ⟨-, rfl, -⟩ | ⟨-, ⟨rfl, -, -⟩ | ⟨rfl, -⟩, -⟩⟩ := tfsOpenInode_cases hopen
  · exact ⟨rfl, rfl⟩
  · rw [truncate_eq]
    exact ⟨rfl, rfl⟩
  · exact ⟨rfl, rfl⟩

end TfsBroker.Fs
