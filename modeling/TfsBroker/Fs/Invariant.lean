import TfsBroker.Fs.Steps

/-!
# The directory and the inode table of `fs/` agree

`DirInv` relates the root directory to the inode table: live entries refer to
`TAKEN` inodes, every `TAKEN` inode other than the root is entered, and its link
counter is the number of its entries. Every operation keeps it, whichever other
calls are under way, because an operation that runs outside the root lock touches
neither the directory's block nor the type or counter of an inode.

That rests on `Safe`: an inode number an operation may still hold on to is never
the root, and its block is never the directory's, even after the inode was freed.

## Main results

* `DirInv.tfsOpenRoot`, `DirInv.tfsLink`, `DirInv.tfsSymLink`, `DirInv.tfsUnlink`
* `DirInv.truncate`, `DirInv.written` — the steps outside the root lock
* `tfsInit_dirInv` — a successful `tfs_init` establishes it
-/

namespace TfsBroker.Fs

open State

variable {s s' : State} {name target linkName : Option CString} {sub : CString}
  {mode k b i n fh : ℕ}

/-- What a `TAKEN` inode other than the root keeps. -/
structure NodeOk (s : State) (k : ℕ) : Prop where
  links : (s.inodeTable k).iLinksCount = Directory.linkCount s.fsData 0 s.maxDirEntries k
  links_pos : 0 < (s.inodeTable k).iLinksCount
  single : (s.inodeTable k).iNodeType = .T_LINK → (s.inodeTable k).iLinksCount = 1
  not_dir : (s.inodeTable k).iNodeType ≠ .T_DIRECTORY
  block_ne : (s.inodeTable k).iDataBlock ≠ 0

/-- The directory and the inode table agree. -/
structure DirInv (s : State) : Prop extends RootOk s where
  root_taken : s.freeinodeTs 0 = .TAKEN
  block_taken : s.freeBlocks 0 = .TAKEN
  wf : Directory.Wf s.fsData 0 s.maxDirEntries
  refers : ∀ i < s.maxDirEntries, Directory.Live s.fsData 0 i →
    ∃ k : ℕ, Directory.dInumber s.fsData 0 i = k ∧ 0 < k ∧ k < s.inodeTableSize ∧
      s.freeinodeTs k = .TAKEN
  node : ∀ k, 0 < k → k < s.inodeTableSize → s.freeinodeTs k = .TAKEN → NodeOk s k

/-- `k` is an inode number a thread may hold on to. -/
structure Safe (s : State) (k : ℕ) : Prop where
  pos : 0 < k
  lt : k < s.inodeTableSize
  block_ne : (s.inodeTable k).iDataBlock ≠ 0

/-- What every step keeps, whatever the threads hold on to. -/
structure Keeps (s s' : State) : Prop where
  params : s'.fsParams = s.fsParams
  safe : ∀ k, Safe s k → Safe s' k

theorem Keeps.refl (s : State) : Keeps s s := ⟨rfl, fun _ h => h⟩

theorem Keeps.trans {s'' : State} (h : Keeps s s') (h' : Keeps s' s'') : Keeps s s'' :=
  ⟨h'.params.trans h.params, fun k hk => h'.safe k (h.safe k hk)⟩

theorem maxDirEntries_congr (h : s'.fsParams = s.fsParams) :
    s'.maxDirEntries = s.maxDirEntries := by
  rw [maxDirEntries, maxDirEntries, blockSize, blockSize, h]

theorem inodeTableSize_congr (h : s'.fsParams = s.fsParams) :
    s'.inodeTableSize = s.inodeTableSize := by
  rw [inodeTableSize, inodeTableSize, h]

theorem dataBlocks_congr (h : s'.fsParams = s.fsParams) : s'.dataBlocks = s.dataBlocks := by
  rw [dataBlocks, dataBlocks, h]

/-- The entries of the directory lie in its block. -/
theorem entries_le_blockSize (s : State) : dirEntrySize * s.maxDirEntries ≤ s.blockSize :=
  Nat.mul_div_le _ _

theorem isInt_of_lt (h : k < s.inodeTableSize) : Memory.IsInt (k : ℤ) := by
  have hle : s.inodeTableSize ≤ intMax := s.fsParams.inode_index
  rw [intMax] at hle
  constructor <;> omega

theorem natCast_ne_neg_one (k : ℕ) : (k : ℤ) ≠ -1 := by omega

namespace DirInv

theorem isSafe (h : DirInv s) (hpos : 0 < k) (hlt : k < s.inodeTableSize)
    (htaken : s.freeinodeTs k = .TAKEN) : Safe s k :=
  ⟨hpos, hlt, (h.node k hpos hlt htaken).block_ne⟩

/-- What a successful lookup found. -/
theorem lookup (h : DirInv s) {inum : ℤ} (hl : tfsLookup s name 0 = inum) (hne : inum ≠ -1) :
    validPathname name = true ∧ ∃ i k : ℕ, i < s.maxDirEntries ∧
      Directory.Names s.fsData 0 i (subName name) ∧ Directory.dInumber s.fsData 0 i = k ∧
      inum = k ∧ 0 < k ∧ k < s.inodeTableSize ∧ s.freeinodeTs k = .TAKEN := by
  obtain ⟨hvalid, i, hi, hfind, hinum⟩ := h.lookup_hit hl hne
  obtain ⟨-, hnames⟩ := h.wf.findEntry_eq_some.mp hfind
  obtain ⟨k, hk, hpos, hlt, htaken⟩ := h.refers i hi hnames.1
  exact ⟨hvalid, i, k, hi, hnames, hk, hinum.symm.trans hk, hpos, hlt, htaken⟩

/-- A name that was not found is the name of no entry. -/
theorem not_named (h : DirInv s) (hl : tfsLookup s name 0 = -1)
    (hvalid : validPathname name = true) :
    ∀ j < s.maxDirEntries, ¬ Directory.Names s.fsData 0 j (subName name) :=
  h.wf.findEntry_eq_none.mp (h.lookup_miss hl hvalid)

/-- A lookup finds an inode or answers -1. -/
theorem lookup_neg (h : DirInv s) (hl : tfsLookup s name 0 < 0) : tfsLookup s name 0 = -1 := by
  by_contra hne
  obtain ⟨-, -, k, -, -, -, hk, -⟩ := h.lookup rfl hne
  omega

theorem linkCount_of_free (h : DirInv s) (hfree : s.freeinodeTs k = .FREE) :
    Directory.linkCount s.fsData 0 s.maxDirEntries k = 0 := by
  refine Counting.countOf_eq_zero.mpr fun i hi hik => ?_
  have hlive : Directory.Live s.fsData 0 i := hik.trans_ne (natCast_ne_neg_one k)
  obtain ⟨k', hk', -, -, htaken⟩ := h.refers i (Finset.mem_range.mp hi) hlive
  obtain rfl : k = k' := by exact_mod_cast hik.symm.trans hk'
  rw [hfree] at htaken
  cases htaken

theorem linkCount_lt (s : State) (inum : ℤ) :
    Directory.linkCount s.fsData 0 s.maxDirEntries inum + 1 < 4294967296 := by
  have hle : s.maxDirEntries ≤ intMax := s.fsParams.entry_index
  have hcount : Directory.linkCount s.fsData 0 s.maxDirEntries inum ≤ s.maxDirEntries :=
    Counting.countOf_le_card.trans (Finset.card_range _).le
  rw [intMax] at hle
  omega

/-! ### The three ways the directory can change -/

/-- Neither the directory nor the type and counter of a `TAKEN` inode changed. -/
theorem frame (h : DirInv s) (hparams : s'.fsParams = s.fsParams)
    (hfree : s'.freeinodeTs = s.freeinodeTs) (hblock : s'.freeBlocks 0 = .TAKEN)
    (hdata : s.fsData.AgreeOn s'.fsData 0 s.blockSize) (hroot : s'.inodeTable 0 = s.inodeTable 0)
    (hnode : ∀ k, 0 < k → k < s.inodeTableSize → s.freeinodeTs k = .TAKEN →
      (s'.inodeTable k).iNodeType = (s.inodeTable k).iNodeType ∧
      (s'.inodeTable k).iLinksCount = (s.inodeTable k).iLinksCount ∧
      (s'.inodeTable k).iDataBlock ≠ 0) : DirInv s' := by
  have hentries := maxDirEntries_congr hparams
  have hsize := inodeTableSize_congr hparams
  have hdir : s.fsData.AgreeOn s'.fsData 0 (dirEntrySize * s.maxDirEntries) :=
    hdata.mono le_rfl (by have := entries_le_blockSize s; omega)
  constructor
  · exact ⟨hsize ▸ h.root_valid, dataBlocks_congr hparams ▸ h.block_valid, hroot ▸ h.root_type,
      hroot ▸ h.root_block⟩
  · exact hfree ▸ h.root_taken
  · exact hblock
  · rw [hentries]
    exact h.wf.congr hdir
  · intro i hi hlive
    rw [hentries] at hi
    have hsame := Directory.sameEntry_of_agreeOn hdir hi
    rw [← hsame.dInumber_eq, hsize, hfree]
    exact h.refers i hi (hsame.live_iff.mpr hlive)
  · intro k hpos hlt htaken
    rw [hsize] at hlt
    rw [hfree] at htaken
    obtain ⟨htype, hlinks, hne⟩ := hnode k hpos hlt htaken
    have hold := h.node k hpos hlt htaken
    refine ⟨?_, hlinks ▸ hold.links_pos, ?_, htype ▸ hold.not_dir, hne⟩
    · rw [hlinks, hold.links, hentries, Directory.linkCount_congr hdir]
    · rw [htype, hlinks]
      exact hold.single

/-- A new name `sub` for the inode `k` was entered in the first free entry. -/
theorem fill (h : DirInv s) {m : Memory} (hm : s.fsData.AgreeOn m 0 s.blockSize)
    (hparams : s'.fsParams = s.fsParams) (hblock : s'.freeBlocks 0 = .TAKEN)
    (hdata : s'.fsData = Directory.fillEntry m 0 i sub k)
    (hroom : Directory.freeEntry m 0 s.maxDirEntries = some i)
    (hpos : 0 < sub.strlen) (hlen : sub.strlen < maxFileName)
    (hnew : ∀ j < s.maxDirEntries, ¬ Directory.Names s.fsData 0 j sub)
    (hk : 0 < k) (hlt : k < s.inodeTableSize) (htaken : s'.freeinodeTs k = .TAKEN)
    (hother : ∀ j, j ≠ k → s'.freeinodeTs j = s.freeinodeTs j ∧ s'.inodeTable j = s.inodeTable j)
    (hlinks : (s'.inodeTable k).iLinksCount
      = Directory.linkCount s.fsData 0 s.maxDirEntries k + 1)
    (hsingle : (s'.inodeTable k).iNodeType = .T_LINK → (s'.inodeTable k).iLinksCount = 1)
    (hdir : (s'.inodeTable k).iNodeType ≠ .T_DIRECTORY)
    (hne : (s'.inodeTable k).iDataBlock ≠ 0) : DirInv s' := by
  have hentries := maxDirEntries_congr hparams
  have hsize := inodeTableSize_congr hparams
  have hagree : s.fsData.AgreeOn m 0 (dirEntrySize * s.maxDirEntries) :=
    hm.mono le_rfl (by have := entries_le_blockSize s; omega)
  have hint := isInt_of_lt hlt
  have hwf := h.wf.congr hagree
  obtain ⟨hdead, hi, -⟩ := Directory.freeEntry_eq_some.mp hroom
  obtain ⟨hfree0, hroot⟩ := hother 0 hk.ne
  constructor
  · exact ⟨hsize ▸ h.root_valid, dataBlocks_congr hparams ▸ h.block_valid, hroot ▸ h.root_type,
      hroot ▸ h.root_block⟩
  · exact hfree0 ▸ h.root_taken
  · exact hblock
  · rw [hentries, hdata]
    refine hwf.fillEntry hroom hpos hlen (fun j hj hname => hnew j hj ?_) hint
      (natCast_ne_neg_one k)
    exact (Directory.sameEntry_of_agreeOn hagree hj).names_iff.mpr hname
  · intro j hj hlive
    rw [hentries] at hj
    rw [hdata] at hlive ⊢
    rw [hsize]
    by_cases hji : j = i
    · subst hji
      exact ⟨k, Directory.dInumber_fillEntry hint, hk, hlt, htaken⟩
    · have hsame := (Directory.sameEntry_of_agreeOn hagree hj)
      have hkeep : Directory.SameEntry (Directory.fillEntry m 0 i sub k) m 0 j :=
        Directory.sameEntry_fillEntry hji
      obtain ⟨k', hk', hpos', hlt', htaken'⟩ :=
        h.refers j hj (hsame.live_iff.mpr (hkeep.live_iff.mp hlive))
      refine ⟨k', ?_, hpos', hlt', ?_⟩
      · rw [hkeep.dInumber_eq, ← hsame.dInumber_eq, hk']
      · by_cases hkk : k' = k
        · rw [hkk, htaken]
        · rw [(hother k' hkk).1, htaken']
  · intro j hj hjlt hjtaken
    rw [hsize] at hjlt
    by_cases hjk : j = k
    · subst hjk
      refine ⟨?_, hlinks ▸ Nat.succ_pos _, hsingle, hdir, hne⟩
      rw [hlinks, hentries, hdata, Directory.linkCount_fillEntry_self hdead hi hint
        (natCast_ne_neg_one j), Directory.linkCount_congr hagree]
    · obtain ⟨hfreej, hnodej⟩ := hother j hjk
      rw [hfreej] at hjtaken
      have hold := h.node j hj hjlt hjtaken
      refine ⟨?_, ?_, ?_, ?_, ?_⟩
      · rw [hnodej, hold.links, hentries, hdata, Directory.linkCount_fillEntry_of_ne hdead hint
          (by exact_mod_cast hjk) (natCast_ne_neg_one j), Directory.linkCount_congr hagree]
      · exact hnodej ▸ hold.links_pos
      · exact hnodej ▸ hold.single
      · exact hnodej ▸ hold.not_dir
      · exact hnodej ▸ hold.block_ne

/-- The entry `i` of the inode `k` was cleared; `k` was freed or its counter
lowered. -/
theorem clear (h : DirInv s) (hparams : s'.fsParams = s.fsParams)
    (hblock : s'.freeBlocks 0 = .TAKEN) (hdata : s'.fsData = Directory.clearEntry s.fsData 0 i)
    (hi : i < s.maxDirEntries) (hik : Directory.dInumber s.fsData 0 i = k) (hk : 0 < k)
    (hother : ∀ j, j ≠ k → s'.freeinodeTs j = s.freeinodeTs j ∧ s'.inodeTable j = s.inodeTable j)
    (hnode : if s'.freeinodeTs k = .TAKEN then
        1 < (s.inodeTable k).iLinksCount ∧ s'.inodeTable k =
          { s.inodeTable k with iLinksCount := (s.inodeTable k).iLinksCount - 1 } ∧
        s.freeinodeTs k = .TAKEN
      else (s.inodeTable k).iLinksCount = 1) : DirInv s' := by
  have hentries := maxDirEntries_congr hparams
  have hsize := inodeTableSize_congr hparams
  have hlive : Directory.dInumber s.fsData 0 i ≠ -1 := hik.trans_ne (natCast_ne_neg_one k)
  obtain ⟨k', hk', -, hlt, htaken⟩ := h.refers i hi hlive
  obtain rfl : k = k' := by exact_mod_cast hik.symm.trans hk'
  have hold := h.node k hk hlt htaken
  have hcount := Directory.linkCount_clearEntry_self hi hlive
  rw [hik, ← hold.links] at hcount
  obtain ⟨hfree0, hroot⟩ := hother 0 hk.ne
  constructor
  · exact ⟨hsize ▸ h.root_valid, dataBlocks_congr hparams ▸ h.block_valid, hroot ▸ h.root_type,
      hroot ▸ h.root_block⟩
  · exact hfree0 ▸ h.root_taken
  · exact hblock
  · rw [hentries, hdata]
    exact h.wf.clearEntry hi
  · intro j hj hjlive
    rw [hentries] at hj
    rw [hdata] at hjlive ⊢
    rw [hsize]
    have hji : j ≠ i := by
      rintro rfl
      exact Directory.not_live_clearEntry hjlive
    have hkeep : Directory.SameEntry (Directory.clearEntry s.fsData 0 i) s.fsData 0 j :=
      Directory.sameEntry_clearEntry hji
    obtain ⟨k', hjk', hpos', hlt', htaken'⟩ := h.refers j hj (hkeep.live_iff.mp hjlive)
    refine ⟨k', hkeep.dInumber_eq.trans hjk', hpos', hlt', ?_⟩
    by_cases hkk : k' = k
    · -- another entry of `k` is left, so `k` was not freed
      subst hkk
      by_contra hfreed
      rw [if_neg hfreed] at hnode
      have hzero : Directory.linkCount (Directory.clearEntry s.fsData 0 i) 0 s.maxDirEntries
          (k' : ℤ) = 0 := by omega
      exact Counting.countOf_eq_zero.mp hzero j (Finset.mem_range.mpr hj)
        (hkeep.dInumber_eq.trans hjk')
    · rw [(hother k' hkk).1, htaken']
  · intro j hj hjlt hjtaken
    rw [hsize] at hjlt
    by_cases hjk : j = k
    · subst hjk
      rw [if_pos hjtaken] at hnode
      obtain ⟨hmany, hnode, -⟩ := hnode
      refine ⟨?_, ?_, ?_, ?_, ?_⟩ <;> rw [hnode]
      · rw [hentries, hdata]
        dsimp only
        omega
      · dsimp only
        omega
      · intro hlink
        have := hold.single hlink
        omega
      · exact hold.not_dir
      · exact hold.block_ne
    · obtain ⟨hfreej, hnodej⟩ := hother j hjk
      rw [hfreej] at hjtaken
      have hold := h.node j hj hjlt hjtaken
      refine ⟨?_, ?_, ?_, ?_, ?_⟩
      · rw [hnodej, hold.links, hentries, hdata, Directory.linkCount_clearEntry_of_ne
          (by rw [hik]; exact_mod_cast hjk) (natCast_ne_neg_one j)]
      · exact hnodej ▸ hold.links_pos
      · exact hnodej ▸ hold.single
      · exact hnodej ▸ hold.not_dir
      · exact hnodej ▸ hold.block_ne

/-! ### The operations -/

private theorem ne_of_free (h : DirInv s) (hfree : s.freeinodeTs k = .FREE) : k ≠ 0 := by
  rintro rfl
  rw [h.root_taken] at hfree
  cases hfree

private theorem block_ne_zero (h : DirInv s)
    (hb : firstFree s.freeBlocks s.dataBlocks = some b) : b ≠ 0 :=
  firstFree_ne hb h.block_taken

/-- Writing to another block leaves the directory's block alone. -/
theorem agreeOn_block (h : b ≠ 0) (off : ℕ) {src : ℕ → UInt8} :
    s.fsData.AgreeOn (s.fsData.memcpy (b * s.blockSize + off) n src) 0 s.blockSize := by
  have hle : s.blockSize ≤ b * s.blockSize := Nat.le_mul_of_pos_left _ (Nat.pos_of_ne_zero h)
  exact (Memory.agreeOn_memcpy (Or.inl (by omega))).symm

private theorem keeps_of_update (hparams : s'.fsParams = s.fsParams) {inode : Inode}
    (htable : s'.inodeTable = Function.update s.inodeTable k inode)
    (hne : Safe s k → inode.iDataBlock ≠ 0) : Keeps s s' := by
  refine ⟨hparams, fun j hj => ⟨hj.pos, inodeTableSize_congr hparams ▸ hj.lt, ?_⟩⟩
  rw [htable]
  by_cases hjk : j = k
  · subst hjk
    rw [Function.update_self]
    exact hne hj
  · rw [Function.update_of_ne hjk]
    exact hj.block_ne

/-- Creating an inode in a free slot and giving it back keeps the invariant. -/
theorem discarded (h : DirInv s) (hfree : s.freeinodeTs k = .FREE) (inode : Inode) :
    DirInv (discarded s k inode) := by
  refine h.frame rfl rfl h.block_taken (fun _ _ _ => rfl)
    (Function.update_of_ne (ne_of_free h hfree).symm _ _) fun j hj hlt htaken => ?_
  have hjk : j ≠ k := by
    rintro rfl
    rw [hfree] at htaken
    cases htaken
  simp only [Fs.discarded, Function.update_of_ne hjk, true_and]
  exact (h.node j hj hlt htaken).block_ne

/-- Creating an inode under a new name keeps the invariant. -/
theorem entered {iType : InodeType} (h : DirInv s) (htype : iType ≠ .T_DIRECTORY)
    (hfirst : firstFree s.freeinodeTs s.inodeTableSize = some k) (hpos : 0 < sub.strlen)
    (hlen : sub.strlen < maxFileName)
    (hroom : Directory.freeEntry s.fsData 0 s.maxDirEntries = some i)
    (hnew : ∀ j < s.maxDirEntries, ¬ Directory.Names s.fsData 0 j sub) :
    DirInv { newInode s k iType with fsData := Directory.fillEntry s.fsData 0 i sub k } := by
  have hk := ne_of_free h (firstFree_free hfirst)
  refine h.fill (m := s.fsData) (fun _ _ _ => rfl) rfl h.block_taken rfl hroom hpos hlen hnew
    (Nat.pos_of_ne_zero hk) (firstFree_lt hfirst) (by simp [newInode])
    (fun j hj => by simp [newInode, Function.update_of_ne hj]) ?_ (by simp [newInode, Inode.new])
    (by simpa [newInode, Inode.new] using htype) (by simp [newInode, Inode.new])
  rw [h.linkCount_of_free (firstFree_free hfirst)]
  simp [newInode, Inode.new]

/-- What the root part of `tfs_open` keeps, and what it hands on. -/
theorem tfsOpenRoot (h : DirInv s) {r : OpenRoot}
    (hopen : tfsOpenRoot s name mode = .ret (r, s')) :
    DirInv s' ∧ Keeps s s' ∧ ∀ k, r = .found k ∨ r = .created k →
      0 < k ∧ k < s'.inodeTableSize ∧ s'.freeinodeTs k = .TAKEN := by
  rcases h.tfsOpenRoot_cases h.root_taken hopen with ⟨rfl, rfl⟩ | ⟨k, rfl, rfl, hl⟩ |
    ⟨k, hfirst, hvalid, hneg, ⟨rfl, rfl⟩ | ⟨i, hpos, hlen, hroom, rfl, rfl⟩⟩
  · exact ⟨h, .refl s', by simp⟩
  · obtain ⟨-, -, k', -, -, -, hk, hpos, hlt, htaken⟩ := h.lookup hl (natCast_ne_neg_one k)
    obtain rfl : k = k' := by exact_mod_cast hk
    refine ⟨h, .refl s', fun j hj => ?_⟩
    obtain rfl : k = j := by simpa using hj
    exact ⟨hpos, hlt, htaken⟩
  · refine ⟨h.discarded (firstFree_free hfirst) _, keeps_of_update rfl rfl ?_, by simp⟩
    exact fun _ => by decide
  · have hk := ne_of_free h (firstFree_free hfirst)
    refine ⟨?_, keeps_of_update rfl rfl fun _ => by decide, fun j hj => ?_⟩
    · exact h.entered (by decide) hfirst hpos hlen hroom
        (h.not_named (h.lookup_neg hneg) hvalid)
    · obtain rfl : k = j := by simpa using hj
      exact ⟨Nat.pos_of_ne_zero hk, firstFree_lt hfirst, by simp [newInode]⟩

/-- What `tfs_sym_link` keeps. -/
theorem tfsSymLink (h : DirInv s) {r : RootExit}
    (hlink : tfsSymLink s target linkName = .ret (r, s')) : DirInv s' ∧ Keeps s s' := by
  rcases h.tfsSymLink_cases h.root_taken hlink with ⟨-, rfl, -⟩ | ⟨k, hfirst, hvalid, -, hname,
    ⟨-, -, rfl⟩ | ⟨b, t, hb, -, ⟨-, rfl, -⟩ | ⟨i, hpos, hlen, hroom, -, rfl⟩⟩⟩
  · exact ⟨h, .refl s'⟩
  · exact ⟨h.discarded (firstFree_free hfirst) _, keeps_of_update rfl rfl fun _ => by decide⟩
  · have hb0 := block_ne_zero h hb
    refine ⟨?_, keeps_of_update rfl rfl fun _ => Int.natCast_ne_zero.mpr hb0⟩
    refine (h.discarded (firstFree_free hfirst) { Inode.new .T_LINK with iDataBlock := b }).frame
      rfl rfl ?_ (agreeOn_block hb0 0) rfl fun j hj hlt htaken => ⟨rfl, rfl, ?_⟩
    · exact (Function.update_of_ne hb0.symm _ _).trans h.block_taken
    · exact ((h.discarded (firstFree_free hfirst) _).node j hj hlt htaken).block_ne
  · have hk := ne_of_free h (firstFree_free hfirst)
    have hb0 := block_ne_zero h hb
    refine ⟨?_, keeps_of_update rfl rfl fun _ => Int.natCast_ne_zero.mpr hb0⟩
    refine h.fill (m := (linkInode s k b t).fsData) (agreeOn_block hb0 0) rfl ?_ rfl hroom
      hpos hlen (h.not_named hname hvalid) (Nat.pos_of_ne_zero hk) (firstFree_lt hfirst)
      (by simp [linkInode, newInode])
      (fun j hj => by simp [linkInode, newInode, Function.update_of_ne hj]) ?_
      (by simp [linkInode, Inode.new]) (by simp [linkInode, Inode.new])
      (by simpa [linkInode, Inode.new] using hb0)
    · exact (Function.update_of_ne hb0.symm _ _).trans h.block_taken
    · rw [h.linkCount_of_free (firstFree_free hfirst)]
      simp [linkInode, Inode.new]

/-- A further name for a file keeps the invariant. -/
theorem linked (h : DirInv s) (hkpos : 0 < k) (hlt : k < s.inodeTableSize)
    (htaken : s.freeinodeTs k = .TAKEN) (htype : (s.inodeTable k).iNodeType ≠ .T_LINK)
    (hpos : 0 < sub.strlen) (hlen : sub.strlen < maxFileName)
    (hroom : Directory.freeEntry s.fsData 0 s.maxDirEntries = some i)
    (hnew : ∀ j < s.maxDirEntries, ¬ Directory.Names s.fsData 0 j sub) :
    DirInv (linked s k i sub) := by
  have hold := h.node k hkpos hlt htaken
  refine h.fill (m := s.fsData) (fun _ _ _ => rfl) rfl h.block_taken rfl hroom hpos hlen hnew hkpos
    hlt htaken (fun j hj => by simp [Fs.linked, Function.update_of_ne hj]) ?_ ?_ ?_ ?_ <;>
    simp only [Fs.linked, Function.update_self]
  · rw [hold.links, Nat.mod_eq_of_lt (linkCount_lt s k)]
  · exact fun hlink => absurd hlink htype
  · exact hold.not_dir
  · exact hold.block_ne

/-- What `tfs_link` keeps. -/
theorem tfsLink (h : DirInv s) {r : RootExit}
    (hlink : tfsLink s target linkName = .ret (r, s')) :
    DirInv s' ∧ Keeps s s' ∧ r.keepsLocks = false := by
  rcases h.tfsLink_cases hlink with ⟨-, hkeeps, rfl⟩ |
    ⟨k, i, hvalid, hl, hname, htype, hpos, hlen, hroom, rfl, rfl⟩
  · exact ⟨h, .refl s', hkeeps⟩
  · obtain ⟨-, -, k', -, -, -, hk, hkpos, hlt, htaken⟩ := h.lookup hl (natCast_ne_neg_one k)
    obtain rfl : k = k' := by exact_mod_cast hk
    exact ⟨h.linked hkpos hlt htaken htype hpos hlen hroom (h.not_named hname hvalid),
      keeps_of_update rfl rfl fun hsafe => hsafe.block_ne, rfl⟩

/-- The inode a `tfs_unlink` resolves to and the entry it clears. -/
theorem tfsUnlink_cases (h : DirInv s) {r : RootExit}
    (hunlink : Fs.tfsUnlink s target = .ret (r, s')) :
    (r = { ret := -1 } ∧ s' = s) ∨
    ∃ k i : ℕ, Fs.tfsLookup s target 0 = k ∧ 0 < k ∧ k < s.inodeTableSize ∧
      s.freeinodeTs k = .TAKEN ∧
      ((s.inodeTable k).iNodeType ≠ .T_LINK → isInOpenFileTable s k = false) ∧
      i < s.maxDirEntries ∧ Directory.Names s.fsData 0 i (subName target) ∧
      Directory.dInumber s.fsData 0 i = k ∧ r = { ret := 0, locked := some k } ∧
      (((s.inodeTable k).iLinksCount = 1 ∧ s' = freed (cleared s i) k) ∨
        (1 < (s.inodeTable k).iLinksCount ∧ s' = unlinked s k i)) := by
  rcases h.toRootOk.tfsUnlink_cases hunlink with hsame | ⟨k, i, hl, -, hopen, hmatch, hlocked, hcase⟩
  · exact .inl hsame
  obtain ⟨hvalid, i', k', hi', hnames, hik', hk, hpos, hlt, htaken⟩ :=
    h.lookup hl (natCast_ne_neg_one k)
  obtain rfl : k = k' := by exact_mod_cast hk
  rw [h.wf.matchEntry_eq hi' hnames (strlen_subName_pos hvalid)] at hmatch
  obtain rfl := Option.some_inj.mp hmatch
  refine .inr ⟨k, i', hl, hpos, hlt, htaken, hopen, hi', hnames, hik', ?_⟩
  have hlinks := (h.node k hpos hlt htaken).links_pos
  obtain ⟨ret, locked, keepsLocks⟩ := r
  obtain rfl : locked = some k := hlocked
  rcases hcase with ⟨hone, ⟨hfree, -⟩ | ⟨-, hret, hkeeps, hs'⟩⟩ | ⟨hmany, hret, hkeeps, hs'⟩
  · rw [hfree] at htaken
    cases htaken
  · obtain rfl : ret = 0 := hret
    obtain rfl : keepsLocks = false := hkeeps
    exact ⟨rfl, .inl ⟨hone, hs'⟩⟩
  · obtain rfl : ret = 0 := hret
    obtain rfl : keepsLocks = false := hkeeps
    exact ⟨rfl, .inr ⟨by omega, hs'⟩⟩

/-- Deleting an inode with its last name keeps the invariant. -/
theorem freed (h : DirInv s) (hi : i < s.maxDirEntries)
    (hik : Directory.dInumber s.fsData 0 i = k) (hk : 0 < k) (hlt : k < s.inodeTableSize)
    (htaken : s.freeinodeTs k = .TAKEN) (hone : (s.inodeTable k).iLinksCount = 1) :
    DirInv (freed (cleared s i) k) ∧ Keeps s (Fs.freed (cleared s i) k) := by
  have hold := h.node k hk hlt htaken
  rw [freed_eq]
  refine ⟨h.clear rfl ?_ rfl hi hik hk (fun j hj => ⟨?_, rfl⟩) ?_,
    ⟨rfl, fun _ hj => ⟨hj.pos, hj.lt, hj.block_ne⟩⟩⟩
  · -- the block given back is not the directory's
    dsimp only
    split
    · rw [blocksWithout_of_ne (by exact_mod_cast hold.block_ne)]
      exact h.block_taken
    · exact h.block_taken
  · exact Function.update_of_ne hj _ _
  · simpa using hone

/-- Taking one of several names from an inode keeps the invariant. -/
theorem unlinked (h : DirInv s) (hi : i < s.maxDirEntries)
    (hik : Directory.dInumber s.fsData 0 i = k) (hk : 0 < k) (hlt : k < s.inodeTableSize)
    (htaken : s.freeinodeTs k = .TAKEN) (hmany : 1 < (s.inodeTable k).iLinksCount) :
    DirInv (unlinked s k i) := by
  have hold := h.node k hk hlt htaken
  refine h.clear rfl h.block_taken rfl hi hik hk (fun j hj => ⟨rfl, Function.update_of_ne hj _ _⟩) ?_
  have hcount : ((s.inodeTable k).iLinksCount + 4294967295) % 4294967296
      = (s.inodeTable k).iLinksCount - 1 := by
    have := linkCount_lt s k
    rw [← hold.links] at this
    omega
  rw [if_pos (by exact htaken)]
  simp only [Fs.unlinked, cleared, setInode, Function.update_self, hcount]
  exact ⟨hmany, trivial, htaken⟩

/-- `tfs_unlink` of a name that is not entered. -/
theorem tfsUnlink_miss (h : DirInv s) (hl : tfsLookup s target 0 = -1) :
    Fs.tfsUnlink s target = .ret ({ ret := -1 }, s) := by
  unfold Fs.tfsUnlink
  simp only [h.inodeGet_root, hl, if_true]

/-- `tfs_unlink` of a name that is entered. -/
theorem tfsUnlink_eq (h : DirInv s) (hl : tfsLookup s target 0 = k) (hi : i < s.maxDirEntries)
    (hnames : Directory.Names s.fsData 0 i (subName target)) :
    Fs.tfsUnlink s target = .ret
      (if (decide ((s.inodeTable k).iNodeType ≠ .T_LINK) && isInOpenFileTable s k) = true then
        ({ ret := -1 }, s)
      else ({ ret := 0, locked := some k },
        if (s.inodeTable k).iLinksCount = 1 then Fs.freed (cleared s i) k else Fs.unlinked s k i)) := by
  obtain ⟨hvalid, -, k', -, -, -, hk, -, hlt, htaken⟩ := h.lookup hl (natCast_ne_neg_one k)
  obtain rfl : k = k' := by exact_mod_cast hk
  have hget : inodeGet s k = some k := inodeGet_eq_some.mpr ⟨rfl, hlt⟩
  have hne : (k : ℤ) ≠ -1 := natCast_ne_neg_one k
  have hmatch := h.wf.matchEntry_eq hi hnames (strlen_subName_pos hvalid)
  have hdelete := inodeDelete_eq (s := cleared s i) (k := k) hlt
  rw [if_neg (by simp [cleared, htaken])] at hdelete
  simp only [cleared] at hdelete
  unfold Fs.tfsUnlink
  simp only [h.inodeGet_root, hl, hne, if_false, hget]
  split
  · rfl
  simp only [clearDirEntry, h.root_type, ne_eq, not_true_eq_false, if_false, h.dataBlockGet_root,
    hmatch, Option.map_some, Outcome.ret_bind]
  by_cases hlinks : (s.inodeTable k).iLinksCount = 1
  · simp only [hlinks, if_true, hdelete, cleared]
  · simp only [hlinks, if_false]
    rfl

/-- What `tfs_unlink` keeps; in particular its `inode_delete` does not fail. -/
theorem tfsUnlink (h : DirInv s) {r : RootExit}
    (hunlink : tfsUnlink s target = .ret (r, s')) :
    DirInv s' ∧ Keeps s s' ∧ r.keepsLocks = false := by
  rcases h.tfsUnlink_cases hunlink with ⟨rfl, rfl⟩ |
    ⟨k, i, -, hpos, hlt, htaken, -, hi, -, hik, rfl, ⟨hone, rfl⟩ | ⟨hmany, rfl⟩⟩
  · exact ⟨h, .refl s', rfl⟩
  · obtain ⟨hdir, hkeeps⟩ := h.freed hi hik hpos hlt htaken hone
    exact ⟨hdir, hkeeps, rfl⟩
  · exact ⟨h.unlinked hi hik hpos hlt htaken hmany,
      keeps_of_update (k := k) rfl rfl fun hsafe => hsafe.block_ne, rfl⟩

/-- Truncation keeps the invariant, whether or not the inode is still in use. -/
theorem truncate (h : DirInv s) (hk : Safe s k) :
    DirInv (truncate s k) ∧ Keeps s (truncate s k) := by
  rw [truncate_eq]
  refine ⟨h.frame rfl rfl ?_ (fun _ _ _ => rfl) (Function.update_of_ne hk.pos.ne _ _) ?_,
    keeps_of_update rfl rfl fun hsafe => hsafe.block_ne⟩
  · exact (blocksWithout_of_ne (by exact_mod_cast hk.block_ne)).trans h.block_taken
  · intro j hj hlt htaken
    have hold := h.node j hj hlt htaken
    by_cases hjk : j = k
    · subst hjk
      simp [hold.block_ne]
    · simp [Function.update_of_ne hjk, hold.block_ne]

/-- The block a write goes to is not the directory's. -/
theorem writeBlock_ne (h : DirInv s) (hk : Safe s k) (hb : WriteBlock s k b) : b ≠ 0 := by
  unfold WriteBlock at hb
  split at hb
  · exact block_ne_zero h hb
  · rintro rfl
    exact hk.block_ne hb.1

/-- A write keeps the invariant, whether or not the inode is still in use. -/
theorem written (h : DirInv s) (hk : Safe s k) (hb : WriteBlock s k b) {buffer : ℕ → UInt8} :
    DirInv (written s fh k b n buffer) ∧ Keeps s (written s fh k b n buffer) := by
  have hb0 := h.writeBlock_ne hk hb
  refine ⟨h.frame rfl rfl ?_ (agreeOn_block hb0 _) (Function.update_of_ne hk.pos.ne _ _) ?_,
    keeps_of_update rfl rfl fun _ => Int.natCast_ne_zero.mpr hb0⟩
  · dsimp only [Fs.written]
    split
    · exact (Function.update_of_ne hb0.symm _ _).trans h.block_taken
    · exact h.block_taken
  · intro j hj hlt htaken
    by_cases hjk : j = k
    · subst hjk
      simp [Fs.written, hb0]
    · simp [Fs.written, Function.update_of_ne hjk, (h.node j hj hlt htaken).block_ne]

/-- Steps that change only locks and the open file table keep the invariant. -/
theorem congr (h : DirInv s) (s' : State) (hparams : s'.fsParams = s.fsParams)
    (htable : s'.inodeTable = s.inodeTable) (hfree : s'.freeinodeTs = s.freeinodeTs)
    (hdata : s'.fsData = s.fsData) (hblocks : s'.freeBlocks = s.freeBlocks) :
    DirInv s' ∧ Keeps s s' := by
  refine ⟨h.frame hparams hfree (hblocks ▸ h.block_taken) (fun _ _ _ => by rw [hdata])
    (by rw [htable]) fun j hj hlt htaken => ?_, ⟨hparams, fun j hj => ⟨hj.pos, ?_, ?_⟩⟩⟩
  · rw [htable]
    exact ⟨rfl, rfl, (h.node j hj hlt htaken).block_ne⟩
  · exact inodeTableSize_congr hparams ▸ hj.lt
  · exact htable ▸ hj.block_ne

end DirInv

/-! ### After `tfs_init` -/

/-- The state a successful `tfs_init` leaves. -/
def initState (heap : Heap) (params : TfsParams) : State :=
  { stateInit heap params with
    inodeTable := Function.update heap.inodeTable 0 ⟨.T_DIRECTORY, 1, params.blockSize, 0⟩
    inodeRwl := Function.update (fun _ => .unlocked) 0 .unlocked
    freeinodeTs := Function.update (fun _ => .FREE) 0 .TAKEN
    freeBlocks := Function.update (fun _ => .FREE) 0 .TAKEN
    fsData := Directory.initEntries heap.fsData 0 (params.blockSize / dirEntrySize) }

/-- `tfs_init` succeeds exactly when there is room for the root directory. -/
theorem tfsInit_eq {heap : Heap} {params : TfsParams} :
    ((tfsInit heap params).1 = true ↔ 0 < params.maxInodeCount ∧ 0 < params.maxBlockCount) ∧
    ((tfsInit heap params).1 = true → (tfsInit heap params).2 = initState heap params) := by
  have hinode : firstFree (stateInit heap params).freeinodeTs
      (stateInit heap params).inodeTableSize = if 0 < params.maxInodeCount then some 0 else none :=
    firstFree_of_zero rfl
  have hblock : ∀ (v : ℕ → AllocationState) (u : State), v 0 = .FREE → u.fsParams = params →
      firstFree v u.dataBlocks = if 0 < params.maxBlockCount then some 0 else none := by
    rintro v u hv rfl
    exact firstFree_of_zero hv
  have hget : 0 < params.maxBlockCount → ∀ u : State, u.fsParams = params →
      dataBlockGet u 0 = some 0 := by
    rintro hpos u rfl
    exact dataBlockGet_eq_some.mpr ⟨0, rfl, hpos, (Nat.zero_mul _).symm⟩
  unfold tfsInit inodeCreate inodeAlloc
  rw [hinode]
  by_cases hinodes : 0 < params.maxInodeCount
  · simp only [hinodes, if_true, Option.map_some, dataBlockAlloc, setInode, setRwl, setFreeinode]
    rw [hblock _ _ rfl rfl]
    by_cases hblocks : 0 < params.maxBlockCount
    · simp only [hblocks, if_true, Option.map_some, setFreeBlock, Nat.cast_zero]
      rw [hget hblocks _ rfl]
      simp [initState, stateInit, rootDirInum, maxDirEntries, blockSize]
    · simp [hblocks]
  · simp [hinodes]

theorem initialised_iff : Initialised s ↔ ∃ heap params, 0 < params.maxInodeCount ∧
    0 < params.maxBlockCount ∧ s = initState heap params := by
  refine exists_congr fun heap => exists_congr fun params => ?_
  rw [← and_assoc, ← tfsInit_eq.1, Prod.ext_iff]
  exact and_congr_right fun hok => by rw [tfsInit_eq.2 hok, eq_comm]

/-- A successful `tfs_init` leaves an empty directory that agrees with the inode
table. -/
theorem tfsInit_dirInv (h : Initialised s) : DirInv s := by
  obtain ⟨heap, params, hinodes, hblocks, rfl⟩ := initialised_iff.mp h
  constructor
  · exact ⟨hinodes, hblocks, by simp [initState], by simp [initState]⟩
  · simp [initState]
  · simp [initState]
  · exact Directory.wf_initEntries
  · intro i hi hlive
    exact absurd (Directory.dInumber_initEntries hi) hlive
  · intro k hk hlt htaken
    change Function.update (fun _ => AllocationState.FREE) 0 .TAKEN k = .TAKEN at htaken
    rw [Function.update_of_ne hk.ne'] at htaken
    cases htaken

end TfsBroker.Fs
