import TfsBroker.Fs.Files
import TfsBroker.Fs.FileContents
import TfsBroker.Fs.LinkChains
import TfsBroker.Fs.Locking

/-!
# The files behind the state of `fs/`

`State.files` reads a state as the names, inodes and handles that its users know. Each primitive
change of the state is a change of one of them.

## Main results

* `DirInv.entries_eq_some`, `DirInv.node_eq_file`, `ExclusiveInv.node_eq_link` — what is read
* `ExclusiveInv.files_created`, `ExclusiveInv.files_written`, `files_registered`, … — what a change
  does
-/

namespace TfsBroker.Fs

open State Counting Function

variable {s s' : State} {name : Option CString} {k j b i n fh offset : ℕ} {a t sub : CString}
  {bytes : List UInt8}

/-- What `s` is to its users. -/
def State.files (s : State) : Files where
  entries name := (Directory.findEntry s.fsData 0 s.maxDirEntries name).map fun i =>
    (Directory.dInumber s.fsData 0 i).toNat
  node k :=
    if k < s.inodeTableSize ∧ s.freeinodeTs k = .TAKEN then
      match (s.inodeTable k).iNodeType with
      | .T_FILE => some (.file (fileContents s k))
      | .T_LINK => some (.link (subName (Locking.linkTarget s k)))
      | .T_DIRECTORY => none -- known by its names only
    else none
  handle fh :=
    if fh < s.maxOpenFiles ∧ s.freeOpenFileEntries fh = .TAKEN then
      some ⟨(s.openFileTable fh).ofInumber.toNat, (s.openFileTable fh).ofOffset⟩
    else none
  free := countOf (Finset.range s.dataBlocks) fun b => s.freeBlocks b = .FREE

/-! ### Names -/

theorem DirInv.entries_eq_some (h : DirInv s) : s.files.entries a = some k ↔ Entered s a k := by
  simp only [State.files, Option.map_eq_some_iff, h.wf.findEntry_eq_some]
  constructor
  · rintro ⟨i, ⟨hi, hnames⟩, hk⟩
    obtain ⟨k', hk', -⟩ := h.refers i hi hnames.1
    refine ⟨i, hi, hnames, ?_⟩
    rw [hk', Int.toNat_natCast] at hk
    rw [hk', hk]
  · rintro ⟨i, hi, hnames, hk⟩
    exact ⟨i, ⟨hi, hnames⟩, by rw [hk, Int.toNat_natCast]⟩

theorem DirInv.entries_ext (h : DirInv s) {f : CString → Option ℕ}
    (hf : ∀ a k, f a = some k ↔ Entered s a k) : s.files.entries = f := by
  funext a
  ext k
  rw [h.entries_eq_some, hf]

theorem nameOf_eq_some :
    Files.nameOf name = some a ↔ validPathname name = true ∧ subName name = a := by
  unfold Files.nameOf
  split <;> simp_all

theorem DirInv.lookup_eq_some (h : DirInv s) :
    s.files.lookup name = some k ↔ tfsLookup s name 0 = k := by
  simp only [Files.lookup, Option.bind_eq_some_iff, nameOf_eq_some, h.entries_eq_some]
  constructor
  · rintro ⟨a, ⟨hvalid, rfl⟩, i, hi, hnames, hk⟩
    rw [h.tfsLookup_eq, if_pos hvalid, h.findInDir_eq, h.wf.findEntry_eq_some.mpr ⟨hi, hnames⟩,
      Option.elim_some, hk]
  · intro hl
    obtain ⟨hvalid, i, j, hi, hnames, hij, hj, -⟩ := h.lookup hl (natCast_ne_neg_one k)
    exact ⟨_, ⟨hvalid, rfl⟩, i, hi, hnames, hij.trans hj.symm⟩

theorem DirInv.lookup_eq_none (h : DirInv s) :
    s.files.lookup name = none ↔ tfsLookup s name 0 = -1 := by
  constructor
  · intro hnone
    by_contra hne
    obtain ⟨-, -, j, -, -, -, hj, -⟩ := h.lookup rfl hne
    rw [h.lookup_eq_some.mpr hj] at hnone
    cases hnone
  · intro hl
    by_contra hne
    obtain ⟨k, hk⟩ := Option.ne_none_iff_exists'.mp hne
    rw [h.lookup_eq_some.mp hk] at hl
    exact natCast_ne_neg_one k hl

/-- A valid path is looked up by its name. -/
theorem Files.lookup_of_nameOf {F : Files} (h : Files.nameOf name = some a) :
    F.lookup name = F.entries a := by
  rw [Files.lookup, h, Option.bind_some]

/-- What a lookup that fails, or finds something, says of a name. -/
theorem DirInv.entries_missing (h : DirInv s) (hvalid : validPathname name = true)
    (hl : tfsLookup s name 0 = -1) : s.files.entries (subName name) = none := by
  rw [← Files.lookup_of_nameOf (nameOf_eq_some.mpr ⟨hvalid, rfl⟩)]
  exact h.lookup_eq_none.mpr hl

theorem DirInv.entries_found (h : DirInv s) (hl : tfsLookup s name 0 ≠ -1) :
    ∃ k : ℕ, tfsLookup s name 0 = k ∧ Files.nameOf name = some (subName name) ∧
      s.files.entries (subName name) = some k ∧ s.files.lookup name = some k := by
  obtain ⟨hvalid, -, k, -, -, -, hk, -⟩ := h.lookup rfl hl
  have hname : Files.nameOf name = some (subName name) := nameOf_eq_some.mpr ⟨hvalid, rfl⟩
  have hlookup : s.files.lookup name = some k := h.lookup_eq_some.mpr hk
  refine ⟨k, hk, hname, ?_, hlookup⟩
  rw [← Files.lookup_of_nameOf hname]
  exact hlookup

/-! ### Inodes -/

theorem node_eq_none (h : DirInv s) : s.files.node k = none ↔
    ¬ (0 < k ∧ k < s.inodeTableSize ∧ s.freeinodeTs k = .TAKEN) := by
  simp only [State.files]
  by_cases hk : k < s.inodeTableSize ∧ s.freeinodeTs k = .TAKEN
  · rw [if_pos hk]
    by_cases h0 : k = 0
    · subst h0
      simp [h.root_type]
    · have hdir := (h.node k (Nat.pos_of_ne_zero h0) hk.1 hk.2).not_dir
      have hpos := Nat.pos_of_ne_zero h0
      cases htype : (s.inodeTable k).iNodeType with
      | T_FILE | T_LINK => simp [hpos, hk]
      | T_DIRECTORY => exact absurd htype hdir
  · rw [if_neg hk]
    simp only [true_iff]
    exact fun hlive => hk hlive.2

theorem DirInv.node_eq_file (h : DirInv s) :
    s.files.node k = some (.file bytes) ↔ LiveFile s k ∧ fileContents s k = bytes := by
  simp only [State.files]
  constructor
  · intro hnode
    split at hnode
    · rename_i hk
      split at hnode
      · rename_i htype
        have hpos : 0 < k := by
          rw [Nat.pos_iff_ne_zero]
          rintro rfl
          rw [h.root_type] at htype
          cases htype
        exact ⟨⟨hpos, hk.1, hk.2, htype⟩, Node.file.inj (Option.some_inj.mp hnode)⟩
      · cases Option.some_inj.mp hnode
      · cases hnode
    · cases hnode
  · rintro ⟨hlive, rfl⟩
    rw [if_pos ⟨hlive.lt, hlive.taken⟩, hlive.file]

theorem StoredTarget.linkTarget_eq (h : StoredTarget s k t) : Locking.linkTarget s k = some t := by
  obtain ⟨address, haddress, ht⟩ := h.strAt
  rw [Locking.linkTarget, haddress, Option.bind_some, ht]

theorem ExclusiveInv.node_eq_link (h : ExclusiveInv s) : s.files.node k = some (.link a) ↔
    LiveLink s k ∧ ∃ t, StoredTarget s k t ∧ subName (some t) = a := by
  simp only [State.files]
  constructor
  · intro hnode
    split at hnode
    · rename_i hk
      split at hnode
      · cases Option.some_inj.mp hnode
      · rename_i htype
        have hlive : LiveLink s k := ⟨hk.1, hk.2, htype⟩
        obtain ⟨t, hstored, -⟩ := h.links k hlive
        rw [hstored.linkTarget_eq] at hnode
        exact ⟨hlive, t, hstored, Node.link.inj (Option.some_inj.mp hnode)⟩
      · cases hnode
    · cases hnode
  · rintro ⟨hlive, t, hstored, rfl⟩
    rw [if_pos ⟨hlive.lt, hlive.taken⟩, hlive.link, hstored.linkTarget_eq]

/-- An inode that a change does not fill, delete or make is as it was. -/
theorem Enabled.node_eq {c : Change} (he : Enabled s c) (h : ExclusiveInv s) (hfills : ¬ c.Fills j)
    (hfree : (c.apply s).freeinodeTs j = s.freeinodeTs j)
    (htype : s.freeinodeTs j = .TAKEN →
      ((c.apply s).inodeTable j).iNodeType = (s.inodeTable j).iNodeType) :
    (c.apply s).files.node j = s.files.node j := by
  have hparams := (he.frame h.root_taken).params
  simp only [State.files, hfree, inodeTableSize_congr hparams]
  split
  · rename_i hj
    rw [htype hj.2]
    cases hnode : (s.inodeTable j).iNodeType with
    | T_FILE =>
      by_cases h0 : j = 0
      · subst h0
        rw [h.root_type] at hnode
        cases hnode
      · have hlive : LiveFile s j := ⟨Nat.pos_of_ne_zero h0, hj.1, hj.2, hnode⟩
        have hlive' := hlive.congr hparams hfree (htype hj.2)
        -- only filling, truncating and making a file changes what it holds
        rcases he.file_before hlive' with ⟨-, -, hsize⟩ | ⟨hfill, -⟩ | ⟨i, sub, rfl⟩
        · simp only [he.contents_eq h hlive hfills hsize]
        · exact absurd hfill hfills
        · cases he with
          | create hfirst =>
            have htaken := hj.2
            rw [firstFree_free hfirst] at htaken
            cases htaken
    | T_LINK =>
      have hlive : LiveLink s j := ⟨hj.1, hj.2, hnode⟩
      obtain ⟨t, hstored, -⟩ := h.links j hlive
      have hstored' := hstored.of_same (he.keepsTarget h.toSeqInv hlive) hparams
      simp only [hstored.linkTarget_eq, hstored'.linkTarget_eq]
    | T_DIRECTORY => rfl
  · rfl

/-! ### Blocks -/

theorem files_free_pos : 0 < s.files.free ↔ ∃ b, firstFree s.freeBlocks s.dataBlocks = some b := by
  rw [← Option.isSome_iff_exists, Option.isSome_iff_ne_none, ne_eq, firstFree_eq_none]
  simp only [State.files, countOf_pos, Finset.mem_range]
  push Not
  refine exists_congr fun b => and_congr_right fun _ => ?_
  rw [AllocationState.eq_free_iff]

/-- A block is allocated. -/
theorem countOf_free_taken {v : ℕ → AllocationState} (hb : firstFree v n = some b) :
    countOf (Finset.range n) (fun c => update v b .TAKEN c = .FREE) =
      countOf (Finset.range n) (fun c => v c = .FREE) - 1 := by
  have hcount : countOf (Finset.range n) (fun c => v c = .FREE) =
      countOf (Finset.range n) (fun c => update v b .TAKEN c = .FREE) + 1 := by
    refine countOf_succ (Finset.mem_range.mpr (firstFree_lt hb)) (by simp) (firstFree_free hb) ?_
    intro c _ hc
    rw [update_of_ne hc]
  omega

/-- A block is given back. -/
theorem countOf_free_freed {v : ℕ → AllocationState} (hb : b < n) (htaken : v b = .TAKEN) :
    countOf (Finset.range n) (fun c => update v b .FREE c = .FREE) =
      countOf (Finset.range n) (fun c => v c = .FREE) + 1 := by
  refine countOf_succ (Finset.mem_range.mpr hb) (by simp [htaken]) (by simp) ?_
  intro c _ hc
  rw [update_of_ne hc]

/-- The block of a file that is not empty is given back. -/
theorem SeqInv.countOf_blocksWithout (h : SeqInv s) (hk : LiveFile s k)
    (hsize : 0 < (s.inodeTable k).iSize) :
    countOf (Finset.range s.dataBlocks)
      (fun c => blocksWithout s (s.inodeTable k).iDataBlock c = .FREE) = s.files.free + 1 := by
  obtain ⟨-, b, hb, hlt, htaken⟩ := h.file_block hk hsize
  rw [hb, blocksWithout_natCast hlt]
  exact countOf_free_freed hlt htaken

/-! ### Entries -/

/-- The names that the directory block holds. -/
theorem DirInv.entries_same (h : DirInv s) (h' : DirInv s') (hparams : s'.fsParams = s.fsParams)
    (hdata : s'.fsData.AgreeOn s.fsData 0 s.blockSize) : s'.files.entries = s.files.entries := by
  have hdir : s'.fsData.AgreeOn s.fsData 0 (dirEntrySize * s.maxDirEntries) :=
    hdata.mono le_rfl (by rw [Nat.zero_add, Nat.zero_add]; exact entries_le_blockSize s)
  refine h'.entries_ext fun a k => ?_
  rw [h.entries_eq_some]
  unfold Entered
  rw [maxDirEntries_congr hparams]
  exact ⟨Directory.Entered.of_same hdir, Directory.Entered.of_same hdir.symm⟩

/-- A name is entered for `k`, after bytes outside the directory block changed. -/
theorem DirInv.entries_filled {m : Memory} (h : DirInv s) (h' : DirInv s')
    (hparams : s'.fsParams = s.fsParams) (hdata : s'.fsData = Directory.fillEntry m 0 i sub k)
    (hagree : m.AgreeOn s.fsData 0 s.blockSize) (hroom : Room s i sub) (hk : k < s.inodeTableSize) :
    s'.files.entries = update s.files.entries sub (some k) := by
  have hdir : m.AgreeOn s.fsData 0 (dirEntrySize * s.maxDirEntries) :=
    hagree.mono le_rfl (by rw [Nat.zero_add, Nat.zero_add]; exact entries_le_blockSize s)
  have hdead : ¬ Directory.Live m 0 i := by
    rw [(Directory.sameEntry_of_agreeOn hdir hroom.lt).live_iff]
    exact (Directory.freeEntry_eq_some.mp hroom.first).1
  have hold : ∀ a (j : ℕ), Directory.Entered m 0 s.maxDirEntries a j ↔ Entered s a j := fun a j =>
    ⟨Directory.Entered.of_same hdir.symm, Directory.Entered.of_same hdir⟩
  refine h'.entries_ext fun a j => ?_
  unfold Entered
  rw [maxDirEntries_congr hparams, hdata, Directory.entered_fillEntry hdead hroom.lt (isInt_of_lt hk)
    (natCast_ne_neg_one k) hroom.len_lt]
  by_cases ha : a = sub
  · subst ha
    rw [update_self, Option.some_inj]
    constructor
    · rintro rfl
      exact .inl ⟨rfl, rfl⟩
    · rintro (⟨-, hj⟩ | hent)
      · exact_mod_cast hj.symm
      · obtain ⟨x, hx, hnames, -⟩ := (hold a j).mp hent
        exact absurd hnames (hroom.fresh x hx)
  · rw [update_of_ne ha, h.entries_eq_some, ← hold a j]
    exact ⟨.inr, fun hent => hent.resolve_left fun hnew => ha hnew.1⟩

theorem DirInv.entries_cleared (h : DirInv s) (h' : DirInv s') (hparams : s'.fsParams = s.fsParams)
    (hdata : s'.fsData = Directory.clearEntry s.fsData 0 i) (hi : i < s.maxDirEntries)
    (hnames : Directory.Names s.fsData 0 i sub) :
    s'.files.entries = update s.files.entries sub none := by
  refine h'.entries_ext fun a j => ?_
  unfold Entered
  rw [maxDirEntries_congr hparams, hdata, Directory.entered_clearEntry h.wf hi hnames]
  by_cases ha : a = sub
  · subst ha
    simp
  · rw [update_of_ne ha, h.entries_eq_some]
    exact ⟨fun hent => ⟨ha, hent⟩, And.right⟩

/-! ### The changes -/

namespace ExclusiveInv

/-- An inode that is created and given back at once is not seen. -/
theorem files_discarded {iType : InodeType} (h : ExclusiveInv s)
    (hfirst : firstFree s.freeinodeTs s.inodeTableSize = some k) :
    (discarded s k (.new iType)).files = s.files := by
  have he : Enabled s (.discard k iType) := .discard hfirst
  apply Files.ext
  · rfl
  · funext j
    exact he.node_eq h id rfl fun hj =>
      congrArg Inode.iNodeType (update_of_ne (firstFree_ne hfirst hj).symm _ _)
  · rfl
  · rfl

theorem files_created (h : ExclusiveInv s) (h' : DirInv (created s k i sub))
    (hfirst : firstFree s.freeinodeTs s.inodeTableSize = some k) (hroom : Room s i sub) :
    (created s k i sub).files = s.files.enter sub k (.file []) := by
  have he : Enabled s (.create k i sub) := .create hfirst hroom
  apply Files.ext
  · exact h.toDirInv.entries_filled h' rfl rfl (fun _ _ _ => rfl) hroom
      (firstFree_lt hfirst)
  · funext j
    by_cases hj : j = k
    · subst hj
      simp only [Files.enter, update_self]
      exact h'.node_eq_file.mpr
        ⟨SeqInv.liveFile_created hfirst h.toSeqInv, fileContents_created⟩
    · simp only [Files.enter, update_of_ne hj]
      exact he.node_eq h id (update_of_ne hj _ _) fun _ =>
        congrArg Inode.iNodeType (update_of_ne hj _ _)
  · rfl
  · rfl

/-- The target of a new symbolic link is stored outside the directory. -/
theorem agreeOn_target (h : ExclusiveInv s) (hb : firstFree s.freeBlocks s.dataBlocks = some b)
    (ht : tfsLookup s (some t) 0 ≠ -1) :
    (s.fsData.memcpy (b * s.blockSize) (t.strlen + 1) t.byteAt).AgreeOn s.fsData 0
      s.blockSize := by
  have hfits := (h.target_fits ht).2.2
  rw [← Nat.add_zero (b * s.blockSize)]
  exact agreeOn_directory (firstFree_ne hb h.block_taken) (by omega)

theorem files_linkDiscarded (h : ExclusiveInv s) (h' : DirInv (linkDiscarded s k b t))
    (hfirst : firstFree s.freeinodeTs s.inodeTableSize = some k)
    (hb : firstFree s.freeBlocks s.dataBlocks = some b) (ht : tfsLookup s (some t) 0 ≠ -1) :
    (linkDiscarded s k b t).files = { s.files with free := s.files.free - 1 } := by
  have he : Enabled s (.discardLink k b t) := .discardLink hfirst hb ht
  apply Files.ext
  · exact h.toDirInv.entries_same h' rfl (h.agreeOn_target hb ht)
  · funext j
    exact he.node_eq h id rfl fun hj =>
      congrArg Inode.iNodeType (update_of_ne (firstFree_ne hfirst hj).symm _ _)
  · rfl
  · exact countOf_free_taken hb

theorem files_linkCreated (h : ExclusiveInv s) (h' : ExclusiveInv (linkCreated s k b i t sub))
    (hfirst : firstFree s.freeinodeTs s.inodeTableSize = some k)
    (hb : firstFree s.freeBlocks s.dataBlocks = some b) (ht : tfsLookup s (some t) 0 ≠ -1)
    (hroom : Room s i sub) : (linkCreated s k b i t sub).files =
      { s.files.enter sub k (.link (subName (some t))) with free := s.files.free - 1 } := by
  have he : Enabled s (.createLink k b i t sub) := .createLink hfirst hb ht hroom
  apply Files.ext
  · exact h.toDirInv.entries_filled h'.toDirInv rfl rfl (h.agreeOn_target hb ht) hroom
      (firstFree_lt hfirst)
  · funext j
    by_cases hj : j = k
    · subst hj
      simp only [Files.enter, update_self]
      refine h'.node_eq_link.mpr
        ⟨⟨firstFree_lt hfirst, ?_, ?_⟩, t, (he.storedTarget h.toSeqInv).2, rfl⟩
      · simp [linkCreated, linkInode, newInode]
      · simp [linkCreated, linkInode, Inode.new]
    · simp only [Files.enter, update_of_ne hj]
      exact he.node_eq h id (update_of_ne hj _ _) fun _ =>
        congrArg Inode.iNodeType (update_of_ne hj _ _)
  · rfl
  · exact countOf_free_taken hb

theorem files_linked (h : ExclusiveInv s) (h' : DirInv (linked s k i sub)) (hk : LiveFile s k)
    (hroom : Room s i sub) :
    (linked s k i sub).files = { s.files with entries := update s.files.entries sub (some k) } := by
  have he : Enabled s (.link k i sub) := .link hk hroom
  apply Files.ext
  · exact h.toDirInv.entries_filled h' rfl rfl (fun _ _ _ => rfl) hroom hk.lt
  · funext j
    exact he.node_eq h id rfl fun _ => linked_node.1
  · rfl
  · rfl

theorem files_unlinked (h : ExclusiveInv s) (h' : DirInv (unlinked s k i)) (hpos : 0 < k)
    (htaken : s.freeinodeTs k = .TAKEN) (hi : i < s.maxDirEntries)
    (hnames : Directory.Names s.fsData 0 i sub) :
    (unlinked s k i).files = s.files.remove sub := by
  have he : Enabled s (.unlink k i) := .unlink hpos htaken hi
  apply Files.ext
  · exact h.toDirInv.entries_cleared h' rfl rfl hi hnames
  · funext j
    exact he.node_eq h id rfl fun _ => unlinked_node.1
  · rfl
  · rfl

/-- The number of blocks that deleting or emptying an inode gives back. -/
theorem freed_blocks (h : ExclusiveInv s) (hpos : 0 < k) (hlt : k < s.inodeTableSize)
    (htaken : s.freeinodeTs k = .TAKEN) : 0 < (s.inodeTable k).iSize ↔
      ∃ x xs, s.files.node k = some (.file (x :: xs)) := by
  constructor
  · intro hsize
    have htype : (s.inodeTable k).iNodeType ≠ .T_LINK := by
      intro hlink
      rw [h.link_size k hlt htaken hlink] at hsize
      exact hsize.false
    have hlive := h.toDirInv.liveFile_of_taken hpos hlt htaken htype
    have hlen : 0 < (fileContents s k).length := by
      rw [fileContents, Memory.slice_length]
      exact hsize
    obtain ⟨x, xs, hcons⟩ := List.exists_cons_of_length_pos hlen
    exact ⟨x, xs, h.toDirInv.node_eq_file.mpr ⟨hlive, hcons⟩⟩
  · rintro ⟨x, xs, hnode⟩
    obtain ⟨-, hcontents⟩ := h.toDirInv.node_eq_file.mp hnode
    by_contra hzero
    rw [fileContents_of_empty (by omega)] at hcontents
    cases hcontents

theorem files_freed (h : ExclusiveInv s) (h' : DirInv (freed (cleared s i) k)) (hpos : 0 < k)
    (hlt : k < s.inodeTableSize) (htaken : s.freeinodeTs k = .TAKEN) (hi : i < s.maxDirEntries)
    (hnames : Directory.Names s.fsData 0 i sub) :
    (freed (cleared s i) k).files = (s.files.remove sub).delete k := by
  have he : Enabled s (.free k i) := .free hpos htaken hi
  have hparams : (freed (cleared s i) k).fsParams = s.fsParams := by
    rw [freed_eq]
    rfl
  apply Files.ext
  · refine h.toDirInv.entries_cleared h' hparams ?_ hi hnames
    rw [freed_eq]
    rfl
  · funext j
    by_cases hj : j = k
    · subst hj
      simp only [Files.delete, update_self]
      refine (node_eq_none h').mpr fun hlive => ?_
      have hfree := hlive.2.2
      rw [freed_eq] at hfree
      simp at hfree
    · simp only [Files.delete, update_of_ne hj]
      refine he.node_eq h id ?_ fun _ => ?_
      · simp only [Change.apply, freed_eq]
        exact update_of_ne hj _ _
      · simp only [Change.apply, freed_eq]
        rfl
  · rw [freed_eq]
    rfl
  · have hblocks := h.freed_blocks hpos hlt htaken
    have hnode : (s.files.remove sub).node k = s.files.node k := rfl
    rw [freed_eq]
    simp only [Files.delete, hnode]
    change countOf (Finset.range s.dataBlocks) (fun b => (if 0 < (s.inodeTable k).iSize then
      blocksWithout s (s.inodeTable k).iDataBlock else s.freeBlocks) b = .FREE) = s.files.free + _
    -- a file without bytes has no block to give back, and neither does a symbolic link
    by_cases hsize : 0 < (s.inodeTable k).iSize
    · obtain ⟨x, xs, hfile⟩ := hblocks.mp hsize
      obtain ⟨hlive, -⟩ := h.toDirInv.node_eq_file.mp hfile
      rw [if_pos hsize, hfile]
      exact h.countOf_blocksWithout hlive hsize
    · rw [if_neg hsize]
      split
      · rename_i x xs hfile
        exact absurd (hblocks.mpr ⟨x, xs, hfile⟩) hsize
      · rfl

theorem files_truncate (h : ExclusiveInv s) (h' : DirInv (truncate s k)) (hk : LiveFile s k)
    (hsize : 0 < (s.inodeTable k).iSize) : (truncate s k).files = s.files.truncate k := by
  have he : Enabled s (.truncate k) := .truncate hk hsize
  obtain ⟨x, xs, hnode⟩ := (h.freed_blocks hk.pos hk.lt hk.taken).mp hsize
  have hparams : (truncate s k).fsParams = s.fsParams := by rw [truncate_eq]
  rw [Files.truncate, hnode]
  apply Files.ext
  · refine h.toDirInv.entries_same h' hparams ?_
    rw [truncate_eq]
    exact fun _ _ _ => rfl
  · funext j
    by_cases hj : j = k
    · subst hj
      simp only [update_self]
      refine h'.node_eq_file.mpr ⟨hk.congr hparams ?_ truncate_type, fileContents_truncate⟩
      rw [truncate_eq]
    · simp only [update_of_ne hj]
      refine he.node_eq h (Ne.symm hj) ?_ fun _ => truncate_type
      rw [Change.apply, truncate_eq]
  · rw [truncate_eq]
    rfl
  · rw [truncate_eq]
    exact h.countOf_blocksWithout hk hsize

theorem files_found (h : ExclusiveInv s) (hk : LiveFile s k) (mode : ℕ) :
    (Fs.found s k mode).files =
      if hasFlag mode tfsOTrunc then s.files.truncate k else s.files := by
  have hinv := h.found hk mode
  unfold Fs.found at hinv ⊢
  by_cases hsize : 0 < (s.inodeTable k).iSize
  · by_cases htrunc : hasFlag mode tfsOTrunc = true
    · rw [if_pos ⟨htrunc, hsize⟩] at hinv ⊢
      rw [if_pos htrunc]
      exact h.files_truncate hinv.toDirInv hk hsize
    · rw [if_neg fun hcond => htrunc hcond.1, if_neg htrunc]
  · have hnode : s.files.node k = some (.file []) :=
      h.toDirInv.node_eq_file.mpr ⟨hk, fileContents_of_empty (by omega)⟩
    have hsame : s.files.truncate k = s.files := by simp only [Files.truncate, hnode]
    rw [if_neg fun hcond => hsize hcond.2, hsame, ite_self]

/-- The bytes of a file that a write went to. -/
theorem overwrites_slice {m : Memory} {address size : ℕ} {buffer : ℕ → UInt8} :
    Files.Overwrites (m.slice address size) offset ((List.range n).map buffer)
      ((m.memcpy (address + offset) n buffer).slice address (max size (offset + n))) := by
  have hbyte : ∀ {m : Memory} {size i : ℕ}, i < size →
      (m.slice address size)[i]? = some (m (address + i)) := by
    intro m size i hi
    rw [List.getElem?_eq_getElem (by rwa [Memory.slice_length]), Memory.getElem_slice]
  constructor
  · simp
  · intro i hi
    rw [List.length_map, List.length_range] at hi
    rw [hbyte (by omega), Memory.memcpy_of_mem (by omega) (by omega), List.getElem?_map,
      List.getElem?_range hi, Option.map_some]
    congr 2
    omega
  · intro i hi hout
    rw [Memory.slice_length] at hi
    rw [List.length_map, List.length_range] at hout
    rw [hbyte (by omega), hbyte hi, Memory.memcpy_of_not_mem (by omega)]

theorem files_written {buffer : ℕ → UInt8} (h : ExclusiveInv s)
    (hinv : SeqInv (written s fh k b n buffer)) (hlt : fh < s.maxOpenFiles)
    (hopen : s.freeOpenFileEntries fh = .TAKEN) (hfh : (s.openFileTable fh).ofInumber = k)
    (hk : LiveFile s k) (hb : WriteBlock s k b) (hn : 0 < n)
    (hfits : (s.openFileTable fh).ofOffset + n ≤ s.blockSize) : ∃ bytes',
    Files.Overwrites (fileContents s k) (s.openFileTable fh).ofOffset ((List.range n).map buffer)
      bytes' ∧
    (written s fh k b n buffer).files =
      { s.files.place fh (some ⟨k, (s.openFileTable fh).ofOffset + n⟩) with
        node := update s.files.node k (some (.file bytes'))
        free := if fileContents s k = [] then s.files.free - 1 else s.files.free } := by
  have he : Enabled s (.write fh k b n buffer) := .write hopen hk hb hn hfits
  have hlive : LiveFile (written s fh k b n buffer) k := hk.congr rfl rfl written_type
  have hold : fileContents s k = s.fsData.slice (b * s.blockSize) (s.inodeTable k).iSize := by
    unfold WriteBlock at hb
    split at hb
    · rename_i hsize
      rw [fileContents_of_empty hsize, hsize, Memory.slice_zero]
    · rw [fileContents, hb.1, Int.toNat_natCast]
  have hnew : fileContents (written s fh k b n buffer) k =
      (s.fsData.memcpy (b * s.blockSize + (s.openFileTable fh).ofOffset) n buffer).slice
        (b * s.blockSize) (max (s.inodeTable k).iSize ((s.openFileTable fh).ofOffset + n)) := by
    simp [fileContents, written, blockSize]
  have hempty : fileContents s k = [] ↔ (s.inodeTable k).iSize = 0 := by
    rw [← List.length_eq_zero_iff, fileContents, Memory.slice_length]
  refine ⟨fileContents (written s fh k b n buffer) k, ?_, ?_⟩
  · rw [hold, hnew]
    exact overwrites_slice
  apply Files.ext
  · refine h.toDirInv.entries_same hinv.toDirInv rfl ?_
    exact agreeOn_directory (h.writeBlock_ne (h.isSafe hk.pos hk.lt hk.taken) hb) hfits
  · funext j
    by_cases hj : j = k
    · subst hj
      simp only [update_self]
      exact hinv.toDirInv.node_eq_file.mpr ⟨hlive, rfl⟩
    · simp only [update_of_ne hj]
      exact he.node_eq h (Ne.symm hj) rfl fun _ => written_type
  · funext x
    by_cases hx : x = fh
    · subst hx
      simp only [Files.place, State.files, written, update_self, hfh, Int.toNat_natCast]
      exact if_pos ⟨hlt, hopen⟩
    · simp only [Files.place, State.files, written, update_of_ne hx]
      rfl
  · -- an empty file was given a block
    by_cases hsize : (s.inodeTable k).iSize = 0
    · rw [WriteBlock, if_pos hsize] at hb
      rw [if_pos (hempty.mpr hsize)]
      simp only [State.files, written, hsize, if_true]
      exact countOf_free_taken hb
    · rw [if_neg fun hnil => hsize (hempty.mp hnil)]
      simp only [State.files, written, hsize, if_false]
      rfl

end ExclusiveInv

/-! ### Handles -/

theorem files_registered (hfirst : firstFree s.freeOpenFileEntries s.maxOpenFiles = some fh) :
    (registered s fh k offset).files = s.files.place fh (some ⟨k, offset⟩) := by
  apply Files.ext
  · rfl
  · rfl
  · funext x
    by_cases hx : x = fh
    · subst hx
      simp only [Files.place, State.files, registered, setEntry, setFreeEntry, update_self,
        Int.toNat_natCast]
      exact if_pos ⟨firstFree_lt hfirst, trivial⟩
    · simp only [Files.place, State.files, registered, setEntry, setFreeEntry, update_of_ne hx]
      rfl
  · rfl

theorem files_closed : (s.setFreeEntry fh .FREE).files = s.files.place fh none := by
  apply Files.ext
  · rfl
  · rfl
  · funext x
    by_cases hx : x = fh
    · subst hx
      simp [Files.place, State.files, setFreeEntry]
    · simp only [Files.place, State.files, setFreeEntry, update_of_ne hx]
      rfl
  · rfl

theorem files_moved (hlt : fh < s.maxOpenFiles) (hopen : s.freeOpenFileEntries fh = .TAKEN)
    (hfh : (s.openFileTable fh).ofInumber = k) :
    (s.setEntry fh { s.openFileTable fh with ofOffset := offset }).files =
      s.files.place fh (some ⟨k, offset⟩) := by
  apply Files.ext
  · rfl
  · rfl
  · funext x
    by_cases hx : x = fh
    · subst hx
      simp only [Files.place, State.files, setEntry, update_self, hfh, Int.toNat_natCast]
      exact if_pos ⟨hlt, hopen⟩
    · simp only [Files.place, State.files, setEntry, update_of_ne hx]
      rfl
  · rfl

end TfsBroker.Fs
