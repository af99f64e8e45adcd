import TfsBroker.Fs2.Directory
import TfsBroker.Fs.Unlinking

/-!
# Files of `fs2/` and handles that outlive them

An open handle can refer to an inode that was deleted, and to one that was given to
another file since. Whatever is done through such handles, no two files share a block,
and every file fits into its block. A write changes the file of its handle, and another
only through a block that its inode no longer owns.

## Main results

* `Stored` — the files and their blocks, which every call keeps
* `CallLeaves` — what a call leaves of the handles and the files it is not about
* `Stored.sparesFiles_written` — what a write leaves of the other files
-/

namespace TfsBroker.Fs2

open Ownership

variable {t u v : Fs.State} {name : Option CString} {mode k b i n fh j : ℕ} {fhandle r : ℤ}

/-- The directory agrees with the inode table, and the files have blocks of their own. -/
structure Stored (t : Fs.State) : Prop extends Sound t where
  owned : Fs.Owned t
  live : ∀ k, 0 < k → t.freeinodeTs k = .TAKEN → Fs.LiveFile t k
  size_le : ∀ k, t.freeinodeTs k = .TAKEN → (t.inodeTable k).iSize ≤ t.blockSize

/-- No handle but `fhandle` has moved, and no file in use has shrunk. -/
structure Spares (fhandle : ℤ) (t u : Fs.State) : Prop where
  handles : ∀ fh : ℕ, (fh : ℤ) ≠ fhandle → t.freeOpenFileEntries fh = .TAKEN →
    u.freeOpenFileEntries fh = .TAKEN ∧ u.openFileTable fh = t.openFileTable fh
  grows : ∀ k, t.freeinodeTs k = .TAKEN → u.freeinodeTs k = .TAKEN →
    (t.inodeTable k).iSize ≤ (u.inodeTable k).iSize

/-- What a call of a session leaves: the other handles, the files in use and the names. -/
structure CallLeaves (fhandle : ℤ) (t u : Fs.State) : Prop extends Spares fhandle t u where
  stored : Stored u
  params : u.fsParams = t.fsParams
  taken : ∀ k, t.freeinodeTs k = .TAKEN → u.freeinodeTs k = .TAKEN
  names : ∀ name (k : ℕ), Fs.tfsLookup t name 0 = k → Fs.tfsLookup u name 0 = k

/-- What a read or a write leaves, its own handle included. -/
structure Uses (fhandle : ℤ) (t u : Fs.State) : Prop extends CallLeaves fhandle t u where
  entries : u.freeOpenFileEntries = t.freeOpenFileEntries
  inodes : u.freeinodeTs = t.freeinodeTs
  inumber : ∀ fh, (u.openFileTable fh).ofInumber = (t.openFileTable fh).ofInumber

/-- The file `j` owns the block of the inode `k`, which may have been deleted. -/
def SharesBlock (t : Fs.State) (k j : ℕ) : Prop :=
  0 < (t.inodeTable k).iSize ∧ Fs.Owner t j ∧
    (t.inodeTable j).iDataBlock = (t.inodeTable k).iDataBlock

/-- No file but `k` owns the block of the inode `k`. -/
def Apart (t : Fs.State) (k : ℕ) : Prop := ∀ j, SharesBlock t k j → j = k

/-- The files in use outside `own` are still in use, with the bytes they had. -/
def SparesFiles (own : ℕ → Prop) (t u : Fs.State) : Prop :=
  ∀ j, ¬ own j → t.freeinodeTs j = .TAKEN →
    u.freeinodeTs j = .TAKEN ∧ Fs.fileContents u j = Fs.fileContents t j

namespace SparesFiles

variable {own : ℕ → Prop}

theorem trans (h : SparesFiles own t u) (h' : SparesFiles own u v) : SparesFiles own t v := by
  intro j hj htaken
  obtain ⟨hu, heq⟩ := h j hj htaken
  obtain ⟨hv, heq'⟩ := h' j hj hu
  exact ⟨hv, heq'.trans heq⟩

theorem mono {own' : ℕ → Prop} (h : SparesFiles own t u) (hle : ∀ j, own j → own' j) :
    SparesFiles own' t u := fun j hj htaken => h j (fun hown => hj (hle j hown)) htaken

/-- A step that changes no inode in use and no byte. -/
theorem of_nodes (hparams : u.fsParams = t.fsParams) (hdata : u.fsData = t.fsData)
    (hinodes : u.freeinodeTs = t.freeinodeTs)
    (hnodes : ∀ j, t.freeinodeTs j = .TAKEN → u.inodeTable j = t.inodeTable j) :
    SparesFiles own t u := by
  intro j _ hj
  refine ⟨hinodes ▸ hj, ?_⟩
  rw [Fs.fileContents, Fs.fileContents, hnodes j hj, hdata, Fs.blockSize_congr hparams]

end SparesFiles

/-! ### Names -/

/-- A name is found as before when its entry is the same. -/
theorem lookup_of_entries (h : Fs.DirInv t) (h' : Fs.DirInv u) (hparams : u.fsParams = t.fsParams)
    (hsame : ∀ j < t.maxDirEntries, Directory.Live t.fsData 0 j →
      Directory.SameEntry u.fsData t.fsData 0 j)
    (hl : Fs.tfsLookup t name 0 = k) : Fs.tfsLookup u name 0 = k := by
  obtain ⟨hvalid, j, k', hj, hnames, hjk, hk, -⟩ := h.lookup hl (Fs.natCast_ne_neg_one k)
  have hentry := hsame j hj hnames.1
  have hfind : Directory.findEntry u.fsData 0 u.maxDirEntries (subName name) = some j := by
    refine h'.wf.findEntry_eq_some.mpr ⟨?_, hentry.names_iff.mpr hnames⟩
    rwa [Fs.maxDirEntries_congr hparams]
  rw [h'.tfsLookup_eq, if_pos hvalid, h'.findInDir_eq, hfind, Option.elim_some, hentry.dInumber_eq,
    hjk, hk]

theorem lookup_of_sameDirectory (h : Fs.DirInv t) (h' : Fs.DirInv u) (hsame : SameDirectory t u)
    (hl : Fs.tfsLookup t name 0 = k) : Fs.tfsLookup u name 0 = k :=
  lookup_of_entries h h' hsame.params
    (fun _ hj _ => Directory.sameEntry_of_agreeOn hsame.bytes.symm hj) hl

/-! ### What one call keeps -/

/-- A new file in the directory. -/
theorem Sound.created {sub : CString} (h : Sound t) (hdir : Fs.DirInv (Fs.created t k i sub)) :
    Sound (Fs.created t k i sub) := by
  refine h.of_keeps ⟨hdir, rfl, fun j hj => ⟨hj.pos, hj.lt, ?_⟩⟩ (fun _ => id) fun _ => rfl
  by_cases hjk : j = k
  · subst hjk
    simp [Fs.created, Fs.newInode, Fs.Inode.new]
  · have hnode : (Fs.created t k i sub).inodeTable j = t.inodeTable j :=
      Function.update_of_ne hjk _ _
    rw [hnode]
    exact hj.block_ne

namespace CallLeaves

theorem refl (h : Stored t) : CallLeaves fhandle t t :=
  ⟨⟨fun _ _ hfh => ⟨hfh, rfl⟩, fun _ _ _ => le_rfl⟩, h, rfl, fun _ => id, fun _ _ => id⟩

theorem trans (h : CallLeaves fhandle t u) (h' : CallLeaves fhandle u v) : CallLeaves fhandle t v where
  handles fh hne hfh := by
    obtain ⟨hu, heq⟩ := h.handles fh hne hfh
    obtain ⟨hv, heq'⟩ := h'.handles fh hne hu
    exact ⟨hv, heq'.trans heq⟩
  grows k hk hk' := (h.grows k hk (h.taken k hk)).trans (h'.grows k (h.taken k hk) hk')
  stored := h'.stored
  params := h'.params.trans h.params
  taken k hk := h'.taken k (h.taken k hk)
  names name k hl := h'.names name k (h.names name k hl)

end CallLeaves

namespace Uses

theorem refl (h : Stored t) : Uses fhandle t t := ⟨.refl h, rfl, rfl, fun _ => rfl⟩

theorem trans (h : Uses fhandle t u) (h' : Uses fhandle u v) : Uses fhandle t v where
  toCallLeaves := h.toCallLeaves.trans h'.toCallLeaves
  entries := h'.entries.trans h.entries
  inodes := h'.inodes.trans h.inodes
  inumber fh := (h'.inumber fh).trans (h.inumber fh)

theorem handleOn (h : Uses fhandle t u) (hon : Fs.HandleOn t fh k) : Fs.HandleOn u fh k :=
  ⟨h.entries ▸ hon.1, (h.inumber fh).trans hon.2⟩

end Uses

namespace Stored

/-- A non-empty file owns its block. -/
theorem owner (h : Stored t) (hk : t.freeinodeTs k = .TAKEN) (hsize : 0 < (t.inodeTable k).iSize) :
    Fs.Owner t k := by
  rcases Nat.eq_zero_or_pos k with rfl | hpos
  · exact ⟨h.dir.root_valid, hk, .inl rfl⟩
  · have hlive := h.live k hpos hk
    exact ⟨hlive.lt, hk, .inr (.inl ⟨hlive.file, hsize⟩)⟩

/-- No two files share a block. -/
theorem apart (h : Stored t) (hk : t.freeinodeTs k = .TAKEN) : Apart t k := by
  rintro j ⟨hsize, hj, hblock⟩
  exact h.owned.exclusive j k _ (Fs.ownedBlock_eq_some.mpr ⟨hj, rfl⟩)
    (Fs.ownedBlock_eq_some.mpr ⟨h.owner hk hsize, hblock.symm⟩)

/-- A step that changes only the open file table. -/
theorem of_entries (h : Stored t) (hu : Sound u) (hparams : u.fsParams = t.fsParams)
    (hnodes : u.inodeTable = t.inodeTable) (hinodes : u.freeinodeTs = t.freeinodeTs)
    (hblocks : u.freeBlocks = t.freeBlocks) : Stored u where
  toSound := hu
  owned := Owns.change h.owned (Fs.blockChange_congr hparams hnodes hinodes hblocks)
  live k hpos hk := (h.live k hpos (hinodes ▸ hk)).congr hparams (by rw [hinodes]) (by rw [hnodes])
  size_le k hk := by
    rw [hnodes, Fs.blockSize_congr hparams]
    exact h.size_le k (hinodes ▸ hk)

/-- A file that could be entered nowhere leaves its inode free. -/
theorem discarded (h : Stored t) (hfirst : firstFree t.freeinodeTs t.inodeTableSize = some k)
    (hu : Sound (Fs.discarded t k (.new .T_FILE))) : Stored (Fs.discarded t k (.new .T_FILE)) := by
  have hfree := firstFree_free hfirst
  have hne : ∀ j, t.freeinodeTs j = .TAKEN →
      (Fs.discarded t k (.new .T_FILE)).inodeTable j = t.inodeTable j := by
    rintro j hj
    refine Function.update_of_ne ?_ _ _
    rintro rfl
    cases hfree.symm.trans hj
  refine ⟨hu, Owns.change h.owned (Fs.blockChange_discarded hfree _), fun j hpos hj => ?_,
    fun j hj => ?_⟩
  · exact (h.live j hpos hj).congr rfl rfl (by rw [hne j hj])
  · rw [hne j hj]
    exact h.size_le j hj

/-- A new file is empty. -/
theorem created {sub : CString} (h : Stored t)
    (hfirst : firstFree t.freeinodeTs t.inodeTableSize = some k)
    (hu : Sound (Fs.created t k i sub)) : Stored (Fs.created t k i sub) := by
  have hfree := firstFree_free hfirst
  have hk0 : k ≠ 0 := by
    rintro rfl
    cases hfree.symm.trans h.dir.root_taken
  refine ⟨hu, Owns.change h.owned (Fs.blockChange_newInode hfree hk0), fun j hpos hj => ?_,
    fun j hj => ?_⟩
  · by_cases hjk : j = k
    · subst hjk
      exact ⟨hpos, firstFree_lt hfirst, hj, by simp [Fs.created, Fs.newInode, Fs.Inode.new]⟩
    · have hold : t.freeinodeTs j = .TAKEN := (Function.update_of_ne hjk _ _).symm.trans hj
      exact (h.live j hpos hold).congr rfl (hj.trans hold.symm)
        (congrArg Fs.Inode.iNodeType (Function.update_of_ne hjk _ _))
  · by_cases hjk : j = k
    · subst hjk
      simp [Fs.created, Fs.newInode, Fs.Inode.new]
    · have hold : t.freeinodeTs j = .TAKEN := (Function.update_of_ne hjk _ _).symm.trans hj
      have hnode : (Fs.created t k i sub).inodeTable j = t.inodeTable j :=
        Function.update_of_ne hjk _ _
      rw [hnode]
      exact h.size_le j hold

/-- Entering a file in the open file table. -/
theorem tfsOpenRegister {offset : ℕ} (h : Stored t) (hu : Sound u)
    (hreg : (r, u) = Fs.tfsOpenRegister t k offset) : Stored u := by
  rcases Fs.tfsOpenRegister_cases t k offset with ⟨-, heq⟩ | ⟨fh, -, heq⟩ <;>
    rw [heq] at hreg <;> obtain ⟨-, rfl⟩ := Prod.mk.inj hreg
  · exact h
  · exact h.of_entries hu rfl rfl rfl rfl

/-! ### What each call leaves -/

/-- A handle that `tfs_open` has just given out. -/
structure NewHandle (t u : Fs.State) (fhandle : ℤ) (fh k : ℕ) : Prop where
  handle : fhandle = fh
  lt : fh < t.maxOpenFiles
  fresh : t.freeOpenFileEntries fh = .FREE
  only : ∀ fh', u.freeOpenFileEntries fh' = .TAKEN → fh' = fh ∨ t.freeOpenFileEntries fh' = .TAKEN
  on : Fs.HandleOn u fh k
  inside : (u.openFileTable fh).ofOffset ≤ (u.inodeTable k).iSize

/-- Entering a file in the open file table, after a step that left the handles alone. -/
theorem register_cases {offset : ℕ} (hleaves : CallLeaves (-1) t v) (hsame : Fs.SameHandles t v)
    (hoffset : offset ≤ (v.inodeTable k).iSize) (hu : Sound u)
    (hreg : (r, u) = Fs.tfsOpenRegister v k offset) :
    CallLeaves (-1) t u ∧ (r = -1 ∧ u.freeOpenFileEntries = t.freeOpenFileEntries ∨
      ∃ fh, NewHandle t u r fh k) := by
  rcases Fs.tfsOpenRegister_cases v k offset with ⟨-, heq⟩ | ⟨fh, hfirst, heq⟩ <;>
    rw [heq] at hreg <;> obtain ⟨rfl, rfl⟩ := Prod.mk.inj hreg
  · exact ⟨hleaves, .inl ⟨rfl, hsame.entries⟩⟩
  have hfresh := firstFree_free hfirst
  have hstored := hleaves.stored.of_entries hu rfl rfl rfl rfl
  have hmax : v.maxOpenFiles = t.maxOpenFiles := by
    rw [Fs.State.maxOpenFiles, Fs.State.maxOpenFiles, hleaves.params]
  have hlt : fh < t.maxOpenFiles := hmax ▸ firstFree_lt hfirst
  refine ⟨⟨⟨fun fh' hne hfh' => ?_, hleaves.grows⟩, hstored, hleaves.params, hleaves.taken,
    fun name k hl => ?_⟩, .inr ⟨fh, rfl, hlt, hsame.entries ▸ hfresh, fun fh' hfh' => ?_, ?_, ?_⟩⟩
  · obtain ⟨hv, heq'⟩ := hleaves.handles fh' hne hfh'
    have hne' : fh' ≠ fh := by
      rintro rfl
      cases hfresh.symm.trans hv
    refine ⟨(Function.update_of_ne hne' _ _).trans hv, ?_⟩
    exact (Function.update_of_ne hne' _ _).trans heq'
  · exact lookup_of_sameDirectory hleaves.stored.dir hu.dir (.of_data rfl rfl)
      (hleaves.names name k hl)
  · by_cases hne : fh' = fh
    · exact .inl hne
    · rw [← hsame.entries]
      exact .inr ((Function.update_of_ne hne _ _).symm.trans hfh')
  · exact ⟨Function.update_self .., by simp [Fs.registered, Fs.State.setEntry]⟩
  · simpa [Fs.registered, Fs.State.setEntry, Fs.State.setFreeEntry] using hoffset

/-- `tfs_open` that does not truncate. -/
theorem tfsOpen_leaves (h : Stored t) (htrunc : hasFlag mode tfsOTrunc = false)
    (hopen : Fs.tfsOpen t name mode 1 = .ret (r, u)) :
    CallLeaves (-1) t u ∧ (r = -1 ∧ u.freeOpenFileEntries = t.freeOpenFileEntries ∨
      ∃ fh k, NewHandle t u r fh k ∧ (hasFlag mode tfsOCreat = false → Fs.tfsLookup t name 0 = k)) := by
  have hu := h.toSound.tfsOpen hopen
  rcases h.dir.tfsOpen_cases hopen with ⟨rfl, rfl | ⟨k, hfirst, rfl⟩⟩ |
    ⟨k, i, hcreat, hfirst, hroom, hdir, hreg⟩ | ⟨k, hres, hk, hreg⟩
  · exact ⟨.refl h, .inl ⟨rfl, rfl⟩⟩
  · refine ⟨⟨⟨fun fh _ hfh => ⟨hfh, rfl⟩, fun j hj _ => ?_⟩, h.discarded hfirst hu, rfl,
      fun _ => id, fun name k hl => ?_⟩, .inl ⟨rfl, rfl⟩⟩
    · have hjk : j ≠ k := by
        rintro rfl
        cases (firstFree_free hfirst).symm.trans hj
      exact (congrArg Fs.Inode.iSize (Function.update_of_ne hjk _ _)).ge
    · exact lookup_of_sameDirectory h.dir hu.dir (.of_data rfl rfl) hl
  · -- a new file
    have hsound := h.toSound.created hdir
    have hne : ∀ j, t.freeinodeTs j = .TAKEN → j ≠ k := by
      rintro j hj rfl
      cases (firstFree_free hfirst).symm.trans hj
    have hleaves : CallLeaves (-1) t (Fs.created t k i (subName name)) := by
      refine ⟨⟨fun fh _ hfh => ⟨hfh, rfl⟩, fun j hj _ => ?_⟩, h.created hfirst hsound, rfl,
        fun j hj => (Function.update_of_ne (hne j hj) _ _).trans hj, fun name' k' hl => ?_⟩
      · exact (congrArg Fs.Inode.iSize (Function.update_of_ne (hne j hj) _ _)).ge
      · refine lookup_of_entries h.dir hdir rfl (fun j hj hlive => ?_) hl
        refine Directory.sameEntry_fillEntry ?_
        rintro rfl
        exact (Directory.freeEntry_eq_some.mp hroom.first).1 hlive
    obtain ⟨hall, hfd⟩ := register_cases hleaves ⟨rfl, rfl⟩ (Nat.zero_le _) hu hreg
    refine ⟨hall, hfd.imp_right ?_⟩
    rintro ⟨fh, hnew⟩
    exact ⟨fh, k, hnew, fun hno => by cases hcreat.symm.trans hno⟩
  · -- a file that exists
    have hfound : Fs.found t k mode = t := if_neg fun hcond => by cases htrunc.symm.trans hcond.1
    rw [hfound] at hreg
    have hoffset : (if hasFlag mode tfsOAppend = true then (t.inodeTable k).iSize else 0) ≤
        (t.inodeTable k).iSize := by
      split
      · exact le_rfl
      · exact Nat.zero_le _
    obtain ⟨hall, hfd⟩ := register_cases (.refl h) ⟨rfl, rfl⟩ hoffset hu hreg
    refine ⟨hall, hfd.imp_right ?_⟩
    rintro ⟨fh, hnew⟩
    exact ⟨fh, k, hnew, fun _ => Fs.lookup_of_resolve hres⟩

theorem tfsClose_leaves (h : Stored t) (fhandle : ℤ) :
    CallLeaves fhandle t (Fs.tfsClose t fhandle).2 := by
  have hu := h.toSound.tfsClose fhandle
  rcases Fs.tfsClose_cases t fhandle with ⟨-, heq⟩ | ⟨fh, hget, heq⟩
  · rw [heq]
    exact .refl h
  obtain ⟨rfl, -, -⟩ := Fs.getOpenFileEntry_eq_some.mp hget
  rw [heq] at hu ⊢
  refine ⟨⟨fun fh' hne hfh' => ⟨?_, rfl⟩, fun _ _ _ => le_rfl⟩, h.of_entries hu rfl rfl rfl rfl,
    rfl, fun _ => id, fun name k hl => lookup_of_sameDirectory h.dir hu.dir (.of_data rfl rfl) hl⟩
  have hne' : fh' ≠ fh := by
    rintro rfl
    exact hne rfl
  exact (Function.update_of_ne hne' _ _).trans hfh'

theorem tfsRead_uses (h : Stored t) {len : ℕ} {res : ReadResult}
    (hread : Fs.tfsRead t fhandle len = .ret (res, u)) : Uses fhandle t u := by
  have hu := h.toSound.tfsRead hread
  have hdir := h.toSound.tfsRead_sameDirectory hread
  rcases h.toSound.tfsRead_cases hread with rfl | ⟨fh, offset, rfl, rfl⟩
  · exact .refl h
  refine ⟨⟨⟨fun fh' hne hfh' => ⟨hfh', ?_⟩, fun _ _ _ => le_rfl⟩,
    h.of_entries hu rfl rfl rfl rfl, rfl, fun _ => id,
    fun name k hl => lookup_of_sameDirectory h.dir hu.dir hdir hl⟩, rfl, rfl,
    fun fh' => ?_⟩
  · refine Function.update_of_ne ?_ _ _
    rintro rfl
    exact hne rfl
  · by_cases hfh' : fh' = fh
    · subst hfh'
      simp [Fs.State.setEntry]
    · simp [Fs.State.setEntry, Function.update_of_ne hfh']

/-! ### The bytes of the files -/

theorem tfsOpen_sparesFiles {own : ℕ → Prop} (h : Stored t)
    (hcreat : hasFlag mode tfsOCreat = false) (htrunc : hasFlag mode tfsOTrunc = false)
    (hopen : Fs.tfsOpen t name mode 1 = .ret (r, u)) : SparesFiles own t u := by
  rcases h.dir.tfsOpen_cases hopen with ⟨-, rfl | ⟨k, hfirst, rfl⟩⟩ | ⟨k, i, hno, -⟩ |
    ⟨k, -, -, hreg⟩
  · exact .of_nodes rfl rfl rfl fun _ _ => rfl
  · refine .of_nodes rfl rfl rfl fun j hj => Function.update_of_ne ?_ _ _
    rintro rfl
    cases (firstFree_free hfirst).symm.trans hj
  · cases hcreat.symm.trans hno
  · have hfound : Fs.found t k mode = t := if_neg fun hcond => by cases htrunc.symm.trans hcond.1
    rw [hfound] at hreg
    rcases Fs.tfsOpenRegister_cases t k _ with ⟨-, heq⟩ | ⟨fh, -, heq⟩ <;>
      rw [heq] at hreg <;> obtain ⟨-, rfl⟩ := Prod.mk.inj hreg <;>
      exact .of_nodes rfl rfl rfl fun _ _ => rfl

theorem tfsClose_sparesFiles {own : ℕ → Prop} (t : Fs.State) (fhandle : ℤ) :
    SparesFiles own t (Fs.tfsClose t fhandle).2 := by
  rcases Fs.tfsClose_cases t fhandle with ⟨-, heq⟩ | ⟨fh, -, heq⟩ <;> rw [heq] <;>
    exact .of_nodes rfl rfl rfl fun _ _ => rfl

theorem tfsRead_sparesFiles {own : ℕ → Prop} (h : Stored t) {len : ℕ} {res : ReadResult}
    (hread : Fs.tfsRead t fhandle len = .ret (res, u)) : SparesFiles own t u := by
  rcases h.toSound.tfsRead_cases hread with rfl | ⟨fh, offset, -, rfl⟩ <;>
    exact .of_nodes rfl rfl rfl fun _ _ => rfl

/-! ### Writing -/

/-- A write to the inode `k` goes to the block of no file but one that has the block of `k`. -/
theorem writeBlock_ne (h : Stored t) (hb : Fs.WriteBlock t k b) (hj : Fs.Owner t j)
    (hne : ¬ SharesBlock t k j) : (t.inodeTable j).iDataBlock ≠ b := by
  intro hblock
  unfold Fs.WriteBlock at hb
  split at hb
  · -- the first free block
    refine Fs.not_blockTaken_of_firstFree hb (h.owned.backed j b ?_)
    exact Fs.ownedBlock_eq_some.mpr ⟨hj, hblock⟩
  · rename_i hsize
    exact hne ⟨Nat.pos_of_ne_zero hsize, hj, hblock.trans hb.1.symm⟩

/-- A write to the inode of a handle, whether or not it is in use. -/
theorem written {buffer : ℕ → UInt8} (h : Stored t) (hsafe : Fs.Safe t k)
    (hb : Fs.WriteBlock t k b) (hn : 0 < n)
    (hfits : (t.openFileTable fh).ofOffset + n ≤ t.blockSize)
    (hu : Sound (Fs.written t fh k b n buffer)) : Stored (Fs.written t fh k b n buffer) := by
  have hother : ∀ j, j ≠ k → (Fs.written t fh k b n buffer).inodeTable j = t.inodeTable j :=
    fun j hj => Function.update_of_ne hj _ _
  refine ⟨hu, ?_, fun j hpos hj => ?_, fun j hj => ?_⟩
  · cases hk : t.freeinodeTs k with
    | TAKEN =>
      have hlive := h.live k hsafe.pos hk
      exact Owns.change h.owned (Fs.blockChange_written hsafe.pos hsafe.lt hk hlive.file hb hn)
    | FREE =>
      -- the inode owns nothing, so the block it takes is nobody's
      refine Owns.mono h.owned (fun j c hj => ?_) fun c hc => ?_
      · have hjk : j ≠ k := by
          rintro rfl
          have hnone : Fs.ownedBlock (Fs.written t fh j b n buffer) j = none :=
            Fs.ownedBlock_of_free hk
          cases hnone.symm.trans hj
        have hsame : Fs.ownedBlock (Fs.written t fh k b n buffer) j = Fs.ownedBlock t j :=
          Fs.ownedBlock_congr rfl rfl fun _ => by rw [hother j hjk]; simp
        exact hsame.symm.trans hj
      · obtain ⟨c, rfl, hlt, htaken⟩ := hc
        refine ⟨c, rfl, hlt, ?_⟩
        change (if (t.inodeTable k).iSize = 0 then Function.update t.freeBlocks b .TAKEN
          else t.freeBlocks) c = .TAKEN
        split
        · by_cases hcb : c = b
          · rw [hcb, Function.update_self]
          · rwa [Function.update_of_ne hcb]
        · exact htaken
  · by_cases hjk : j = k
    · subst hjk
      exact (h.live j hpos hj).congr rfl rfl (by simp [Fs.written])
    · exact (h.live j hpos hj).congr rfl rfl (by rw [hother j hjk])
  · by_cases hjk : j = k
    · subst hjk
      simp only [Fs.written, Function.update_self]
      exact max_le (h.size_le j hj) hfits
    · rw [hother j hjk]
      exact h.size_le j hj

theorem tfsWrite_uses (h : Stored t) {buffer : ℕ → UInt8} {toWrite : ℕ}
    (hwrite : Fs.tfsWrite t fhandle buffer toWrite = .ret (r, u)) :
    Uses fhandle t u ∧ ∀ fh k : ℕ, fhandle = fh → Fs.HandleOn t fh k →
      (t.openFileTable fh).ofOffset ≤ (t.inodeTable k).iSize →
      (u.openFileTable fh).ofOffset ≤ (u.inodeTable k).iSize := by
  have hu := h.toSound.tfsWrite hwrite
  have hdir := h.toSound.tfsWrite_sameDirectory hwrite
  rcases h.toSound.tfsWrite_cases hwrite with
    rfl | ⟨fh, k, b, n, rfl, hon, hsafe, hb, hn, hfits, rfl⟩
  · exact ⟨.refl h, fun _ _ _ _ => id⟩
  refine ⟨⟨⟨⟨fun fh' hne hfh' => ⟨hfh', ?_⟩, fun j _ _ => ?_⟩,
    h.written hsafe hb hn hfits hu, rfl, fun _ => id,
    fun name k hl => lookup_of_sameDirectory h.dir hu.dir hdir hl⟩, rfl, rfl, fun fh' => ?_⟩, ?_⟩
  · refine Function.update_of_ne ?_ _ _
    rintro rfl
    exact hne rfl
  · by_cases hjk : j = k
    · subst hjk
      simp [Fs.written]
    · exact (congrArg Fs.Inode.iSize (Function.update_of_ne hjk _ _)).ge
  · by_cases hfh' : fh' = fh
    · subst hfh'
      simp [Fs.written]
    · simp [Fs.written, Function.update_of_ne hfh']
  · intro fh' k' hfh hon' _
    obtain rfl : fh = fh' := by exact_mod_cast hfh
    obtain rfl : k = k' := by exact_mod_cast hon.2.symm.trans hon'.2
    simp [Fs.written]

/-- A write changes no file but that of its handle, and one that has its block. -/
theorem sparesFiles_written {buffer : ℕ → UInt8} (h : Stored t) (hb : Fs.WriteBlock t k b)
    (hfits : (t.openFileTable fh).ofOffset + n ≤ t.blockSize) :
    SparesFiles (fun j => j = k ∨ SharesBlock t k j) t (Fs.written t fh k b n buffer) := by
  intro j hown hj
  refine ⟨hj, ?_⟩
  have hnode : (Fs.written t fh k b n buffer).inodeTable j = t.inodeTable j :=
    Function.update_of_ne (fun hjk => hown (.inl hjk)) _ _
  unfold Fs.fileContents
  rw [hnode, show (Fs.written t fh k b n buffer).blockSize = t.blockSize from rfl]
  rcases Nat.eq_zero_or_pos (t.inodeTable j).iSize with hsize | hsize
  · rw [hsize, Memory.slice_zero, Memory.slice_zero]
  have howner := h.owner hj hsize
  obtain ⟨c, hc, -, -⟩ := h.owned.backed j _ (Fs.ownedBlock_eq_some.mpr ⟨howner, rfl⟩)
  have hcb : c ≠ b := by
    rintro rfl
    exact h.writeBlock_ne hb howner (fun hshares => hown (.inr hshares)) hc
  have hle := h.size_le j hj
  rw [hc, Int.toNat_natCast]
  -- the two blocks do not overlap
  refine Memory.slice_memcpy_of_disjoint ?_
  rcases Nat.lt_or_gt_of_ne hcb with hlt | hlt
  · have hmul : (c + 1) * t.blockSize ≤ b * t.blockSize := Nat.mul_le_mul_right _ hlt
    rw [Nat.add_mul, Nat.one_mul] at hmul
    exact .inl (by omega)
  · have hmul : (b + 1) * t.blockSize ≤ c * t.blockSize := Nat.mul_le_mul_right _ hlt
    rw [Nat.add_mul, Nat.one_mul] at hmul
    exact .inr (by omega)

/-- After the write the block of the inode is still that of no other file. -/
theorem apart_written {buffer : ℕ → UInt8} (h : Stored t) (hapart : Apart t k)
    (hb : Fs.WriteBlock t k b) : Apart (Fs.written t fh k b n buffer) k := by
  rintro j ⟨-, hj, hblock⟩
  by_contra hjk
  have hnode : (Fs.written t fh k b n buffer).inodeTable j = t.inodeTable j :=
    Function.update_of_ne hjk _ _
  have howner : Fs.Owner t j := by
    obtain ⟨hlt, htaken, hkind⟩ := hj
    rw [hnode] at hkind
    exact ⟨hlt, htaken, hkind⟩
  refine h.writeBlock_ne hb howner (fun hshares => hjk (hapart j hshares)) ?_
  rw [hnode] at hblock
  simpa [Fs.written] using hblock

theorem tfsWrite_sparesFiles (h : Stored t) {buffer : ℕ → UInt8} {toWrite : ℕ}
    (hon : Fs.HandleOn t fh k) (hapart : Apart t k)
    (hwrite : Fs.tfsWrite t fh buffer toWrite = .ret (r, u)) :
    SparesFiles (· = k) t u ∧ Apart u k := by
  rcases h.toSound.tfsWrite_cases hwrite with
    rfl | ⟨fh', k', b, n, hfh, hon', -, hb, -, hfits, rfl⟩
  · exact ⟨fun _ _ hj => ⟨hj, rfl⟩, hapart⟩
  obtain rfl : fh = fh' := by exact_mod_cast hfh
  obtain rfl : k = k' := by exact_mod_cast hon.2.symm.trans hon'.2
  refine ⟨(h.sparesFiles_written hb hfits).mono fun j hown => ?_, h.apart_written hapart hb⟩
  exact hown.elim id (hapart j)

/-! ### Removing a file -/

/-- `tfs_unlink` of a file, whoever has it open. -/
theorem freed (h : Stored t) (hpos : 0 < k) (htaken : t.freeinodeTs k = .TAKEN)
    (hu : Sound (Fs.freed (Fs.cleared t i) k)) : Stored (Fs.freed (Fs.cleared t i) k) := by
  have hlive := h.live k hpos htaken
  have howned := Owns.change h.owned (Fs.blockChange_freed (i := i) h.owned hpos hlive.lt htaken
    hlive.file)
  rw [Fs.freed_eq] at *
  have hold : ∀ j, Function.update t.freeinodeTs k .FREE j = .TAKEN → t.freeinodeTs j = .TAKEN := by
    intro j hj
    by_cases hjk : j = k
    · rwa [hjk]
    · rwa [Function.update_of_ne hjk] at hj
  exact ⟨hu, howned, fun j hj hj' => (h.live j hj (hold j hj')).congr rfl
    (hj'.trans (hold j hj').symm) rfl, fun j hj => h.size_le j (hold j hj)⟩

/-- What `tfs_unlink` leaves: all handles, and the other names. -/
theorem tfsUnlink {s s' : State} {target : Option CString} (h : Stored s.toFs)
    (hunlink : tfsUnlink s target = .ret (r, s')) :
    Stored s'.toFs ∧ s'.toFs.fsParams = s.toFs.fsParams ∧
      s'.freeOpenFileEntries = s.freeOpenFileEntries ∧ Spares (-1) s.toFs s'.toFs ∧
      ∀ name (k : ℕ), (r = 0 → name ≠ target) → Fs.tfsLookup s.toFs name 0 = k →
        Fs.tfsLookup s'.toFs name 0 = k := by
  have hu := h.toSound.tfsUnlink hunlink
  rcases tfsUnlink_cases h.dir hunlink with ⟨-, -, rfl⟩ |
    ⟨k, i, hl, hpos, -, htaken, hi, hnames, -, hr, hs'⟩
  · exact ⟨h, rfl, rfl, (CallLeaves.refl h).toSpares, fun _ _ _ => id⟩
  have hentries : s'.freeOpenFileEntries = s.freeOpenFileEntries := by
    have hfreed := congrArg Fs.State.freeOpenFileEntries hs'
    rw [Fs.freed_eq] at hfreed
    exact hfreed
  obtain ⟨hvalid, -⟩ := h.dir.lookup hl (Fs.natCast_ne_neg_one k)
  rw [hs'] at hu ⊢
  refine ⟨h.freed hpos htaken hu, by rw [Fs.freed_eq]; rfl, hentries,
    ⟨fun fh _ hfh => ?_, fun j _ _ => ?_⟩, fun name k hne hl => ?_⟩
  · rw [Fs.freed_eq]
    exact ⟨hfh, rfl⟩
  · rw [Fs.freed_eq]
    exact le_rfl
  · have hcleared := h.dir.lookup_cleared hu.dir (by rw [Fs.freed_eq]; rfl)
      (by rw [Fs.freed_eq]; rfl) hi hvalid hnames
    rw [hcleared.2 name (hne hr), hl]

end Stored

/-- A handle on a file in use. -/
theorem Stored.openFile {s : State} (h : Stored s.toFs) (hon : Fs.HandleOn s.toFs fh k)
    (hlt : fh < s.maxOpenFiles) (hk : s.freeinodeTs k = .TAKEN) : OpenFile s fh k := by
  obtain ⟨k', hon', hsafe⟩ := h.handles fh hon.1
  obtain rfl : k = k' := by exact_mod_cast hon.2.symm.trans hon'.2
  refine ⟨⟨hsafe.lt, h.size_le k hk, fun hsize => ?_⟩, hlt, hon⟩
  obtain ⟨b, hb, hblt, -⟩ :=
    h.owned.backed k _ (Fs.ownedBlock_eq_some.mpr ⟨h.owner hk hsize, rfl⟩)
  exact ⟨b, hb, hblt⟩

/-- After `tfs_init` there are no files. -/
theorem Initialised.stored {s : State} (h : Initialised s) : Stored s.toFs := by
  have hinit := initialised_toFs h
  have howned := (Fs.tfsInit_owned hinit).1
  obtain ⟨heap, params, -, -, heq⟩ := Fs.initialised_iff.mp hinit
  have hroot : ∀ k, s.toFs.freeinodeTs k = .TAKEN → k = 0 := by
    intro k hk
    by_contra hk0
    rw [heq] at hk
    change Function.update (fun _ => AllocationState.FREE) 0 .TAKEN k = .TAKEN at hk
    rw [Function.update_of_ne hk0] at hk
    cases hk
  refine ⟨h.sound, howned, fun k hpos hk => absurd (hroot k hk) hpos.ne', fun k hk => ?_⟩
  rw [hroot k hk, heq]
  simp [Fs.initState, Fs.State.blockSize, Fs.stateInit]

end TfsBroker.Fs2
