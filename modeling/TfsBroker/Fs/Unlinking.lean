import TfsBroker.Fs.FileContents

/-!
# Removing one name touches only that name

`tfs_unlink` clears one entry of the directory. The inode the entry referred to keeps its
bytes as long as another entry refers to it; with the last entry it is deleted, and the
block of a non-empty file given back. Nothing else changes.

The code decides by the link counter, which is the number of the entries in every state
reached by calls made one at a time.

## Main results

* `unlink_touches_name` — what a successful `tfs_unlink` changes
-/

namespace TfsBroker.Fs

open State Runs

variable {s s' : State} {name target : Option CString} {k i j b : ℕ} {sub : CString}

/-- A live entry under another name than `sub` refers to the inode `k`. -/
def OtherName (s : State) (sub : CString) (k : ℕ) : Prop :=
  ∃ i < s.maxDirEntries, Directory.dInumber s.fsData 0 i = k ∧ ¬ Directory.Names s.fsData 0 i sub

/-- What is left of the inode `k` when another name refers to it: all but one of its
links. -/
structure KeepsInode (s s' : State) (k : ℕ) : Prop where
  taken : s'.freeinodeTs k = .TAKEN
  type : (s'.inodeTable k).iNodeType = (s.inodeTable k).iNodeType
  size : (s'.inodeTable k).iSize = (s.inodeTable k).iSize
  block : (s'.inodeTable k).iDataBlock = (s.inodeTable k).iDataBlock
  links : (s'.inodeTable k).iLinksCount + 1 = (s.inodeTable k).iLinksCount
  blocks : s'.freeBlocks = s.freeBlocks
  bytes : ∀ b : ℕ, (s.inodeTable k).iDataBlock = b →
    s'.fsData.AgreeOn s.fsData (b * s.blockSize) s.blockSize

/-- The inode `k` is given back, with its block if it is a non-empty regular file. -/
structure FreesInode (s s' : State) (k : ℕ) : Prop where
  free : s'.freeinodeTs k = .FREE
  file : (s.inodeTable k).iNodeType = .T_FILE → 0 < (s.inodeTable k).iSize →
    ∃ b : ℕ, (s.inodeTable k).iDataBlock = b ∧ s.freeBlocks b = .TAKEN ∧
      s'.freeBlocks = Function.update s.freeBlocks b .FREE
  other : ¬ ((s.inodeTable k).iNodeType = .T_FILE ∧ 0 < (s.inodeTable k).iSize) →
    s'.freeBlocks = s.freeBlocks

/-- All that removing the name `target` of the inode `k` changes. -/
structure RemovesName (s s' : State) (target : Option CString) (k : ℕ) : Prop where
  gone : tfsLookup s' target rootDirInum = -1
  names : ∀ t, t ≠ target → tfsLookup s' t rootDirInum = tfsLookup s t rootDirInum
  kept : OtherName s (subName target) k → KeepsInode s s' k
  freed : ¬ OtherName s (subName target) k → FreesInode s s' k
  inodes : ∀ j, j ≠ k → s'.inodeTable j = s.inodeTable j ∧ s'.freeinodeTs j = s.freeinodeTs j
  blocks : ∀ j, j ≠ k → Owner s j → ∀ b : ℕ, (s.inodeTable j).iDataBlock = b →
    s'.freeBlocks b = s.freeBlocks b ∧
      (j ≠ rootDirInum → s'.fsData.AgreeOn s.fsData (b * s.blockSize) s.blockSize)
  contents : ∀ j, j ≠ k → LiveFile s j → fileContents s' j = fileContents s j
  handles : SameHandles s s'

/-! ### Names -/

/-- Two valid paths with the same name after the slash are the same path. -/
theorem subName_injective {t : Option CString} (ht : validPathname t = true)
    (hname : validPathname name = true) (h : subName t = subName name) : t = name := by
  have hbytes : ∀ {p : Option CString}, validPathname p = true →
      ∃ c : CString, p = some c ∧ c.bytes = 47 :: (subName p).bytes := by
    intro p hp
    cases p with
    | none => cases hp
    | some c =>
      obtain ⟨bytes, hnul⟩ := c
      cases bytes with
      | nil => cases hp
      | cons x xs =>
        simp only [validPathname, Bool.and_eq_true, beq_iff_eq] at hp
        have hx : x = 47 := hp.2
        subst hx
        exact ⟨_, rfl, rfl⟩
  obtain ⟨c, rfl, hc⟩ := hbytes ht
  obtain ⟨d, rfl, hd⟩ := hbytes hname
  rw [h, ← hd] at hc
  exact congrArg some (CString.ext' hc)

/-- After the entry of `sub` was cleared, the other names are found as before. -/
theorem DirInv.findInDir_cleared (h : DirInv s) (h' : DirInv s')
    (hparams : s'.fsParams = s.fsParams) (hdata : s'.fsData = Directory.clearEntry s.fsData 0 i)
    (hi : i < s.maxDirEntries) (hnames : Directory.Names s.fsData 0 i sub) (n : CString) :
    findInDir s' 0 n = if n = sub then -1 else findInDir s 0 n := by
  have hsame : ∀ {j}, j ≠ i → Directory.SameEntry s'.fsData s.fsData 0 j := fun hj => by
    rw [hdata]
    exact Directory.sameEntry_clearEntry hj
  have hdead : ¬ Directory.Live s'.fsData 0 i := by
    rw [hdata]
    exact Directory.not_live_clearEntry
  have hwf := h'.wf
  rw [maxDirEntries_congr hparams] at hwf
  rw [h'.findInDir_eq, h.findInDir_eq, maxDirEntries_congr hparams]
  split
  · rename_i hn
    have hnone : Directory.findEntry s'.fsData 0 s.maxDirEntries n = none := by
      refine hwf.findEntry_eq_none.mpr fun j hj hj' => ?_
      have hji : j ≠ i := by
        rintro rfl
        exact hdead hj'.1
      have hold := (hsame hji).names_iff.mp hj'
      exact hji (h.wf.distinct j hj i hi n hold (hn ▸ hnames))
    rw [hnone, Option.elim_none]
  · rename_i hn
    cases hfind : Directory.findEntry s.fsData 0 s.maxDirEntries n with
    | none =>
      have hnone : Directory.findEntry s'.fsData 0 s.maxDirEntries n = none := by
        refine hwf.findEntry_eq_none.mpr fun j hj hj' => ?_
        have hji : j ≠ i := by
          rintro rfl
          exact hdead hj'.1
        exact h.wf.findEntry_eq_none.mp hfind j hj ((hsame hji).names_iff.mp hj')
      rw [hnone, Option.elim_none, Option.elim_none]
    | some j =>
      obtain ⟨hj, hj'⟩ := h.wf.findEntry_eq_some.mp hfind
      have hji : j ≠ i := by
        rintro rfl
        exact hn (hj'.unique hnames)
      have hsome : Directory.findEntry s'.fsData 0 s.maxDirEntries n = some j :=
        hwf.findEntry_eq_some.mpr ⟨hj, (hsame hji).names_iff.mpr hj'⟩
      rw [hsome, Option.elim_some, Option.elim_some, (hsame hji).dInumber_eq]

/-- Clearing the entry of a path makes this path, and no other, unknown. -/
theorem DirInv.lookup_cleared (h : DirInv s) (h' : DirInv s')
    (hparams : s'.fsParams = s.fsParams) (hdata : s'.fsData = Directory.clearEntry s.fsData 0 i)
    (hi : i < s.maxDirEntries) (hvalid : validPathname target = true)
    (hnames : Directory.Names s.fsData 0 i (subName target)) :
    tfsLookup s' target 0 = -1 ∧ ∀ t, t ≠ target → tfsLookup s' t 0 = tfsLookup s t 0 := by
  refine ⟨?_, fun t ht => ?_⟩
  · rw [h'.tfsLookup_eq, if_pos hvalid, h.findInDir_cleared h' hparams hdata hi hnames, if_pos rfl]
  · rw [h'.tfsLookup_eq, h.tfsLookup_eq]
    split
    · rename_i hvalid'
      rw [h.findInDir_cleared h' hparams hdata hi hnames, if_neg]
      exact fun heq => ht (subName_injective hvalid' hvalid heq)
    · rfl

/-! ### The inode -/

/-- An inode has another name exactly when its link counter is more than one. -/
theorem DirInv.otherName_iff (h : DirInv s) (hpos : 0 < k) (hlt : k < s.inodeTableSize)
    (htaken : s.freeinodeTs k = .TAKEN) (hi : i < s.maxDirEntries)
    (hnames : Directory.Names s.fsData 0 i sub) (hik : Directory.dInumber s.fsData 0 i = k) :
    OtherName s sub k ↔ 1 < (s.inodeTable k).iLinksCount := by
  rw [(h.node k hpos hlt htaken).links, Directory.linkCount]
  have hi' : i ∈ Finset.range s.maxDirEntries := Finset.mem_range.mpr hi
  constructor
  · rintro ⟨j, hj, hjk, hother⟩
    by_contra hle
    have hij : i = j := Counting.eq_of_countOf_le_one (not_lt.mp hle) hi'
      hik (Finset.mem_range.mpr hj) hjk
    exact hother (hij ▸ hnames)
  · intro hcount
    by_contra hnone
    have hone : ∀ j ∈ Finset.range s.maxDirEntries, Directory.dInumber s.fsData 0 j = k → j = i := by
      intro j hj hjk
      have hj' := Finset.mem_range.mp hj
      by_contra hji
      refine hnone ⟨j, hj', hjk, fun hsub => hji ?_⟩
      exact h.wf.distinct j hj' i hi sub hsub hnames
    have hle : Counting.countOf (Finset.range s.maxDirEntries)
        (fun j => Directory.dInumber s.fsData 0 j = k) ≤ 1 :=
      Counting.countOf_le_one hone
    omega

/-- A block other than the directory's is as it was. -/
private theorem agreeOn_cleared (hi : i < s.maxDirEntries) (hb : b ≠ 0) :
    (cleared s i).fsData.AgreeOn s.fsData (b * s.blockSize) s.blockSize :=
  agreeOn_clearEntry_block hi hb

/-- An inode with another name keeps all but one of its links. -/
private theorem keepsInode_unlinked (h : DirInv s) (hpos : 0 < k) (hlt : k < s.inodeTableSize)
    (htaken : s.freeinodeTs k = .TAKEN) (hi : i < s.maxDirEntries)
    (hlinks : 1 < (s.inodeTable k).iLinksCount) : KeepsInode s (unlinked s k i) k := by
  have hold := h.node k hpos hlt htaken
  have hcount : ((s.inodeTable k).iLinksCount + 4294967295) % 4294967296 + 1
      = (s.inodeTable k).iLinksCount := by
    have := DirInv.linkCount_lt s k
    rw [← hold.links] at this
    omega
  obtain ⟨htype, hsize, hblock⟩ := unlinked_node (s := s) (k := k) (i := i) (j := k)
  refine ⟨htaken, htype, hsize, hblock, ?_, rfl, fun b hb => ?_⟩
  · simpa [unlinked, setInode] using hcount
  · refine agreeOn_cleared hi ?_
    rintro rfl
    exact hold.block_ne hb

/-- An inode without another name is given back. -/
private theorem freesInode_freed (h : SeqInv s) (hpos : 0 < k) (hlt : k < s.inodeTableSize)
    (htaken : s.freeinodeTs k = .TAKEN) : FreesInode s (freed (cleared s i) k) k := by
  rw [freed_eq]
  refine ⟨Function.update_self .., fun htype hsize => ?_, fun hempty => ?_⟩
  · have howner : Owner s k := LiveFile.owner ⟨hpos, hlt, htaken, htype⟩ hsize
    obtain ⟨b, hb, hblt, hbtaken⟩ := h.block_of_owner howner
    refine ⟨b, hb, hbtaken, ?_⟩
    dsimp only
    rw [if_pos (by exact hsize), cleared, hb]
    exact blocksWithout_natCast hblt
  · have hsize : (s.inodeTable k).iSize = 0 := by
      by_contra hne
      refine hempty ⟨?_, Nat.pos_of_ne_zero hne⟩
      -- the inode is neither the root directory's nor a link's, whose size is 0
      cases htype : (s.inodeTable k).iNodeType with
      | T_FILE => rfl
      | T_DIRECTORY => exact absurd htype (h.node k hpos hlt htaken).not_dir
      | T_LINK => exact absurd (h.link_size k hlt htaken htype) hne
    exact if_neg (by simp [cleared, hsize])

/-- Giving back an inode leaves the blocks it does not own alone. -/
private theorem FreesInode.block_eq (h : FreesInode s s' k)
    (hb : LiveFile s k → 0 < (s.inodeTable k).iSize → (s.inodeTable k).iDataBlock ≠ b)
    (hpos : 0 < k) (hlt : k < s.inodeTableSize) (htaken : s.freeinodeTs k = .TAKEN) :
    s'.freeBlocks b = s.freeBlocks b := by
  by_cases hfile : (s.inodeTable k).iNodeType = .T_FILE ∧ 0 < (s.inodeTable k).iSize
  · obtain ⟨htype, hsize⟩ := hfile
    obtain ⟨c, hc, -, hblocks⟩ := h.file htype hsize
    have hbc : b ≠ c := by
      rintro rfl
      exact hb ⟨hpos, hlt, htaken, htype⟩ hsize hc
    rw [hblocks, Function.update_of_ne hbc]
  · rw [h.other hfile]

/-- What both ways to remove a name leave alone. -/
private theorem removesName_of (h : ExclusiveInv s) (hunlink : DirInv s')
    (hi : i < s.maxDirEntries) (hvalid : validPathname target = true)
    (hnames : Directory.Names s.fsData 0 i (subName target))
    (hparams : s'.fsParams = s.fsParams) (hdata : s'.fsData = Directory.clearEntry s.fsData 0 i)
    (hnodes : ∀ j, j ≠ k → s'.inodeTable j = s.inodeTable j ∧ s'.freeinodeTs j = s.freeinodeTs j)
    (hblocks : ∀ b : ℕ, (Owner s k → (s.inodeTable k).iDataBlock ≠ b) →
      s'.freeBlocks b = s.freeBlocks b)
    (hkept : OtherName s (subName target) k → KeepsInode s s' k)
    (hfreed : ¬ OtherName s (subName target) k → FreesInode s s' k) (hsame : SameHandles s s') :
    RemovesName s s' target k := by
  obtain ⟨hgone, hother⟩ := h.toDirInv.lookup_cleared hunlink hparams hdata hi hvalid hnames
  have hbytes : ∀ b : ℕ, b ≠ 0 → s'.fsData.AgreeOn s.fsData (b * s.blockSize) s.blockSize :=
    fun b hb => by
      rw [hdata]
      exact agreeOn_clearEntry_block hi hb
  refine ⟨hgone, hother, hkept, hfreed, hnodes, fun j hj howner b hb => ⟨?_, fun hj0 => ?_⟩,
    fun j hj hlive => ?_, hsame⟩
  · refine hblocks b fun hk hbk => hj ?_
    exact h.owner_unique howner hk (hb.trans hbk.symm)
  · exact hbytes b (h.owner_block_ne howner hj0 hb)
  · have hnode := (hnodes j hj).1
    by_cases hempty : (s.inodeTable j).iSize = 0
    · rw [fileContents_of_empty hempty, fileContents_of_empty (by rw [hnode, hempty])]
    · have howner := hlive.owner (Nat.pos_of_ne_zero hempty)
      have hsame : SameBlock s s' j := ⟨by rw [hnode], by rw [hnode], by rw [hnode], fun b hb =>
        hbytes b (h.owner_block_ne howner hlive.pos.ne' hb)⟩
      exact hsame.contents h howner hparams

/-- A successful `tfs_unlink` in a state reached by calls made one at a time: the name is
gone, the other names and all other inodes, their blocks and bytes, and the open handles are
as before; the inode keeps everything but one link if it has another name, and is freed
otherwise. -/
theorem unlink_touches_name (h : Reachable next Initialised s) {r : RootExit}
    (hunlink : tfsUnlink s target = .ret (r, s')) (hret : r.ret = 0) :
    ∃ k : ℕ, tfsLookup s target rootDirInum = k ∧ RemovesName s s' target k := by
  have hinv := exclusiveInv_of_reachable h
  have hdir := (hinv.toDirInv.tfsUnlink hunlink).1
  have hsame := hinv.toRootOk.tfsUnlink_sameHandles hunlink
  rcases hinv.toDirInv.tfsUnlink_cases hunlink with ⟨rfl, rfl⟩ |
    ⟨k, i, hl, hpos, hlt, htaken, -, hi, hnames, hik, rfl, hcase⟩
  · cases hret
  have hvalid := (hinv.toDirInv.lookup hl (natCast_ne_neg_one k)).1
  have hother := hinv.toDirInv.otherName_iff hpos hlt htaken hi hnames hik
  refine ⟨k, hl, ?_⟩
  rcases hcase with ⟨hone, rfl⟩ | ⟨hmany, rfl⟩
  · refine removesName_of hinv hdir hi hvalid hnames ?_ ?_ (fun j hj => ?_) (fun b hb => ?_)
      (fun hname => ?_) (fun _ => freesInode_freed hinv.toSeqInv hpos hlt htaken) hsame
    · rw [freed_eq]
      rfl
    · rw [freed_eq]
      rfl
    · rw [freed_eq]
      exact ⟨rfl, Function.update_of_ne hj _ _⟩
    · refine (freesInode_freed hinv.toSeqInv hpos hlt htaken).block_eq (fun hlive hsize => ?_)
        hpos hlt htaken
      exact hb (hlive.owner hsize)
    · have := hother.mp hname
      omega
  · refine removesName_of hinv hdir hi hvalid hnames rfl rfl (fun j hj => ?_) (fun _ _ => rfl)
      (fun _ => keepsInode_unlinked hinv.toDirInv hpos hlt htaken hi hmany)
      (fun hname => absurd (hother.mpr hmany) hname) hsame
    exact ⟨Function.update_of_ne hj _ _, rfl⟩

/-- The name `/f1` of a file that is also called `/l1`. -/
theorem unlink_touches_name_linked : ∃ s s', Reachable next Initialised s ∧
    tfsLookup s pathL1 rootDirInum = 1 ∧ RemovesName s s' pathF1 1 := by
  obtain ⟨s, hreach, hs⟩ := exists_of_runList next
    [Call.open pathF1 tfsOCreat 1, .close 0, .link pathF1 pathL1]
    (fun s => decide (tfsLookup s pathL1 rootDirInum = 1 ∧ tfsLookup s pathF1 rootDirInum = 1) &&
      (tfsUnlink s pathF1).toOption.any fun r : RootExit × State => decide (r.1.ret = 0))
    initialised_fresh (by decide +kernel)
  obtain ⟨hl, hunlink⟩ := Bool.and_eq_true_iff.mp hs
  obtain ⟨hl1, hf1⟩ := of_decide_eq_true hl
  obtain ⟨⟨r, s'⟩, hr, hret⟩ := (Option.any_eq_true _ _).mp hunlink
  obtain ⟨k, hk, hremoves⟩ := unlink_touches_name hreach (Outcome.toOption_eq_some.mp hr)
    (of_decide_eq_true hret)
  obtain rfl : 1 = k := by exact_mod_cast hf1.symm.trans hk
  exact ⟨s, s', hreach, hl1, hremoves⟩

end TfsBroker.Fs
