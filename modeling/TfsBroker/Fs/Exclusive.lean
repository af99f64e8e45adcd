import TfsBroker.Fs.Effects
import TfsBroker.Fs.Leaks

/-!
# No write reaches the block of another inode

The root directory, a non-empty file and a symbolic link own their block, and no
block has two owners. A write stays in the block of its file, so it leaves the
directory, the targets of the symbolic links and all other files alone. The target
of a symbolic link is a name that was entered in the directory, so it fits into
the link's block.

## Main results

* `Enabled.keepsTarget` — no primitive change touches the target of a link in use
* `SeqInv.write_keeps` — a write changes at most the file its handle refers to
* `blocks_exclusive` — owners and their blocks in every reachable state
-/

namespace TfsBroker.Fs

open State Ownership Runs Relation

variable {s s' : State} {mode k j b i n fh depth : ℕ} {t sub : CString}

/-! ### The blocks of two owners -/

/-- Writing inside the block `b` leaves every other block alone. -/
theorem agreeOn_other_block {m : Memory} {c size off : ℕ} {src : ℕ → UInt8} (hbc : b ≠ c)
    (hfits : off + n ≤ size) :
    (m.memcpy (b * size + off) n src).AgreeOn m (c * size) size := by
  refine Memory.agreeOn_memcpy ?_
  rcases Nat.lt_or_gt_of_ne hbc with hlt | hgt
  · have hle : (b + 1) * size ≤ c * size := Nat.mul_le_mul_right _ hlt
    rw [Nat.succ_mul] at hle
    omega
  · have hle : (c + 1) * size ≤ b * size := Nat.mul_le_mul_right _ hgt
    rw [Nat.succ_mul] at hle
    omega

/-- Writing inside another block leaves the directory alone. -/
theorem agreeOn_directory {m : Memory} {off : ℕ} {src : ℕ → UInt8} (hb : b ≠ 0)
    (hfits : off + n ≤ s.blockSize) :
    (m.memcpy (b * s.blockSize + off) n src).AgreeOn m 0 s.blockSize := by
  have hagree : (m.memcpy (b * s.blockSize + off) n src).AgreeOn m (0 * s.blockSize) s.blockSize :=
    agreeOn_other_block hb hfits
  rwa [Nat.zero_mul] at hagree

/-- The directory's block is not touched by what happens in other blocks, and
what happens to directory entries stays in it. -/
theorem agreeOn_fillEntry_block {m : Memory} (hi : i < s.maxDirEntries) (hb : b ≠ 0) :
    (Directory.fillEntry m 0 i sub k).AgreeOn m (b * s.blockSize) s.blockSize := by
  have hle : s.blockSize ≤ b * s.blockSize := Nat.le_mul_of_pos_left _ (Nat.pos_of_ne_zero hb)
  have hentry : Directory.entryAddr 0 i + dirEntrySize ≤ 0 + dirEntrySize * s.maxDirEntries :=
    Directory.entryAddr_add_le hi
  have hdir := entries_le_blockSize s
  exact Directory.agreeOn_fillEntry (.inr (by omega))

theorem agreeOn_clearEntry_block {m : Memory} (hi : i < s.maxDirEntries) (hb : b ≠ 0) :
    (Directory.clearEntry m 0 i).AgreeOn m (b * s.blockSize) s.blockSize := by
  have hle : s.blockSize ≤ b * s.blockSize := Nat.le_mul_of_pos_left _ (Nat.pos_of_ne_zero hb)
  have hentry : Directory.entryAddr 0 i + dirEntrySize ≤ 0 + dirEntrySize * s.maxDirEntries :=
    Directory.entryAddr_add_le hi
  have hdir := entries_le_blockSize s
  exact Directory.agreeOn_clearEntry (.inr (by omega))

/-! ### The targets of symbolic links -/

/-- A symbolic link in use. -/
structure LiveLink (s : State) (k : ℕ) : Prop where
  lt : k < s.inodeTableSize
  taken : s.freeinodeTs k = .TAKEN
  link : (s.inodeTable k).iNodeType = .T_LINK

theorem LiveLink.owner (hk : LiveLink s k) : Owner s k := ⟨hk.lt, hk.taken, .inr (.inr hk.link)⟩

theorem LiveLink.not_liveFile (hk : LiveLink s k) : ¬ LiveFile s k := fun hfile => by
  have htype := hk.link
  rw [hfile.file] at htype
  cases htype

/-- The block of the inode `k` holds the string `t`. -/
def StoredTarget (s : State) (k : ℕ) (t : CString) : Prop :=
  ∃ b : ℕ, (s.inodeTable k).iDataBlock = b ∧ b < s.dataBlocks ∧
    CString.HoldsAt s.fsData (b * s.blockSize) s.blockSize t

/-- Every symbolic link in use holds a path that fits into its block. -/
def LinksStored (s : State) : Prop :=
  ∀ k, LiveLink s k → ∃ t, StoredTarget s k t ∧ validPathname (some t) = true ∧
    t.strlen ≤ maxFileName

/-- A path that was found is valid, short, and fits into a block. -/
theorem DirInv.target_fits (h : DirInv s) (ht : tfsLookup s (some t) 0 ≠ -1) :
    validPathname (some t) = true ∧ t.strlen ≤ maxFileName ∧ t.strlen < s.blockSize := by
  obtain ⟨hvalid, i, -, hi, ⟨-, hname⟩, -⟩ := h.lookup rfl ht
  have hlen : (subName (some t)).strlen < maxFileName := hname.1
  rw [subName, CString.strlen_tail] at hlen
  have hentries : 0 < s.blockSize / dirEntrySize := Nat.zero_lt_of_lt hi
  rw [Nat.div_pos_iff] at hentries
  have hd : dirEntrySize = 44 := rfl
  have hf : maxFileName = 40 := rfl
  exact ⟨hvalid, by omega, by omega⟩

/-- `j` is as it was, type, size, block and bytes of the block. -/
structure SameBlock (s s' : State) (j : ℕ) : Prop where
  type : (s'.inodeTable j).iNodeType = (s.inodeTable j).iNodeType
  size : (s'.inodeTable j).iSize = (s.inodeTable j).iSize
  block : (s'.inodeTable j).iDataBlock = (s.inodeTable j).iDataBlock
  bytes : ∀ b : ℕ, (s.inodeTable j).iDataBlock = b →
    s'.fsData.AgreeOn s.fsData (b * s.blockSize) s.blockSize

theorem StoredTarget.of_same (h : StoredTarget s j t) (hsame : SameBlock s s' j)
    (hparams : s'.fsParams = s.fsParams) : StoredTarget s' j t := by
  obtain ⟨b, hb, hlt, hholds⟩ := h
  refine ⟨b, hsame.block.trans hb, dataBlocks_congr hparams ▸ hlt, ?_⟩
  rw [blockSize_congr hparams]
  exact hholds.congr (hsame.bytes b hb).symm

theorem StoredTarget.unique {t' : CString} (h : StoredTarget s k t) (h' : StoredTarget s k t') :
    t = t' := by
  obtain ⟨b, hb, -, hholds⟩ := h
  obtain ⟨b', hb', -, hholds'⟩ := h'
  obtain rfl : b = b' := by exact_mod_cast hb.symm.trans hb'
  exact hholds.unique hholds'

/-- Reading the block of a symbolic link as a string gives its target. -/
theorem StoredTarget.strAt (h : StoredTarget s k t) : ∃ a,
    dataBlockGet s (s.inodeTable k).iDataBlock = some a ∧
      CString.strAt s.fsData a (s.dataSize - a) = some t := by
  obtain ⟨b, hb, hlt, hholds⟩ := h
  have hblock : (b + 1) * s.blockSize ≤ s.dataBlocks * s.blockSize := Nat.mul_le_mul_right _ hlt
  rw [Nat.succ_mul] at hblock
  have hroom : s.blockSize ≤ s.dataSize - b * s.blockSize := by
    rw [dataSize]
    omega
  exact ⟨b * s.blockSize, dataBlockGet_eq_some.mpr ⟨b, hb, hlt, rfl⟩,
    CString.strAt_eq_some_iff.mpr (hholds.mono hroom)⟩

private theorem sameBlock_of_node (hnode : s'.inodeTable j = s.inodeTable j)
    (hbytes : ∀ b : ℕ, (s.inodeTable j).iDataBlock = b →
      s'.fsData.AgreeOn s.fsData (b * s.blockSize) s.blockSize) : SameBlock s s' j :=
  ⟨by rw [hnode], by rw [hnode], by rw [hnode], hbytes⟩

private theorem written_bytes (h : SeqInv s) (hk : LiveFile s k) (hb : WriteBlock s k b)
    (hfits : (s.openFileTable fh).ofOffset + n ≤ s.blockSize) (hj : Owner s j) (hjk : j ≠ k)
    {buffer : ℕ → UInt8} (c : ℕ) (hc : (s.inodeTable j).iDataBlock = c) :
    (written s fh k b n buffer).fsData.AgreeOn s.fsData (c * s.blockSize) s.blockSize := by
  refine agreeOn_other_block ?_ hfits
  rintro rfl
  exact h.owner_ne_writeBlock hk hb hj hjk hc

theorem linked_node : ((linked s k i sub).inodeTable j).iNodeType = (s.inodeTable j).iNodeType ∧
    ((linked s k i sub).inodeTable j).iSize = (s.inodeTable j).iSize ∧
    ((linked s k i sub).inodeTable j).iDataBlock = (s.inodeTable j).iDataBlock := by
  by_cases hjk : j = k
  · subst hjk
    simp [linked]
  · simp [linked, Function.update_of_ne hjk]

theorem unlinked_node : ((unlinked s k i).inodeTable j).iNodeType = (s.inodeTable j).iNodeType ∧
    ((unlinked s k i).inodeTable j).iSize = (s.inodeTable j).iSize ∧
    ((unlinked s k i).inodeTable j).iDataBlock = (s.inodeTable j).iDataBlock := by
  by_cases hjk : j = k
  · subst hjk
    simp [unlinked, setInode, cleared]
  · simp [unlinked, setInode, cleared, Function.update_of_ne hjk]

theorem truncate_type :
    ((truncate s k).inodeTable j).iNodeType = (s.inodeTable j).iNodeType := by
  rw [truncate_eq]
  by_cases hjk : j = k
  · subst hjk
    simp
  · simp [Function.update_of_ne hjk]

theorem written_type {buffer : ℕ → UInt8} :
    ((written s fh k b n buffer).inodeTable j).iNodeType = (s.inodeTable j).iNodeType := by
  by_cases hjk : j = k
  · subst hjk
    simp [written]
  · simp [written, Function.update_of_ne hjk]

private theorem LiveLink.ne_zero (hj : LiveLink s j) (h : DirInv s) : j ≠ 0 := by
  rintro rfl
  have hroot := h.root_type
  rw [hj.link] at hroot
  cases hroot

/-- Only the root directory owns block 0. -/
theorem SeqInv.owner_block_ne (h : SeqInv s) (hj : Owner s j) (hj0 : j ≠ 0)
    (hb : (s.inodeTable j).iDataBlock = b) : b ≠ 0 := by
  rintro rfl
  exact (h.node j (Nat.pos_of_ne_zero hj0) hj.1 hj.2.1).block_ne hb

/-- The target of a new link is copied to a block that was free. -/
private theorem agreeOn_newTarget (h : SeqInv s) (hj : Owner s j)
    (hb : firstFree s.freeBlocks s.dataBlocks = some b) (ht : tfsLookup s (some t) 0 ≠ -1) (c : ℕ)
    (hc : (s.inodeTable j).iDataBlock = c) :
    (s.fsData.memcpy (b * s.blockSize) (t.strlen + 1) t.byteAt).AgreeOn s.fsData
      (c * s.blockSize) s.blockSize := by
  obtain ⟨c', hc', -, htaken⟩ := h.block_of_owner hj
  obtain rfl : c = c' := by exact_mod_cast hc.symm.trans hc'
  have hfits := (h.target_fits ht).2.2
  have hroom : 0 + (t.strlen + 1) ≤ s.blockSize := by omega
  exact agreeOn_other_block (firstFree_ne hb htaken) hroom

/-- The change is to the bytes or the size of the file `k`. -/
def Change.Fills (k : ℕ) : Change → Prop
  | truncate j | write _ j .. => j = k
  | _ => False

/-- No primitive change touches the block of an owner, but those that fill it. -/
theorem Enabled.keepsBlock {c : Change} (he : Enabled s c) (h : SeqInv s) (hj : Owner s j)
    (hj0 : j ≠ 0) (hfills : ¬ c.Fills j) : SameBlock s (c.apply s) j := by
  have hslot : ∀ {k}, firstFree s.freeinodeTs s.inodeTableSize = some k → j ≠ k := fun hfirst =>
    (firstFree_ne hfirst hj.2.1).symm
  cases he with
  | discard hfirst =>
    exact sameBlock_of_node (Function.update_of_ne (hslot hfirst) _ _) fun _ _ _ _ _ => rfl
  | create hfirst hroom =>
    exact sameBlock_of_node (Function.update_of_ne (hslot hfirst) _ _) fun b hb =>
      agreeOn_fillEntry_block hroom.lt (h.owner_block_ne hj hj0 hb)
  | truncate hk =>
    simp only [Change.apply, truncate_eq]
    exact sameBlock_of_node (Function.update_of_ne (Ne.symm hfills) _ _) fun _ _ _ _ _ => rfl
  | register | close | seek => exact sameBlock_of_node rfl fun _ _ _ _ _ => rfl
  | write _ hk hb _ hfits =>
    exact sameBlock_of_node (Function.update_of_ne (Ne.symm hfills) _ _)
      (written_bytes h hk hb hfits hj (Ne.symm hfills))
  | discardLink hfirst hb ht =>
    exact sameBlock_of_node (Function.update_of_ne (hslot hfirst) _ _)
      (agreeOn_newTarget h hj hb ht)
  | createLink hfirst hb ht hroom =>
    refine sameBlock_of_node (Function.update_of_ne (hslot hfirst) _ _) fun c hc x hx hx' => ?_
    exact (agreeOn_fillEntry_block hroom.lt (h.owner_block_ne hj hj0 hc) x hx hx').trans
      (agreeOn_newTarget h hj hb ht c hc x hx hx')
  | link hk hroom =>
    obtain ⟨htype, hsize, hblock⟩ := linked_node
    exact ⟨htype, hsize, hblock, fun b hb =>
      agreeOn_fillEntry_block hroom.lt (h.owner_block_ne hj hj0 hb)⟩
  | unlink hk _ hi =>
    obtain ⟨htype, hsize, hblock⟩ := unlinked_node
    exact ⟨htype, hsize, hblock, fun b hb =>
      agreeOn_clearEntry_block hi (h.owner_block_ne hj hj0 hb)⟩
  | free hk _ hi =>
    simp only [Change.apply, freed_eq]
    exact sameBlock_of_node rfl fun b hb =>
      agreeOn_clearEntry_block hi (h.owner_block_ne hj hj0 hb)

/-- No primitive change touches the target of a symbolic link in use. -/
theorem Enabled.keepsTarget {c : Change} (he : Enabled s c) (h : SeqInv s) (hj : LiveLink s j) :
    SameBlock s (c.apply s) j := by
  refine he.keepsBlock h hj.owner (hj.ne_zero h.toDirInv) fun hfills => ?_
  cases he with
  | truncate hk | write _ hk =>
    obtain rfl := hfills
    exact hj.not_liveFile hk
  | discard | create | register | close | seek | discardLink | createLink | link | unlink | free =>
    exact hfills

private theorem liveLink_of_slot (hj : LiveLink s' j) (hparams : s'.fsParams = s.fsParams)
    (hfree : s'.freeinodeTs j = s.freeinodeTs j)
    (htype : (s'.inodeTable j).iNodeType = (s.inodeTable j).iNodeType) : LiveLink s j :=
  ⟨inodeTableSize_congr hparams ▸ hj.lt, hfree ▸ hj.taken, htype ▸ hj.link⟩

/-- A symbolic link in use was in use before, or was just made. -/
theorem Enabled.liveLink {c : Change} (he : Enabled s c) (hj : LiveLink (c.apply s) j) :
    LiveLink s j ∨ ∃ b i t sub, c = .createLink j b i t sub := by
  cases he with
  | discard hfirst | discardLink hfirst =>
    have hjk := (firstFree_ne hfirst hj.taken).symm
    exact .inl (liveLink_of_slot hj rfl rfl (congrArg _ (Function.update_of_ne hjk _ _)))
  | @create k i sub hfirst hroom =>
    have hjk : j ≠ k := by
      rintro rfl
      have hlink := hj.link
      simp [Change.apply, created, newInode, Inode.new] at hlink
    exact .inl (liveLink_of_slot hj rfl (Function.update_of_ne hjk _ _)
      (congrArg _ (Function.update_of_ne hjk _ _)))
  | truncate =>
    refine .inl (liveLink_of_slot hj ?_ ?_ truncate_type) <;>
      simp only [Change.apply, truncate_eq]
  | register | close | seek => exact .inl ⟨hj.lt, hj.taken, hj.link⟩
  | write => exact .inl (liveLink_of_slot hj rfl rfl written_type)
  | @createLink k b i t sub hfirst hb ht hroom =>
    by_cases hjk : j = k
    · subst hjk
      exact .inr ⟨b, i, t, sub, rfl⟩
    · exact .inl (liveLink_of_slot hj rfl (Function.update_of_ne hjk _ _)
        (congrArg _ (Function.update_of_ne hjk _ _)))
  | link => exact .inl (liveLink_of_slot hj rfl rfl linked_node.1)
  | unlink => exact .inl (liveLink_of_slot hj rfl rfl unlinked_node.1)
  | @free k i =>
    simp only [Change.apply, freed_eq] at hj
    have hjk : j ≠ k := by
      rintro rfl
      have htaken := hj.taken
      simp at htaken
    exact .inl ⟨hj.lt, (Function.update_of_ne hjk _ _).symm.trans hj.taken, hj.link⟩

/-- A new symbolic link holds its target, a path that was found. -/
theorem Enabled.storedTarget (he : Enabled s (.createLink k b i t sub)) (h : SeqInv s) :
    tfsLookup s (some t) 0 ≠ -1 ∧ StoredTarget (linkCreated s k b i t sub) k t := by
  cases he with
  | createLink hfirst hb ht hroom =>
    obtain ⟨-, -, hfits⟩ := h.target_fits ht
    have hb0 : b ≠ 0 := firstFree_ne hb h.block_taken
    refine ⟨ht, b, by simp [linkCreated, linkInode], firstFree_lt hb, ?_⟩
    have hholds : CString.HoldsAt (linkInode s k b t).fsData (b * s.blockSize) s.blockSize t :=
      (CString.holdsAt_memcpy (Nat.lt_succ_self _)).mono hfits
    exact hholds.congr (agreeOn_fillEntry_block hroom.lt hb0).symm

/-- What holds of every stored target holds after a change, if it holds of the target
of the link the change makes. -/
theorem Enabled.storedTargets {p : CString → Prop} {c : Change} (he : Enabled s c) (h : SeqInv s)
    (hl : ∀ k, LiveLink s k → ∃ t, StoredTarget s k t ∧ p t)
    (hnew : ∀ k b i t sub, c = .createLink k b i t sub → p t) :
    ∀ k, LiveLink (c.apply s) k → ∃ t, StoredTarget (c.apply s) k t ∧ p t := by
  intro j hj
  rcases he.liveLink hj with hold | ⟨b, i, t, sub, rfl⟩
  · obtain ⟨t, hstored, ht⟩ := hl j hold
    exact ⟨t, hstored.of_same (he.keepsTarget h hold) (he.frame h.root_taken).params, ht⟩
  · exact ⟨t, (he.storedTarget h).2, hnew j b i t sub rfl⟩

theorem LinksStored.apply {c : Change} (hl : LinksStored s) (h : SeqInv s) (he : Enabled s c) :
    LinksStored (c.apply s) := by
  refine he.storedTargets h hl ?_
  rintro k b i t sub rfl
  obtain ⟨hvalid, hlen, -⟩ := h.target_fits (he.storedTarget h).1
  exact ⟨hvalid, hlen⟩

/-- What every call made alone keeps about blocks and the targets in them. -/
structure ExclusiveInv (s : State) : Prop extends SeqInv s where
  links : LinksStored s
  root_size : (s.inodeTable 0).iSize = s.blockSize

/-- Only the root directory is in use after `tfs_init`. -/
theorem not_liveLink_of_initialised (h : Initialised s) : ¬ LiveLink s k := by
  intro hk
  have hinv := tfsInit_seqInv h
  obtain ⟨heap, params, -, -, rfl⟩ := initialised_iff.mp h
  by_cases hk0 : k = 0
  · subst hk0
    exact hk.ne_zero hinv.toDirInv rfl
  · have htaken := hk.taken
    change Function.update (fun _ => AllocationState.FREE) 0 .TAKEN k = .TAKEN at htaken
    rw [Function.update_of_ne hk0] at htaken
    cases htaken

theorem tfsInit_exclusiveInv (h : Initialised s) : ExclusiveInv s := by
  have hinv := tfsInit_seqInv h
  have hlinks : LinksStored s := fun k hk => absurd hk (not_liveLink_of_initialised h)
  obtain ⟨heap, params, -, -, rfl⟩ := initialised_iff.mp h
  exact ⟨hinv, hlinks, by simp [initState, blockSize, stateInit]⟩

/-- A call that makes no symbolic link keeps what the operations rely on. -/
theorem ExclusiveInv.of_effects (h : ExclusiveInv s) (heffects : Effects s s')
    (hinv : SeqInv s') : ExclusiveInv s' := by
  have hframe : Frame s s' := heffects.invariant (P := Frame s)
    (fun hinv he _ hframe => hframe.trans (he.frame hinv.root_taken)) ⟨rfl, rfl⟩
  refine ⟨hinv, heffects.invariant (fun hinv he _ hl => hl.apply hinv he) h.links, ?_⟩
  rw [hframe.root, blockSize_congr hframe.params]
  exact h.root_size

theorem ExclusiveInv.next {c : Call} (h : ExclusiveInv s) (hnext : Fs.next s c = some s') :
    ExclusiveInv s' := by
  have hframe := h.toSeqInv.next_frame hnext
  refine ⟨h.toSeqInv.next hnext, ?_, ?_⟩
  · exact h.toSeqInv.next_invariant (fun hinv he hl => hl.apply hinv he) h.links hnext
  · rw [hframe.root, blockSize_congr hframe.params]
    exact h.root_size

/-- Every state reached by calls made one at a time. -/
theorem exclusiveInv_of_reachable (h : Reachable next Initialised s) : ExclusiveInv s :=
  h.invariant (fun _ hs => tfsInit_exclusiveInv hs) fun _ _ _ hs _ hnext => hs.next hnext

/-! ### How `tfs_open` and `tfs_sym_link` go -/

/-- A change keeps what the operations rely on, if it keeps `SeqInv`. -/
theorem ExclusiveInv.apply (h : ExclusiveInv s) (hc : Enabled s c) (hinv : SeqInv (c.apply s)) :
    ExclusiveInv (c.apply s) := by
  have hframe := hc.frame h.root_taken
  refine ⟨hinv, h.links.apply h.toSeqInv hc, ?_⟩
  rw [hframe.root, blockSize_congr hframe.params]
  exact h.root_size

/-- `tfs_sym_link` returns: the target fits into the new block. -/
theorem DirInv.tfsSymLink_ret (h : DirInv s) (target linkName : Option CString) :
    ∃ x, Fs.tfsSymLink s target linkName = .ret x := by
  unfold Fs.tfsSymLink
  split
  · simp only [h.inodeGet_root]
    split
    · exact ⟨_, rfl⟩
    rename_i htarget
    split
    · exact ⟨_, rfl⟩
    rw [inodeCreate_eq (by decide)]
    cases hfirst : firstFree s.freeinodeTs s.inodeTableSize with
    | none => exact ⟨_, rfl⟩
    | some k =>
      have hblocks : firstFree (newInode s k .T_LINK).freeBlocks (newInode s k .T_LINK).dataBlocks
          = firstFree s.freeBlocks s.dataBlocks := rfl
      simp only [dataBlockAlloc, hblocks]
      cases hb : firstFree s.freeBlocks s.dataBlocks with
      | none => exact ⟨_, rfl⟩
      | some b =>
        have hget : dataBlockGet ((newInode s k .T_LINK).setFreeBlock b .TAKEN) b
            = some (b * s.blockSize) :=
          dataBlockGet_eq_some.mpr ⟨b, rfl, firstFree_lt hb, rfl⟩
        simp only [Option.map_some, hget]
        cases target with
        | none =>
          -- a null pointer is not found
          exact absurd (by rw [h.tfsLookup_eq]; rfl) htarget
        | some t =>
          have hfits := (h.target_fits htarget).2.2
          have hblock : (b + 1) * s.blockSize ≤ s.dataBlocks * s.blockSize :=
            Nat.mul_le_mul_right _ (firstFree_lt hb)
          rw [Nat.succ_mul] at hblock
          have hdata : b * s.blockSize + (t.strlen + 1) ≤ s.dataSize := by
            rw [dataSize]
            omega
          simp only
          rw [if_pos (by exact hdata)]
          have hk0 : 0 ≠ k := (firstFree_ne hfirst h.root_taken).symm
          refine Outcome.exists_bind_eq_ret ?_ fun r => ?_
          · apply RootOk.addDirEntry_ret
            refine ⟨h.root_valid, h.block_valid, ?_, ?_⟩
            · simpa [newInode, setInode, setFreeBlock, Function.update_of_ne hk0] using h.root_type
            · simpa [newInode, setInode, setFreeBlock, Function.update_of_ne hk0] using h.root_block
          · cases r <;> exact ⟨_, rfl⟩
  · exact ⟨_, rfl⟩

theorem ExclusiveInv.tfsOpenRoot (h : ExclusiveInv s) {r : OpenRoot}
    (hopen : Fs.tfsOpenRoot s name mode = .ret (r, s')) : ExclusiveInv s' ∧
      (∀ k, r = .found k → s' = s ∧ tfsLookup s name 0 = k) ∧
      ∀ k, r = .created k → LiveFile s' k := by
  rcases h.tfsOpenRoot_cases h.root_taken hopen with ⟨rfl, rfl⟩ | ⟨k, rfl, rfl, hl⟩ |
    ⟨k, hfirst, hvalid, hneg, ⟨rfl, rfl⟩ | ⟨i, hpos, hlen, hroom, rfl, rfl⟩⟩
  · exact ⟨h, fun _ heq => (by cases heq), fun _ heq => (by cases heq)⟩
  · refine ⟨h, fun j heq => ?_, fun _ heq => (by cases heq)⟩
    obtain rfl := OpenRoot.found.inj heq
    exact ⟨rfl, hl⟩
  · exact ⟨h.apply (.discard hfirst) (h.discarded hfirst), fun _ heq => (by cases heq),
      fun _ heq => (by cases heq)⟩
  · have hnew := h.not_named (h.lookup_neg hneg) hvalid
    have hinv := h.toSeqInv.created hfirst (h.toDirInv.tfsOpenRoot hopen).1
    refine ⟨h.apply (.create hfirst ⟨hpos, hlen, hroom, hnew⟩) hinv, fun _ heq => (by cases heq),
      fun j heq => ?_⟩
    obtain rfl := OpenRoot.created.inj heq
    exact SeqInv.liveFile_created hfirst h.toSeqInv

theorem ExclusiveInv.found (h : ExclusiveInv s) (hk : LiveFile s k) (mode : ℕ) :
    ExclusiveInv (found s k mode) := by
  have hinv : SeqInv (Fs.found s k mode) := h.toSeqInv.found hk
  by_cases hcond : hasFlag mode tfsOTrunc = true ∧ 0 < (s.inodeTable k).iSize
  · rw [Fs.found, if_pos hcond] at hinv ⊢
    exact h.apply (.truncate hk hcond.2) hinv
  · rw [Fs.found, if_neg hcond]
    exact h

/-- The part of `tfs_open` under the lock of an inode found by its name. -/
theorem ExclusiveInv.tfsOpenInode_eq (h : ExclusiveInv s) (hl : tfsLookup s name 0 = k)
    (mode : ℕ) :
    (∃ t, LiveLink s k ∧ StoredTarget s k t ∧ tfsOpenInode s k mode =
      .ret (if hasFlag mode tfsOCreat then .failed else .follow t, s)) ∨
    (LiveFile s k ∧ tfsOpenInode s k mode =
      .ret (.opened (if hasFlag mode tfsOAppend then ((Fs.found s k mode).inodeTable k).iSize
        else 0), Fs.found s k mode)) := by
  obtain ⟨-, i, k', -, -, -, hk, -, hlt, htaken⟩ := h.lookup hl (natCast_ne_neg_one k)
  obtain rfl : k = k' := by exact_mod_cast hk
  have hget : inodeGet s k = some k := inodeGet_eq_some.mpr ⟨rfl, hlt⟩
  by_cases htype : (s.inodeTable k).iNodeType = .T_LINK
  · have hlive : LiveLink s k := ⟨hlt, htaken, htype⟩
    obtain ⟨t, hstored, -⟩ := h.links k hlive
    obtain ⟨a, ha, ht⟩ := hstored.strAt
    refine .inl ⟨t, hlive, hstored, ?_⟩
    by_cases hcreat : hasFlag mode tfsOCreat = true
    · simp only [tfsOpenInode, hget, htype, if_true, hcreat]
    · simp only [tfsOpenInode, hget, htype, if_true, hcreat, Bool.false_eq_true, if_false, ha, ht]
  · refine .inr ⟨h.toDirInv.liveFile hl htype, ?_⟩
    simp only [tfsOpenInode, hget, htype, if_false, Fs.found, Bool.and_eq_true, decide_eq_true_eq]

/-! ### Writes -/

/-- The handle `fhandle` refers to the file `k`. -/
def RefersTo (s : State) (fhandle : ℤ) (k : ℕ) : Prop :=
  ∃ fh, getOpenFileEntry s fhandle = some fh ∧ (s.openFileTable fh).ofInumber = k ∧
    (s.inodeTable k).iNodeType = .T_FILE

/-- A write changes the block and the inode of no owner but the file its handle
refers to. -/
theorem SeqInv.write_keeps (h : SeqInv s) {fhandle r : ℤ} {buffer : ℕ → UInt8} {toWrite : ℕ}
    (hwrite : Fs.tfsWrite s fhandle buffer toWrite = .ret (r, s')) (hj : Owner s j)
    (hother : ¬ RefersTo s fhandle j) (hb : (s.inodeTable j).iDataBlock = b) :
    s'.inodeTable j = s.inodeTable j ∧
      s'.fsData.AgreeOn s.fsData (b * s.blockSize) s.blockSize := by
  rcases h.tfsWrite_cases hwrite with ⟨rfl, -⟩ |
    ⟨fh, k, c, n, hget, hk, hlive, hc, -, -, hfits, -, rfl⟩
  · exact ⟨rfl, fun _ _ _ => rfl⟩
  · have hjk : j ≠ k := by
      rintro rfl
      exact hother ⟨fh, hget, hk, hlive.file⟩
    exact ⟨Function.update_of_ne hjk _ _, written_bytes h hlive hc hfits hj hjk b hb⟩

theorem ExclusiveInv.owner_size (h : ExclusiveInv s) (hk : Owner s k) :
    (s.inodeTable k).iSize ≤ s.blockSize := by
  obtain ⟨hlt, htaken, rfl | ⟨hfile, -⟩ | hlink⟩ := hk
  · exact h.root_size.le
  · by_cases hk0 : k = 0
    · subst hk0
      exact h.root_size.le
    · exact h.file_size k ⟨Nat.pos_of_ne_zero hk0, hlt, htaken, hfile⟩
  · rw [h.link_size k hlt htaken hlink]
    exact Nat.zero_le _

/-- In every state reached by calls made one at a time: the owned block numbers are
in range and marked `TAKEN`; no block has two owners; no owner is larger than a
block; the target of every symbolic link lies in its block; and a write changes the
inode and the block of no owner but the file its handle refers to. -/
theorem blocks_exclusive (h : Reachable next Initialised s) :
    (∀ k, Owner s k → ∃ b : ℕ, (s.inodeTable k).iDataBlock = b ∧ b < s.dataBlocks ∧
      s.freeBlocks b = .TAKEN) ∧
    (∀ j k, Owner s j → Owner s k →
      (s.inodeTable j).iDataBlock = (s.inodeTable k).iDataBlock → j = k) ∧
    (∀ k, Owner s k → (s.inodeTable k).iSize ≤ s.blockSize) ∧
    (∀ k, LiveLink s k → ∃ t, StoredTarget s k t) ∧
    ∀ fhandle buffer toWrite r s', tfsWrite s fhandle buffer toWrite = .ret (r, s') →
      ∀ k (b : ℕ), Owner s k → ¬ RefersTo s fhandle k → (s.inodeTable k).iDataBlock = b →
        s'.inodeTable k = s.inodeTable k ∧
          s'.fsData.AgreeOn s.fsData (b * s.blockSize) s.blockSize := by
  have hinv := exclusiveInv_of_reachable h
  refine ⟨fun k => hinv.block_of_owner, fun j k => hinv.owner_unique, fun k => hinv.owner_size,
    fun k hk => ?_, fun fhandle buffer toWrite r s' hwrite k b hk hother hb =>
      hinv.write_keeps hwrite hk hother hb⟩
  obtain ⟨t, ht, -⟩ := hinv.links k hk
  exact ⟨t, ht⟩

/-- The root directory, a written file and a symbolic link to it own three
different blocks. -/
theorem blocks_exclusive_three : ∃ s, Reachable next Initialised s ∧
    (Owner s 0 ∧ Owner s 1 ∧ Owner s 2) ∧ ∀ j k, Owner s j → Owner s k →
      (s.inodeTable j).iDataBlock = (s.inodeTable k).iDataBlock → j = k := by
  obtain ⟨s, hreach, hs⟩ := exists_of_runList next
    [Call.open pathF1 tfsOCreat 1, .write 0 (fun _ => 7) 1, .symLink pathF1 pathL1]
    (fun s => decide (Owner s 0 ∧ Owner s 1 ∧ Owner s 2)) initialised_fresh (by decide +kernel)
  exact ⟨s, hreach, of_decide_eq_true hs, (blocks_exclusive hreach).2.1⟩

end TfsBroker.Fs
