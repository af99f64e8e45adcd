import TfsBroker.Fs.FilesView
import TfsBroker.Fs.Unlinking

/-!
# The calls of `fs/` do what they are for

Every call made alone answers what `Files` allows for the files behind the state, and leaves the
files that it says. There is one result for each call; each goes through the branches of the call
and finds for each branch what it means for the files.

## Main results

* `refines_open`, `refines_write`, `refines_read`, `refines_unlink`, … — the calls
-/

namespace TfsBroker.Fs

open State Function

variable {s s' : State} {name target linkName : Option CString} {mode k b n fh depth offset : ℕ}
  {a t sub : CString} {fd fhandle r : ℤ}

/-! ### When there is no room -/

theorem noInode_of_firstFree (h : DirInv s)
    (hfirst : firstFree s.freeinodeTs s.inodeTableSize = none) : s.files.NoInode s.fsParams := by
  intro k hpos hlt hnode
  exact (node_eq_none h).mp hnode ⟨hpos, hlt, firstFree_eq_none.mp hfirst k hlt⟩

theorem fresh_of_firstFree (h : DirInv s)
    (hfirst : firstFree s.freeinodeTs s.inodeTableSize = some k) : s.files.Fresh s.fsParams k := by
  refine ⟨Nat.pos_of_ne_zero (firstFree_ne hfirst h.root_taken), firstFree_lt hfirst, ?_⟩
  refine (node_eq_none h).mpr fun hlive => ?_
  have htaken := hlive.2.2
  rw [firstFree_free hfirst] at htaken
  cases htaken

theorem handle_eq_some {q : Position} : s.files.handle fh = some q ↔
    fh < s.maxOpenFiles ∧ s.freeOpenFileEntries fh = .TAKEN ∧
      q = ⟨(s.openFileTable fh).ofInumber.toNat, (s.openFileTable fh).ofOffset⟩ := by
  simp only [State.files]
  split
  · rename_i hfh
    rw [Option.some_inj]
    exact ⟨fun hq => ⟨hfh.1, hfh.2, hq.symm⟩, fun hq => hq.2.2.symm⟩
  · rename_i hfh
    simp only [reduceCtorEq, false_iff]
    exact fun hq => hfh ⟨hq.1, hq.2.1⟩

theorem noHandle_of_firstFree (hfirst : firstFree s.freeOpenFileEntries s.maxOpenFiles = none) :
    s.files.NoHandle s.fsParams := by
  intro fh hlt hnone
  rw [handle_eq_some.mpr ⟨hlt, firstFree_eq_none.mp hfirst fh hlt, rfl⟩] at hnone
  cases hnone

/-- A full directory has a name in every entry. -/
theorem noEntry_of_freeEntry (h : DirInv s)
    (hroom : Directory.freeEntry s.fsData 0 s.maxDirEntries = none) :
    s.files.NoEntry s.fsParams a := by
  have hlive := Directory.freeEntry_eq_none.mp hroom
  have hnamed : ∀ i : Fin s.maxDirEntries, ∃ a, Directory.Names s.fsData 0 i a := by
    intro i
    obtain ⟨a, -, hnames⟩ := h.wf.named i i.isLt (hlive i i.isLt)
    exact ⟨a, hnames⟩
  choose names hnames using hnamed
  refine .inl ⟨names, fun i j hij => ?_, fun i => ?_⟩
  · exact Fin.ext (h.wf.distinct i i.isLt j j.isLt (names i) (hnames i) (hij ▸ hnames j))
  · obtain ⟨k, hk, -⟩ := h.refers i i.isLt (hnames i).1
    rw [h.entries_eq_some.mpr ⟨i, i.isLt, hnames i, hk⟩]
    simp

/-- A free entry and a name that is short enough. -/
theorem DirInv.room_of_missing {i : ℕ} (h : DirInv s) (hvalid : validPathname name = true)
    (hl : tfsLookup s name 0 = -1) (hlen : ¬ maxFileName ≤ (subName name).strlen)
    (hfree : Directory.freeEntry s.fsData 0 s.maxDirEntries = some i) : Room s i (subName name) :=
  ⟨strlen_subName_pos hvalid, not_le.mp hlen, hfree, h.not_named hl hvalid⟩

/-- `add_dir_entry` on the root refuses a name, or takes it. -/
theorem DirInv.addDirEntry_missing (h : DirInv s) {u : State} (hu : RootOk u)
    (hdata : u.fsData = s.fsData) (hparams : u.fsParams = s.fsParams)
    (hvalid : validPathname name = true) (hl : tfsLookup s name 0 = -1) (inum : ℤ) :
    (s.files.NoEntry s.fsParams (subName name) ∧ addDirEntry u 0 (subName name) inum = .ret none) ∨
    ∃ i, Room s i (subName name) ∧ addDirEntry u 0 (subName name) inum =
      .ret (some { u with fsData := Directory.fillEntry s.fsData 0 i (subName name) inum }) := by
  have hpos := strlen_subName_pos hvalid
  have hmax : maxFileName = 40 := rfl
  rw [hu.addDirEntry_eq, hdata, maxDirEntries_congr hparams]
  by_cases hlen : maxFileName ≤ (subName name).strlen
  · rw [if_pos (by omega)]
    exact .inl ⟨.inr hlen, rfl⟩
  · rw [if_neg (by omega)]
    cases hfree : Directory.freeEntry s.fsData 0 s.maxDirEntries with
    | none => exact .inl ⟨noEntry_of_freeEntry h hfree, rfl⟩
    | some i => exact .inr ⟨i, h.room_of_missing hvalid hl hlen hfree, rfl⟩

/-! ### Opening -/

theorem Effects.params (h : Effects s s') : s'.fsParams = s.fsParams := by
  have hframe : Frame s s' := h.invariant (P := Frame s)
    (fun hinv he _ hframe => hframe.trans (he.frame hinv.root_taken)) ⟨rfl, rfl⟩
  exact hframe.params

theorem registers (hreg : (fd, s') = tfsOpenRegister s k offset) :
    s.files.Registers s.fsParams k offset fd s'.files := by
  rcases tfsOpenRegister_cases s k offset with ⟨hfirst, heq⟩ | ⟨fh, hfirst, heq⟩ <;>
    rw [heq] at hreg <;> obtain ⟨rfl, rfl⟩ := Prod.mk.inj hreg
  · exact .full (noHandle_of_firstFree hfirst)
  · rw [files_registered hfirst]
    refine .opens fh (firstFree_lt hfirst) ?_
    rw [Option.eq_none_iff_forall_ne_some]
    intro q hq
    have htaken := (handle_eq_some.mp hq).2.1
    rw [firstFree_free hfirst] at htaken
    cases htaken

/-- The name of a symbolic link leads where its target leads, if symbolic links are followed. -/
theorem Files.leads_link_iff {F : Files} {follow : Bool} {j : ℕ} (hentry : F.entries a = some k)
    (hnode : F.node k = some (.link t)) :
    F.Leads follow a j ↔ follow = true ∧ F.Leads follow t j := by
  constructor
  · intro hleads
    cases hleads with
    | file hentry' hnode' =>
      obtain rfl := Option.some_inj.mp (hentry.symm.trans hentry')
      rw [hnode] at hnode'
      cases hnode'
    | link hfollow hentry' hnode' hrest =>
      obtain rfl := Option.some_inj.mp (hentry.symm.trans hentry')
      obtain rfl := Node.link.inj (Option.some_inj.mp (hnode.symm.trans hnode'))
      exact ⟨hfollow, hrest⟩
  · rintro ⟨hfollow, hrest⟩
    exact .link hfollow hentry hnode hrest

/-- A symbolic link that is not followed, or leads to no file, is not opened. -/
theorem Files.Opens.unknown_link {F : Files} {p : TfsParams} (hname : nameOf name = some a)
    (hentry : F.entries a = some k) (hnode : F.node k = some (.link t))
    (hno : ∀ j, ¬ ((!hasFlag mode tfsOCreat) = true ∧ F.Leads (!hasFlag mode tfsOCreat) t j)) :
    F.Opens p name mode (-1) F := by
  refine .unknown fun name' hname' => ?_
  obtain rfl := Option.some_inj.mp (hname.symm.trans hname')
  refine ⟨fun j hleads => hno j ((leads_link_iff hentry hnode).mp hleads), fun hnone => ?_⟩
  rw [hentry] at hnone
  cases hnone

/-- `tfs_open` of a path that is entered goes on under the lock of its inode. -/
theorem tfsOpenRoot_found (h : DirInv s) (hl : tfsLookup s name 0 = k) :
    tfsOpenRoot s name mode = .ret (.found k, s) := by
  have hvalid := (h.lookup hl (natCast_ne_neg_one k)).1
  simp only [tfsOpenRoot, hvalid, if_true, h.inodeGet_root, hl, Int.natCast_nonneg,
    Int.toNat_natCast]

/-- `tfs_open` of a path that is not. -/
theorem refines_open_missing (h : ExclusiveInv s) (hvalid : validPathname name = true)
    (hl : tfsLookup s name 0 = -1)
    (hopen : tfsOpen s name mode (depth + 1) = .ret (fd, s')) :
    s.files.Opens s.fsParams name mode fd s'.files := by
  have hname : Files.nameOf name = some (subName name) := nameOf_eq_some.mpr ⟨hvalid, rfl⟩
  have hnone := h.entries_missing hvalid hl
  obtain ⟨⟨r, s1⟩, hroot, hrest⟩ := Outcome.bind_eq_ret.mp hopen
  have hopenRoot := hroot
  simp only [tfsOpenRoot, hvalid, if_true, h.inodeGet_root, hl] at hroot
  rw [if_neg (by decide)] at hroot
  split at hroot
  · rename_i hcreat
    rw [inodeCreate_eq (by decide)] at hroot
    cases hfirst : firstFree s.freeinodeTs s.inodeTableSize with
    | none =>
      simp only [hfirst] at hroot
      obtain ⟨rfl, rfl⟩ := Prod.mk.inj (Outcome.ret.inj hroot)
      obtain ⟨rfl, rfl⟩ := Prod.mk.inj (Outcome.ret.inj hrest)
      exact .full _ hname hnone hcreat (.inl (noInode_of_firstFree h.toDirInv hfirst))
    | some k =>
      simp only [hfirst] at hroot
      have hk0 := firstFree_ne hfirst h.root_taken
      have hok : RootOk (newInode s k .T_FILE) := h.of_newInode hk0
      rcases h.addDirEntry_missing hok rfl rfl hvalid hl k with
        ⟨hfull, hadd⟩ | ⟨i, hroom, hadd⟩
      · -- the inode was made before its name was refused, and is given back
        rw [hadd, Outcome.ret_bind] at hroot
        obtain ⟨rfl, rfl⟩ := Prod.mk.inj (Outcome.ret.inj hroot)
        obtain ⟨rfl, rfl⟩ := Prod.mk.inj (Outcome.ret.inj hrest)
        rw [inodeDelete_newInode (firstFree_lt hfirst) (firstFree_free hfirst),
          h.files_discarded hfirst]
        exact .full _ hname hnone hcreat (.inr hfull)
      · rw [hadd, Outcome.ret_bind] at hroot
        obtain ⟨rfl, rfl⟩ := Prod.mk.inj (Outcome.ret.inj hroot)
        have hinv : DirInv (created s k i (subName name)) :=
          (h.toDirInv.tfsOpenRoot hopenRoot).1
        have hreg : (fd, s') = tfsOpenRegister (created s k i (subName name)) k 0 :=
          (Outcome.ret.inj hrest).symm
        have hregisters := registers hreg
        rw [h.files_created hinv hfirst hroom] at hregisters
        exact .creates _ k fd _ hname hnone hcreat (fresh_of_firstFree h.toDirInv hfirst) hregisters
  · rename_i hcreat
    obtain ⟨rfl, rfl⟩ := Prod.mk.inj (Outcome.ret.inj hroot)
    obtain ⟨rfl, rfl⟩ := Prod.mk.inj (Outcome.ret.inj hrest)
    refine .unknown fun name' hname' => ?_
    obtain rfl := Option.some_inj.mp (hname.symm.trans hname')
    refine ⟨fun k hleads => ?_, fun _ => Bool.not_eq_true _ ▸ hcreat⟩
    cases hleads with
    | file hentry | link _ hentry =>
      rw [hnone] at hentry
      cases hentry

/-- `tfs_open` finds a file, follows a symbolic link, creates a file or fails. -/
theorem refines_open (h : ExclusiveInv s) (hopen : tfsOpen s name mode depth = .ret (fd, s')) :
    s.files.Opens s.fsParams name mode fd s'.files := by
  -- on the number of symbolic links that may still be followed
  induction depth generalizing name with
  | zero => cases hopen
  | succ depth ih =>
    by_cases hvalid : validPathname name = true
    · by_cases hl : tfsLookup s name 0 = -1
      · exact refines_open_missing h hvalid hl hopen
      · obtain ⟨k, hk, hname, hentry, -⟩ := h.entries_found hl
        simp only [tfsOpen, tfsOpenRoot_found h.toDirInv hk, Outcome.ret_bind] at hopen
        rcases h.tfsOpenInode_eq hk mode with ⟨t, hlive, hstored, heq⟩ | ⟨hlive, heq⟩
        · have hnode : s.files.node k = some (.link (subName (some t))) :=
            h.node_eq_link.mpr ⟨hlive, t, hstored, rfl⟩
          rw [heq, Outcome.ret_bind] at hopen
          by_cases hcreat : hasFlag mode tfsOCreat = true
          · -- a symbolic link is not followed by a call that may create a file
            rw [if_pos hcreat] at hopen
            obtain ⟨rfl, rfl⟩ := Prod.mk.inj (Outcome.ret.inj hopen)
            refine .unknown_link hname hentry hnode ?_
            rintro j ⟨hfollow, -⟩
            rw [hcreat] at hfollow
            cases hfollow
          · rw [if_neg hcreat] at hopen
            have hfollow : (!hasFlag mode tfsOCreat) = true := by simpa using hcreat
            obtain ⟨t', hstored', hvalid', -⟩ := h.links k hlive
            obtain rfl := hstored.unique hstored'
            have htarget : Files.nameOf (some t) = some (subName (some t)) :=
              nameOf_eq_some.mpr ⟨hvalid', rfl⟩
            -- the target is opened in the same state, so what it leads to decides
            have hrest := ih hopen
            generalize s'.files = F' at hrest ⊢
            cases hrest with
            | unknown hunknown =>
              refine .unknown_link hname hentry hnode ?_
              rintro j ⟨-, hleads⟩
              exact (hunknown _ htarget).1 j hleads
            | full name' _ _ hcreat' => exact absurd hcreat' hcreat
            | creates name' _ _ _ _ _ hcreat' => exact absurd hcreat' hcreat
            | finds name' j fd F₁ F' hname' hleads hfound hreg =>
              obtain rfl := Option.some_inj.mp (htarget.symm.trans hname')
              exact .finds _ j fd F₁ _ hname (.link hfollow hentry hnode hleads) hfound hreg
        · obtain ⟨bytes, hbytes⟩ : ∃ bytes, fileContents s k = bytes := ⟨_, rfl⟩
          have hnode : s.files.node k = some (.file bytes) := h.node_eq_file.mpr ⟨hlive, hbytes⟩
          rw [heq, Outcome.ret_bind] at hopen
          have hview := h.files_found hlive mode
          have hfound := h.found hlive mode
          have hsize : (found s k mode).files.size k = ((found s k mode).inodeTable k).iSize := by
            have hnode' := hfound.node_eq_file.mpr ⟨SeqInv.liveFile_found hlive, rfl⟩
            simp only [Files.size, hnode', fileContents, Memory.slice_length]
          refine .finds _ k fd (found s k mode).files _ hname (.file hentry hnode) hview ?_
          rw [hsize]
          have hparams : (found s k mode).fsParams = s.fsParams :=
            (h.toSeqInv.found_effects hlive).params
          rw [← hparams]
          exact registers (Outcome.ret.inj hopen).symm
    · -- the path is not valid
      have hroot : tfsOpenRoot s name mode = .ret (.failed, s) := by
        rw [tfsOpenRoot, if_neg hvalid]
      simp only [tfsOpen, hroot, Outcome.ret_bind] at hopen
      obtain ⟨rfl, rfl⟩ := Prod.mk.inj (Outcome.ret.inj hopen)
      exact .unknown fun name' hname' => absurd (nameOf_eq_some.mp hname').1 hvalid

/-! ### Handles -/

/-- A number that is no open handle. -/
theorem handle_eq_none (hget : getOpenFileEntry s fhandle = none) (heq : fhandle = fh) :
    s.files.handle fh = none := by
  rw [Option.eq_none_iff_forall_ne_some]
  intro q hq
  obtain ⟨hlt, htaken, -⟩ := handle_eq_some.mp hq
  rw [getOpenFileEntry_eq_some.mpr ⟨heq, hlt, htaken⟩] at hget
  cases hget

/-- An open handle stands in a file. -/
structure Standing (s : State) (fhandle : ℤ) (fh k : ℕ) : Prop where
  eq : fhandle = fh
  lt : fh < s.maxOpenFiles
  taken : s.freeOpenFileEntries fh = .TAKEN
  inumber : (s.openFileTable fh).ofInumber = k
  file : LiveFile s k
  handle : s.files.handle fh = some ⟨k, (s.openFileTable fh).ofOffset⟩
  node : s.files.node k = some (.file (fileContents s k))

theorem SeqInv.standing (h : SeqInv s) (hget : getOpenFileEntry s fhandle = some fh) :
    ∃ k, Standing s fhandle fh k ∧ inodeGet s (s.openFileTable fh).ofInumber = some k := by
  obtain ⟨heq, hlt, htaken⟩ := getOpenFileEntry_eq_some.mp hget
  obtain ⟨k, hlive, hinode, hk⟩ := h.file_of_handle hget
  refine ⟨k, ⟨heq, hlt, htaken, hk, hlive, ?_, h.node_eq_file.mpr ⟨hlive, rfl⟩⟩, hinode⟩
  rw [handle_eq_some, hk, Int.toNat_natCast]
  exact ⟨hlt, htaken, rfl⟩

theorem refines_close (s : State) (fhandle : ℤ) :
    s.files.Closes fhandle (tfsClose s fhandle).1 (tfsClose s fhandle).2.files := by
  rcases tfsClose_cases s fhandle with ⟨hget, heq⟩ | ⟨fh, hget, heq⟩ <;> rw [heq]
  · exact .unknown fun fh hfh => handle_eq_none hget hfh
  · obtain ⟨hfh, hlt, htaken⟩ := getOpenFileEntry_eq_some.mp hget
    rw [files_closed]
    exact .closes fh _ hfh (handle_eq_some.mpr ⟨hlt, htaken, rfl⟩)

/-! ### Writing and reading -/

theorem subSize_eq_sub {x y : ℕ} (hx : x < sizeRange) (hle : y ≤ x) : subSize x y = x - y := by
  unfold subSize
  rw [Nat.add_comm x, Nat.add_sub_assoc hle, Nat.add_mod_left, Nat.mod_eq_of_lt (by omega)]

/-- A write that decides to write nothing has nothing to write, or no room for it. -/
theorem min_of_clampWrite_zero {blockSize offset len : ℕ} (hlt : blockSize < sizeRange)
    (hzero : clampWrite blockSize offset len = 0) : min len (blockSize - offset) = 0 := by
  unfold clampWrite at hzero
  split at hzero
  · by_cases hle : offset ≤ blockSize
    · rw [subSize_eq_sub hlt hle] at hzero
      omega
    · omega
  · omega

/-- A write that stays in the block writes as much as fits. -/
theorem clampWrite_of_fits {blockSize offset len : ℕ} (hlt : blockSize < sizeRange)
    (hfits : offset + clampWrite blockSize offset len ≤ blockSize) :
    clampWrite blockSize offset len = min len (blockSize - offset) := by
  unfold clampWrite at hfits ⊢
  split at hfits
  · rename_i hcond
    rw [if_pos hcond, subSize_eq_sub hlt (by omega)]
    have hmod := Nat.mod_le (len + offset) sizeRange
    omega
  · rename_i hcond
    rw [if_neg hcond]
    omega

/-- A write that decides to write something was asked to, or stands behind the block. -/
theorem len_pos_of_clampWrite {blockSize offset len : ℕ}
    (hpos : 0 < clampWrite blockSize offset len) : 0 < len ∨ blockSize < offset := by
  unfold clampWrite at hpos
  split at hpos
  · rename_i hcond
    have hmod := Nat.mod_le (len + offset) sizeRange
    omega
  · exact .inl hpos

theorem blockSize_lt (h : DirInv s) : s.blockSize < sizeRange :=
  (blockSize_le_dataSize h.block_valid).trans_lt (dataSize_lt_sizeRange s)

theorem refines_write {buffer : ℕ → UInt8} {len : ℕ} (h : ExclusiveInv s)
    (hwrite : tfsWrite s fhandle buffer len = .ret (r, s')) :
    s.files.Writes s.fsParams fhandle buffer len r s'.files := by
  have hinv := h.toSeqInv.tfsWrite hwrite
  have hblock := blockSize_lt h.toDirInv
  unfold tfsWrite at hwrite
  cases hget : getOpenFileEntry s fhandle with
  | none =>
    rw [hget] at hwrite
    obtain ⟨rfl, rfl⟩ := Prod.mk.inj (Outcome.ret.inj hwrite)
    exact .unknown fun fh hfh => handle_eq_none hget hfh
  | some fh =>
    obtain ⟨k, hst, hinode⟩ := h.standing hget
    simp only [hget, hinode] at hwrite
    rcases tfsWriteBody_eq s fh k buffer (rfl : _ = clampWrite _ _ len) with
      ⟨hzero, heq⟩ | ⟨hpos, hnone, heq⟩ | ⟨b, hpos, hb, heq⟩ <;> rw [heq] at hwrite
    · obtain ⟨rfl, rfl⟩ := Prod.mk.inj (Outcome.ret.inj hwrite)
      exact .nothing fh _ hst.eq hst.handle (min_of_clampWrite_zero hblock hzero)
    · obtain ⟨rfl, rfl⟩ := Prod.mk.inj (Outcome.ret.inj hwrite)
      -- only an empty file finds no block to write to
      have hsize : (s.inodeTable k).iSize = 0 := by
        by_contra hne
        obtain ⟨-, b, hkb, hlt, -⟩ := h.file_block hst.file (Nat.pos_of_ne_zero hne)
        refine hnone b ?_
        rw [WriteBlock, if_neg hne]
        exact ⟨hkb, hlt⟩
      have hfree : s.files.free = 0 := by
        by_contra hne
        obtain ⟨b, hb⟩ := files_free_pos.mp (Nat.pos_of_ne_zero hne)
        refine hnone b ?_
        rw [WriteBlock, if_pos hsize]
        exact hb
      have hnode := hst.node
      rw [fileContents_of_empty hsize] at hnode
      exact .noBlock fh _ hst.eq hst.handle hnode hfree (len_pos_of_clampWrite hpos)
    · split at hwrite
      · rename_i hfits
        obtain ⟨rfl, rfl⟩ := Prod.mk.inj (Outcome.ret.inj hwrite)
        have hfits' := offset_add_clampWrite_le (dataSize_lt_sizeRange s) hpos (by omega)
        obtain ⟨bytes', hbytes, hview⟩ := h.files_written hinv hst.lt hst.taken hst.inumber
          hst.file hb hpos hfits'
        rw [hview]
        refine .writes fh _ (fileContents s k) bytes' _ hst.eq hst.handle hst.node
          (clampWrite_of_fits hblock hfits') hpos (fun hnil => ?_) hbytes
        have hsize : (s.inodeTable k).iSize = 0 := by
          rw [← List.length_eq_zero_iff, fileContents, Memory.slice_length] at hnil
          exact hnil
        rw [WriteBlock, if_pos hsize] at hb
        exact files_free_pos.mpr ⟨b, hb⟩
      · cases hwrite

/-- A handle that is moved to where it stands. -/
theorem place_same {F : Files} {q : Position} (h : F.handle fh = some q) :
    F.place fh (some q) = F := by
  rw [Files.place, ← h, update_eq_self]

theorem refines_read {len : ℕ} {r : ReadResult} (h : ExclusiveInv s)
    (hread : tfsRead s fhandle len = .ret (r, s')) :
    s.files.Reads fhandle len r s'.files := by
  cases hget : getOpenFileEntry s fhandle with
  | none =>
    rw [tfsRead, hget] at hread
    obtain ⟨rfl, rfl⟩ := Prod.mk.inj (Outcome.ret.inj hread)
    exact .unknown fun fh hfh => handle_eq_none hget hfh
  | some fh =>
    obtain ⟨k, hst, hinode⟩ := h.standing hget
    by_cases hle : (s.openFileTable fh).ofOffset ≤ (s.inodeTable k).iSize
    · rw [h.tfsRead_inside hget hst.inumber hst.file hle rfl] at hread
      obtain ⟨rfl, rfl⟩ := Prod.mk.inj (Outcome.ret.inj hread)
      have hlength : (((fileContents s k).drop (s.openFileTable fh).ofOffset).take len).length =
          min len ((s.inodeTable k).iSize - (s.openFileTable fh).ofOffset) := by
        rw [List.length_take, List.length_drop, fileContents, Memory.slice_length]
      rw [files_moved hst.lt hst.taken hst.inumber, ← hlength]
      refine .reads fh _ (fileContents s k) _ hst.eq hst.handle hst.node ?_ rfl
      rw [fileContents, Memory.slice_length]
      exact hle
    · -- the size minus the offset wraps around, so that no byte of the file is read
      have hbehind : (fileContents s k).length < (s.openFileTable fh).ofOffset := by
        rw [fileContents, Memory.slice_length]
        exact not_le.mp hle
      simp only [tfsRead, hget, hinode] at hread
      rcases tfsReadBody_cases hread with ⟨rfl, hnil, ⟨hr, -⟩ | ⟨hr, -⟩⟩ |
        ⟨b, n, -, -, hn, -, -, rfl, rfl⟩
      · obtain rfl : r = ⟨-1, []⟩ := by
          cases r
          simp_all
        exact .behindFails fh _ _ hst.eq hst.handle hst.node hbehind
      · obtain rfl : r = ⟨([] : List UInt8).length, []⟩ := by
          cases r
          simp_all
        have hread := Files.Reads.behind (F := s'.files) fh _ _ [] hst.eq hst.handle hst.node
          hbehind (Nat.zero_le len)
        rw [place_same (by exact hst.handle)] at hread
        exact hread
      · rw [files_moved hst.lt hst.taken hst.inumber]
        have hlen :
            (s.fsData.slice (b * s.blockSize + (s.openFileTable fh).ofOffset) n).length = n :=
          Memory.slice_length
        have hread := Files.Reads.behind (F := s.files) fh _ _ _ hst.eq hst.handle hst.node hbehind
          (hlen.le.trans (hn ▸ clampRead_le))
        rw [hlen] at hread
        exact hread

/-! ### Linking -/

theorem refines_link {r : RootExit} (h : ExclusiveInv s)
    (hlink : tfsLink s target linkName = .ret (r, s')) :
    s.files.Links s.fsParams target linkName r.ret s'.files := by
  have hinv := h.toSeqInv.tfsLink hlink
  by_cases hvalid : validPathname linkName = true
  · have hname : Files.nameOf linkName = some (subName linkName) :=
      nameOf_eq_some.mpr ⟨hvalid, rfl⟩
    simp only [tfsLink, if_pos hvalid, h.inodeGet_root] at hlink
    by_cases htarget : tfsLookup s target 0 = -1
    · rw [if_pos htarget] at hlink
      obtain ⟨rfl, rfl⟩ := Prod.mk.inj (Outcome.ret.inj hlink)
      exact .unknown (h.lookup_eq_none.mpr htarget)
    rw [if_neg htarget] at hlink
    by_cases hmissing : tfsLookup s linkName 0 = -1
    · rw [if_neg (not_not.mpr hmissing)] at hlink
      obtain ⟨k, hk, -, -, hlookup⟩ := h.entries_found htarget
      obtain ⟨-, -, j, -, -, -, hj, hpos, hlt, htaken⟩ := h.lookup rfl htarget
      obtain rfl : k = j := by exact_mod_cast hk.symm.trans hj
      simp only [hk, inodeGet_eq_some.mpr ⟨rfl, hlt⟩] at hlink
      by_cases htype : (s.inodeTable k).iNodeType = .T_LINK
      · rw [if_pos htype] at hlink
        obtain ⟨rfl, rfl⟩ := Prod.mk.inj (Outcome.ret.inj hlink)
        have hlive : LiveLink s k := ⟨hlt, htaken, htype⟩
        obtain ⟨t, hstored, -⟩ := h.links k hlive
        exact .isLink k _ hlookup (h.node_eq_link.mpr ⟨hlive, t, hstored, rfl⟩)
      · rw [if_neg htype] at hlink
        have hlive := h.liveFile_of_taken hpos hlt htaken htype
        rcases h.addDirEntry_missing h.toRootOk rfl rfl hvalid hmissing k with
          ⟨hfull, hadd⟩ | ⟨i, hroom, hadd⟩ <;> rw [hadd, Outcome.ret_bind] at hlink
        · obtain ⟨rfl, rfl⟩ := Prod.mk.inj (Outcome.ret.inj hlink)
          exact .full _ hname hfull
        · obtain ⟨rfl, rfl⟩ := Prod.mk.inj (Outcome.ret.inj hlink)
          have hview := h.files_linked hinv.toDirInv hlive hroom
          have hlinks := Files.Links.links (p := s.fsParams) _ k _ hname
            (h.entries_missing hvalid hmissing) hlookup (h.node_eq_file.mpr ⟨hlive, rfl⟩)
          rw [← hview] at hlinks
          exact hlinks
    · rw [if_pos hmissing] at hlink
      obtain ⟨rfl, rfl⟩ := Prod.mk.inj (Outcome.ret.inj hlink)
      obtain ⟨j, -, -, hentry, -⟩ := h.entries_found hmissing
      exact .exists _ j hname hentry
  · rw [tfsLink, if_neg hvalid] at hlink
    obtain ⟨rfl, rfl⟩ := Prod.mk.inj (Outcome.ret.inj hlink)
    exact .badName (if_neg hvalid)

/-- Nothing changed, for one of the reasons that the call knows. -/
theorem refines_symLink_same (h : ExclusiveInv s)
    (hwhy : validPathname linkName = true → tfsLookup s target 0 ≠ -1 →
      tfsLookup s linkName 0 = -1 → firstFree s.freeinodeTs s.inodeTableSize = none) :
    s.files.SymLinks s.fsParams target linkName (-1) s.files := by
  by_cases hvalid : validPathname linkName = true
  · by_cases htarget : tfsLookup s target 0 = -1
    · exact .unknown (h.lookup_eq_none.mpr htarget)
    · by_cases hmissing : tfsLookup s linkName 0 = -1
      · exact .full (.inl (noInode_of_firstFree h.toDirInv (hwhy hvalid htarget hmissing)))
      · obtain ⟨j, -, hname, hentry, -⟩ := h.entries_found hmissing
        exact .exists _ j hname hentry
  · exact .badName (if_neg hvalid)

theorem refines_symLink {r : RootExit} (h : ExclusiveInv s)
    (hlink : tfsSymLink s target linkName = .ret (r, s')) (hinv : ExclusiveInv s') :
    s.files.SymLinks s.fsParams target linkName r.ret s'.files := by
  rcases h.tfsSymLink_cases h.root_taken hlink with ⟨rfl, rfl, hwhy⟩ | ⟨k, hfirst, hvalid, htarget,
    hmissing, hcases⟩
  · exact refines_symLink_same h hwhy
  have hname : Files.nameOf linkName = some (subName linkName) := nameOf_eq_some.mpr ⟨hvalid, rfl⟩
  have hnone := h.entries_missing hvalid hmissing
  obtain ⟨j, -, htargetName, hentry, hlookup⟩ := h.entries_found htarget
  rcases hcases with ⟨rfl, hb, rfl⟩ | ⟨b, t, hb, rfl, ⟨rfl, rfl, hwhy⟩ |
    ⟨i, hpos, hlen, hroom, rfl, rfl⟩⟩
  · rw [h.files_discarded hfirst]
    refine .full (.inr (Nat.eq_zero_of_not_pos fun hfree => ?_))
    obtain ⟨b, hb'⟩ := files_free_pos.mp hfree
    rw [hb] at hb'
    cases hb'
  · rw [h.files_linkDiscarded hinv.toDirInv hfirst hb htarget]
    refine .noEntry _ j hname hnone hlookup (files_free_pos.mpr ⟨b, hb⟩) ?_
    rw [freeEntry_linkInode h.toDirInv hb] at hwhy
    rcases hwhy with hlen | hfull
    · refine .inr ?_
      have hmax : maxFileName = 40 := rfl
      omega
    · exact noEntry_of_freeEntry h.toDirInv hfull
  · rw [freeEntry_linkInode h.toDirInv hb] at hroom
    have hr : Room s i (subName linkName) := ⟨hpos, hlen, hroom, h.not_named hmissing hvalid⟩
    have hview := h.files_linkCreated hinv hfirst hb htarget hr
    have hlinks := Files.SymLinks.links _ _ j k hname hnone htargetName hentry
      (fresh_of_firstFree h.toDirInv hfirst) (files_free_pos.mpr ⟨b, hb⟩)
    rw [← hview] at hlinks
    exact hlinks

/-! ### Unlinking -/

theorem isOpen_iff (h : SeqInv s) (hlt : k < s.inodeTableSize) :
    s.files.IsOpen k ↔ isInOpenFileTable s k = true := by
  rw [← Bool.not_eq_false, ← not_iff_not, not_not, isInOpenFileTable_eq_false hlt]
  constructor
  · intro hclosed fh hfh htaken hk
    refine hclosed ⟨fh, _, handle_eq_some.mpr ⟨hfh, htaken, rfl⟩, ?_⟩
    simp [hk]
  · rintro hclosed ⟨fh, q, hq, hk⟩
    obtain ⟨hfh, htaken, rfl⟩ := handle_eq_some.mp hq
    obtain ⟨j, hj, -⟩ := h.handles fh htaken
    rw [hj, Int.toNat_natCast] at hk
    exact hclosed fh hfh htaken (hj.trans (congrArg Nat.cast hk))

/-- A symbolic link is not opened. -/
theorem not_isOpen_link (h : SeqInv s) (hlive : LiveLink s k) : ¬ s.files.IsOpen k := by
  rintro ⟨fh, q, hq, hk⟩
  obtain ⟨-, htaken, rfl⟩ := handle_eq_some.mp hq
  obtain ⟨j, hj, hfile⟩ := h.handles fh htaken
  rw [hj, Int.toNat_natCast] at hk
  exact hlive.not_liveFile (hk ▸ hfile)

/-- The other names of an inode. -/
theorem otherName_iff_entries (h : DirInv s) :
    OtherName s a k ↔ ∃ other, other ≠ a ∧ s.files.entries other = some k := by
  simp only [h.entries_eq_some]
  constructor
  · rintro ⟨i, hi, hik, hnot⟩
    have hlive : Directory.Live s.fsData 0 i := by
      rw [Directory.Live, hik]
      exact natCast_ne_neg_one k
    obtain ⟨other, -, hnames⟩ := h.wf.named i hi hlive
    exact ⟨other, fun heq => hnot (heq ▸ hnames), i, hi, hnames, hik⟩
  · rintro ⟨other, hne, i, hi, hnames, hik⟩
    exact ⟨i, hi, hik, fun hnames' => hne (hnames.unique hnames')⟩

theorem refines_unlink {r : RootExit} (h : ExclusiveInv s)
    (hunlink : tfsUnlink s target = .ret (r, s')) (hinv : DirInv s') :
    s.files.Unlinks target r.ret s'.files := by
  by_cases hl : tfsLookup s target 0 = -1
  · rw [h.tfsUnlink_miss hl] at hunlink
    obtain ⟨rfl, rfl⟩ := Prod.mk.inj (Outcome.ret.inj hunlink)
    exact .unknown (h.lookup_eq_none.mpr hl)
  obtain ⟨k, hk, hname, hentry, hlookup⟩ := h.entries_found hl
  obtain ⟨-, i, j, hi, hnames, hij, hj, hpos, hlt, htaken⟩ := h.lookup rfl hl
  obtain rfl : k = j := by exact_mod_cast hk.symm.trans hj
  rw [h.tfsUnlink_eq hk hi hnames] at hunlink
  split at hunlink
  · rename_i hbusy
    obtain ⟨rfl, rfl⟩ := Prod.mk.inj (Outcome.ret.inj hunlink)
    rw [Bool.and_eq_true, decide_eq_true_eq] at hbusy
    have hlive := h.liveFile_of_taken hpos hlt htaken hbusy.1
    exact .busy k _ hlookup (h.node_eq_file.mpr ⟨hlive, rfl⟩)
      ((isOpen_iff h.toSeqInv hlt).mpr hbusy.2)
  · rename_i hbusy
    obtain ⟨rfl, rfl⟩ := Prod.mk.inj (Outcome.ret.inj hunlink)
    have hclosed : ¬ s.files.IsOpen k := by
      by_cases htype : (s.inodeTable k).iNodeType = .T_LINK
      · exact not_isOpen_link h.toSeqInv ⟨hlt, htaken, htype⟩
      · rw [isOpen_iff h.toSeqInv hlt]
        intro hopen
        exact hbusy (by simp [htype, hopen])
    -- the link counter is one exactly when the inode has no other name
    have hother := h.otherName_iff hpos hlt htaken hi hnames hij
    rw [otherName_iff_entries h.toDirInv] at hother
    by_cases hlinks : (s.inodeTable k).iLinksCount = 1
    · rw [if_pos hlinks] at hinv ⊢
      rw [h.files_freed hinv hpos hlt htaken hi hnames]
      refine .deletes _ k hname hentry hclosed fun other hne heq => ?_
      have hmany := hother.mp ⟨other, hne, heq⟩
      omega
    · rw [if_neg hlinks] at hinv ⊢
      rw [h.files_unlinked hinv hpos htaken hi hnames]
      have hlinks_pos := (h.node k hpos hlt htaken).links_pos
      obtain ⟨other, hne, heq⟩ := hother.mpr (by omega)
      exact .removes _ other k hname hentry hclosed hne heq

/-! ### Copying -/

/-- Closing answers -1 or 0. -/
theorem tfsClose_answer (s : State) (fhandle : ℤ) :
    (if (tfsClose s fhandle).1 = -1 then -1 else 0) = (tfsClose s fhandle).1 := by
  rcases tfsClose_cases s fhandle with ⟨-, heq⟩ | ⟨fh, -, heq⟩ <;> rw [heq] <;> rfl

theorem refines_copy {source : Option ExternalFile} (h : ExclusiveInv s)
    (hcopy : tfsCopyFromExternalFs s source target depth = .ret (r, s')) :
    s.files.Copies s.fsParams source target r s'.files := by
  unfold tfsCopyFromExternalFs at hcopy
  cases source with
  | none =>
    obtain ⟨rfl, rfl⟩ := Prod.mk.inj (Outcome.ret.inj hcopy)
    exact .noSource rfl
  | some file =>
    simp only [List.length_take] at hcopy
    -- the buffer has one byte more than a block, which tells that the file is too long
    by_cases hlen : s.blockSize < file.contents.length
    · rw [if_pos (by omega)] at hcopy
      obtain ⟨rfl, rfl⟩ := Prod.mk.inj (Outcome.ret.inj hcopy)
      exact .tooLong file rfl hlen
    rw [if_neg (by omega), List.take_of_length_le (by omega), min_eq_right (by omega)] at hcopy
    obtain ⟨⟨fd, s₁⟩, hopen, hcopy⟩ := Outcome.bind_eq_ret.mp hcopy
    have hopened := refines_open h hopen
    have heffects := h.toSeqInv.tfsOpen_effects hopen
    have h₁ := h.of_effects heffects (h.toSeqInv.tfsOpen hopen)
    by_cases hfd : fd = -1
    · subst hfd
      simp only [if_true] at hcopy
      obtain ⟨rfl, rfl⟩ := Prod.mk.inj (Outcome.ret.inj hcopy)
      exact .notOpened file _ rfl hopened
    simp only [hfd, if_false] at hcopy
    obtain ⟨⟨r', s₂⟩, hwrite, hcopy⟩ := Outcome.bind_eq_ret.mp hcopy
    have hwritten := refines_write h₁ hwrite
    rw [heffects.params] at hwritten
    have hclosed := refines_close s₂ fd
    by_cases hr : r' = -1
    · subst hr
      simp only [if_true] at hcopy
      obtain ⟨rfl, rfl⟩ := Prod.mk.inj (Outcome.ret.inj hcopy)
      exact .notWritten file fd _ _ _ _ rfl hopened hfd hwritten hclosed
    simp only [hr, if_false] at hcopy
    cases hcloses : file.closes with
    | false =>
      simp only [hcloses, Bool.not_false, if_true] at hcopy
      obtain ⟨rfl, rfl⟩ := Prod.mk.inj (Outcome.ret.inj hcopy)
      exact .staysOpen file fd r' _ _ rfl hopened hfd hwritten hr hcloses
    | true =>
      simp only [hcloses, Bool.not_true, Bool.false_eq_true, if_false, tfsClose_answer] at hcopy
      obtain ⟨rfl, rfl⟩ := Prod.mk.inj (Outcome.ret.inj hcopy)
      exact .copies file fd r' _ _ _ _ rfl hopened hfd hwritten hr hcloses hclosed

end TfsBroker.Fs
