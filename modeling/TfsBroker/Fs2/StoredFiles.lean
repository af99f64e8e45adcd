import TfsBroker.Fs.Exclusive
import TfsBroker.Fs2.StaleHandles

/-!
# What the calls of `fs2/` change

Handles of `fs2/` outlive their files, and a handle of a deleted file can be written to. Still
every file in use has a block of its own, which it fits into, and a call changes the files that
it is about: the one that it truncates or deletes, the one that its handle refers to, and the
one that was given the block of the deleted file that its handle refers to.

## Main results

* `Stored.after` — what every call keeps
* `Stored.sparesOthers` — what every call leaves alone
* `files_kept` — both, in every reachable state
-/

namespace TfsBroker.Fs2

open Runs

variable {s s' : State} {t u : Fs.State} {name : Option CString} {mode k b i n fh j : ℕ} {fhandle r : ℤ}

/-- The call may change the file `k`. -/
def Changes (s : State) (k : ℕ) : Call → Prop
  | .open name mode =>
    hasFlag mode tfsOTrunc = true ∧ tfsLookup s name rootDirInum = .ret (k : ℕ)
  | .write fhandle _ _ => ∃ fh j : ℕ, fhandle = fh ∧ Fs.HandleOn s.toFs fh j ∧
    (k = j ∨ SharesBlock s.toFs j k)
  | .unlink target => tfsLookup s target rootDirInum = .ret (k : ℕ)
  | .close _ | .read _ _ => False

/-- The bytes of every file are in a block of its own. -/
structure FilesApart (s : State) : Prop where
  stored : ∀ k, 0 < k → s.freeinodeTs k = .TAKEN → 0 < (s.inodeTable k).iSize →
    ∃ b : ℕ, (s.inodeTable k).iDataBlock = b ∧ 0 < b ∧ b < s.dataBlocks ∧ s.freeBlocks b = .TAKEN
  fits : ∀ k, s.freeinodeTs k = .TAKEN → (s.inodeTable k).iSize ≤ s.blockSize
  apart : ∀ j k, s.freeinodeTs j = .TAKEN → 0 < (s.inodeTable j).iSize →
    s.freeinodeTs k = .TAKEN → 0 < (s.inodeTable k).iSize →
    (s.inodeTable j).iDataBlock = (s.inodeTable k).iDataBlock → j = k

/-- A call changes no file but those it is about. -/
def SparesOthers (s : State) : Prop :=
  ∀ c s', after s c = some s' → ∀ k, 0 < k → s.freeinodeTs k = .TAKEN → ¬ Changes s k c →
    s'.freeinodeTs k = .TAKEN ∧ fileContents s' k = fileContents s k

namespace Stored

/-- The block of a file is not that of the directory. -/
theorem block_of_file (h : Stored t) (hpos : 0 < k) (hk : t.freeinodeTs k = .TAKEN)
    (hsize : 0 < (t.inodeTable k).iSize) : ∃ b : ℕ, (t.inodeTable k).iDataBlock = b ∧ 0 < b ∧
      b < t.dataBlocks ∧ t.freeBlocks b = .TAKEN := by
  have howner := h.owner hk hsize
  obtain ⟨b, hb, hlt, htaken⟩ := h.owned.backed k _ (Fs.ownedBlock_eq_some.mpr ⟨howner, rfl⟩)
  refine ⟨b, hb, Nat.pos_of_ne_zero ?_, hlt, htaken⟩
  rintro rfl
  have hroot : Fs.Owner t 0 := ⟨h.dir.root_valid, h.dir.root_taken, .inl rfl⟩
  have hblock : (t.inodeTable 0).iDataBlock = 0 := h.dir.root_block
  have hzero := h.owned.exclusive k 0 _ (Fs.ownedBlock_eq_some.mpr ⟨howner, rfl⟩)
    (Fs.ownedBlock_eq_some.mpr ⟨hroot, by rw [hblock, hb]; rfl⟩)
  exact hpos.ne' hzero

/-- Bytes that change in the block of the directory are none of a file. -/
theorem contents_of_directory {m : Memory} (h : Stored t) (hpos : 0 < k)
    (hk : t.freeinodeTs k = .TAKEN) (hparams : u.fsParams = t.fsParams) (hdata : u.fsData = m)
    (hnode : u.inodeTable k = t.inodeTable k)
    (hagree : ∀ b, b ≠ 0 → m.AgreeOn t.fsData (b * t.blockSize) t.blockSize) :
    Fs.fileContents u k = Fs.fileContents t k := by
  unfold Fs.fileContents
  rw [hnode, hdata, Fs.blockSize_congr hparams]
  rcases Nat.eq_zero_or_pos (t.inodeTable k).iSize with hsize | hsize
  · rw [hsize, Memory.slice_zero, Memory.slice_zero]
  obtain ⟨b, hb, hb0, -⟩ := h.block_of_file hpos hk hsize
  rw [hb, Int.toNat_natCast]
  exact ((hagree b hb0.ne').mono le_rfl (Nat.add_le_add_left (h.size_le k hk) _)).slice_eq

/-! ### Truncating -/

theorem truncate (h : Stored t) (hk : Fs.LiveFile t k) (hsize : 0 < (t.inodeTable k).iSize) :
    Stored (Fs.truncate t k) := by
  have hnode : ∀ j, ((Fs.truncate t k).inodeTable j).iNodeType = (t.inodeTable j).iNodeType ∧
      ((Fs.truncate t k).inodeTable j).iSize ≤ (t.inodeTable j).iSize := by
    intro j
    rw [Fs.truncate_eq]
    by_cases hjk : j = k
    · subst hjk
      simp
    · simp [Function.update_of_ne hjk]
  obtain ⟨hdir, hkeeps⟩ := h.dir.truncate ⟨hk.pos, hk.lt, (h.dir.node k hk.pos hk.lt hk.taken).block_ne⟩
  have hsound : Sound (Fs.truncate t k) := by
    refine h.toSound.of_keeps ⟨hdir, hkeeps⟩ (fun fh hfh => ?_) fun fh => ?_ <;>
      rw [Fs.truncate_eq] at *
    exact hfh
  have hfree : (Fs.truncate t k).freeinodeTs = t.freeinodeTs := by rw [Fs.truncate_eq]
  have hparams : (Fs.truncate t k).fsParams = t.fsParams := by rw [Fs.truncate_eq]
  refine ⟨hsound, ?_, fun j hpos hj => ?_, fun j hj => ?_⟩
  · exact Ownership.Owns.change h.owned
      (Fs.blockChange_truncate h.owned hk.pos hk.lt hk.taken hk.file hsize)
  · rw [hfree] at hj
    exact (h.live j hpos hj).congr hparams (by rw [hfree]) (hnode j).1
  · rw [hfree] at hj
    rw [Fs.blockSize_congr hparams]
    exact (hnode j).2.trans (h.size_le j hj)

theorem found (h : Stored t) (hk : Fs.LiveFile t k) : Stored (Fs.found t k mode) := by
  unfold Fs.found
  split
  · rename_i htrunc
    exact h.truncate hk htrunc.2
  · exact h

/-! ### Every call -/

theorem tfsOpen (h : Stored t) (hopen : Fs.tfsOpen t name mode 1 = .ret (r, u)) : Stored u := by
  have hu := h.toSound.tfsOpen hopen
  rcases h.dir.tfsOpen_cases hopen with ⟨-, rfl | ⟨k, hfirst, rfl⟩⟩ |
    ⟨k, i, -, hfirst, -, hdir, hreg⟩ | ⟨k, -, hk, hreg⟩
  · exact h
  · exact h.discarded hfirst hu
  · exact (h.created hfirst (h.toSound.created hdir)).tfsOpenRegister hu hreg
  · exact (h.found hk).tfsOpenRegister hu hreg

/-- Every call keeps the files apart, whatever its handle refers to. -/
theorem after (h : Stored s.toFs) {c : Call} (hafter : Fs2.after s c = some s') :
    Stored s'.toFs := by
  obtain ⟨⟨r, u⟩, hcall, rfl⟩ := Option.map_eq_some_iff.mp hafter
  rw [Outcome.toOption_eq_some] at hcall
  cases c with
  | «open» name mode => exact h.tfsOpen (toFs_tfsOpen h.dir.toRootOk hcall)
  | close fh =>
    have hclose := (h.tfsClose_leaves fh).stored
    rwa [toFs_tfsClose hcall] at hclose
  | write fh buffer toWrite => exact (h.tfsWrite_uses (toFs_tfsWrite hcall)).1.stored
  | read fh len =>
    obtain ⟨⟨res, v⟩, hread, hret⟩ := Outcome.bind_eq_ret.mp hcall
    obtain ⟨-, rfl⟩ := Prod.mk.inj (Outcome.ret.inj hret)
    exact (h.tfsRead_uses (toFs_tfsRead hread)).stored
  | unlink target => exact (h.tfsUnlink hcall).1

/-! ### What a call leaves alone -/

/-- Entering a file in the open file table changes no file. -/
theorem contents_register {offset : ℕ} (hreg : (r, u) = Fs.tfsOpenRegister t j offset) :
    u.freeinodeTs = t.freeinodeTs ∧ ∀ k, Fs.fileContents u k = Fs.fileContents t k := by
  rcases Fs.tfsOpenRegister_cases t j offset with ⟨-, heq⟩ | ⟨fh, -, heq⟩ <;>
    rw [heq] at hreg <;> obtain ⟨-, rfl⟩ := Prod.mk.inj hreg <;> exact ⟨rfl, fun _ => rfl⟩

/-- Opening a file changes no other, and that one only when it is truncated. -/
theorem tfsOpen_keeps (h : Stored t) (hopen : Fs.tfsOpen t name mode 1 = .ret (r, u))
    (hpos : 0 < k) (hk : t.freeinodeTs k = .TAKEN)
    (hother : ¬ (hasFlag mode tfsOTrunc = true ∧ Fs.tfsLookup t name 0 = k)) :
    u.freeinodeTs k = .TAKEN ∧ Fs.fileContents u k = Fs.fileContents t k := by
  have hne : ∀ j, firstFree t.freeinodeTs t.inodeTableSize = some j → k ≠ j := by
    rintro j hfirst rfl
    cases (firstFree_free hfirst).symm.trans hk
  rcases h.dir.tfsOpen_cases hopen with ⟨-, rfl | ⟨j, hfirst, rfl⟩⟩ |
    ⟨j, i, -, hfirst, hroom, -, hreg⟩ | ⟨j, hres, hj, hreg⟩
  · exact ⟨hk, rfl⟩
  · refine ⟨hk, h.contents_of_directory hpos hk rfl rfl ?_ fun _ _ _ _ _ => rfl⟩
    exact Function.update_of_ne (hne j hfirst) _ _
  · -- a new file, which changes bytes of the directory
    obtain ⟨hinodes, hcontents⟩ := contents_register hreg
    have htaken : (Fs.created t j i (subName name)).freeinodeTs k = .TAKEN :=
      (Function.update_of_ne (hne j hfirst) _ _).trans hk
    refine ⟨hinodes ▸ htaken, (hcontents k).trans ?_⟩
    have hi : i < t.maxDirEntries := (Directory.freeEntry_eq_some.mp hroom.first).2.1
    exact h.contents_of_directory hpos hk rfl rfl (Function.update_of_ne (hne j hfirst) _ _)
      fun b hb => Fs.agreeOn_fillEntry_block hi hb
  · obtain ⟨hinodes, hcontents⟩ := contents_register hreg
    rw [hinodes, hcontents]
    unfold Fs.found
    split
    · rename_i htrunc
      have hkj : k ≠ j := by
        rintro rfl
        exact hother ⟨htrunc.1, Fs.lookup_of_resolve hres⟩
      rw [Fs.truncate_eq]
      exact ⟨hk, h.contents_of_directory hpos hk rfl rfl (Function.update_of_ne hkj _ _)
        fun _ _ _ _ _ => rfl⟩
    · exact ⟨hk, rfl⟩

/-- Removing a file changes no other. -/
theorem tfsUnlink_keeps (h : Stored s.toFs) {target : Option CString}
    (hunlink : Fs2.tfsUnlink s target = .ret (r, s')) (hpos : 0 < k)
    (hk : s.freeinodeTs k = .TAKEN) (hother : Fs.tfsLookup s.toFs target 0 ≠ k) :
    s'.freeinodeTs k = .TAKEN ∧ Fs.fileContents s'.toFs k = Fs.fileContents s.toFs k := by
  rcases tfsUnlink_cases h.dir hunlink with ⟨-, -, rfl⟩ |
    ⟨j, i, hl, hjpos, -, htaken, hi, -, -, -, hs'⟩
  · exact ⟨hk, rfl⟩
  have hkj : k ≠ j := by
    rintro rfl
    exact hother hl
  have hfree := congrFun (congrArg Fs.State.freeinodeTs hs') k
  rw [Fs.freed_eq] at hs' hfree
  refine ⟨(hfree.trans (Function.update_of_ne hkj _ _)).trans hk, ?_⟩
  rw [hs']
  exact h.contents_of_directory hpos hk rfl rfl rfl fun b hb => Fs.agreeOn_clearEntry_block hi hb

theorem sparesOthers (h : Stored s.toFs) : SparesOthers s := by
  intro c s' hafter k hpos hk hother
  obtain ⟨⟨r, u⟩, hcall, rfl⟩ := Option.map_eq_some_iff.mp hafter
  rw [Outcome.toOption_eq_some] at hcall
  have hlookup : ∀ name, Fs.tfsLookup s.toFs name 0 = k →
      tfsLookup s name rootDirInum = .ret (k : ℕ) := by
    intro name hl
    rw [tfsLookup_eq_ret h.dir.toRootOk, hl]
  cases c with
  | «open» name mode =>
    exact h.tfsOpen_keeps (toFs_tfsOpen h.dir.toRootOk hcall) hpos hk
      fun hopen => hother ⟨hopen.1, hlookup name hopen.2⟩
  | close fhandle =>
    have hclose : SparesFiles (fun _ => False) s.toFs (Fs.tfsClose s.toFs fhandle).2 :=
      tfsClose_sparesFiles _ _
    rw [toFs_tfsClose hcall] at hclose
    exact hclose k id hk
  | write fhandle buffer toWrite =>
    rcases h.toSound.tfsWrite_cases (toFs_tfsWrite hcall) with
      heq | ⟨fh, j, b, n, hfd, hon, -, hb, -, hfits, heq⟩
    · have hsame : u.toFs = s.toFs := heq
      exact ⟨(congrFun (congrArg Fs.State.freeinodeTs hsame) k).trans hk,
        congrArg (Fs.fileContents · k) hsame⟩
    · have hspares : SparesFiles (fun i => i = j ∨ SharesBlock s.toFs j i) s.toFs
          (Fs.written s.toFs fh j b n buffer) := h.sparesFiles_written hb hfits
      have hsame : u.toFs = Fs.written s.toFs fh j b n buffer := heq
      rw [← hsame] at hspares
      exact hspares k (fun hown => hother ⟨fh, j, hfd, hon, hown⟩) hk
  | read fhandle len =>
    obtain ⟨⟨res, v⟩, hread, hret⟩ := Outcome.bind_eq_ret.mp hcall
    obtain ⟨-, rfl⟩ := Prod.mk.inj (Outcome.ret.inj hret)
    have hspares : SparesFiles (fun _ => False) s.toFs v.toFs :=
      h.tfsRead_sparesFiles (toFs_tfsRead hread)
    exact hspares k id hk
  | unlink target =>
    exact h.tfsUnlink_keeps hcall hpos hk fun hl => hother (hlookup target hl)

theorem filesApart (h : Stored s.toFs) : FilesApart s where
  stored _ hpos hk hsize := h.block_of_file hpos hk hsize
  fits _ hk := h.size_le _ hk
  apart j _ hj hjsize hk hksize hblock := h.owned.exclusive j _ _
    (Fs.ownedBlock_eq_some.mpr ⟨h.owner hj hjsize, rfl⟩)
    (Fs.ownedBlock_eq_some.mpr ⟨h.owner hk hksize, hblock.symm⟩)

end Stored

/-- In every state that calls of `fs2/` reach, whatever was deleted while it was open: every file
in use has a block of its own, which it fits into, and a call changes no file but the one that it
truncates, deletes or writes to, and one that was given the block of the deleted file that the
call writes to. -/
theorem files_kept (h : Reachable after Initialised s) : FilesApart s ∧ SparesOthers s := by
  have hstored : Stored s.toFs := h.invariant (I := fun s => Stored s.toFs) (fun _ hs => hs.stored)
    fun _ _ _ hs _ hafter => hs.after hafter
  exact ⟨hstored.filesApart, hstored.sparesOthers⟩

/-- A file is deleted while it is open, another one is created in its inode, and the handle of the
first is written to: a third file keeps its bytes. -/
theorem files_kept_stale : ∃ s, Reachable after Initialised s ∧
    HandleOn s 0 1 ∧ s.freeinodeTs 2 = .TAKEN ∧ ∀ buffer toWrite s',
      after s (.write 0 buffer toWrite) = some s' → fileContents s' 2 = fileContents s 2 := by
  have hinit : Initialised (initState .zeroed tfsDefaultParams) :=
    ⟨.zeroed, tfsDefaultParams, tfsInit_eq_ret.mpr ⟨by decide, by decide, rfl⟩⟩
  obtain ⟨s, hreach, hs⟩ := exists_of_runList after
    [.open (some ⟨[47, 102], by decide⟩) tfsOCreat, .open (some ⟨[47, 103], by decide⟩) tfsOCreat,
      .unlink (some ⟨[47, 102], by decide⟩), .open (some ⟨[47, 104], by decide⟩) tfsOCreat]
    (fun s => decide (HandleOn s 0 1 ∧ s.freeinodeTs 2 = .TAKEN ∧ (s.inodeTable 1).iSize = 0))
    hinit (by decide +kernel)
  obtain ⟨hon, htaken, hsize⟩ := of_decide_eq_true hs
  refine ⟨s, hreach, hon, htaken, fun buffer toWrite s' hafter => ?_⟩
  refine ((files_kept hreach).2 _ s' hafter 2 (by decide) htaken ?_).2
  rintro ⟨fh, j, hfh, hon', hown⟩
  obtain rfl : fh = 0 := by exact_mod_cast hfh.symm
  obtain rfl : j = 1 := by exact_mod_cast hon'.2.symm.trans hon.2
  rcases hown with hown | ⟨hpos, -⟩
  · cases hown
  · exact absurd hpos (by simp [hsize])

end TfsBroker.Fs2
