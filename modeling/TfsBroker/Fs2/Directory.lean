import TfsBroker.Fs2.Files
import TfsBroker.Fs.SameControl

/-!
# The directory of `fs2/` in every state

Whatever calls are made, and also when handles outlive their files, the directory of
`fs2/` agrees with the inode table, and no handle refers to the root directory.

## Main results

* `Sound.after` — every call keeps both
* `tfsLookup_appended`, `Sound.tfsWrite_sameDirectory` — writing to a file leaves the names
  alone
-/

namespace TfsBroker.Fs2

open State Runs

variable {s s' : State} {t u : Fs.State} {name target : Option CString} {mode k b i n fh : ℕ}
  {fhandle r : ℤ}

/-- The directory agrees with the inode table, and no handle refers to the root
directory. -/
structure Sound (t : Fs.State) : Prop where
  dir : Fs.DirInv t
  handles : ∀ fh, t.freeOpenFileEntries fh = .TAKEN → ∃ k, Fs.HandleOn t fh k ∧ Fs.Safe t k

/-- The state after a call, if it returns. -/
def after (s : State) (c : Call) : Option State := (call s c).toOption.map Prod.snd

namespace Sound

/-- A step that opens no handle, and leaves the open ones on their inodes. -/
theorem of_keeps (h : Sound t) (hdir : Fs.DirInv u ∧ Fs.Keeps t u)
    (hentries : ∀ fh, u.freeOpenFileEntries fh = .TAKEN → t.freeOpenFileEntries fh = .TAKEN)
    (htable : ∀ fh, (u.openFileTable fh).ofInumber = (t.openFileTable fh).ofInumber) :
    Sound u := by
  refine ⟨hdir.1, fun fh hfh => ?_⟩
  obtain ⟨k, hon, hsafe⟩ := h.handles fh (hentries fh hfh)
  exact ⟨k, ⟨hfh, (htable fh).trans hon.2⟩, hdir.2.safe k hsafe⟩

/-- Entering a file in the open file table. -/
theorem tfsOpenRegister (h : Sound t) (hk : Fs.Safe t k) {offset : ℕ}
    (hreg : (r, u) = Fs.tfsOpenRegister t k offset) : Sound u := by
  rcases Fs.tfsOpenRegister_cases t k offset with ⟨-, heq⟩ | ⟨i, -, heq⟩ <;>
    rw [heq] at hreg <;> obtain ⟨-, rfl⟩ := Prod.mk.inj hreg
  · exact h
  obtain ⟨hdir, hkeeps⟩ := h.dir.congr (Fs.registered t i k offset) rfl rfl rfl rfl rfl
  refine ⟨hdir, fun fh hfh => ?_⟩
  by_cases hi : fh = i
  · -- the new handle
    subst hi
    exact ⟨k, ⟨hfh, by simp [Fs.registered, Fs.State.setEntry]⟩, hkeeps.safe k hk⟩
  · have hold : t.freeOpenFileEntries fh = .TAKEN := (Function.update_of_ne hi _ _).symm.trans hfh
    obtain ⟨j, hon, hsafe⟩ := h.handles fh hold
    refine ⟨j, ⟨hfh, ?_⟩, hkeeps.safe j hsafe⟩
    simp [Fs.registered, Fs.State.setEntry, Fs.State.setFreeEntry, Function.update_of_ne hi, hon.2]

/-- The two parts of `tfs_open` before the open file table. -/
theorem tfsOpen (h : Sound t) (hopen : Fs.tfsOpen t name mode 1 = .ret (r, u)) : Sound u := by
  rw [Fs.tfsOpen] at hopen
  obtain ⟨⟨root, t1⟩, hroot, hopen⟩ := Outcome.bind_eq_ret.mp hopen
  obtain ⟨hdir, hkeeps, hinum⟩ := h.dir.tfsOpenRoot hroot
  have hsame := h.dir.toRootOk.tfsOpenRoot_sameHandles h.dir.root_taken hroot
  have h1 : Sound t1 := h.of_keeps ⟨hdir, hkeeps⟩ (fun fh hfh => hsame.entries ▸ hfh)
    fun fh => by rw [hsame.table]
  cases root with
  | failed =>
    obtain ⟨-, rfl⟩ := Prod.mk.inj (Outcome.ret.inj hopen)
    exact h1
  | created k =>
    obtain ⟨hpos, hlt, htaken⟩ := hinum k (.inr rfl)
    exact h1.tfsOpenRegister ⟨hpos, hlt, (hdir.node k hpos hlt htaken).block_ne⟩
      (Outcome.ret.inj hopen).symm
  | found k =>
    obtain ⟨hpos, hlt, htaken⟩ := hinum k (.inl rfl)
    have hsafe : Fs.Safe t1 k := ⟨hpos, hlt, (hdir.node k hpos hlt htaken).block_ne⟩
    obtain ⟨⟨inode, t2⟩, hinode, hopen⟩ := Outcome.bind_eq_ret.mp hopen
    obtain ⟨-, ⟨-, rfl, rfl | ⟨target, b, rfl, -⟩⟩ | ⟨-, ⟨rfl, -⟩ | ⟨rfl, -⟩, rfl⟩⟩ :=
      Fs.tfsOpenInode_cases hinode
    · obtain ⟨-, rfl⟩ := Prod.mk.inj (Outcome.ret.inj hopen)
      exact h1
    · cases hopen
    · obtain ⟨hdir2, hkeeps2⟩ := hdir.truncate hsafe
      have h2 : Sound (Fs.truncate t1 k) := by
        refine h1.of_keeps ⟨hdir2, hkeeps2⟩ (fun fh hfh => ?_) fun fh => ?_ <;>
          rw [Fs.truncate_eq] at *
        exact hfh
      exact h2.tfsOpenRegister (hkeeps2.safe k hsafe) (Outcome.ret.inj hopen).symm
    · exact h1.tfsOpenRegister hsafe (Outcome.ret.inj hopen).symm

theorem tfsClose (h : Sound t) (fhandle : ℤ) : Sound (Fs.tfsClose t fhandle).2 := by
  rcases Fs.tfsClose_cases t fhandle with ⟨-, heq⟩ | ⟨fh, -, heq⟩
  · rw [heq]
    exact h
  · rw [heq]
    refine h.of_keeps (h.dir.congr _ rfl rfl rfl rfl rfl) (fun fh' hfh => ?_) fun _ => rfl
    by_cases hne : fh' = fh
    · subst hne
      simp [Fs.State.setFreeEntry] at hfh
    · exact (Function.update_of_ne hne _ _).symm.trans hfh

/-- `tfs_write` changes nothing, or writes inside the block of the file of its handle. -/
theorem tfsWrite_cases (h : Sound t) {buffer : ℕ → UInt8} {toWrite : ℕ}
    (hwrite : Fs.tfsWrite t fhandle buffer toWrite = .ret (r, u)) : u = t ∨
      ∃ fh k b n : ℕ, fhandle = fh ∧ Fs.HandleOn t fh k ∧ Fs.Safe t k ∧ Fs.WriteBlock t k b ∧
        0 < n ∧ (t.openFileTable fh).ofOffset + n ≤ t.blockSize ∧
        u = Fs.written t fh k b n buffer := by
  unfold Fs.tfsWrite at hwrite
  cases hget : Fs.getOpenFileEntry t fhandle with
  | none =>
    rw [hget] at hwrite
    obtain ⟨-, rfl⟩ := Prod.mk.inj (Outcome.ret.inj hwrite)
    exact .inl rfl
  | some fh =>
    obtain ⟨hfd, -, htaken⟩ := Fs.getOpenFileEntry_eq_some.mp hget
    obtain ⟨k, hon, hsafe⟩ := h.handles fh htaken
    have hinode : Fs.inodeGet t (t.openFileTable fh).ofInumber = some k :=
      Fs.inodeGet_eq_some.mpr ⟨hon.2, hsafe.lt⟩
    simp only [hget, hinode] at hwrite
    rcases Fs.tfsWriteBody_cases hwrite with ⟨rfl, -⟩ | ⟨b, hb, hpos, hfits, -, rfl⟩
    · exact .inl rfl
    · refine .inr ⟨fh, k, b, _, hfd, hon, hsafe, hb, hpos, ?_, rfl⟩
      exact Fs.offset_add_clampWrite_le (Fs.dataSize_lt_sizeRange t) hpos (by omega)

theorem tfsWrite (h : Sound t) {buffer : ℕ → UInt8} {toWrite : ℕ}
    (hwrite : Fs.tfsWrite t fhandle buffer toWrite = .ret (r, u)) : Sound u := by
  rcases h.tfsWrite_cases hwrite with rfl | ⟨fh, k, b, n, -, -, hsafe, hb, -, -, rfl⟩
  · exact h
  refine h.of_keeps (h.dir.written hsafe hb) (fun _ hfh => hfh) fun fh' => ?_
  by_cases hne : fh' = fh
  · subst hne
    simp [Fs.written]
  · simp [Fs.written, Function.update_of_ne hne]

/-- `tfs_read` changes nothing, or the offset of its handle. -/
theorem tfsRead_cases (h : Sound t) {len : ℕ} {res : ReadResult}
    (hread : Fs.tfsRead t fhandle len = .ret (res, u)) : u = t ∨
      ∃ fh offset : ℕ, fhandle = fh ∧
        u = t.setEntry fh { t.openFileTable fh with ofOffset := offset } := by
  unfold Fs.tfsRead at hread
  cases hget : Fs.getOpenFileEntry t fhandle with
  | none =>
    rw [hget] at hread
    obtain ⟨-, rfl⟩ := Prod.mk.inj (Outcome.ret.inj hread)
    exact .inl rfl
  | some fh =>
    obtain ⟨hfd, -, htaken⟩ := Fs.getOpenFileEntry_eq_some.mp hget
    obtain ⟨k, hon, hsafe⟩ := h.handles fh htaken
    have hinode : Fs.inodeGet t (t.openFileTable fh).ofInumber = some k :=
      Fs.inodeGet_eq_some.mpr ⟨hon.2, hsafe.lt⟩
    simp only [hget, hinode] at hread
    rcases Fs.tfsReadBody_eq t fh k rfl with ⟨-, heq⟩ | ⟨-, -, heq⟩ | ⟨b, -, -, -, heq⟩ <;>
      rw [heq] at hread
    · obtain ⟨-, rfl⟩ := Prod.mk.inj (Outcome.ret.inj hread)
      exact .inl rfl
    · obtain ⟨-, rfl⟩ := Prod.mk.inj (Outcome.ret.inj hread)
      exact .inl rfl
    · split at hread
      · obtain ⟨-, rfl⟩ := Prod.mk.inj (Outcome.ret.inj hread)
        exact .inr ⟨fh, _, hfd, rfl⟩
      · cases hread

theorem tfsRead (h : Sound t) {len : ℕ} {res : ReadResult}
    (hread : Fs.tfsRead t fhandle len = .ret (res, u)) : Sound u := by
  rcases h.tfsRead_cases hread with rfl | ⟨fh, offset, -, rfl⟩
  · exact h
  refine h.of_keeps (h.dir.congr _ rfl rfl rfl rfl rfl) (fun _ hfh => hfh) fun fh' => ?_
  by_cases hne : fh' = fh
  · subst hne
    simp [Fs.State.setEntry]
  · simp [Fs.State.setEntry, Function.update_of_ne hne]

/-- `tfs_unlink` of `fs2/`, whoever has the file open. -/
theorem tfsUnlink (h : Sound s.toFs) (hunlink : tfsUnlink s target = .ret (r, s')) :
    Sound s'.toFs := by
  rcases tfsUnlink_cases h.dir hunlink with ⟨-, -, rfl⟩ |
    ⟨k, i, -, hpos, hlt, htaken, hi, -, hik, -, hs'⟩
  · exact h
  · rw [hs']
    refine h.of_keeps (h.dir.freed hi hik hpos hlt htaken rfl) (fun fh hfh => ?_) fun fh => ?_ <;>
      rw [Fs.freed_eq] at *
    · exact hfh
    · rfl

/-- Every call keeps the directory sound. -/
theorem after (h : Sound s.toFs) {c : Call} (hafter : Fs2.after s c = some s') :
    Sound s'.toFs := by
  obtain ⟨⟨r, u⟩, hcall, rfl⟩ := Option.map_eq_some_iff.mp hafter
  rw [Outcome.toOption_eq_some] at hcall
  cases c with
  | «open» name mode => exact h.tfsOpen (toFs_tfsOpen h.dir.toRootOk hcall)
  | close fh =>
    have hclose := h.tfsClose fh
    rwa [toFs_tfsClose hcall] at hclose
  | write fh buffer toWrite => exact h.tfsWrite (toFs_tfsWrite hcall)
  | read fh len =>
    obtain ⟨⟨res, v⟩, hread, hret⟩ := Outcome.bind_eq_ret.mp hcall
    obtain ⟨-, rfl⟩ := Prod.mk.inj (Outcome.ret.inj hret)
    exact h.tfsRead (toFs_tfsRead hread)
  | unlink target => exact h.tfsUnlink hcall

end Sound

/-- What a lookup found. -/
theorem Sound.lookup (h : Sound s.toFs) (hl : tfsLookup s name rootDirInum = .ret (k : ℕ)) :
    validPathname name = true ∧ Fs.Safe s.toFs k ∧ s.freeinodeTs k = .TAKEN := by
  have hl' : Fs.tfsLookup s.toFs name 0 = k :=
    Outcome.ret.inj ((tfsLookup_eq_ret h.dir.toRootOk).symm.trans hl)
  obtain ⟨hvalid, -, j, -, -, -, hj, hpos, hlt, htaken⟩ := h.dir.lookup hl' (by omega)
  obtain rfl : k = j := by exact_mod_cast hj
  exact ⟨hvalid, ⟨hpos, hlt, (h.dir.node k hpos hlt htaken).block_ne⟩, htaken⟩

/-- `tfs_open` of a file that exists, without truncating it. -/
theorem Sound.tfsOpen_eq (h : Sound s.toFs) (hl : tfsLookup s name rootDirInum = .ret (k : ℕ))
    (htrunc : hasFlag mode tfsOTrunc = false) :
    Fs2.tfsOpen s name mode = .ret (addToOpenFileTable s k
      (if hasFlag mode tfsOAppend then (s.inodeTable k).iSize else 0)) := by
  obtain ⟨hvalid, hsafe, -⟩ := h.lookup hl
  have hroot : inodeGet s rootDirInum = .ret rootDirInum :=
    inodeGet_eq_ret.mpr h.dir.inodeGet_root
  have hget : inodeGet s k = .ret k := inodeGet_eq_ret.mpr (Fs.inodeGet_eq_some.mpr ⟨rfl, hsafe.lt⟩)
  unfold Fs2.tfsOpen
  simp only [hvalid, if_true, hroot, Outcome.ret_bind, hl, Int.natCast_nonneg, hget, htrunc,
    Bool.false_eq_true, if_false]

/-- After `tfs_init` the directory is sound. -/
theorem Initialised.sound (h : Initialised s) : Sound s.toFs := by
  have hinit := initialised_toFs h
  refine ⟨Fs.tfsInit_dirInv hinit, fun fh hfh => ?_⟩
  obtain ⟨heap, params, -, -, heq⟩ := Fs.initialised_iff.mp hinit
  rw [heq] at hfh
  cases hfh

/-- The directory is sound after any calls. -/
theorem sound_of_reachable (h : Reachable after Initialised s) : Sound s.toFs :=
  h.invariant (I := fun s => Sound s.toFs) (fun _ hs => hs.sound)
    fun _ _ _ hs _ hafter => hs.after hafter

/-! ### What leaves the names alone -/

/-- A lookup reads neither the open file table nor the offsets. -/
theorem tfsLookup_congr {s' : State} (hparams : s'.fsParams = s.fsParams)
    (htable : s'.inodeTable = s.inodeTable) (hdata : s'.fsData = s.fsData)
    (name : Option CString) (root : ℕ) : tfsLookup s' name root = tfsLookup s name root := by
  obtain ⟨⟩ := s
  obtain ⟨⟩ := s'
  simp only at hparams htable hdata
  subst hparams htable hdata
  rfl

/-- Writing to the block of a file leaves the names alone. -/
theorem tfsLookup_appended {f : ℕ → UInt8} (h : Sound s.toFs)
    (h' : Sound (appended s fh k b n f).toFs) (hk : Fs.Safe s.toFs k)
    (hb : Fs.WriteBlock s.toFs k b) (name : Option CString) :
    tfsLookup (appended s fh k b n f) name rootDirInum = tfsLookup s name rootDirInum := by
  have hb0 : b ≠ 0 := h.dir.writeBlock_ne hk hb
  have hdir : dirEntrySize * s.toFs.maxDirEntries ≤ s.toFs.blockSize := Fs.entries_le_blockSize _
  have hagree : s.fsData.AgreeOn (appended s fh k b n f).fsData 0
      (dirEntrySize * s.maxDirEntries) :=
    (Fs.DirInv.agreeOn_block (s := s.toFs) hb0 _).mono le_rfl (by
      rw [Nat.zero_add, Nat.zero_add]
      exact hdir)
  rw [tfsLookup_eq_ret h.dir.toRootOk, tfsLookup_eq_ret h'.dir.toRootOk]
  refine congrArg Outcome.ret (h.dir.lookup_congr h'.dir rfl ?_ name)
  exact (Directory.Alike.refl s.fsData 0 s.maxDirEntries).of_agreeOn (fun _ _ _ => rfl) hagree.symm

/-- The directory has the same bytes. -/
structure SameDirectory (t u : Fs.State) : Prop where
  params : u.fsParams = t.fsParams
  bytes : t.fsData.AgreeOn u.fsData 0 (dirEntrySize * t.maxDirEntries)

namespace SameDirectory

theorem of_data (hparams : u.fsParams = t.fsParams) (hdata : u.fsData = t.fsData) :
    SameDirectory t u :=
  ⟨hparams, fun _ _ _ => by rw [hdata]⟩

theorem trans {v : Fs.State} (h : SameDirectory t u) (h' : SameDirectory u v) :
    SameDirectory t v := by
  refine ⟨h'.params.trans h.params, fun i hi hlt => (h.bytes i hi hlt).trans (h'.bytes i hi ?_)⟩
  rwa [Fs.maxDirEntries_congr h.params]

/-- The entries are live under the same names. -/
theorem names_iff (h : SameDirectory t u) (hi : i < t.maxDirEntries) (name : CString) :
    Directory.Names u.fsData 0 i name ↔ Directory.Names t.fsData 0 i name :=
  (Directory.sameEntry_of_agreeOn h.bytes hi).names_iff.symm

end SameDirectory

/-- A write to the block of a file does not reach the directory. -/
theorem Sound.tfsWrite_sameDirectory (h : Sound t) {buffer : ℕ → UInt8} {toWrite : ℕ}
    (hwrite : Fs.tfsWrite t fhandle buffer toWrite = .ret (r, u)) : SameDirectory t u := by
  rcases h.tfsWrite_cases hwrite with rfl | ⟨fh, k, b, n, -, -, hsafe, hb, -, -, rfl⟩
  · exact .of_data rfl rfl
  have hb0 := h.dir.writeBlock_ne hsafe hb
  have hdir := Fs.entries_le_blockSize t
  refine ⟨rfl, (Fs.DirInv.agreeOn_block hb0 _).mono le_rfl ?_⟩
  rwa [Nat.zero_add, Nat.zero_add]

theorem Sound.tfsRead_sameDirectory (h : Sound t) {len : ℕ} {res : ReadResult}
    (hread : Fs.tfsRead t fhandle len = .ret (res, u)) : SameDirectory t u := by
  rcases h.tfsRead_cases hread with rfl | ⟨fh, offset, -, rfl⟩ <;> exact .of_data rfl rfl

theorem tfsClose_sameDirectory (t : Fs.State) (fhandle : ℤ) :
    SameDirectory t (Fs.tfsClose t fhandle).2 := by
  rcases Fs.tfsClose_cases t fhandle with ⟨-, heq⟩ | ⟨fh, -, heq⟩ <;> rw [heq] <;>
    exact .of_data rfl rfl

end TfsBroker.Fs2
