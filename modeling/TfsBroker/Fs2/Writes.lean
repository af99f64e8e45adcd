import TfsBroker.Fs.Writes
import TfsBroker.Fs2.Directory

/-!
# How much a write writes

Also a handle that outlived its file refers to an inode whose block number is valid if its
size is not 0; so writes of `fs2/` go where those of `fs/` go.

## Main results

* `writes_clamped` — in both file systems, a write is exact unless length and offset wrap
* `write_wraps` — a length of `2^64 - 1` at offset 1 is not clamped
-/

namespace TfsBroker.Fs2

open State Runs

variable {s s' : State} {t u : Fs.State} {name target : Option CString} {mode k b i n fh : ℕ}
  {fhandle r : ℤ}

/-- The inode is empty, or the number of its block is valid. -/
def BlockOk (t : Fs.State) (k : ℕ) : Prop :=
  0 < (t.inodeTable k).iSize → ∃ b : ℕ, (t.inodeTable k).iDataBlock = b ∧ b < t.dataBlocks

/-- The inodes in use, and those that handles refer to, have valid blocks. -/
structure Sized (t : Fs.State) : Prop where
  nodes : ∀ k, 0 < k → k < t.inodeTableSize → t.freeinodeTs k = .TAKEN → BlockOk t k
  handles : ∀ fh, t.freeOpenFileEntries fh = .TAKEN → ∀ k : ℕ,
    (t.openFileTable fh).ofInumber = k → BlockOk t k

theorem blockOk_of_node (h : BlockOk t k) (hparams : u.fsParams = t.fsParams)
    (hnode : u.inodeTable k = t.inodeTable k) : BlockOk u k := by
  intro hsize
  rw [hnode] at hsize ⊢
  rw [Fs.dataBlocks_congr hparams]
  exact h hsize

theorem blockOk_of_empty (h : (t.inodeTable k).iSize = 0) : BlockOk t k := fun hsize =>
  absurd h hsize.ne'

namespace Sized

/-- A step after which every inode is as it was, or has a valid block. -/
theorem of_nodes (h : Sized t) (hparams : u.fsParams = t.fsParams)
    (hnode : ∀ k, u.inodeTable k = t.inodeTable k ∨ BlockOk u k)
    (htaken : ∀ k, u.freeinodeTs k = .TAKEN → t.freeinodeTs k = .TAKEN ∨ BlockOk u k)
    (hentries : ∀ fh, u.freeOpenFileEntries fh = .TAKEN → t.freeOpenFileEntries fh = .TAKEN ∧
      (u.openFileTable fh).ofInumber = (t.openFileTable fh).ofInumber) : Sized u := by
  have hold : ∀ k, BlockOk t k → BlockOk u k := fun k hk =>
    (hnode k).elim (blockOk_of_node hk hparams) id
  refine ⟨fun k hpos hlt hk => ?_, fun fh hfh k hk => ?_⟩
  · rw [Fs.inodeTableSize_congr hparams] at hlt
    exact (htaken k hk).elim (fun hk => hold k (h.nodes k hpos hlt hk)) id
  · obtain ⟨hfh', hinum⟩ := hentries fh hfh
    exact hold k (h.handles fh hfh' k (hinum.symm.trans hk))

theorem tfsOpenRegister (h : Sized t) (hk : BlockOk t k) {offset : ℕ}
    (hreg : (r, u) = Fs.tfsOpenRegister t k offset) : Sized u := by
  rcases Fs.tfsOpenRegister_cases t k offset with ⟨-, heq⟩ | ⟨i, -, heq⟩ <;>
    rw [heq] at hreg <;> obtain ⟨-, rfl⟩ := Prod.mk.inj hreg
  · exact h
  refine ⟨fun j hpos hlt hj => blockOk_of_node (h.nodes j hpos hlt hj) rfl rfl,
    fun fh hfh j hj => ?_⟩
  by_cases hi : fh = i
  · subst hi
    obtain rfl : k = j := by simpa [Fs.registered, Fs.State.setEntry] using hj
    exact blockOk_of_node hk rfl rfl
  · have htaken : t.freeOpenFileEntries fh = .TAKEN :=
      (Function.update_of_ne hi _ _).symm.trans hfh
    refine blockOk_of_node (h.handles fh htaken j ?_) rfl rfl
    simpa [Fs.registered, Fs.State.setEntry, Fs.State.setFreeEntry, Function.update_of_ne hi]
      using hj

theorem discarded (h : Sized t) : Sized (Fs.discarded t k (.new .T_FILE)) := by
  refine h.of_nodes rfl (fun j => ?_) (fun _ hj => .inl hj) fun _ hfh => ⟨hfh, rfl⟩
  by_cases hjk : j = k
  · subst hjk
    exact .inr (blockOk_of_empty (by simp [Fs.discarded, Fs.Inode.new]))
  · exact .inl (Function.update_of_ne hjk _ _)

theorem created (h : Sized t) {sub : CString} :
    Sized (Fs.created t k i sub) ∧ BlockOk (Fs.created t k i sub) k := by
  have hempty : ((Fs.created t k i sub).inodeTable k).iSize = 0 := by
    simp [Fs.created, Fs.newInode, Fs.Inode.new]
  refine ⟨h.of_nodes rfl (fun j => ?_) (fun j hj => ?_) fun _ hfh => ⟨hfh, rfl⟩,
    blockOk_of_empty hempty⟩
  · by_cases hjk : j = k
    · exact .inr (blockOk_of_empty (hjk ▸ hempty))
    · exact .inl (Function.update_of_ne hjk _ _)
  · by_cases hjk : j = k
    · exact .inr (blockOk_of_empty (hjk ▸ hempty))
    · exact .inl ((Function.update_of_ne hjk _ _).symm.trans hj)

theorem found (h : Sized t) (hk : BlockOk t k) (mode : ℕ) :
    Sized (Fs.found t k mode) ∧ BlockOk (Fs.found t k mode) k := by
  unfold Fs.found
  split
  · have hempty : ((Fs.truncate t k).inodeTable k).iSize = 0 := by simp [Fs.truncate_eq]
    refine ⟨h.of_nodes (by rw [Fs.truncate_eq]) (fun j => ?_) (fun _ hj => ?_) fun _ hfh => ?_,
      blockOk_of_empty hempty⟩
    · by_cases hjk : j = k
      · exact .inr (blockOk_of_empty (hjk ▸ hempty))
      · rw [Fs.truncate_eq]
        exact .inl (Function.update_of_ne hjk _ _)
    · rw [Fs.truncate_eq] at hj
      exact .inl hj
    · rw [Fs.truncate_eq] at hfh ⊢
      exact ⟨hfh, rfl⟩
  · exact ⟨h, hk⟩

theorem tfsOpen (h : Sized t) (hdir : Fs.DirInv t)
    (hopen : Fs.tfsOpen t name mode 1 = .ret (r, u)) : Sized u := by
  rcases hdir.tfsOpen_cases hopen with ⟨-, rfl | ⟨k, -, rfl⟩⟩ | ⟨k, i, -, -, -, -, hreg⟩ |
    ⟨k, -, hlive, hreg⟩
  · exact h
  · exact h.discarded
  · exact (h.created).1.tfsOpenRegister h.created.2 hreg
  · obtain ⟨hsized, hk⟩ := h.found (h.nodes k hlive.pos hlive.lt hlive.taken) mode
    exact hsized.tfsOpenRegister hk hreg

theorem tfsClose (h : Sized t) (fhandle : ℤ) : Sized (Fs.tfsClose t fhandle).2 := by
  rcases Fs.tfsClose_cases t fhandle with ⟨-, heq⟩ | ⟨fh, -, heq⟩ <;> rw [heq]
  · exact h
  · refine h.of_nodes rfl (fun _ => .inl rfl) (fun _ hj => .inl hj) fun fh' hfh => ⟨?_, rfl⟩
    by_cases hne : fh' = fh
    · subst hne
      simp [Fs.State.setFreeEntry] at hfh
    · exact (Function.update_of_ne hne _ _).symm.trans hfh

/-- Also through a handle that outlived its file, bytes go to a block of the data area. -/
theorem tfsWrite (h : Sized t) {buffer : ℕ → UInt8} {toWrite : ℕ}
    (hwrite : Fs.tfsWrite t fhandle buffer toWrite = .ret (r, u)) : Sized u := by
  unfold Fs.tfsWrite at hwrite
  split at hwrite
  · obtain ⟨-, rfl⟩ := Prod.mk.inj (Outcome.ret.inj hwrite)
    exact h
  split at hwrite
  · cases hwrite
  rename_i fh _ _ k _
  rcases Fs.tfsWriteBody_cases hwrite with ⟨rfl, -⟩ | ⟨b, hb, -, -, -, rfl⟩
  · exact h
  refine h.of_nodes rfl (fun j => ?_) (fun _ hj => .inl hj) fun fh' hfh => ⟨hfh, ?_⟩
  · by_cases hjk : j = k
    · subst hjk
      exact .inr fun _ => ⟨b, by simp [Fs.written], hb.lt⟩
    · exact .inl (Function.update_of_ne hjk _ _)
  · by_cases hne : fh' = fh
    · subst hne
      simp [Fs.written]
    · simp [Fs.written, Function.update_of_ne hne]

theorem tfsRead (h : Sized t) {len : ℕ} {res : ReadResult}
    (hread : Fs.tfsRead t fhandle len = .ret (res, u)) : Sized u := by
  unfold Fs.tfsRead at hread
  split at hread
  · obtain ⟨-, rfl⟩ := Prod.mk.inj (Outcome.ret.inj hread)
    exact h
  split at hread
  · cases hread
  rename_i fh _ _ k _
  rcases Fs.tfsReadBody_cases hread with ⟨rfl, -⟩ | ⟨b, m, -, -, -, -, -, -, rfl⟩
  · exact h
  refine h.of_nodes rfl (fun _ => .inl rfl) (fun _ hj => .inl hj) fun fh' hfh => ⟨hfh, ?_⟩
  by_cases hne : fh' = fh
  · subst hne
    simp [Fs.State.setEntry]
  · simp [Fs.State.setEntry, Function.update_of_ne hne]

theorem tfsUnlink (h : Sized s.toFs) (hdir : Fs.DirInv s.toFs)
    (hunlink : tfsUnlink s target = .ret (r, s')) : Sized s'.toFs := by
  rcases tfsUnlink_cases hdir hunlink with ⟨-, -, rfl⟩ | ⟨k, i, -, -, -, -, -, -, -, -, hs'⟩
  · exact h
  · rw [hs', Fs.freed_eq]
    refine h.of_nodes rfl (fun _ => .inl rfl) (fun j hj => .inl ?_) fun _ hfh => ⟨hfh, rfl⟩
    by_cases hjk : j = k
    · subst hjk
      simp at hj
    · exact (Function.update_of_ne hjk _ _).symm.trans hj

/-- Every call keeps the blocks valid. -/
theorem after (h : Sized s.toFs) (hdir : Fs.DirInv s.toFs) {c : Call}
    (hafter : Fs2.after s c = some s') : Sized s'.toFs := by
  obtain ⟨⟨r, u⟩, hcall, rfl⟩ := Option.map_eq_some_iff.mp hafter
  rw [Outcome.toOption_eq_some] at hcall
  cases c with
  | «open» name mode => exact h.tfsOpen hdir (toFs_tfsOpen hdir.toRootOk hcall)
  | close fh =>
    have hclose := h.tfsClose fh
    rwa [toFs_tfsClose hcall] at hclose
  | write fh buffer toWrite => exact h.tfsWrite (toFs_tfsWrite hcall)
  | read fh len =>
    obtain ⟨⟨res, v⟩, hread, hret⟩ := Outcome.bind_eq_ret.mp hcall
    obtain ⟨-, rfl⟩ := Prod.mk.inj (Outcome.ret.inj hret)
    exact h.tfsRead (toFs_tfsRead hread)
  | unlink target => exact h.tfsUnlink hdir hcall

end Sized

theorem Initialised.sized (h : Initialised s) : Sized s.toFs := by
  have hinit := initialised_toFs h
  obtain ⟨heap, params, -, -, heq⟩ := Fs.initialised_iff.mp hinit
  rw [heq]
  refine ⟨fun k hpos _ htaken => ?_, fun fh hfh => by cases hfh⟩
  -- only the root directory is in use
  change Function.update (fun _ => AllocationState.FREE) 0 .TAKEN k = .TAKEN at htaken
  rw [Function.update_of_ne hpos.ne'] at htaken
  cases htaken

theorem sized_of_reachable (h : Reachable after Initialised s) : Sound s.toFs ∧ Sized s.toFs :=
  h.invariant (I := fun s => Sound s.toFs ∧ Sized s.toFs) (fun _ hs => ⟨hs.sound, hs.sized⟩)
    fun _ _ _ hs _ hafter => ⟨hs.1.after hafter, hs.2.after hs.1.dir hafter⟩

/-! ### The length of a write -/

/-- A write of `fs2/` through an open handle ends as that of `fs/`, which does not know the
assertions. -/
theorem toFs_tfsWrite_of_handle (hsound : Sound s.toFs) (hsized : Sized s.toFs)
    (hh : Fs.Handle s.toFs fhandle fh k) (buffer : ℕ → UInt8) (toWrite : ℕ) :
    Fs.tfsWrite s.toFs fhandle buffer toWrite =
      (tfsWrite s fhandle buffer toWrite).bind fun r => .ret (r.1, r.2.toFs) := by
  obtain ⟨-, -, htaken⟩ := Fs.getOpenFileEntry_eq_some.mp hh.entry
  obtain ⟨j, ⟨-, hj⟩, hsafe⟩ := hsound.handles fh htaken
  obtain rfl : k = j := by exact_mod_cast hh.inumber.symm.trans hj
  refine toFs_tfsWrite_of_clean (tfsWrite_clean_of_block fun fh' hget => ⟨k, ?_, ?_⟩)
  · obtain rfl : fh = fh' :=
      Option.some_inj.mp (hh.entry.symm.trans (getOpenFileEntry_eq_some.mp hget))
    exact inodeGet_eq_ret.mpr (Fs.inodeGet_eq_some.mpr ⟨hj, hsafe.lt⟩)
  · exact hsized.handles fh htaken k hj

/-- Where a write of `fs2/` is exact: the sum of length and offset does not wrap. -/
theorem writes_exactly_iff (hsound : Sound s.toFs) (hsized : Sized s.toFs)
    (hh : Fs.Handle s.toFs fhandle fh k)
    (hinside : (s.openFileTable fh).ofOffset ≤ (s.inodeTable k).iSize)
    (hsize : (s.inodeTable k).iSize ≤ s.blockSize)
    (hfree : firstFree s.freeBlocks s.dataBlocks ≠ none) {toWrite : ℕ}
    (hlen : toWrite < sizeRange) (buffer : ℕ → UInt8) :
    (∃ s', tfsWrite s fhandle buffer toWrite =
        .ret ((min toWrite (s.blockSize - (s.openFileTable fh).ofOffset) : ℕ), s') ∧
      Fs.WroteExactly s.toFs s'.toFs fh k
        (min toWrite (s.blockSize - (s.openFileTable fh).ofOffset)) buffer) ↔
    toWrite + (s.openFileTable fh).ofOffset < sizeRange := by
  obtain ⟨-, -, htaken⟩ := Fs.getOpenFileEntry_eq_some.mp hh.entry
  obtain ⟨j, ⟨-, hj⟩, hsafe⟩ := hsound.handles fh htaken
  obtain rfl : k = j := by exact_mod_cast hh.inumber.symm.trans hj
  obtain ⟨b, hb⟩ : ∃ b, Fs.WriteBlock s.toFs k b := by
    by_cases hempty : (s.inodeTable k).iSize = 0
    · obtain ⟨b, hb⟩ := Option.ne_none_iff_exists'.mp hfree
      exact ⟨b, by rw [Fs.WriteBlock, if_pos (by exact hempty)]; exact hb⟩
    · obtain ⟨b, hb⟩ := hsized.handles fh htaken k hj (Nat.pos_of_ne_zero hempty)
      exact ⟨b, by rw [Fs.WriteBlock, if_neg (by exact hempty)]; exact hb⟩
  have hiff := hh.writes_exactly_iff hsafe.lt hb hinside hsize hlen buffer
  rw [toFs_tfsWrite_of_handle hsound hsized hh buffer toWrite] at hiff
  refine Iff.trans ?_ hiff
  constructor
  · rintro ⟨s', hret, hwrote⟩
    exact ⟨s'.toFs, by rw [hret, Outcome.ret_bind]; rfl, hwrote⟩
  · rintro ⟨t, hret, hwrote⟩
    obtain ⟨⟨r, s'⟩, hcall, heq⟩ := Outcome.bind_eq_ret.mp hret
    obtain ⟨rfl, rfl⟩ := Prod.mk.inj (Outcome.ret.inj heq)
    exact ⟨s', hcall, hwrote⟩

/-- In every state that calls reach, for every handle inside a file of at most a block
and every length: `tfs_write` writes exactly what fits exactly when the sum of the length
and the offset is below `2^64`. -/
theorem writes_clamped (fhandle : ℤ) (fh k : ℕ) (buffer : ℕ → UInt8) (toWrite : UInt64) :
    (∀ s, Reachable Fs.next Fs.Initialised s → Fs.Handle s fhandle fh k →
      (s.openFileTable fh).ofOffset ≤ (s.inodeTable k).iSize →
      (s.inodeTable k).iSize ≤ s.blockSize → firstFree s.freeBlocks s.dataBlocks ≠ none →
      ((∃ s', Fs.tfsWrite s fhandle buffer toWrite.toNat =
            .ret ((min toWrite.toNat (s.blockSize - (s.openFileTable fh).ofOffset) : ℕ), s') ∧
          Fs.WroteExactly s s' fh k
            (min toWrite.toNat (s.blockSize - (s.openFileTable fh).ofOffset)) buffer) ↔
        toWrite.toNat + (s.openFileTable fh).ofOffset < sizeRange)) ∧
    ∀ s, Reachable after Initialised s → Fs.Handle s.toFs fhandle fh k →
      (s.openFileTable fh).ofOffset ≤ (s.inodeTable k).iSize →
      (s.inodeTable k).iSize ≤ s.blockSize → firstFree s.freeBlocks s.dataBlocks ≠ none →
      ((∃ s', tfsWrite s fhandle buffer toWrite.toNat =
            .ret ((min toWrite.toNat (s.blockSize - (s.openFileTable fh).ofOffset) : ℕ), s') ∧
          Fs.WroteExactly s.toFs s'.toFs fh k
            (min toWrite.toNat (s.blockSize - (s.openFileTable fh).ofOffset)) buffer) ↔
        toWrite.toNat + (s.openFileTable fh).ofOffset < sizeRange) := by
  refine ⟨fun s h hh hinside hsize hfree => ?_, fun s h hh hinside hsize hfree => ?_⟩
  · have hinv := (Fs.exclusiveInv_of_reachable h).toSeqInv
    have hlive := hinv.liveFile_of_handle hh
    obtain ⟨b, hb⟩ := hinv.exists_writeBlock hlive fun _ => hfree
    exact hh.writes_exactly_iff hlive.lt hb hinside hsize toWrite.toNat_lt buffer
  · obtain ⟨hsound, hsized⟩ := sized_of_reachable h
    exact writes_exactly_iff hsound hsized hh hinside hsize hfree toWrite.toNat_lt buffer

/-- One byte is in the file; four more go to the rest of the block of 1024 bytes. -/
theorem writes_clamped_four : ∃ s s', Reachable Fs.next Fs.Initialised s ∧
    (s.openFileTable 0).ofOffset = 1 ∧
    Fs.tfsWrite s 0 (fun _ => 66) 4 = .ret (4, s') ∧ Fs.WroteExactly s s' 0 1 4 fun _ => 66 := by
  obtain ⟨s, hreach, hs⟩ := exists_of_runList Fs.next
    [Fs.Call.open Fs.pathF1 tfsOCreat 1, .write 0 (fun _ => 65) 1]
    (fun s => decide ((Fs.getOpenFileEntry s 0 = some 0 ∧
      (s.openFileTable 0).ofInumber = 1) ∧ (s.openFileTable 0).ofOffset = 1 ∧
      (s.inodeTable 1).iSize = 1 ∧ s.blockSize = 1024 ∧
      firstFree s.freeBlocks s.dataBlocks ≠ none)) Fs.initialised_fresh (by decide +kernel)
  obtain ⟨⟨hentry, hinum⟩, hoff, hsize, hblock, hfree⟩ := of_decide_eq_true hs
  have hiff := (writes_clamped 0 0 1 (fun _ => 66) 4).1 s hreach
    ⟨hentry, by exact_mod_cast hinum⟩ (by rw [hoff, hsize]) (by rw [hsize, hblock]; decide) hfree
  rw [hoff, hblock] at hiff
  obtain ⟨s', hret, hwrote⟩ := hiff.mpr (by decide)
  exact ⟨s, s', hreach, hoff, hret, hwrote⟩

/-- At offset 1, the length `2^64 - 1` wraps to 0 in the guard and is not cut short: the
copy leaves the data area. -/
theorem write_wraps :
    ¬ ∀ s, Reachable Fs.next Fs.Initialised s → ∀ fhandle fh k, Fs.Handle s fhandle fh k →
      (s.openFileTable fh).ofOffset ≤ (s.inodeTable k).iSize →
      (s.inodeTable k).iSize ≤ s.blockSize → firstFree s.freeBlocks s.dataBlocks ≠ none →
      ∀ (buffer : ℕ → UInt8) (toWrite : UInt64),
        ∃ s', Fs.tfsWrite s fhandle buffer toWrite.toNat =
            .ret ((min toWrite.toNat (s.blockSize - (s.openFileTable fh).ofOffset) : ℕ), s') ∧
          Fs.WroteExactly s s' fh k
            (min toWrite.toNat (s.blockSize - (s.openFileTable fh).ofOffset)) buffer := by
  intro hall
  obtain ⟨s, hreach, hs⟩ := exists_of_runList Fs.next
    [Fs.Call.open Fs.pathF1 tfsOCreat 1, .write 0 (fun _ => 65) 1]
    (fun s => decide ((Fs.getOpenFileEntry s 0 = some 0 ∧
      (s.openFileTable 0).ofInumber = 1) ∧ (s.openFileTable 0).ofOffset = 1 ∧
      (s.inodeTable 1).iSize = 1 ∧ s.blockSize = 1024 ∧
      firstFree s.freeBlocks s.dataBlocks ≠ none) &&
      (Fs.tfsWrite s 0 (fun _ => 66) 18446744073709551615).toOption.isNone)
    Fs.initialised_fresh (by decide +kernel)
  obtain ⟨hs, hfault⟩ := Bool.and_eq_true_iff.mp hs
  obtain ⟨⟨hentry, hinum⟩, hoff, hsize, hblock, hfree⟩ := of_decide_eq_true hs
  obtain ⟨s', hret, -⟩ := hall s hreach 0 0 1 ⟨hentry, by exact_mod_cast hinum⟩
    (by rw [hoff, hsize]) (by rw [hsize, hblock]; decide) hfree (fun _ => 66)
    18446744073709551615
  rw [show (18446744073709551615 : UInt64).toNat = 18446744073709551615 from rfl] at hret
  rw [hret] at hfault
  cases hfault

end TfsBroker.Fs2
