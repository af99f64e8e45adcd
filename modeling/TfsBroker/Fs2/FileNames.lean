import TfsBroker.Fs.Import
import TfsBroker.Fs2.StoredFiles

/-!
# Every file of `fs2/` has one name

There are no links in `fs2/`, so a file in use has one entry of the directory. A call that keeps
the names of a file adds none to it, and a file that `tfs_open` creates is empty.

## Main results

* `Sound.lookup_injective` — two names are those of two files
* `Sound.names_back` — a call that keeps the names of a file adds none
-/

namespace TfsBroker.Fs2

open Counting

variable {s s' : State} {t u : Fs.State} {name other : Option CString} {mode k : ℕ} {r : ℤ}

namespace Sound

/-- One entry of the directory refers to a file. -/
theorem linkCount_eq_one (h : Sound s.toFs) (hpos : 0 < k) (hlt : k < s.inodeTableSize)
    (hk : s.freeinodeTs k = .TAKEN) :
    Directory.linkCount s.fsData 0 s.maxDirEntries k = 1 :=
  (h.dir.node k hpos hlt hk).links.symm

/-- Two names are those of two files. -/
theorem lookup_injective (h : Sound s.toFs) (hname : Fs.tfsLookup s.toFs name 0 = k)
    (hother : Fs.tfsLookup s.toFs other 0 = k) : name = other := by
  have hne := Fs.natCast_ne_neg_one k
  obtain ⟨hvalid, i, k', hi, hnames, hik, hk', hpos, hlt, htaken⟩ := h.dir.lookup hname hne
  obtain ⟨hvalid', j, k'', hj, hnames', hjk, hk'', -⟩ := h.dir.lookup hother hne
  have hcount := h.linkCount_eq_one hpos hlt htaken
  rw [← hk'] at hcount hik
  rw [← hk''] at hjk
  obtain rfl : i = j := eq_of_countOf_le_one hcount.le (Finset.mem_range.mpr hi) hik
    (Finset.mem_range.mpr hj) hjk
  exact Fs.subName_injective hvalid hvalid' (hnames.unique hnames')

/-- Every file in use has a name. -/
theorem exists_name (h : Sound s.toFs) (hpos : 0 < k) (hlt : k < s.inodeTableSize)
    (hk : s.freeinodeTs k = .TAKEN) : ∃ name, Fs.tfsLookup s.toFs name 0 = k := by
  have hcount := h.linkCount_eq_one hpos hlt hk
  have hsome : 0 < Directory.linkCount s.fsData 0 s.maxDirEntries k := hcount ▸ Nat.one_pos
  obtain ⟨i, hi, hik⟩ := countOf_pos.mp hsome
  have hi' := Finset.mem_range.mp hi
  obtain ⟨n, hn, hnames⟩ := h.dir.wf.named i hi' (hik.trans_ne (Fs.natCast_ne_neg_one k))
  -- the path of the entry
  let path : CString := ⟨47 :: n.bytes, by simpa using n.nul_free⟩
  have hvalid : validPathname (some path) = true := by
    have hlen : path.strlen = n.strlen + 1 := rfl
    simp only [validPathname, hlen, Bool.and_eq_true, decide_eq_true_eq, beq_iff_eq]
    exact ⟨by omega, rfl⟩
  have hsub : subName (some path) = n := rfl
  have hfind := h.dir.wf.findEntry_eq_some.mpr ⟨hi', hnames⟩
  refine ⟨some path, ?_⟩
  rw [h.dir.tfsLookup_eq, if_pos hvalid, h.dir.findInDir_eq, hsub, hfind, Option.elim_some]
  exact hik

/-- A call that keeps the names of a file adds none to it. -/
theorem names_back (h : Sound s.toFs) (h' : Sound s'.toFs)
    (hnames : ∀ name, Fs.tfsLookup s.toFs name 0 = k → Fs.tfsLookup s'.toFs name 0 = k)
    (hpos : 0 < k) (hlt : k < s.inodeTableSize) (hk : s.freeinodeTs k = .TAKEN)
    (hname : Fs.tfsLookup s'.toFs name 0 = k) : Fs.tfsLookup s.toFs name 0 = k := by
  obtain ⟨old, hold⟩ := h.exists_name hpos hlt hk
  rwa [h'.lookup_injective hname (hnames old hold)]

end Sound

namespace Stored

/-- A file that was not in use before `tfs_open` is a new one, which is empty. -/
theorem tfsOpen_new (h : Stored t) (hopen : Fs.tfsOpen t name mode 1 = .ret (r, u))
    (hk : u.freeinodeTs k = .TAKEN) :
    t.freeinodeTs k = .TAKEN ∨ Fs.fileContents u k = [] := by
  have hfound : ∀ j, (Fs.found t j mode).freeinodeTs = t.freeinodeTs := by
    intro j
    unfold Fs.found
    split
    · rw [Fs.truncate_eq]
    · rfl
  rcases h.dir.tfsOpen_cases hopen with ⟨-, rfl | ⟨j, hfirst, rfl⟩⟩ |
    ⟨j, i, -, hfirst, -, -, hreg⟩ | ⟨j, -, -, hreg⟩
  · exact .inl hk
  · exact .inl hk
  · obtain ⟨hinodes, hcontents⟩ := contents_register hreg
    by_cases hkj : k = j
    · rw [hkj, hcontents]
      exact .inr Fs.fileContents_created
    · rw [hinodes] at hk
      exact .inl ((Function.update_of_ne hkj _ _).symm.trans hk)
  · rw [(contents_register hreg).1, hfound] at hk
    exact .inl hk

/-- After a `tfs_open` that succeeded there is a file of the name. -/
theorem tfsOpen_creates (h : Stored t) (htrunc : hasFlag mode tfsOTrunc = false)
    (hopen : Fs.tfsOpen t name mode 1 = .ret (r, u)) (hr : r ≠ -1) : ∃ k : ℕ, Fs.tfsLookup u name 0 = k := by
  have hvalid := Fs.validPathname_of_tfsOpen hopen hr
  have hleaves := (h.tfsOpen_leaves htrunc hopen).1
  rcases h.dir.tfsOpen_cases hopen with ⟨hfail, -⟩ |
    ⟨k, i, -, hfirst, hroom, hdir, hreg⟩ | ⟨k, hres, -, -⟩
  · exact absurd hfail hr
  · refine ⟨k, ?_⟩
    have hl := hdir.lookup_created hfirst hroom hvalid
    have hsame : SameDirectory (Fs.created t k i (subName name)) u := by
      rcases Fs.tfsOpenRegister_cases (Fs.created t k i (subName name)) k 0 with
        ⟨-, heq⟩ | ⟨fh, -, heq⟩ <;> rw [heq] at hreg <;> obtain ⟨-, rfl⟩ := Prod.mk.inj hreg <;>
        exact .of_data rfl rfl
    exact lookup_of_sameDirectory hdir hleaves.stored.dir hsame hl
  · exact ⟨k, hleaves.names name k (Fs.lookup_of_resolve hres)⟩

/-- `tfs_unlink` frees the inode of the file. -/
theorem tfsUnlink_frees (h : Stored s.toFs) (hunlink : Fs2.tfsUnlink s name = .ret (0, s'))
    (hl : Fs.tfsLookup s.toFs name 0 = k) : s'.freeinodeTs k = .FREE := by
  rcases tfsUnlink_cases h.dir hunlink with ⟨-, hr, -⟩ | ⟨k', i, hl', -, -, -, -, -, -, -, hs'⟩
  · cases hr
  obtain rfl : k = k' := by exact_mod_cast hl.symm.trans hl'
  have hfree := congrFun (congrArg Fs.State.freeinodeTs hs') k
  rw [Fs.freed_eq] at hfree
  exact hfree.trans (Function.update_self _ _ _)

/-- `tfs_unlink` takes no inode into use. -/
theorem tfsUnlink_taken (h : Stored s.toFs) (hunlink : Fs2.tfsUnlink s name = .ret (r, s'))
    (hk : s'.freeinodeTs k = .TAKEN) : s.freeinodeTs k = .TAKEN := by
  rcases tfsUnlink_cases h.dir hunlink with ⟨-, -, rfl⟩ | ⟨j, i, -, -, -, htaken, -, -, -, -, hs'⟩
  · exact hk
  have hfree := congrFun (congrArg Fs.State.freeinodeTs hs') k
  rw [Fs.freed_eq] at hfree
  by_cases hkj : k = j
  · rw [hkj]
    exact htaken
  · exact (hfree.trans (Function.update_of_ne hkj _ _)).symm.trans hk

end Stored

end TfsBroker.Fs2
