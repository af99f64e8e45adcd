import TfsBroker.Lib.Chains
import TfsBroker.Fs.Exclusive

/-!
# Whether `tfs_open` returns

`tfs_open` of a symbolic link calls itself with the stored target. Targets are kept
as names, so what a link points to can change after it was made: a name can be
removed and entered again for a link that leads back. `tfs_sym_link` checks only that
its target exists and that its link does not, so it can close a cycle of links, and
`tfs_open` then never returns.

## Main results

* `LinksEnd.next` — only a `tfs_sym_link` from whose target the links lead to its own
  name makes an endless chain
* `open_returns` — `tfs_open` returns in every run without such a call
* `open_never_returns` — a run after which it does not
-/

namespace TfsBroker.Fs

open State Ownership Runs Relation

variable {s s' : State} {name target linkName : Option CString} {mode k j b i n fh depth : ℕ}
  {t sub a : CString}

/-! ### Following symbolic links -/

/-- The name `sub` is entered for the inode `k`. -/
def Entered (s : State) (sub : CString) (k : ℕ) : Prop :=
  Directory.Entered s.fsData 0 s.maxDirEntries sub k

/-- `a` is the name of a symbolic link, and `b` the name in its target. -/
def Follows (s : State) (a b : CString) : Prop :=
  ∃ k t, Entered s a k ∧ LiveLink s k ∧ StoredTarget s k t ∧ b = subName (some t)

/-- Following symbolic links ends at a file or at a missing name. -/
def LinksEnd (s : State) : Prop := Chains.Terminates (Follows s)

/-- `tfs_sym_link` passes its checks and finds room. -/
structure SymLinkRuns (s : State) (target linkName : Option CString) : Prop where
  valid : validPathname linkName = true
  target : tfsLookup s target 0 ≠ -1
  fresh : tfsLookup s linkName 0 = -1
  inode : firstFree s.freeinodeTs s.inodeTableSize ≠ none
  block : firstFree s.freeBlocks s.dataBlocks ≠ none
  len : (subName linkName).strlen ≤ maxFileName - 1
  room : Directory.freeEntry s.fsData 0 s.maxDirEntries ≠ none

theorem Enabled.symLinkRuns {l : CString}
    (he : Enabled s (.createLink k b i t (subName (some l)))) (hvalid : validPathname (some l) = true)
    (hname : tfsLookup s (some l) 0 = -1) : SymLinkRuns s (some t) (some l) := by
  cases he with
  | createLink hfirst hb ht hroom =>
    have hlen := hroom.len_lt
    have hmax : maxFileName = 40 := rfl
    exact ⟨hvalid, ht, hname, by simp [hfirst], by simp [hb], by omega, by simp [hroom.first]⟩

/-- The call does not make a symbolic link to a path from which the links already
lead to the name of the new one. -/
def ClosesNoCycle (s : State) : Call → Prop
  | .symLink target linkName => SymLinkRuns s target linkName →
      ¬ ReflTransGen (Follows s) (subName target) (subName linkName)
  | _ => True

/-- Bytes outside the directory's block do not matter to the names. -/
private theorem entered_of_agreeOn (h : Entered s' a k) (hparams : s'.fsParams = s.fsParams)
    (hdata : s'.fsData.AgreeOn s.fsData 0 s.blockSize) : Entered s a k := by
  unfold Entered at h
  rw [maxDirEntries_congr hparams] at h
  have hdir := entries_le_blockSize s
  exact h.of_same (hdata.symm.mono le_rfl (by omega))

/-- A primitive change that makes no symbolic link enters no name for one. -/
theorem Enabled.entered {c : Change} (he : Enabled s c) (h : SeqInv s) (hk : LiveLink s k)
    (hent : Entered (c.apply s) a k) : Entered s a k := by
  -- a name entered for another inode is not one of `k`
  have hfill : ∀ {m : Memory} {k' i : ℕ} {sub : CString}, k' < s.inodeTableSize → k ≠ k' →
      Room s i sub → Directory.Entered (Directory.fillEntry m 0 i sub k') 0 s.maxDirEntries a k →
      Directory.Entered m 0 s.maxDirEntries a k := by
    intro m k' i sub hlt hne hroom hent
    rcases hent.of_fillEntry (isInt_of_lt hlt) hroom.len_lt with ⟨-, heq⟩ | hold
    · exact absurd (by exact_mod_cast heq) hne
    · exact hold
  have hcopy : ∀ {b : ℕ} {t : CString}, firstFree s.freeBlocks s.dataBlocks = some b →
      tfsLookup s (some t) 0 ≠ -1 → (s.fsData.memcpy (b * s.blockSize + 0) (t.strlen + 1)
        t.byteAt).AgreeOn s.fsData 0 s.blockSize := fun hb ht => by
    have hfits := (h.target_fits ht).2.2
    exact agreeOn_directory (firstFree_ne hb h.block_taken) (by omega)
  cases he with
  | discard | register | close | seek => exact hent
  | truncate =>
    simp only [Change.apply, truncate_eq] at hent
    exact hent
  | create hfirst hroom =>
    exact hfill (firstFree_lt hfirst) (firstFree_ne hfirst hk.taken).symm hroom hent
  | write _ hlive hb _ hfits =>
    have hb0 := h.writeBlock_ne (h.isSafe hlive.pos hlive.lt hlive.taken) hb
    exact entered_of_agreeOn hent rfl (by exact agreeOn_directory hb0 hfits)
  | discardLink hfirst hb ht => exact entered_of_agreeOn hent rfl (by exact hcopy hb ht)
  | @createLink k' b i t sub hfirst hb ht hroom =>
    have hold : Entered (linkInode s k' b t) a k :=
      hfill (firstFree_lt hfirst) (firstFree_ne hfirst hk.taken).symm hroom hent
    exact entered_of_agreeOn hold rfl (hcopy hb ht)
  | link hlive hroom =>
    refine hfill hlive.lt ?_ hroom hent
    rintro rfl
    exact hk.not_liveFile hlive
  | unlink => exact Directory.Entered.of_clearEntry hent
  | free =>
    simp only [Change.apply, freed_eq] at hent
    exact Directory.Entered.of_clearEntry hent

/-- No name is entered for a free inode. -/
theorem DirInv.taken_of_entered (h : DirInv s) (hent : Entered s a k) :
    s.freeinodeTs k = .TAKEN := by
  obtain ⟨i, hi, hnames, hinum⟩ := hent
  obtain ⟨k', hk', -, -, htaken⟩ := h.refers i hi hnames.1
  obtain rfl : k = k' := by exact_mod_cast hinum.symm.trans hk'
  exact htaken

/-- A link that was in use already leads where it led before. -/
private theorem Enabled.follows_old {c : Change} (he : Enabled s c) (h : SeqInv s)
    (hl : LinksStored s) (hold : LiveLink s k) (hent : Entered (c.apply s) a k)
    (hstored : StoredTarget (c.apply s) k t) : Follows s a (subName (some t)) := by
  obtain ⟨t', hstored', -⟩ := hl k hold
  have hframe := he.frame h.root_taken
  obtain rfl := hstored.unique (hstored'.of_same (he.keepsTarget h hold) hframe.params)
  exact ⟨k, t, he.entered h hold hent, hold, hstored', rfl⟩

theorem Enabled.follows {c : Change} (he : Enabled s c) (hlink : c.MakesNoLink) (h : SeqInv s)
    (hl : LinksStored s) {a b : CString} (hfollows : Follows (c.apply s) a b) : Follows s a b := by
  obtain ⟨k, t, hent, hlive, hstored, rfl⟩ := hfollows
  rcases he.liveLink hlive with hold | ⟨b, i, t', sub, rfl⟩
  · exact he.follows_old h hl hold hent hstored
  · exact hlink.elim

/-- `tfs_sym_link` adds one step, from its link to its target. -/
theorem Enabled.follows_createLink (he : Enabled s (.createLink k b i t sub)) (h : SeqInv s)
    (hl : LinksStored s) {a c : CString} (hfollows : Follows (linkCreated s k b i t sub) a c) :
    Follows s a c ∨ a = sub ∧ c = subName (some t) := by
  obtain ⟨j, t', hent, hlive, hstored, rfl⟩ := hfollows
  rcases he.liveLink hlive with hold | ⟨b', i', t'', sub', heq⟩
  · exact .inl (he.follows_old h hl hold hent hstored)
  · obtain ⟨rfl, -⟩ := Change.createLink.inj heq
    obtain rfl := hstored.unique (he.storedTarget h).2
    refine .inr ⟨?_, rfl⟩
    cases he with
    | createLink hfirst hb ht hroom =>
      -- the inode was free, so no other name is entered for it
      rcases Directory.Entered.of_fillEntry (isInt_of_lt (firstFree_lt hfirst)) hroom.len_lt hent
        with ⟨hname, -⟩ | hold
      · exact hname
      · have hfits := (h.target_fits ht).2.2
        have hagree : (s.fsData.memcpy (b * s.blockSize + 0) (t'.strlen + 1) t'.byteAt).AgreeOn
            s.fsData 0 s.blockSize :=
          agreeOn_directory (firstFree_ne hb h.block_taken) (by omega)
        have hlinked : Entered (linkInode s k b t') a k := hold
        have htaken := h.taken_of_entered (entered_of_agreeOn hlinked rfl hagree)
        rw [firstFree_free hfirst] at htaken
        cases htaken

/-- Every call that closes no cycle keeps the chains of symbolic links finite. -/
theorem LinksEnd.next {c : Call} (hends : LinksEnd s) (h : ExclusiveInv s)
    (hok : ClosesNoCycle s c) (hnext : Fs.next s c = some s') : LinksEnd s' := by
  rcases h.toSeqInv.next_effects hnext with heffects |
    ⟨t, l, k, b, i, rfl, hvalid, hname, he, rfl⟩
  · exact (heffects.invariant (P := fun u => LinksStored u ∧ LinksEnd u)
      (fun hinv he hlink hu =>
        ⟨hu.1.apply hinv he, hu.2.mono fun _ _ => he.follows hlink hinv hu.1⟩)
      ⟨h.links, hends⟩).2
  · exact Chains.Terminates.add hends
      (fun a c => he.follows_createLink h.toSeqInv h.links) (hok (he.symLinkRuns hvalid hname))

/-! ### `tfs_open` returns -/

theorem DirInv.tfsOpenRoot_ret (h : DirInv s) (name : Option CString) (mode : ℕ) :
    ∃ x, Fs.tfsOpenRoot s name mode = .ret x := by
  unfold Fs.tfsOpenRoot
  split
  · simp only [h.inodeGet_root]
    split
    · exact ⟨_, rfl⟩
    split
    · rw [inodeCreate_eq (by decide)]
      cases hfirst : firstFree s.freeinodeTs s.inodeTableSize with
      | none => exact ⟨_, rfl⟩
      | some k =>
        refine Outcome.exists_bind_eq_ret ?_ fun r => ?_
        · exact (h.of_newInode (firstFree_ne hfirst h.root_taken)).addDirEntry_ret _ _
        · cases r <;> exact ⟨_, rfl⟩
    · exact ⟨_, rfl⟩
  · exact ⟨_, rfl⟩

/-- The part of `tfs_open` under the lock of an inode found by its name returns, and
goes on with the target of a symbolic link. -/
theorem ExclusiveInv.tfsOpenInode_ret (h : ExclusiveInv s) (hl : tfsLookup s name 0 = k)
    (mode : ℕ) : ∃ r s', tfsOpenInode s k mode = .ret (r, s') ∧
      ∀ t, r = .follow t → s' = s ∧ Follows s (subName name) (subName (some t)) := by
  rcases h.tfsOpenInode_eq hl mode with ⟨t, hlive, hstored, heq⟩ | ⟨-, heq⟩ <;> rw [heq]
  · refine ⟨_, _, rfl, fun t' hfollow => ⟨rfl, ?_⟩⟩
    obtain ⟨-, i, k', hi, hnames, hinum, hk, -⟩ := h.lookup hl (natCast_ne_neg_one k)
    obtain rfl : k = k' := by exact_mod_cast hk
    split at hfollow
    · cases hfollow
    · obtain rfl := OpenInode.follow.inj hfollow
      exact ⟨k, t, ⟨i, hi, hnames, hinum⟩, hlive, hstored, rfl⟩
  · exact ⟨_, _, rfl, fun _ hfollow => by cases hfollow⟩

/-- Where the symbolic links end, `tfs_open` returns. -/
theorem ExclusiveInv.tfsOpen_returns (h : ExclusiveInv s) (hends : LinksEnd s) (mode : ℕ)
    (sub : CString) : ∀ name, subName name = sub →
      ∃ depth r, tfsOpen s name mode depth = .ret r := by
  -- the chain of symbolic links from `sub` carries the induction
  induction sub using WellFounded.induction hends with
  | _ sub ih =>
    rintro name rfl
    obtain ⟨⟨r, s'⟩, hroot⟩ := h.tfsOpenRoot_ret name mode
    cases r with
    | failed => exact ⟨1, (-1, s'), by simp [tfsOpen, hroot]⟩
    | created k => exact ⟨1, tfsOpenRegister s' k 0, by simp [tfsOpen, hroot]⟩
    | found k =>
      obtain ⟨rfl, hl⟩ := (h.tfsOpenRoot hroot).2.1 k rfl
      obtain ⟨r, s2, hinode, hfollow⟩ := h.tfsOpenInode_ret hl mode
      cases r with
      | failed => exact ⟨1, (-1, s2), by simp [tfsOpen, hroot, hinode]⟩
      | opened offset =>
        exact ⟨1, tfsOpenRegister s2 k offset, by simp [tfsOpen, hroot, hinode]⟩
      | follow t =>
        obtain ⟨rfl, hstep⟩ := hfollow t rfl
        obtain ⟨depth, r, hr⟩ := ih _ hstep (some t) rfl
        refine ⟨depth + 1, r, ?_⟩
        simp only [tfsOpen, hroot, Outcome.ret_bind, hinode]
        exact hr

end TfsBroker.Fs
