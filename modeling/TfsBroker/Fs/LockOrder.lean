import TfsBroker.Fs.LockDiscipline

/-!
# The lock order of `fs/`

Every call acquires locks in the order of their ranks and gives back each of them, so no
interleaving of calls deadlocks: as long as no `tfs_write` or `tfs_read` works on an entry of
the open file table that `add_to_open_file_table` has marked `TAKEN` but never written.
`get_open_file_entry` does not tell such an entry from an open one. Its inode number is
whatever the memory held, for instance that of the root directory, whose lock ranks below
the mutex of the entry.

## Main results

* `locks_ranked` — the discipline, for every run that meets the condition
* `calls_deadlock` — three calls that wait for one another
-/

namespace TfsBroker.Fs.Locking

open State Programs

variable {α : Type} {s s' : Shared} {t : State} {k : ℕ} {c : Option Call}

/-! ### The root lock -/

/-- Take the root lock. -/
theorem wp_lockRoot {Q : PUnit → List Lock → Shared → Prop}
    (hq : ∀ s', Base s' → Tracks s'.fs s'.fs → DirInv s'.fs → Q ⟨⟩ [.inode 0] s') :
    Wp discipline c [] s (.wrlock (.inode 0)) Q :=
  Wp.lock_main lawful (by simp) fun s' henv hres => hq s' henv.inv (.refl hres) hres

/-- Release the root lock where the operation leaves the directory as it should be. -/
theorem wp_unlockRoot {Q : PUnit → List Lock → Shared → Prop} (ht : Tracks t s.fs)
    (hdir : DirInv t) (hq : ∀ s', discipline.Env False s s' → Q ⟨⟩ [] s') :
    Wp discipline c [.inode 0] s (.release (.inode 0)) Q :=
  Wp.unlock_main lawful List.mem_cons_self
    (fun _ henv => (ht.env henv).dirInv hdir henv.inv.block_taken) hq

theorem wp_leaveRoot {ret : ℤ} (ht : Tracks t s.fs) (hdir : DirInv t) :
    Wp discipline c [.inode 0] s (leaveRoot 0 ret) NoLocks :=
  Wp.bind (wp_unlockRoot ht hdir fun _ _ => Wp.pure rfl)

/-- The lock of an inode other than the root ranks above the root lock. -/
theorem rank_root_lt (hk : k ≠ 0) : ∀ x ∈ [Lock.inode 0], rank x < rank (.inode k) := by
  simp [rank, rootDirInum, hk]

theorem wp_leaveBoth {ret : ℤ} (hk : k ≠ 0) (ht : Tracks t s.fs) (hdir : DirInv t) :
    Wp discipline c [.inode k, .inode 0] s (leaveBoth 0 k ret) NoLocks :=
  Wp.bind (wp_release (by simpa using hk) fun _ h => wp_leaveRoot (ht.env (h.mono (by simp))) hdir)

/-! ### `tfs_open` -/

/-- The end of every `tfs_open` that holds no lock. -/
theorem wp_openEnd {mode : ℕ} (hsafe : Safe s.fs k) :
    Wp discipline c [.inode k] s (openEnd k mode) NoLocks := by
  have hk := hsafe.pos.ne'
  refine Wp.bind (wp_get fun s₁ h₁ => ?_)
  refine Wp.bind (wp_release (by simpa using hk) fun s₂ h₂ => ?_)
  exact wp_addToOpenFileTable (h₂.keeps.safe k (h₁.keeps.safe k hsafe)) (by simp)
    fun _ _ _ => rfl

theorem wp_openFound {mode : ℕ} (hsafe : Safe s.fs k) :
    Wp discipline c [] s (openFound k mode) NoLocks := by
  have hk := hsafe.pos.ne'
  have hne : Lock.inode k ≠ .inode 0 := by simpa using hk
  refine Wp.bind (wp_get fun s₁ h₁ => ?_)
  have hget : inodeGet s₁.fs k = some k :=
    inodeGet_eq_some.mpr ⟨rfl, (h₁.keeps.safe k hsafe).lt⟩
  rw [hget]
  refine Wp.bind (wp_lock hne (by simp) fun s₂ h₂ => ?_)
  have hsafe₂ := h₂.keeps.safe k (h₁.keeps.safe k hsafe)
  refine Wp.bind (wp_test (fun s₃ h₃ _ => ?_) fun s₃ h₃ _ => ?_)
  · -- a symbolic link is followed with no lock held
    rw [if_pos rfl]
    split
    · exact Wp.bind (wp_release hne fun _ _ => Wp.pure rfl)
    · refine Wp.bind (wp_get fun s₄ h₄ => ?_)
      cases linkTarget s₄.fs k with
      | none => trivial
      | some buffer => exact Wp.bind (wp_release hne fun _ _ => rfl)
  · have hsafe₃ := h₃.keeps.safe k hsafe₂
    rw [if_neg (by simp)]
    refine Wp.bind (wp_get fun s₄ h₄ => ?_)
    have hsafe₄ := h₄.keeps.safe k hsafe₃
    split
    · refine Wp.bind (wp_get fun s₅ h₅ => ?_)
      have hsafe₅ := h₅.keeps.safe k hsafe₄
      refine Wp.bind (wp_dataBlockFree hsafe₅.block_ne (by simp [rank, rootDirInum, hk])
        fun s₆ h₆ => ?_)
      have hsafe₆ := h₆.keeps.safe k hsafe₅
      refine Wp.bind (wp_set_still (fun s₇ h₇ => ?_) fun s₇ h₇ => ?_)
      · exact allowed_setInode h₇.inv hk Safe.block_ne fun _ => still_setInode rfl rfl
      · exact wp_openEnd (h₇.keeps.safe k hsafe₆)
    · exact wp_openEnd hsafe₄

/-- Giving back an inode that was just created restores the operation's state. -/
theorem discarded_eq {iType : InodeType} (hfirst : firstFree t.freeinodeTs t.inodeTableSize = some k) :
    (newInode t k iType).setFreeinode k .FREE = discarded t k (.new iType) := by
  have hfree := firstFree_free hfirst
  simp only [newInode, setFreeinode, discarded, Function.update_idem]
  rw [← hfree, Function.update_eq_self]

/-- The rollback of an operation that created an inode and could not enter it. -/
theorem wp_discard {iType : InodeType} {ret : ℤ}
    (hfirst : firstFree t.freeinodeTs t.inodeTableSize = some k) (hk : k ≠ 0) (hdir : DirInv t)
    (ht : Tracks (newInode t k iType) s.fs) :
    Wp discipline c [.inode 0] s (do let _ ← inodeDelete k; leaveRoot 0 ret) NoLocks := by
  refine Wp.bind (wp_inodeDelete ht (by simp) (by decide) (Nat.pos_of_ne_zero hk)
    (firstFree_lt hfirst) (by simp [newInode]) fun s₁ ht₁ => ?_)
  rw [discarded_eq hfirst] at ht₁
  exact wp_leaveRoot ht₁ (hdir.discarded (firstFree_free hfirst) _)

theorem wp_openNew {name : Option CString} (ht : Tracks t s.fs) (hdir : DirInv t)
    (hl : tfsLookup t name 0 = -1) (hvalid : validPathname name = true) :
    Wp discipline c [.inode 0] s (openNew 0 name) NoLocks := by
  refine Wp.bind (wp_inodeCreate ht (by simp) (by decide) (fun s₁ ht₁ => ?_)
    fun s₁ k hfirst hk ht₁ => ?_)
  · exact Wp.bind (wp_unlockRoot ht₁ hdir fun _ _ => Wp.pure rfl)
  refine Wp.bind (wp_addDirEntry ht₁ (by simp) (fun s₂ ht₂ => ?_)
    fun s₂ i hpos hlen hroom ht₂ => ?_)
  · exact wp_discard hfirst hk hdir ht₂
  · have htype : InodeType.T_FILE ≠ .T_DIRECTORY := by decide
    have hnew := hdir.entered htype hfirst hpos hlen hroom (hdir.not_named hl hvalid)
    have hsafe := ht₂.safe k (Nat.pos_of_ne_zero hk) (firstFree_lt hfirst) (by simp [newInode])
    refine Wp.bind (wp_unlockRoot ht₂ hnew fun s₃ h₃ => ?_)
    exact wp_addToOpenFileTable (h₃.keeps.safe k hsafe) (by simp) fun _ _ _ => rfl

theorem wp_tfsOpen {name : Option CString} {mode : ℕ} :
    Wp discipline c [] s (tfsOpen name mode) NoLocks := by
  unfold tfsOpen
  split
  · rename_i hvalid
    refine Wp.bind (wp_get fun s₁ h₁ => ?_)
    rw [h₁.inv.inodeGet_root]
    refine Wp.bind (wp_lockRoot fun s₂ hb₂ ht₂ hdir₂ => ?_)
    refine Wp.bind (wp_get fun s₃ h₃ => ?_)
    have hdir₃ := (ht₂.env (h₃.mono (by simp))).dirInv hdir₂ h₃.inv.block_taken
    split
    · rename_i hfound
      have hne : tfsLookup s₃.fs name 0 ≠ -1 := by omega
      obtain ⟨-, -, k, -, -, -, hk, hpos, hlt, htaken⟩ := hdir₃.lookup rfl hne
      refine Wp.bind (wp_unlockRoot (.refl hdir₃) hdir₃ fun s₄ h₄ => ?_)
      rw [hk]
      exact wp_openFound (h₄.keeps.safe k (hdir₃.isSafe hpos hlt htaken))
    · rename_i hmiss
      split
      · exact wp_openNew (.refl hdir₃) hdir₃ (hdir₃.lookup_neg (by omega)) hvalid
      · exact Wp.bind (wp_unlockRoot (.refl hdir₃) hdir₃ fun _ _ => Wp.pure rfl)
  · exact Wp.pure rfl

/-! ### `tfs_sym_link` and `tfs_link` -/

/-- Writing the target of a symbolic link leaves the directory alone. -/
theorem allowed_storeTarget {b : ℕ} {target : Option CString} {v : State} (hb : Base s)
    (hk : k ≠ 0) (hne : b ≠ 0) (hstore : storeTarget s.fs k b target = some v) :
    discipline.Allowed False s { s with fs := v } := by
  cases target with
  | none => cases hstore
  | some target =>
    obtain ⟨a, ha, hif⟩ := Option.bind_eq_some_iff.mp hstore
    obtain ⟨-, heq⟩ := Option.ite_none_right_eq_some.mp hif
    obtain rfl := Option.some_inj.mp heq
    obtain ⟨b', hb', -, rfl⟩ := dataBlockGet_eq_some.mp ha
    obtain rfl : b = b' := Int.ofNat_inj.mp hb'
    have hdata : s.fs.fsData.AgreeOn
        (s.fs.fsData.memcpy (b * s.fs.blockSize) (target.strlen + 1) target.byteAt) 0
        s.fs.blockSize := DirInv.agreeOn_block hne 0
    refine allowed hb rfl (block_setInode fun _ => Int.natCast_ne_zero.mpr hne)
      (Function.update_of_ne hk.symm _ _) hb.root_taken hb.block_taken (fun _ => rfl) rfl fun _ => ?_
    have hstill : Still s.fs { s.fs with
        fsData := s.fs.fsData.memcpy (b * s.fs.blockSize) (target.strlen + 1) target.byteAt } :=
      ⟨rfl, rfl, hdata, fun _ => ⟨rfl, rfl⟩⟩
    exact hstill.trans (still_setInode rfl rfl)

theorem wp_symLinkEnter {b : ℕ} {target linkName : Option CString} (hdir : DirInv t)
    (hfirst : firstFree t.freeinodeTs t.inodeTableSize = some k) (hk : k ≠ 0) (hne : b ≠ 0)
    (ht : Tracks (newInode t k .T_LINK) s.fs) (hl : tfsLookup t linkName 0 = -1)
    (hvalid : validPathname linkName = true) :
    Wp discipline c [.inode 0] s (symLinkEnter 0 k b target linkName) NoLocks := by
  refine Wp.bind (wp_attempt (fun s₁ h₁ _ => trivial) fun s₁ a v h₁ hsome => ?_)
  obtain ⟨v', hstore, heq⟩ := Option.map_eq_some_iff.mp hsome
  obtain ⟨-, rfl⟩ := Prod.mk.inj heq
  have hset := allowed_storeTarget h₁.inv hk hne hstore
  have ht₁ := (ht.env (h₁.mono (by simp))).env (env_of_allowed hset)
  refine ⟨allowed_mono hset, Wp.bind (wp_addDirEntry ht₁ (by simp) (fun s₂ ht₂ => ?_)
    fun s₂ i hpos hlen hroom ht₂ => ?_)⟩
  · exact wp_discard hfirst hk hdir ht₂
  · exact wp_leaveRoot ht₂
      (hdir.entered (by decide) hfirst hpos hlen hroom (hdir.not_named hl hvalid))

theorem wp_tfsSymLink {target linkName : Option CString} :
    Wp discipline c [] s (tfsSymLink target linkName) NoLocks := by
  unfold tfsSymLink
  split
  · rename_i hvalid
    refine Wp.bind (wp_get fun s₁ h₁ => ?_)
    rw [h₁.inv.inodeGet_root]
    refine Wp.bind (wp_lockRoot fun s₂ hb₂ ht₂ hdir₂ => ?_)
    refine Wp.bind (wp_test (fun s₃ h₃ _ => ?_) fun s₃ h₃ _ => ?_)
    · exact wp_leaveRoot (ht₂.env (h₃.mono (by simp))) hdir₂
    have ht₃ := ht₂.env (h₃.mono (by simp))
    refine Wp.bind (wp_test (fun s₄ h₄ _ => ?_) fun s₄ h₄ hl => ?_)
    · exact wp_leaveRoot (ht₃.env (h₄.mono (by simp))) hdir₂
    have hdir₄ := (ht₃.env (h₄.mono (by simp))).dirInv hdir₂ h₄.inv.block_taken
    refine Wp.bind (wp_inodeCreate (.refl hdir₄) (by simp) (by decide) (fun s₅ ht₅ => ?_)
      fun s₅ k hfirst hk ht₅ => ?_)
    · exact wp_leaveRoot ht₅ hdir₄
    refine Wp.bind (wp_dataBlockAlloc (by decide) fun s₆ r h₆ hr => ?_)
    have ht₆ := ht₅.env (h₆.mono (by simp))
    cases r with
    | none => exact wp_discard hfirst hk hdir₄ ht₆
    | some b => exact wp_symLinkEnter hdir₄ hfirst hk (hr b rfl) ht₆ (not_not.mp hl) hvalid
  · exact Wp.pure rfl

/-- Counting a name more or less. -/
theorem Tracks.setLinks {u : State} (ht : Tracks t u) (hk : k ≠ 0) (f : ℕ → ℕ) :
    Tracks (t.setInode k { t.inodeTable k with iLinksCount := f (t.inodeTable k).iLinksCount })
      (u.setInode k { u.inodeTable k with iLinksCount := f (u.inodeTable k).iLinksCount }) where
  toStill := ht.toStill.setInode (ht.node k).1 (by rw [(ht.node k).2])
  root := by
    simp only [setInode, Function.update_of_ne hk.symm]
    exact ht.root
  safe j hpos hlt htaken := by
    have hsafe := ht.safe j hpos hlt htaken
    refine ⟨hpos, hsafe.lt, ?_⟩
    exact block_setInode (i := { u.inodeTable k with iLinksCount := f (u.inodeTable k).iLinksCount })
      Safe.block_ne j hsafe

theorem wp_linkEnter {linkName : Option CString} (ht : Tracks t s.fs) (hdir : DirInv t)
    (hk : k ≠ 0) (hlt : k < t.inodeTableSize) (htaken : t.freeinodeTs k = .TAKEN)
    (hl : tfsLookup t linkName 0 = -1) (hvalid : validPathname linkName = true) :
    Wp discipline c [.inode 0] s (linkEnter 0 k linkName) NoLocks := by
  have hpos := Nat.pos_of_ne_zero hk
  refine Wp.bind (wp_lock (by simpa using hk) (rank_root_lt hk) fun s₁ h₁ => ?_)
  have ht₁ := ht.env (h₁.mono (by simp))
  refine Wp.bind (wp_test (fun s₂ h₂ _ => ?_) fun s₂ h₂ htype => ?_)
  · exact wp_leaveBoth hk (ht₁.env (h₂.mono (by simp))) hdir
  have ht₂ := ht₁.env (h₂.mono (by simp))
  rw [(ht₂.node k).1] at htype
  refine Wp.bind (wp_addDirEntry ht₂ (by simp) (fun s₃ ht₃ => ?_)
    fun s₃ i hlen hfits hroom ht₃ => ?_)
  · exact wp_leaveBoth hk ht₃ hdir
  refine Wp.bind (wp_set (fun s₄ h₄ => ?_) fun s₄ h₄ _ => ?_)
  · exact allowed_setInode h₄.inv hk Safe.block_ne fun hnot => absurd (by simp) hnot
  · exact wp_leaveBoth hk ((ht₃.env (h₄.mono (by simp))).setLinks hk fun n => (n + 1) % 4294967296)
      (hdir.linked hpos hlt htaken htype hlen hfits hroom (hdir.not_named hl hvalid))

theorem wp_tfsLink {target linkName : Option CString} :
    Wp discipline c [] s (tfsLink target linkName) NoLocks := by
  unfold tfsLink
  split
  · rename_i hvalid
    refine Wp.bind (wp_get fun s₁ h₁ => ?_)
    rw [h₁.inv.inodeGet_root]
    refine Wp.bind (wp_lockRoot fun s₂ hb₂ ht₂ hdir₂ => ?_)
    refine Wp.bind (wp_get fun s₃ h₃ => ?_)
    have ht₃ := ht₂.env (h₃.mono (by simp))
    have hdir₃ := ht₃.dirInv hdir₂ h₃.inv.block_taken
    split
    · exact wp_leaveRoot ht₃ hdir₂
    rename_i hfound
    obtain ⟨-, -, k, -, -, -, hk, hpos, hlt, htaken⟩ := hdir₃.lookup rfl hfound
    refine Wp.bind (wp_test (fun s₄ h₄ _ => ?_) fun s₄ h₄ hl => ?_)
    · exact wp_leaveRoot (ht₃.env (h₄.mono (by simp))) hdir₂
    have ht₄ := (Tracks.refl hdir₃).env (h₄.mono (by simp))
    have hdir₄ := ht₄.dirInv hdir₃ h₄.inv.block_taken
    refine Wp.bind (wp_get fun s₅ h₅ => ?_)
    have ht₅ := (Tracks.refl hdir₄).env (h₅.mono (by simp))
    have hlt₄ : k < s₄.fs.inodeTableSize := inodeTableSize_congr ht₄.params ▸ hlt
    have hget : inodeGet s₅.fs k = some k :=
      inodeGet_eq_some.mpr ⟨rfl, inodeTableSize_congr ht₅.params ▸ hlt₄⟩
    rw [hk, hget]
    exact wp_linkEnter ht₅ hdir₄ hpos.ne' hlt₄ (ht₄.free ▸ htaken) (not_not.mp hl) hvalid
  · exact Wp.pure rfl

/-! ### `tfs_close`, `tfs_write` and `tfs_read` -/

theorem wp_tfsClose {n : ℤ} : Wp discipline c [] s (tfsClose n) NoLocks := by
  refine Wp.bind (wp_get fun s₁ h₁ => ?_)
  cases getOpenFileEntry s₁.fs n with
  | none => exact Wp.pure rfl
  | some fh => exact Wp.bind (wp_removeFromOpenFileTable (by simp) fun _ _ => Wp.pure rfl)

theorem wp_leaveFile {α : Type} {fh : ℕ} {ret : α} (hk : k ≠ 0) :
    Wp discipline c [.inode k, .entry fh] s (leaveFile fh k ret) NoLocks := by
  refine Wp.bind (wp_release (by simpa using hk) fun s₁ _ => ?_)
  exact Wp.bind (wp_release (by simp) fun s₂ _ => Wp.pure rfl)

/-- Storing bytes in a file leaves the directory alone. -/
theorem allowed_storeBlock {fh n : ℕ} {buffer : ℕ → UInt8} {ret : ℤ} {v : State} (hb : Base s)
    (hsafe : Safe s.fs k) (hstore : storeBlock s.fs fh k buffer n = some (ret, v)) :
    discipline.Allowed False s { s with fs := v } := by
  unfold storeBlock at hstore
  split at hstore
  · obtain ⟨-, rfl⟩ := Prod.mk.inj (Option.some_inj.mp hstore)
    exact allowed_refl hb
  rename_i a ha
  obtain ⟨b, hblock, -, rfl⟩ := dataBlockGet_eq_some.mp ha
  have hne : b ≠ 0 := fun hzero => hsafe.block_ne (by rw [hblock, hzero]; rfl)
  obtain ⟨-, heq⟩ := Option.ite_none_right_eq_some.mp hstore
  obtain ⟨-, rfl⟩ := Prod.mk.inj (Option.some_inj.mp heq)
  -- the offset of the entry and the bytes of the block, and maybe the size of the inode
  have hstill : Still s.fs ({ s.fs with
      fsData := s.fs.fsData.memcpy (b * s.fs.blockSize + (s.fs.openFileTable fh).ofOffset) n buffer
      }.setEntry fh { s.fs.openFileTable fh with
        ofOffset := ((s.fs.openFileTable fh).ofOffset + n) % sizeRange }) :=
    ⟨rfl, rfl, DirInv.agreeOn_block hne _, fun _ => ⟨rfl, rfl⟩⟩
  split
  · exact allowed hb rfl (fun j hj => block_setSize j ⟨hj.pos, hj.lt, hj.block_ne⟩) (Function.update_of_ne hsafe.pos.ne _ _) hb.root_taken
      hb.block_taken (ofInumber_setEntry rfl) rfl fun _ => hstill.trans (still_setInode rfl rfl)
  · exact allowed hb rfl (fun _ hj => hj.block_ne) rfl hb.root_taken hb.block_taken
      (ofInumber_setEntry rfl) rfl fun _ => hstill

theorem wp_writeEnd {fh n : ℕ} {buffer : ℕ → UInt8} (hsafe : Safe s.fs k) :
    Wp discipline c [.inode k, .entry fh] s (writeEnd fh k buffer n) NoLocks := by
  refine Wp.bind (wp_attempt (fun s₁ h₁ _ => trivial) fun s₁ ret v h₁ hstore => ?_)
  have hset := allowed_storeBlock h₁.inv (h₁.keeps.safe k hsafe) hstore
  exact ⟨allowed_mono hset, wp_leaveFile hsafe.pos.ne'⟩

theorem wp_writeLocked {fh n : ℕ} {buffer : ℕ → UInt8} (hsafe : Safe s.fs k) :
    Wp discipline c [.inode k, .entry fh] s (writeLocked fh k buffer n) NoLocks := by
  have hk := hsafe.pos.ne'
  refine Wp.bind (wp_get fun s₁ h₁ => ?_)
  have hsafe₁ := h₁.keeps.safe k hsafe
  split
  · refine Wp.bind (wp_get fun s₂ h₂ => ?_)
    have hsafe₂ := h₂.keeps.safe k hsafe₁
    split
    · refine Wp.bind (wp_dataBlockAlloc (by simp [rank, rootDirInum, hk]) fun s₃ r h₃ hr => ?_)
      have hsafe₃ := h₃.keeps.safe k hsafe₂
      cases r with
      | none => exact wp_leaveFile hk
      | some b =>
        refine Wp.bind (wp_set_still (fun s₄ h₄ => ?_) fun s₄ h₄ => ?_)
        · exact allowed_setInode h₄.inv hk (fun _ => Int.natCast_ne_zero.mpr (hr b rfl))
            fun _ => still_setInode rfl rfl
        · exact wp_writeEnd (h₄.keeps.safe k hsafe₃)
    · exact wp_writeEnd hsafe₂
  · exact wp_leaveFile hk

/-- A call that works on an open file, from the mutex of its entry to the lock of its inode. -/
theorem wp_lockFile {fh : ℕ} {w : Bool} {p : ℕ → Program α}
    (hfilled : ∀ s, discipline.promise c (.entry fh) s → s.filled fh = true)
    (hp : ∀ s' k, Safe s'.fs k → Wp discipline c [.inode k, .entry fh] s' (p k) NoLocks) :
    Wp discipline c [] s (do
      .wrlock (.entry fh)
      match ← get (fun s => inodeGet s (s.openFileTable fh).ofInumber) with
      | none => .stop
      | some k =>
        .lock (.inode k) w (.ret ⟨⟩)
        p k) NoLocks := by
  refine Wp.bind (Wp.lock lawful (by rintro ⟨⟩) (by simp) fun s₁ h₁ hpromise => ?_)
  obtain ⟨s₀, hl, h₀⟩ := hpromise
  have hfilled₁ : s₁.filled fh = true := h₀.keeps.filled fh (hfilled s₀ hl)
  refine Wp.bind (wp_get fun s₂ h₂ => ?_)
  obtain ⟨k, hk, hsafe⟩ := h₂.inv.handles fh (h₂.keeps.filled fh hfilled₁)
  rw [hk, inodeGet_eq_some.mpr ⟨rfl, hsafe.lt⟩]
  refine Wp.bind (wp_lock (by simpa using hsafe.pos.ne') ?_ fun s₃ h₃ => ?_)
  · simp [rank, rootDirInum, hsafe.pos.ne']
  · exact hp s₃ k (h₃.keeps.safe k hsafe)

theorem wp_tfsWrite {n : ℤ} {buffer : ℕ → UInt8} {toWrite : UInt64} {len : ℕ} :
    Wp discipline (some (.write n buffer toWrite)) [] s (tfsWrite n buffer len) NoLocks := by
  refine Wp.bind (wp_get fun s₁ h₁ => ?_)
  cases getOpenFileEntry s₁.fs n with
  | none => exact Wp.pure rfl
  | some fh => exact wp_lockFile (fun _ hfilled => hfilled) fun s₂ k hsafe => wp_writeLocked hsafe

theorem wp_tfsRead {n : ℤ} {toRead : UInt64} {len : ℕ} :
    Wp discipline (some (.read n toRead)) [] s (tfsRead n len) NoLocks := by
  refine Wp.bind (wp_get fun s₁ h₁ => ?_)
  cases getOpenFileEntry s₁.fs n with
  | none => exact Wp.pure rfl
  | some fh =>
    refine wp_lockFile (fun _ hfilled => hfilled) fun s₂ k hsafe => ?_
    refine Wp.bind (wp_attempt (fun s₃ h₃ _ => trivial) fun s₃ ret v h₃ hread => ⟨?_, ?_⟩)
    · refine allowed_mono ?_
      rcases tfsReadBody_cases (Outcome.toOption_eq_some.mp hread) with
        ⟨rfl, -⟩ | ⟨b, n, -, -, -, -, -, -, rfl⟩
      · exact allowed_refl h₃.inv
      · exact allowed h₃.inv rfl (fun _ hj => hj.block_ne) rfl h₃.inv.root_taken
          h₃.inv.block_taken (ofInumber_setEntry rfl) rfl fun _ => still_of_eq rfl rfl rfl rfl
    · exact wp_leaveFile hsafe.pos.ne'

/-! ### `tfs_unlink` -/

/-- Entry `i` of the directory is the one `tfs_unlink` clears, and refers to `k`. -/
structure Target (t : State) (i k : ℕ) (name : CString) : Prop where
  lt_entries : i < t.maxDirEntries
  names : Directory.Names t.fsData 0 i name
  inum : Directory.dInumber t.fsData 0 i = k
  pos : 0 < k
  lt : k < t.inodeTableSize
  taken : t.freeinodeTs k = .TAKEN

theorem wp_unlinkLocked {i : ℕ} {name : CString} (hdir : DirInv t) (htarget : Target t i k name)
    (ht : Tracks (cleared t i) s.fs) :
    Wp discipline c [.inode k, .inode 0] s (unlinkLocked 0 k) NoLocks := by
  have hk := htarget.pos.ne'
  refine Wp.bind (wp_get fun s₁ h₁ => ?_)
  have ht₁ := ht.env (h₁.mono (by simp))
  have hlinks : (s₁.fs.inodeTable k).iLinksCount = (t.inodeTable k).iLinksCount := (ht₁.node k).2
  rw [hlinks]
  split
  · -- the last name: `inode_delete` does not fail, because the inode is `TAKEN`
    rename_i hone
    refine Wp.bind (wp_inodeDelete ht₁ (by simp) (by simp [rank, rootDirInum, hk]) htarget.pos
      htarget.lt htarget.taken fun s₂ ht₂ => ?_)
    have hfreed : Tracks (freed (cleared t i) k) s₂.fs := by
      rw [freed_eq]
      exact ⟨⟨ht₂.params, ht₂.free, ht₂.data, ht₂.node⟩, ht₂.root, ht₂.safe⟩
    exact wp_leaveBoth hk hfreed
      (hdir.freed htarget.lt_entries htarget.inum htarget.pos htarget.lt htarget.taken hone).1
  · rename_i hmany
    have hpos := (hdir.node k htarget.pos htarget.lt htarget.taken).links_pos
    refine Wp.bind (wp_set (fun s₂ h₂ => ?_) fun s₂ h₂ _ => ?_)
    · exact allowed_setInode h₂.inv hk Safe.block_ne fun hnot => absurd (by simp) hnot
    · exact wp_leaveBoth hk ((ht₁.env (h₂.mono (by simp))).setLinks hk
        fun n => (n + 4294967295) % 4294967296) (hdir.unlinked htarget.lt_entries htarget.inum
          htarget.pos htarget.lt htarget.taken (by omega))

theorem wp_unlinkEnter {target : Option CString} {i : ℕ} (ht : Tracks t s.fs) (hdir : DirInv t)
    (htarget : Target t i k (subName target)) (hvalid : validPathname target = true) :
    Wp discipline c [.inode 0] s (unlinkEnter 0 k target) NoLocks := by
  have hk := htarget.pos.ne'
  refine Wp.bind (wp_attempt (fun s₁ h₁ _ => trivial) fun s₁ done v h₁ hsome => ?_)
  have ht₁ := ht.env (h₁.mono (by simp))
  have hdir₁ := ht₁.dirInv hdir h₁.inv.block_taken
  have hi : i < s₁.fs.maxDirEntries := maxDirEntries_congr ht₁.params ▸ htarget.lt_entries
  have hagree : t.fsData.AgreeOn s₁.fs.fsData 0 (dirEntrySize * t.maxDirEntries) :=
    ht₁.data.mono le_rfl (by have := entries_le_blockSize t; omega)
  have hnames := (Directory.sameEntry_of_agreeOn hagree htarget.lt_entries).names_iff.mp
    htarget.names
  -- the entry that is cleared is the one the lookup found
  have hmatch := hdir₁.wf.matchEntry_eq hi hnames (strlen_subName_pos hvalid)
  have hclear : clearDirEntry s₁.fs 0 (subName target) = .ret (some (cleared s₁.fs i)) := by
    simp only [clearDirEntry, hdir₁.root_type, ne_eq, not_true_eq_false, if_false,
      hdir₁.dataBlockGet_root, hmatch, Option.map_some, cleared]
  rw [hclear] at hsome
  obtain ⟨rfl, rfl⟩ := Prod.mk.inj (Option.some_inj.mp hsome)
  refine ⟨allowed_setData h₁.inv (by simp) _, ?_⟩
  refine Wp.bind (wp_lock (by simpa using hk) (rank_root_lt hk) fun s₂ h₂ => ?_)
  have ht₂ : Tracks (cleared t i) (cleared s₁.fs i) :=
    ht₁.setData (Directory.clearEntry_congr ht₁.data)
  exact wp_unlinkLocked hdir htarget (ht₂.env (h₂.mono (by simp)))

theorem wp_tfsUnlink {target : Option CString} :
    Wp discipline c [] s (tfsUnlink target) NoLocks := by
  refine Wp.bind (wp_get fun s₁ h₁ => ?_)
  rw [h₁.inv.inodeGet_root]
  refine Wp.bind (wp_lockRoot fun s₂ hb₂ ht₂ hdir₂ => ?_)
  refine Wp.bind (wp_get fun s₃ h₃ => ?_)
  have hdir₃ := (ht₂.env (h₃.mono (by simp))).dirInv hdir₂ h₃.inv.block_taken
  split
  · exact wp_leaveRoot (.refl hdir₃) hdir₃
  rename_i hfound
  obtain ⟨hvalid, i, k, hi, hnames, hik, hk, hpos, hlt, htaken⟩ := hdir₃.lookup rfl hfound
  have htarget : Target s₃.fs i k (subName target) := ⟨hi, hnames, hik, hpos, hlt, htaken⟩
  refine Wp.bind (wp_get fun s₄ h₄ => ?_)
  have ht₄ := (Tracks.refl hdir₃).env (h₄.mono (by simp))
  have hget : inodeGet s₄.fs k = some k :=
    inodeGet_eq_some.mpr ⟨rfl, inodeTableSize_congr ht₄.params ▸ hlt⟩
  rw [hk, hget]
  refine Wp.bind (wp_test (fun s₅ h₅ _ => ?_) fun s₅ h₅ _ => ?_)
  · refine Wp.bind (wp_isInOpenFileTable (by decide) fun s₆ r h₆ => ?_)
    have ht₆ := (ht₄.env (h₅.mono (by simp))).env (h₆.mono (by simp))
    cases r with
    | true => exact wp_leaveRoot ht₆ hdir₃
    | false => exact wp_unlinkEnter ht₆ hdir₃ htarget hvalid
  · exact wp_unlinkEnter (ht₄.env (h₅.mono (by simp))) hdir₃ htarget hvalid

/-! ### Every call -/

theorem wp_noBytes {p : Program ℤ} (hp : Wp discipline c [] s p NoLocks) :
    Wp discipline c [] s (noBytes p) NoLocks := Wp.bind (hp.mono fun _ _ _ hnone => hnone)

/-- Every call keeps to the discipline. -/
theorem wp_start (call : Call) : Wp discipline (some call) [] s (start call) NoLocks := by
  cases call with
  | «open» name mode => exact wp_noBytes wp_tfsOpen
  | symLink target linkName => exact wp_noBytes wp_tfsSymLink
  | link target linkName => exact wp_noBytes wp_tfsLink
  | close n => exact wp_noBytes wp_tfsClose
  | write n buffer toWrite => exact wp_noBytes wp_tfsWrite
  | read n len => exact wp_tfsRead
  | unlink target => exact wp_noBytes wp_tfsUnlink

variable {T : Type*} [DecidableEq T] {σ : Sys T}

omit [DecidableEq T] in
/-- Before the first call every thread keeps to the discipline. -/
theorem Start.good (h : Start σ) : Good discipline σ := by
  have hdir := tfsInit_dirInv h.initialised
  have hnone : ∀ t, (σ.thread t).held = [] := fun t => (h.idle t).2
  refine ⟨⟨hdir.toRootOk, hdir.root_taken, hdir.block_taken, fun fh hfh => ?_⟩, fun t => ?_,
    fun t => ?_, fun t u ht => ?_, fun t ht => ?_, fun _ => hdir⟩
  · rw [h.filled fh] at hfh
    cases hfh
  · have hret := (h.idle t).1
    cases hprog : (σ.thread t).prog with
    | ret a => exact hnone t
    | _ =>
      rw [hprog] at hret
      exact hret.elim
  · rw [hnone t]
    exact List.nodup_nil
  · rw [hnone t] at ht
    cases ht
  · rw [hnone t] at ht
    cases ht

/-- Every step of a run whose steps all meet the condition is disciplined. -/
theorem good_of_reach (h : Runs.Reach next Start (Programs.Sys.Promised EntryFilled) σ) :
    Good discipline σ :=
  h.invariant (fun _ hs => hs.good) fun _ _ _ hgood hok hnext =>
    hgood.next lawful (fun call _ _ => wp_start call) hok hnext

/-- In every run in which no `tfs_write` or `tfs_read` takes the mutex of an entry that was
never written, every thread acquires its locks in the order of their ranks and holds none
when a call has returned, and no threads wait for one another in a cycle. -/
theorem locks_ranked (h : Runs.Reach next Start (Programs.Sys.Promised EntryFilled) σ) (t : T) :
    (σ.thread t).Ranked rank ∧ ((σ.thread t).prog.Returned → (σ.thread t).held = []) ∧
      ¬ Relation.TransGen (σ.WaitsFor locks) t t :=
  have hgood := good_of_reach h
  ⟨hgood.ranked t, hgood.returned t, Programs.Sys.no_waiting_cycle hgood.ranked t⟩

/-! ### Two runs -/

/-- Threads on a fresh file system, before any call. -/
def Sys.fresh : Sys ℕ :=
  ⟨⟨initState .zeroed tfsDefaultParams, .unlocked, .unlocked, .unlocked, fun _ => false⟩,
    fun _ => ⟨none, .ret ⟨0, []⟩, []⟩⟩

theorem Sys.start_fresh : Start Sys.fresh where
  initialised := initialised_iff.mpr ⟨.zeroed, tfsDefaultParams, by decide, by decide, rfl⟩
  openFileTableRwl := rfl
  inodeTableRwl := rfl
  freeBlocksRwl := rfl
  filled _ := rfl
  idle _ := ⟨trivial, rfl⟩

/-- The thread `t` begins the call `c` and takes `n` steps. -/
private def runs (t : ℕ) (c : Call) (n : ℕ) : List (ℕ × Option Call) :=
  (t, some c) :: List.replicate n (t, none)

/-- The test of `WaitsFor`. -/
private def waits (σ : Sys ℕ) (t u : ℕ) : Bool :=
  (σ.thread t).prog.wants.any fun x =>
    (acquire x.1 x.2 σ.shared).isNone && decide (x.1 ∈ (σ.thread u).held)

private theorem waitsFor_of_waits {σ : Sys ℕ} {t u : ℕ} (h : waits σ t u = true) :
    σ.WaitsFor locks t u := by
  obtain ⟨⟨l, w⟩, hwants, hx⟩ := (Option.any_eq_true _ _).mp h
  obtain ⟨hnone, hheld⟩ := Bool.and_eq_true_iff.mp hx
  exact ⟨l, w, hwants, Option.isNone_iff_eq_none.mp hnone, of_decide_eq_true hheld⟩

/-- The test of `EntryFilled`. -/
private def filledCheck (c : Option Call) (l : Lock) (s : Shared) : Bool :=
  match c, l with
  | some (.write _ _ _), .entry fh => s.filled fh
  | some (.read _ _), .entry fh => s.filled fh
  | _, _ => true

private theorem entryFilled_of_check {c : Option Call} {l : Lock} {s : Shared}
    (h : filledCheck c l s = true) : EntryFilled c l s := by
  rcases c with _ | call
  · trivial
  cases call <;> cases l <;> first | exact h | trivial

/-- The test of `Promised EntryFilled`. -/
private def promisedCheck (σ : Sys ℕ) (e : ℕ × Option Call) : Bool :=
  e.2.isSome || (σ.thread e.1).prog.wants.all fun x =>
    filledCheck (σ.thread e.1).call x.1 σ.shared

private theorem promised_of_check (σ : Sys ℕ) (e : ℕ × Option Call)
    (h : promisedCheck σ e = true) : Programs.Sys.Promised EntryFilled σ e := by
  intro hstep l w hwants
  have hall : (σ.thread e.1).prog.wants.all (fun x =>
      filledCheck (σ.thread e.1).call x.1 σ.shared) = true := by
    simpa only [promisedCheck, hstep, Option.isSome_none, Bool.false_or] using h
  rw [hwants] at hall
  exact entryFilled_of_check hall

/-- A thread writes to a file while another one waits to open it. -/
theorem locks_ranked_two : ∃ σ : Sys ℕ, (σ.thread 0).held = [.inode 1, .entry 0] ∧
    σ.WaitsFor locks 1 0 ∧ (σ.thread 0).Ranked rank ∧
      ¬ Relation.TransGen (σ.WaitsFor locks) 0 0 := by
  obtain ⟨σ, hreach, hx⟩ := Runs.exists_reach_of_runList next
    (Programs.Sys.Promised EntryFilled) promisedCheck promised_of_check
    (runs 0 (.open pathF tfsOCreat) 16 ++ runs 0 (.write 0 (fun _ => 65) 5) 4 ++
      runs 1 (.open pathF 0) 5)
    (fun σ => decide ((σ.thread 0).held = [.inode 1, .entry 0]) && waits σ 1 0)
    Sys.start_fresh (by decide +kernel)
  obtain ⟨hheld, hwaits⟩ := Bool.and_eq_true_iff.mp hx
  obtain ⟨hranked, -, hcycle⟩ := locks_ranked hreach 0
  exact ⟨σ, of_decide_eq_true hheld, waitsFor_of_waits hwaits, hranked, hcycle⟩

/-- The first `tfs_open` of the handle 1 is about to write its entry; a `tfs_write(1)` holds
its mutex and waits for the root lock; and a `tfs_unlink` holds that one and waits for the open
file table. -/
theorem calls_deadlock : ¬ ∀ (σ : Sys ℕ), Runs.Reachable next Start σ → ∀ t,
    (σ.thread t).Ranked rank ∧ ((σ.thread t).prog.Returned → (σ.thread t).held = []) ∧
      ¬ Relation.TransGen (σ.WaitsFor locks) t t := by
  intro hall
  obtain ⟨σ, hreach, hx⟩ := Runs.exists_of_runList next
    (runs 0 (.open pathF tfsOCreat) 16 ++ runs 1 (.open pathF 0) 12 ++
      runs 0 (.write 1 (fun _ => 65) 1) 3 ++ runs 2 (.unlink pathF) 6)
    (fun σ => waits σ 0 2 && waits σ 2 1 && waits σ 1 0) Sys.start_fresh (by decide +kernel)
  obtain ⟨hx, h10⟩ := Bool.and_eq_true_iff.mp hx
  obtain ⟨h02, h21⟩ := Bool.and_eq_true_iff.mp hx
  have hcycle : Relation.TransGen (σ.WaitsFor locks) 0 0 :=
    .tail (.tail (.single (waitsFor_of_waits h02)) (waitsFor_of_waits h21)) (waitsFor_of_waits h10)
  exact (hall σ hreach 0).2.2 hcycle

end TfsBroker.Fs.Locking
