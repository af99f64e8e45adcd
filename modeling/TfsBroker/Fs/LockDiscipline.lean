import TfsBroker.Fs.Locking
import TfsBroker.Fs.Threads
import TfsBroker.Lib.ProgramLogic

/-!
# How the threads of `fs/` share its state

The root directory's lock guards the directory, the allocation of inodes, and the type and
link counter of every inode: only the thread that holds it changes them, and while it is
free the directory agrees with the inode table. Everything else may change at any time, but
a number that is safe to use stays safe, and the entries of the open file table that were
ever written hold safe numbers.

`Tracks t s` follows an operation under the root lock: `t` is the state it would have
produced alone, and `s`, where the others worked on as well, agrees with it on all the lock
guards. The rules of the functions of `state.c` say how they move `t`.

## Main results

* `lawful` — the discipline is sound
* `Tracks.dirInv` — the directory agrees where the operation would have left it so
* `wp_inodeCreate`, `wp_inodeDelete`, `wp_addDirEntry`, … — the rules
-/

namespace TfsBroker.Fs.Locking

open State Programs

variable {s s' : Shared} {t u v : State} {k b fh : ℕ} {l : Lock} {w : Bool}

/-! ### The discipline -/

/-- What holds all the time. -/
structure Base (s : Shared) : Prop extends RootOk s.fs where
  root_taken : s.fs.freeinodeTs 0 = .TAKEN
  block_taken : s.fs.freeBlocks 0 = .TAKEN
  handles : ∀ fh, s.filled fh = true → HandleSafe s.fs fh

/-- What every step keeps. -/
structure Kept (s s' : Shared) : Prop extends Keeps s.fs s'.fs where
  root : s'.fs.inodeTable 0 = s.fs.inodeTable 0
  filled : ∀ fh, s.filled fh = true → s'.filled fh = true

/-- The parts that the root lock guards are the same. -/
structure Still (u v : State) : Prop where
  params : v.fsParams = u.fsParams
  free : v.freeinodeTs = u.freeinodeTs
  data : u.fsData.AgreeOn v.fsData 0 u.blockSize
  node : ∀ k, (v.inodeTable k).iNodeType = (u.inodeTable k).iNodeType ∧
    (v.inodeTable k).iLinksCount = (u.inodeTable k).iLinksCount

/-- The mutex that a `tfs_write` or `tfs_read` takes belongs to an entry that
`add_to_open_file_table` has written. -/
def EntryFilled : Option Call → Lock → Shared → Prop
  | some (.write _ _ _), .entry fh, s => s.filled fh = true
  | some (.read _ _), .entry fh, s => s.filled fh = true
  | _, _, _ => True

/-- How the threads share the file system. -/
def discipline : Discipline Shared Lock Call where
  acquire := acquire
  free := free
  rank := rank
  main := .inode rootDirInum
  locked s := (s.fs.inodeRwl 0).writer = true
  inv := Base
  res s := DirInv s.fs
  keeps := Kept
  still s s' := Still s.fs s'.fs
  promise := EntryFilled

theorem still_of_eq (hparams : v.fsParams = u.fsParams) (hfree : v.freeinodeTs = u.freeinodeTs)
    (hdata : v.fsData = u.fsData) (hinodes : v.inodeTable = u.inodeTable) : Still u v where
  params := hparams
  free := hfree
  data x _ _ := by rw [hdata]
  node k := by rw [hinodes]; exact ⟨rfl, rfl⟩

theorem Still.refl (u : State) : Still u u := still_of_eq rfl rfl rfl rfl

theorem Still.trans (h : Still u v) (h' : Still v t) : Still u t where
  params := h'.params.trans h.params
  free := h'.free.trans h.free
  data x hx hx' := (h.data x hx hx').trans
    (h'.data x hx (by rw [blockSize, h.params]; exact hx'))
  node k := ⟨(h'.node k).1.trans (h.node k).1, (h'.node k).2.trans (h.node k).2⟩

theorem Kept.refl (s : Shared) : Kept s s := ⟨.refl s.fs, rfl, fun _ h => h⟩

theorem Kept.trans {s'' : Shared} (h : Kept s s') (h' : Kept s' s'') : Kept s s'' :=
  ⟨h.toKeeps.trans h'.toKeeps, h'.root.trans h.root, fun fh hfh => h'.filled fh (h.filled fh hfh)⟩

/-- The root inode is never changed. -/
theorem rootOk_congr (hparams : v.fsParams = u.fsParams) (hroot : v.inodeTable 0 = u.inodeTable 0)
    (h : RootOk u) : RootOk v :=
  ⟨inodeTableSize_congr hparams ▸ h.root_valid, dataBlocks_congr hparams ▸ h.block_valid,
    hroot ▸ h.root_type, hroot ▸ h.root_block⟩

/-- The directory still agrees with the inode table after steps of others. -/
theorem dirInv_of_still (h : DirInv u) (hkeeps : Keeps u v)
    (hroot : v.inodeTable 0 = u.inodeTable 0) (hblock : v.freeBlocks 0 = .TAKEN)
    (hstill : Still u v) : DirInv v :=
  h.frame hkeeps.params hstill.free hblock hstill.data hroot fun k hpos hlt htaken =>
    ⟨(hstill.node k).1, (hstill.node k).2, (hkeeps.safe k (h.isSafe hpos hlt htaken)).block_ne⟩

/-- `s'` differs from `s` at most in what its locks are. -/
structure LocksOnly (s s' : Shared) : Prop where
  params : s'.fs.fsParams = s.fs.fsParams
  inodes : s'.fs.inodeTable = s.fs.inodeTable
  free : s'.fs.freeinodeTs = s.fs.freeinodeTs
  data : s'.fs.fsData = s.fs.fsData
  blocks : s'.fs.freeBlocks = s.fs.freeBlocks
  inums : ∀ fh, (s'.fs.openFileTable fh).ofInumber = (s.fs.openFileTable fh).ofInumber
  filled : s'.filled = s.filled

namespace LocksOnly

theorem kept (h : LocksOnly s s') : Kept s s' where
  params := h.params
  safe k hk := ⟨hk.pos, inodeTableSize_congr h.params ▸ hk.lt, h.inodes ▸ hk.block_ne⟩
  root := by rw [h.inodes]
  filled fh hfh := h.filled ▸ hfh

theorem still (h : LocksOnly s s') : Still s.fs s'.fs :=
  still_of_eq h.params h.free h.data h.inodes

theorem base (h : LocksOnly s s') (hb : Base s) : Base s' where
  toRootOk := rootOk_congr h.params (by rw [h.inodes]) hb.toRootOk
  root_taken := h.free ▸ hb.root_taken
  block_taken := h.blocks ▸ hb.block_taken
  handles fh hfh := handleSafe_of_keeps h.kept.toKeeps (h.inums fh)
    (hb.handles fh (h.filled ▸ hfh))

end LocksOnly

/-- A change of an entry that leaves its number alone. -/
theorem ofInumber_setEntry {e : OpenFileEntry} (he : e.ofInumber = (u.openFileTable fh).ofInumber)
    (fh' : ℕ) :
    ((u.setEntry fh e).openFileTable fh').ofInumber = (u.openFileTable fh').ofInumber := by
  by_cases hfh : fh' = fh
  · subst hfh
    simp [setEntry, he]
  · simp [setEntry, Function.update_of_ne hfh]

theorem acquire_locksOnly (h : acquire l w s = some s') : LocksOnly s s' := by
  cases l with
  | entry fh =>
    simp only [acquire] at h
    split at h
    · cases h
    · obtain rfl := Option.some_inj.mp h
      exact ⟨rfl, rfl, rfl, rfl, rfl, ofInumber_setEntry rfl, rfl⟩
  | openFileTable | inode k | inodeTable | freeBlocks =>
    obtain ⟨_, -, rfl⟩ := Option.map_eq_some_iff.mp h
    exact ⟨rfl, rfl, rfl, rfl, rfl, fun _ => rfl, rfl⟩

theorem free_locksOnly (l : Lock) (s : Shared) : LocksOnly s (free l s) := by
  cases l with
  | entry fh => exact ⟨rfl, rfl, rfl, rfl, rfl, ofInumber_setEntry rfl, rfl⟩
  | openFileTable | inode k | inodeTable | freeBlocks =>
    exact ⟨rfl, rfl, rfl, rfl, rfl, fun _ => rfl, rfl⟩

/-- Only the root lock itself changes when it is taken or released. -/
theorem acquire_inodeRwl (hne : l ≠ .inode rootDirInum) (h : acquire l w s = some s') :
    s'.fs.inodeRwl 0 = s.fs.inodeRwl 0 := by
  cases l with
  | inode k =>
    obtain ⟨_, -, rfl⟩ := Option.map_eq_some_iff.mp h
    exact Function.update_of_ne (fun heq => hne (by rw [← heq]; rfl)) _ _
  | entry fh =>
    simp only [acquire] at h
    split at h
    · cases h
    · obtain rfl := Option.some_inj.mp h
      rfl
  | openFileTable | inodeTable | freeBlocks =>
    obtain ⟨_, -, rfl⟩ := Option.map_eq_some_iff.mp h
    rfl

theorem free_inodeRwl (hne : l ≠ .inode rootDirInum) :
    (free l s).fs.inodeRwl 0 = s.fs.inodeRwl 0 := by
  cases l with
  | inode k => exact Function.update_of_ne (fun heq => hne (by rw [← heq]; rfl)) _ _
  | openFileTable | entry fh | inodeTable | freeBlocks => rfl

theorem lawful : discipline.Lawful where
  keeps_refl := Kept.refl
  keeps_trans _ _ _ := Kept.trans
  still_refl s := Still.refl s.fs
  still_trans _ _ _ := Still.trans
  acquire l w s s' hb h :=
    have hsame := acquire_locksOnly h
    ⟨hsame.base hb, hsame.kept, hsame.still⟩
  acquire_main s s' h := by
    obtain ⟨r, hr, rfl⟩ := Option.map_eq_some_iff.mp h
    obtain ⟨hfree, heq⟩ := Option.ite_none_right_eq_some.mp hr
    obtain rfl := Option.some_inj.mp heq
    refine ⟨?_, ?_⟩
    · change ¬ (s.fs.inodeRwl 0).writer = true
      rw [Bool.not_eq_true]
      exact hfree.1
    · exact congrArg Rwlock.writer (Function.update_self rootDirInum _ s.fs.inodeRwl)
  acquire_other l w s s' hne h hlocked := by
    change (s'.fs.inodeRwl 0).writer = true
    rw [acquire_inodeRwl hne h]
    exact hlocked
  free l s hb :=
    have hsame := free_locksOnly l s
    ⟨hsame.base hb, hsame.kept, hsame.still⟩
  free_other l s hne hlocked := by
    change ((free l s).fs.inodeRwl 0).writer = true
    rw [free_inodeRwl hne]
    exact hlocked
  res s s' hres hb hkept hstill :=
    dirInv_of_still hres hkept.toKeeps hkept.root hb.block_taken hstill

/-! ### Accesses -/

section Rules

variable {α : Type} {c : Option Call} {h : List Lock} {mine : Prop} {Q : α → List Lock → Shared → Prop}

/-- What an access may do to the file system. -/
theorem allowed (hb : Base s) (hparams : v.fsParams = s.fs.fsParams)
    (hsafe : ∀ k, Safe s.fs k → (v.inodeTable k).iDataBlock ≠ 0)
    (hroot : v.inodeTable 0 = s.fs.inodeTable 0) (htaken : v.freeinodeTs 0 = .TAKEN)
    (hblock : v.freeBlocks 0 = .TAKEN)
    (hinum : ∀ fh, (v.openFileTable fh).ofInumber = (s.fs.openFileTable fh).ofInumber)
    (hrwl : v.inodeRwl 0 = s.fs.inodeRwl 0) (hstill : ¬ mine → Still s.fs v) :
    discipline.Allowed mine s { s with fs := v } := by
  have hkept : Kept s { s with fs := v } :=
    ⟨⟨hparams, fun k hk => ⟨hk.pos, inodeTableSize_congr hparams ▸ hk.lt, hsafe k hk⟩⟩, hroot,
      fun _ hfh => hfh⟩
  refine ⟨⟨rootOk_congr hparams hroot hb.toRootOk, htaken, hblock, fun fh hfh => ?_⟩, hkept,
    hstill, ?_⟩
  · exact handleSafe_of_keeps hkept.toKeeps (hinum fh) (hb.handles fh hfh)
  · intro hlocked
    change (v.inodeRwl 0).writer = true
    rw [hrwl]
    exact hlocked

theorem allowed_refl (hb : Base s) : discipline.Allowed mine s s :=
  ⟨hb, Kept.refl s, fun _ => Still.refl s.fs, id⟩

theorem wp_get {f : State → α} (hq : ∀ s', discipline.Env (.inode 0 ∈ h) s s' → Q (f s'.fs) h s') :
    Wp discipline c h s (get f) Q := Wp.read lawful hq

theorem wp_test {p : State → Prop} [DecidablePred p] {Q : Bool → List Lock → Shared → Prop}
    (htrue : ∀ s', discipline.Env (.inode 0 ∈ h) s s' → p s'.fs → Q true h s')
    (hfalse : ∀ s', discipline.Env (.inode 0 ∈ h) s s' → ¬ p s'.fs → Q false h s') :
    Wp discipline c h s (test p) Q := by
  refine wp_get fun s' henv => ?_
  by_cases hp : p s'.fs
  · rw [decide_eq_true hp]
    exact htrue s' henv hp
  · rw [decide_eq_false hp]
    exact hfalse s' henv hp

theorem wp_set {f : State → State} {Q : PUnit → List Lock → Shared → Prop}
    (ha : ∀ s', discipline.Env (.inode 0 ∈ h) s s' →
      discipline.Allowed (.inode 0 ∈ h) s' { s' with fs := f s'.fs })
    (hq : ∀ s', discipline.Env (.inode 0 ∈ h) s s' → Kept s { s' with fs := f s'.fs } →
      Q ⟨⟩ h { s' with fs := f s'.fs }) :
    Wp discipline c h s (set f) Q :=
  Wp.modify fun s' henv =>
    ⟨ha s' henv, hq s' henv (henv.keeps.trans (ha s' henv).keeps)⟩

theorem wp_attempt {f : State → Option (α × State)} {Q : Option α → List Lock → Shared → Prop}
    (hnone : ∀ s', discipline.Env (.inode 0 ∈ h) s s' → f s'.fs = none → Q none h s')
    (hsome : ∀ s' a v, discipline.Env (.inode 0 ∈ h) s s' → f s'.fs = some (a, v) →
      discipline.Allowed (.inode 0 ∈ h) s' { s' with fs := v } ∧
        Q (some a) h { s' with fs := v }) :
    Wp discipline c h s (attempt f) Q := by
  refine Wp.update fun s' henv => ?_
  cases hf : f s'.fs with
  | none =>
    exact ⟨allowed_refl henv.inv, hnone s' henv hf⟩
  | some r => exact hsome s' r.1 r.2 henv hf

/-- Take a lock other than the root lock. -/
theorem wp_lock {Q : PUnit → List Lock → Shared → Prop} (hne : l ≠ .inode 0)
    (hrank : ∀ x ∈ h, rank x < rank l)
    (hq : ∀ s', discipline.Env (.inode 0 ∈ h) s s' → Q ⟨⟩ (l :: h) s') :
    Wp discipline c h s (.lock l w (.ret ⟨⟩)) Q :=
  Wp.lock lawful hne hrank fun s' henv _ => hq s' henv

/-- Release the lock that was taken last. -/
theorem wp_release {Q : PUnit → List Lock → Shared → Prop} (hne : l ≠ .inode 0)
    (hq : ∀ s', discipline.Env (.inode 0 ∈ l :: h) s s' → Q ⟨⟩ h s') :
    Wp discipline c (l :: h) s (.release l) Q :=
  Wp.unlock lawful hne List.mem_cons_self fun s' henv => by
    rw [List.erase_cons_head]
    exact hq s' henv

/-- What holders of fewer locks see. -/
theorem env_tail (henv : discipline.Env (.inode 0 ∈ l :: h) s s') :
    discipline.Env (.inode 0 ∈ h) s s' := henv.mono (List.mem_cons_of_mem l)

/-- Nobody notices an access that leaves alone what the root lock guards. -/
theorem env_of_allowed (ha : discipline.Allowed False s s') : discipline.Env mine s s' :=
  ⟨ha.inv, ha.keeps, fun _ => ha.still id⟩

theorem allowed_mono (ha : discipline.Allowed False s s') : discipline.Allowed mine s s' :=
  ⟨ha.inv, ha.keeps, fun _ => ha.still id, ha.locked⟩

/-- The same for a change made by `set`. -/
theorem wp_set_still {f : State → State} {Q : PUnit → List Lock → Shared → Prop}
    (hf : ∀ s', discipline.Env (.inode 0 ∈ h) s s' →
      discipline.Allowed False s' { s' with fs := f s'.fs })
    (hq : ∀ s', discipline.Env (.inode 0 ∈ h) s s' → Q ⟨⟩ h s') :
    Wp discipline c h s (set f) Q :=
  wp_set (fun s' henv => allowed_mono (hf s' henv))
    fun s' henv _ => hq _ (henv.trans lawful (env_of_allowed (hf s' henv)))

/-! ### Blocks and the open file table -/

/-- Marking a block other than the directory's. -/
theorem allowed_setFreeBlock (hb : Base s) (hne : b ≠ 0) (a : AllocationState) :
    discipline.Allowed False s { s with fs := s.fs.setFreeBlock b a } :=
  allowed hb rfl (fun _ hk => hk.block_ne) rfl hb.root_taken
    ((Function.update_of_ne hne.symm _ _).trans hb.block_taken) (fun _ => rfl) rfl
    fun _ => still_of_eq rfl rfl rfl rfl

theorem wp_dataBlockAlloc {Q : Option ℕ → List Lock → Shared → Prop}
    (hrank : ∀ x ∈ h, rank x < rank .freeBlocks)
    (hq : ∀ s' r, discipline.Env (.inode 0 ∈ h) s s' → (∀ b, r = some b → b ≠ 0) → Q r h s') :
    Wp discipline c h s dataBlockAlloc Q := by
  refine Wp.bind (wp_lock (by decide) hrank fun s₁ h₁ => ?_)
  refine Wp.bind (wp_attempt (fun s₂ h₂ hnone => ?_) fun s₂ b v h₂ hsome => ?_)
  · refine Wp.bind (wp_release (by decide) fun s₃ h₃ => Wp.pure (hq s₃ none ?_ (by rintro _ ⟨⟩)))
    exact (h₁.trans lawful (env_tail h₂)).trans lawful (env_tail h₃)
  · obtain ⟨b', hfirst, heq⟩ := Option.map_eq_some_iff.mp hsome
    obtain ⟨rfl, rfl⟩ := Prod.mk.inj heq
    have hne := firstFree_ne hfirst h₂.inv.block_taken
    have hset := allowed_setFreeBlock h₂.inv hne .TAKEN
    refine ⟨allowed_mono hset, Wp.bind (wp_release (by decide) fun s₃ h₃ => Wp.pure (hq s₃ _ ?_ ?_))⟩
    · exact ((h₁.trans lawful (env_tail h₂)).trans lawful (env_of_allowed hset)).trans lawful
        (env_tail h₃)
    · rintro _ ⟨⟩
      exact hne

theorem wp_dataBlockFree {n : ℤ} {Q : PUnit → List Lock → Shared → Prop} (hne : n ≠ 0)
    (hrank : ∀ x ∈ h, rank x < rank .freeBlocks)
    (hq : ∀ s', discipline.Env (.inode 0 ∈ h) s s' → Q ⟨⟩ h s') :
    Wp discipline c h s (dataBlockFree n) Q := by
  refine Wp.bind (wp_get fun s₁ h₁ => ?_)
  cases hvalid : validBlockNumber s₁.fs n with
  | false => exact hq s₁ h₁
  | true =>
    rw [validBlockNumber_eq_true] at hvalid
    refine Wp.bind (wp_lock (by decide) hrank fun s₂ h₂ => ?_)
    refine Wp.bind (wp_set_still (fun s₃ h₃ => ?_) fun s₃ h₃ => ?_)
    · exact allowed_setFreeBlock h₃.inv (by omega) .FREE
    · refine wp_release (by decide) fun s₄ h₄ => hq s₄ ?_
      exact ((h₁.trans lawful h₂).trans lawful (env_tail h₃)).trans lawful (env_tail h₄)

/-- Entering a number that is safe to use in the open file table. -/
theorem allowed_fill {inum : ℕ} (fh offset : ℕ) (hb : Base s) (hsafe : Safe s.fs inum) :
    discipline.Allowed False s { s with
      fs := s.fs.setEntry fh
        { s.fs.openFileTable fh with ofInumber := inum, ofOffset := offset }
      filled := Function.update s.filled fh true } := by
  have hkept : Kept s { s with
      fs := s.fs.setEntry fh
        { s.fs.openFileTable fh with ofInumber := inum, ofOffset := offset }
      filled := Function.update s.filled fh true } := by
    refine ⟨⟨rfl, fun k hk => ⟨hk.pos, hk.lt, hk.block_ne⟩⟩, rfl, fun fh' hfh' => ?_⟩
    by_cases heq : fh' = fh
    · rw [heq]
      exact Function.update_self fh true s.filled
    · exact (Function.update_of_ne heq _ _).trans hfh'
  refine ⟨⟨rootOk_congr (u := s.fs) rfl rfl hb.toRootOk, hb.root_taken, hb.block_taken,
    fun fh' hfh' => ?_⟩, hkept,
    fun _ => still_of_eq rfl rfl rfl rfl, id⟩
  by_cases heq : fh' = fh
  · subst heq
    exact ⟨inum, by simp [setEntry], hkept.safe inum hsafe⟩
  · refine handleSafe_of_keeps hkept.toKeeps ?_ (hb.handles fh' ?_)
    · simp [setEntry, Function.update_of_ne heq]
    · exact (Function.update_of_ne heq _ _).symm.trans hfh'

theorem wp_addToOpenFileTable {inum offset : ℕ} {Q : ℤ → List Lock → Shared → Prop}
    (hsafe : Safe s.fs inum) (hrank : ∀ x ∈ h, rank x < rank .openFileTable)
    (hq : ∀ s' r, discipline.Env (.inode 0 ∈ h) s s' → Q r h s') :
    Wp discipline c h s (addToOpenFileTable inum offset) Q := by
  refine Wp.bind (wp_lock (by decide) hrank fun s₁ h₁ => ?_)
  refine Wp.bind (wp_attempt (fun s₂ h₂ hnone => ?_) fun s₂ i v h₂ hsome => ?_)
  · refine Wp.bind (wp_release (by decide) fun s₃ h₃ => Wp.pure (hq s₃ _ ?_))
    exact (h₁.trans lawful (env_tail h₂)).trans lawful (env_tail h₃)
  · obtain ⟨i', hfirst, heq⟩ := Option.map_eq_some_iff.mp hsome
    obtain ⟨rfl, rfl⟩ := Prod.mk.inj heq
    have hset : discipline.Allowed False s₂ { s₂ with fs := s₂.fs.setFreeEntry i' .TAKEN } :=
      allowed h₂.inv rfl (fun _ hk => hk.block_ne) rfl h₂.inv.root_taken h₂.inv.block_taken
        (fun _ => rfl) rfl fun _ => still_of_eq rfl rfl rfl rfl
    have h₂' : discipline.Env (.inode 0 ∈ h) s _ :=
      (h₁.trans lawful (env_tail h₂)).trans lawful (env_of_allowed hset)
    refine ⟨allowed_mono hset, Wp.bind (wp_lock (by simp) ?_ fun s₃ h₃ => ?_)⟩
    · intro x hx
      rcases List.mem_cons.mp hx with rfl | hx
      · simp [rank]
      · exact (hrank x hx).trans (by simp [rank])
    have h₃' := h₂'.trans lawful (env_tail h₃)
    refine Wp.bind (Wp.modify fun s₄ h₄ => ?_)
    have h₄' := h₃'.trans lawful (env_tail (env_tail h₄))
    have hfill := allowed_fill i' offset h₄.inv (h₄'.keeps.safe inum hsafe)
    refine ⟨allowed_mono hfill, Wp.bind (wp_release (by simp) fun s₅ h₅ => ?_)⟩
    refine Wp.bind (wp_release (by decide) fun s₆ h₆ => Wp.pure (hq s₆ _ ?_))
    have h₅' := (h₄'.trans lawful (env_of_allowed hfill)).trans lawful (env_tail (env_tail h₅))
    exact h₅'.trans lawful (env_tail h₆)

theorem wp_removeFromOpenFileTable {n : ℤ} {Q : PUnit → List Lock → Shared → Prop}
    (hrank : ∀ x ∈ h, rank x < rank .openFileTable)
    (hq : ∀ s', discipline.Env (.inode 0 ∈ h) s s' → Q ⟨⟩ h s') :
    Wp discipline c h s (removeFromOpenFileTable n) Q := by
  refine Wp.bind (wp_get fun s₁ h₁ => ?_)
  cases validFileHandle s₁.fs n with
  | false => exact hq s₁ h₁
  | true =>
    refine Wp.bind (wp_lock (by decide) hrank fun s₂ h₂ => ?_)
    have h₂' := h₁.trans lawful h₂
    refine Wp.bind (wp_test (fun s₃ h₃ _ => ?_) fun s₃ h₃ _ => ?_)
    · have h₃' := h₂'.trans lawful (env_tail h₃)
      exact wp_release (by decide) fun s₄ h₄ => hq s₄ (h₃'.trans lawful (env_tail h₄))
    · have h₃' := h₂'.trans lawful (env_tail h₃)
      refine Wp.bind (wp_set_still (fun s₄ h₄ => ?_) fun s₄ h₄ => ?_)
      · exact allowed h₄.inv rfl (fun _ hk => hk.block_ne) rfl h₄.inv.root_taken
          h₄.inv.block_taken (fun _ => rfl) rfl
          fun _ => still_of_eq rfl rfl rfl rfl
      · have h₄' := h₃'.trans lawful (env_tail h₄)
        exact wp_release (by decide) fun s₅ h₅ => hq s₅ (h₄'.trans lawful (env_tail h₅))

theorem wp_isInOpenFileTable {Q : Bool → List Lock → Shared → Prop}
    (hrank : ∀ x ∈ h, rank x < rank .openFileTable)
    (hq : ∀ s' r, discipline.Env (.inode 0 ∈ h) s s' → Q r h s') :
    Wp discipline c h s (isInOpenFileTable k) Q := by
  refine Wp.bind (wp_get fun s₁ h₁ => ?_)
  cases validInumber s₁.fs k with
  | false => exact hq s₁ false h₁
  | true =>
    refine Wp.bind (wp_lock (by decide) hrank fun s₂ h₂ => ?_)
    refine Wp.bind (wp_get fun s₃ h₃ => ?_)
    refine Wp.bind (wp_release (by decide) fun s₄ h₄ => Wp.pure (hq s₄ _ ?_))
    exact ((h₁.trans lawful h₂).trans lawful (env_tail h₃)).trans lawful (env_tail h₄)

/-- A change of an inode leaves every number safe to use. -/
theorem block_setInode {i : Inode} (hne : Safe u k → i.iDataBlock ≠ 0) (j : ℕ) (hj : Safe u j) :
    ((u.setInode k i).inodeTable j).iDataBlock ≠ 0 := by
  by_cases hjk : j = k
  · subst hjk
    simpa [State.setInode] using hne hj
  · simpa [State.setInode, Function.update_of_ne hjk] using hj.block_ne

theorem block_setSize {size : ℕ} (j : ℕ) (hj : Safe u j) :
    ((u.setInode k { u.inodeTable k with iSize := size }).inodeTable j).iDataBlock ≠ 0 := by
  refine block_setInode (fun hk => ?_) j hj
  exact hk.block_ne

/-- A change of an inode that is not the root's. -/
theorem allowed_setInode {i : Inode} (hb : Base s) (hk : k ≠ 0)
    (hne : Safe s.fs k → i.iDataBlock ≠ 0) (hstill : ¬ mine → Still s.fs (s.fs.setInode k i)) :
    discipline.Allowed mine s { s with fs := s.fs.setInode k i } :=
  allowed hb rfl (block_setInode hne) (Function.update_of_ne hk.symm _ _) hb.root_taken
    hb.block_taken (fun _ => rfl) rfl hstill

/-! ### Under the root lock -/

/-- `s` is where the operation that would have made `t` is, after steps of others. -/
structure Tracks (t s : State) : Prop extends Still t s where
  root : s.inodeTable 0 = t.inodeTable 0
  safe : ∀ k, 0 < k → k < t.inodeTableSize → t.freeinodeTs k = .TAKEN → Safe s k

namespace Tracks

theorem refl (h : DirInv u) : Tracks u u where
  toStill := .refl u
  root := rfl
  safe _ hpos hlt htaken := h.isSafe hpos hlt htaken

/-- The directory agrees where the operation would have left it so. -/
theorem dirInv (h : Tracks t u) (ht : DirInv t) (hblock : u.freeBlocks 0 = .TAKEN) : DirInv u :=
  ht.frame h.params h.free hblock h.data h.root fun k hpos hlt htaken =>
    ⟨(h.node k).1, (h.node k).2, (h.safe k hpos hlt htaken).block_ne⟩

theorem env (h : Tracks t s.fs) (henv : discipline.Env True s s') : Tracks t s'.fs where
  toStill := h.toStill.trans (henv.still trivial)
  root := henv.keeps.root.trans h.root
  safe k hpos hlt htaken := henv.keeps.safe k (h.safe k hpos hlt htaken)

end Tracks

theorem env_main (hmain : .inode 0 ∈ h) (henv : discipline.Env (.inode 0 ∈ h) s s') :
    discipline.Env True s s' := henv.mono fun _ => hmain

theorem Still.setFreeinode (hs : Still u v) (k : ℕ) (a : AllocationState) :
    Still (u.setFreeinode k a) (v.setFreeinode k a) where
  params := hs.params
  free := by simp only [State.setFreeinode, hs.free]
  data := hs.data
  node := hs.node

/-- A change that leaves the type and the counter of an inode alone. -/
theorem still_setInode {i : Inode} (htype : i.iNodeType = (u.inodeTable k).iNodeType)
    (hlinks : i.iLinksCount = (u.inodeTable k).iLinksCount) : Still u (u.setInode k i) where
  params := rfl
  free := rfl
  data _ _ _ := rfl
  node n := by
    by_cases hn : n = k
    · subst hn
      simp [State.setInode, htype, hlinks]
    · simp [State.setInode, Function.update_of_ne hn]

/-- The same change of an inode. -/
theorem Still.setInode {i j : Inode} (hs : Still u v)
    (htype : j.iNodeType = i.iNodeType) (hlinks : j.iLinksCount = i.iLinksCount) :
    Still (u.setInode k i) (v.setInode k j) where
  params := hs.params
  free := hs.free
  data := hs.data
  node n := by
    by_cases hn : n = k
    · subst hn
      simp [State.setInode, htype, hlinks]
    · simpa [State.setInode, Function.update_of_ne hn] using hs.node n

theorem wp_inodeAlloc {Q : Option ℕ → List Lock → Shared → Prop} (hmain : .inode 0 ∈ h)
    (hrank : ∀ x ∈ h, rank x < rank .inodeTable)
    (hnone : ∀ s', discipline.Env True s s' → Q none h s')
    (hsome : ∀ s₁ k s', discipline.Env True s s₁ →
      firstFree s₁.fs.freeinodeTs s₁.fs.inodeTableSize = some k → Kept s₁ s' →
      Still (s₁.fs.setFreeinode k .TAKEN) s'.fs → Q (some k) h s') :
    Wp discipline c h s inodeAlloc Q := by
  refine Wp.bind (wp_lock (by decide) hrank fun s₁ h₁ => ?_)
  refine Wp.bind (wp_attempt (fun s₂ h₂ _ => ?_) fun s₂ k v h₂ hk => ?_)
  · refine Wp.bind (wp_release (by decide) fun s₃ h₃ => Wp.pure (hnone s₃ ?_))
    exact env_main hmain ((h₁.trans lawful (env_tail h₂)).trans lawful (env_tail h₃))
  · obtain ⟨k', hfirst, heq⟩ := Option.map_eq_some_iff.mp hk
    obtain ⟨rfl, rfl⟩ := Prod.mk.inj heq
    have hne := firstFree_ne hfirst h₂.inv.root_taken
    have hset : discipline.Allowed (.inode 0 ∈ .inodeTable :: h) s₂
        { s₂ with fs := s₂.fs.setFreeinode k' .TAKEN } :=
      allowed h₂.inv rfl (fun _ hj => hj.block_ne) rfl
        ((Function.update_of_ne hne.symm _ _).trans h₂.inv.root_taken) h₂.inv.block_taken
        (fun _ => rfl) rfl fun hnot => absurd (List.mem_cons_of_mem _ hmain) hnot
    refine ⟨hset, Wp.bind (wp_release (by decide) fun s₃ h₃ => Wp.pure ?_)⟩
    exact hsome s₂ k' s₃ (env_main hmain (h₁.trans lawful (env_tail h₂))) hfirst
      (hset.keeps.trans h₃.keeps) (h₃.still (List.mem_cons_of_mem _ hmain))

theorem wp_inodeCreate {iType : InodeType} {Q : Option ℕ → List Lock → Shared → Prop}
    (ht : Tracks t s.fs) (hmain : .inode 0 ∈ h) (hrank : ∀ x ∈ h, rank x < rank .inodeTable)
    (hnone : ∀ s', Tracks t s'.fs → Q none h s')
    (hsome : ∀ s' k, firstFree t.freeinodeTs t.inodeTableSize = some k → k ≠ 0 →
      Tracks (newInode t k iType) s'.fs → Q (some k) h s') :
    Wp discipline c h s (inodeCreate iType) Q := by
  refine Wp.bind (wp_inodeAlloc hmain hrank (fun s₁ h₁ => hnone s₁ (ht.env h₁))
    fun s₁ k s₂ h₁ hfirst hkept₂ hstill₂ => ?_)
  have ht₁ := ht.env h₁
  have hne : k ≠ 0 := firstFree_ne hfirst h₁.inv.root_taken
  rw [ht₁.free, inodeTableSize_congr ht₁.params] at hfirst
  have hinit : ∀ s₃ : Shared, Still s₂.fs s₃.fs → Still (newInode t k iType)
      ((s₃.fs.setInode k { s₃.fs.inodeTable k with iNodeType := iType, iLinksCount := 1 }).setRwl k
        .unlocked) := fun s₃ h₃ => by
    have hs := ((ht₁.toStill.setFreeinode k .TAKEN).trans hstill₂).trans h₃
    have hi := hs.setInode (k := k) (i := .new iType)
      (j := { s₃.fs.inodeTable k with iNodeType := iType, iLinksCount := 1 }) rfl rfl
    exact ⟨hi.params, hi.free, hi.data, hi.node⟩
  -- the fields that the switch does not set
  refine Wp.bind (wp_set (fun s₃ h₃ => ?_) fun s₃ h₃ hkept₃ => ?_)
  · exact allowed h₃.inv rfl (block_setInode fun hk => hk.block_ne)
      (Function.update_of_ne hne.symm _ _) h₃.inv.root_taken h₃.inv.block_taken (fun _ => rfl)
      (Function.update_of_ne hne.symm _ _) fun hnot => absurd hmain hnot
  refine Wp.bind (wp_set (fun s₄ h₄ => ?_) fun s₄ h₄ hkept₄ => Wp.pure (hsome _ k hfirst hne ?_))
  · exact allowed_setInode h₄.inv hne (fun _ => by simp) fun hnot => absurd hmain hnot
  have hkept := (hkept₂.trans hkept₃).trans hkept₄
  refine ⟨((hinit s₃ (h₃.still hmain)).trans (h₄.still hmain)).trans (still_setInode rfl rfl),
    ?_, fun j hpos hlt htaken => ?_⟩
  · rw [hkept.root, ht₁.root]
    exact (Function.update_of_ne hne.symm _ _).symm
  · by_cases hjk : j = k
    · subst hjk
      exact ⟨hpos, inodeTableSize_congr (hkept.params.trans ht₁.params) ▸ hlt,
        by simp [State.setInode]⟩
    · exact hkept.safe j (ht₁.safe j hpos hlt ((Function.update_of_ne hjk _ _).symm.trans htaken))

theorem Tracks.setFreeinode (ht : Tracks t u) (k : ℕ) :
    Tracks (t.setFreeinode k .FREE) (u.setFreeinode k .FREE) where
  toStill := ht.toStill.setFreeinode k .FREE
  root := ht.root
  safe j hpos hlt htaken := by
    have hjk : j ≠ k := by
      rintro rfl
      simp [State.setFreeinode] at htaken
    have hsafe := ht.safe j hpos hlt ((Function.update_of_ne hjk _ _).symm.trans htaken)
    exact ⟨hpos, hsafe.lt, hsafe.block_ne⟩

/-- The same change of the directory. -/
theorem Tracks.setData (ht : Tracks t u) {m m' : Memory} (hm : m.AgreeOn m' 0 t.blockSize) :
    Tracks { t with fsData := m } { u with fsData := m' } where
  toStill := ⟨ht.params, ht.free, hm, ht.node⟩
  root := ht.root
  safe j hpos hlt htaken :=
    have hsafe := ht.safe j hpos hlt htaken
    ⟨hpos, hsafe.lt, hsafe.block_ne⟩

theorem wp_inodeDeleteEnd {Q : Bool → List Lock → Shared → Prop} (ht : Tracks t s.fs)
    (hmain : .inode 0 ∈ h) (hpos : 0 < k)
    (hq : ∀ s', Tracks (t.setFreeinode k .FREE) s'.fs → Q true h s') :
    Wp discipline c (.inodeTable :: h) s (inodeDeleteEnd k) Q := by
  have hmain' : Lock.inode 0 ∈ .inodeTable :: h := List.mem_cons_of_mem _ hmain
  refine Wp.bind (wp_set (fun s₁ h₁ => ?_) fun s₁ h₁ _ => ?_)
  · exact allowed h₁.inv rfl (fun _ hj => hj.block_ne) rfl
      ((Function.update_of_ne hpos.ne _ _).trans h₁.inv.root_taken) h₁.inv.block_taken
      (fun _ => rfl) rfl fun hnot => absurd hmain' hnot
  · refine Wp.bind (wp_release (by decide) fun s₂ h₂ => Wp.pure (hq s₂ ?_))
    exact ((ht.env (env_main hmain' h₁)).setFreeinode k).env (env_main hmain' h₂)

theorem wp_inodeDelete {Q : Bool → List Lock → Shared → Prop} (ht : Tracks t s.fs)
    (hmain : .inode 0 ∈ h) (hrank : ∀ x ∈ h, rank x < rank .inodeTable) (hpos : 0 < k)
    (hlt : k < t.inodeTableSize) (htaken : t.freeinodeTs k = .TAKEN)
    (hq : ∀ s', Tracks (t.setFreeinode k .FREE) s'.fs → Q true h s') :
    Wp discipline c h s (inodeDelete k) Q := by
  have hmain' : Lock.inode 0 ∈ .inodeTable :: h := List.mem_cons_of_mem _ hmain
  refine Wp.bind (wp_get fun s₁ h₁ => ?_)
  have ht₁ := ht.env (env_main hmain h₁)
  have hget : inodeGet s₁.fs k = some k :=
    inodeGet_eq_some.mpr ⟨rfl, inodeTableSize_congr ht₁.params ▸ hlt⟩
  rw [hget]
  refine Wp.bind (wp_lock (by decide) hrank fun s₂ h₂ => ?_)
  have ht₂ := ht₁.env (env_main hmain h₂)
  refine Wp.bind (wp_test (fun s₃ h₃ hfree => ?_) fun s₃ h₃ _ => ?_)
  · -- nobody else frees an inode
    rw [(ht₂.env (env_main hmain' h₃)).free, htaken] at hfree
    cases hfree
  have ht₃ := ht₂.env (env_main hmain' h₃)
  refine Wp.bind (wp_get fun s₄ h₄ => ?_)
  have ht₄ := ht₃.env (env_main hmain' h₄)
  split
  · refine Wp.bind (wp_get fun s₅ h₅ => ?_)
    have ht₅ := ht₄.env (env_main hmain' h₅)
    refine Wp.bind (wp_dataBlockFree (ht₅.safe k hpos hlt htaken).block_ne ?_ fun s₆ h₆ => ?_)
    · intro x hx
      rcases List.mem_cons.mp hx with rfl | hx
      · decide
      · exact (hrank x hx).trans (by decide)
    · exact wp_inodeDeleteEnd (ht₅.env (env_main hmain' h₆)) hmain hpos hq
  · exact wp_inodeDeleteEnd ht₄ hmain hpos hq

/-- A change of the data area by the thread that holds the root lock. -/
theorem allowed_setData (hb : Base s) (hmine : mine) (m : Memory) :
    discipline.Allowed mine s { s with fs := { s.fs with fsData := m } } :=
  allowed hb rfl (fun _ hj => hj.block_ne) rfl hb.root_taken hb.block_taken (fun _ => rfl) rfl
    fun hnot => absurd hmine hnot

/-- The directory of the operation is the one in the state. -/
theorem Tracks.freeEntry_eq (ht : Tracks t u) :
    Directory.freeEntry u.fsData 0 u.maxDirEntries =
      Directory.freeEntry t.fsData 0 t.maxDirEntries := by
  rw [maxDirEntries_congr ht.params]
  have hdir : t.fsData.AgreeOn u.fsData 0 (dirEntrySize * t.maxDirEntries) :=
    ht.data.mono le_rfl (by have := entries_le_blockSize t; omega)
  exact (Directory.freeEntry_congr hdir).symm

theorem wp_addDirEntry {sub : CString} {Q : Bool → List Lock → Shared → Prop} (ht : Tracks t s.fs)
    (hmain : .inode 0 ∈ h) (hfalse : ∀ s', Tracks t s'.fs → Q false h s')
    (htrue : ∀ s' i, 0 < sub.strlen → sub.strlen < maxFileName →
      Directory.freeEntry t.fsData 0 t.maxDirEntries = some i →
      Tracks { t with fsData := Directory.fillEntry t.fsData 0 i sub k } s'.fs → Q true h s') :
    Wp discipline c h s (addDirEntry 0 sub k) Q := by
  refine Wp.bind (wp_attempt (fun s₁ h₁ _ => trivial) fun s₁ done v h₁ hsome => ?_)
  obtain ⟨r, hr, heq⟩ := Option.map_eq_some_iff.mp hsome
  have ht₁ := ht.env (env_main hmain h₁)
  rcases h₁.inv.addDirEntry_cases (Outcome.toOption_eq_some.mp hr) with
    ⟨rfl, -⟩ | ⟨i, hpos, hlen, hroom, rfl⟩
  · obtain ⟨rfl, rfl⟩ := Prod.mk.inj heq
    exact ⟨allowed_refl h₁.inv, Wp.pure (hfalse s₁ ht₁)⟩
  · obtain ⟨rfl, rfl⟩ := Prod.mk.inj heq
    refine ⟨allowed_setData h₁.inv hmain _, Wp.pure (htrue _ i hpos hlen ?_ ?_)⟩
    · exact ht₁.freeEntry_eq.symm.trans hroom
    · exact ht₁.setData (Directory.fillEntry_congr ht₁.data)

end Rules

end TfsBroker.Fs.Locking
