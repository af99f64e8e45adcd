import TfsBroker.Fs.References

/-!
# `tfs_open` of an existing file beside `tfs_unlink`

`tfs_open` drops the root lock between the lookup and its first use of the inode
number, and `tfs_unlink` looks only at the open file table. So an unlink that
removes the last name of an inode which an opener has looked up, or which a read
or write still works on through a handle closed meanwhile, frees it under them.
Every other step keeps all that `tfs_open` relies on.

## Main results

* `Sys.Refs.next` — every step that spares the users of inodes keeps `Refs`
* `open_safe` — openers, handles, truncation and inode locks in every run whose
  unlinks delete no inode that somebody looked up or works on
* `opener_loses_inode` — a run in which a handle to a freed inode is returned
-/

namespace TfsBroker.Fs

open State Runs Ownership Rwlock

namespace Sys

variable {T : Type*} {σ τ : Sys T} {t : T} {s' : State} {pc' : Pc} {k : ℕ}

/-- What `tfs_open` relies on beside `tfs_unlink`. -/
structure OpenSafe (σ : Sys T) : Prop where
  /-- The inode of an opener is in use and is the file that was looked up. -/
  opener : ∀ t k, (σ.pc t).inum = some k →
    σ.fs.freeinodeTs k = .TAKEN ∧ σ.born k = σ.looked t
  /-- An open handle refers to an inode in use, the one it was opened on. -/
  handle : ∀ fh, σ.fs.freeOpenFileEntries fh = .TAKEN → ∃ k : ℕ,
    (σ.fs.openFileTable fh).ofInumber = k ∧ σ.fs.freeinodeTs k = .TAKEN ∧ σ.born k = σ.opened fh
  /-- The block a truncation frees is no other inode's. -/
  truncation : ∀ t k mode, σ.pc t = .openLocked k mode →
    (σ.fs.inodeTable k).iNodeType ≠ .T_LINK → 0 < (σ.fs.inodeTable k).iSize →
    ∀ j, j ≠ k → Owner σ.fs j → (σ.fs.inodeTable j).iDataBlock ≠ (σ.fs.inodeTable k).iDataBlock
  /-- The inode `inode_create` would take next is locked by nobody. -/
  lock : ∀ k, firstFree σ.fs.freeinodeTs σ.fs.inodeTableSize = some k →
    ∀ t, (σ.pc t).writeHolds ≠ some k ∧ (σ.pc t).readHolds ≠ some k

/-! ### What a thread may go on to refer to -/

theorem pcRefs_idle : PcRefs σ t s' .idle := by
  constructor <;> simp [Pc.inum, Pc.handle, Pc.working]

theorem pcRefs_openName {name : CString} {mode : ℕ} : PcRefs σ t s' (.openName name mode) := by
  constructor <;> simp [Pc.inum, Pc.handle, Pc.working]

/-- A thread in `tfs_open` that holds on to the inode `k`. -/
theorem pcRefs_of_inum (hinum : pc'.inum = some k) (htaken : s'.freeinodeTs k = .TAKEN)
    (hold : (σ.pc t).inum = some k ∨ (σ.pc t).inum = none)
    (hreg : ∀ offset, pc' = .openRegister k offset → (s'.inodeTable k).iNodeType = .T_FILE) :
    PcRefs σ t s' pc' := by
  have hsame : ∀ j, pc'.inum = some j → k = j := fun j hj => Option.some_inj.mp (hinum.symm.trans hj)
  have hhandle : pc'.handle = none ∧ pc'.working = none := by
    cases pc' <;> first | exact ⟨rfl, rfl⟩ | cases hinum
  refine ⟨fun j hj => ?_, fun j offset hj => ?_, fun fh hfh => ?_, fun j hj => ?_⟩
  · obtain rfl := hsame j hj
    exact ⟨htaken, hold⟩
  · obtain rfl := hsame j (by rw [hj]; rfl)
    exact hreg offset hj
  · rw [hhandle.1] at hfh
    cases hfh
  · rw [hhandle.2] at hj
    cases hj

/-- A thread that reads or writes through the handle it has. -/
theorem pcRefs_of_handle (hinum : pc'.inum = none)
    (hhandle : ∀ fh, pc'.handle = some fh →
      (σ.pc t).handle = some fh ∨ σ.fs.freeOpenFileEntries fh = .TAKEN)
    (hworking : ∀ k, pc'.working = some k → LiveFile s' k) : PcRefs σ t s' pc' := by
  refine ⟨fun k hk => ?_, fun k offset hk => ?_, hhandle, hworking⟩
  · rw [hinum] at hk
    cases hk
  · rw [hk] at hinum
    cases hinum

end Sys

/-- The ways the stretch of `tfs_open` under the root lock can go. -/
theorem DirInv.openAt_cases {s s' : State} {name : Option CString} {mode : ℕ} {pc' : Pc}
    (h : DirInv s) (hstep : openAt s name mode = some (s', pc')) :
    (pc' = .idle ∧ (s' = s ∨ ∃ k, s.freeinodeTs k = .FREE ∧
      s' = Fs.discarded s k (.new .T_FILE))) ∨
    (∃ k, pc' = .openInode k mode ∧ s' = s ∧ s.freeinodeTs k = .TAKEN) ∨
    ∃ k i sub, firstFree s.freeinodeTs s.inodeTableSize = some k ∧ pc' = .openRegister k 0 ∧
      s' = created s k i sub := by
  unfold openAt at hstep
  split at hstep
  · cases hstep
  split at hstep
  · rename_i u hopen
    obtain ⟨rfl, rfl⟩ := Prod.mk.inj (Option.some_inj.mp hstep)
    rcases h.tfsOpenRoot_cases h.root_taken hopen with ⟨-, rfl⟩ | ⟨_, hr, -⟩ |
      ⟨k, hfirst, -, -, ⟨-, rfl⟩ | ⟨_, -, -, -, hr, -⟩⟩
    · exact .inl ⟨rfl, .inl rfl⟩
    · cases hr
    · exact .inl ⟨rfl, .inr ⟨k, firstFree_free hfirst, rfl⟩⟩
    · cases hr
  · rename_i k u hopen
    obtain ⟨rfl, rfl⟩ := Prod.mk.inj (Option.some_inj.mp hstep)
    obtain ⟨-, -, hk⟩ := h.tfsOpenRoot hopen
    rcases h.tfsOpenRoot_cases h.root_taken hopen with ⟨hr, -⟩ | ⟨_, -, rfl, -⟩ |
      ⟨_, -, -, -, ⟨hr, -⟩ | ⟨_, -, -, -, hr, -⟩⟩
    · cases hr
    · exact .inr (.inl ⟨k, rfl, rfl, (hk k (.inl rfl)).2.2⟩)
    · cases hr
    · cases hr
  · rename_i k u hopen
    obtain ⟨rfl, rfl⟩ := Prod.mk.inj (Option.some_inj.mp hstep)
    rcases h.tfsOpenRoot_cases h.root_taken hopen with ⟨hr, -⟩ | ⟨_, hr, -⟩ |
      ⟨j, hfirst, -, -, ⟨hr, -⟩ | ⟨i, -, -, -, hr, rfl⟩⟩
    · cases hr
    · cases hr
    · cases hr
    · obtain rfl := OpenRoot.created.inj hr
      exact .inr (.inr ⟨k, i, _, hfirst, rfl, rfl⟩)
  · cases hstep

/-- A whole operation under the root lock found the lock of the inode it took free. -/
theorem underRoot_cases {s s' : State} {pc' : Pc} {call : Outcome (RootExit × State)}
    (hstep : underRoot s call = some (s', pc')) :
    ∃ r u, call = .ret (r, u) ∧ pc' = .idle ∧
      (∀ k, r.locked = some k → (s.inodeRwl k).wrlock ≠ none) ∧ (r.keepsLocks = false → s' = u) := by
  unfold underRoot at hstep
  split at hstep
  · cases hstep
  split at hstep
  · rename_i r u
    split at hstep
    · cases hstep
    rename_i hfree
    have hlock : ∀ k, r.locked = some k → (s.inodeRwl k).wrlock ≠ none := by
      intro k hk hnone
      rw [hk] at hfree
      exact hfree (by simp [hnone])
    split at hstep
    · rename_i hkeeps
      obtain ⟨rfl, rfl⟩ := Prod.mk.inj (Option.some_inj.mp hstep)
      refine ⟨r, u, rfl, rfl, hlock, fun hno => ?_⟩
      rw [hkeeps] at hno
      cases hno
    · obtain ⟨rfl, rfl⟩ := Prod.mk.inj (Option.some_inj.mp hstep)
      exact ⟨r, _, rfl, rfl, hlock, fun _ => rfl⟩
  · cases hstep

namespace Sys

variable {T : Type*} {σ τ : Sys T} {t : T} {s' : State} {pc' : Pc} {k fh : ℕ}

theorem TableRefs.unlockInode (h : TableRefs σ t s') : TableRefs σ t (s'.unlockInode k) :=
  h.congr _ rfl rfl rfl rfl (fun _ => rfl) fun _ => id

theorem TableRefs.setLock (h : TableRefs σ t s') (b : Bool) : TableRefs σ t (s'.setLock fh b) := by
  refine h.congr _ rfl rfl rfl rfl (fun fh' => ?_) fun _ => id
  by_cases hfh : fh' = fh
  · subst hfh
    simp [State.setLock, setEntry]
  · simp [State.setLock, setEntry, Function.update_of_ne hfh]

variable [Fintype T]

/-- Nobody holds the lock of a free inode. -/
theorem Refs.not_held (h : σ.Refs) (hk : σ.fs.freeinodeTs k = .FREE) (u : T) :
    (σ.pc u).writeHolds ≠ some k ∧ (σ.pc u).readHolds ≠ some k := by
  have hunused : ¬ σ.Used k := by
    intro hused
    rw [h.used_taken hused] at hk
    cases hk
  rw [← not_or]
  intro hholds
  refine hunused (.inl ⟨u, ?_⟩)
  exact (Pc.inum_or_working_of_holds hholds).imp_left .inl

/-- Nobody refers to an inode that `tfs_unlink` deletes, if the unlink spares those
who looked it up or use it through a handle: the holders of its lock are excluded
by that lock, and the open handles by `is_in_open_file_table`. -/
theorem Refs.not_used_of_frees (h : σ.Refs) {target : Option CString}
    (hlt : k < σ.fs.inodeTableSize) (hlock : (σ.fs.inodeRwl k).wrlock ≠ none)
    (hfrees : Frees σ.fs target k) (hspares : ∀ u, ¬ (σ.pc u).Works σ.fs k) : ¬ σ.Used k := by
  rintro (⟨u, hworks | hworking⟩ | ⟨fh, hfh, hk⟩)
  · exact hspares u hworks
  · exact hlock ((h.guards k).wrlock_eq_none (t := u) (Pc.holds_of_working hworking))
  · obtain ⟨j, hj, hlive, -⟩ := h.handle fh hfh
    obtain rfl : j = k := by exact_mod_cast hj.symm.trans hk
    rcases hfrees.2.2 with hlink | hclosed
    · rw [hlive.file] at hlink
      cases hlink
    · exact (isInOpenFileTable_eq_false hlt).mp hclosed fh (h.handle_lt fh hfh) hfh hk

theorem Start.refs (h : Start σ) : σ.Refs := by
  obtain ⟨heap, params, -, -, heq⟩ := initialised_iff.mp h.1
  have hidle : ∀ {α : Type} (f : Pc → Option α) (u : T) (a : α), f .idle = none →
      f (σ.pc u) ≠ some a := by
    intro α f u a hf hu
    rw [h.2 u, hf] at hu
    cases hu
  have hentries : ∀ fh, σ.fs.freeOpenFileEntries fh ≠ .TAKEN := by
    intro fh hfh
    rw [heq] at hfh
    cases hfh
  refine { h.inv with
    opener := fun u k hk => absurd hk (hidle _ u k rfl)
    registering := fun u k offset hu => ?_
    using_handle := fun u fh hfh => absurd hfh (hidle _ u fh rfl)
    working := fun u k hk => absurd hk (hidle _ u k rfl)
    handle_lt := fun fh hfh => absurd hfh (hentries fh)
    handle := fun fh hfh => absurd hfh (hentries fh)
    guards := fun k => ?_, owned := (tfsInit_owned h.1).1, link_size := fun k _ htaken htype => ?_ }
  · rw [h.2 u] at hu
    cases hu
  · have hunlocked : σ.fs.inodeRwl k = .unlocked := by
      rw [heq]
      change Function.update (fun _ => Rwlock.unlocked) 0 .unlocked k = .unlocked
      rw [Function.update_apply, ite_self]
    rw [hunlocked]
    exact .unlocked (fun u => hidle _ u k rfl) fun u => hidle _ u k rfl
  · -- only the root directory is in use
    have hzero : k = 0 := by
      by_contra hk
      rw [heq] at htaken
      change Function.update (fun _ => AllocationState.FREE) 0 .TAKEN k = .TAKEN at htaken
      rw [Function.update_of_ne hk] at htaken
      cases htaken
    rw [hzero, h.inv.dir.root_type] at htype
    cases htype

variable [DecidableEq T]

/-! ### The steps of a thread -/

/-- `inode_create` initialises a lock that nobody holds. -/
theorem Refs.guarded_create (h : σ.Refs) (hk : σ.fs.freeinodeTs k = .FREE)
    (hw : pc'.writeHolds = (σ.pc t).writeHolds) (hr : pc'.readHolds = (σ.pc t).readHolds) :
    Guarded (Function.update σ.fs.inodeRwl k .unlocked) (Function.update σ.pc t pc') :=
  (h.guards.initialised (h.not_held hk)).same hw hr

/-- The stretch of `tfs_open` under the root lock. -/
theorem Refs.stepRefs_openAt (h : σ.Refs) {name : Option CString} {mode : ℕ}
    (hinum : (σ.pc t).inum = none) (hw : (σ.pc t).writeHolds = none)
    (hr : (σ.pc t).readHolds = none) (hstep : openAt σ.fs name mode = some (s', pc')) :
    StepRefs σ t s' pc' := by
  rcases h.dir.openAt_cases hstep with ⟨rfl, rfl | ⟨k, hfree, rfl⟩⟩ | ⟨k, rfl, rfl, htaken⟩ |
    ⟨k, i, sub, hfirst, rfl, rfl⟩
  · exact ⟨h.tableRefs, pcRefs_idle, h.guards.same hw.symm hr.symm⟩
  · exact ⟨h.tableRefs_discarded hfree, pcRefs_idle, h.guarded_create hfree hw.symm hr.symm⟩
  · refine ⟨h.tableRefs, pcRefs_of_inum (k := k) rfl htaken (.inr hinum) fun offset hpc => ?_,
      h.guards.same hw.symm hr.symm⟩
    cases hpc
  · refine ⟨h.tableRefs_created hfirst, pcRefs_of_inum (k := k) rfl ?_ (.inr hinum) fun _ _ => ?_,
      h.guarded_create (firstFree_free hfirst) hw.symm hr.symm⟩
    · simp [created, newInode]
    · simp [created, newInode, Inode.new]

theorem Refs.stepRefs_link (h : σ.Refs) {target linkName : Option CString} (hpc : σ.pc t = .idle)
    (hstep : underRoot σ.fs (tfsLink σ.fs target linkName) = some (s', pc')) :
    StepRefs σ t s' pc' := by
  obtain ⟨r, u, hret, rfl, -, hs'⟩ := underRoot_cases hstep
  obtain rfl := hs' (h.dir.tfsLink hret).2.2
  have hguards : Guarded σ.fs.inodeRwl (Function.update σ.pc t .idle) :=
    h.guards.same (by rw [hpc]) (by rw [hpc])
  rcases h.dir.tfsLink_cases hret with ⟨-, -, rfl⟩ | ⟨k, i, -, -, -, -, -, -, -, -, rfl⟩
  · exact ⟨h.tableRefs, pcRefs_idle, hguards⟩
  · exact ⟨h.tableRefs_linked, pcRefs_idle, hguards⟩

theorem Refs.stepRefs_symLink (h : σ.Refs) {target linkName : Option CString}
    (hpc : σ.pc t = .idle)
    (hstep : underRoot σ.fs (tfsSymLink σ.fs target linkName) = some (s', pc')) :
    StepRefs σ t s' pc' := by
  obtain ⟨r, u, hret, rfl, -, hs'⟩ := underRoot_cases hstep
  rcases h.dir.tfsSymLink_cases h.dir.root_taken hret with ⟨rfl, rfl, -⟩ | ⟨k, hfirst, -, -, -,
    ⟨rfl, -, rfl⟩ | ⟨b, target, hb, -, ⟨rfl, rfl, -⟩ | ⟨i, -, -, -, rfl, rfl⟩⟩⟩ <;>
    obtain rfl := hs' rfl
  · exact ⟨h.tableRefs, pcRefs_idle, h.guards.same (by rw [hpc]) (by rw [hpc])⟩
  · exact ⟨h.tableRefs_discarded (firstFree_free hfirst), pcRefs_idle,
      h.guarded_create (firstFree_free hfirst) (by rw [hpc]) (by rw [hpc])⟩
  · exact ⟨h.tableRefs_linkDiscarded (firstFree_free hfirst) hb, pcRefs_idle,
      h.guarded_create (firstFree_free hfirst) (by rw [hpc]) (by rw [hpc])⟩
  · exact ⟨h.tableRefs_linkInode hfirst hb, pcRefs_idle,
      h.guarded_create (firstFree_free hfirst) (by rw [hpc]) (by rw [hpc])⟩

theorem Refs.stepRefs_unlink (h : σ.Refs) {target : Option CString} (hpc : σ.pc t = .idle)
    (hspares : ∀ k, Frees σ.fs target k → ∀ u, ¬ (σ.pc u).Works σ.fs k)
    (hstep : underRoot σ.fs (tfsUnlink σ.fs target) = some (s', pc')) :
    StepRefs σ t s' pc' := by
  obtain ⟨r, u, hret, rfl, hlock, hs'⟩ := underRoot_cases hstep
  obtain rfl := hs' (h.dir.tfsUnlink hret).2.2
  have hguards : Guarded σ.fs.inodeRwl (Function.update σ.pc t .idle) :=
    h.guards.same (by rw [hpc]) (by rw [hpc])
  rcases h.dir.tfsUnlink_cases hret with ⟨-, rfl⟩ |
    ⟨k, i, hl, hpos, hlt, htaken, hopen, -, -, -, rfl, ⟨hone, rfl⟩ | ⟨-, rfl⟩⟩
  · exact ⟨h.tableRefs, pcRefs_idle, hguards⟩
  · have hfrees : Frees σ.fs target k := ⟨hl, hone, or_iff_not_imp_left.mpr hopen⟩
    have hunused := h.not_used_of_frees hlt (hlock k rfl) hfrees (hspares k hfrees)
    refine ⟨h.tableRefs_freed hpos hlt htaken hunused, pcRefs_idle, ?_⟩
    rw [freed_eq]
    exact hguards
  · exact ⟨h.tableRefs_unlinked, pcRefs_idle, hguards⟩

/-- The step of a thread that waits for the lock of an inode to write. -/
theorem Refs.stepRefs_lockWrite (h : σ.Refs) {inum : ℤ} {next : ℕ → Pc}
    (hw : (σ.pc t).writeHolds = none)
    (hpc : ∀ j : ℕ, inum = j → PcRefs σ t σ.fs (next j) ∧ (next j).writeHolds = some j ∧
      (next j).readHolds = (σ.pc t).readHolds)
    (hstep : lockWrite σ.fs inum next = some (s', pc')) : StepRefs σ t s' pc' := by
  obtain ⟨j, hget, hlock⟩ := Option.bind_eq_some_iff.mp hstep
  obtain ⟨l, hl, heq⟩ := Option.map_eq_some_iff.mp hlock
  obtain ⟨rfl, rfl⟩ := Prod.mk.inj heq
  obtain ⟨hrefs, hnext, hread⟩ := hpc j (inodeGet_eq_some.mp hget).1
  exact ⟨h.tableRefs.congr _ rfl rfl rfl rfl (fun _ => rfl) fun _ => id,
    ⟨hrefs.inum, hrefs.registering, hrefs.handle, fun i hi => (hrefs.working i hi).congr rfl rfl rfl⟩,
    h.guards.wrlock hl hw hnext hread⟩

/-- The step of a thread that waits for the lock of an inode to read. -/
theorem Refs.stepRefs_lockRead (h : σ.Refs) {inum : ℤ} {next : ℕ → Pc}
    (hr : (σ.pc t).readHolds = none)
    (hpc : ∀ j : ℕ, inum = j → PcRefs σ t σ.fs (next j) ∧
      (next j).writeHolds = (σ.pc t).writeHolds ∧ (next j).readHolds = some j)
    (hstep : lockRead σ.fs inum next = some (s', pc')) : StepRefs σ t s' pc' := by
  obtain ⟨j, hget, hlock⟩ := Option.bind_eq_some_iff.mp hstep
  obtain ⟨l, hl, heq⟩ := Option.map_eq_some_iff.mp hlock
  obtain ⟨rfl, rfl⟩ := Prod.mk.inj heq
  obtain ⟨hrefs, hwrite, hnext⟩ := hpc j (inodeGet_eq_some.mp hget).1
  exact ⟨h.tableRefs.congr _ rfl rfl rfl rfl (fun _ => rfl) fun _ => id,
    ⟨hrefs.inum, hrefs.registering, hrefs.handle, fun i hi => (hrefs.working i hi).congr rfl rfl rfl⟩,
    h.guards.rdlock hl hr hwrite hnext⟩

/-- The step of a thread that waits for the mutex of an entry. -/
theorem Refs.stepRefs_lockEntry (h : σ.Refs) {next : Pc} (hrefs : PcRefs σ t σ.fs next)
    (hw : next.writeHolds = (σ.pc t).writeHolds) (hr : next.readHolds = (σ.pc t).readHolds)
    (hworking : next.working = none) (hinum : next.inum = none)
    (hstep : lockEntry σ.fs fh next = some (s', pc')) : StepRefs σ t s' pc' := by
  unfold lockEntry at hstep
  split at hstep
  · cases hstep
  · obtain ⟨rfl, rfl⟩ := Prod.mk.inj (Option.some_inj.mp hstep)
    refine ⟨h.tableRefs.setLock true, pcRefs_of_handle hinum hrefs.handle ?_, h.guards.same hw hr⟩
    simp [hworking]

/-- The stretch of `tfs_open` under the lock of the inode found. -/
theorem Refs.stepRefs_openUnderLock (h : σ.Refs) {mode : ℕ} (hpc : σ.pc t = .openLocked k mode)
    (hstep : openUnderLock σ.fs k mode = some (s', pc')) : StepRefs σ t s' pc' := by
  have hinum : (σ.pc t).inum = some k := by rw [hpc]; rfl
  have hsafe := (h.pcs t).inum k hinum
  have htaken := (h.opener t k hinum).1
  have hguards : ∀ {next : Pc}, next.writeHolds = none → next.readHolds = none →
      Guarded (Function.update σ.fs.inodeRwl k (σ.fs.inodeRwl k).unlock)
        (Function.update σ.pc t next) := fun hw hr =>
    h.guards.unlock_writer (by rw [hpc]; rfl) hw (by rw [hpc, hr]; rfl)
  unfold openUnderLock at hstep
  cases hopen : tfsOpenInode σ.fs k mode with
  | ret r =>
    obtain ⟨r, u⟩ := r
    rw [hopen] at hstep
    obtain ⟨-, ⟨-, rfl, rfl | ⟨name, -, rfl, -⟩⟩ | ⟨htype, hu, rfl⟩⟩ := tfsOpenInode_cases hopen
    · obtain ⟨rfl, rfl⟩ := Prod.mk.inj (Option.some_inj.mp hstep)
      exact ⟨h.tableRefs.unlockInode, pcRefs_idle, hguards rfl rfl⟩
    · obtain ⟨rfl, rfl⟩ := Prod.mk.inj (Option.some_inj.mp hstep)
      exact ⟨h.tableRefs.unlockInode, pcRefs_openName, hguards rfl rfl⟩
    · obtain ⟨rfl, rfl⟩ := Prod.mk.inj (Option.some_inj.mp hstep)
      -- neither a link nor a directory, so what was found is a file
      have hfile : (σ.fs.inodeTable k).iNodeType = .T_FILE := by
        have hdir := (h.dir.node k hsafe.pos hsafe.lt htaken).not_dir
        cases hnode : (σ.fs.inodeTable k).iNodeType with
        | T_FILE => rfl
        | T_DIRECTORY => exact absurd hnode hdir
        | T_LINK => exact absurd hnode htype
      have hlive : LiveFile σ.fs k := ⟨hsafe.pos, hsafe.lt, htaken, hfile⟩
      have htable : TableRefs σ t u ∧ u.inodeRwl = σ.fs.inodeRwl := by
        rcases hu with ⟨rfl, -, hsize⟩ | ⟨rfl, -⟩
        · refine ⟨h.tableRefs_truncate hlive hsize, ?_⟩
          rw [truncate_eq]
        · exact ⟨h.tableRefs, rfl⟩
      have hnode := htable.1.nodes k (.inl ⟨t, .inl (.inl hinum)⟩)
      refine ⟨htable.1.unlockInode, pcRefs_of_inum (k := k) rfl hnode.1 (.inl hinum) fun _ _ =>
        hnode.2.trans hfile, ?_⟩
      rw [State.unlockInode, setRwl, htable.2]
      exact hguards rfl rfl
  | _ =>
    rw [hopen] at hstep
    cases hstep

/-- The last step of `tfs_open`. -/
theorem Refs.stepRefs_register (h : σ.Refs) {offset : ℕ} (hpc : σ.pc t = .openRegister k offset)
    (hstep : register σ.fs k offset = some (s', pc')) : StepRefs σ t s' pc' := by
  have hinum : (σ.pc t).inum = some k := by rw [hpc]; rfl
  have hguards : Guarded σ.fs.inodeRwl (Function.update σ.pc t .idle) :=
    h.guards.same (by rw [hpc]; rfl) (by rw [hpc]; rfl)
  unfold register at hstep
  split at hstep
  · obtain ⟨rfl, rfl⟩ := Prod.mk.inj (Option.some_inj.mp hstep)
    exact ⟨h.tableRefs, pcRefs_idle, hguards⟩
  rename_i fh hfirst
  split at hstep
  · cases hstep
  obtain ⟨rfl, rfl⟩ := Prod.mk.inj (Option.some_inj.mp hstep)
  rcases tfsOpenRegister_cases σ.fs k offset with ⟨hnone, -⟩ | ⟨fh', hfirst', heq⟩
  · rw [hfirst] at hnone
    cases hnone
  · rw [heq]
    exact ⟨h.tableRefs_registered hfirst' hinum (h.registering t k offset hpc), pcRefs_idle,
      hguards⟩

/-- The stretch of `tfs_write` under its locks. -/
theorem Refs.stepRefs_write (h : σ.Refs) {buffer : ℕ → UInt8} {toWrite : ℕ}
    (hpc : σ.pc t = .writeLocked fh k buffer toWrite)
    (hstep : leaveLocks fh k (tfsWriteBody σ.fs fh k buffer toWrite) = some (s', pc')) :
    StepRefs σ t s' pc' := by
  obtain ⟨⟨r, u⟩, hret, heq⟩ := Option.map_eq_some_iff.mp hstep
  obtain ⟨rfl, rfl⟩ := Prod.mk.inj heq
  have htable : TableRefs σ t u ∧ u.inodeRwl = σ.fs.inodeRwl := by
    rcases tfsWriteBody_cases (Outcome.toOption_eq_some.mp hret) with ⟨rfl, -⟩ |
      ⟨b, hb, hn, -, -, rfl⟩
    · exact ⟨h.tableRefs, rfl⟩
    · exact ⟨h.tableRefs_written (h.working t k (by rw [hpc]; rfl)) hb hn, rfl⟩
  refine ⟨htable.1.unlockInode.setLock false, pcRefs_idle, ?_⟩
  rw [State.setLock, setEntry, State.unlockInode, setRwl, htable.2]
  exact h.guards.unlock_writer (by rw [hpc]; rfl) rfl (by rw [hpc]; rfl)

/-- The stretch of `tfs_read` under its locks. -/
theorem Refs.stepRefs_read (h : σ.Refs) {len : ℕ} (hpc : σ.pc t = .readLocked fh k len)
    (hstep : leaveLocks fh k (tfsReadBody σ.fs fh k len) = some (s', pc')) :
    StepRefs σ t s' pc' := by
  obtain ⟨⟨r, u⟩, hret, heq⟩ := Option.map_eq_some_iff.mp hstep
  obtain ⟨rfl, rfl⟩ := Prod.mk.inj heq
  have htable : TableRefs σ t u ∧ u.inodeRwl = σ.fs.inodeRwl := by
    rcases tfsReadBody_cases (Outcome.toOption_eq_some.mp hret) with ⟨rfl, -⟩ |
      ⟨b, n, -, -, -, -, -, -, rfl⟩
    · exact ⟨h.tableRefs, rfl⟩
    · refine ⟨h.tableRefs.congr _ rfl rfl rfl rfl (fun fh' => ?_) fun _ => id, rfl⟩
      by_cases hfh : fh' = fh
      · subst hfh
        simp [setEntry]
      · simp [setEntry, Function.update_of_ne hfh]
  refine ⟨htable.1.unlockInode.setLock false, pcRefs_idle, ?_⟩
  rw [State.setLock, setEntry, State.unlockInode, setRwl, htable.2]
  exact h.guards.unlock_reader (by rw [hpc]; rfl) (by rw [hpc]; rfl) rfl

/-- The last step of `tfs_close`. -/
theorem Refs.stepRefs_close (h : σ.Refs) (hpc : σ.pc t = .closeRemove fh) :
    StepRefs σ t ((removeFromOpenFileTable σ.fs fh).getD σ.fs) .idle := by
  have hguards : Guarded σ.fs.inodeRwl (Function.update σ.pc t .idle) :=
    h.guards.same (by rw [hpc]; rfl) (by rw [hpc]; rfl)
  rcases removeFromOpenFileTable_cases σ.fs fh with heq | heq <;> rw [heq]
  · exact ⟨h.tableRefs, pcRefs_idle, hguards⟩
  · refine ⟨h.tableRefs.congr _ rfl rfl rfl rfl (fun _ => rfl) fun fh' hfh' => ?_, pcRefs_idle,
      hguards⟩
    by_cases hfh : fh' = fh
    · subst hfh
      simp [setFreeEntry] at hfh'
    · simpa [setFreeEntry, Function.update_of_ne hfh] using hfh'

/-- A call that begins with `get_open_file_entry` goes on with an open handle. -/
theorem Refs.stepRefs_getOpenFileEntry (h : σ.Refs) {fhandle : ℤ} {next : ℕ → Pc}
    (hpc : σ.pc t = .idle)
    (hnext : ∀ fh, (next fh).inum = none ∧ (next fh).working = none ∧
      (next fh).writeHolds = none ∧ (next fh).readHolds = none ∧
      ∀ j, (next fh).handle = some j → j = fh)
    (hstep : some (σ.fs, (getOpenFileEntry σ.fs fhandle).elim Pc.idle next) = some (s', pc')) :
    StepRefs σ t s' pc' := by
  obtain ⟨rfl, rfl⟩ := Prod.mk.inj (Option.some_inj.mp hstep)
  cases hget : getOpenFileEntry σ.fs fhandle with
  | none => exact ⟨h.tableRefs, pcRefs_idle, h.guards.same (by rw [hpc]; rfl) (by rw [hpc]; rfl)⟩
  | some fh =>
    obtain ⟨hinum, hworking, hw, hr, hhandle⟩ := hnext fh
    have htaken := (getOpenFileEntry_eq_some.mp hget).2.2
    refine ⟨h.tableRefs, pcRefs_of_handle hinum (fun j hj => .inr ?_) ?_, ?_⟩
    · rw [hhandle j hj, htaken]
    · simp [hworking]
    · exact h.guards.same (by rw [hpc]; exact hw) (by rw [hpc]; exact hr)

/-- What any step of a thread has to do, if it spares the users of inodes. -/
theorem Refs.stepRefs (h : σ.Refs) {a : Act} (hspares : σ.SparesUsers (t, a))
    (hstep : act σ.fs (σ.pc t) a = some (s', pc')) : StepRefs σ t s' pc' := by
  cases hpc : σ.pc t with
  | idle =>
    rw [hpc] at hstep
    have hnone : (σ.pc t).inum = none ∧ (σ.pc t).writeHolds = none ∧
        (σ.pc t).readHolds = none := by simp [hpc, Pc.inum, Pc.writeHolds, Pc.readHolds]
    cases a with
    | «open» name mode => exact h.stepRefs_openAt hnone.1 hnone.2.1 hnone.2.2 hstep
    | close fhandle =>
      refine h.stepRefs_getOpenFileEntry hpc (fun fh => ⟨rfl, rfl, rfl, rfl, fun j hj => ?_⟩) hstep
      cases hj
    | write fhandle buffer toWrite =>
      refine h.stepRefs_getOpenFileEntry hpc (fun fh => ⟨rfl, rfl, rfl, rfl, fun j hj => ?_⟩) hstep
      exact (Option.some_inj.mp hj).symm
    | read fhandle len =>
      refine h.stepRefs_getOpenFileEntry hpc (fun fh => ⟨rfl, rfl, rfl, rfl, fun j hj => ?_⟩) hstep
      exact (Option.some_inj.mp hj).symm
    | link target linkName => exact h.stepRefs_link hpc hstep
    | symLink target linkName => exact h.stepRefs_symLink hpc hstep
    | unlink target => exact h.stepRefs_unlink hpc (hspares target rfl) hstep
    | resume => cases hstep
  | openName name mode =>
    rw [hpc] at hstep
    cases a with
    | resume =>
      exact h.stepRefs_openAt (by rw [hpc]; rfl) (by rw [hpc]; rfl) (by rw [hpc]; rfl) hstep
    | _ => cases hstep
  | openInode k mode =>
    rw [hpc] at hstep
    have hinum : (σ.pc t).inum = some k := by rw [hpc]; rfl
    cases a with
    | resume =>
      refine h.stepRefs_lockWrite (by rw [hpc]; rfl) (fun j hj => ?_) hstep
      obtain rfl : k = j := by exact_mod_cast hj
      refine ⟨pcRefs_of_inum (k := k) rfl (h.opener t k hinum).1 (.inl hinum) fun _ hreg => ?_, rfl,
        by rw [hpc]; rfl⟩
      cases hreg
    | _ => cases hstep
  | openLocked k mode =>
    rw [hpc] at hstep
    cases a with
    | resume => exact h.stepRefs_openUnderLock hpc hstep
    | _ => cases hstep
  | openRegister k offset =>
    rw [hpc] at hstep
    cases a with
    | resume => exact h.stepRefs_register hpc hstep
    | _ => cases hstep
  | writeEntry fh buffer toWrite =>
    rw [hpc] at hstep
    cases a with
    | resume =>
      refine h.stepRefs_lockEntry ?_ (by rw [hpc]; rfl) (by rw [hpc]; rfl) rfl rfl hstep
      refine pcRefs_of_handle rfl (fun j hj => .inl ?_) fun _ hj => by cases hj
      rw [hpc]
      exact hj
    | _ => cases hstep
  | readEntry fh len =>
    rw [hpc] at hstep
    cases a with
    | resume =>
      refine h.stepRefs_lockEntry ?_ (by rw [hpc]; rfl) (by rw [hpc]; rfl) rfl rfl hstep
      refine pcRefs_of_handle rfl (fun j hj => .inl ?_) fun _ hj => by cases hj
      rw [hpc]
      exact hj
    | _ => cases hstep
  | writeInode fh buffer toWrite =>
    rw [hpc] at hstep
    have hhandle : (σ.pc t).handle = some fh := by rw [hpc]; rfl
    cases a with
    | resume =>
      obtain ⟨j, hj, hlive⟩ := h.using_handle t fh hhandle
      refine h.stepRefs_lockWrite (by rw [hpc]; rfl) (fun k hk => ?_) hstep
      obtain rfl : j = k := by exact_mod_cast hj.symm.trans hk
      refine ⟨pcRefs_of_handle rfl (fun i hi => .inl (hhandle.trans hi)) ?_, rfl, by rw [hpc]; rfl⟩
      rintro _ ⟨⟩
      exact hlive
    | _ => cases hstep
  | readInode fh len =>
    rw [hpc] at hstep
    have hhandle : (σ.pc t).handle = some fh := by rw [hpc]; rfl
    cases a with
    | resume =>
      obtain ⟨j, hj, hlive⟩ := h.using_handle t fh hhandle
      refine h.stepRefs_lockRead (by rw [hpc]; rfl) (fun k hk => ?_) hstep
      obtain rfl : j = k := by exact_mod_cast hj.symm.trans hk
      refine ⟨pcRefs_of_handle rfl (fun i hi => .inl (hhandle.trans hi)) ?_, by rw [hpc]; rfl, rfl⟩
      rintro _ ⟨⟩
      exact hlive
    | _ => cases hstep
  | writeLocked fh k buffer toWrite =>
    rw [hpc] at hstep
    cases a with
    | resume => exact h.stepRefs_write hpc hstep
    | _ => cases hstep
  | readLocked fh k len =>
    rw [hpc] at hstep
    cases a with
    | resume => exact h.stepRefs_read hpc hstep
    | _ => cases hstep
  | closeRemove fh =>
    rw [hpc] at hstep
    cases a with
    | resume =>
      obtain ⟨rfl, rfl⟩ := Prod.mk.inj (Option.some_inj.mp hstep)
      exact h.stepRefs_close hpc
    | _ => cases hstep

/-- Every step that spares the users of inodes keeps `Refs`. -/
theorem Refs.next (h : σ.Refs) {e : T × Act} (hspares : σ.SparesUsers e)
    (hnext : next σ e = some τ) : τ.Refs := by
  have hinv := h.toInv.next hnext
  obtain ⟨⟨s', pc'⟩, hact, rfl⟩ := Option.map_eq_some_iff.mp hnext
  exact h.after hinv (h.stepRefs hspares hact)

omit [DecidableEq T] in
/-- What the invariant says about `tfs_open`. -/
theorem Refs.openSafe (h : σ.Refs) : σ.OpenSafe where
  opener := h.opener
  handle fh hfh := by
    obtain ⟨k, hk, hlive, hstamp⟩ := h.handle fh hfh
    exact ⟨k, hk, hlive.taken, hstamp⟩
  truncation t k mode hpc htype hsize j hjk hown hsame := by
    have hinum : (σ.pc t).inum = some k := by rw [hpc]; rfl
    have hsafe := (h.pcs t).inum k hinum
    have htaken := (h.opener t k hinum).1
    have hfile : (σ.fs.inodeTable k).iNodeType = .T_FILE := by
      have hdir := (h.dir.node k hsafe.pos hsafe.lt htaken).not_dir
      cases hnode : (σ.fs.inodeTable k).iNodeType with
      | T_FILE => rfl
      | T_DIRECTORY => exact absurd hnode hdir
      | T_LINK => exact absurd hnode htype
    -- both would own the block
    have howns : ownedBlock σ.fs k = some (σ.fs.inodeTable k).iDataBlock :=
      ownedBlock_eq_some.mpr ⟨⟨hsafe.lt, htaken, .inr (.inl ⟨hfile, hsize⟩)⟩, rfl⟩
    exact hjk (h.owned.exclusive j k _ (ownedBlock_eq_some.mpr ⟨hown, hsame⟩) howns)
  lock k hfirst t := h.not_held (firstFree_free hfirst) t

end Sys

variable {T : Type*} [DecidableEq T] [Fintype T] {σ : Sys T}

/-- In every run whose unlinks delete no inode that a thread has looked up or works
on, the inode of an opener is in use and the one it looked up, handles refer to the
files they were opened on, a truncation frees nobody else's block, and no lock that
is held is initialised. -/
theorem open_safe (h : Reach Sys.next Sys.Start Sys.SparesUsers σ) : σ.OpenSafe :=
  (h.invariant (I := Sys.Refs) (fun _ => Sys.Start.refs)
    fun _ _ _ hrefs hspares => hrefs.next hspares).openSafe

/-- The step is no unlink. -/
def notUnlink : Act → Bool
  | .unlink _ => false
  | _ => true

omit [DecidableEq T] [Fintype T] in
theorem sparesUsers_of_notUnlink (σ : Sys T) (e : T × Act) (h : notUnlink e.2 = true) :
    σ.SparesUsers e := by
  intro target htarget
  rw [htarget] at h
  cases h

/-- A thread holds the lock of the file that the other created and closed. -/
theorem open_safe_two : ∃ σ : Sys Bool, (σ.pc true).inum = some 1 ∧ σ.OpenSafe := by
  obtain ⟨σ, hreach, hinum⟩ := exists_reach_of_runList Sys.next Sys.SparesUsers
    (fun _ e => notUnlink e.2) sparesUsers_of_notUnlink
    [(false, Act.open pathF tfsOCreat), (false, .resume), (false, .close 0), (false, .resume),
      (true, .open pathF tfsOTrunc), (true, .resume)]
    (fun σ : Sys Bool => decide ((σ.pc true).inum = some 1)) Sys.start_two (by decide +kernel)
  exact ⟨σ, of_decide_eq_true hinum, open_safe hreach⟩

/-- The run in which the file is unlinked between the lookup and the lock. -/
theorem opener_loses_inode : ¬ ∀ σ : Sys Bool, Reachable Sys.next Sys.Start σ → σ.OpenSafe := by
  intro hsafe
  obtain ⟨σ, hreach, hlost⟩ := exists_of_runList Sys.next
    [(false, Act.open pathF tfsOCreat), (false, .resume), (false, .close 0), (false, .resume),
      (true, .open pathF 0), (false, .unlink pathF), (true, .resume), (true, .resume),
      (true, .resume)]
    (fun σ : Sys Bool => decide (σ.fs.freeOpenFileEntries 0 = .TAKEN ∧
      (σ.fs.openFileTable 0).ofInumber = 1 ∧ σ.fs.freeinodeTs 1 = .FREE))
    Sys.start_two (by decide +kernel)
  obtain ⟨hhandle, hinumber, hfree⟩ := of_decide_eq_true hlost
  obtain ⟨k, hk, htaken, -⟩ := (hsafe σ hreach).handle 0 hhandle
  obtain rfl : k = 1 := by exact_mod_cast hk.symm.trans hinumber
  rw [hfree] at htaken
  cases htaken

end TfsBroker.Fs
