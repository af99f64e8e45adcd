import TfsBroker.Fs.Threads
import TfsBroker.Fs.Sequential

/-!
# What threads and open handles refer to

A thread in `tfs_open` holds on to the inode number it looked up, a read or write
to a handle, and an entry of the open file table to an inode. `Sys.Refs` says that
all of these are in use and the same creation as when they were looked up, and
that the inode locks are held by exactly the threads that took them.

The only step that can break it is an unlink that deletes an inode somebody looked
up or works on. `Sys.SparesUsers` excludes that step, and all others keep `Refs`.

## Main results

* `Sys.Refs` — what threads and handles refer to
* `Sys.Refs.after` — a step that does its part, `Sys.StepRefs`, keeps it
-/

namespace TfsBroker.Fs

open State Runs Ownership Rwlock

/-! ### What a thread holds and works on -/

/-- The inode whose lock a thread holds for writing. -/
def Pc.writeHolds : Pc → Option ℕ
  | .openLocked k _ | .writeLocked _ k _ _ => some k
  | _ => none

/-- The inode whose lock a thread holds for reading. -/
def Pc.readHolds : Pc → Option ℕ
  | .readLocked _ k _ => some k
  | _ => none

/-- A thread at `pc` has looked up the inode `k` in `tfs_open`, or works on it
through a handle. -/
def Pc.Works (s : State) (pc : Pc) (k : ℕ) : Prop :=
  pc.inum = some k ∨ ∃ fh, pc.handle = some fh ∧ (s.openFileTable fh).ofInumber = k

/-- `tfs_unlink` of `target` deletes the inode `k`. -/
def Frees (s : State) (target : Option CString) (k : ℕ) : Prop :=
  tfsLookup s target 0 = k ∧ (s.inodeTable k).iLinksCount = 1 ∧
    ((s.inodeTable k).iNodeType = .T_LINK ∨ isInOpenFileTable s k = false)

/-- A thread that holds the lock of an inode in a read or write works on it. -/
theorem Pc.holds_of_working {pc : Pc} {k : ℕ} (h : pc.working = some k) :
    pc.writeHolds = some k ∨ pc.readHolds = some k := by
  cases pc with
  | writeLocked fh j buffer toWrite => exact .inl h
  | readLocked fh j len => exact .inr h
  | _ => cases h

/-- Whoever holds the lock of an inode is in `tfs_open` or reads or writes. -/
theorem Pc.inum_or_working_of_holds {pc : Pc} {k : ℕ}
    (h : pc.writeHolds = some k ∨ pc.readHolds = some k) :
    pc.inum = some k ∨ pc.working = some k := by
  cases pc with
  | openLocked j mode => exact .inl (h.resolve_right (by simp [readHolds]))
  | writeLocked fh j buffer toWrite => exact .inr (h.resolve_right (by simp [readHolds]))
  | readLocked fh j len => exact .inr (h.resolve_left (by simp [writeHolds]))
  | _ => simp [writeHolds, readHolds] at h

/-! ### The locks and the threads that hold them -/

section Locks

variable {T : Type*} [Fintype T] {rwl : ℕ → Rwlock} {pc : T → Pc} {pc' : Pc} {l : Rwlock}
  {t : T} {k : ℕ}

/-- The locks `rwl` of the inodes are held as the threads at `pc` say. -/
def Guarded (rwl : ℕ → Rwlock) (pc : T → Pc) : Prop :=
  ∀ k, Guards (rwl k) (fun t => (pc t).writeHolds = some k) fun t => (pc t).readHolds = some k

namespace Guarded

/-- A lock that nobody holds is initialised. -/
theorem initialised (h : Guarded rwl pc)
    (hk : ∀ u, (pc u).writeHolds ≠ some k ∧ (pc u).readHolds ≠ some k) :
    Guarded (Function.update rwl k .unlocked) pc := by
  intro j
  by_cases hj : j = k
  · subst hj
    rw [Function.update_self]
    exact .unlocked (fun u => (hk u).1) fun u => (hk u).2
  · rw [Function.update_of_ne hj]
    exact h j

variable [DecidableEq T]

omit [Fintype T] in
private theorem update_iff {f : Pc → Option ℕ} {u : T} :
    f (Function.update pc t pc' u) = some k ↔
      (u ≠ t ∧ f (pc u) = some k) ∨ (u = t ∧ f pc' = some k) := by
  by_cases hu : u = t
  · subst hu
    simp
  · simp [hu]

omit [Fintype T] in
private theorem update_iff_of_eq {f : Pc → Option ℕ} {u : T} (h : f pc' = f (pc t)) :
    f (Function.update pc t pc' u) = some k ↔ f (pc u) = some k := by
  by_cases hu : u = t
  · subst hu
    simp [h]
  · simp [Function.update_of_ne hu]

/-- A step of `t` that neither takes nor releases a lock of an inode. -/
theorem same (h : Guarded rwl pc) (hw : pc'.writeHolds = (pc t).writeHolds)
    (hr : pc'.readHolds = (pc t).readHolds) : Guarded rwl (Function.update pc t pc') :=
  fun j => (h j).congr (fun _ => update_iff_of_eq hw) fun _ => update_iff_of_eq hr

/-- `t` got the lock of `k` for writing. -/
theorem wrlock (h : Guarded rwl pc) (hl : (rwl k).wrlock = some l)
    (hnone : (pc t).writeHolds = none) (hw : pc'.writeHolds = some k)
    (hr : pc'.readHolds = (pc t).readHolds) :
    Guarded (Function.update rwl k l) (Function.update pc t pc') := by
  intro j
  by_cases hj : j = k
  · subst hj
    rw [Function.update_self]
    refine (h j).wrlock (t := t) hl (fun u => ?_) fun u => update_iff_of_eq hr
    rw [update_iff, hw]
    by_cases hu : u = t
    · subst hu
      simp [hnone]
    · simp [hu]
  · rw [Function.update_of_ne hj]
    refine (h j).congr (fun u => ?_) fun u => update_iff_of_eq hr
    rw [update_iff, hw]
    by_cases hu : u = t
    · subst hu
      simp [hnone, Ne.symm hj]
    · simp [hu]

/-- `t` got the lock of `k` for reading. -/
theorem rdlock (h : Guarded rwl pc) (hl : (rwl k).rdlock = some l)
    (hnone : (pc t).readHolds = none) (hw : pc'.writeHolds = (pc t).writeHolds)
    (hr : pc'.readHolds = some k) :
    Guarded (Function.update rwl k l) (Function.update pc t pc') := by
  intro j
  by_cases hj : j = k
  · subst hj
    rw [Function.update_self]
    refine (h j).rdlock (t := t) hl (by simp [hnone]) (fun u => update_iff_of_eq hw) fun u => ?_
    rw [update_iff, hr]
    by_cases hu : u = t
    · subst hu
      simp [hnone]
    · simp [hu]
  · rw [Function.update_of_ne hj]
    refine (h j).congr (fun u => update_iff_of_eq hw) fun u => ?_
    rw [update_iff, hr]
    by_cases hu : u = t
    · subst hu
      simp [hnone, Ne.symm hj]
    · simp [hu]

/-- The writer `t` released the lock of `k`. -/
theorem unlock_writer (h : Guarded rwl pc) (hk : (pc t).writeHolds = some k)
    (hw : pc'.writeHolds = none) (hr : pc'.readHolds = (pc t).readHolds) :
    Guarded (Function.update rwl k (rwl k).unlock) (Function.update pc t pc') := by
  intro j
  by_cases hj : j = k
  · subst hj
    rw [Function.update_self]
    refine (h j).unlock_writer (t := t) hk (fun u => ?_) fun u => update_iff_of_eq hr
    rw [update_iff, hw]
    simp [and_comm]
  · rw [Function.update_of_ne hj]
    refine (h j).congr (fun u => ?_) fun u => update_iff_of_eq hr
    rw [update_iff, hw]
    by_cases hu : u = t
    · subst hu
      simp [hk, Ne.symm hj]
    · simp [hu]

/-- The reader `t` released the lock of `k`. -/
theorem unlock_reader (h : Guarded rwl pc) (hk : (pc t).readHolds = some k)
    (hw : pc'.writeHolds = (pc t).writeHolds) (hr : pc'.readHolds = none) :
    Guarded (Function.update rwl k (rwl k).unlock) (Function.update pc t pc') := by
  intro j
  by_cases hj : j = k
  · subst hj
    rw [Function.update_self]
    refine (h j).unlock_reader (t := t) hk (fun u => update_iff_of_eq hw) fun u => ?_
    rw [update_iff, hr]
    simp [and_comm]
  · rw [Function.update_of_ne hj]
    refine (h j).congr (fun u => update_iff_of_eq hw) fun u => ?_
    rw [update_iff, hr]
    by_cases hu : u = t
    · subst hu
      simp [hk, Ne.symm hj]
    · simp [hu]

end Guarded

end Locks

namespace Sys

variable {T : Type*}

/-- The step deletes no inode that a thread has looked up or works on. -/
def SparesUsers (σ : Sys T) (e : T × Act) : Prop :=
  ∀ target, e.2 = .unlink target → ∀ k, Frees σ.fs target k → ∀ u, ¬ (σ.pc u).Works σ.fs k

/-- Somebody refers to the inode `k`. -/
def Used (σ : Sys T) (k : ℕ) : Prop :=
  (∃ t, (σ.pc t).Works σ.fs k ∨ (σ.pc t).working = some k) ∨
    ∃ fh, σ.fs.freeOpenFileEntries fh = .TAKEN ∧ (σ.fs.openFileTable fh).ofInumber = k

/-! ### What a step may do with the tables -/

/-- What a step of `t` to `s'` has to do with the tables to keep `Refs`. -/
structure TableRefs (σ : Sys T) (t : T) (s' : State) : Prop where
  params : s'.fsParams = σ.fs.fsParams
  nodes : ∀ k, σ.Used k → s'.freeinodeTs k = .TAKEN ∧
    (s'.inodeTable k).iNodeType = (σ.fs.inodeTable k).iNodeType
  table : ∀ fh, ((s'.openFileTable fh).ofInumber = (σ.fs.openFileTable fh).ofInumber ∧
      (s'.freeOpenFileEntries fh = .TAKEN → σ.fs.freeOpenFileEntries fh = .TAKEN)) ∨
    (fh < σ.fs.maxOpenFiles ∧ σ.fs.freeOpenFileEntries fh = .FREE ∧ ∃ k : ℕ,
      (s'.openFileTable fh).ofInumber = k ∧ (σ.pc t).inum = some k ∧
      (σ.fs.inodeTable k).iNodeType = .T_FILE)
  owned : Owned s'
  link_size : ∀ k < s'.inodeTableSize, s'.freeinodeTs k = .TAKEN →
    (s'.inodeTable k).iNodeType = .T_LINK → (s'.inodeTable k).iSize = 0

section Tables

variable {σ : Sys T} {t : T} {s' : State}

/-- After a step that does its part, locks and offsets may change, and entries of
the open file table may be freed. -/
theorem TableRefs.congr (h : TableRefs σ t s') (s'' : State)
    (hparams : s''.fsParams = s'.fsParams) (htable : s''.inodeTable = s'.inodeTable)
    (hfree : s''.freeinodeTs = s'.freeinodeTs) (hblocks : s''.freeBlocks = s'.freeBlocks)
    (hopen : ∀ fh, (s''.openFileTable fh).ofInumber = (s'.openFileTable fh).ofInumber)
    (hentries : ∀ fh, s''.freeOpenFileEntries fh = .TAKEN → s'.freeOpenFileEntries fh = .TAKEN) :
    TableRefs σ t s'' where
  params := hparams.trans h.params
  nodes k hk := by
    rw [hfree, htable]
    exact h.nodes k hk
  table fh := by
    rcases h.table fh with ⟨hsame, hold⟩ | ⟨hlt, hnew, k, hk, hrest⟩
    · exact .inl ⟨(hopen fh).trans hsame, fun hfh => hold (hentries fh hfh)⟩
    · exact .inr ⟨hlt, hnew, k, (hopen fh).trans hk, hrest⟩
  owned := Owns.change h.owned (blockChange_congr hparams htable hfree hblocks)
  link_size k hk htaken htype := by
    rw [htable] at htype ⊢
    exact h.link_size k (inodeTableSize_congr hparams ▸ hk) (hfree ▸ htaken) htype

end Tables

variable [Fintype T]

/-- Whatever threads and handles refer to is in use and as it was looked up. -/
structure Refs (σ : Sys T) : Prop extends σ.Inv where
  opener : ∀ t k, (σ.pc t).inum = some k →
    σ.fs.freeinodeTs k = .TAKEN ∧ σ.born k = σ.looked t
  registering : ∀ t k offset, σ.pc t = .openRegister k offset →
    (σ.fs.inodeTable k).iNodeType = .T_FILE
  using_handle : ∀ t fh, (σ.pc t).handle = some fh → ∃ k : ℕ,
    (σ.fs.openFileTable fh).ofInumber = k ∧ LiveFile σ.fs k
  working : ∀ t k, (σ.pc t).working = some k → LiveFile σ.fs k
  handle_lt : ∀ fh, σ.fs.freeOpenFileEntries fh = .TAKEN → fh < σ.fs.maxOpenFiles
  handle : ∀ fh, σ.fs.freeOpenFileEntries fh = .TAKEN → ∃ k : ℕ,
    (σ.fs.openFileTable fh).ofInumber = k ∧ LiveFile σ.fs k ∧ σ.born k = σ.opened fh
  guards : Guarded σ.fs.inodeRwl σ.pc
  owned : Owned σ.fs
  link_size : ∀ k < σ.fs.inodeTableSize, σ.fs.freeinodeTs k = .TAKEN →
    (σ.fs.inodeTable k).iNodeType = .T_LINK → (σ.fs.inodeTable k).iSize = 0

variable {σ τ : Sys T} {t : T} {s' : State} {pc' : Pc} {k : ℕ}

theorem Refs.used_taken (h : σ.Refs) (hk : σ.Used k) : σ.fs.freeinodeTs k = .TAKEN := by
  rcases hk with ⟨t, (hinum | ⟨fh, hfh, hk⟩) | hwork⟩ | ⟨fh, hfh, hk⟩
  · exact (h.opener t k hinum).1
  · obtain ⟨j, hj, hlive⟩ := h.using_handle t fh hfh
    obtain rfl : j = k := by exact_mod_cast hj.symm.trans hk
    exact hlive.taken
  · exact (h.working t k hwork).taken
  · obtain ⟨j, hj, hlive, -⟩ := h.handle fh hfh
    obtain rfl : j = k := by exact_mod_cast hj.symm.trans hk
    exact hlive.taken

theorem Refs.tableRefs (h : σ.Refs) : TableRefs σ t σ.fs where
  params := rfl
  nodes _ hk := ⟨h.used_taken hk, rfl⟩
  table _ := .inl ⟨rfl, id⟩
  owned := h.owned
  link_size := h.link_size

/-- A step that only works on the free inode `k`. -/
theorem Refs.tableRefs_create (h : σ.Refs) (hk : σ.fs.freeinodeTs k = .FREE)
    (hparams : s'.fsParams = σ.fs.fsParams)
    (hother : ∀ j, j ≠ k → s'.freeinodeTs j = σ.fs.freeinodeTs j ∧
      s'.inodeTable j = σ.fs.inodeTable j)
    (hsame : SameHandles σ.fs s') (howned : Owned s') (hsize : (s'.inodeTable k).iSize = 0) :
    TableRefs σ t s' where
  params := hparams
  nodes j hj := by
    have htaken := h.used_taken hj
    have hjk : j ≠ k := by
      rintro rfl
      rw [hk] at htaken
      cases htaken
    rw [(hother j hjk).1, (hother j hjk).2]
    exact ⟨htaken, rfl⟩
  table fh := .inl ⟨by rw [hsame.table], fun hfh => hsame.entries ▸ hfh⟩
  owned := howned
  link_size j hj htaken htype := by
    by_cases hjk : j = k
    · rw [hjk, hsize]
    · rw [(hother j hjk).2] at htype ⊢
      rw [(hother j hjk).1] at htaken
      exact h.link_size j (inodeTableSize_congr hparams ▸ hj) htaken htype

/-- A step that leaves the types of the inodes and the inodes in use as they are. -/
theorem Refs.tableRefs_update (h : σ.Refs) (hparams : s'.fsParams = σ.fs.fsParams)
    (hfree : s'.freeinodeTs = σ.fs.freeinodeTs)
    (hnode : ∀ j, (s'.inodeTable j).iNodeType = (σ.fs.inodeTable j).iNodeType ∧
      ((s'.inodeTable j).iSize = (σ.fs.inodeTable j).iSize ∨ LiveFile σ.fs j))
    (hopen : ∀ fh, (s'.openFileTable fh).ofInumber = (σ.fs.openFileTable fh).ofInumber)
    (hentries : s'.freeOpenFileEntries = σ.fs.freeOpenFileEntries) (howned : Owned s') :
    TableRefs σ t s' where
  params := hparams
  nodes j hj := ⟨hfree ▸ h.used_taken hj, (hnode j).1⟩
  table fh := .inl ⟨hopen fh, fun hfh => hentries ▸ hfh⟩
  owned := howned
  link_size j hj htaken htype := by
    obtain ⟨hsame, hsize | hlive⟩ := hnode j
    · rw [hsize]
      rw [hsame] at htype
      exact h.link_size j (inodeTableSize_congr hparams ▸ hj) (hfree ▸ htaken) htype
    · rw [hsame, hlive.file] at htype
      cases htype

theorem Refs.tableRefs_discarded (h : σ.Refs) (hk : σ.fs.freeinodeTs k = .FREE)
    {iType : InodeType} : TableRefs σ t (discarded σ.fs k (.new iType)) := by
  refine h.tableRefs_create hk rfl (fun j hj => ⟨rfl, Function.update_of_ne hj _ _⟩) ⟨rfl, rfl⟩
    (Owns.change h.owned (blockChange_discarded hk _)) ?_
  simp [discarded, Inode.new]

theorem Refs.tableRefs_created (h : σ.Refs)
    (hk : firstFree σ.fs.freeinodeTs σ.fs.inodeTableSize = some k) {i : ℕ} {sub : CString} :
    TableRefs σ t (created σ.fs k i sub) := by
  have hfree := firstFree_free hk
  refine h.tableRefs_create hfree rfl (fun j hj => ?_) ⟨rfl, rfl⟩
    (Owns.change h.owned (blockChange_newInode hfree (firstFree_ne hk h.dir.root_taken))) ?_
  · simp [created, newInode, Function.update_of_ne hj]
  · simp [created, newInode, Inode.new]

theorem Refs.tableRefs_linkDiscarded (h : σ.Refs) {b : ℕ} {target : CString}
    (hk : σ.fs.freeinodeTs k = .FREE)
    (hb : firstFree σ.fs.freeBlocks σ.fs.dataBlocks = some b) :
    TableRefs σ t (linkDiscarded σ.fs k b target) := by
  refine h.tableRefs_create hk rfl (fun j hj => ⟨rfl, Function.update_of_ne hj _ _⟩) ⟨rfl, rfl⟩
    (owned_linkDiscarded h.owned hk hb) ?_
  simp [linkDiscarded, discarded, Inode.new]

theorem Refs.tableRefs_linkInode (h : σ.Refs) {b : ℕ} {target : CString} {m : Memory}
    (hk : firstFree σ.fs.freeinodeTs σ.fs.inodeTableSize = some k)
    (hb : firstFree σ.fs.freeBlocks σ.fs.dataBlocks = some b) :
    TableRefs σ t { linkInode σ.fs k b target with fsData := m } := by
  refine h.tableRefs_create (firstFree_free hk) rfl (fun j hj => ?_) ⟨rfl, rfl⟩
    (Owns.change h.owned (blockChange_linkInode hk hb)) ?_
  · simp [linkInode, newInode, Function.update_of_ne hj]
  · simp [linkInode, Inode.new]

theorem Refs.tableRefs_linked (h : σ.Refs) {i : ℕ} {sub : CString} :
    TableRefs σ t (linked σ.fs k i sub) := by
  refine h.tableRefs_update rfl rfl (fun j => ?_) (fun _ => rfl) rfl
    (Owns.change h.owned blockChange_linked)
  by_cases hj : j = k
  · subst hj
    simp [linked]
  · simp [linked, Function.update_of_ne hj]

theorem Refs.tableRefs_unlinked (h : σ.Refs) {i : ℕ} : TableRefs σ t (unlinked σ.fs k i) := by
  refine h.tableRefs_update rfl rfl (fun j => ?_) (fun _ => rfl) rfl
    (Owns.change h.owned blockChange_unlinked)
  by_cases hj : j = k
  · subst hj
    simp [unlinked, cleared, setInode]
  · simp [unlinked, cleared, setInode, Function.update_of_ne hj]

/-- An inode that nobody refers to may be deleted. -/
theorem Refs.tableRefs_freed (h : σ.Refs) {i : ℕ} (hk : 0 < k) (hlt : k < σ.fs.inodeTableSize)
    (htaken : σ.fs.freeinodeTs k = .TAKEN) (hunused : ¬ σ.Used k) :
    TableRefs σ t (freed (cleared σ.fs i) k) := by
  have howned : Owned (freed (cleared σ.fs i) k) :=
    owned_freed h.owned hk hlt htaken (h.link_size k hlt htaken) (h.dir.node k hk hlt htaken).not_dir
  rw [freed_eq] at howned ⊢
  refine ⟨rfl, fun j hj => ?_, fun fh => .inl ⟨rfl, id⟩, howned, fun j hj hjt htype => ?_⟩
  · have hjk : j ≠ k := by
      rintro rfl
      exact hunused hj
    exact ⟨(Function.update_of_ne hjk _ _).trans (h.used_taken hj), rfl⟩
  · refine h.link_size j hj ?_ htype
    by_cases hjk : j = k
    · exact hjk ▸ htaken
    · exact (Function.update_of_ne hjk _ _).symm.trans hjt

theorem Refs.tableRefs_truncate (h : σ.Refs) (hk : LiveFile σ.fs k)
    (hsize : 0 < (σ.fs.inodeTable k).iSize) : TableRefs σ t (truncate σ.fs k) := by
  have howned : Owned (truncate σ.fs k) :=
    Owns.change h.owned (blockChange_truncate h.owned hk.pos hk.lt hk.taken hk.file hsize)
  rw [truncate_eq] at howned ⊢
  refine h.tableRefs_update rfl rfl (fun j => ?_) (fun _ => rfl) rfl howned
  by_cases hj : j = k
  · subst hj
    simp [hk]
  · simp [Function.update_of_ne hj]

theorem Refs.tableRefs_written (h : σ.Refs) {fh b n : ℕ} {buffer : ℕ → UInt8}
    (hk : LiveFile σ.fs k) (hb : WriteBlock σ.fs k b) (hn : 0 < n) :
    TableRefs σ t (written σ.fs fh k b n buffer) := by
  refine h.tableRefs_update rfl rfl (fun j => ?_) (fun fh' => ?_) rfl
    (Owns.change h.owned (blockChange_written hk.pos hk.lt hk.taken hk.file hb hn))
  · by_cases hj : j = k
    · subst hj
      simp [written, hk]
    · simp [written, Function.update_of_ne hj]
  · by_cases hfh : fh' = fh
    · subst hfh
      simp [written]
    · simp [written, Function.update_of_ne hfh]

/-- `t` enters the file it looked up in a free entry of the open file table. -/
theorem Refs.tableRefs_registered (h : σ.Refs) {fh offset : ℕ}
    (hfh : firstFree σ.fs.freeOpenFileEntries σ.fs.maxOpenFiles = some fh)
    (hk : (σ.pc t).inum = some k) (htype : (σ.fs.inodeTable k).iNodeType = .T_FILE) :
    TableRefs σ t (registered σ.fs fh k offset) where
  params := rfl
  nodes j hj := ⟨h.used_taken hj, rfl⟩
  table fh' := by
    by_cases hne : fh' = fh
    · subst hne
      exact .inr ⟨firstFree_lt hfh, firstFree_free hfh, k, by simp [registered, setEntry], hk, htype⟩
    · refine .inl ?_
      simp [registered, setEntry, setFreeEntry, Function.update_of_ne hne]
  owned := Owns.change h.owned (blockChange_congr rfl rfl rfl rfl)
  link_size := h.link_size

/-! ### What a step has to do -/

/-- What `t` may go on to refer to. -/
structure PcRefs (σ : Sys T) (t : T) (s' : State) (pc' : Pc) : Prop where
  inum : ∀ k, pc'.inum = some k →
    s'.freeinodeTs k = .TAKEN ∧ ((σ.pc t).inum = some k ∨ (σ.pc t).inum = none)
  registering : ∀ k offset, pc' = .openRegister k offset → (s'.inodeTable k).iNodeType = .T_FILE
  handle : ∀ fh, pc'.handle = some fh →
    (σ.pc t).handle = some fh ∨ σ.fs.freeOpenFileEntries fh = .TAKEN
  working : ∀ k, pc'.working = some k → LiveFile s' k

variable [DecidableEq T]

/-- What a step of `t` to `s'` and `pc'` has to do to keep `Refs`. -/
structure StepRefs (σ : Sys T) (t : T) (s' : State) (pc' : Pc) : Prop
    extends TableRefs σ t s', PcRefs σ t s' pc' where
  guards : Guarded s'.inodeRwl (Function.update σ.pc t pc')

omit [Fintype T] in
/-- An inode in use is not created anew. -/
theorem after_born (htaken : σ.fs.freeinodeTs k = .TAKEN) :
    (σ.after t s' pc').born k = σ.born k := by
  simp [after, htaken]

omit [Fintype T] in
theorem after_pc_of_ne {u : T} (hu : u ≠ t) : (σ.after t s' pc').pc u = σ.pc u :=
  Function.update_of_ne hu _ _

omit [Fintype T] in
theorem after_pc_self : (σ.after t s' pc').pc t = pc' := Function.update_self ..

/-- A step that does its part keeps `Refs`. -/
theorem Refs.after (h : σ.Refs) (hinv : (σ.after t s' pc').Inv) (hstep : StepRefs σ t s' pc') :
    (σ.after t s' pc').Refs := by
  have hlive : ∀ k, σ.Used k → LiveFile σ.fs k → LiveFile s' k := by
    intro k hk hlive
    obtain ⟨htaken, htype⟩ := hstep.nodes k hk
    exact hlive.congr hstep.params (htaken.trans hlive.taken.symm) htype
  -- a file that `t` enters in the open file table is in use
  have hnew : ∀ k, (σ.pc t).inum = some k → (σ.fs.inodeTable k).iNodeType = .T_FILE →
      LiveFile s' k := by
    intro k hk htype
    have hsafe := (h.pcs t).inum k hk
    exact hlive k (.inl ⟨t, .inl (.inl hk)⟩) ⟨hsafe.pos, hsafe.lt, (h.opener t k hk).1, htype⟩
  have hentry : ∀ fh, (∃ k : ℕ, (σ.fs.openFileTable fh).ofInumber = k ∧ LiveFile σ.fs k ∧
      σ.Used k) → ∃ k : ℕ, (s'.openFileTable fh).ofInumber = k ∧ LiveFile s' k := by
    rintro fh ⟨k, hk, hl, hused⟩
    rcases hstep.table fh with ⟨hsame, -⟩ | ⟨-, -, j, hj, hinum, htype⟩
    · exact ⟨k, hsame.trans hk, hlive k hused hl⟩
    · exact ⟨j, hj, hnew j hinum htype⟩
  refine { hinv with
    opener := fun u k hk => ?_, registering := fun u k offset hu => ?_
    using_handle := fun u fh hu => ?_, working := fun u k hu => ?_
    handle_lt := fun fh hfh => ?_, handle := fun fh hfh => ?_
    guards := hstep.guards, owned := hstep.owned, link_size := hstep.link_size }
  · by_cases hut : u = t
    · subst hut
      rw [after_pc_self] at hk
      obtain ⟨htaken, hold | hnone⟩ := hstep.inum k hk
      · obtain ⟨hold', hstamp⟩ := h.opener u k hold
        refine ⟨htaken, (after_born hold').trans (hstamp.trans ?_)⟩
        simp [Sys.after, hold]
      · refine ⟨htaken, ?_⟩
        simp [Sys.after, hnone, hk]
    · rw [after_pc_of_ne hut] at hk
      obtain ⟨hold, hstamp⟩ := h.opener u k hk
      refine ⟨(hstep.nodes k (.inl ⟨u, .inl (.inl hk)⟩)).1, (after_born hold).trans ?_⟩
      rw [hstamp]
      simp only [Sys.after]
      split
      · rw [Function.update_of_ne hut]
      · rfl
  · by_cases hut : u = t
    · subst hut
      rw [after_pc_self] at hu
      exact hstep.registering k offset hu
    · rw [after_pc_of_ne hut] at hu
      refine ((hstep.nodes k (.inl ⟨u, .inl (.inl ?_)⟩)).2).trans (h.registering u k offset hu)
      rw [hu]
      rfl
  · by_cases hut : u = t
    · subst hut
      rw [after_pc_self] at hu
      refine hentry fh ?_
      rcases hstep.handle fh hu with hold | htaken
      · obtain ⟨k, hk, hl⟩ := h.using_handle u fh hold
        exact ⟨k, hk, hl, .inl ⟨u, .inl (.inr ⟨fh, hold, hk⟩)⟩⟩
      · obtain ⟨k, hk, hl, -⟩ := h.handle fh htaken
        exact ⟨k, hk, hl, .inr ⟨fh, htaken, hk⟩⟩
    · rw [after_pc_of_ne hut] at hu
      obtain ⟨k, hk, hl⟩ := h.using_handle u fh hu
      exact hentry fh ⟨k, hk, hl, .inl ⟨u, .inl (.inr ⟨fh, hu, hk⟩)⟩⟩
  · by_cases hut : u = t
    · subst hut
      rw [after_pc_self] at hu
      exact hstep.working k hu
    · rw [after_pc_of_ne hut] at hu
      exact hlive k (.inl ⟨u, .inr hu⟩) (h.working u k hu)
  · rcases hstep.table fh with ⟨-, hold⟩ | ⟨hlt, -⟩
    · exact maxOpenFiles_congr hstep.params ▸ h.handle_lt fh (hold hfh)
    · exact maxOpenFiles_congr hstep.params ▸ hlt
  · rcases hstep.table fh with ⟨hsame, hold⟩ | ⟨-, hfree, j, hj, hinum, htype⟩
    · obtain ⟨k, hk, hl, hstamp⟩ := h.handle fh (hold hfh)
      refine ⟨k, hsame.trans hk, hlive k (.inr ⟨fh, hold hfh, hk⟩) hl, ?_⟩
      rw [after_born hl.taken, hstamp]
      simp [Sys.after, hold hfh]
    · obtain ⟨htaken, hstamp⟩ := h.opener t j hinum
      refine ⟨j, hj, hnew j hinum htype, ?_⟩
      have hfh' : s'.freeOpenFileEntries fh = .TAKEN := hfh
      rw [after_born htaken, hstamp]
      simp [Sys.after, hfree, hfh']

end Sys

end TfsBroker.Fs
