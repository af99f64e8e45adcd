import TfsBroker.Fs2.Directory
import TfsBroker.Tfs.Module

/-!
# `tfs_init` of both file systems

`fs/` and `fs2/` as modules behind `fs_params`. A `tfs_init` that fails for want of an inode
or a block leaves its tables behind, and one on a module with tables leaves its parameters.

## Main results

* `Fs.fileSystem`, `Fs2.fileSystem` — the two instances
* `failed_init_keeps` — when a failing `tfs_init` changes nothing, and what then holds
* `failed_init_changes` — a second `tfs_init` with larger tables
-/

namespace TfsBroker

open Runs

section Fs

open Fs State

variable {s s' : Fs.State}

theorem Fs.inodeDelete_params {inumber : ℤ} (h : Fs.inodeDelete s inumber = some s') :
    s'.fsParams = s.fsParams := by
  unfold Fs.inodeDelete at h
  simp only at h
  split at h
  · split at h
    · cases h
    · obtain rfl := Option.some_inj.mp h
      split
      · unfold dataBlockFree
        split <;> rfl
      · rfl
  · cases h

/-- The tables have the sizes of the record `tfs_init` was given, also when it fails. -/
theorem Fs.tfsInit_params (heap : Fs.Heap) (params : TfsParams) :
    (Fs.tfsInit heap params).2.fsParams = params := by
  have hdelete : ∀ (u : State) (k : ℤ), ((Fs.inodeDelete u k).getD u).fsParams = u.fsParams := by
    intro u k
    cases hu : Fs.inodeDelete u k with
    | none => rfl
    | some v => exact Fs.inodeDelete_params hu
  unfold Fs.tfsInit Fs.inodeCreate Fs.inodeAlloc Fs.dataBlockAlloc
  cases firstFree (Fs.stateInit heap params).freeinodeTs
    (Fs.stateInit heap params).inodeTableSize with
  | none => rfl
  | some k =>
    simp only [Option.map_some]
    cases firstFree _ _ with
    | none => exact hdelete _ _
    | some b =>
      simp only [Option.map_some]
      split <;> rfl

/-- `fs/` as a module. -/
def Fs.fileSystem : FileSystem Fs.Heap Fs.State Fs.Call where
  fsParams := Fs.State.fsParams
  setParams params s := { s with fsParams := params }
  validInumber := Fs.validInumber
  validBlockNumber := Fs.validBlockNumber
  validFileHandle := Fs.validFileHandle
  create heap params := .ret (Fs.tfsInit heap params)
  next := Fs.next
  setParams_self _ := rfl
  fsParams_set _ _ := rfl
  validInumber_iff _ _ := Fs.validInumber_eq_true
  validBlockNumber_iff _ _ := Fs.validBlockNumber_eq_true
  validFileHandle_iff _ _ := Fs.validFileHandle_eq_true
  create_eq heap params := by
    refine ⟨(Fs.tfsInit heap params).2, Fs.tfsInit_params heap params, ?_⟩
    rw [← Bool.decide_congr Fs.tfsInit_eq.1, Bool.decide_eq_true]
  next_params := by
    intro s c s' h hnext
    have hstart : (fun s => ∃ heap params, Outcome.ret (Fs.tfsInit heap params) = .ret (true, s)) =
        Fs.Initialised := by
      funext s
      simp only [Outcome.ret.injEq, Fs.Initialised]
    rw [hstart] at h
    exact ((Fs.exclusiveInv_of_reachable h).toSeqInv.next_frame hnext).params

end Fs

section Fs2

open Fs2 State

variable {s s' : Fs2.State} {c : Fs2.Call}

/-- No call changes the parameters. -/
theorem Fs2.Sound.after_params (h : Sound s.toFs) (hafter : Fs2.after s c = some s') :
    s'.fsParams = s.fsParams := by
  obtain ⟨⟨r, u⟩, hcall, rfl⟩ := Option.map_eq_some_iff.mp hafter
  rw [Outcome.toOption_eq_some] at hcall
  change u.toFs.fsParams = s.toFs.fsParams
  cases c with
  | «open» name mode =>
    have hreg : ∀ {t : Fs.State} {k offset : ℕ} {fd : ℤ},
        (fd, u.toFs) = Fs.tfsOpenRegister t k offset → u.toFs.fsParams = t.fsParams := by
      intro t k offset fd hreg
      rcases Fs.tfsOpenRegister_cases t k offset with ⟨-, heq⟩ | ⟨i, -, heq⟩ <;>
        rw [(Prod.mk.inj (hreg.trans heq)).2]
      rfl
    rcases h.dir.tfsOpen_cases (toFs_tfsOpen h.dir.toRootOk hcall) with
      ⟨-, heq | ⟨k, -, heq⟩⟩ | ⟨k, i, -, -, -, -, heq⟩ | ⟨k, -, -, heq⟩
    · rw [heq]
    · rw [heq]
      rfl
    · have hparams := hreg heq
      exact hparams
    · refine (hreg heq).trans ?_
      unfold Fs.found
      split
      · rw [Fs.truncate_eq]
      · rfl
  | close fh =>
    have hclose := toFs_tfsClose hcall
    rcases Fs.tfsClose_cases s.toFs fh with ⟨-, heq⟩ | ⟨i, -, heq⟩ <;> rw [heq] at hclose
    · rw [← (Prod.mk.inj hclose).2]
    · rw [← (Prod.mk.inj hclose).2]
      rfl
  | write fh buffer toWrite =>
    have hwrite := toFs_tfsWrite hcall
    unfold Fs.tfsWrite at hwrite
    split at hwrite
    · rw [(Prod.mk.inj (Outcome.ret.inj hwrite)).2]
    split at hwrite
    · cases hwrite
    rcases Fs.tfsWriteBody_cases hwrite with ⟨heq, -⟩ | ⟨b, -, -, -, -, heq⟩ <;> rw [heq]
    rfl
  | read fh len =>
    obtain ⟨⟨res, v⟩, hread, hret⟩ := Outcome.bind_eq_ret.mp hcall
    obtain ⟨-, rfl⟩ := Prod.mk.inj (Outcome.ret.inj hret)
    have hread := toFs_tfsRead hread
    unfold Fs.tfsRead at hread
    split at hread
    · rw [(Prod.mk.inj (Outcome.ret.inj hread)).2]
    split at hread
    · cases hread
    rcases Fs.tfsReadBody_cases hread with ⟨heq, -⟩ | ⟨b, m, -, -, -, -, -, -, heq⟩ <;> rw [heq]
    rfl
  | unlink target =>
    rcases tfsUnlink_cases h.dir hcall with ⟨-, -, rfl⟩ | ⟨k, i, -, -, -, -, -, -, -, -, heq⟩
    · rfl
    · rw [heq, Fs.freed_eq]
      rfl

/-- `tfs_init` returns, with tables of the sizes it was given also when it fails. -/
theorem Fs2.tfsInit_ret (heap : Fs2.Heap) (params : TfsParams) : ∃ s, s.fsParams = params ∧
    Fs2.tfsInit heap params =
      .ret (decide (0 < params.maxInodeCount ∧ 0 < params.maxBlockCount), s) := by
  by_cases hok : 0 < params.maxInodeCount ∧ 0 < params.maxBlockCount
  · rw [decide_eq_true hok]
    exact ⟨initState heap params, rfl, tfsInit_eq_ret.mpr ⟨hok.1, hok.2, rfl⟩⟩
  rw [decide_eq_false hok]
  have hinode : firstFree (Fs2.stateInit heap params).freeinodeTs
      (Fs2.stateInit heap params).inodeTableSize = if 0 < params.maxInodeCount then some 0 else none :=
    firstFree_of_zero rfl
  unfold Fs2.tfsInit Fs2.inodeCreate Fs2.inodeAlloc
  rw [hinode]
  by_cases hinodes : 0 < params.maxInodeCount
  · have hblock : ∀ (v : ℕ → AllocationState) (u : State), u.fsParams = params →
        firstFree v u.dataBlocks = none := by
      rintro v u rfl
      have hzero : u.dataBlocks = 0 := Nat.eq_zero_of_not_pos fun hpos => hok ⟨hinodes, hpos⟩
      rw [hzero]
      rfl
    simp only [hinodes, if_true, Option.map_some, Fs2.dataBlockAlloc]
    rw [hblock _ _ rfl]
    -- the inode of the root directory is given back
    have hvalid : ∀ u : State, u.fsParams = params → Fs2.validInumber u 0 = true := by
      rintro u rfl
      exact (Fs.validInumber_eq_true (s := u.toFs)).mpr ⟨le_rfl, by exact_mod_cast hinodes⟩
    simp [Fs2.inodeDelete, hvalid, setFreeinode, setInode, Fs2.stateInit]
  · rw [if_neg hinodes]
    exact ⟨_, rfl, rfl⟩

/-- `fs2/` as a module. -/
def Fs2.fileSystem : FileSystem Fs2.Heap Fs2.State Fs2.Call where
  fsParams := Fs2.State.fsParams
  setParams params s := { s with fsParams := params }
  validInumber := Fs2.validInumber
  validBlockNumber := Fs2.validBlockNumber
  validFileHandle := Fs2.validFileHandle
  create := Fs2.tfsInit
  next := Fs2.after
  setParams_self _ := rfl
  fsParams_set _ _ := rfl
  validInumber_iff s _ := Fs.validInumber_eq_true (s := s.toFs)
  validBlockNumber_iff s _ := Fs.validBlockNumber_eq_true (s := s.toFs)
  validFileHandle_iff s _ := Fs.validFileHandle_eq_true (s := s.toFs)
  create_eq := Fs2.tfsInit_ret
  next_params h hnext := (sound_of_reachable h).after_params hnext

end Fs2

/-- For every module, parameters and memory: a failing `tfs_init` leaves the module as it
was exactly when it fits; and in every run whose `tfs_init` calls all fit, the bounds are
the sizes of the tables. -/
theorem failed_init_keeps (paramsPtr : Option TfsParams) :
    ((∀ (m : Module Fs.State) (heap : Fs.Heap),
      (∀ m', Fs.fileSystem.tfsInit m heap paramsPtr = .ret (-1, m') → m' = m) ↔
        Fs.fileSystem.InitFits m paramsPtr) ∧
      ∀ allocated s, Reach Fs.fileSystem.nextModule FileSystem.Start Fs.fileSystem.EventFits
        (.initialised allocated s) → Fs.fileSystem.BoundsMatch allocated s) ∧
    (∀ (m : Module Fs2.State) (heap : Fs2.Heap),
      (∀ m', Fs2.fileSystem.tfsInit m heap paramsPtr = .ret (-1, m') → m' = m) ↔
        Fs2.fileSystem.InitFits m paramsPtr) ∧
      ∀ allocated s, Reach Fs2.fileSystem.nextModule FileSystem.Start Fs2.fileSystem.EventFits
        (.initialised allocated s) → Fs2.fileSystem.BoundsMatch allocated s := by
  exact ⟨⟨fun m heap => FileSystem.keeps_iff, fun allocated s h => FileSystem.boundsMatch h⟩,
    fun m heap => FileSystem.keeps_iff, fun allocated s h => FileSystem.boundsMatch h⟩

/-- The default parameters, with twice as many inodes. -/
def largerParams : TfsParams := { tfsDefaultParams with maxInodeCount := 128, inode_index := by decide }

/-- After `tfs_init(NULL)`, a `tfs_init` with more inodes fails and leaves its parameters:
inode numbers up to 127 pass the check, and the table has 64 entries. -/
theorem failed_init_changes :
    ¬ ∀ m, Reachable Fs.fileSystem.nextModule FileSystem.Start m →
      (∀ heap paramsPtr m', Fs.fileSystem.tfsInit m heap paramsPtr = .ret (-1, m') → m' = m) ∧
      ∀ allocated s, m = .initialised allocated s → Fs.fileSystem.BoundsMatch allocated s := by
  intro hall
  obtain ⟨m, hreach, hm⟩ := exists_of_runList Fs.fileSystem.nextModule
    [Module.Event.init Fs.Heap.zeroed none, .init .zeroed (some largerParams)]
    (fun m => match m with
      | .initialised allocated s =>
        decide (allocated.maxInodeCount = 64 ∧ Fs.validInumber s 127 = true)
      | .uninitialised _ => false)
    (show FileSystem.Start (Module.uninitialised none) from rfl) (by decide +kernel)
  cases m with
  | initialised allocated s =>
    obtain ⟨hsize, hvalid⟩ := of_decide_eq_true hm
    have hlt := (((hall _ hreach).2 allocated s rfl).inodes 127 hvalid).2
    omega
  | uninitialised fsParams => cases hm

end TfsBroker
