import TfsBroker.Lib.Runs
import TfsBroker.Tfs.Params

/-!
# The module behind `fs_params` (`state_init`, `tfs_init`, `tfs_destroy`)

Both file systems keep their tables in global variables and check every index against one
global record of parameters. `state_init` assigns the record before it looks whether there
are tables already; the tables have the sizes of the record of their own `state_init`.

## Main results

* `FileSystem.keeps_iff` — when a failing `tfs_init` leaves the module as it was
* `FileSystem.boundsMatch` — while all do, the record is that of the tables
-/

namespace TfsBroker

open Runs

/-- A file system with tables of its own: `ι` is the memory it can be given, `σ` its state
with the tables, `κ` its calls. -/
structure FileSystem (ι σ κ : Type*) where
  /-- `fs_params`. -/
  fsParams : σ → TfsParams
  /-- The assignment to `fs_params`. -/
  setParams : TfsParams → σ → σ
  validInumber : σ → ℤ → Bool
  validBlockNumber : σ → ℤ → Bool
  validFileHandle : σ → ℤ → Bool
  /-- `state_init` once there are no tables, and the creation of the root directory:
  whether that succeeds, and the state it leaves. -/
  create : ι → TfsParams → Outcome (Bool × σ)
  /-- The state after a call, if it returns. -/
  next : σ → κ → Option σ
  setParams_self : ∀ s, setParams (fsParams s) s = s
  fsParams_set : ∀ params s, fsParams (setParams params s) = params
  validInumber_iff : ∀ s i, validInumber s i = true ↔ 0 ≤ i ∧ i < (fsParams s).maxInodeCount
  validBlockNumber_iff :
    ∀ s b, validBlockNumber s b = true ↔ 0 ≤ b ∧ b < (fsParams s).maxBlockCount
  validFileHandle_iff :
    ∀ s fh, validFileHandle s fh = true ↔ 0 ≤ fh ∧ fh < (fsParams s).maxOpenFilesCount
  create_eq : ∀ heap params, ∃ s, fsParams s = params ∧
    create heap params = .ret (decide (0 < params.maxInodeCount ∧ 0 < params.maxBlockCount), s)
  next_params : ∀ {s c s'},
    Reachable next (fun s => ∃ heap params, create heap params = .ret (true, s)) s →
      next s c = some s' → fsParams s' = fsParams s

/-- The global variables of a file system. -/
inductive Module (σ : Type*)
  /-- There are no tables. `fs_params` is all zero (`none`) at first, and what it was after
  `tfs_destroy`. -/
  | uninitialised (fsParams : Option TfsParams)
  /-- The tables have the sizes `allocated`. -/
  | initialised (allocated : TfsParams) (fs : σ)

/-- What can happen to the module. -/
inductive Module.Event (ι κ : Type*)
  /-- `tfs_init`; a null pointer stands for the default parameters. -/
  | init (heap : ι) (paramsPtr : Option TfsParams)
  | call (c : κ)
  | destroy

namespace FileSystem

variable {ι σ κ : Type*} (F : FileSystem ι σ κ) {heap : ι} {paramsPtr : Option TfsParams}
  {m m' : Module σ} {s : σ} {e : Module.Event ι κ}

/-- `tfs_init`: what it answers, and the module it leaves. -/
def tfsInit (m : Module σ) (heap : ι) (paramsPtr : Option TfsParams) :
    Outcome (ℤ × Module σ) :=
  let params := paramsPtr.getD tfsDefaultParams
  match m with
  | .initialised allocated s => .ret (-1, .initialised allocated (F.setParams params s))
  | .uninitialised _ =>
    (F.create heap params).bind fun (ok, s) =>
      .ret (if ok then 0 else -1, .initialised params s)

/-- `tfs_destroy`. On a module without tables it changes nothing in `fs2/`, and frees
`inode_rwl` a second time in `fs/`. -/
def tfsDestroy : Module σ → Option (Module σ)
  | .initialised _ s => some (.uninitialised (some (F.fsParams s)))
  | .uninitialised _ => none

/-- The module after an event, if the call returns. -/
def nextModule (m : Module σ) : Module.Event ι κ → Option (Module σ)
  | .init heap paramsPtr => (F.tfsInit m heap paramsPtr).toOption.map Prod.snd
  | .call c =>
    match m with
    | .initialised allocated s => (F.next s c).map (.initialised allocated)
    | .uninitialised _ => none
  | .destroy => F.tfsDestroy m

/-- `tfs_init` succeeds, or repeats the parameters there are. -/
def InitFits (m : Module σ) (paramsPtr : Option TfsParams) : Prop :=
  match m with
  | .initialised _ s => F.fsParams s = paramsPtr.getD tfsDefaultParams
  | .uninitialised _ => 0 < (paramsPtr.getD tfsDefaultParams).maxInodeCount ∧
      0 < (paramsPtr.getD tfsDefaultParams).maxBlockCount

/-- Every `tfs_init` fits. -/
def EventFits (m : Module σ) : Module.Event ι κ → Prop
  | .init _ paramsPtr => F.InitFits m paramsPtr
  | _ => True

/-- The module before the first `tfs_init`. -/
def Start (m : Module σ) : Prop := m = .uninitialised none

/-- The bounds are the sizes of the tables, and no check lets an index outside a table
pass, or a block that is not in the data area. -/
structure BoundsMatch (allocated : TfsParams) (s : σ) : Prop where
  params : F.fsParams s = allocated
  inodes : ∀ i, F.validInumber s i = true → 0 ≤ i ∧ i < allocated.maxInodeCount
  blocks : ∀ b, F.validBlockNumber s b = true → 0 ≤ b ∧ b < allocated.maxBlockCount ∧
    (b.toNat + 1) * (F.fsParams s).blockSize ≤ allocated.maxBlockCount * allocated.blockSize
  handles : ∀ fh, F.validFileHandle s fh = true → 0 ≤ fh ∧ fh < allocated.maxOpenFilesCount

variable {F}

theorem boundsMatch_of_params {allocated : TfsParams} (h : F.fsParams s = allocated) :
    F.BoundsMatch allocated s := by
  subst h
  refine ⟨rfl, fun i hi => (F.validInumber_iff s i).mp hi, fun b hb => ?_,
    fun fh hfh => (F.validFileHandle_iff s fh).mp hfh⟩
  obtain ⟨hpos, hlt⟩ := (F.validBlockNumber_iff s b).mp hb
  exact ⟨hpos, hlt, Nat.mul_le_mul_right _ (by omega)⟩

/-- A `tfs_init` that fails leaves the module as it was exactly when it fits: on a module
with tables it must repeat their parameters, on one without it must not fail. -/
theorem keeps_iff : (∀ m', F.tfsInit m heap paramsPtr = .ret (-1, m') → m' = m) ↔
    F.InitFits m paramsPtr := by
  cases m with
  | initialised allocated s =>
    constructor
    · intro h
      have hsame := h _ rfl
      injection hsame with _ hs
      rw [InitFits, ← hs, F.fsParams_set]
    · rintro h m' hinit
      obtain ⟨-, rfl⟩ := Prod.mk.inj (Outcome.ret.inj hinit)
      rw [← show F.fsParams s = _ from h, F.setParams_self]
  | uninitialised fsParams =>
    obtain ⟨s, -, heq⟩ := F.create_eq heap (paramsPtr.getD tfsDefaultParams)
    simp only [tfsInit, heq, Outcome.ret_bind, InitFits]
    by_cases hroom : 0 < (paramsPtr.getD tfsDefaultParams).maxInodeCount ∧
        0 < (paramsPtr.getD tfsDefaultParams).maxBlockCount
    · simp [hroom]
    · -- the tables stay
      simp [hroom]

/-- What holds while every `tfs_init` fits: the tables come from a successful `tfs_init`
and calls, and their parameters are in force. -/
def Sound (F : FileSystem ι σ κ) : Module σ → Prop
  | .uninitialised _ => True
  | .initialised allocated s => F.fsParams s = allocated ∧
      Reachable F.next (fun s => ∃ heap params, F.create heap params = .ret (true, s)) s

theorem Sound.next (h : F.Sound m) (hok : F.EventFits m e) (hnext : F.nextModule m e = some m') :
    F.Sound m' := by
  cases e with
  | init heap paramsPtr =>
    obtain ⟨⟨r, m''⟩, hinit, rfl⟩ := Option.map_eq_some_iff.mp hnext
    rw [Outcome.toOption_eq_some] at hinit
    cases m with
    | initialised allocated s =>
      obtain ⟨-, rfl⟩ := Prod.mk.inj (Outcome.ret.inj hinit)
      rw [← show F.fsParams s = _ from hok, F.setParams_self]
      exact h
    | uninitialised fsParams =>
      obtain ⟨s, hparams, heq⟩ := F.create_eq heap (paramsPtr.getD tfsDefaultParams)
      simp only [tfsInit, heq, Outcome.ret_bind] at hinit
      obtain ⟨-, rfl⟩ := Prod.mk.inj (Outcome.ret.inj hinit)
      have hroom : 0 < (paramsPtr.getD tfsDefaultParams).maxInodeCount ∧
          0 < (paramsPtr.getD tfsDefaultParams).maxBlockCount := hok
      rw [decide_eq_true hroom] at heq
      exact ⟨hparams, .init ⟨heap, _, heq⟩⟩
  | call c =>
    cases m with
    | initialised allocated s =>
      obtain ⟨s', hs', rfl⟩ := Option.map_eq_some_iff.mp hnext
      exact ⟨(F.next_params h.2 hs').trans h.1, .step h.2 trivial hs'⟩
    | uninitialised fsParams => cases hnext
  | destroy =>
    cases m with
    | initialised allocated s =>
      obtain rfl := Option.some_inj.mp hnext
      trivial
    | uninitialised fsParams => cases hnext

/-- In every run whose `tfs_init` calls all fit, the bounds are those of the tables. -/
theorem boundsMatch {allocated : TfsParams}
    (h : Reach F.nextModule Start F.EventFits (.initialised allocated s)) :
    F.BoundsMatch allocated s := by
  have hsound : F.Sound (.initialised allocated s) :=
    h.invariant (I := F.Sound) (fun m hm => by rw [show m = .uninitialised none from hm]; trivial)
      fun _ _ _ hm hok hnext => hm.next hok hnext
  exact boundsMatch_of_params hsound.1

end FileSystem

end TfsBroker
