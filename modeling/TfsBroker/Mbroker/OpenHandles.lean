import TfsBroker.Mbroker.SessionHandles
import Mathlib.Data.Finset.Card

/-!
# The open handles are those of the threads

Whatever the worker threads do, and whatever becomes of their boxes, the open handles of the
file system are those that the threads have: no session ends without closing its handle, and no
two threads have one handle. With no more worker threads than entries in the open file table a
session is never refused for want of an entry.

## Main results

* `HandlesInv.next` — what every step keeps
* `handles_accounted` — every state
-/

namespace TfsBroker.Mbroker

open Fs2 Runs

variable {x y : Sys} {e : Turn} {p : Pc} {r : Step} {i k t u fh : ℕ} {fd : ℤ}

/-- The handles of the threads are open and belong to one thread each, and no other handle is
open. -/
structure HandlesInv (x : Sys) : Prop where
  stored : Stored x.broker.tfs.toFs
  params : x.broker.tfs.fsParams = mbrokerParams
  idle : ∀ t, x.maxSessions ≤ t → x.pc t = .idle
  opened : ∀ t fd, (x.pc t).opens = some fd → OpenHandle x.broker.tfs fd
  alone : ∀ t u fd, (x.pc t).opens = some fd → (x.pc u).opens = some fd → t = u
  owned : ∀ fd, OpenHandle x.broker.tfs fd → ∃ t, (x.pc t).opens = some fd

/-- A broadcast leaves the handles to their threads. -/
theorem opens_wakes (o : Output) (pc : ℕ → Pc) (t : ℕ) :
    (o.wakes pc t).opens = (pc t).opens := by
  rcases o.wakes_cases pc t with heq | ⟨i, fd, n, hpc, heq⟩
  · rw [heq]
  · rw [heq, hpc]
    rfl

/-- Every step of every thread keeps the handles accounted for. -/
theorem HandlesInv.next (h : HandlesInv x) (hnext : x.next e = some y) : HandlesInv y := by
  obtain ⟨r, hstep, hbroker, hself, hwakes, hlt, hmax⟩ := Sys.next_eq_some hnext
  have hleaves := step_leaves hstep h.stored
  have hothers : ∀ t ≠ e.thread, (y.pc t).opens = (x.pc t).opens := by
    intro t ht
    rw [hwakes t ht, opens_wakes]
  -- a handle of another thread was open, so it is not a new one
  have hnot : ∀ t ≠ e.thread, ∀ fd, (x.pc t).opens = some fd → r.pc.opens ≠ some fd := by
    intro t ht fd hfd hr
    rcases (step_opens hstep h.stored (h.opened _) hr).2 with hold | hclosed
    · exact ht (h.alone _ _ _ hfd hold)
    · exact hclosed (h.opened t fd hfd)
  constructor
  · rw [hbroker]
    exact hleaves.stored
  · rw [hbroker]
    exact hleaves.params.trans h.params
  · intro t ht
    rw [hmax] at ht
    have hne : t ≠ e.thread := fun heq => (heq ▸ ht).not_gt hlt
    rw [hwakes t hne, wakes_eq_idle]
    exact h.idle t ht
  · intro t fd ht
    rw [hbroker]
    by_cases hte : t = e.thread
    · rw [hte, hself] at ht
      exact (step_opens hstep h.stored (h.opened _) ht).1
    · rw [hothers t hte] at ht
      exact (h.opened t fd ht).of_leaves hleaves fun hown => hte (h.alone _ _ _ ht hown)
  · intro t u fd ht hu
    by_cases hte : t = e.thread <;> by_cases hue : u = e.thread
    · rw [hte, hue]
    · rw [hte, hself] at ht
      rw [hothers u hue] at hu
      exact absurd ht (hnot u hue fd hu)
    · rw [hue, hself] at hu
      rw [hothers t hte] at ht
      exact absurd hu (hnot t hte fd ht)
    · rw [hothers t hte] at ht
      rw [hothers u hue] at hu
      exact h.alone _ _ _ ht hu
  · intro fd hfd
    rw [hbroker] at hfd
    rcases step_openHandle hstep h.stored hfd with hown | ⟨hold, hne⟩
    · exact ⟨e.thread, by rw [hself, hown]⟩
    · obtain ⟨t, ht⟩ := h.owned fd hold
      have hte : t ≠ e.thread := by
        rintro rfl
        exact hne ht
      exact ⟨t, by rw [hothers t hte, ht]⟩

theorem Sys.Initial.handlesInv (h : x.Initial) : HandlesInv x := by
  obtain ⟨⟨boxes, heap, hinit⟩, hpc⟩ := h
  rw [initMbroker_eq] at hinit
  have hbroker := Option.some_inj.mp hinit
  constructor
  · rw [← hbroker]
    exact Initialised.stored ⟨heap, mbrokerParams, tfsInit_eq_ret.mpr ⟨by decide, by decide, rfl⟩⟩
  · rw [← hbroker]
    rfl
  · simp [hpc]
  · simp [hpc, Pc.opens, Pc.handle]
  · simp [hpc, Pc.opens, Pc.handle]
  · rintro fd ⟨fh, -, -, htaken⟩
    rw [← hbroker] at htaken
    cases htaken

theorem handlesInv_of_reach {ok : Sys → Turn → Prop} (h : Reach Sys.next Sys.Initial ok x) :
    HandlesInv x :=
  h.invariant (fun _ hx => hx.handlesInv) fun _ _ _ hx _ hnext => hx.next hnext

/-! ### Room in the open file table -/

/-- The thread is about to open the file of the box in slot `i`. -/
def Pc.opensFile : Pc → Option ℕ
  | .publisher (.admitted i) | .subscriber (.locked i) => some i
  | _ => none

theorem HandlesInv.maxOpenFiles_eq (h : HandlesInv x) :
    x.broker.tfs.maxOpenFiles = tfsDefaultParams.maxOpenFilesCount := by
  rw [Fs2.State.maxOpenFiles, h.params]
  rfl

/-- A thread without a handle leaves an entry to the others. -/
theorem HandlesInv.room (h : HandlesInv x)
    (hmax : x.maxSessions ≤ tfsDefaultParams.maxOpenFilesCount) (ht : t < x.maxSessions)
    (hnone : (x.pc t).opens = none) :
    ∃ fh < tfsDefaultParams.maxOpenFilesCount, x.broker.tfs.freeOpenFileEntries fh = .FREE := by
  by_contra hfull
  have hentry : ∀ fh : ℕ, fh < tfsDefaultParams.maxOpenFilesCount →
      ∃ u < x.maxSessions, u ≠ t ∧ (x.pc u).opens = some (fh : ℤ) := by
    intro fh hfh
    have htaken : x.broker.tfs.freeOpenFileEntries fh = .TAKEN := by
      by_contra hne
      exact hfull ⟨fh, hfh, AllocationState.eq_free_iff.mpr hne⟩
    obtain ⟨u, hu⟩ := h.owned fh ⟨fh, rfl, h.maxOpenFiles_eq ▸ hfh, htaken⟩
    refine ⟨u, ?_, ?_, hu⟩
    · by_contra hge
      rw [h.idle u (Nat.le_of_not_lt hge)] at hu
      cases hu
    · rintro rfl
      cases hnone.symm.trans hu
  choose! owner howner using hentry
  -- two entries of one thread
  have hcard : ((Finset.range x.maxSessions).erase t).card <
      (Finset.range tfsDefaultParams.maxOpenFilesCount).card := by
    rw [Finset.card_erase_of_mem (Finset.mem_range.mpr ht), Finset.card_range, Finset.card_range]
    omega
  obtain ⟨fh, hfh, fh', hfh', hne, heq⟩ :=
    Finset.exists_ne_map_eq_of_card_lt_of_maps_to hcard (f := owner) fun fh hfh => by
      obtain ⟨hlt, hut, -⟩ := howner fh (Finset.mem_range.mp hfh)
      exact Finset.mem_erase.mpr ⟨hut, Finset.mem_range.mpr hlt⟩
  have hown := (howner fh (Finset.mem_range.mp hfh)).2.2
  have hown' := (howner fh' (Finset.mem_range.mp hfh')).2.2
  rw [heq] at hown
  exact hne (by exact_mod_cast Option.some_inj.mp (hown.symm.trans hown'))

/-- A thread that opens a file that exists is given a handle. -/
theorem HandlesInv.opens (h : HandlesInv x)
    (hmax : x.maxSessions ≤ tfsDefaultParams.maxOpenFilesCount) (ht : t < x.maxSessions)
    (hp : (x.pc t).opensFile = some i) (hfile : tfsLookup x.broker.tfs
      (some (x.broker.mbrokerBoxes i).name) rootDirInum = .ret (k : ℕ))
    (hstep : step x.broker (x.pc t) .go = some r) : ∃ fd, r.pc.handle = some fd := by
  -- `tfs_open` finds the file, and a free entry
  have hopen : ∀ mode, hasFlag mode tfsOTrunc = false → ∃ (fh : ℕ) (tfs : State),
      tfsOpen x.broker.tfs (some (x.broker.mbrokerBoxes i).name) mode = .ret ((fh : ℤ), tfs) := by
    intro mode htrunc
    have hnone : (x.pc t).opens = none := by
      cases hpc : x.pc t with
      | publisher q => cases q <;> first | rfl | (rw [hpc] at hp; cases hp)
      | subscriber q => cases q <;> first | rfl | (rw [hpc] at hp; cases hp)
      | _ =>
        rw [hpc] at hp
        cases hp
    obtain ⟨fh, hlt, hfree⟩ := h.room hmax ht hnone
    rw [h.stored.toSound.tfsOpen_eq hfile htrunc, addToOpenFileTable]
    cases hfirst : firstFree x.broker.tfs.freeOpenFileEntries x.broker.tfs.maxOpenFiles with
    | none =>
      have htaken := firstFree_eq_none.mp hfirst fh (h.maxOpenFiles_eq ▸ hlt)
      cases hfree.symm.trans htaken
    | some fh' => exact ⟨fh', _, rfl⟩
  cases hpc : x.pc t with
  | publisher q =>
    rw [hpc] at hp hstep
    cases q with
    | admitted j =>
      obtain rfl := Option.some_inj.mp hp
      obtain ⟨fh, tfs, hcall⟩ := hopen tfsOAppend (by decide)
      obtain ⟨⟨fd, tfs'⟩, hcall', rfl⟩ := Option.map_eq_some_iff.mp hstep
      rw [hcall] at hcall'
      obtain ⟨rfl, -⟩ := Prod.mk.inj (Option.some_inj.mp hcall')
      exact ⟨fh, by dsimp only; rw [if_neg (Fs.natCast_ne_neg_one fh)]; rfl⟩
    | _ => cases hp
  | subscriber q =>
    rw [hpc] at hp hstep
    cases q with
    | locked j =>
      obtain rfl := Option.some_inj.mp hp
      obtain ⟨fh, tfs, hcall⟩ := hopen 0 (by decide)
      obtain ⟨⟨fd, tfs'⟩, hcall', rfl⟩ := Option.map_eq_some_iff.mp hstep
      rw [hcall] at hcall'
      obtain ⟨rfl, -⟩ := Prod.mk.inj (Option.some_inj.mp hcall')
      exact ⟨fh, by dsimp only; rw [if_neg (Fs.natCast_ne_neg_one fh)]; rfl⟩
    | _ => cases hp
  | _ =>
    rw [hpc] at hp
    cases hp

/-- In every state that the worker threads reach, an entry of the open file table is taken if and
only if exactly one thread has its handle. With at most as many threads as entries, a session
that opens a file which exists is given a handle. -/
theorem handles_accounted (h : Reachable Sys.next Sys.Initial x) :
    (∀ fh < tfsDefaultParams.maxOpenFilesCount,
      x.broker.tfs.freeOpenFileEntries fh = .TAKEN ↔ ∃! t, (x.pc t).opens = some (fh : ℤ)) ∧
    (x.maxSessions ≤ tfsDefaultParams.maxOpenFilesCount → ∀ t < x.maxSessions, ∀ i k r,
      (x.pc t).opensFile = some i → tfsLookup x.broker.tfs
        (some (x.broker.mbrokerBoxes i).name) rootDirInum = .ret (k : ℕ) →
      step x.broker (x.pc t) .go = some r → ∃ fd, r.pc.handle = some fd) := by
  have hinv := handlesInv_of_reach h
  refine ⟨fun fh hlt => ?_,
    fun hmax t ht i k r hp hfile hstep => hinv.opens hmax ht hp hfile hstep⟩
  constructor
  · intro htaken
    obtain ⟨t, ht⟩ := hinv.owned fh ⟨fh, rfl, hinv.maxOpenFiles_eq ▸ hlt, htaken⟩
    exact ⟨t, ht, fun u hu => hinv.alone u t fh hu ht⟩
  · rintro ⟨t, ht, -⟩
    obtain ⟨fh', hfh', -, htaken⟩ := hinv.opened t fh ht
    obtain rfl : fh = fh' := by exact_mod_cast hfh'
    exact htaken

/-- A broker with two worker threads. -/
private def twoHandlers : Sys := ⟨2, by decide, .fresh, fun _ => .idle⟩

private theorem initial_twoHandlers : twoHandlers.Initial := ⟨⟨_, _, initMbroker_eq _ _⟩, rfl⟩

/-- The name of a box. -/
private def handledBox : CString := Wire.ofArray [102]

/-- A publisher that was admitted to a box is given a handle. -/
theorem handles_accounted_admitted : ∃ x, Reachable Sys.next Sys.Initial x ∧
    x.pc 1 = .publisher (.admitted 0) ∧
    ∀ r, step x.broker (x.pc 1) .go = some r → ∃ fd, r.pc.handle = some fd := by
  obtain ⟨x, hreach, hx⟩ := exists_of_runList Sys.next
    [⟨0, .accept 3 handledBox⟩, ⟨0, .go⟩, ⟨0, .go⟩, ⟨0, .go⟩, ⟨0, .go⟩,
      ⟨1, .accept 1 handledBox⟩, ⟨1, .go⟩, ⟨1, .go⟩]
    (fun x => decide (x.pc 1 = .publisher (.admitted 0)) && decide (x.maxSessions = 2) &&
      decide (tfsLookup x.broker.tfs (some (x.broker.mbrokerBoxes 0).name) rootDirInum = .ret 1))
    initial_twoHandlers (by decide +kernel)
  simp only [Bool.and_eq_true, decide_eq_true_eq] at hx
  obtain ⟨⟨hpc, hmax⟩, hfile⟩ := hx
  refine ⟨x, hreach, hpc, fun r hstep => ?_⟩
  exact (handles_accounted hreach).2 (by rw [hmax]; decide) 1 (by omega) 0 1 r (by rw [hpc]; rfl)
    hfile hstep

end TfsBroker.Mbroker
