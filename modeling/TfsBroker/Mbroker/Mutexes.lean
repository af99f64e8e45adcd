import TfsBroker.Lib.Wire
import TfsBroker.Mbroker.Steps

/-!
# The mutexes of the boxes

A thread that locks the mutex of a box owns it until it unlocks it, or until the slot is
assigned to a new box. As long as every `delete_box` that owns the mutex of its box finds
the file it is to unlink, each mutex that is held is owned by a thread that is still in the
section of code it protects.

## Main results

* `MutexInv.next` — what every step keeps
* `mutexes_given_back` — a thread that has ended its request owns no mutex
-/

namespace TfsBroker.Mbroker

open Fs2 Runs

variable {m m' : Broker} {x y : Sys} {e : Turn} {p : Pc} {i t : ℕ}

/-! ### Owners -/

/-- The system, with the thread that locked each mutex that is held. -/
structure Owned where
  sys : Sys
  owner : ℕ → Option ℕ

/-- The owner of the mutex of a slot after a step of the thread `t`. -/
def ownerAfter (before after : Bool) (t : ℕ) (owner : Option ℕ) : Option ℕ :=
  if after then if before then owner else some t else none

/-- A step of the system. -/
def Owned.next (g : Owned) (e : Turn) : Option Owned :=
  (g.sys.next e).map fun y =>
    ⟨y, fun i => ownerAfter (g.sys.broker.mbrokerBoxes i).mutex (y.broker.mbrokerBoxes i).mutex
      e.thread (g.owner i)⟩

/-- The broker was just started. -/
def Owned.Initial (g : Owned) : Prop := g.sys.Initial ∧ g.owner = fun _ => none

/-- The file of the box that `delete_box` is about to unlink exists, if the mutex of the box
is its own. -/
def FindsFile (g : Owned) (e : Turn) : Prop :=
  ∀ i, g.sys.pc e.thread = .delete (.locked i) → g.owner i = some e.thread →
    tfsLookup g.sys.broker.tfs (some (g.sys.broker.mbrokerBoxes i).name) rootDirInum ≠ .ret (-1)

/-- The box whose mutex the thread locks next. -/
def Pc.locks : Pc → Option ℕ
  | .delete (.found i) | .publisher (.found i) | .publisher (.checked i _ _)
  | .publisher (.leaving i _) | .subscriber (.found i) | .subscriber (.looping i _ _)
  | .subscriber (.woken i _ _) => some i
  | _ => none

/-- Threads that have ended their requests own no mutex, and a thread that waits for a mutex
waits for one that is still in the section of code the mutex protects. -/
structure GivesBack (g : Owned) : Prop where
  ended : ∀ t, g.sys.pc t = .idle → ∀ i, g.owner i ≠ some t
  waits : ∀ t i, (g.sys.pc t).locks = some i → (g.sys.broker.mbrokerBoxes i).mutex = true →
    ∃ u, g.owner i = some u ∧ u < g.sys.maxSessions ∧ (g.sys.pc u).holds = some i

/-! ### What every step keeps -/

/-- A mutex that is held has an owner, which is in the section of code it protects. -/
structure MutexInv (g : Owned) : Prop where
  held : ∀ i, (g.sys.broker.mbrokerBoxes i).mutex = true ↔ g.owner i ≠ none
  holds : ∀ i t, g.owner i = some t → t < g.sys.maxSessions ∧ (g.sys.pc t).holds = some i

@[simp] theorem wakes_holds {o : Output} {pc : ℕ → Pc} : (o.wakes pc t).holds = (pc t).holds := by
  rcases o.wakes_cases pc t with heq | ⟨i, fd, k, hpc, heq⟩
  · rw [heq]
  · rw [heq, hpc]
    rfl

/-- A step of the system with owners is a step of one thread. -/
theorem Owned.next_eq_some {g g' : Owned} (h : g.next e = some g') : ∃ r,
    step g.sys.broker (g.sys.pc e.thread) e.act = some r ∧ g'.sys.broker = r.broker ∧
    g'.sys.pc e.thread = r.pc ∧
    (∀ t, t ≠ e.thread → (g'.sys.pc t).holds = (g.sys.pc t).holds) ∧
    e.thread < g.sys.maxSessions ∧ g'.sys.maxSessions = g.sys.maxSessions ∧
    ∀ i, g'.owner i = ownerAfter (g.sys.broker.mbrokerBoxes i).mutex
      (r.broker.mbrokerBoxes i).mutex e.thread (g.owner i) := by
  obtain ⟨y, hnext, rfl⟩ := Option.map_eq_some_iff.mp h
  obtain ⟨r, hstep, hbroker, hself, hother, hlt, hmax⟩ := Sys.next_eq_some hnext
  refine ⟨r, hstep, hbroker, hself, fun t ht => ?_, hlt, hmax, fun i => by rw [← hbroker]⟩
  rw [hother t ht, wakes_holds]

/-- The owner of a mutex that is held after a step owned it before, or has just locked it. -/
theorem ownerAfter_eq_some {before after : Bool} {owner : Option ℕ} {u : ℕ} :
    ownerAfter before after t owner = some u ↔
      after = true ∧ (before = true ∧ owner = some u ∨ before = false ∧ t = u) := by
  cases before <;> cases after <;> simp [ownerAfter]

/-- `delete_box` unlinks the file if it finds it. -/
theorem unlink_eq_zero {tfs : State} {n : CString} {ret : ℤ} (hs : Sound m.tfs.toFs)
    (hfound : tfsLookup m.tfs (some n) rootDirInum ≠ .ret (-1))
    (hunlink : tfsUnlink m.tfs (some n) = .ret (ret, tfs)) : ret = 0 := by
  rcases tfsUnlink_cases hs.dir hunlink with ⟨hmiss, -, -⟩ | ⟨-, -, -, -, -, -, -, -, -, hret, -⟩
  · exact absurd (by rw [tfsLookup_eq_ret hs.dir.toRootOk, hmiss]) hfound
  · exact hret

/-- `delete_box` ends with its box locked if it does not find the file. -/
theorem delete_fails {a : Act} {r : Step} (h : step m (.delete (.locked i)) a = some r)
    (hs : Sound m.tfs.toFs)
    (hmiss : tfsLookup m.tfs (some (m.mbrokerBoxes i).name) rootDirInum = .ret (-1)) :
    r.pc = .idle ∧ r.broker.mbrokerBoxes = m.mbrokerBoxes := by
  cases a with
  | accept | receive | send => cases h
  | go =>
    obtain ⟨⟨ret, tfs⟩, hunlink, rfl⟩ := Option.map_eq_some_iff.mp h
    rw [Outcome.toOption_eq_some] at hunlink
    rw [tfsLookup_eq_ret hs.dir.toRootOk] at hmiss
    rcases tfsUnlink_cases hs.dir hunlink with ⟨-, rfl, -⟩ | ⟨k, i, hk, -⟩
    · exact ⟨rfl, rfl⟩
    · rw [hk] at hmiss
      cases Outcome.ret.inj hmiss

/-- A thread that has a mutex after its step, and did not have it before unless it was in the
section of code it protects, is in that section. -/
theorem BoxStep.holds_after {r : Step} (h : BoxStep m p r) (hs : Sound m.tfs.toFs)
    (hmutex : (r.broker.mbrokerBoxes i).mutex = true)
    (hbefore : (m.mbrokerBoxes i).mutex = true → p.holds = some i ∧
      (p = .delete (.locked i) →
        tfsLookup m.tfs (some (m.mbrokerBoxes i).name) rootDirInum ≠ .ret (-1))) :
    r.pc.holds = some i := by
  cases h with
  | lock j hp hr hfree hm =>
    by_cases hij : i = j
    · rw [hij, hr]
    · rw [hm, Function.update_of_ne hij] at hmutex
      cases hp.symm.trans (hbefore hmutex).1
  | unlock j hp hr hm =>
    by_cases hij : i = j
    · rw [hm, hij, Function.update_self] at hmutex
      cases hmutex
    · rw [hm, Function.update_of_ne hij] at hmutex
      exact absurd (Option.some_inj.mp ((hbefore hmutex).1.symm.trans hp)) hij
  | edit j box hp hr hsame hm =>
    by_cases hij : i = j
    · rw [hij, hr]
    · rw [hm, Function.update_of_ne hij] at hmutex
      exact absurd (Option.some_inj.mp ((hbefore hmutex).1.symm.trans hp)) hij
  | enter n box hp hr hbox hm =>
    rw [hm] at hmutex
    rcases enterBox_cases m.mbrokerBoxes box i with hold | ⟨-, hnew⟩
    · rw [hold] at hmutex
      rw [hp] at hbefore
      cases (hbefore hmutex).1
    · rw [hnew, (boxInitialize_eq_some hbox).2] at hmutex
      cases hmutex
  | fail j tfs ret hp hr hunlink hret hm =>
    rw [hm] at hmutex
    obtain ⟨hholds, hfound⟩ := hbefore hmutex
    rw [hp] at hholds
    obtain rfl := Option.some_inj.mp hholds
    exact absurd (unlink_eq_zero hs (hfound hp) hunlink) hret
  | keep hr hm =>
    rw [hm] at hmutex
    rw [hr]
    exact (hbefore hmutex).1

variable {g g' : Owned}

/-- Every step that finds the file it is to unlink keeps the owners of the mutexes in their
sections. -/
theorem MutexInv.next (h : MutexInv g) (hs : Sound g.sys.broker.tfs.toFs) (hok : FindsFile g e)
    (hnext : g.next e = some g') : MutexInv g' := by
  obtain ⟨r, hstep, hbroker, hself, hother, hlt, hmax, howner⟩ := Owned.next_eq_some hnext
  constructor
  · intro i
    rw [hbroker, howner i, Option.ne_none_iff_exists']
    simp only [ownerAfter_eq_some]
    refine ⟨fun hmutex => ?_, fun ⟨_, hmutex, _⟩ => hmutex⟩
    cases hbefore : (g.sys.broker.mbrokerBoxes i).mutex with
    | false => exact ⟨_, hmutex, .inr ⟨rfl, rfl⟩⟩
    | true =>
      obtain ⟨t, ht⟩ := Option.ne_none_iff_exists'.mp ((h.held i).mp hbefore)
      exact ⟨t, hmutex, .inl ⟨rfl, ht⟩⟩
  · intro i t ht
    rw [howner i, ownerAfter_eq_some] at ht
    obtain ⟨hmutex, howned⟩ := ht
    rw [hmax]
    by_cases hte : t = e.thread
    · subst hte
      refine ⟨hlt, ?_⟩
      rw [hself]
      refine (step_boxes hstep).holds_after hs hmutex fun hbefore => ?_
      have hold : g.owner i = some e.thread := by
        rcases howned with ⟨-, hold⟩ | ⟨hfree, -⟩
        · exact hold
        · cases hbefore.symm.trans hfree
      exact ⟨(h.holds i _ hold).2, fun hp => hok i hp hold⟩
    · rw [hother t hte]
      rcases howned with ⟨-, hold⟩ | ⟨-, rfl⟩
      · exact h.holds i t hold
      · exact absurd rfl hte

theorem MutexInv.givesBack (h : MutexInv g) : GivesBack g where
  ended := by
    intro t ht i howner
    have hholds := (h.holds i t howner).2
    rw [ht] at hholds
    cases hholds
  waits := by
    intro t i _ hmutex
    obtain ⟨u, hu⟩ := Option.ne_none_iff_exists'.mp ((h.held i).mp hmutex)
    exact ⟨u, hu, h.holds i u hu⟩

/-! ### Whole runs -/

/-- The owners are nothing but a record: the system takes the steps it takes without them. -/
theorem Owned.reachable {ok : Owned → Turn → Prop} (h : Reach Owned.next Owned.Initial ok g) :
    Reachable Sys.next Sys.Initial g.sys := by
  induction h with
  | init hg => exact .init hg.1
  | step _ _ hnext ih =>
    obtain ⟨y, hy, rfl⟩ := Option.map_eq_some_iff.mp hnext
    exact .step ih trivial hy

theorem mutexInv_of_reach (h : Reach Owned.next Owned.Initial FindsFile g) : MutexInv g := by
  induction h with
  | @init g hg =>
    obtain ⟨⟨⟨boxes, heap, hinit⟩, -⟩, howner⟩ := hg
    rw [initMbroker_eq] at hinit
    constructor
    · intro i
      rw [howner, ← Option.some_inj.mp hinit]
      simp [initialBroker]
    · intro i t ht
      rw [howner] at ht
      cases ht
  | step hreach hok hnext ih => exact ih.next (Sys.sound (Owned.reachable hreach)) hok hnext

/-- When every `delete_box` that owns the mutex of its box finds the file it is to unlink, no
thread ends a request with the mutex of a box, and whoever waits for such a mutex waits for a
thread that is still in the section of code it protects. The first `delete_box` that does not
find its file ends with the mutex. -/
theorem mutexes_given_back (h : Reach Owned.next Owned.Initial FindsFile g) :
    GivesBack g ∧ ∀ e g', ¬ FindsFile g e → g.next e = some g' → ¬ GivesBack g' := by
  have hinv := mutexInv_of_reach h
  refine ⟨hinv.givesBack, fun e g' hmiss hnext hback => ?_⟩
  simp only [FindsFile, not_forall, ne_eq, not_not] at hmiss
  obtain ⟨i, hp, howner, hlookup⟩ := hmiss
  obtain ⟨r, hstep, -, hself, -, -, -, hafter⟩ := Owned.next_eq_some hnext
  rw [hp] at hstep
  obtain ⟨hidle, hboxes⟩ := delete_fails hstep (Sys.sound (Owned.reachable h)) hlookup
  have hmutex : (g.sys.broker.mbrokerBoxes i).mutex = true := by
    rw [hinv.held, howner]
    simp
  refine hback.ended e.thread (hself.trans hidle) i ?_
  rw [hafter, hboxes, ownerAfter_eq_some]
  exact ⟨hmutex, .inl ⟨hmutex, howner⟩⟩

/-- A broker with four worker threads. -/
private def fourThreads : Owned := ⟨⟨4, by decide, .fresh, fun _ => .idle⟩, fun _ => none⟩

private theorem initial_fourThreads : fourThreads.Initial := ⟨⟨⟨_, _, initMbroker_eq _ _⟩, rfl⟩, rfl⟩

/-- The name of the box. -/
private def boxB : CString := Wire.ofArray [98]

/-- The test of `FindsFile`. -/
private def findsFileCheck (g : Owned) (e : Turn) : Bool :=
  match g.sys.pc e.thread with
  | .delete (.locked i) =>
    tfsLookup g.sys.broker.tfs (some (g.sys.broker.mbrokerBoxes i).name) rootDirInum != .ret (-1)
  | _ => true

private theorem findsFile_of_check (h : findsFileCheck g e = true) : FindsFile g e := by
  intro i hp _
  simpa [findsFileCheck, hp] using h

/-- A box is created and deleted while a publisher waits for its mutex. -/
theorem mutexes_given_back_waiting : ∃ g, Reach Owned.next Owned.Initial FindsFile g ∧
    g.sys.pc 1 = .publisher (.found 0) ∧ (g.sys.broker.mbrokerBoxes 0).mutex = true ∧
    GivesBack g := by
  obtain ⟨g, hreach, hg⟩ := exists_reach_of_runList Owned.next FindsFile findsFileCheck
    (fun _ _ => findsFile_of_check)
    [⟨0, .accept 3 boxB⟩, ⟨0, .go⟩, ⟨0, .go⟩, ⟨0, .go⟩, ⟨0, .go⟩, ⟨0, .accept 5 boxB⟩,
      ⟨1, .accept 1 boxB⟩, ⟨0, .go⟩, ⟨0, .go⟩]
    (fun g => decide (g.sys.pc 1 = .publisher (.found 0)) && (g.sys.broker.mbrokerBoxes 0).mutex)
    initial_fourThreads (by decide +kernel)
  simp only [Bool.and_eq_true, decide_eq_true_eq] at hg
  exact ⟨g, hreach, hg.1, hg.2, (mutexes_given_back hreach).1⟩

/-- Two requests to delete one box: the second locks the mutex, finds no file, and ends with
the mutex, for which a publisher waits. -/
theorem second_delete_keeps_mutex :
    ¬ ∀ g, Reachable Owned.next Owned.Initial g → GivesBack g := by
  intro hall
  obtain ⟨g, hreach, hg⟩ := exists_of_runList Owned.next
    [⟨0, .accept 3 boxB⟩, ⟨0, .go⟩, ⟨0, .go⟩, ⟨0, .go⟩, ⟨0, .go⟩, ⟨0, .accept 5 boxB⟩,
      ⟨1, .accept 5 boxB⟩, ⟨2, .accept 1 boxB⟩, ⟨0, .go⟩, ⟨0, .go⟩, ⟨0, .go⟩, ⟨0, .go⟩,
      ⟨1, .go⟩, ⟨1, .go⟩]
    (fun g => decide (g.sys.pc 1 = .idle) && decide (g.owner 0 = some 1) &&
      decide (g.sys.pc 2 = .publisher (.found 0)))
    initial_fourThreads (by decide +kernel)
  simp only [Bool.and_eq_true, decide_eq_true_eq] at hg
  exact (hall g hreach).ended 1 hg.1.1 0 hg.1.2

end TfsBroker.Mbroker
