import TfsBroker.Lib.Counting
import TfsBroker.Mbroker.Mutexes
import TfsBroker.Mbroker.UniqueNames

/-!
# The counters of a box

A session is registered on a box from the step that increments the counter of the box to the
one that decrements it. The counters are right as long as no slot is assigned to a new box
while a thread has the mutex of the slot, and no session decrements a counter of a slot that
was assigned to a new box after it registered.

## Main results

* `step_counts` — what a step does to the counters
* `CountInv.next` — what every step keeps
* `counters_right` — every state
-/

namespace TfsBroker.Mbroker

open Fs2 Runs Counting

variable {m m' : Broker} {x y : Sys} {e : Turn} {p : Pc} {a : Act} {r : Step} {i t u : ℕ}

/-! ### Registered sessions -/

/-- The slot of the box on which the thread is registered as a publisher. -/
def Pc.publishes : Pc → Option ℕ
  | .publisher (.counted i _) | .publisher (.waiting i _) | .publisher (.received i _ _)
  | .publisher (.checked i _ _) | .publisher (.writing i _ _) | .publisher (.failed i _)
  | .publisher (.written i _ _) | .publisher (.sized i _) | .publisher (.unlocked i _)
  | .publisher (.leaving i _) | .publisher (.lockedToLeave i _) => some i
  | _ => none

/-- The slot of the box on which the thread is registered as a subscriber. -/
def Pc.subscribes : Pc → Option ℕ
  | .subscriber (.counted i _) | .subscriber (.looping i _ _) | .subscriber (.looking i _ _)
  | .subscriber (.asleep i _ _) | .subscriber (.woken i _ _) | .subscriber (.reading i _ _)
  | .subscriber (.read i _ _ _ _) | .subscriber (.sending i _ _ _) | .subscriber (.sent i _ _)
  | .subscriber (.leaving i _) => some i
  | _ => none

/-- The slot whose counter the thread increments next. -/
def Pc.registers : Pc → Option ℕ
  | .publisher (.opened i _) | .subscriber (.opened i _) => some i
  | _ => none

/-- The slot whose counter the thread decrements next. -/
def Pc.leaves : Pc → Option ℕ
  | .publisher (.lockedToLeave i _) | .subscriber (.leaving i _) => some i
  | _ => none

/-- The thread assigns a box to a slot next. -/
def Pc.enters : Pc → Bool
  | .create _ .closed => true
  | _ => false

/-- The slot of the box to which the thread was admitted as a publisher, without being
registered yet. -/
def Pc.admits : Pc → Option ℕ
  | .publisher (.admitted i) | .publisher (.opened i _) => some i
  | _ => none

/-- The box of the session in a handler of publishers. -/
def PublisherPc.box : PublisherPc → Option ℕ
  | found i | locked i | admitted i | refused i | opened i _ | counted i _ | waiting i _
  | received i _ _ | checked i _ _ | writing i _ _ | failed i _ | written i _ _ | sized i _
  | unlocked i _ | leaving i _ | lockedToLeave i _ | uncounted i _ => some i
  | left _ => none

/-- The box of the session in a handler of subscribers. -/
def SubscriberPc.box : SubscriberPc → Option ℕ
  | found i | locked i | refused i | opened i _ | counted i _ | looping i _ _ | looking i _ _
  | asleep i _ _ | woken i _ _ | reading i _ _ | read i _ _ _ _ | sending i _ _ _ | sent i _ _
  | leaving i _ | uncounted i _ | left i => some i

/-- The slot that the session of the thread points to. -/
def Pc.box : Pc → Option ℕ
  | publisher p => p.box
  | subscriber p => p.box
  | idle | create _ _ | delete _ => none

/-- The system, with the number of boxes that each slot was assigned, and for each session
the number of the box it registered on. -/
structure Dated where
  sys : Sys
  made : ℕ → ℕ
  since : ℕ → ℕ

/-- A step of the system. -/
def Dated.next (g : Dated) (e : Turn) : Option Dated :=
  (g.sys.next e).map fun y => {
    sys := y
    made := fun i =>
      if (g.sys.pc e.thread).enters ∧ freeSlot g.sys.broker.mbrokerBoxes = some i then g.made i + 1
      else g.made i
    since := fun t =>
      if t = e.thread then ((g.sys.pc t).registers.map g.made).getD (g.since t) else g.since t }

/-- The broker was just started. -/
def Dated.Initial (g : Dated) : Prop := g.sys.Initial ∧ g.made = fun _ => 0

/-- The number of sessions registered on the box in slot `i`, in the given role. -/
def Dated.registered (g : Dated) (role : Pc → Option ℕ) (i : ℕ) : ℕ :=
  countOf (Finset.range g.sys.maxSessions) fun t =>
    role (g.sys.pc t) = some i ∧ g.since t = g.made i

/-- The number of publishers registered on the box in slot `i`. -/
def Dated.publishers (g : Dated) (i : ℕ) : ℕ := g.registered Pc.publishes i

/-- The number of subscribers registered on the box in slot `i`. -/
def Dated.subscribers (g : Dated) (i : ℕ) : ℕ := g.registered Pc.subscribes i

/-- Every box in use has at most one publisher, and its counters are the numbers of the
sessions registered on it. -/
structure CountsRight (g : Dated) : Prop where
  single : ∀ i < boxCountMax, (g.sys.broker.mbrokerBoxes i).allocState = .USED →
    g.publishers i ≤ 1
  publishers : ∀ i < boxCountMax, (g.sys.broker.mbrokerBoxes i).allocState = .USED →
    (g.sys.broker.mbrokerBoxes i).nPublishers = g.publishers i
  subscribers : ∀ i < boxCountMax, (g.sys.broker.mbrokerBoxes i).allocState = .USED →
    (g.sys.broker.mbrokerBoxes i).nSubscribers = g.subscribers i

/-- The counter that the thread decrements next is positive. -/
structure CounterPositive (g : Dated) (e : Turn) : Prop where
  publisher : ∀ i fd, g.sys.pc e.thread = .publisher (.lockedToLeave i fd) →
    0 < (g.sys.broker.mbrokerBoxes i).nPublishers
  subscriber : ∀ i fd, g.sys.pc e.thread = .subscriber (.leaving i fd) →
    0 < (g.sys.broker.mbrokerBoxes i).nSubscribers

/-- A slot is assigned to a new box only while no thread has its mutex, and a session
decrements a counter only if its slot still has the box it registered on. -/
structure Orderly (g : Dated) (e : Turn) : Prop where
  assigns : (g.sys.pc e.thread).enters = true → ∀ i, freeSlot g.sys.broker.mbrokerBoxes = some i →
    ∀ t < g.sys.maxSessions, (g.sys.pc t).holds ≠ some i
  leaves : ∀ i, (g.sys.pc e.thread).leaves = some i → g.since e.thread = g.made i

/-! ### What a step does to the counters -/

/-- The same counters in all slots. -/
def SameCounts (m m' : Broker) : Prop :=
  ∀ i, (m'.mbrokerBoxes i).nPublishers = (m.mbrokerBoxes i).nPublishers ∧
    (m'.mbrokerBoxes i).nSubscribers = (m.mbrokerBoxes i).nSubscribers

/-- What a step does to the counters, and to the registration of the thread. -/
inductive CountStep (m : Broker) (p : Pc) (r : Step) : Prop
  | enter (boxName : CString) (box : Box) (hp : p = .create boxName .closed)
      (hr : r.pc = .create boxName .entered) (hbox : boxInitialize boxName = some box)
      (hm : r.broker.mbrokerBoxes = enterBox m.mbrokerBoxes box)
  | publisherIn (i : ℕ) (fd : ℤ) (hp : p = .publisher (.opened i fd))
      (hr : r.pc = .publisher (.counted i fd))
      (hm : r.broker.mbrokerBoxes = Function.update m.mbrokerBoxes i { m.mbrokerBoxes i with
        nPublishers := ((m.mbrokerBoxes i).nPublishers + 1) % sizeRange })
  | publisherOut (i : ℕ) (fd : ℤ) (hp : p = .publisher (.lockedToLeave i fd))
      (hr : r.pc = .publisher (.uncounted i fd))
      (hm : r.broker.mbrokerBoxes = Function.update m.mbrokerBoxes i { m.mbrokerBoxes i with
        nPublishers := subSize (m.mbrokerBoxes i).nPublishers 1 })
  | subscriberIn (i : ℕ) (fd : ℤ) (hp : p = .subscriber (.opened i fd))
      (hr : r.pc = .subscriber (.counted i fd))
      (hm : r.broker.mbrokerBoxes = Function.update m.mbrokerBoxes i { m.mbrokerBoxes i with
        nSubscribers := ((m.mbrokerBoxes i).nSubscribers + 1) % sizeRange })
  | subscriberOut (i : ℕ) (fd : ℤ) (hp : p = .subscriber (.leaving i fd))
      (hr : r.pc = .subscriber (.uncounted i fd))
      (hm : r.broker.mbrokerBoxes = Function.update m.mbrokerBoxes i { m.mbrokerBoxes i with
        nSubscribers := subSize (m.mbrokerBoxes i).nSubscribers 1 })
  | keep (hm : SameCounts m r.broker) (henters : p.enters = false) (hregisters : p.registers = none)
      (hpublishes : r.pc.publishes = p.publishes) (hsubscribes : r.pc.subscribes = p.subscribes)
      (hadmits : ∀ i, r.pc.admits = some i →
        p.admits = some i ∨ p = .publisher (.locked i) ∧ (m.mbrokerBoxes i).nPublishers ≠ 1)

theorem SameCounts.of_boxes (h : m'.mbrokerBoxes = m.mbrokerBoxes) : SameCounts m m' := by
  intro i
  rw [h]
  exact ⟨rfl, rfl⟩

/-- An assignment to a box that leaves its counters alone. -/
theorem SameCounts.of_edit {box : Box} (h : m'.mbrokerBoxes = Function.update m.mbrokerBoxes i box)
    (hpublishers : box.nPublishers = (m.mbrokerBoxes i).nPublishers)
    (hsubscribers : box.nSubscribers = (m.mbrokerBoxes i).nSubscribers) : SameCounts m m' := by
  intro j
  rw [h]
  by_cases hj : j = i
  · subst hj
    simpa using ⟨hpublishers, hsubscribers⟩
  · simp [Function.update_of_ne hj]

namespace CountStep

/-- A step that leaves the table and the registration of the thread alone. -/
theorem of_boxes (hm : r.broker.mbrokerBoxes = m.mbrokerBoxes) (henters : p.enters = false)
    (hregisters : p.registers = none) (hpublishes : r.pc.publishes = p.publishes)
    (hsubscribes : r.pc.subscribes = p.subscribes) (hadmits : r.pc.admits = none) :
    CountStep m p r :=
  .keep (.of_boxes hm) henters hregisters hpublishes hsubscribes (by simp [hadmits])

/-- A step that assigns to another field of a box. -/
theorem of_edit {box : Box} (hm : r.broker = m.setBox i box)
    (hpublishers : box.nPublishers = (m.mbrokerBoxes i).nPublishers)
    (hsubscribers : box.nSubscribers = (m.mbrokerBoxes i).nSubscribers)
    (henters : p.enters = false) (hregisters : p.registers = none)
    (hpublishes : r.pc.publishes = p.publishes) (hsubscribes : r.pc.subscribes = p.subscribes)
    (hadmits : r.pc.admits = none) : CountStep m p r :=
  .keep (.of_edit (by rw [hm]; rfl) hpublishers hsubscribers) henters hregisters hpublishes
    hsubscribes (by simp [hadmits])

/-- A step that begins with `mutex_lock`. -/
theorem of_lock {f : Broker → Step} (h : (m.lock i).map f = some r) (henters : p.enters = false)
    (hregisters : p.registers = none) (hpublishes : ∀ m, (f m).pc.publishes = p.publishes)
    (hsubscribes : ∀ m, (f m).pc.subscribes = p.subscribes) (hadmits : ∀ m, (f m).pc.admits = none)
    (hm : ∀ m, (f m).broker.mbrokerBoxes = m.mbrokerBoxes := by intro; rfl) : CountStep m p r := by
  obtain ⟨m', hlock, rfl⟩ := Option.map_eq_some_iff.mp h
  unfold Broker.lock at hlock
  split at hlock
  · cases hlock
  · obtain rfl := Option.some_inj.mp hlock
    exact .keep (.of_edit (hm _) rfl rfl) henters hregisters (hpublishes _) (hsubscribes _)
      (by simp [hadmits])

/-- A step that is a call of the file system. -/
theorem of_call {α : Type*} {o : Option α} {f : α → Step} (h : o.map f = some r)
    (henters : p.enters = false) (hregisters : p.registers = none)
    (hpublishes : ∀ z, (f z).pc.publishes = p.publishes)
    (hsubscribes : ∀ z, (f z).pc.subscribes = p.subscribes)
    (hadmits : ∀ z i, (f z).pc.admits = some i → p.admits = some i)
    (hm : ∀ z, (f z).broker.mbrokerBoxes = m.mbrokerBoxes := by intro; rfl) : CountStep m p r := by
  obtain ⟨z, -, rfl⟩ := Option.map_eq_some_iff.mp h
  exact .keep (.of_boxes (hm z)) henters hregisters (hpublishes z) (hsubscribes z)
    fun i hi => .inl (hadmits z i hi)

end CountStep

theorem createStep_counts {n : CString} {p : CreatePc} (h : createStep m n p = some r) :
    CountStep m (.create n p) r := by
  cases p with
  | absent =>
    obtain ⟨box, -, h⟩ := Option.bind_eq_some_iff.mp h
    exact .of_call h rfl rfl (fun _ => rfl) (fun _ => rfl) fun _ _ hi => by cases hi
  | opened =>
    refine .of_call h rfl rfl (fun z => ?_) (fun z => ?_) (fun z i hi => ?_) fun z => ?_
    · dsimp only
      split <;> rfl
    · dsimp only
      split <;> rfl
    · dsimp only at hi
      split at hi <;> cases hi
    · dsimp only
      split <;> rfl
  | closed =>
    obtain ⟨box, hbox, hr⟩ := Option.map_eq_some_iff.mp h
    refine .enter n box rfl ?_ hbox ?_ <;> rw [← hr]
  | entered =>
    obtain rfl := Option.some_inj.mp h
    exact .of_boxes rfl rfl rfl rfl rfl rfl

theorem deleteStep_counts {p : DeletePc} (h : deleteStep m p = some r) :
    CountStep m (.delete p) r := by
  cases p with
  | found => exact .of_lock h rfl rfl (fun _ => rfl) (fun _ => rfl) fun _ => rfl
  | locked =>
    refine .of_call h rfl rfl (fun z => ?_) (fun z => ?_) (fun z i hi => ?_) fun z => ?_
    · dsimp only
      split <;> rfl
    · dsimp only
      split <;> rfl
    · dsimp only at hi
      split at hi <;> cases hi
    · dsimp only
      split <;> rfl
  | unlinked | cleared =>
    obtain rfl := Option.some_inj.mp h
    exact .of_edit rfl rfl rfl rfl rfl rfl rfl rfl
  | unlocked | deleted =>
    obtain rfl := Option.some_inj.mp h
    exact .of_boxes rfl rfl rfl rfl rfl rfl

theorem publisherStep_counts {p : PublisherPc} (h : publisherStep m p = some r) :
    CountStep m (.publisher p) r := by
  cases p with
  | found | checked | leaving =>
    exact .of_lock h rfl rfl (fun _ => rfl) (fun _ => rfl) fun _ => rfl
  | locked j =>
    obtain rfl := Option.some_inj.mp h
    split
    · exact .of_boxes rfl rfl rfl rfl rfl rfl
    · rename_i hne
      refine .keep (.of_boxes rfl) rfl rfl rfl rfl fun i hi => .inr ?_
      obtain rfl := Option.some_inj.mp hi
      exact ⟨rfl, hne⟩
  | admitted =>
    refine .of_call h rfl rfl (fun z => ?_) (fun z => ?_) fun z i hi => ?_
    · dsimp only
      split <;> rfl
    · dsimp only
      split <;> rfl
    · dsimp only at hi
      split at hi
      · cases hi
      · exact hi
  | opened i fd =>
    obtain rfl := Option.some_inj.mp h
    exact .publisherIn i fd rfl rfl rfl
  | lockedToLeave i fd =>
    obtain rfl := Option.some_inj.mp h
    exact .publisherOut i fd rfl rfl rfl
  | refused | counted | failed | sized | uncounted | written =>
    obtain rfl := Option.some_inj.mp h
    exact .of_edit rfl rfl rfl rfl rfl rfl rfl rfl
  | received =>
    obtain rfl := Option.some_inj.mp h
    split <;> exact .of_boxes rfl rfl rfl rfl rfl rfl
  | unlocked =>
    obtain rfl := Option.some_inj.mp h
    exact .of_boxes rfl rfl rfl rfl rfl rfl
  | writing =>
    refine .of_call h rfl rfl (fun z => ?_) (fun z => ?_) fun z i hi => ?_
    · dsimp only
      split <;> rfl
    · dsimp only
      split <;> rfl
    · dsimp only at hi
      split at hi <;> cases hi
  | left => exact .of_call h rfl rfl (fun _ => rfl) (fun _ => rfl) fun _ _ hi => by cases hi
  | waiting => cases h

theorem subscriberStep_counts {p : SubscriberPc} (h : subscriberStep m p = some r) :
    CountStep m (.subscriber p) r := by
  cases p with
  | found | looping | woken =>
    exact .of_lock h rfl rfl (fun _ => rfl) (fun _ => rfl) fun _ => rfl
  | locked | reading =>
    refine .of_call h rfl rfl (fun z => ?_) (fun z => ?_) fun z i hi => ?_
    · dsimp only
      split <;> rfl
    · dsimp only
      split <;> rfl
    · dsimp only at hi
      split at hi <;> cases hi
  | opened i fd =>
    obtain rfl := Option.some_inj.mp h
    exact .subscriberIn i fd rfl rfl rfl
  | leaving i fd =>
    obtain rfl := Option.some_inj.mp h
    exact .subscriberOut i fd rfl rfl rfl
  | refused | counted | sent | left =>
    obtain rfl := Option.some_inj.mp h
    exact .of_edit rfl rfl rfl rfl rfl rfl rfl rfl
  | looking =>
    simp only [subscriberStep] at h
    split at h <;> obtain rfl := Option.some_inj.mp h
    · exact .of_edit rfl rfl rfl rfl rfl rfl rfl rfl
    · exact .of_boxes rfl rfl rfl rfl rfl rfl
  | read =>
    obtain rfl := Option.some_inj.mp h
    split <;> exact .of_boxes rfl rfl rfl rfl rfl rfl
  | uncounted => exact .of_call h rfl rfl (fun _ => rfl) (fun _ => rfl) fun _ _ hi => by cases hi
  | asleep | sending => cases h

/-- What a step does to the counters. -/
theorem step_counts (h : step m p a = some r) : CountStep m p r := by
  unfold step at h
  split at h
  · obtain rfl := Option.some_inj.mp h
    unfold accept
    repeat' split
    all_goals exact .of_boxes rfl rfl rfl rfl rfl rfl
  · exact createStep_counts h
  · exact deleteStep_counts h
  · obtain rfl := Option.some_inj.mp h
    split <;> exact .of_boxes rfl rfl rfl rfl rfl rfl
  · exact publisherStep_counts h
  · obtain rfl := Option.some_inj.mp h
    split <;> exact .of_boxes rfl rfl rfl rfl rfl rfl
  · exact subscriberStep_counts h
  · cases h

/-- A slot that has a box in use after a step had it before, or has just been assigned it. -/
theorem used_after (h : step m p a = some r)
    (hused : (r.broker.mbrokerBoxes i).allocState = .USED) :
    (m.mbrokerBoxes i).allocState = .USED ∨
      p.enters = true ∧ freeSlot m.mbrokerBoxes = some i := by
  rcases step_table h with ⟨n, box, hp, -, -, hm⟩ | ⟨j, -, -, hm⟩ | ⟨hsame, -⟩
  · rw [hm] at hused
    rcases enterBox_cases m.mbrokerBoxes box i with hold | ⟨hfree, -⟩
    · rw [hold] at hused
      exact .inl hused
    · rw [hp]
      exact .inr ⟨rfl, hfree⟩
  · rw [hm] at hused
    by_cases hij : i = j
    · subst hij
      rw [Function.update_self] at hused
      cases hused
    · rw [Function.update_of_ne hij] at hused
      exact .inl hused
  · rw [(hsame i).2] at hused
    exact .inl hused

/-! ### The slots of the sessions -/

theorem publisherStep_box {p : PublisherPc} (h : publisherStep m p = some r) :
    r.pc.box = p.box ∨ r.pc.box = none := by
  cases p with
  | found | checked | leaving =>
    obtain ⟨m', -, rfl⟩ := Option.map_eq_some_iff.mp h
    exact .inl rfl
  | locked | received =>
    obtain rfl := Option.some_inj.mp h
    split <;> exact .inl rfl
  | admitted | writing =>
    obtain ⟨z, -, rfl⟩ := Option.map_eq_some_iff.mp h
    dsimp only
    split <;> exact .inl rfl
  | refused =>
    obtain rfl := Option.some_inj.mp h
    exact .inr rfl
  | opened | lockedToLeave | counted | failed | sized | written | unlocked =>
    obtain rfl := Option.some_inj.mp h
    exact .inl rfl
  | uncounted =>
    obtain rfl := Option.some_inj.mp h
    exact .inr rfl
  | left =>
    obtain ⟨z, -, rfl⟩ := Option.map_eq_some_iff.mp h
    exact .inr rfl
  | waiting => cases h

theorem subscriberStep_box {p : SubscriberPc} (h : subscriberStep m p = some r) :
    r.pc.box = p.box ∨ r.pc.box = none := by
  cases p with
  | found | looping | woken =>
    obtain ⟨m', -, rfl⟩ := Option.map_eq_some_iff.mp h
    exact .inl rfl
  | locked | reading =>
    obtain ⟨z, -, rfl⟩ := Option.map_eq_some_iff.mp h
    dsimp only
    split <;> exact .inl rfl
  | looking =>
    simp only [subscriberStep] at h
    split at h <;> obtain rfl := Option.some_inj.mp h <;> exact .inl rfl
  | read =>
    obtain rfl := Option.some_inj.mp h
    split <;> exact .inl rfl
  | opened | leaving | counted | sent =>
    obtain rfl := Option.some_inj.mp h
    exact .inl rfl
  | uncounted =>
    obtain ⟨z, -, rfl⟩ := Option.map_eq_some_iff.mp h
    exact .inl rfl
  | refused | left =>
    obtain rfl := Option.some_inj.mp h
    exact .inr rfl
  | asleep | sending => cases h

theorem createStep_box {n : CString} {p : CreatePc} (h : createStep m n p = some r) :
    r.pc.box = none := by
  cases p with
  | absent =>
    obtain ⟨box, -, h⟩ := Option.bind_eq_some_iff.mp h
    obtain ⟨z, -, rfl⟩ := Option.map_eq_some_iff.mp h
    rfl
  | opened =>
    obtain ⟨z, -, rfl⟩ := Option.map_eq_some_iff.mp h
    dsimp only
    split <;> rfl
  | closed =>
    obtain ⟨box, -, hr⟩ := Option.map_eq_some_iff.mp h
    rw [← hr]
    rfl
  | entered =>
    obtain rfl := Option.some_inj.mp h
    rfl

theorem deleteStep_box {p : DeletePc} (h : deleteStep m p = some r) : r.pc.box = none := by
  cases p with
  | found =>
    obtain ⟨m', -, rfl⟩ := Option.map_eq_some_iff.mp h
    rfl
  | locked =>
    obtain ⟨z, -, rfl⟩ := Option.map_eq_some_iff.mp h
    dsimp only
    split <;> rfl
  | unlinked | cleared | unlocked | deleted =>
    obtain rfl := Option.some_inj.mp h
    rfl

theorem accept_box {opCode : ℕ} {boxName : CString}
    (h : (accept m opCode boxName).pc.box = some i) :
    i < boxCountMax ∧ (m.mbrokerBoxes i).allocState = .USED := by
  unfold accept at h
  split at h
  · split at h
    · cases h
    · rename_i hbox
      obtain rfl := Option.some_inj.mp h
      exact (getBox_eq_some hbox).imp_right fun hname => (isBox_eq_true.mp hname).1
  split at h
  · split at h
    · cases h
    · rename_i hbox
      obtain rfl := Option.some_inj.mp h
      exact (getBox_eq_some hbox).imp_right fun hname => (isBox_eq_true.mp hname).1
  repeat' split at h
  all_goals cases h

/-- The slot that a session points to was found in use when the session began. -/
theorem step_box (h : step m p a = some r) (hr : r.pc.box = some i) :
    p.box = some i ∨ p = .idle ∧ i < boxCountMax ∧ (m.mbrokerBoxes i).allocState = .USED := by
  unfold step at h
  split at h
  · obtain rfl := Option.some_inj.mp h
    exact .inr ⟨rfl, accept_box hr⟩
  · cases (createStep_box h).symm.trans hr
  · cases (deleteStep_box h).symm.trans hr
  · obtain rfl := Option.some_inj.mp h
    split at hr <;> exact .inl hr
  · rcases publisherStep_box h with heq | hnone
    · exact .inl (heq.symm.trans hr)
    · cases hnone.symm.trans hr
  · obtain rfl := Option.some_inj.mp h
    split at hr <;> exact .inl hr
  · rcases subscriberStep_box h with heq | hnone
    · exact .inl (heq.symm.trans hr)
    · cases hnone.symm.trans hr
  · cases h

/-! ### Steps of the dated system -/

/-- What the counters and the mutexes of the boxes have to do with a thread. -/
structure SameRole (p q : Pc) : Prop where
  holds : q.holds = p.holds
  box : q.box = p.box
  publishes : q.publishes = p.publishes
  subscribes : q.subscribes = p.subscribes
  admits : q.admits = p.admits

theorem sameRole_wakes (o : Output) (pc : ℕ → Pc) (t : ℕ) :
    SameRole (pc t) (o.wakes pc t) := by
  rcases o.wakes_cases pc t with heq | ⟨i, fd, k, hpc, heq⟩
  · rw [heq]
    exact ⟨rfl, rfl, rfl, rfl, rfl⟩
  · rw [heq, hpc]
    exact ⟨rfl, rfl, rfl, rfl, rfl⟩

variable {g g' : Dated}

/-- A step of the dated system is the step `r` of one thread. -/
structure DatedStep (g : Dated) (e : Turn) (r : Step) (g' : Dated) : Prop where
  step : Mbroker.step g.sys.broker (g.sys.pc e.thread) e.act = some r
  broker : g'.sys.broker = r.broker
  self : g'.sys.pc e.thread = r.pc
  others : ∀ t ≠ e.thread, SameRole (g.sys.pc t) (g'.sys.pc t)
  since_self : g'.since e.thread =
    ((g.sys.pc e.thread).registers.map g.made).getD (g.since e.thread)
  since_others : ∀ t ≠ e.thread, g'.since t = g.since t
  made : ∀ i, g'.made i =
    if (g.sys.pc e.thread).enters ∧ freeSlot g.sys.broker.mbrokerBoxes = some i then g.made i + 1
    else g.made i
  thread_lt : e.thread < g.sys.maxSessions
  maxSessions : g'.sys.maxSessions = g.sys.maxSessions

theorem Dated.next_eq_some (h : g.next e = some g') : ∃ r, DatedStep g e r g' := by
  obtain ⟨y, hnext, rfl⟩ := Option.map_eq_some_iff.mp h
  obtain ⟨r, hstep, hbroker, hself, hother, hlt, hmax⟩ := Sys.next_eq_some hnext
  refine ⟨r, ⟨hstep, hbroker, hself, fun t ht => ?_, if_pos rfl, fun t ht => if_neg ht,
    fun i => rfl, hlt, hmax⟩⟩
  rw [hother t ht]
  exact sameRole_wakes _ _ _

/-! ### The mutexes -/

/-- At most one thread has locked the mutex of a slot, and it is held as long as one has. -/
structure LockedAlone (g : Dated) : Prop where
  threads : ∀ t i, (g.sys.pc t).holds = some i → t < g.sys.maxSessions
  locked : ∀ t i, (g.sys.pc t).holds = some i → (g.sys.broker.mbrokerBoxes i).mutex = true
  alone : ∀ t u i, (g.sys.pc t).holds = some i → (g.sys.pc u).holds = some i → t = u

/-- A thread that has locked a mutex after its step had locked it before, or has found it
free. -/
theorem BoxStep.locked_after (h : BoxStep m p r) (hr : r.pc.holds = some i) :
    (p.holds = some i ∧ (r.broker.mbrokerBoxes i).mutex = (m.mbrokerBoxes i).mutex) ∨
    ((m.mbrokerBoxes i).mutex = false ∧ (r.broker.mbrokerBoxes i).mutex = true) := by
  cases h with
  | lock j hp hj hfree hm =>
    obtain rfl := Option.some_inj.mp (hj.symm.trans hr)
    exact .inr ⟨hfree, by rw [hm, Function.update_self]⟩
  | unlock j hp hj hm => cases hj.symm.trans hr
  | edit j box hp hj hmutex hm =>
    obtain rfl := Option.some_inj.mp (hj.symm.trans hr)
    exact .inl ⟨hp, by rw [hm, Function.update_self, hmutex]⟩
  | enter n box hp hpc hbox hm =>
    rw [hpc] at hr
    cases hr
  | fail j tfs ret hp hpc hunlink hret hm =>
    rw [hpc] at hr
    cases hr
  | keep hkeep hm => exact .inl ⟨hkeep.symm.trans hr, by rw [hm]⟩

/-- A mutex that another thread has locked stays held, unless its slot is assigned. -/
theorem BoxStep.locked_other (h : BoxStep m p r) (hp : p.holds ≠ some i)
    (henters : p.enters = true → freeSlot m.mbrokerBoxes ≠ some i)
    (hmutex : (m.mbrokerBoxes i).mutex = true) : (r.broker.mbrokerBoxes i).mutex = true := by
  cases h with
  | lock j hp hj hfree hm =>
    rw [hm]
    by_cases hij : i = j
    · rw [hij, Function.update_self]
    · rwa [Function.update_of_ne hij]
  | unlock j hj hr hm =>
    have hij : i ≠ j := fun hij => hp (hij ▸ hj)
    rwa [hm, Function.update_of_ne hij]
  | edit j box hj hr hsame hm =>
    have hij : i ≠ j := fun hij => hp (hij ▸ hj)
    rwa [hm, Function.update_of_ne hij]
  | enter n box hpc hr hbox hm =>
    rw [hm]
    rcases enterBox_cases m.mbrokerBoxes box i with hold | ⟨hfree, -⟩
    · exact (congrArg Box.mutex hold).trans hmutex
    · exact absurd hfree (henters (by rw [hpc]; rfl))
  | fail j tfs ret hpc hr hunlink hret hm => rwa [hm]
  | keep hr hm => rwa [hm]

theorem LockedAlone.next (h : LockedAlone g) (hassigns : (g.sys.pc e.thread).enters = true →
      ∀ i, freeSlot g.sys.broker.mbrokerBoxes = some i →
        ∀ t < g.sys.maxSessions, (g.sys.pc t).holds ≠ some i)
    (hs : DatedStep g e r g') : LockedAlone g' := by
  have hboxes := step_boxes hs.step
  -- a mutex that the thread has locked was locked by no other thread
  have hself : ∀ i, r.pc.holds = some i → (g'.sys.broker.mbrokerBoxes i).mutex = true ∧
      ∀ t ≠ e.thread, (g.sys.pc t).holds ≠ some i := by
    intro i hi
    rw [hs.broker]
    rcases hboxes.locked_after hi with ⟨hp, hmutex⟩ | ⟨hfree, hmutex⟩
    · exact ⟨hmutex.trans (h.locked _ _ hp), fun t ht hheld => ht (h.alone _ _ _ hheld hp)⟩
    · refine ⟨hmutex, fun t _ hheld => ?_⟩
      cases hfree.symm.trans (h.locked _ _ hheld)
  constructor
  · intro t i ht
    rw [hs.maxSessions]
    by_cases hte : t = e.thread
    · rw [hte]
      exact hs.thread_lt
    · rw [(hs.others t hte).holds] at ht
      exact h.threads t i ht
  · intro t i ht
    by_cases hte : t = e.thread
    · rw [hte, hs.self] at ht
      exact (hself i ht).1
    · rw [(hs.others t hte).holds] at ht
      rw [hs.broker]
      exact hboxes.locked_other (fun hp => hte (h.alone _ _ _ ht hp))
        (fun henters hfree => hassigns henters i hfree t (h.threads t i ht) ht)
        (h.locked _ _ ht)
  · intro t u i ht hu
    by_cases hte : t = e.thread <;> by_cases hue : u = e.thread
    · rw [hte, hue]
    · rw [hte, hs.self] at ht
      rw [(hs.others u hue).holds] at hu
      exact absurd hu ((hself i ht).2 u hue)
    · rw [hue, hs.self] at hu
      rw [(hs.others t hte).holds] at ht
      exact absurd ht ((hself i hu).2 t hte)
    · rw [(hs.others t hte).holds] at ht
      rw [(hs.others u hue).holds] at hu
      exact h.alone _ _ _ ht hu

/-! ### The sessions of a slot -/

section Registered

variable {role : Pc → Option ℕ}

/-- A step after which the thread is registered on the slot if and only if it was before. -/
theorem DatedStep.registered_eq (hs : DatedStep g e r g')
    (hrole : ∀ t ≠ e.thread, role (g'.sys.pc t) = role (g.sys.pc t)) (hmade : g'.made i = g.made i)
    (hself : role r.pc = some i ∧ g'.since e.thread = g.made i ↔
      role (g.sys.pc e.thread) = some i ∧ g.since e.thread = g.made i) :
    g'.registered role i = g.registered role i := by
  unfold Dated.registered
  rw [hs.maxSessions]
  refine countOf_congr fun t _ => ?_
  by_cases hte : t = e.thread
  · rw [hte, hs.self, hmade]
    exact hself
  · rw [hrole t hte, hs.since_others t hte, hmade]

/-- The thread registers. -/
theorem DatedStep.registered_succ (hs : DatedStep g e r g')
    (hrole : ∀ t ≠ e.thread, role (g'.sys.pc t) = role (g.sys.pc t)) (hmade : g'.made i = g.made i)
    (hbefore : role (g.sys.pc e.thread) = none) (hafter : role r.pc = some i)
    (hsince : g'.since e.thread = g.made i) :
    g'.registered role i = g.registered role i + 1 := by
  unfold Dated.registered
  rw [hs.maxSessions]
  refine countOf_succ (Finset.mem_range.mpr hs.thread_lt) (by simp [hbefore]) ?_ fun t _ ht => ?_
  · rw [hs.self, hmade]
    exact ⟨hafter, hsince⟩
  · rw [hrole t ht, hs.since_others t ht, hmade]

/-- The thread leaves. -/
theorem DatedStep.registered_pred (hs : DatedStep g e r g')
    (hrole : ∀ t ≠ e.thread, role (g'.sys.pc t) = role (g.sys.pc t)) (hmade : g'.made i = g.made i)
    (hbefore : role (g.sys.pc e.thread) = some i) (hafter : role r.pc = none)
    (hsince : g.since e.thread = g.made i) :
    g.registered role i = g'.registered role i + 1 := by
  unfold Dated.registered
  rw [hs.maxSessions]
  refine countOf_succ (Finset.mem_range.mpr hs.thread_lt) (by simp [hs.self, hafter])
    ⟨hbefore, hsince⟩ fun t _ ht => ?_
  rw [hrole t ht, hs.since_others t ht, hmade]

/-- No session is registered on a box that has just been assigned to the slot. -/
theorem Dated.registered_eq_zero (h : ∀ t, role (g.sys.pc t) = some i → g.since t < g.made i) :
    g.registered role i = 0 :=
  countOf_eq_zero.mpr fun t _ ⟨hrole, hsince⟩ => (h t hrole).ne hsince

theorem Dated.registered_pos (ht : t < g.sys.maxSessions) (hrole : role (g.sys.pc t) = some i)
    (hsince : g.since t = g.made i) : 0 < g.registered role i :=
  countOf_pos.mpr ⟨t, Finset.mem_range.mpr ht, hrole, hsince⟩

theorem Dated.eq_of_registered_le_one (h : g.registered role i ≤ 1)
    (ht : t < g.sys.maxSessions) (hrole : role (g.sys.pc t) = some i)
    (hsince : g.since t = g.made i) (hu : u < g.sys.maxSessions)
    (hrole' : role (g.sys.pc u) = some i) (hsince' : g.since u = g.made i) : t = u :=
  eq_of_countOf_le_one h (Finset.mem_range.mpr ht) ⟨hrole, hsince⟩ (Finset.mem_range.mpr hu)
    ⟨hrole', hsince'⟩

theorem Dated.registered_le : g.registered role i ≤ g.sys.maxSessions :=
  countOf_le_card.trans_eq (Finset.card_range _)

end Registered

/-! ### What every step keeps -/

/-- The counters of slot `i` are the numbers of the sessions registered on the box it has, and
no publisher is admitted to a box that has one. -/
structure SlotRight (g : Dated) (i : ℕ) : Prop where
  publishers : (g.sys.broker.mbrokerBoxes i).nPublishers = g.publishers i
  subscribers : (g.sys.broker.mbrokerBoxes i).nSubscribers = g.subscribers i
  single : (g.sys.broker.mbrokerBoxes i).nPublishers ≤ 1
  admitted : ∀ t, (g.sys.pc t).admits = some i → (g.sys.broker.mbrokerBoxes i).nPublishers = 0

/-- The counters of every slot that was ever assigned a box are right. -/
structure CountInv (g : Dated) : Prop where
  held : LockedAlone g
  made : ∀ i, (g.sys.broker.mbrokerBoxes i).allocState = .USED → 0 < g.made i
  known : ∀ t i, (g.sys.pc t).box = some i → i < boxCountMax ∧ 0 < g.made i
  published : ∀ t i, (g.sys.pc t).publishes = some i → g.since t ≤ g.made i
  subscribed : ∀ t i, (g.sys.pc t).subscribes = some i → g.since t ≤ g.made i
  slots : ∀ i, 0 < g.made i → SlotRight g i

/-- A thread that was admitted has the mutex. -/
theorem Pc.holds_of_admits (h : p.admits = some i) : p.holds = some i := by
  cases p with
  | idle | create | delete | subscriber => cases h
  | publisher p =>
    cases p with
    | admitted | opened => exact h
    | _ => cases h

namespace DatedStep

theorem made_eq (hs : DatedStep g e r g') (h : (g.sys.pc e.thread).enters = false) :
    g'.made = g.made := by
  funext i
  rw [hs.made, h]
  exact if_neg fun h => by cases h.1

theorem made_le (hs : DatedStep g e r g') : g.made i ≤ g'.made i := by
  rw [hs.made]
  split <;> omega

theorem since_eq (hs : DatedStep g e r g') (h : (g.sys.pc e.thread).registers = none) :
    g'.since e.thread = g.since e.thread := by
  rw [hs.since_self, h]
  rfl

theorem since_registers (hs : DatedStep g e r g') (h : (g.sys.pc e.thread).registers = some i) :
    g'.since e.thread = g.made i := by
  rw [hs.since_self, h]
  rfl

/-- The dates of registration are in the past. -/
theorem since_le {role : Pc → Option ℕ} (hs : DatedStep g e r g')
    (hrole : ∀ t ≠ e.thread, role (g'.sys.pc t) = role (g.sys.pc t))
    (hself : role r.pc = some i →
      role (g.sys.pc e.thread) = some i ∧ (g.sys.pc e.thread).registers = none ∨
      (g.sys.pc e.thread).registers = some i)
    (h : ∀ t, role (g.sys.pc t) = some i → g.since t ≤ g.made i) (t : ℕ)
    (ht : role (g'.sys.pc t) = some i) : g'.since t ≤ g'.made i := by
  by_cases hte : t = e.thread
  · subst hte
    rw [hs.self] at ht
    rcases hself ht with ⟨hbefore, hregisters⟩ | hregisters
    · rw [hs.since_eq hregisters]
      exact (h _ hbefore).trans hs.made_le
    · rw [hs.since_registers hregisters]
      exact hs.made_le
  · rw [hrole t hte] at ht
    rw [hs.since_others t hte]
    exact (h t ht).trans hs.made_le

/-- A step that leaves the registration of the thread alone. -/
theorem registered_of_same {role : Pc → Option ℕ} (hs : DatedStep g e r g')
    (hrole : ∀ t ≠ e.thread, role (g'.sys.pc t) = role (g.sys.pc t)) (hmade : g'.made i = g.made i)
    (hself : role r.pc = role (g.sys.pc e.thread))
    (hregisters : (g.sys.pc e.thread).registers = none) :
    g'.registered role i = g.registered role i :=
  hs.registered_eq hrole hmade (by rw [hself, hs.since_eq hregisters])

/-- A step of a thread that is not registered on the slot, before or after. -/
theorem registered_of_ne {role : Pc → Option ℕ} (hs : DatedStep g e r g')
    (hrole : ∀ t ≠ e.thread, role (g'.sys.pc t) = role (g.sys.pc t)) (hmade : g'.made i = g.made i)
    (hbefore : role (g.sys.pc e.thread) ≠ some i) (hafter : role r.pc ≠ some i) :
    g'.registered role i = g.registered role i :=
  hs.registered_eq hrole hmade (by simp [hbefore, hafter])

theorem publishes_others (hs : DatedStep g e r g') (t : ℕ) (ht : t ≠ e.thread) :
    (g'.sys.pc t).publishes = (g.sys.pc t).publishes :=
  (hs.others t ht).publishes

theorem subscribes_others (hs : DatedStep g e r g') (t : ℕ) (ht : t ≠ e.thread) :
    (g'.sys.pc t).subscribes = (g.sys.pc t).subscribes :=
  (hs.others t ht).subscribes

/-- Who is admitted after a step was admitted before, or by the step. -/
theorem admits_cases (hs : DatedStep g e r g') {t : ℕ} (ht : (g'.sys.pc t).admits = some i) :
    t ≠ e.thread ∧ (g.sys.pc t).admits = some i ∨ t = e.thread ∧ r.pc.admits = some i := by
  by_cases hte : t = e.thread
  · rw [hte, hs.self] at ht
    exact .inr ⟨hte, ht⟩
  · rw [(hs.others t hte).admits] at ht
    exact .inl ⟨hte, ht⟩

end DatedStep

namespace CountStep

theorem published (h : CountStep m p r) (hr : r.pc.publishes = some i) :
    p.publishes = some i ∧ p.registers = none ∨ p.registers = some i := by
  cases h with
  | enter n box hp hpc => rw [hpc] at hr; cases hr
  | publisherIn j fd hp hpc =>
    rw [hpc] at hr
    rw [hp]
    exact .inr hr
  | publisherOut j fd hp hpc => rw [hpc] at hr; cases hr
  | subscriberIn j fd hp hpc => rw [hpc] at hr; cases hr
  | subscriberOut j fd hp hpc => rw [hpc] at hr; cases hr
  | keep hm henters hregisters hpublishes => exact .inl ⟨hpublishes.symm.trans hr, hregisters⟩

theorem subscribed (h : CountStep m p r) (hr : r.pc.subscribes = some i) :
    p.subscribes = some i ∧ p.registers = none ∨ p.registers = some i := by
  cases h with
  | enter n box hp hpc => rw [hpc] at hr; cases hr
  | publisherIn j fd hp hpc => rw [hpc] at hr; cases hr
  | publisherOut j fd hp hpc => rw [hpc] at hr; cases hr
  | subscriberIn j fd hp hpc =>
    rw [hpc] at hr
    rw [hp]
    exact .inr hr
  | subscriberOut j fd hp hpc => rw [hpc] at hr; cases hr
  | keep hm henters hregisters hpublishes hsubscribes =>
    exact .inl ⟨hsubscribes.symm.trans hr, hregisters⟩

/-- A step that assigns a box to a slot. -/
theorem entered (h : CountStep m p r) (henters : p.enters = true) : ∃ n box,
    p = .create n .closed ∧ r.pc = .create n .entered ∧ boxInitialize n = some box ∧
      r.broker.mbrokerBoxes = enterBox m.mbrokerBoxes box := by
  cases h with
  | enter n box hp hpc hbox hm => exact ⟨n, box, hp, hpc, hbox, hm⟩
  | publisherIn j fd hp => rw [hp] at henters; cases henters
  | publisherOut j fd hp => rw [hp] at henters; cases henters
  | subscriberIn j fd hp => rw [hp] at henters; cases henters
  | subscriberOut j fd hp => rw [hp] at henters; cases henters
  | keep hm hkeep => cases hkeep.symm.trans henters

end CountStep

namespace SlotRight

/-- A step that leaves the slot and its sessions alone. -/
theorem of_same (h : SlotRight g i)
    (hbox : (g'.sys.broker.mbrokerBoxes i).nPublishers =
        (g.sys.broker.mbrokerBoxes i).nPublishers ∧
      (g'.sys.broker.mbrokerBoxes i).nSubscribers = (g.sys.broker.mbrokerBoxes i).nSubscribers)
    (hpublishers : g'.publishers i = g.publishers i)
    (hsubscribers : g'.subscribers i = g.subscribers i)
    (hadmits : ∀ t, (g'.sys.pc t).admits = some i → (g.sys.pc t).admits = some i ∨
      (g.sys.broker.mbrokerBoxes i).nPublishers ≠ 1) : SlotRight g' i where
  publishers := by rw [hbox.1, h.publishers, hpublishers]
  subscribers := by rw [hbox.2, h.subscribers, hsubscribers]
  single := by rw [hbox.1]; exact h.single
  admitted t ht := by
    rw [hbox.1]
    rcases hadmits t ht with hold | hne
    · exact h.admitted t hold
    · have := h.single
      omega

/-- The slot that a new box is assigned to. -/
theorem of_enter (h : CountInv g) (hs : DatedStep g e r g') {n : CString} {box : Box}
    (hp : g.sys.pc e.thread = .create n .closed) (hpc : r.pc = .create n .entered)
    (hbox : boxInitialize n = some box) (hfree : freeSlot g.sys.broker.mbrokerBoxes = some i)
    (hm : g'.sys.broker.mbrokerBoxes i = box) : SlotRight g' i := by
  have henters : (g.sys.pc e.thread).enters = true := by rw [hp]; rfl
  have hmade : g'.made i = g.made i + 1 := by rw [hs.made, if_pos ⟨henters, hfree⟩]
  have hzero : box.nPublishers = 0 ∧ box.nSubscribers = 0 := by
    rw [(boxInitialize_eq_some hbox).2]
    exact ⟨rfl, rfl⟩
  -- whoever is registered on the slot registered on an older box
  have hpublishers : g'.publishers i = 0 := by
    refine Dated.registered_eq_zero fun t ht => ?_
    have hte : t ≠ e.thread := by
      rintro rfl
      rw [hs.self, hpc] at ht
      cases ht
    rw [hs.publishes_others t hte] at ht
    rw [hs.since_others t hte, hmade]
    exact Nat.lt_succ_of_le (h.published t i ht)
  have hsubscribers : g'.subscribers i = 0 := by
    refine Dated.registered_eq_zero fun t ht => ?_
    have hte : t ≠ e.thread := by
      rintro rfl
      rw [hs.self, hpc] at ht
      cases ht
    rw [hs.subscribes_others t hte] at ht
    rw [hs.since_others t hte, hmade]
    exact Nat.lt_succ_of_le (h.subscribed t i ht)
  refine ⟨?_, ?_, ?_, fun t ht => ?_⟩
  · rw [hm, hzero.1, hpublishers]
  · rw [hm, hzero.2, hsubscribers]
  · rw [hm, hzero.1]
    exact Nat.zero_le 1
  · rw [hm, hzero.1]

/-- A slot that is assigned no box. -/
theorem of_not_entered (hslot : SlotRight g i) (hs : DatedStep g e r g') {n : CString} {box : Box}
    (hp : g.sys.pc e.thread = .create n .closed) (hpc : r.pc = .create n .entered)
    (hfree : freeSlot g.sys.broker.mbrokerBoxes ≠ some i)
    (hm : g'.sys.broker.mbrokerBoxes = enterBox g.sys.broker.mbrokerBoxes box) :
    SlotRight g' i := by
  have hmade : g'.made i = g.made i := by
    rw [hs.made]
    exact if_neg fun h => hfree h.2
  have hbox : g'.sys.broker.mbrokerBoxes i = g.sys.broker.mbrokerBoxes i := by
    rw [hm]
    exact (enterBox_cases _ box i).resolve_right fun h => hfree h.1
  have hregisters : (g.sys.pc e.thread).registers = none := by rw [hp]; rfl
  refine hslot.of_same ⟨congrArg Box.nPublishers hbox, congrArg Box.nSubscribers hbox⟩
    (hs.registered_of_same hs.publishes_others hmade (by rw [hp, hpc]; rfl) hregisters)
    (hs.registered_of_same hs.subscribes_others hmade (by rw [hp, hpc]; rfl) hregisters)
    fun t ht => ?_
  rcases hs.admits_cases ht with ⟨-, hold⟩ | ⟨-, hnew⟩
  · exact .inl hold
  · rw [hpc] at hnew
    cases hnew

/-- A step that assigns no box to a slot and registers no session. -/
theorem of_keep (hslot : SlotRight g i) (hs : DatedStep g e r g')
    (hm : SameCounts g.sys.broker r.broker) (henters : (g.sys.pc e.thread).enters = false)
    (hregisters : (g.sys.pc e.thread).registers = none)
    (hpublishes : r.pc.publishes = (g.sys.pc e.thread).publishes)
    (hsubscribes : r.pc.subscribes = (g.sys.pc e.thread).subscribes)
    (hadmits : r.pc.admits = some i → (g.sys.pc e.thread).admits = some i ∨
      (g.sys.broker.mbrokerBoxes i).nPublishers ≠ 1) : SlotRight g' i := by
  have hmade : g'.made i = g.made i := by rw [hs.made_eq henters]
  refine hslot.of_same (by rw [hs.broker]; exact hm i)
    (hs.registered_of_same hs.publishes_others hmade hpublishes hregisters)
    (hs.registered_of_same hs.subscribes_others hmade hsubscribes hregisters) fun t ht => ?_
  rcases hs.admits_cases ht with ⟨-, hold⟩ | ⟨rfl, hnew⟩
  · exact .inl hold
  · exact hadmits hnew

/-- A slot other than the one whose counter changes. -/
theorem of_other (hslot : SlotRight g i) (hs : DatedStep g e r g') {j : ℕ} {box : Box}
    (hm : r.broker.mbrokerBoxes = Function.update g.sys.broker.mbrokerBoxes j box) (hij : i ≠ j)
    (henters : (g.sys.pc e.thread).enters = false)
    (hpublishes : (g.sys.pc e.thread).publishes ≠ some i ∧ r.pc.publishes ≠ some i)
    (hsubscribes : (g.sys.pc e.thread).subscribes ≠ some i ∧ r.pc.subscribes ≠ some i)
    (hadmits : r.pc.admits = none) : SlotRight g' i := by
  have hmade : g'.made i = g.made i := by rw [hs.made_eq henters]
  refine hslot.of_same ?_
    (hs.registered_of_ne hs.publishes_others hmade hpublishes.1 hpublishes.2)
    (hs.registered_of_ne hs.subscribes_others hmade hsubscribes.1 hsubscribes.2) fun t ht => ?_
  · rw [hs.broker, hm, Function.update_of_ne hij]
    exact ⟨rfl, rfl⟩
  · rcases hs.admits_cases ht with ⟨-, hold⟩ | ⟨-, hnew⟩
    · exact .inl hold
    · cases hadmits.symm.trans hnew

/-- A publisher registers. The mutex excludes every other publisher that was admitted. -/
theorem of_publisherIn (hslot : SlotRight g i) (hheld : LockedAlone g) (hs : DatedStep g e r g')
    {fd : ℤ} (hp : g.sys.pc e.thread = .publisher (.opened i fd))
    (hpc : r.pc = .publisher (.counted i fd))
    (hm : r.broker.mbrokerBoxes = Function.update g.sys.broker.mbrokerBoxes i
      { g.sys.broker.mbrokerBoxes i with
        nPublishers := ((g.sys.broker.mbrokerBoxes i).nPublishers + 1) % sizeRange }) :
    SlotRight g' i := by
  have hmade : g'.made i = g.made i := by rw [hs.made_eq (by rw [hp]; rfl)]
  have hzero : (g.sys.broker.mbrokerBoxes i).nPublishers = 0 :=
    hslot.admitted e.thread (by rw [hp]; rfl)
  have hpublishers : g'.publishers i = g.publishers i + 1 :=
    hs.registered_succ hs.publishes_others hmade (by rw [hp]; rfl) (by rw [hpc]; rfl)
      (hs.since_registers (by rw [hp]; rfl))
  have hsubscribers : g'.subscribers i = g.subscribers i :=
    hs.registered_of_ne hs.subscribes_others hmade (by rw [hp]; nofun) (by rw [hpc]; nofun)
  have hbox : (g'.sys.broker.mbrokerBoxes i).nPublishers = 1 ∧
      (g'.sys.broker.mbrokerBoxes i).nSubscribers =
        (g.sys.broker.mbrokerBoxes i).nSubscribers := by
    rw [hs.broker, hm, Function.update_self, hzero]
    exact ⟨rfl, rfl⟩
  refine ⟨?_, ?_, hbox.1.le, fun t ht => ?_⟩
  · rw [hbox.1, hpublishers, ← hslot.publishers, hzero]
  · rw [hbox.2, hsubscribers, hslot.subscribers]
  · rcases hs.admits_cases ht with ⟨hte, hold⟩ | ⟨-, hnew⟩
    · exact absurd (hheld.alone _ _ i (Pc.holds_of_admits hold) (by rw [hp]; rfl)) hte
    · rw [hpc] at hnew
      cases hnew

/-- A publisher leaves. -/
theorem of_publisherOut (hslot : SlotRight g i) (hs : DatedStep g e r g') {fd : ℤ}
    (hp : g.sys.pc e.thread = .publisher (.lockedToLeave i fd))
    (hpc : r.pc = .publisher (.uncounted i fd)) (hsince : g.since e.thread = g.made i)
    (hm : r.broker.mbrokerBoxes = Function.update g.sys.broker.mbrokerBoxes i
      { g.sys.broker.mbrokerBoxes i with
        nPublishers := subSize (g.sys.broker.mbrokerBoxes i).nPublishers 1 }) :
    SlotRight g' i := by
  have hmade : g'.made i = g.made i := by rw [hs.made_eq (by rw [hp]; rfl)]
  have hpublishers : g.publishers i = g'.publishers i + 1 :=
    hs.registered_pred hs.publishes_others hmade (by rw [hp]; rfl) (by rw [hpc]; rfl) hsince
  have hsubscribers : g'.subscribers i = g.subscribers i :=
    hs.registered_of_ne hs.subscribes_others hmade (by rw [hp]; nofun) (by rw [hpc]; nofun)
  have hone : (g.sys.broker.mbrokerBoxes i).nPublishers = 1 ∧ g'.publishers i = 0 := by
    have hcount := hslot.publishers
    have hsingle := hslot.single
    omega
  have hbox : (g'.sys.broker.mbrokerBoxes i).nPublishers = 0 ∧
      (g'.sys.broker.mbrokerBoxes i).nSubscribers =
        (g.sys.broker.mbrokerBoxes i).nSubscribers := by
    rw [hs.broker, hm, Function.update_self, hone.1]
    exact ⟨by simp [subSize, sizeRange], rfl⟩
  refine ⟨?_, ?_, by omega, fun t ht => ?_⟩
  · rw [hbox.1, hone.2]
  · rw [hbox.2, hsubscribers, hslot.subscribers]
  · exact hbox.1

/-- The number of subscribers fits in its counter. -/
theorem subscribers_lt : g.subscribers i < sizeRange :=
  Dated.registered_le.trans_lt (g.sys.sessions_index.trans_lt (by decide))

/-- A subscriber registers. -/
theorem of_subscriberIn (hslot : SlotRight g i) (hs : DatedStep g e r g')
    {fd : ℤ} (hp : g.sys.pc e.thread = .subscriber (.opened i fd))
    (hpc : r.pc = .subscriber (.counted i fd))
    (hm : r.broker.mbrokerBoxes = Function.update g.sys.broker.mbrokerBoxes i
      { g.sys.broker.mbrokerBoxes i with
        nSubscribers := ((g.sys.broker.mbrokerBoxes i).nSubscribers + 1) % sizeRange }) :
    SlotRight g' i := by
  have hmade : g'.made i = g.made i := by rw [hs.made_eq (by rw [hp]; rfl)]
  have hsubscribers : g'.subscribers i = g.subscribers i + 1 :=
    hs.registered_succ hs.subscribes_others hmade (by rw [hp]; rfl) (by rw [hpc]; rfl)
      (hs.since_registers (by rw [hp]; rfl))
  have hpublishers : g'.publishers i = g.publishers i :=
    hs.registered_of_ne hs.publishes_others hmade (by rw [hp]; nofun) (by rw [hpc]; nofun)
  have hbox : (g'.sys.broker.mbrokerBoxes i).nPublishers =
        (g.sys.broker.mbrokerBoxes i).nPublishers ∧
      (g'.sys.broker.mbrokerBoxes i).nSubscribers = g'.subscribers i := by
    rw [hs.broker, hm, Function.update_self, hslot.subscribers, ← hsubscribers]
    exact ⟨rfl, Nat.mod_eq_of_lt subscribers_lt⟩
  refine ⟨?_, hbox.2, ?_, fun t ht => ?_⟩
  · rw [hbox.1, hpublishers, hslot.publishers]
  · rw [hbox.1]
    exact hslot.single
  · rw [hbox.1]
    rcases hs.admits_cases ht with ⟨-, hold⟩ | ⟨-, hnew⟩
    · exact hslot.admitted t hold
    · rw [hpc] at hnew
      cases hnew

/-- A subscriber leaves. -/
theorem of_subscriberOut (hslot : SlotRight g i) (hs : DatedStep g e r g') {fd : ℤ}
    (hp : g.sys.pc e.thread = .subscriber (.leaving i fd))
    (hpc : r.pc = .subscriber (.uncounted i fd)) (hsince : g.since e.thread = g.made i)
    (hm : r.broker.mbrokerBoxes = Function.update g.sys.broker.mbrokerBoxes i
      { g.sys.broker.mbrokerBoxes i with
        nSubscribers := subSize (g.sys.broker.mbrokerBoxes i).nSubscribers 1 }) :
    SlotRight g' i := by
  have hmade : g'.made i = g.made i := by rw [hs.made_eq (by rw [hp]; rfl)]
  have hsubscribers : g.subscribers i = g'.subscribers i + 1 :=
    hs.registered_pred hs.subscribes_others hmade (by rw [hp]; rfl) (by rw [hpc]; rfl) hsince
  have hpublishers : g'.publishers i = g.publishers i :=
    hs.registered_of_ne hs.publishes_others hmade (by rw [hp]; nofun) (by rw [hpc]; nofun)
  have hsub : subSize (g.sys.broker.mbrokerBoxes i).nSubscribers 1 = g'.subscribers i := by
    have hlt : g'.subscribers i < sizeRange := subscribers_lt
    rw [hslot.subscribers, hsubscribers]
    unfold subSize sizeRange at *
    omega
  have hbox : (g'.sys.broker.mbrokerBoxes i).nPublishers =
        (g.sys.broker.mbrokerBoxes i).nPublishers ∧
      (g'.sys.broker.mbrokerBoxes i).nSubscribers = g'.subscribers i := by
    rw [hs.broker, hm, Function.update_self]
    exact ⟨rfl, hsub⟩
  refine ⟨?_, hbox.2, ?_, fun t ht => ?_⟩
  · rw [hbox.1, hpublishers, hslot.publishers]
  · rw [hbox.1]
    exact hslot.single
  · rw [hbox.1]
    rcases hs.admits_cases ht with ⟨-, hold⟩ | ⟨-, hnew⟩
    · exact hslot.admitted t hold
    · rw [hpc] at hnew
      cases hnew

/-- A step that assigns no box to a slot. -/
theorem next_of_not_enters (hslot : SlotRight g i) (hheld : LockedAlone g)
    (hs : DatedStep g e r g') (henters : (g.sys.pc e.thread).enters = false)
    (hleaves : (g.sys.pc e.thread).leaves = some i → g.since e.thread = g.made i) :
    SlotRight g' i := by
  cases step_counts hs.step with
  | enter n box hp =>
    rw [hp] at henters
    cases henters
  | publisherIn j fd hp hpc hm =>
    by_cases hij : i = j
    · subst hij
      exact hslot.of_publisherIn hheld hs hp hpc hm
    · refine hslot.of_other hs hm hij henters ?_ ?_ (by rw [hpc]; rfl)
      · rw [hp, hpc]
        exact ⟨nofun, fun heq => hij (Option.some_inj.mp heq).symm⟩
      · rw [hp, hpc]
        exact ⟨nofun, nofun⟩
  | publisherOut j fd hp hpc hm =>
    by_cases hij : i = j
    · subst hij
      exact hslot.of_publisherOut hs hp hpc (hleaves (by rw [hp]; rfl)) hm
    · refine hslot.of_other hs hm hij henters ?_ ?_ (by rw [hpc]; rfl)
      · rw [hp, hpc]
        exact ⟨fun heq => hij (Option.some_inj.mp heq).symm, nofun⟩
      · rw [hp, hpc]
        exact ⟨nofun, nofun⟩
  | subscriberIn j fd hp hpc hm =>
    by_cases hij : i = j
    · subst hij
      exact hslot.of_subscriberIn hs hp hpc hm
    · refine hslot.of_other hs hm hij henters ?_ ?_ (by rw [hpc]; rfl)
      · rw [hp, hpc]
        exact ⟨nofun, nofun⟩
      · rw [hp, hpc]
        exact ⟨nofun, fun heq => hij (Option.some_inj.mp heq).symm⟩
  | subscriberOut j fd hp hpc hm =>
    by_cases hij : i = j
    · subst hij
      exact hslot.of_subscriberOut hs hp hpc (hleaves (by rw [hp]; rfl)) hm
    · refine hslot.of_other hs hm hij henters ?_ ?_ (by rw [hpc]; rfl)
      · rw [hp, hpc]
        exact ⟨nofun, nofun⟩
      · rw [hp, hpc]
        exact ⟨fun heq => hij (Option.some_inj.mp heq).symm, nofun⟩
  | keep hm _ hregisters hpublishes hsubscribes hadmits =>
    refine hslot.of_keep hs hm henters hregisters hpublishes
      hsubscribes fun hnew => ?_
    exact (hadmits i hnew).imp_right And.right

theorem next (h : CountInv g) (hok : Orderly g e) (hs : DatedStep g e r g')
    (hi : 0 < g'.made i) : SlotRight g' i := by
  have hslot : g'.made i = g.made i → SlotRight g i := fun heq => h.slots i (heq ▸ hi)
  cases henters : (g.sys.pc e.thread).enters with
  | false =>
    exact (hslot (congrFun (hs.made_eq henters) i)).next_of_not_enters h.held hs henters
      (hok.leaves i)
  | true =>
    obtain ⟨n, box, hp, hpc, hbox, hm⟩ := (step_counts hs.step).entered henters
    by_cases hfree : freeSlot g.sys.broker.mbrokerBoxes = some i
    · refine of_enter h hs hp hpc hbox hfree ?_
      rw [hs.broker, hm]
      unfold enterBox
      simp only [hfree, Function.update_self]
    · refine (hslot ?_).of_not_entered hs hp hpc hfree (by rw [hs.broker, hm])
      rw [hs.made]
      exact if_neg fun h => hfree h.2

end SlotRight

/-- Every orderly step keeps the counters right. -/
theorem CountInv.next (h : CountInv g) (hok : Orderly g e) (hs : DatedStep g e r g') :
    CountInv g' where
  held := h.held.next hok.assigns hs
  made := by
    intro i hused
    rw [hs.broker] at hused
    rcases used_after hs.step hused with hold | hnew
    · exact (h.made i hold).trans_le hs.made_le
    · rw [hs.made, if_pos hnew]
      exact Nat.succ_pos _
  known := by
    intro t i ht
    by_cases hte : t = e.thread
    · rw [hte, hs.self] at ht
      rcases step_box hs.step ht with hold | ⟨-, hi, hused⟩
      · exact (h.known _ i hold).imp_right fun hmade => hmade.trans_le hs.made_le
      · exact ⟨hi, (h.made i hused).trans_le hs.made_le⟩
    · rw [(hs.others t hte).box] at ht
      exact (h.known t i ht).imp_right fun hmade => hmade.trans_le hs.made_le
  published t i := hs.since_le hs.publishes_others (step_counts hs.step).published
    (fun u => h.published u i) t
  subscribed t i := hs.since_le hs.subscribes_others (step_counts hs.step).subscribed
    (fun u => h.subscribed u i) t
  slots _ hi := SlotRight.next h hok hs hi

theorem CountInv.countsRight (h : CountInv g) : CountsRight g where
  single i _ hused := by
    have hslot := h.slots i (h.made i hused)
    rw [← hslot.publishers]
    exact hslot.single
  publishers i _ hused := (h.slots i (h.made i hused)).publishers
  subscribers i _ hused := (h.slots i (h.made i hused)).subscribers

/-! ### Whole runs -/

theorem countInv_of_reach (h : Reach Dated.next Dated.Initial Orderly g) : CountInv g := by
  induction h with
  | @init g hg =>
    obtain ⟨⟨⟨boxes, heap, hinit⟩, hpc⟩, hmade⟩ := hg
    constructor
    · constructor <;> simp [hpc, Pc.holds]
    · intro i hused
      rw [initMbroker_eq] at hinit
      rw [← Option.some_inj.mp hinit] at hused
      cases hused
    · simp [hpc, Pc.box]
    · simp [hpc, Pc.publishes]
    · simp [hpc, Pc.subscribes]
    · simp [hmade]
  | step _ hok hnext ih =>
    obtain ⟨r, hs⟩ := Dated.next_eq_some hnext
    exact ih.next hok hs

/-- An orderly decrement is of a positive counter. -/
theorem CountInv.counterPositive (h : CountInv g) (hok : Orderly g e) (hs : DatedStep g e r g') :
    CounterPositive g e where
  publisher := by
    intro i fd hp
    have hmade := (h.known e.thread i (by rw [hp]; rfl)).2
    rw [(h.slots i hmade).publishers]
    exact Dated.registered_pos hs.thread_lt (by rw [hp]; rfl) (hok.leaves i (by rw [hp]; rfl))
  subscriber := by
    intro i fd hp
    have hmade := (h.known e.thread i (by rw [hp]; rfl)).2
    rw [(h.slots i hmade).subscribers]
    exact Dated.registered_pos hs.thread_lt (by rw [hp]; rfl) (hok.leaves i (by rw [hp]; rfl))

private theorem subSize_one_ne {n : ℕ} (h : n < sizeRange) : subSize n 1 ≠ n := by
  unfold subSize sizeRange at *
  omega

/-- A publisher that leaves a slot which was assigned to a new box makes its counter wrong. -/
theorem CountInv.publisher_wrong (h : CountInv g) (hs : DatedStep g e r g') {fd : ℤ}
    (hp : g.sys.pc e.thread = .publisher (.lockedToLeave i fd))
    (hsince : g.since e.thread ≠ g.made i)
    (hused : (g.sys.broker.mbrokerBoxes i).allocState = .USED) : ¬ CountsRight g' := by
  intro hright
  have hslot := h.slots i (h.made i hused)
  have hi := (h.known e.thread i (by rw [hp]; rfl)).1
  have hmade : g'.made i = g.made i := by rw [hs.made_eq (by rw [hp]; rfl)]
  have hstep := hs.step
  rw [hp] at hstep
  cases hact : e.act with
  | accept | receive | send =>
    rw [hact] at hstep
    cases hstep
  | go =>
    rw [hact] at hstep
    obtain rfl := Option.some_inj.mp hstep
    have hsame : g'.publishers i = g.publishers i :=
      hs.registered_eq hs.publishes_others hmade (by simp [Pc.publishes, hsince])
    have hcount := hright.publishers i hi
    rw [hs.broker, hsame, ← hslot.publishers] at hcount
    simp only [Broker.setBox, Function.update_self] at hcount
    exact subSize_one_ne (hslot.single.trans_lt (by decide)) (hcount hused)

/-- A subscriber that leaves a slot which was assigned to a new box makes its counter wrong. -/
theorem CountInv.subscriber_wrong (h : CountInv g) (hs : DatedStep g e r g') {fd : ℤ}
    (hp : g.sys.pc e.thread = .subscriber (.leaving i fd))
    (hsince : g.since e.thread ≠ g.made i)
    (hused : (g.sys.broker.mbrokerBoxes i).allocState = .USED) : ¬ CountsRight g' := by
  intro hright
  have hslot := h.slots i (h.made i hused)
  have hi := (h.known e.thread i (by rw [hp]; rfl)).1
  have hmade : g'.made i = g.made i := by rw [hs.made_eq (by rw [hp]; rfl)]
  have hstep := hs.step
  rw [hp] at hstep
  cases hact : e.act with
  | accept | receive | send =>
    rw [hact] at hstep
    cases hstep
  | go =>
    rw [hact] at hstep
    obtain rfl := Option.some_inj.mp hstep
    have hsame : g'.subscribers i = g.subscribers i :=
      hs.registered_eq hs.subscribes_others hmade (by simp [Pc.subscribes, hsince])
    have hcount := hright.subscribers i hi
    rw [hs.broker, hsame, ← hslot.subscribers] at hcount
    simp only [Broker.setBox, Function.update_self] at hcount
    refine subSize_one_ne ?_ (hcount hused)
    rw [hslot.subscribers]
    exact SlotRight.subscribers_lt

/-- A session that leaves a slot which was assigned to a new box makes its counter wrong. -/
theorem CountInv.wrong_after (h : CountInv g) (hs : DatedStep g e r g')
    (hleaves : (g.sys.pc e.thread).leaves = some i) (hsince : g.since e.thread ≠ g.made i)
    (hused : (g.sys.broker.mbrokerBoxes i).allocState = .USED) : ¬ CountsRight g' := by
  cases hp : g.sys.pc e.thread with
  | idle | create | delete =>
    rw [hp] at hleaves
    cases hleaves
  | publisher p =>
    rw [hp] at hleaves
    cases p with
    | lockedToLeave =>
      obtain rfl := Option.some_inj.mp hleaves
      exact h.publisher_wrong hs hp hsince hused
    | _ => cases hleaves
  | subscriber p =>
    rw [hp] at hleaves
    cases p with
    | leaving =>
      obtain rfl := Option.some_inj.mp hleaves
      exact h.subscriber_wrong hs hp hsince hused
    | _ => cases hleaves

/-- When no slot is assigned to a new box while a thread has its mutex, and no session
decrements a counter of a slot that was assigned to a new box after it registered, every box in
use has at most one publisher, its counters are the numbers of its sessions, and no counter
wraps. The first session that decrements a counter of a newer box makes it wrong. -/
theorem counters_right (h : Reach Dated.next Dated.Initial Orderly g) :
    CountsRight g ∧
    (∀ e g', Orderly g e → g.next e = some g' → CounterPositive g e) ∧
    ∀ e g' i, (g.sys.pc e.thread).leaves = some i → g.since e.thread ≠ g.made i →
      (g.sys.broker.mbrokerBoxes i).allocState = .USED → g.next e = some g' →
      ¬ CountsRight g' := by
  have hinv := countInv_of_reach h
  refine ⟨hinv.countsRight, fun e g' hok hnext => ?_, fun e g' i hleaves hsince hused hnext => ?_⟩
  · obtain ⟨r, hs⟩ := Dated.next_eq_some hnext
    exact hinv.counterPositive hok hs
  · obtain ⟨r, hs⟩ := Dated.next_eq_some hnext
    exact hinv.wrong_after hs hleaves hsince hused

/-- A broker with three worker threads. -/
private def threeThreads : Dated :=
  ⟨⟨3, by decide, .fresh, fun _ => .idle⟩, fun _ => 0, fun _ => 0⟩

private theorem initial_threeThreads : threeThreads.Initial :=
  ⟨⟨⟨_, _, initMbroker_eq _ _⟩, rfl⟩, rfl⟩

/-- The name of a box. -/
private def countedBox : CString := Wire.ofArray [99]

/-- The name of another box. -/
private def laterBox : CString := Wire.ofArray [100]

/-- The test of `Orderly`. -/
private def orderlyCheck (g : Dated) (e : Turn) : Bool :=
  (!(g.sys.pc e.thread).enters || (freeSlot g.sys.broker.mbrokerBoxes).all fun i =>
    (List.range g.sys.maxSessions).all fun t => (g.sys.pc t).holds != some i) &&
  (g.sys.pc e.thread).leaves.all fun i => g.since e.thread = g.made i

private theorem orderly_of_check (h : orderlyCheck g e = true) : Orderly g e := by
  simp only [orderlyCheck, Bool.and_eq_true, Bool.or_eq_true, Bool.not_eq_true',
    Option.all_eq_true, List.all_eq_true, List.mem_range, bne_iff_ne, decide_eq_true_eq] at h
  obtain ⟨hassigns, hleaves⟩ := h
  refine ⟨fun henters i hfree t ht => ?_, hleaves⟩
  rcases hassigns with hfalse | hall
  · cases henters.symm.trans hfalse
  · exact hall i hfree t ht

/-- A publisher and a subscriber are registered on a box, and the publisher leaves. -/
theorem counters_right_two : ∃ g, Reach Dated.next Dated.Initial Orderly g ∧
    (g.sys.broker.mbrokerBoxes 0).nPublishers = 1 ∧
    (g.sys.broker.mbrokerBoxes 0).nSubscribers = 1 ∧
    g.sys.pc 1 = .publisher (.lockedToLeave 0 0) ∧ CountsRight g := by
  obtain ⟨g, hreach, hg⟩ := exists_reach_of_runList Dated.next Orderly orderlyCheck
    (fun _ _ => orderly_of_check)
    [⟨0, .accept 3 countedBox⟩, ⟨0, .go⟩, ⟨0, .go⟩, ⟨0, .go⟩, ⟨0, .go⟩,
      ⟨1, .accept 1 countedBox⟩, ⟨1, .go⟩, ⟨1, .go⟩, ⟨1, .go⟩, ⟨1, .go⟩, ⟨1, .go⟩,
      ⟨2, .accept 2 countedBox⟩, ⟨2, .go⟩, ⟨2, .go⟩, ⟨2, .go⟩, ⟨2, .go⟩,
      ⟨1, .receive none⟩, ⟨1, .go⟩]
    (fun g => decide ((g.sys.broker.mbrokerBoxes 0).nPublishers = 1) &&
      decide ((g.sys.broker.mbrokerBoxes 0).nSubscribers = 1) &&
      decide (g.sys.pc 1 = .publisher (.lockedToLeave 0 0)))
    initial_threeThreads (by decide +kernel)
  simp only [Bool.and_eq_true, decide_eq_true_eq] at hg
  exact ⟨g, hreach, hg.1.1, hg.1.2, hg.2, (counters_right hreach).1⟩

/-- A box is deleted while a publisher is registered on it, and another box is assigned to its
slot: when the publisher leaves, the new box has no publisher and a counter of `SIZE_MAX`. -/
theorem late_publisher_wraps : ¬ ∀ g, Reachable Dated.next Dated.Initial g →
    (∀ i < boxCountMax, (g.sys.broker.mbrokerBoxes i).mutex = false) → CountsRight g := by
  intro hall
  obtain ⟨g, hreach, hg⟩ := exists_of_runList Dated.next
    [⟨0, .accept 3 countedBox⟩, ⟨0, .go⟩, ⟨0, .go⟩, ⟨0, .go⟩, ⟨0, .go⟩,
      ⟨1, .accept 1 countedBox⟩, ⟨1, .go⟩, ⟨1, .go⟩, ⟨1, .go⟩, ⟨1, .go⟩, ⟨1, .go⟩,
      ⟨0, .accept 5 countedBox⟩, ⟨0, .go⟩, ⟨0, .go⟩, ⟨0, .go⟩, ⟨0, .go⟩, ⟨0, .go⟩, ⟨0, .go⟩,
      ⟨0, .accept 3 laterBox⟩, ⟨0, .go⟩, ⟨0, .go⟩, ⟨0, .go⟩, ⟨0, .go⟩,
      ⟨1, .receive none⟩, ⟨1, .go⟩, ⟨1, .go⟩, ⟨1, .go⟩, ⟨1, .go⟩]
    (fun g => (List.range boxCountMax).all (fun i => !(g.sys.broker.mbrokerBoxes i).mutex) &&
      decide ((g.sys.broker.mbrokerBoxes 0).allocState = .USED) &&
      decide ((g.sys.broker.mbrokerBoxes 0).nPublishers = sizeRange - 1) &&
      decide (g.publishers 0 = 0))
    initial_threeThreads (by decide +kernel)
  simp only [Bool.and_eq_true, decide_eq_true_eq, List.all_eq_true, List.mem_range,
    Bool.not_eq_true'] at hg
  obtain ⟨⟨⟨hfree, hused⟩, hcounter⟩, hzero⟩ := hg
  have hcount := (hall g hreach hfree).publishers 0 (by decide) hused
  rw [hcounter, hzero] at hcount
  cases hcount

end TfsBroker.Mbroker
