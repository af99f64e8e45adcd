import TfsBroker.Lib.Wire
import TfsBroker.Mbroker.Sessions

/-!
# The names of boxes under concurrent requests

Between the scan of `get_box` and the slot assignment a request to create a box lays
claim to its name. When no request passes the scan while another has a claim on the
same name, no two boxes have one name.

## Main results

* `step_table` — the two steps that change names or allocation states
* `Distinct.next` — what every step keeps
-/

namespace TfsBroker.Mbroker

open Fs2 Runs

variable {m m' : Broker} {x y : Sys} {e : Turn} {p : Pc} {a : Act} {r : Step} {n : CString}
  {box : Box} {i t u : ℕ}

/-! ### What a step does to the table -/

/-- The same names and allocation states in all slots. -/
def SameTable (m m' : Broker) : Prop :=
  ∀ i, (m'.mbrokerBoxes i).name = (m.mbrokerBoxes i).name ∧
    (m'.mbrokerBoxes i).allocState = (m.mbrokerBoxes i).allocState

namespace SameTable

theorem of_boxes (h : m'.mbrokerBoxes = m.mbrokerBoxes) : SameTable m m' := fun i => by
  rw [h]
  exact ⟨rfl, rfl⟩

theorem isBox_eq (h : SameTable m m') (i : ℕ) (n : CString) :
    isBox (m'.mbrokerBoxes i) n = isBox (m.mbrokerBoxes i) n := by
  obtain ⟨hname, hstate⟩ := h i
  simp only [isBox, hname, hstate]

theorem setBox (hname : box.name = (m.mbrokerBoxes i).name)
    (hstate : box.allocState = (m.mbrokerBoxes i).allocState) : SameTable m (m.setBox i box) := by
  intro j
  by_cases hj : j = i
  · subst hj
    simp [Broker.setBox, hname, hstate]
  · simp [Broker.setBox, Function.update_of_ne hj]

theorem unlock (m : Broker) (i : ℕ) : SameTable m (m.unlock i) := setBox rfl rfl

theorem lock (h : m.lock i = some m') : SameTable m m' := by
  unfold Broker.lock at h
  split at h
  · cases h
  · obtain rfl := Option.some_inj.mp h
    exact setBox rfl rfl

end SameTable

/-- A publisher changes neither names nor allocation states, and stays one until it
ends. -/
theorem publisherStep_table {p : PublisherPc} (h : publisherStep m p = some r) :
    SameTable m r.broker ∧ (r.pc = .idle ∨ ∃ p', r.pc = .publisher p') := by
  cases p with
  | found i | checked i | leaving i =>
    obtain ⟨m', hlock, rfl⟩ := Option.map_eq_some_iff.mp h
    exact ⟨.lock hlock, .inr ⟨_, rfl⟩⟩
  | locked | received | unlocked =>
    obtain rfl := Option.some_inj.mp h
    exact ⟨.of_boxes rfl, .inr ⟨_, rfl⟩⟩
  | opened | written | lockedToLeave =>
    obtain rfl := Option.some_inj.mp h
    exact ⟨.setBox rfl rfl, .inr ⟨_, rfl⟩⟩
  | counted | failed | sized | uncounted =>
    obtain rfl := Option.some_inj.mp h
    exact ⟨.unlock _ _, .inr ⟨_, rfl⟩⟩
  | refused =>
    obtain rfl := Option.some_inj.mp h
    exact ⟨.unlock _ _, .inl rfl⟩
  | admitted | writing =>
    obtain ⟨-, -, rfl⟩ := Option.map_eq_some_iff.mp h
    exact ⟨.of_boxes rfl, .inr ⟨_, rfl⟩⟩
  | left =>
    obtain ⟨-, -, rfl⟩ := Option.map_eq_some_iff.mp h
    exact ⟨.of_boxes rfl, .inl rfl⟩
  | waiting => cases h

/-- A subscriber changes neither names nor allocation states, and stays one until it
ends. -/
theorem subscriberStep_table {p : SubscriberPc} (h : subscriberStep m p = some r) :
    SameTable m r.broker ∧ (r.pc = .idle ∨ ∃ p', r.pc = .subscriber p') := by
  cases p with
  | found | looping | woken =>
    obtain ⟨m', hlock, rfl⟩ := Option.map_eq_some_iff.mp h
    exact ⟨.lock hlock, .inr ⟨_, rfl⟩⟩
  | read =>
    obtain rfl := Option.some_inj.mp h
    exact ⟨.of_boxes rfl, .inr ⟨_, rfl⟩⟩
  | opened | leaving =>
    obtain rfl := Option.some_inj.mp h
    exact ⟨.setBox rfl rfl, .inr ⟨_, rfl⟩⟩
  | counted | sent =>
    obtain rfl := Option.some_inj.mp h
    exact ⟨.unlock _ _, .inr ⟨_, rfl⟩⟩
  | refused | left =>
    obtain rfl := Option.some_inj.mp h
    exact ⟨.unlock _ _, .inl rfl⟩
  | looking =>
    simp only [subscriberStep] at h
    split at h <;> obtain rfl := Option.some_inj.mp h
    · exact ⟨.unlock _ _, .inr ⟨_, rfl⟩⟩
    · exact ⟨.of_boxes rfl, .inr ⟨_, rfl⟩⟩
  | locked | reading | uncounted =>
    obtain ⟨-, -, rfl⟩ := Option.map_eq_some_iff.mp h
    exact ⟨.of_boxes rfl, .inr ⟨_, rfl⟩⟩
  | asleep | sending => cases h

/-- The thread has a claim on the name `n`: it has scanned the table for it, and not
entered its box yet. -/
def Claims (p : Pc) (n : CString) : Prop := ∃ q, q ≠ .entered ∧ p = .create n q

/-- A request to create `n` has just found no box of that name. -/
def Scans (m : Broker) (p : Pc) (a : Act) (n : CString) : Prop :=
  p = .idle ∧ a = .accept createBoxOp n ∧ getBox m.mbrokerBoxes n = none

theorem not_claims {q : Pc} (h : ∀ n p, q ≠ .create n p) : ¬ Claims q n := by
  rintro ⟨p, -, hp⟩
  exact h n p hp

theorem accept_table (m : Broker) (opCode : ℕ) (boxName : CString) :
    (accept m opCode boxName).broker = m ∧ (∀ n p, (accept m opCode boxName).pc = .create n p →
      p = .absent ∧ opCode = createBoxOp ∧ n = boxName ∧ getBox m.mbrokerBoxes n = none) := by
  unfold accept
  have hne : registerPublisherOp ≠ createBoxOp ∧ registerSubscriberOp ≠ createBoxOp := by decide
  split
  · split <;> exact ⟨rfl, by simp⟩
  split
  · split <;> exact ⟨rfl, by simp⟩
  split
  · rename_i hop
    split
    · rename_i hnone
      refine ⟨rfl, fun n p hpc => ?_⟩
      obtain ⟨rfl, rfl⟩ := Pc.create.inj hpc
      exact ⟨rfl, hop, rfl, hnone⟩
    · exact ⟨rfl, by simp⟩
  split
  · split <;> exact ⟨rfl, by simp⟩
  · exact ⟨rfl, by simp⟩

/-- A step assigns a box to a slot, frees one, or leaves the table alone. A claim is
laid by a scan only. -/
theorem step_table (h : step m p a = some r) :
    (∃ n box, p = .create n .closed ∧ boxInitialize n = some box ∧ r.pc = .create n .entered ∧
      r.broker.mbrokerBoxes = enterBox m.mbrokerBoxes box) ∨
    (∃ i, p = .delete (.unlinked i) ∧ r.pc = .delete (.cleared i) ∧ r.broker.mbrokerBoxes =
      Function.update m.mbrokerBoxes i { m.mbrokerBoxes i with allocState := .NOT_USED }) ∨
    (SameTable m r.broker ∧
      ∀ n q, r.pc = .create n q → q ≠ .entered ∧ (Claims p n ∨ Scans m p a n)) := by
  unfold step at h
  split at h
  · -- a request
    obtain rfl := Option.some_inj.mp h
    rename_i opCode boxName
    obtain ⟨hbroker, hpc⟩ := accept_table m opCode boxName
    refine .inr (.inr ⟨.of_boxes (by rw [hbroker]), fun n q hq => ?_⟩)
    obtain ⟨rfl, rfl, rfl, hnone⟩ := hpc n q hq
    exact ⟨by simp, .inr ⟨rfl, rfl, hnone⟩⟩
  · rename_i boxName q
    cases q with
    | absent =>
      obtain ⟨box, -, h⟩ := Option.bind_eq_some_iff.mp h
      obtain ⟨-, -, rfl⟩ := Option.map_eq_some_iff.mp h
      refine .inr (.inr ⟨.of_boxes rfl, fun n q hq => ?_⟩)
      obtain ⟨rfl, rfl⟩ := Pc.create.inj hq
      exact ⟨by simp, .inl ⟨_, by simp, rfl⟩⟩
    | opened fd =>
      obtain ⟨⟨r', tfs⟩, -, rfl⟩ := Option.map_eq_some_iff.mp h
      refine .inr (.inr ⟨.of_boxes ?_, fun n q hq => ?_⟩)
      · dsimp only
        split <;> rfl
      · dsimp only at hq
        split at hq
        · cases hq
        · obtain ⟨rfl, rfl⟩ := Pc.create.inj hq
          exact ⟨by simp, .inl ⟨_, by simp, rfl⟩⟩
    | closed =>
      obtain ⟨box, hbox, hr⟩ := Option.map_eq_some_iff.mp h
      refine .inl ⟨boxName, box, rfl, hbox, ?_, ?_⟩ <;> rw [← hr]
    | entered =>
      obtain rfl := Option.some_inj.mp h
      exact .inr (.inr ⟨.of_boxes rfl, by simp⟩)
  · rename_i q
    cases q with
    | found i =>
      obtain ⟨m', hlock, rfl⟩ := Option.map_eq_some_iff.mp h
      exact .inr (.inr ⟨.lock hlock, by simp⟩)
    | locked i =>
      obtain ⟨⟨r', tfs⟩, -, rfl⟩ := Option.map_eq_some_iff.mp h
      refine .inr (.inr ⟨.of_boxes ?_, ?_⟩) <;> dsimp only
      · split <;> rfl
      · split <;> simp
    | unlinked i =>
      obtain rfl := Option.some_inj.mp h
      exact .inr (.inl ⟨i, rfl, rfl, rfl⟩)
    | cleared i =>
      obtain rfl := Option.some_inj.mp h
      exact .inr (.inr ⟨.unlock _ _, by simp⟩)
    | unlocked | deleted =>
      obtain rfl := Option.some_inj.mp h
      exact .inr (.inr ⟨.of_boxes rfl, by simp⟩)
  · obtain rfl := Option.some_inj.mp h
    exact .inr (.inr ⟨.of_boxes rfl, by simp⟩)
  · obtain ⟨hsame, hpc⟩ := publisherStep_table h
    refine .inr (.inr ⟨hsame, ?_⟩)
    obtain hpc | ⟨p', hpc⟩ := hpc <;> simp [hpc]
  · obtain rfl := Option.some_inj.mp h
    refine .inr (.inr ⟨.of_boxes ?_, ?_⟩) <;> split <;> simp
  · obtain ⟨hsame, hpc⟩ := subscriberStep_table h
    refine .inr (.inr ⟨hsame, ?_⟩)
    obtain hpc | ⟨p', hpc⟩ := hpc <;> simp [hpc]
  · cases h

/-! ### The other threads -/

/-- A broadcast moves no thread that creates a box. -/
theorem wakes_eq_create {o : Output} {pc : ℕ → Pc} {q : CreatePc} :
    o.wakes pc t = .create n q ↔ pc t = .create n q := by
  rcases Output.wakes_cases o pc t with heq | ⟨i, fd, k, hpc, heq⟩
  · rw [heq]
  · simp [hpc, heq]

/-! ### What every step keeps -/

/-- No request to create a box scans the table for a name on which another has a
claim. -/
def Undisturbed (x : Sys) (e : Turn) : Prop :=
  ∀ n, Scans x.broker (x.pc e.thread) e.act n → ∀ t < x.maxSessions, ¬ Claims (x.pc t) n

/-- No two boxes have one name, and a name with a claim on it has no box. -/
structure Distinct (x : Sys) : Prop where
  outside : ∀ t, x.maxSessions ≤ t → x.pc t = .idle
  slots : ∀ i < boxCountMax, ∀ j < boxCountMax, (x.broker.mbrokerBoxes i).allocState = .USED →
    (x.broker.mbrokerBoxes j).allocState = .USED →
    (x.broker.mbrokerBoxes i).name = (x.broker.mbrokerBoxes j).name → i = j
  claimed : ∀ t n, Claims (x.pc t) n → getBox x.broker.mbrokerBoxes n = none
  single : ∀ t u n, Claims (x.pc t) n → Claims (x.pc u) n → t = u

theorem wakes_eq_idle {o : Output} {pc : ℕ → Pc} : o.wakes pc t = .idle ↔ pc t = .idle := by
  rcases Output.wakes_cases o pc t with heq | ⟨i, fd, k, hpc, heq⟩
  · rw [heq]
  · simp [hpc, heq]

theorem SameTable.getBox_eq (h : SameTable m m') (n : CString) :
    getBox m'.mbrokerBoxes n = getBox m.mbrokerBoxes n := by
  unfold getBox
  simp only [h.isBox_eq]

theorem getBox_enterBox_ne {boxes : ℕ → Box} (h : getBox boxes n = none) (hne : box.name.tail ≠ n) :
    getBox (enterBox boxes box) n = none := by
  rw [getBox_eq_none] at h ⊢
  intro j hj
  rcases enterBox_cases boxes box j with hold | ⟨-, hnew⟩
  · rw [hold]
    exact h j hj
  · rw [hnew, Bool.eq_false_iff]
    exact fun hbox => hne (isBox_eq_true.mp hbox).2

/-- A claim of another thread was there before. -/
theorem claims_of_ne {o : Output} {pc : ℕ → Pc} (h : Claims (o.wakes pc t) n) : Claims (pc t) n := by
  obtain ⟨q, hq, hpc⟩ := h
  exact ⟨q, hq, wakes_eq_create.mp hpc⟩

namespace Distinct

/-- The threads after a step that lays no new claim. -/
theorem claim_of_next {pc pc' : ℕ → Pc} {o : Output} (hself : ∀ n, Claims (pc' u) n → Claims (pc u) n)
    (hother : ∀ t, t ≠ u → pc' t = o.wakes pc t) (h : Claims (pc' t) n) : Claims (pc t) n := by
  by_cases ht : t = u
  · subst ht
    exact hself n h
  · rw [hother t ht] at h
    exact claims_of_ne h

theorem next (h : Distinct x) (hok : Undisturbed x e) (hnext : x.next e = some y) : Distinct y := by
  obtain ⟨r, hstep, hbroker, hself, hother, hlt, hmax⟩ := Sys.next_eq_some hnext
  have houtside : ∀ t, y.maxSessions ≤ t → y.pc t = .idle := by
    intro t ht
    rw [hmax] at ht
    rw [hother t (hlt.trans_le ht).ne']
    exact wakes_eq_idle.mpr (h.outside t ht)
  have hin : ∀ t n, Claims (x.pc t) n → t < x.maxSessions := by
    intro t n ht
    by_contra hout
    rw [h.outside t (not_lt.mp hout)] at ht
    exact not_claims (by simp) ht
  rcases step_table hstep with ⟨n, box, hp, hbox, hpc, hboxes⟩ | ⟨i, hp, hpc, hboxes⟩ |
    ⟨hsame, hclaim⟩
  · -- the box of a claimed name gets a slot
    obtain ⟨-, rfl⟩ := boxInitialize_eq_some hbox
    have hmine : Claims (x.pc e.thread) n := ⟨_, by simp, hp⟩
    have hnone := getBox_eq_none.mp (h.claimed _ _ hmine)
    have hback : ∀ t n', Claims (y.pc t) n' → Claims (x.pc t) n' ∧ n' ≠ n := by
      intro t n' ht
      have hte : t ≠ e.thread := by
        rintro rfl
        obtain ⟨q, hq, hpc'⟩ := ht
        rw [hself, hpc] at hpc'
        exact hq (Pc.create.inj hpc').2.symm
      rw [hother t hte] at ht
      refine ⟨claims_of_ne ht, ?_⟩
      rintro rfl
      exact hte (h.single _ _ _ (claims_of_ne ht) hmine)
    -- another box does not have the name of the new one
    have hnew : ∀ j < boxCountMax, (x.broker.mbrokerBoxes j).allocState = .USED →
        (x.broker.mbrokerBoxes j).name ≠ slashed n := by
      intro j hj hused hname
      have hbox : isBox (x.broker.mbrokerBoxes j) n = true :=
        isBox_eq_true.mpr ⟨hused, by rw [hname, tail_slashed]⟩
      rw [hnone j hj] at hbox
      cases hbox
    refine ⟨houtside, ?_, fun t n' ht => ?_, fun t u n' ht hu => ?_⟩
    · intro j hj k hk
      rw [hbroker, hboxes]
      rcases enterBox_cases x.broker.mbrokerBoxes ⟨slashed n, 0, 0, 0, false, .USED⟩ j with
        hjold | ⟨hjslot, hjnew⟩ <;>
      rcases enterBox_cases x.broker.mbrokerBoxes ⟨slashed n, 0, 0, 0, false, .USED⟩ k with
        hkold | ⟨hkslot, hknew⟩
      · rw [hjold, hkold]
        exact h.slots j hj k hk
      · rw [hjold, hknew]
        exact fun hju _ hjk => absurd hjk (hnew j hj hju)
      · rw [hjnew, hkold]
        exact fun _ hku hjk => absurd hjk.symm (hnew k hk hku)
      · exact fun _ _ _ => Option.some_inj.mp (hjslot.symm.trans hkslot)
    · obtain ⟨ht, hne⟩ := hback t n' ht
      rw [hbroker, hboxes]
      exact getBox_enterBox_ne (h.claimed t n' ht) (by rw [tail_slashed]; exact hne.symm)
    · exact h.single t u n' (hback t n' ht).1 (hback u n' hu).1
  · -- a slot becomes free
    have hback : ∀ t n', Claims (y.pc t) n' → Claims (x.pc t) n' := fun t n' =>
      claim_of_next (fun n hn => absurd hn (not_claims (by simp [hself, hpc]))) hother
    have hused : ∀ j, (y.broker.mbrokerBoxes j).allocState = .USED →
        j ≠ i ∧ y.broker.mbrokerBoxes j = x.broker.mbrokerBoxes j := by
      intro j hj
      rw [hbroker, hboxes] at hj ⊢
      have hji : j ≠ i := by
        rintro rfl
        rw [Function.update_self] at hj
        cases hj
      exact ⟨hji, Function.update_of_ne hji _ _⟩
    refine ⟨houtside, fun j hj k hk hju hku hjk => ?_, fun t n' ht => ?_,
      fun t u n' ht hu => ?_⟩
    · have hjold := (hused j hju).2
      have hkold := (hused k hku).2
      rw [hjold] at hju hjk
      rw [hkold] at hku hjk
      exact h.slots j hj k hk hju hku hjk
    · have hnone := getBox_eq_none.mp (h.claimed t n' (hback t n' ht))
      refine getBox_eq_none.mpr fun j hj => ?_
      rw [Bool.eq_false_iff]
      intro hbox
      rw [(hused j (isBox_eq_true.mp hbox).1).2, hnone j hj] at hbox
      cases hbox
    · exact h.single t u n' (hback t n' ht) (hback u n' hu)
  · -- the table stays, and a new claim is on a name without a box and without another claim
    rw [← hbroker] at hsame
    have hback : ∀ t n', Claims (y.pc t) n' → Claims (x.pc t) n' ∨
        t = e.thread ∧ Scans x.broker (x.pc e.thread) e.act n' := by
      intro t n' ht
      by_cases hte : t = e.thread
      · subst hte
        rw [hself] at ht
        obtain ⟨q, -, hq⟩ := ht
        exact (hclaim n' q hq).2.imp_right fun hscan => ⟨rfl, hscan⟩
      · rw [hother t hte] at ht
        exact .inl (claims_of_ne ht)
    refine ⟨houtside, fun j hj k hk hju hku hjk => ?_, fun t n' ht => ?_,
      fun t u n' ht hu => ?_⟩
    · rw [(hsame j).2] at hju
      rw [(hsame k).2] at hku
      rw [(hsame j).1, (hsame k).1] at hjk
      exact h.slots j hj k hk hju hku hjk
    · rw [hsame.getBox_eq]
      rcases hback t n' ht with hold | ⟨-, hscan⟩
      · exact h.claimed t n' hold
      · exact hscan.2.2
    · rcases hback t n' ht with hold | ⟨rfl, hscan⟩ <;>
        rcases hback u n' hu with hold' | ⟨rfl, hscan'⟩
      · exact h.single t u n' hold hold'
      · exact absurd hold (hok n' hscan' t (hin t n' hold))
      · exact absurd hold' (hok n' hscan u (hin u n' hold'))
      · rfl

end Distinct

theorem Sys.Initial.distinct (h : x.Initial) : Distinct x := by
  obtain ⟨⟨boxes, heap, hinit⟩, hpc⟩ := h
  rw [initMbroker_eq] at hinit
  have hclaim : ∀ t n, ¬ Claims (x.pc t) n := by
    intro t n
    rw [hpc]
    exact not_claims (by simp)
  refine ⟨fun t _ => by rw [hpc], fun i _ j _ hi => ?_, fun t n ht => absurd ht (hclaim t n),
    fun t u n ht => absurd ht (hclaim t n)⟩
  rw [← Option.some_inj.mp hinit] at hi
  cases hi

/-- The name a request to create a box is about, in this step. -/
def createName : Pc → Act → Option CString
  | .create n _, _ => some n
  | .idle, .accept opCode n => if opCode = createBoxOp then some n else none
  | _, _ => none

/-- The return code of a response. -/
def Output.retCode : Output → Option ℤ
  | respond resp => some resp.retCode
  | none | broadcast _ | deliver _ => Option.none

/-- The return code, if the step answers a request to create `n`. -/
def createAnswer (n : CString) (p : Pc) (a : Act) (r : Step) : Option ℤ :=
  if createName p a = some n then r.output.retCode else none

/-- The system, with the number of requests to create one name that were answered 0,
and of those that were answered otherwise. -/
structure Tally where
  sys : Sys
  zero : ℕ
  refused : ℕ

/-- Count one answer. -/
def Tally.count (g : Tally) (y : Sys) : Option ℤ → Tally
  | none => ⟨y, g.zero, g.refused⟩
  | some ret => if ret = 0 then ⟨y, g.zero + 1, g.refused⟩ else ⟨y, g.zero, g.refused + 1⟩

/-- A step of the system, with the requests to create `n` counted. -/
def Tally.next (n : CString) (g : Tally) (e : Turn) : Option Tally :=
  (g.sys.next e).bind fun y =>
    (step g.sys.broker (g.sys.pc e.thread) e.act).map fun r =>
      g.count y (createAnswer n (g.sys.pc e.thread) e.act r)

/-- No request to create `n` is refused by `tfs_open` or finds no slot, and no box of
that name is deleted. -/
structure Room (n : CString) (x : Sys) (e : Turn) : Prop where
  opens : x.pc e.thread = .create n .absent → ∀ box tfs, boxInitialize n = some box →
    tfsOpen x.broker.tfs (some box.name) tfsOCreat ≠ .ret (-1, tfs)
  slot : x.pc e.thread = .create n .closed → freeSlot x.broker.mbrokerBoxes ≠ none
  keeps : ∀ i, x.pc e.thread = .delete (.unlinked i) → isBox (x.broker.mbrokerBoxes i) n = false

/-- What one step has to do with requests to create `n`. -/
inductive NameStep (n : CString) (m : Broker) : Pc → Act → Step → Prop
  | scan : getBox m.mbrokerBoxes n = none →
      NameStep n m .idle (.accept createBoxOp n) ⟨m, .create n .absent, .none⟩
  | duplicate {resp : ManagerResponse} : getBox m.mbrokerBoxes n ≠ none → resp.retCode = -1 →
      NameStep n m .idle (.accept createBoxOp n) ⟨m, .idle, .respond resp⟩
  | opens {box : Box} {fd : ℤ} {tfs : State} : boxInitialize n = some box →
      tfsOpen m.tfs (some box.name) tfsOCreat = .ret (fd, tfs) →
      NameStep n m (.create n .absent) .go ⟨{ m with tfs }, .create n (.opened fd), .none⟩
  | closes {fd : ℤ} {tfs : State} : fd ≠ -1 →
      NameStep n m (.create n (.opened fd)) .go ⟨{ m with tfs }, .create n .closed, .none⟩
  | refuses {tfs : State} {resp : ManagerResponse} : resp.retCode = -1 →
      NameStep n m (.create n (.opened (-1))) .go ⟨{ m with tfs }, .idle, .respond resp⟩
  | enters {box : Box} : boxInitialize n = some box →
      NameStep n m (.create n .closed) .go
        ⟨{ m with mbrokerBoxes := enterBox m.mbrokerBoxes box }, .create n .entered, .none⟩
  | answers {count : ℤ} {resp : ManagerResponse} : resp.retCode = 0 →
      NameStep n m (.create n .entered) .go ⟨{ m with boxCount := count }, .idle, .respond resp⟩
  | other {p : Pc} {a : Act} {r : Step} : createName p a ≠ some n → (∀ q, r.pc ≠ .create n q) →
      ((∀ i, p = .delete (.unlinked i) → isBox (m.mbrokerBoxes i) n = false) →
        (getBox r.broker.mbrokerBoxes n = none ↔ getBox m.mbrokerBoxes n = none)) →
      NameStep n m p a r

/-- The slot of a box in use is not free for another. -/
theorem getBox_enterBox_iff {boxes : ℕ → Box} (hne : box.name.tail ≠ n) :
    getBox (enterBox boxes box) n = none ↔ getBox boxes n = none := by
  refine ⟨fun h => ?_, fun h => getBox_enterBox_ne h hne⟩
  rw [getBox_eq_none] at h ⊢
  intro j hj
  rw [Bool.eq_false_iff]
  intro hbox
  rcases enterBox_cases boxes box j with hold | ⟨hslot, -⟩
  · have hfalse := h j hj
    rw [hold, hbox] at hfalse
    cases hfalse
  · have hused := (isBox_eq_true.mp hbox).1
    rw [(freeSlot_eq_some hslot).2] at hused
    cases hused

/-- A step that is not one of a request to create `n`. -/
theorem nameStep_other (h : step m p a = some r) (hname : createName p a ≠ some n) :
    NameStep n m p a r := by
  rcases step_table h with ⟨n', box, rfl, hbox, hpc, hboxes⟩ | ⟨i, rfl, hpc, hboxes⟩ | ⟨hsame, hclaim⟩
  · have hne : n' ≠ n := fun heq => hname (by rw [createName, heq])
    refine .other hname (fun q hq => ?_) fun _ => ?_
    · rw [hpc] at hq
      exact hne (Pc.create.inj hq).1
    · obtain ⟨-, rfl⟩ := boxInitialize_eq_some hbox
      rw [hboxes]
      exact getBox_enterBox_iff (by rwa [tail_slashed])
  · refine .other hname (by simp [hpc]) fun hkeeps => ?_
    have hi := hkeeps i rfl
    have hall : ∀ j, isBox (r.broker.mbrokerBoxes j) n = isBox (m.mbrokerBoxes j) n := by
      intro j
      rw [hboxes]
      by_cases hji : j = i
      · subst hji
        rw [Function.update_self, hi]
        simp [isBox]
      · rw [Function.update_of_ne hji]
    rw [getBox_eq_none, getBox_eq_none]
    simp only [hall]
  · refine .other hname (fun q hq => ?_) fun _ => by rw [hsame.getBox_eq]
    rcases (hclaim n q hq).2 with ⟨q', -, rfl⟩ | ⟨rfl, rfl, -⟩
    · exact hname rfl
    · exact hname (by simp [createName])

theorem step_name (h : step m p a = some r) (n : CString) : NameStep n m p a r := by
  by_cases hname : createName p a = some n
  swap
  · exact nameStep_other h hname
  unfold createName at hname
  split at hname
  · -- a request that has scanned the table
    obtain rfl := Option.some_inj.mp hname
    rename_i n q
    cases a with
    | go =>
      cases q with
      | absent =>
        obtain ⟨box, hbox, h⟩ := Option.bind_eq_some_iff.mp h
        obtain ⟨⟨fd, tfs⟩, hopen, rfl⟩ := Option.map_eq_some_iff.mp h
        exact .opens hbox (Outcome.toOption_eq_some.mp hopen)
      | opened fd =>
        obtain ⟨⟨r', tfs⟩, -, rfl⟩ := Option.map_eq_some_iff.mp h
        dsimp only
        split
        · rename_i hfd
          subst hfd
          exact .refuses rfl
        · rename_i hfd
          exact .closes hfd
      | closed =>
        obtain ⟨box, hbox, hr⟩ := Option.map_eq_some_iff.mp h
        rw [← hr]
        exact .enters hbox
      | entered =>
        obtain rfl := Option.some_inj.mp h
        exact .answers rfl
    | accept | receive | send => cases h
  · -- the scan
    split at hname
    · rename_i hop
      subst hop
      obtain rfl := Option.some_inj.mp hname
      obtain rfl := Option.some_inj.mp h
      have hpub : createBoxOp ≠ registerPublisherOp := by decide
      have hsub : createBoxOp ≠ registerSubscriberOp := by decide
      unfold accept
      rw [if_neg hpub, if_neg hsub, if_pos rfl]
      split
      · rename_i hnone
        exact .scan hnone
      · rename_i i hi
        exact .duplicate (by simp [hi]) rfl
    · cases hname
  · cases hname

/-- How far the requests to create `n` have come: none was made, one has a claim on the
name, it has entered the box, or it was answered 0. -/
inductive Stage (n : CString) (g : Tally) : Prop
  | unclaimed : g.zero = 0 → g.refused = 0 → getBox g.sys.broker.mbrokerBoxes n = none →
      (∀ u q, g.sys.pc u ≠ .create n q) → Stage n g
  | claimed {t : ℕ} {q : CreatePc} : g.zero = 0 → g.refused = 0 →
      getBox g.sys.broker.mbrokerBoxes n = none → t < g.sys.maxSessions →
      g.sys.pc t = .create n q → q ≠ .entered → q ≠ .opened (-1) →
      (∀ u q, g.sys.pc u = .create n q → u = t) → Stage n g
  | entered {t : ℕ} : g.zero = 0 → getBox g.sys.broker.mbrokerBoxes n ≠ none →
      t < g.sys.maxSessions → g.sys.pc t = .create n .entered →
      (∀ u q, g.sys.pc u = .create n q → u = t) → Stage n g
  | answered : g.zero = 1 → getBox g.sys.broker.mbrokerBoxes n ≠ none →
      (∀ u q, g.sys.pc u ≠ .create n q) → Stage n g

theorem Tally.next_eq_some {g g' : Tally} (h : g.next n e = some g') : ∃ y r,
    g.sys.next e = some y ∧ step g.sys.broker (g.sys.pc e.thread) e.act = some r ∧
      g' = g.count y (createAnswer n (g.sys.pc e.thread) e.act r) := by
  obtain ⟨y, hy, h⟩ := Option.bind_eq_some_iff.mp h
  obtain ⟨r, hr, rfl⟩ := Option.map_eq_some_iff.mp h
  exact ⟨y, r, hy, hr, rfl⟩

@[simp] theorem Tally.count_none (g : Tally) (y : Sys) :
    g.count y none = ⟨y, g.zero, g.refused⟩ := rfl

@[simp] theorem Tally.count_zero (g : Tally) (y : Sys) :
    g.count y (some 0) = ⟨y, g.zero + 1, g.refused⟩ := rfl

@[simp] theorem Tally.count_neg_one (g : Tally) (y : Sys) :
    g.count y (some (-1)) = ⟨y, g.zero, g.refused + 1⟩ := rfl

/-- The stage while a request to create `n` is under way. -/
theorem Stage.of_creating {g : Tally} {q : CreatePc} (h : Stage n g) (ht : g.sys.pc t = .create n q) :
    (∀ u q', g.sys.pc u = .create n q' → u = t) ∧ g.zero = 0 ∧
      (q = .entered ∧ getBox g.sys.broker.mbrokerBoxes n ≠ none ∨ q ≠ .entered ∧
        q ≠ .opened (-1) ∧ g.refused = 0 ∧ getBox g.sys.broker.mbrokerBoxes n = none) := by
  cases h with
  | unclaimed _ _ _ hall | answered _ _ hall => exact absurd ht (hall t q)
  | claimed hz hr hnone _ hu hq hq' huniq =>
    obtain rfl := huniq t q ht
    obtain ⟨-, rfl⟩ := Pc.create.inj (hu.symm.trans ht)
    exact ⟨huniq, hz, .inr ⟨hq, hq', hr, hnone⟩⟩
  | entered hz hbox _ hu huniq =>
    obtain rfl := huniq t q ht
    obtain ⟨-, rfl⟩ := Pc.create.inj (hu.symm.trans ht)
    exact ⟨huniq, hz, .inl ⟨rfl, hbox⟩⟩

/-- A step that is not one of a request to create `n`. -/
theorem Stage.other {g : Tally} {y : Sys} (h : Stage n g) (hmax : y.maxSessions = g.sys.maxSessions)
    (hbox : getBox y.broker.mbrokerBoxes n = none ↔ getBox g.sys.broker.mbrokerBoxes n = none)
    (hpc : ∀ u q, y.pc u = .create n q ↔ g.sys.pc u = .create n q) :
    Stage n ⟨y, g.zero, g.refused⟩ := by
  cases h with
  | unclaimed hz hr hnone hall =>
    exact .unclaimed hz hr (hbox.mpr hnone) fun u q hu => hall u q ((hpc u q).mp hu)
  | claimed hz hr hnone hlt ht hq hq' huniq =>
    exact .claimed hz hr (hbox.mpr hnone) (hmax.symm ▸ hlt) ((hpc _ _).mpr ht) hq hq'
      fun u q hu => huniq u q ((hpc u q).mp hu)
  | entered hz hnone hlt ht huniq =>
    exact .entered hz (fun hy => hnone (hbox.mp hy)) (hmax.symm ▸ hlt) ((hpc _ _).mpr ht)
      fun u q hu => huniq u q ((hpc u q).mp hu)
  | answered hz hnone hall =>
    exact .answered hz (fun hy => hnone (hbox.mp hy)) fun u q hu => hall u q ((hpc u q).mp hu)

/-- A request for a name that has a box is refused. -/
theorem Stage.refuse {g : Tally} (h : Stage n g) (hbox : getBox g.sys.broker.mbrokerBoxes n ≠ none) :
    Stage n ⟨g.sys, g.zero, g.refused + 1⟩ := by
  cases h with
  | unclaimed _ _ hnone | claimed _ _ hnone => exact absurd hnone hbox
  | entered hz _ hlt ht huniq => exact .entered hz hbox hlt ht huniq
  | answered hz _ hall => exact .answered hz hbox hall

theorem Stage.next {g g' : Tally} (h : Stage n g) (hok : Undisturbed g.sys e ∧ Room n g.sys e)
    (hnext : g.next n e = some g') : Stage n g' := by
  obtain ⟨y, r, hy, hr, rfl⟩ := Tally.next_eq_some hnext
  obtain ⟨r', hr', hbroker, hself, hother, hlt, hmax⟩ := Sys.next_eq_some hy
  obtain rfl := Option.some_inj.mp (hr.symm.trans hr')
  obtain ⟨hundisturbed, hopens, hslot, hkeeps⟩ := hok
  have hundisturbed := hundisturbed n
  have hname := step_name hr n
  -- the other threads
  have hstay : ∀ u q, u ≠ e.thread → (y.pc u = .create n q ↔ g.sys.pc u = .create n q) := by
    intro u q hue
    rw [hother u hue]
    exact wakes_eq_create
  generalize hp : g.sys.pc e.thread = p at *
  generalize e.act = a at *
  -- a request under way is the only one
  have hmine : ∀ q q', p = .create n q → ∀ u, y.pc u = .create n q' → u = e.thread := by
    intro q q' hq u hu
    by_contra hue
    exact hue ((h.of_creating (hp.trans hq)).1 u q' ((hstay u q' hue).mp hu))
  cases hname with
  | scan hnone =>
    have hcount : createAnswer n .idle (.accept createBoxOp n)
        ⟨g.sys.broker, .create n .absent, .none⟩ = none := by simp [createAnswer, Output.retCode]
    have hnone' : getBox y.broker.mbrokerBoxes n = none := by
      rw [hbroker]
      exact hnone
    rw [hcount, Tally.count_none]
    cases h with
    | unclaimed hz hr' _ hall =>
      refine .claimed hz hr' hnone' (hmax ▸ hlt) hself (by simp) (by simp) fun u q hu => ?_
      by_contra hue
      exact hall u q ((hstay u q hue).mp hu)
    | claimed _ _ _ htlt ht hq =>
      -- the scan would disturb the claim
      exact absurd ⟨_, hq, ht⟩ (hundisturbed ⟨rfl, rfl, hnone⟩ _ htlt)
    | entered _ hbox | answered _ hbox => exact absurd hnone hbox
  | @duplicate resp hbox hret =>
    have hcount : createAnswer n .idle (.accept createBoxOp n)
        ⟨g.sys.broker, .idle, .respond resp⟩ = some (-1) := by
      simp [createAnswer, createName, Output.retCode, hret]
    rw [hcount, Tally.count_neg_one]
    have hbox' : getBox y.broker.mbrokerBoxes n ≠ none := by
      rw [hbroker]
      exact hbox
    have hsame : Stage n ⟨y, g.zero, g.refused⟩ := by
      refine h.other hmax (iff_of_false hbox' hbox) fun u q => ?_
      by_cases hue : u = e.thread
      · subst hue
        rw [hself, hp]
      · exact hstay u q hue
    exact hsame.refuse hbox'
  | @opens box fd tfs hbox hopen =>
    have hcount : createAnswer n (.create n .absent) .go
        ⟨{ g.sys.broker with tfs }, .create n (.opened fd), .none⟩ = none := by
      simp [createAnswer, Output.retCode]
    rw [hcount, Tally.count_none]
    have hfd : fd ≠ -1 := by
      rintro rfl
      exact hopens rfl box tfs hbox hopen
    obtain ⟨-, hz, ⟨hq, -⟩ | ⟨-, -, hr', hnone⟩⟩ := h.of_creating hp
    · cases hq
    · have hnone' : getBox y.broker.mbrokerBoxes n = none := by
        rw [hbroker]
        exact hnone
      exact .claimed hz hr' hnone' (hmax ▸ hlt) hself (by simp) (by simpa using hfd)
        fun u q hu => hmine _ q rfl u hu
  | @closes fd tfs hfd =>
    have hcount : createAnswer n (.create n (.opened fd)) .go
        ⟨{ g.sys.broker with tfs }, .create n .closed, .none⟩ = none := by
      simp [createAnswer, Output.retCode]
    rw [hcount, Tally.count_none]
    obtain ⟨-, hz, ⟨hq, -⟩ | ⟨-, -, hr', hnone⟩⟩ := h.of_creating hp
    · cases hq
    · have hnone' : getBox y.broker.mbrokerBoxes n = none := by
        rw [hbroker]
        exact hnone
      exact .claimed hz hr' hnone' (hmax ▸ hlt) hself (by simp) (by simp)
        fun u q hu => hmine _ q rfl u hu
  | refuses hret =>
    obtain ⟨-, -, ⟨hq, -⟩ | ⟨-, hq, -⟩⟩ := h.of_creating hp
    · cases hq
    · exact absurd rfl hq
  | @enters box hbox =>
    have hcount : createAnswer n (.create n .closed) .go
        ⟨{ g.sys.broker with mbrokerBoxes := enterBox g.sys.broker.mbrokerBoxes box },
          .create n .entered, .none⟩ = none := by
      simp [createAnswer, Output.retCode]
    rw [hcount, Tally.count_none]
    obtain ⟨-, hz, ⟨hq, -⟩ | ⟨-, -, hr', hnone⟩⟩ := h.of_creating hp
    · cases hq
    · obtain ⟨i, hi⟩ := Option.ne_none_iff_exists'.mp (hslot rfl)
      obtain ⟨-, rfl⟩ := boxInitialize_eq_some hbox
      have hfound := getBox_update hnone (freeSlot_eq_some hi).1
        (isBox_eq_true.mpr ⟨rfl, tail_slashed⟩ :
          isBox ⟨slashed n, 0, 0, 0, false, .USED⟩ n = true)
      have hbox' : getBox y.broker.mbrokerBoxes n ≠ none := by
        rw [hbroker]
        unfold enterBox
        simp only [hi, hfound, ne_eq, not_false_eq_true, reduceCtorEq]
      exact .entered hz hbox' (hmax ▸ hlt) hself fun u q hu => hmine _ q rfl u hu
  | @answers count resp hret =>
    have hcount : createAnswer n (.create n .entered) .go
        ⟨{ g.sys.broker with boxCount := count }, .idle, .respond resp⟩ = some 0 := by
      simp [createAnswer, createName, Output.retCode, hret]
    rw [hcount, Tally.count_zero]
    obtain ⟨-, hz, ⟨-, hbox⟩ | ⟨hq, -⟩⟩ := h.of_creating hp
    · have hbox' : getBox y.broker.mbrokerBoxes n ≠ none := by
        rw [hbroker]
        exact hbox
      refine .answered (by rw [hz]) hbox' fun u q hu => ?_
      obtain rfl := hmine _ q rfl u hu
      rw [hself] at hu
      cases hu
    · exact absurd rfl hq
  | other hne hpc hiff =>
    have hcount : createAnswer n p a r = none := if_neg hne
    rw [hcount, Tally.count_none]
    refine h.other hmax (by rw [hbroker]; exact hiff hkeeps) fun u q => ?_
    by_cases hue : u = e.thread
    · subst hue
      rw [hself, hp]
      refine iff_of_false (hpc q) ?_
      rintro rfl
      exact hne rfl
    · exact hstay u q hue

/-! ### Whole runs -/

/-- The name of the boxes. -/
private def name : CString := Wire.ofArray [97]

end TfsBroker.Mbroker
