import TfsBroker.Mbroker.Sessions
import TfsBroker.Fs2.Directory
import Mathlib.Logic.Relation

/-!
# What one step of a worker thread does

Two inversions of `step`. One is about the table of boxes: a step locks a box, unlocks the
box it holds, edits that box, assigns a new box to a slot, or leaves the table alone; a
`delete_box` whose `tfs_unlink` fails ends with its box locked. The other is about the file
system: a step makes calls that leave the names alone, opens a file with `TFS_O_CREAT`, or
unlinks one.

## Main results

* `step_boxes` — the table of boxes
* `step_calls` — the file system
* `Sys.sound` — the directory agrees with the inode table in every state
-/

namespace TfsBroker.Mbroker

open Fs2 Runs Relation

variable {m m' : Broker} {x y : Sys} {e : Turn} {p : Pc} {a : Act} {r : Step} {i t : ℕ}

/-! ### The table of boxes -/

/-- The box whose mutex `delete_box` holds. -/
def DeletePc.holds : DeletePc → Option ℕ
  | locked i | unlinked i | cleared i => some i
  | found _ | unlocked _ | deleted => none

/-- The box whose mutex `handle_publisher` holds. -/
def PublisherPc.holds : PublisherPc → Option ℕ
  | locked i | admitted i | refused i | opened i _ | counted i _ | writing i _ _ | failed i _
  | written i _ _ | sized i _ | lockedToLeave i _ | uncounted i _ => some i
  | found _ | waiting _ _ | received _ _ _ | checked _ _ _ | unlocked _ _ | leaving _ _ | left _ =>
    none

/-- The box whose mutex `handle_subscriber` holds. -/
def SubscriberPc.holds : SubscriberPc → Option ℕ
  | locked i | refused i | opened i _ | counted i _ | looking i _ _ | reading i _ _
  | read i _ _ _ _ | sending i _ _ _ | sent i _ _ | leaving i _ | uncounted i _ | left i => some i
  | found _ | looping _ _ _ | asleep _ _ _ | woken _ _ _ => none

/-- The box whose mutex the thread has locked and not unlocked. -/
def Pc.holds : Pc → Option ℕ
  | idle | create _ _ => none
  | delete p => p.holds
  | publisher p => p.holds
  | subscriber p => p.holds

/-- What a step does to the table of boxes, and to the mutex that the thread holds. -/
inductive BoxStep (m : Broker) (p : Pc) (r : Step) : Prop
  /-- `mutex_lock`. -/
  | lock (i : ℕ) (hp : p.holds = none) (hr : r.pc.holds = some i)
      (hfree : (m.mbrokerBoxes i).mutex = false)
      (hm : r.broker.mbrokerBoxes =
        Function.update m.mbrokerBoxes i { m.mbrokerBoxes i with mutex := true })
  /-- `mutex_unlock`. -/
  | unlock (i : ℕ) (hp : p.holds = some i) (hr : r.pc.holds = none)
      (hm : r.broker.mbrokerBoxes =
        Function.update m.mbrokerBoxes i { m.mbrokerBoxes i with mutex := false })
  /-- A field of the box that the thread holds. -/
  | edit (i : ℕ) (box : Box) (hp : p.holds = some i) (hr : r.pc.holds = some i)
      (hmutex : box.mutex = (m.mbrokerBoxes i).mutex)
      (hm : r.broker.mbrokerBoxes = Function.update m.mbrokerBoxes i box)
  /-- The slot assignment of `create_box`. -/
  | enter (boxName : CString) (box : Box) (hp : p = .create boxName .closed)
      (hr : r.pc = .create boxName .entered) (hbox : boxInitialize boxName = some box)
      (hm : r.broker.mbrokerBoxes = enterBox m.mbrokerBoxes box)
  /-- The early return of `delete_box`. -/
  | fail (i : ℕ) (tfs : State) (ret : ℤ) (hp : p = .delete (.locked i)) (hr : r.pc = .idle)
      (hunlink : tfsUnlink m.tfs (some (m.mbrokerBoxes i).name) = .ret (ret, tfs)) (hret : ret ≠ 0)
      (hm : r.broker.mbrokerBoxes = m.mbrokerBoxes)
  | keep (hr : r.pc.holds = p.holds) (hm : r.broker.mbrokerBoxes = m.mbrokerBoxes)

namespace BoxStep

/-- A step that begins with `mutex_lock`. -/
theorem of_lock {f : Broker → Step} (h : (m.lock i).map f = some r) (hp : p.holds = none)
    (hr : ∀ m, (f m).pc.holds = some i)
    (hm : ∀ m, (f m).broker.mbrokerBoxes = m.mbrokerBoxes := by intro; rfl) : BoxStep m p r := by
  obtain ⟨m', hlock, rfl⟩ := Option.map_eq_some_iff.mp h
  unfold Broker.lock at hlock
  split at hlock
  · cases hlock
  · rename_i hfree
    obtain rfl := Option.some_inj.mp hlock
    exact .lock i hp (hr _) (Bool.eq_false_of_not_eq_true hfree) (hm _)

/-- A step that assigns to a field of the box. -/
theorem of_edit {box : Box} (hp : p.holds = some i) (hr : r.pc.holds = some i)
    (hm : r.broker = m.setBox i box) (hmutex : box.mutex = (m.mbrokerBoxes i).mutex) :
    BoxStep m p r :=
  .edit i box hp hr hmutex (by rw [hm]; rfl)

/-- A step that ends with `mutex_unlock`. -/
theorem of_unlock (hp : p.holds = some i) (hr : r.pc.holds = none)
    (hm : r.broker = m.unlock i) : BoxStep m p r :=
  .unlock i hp hr (by rw [hm]; rfl)

/-- A step that is a call of the file system. -/
theorem of_call {α : Type*} {o : Option α} {f : α → Step} (h : o.map f = some r)
    (hr : ∀ z, (f z).pc.holds = p.holds)
    (hm : ∀ z, (f z).broker.mbrokerBoxes = m.mbrokerBoxes := by intro; rfl) : BoxStep m p r := by
  obtain ⟨z, -, rfl⟩ := Option.map_eq_some_iff.mp h
  exact .keep (hr z) (hm z)

end BoxStep

theorem deleteStep_boxes {p : DeletePc} (h : deleteStep m p = some r) :
    BoxStep m (.delete p) r := by
  cases p with
  | found i => exact .of_lock h rfl fun _ => rfl
  | locked i =>
    obtain ⟨⟨ret, tfs⟩, hunlink, rfl⟩ := Option.map_eq_some_iff.mp h
    rw [Outcome.toOption_eq_some] at hunlink
    dsimp only
    split
    · rename_i hret
      exact .fail i tfs ret rfl rfl hunlink hret rfl
    · exact .keep rfl rfl
  | unlinked i =>
    obtain rfl := Option.some_inj.mp h
    exact .of_edit rfl rfl rfl rfl
  | cleared i =>
    obtain rfl := Option.some_inj.mp h
    exact .of_unlock rfl rfl rfl
  | unlocked | deleted =>
    obtain rfl := Option.some_inj.mp h
    exact .keep rfl rfl

theorem publisherStep_boxes {p : PublisherPc} (h : publisherStep m p = some r) :
    BoxStep m (.publisher p) r := by
  cases p with
  | found i | checked i | leaving i => exact .of_lock h rfl fun _ => rfl
  | locked i =>
    obtain rfl := Option.some_inj.mp h
    split <;> exact .keep rfl rfl
  | received i =>
    obtain rfl := Option.some_inj.mp h
    split <;> exact .keep rfl rfl
  | unlocked =>
    obtain rfl := Option.some_inj.mp h
    exact .keep rfl rfl
  | opened i | written i | lockedToLeave i =>
    obtain rfl := Option.some_inj.mp h
    exact .of_edit rfl rfl rfl rfl
  | refused i | counted i | failed i | sized i | uncounted i =>
    obtain rfl := Option.some_inj.mp h
    exact .of_unlock rfl rfl rfl
  | admitted | writing =>
    refine .of_call h fun z => ?_
    dsimp only
    split <;> rfl
  | left => exact .of_call h fun _ => rfl
  | waiting => cases h

theorem subscriberStep_boxes {p : SubscriberPc} (h : subscriberStep m p = some r) :
    BoxStep m (.subscriber p) r := by
  cases p with
  | found i | looping i | woken i => exact .of_lock h rfl fun _ => rfl
  | locked | reading =>
    refine .of_call h fun z => ?_
    dsimp only
    split <;> rfl
  | opened i | leaving i =>
    obtain rfl := Option.some_inj.mp h
    exact .of_edit rfl rfl rfl rfl
  | refused i | counted i | sent i | left i =>
    obtain rfl := Option.some_inj.mp h
    exact .of_unlock rfl rfl rfl
  | looking i =>
    simp only [subscriberStep] at h
    split at h <;> obtain rfl := Option.some_inj.mp h
    · exact .of_unlock rfl rfl rfl
    · exact .keep rfl rfl
  | read =>
    obtain rfl := Option.some_inj.mp h
    split <;> exact .keep rfl rfl
  | uncounted => exact .of_call h fun _ => rfl
  | asleep | sending => cases h

theorem createStep_boxes {n : CString} {p : CreatePc} (h : createStep m n p = some r) :
    BoxStep m (.create n p) r := by
  cases p with
  | absent =>
    obtain ⟨box, -, h⟩ := Option.bind_eq_some_iff.mp h
    exact .of_call h fun _ => rfl
  | opened =>
    refine .of_call h (fun z => ?_) fun z => ?_ <;> dsimp only <;> split <;> rfl
  | closed =>
    obtain ⟨box, hbox, hr⟩ := Option.map_eq_some_iff.mp h
    refine .enter n box rfl ?_ hbox ?_ <;> rw [← hr]
  | entered =>
    obtain rfl := Option.some_inj.mp h
    exact .keep rfl rfl

theorem accept_boxes (m : Broker) (opCode : ℕ) (boxName : CString) :
    BoxStep m .idle (accept m opCode boxName) := by
  unfold accept
  repeat' split
  all_goals exact .keep rfl rfl

/-- What a step does to the table of boxes. -/
theorem step_boxes (h : step m p a = some r) : BoxStep m p r := by
  unfold step at h
  split at h
  · obtain rfl := Option.some_inj.mp h
    exact accept_boxes _ _ _
  · exact createStep_boxes h
  · exact deleteStep_boxes h
  · obtain rfl := Option.some_inj.mp h
    split <;> exact .keep rfl rfl
  · exact publisherStep_boxes h
  · obtain rfl := Option.some_inj.mp h
    split <;> exact .keep rfl rfl
  · exact subscriberStep_boxes h
  · cases h

/-! ### The file system -/

/-- A call of a session: one that neither creates, truncates nor unlinks a file. -/
inductive SessionCall (s s' : State) : Prop
  | «open» (name : Option CString) (mode : ℕ) (fd : ℤ) (hcreat : hasFlag mode tfsOCreat = false)
      (htrunc : hasFlag mode tfsOTrunc = false) (h : tfsOpen s name mode = .ret (fd, s'))
  | close (fd r : ℤ) (h : tfsClose s fd = .ret (r, s'))
  | write (fd r : ℤ) (buffer : ℕ → UInt8) (len : ℕ) (h : tfsWrite s fd buffer len = .ret (r, s'))
  | read (fd : ℤ) (len : ℕ) (res : ReadResult) (h : tfsRead s fd len = .ret (res, s'))

/-- Any number of calls of sessions. -/
abbrev SessionCalls : State → State → Prop := ReflTransGen SessionCall

/-- What every write through the handle does, `write_message` does. -/
theorem writeMessage_rel {R : State → State → Prop} {s s' : State} {fd r : ℤ} {message : CString}
    (htrans : ∀ s s' s'', R s s' → R s' s'' → R s s'')
    (hone : ∀ s s' r buffer len, tfsWrite s fd buffer len = .ret (r, s') → R s s')
    (h : writeMessage s fd message = .ret (r, s')) : R s s' := by
  obtain ⟨⟨ret, s1⟩, hwrite, h⟩ := Outcome.bind_eq_ret.mp h
  have hfirst : R s s1 := hone _ _ _ _ _ hwrite
  dsimp only at h
  split at h
  · obtain ⟨-, rfl⟩ := Prod.mk.inj (Outcome.ret.inj h)
    exact hfirst
  obtain ⟨⟨ret', s2⟩, hwrite', h⟩ := Outcome.bind_eq_ret.mp h
  have hboth : R s s2 := htrans _ _ _ hfirst (hone _ _ _ _ _ hwrite')
  dsimp only at h
  split at h <;> obtain ⟨-, rfl⟩ := Prod.mk.inj (Outcome.ret.inj h) <;> exact hboth

/-- What every read through the handle does, `read_message` does. -/
theorem readLoop_rel {R : State → State → Prop} {s s' : State} {fd r : ℤ}
    {buffer buffer' : List UInt8} {room : ℕ}
    (htrans : ∀ s s' s'', R s s' → R s' s'' → R s s'')
    (hone : ∀ s s' res, tfsRead s fd 1 = .ret (res, s') → R s s')
    (h : readLoop s fd buffer room = .ret (r, buffer', s')) : R s s' := by
  induction room generalizing s buffer with
  | zero =>
    obtain ⟨⟨res, s1⟩, hread, h⟩ := Outcome.bind_eq_ret.mp h
    dsimp only at h
    split at h
    · obtain ⟨-, -, rfl⟩ := Outcome.ret.inj h
      exact hone _ _ _ hread
    · cases h
  | succ room ih =>
    obtain ⟨⟨res, s1⟩, hread, h⟩ := Outcome.bind_eq_ret.mp h
    have hfirst : R s s1 := hone _ _ _ hread
    dsimp only at h
    split at h
    · obtain ⟨-, -, rfl⟩ := Outcome.ret.inj h
      exact hfirst
    split at h
    · obtain ⟨-, -, rfl⟩ := Outcome.ret.inj h
      exact hfirst
    · exact htrans _ _ _ hfirst (ih h)

theorem writeMessage_calls {s s' : State} {fd r : ℤ} {message : CString}
    (h : writeMessage s fd message = .ret (r, s')) : SessionCalls s s' :=
  writeMessage_rel (fun _ _ _ => ReflTransGen.trans)
    (fun _ _ _ _ _ hwrite => .single (.write _ _ _ _ hwrite)) h

theorem readLoop_calls {s s' : State} {fd r : ℤ} {buffer buffer' : List UInt8} {room : ℕ}
    (h : readLoop s fd buffer room = .ret (r, buffer', s')) : SessionCalls s s' :=
  readLoop_rel (fun _ _ _ => ReflTransGen.trans)
    (fun _ _ _ hread => .single (.read _ _ _ hread)) h

theorem publisherStep_calls {p : PublisherPc} (h : publisherStep m p = some r) :
    SessionCalls m.tfs r.broker.tfs := by
  cases p with
  | found | checked | leaving =>
    obtain ⟨m', hlock, rfl⟩ := Option.map_eq_some_iff.mp h
    unfold Broker.lock at hlock
    split at hlock
    · cases hlock
    · obtain rfl := Option.some_inj.mp hlock
      exact .refl
  | locked | received | unlocked | opened | written | lockedToLeave | refused | counted | failed
  | sized | uncounted =>
    obtain rfl := Option.some_inj.mp h
    exact .refl
  | admitted =>
    obtain ⟨⟨fd, tfs⟩, hopen, rfl⟩ := Option.map_eq_some_iff.mp h
    exact .single (.open _ _ fd (by decide) (by decide) (Outcome.toOption_eq_some.mp hopen))
  | writing =>
    obtain ⟨⟨ret, tfs⟩, hwrite, rfl⟩ := Option.map_eq_some_iff.mp h
    exact writeMessage_calls (Outcome.toOption_eq_some.mp hwrite)
  | left =>
    obtain ⟨⟨ret, tfs⟩, hclose, rfl⟩ := Option.map_eq_some_iff.mp h
    exact .single (.close _ ret (Outcome.toOption_eq_some.mp hclose))
  | waiting => cases h

theorem subscriberStep_calls {p : SubscriberPc} (h : subscriberStep m p = some r) :
    SessionCalls m.tfs r.broker.tfs := by
  cases p with
  | found | looping | woken =>
    obtain ⟨m', hlock, rfl⟩ := Option.map_eq_some_iff.mp h
    unfold Broker.lock at hlock
    split at hlock
    · cases hlock
    · obtain rfl := Option.some_inj.mp hlock
      exact .refl
  | refused | opened | counted | read | sent | leaving | left =>
    obtain rfl := Option.some_inj.mp h
    exact .refl
  | looking =>
    simp only [subscriberStep] at h
    split at h <;> obtain rfl := Option.some_inj.mp h <;> exact .refl
  | locked =>
    obtain ⟨⟨fd, tfs⟩, hopen, rfl⟩ := Option.map_eq_some_iff.mp h
    exact .single (.open _ _ fd (by decide) (by decide) (Outcome.toOption_eq_some.mp hopen))
  | reading =>
    obtain ⟨⟨ret, buffer, tfs⟩, hread, rfl⟩ := Option.map_eq_some_iff.mp h
    exact readLoop_calls (Outcome.toOption_eq_some.mp hread)
  | uncounted =>
    obtain ⟨⟨ret, tfs⟩, hclose, rfl⟩ := Option.map_eq_some_iff.mp h
    exact .single (.close _ ret (Outcome.toOption_eq_some.mp hclose))
  | asleep | sending => cases h

/-- What a step does to the file system. -/
theorem step_calls (h : step m p a = some r) :
    SessionCalls m.tfs r.broker.tfs ∨
    (∃ n box fd, p = .create n .absent ∧ boxInitialize n = some box ∧
      tfsOpen m.tfs (some box.name) tfsOCreat = .ret (fd, r.broker.tfs) ∧
      r.pc = .create n (.opened fd)) ∨
    ∃ i ret, p = .delete (.locked i) ∧
      tfsUnlink m.tfs (some (m.mbrokerBoxes i).name) = .ret (ret, r.broker.tfs) := by
  unfold step at h
  split at h
  · obtain rfl := Option.some_inj.mp h
    refine .inl ?_
    unfold accept
    repeat' split
    all_goals exact .refl
  · rename_i n q
    cases q with
    | absent =>
      obtain ⟨box, hbox, h⟩ := Option.bind_eq_some_iff.mp h
      obtain ⟨⟨fd, tfs⟩, hopen, rfl⟩ := Option.map_eq_some_iff.mp h
      exact .inr (.inl ⟨n, box, fd, rfl, hbox, Outcome.toOption_eq_some.mp hopen, rfl⟩)
    | opened fd =>
      obtain ⟨⟨ret, tfs⟩, hclose, rfl⟩ := Option.map_eq_some_iff.mp h
      refine .inl ?_
      dsimp only
      split <;> exact .single (.close fd ret (Outcome.toOption_eq_some.mp hclose))
    | closed =>
      obtain ⟨box, -, hr⟩ := Option.map_eq_some_iff.mp h
      rw [← hr]
      exact .inl .refl
    | entered =>
      obtain rfl := Option.some_inj.mp h
      exact .inl .refl
  · rename_i q
    cases q with
    | found i =>
      obtain ⟨m', hlock, rfl⟩ := Option.map_eq_some_iff.mp h
      unfold Broker.lock at hlock
      split at hlock
      · cases hlock
      · obtain rfl := Option.some_inj.mp hlock
        exact .inl .refl
    | locked i =>
      obtain ⟨⟨ret, tfs⟩, hunlink, rfl⟩ := Option.map_eq_some_iff.mp h
      refine .inr (.inr ⟨i, ret, rfl, (Outcome.toOption_eq_some.mp hunlink).trans ?_⟩)
      dsimp only
      split <;> rfl
    | unlinked | cleared | unlocked | deleted =>
      obtain rfl := Option.some_inj.mp h
      exact .inl .refl
  · obtain rfl := Option.some_inj.mp h
    exact .inl .refl
  · exact .inl (publisherStep_calls h)
  · obtain rfl := Option.some_inj.mp h
    refine .inl ?_
    split <;> exact .refl
  · exact .inl (subscriberStep_calls h)
  · cases h

/-! ### The directory in every state -/

theorem SessionCall.sound {s s' : State} (h : SessionCall s s') (hs : Sound s.toFs) :
    Sound s'.toFs := by
  cases h with
  | «open» name mode fd _ _ h => exact hs.tfsOpen (toFs_tfsOpen hs.dir.toRootOk h)
  | close fd r h =>
    have hclose := hs.tfsClose fd
    rwa [toFs_tfsClose h] at hclose
  | write fd r buffer len h => exact hs.tfsWrite (toFs_tfsWrite h)
  | read fd len res h => exact hs.tfsRead (toFs_tfsRead h)

theorem SessionCalls.sound {s s' : State} (h : SessionCalls s s') (hs : Sound s.toFs) :
    Sound s'.toFs := by
  induction h with
  | refl => exact hs
  | tail _ hcall ih => exact hcall.sound ih

theorem step_sound (h : step m p a = some r) (hs : Sound m.tfs.toFs) :
    Sound r.broker.tfs.toFs := by
  rcases step_calls h with hcalls | ⟨n, box, fd, -, -, hopen, -⟩ | ⟨i, ret, -, hunlink⟩
  · exact hcalls.sound hs
  · exact hs.tfsOpen (toFs_tfsOpen hs.dir.toRootOk hopen)
  · exact hs.tfsUnlink hunlink

theorem initial_sound {boxes : ℕ → Box} {heap : Heap} (h : initMbroker boxes heap = some m) :
    Sound m.tfs.toFs := by
  rw [initMbroker_eq] at h
  rw [← Option.some_inj.mp h]
  exact Initialised.sound ⟨heap, mbrokerParams, tfsInit_eq_ret.mpr ⟨by decide, by decide, rfl⟩⟩

/-- The directory agrees with the inode table in every state. -/
theorem Sys.sound {ok : Sys → Turn → Prop} (h : Reach Sys.next Sys.Initial ok x) :
    Sound x.broker.tfs.toFs := by
  refine h.invariant (I := fun x => Sound x.broker.tfs.toFs) (fun x hx => ?_)
    fun x e y hx _ hnext => ?_
  · obtain ⟨⟨boxes, heap, hinit⟩, -⟩ := hx
    exact initial_sound hinit
  · obtain ⟨r, hstep, hbroker, -⟩ := Sys.next_eq_some hnext
    rw [hbroker]
    exact step_sound hstep hx

end TfsBroker.Mbroker
