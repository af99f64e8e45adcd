import TfsBroker.Mbroker.BoxSessions

/-!
# What a step does with the messages of a box

A publisher writes a message, adds to the size of its box and broadcasts; a subscriber falls
asleep, reads and sends. The inversions of `step` here say where a thread stood before it could
stand where it does, and which call of the file system it made.

## Main results

* `step_reads` — how a subscriber comes to be in its loop
* `step_writes` — how a thread comes to be the publisher of a box
* `step_size`, `step_announces`, `step_asleep` — the size of a box, and who waits for it
-/

namespace TfsBroker.Mbroker

open Fs2

variable {m : Broker} {p q : Pc} {a : Act} {r : Step} {i j n : ℕ} {fd : ℤ} {message : CString}

/-- The message that a step writes to the box of its publisher. -/
def Pc.posts : Pc → Pc → Option (ℕ × CString)
  | .publisher (.writing i _ message), .publisher (.written _ _ _) => some (i, message)
  | _, _ => none

theorem Pc.posts_eq_some (h : p.posts q = some (i, message)) :
    (∃ fd, p = .publisher (.writing i fd message)) ∧
      ∃ j fd ret, q = .publisher (.written j fd ret) := by
  unfold Pc.posts at h
  split at h
  · obtain ⟨rfl, rfl⟩ := Prod.mk.inj (Option.some_inj.mp h)
    exact ⟨⟨_, rfl⟩, _, _, _, rfl⟩
  · cases h

/-- What a session has sent after a step that does this. -/
def Output.sent (before : List (List UInt8)) : Output → List (List UInt8)
  | deliver buffer => before ++ [buffer]
  | none | respond _ | broadcast _ => before

/-- The slot of the box of a subscriber. -/
def Pc.follows : Pc → Option ℕ
  | .subscriber p => p.box
  | _ => none

/-- The thread has written a message to the box in slot `i`, and not yet broadcast. -/
def Pc.AnnouncesTo (p : Pc) (i : ℕ) : Prop := p.announces = true ∧ p.box = some i

/-- The slot and the handle of a subscriber that has not left its loop. -/
def Pc.receives : Pc → Option (ℕ × ℤ)
  | .subscriber (.opened i fd) | .subscriber (.counted i fd) | .subscriber (.looping i fd _)
  | .subscriber (.looking i fd _) | .subscriber (.asleep i fd _) | .subscriber (.woken i fd _)
  | .subscriber (.reading i fd _) | .subscriber (.read i fd _ _ _)
  | .subscriber (.sending i fd _ _) | .subscriber (.sent i fd _) => some (i, fd)
  | _ => none

/-- The number of bytes that the subscriber has read. -/
def Pc.totalRead : Pc → Option ℕ
  | .subscriber (.opened _ _) | .subscriber (.counted _ _) => some 0
  | .subscriber (.looping _ _ n) | .subscriber (.looking _ _ n) | .subscriber (.asleep _ _ n)
  | .subscriber (.woken _ _ n) | .subscriber (.reading _ _ n) | .subscriber (.sending _ _ n _)
  | .subscriber (.sent _ _ n) => some n
  | .subscriber (.read _ _ n ret _) => some ((n + ret.toNat) % sizeRange)
  | _ => none

/-! ### The size of a box -/

theorem size_setBox {box : Box} (h : box.size = (m.mbrokerBoxes j).size) :
    ((m.setBox j box).mbrokerBoxes i).size = (m.mbrokerBoxes i).size := by
  by_cases hij : i = j
  · rw [hij, Broker.setBox_self, h]
  · exact congrArg Box.size (Function.update_of_ne hij _ _)

theorem size_lock {m' : Broker} (h : m.lock j = some m') :
    (m'.mbrokerBoxes i).size = (m.mbrokerBoxes i).size := by
  unfold Broker.lock at h
  split at h
  · cases h
  · obtain rfl := Option.some_inj.mp h
    exact size_setBox rfl

theorem publisherStep_size {p : PublisherPc} (h : publisherStep m p = some r)
    (hp : ∀ fd ret, p ≠ .written i fd ret) :
    (r.broker.mbrokerBoxes i).size = (m.mbrokerBoxes i).size := by
  cases p with
  | found | checked | leaving =>
    obtain ⟨m', hlock, rfl⟩ := Option.map_eq_some_iff.mp h
    exact size_lock hlock
  | refused | opened | counted | failed | sized | lockedToLeave | uncounted =>
    obtain rfl := Option.some_inj.mp h
    exact size_setBox rfl
  | written j fd ret =>
    obtain rfl := Option.some_inj.mp h
    have hij : i ≠ j := by
      rintro rfl
      exact hp fd ret rfl
    exact congrArg Box.size (Function.update_of_ne hij _ _)
  | locked | received | unlocked =>
    obtain rfl := Option.some_inj.mp h
    rfl
  | admitted | writing | left =>
    obtain ⟨z, -, rfl⟩ := Option.map_eq_some_iff.mp h
    rfl
  | waiting => cases h

theorem subscriberStep_size {p : SubscriberPc} (h : subscriberStep m p = some r) :
    (r.broker.mbrokerBoxes i).size = (m.mbrokerBoxes i).size := by
  cases p with
  | found | looping | woken =>
    obtain ⟨m', hlock, rfl⟩ := Option.map_eq_some_iff.mp h
    exact size_lock hlock
  | refused | opened | counted | sent | leaving | left =>
    obtain rfl := Option.some_inj.mp h
    exact size_setBox rfl
  | looking =>
    simp only [subscriberStep] at h
    split at h <;> obtain rfl := Option.some_inj.mp h
    · exact size_setBox rfl
    · rfl
  | read =>
    obtain rfl := Option.some_inj.mp h
    rfl
  | locked | reading | uncounted =>
    obtain ⟨z, -, rfl⟩ := Option.map_eq_some_iff.mp h
    rfl
  | asleep | sending => cases h

/-- Only a publisher that has written adds to the size of its box. -/
theorem step_size (h : step m p a = some r) (hp : ∀ fd ret, p ≠ .publisher (.written i fd ret))
    (hfree : p.enters = true → freeSlot m.mbrokerBoxes ≠ some i) :
    (r.broker.mbrokerBoxes i).size = (m.mbrokerBoxes i).size := by
  unfold step at h
  split at h
  · obtain rfl := Option.some_inj.mp h
    rw [(accept_table _ _ _).1]
  · rename_i n q
    cases q with
    | absent =>
      obtain ⟨box, -, h⟩ := Option.bind_eq_some_iff.mp h
      obtain ⟨z, -, rfl⟩ := Option.map_eq_some_iff.mp h
      rfl
    | opened =>
      obtain ⟨z, -, rfl⟩ := Option.map_eq_some_iff.mp h
      dsimp only
      split <;> rfl
    | closed =>
      obtain ⟨box, -, hr⟩ := Option.map_eq_some_iff.mp h
      have hm : r.broker.mbrokerBoxes = enterBox m.mbrokerBoxes box := by rw [← hr]
      rw [hm]
      rcases enterBox_cases m.mbrokerBoxes box i with hold | ⟨hassigned, -⟩
      · rw [hold]
      · exact absurd hassigned (hfree rfl)
    | entered =>
      obtain rfl := Option.some_inj.mp h
      rfl
  · rename_i q
    cases q with
    | found =>
      obtain ⟨m', hlock, rfl⟩ := Option.map_eq_some_iff.mp h
      exact size_lock hlock
    | locked =>
      obtain ⟨z, -, rfl⟩ := Option.map_eq_some_iff.mp h
      dsimp only
      split <;> rfl
    | unlinked | cleared =>
      obtain rfl := Option.some_inj.mp h
      exact size_setBox rfl
    | unlocked | deleted =>
      obtain rfl := Option.some_inj.mp h
      rfl
  · obtain rfl := Option.some_inj.mp h
    rfl
  · exact publisherStep_size h fun fd ret heq => hp fd ret (congrArg Pc.publisher heq)
  · obtain rfl := Option.some_inj.mp h
    split <;> rfl
  · exact subscriberStep_size h
  · cases h

/-! ### Subscribers -/

/-- A step after which a subscriber is in its loop. -/
inductive ReadStep (m : Broker) (p : Pc) (r : Step) (i : ℕ) (fd : ℤ) : Prop
  | opens (hp : p = .subscriber (.locked i)) (hr : r.pc = .subscriber (.opened i fd))
      (hfd : fd ≠ -1) (hcall : tfsOpen m.tfs (some (m.mbrokerBoxes i).name) 0 =
        .ret (fd, r.broker.tfs))
      (houtput : ∀ before, r.output.sent before = before)
  | reads (n : ℕ) (ret : ℤ) (buffer : List UInt8) (hp : p = .subscriber (.reading i fd n))
      (hr : r.pc = .subscriber (.read i fd n ret buffer)) (hret : ret ≠ -1)
      (hcall : readMessage m.tfs fd = .ret (ret, buffer, r.broker.tfs))
      (houtput : ∀ before, r.output.sent before = before)
  | sends (n : ℕ) (buffer : List UInt8) (hp : p = .subscriber (.sending i fd n buffer))
      (hr : r.pc = .subscriber (.sent i fd n)) (htfs : r.broker.tfs = m.tfs)
      (houtput : r.output = .deliver buffer)
  | keeps (hp : p.receives = some (i, fd)) (htfs : r.broker.tfs = m.tfs)
      (hmessage : r.pc.message = p.message) (htotal : r.pc.totalRead = p.totalRead)
      (houtput : ∀ before, r.output.sent before = before)

theorem subscriberStep_reads {q : SubscriberPc} (h : subscriberStep m q = some r)
    (hr : r.pc.receives = some (i, fd)) : ReadStep m (.subscriber q) r i fd := by
  cases q with
  | locked j =>
    obtain ⟨⟨fd', tfs⟩, hopen, rfl⟩ := Option.map_eq_some_iff.mp h
    rw [Outcome.toOption_eq_some] at hopen
    dsimp only at hr
    split at hr
    · cases hr
    · rename_i hfd
      obtain ⟨rfl, rfl⟩ := Prod.mk.inj (Option.some_inj.mp hr)
      exact .opens rfl (congrArg Pc.subscriber (if_neg hfd)) hfd hopen fun _ => rfl
  | reading j fd' n =>
    obtain ⟨⟨ret, buffer, tfs⟩, hread, rfl⟩ := Option.map_eq_some_iff.mp h
    rw [Outcome.toOption_eq_some] at hread
    dsimp only at hr
    split at hr
    · cases hr
    · rename_i hret
      obtain ⟨rfl, rfl⟩ := Prod.mk.inj (Option.some_inj.mp hr)
      exact .reads n ret buffer rfl (congrArg Pc.subscriber (if_neg hret)) hret hread fun _ => rfl
  | read j fd' n ret buffer =>
    obtain rfl := Option.some_inj.mp h
    dsimp only at hr
    split at hr
    · cases hr
    · rename_i hstate
      have hpc : (Pc.subscriber (if (m.mbrokerBoxes j).allocState = .NOT_USED then .leaving j fd'
          else .sending j fd' ((n + ret.toNat) % sizeRange) buffer)) =
          .subscriber (.sending j fd' ((n + ret.toNat) % sizeRange) buffer) :=
        congrArg Pc.subscriber (if_neg hstate)
      refine .keeps hr rfl ?_ ?_ fun _ => rfl <;> dsimp only <;> rw [hpc] <;> rfl
  | looking j fd' n =>
    simp only [subscriberStep] at h
    split at h <;> obtain rfl := Option.some_inj.mp h <;> exact .keeps hr rfl rfl rfl fun _ => rfl
  | looping | woken =>
    obtain ⟨m', hlock, rfl⟩ := Option.map_eq_some_iff.mp h
    unfold Broker.lock at hlock
    split at hlock
    · cases hlock
    · obtain rfl := Option.some_inj.mp hlock
      exact .keeps hr rfl rfl rfl fun _ => rfl
  | opened | counted | sent =>
    obtain rfl := Option.some_inj.mp h
    exact .keeps hr rfl rfl rfl fun _ => rfl
  | found | uncounted =>
    obtain ⟨z, -, rfl⟩ := Option.map_eq_some_iff.mp h
    cases hr
  | refused | leaving | left =>
    obtain rfl := Option.some_inj.mp h
    cases hr
  | asleep | sending => cases h

theorem Pc.box_of_follows (h : p.follows = some i) : p.box = some i := by
  cases p with
  | subscriber => exact h
  | _ => cases h

theorem Pc.box_of_publishes (h : p.publishes = some i) : p.box = some i := by
  cases p with
  | publisher q => cases q <;> first | exact h | cases h
  | _ => cases h

theorem Pc.box_of_subscribes (h : p.subscribes = some i) : p.box = some i := by
  cases p with
  | subscriber q => cases q <;> first | exact h | cases h
  | _ => cases h

/-- Only a registered session decrements a counter. -/
theorem Pc.registered_of_leaves (h : p.leaves = some i) :
    p.publishes = some i ∨ p.subscribes = some i := by
  cases p with
  | publisher q => cases q <;> first | exact .inl h | cases h
  | subscriber q => cases q <;> first | exact .inr h | cases h
  | _ => cases h

/-- A broadcast leaves the subscribers to their boxes. -/
theorem follows_wakes {o : Output} {pc : ℕ → Pc} {t : ℕ} :
    (o.wakes pc t).follows = (pc t).follows := by
  rcases o.wakes_cases pc t with heq | ⟨i, fd, n, hpc, heq⟩
  · rw [heq]
  · rw [heq, hpc]
    rfl

/-- A broadcast wakes a subscriber where it stood. -/
structure SameReader (p q : Pc) : Prop where
  receives : q.receives = p.receives
  message : q.message = p.message
  totalRead : q.totalRead = p.totalRead

theorem sameReader_wakes (o : Output) (pc : ℕ → Pc) (t : ℕ) : SameReader (pc t) (o.wakes pc t) := by
  rcases o.wakes_cases pc t with heq | ⟨i, fd, n, hpc, heq⟩
  · rw [heq]
    exact ⟨rfl, rfl, rfl⟩
  · rw [heq, hpc]
    exact ⟨rfl, rfl, rfl⟩

/-- A session of the role was there before the step, or begins with it. -/
theorem step_follows (h : step m p a = some r) (hr : r.pc.follows = some i) :
    p.follows = some i ∨ p = .idle := by
  cases hpc : r.pc with
  | subscriber q =>
    rw [hpc] at hr
    have hbox : r.pc.box = some i := by rw [hpc]; exact hr
    rcases step_box h hbox with hold | ⟨hidle, -⟩
    · cases p with
      | subscriber => exact .inl hold
      | publisher q' =>
        -- a publisher stays one
        rcases step_publisher h with hgo | ⟨j, fd, message, -, rfl⟩
        · rcases (publisherStep_table hgo).2 with hidle | ⟨q'', hq⟩
          · cases hpc.symm.trans hidle
          · cases hpc.symm.trans hq
        · cases hpc
      | idle | create | delete => cases hold
    · exact .inr hidle
  | _ =>
    rw [hpc] at hr
    cases hr

theorem Pc.follows_of_receives (h : p.receives = some (i, fd)) :
    p.follows = some i ∧ p.box = some i ∧ p.handle = some fd := by
  cases p with
  | subscriber q =>
    cases q with
    | found | locked | refused | leaving | uncounted | left => cases h
    | _ =>
      obtain ⟨rfl, rfl⟩ := Prod.mk.inj (Option.some_inj.mp h)
      exact ⟨rfl, rfl, rfl⟩
  | _ => cases h

/-- A session that begins has no handle. -/
theorem step_idle (h : step m .idle a = some r) : r.pc.handle = none := by
  cases a with
  | accept opCode boxName =>
    obtain rfl := Option.some_inj.mp h
    unfold accept
    repeat' split
    all_goals rfl
  | receive | send | go => cases h

theorem step_reads (h : step m p a = some r) (hr : r.pc.receives = some (i, fd)) :
    ReadStep m p r i fd := by
  rcases step_follows h (Pc.follows_of_receives hr).1 with hold | rfl
  · cases p with
    | subscriber q =>
      rcases step_subscriber h with hgo | ⟨j, fd', n, buffer, ok, rfl, -, rfl⟩
      · exact subscriberStep_reads hgo hr
      · cases ok with
        | true =>
          obtain ⟨rfl, rfl⟩ := Prod.mk.inj (Option.some_inj.mp hr)
          exact .sends n buffer rfl rfl rfl rfl
        | false => cases hr
    | _ => cases hold
  · cases (step_idle h).symm.trans (Pc.follows_of_receives hr).2.2

/-- A subscriber that has not opened the file of its box has just begun. -/
theorem step_found (h : step m p a = some r)
    (hr : r.pc = .subscriber (.found i) ∨ r.pc = .subscriber (.locked i)) :
    p = .idle ∨ p = .subscriber (.found i) := by
  have hfollows : r.pc.follows = some i := by rcases hr with hr | hr <;> rw [hr] <;> rfl
  rcases step_follows h hfollows with hold | hidle
  swap
  · exact .inl hidle
  cases p with
  | subscriber q =>
    rcases step_subscriber h with hgo | ⟨j, fd, n, buffer, ok, -, -, rfl⟩
    · cases q with
      | found j =>
        obtain ⟨m', -, rfl⟩ := Option.map_eq_some_iff.mp hgo
        rcases hr with hr | hr
        · cases hr
        · obtain rfl := SubscriberPc.locked.inj (Pc.subscriber.inj hr)
          exact .inr rfl
      | looping | woken | uncounted =>
        obtain ⟨z, -, rfl⟩ := Option.map_eq_some_iff.mp hgo
        rcases hr with hr | hr <;> cases hr
      | locked | reading =>
        obtain ⟨z, -, rfl⟩ := Option.map_eq_some_iff.mp hgo
        dsimp only at hr
        split at hr <;> rcases hr with hr | hr <;> cases hr
      | read =>
        obtain rfl := Option.some_inj.mp hgo
        dsimp only at hr
        split at hr <;> rcases hr with hr | hr <;> cases hr
      | looking =>
        simp only [subscriberStep] at hgo
        split at hgo <;> obtain rfl := Option.some_inj.mp hgo <;> rcases hr with hr | hr <;> cases hr
      | asleep | sending => cases hgo
      | _ =>
        obtain rfl := Option.some_inj.mp hgo
        rcases hr with hr | hr <;> cases hr
    · cases ok <;> rcases hr with hr | hr <;> cases hr
  | _ => cases hold

theorem subscriberStep_sends {q : SubscriberPc} (h : subscriberStep m q = some r)
    (before : List (List UInt8)) : r.output.sent before = before := by
  cases q with
  | found | locked | looping | woken | reading | uncounted =>
    obtain ⟨z, -, rfl⟩ := Option.map_eq_some_iff.mp h
    rfl
  | looking =>
    simp only [subscriberStep] at h
    split at h <;> obtain rfl := Option.some_inj.mp h <;> rfl
  | asleep | sending => cases h
  | _ =>
    obtain rfl := Option.some_inj.mp h
    rfl

/-- A session sends what its subscriber has read. -/
theorem step_sends (h : step m p a = some r) (hp : p.follows = some i)
    (before : List (List UInt8)) : r.output.sent before = before ∨
      ∃ fd n buffer, p = .subscriber (.sending i fd n buffer) ∧
        r.output.sent before = before ++ [buffer] := by
  cases p with
  | subscriber q =>
    rcases step_subscriber h with hgo | ⟨j, fd, n, buffer, ok, rfl, -, rfl⟩
    · exact .inl (subscriberStep_sends hgo before)
    · obtain rfl := Option.some_inj.mp hp
      cases ok with
      | true => exact .inr ⟨fd, n, buffer, rfl, rfl⟩
      | false => exact .inl rfl
  | _ => cases hp

/-! ### Publishers -/

/-- A step after which a thread is the publisher of a box. -/
inductive WriteStep (m : Broker) (p : Pc) (r : Step) (i : ℕ) (fd : ℤ) : Prop
  | opens (hp : p = .publisher (.admitted i)) (hfd : fd ≠ -1)
      (hcall : tfsOpen m.tfs (some (m.mbrokerBoxes i).name) tfsOAppend = .ret (fd, r.broker.tfs))
  | writes (message : CString) (hp : p = .publisher (.writing i fd message))
  | keeps (hp : p.writes = true) (hbox : p.box = some i) (hhandle : p.handle = some fd)
      (htfs : r.broker.tfs = m.tfs)

theorem publisherStep_writes {q : PublisherPc} (h : publisherStep m q = some r)
    (hr : r.pc.writes = true) (hbox : r.pc.box = some i) (hfd : r.pc.handle = some fd) :
    WriteStep m (.publisher q) r i fd := by
  cases q with
  | admitted j =>
    obtain ⟨⟨fd', tfs⟩, hopen, rfl⟩ := Option.map_eq_some_iff.mp h
    rw [Outcome.toOption_eq_some] at hopen
    dsimp only at hr hbox hfd
    by_cases hne : fd' = -1
    · rw [if_pos hne] at hr
      cases hr
    · rw [if_neg hne] at hbox hfd
      obtain rfl := Option.some_inj.mp hbox
      obtain rfl := Option.some_inj.mp hfd
      exact .opens rfl hne hopen
  | writing j fd' message =>
    obtain ⟨⟨ret, tfs⟩, -, rfl⟩ := Option.map_eq_some_iff.mp h
    dsimp only at hbox hfd
    split at hbox <;> split at hfd <;> obtain rfl := Option.some_inj.mp hbox <;>
      obtain rfl := Option.some_inj.mp hfd <;> exact .writes message rfl
  | checked | leaving =>
    obtain ⟨m', hlock, rfl⟩ := Option.map_eq_some_iff.mp h
    unfold Broker.lock at hlock
    split at hlock
    · cases hlock
    · obtain rfl := Option.some_inj.mp hlock
      exact .keeps rfl hbox hfd rfl
  | received =>
    obtain rfl := Option.some_inj.mp h
    dsimp only at hbox hfd
    split at hbox <;> split at hfd <;> exact .keeps rfl hbox hfd rfl
  | opened | counted | failed | written | sized | unlocked =>
    obtain rfl := Option.some_inj.mp h
    exact .keeps rfl hbox hfd rfl
  | found | left =>
    obtain ⟨z, -, rfl⟩ := Option.map_eq_some_iff.mp h
    cases hr
  | locked =>
    obtain rfl := Option.some_inj.mp h
    dsimp only at hr
    split at hr <;> cases hr
  | refused | lockedToLeave | uncounted =>
    obtain rfl := Option.some_inj.mp h
    cases hr
  | waiting => cases h

theorem step_writes (h : step m p a = some r) (hr : r.pc.writes = true) (hbox : r.pc.box = some i)
    (hfd : r.pc.handle = some fd) : WriteStep m p r i fd := by
  cases p with
  | publisher q =>
    rcases step_publisher h with hgo | ⟨j, fd', message, rfl, rfl⟩
    · exact publisherStep_writes hgo hr hbox hfd
    · cases message <;> exact .keeps rfl hbox hfd rfl
  | subscriber q =>
    -- a subscriber stays one
    rcases step_subscriber h with hgo | ⟨j, fd', n, buffer, ok, -, -, rfl⟩
    · rcases (subscriberStep_table hgo).2 with hpc | ⟨q', hpc⟩ <;> rw [hpc] at hr <;> cases hr
    · cases ok <;> cases hr
  | _ =>
    rcases step_box h hbox with hold | ⟨hidle, -⟩
    · cases hold
    · rw [hidle] at h
      cases (step_idle h).symm.trans hfd

/-- The step that writes a message. -/
theorem step_writing (h : step m (.publisher (.writing i fd message)) a = some r) :
    ∃ ret, writeMessage m.tfs fd message = .ret (ret, r.broker.tfs) ∧
      r.pc = .publisher (if ret = -1 then .failed i fd else .written i fd ret) ∧
      r.broker.mbrokerBoxes = m.mbrokerBoxes := by
  rcases step_publisher h with hgo | ⟨j, fd', message', hwaiting, -⟩
  swap
  · cases hwaiting
  obtain ⟨⟨ret, tfs⟩, hwrite, rfl⟩ := Option.map_eq_some_iff.mp hgo
  exact ⟨ret, Outcome.toOption_eq_some.mp hwrite, rfl, rfl⟩

/-- A publisher that adds to the size of its box next has just written a message. -/
theorem step_wrote {ret : ℤ} (h : step m p a = some r) (hr : r.pc = .publisher (.written i fd ret)) :
    ∃ message, p = .publisher (.writing i fd message) := by
  cases p with
  | publisher q =>
    rcases step_publisher h with hgo | ⟨j, fd', message, -, rfl⟩
    · cases q with
      | writing j fd' message =>
        obtain ⟨⟨ret', tfs⟩, -, rfl⟩ := Option.map_eq_some_iff.mp hgo
        dsimp only at hr
        split at hr
        · cases hr
        · obtain ⟨rfl, rfl, -⟩ := PublisherPc.written.inj (Pc.publisher.inj hr)
          exact ⟨message, rfl⟩
      | found | checked | leaving | left =>
        obtain ⟨z, -, rfl⟩ := Option.map_eq_some_iff.mp hgo
        cases hr
      | admitted =>
        obtain ⟨z, -, rfl⟩ := Option.map_eq_some_iff.mp hgo
        dsimp only at hr
        split at hr <;> cases hr
      | locked | received =>
        obtain rfl := Option.some_inj.mp hgo
        dsimp only at hr
        split at hr <;> cases hr
      | waiting => cases hgo
      | _ =>
        obtain rfl := Option.some_inj.mp hgo
        cases hr
    · cases message <;> cases hr
  | subscriber q =>
    rcases step_subscriber h with hgo | ⟨j, fd', n, buffer, ok, -, -, rfl⟩
    · rcases (subscriberStep_table hgo).2 with hpc | ⟨q', hpc⟩ <;> cases hpc.symm.trans hr
    · cases ok <;> cases hr
  | _ =>
    have hbox : r.pc.box = some i := by rw [hr]; rfl
    rcases step_box h hbox with hold | ⟨hidle, -⟩
    · cases hold
    · rw [hidle] at h
      have hnone := step_idle h
      rw [hr] at hnone
      cases hnone

/-- The step that adds to the size of a box. -/
theorem step_written {ret : ℤ} (h : step m (.publisher (.written i fd ret)) a = some r) :
    (r.broker.mbrokerBoxes i).size =
      ((m.mbrokerBoxes i).size + ret.toNat + 1) % sizeRange := by
  rcases step_publisher h with hgo | ⟨j, fd', message', hwaiting, -⟩
  swap
  · cases hwaiting
  obtain rfl := Option.some_inj.mp hgo
  exact congrArg Box.size (m.setBox_self i _)

/-- A broadcast moves no publisher. -/
theorem wakes_eq_publisher {o : Output} {pc : ℕ → Pc} {t : ℕ} {q : PublisherPc} :
    o.wakes pc t = .publisher q ↔ pc t = .publisher q := by
  rcases o.wakes_cases pc t with heq | ⟨i, fd, n, hpc, heq⟩
  · rw [heq]
  · simp [hpc, heq]

theorem announcesTo_wakes {o : Output} {pc : ℕ → Pc} {t : ℕ} :
    (o.wakes pc t).AnnouncesTo i ↔ (pc t).AnnouncesTo i := by
  rcases o.wakes_cases pc t with heq | ⟨j, fd, n, hpc, heq⟩
  · rw [heq]
  · rw [heq, hpc]
    exact Iff.rfl

/-- A publisher that no longer announces a message has broadcast. -/
theorem step_announces (h : step m p a = some r) (hp : p.AnnouncesTo i) :
    r.pc.AnnouncesTo i ∨ r.output = .broadcast i := by
  obtain ⟨hannounces, hbox⟩ := hp
  cases p with
  | publisher q =>
    cases q with
    | written j fd ret | sized j fd =>
      cases a with
      | go =>
        obtain rfl := Option.some_inj.mp h
        exact .inl ⟨rfl, hbox⟩
      | accept | receive | send => cases h
    | unlocked j fd =>
      cases a with
      | go =>
        obtain rfl := Option.some_inj.mp h
        obtain rfl := Option.some_inj.mp hbox
        exact .inr rfl
      | accept | receive | send => cases h
    | _ => cases hannounces
  | _ => cases hannounces

/-- A subscriber falls asleep when it has read as many bytes as its box has. -/
theorem step_asleep (h : step m p a = some r) (hr : r.pc = .subscriber (.asleep i fd n)) :
    p = .subscriber (.looking i fd n) ∧ (m.mbrokerBoxes i).size ≤ n := by
  cases p with
  | subscriber q =>
    rcases step_subscriber h with hgo | ⟨j, fd', n', buffer, ok, -, -, rfl⟩
    · cases q with
      | looking j fd' n' =>
        simp only [subscriberStep] at hgo
        split at hgo
        · rename_i hle
          obtain rfl := Option.some_inj.mp hgo
          obtain ⟨rfl, rfl, rfl⟩ := SubscriberPc.asleep.inj (Pc.subscriber.inj hr)
          exact ⟨rfl, hle⟩
        · obtain rfl := Option.some_inj.mp hgo
          cases hr
      | found | looping | woken | uncounted =>
        obtain ⟨z, -, rfl⟩ := Option.map_eq_some_iff.mp hgo
        cases hr
      | locked | reading =>
        obtain ⟨z, -, rfl⟩ := Option.map_eq_some_iff.mp hgo
        dsimp only at hr
        split at hr <;> cases hr
      | read =>
        obtain rfl := Option.some_inj.mp hgo
        dsimp only at hr
        split at hr <;> cases hr
      | asleep | sending => cases hgo
      | _ =>
        obtain rfl := Option.some_inj.mp hgo
        cases hr
    · cases ok <;> cases hr
  | _ =>
    have hfollows : r.pc.follows = some i := by rw [hr]; rfl
    rcases step_follows h hfollows with hold | hidle
    · cases hold
    · rw [hidle] at h
      have hnone := step_idle h
      rw [hr] at hnone
      cases hnone

end TfsBroker.Mbroker
