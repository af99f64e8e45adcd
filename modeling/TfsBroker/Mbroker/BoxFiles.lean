import TfsBroker.Fs2.FileNames
import TfsBroker.Mbroker.BoxSessions

/-!
# Every box has a file of its own

`create_box` opens the file of a box without truncating it. Still a new box finds an empty
file, as long as no two requests create one name at a time and a box is deleted once: a file
that is not that of a box was never written to, or is not there any more.

## Main results

* `BoxFilesInv.next` — what every step keeps
* `boxes_have_files` — every run
-/

namespace TfsBroker.Mbroker

open Fs2 Runs

variable {m : Broker} {x : Sys} {g g' : Traced} {e : Turn} {p : Pc} {a : Act} {r : Step}
  {i j k t u : ℕ} {n : CString} {name : Option CString}

/-- The box in slot `i` is in use, and its file was not removed. -/
def Sys.Live (x : Sys) (i : ℕ) : Prop :=
  (x.broker.mbrokerBoxes i).allocState = .USED ∧ ∀ t, x.pc t ≠ .delete (.unlinked i)

/-- No two requests create one name at a time; a slot is assigned to a new box only while no
session points to it and no thread has its mutex; a box is unlinked only while it is in use; and
a publisher whose box was deleted writes only while its inode is free, and the block of the
inode is that of no file. -/
structure Settled (g : Traced) (e : Turn) : Prop where
  undisturbed : Undisturbed g.sys e
  assigns : (g.sys.pc e.thread).enters = true → ∀ i, freeSlot g.sys.broker.mbrokerBoxes = some i →
    ∀ t < g.sys.maxSessions, (g.sys.pc t).holds ≠ some i ∧ (g.sys.pc t).box ≠ some i
  deletes : ∀ j, g.sys.pc e.thread = .delete (.locked j) →
    (g.sys.broker.mbrokerBoxes j).allocState = .USED
  writes : ∀ i fd message, g.sys.pc e.thread = .publisher (.writing i fd message) →
    (g.sys.broker.mbrokerBoxes i).allocState = .USED ∨ ∀ fh k : ℕ, fd = fh →
      (g.sys.broker.tfs.openFileTable fh).ofInumber = k →
      g.sys.broker.tfs.freeinodeTs k = .FREE ∧ Apart g.sys.broker.tfs.toFs k

/-- Every box in use has a file, which no other has, until the file is removed; and a file of any
other name is empty. -/
structure FilesOfBoxes (x : Sys) : Prop where
  has : ∀ i, x.Live i → ∃ k, x.broker.file i = some k
  own : ∀ i j k, x.broker.file i = some k → x.broker.file j = some k → i = j
  empty : ∀ name (k : ℕ), tfsLookup x.broker.tfs name rootDirInum = .ret k →
    (∀ i, x.Live i → some (x.broker.mbrokerBoxes i).name ≠ name) →
    fileContents x.broker.tfs k = []

/-- The file of the name. -/
def FileAt (s : State) (name : Option CString) (k : ℕ) : Prop := Fs.tfsLookup s.toFs name 0 = k

/-- The thread has created the file of a box that has no slot yet. -/
def Pc.Created (p : Pc) (n : CString) : Prop :=
  (∃ fd, fd ≠ -1 ∧ p = .create n (.opened fd)) ∨ p = .create n .closed

/-- Every box has a file, boxes have different names, and a file that is not that of a box is
empty. -/
structure BoxFilesInv (g : Traced) : Prop where
  traced : TracedInv g
  distinct : Distinct g.sys
  slots : ∀ i, (g.sys.broker.mbrokerBoxes i).allocState = .USED → i < boxCountMax
  files : ∀ i, g.sys.Live i → ∃ k, FileAt g.sys.broker.tfs (some (g.sys.broker.mbrokerBoxes i).name) k
  created : ∀ t n, (g.sys.pc t).Created n → ∃ k, FileAt g.sys.broker.tfs (some (slashed n)) k
  orphans : ∀ name k, FileAt g.sys.broker.tfs name k →
    (∀ i, g.sys.Live i → some (g.sys.broker.mbrokerBoxes i).name ≠ name) →
    fileContents g.sys.broker.tfs k = []

/-! ### Steps -/

theorem createStep_created {q : CreatePc} (h : createStep m n q = some r) (hr : r.pc.Created n) :
    (∃ fd, fd ≠ -1 ∧ q = .absent ∧
      tfsOpen m.tfs (some (slashed n)) tfsOCreat = .ret (fd, r.broker.tfs)) ∨
      (Pc.create n q).Created n := by
  cases q with
  | absent =>
    obtain ⟨box, hbox, h⟩ := Option.bind_eq_some_iff.mp h
    obtain ⟨⟨fd, tfs⟩, hopen, rfl⟩ := Option.map_eq_some_iff.mp h
    obtain ⟨-, rfl⟩ := boxInitialize_eq_some hbox
    rcases hr with ⟨fd', hfd, hr⟩ | hr
    · obtain ⟨-, hfd'⟩ := Pc.create.inj hr
      obtain rfl := CreatePc.opened.inj hfd'
      exact .inl ⟨fd, hfd, rfl, Outcome.toOption_eq_some.mp hopen⟩
    · cases hr
  | opened fd =>
    obtain ⟨⟨ret, tfs⟩, -, rfl⟩ := Option.map_eq_some_iff.mp h
    refine .inr (.inl ⟨fd, fun hfd => ?_, rfl⟩)
    simp only [if_pos hfd] at hr
    rcases hr with ⟨fd', -, hr⟩ | hr <;> cases hr
  | closed => exact .inr (.inr rfl)
  | entered =>
    obtain rfl := Option.some_inj.mp h
    rcases hr with ⟨fd', -, hr⟩ | hr <;> cases hr

/-- A thread that has created a file opened it with this step, or had created it before. -/
theorem step_created (h : step m p a = some r) (hr : r.pc.Created n) :
    (∃ fd, fd ≠ -1 ∧ p = .create n .absent ∧
      tfsOpen m.tfs (some (slashed n)) tfsOCreat = .ret (fd, r.broker.tfs)) ∨ p.Created n := by
  have hcreate : ∃ q, r.pc = .create n q ∧ q ≠ .entered := by
    rcases hr with ⟨fd, -, hr⟩ | hr <;> exact ⟨_, hr, by simp⟩
  obtain ⟨q, hq, hne⟩ := hcreate
  rcases step_table h with ⟨n', box, -, -, hpc, -⟩ | ⟨i, -, hpc, -⟩ | ⟨-, hclaim⟩
  · obtain ⟨-, rfl⟩ := Pc.create.inj (hpc.symm.trans hq)
    exact absurd rfl hne
  · cases hpc.symm.trans hq
  rcases (hclaim n q hq).2 with ⟨q', -, rfl⟩ | ⟨rfl, rfl, -⟩
  · cases a with
    | go =>
      rcases createStep_created h hr with ⟨fd, hfd, rfl, hopen⟩ | hold
      · exact .inl ⟨fd, hfd, rfl, hopen⟩
      · exact .inr hold
    | accept | receive | send => cases h
  · -- a request that was just accepted
    obtain rfl := Option.some_inj.mp h
    obtain ⟨rfl, -⟩ := (accept_table _ _ _).2 n q hq
    rcases hr with ⟨fd, -, hr⟩ | hr <;> cases hq.symm.trans hr

/-- Assigning a box to a slot is no call of the file system. -/
theorem step_entered (h : step m p a = some r) (hp : p = .create n .closed) :
    r.broker.tfs = m.tfs := by
  subst hp
  cases a with
  | go =>
    obtain ⟨box, -, rfl⟩ := Option.map_eq_some_iff.mp h
    rfl
  | accept | receive | send => cases h

theorem deleteStep_unlinks {q : DeletePc} (h : deleteStep m q = some r)
    (hr : r.pc = .delete (.unlinked i)) : q = .locked i ∧
      tfsUnlink m.tfs (some (m.mbrokerBoxes i).name) = .ret (0, r.broker.tfs) := by
  cases q with
  | locked j =>
    obtain ⟨⟨ret, tfs⟩, hunlink, rfl⟩ := Option.map_eq_some_iff.mp h
    rw [Outcome.toOption_eq_some] at hunlink
    dsimp only at hr ⊢
    by_cases hret : ret = 0
    · rw [if_neg (not_not.mpr hret)] at hr ⊢
      obtain rfl := DeletePc.unlinked.inj (Pc.delete.inj hr)
      rw [hret] at hunlink
      exact ⟨rfl, hunlink⟩
    · rw [if_pos hret] at hr
      cases hr
  | found =>
    obtain ⟨m', -, rfl⟩ := Option.map_eq_some_iff.mp h
    cases hr
  | unlinked | cleared | unlocked | deleted =>
    obtain rfl := Option.some_inj.mp h
    cases hr

/-- The step that removes the file of a box. -/
theorem step_unlinks (h : step m p a = some r) (hr : r.pc = .delete (.unlinked i)) :
    p = .delete (.locked i) ∧
      tfsUnlink m.tfs (some (m.mbrokerBoxes i).name) = .ret (0, r.broker.tfs) := by
  unfold step at h
  split at h
  · obtain rfl := Option.some_inj.mp h
    unfold accept at hr
    repeat' split at hr
    all_goals cases hr
  · rename_i n q
    cases q with
    | absent =>
      obtain ⟨box, -, h⟩ := Option.bind_eq_some_iff.mp h
      obtain ⟨z, -, rfl⟩ := Option.map_eq_some_iff.mp h
      cases hr
    | opened =>
      obtain ⟨z, -, rfl⟩ := Option.map_eq_some_iff.mp h
      dsimp only at hr
      split at hr <;> cases hr
    | closed =>
      obtain ⟨box, -, rfl⟩ := Option.map_eq_some_iff.mp h
      cases hr
    | entered =>
      obtain rfl := Option.some_inj.mp h
      cases hr
  · obtain ⟨rfl, hunlink⟩ := deleteStep_unlinks h hr
    exact ⟨rfl, hunlink⟩
  · obtain rfl := Option.some_inj.mp h
    cases hr
  · rcases (publisherStep_table h).2 with hpc | ⟨q', hpc⟩ <;> cases hpc.symm.trans hr
  · obtain rfl := Option.some_inj.mp h
    split at hr <;> cases hr
  · rcases (subscriberStep_table h).2 with hpc | ⟨q', hpc⟩ <;> cases hpc.symm.trans hr
  · cases h

theorem created_wakes {o : Output} {pc : ℕ → Pc} :
    (o.wakes pc t).Created n ↔ (pc t).Created n := by
  simp only [Pc.Created, wakes_eq_create]

theorem Pc.Created.claims (h : p.Created n) : Claims p n := by
  rcases h with ⟨fd, -, hp⟩ | hp <;> exact ⟨_, by simp, hp⟩

/-- A file that is in use after a step was in use before, or is empty. -/
theorem step_new (h : step m p a = some r) (hs : Stored m.tfs.toFs)
    (hk : r.broker.tfs.freeinodeTs k = .TAKEN) :
    m.tfs.freeinodeTs k = .TAKEN ∨ fileContents r.broker.tfs k = [] := by
  have huses : ∀ {fd}, Uses fd m.tfs.toFs r.broker.tfs.toFs → m.tfs.freeinodeTs k = .TAKEN :=
    fun huses => (congrFun huses.inodes k).symm.trans hk
  cases step_handles h with
  | keep htfs =>
    rw [htfs] at hk
    exact .inl hk
  | creates n box fd hp hr hcall =>
    exact hs.tfsOpen_new (toFs_tfsOpen hs.dir.toRootOk hcall) hk
  | opens i mode fd hp hbox hr hopens hcreat htrunc hcall =>
    exact hs.tfsOpen_new (toFs_tfsOpen hs.dir.toRootOk hcall) hk
  | closes fd ret hp hr hcall =>
    have hstate : (Fs.tfsClose m.tfs.toFs fd).2 = r.broker.tfs.toFs :=
      congrArg Prod.snd (toFs_tfsClose hcall)
    have hinodes : r.broker.tfs.freeinodeTs = m.tfs.freeinodeTs := by
      rcases Fs.tfsClose_cases m.tfs.toFs fd with ⟨-, heq⟩ | ⟨fh, -, heq⟩ <;>
        exact (congrArg Fs.State.freeinodeTs (hstate.symm.trans (congrArg Prod.snd heq)))
    exact .inl (congrFun hinodes k ▸ hk)
  | writes i fd ret message hp hr hcall => exact .inl (huses (writeMessage_uses hs hcall))
  | reads i n fd ret buffer hp hr hcall => exact .inl (huses (readMessage_uses hs hcall))
  | unlinks i ret hp hr hcall => exact .inl (hs.tfsUnlink_taken hcall hk)

/-- What a step does to a file in use: the publisher of its box writes to it, a thread removes it,
or it keeps its bytes. -/
inductive FileStep (m : Broker) (p : Pc) (r : Step) (k : ℕ) : Prop
  | keeps (htaken : r.broker.tfs.freeinodeTs k = .TAKEN)
      (hcontents : fileContents r.broker.tfs k = fileContents m.tfs k)
  | writes (i : ℕ) (fd : ℤ) (message : CString) (hp : p = .publisher (.writing i fd message))
      (hfile : m.file i = some k)
  | removes (i : ℕ) (hp : p = .delete (.locked i)) (hr : r.pc = .delete (.unlinked i))
      (hfile : FileAt m.tfs (some (m.mbrokerBoxes i).name) k)

theorem TracedInv.step_file (h : TracedInv g) (hok : Fenced g e) (hs : TracedStep g e r g')
    (hpos : 0 < k) (hk : g.sys.broker.tfs.freeinodeTs k = .TAKEN) :
    FileStep g.sys.broker (g.sys.pc e.thread) r k := by
  have hstored := h.handles.stored
  have hspares : SparesFiles (fun _ => False) g.sys.broker.tfs.toFs r.broker.tfs.toFs →
      FileStep g.sys.broker (g.sys.pc e.thread) r k := by
    intro hspares
    obtain ⟨htaken, hcontents⟩ := hspares k id hk
    exact .keeps htaken hcontents
  cases step_handles hs.step with
  | keep htfs =>
    refine hspares ?_
    rw [htfs]
    exact .of_nodes rfl rfl rfl fun _ _ => rfl
  | creates n box fd hp hr hcall =>
    have htrunc : ¬ hasFlag tfsOCreat tfsOTrunc = true := by decide
    obtain ⟨htaken, hcontents⟩ := hstored.tfsOpen_keeps
      (toFs_tfsOpen hstored.dir.toRootOk hcall) hpos hk fun hopen => htrunc hopen.1
    exact .keeps htaken hcontents
  | opens i mode fd hp hbox hr hopens hcreat htrunc hcall =>
    exact hspares
      (hstored.tfsOpen_sparesFiles hcreat htrunc (toFs_tfsOpen hstored.dir.toRootOk hcall))
  | closes fd ret hp hr hcall =>
    refine hspares ?_
    have hclose : SparesFiles (fun _ => False) g.sys.broker.tfs.toFs
        (Fs.tfsClose g.sys.broker.tfs.toFs fd).2 := Stored.tfsClose_sparesFiles _ _
    rwa [toFs_tfsClose hcall] at hclose
  | writes i fd ret message hp hr hcall =>
    obtain ⟨fh, rfl, -, htaken⟩ := h.handles.opened e.thread fd (by rw [hp]; rfl)
    obtain ⟨j, hon, -⟩ := hstored.handles fh htaken
    obtain ⟨hapart, hfile⟩ := h.apart_of_writing hok hp hon
    by_cases hkj : k = j
    · rw [hkj] at hk ⊢
      exact .writes i fh message hp (hfile hk)
    · obtain ⟨htaken', hcontents⟩ := writeMessage_sparesFiles hstored hon hapart hcall k hkj hk
      exact .keeps htaken' hcontents
  | reads i n fd ret buffer hp hr hcall => exact hspares (readMessage_sparesFiles hstored hcall)
  | unlinks i ret hp hr hcall =>
    by_cases hl : FileAt g.sys.broker.tfs (some (g.sys.broker.mbrokerBoxes i).name) k
    · by_cases hret : ret = 0
      · exact .removes i hp (by rw [hr, if_pos hret]) hl
      · rcases tfsUnlink_cases hstored.dir hcall with ⟨-, -, heq⟩ |
          ⟨j, -, -, -, -, -, -, -, -, hzero, -⟩
        · rw [heq] at hspares
          exact hspares (.of_nodes rfl rfl rfl fun _ _ => rfl)
        · exact absurd hzero hret
    · obtain ⟨htaken, hcontents⟩ := hstored.tfsUnlink_keeps hcall hpos hk hl
      exact .keeps htaken hcontents

/-! ### What every step keeps -/

namespace BoxFilesInv

/-- Two boxes in use have different names. -/
theorem name_ne (h : BoxFilesInv g) (hi : (g.sys.broker.mbrokerBoxes i).allocState = .USED)
    (hj : (g.sys.broker.mbrokerBoxes j).allocState = .USED) (hij : i ≠ j) :
    (g.sys.broker.mbrokerBoxes i).name ≠ (g.sys.broker.mbrokerBoxes j).name :=
  fun hname => hij (h.distinct.slots i (h.slots i hi) j (h.slots j hj) hi hj hname)

/-- A name with a claim on it is that of no box. -/
theorem name_ne_of_claim (h : BoxFilesInv g) (hclaim : Claims (g.sys.pc t) n)
    (hi : (g.sys.broker.mbrokerBoxes i).allocState = .USED) :
    (g.sys.broker.mbrokerBoxes i).name ≠ slashed n := by
  intro hname
  have hnone := getBox_eq_none.mp (h.distinct.claimed t n hclaim) i (h.slots i hi)
  have hbox : isBox (g.sys.broker.mbrokerBoxes i) n = true :=
    isBox_eq_true.mpr ⟨hi, by rw [hname, tail_slashed]⟩
  cases hnone.symm.trans hbox

theorem fenced (h : BoxFilesInv g) (hok : Settled g e) : Fenced g e where
  assigns := hok.assigns
  deletes j hp _ _ _ hij _ hused := h.name_ne hused (hok.deletes j hp) hij
  writes := hok.writes

/-- A name is that of a file as before, unless the file is removed with this step. -/
theorem fileAt_next (h : BoxFilesInv g) (hs : TracedStep g e r g')
    (hfile : FileAt g.sys.broker.tfs name k)
    (hkeep : ∀ i, g.sys.pc e.thread = .delete (.locked i) → r.pc = .delete (.unlinked i) →
      name ≠ some (g.sys.broker.mbrokerBoxes i).name) : FileAt g'.sys.broker.tfs name k := by
  rw [hs.broker]
  exact (step_leaves hs.step h.traced.handles.stored).names name k hkeep hfile

/-- A box that is live after a step was live before, or is new. -/
theorem live_before (hs : TracedStep g e r g') (hlive : g'.sys.Live i) :
    g.sys.Live i ∧ (g'.sys.broker.mbrokerBoxes i).name = (g.sys.broker.mbrokerBoxes i).name ∨
      (g.sys.pc e.thread).enters = true ∧ freeSlot g.sys.broker.mbrokerBoxes = some i := by
  by_cases hnew : (g.sys.pc e.thread).enters = true ∧ freeSlot g.sys.broker.mbrokerBoxes = some i
  · exact .inr hnew
  · have hfree : (g.sys.pc e.thread).enters = true →
        freeSlot g.sys.broker.mbrokerBoxes ≠ some i := fun henters hfree => hnew ⟨henters, hfree⟩
    refine .inl ⟨⟨TracedInv.used_before hs hfree hlive.1,
      TracedInv.not_unlinked hs hlive.1 hlive.2⟩, ?_⟩
    rw [hs.broker]
    exact step_boxName hs.step hfree

/-- A box stays in use, unless its slot is freed with this step. -/
theorem used_next (hs : TracedStep g e r g')
    (hused : (g.sys.broker.mbrokerBoxes i).allocState = .USED)
    (hkeep : g.sys.pc e.thread ≠ .delete (.unlinked i)) :
    (g'.sys.broker.mbrokerBoxes i).allocState = .USED := by
  rw [hs.broker]
  rcases step_table hs.step with ⟨n, box, -, -, -, hm⟩ | ⟨j, hp, -, hm⟩ | ⟨hsame, -⟩
  · rw [hm]
    rcases enterBox_cases g.sys.broker.mbrokerBoxes box i with hold | ⟨hassigned, -⟩
    · rw [hold]
      exact hused
    · cases hused.symm.trans (freeSlot_eq_some hassigned).2
  · have hij : i ≠ j := by
      rintro rfl
      exact hkeep hp
    rw [hm, Function.update_of_ne hij]
    exact hused
  · rw [(hsame i).2]
    exact hused

/-- A live box stays one, unless its file is removed with this step. -/
theorem live_next (hs : TracedStep g e r g') (hlive : g.sys.Live i)
    (hkeep : r.pc ≠ .delete (.unlinked i)) : g'.sys.Live i ∧
      (g'.sys.broker.mbrokerBoxes i).name = (g.sys.broker.mbrokerBoxes i).name := by
  refine ⟨⟨used_next hs hlive.1 (hlive.2 e.thread), fun t => ?_⟩, ?_⟩
  · by_cases hte : t = e.thread
    · rw [hte, hs.self]
      exact hkeep
    · exact fun ht => hlive.2 t (((hs.same hte).unlinked i).mp ht)
  · rw [hs.broker]
    refine step_boxName hs.step fun _ hfree => ?_
    cases hlive.1.symm.trans (freeSlot_eq_some hfree).2

/-- A new box comes from the thread that created its file. -/
theorem entered (hs : TracedStep g e r g') (henters : (g.sys.pc e.thread).enters = true)
    (hfree : freeSlot g.sys.broker.mbrokerBoxes = some i) : ∃ n,
      g.sys.pc e.thread = .create n .closed ∧ r.broker.tfs = g.sys.broker.tfs ∧
      r.broker.mbrokerBoxes i = ⟨slashed n, 0, 0, 0, false, .USED⟩ := by
  obtain ⟨n, box, hp, hr, hbox, hm⟩ := (step_counts hs.step).entered henters
  obtain ⟨-, rfl⟩ := boxInitialize_eq_some hbox
  refine ⟨n, hp, step_entered hs.step hp, ?_⟩
  unfold enterBox at hm
  rw [hfree] at hm
  exact (congrFun hm i).trans (Function.update_self _ _ _)

theorem next_files (h : BoxFilesInv g) (hok : Settled g e) (hs : TracedStep g e r g')
    (hlive : g'.sys.Live i) :
    ∃ k, FileAt g'.sys.broker.tfs (some (g'.sys.broker.mbrokerBoxes i).name) k := by
  rcases live_before hs hlive with ⟨hbefore, hname⟩ | ⟨henters, hfree⟩
  · obtain ⟨k, hk⟩ := h.files i hbefore
    rw [hname]
    refine ⟨k, h.fileAt_next hs hk fun j hp hr heq => ?_⟩
    have hij : i ≠ j := by
      rintro rfl
      exact hlive.2 e.thread (hs.self.trans hr)
    exact h.name_ne hbefore.1 (hok.deletes j hp) hij (Option.some_inj.mp heq)
  · obtain ⟨n, hp, htfs, hbox⟩ := entered hs henters hfree
    rw [hs.broker, hbox, htfs]
    exact h.created e.thread n (.inr hp)

theorem next_created (h : BoxFilesInv g) (hok : Settled g e) (hs : TracedStep g e r g')
    (hcreated : (g'.sys.pc t).Created n) :
    ∃ k, FileAt g'.sys.broker.tfs (some (slashed n)) k := by
  have hold : (g.sys.pc t).Created n → ∃ k, FileAt g'.sys.broker.tfs (some (slashed n)) k := by
    intro hbefore
    obtain ⟨k, hk⟩ := h.created t n hbefore
    refine ⟨k, h.fileAt_next hs hk fun j hp _ heq => ?_⟩
    exact h.name_ne_of_claim hbefore.claims (hok.deletes j hp) (Option.some_inj.mp heq).symm
  by_cases hte : t = e.thread
  · rw [hte, hs.self] at hcreated
    rcases step_created hs.step hcreated with ⟨fd, hfd, -, hopen⟩ | hbefore
    · have hstored := h.traced.handles.stored
      rw [hs.broker]
      exact hstored.tfsOpen_creates (by decide) (toFs_tfsOpen hstored.dir.toRootOk hopen) hfd
    · exact hold (hte ▸ hbefore)
  · rw [hs.wakes t hte, created_wakes] at hcreated
    exact hold hcreated

theorem next_orphans (h : BoxFilesInv g) (hok : Settled g e) (hs : TracedStep g e r g')
    (hstored' : Stored g'.sys.broker.tfs.toFs) (hfile : FileAt g'.sys.broker.tfs name k)
    (hnone : ∀ i, g'.sys.Live i → some (g'.sys.broker.mbrokerBoxes i).name ≠ name) :
    fileContents g'.sys.broker.tfs k = [] := by
  have hstored := h.traced.handles.stored
  have htaken' := taken_of_lookup hstored' hfile
  obtain ⟨-, -, k', -, -, -, hk', hpos, hlt, -⟩ :=
    hstored'.dir.lookup hfile (Fs.natCast_ne_neg_one k)
  obtain rfl : k = k' := by exact_mod_cast hk'
  rw [hs.broker] at htaken'
  rcases step_new hs.step hstored htaken' with htaken | hempty
  swap
  · rw [hs.broker]
    exact hempty
  -- the file is not removed
  have hkeep : ∀ i, g.sys.pc e.thread = .delete (.locked i) → r.pc = .delete (.unlinked i) →
      ¬ FileAt g.sys.broker.tfs (some (g.sys.broker.mbrokerBoxes i).name) k := by
    intro i hp hr hl
    obtain ⟨-, hunlink⟩ := step_unlinks hs.step hr
    cases (hstored.tfsUnlink_frees hunlink hl).symm.trans htaken'
  have hbefore : FileAt g.sys.broker.tfs name k := by
    have hlt' : k < g.sys.broker.tfs.inodeTableSize := by
      have hparams := (step_leaves hs.step hstored).params
      rw [hs.broker] at hlt
      exact hlt.trans_eq (congrArg TfsParams.maxInodeCount hparams)
    refine hstored.names_back hstored'.toSound (fun old hold => ?_) hpos hlt' htaken hfile
    exact h.fileAt_next hs hold fun i hp hr heq => hkeep i hp hr (heq ▸ hold)
  -- a live box of the name would be live after the step
  have hnone' : ∀ i, g.sys.Live i → some (g.sys.broker.mbrokerBoxes i).name ≠ name := by
    intro i hlive heq
    have hstays : r.pc ≠ .delete (.unlinked i) := by
      intro hr
      obtain ⟨hp, -⟩ := step_unlinks hs.step hr
      exact hkeep i hp hr (heq ▸ hbefore)
    obtain ⟨hlive', hname⟩ := live_next hs hlive hstays
    exact hnone i hlive' (by rw [hname, heq])
  have hempty := h.orphans name k hbefore hnone'
  cases h.traced.step_file (h.fenced hok) hs hpos htaken with
  | keeps _ hcontents =>
    rw [hs.broker, hcontents, hempty]
  | writes i fd message hp hfile' =>
    -- the publisher of a live box has its mutex
    obtain ⟨hused, hl⟩ := (Broker.file_eq_some hstored.toSound).mp hfile'
    have hlive : g.sys.Live i := by
      refine ⟨hused, h.traced.not_unlinked_of_holds (t := e.thread) ?_ ?_⟩
      · rw [hp]
        rfl
      · simp [hp]
    exact absurd (hstored.lookup_injective hl hbefore) (hnone' i hlive)
  | removes i hp hr hl => exact absurd hl (hkeep i hp hr)

theorem next (h : BoxFilesInv g) (hok : Settled g e) (hs : TracedStep g e r g') :
    BoxFilesInv g' := by
  have htraced := h.traced.next (h.fenced hok) hs
  refine ⟨htraced, h.distinct.next hok.undisturbed hs.sys, fun i hused => ?_,
    fun i => h.next_files hok hs, fun t n => h.next_created hok hs,
    fun name k => h.next_orphans hok hs htraced.handles.stored⟩
  rw [hs.broker] at hused
  rcases used_after hs.step hused with hbefore | ⟨-, hfree⟩
  · exact h.slots i hbefore
  · exact (freeSlot_eq_some hfree).1

theorem filesOfBoxes (h : BoxFilesInv g) : FilesOfBoxes g.sys where
  has i hlive := by
    obtain ⟨k, hk⟩ := h.files i hlive
    exact ⟨k, (Broker.file_eq_some h.traced.handles.stored.toSound).mpr ⟨hlive.1, hk⟩⟩
  own i j k hi hj := by
    have hsound := h.traced.handles.stored.toSound
    obtain ⟨hused, hl⟩ := (Broker.file_eq_some hsound).mp hi
    obtain ⟨hused', hl'⟩ := (Broker.file_eq_some hsound).mp hj
    have hname := Option.some_inj.mp (hsound.lookup_injective hl hl')
    exact h.distinct.slots i (h.slots i hused) j (h.slots j hused') hused hused' hname
  empty name k hl hnone := by
    rw [tfsLookup_eq_ret h.traced.handles.stored.dir.toRootOk] at hl
    exact h.orphans name k (Outcome.ret.inj hl) hnone

end BoxFilesInv

/-! ### Whole runs -/

end TfsBroker.Mbroker
