import TfsBroker.Mbroker.OpenHandles

/-!
# A session keeps to its box

A session keeps a pointer to a slot of the table and a handle on a file, and notices that its
box was deleted only when it looks at `alloc_state`. Slots, inodes and blocks are given out
again in the meantime. The session has no effect on other boxes, and sends no bytes of other
boxes, as long as no slot is assigned to a new box while a session points to it, no file with a
session is unlinked under the name of another slot, and no publisher of a deleted box writes to
an inode that is in use again or whose block is.

## Main results

* `TracedInv.next` — what every step keeps
* `sessions_keep_to_box` — every run
-/

namespace TfsBroker.Mbroker

open Fs2 Runs

variable {m : Broker} {e : Turn} {p : Pc} {a : Act} {r : Step} {i k n t u : ℕ} {fd : ℤ}
  {buffer : List UInt8}

/-! ### The system -/

/-- The inode of the file of the box in slot `i`, if it has a box with a file. -/
def Broker.file (m : Broker) (i : ℕ) : Option ℕ :=
  if (m.mbrokerBoxes i).allocState = .USED then
    match tfsLookup m.tfs (some (m.mbrokerBoxes i).name) rootDirInum with
    | .ret (.ofNat k) => some k
    | _ => none
  else none

/-- The system, with the number of the box that each session found in its slot, and the bytes
that the file of its box had when the thread last read from it. -/
structure Traced extends Dated where
  found : ℕ → ℕ
  seen : ℕ → Option (List UInt8)

/-- The number of the box that the thread finds with this step. -/
def Traced.finds (g : Traced) (t : ℕ) (q : Pc) : ℕ :=
  if (g.sys.pc t).box = none then (q.box.map g.made).getD (g.found t) else g.found t

/-- The bytes of the file of the box, if the thread reads from it with this step. -/
def Traced.sees (g : Traced) (t : ℕ) : Option (List UInt8) :=
  match g.sys.pc t with
  | .subscriber (.reading i _ _) =>
    (g.sys.broker.file i).map (fileContents g.sys.broker.tfs)
  | _ => g.seen t

/-- A step of the system. -/
def Traced.next (g : Traced) (e : Turn) : Option Traced :=
  (g.toDated.next e).map fun d => {
    toDated := d
    found := fun t => if t = e.thread then g.finds t (d.sys.pc t) else g.found t
    seen := fun t => if t = e.thread then g.sees t else g.seen t }

/-- The broker was just started. -/
def Traced.Initial (g : Traced) : Prop := g.toDated.Initial

/-- A slot is assigned to a new box only while no session points to it and no thread has its
mutex; a box is unlinked only under a name that no other box with a session has; and a publisher
whose box was deleted writes only while its inode is free, and the block of the inode is that of
no file. -/
structure Fenced (g : Traced) (e : Turn) : Prop where
  assigns : (g.sys.pc e.thread).enters = true → ∀ i, freeSlot g.sys.broker.mbrokerBoxes = some i →
    ∀ t < g.sys.maxSessions, (g.sys.pc t).holds ≠ some i ∧ (g.sys.pc t).box ≠ some i
  deletes : ∀ j, g.sys.pc e.thread = .delete (.locked j) → ∀ t < g.sys.maxSessions, ∀ i ≠ j,
    (g.sys.pc t).box = some i → (g.sys.broker.mbrokerBoxes i).allocState = .USED →
    (g.sys.broker.mbrokerBoxes i).name ≠ (g.sys.broker.mbrokerBoxes j).name
  writes : ∀ i fd message, g.sys.pc e.thread = .publisher (.writing i fd message) →
    (g.sys.broker.mbrokerBoxes i).allocState = .USED ∨ ∀ fh k : ℕ, fd = fh →
      (g.sys.broker.tfs.openFileTable fh).ofInumber = k →
      g.sys.broker.tfs.freeinodeTs k = .FREE ∧ Apart g.sys.broker.tfs.toFs k

/-- The bytes were in the file of the box when the thread last read from it. -/
def Traced.Shown (g : Traced) (t : ℕ) (buffer : List UInt8) : Prop :=
  ∃ bytes, g.seen t = some bytes ∧ buffer <:+: bytes

/-! ### The file of a box -/

theorem Broker.file_eq_some (hs : Sound m.tfs.toFs) : m.file i = some k ↔
    (m.mbrokerBoxes i).allocState = .USED ∧
      Fs.tfsLookup m.tfs.toFs (some (m.mbrokerBoxes i).name) 0 = k := by
  unfold Broker.file
  rw [tfsLookup_eq_ret hs.dir.toRootOk]
  generalize Fs.tfsLookup m.tfs.toFs (some (m.mbrokerBoxes i).name) 0 = inum
  split
  · rename_i hused
    cases inum with
    | ofNat k' => simp [hused]
    | negSucc n => simp [hused]
  · rename_i hused
    simp [hused]

/-! ### Steps -/

variable {g g' : Traced}

/-- A step of the system is the step `r` of one thread. -/
structure TracedStep (g : Traced) (e : Turn) (r : Step) (g' : Traced) : Prop
    extends DatedStep g.toDated e r g'.toDated where
  sys : g.sys.next e = some g'.sys
  wakes : ∀ t ≠ e.thread, g'.sys.pc t = r.output.wakes g.sys.pc t
  found_self : g'.found e.thread = g.finds e.thread r.pc
  found_others : ∀ t ≠ e.thread, g'.found t = g.found t
  seen_self : g'.seen e.thread = g.sees e.thread
  seen_others : ∀ t ≠ e.thread, g'.seen t = g.seen t

theorem Traced.next_eq_some (h : g.next e = some g') : ∃ r, TracedStep g e r g' := by
  obtain ⟨d, hnext, rfl⟩ := Option.map_eq_some_iff.mp h
  obtain ⟨r, hs⟩ := Dated.next_eq_some hnext
  obtain ⟨y, hsys, rfl⟩ := Option.map_eq_some_iff.mp hnext
  obtain ⟨r', hstep, -, -, hwakes, -⟩ := Sys.next_eq_some hsys
  obtain rfl := Option.some_inj.mp (hs.step.symm.trans hstep)
  refine ⟨r, hs, hsys, hwakes, ?_, fun t ht => if_neg ht, if_pos rfl, fun t ht => if_neg ht⟩
  exact (if_pos rfl).trans (congrArg (g.finds e.thread) hs.self)

/-! ### Reading and sending -/

/-- The bytes that a subscriber has read, and not sent yet. -/
def Pc.message : Pc → Option (List UInt8)
  | .subscriber (.read _ _ _ _ buffer) | .subscriber (.sending _ _ _ buffer) => some buffer
  | _ => none

/-- A step after which a subscriber has bytes to send. -/
inductive MessageStep (m : Broker) (p : Pc) (r : Step) (buffer : List UInt8) : Prop
  | reads (i n : ℕ) (fd ret : ℤ) (hp : p = .subscriber (.reading i fd n))
      (hr : r.pc = .subscriber (.read i fd n ret buffer))
      (hread : readMessage m.tfs fd = .ret (ret, buffer, r.broker.tfs))
  | sends (i n n' : ℕ) (fd ret : ℤ) (hp : p = .subscriber (.read i fd n ret buffer))
      (hr : r.pc = .subscriber (.sending i fd n' buffer))
      (hused : (m.mbrokerBoxes i).allocState = .USED)

theorem subscriberStep_message {p : SubscriberPc} (h : subscriberStep m p = some r)
    (hr : r.pc.message = some buffer) : MessageStep m (.subscriber p) r buffer := by
  cases p with
  | reading i fd n =>
    obtain ⟨⟨ret, buffer', tfs⟩, hread, rfl⟩ := Option.map_eq_some_iff.mp h
    dsimp only at hr
    split at hr
    · cases hr
    · rename_i hret
      obtain rfl := Option.some_inj.mp hr
      exact .reads i n fd ret rfl (congrArg Pc.subscriber (if_neg hret))
        (Outcome.toOption_eq_some.mp hread)
  | read i fd n ret buffer' =>
    obtain rfl := Option.some_inj.mp h
    dsimp only at hr
    split at hr
    · cases hr
    · rename_i hstate
      obtain rfl := Option.some_inj.mp hr
      refine .sends i n _ fd ret rfl (congrArg Pc.subscriber (if_neg hstate)) ?_
      cases hused : (m.mbrokerBoxes i).allocState with
      | USED => rfl
      | NOT_USED => exact absurd hused hstate
  | found | looping | woken | uncounted =>
    obtain ⟨z, -, rfl⟩ := Option.map_eq_some_iff.mp h
    cases hr
  | locked =>
    obtain ⟨z, -, rfl⟩ := Option.map_eq_some_iff.mp h
    dsimp only at hr
    split at hr <;> cases hr
  | looking =>
    simp only [subscriberStep] at h
    split at h <;> obtain rfl := Option.some_inj.mp h <;> cases hr
  | refused | opened | counted | sent | leaving | left =>
    obtain rfl := Option.some_inj.mp h
    cases hr
  | asleep | sending => cases h

/-- Bytes are sent after they were read, and only while the box is in use. -/
theorem step_message (h : step m p a = some r) (hr : r.pc.message = some buffer) :
    MessageStep m p r buffer := by
  -- no other thread has bytes to send
  have hnone : r.pc.box = none → False := by
    intro hbox
    cases hpc : r.pc with
    | subscriber q =>
      rw [hpc] at hbox
      cases q <;> cases hbox
    | _ =>
      rw [hpc] at hr
      cases hr
  unfold step at h
  split at h
  · obtain rfl := Option.some_inj.mp h
    unfold accept at hr
    repeat' split at hr
    all_goals cases hr
  · exact (hnone (createStep_box h)).elim
  · exact (hnone (deleteStep_box h)).elim
  · obtain rfl := Option.some_inj.mp h
    cases hr
  · rcases (publisherStep_table h).2 with hpc | ⟨q, hpc⟩ <;> rw [hpc] at hr <;> cases hr
  · obtain rfl := Option.some_inj.mp h
    split at hr <;> cases hr
  · exact subscriberStep_message h hr
  · cases h

/-! ### The other threads -/

/-- What the handles and the boxes have to do with a thread. -/
structure SameTask (p q : Pc) : Prop where
  handle : q.handle = p.handle
  message : q.message = p.message
  writes : q.writes = p.writes
  unlinked : ∀ i, q = .delete (.unlinked i) ↔ p = .delete (.unlinked i)

theorem sameTask_wakes (o : Output) (pc : ℕ → Pc) (t : ℕ) : SameTask (pc t) (o.wakes pc t) := by
  rcases o.wakes_cases pc t with heq | ⟨i, fd, n, hpc, heq⟩
  · rw [heq]
    exact ⟨rfl, rfl, rfl, fun _ => Iff.rfl⟩
  · rw [heq, hpc]
    exact ⟨rfl, rfl, rfl, by simp⟩

theorem TracedStep.same (hs : TracedStep g e r g') (ht : t ≠ e.thread) :
    SameTask (g.sys.pc t) (g'.sys.pc t) := by
  rw [hs.wakes t ht]
  exact sameTask_wakes _ _ _

/-- The step after `tfs_unlink` frees the slot. -/
theorem step_unlinked (h : step m (.delete (.unlinked i)) a = some r) :
    (r.broker.mbrokerBoxes i).allocState = .NOT_USED := by
  cases a with
  | go =>
    obtain rfl := Option.some_inj.mp h
    simp [Broker.setBox]
  | accept | receive | send => cases h

/-- A slot that is not assigned keeps its name. -/
theorem step_boxName (h : step m p a = some r)
    (hfree : p.enters = true → freeSlot m.mbrokerBoxes ≠ some i) :
    (r.broker.mbrokerBoxes i).name = (m.mbrokerBoxes i).name := by
  rcases step_table h with ⟨n, box, hp, -, -, hm⟩ | ⟨j, -, -, hm⟩ | ⟨hsame, -⟩
  · rw [hm]
    rcases enterBox_cases m.mbrokerBoxes box i with hold | ⟨hassigned, -⟩
    · rw [hold]
    · exact absurd hassigned (hfree (by rw [hp]; rfl))
  · rw [hm]
    by_cases hij : i = j
    · rw [hij, Function.update_self]
    · rw [Function.update_of_ne hij]
  · exact (hsame i).1

/-! ### What every step keeps -/

/-- Every session points to the box it found, its handle is on the file of the box unless the box
is being deleted, and what it has read was in that file. -/
structure TracedInv (g : Traced) : Prop where
  handles : HandlesInv g.sys
  held : LockedAlone g.toDated
  found : ∀ t i, (g.sys.pc t).box = some i → g.found t = g.made i
  onFile : ∀ t i fd, (g.sys.pc t).box = some i → (g.sys.pc t).handle = some fd →
    (g.sys.broker.mbrokerBoxes i).allocState = .USED →
    (∀ u, g.sys.pc u ≠ .delete (.unlinked i)) → OnFile g.sys.broker i fd
  shown : ∀ t i buffer, (g.sys.pc t).box = some i → (g.sys.pc t).message = some buffer →
    (g.sys.broker.mbrokerBoxes i).allocState = .USED → g.Shown t buffer
  sends : ∀ t i fd n buffer, g.sys.pc t = .subscriber (.sending i fd n buffer) →
    g.Shown t buffer

namespace TracedInv

theorem lt_of_box (h : TracedInv g) (hbox : (g.sys.pc t).box = some i) :
    t < g.sys.maxSessions := by
  by_contra hge
  rw [h.handles.idle t (Nat.le_of_not_lt hge)] at hbox
  cases hbox

/-- The slot of a session is not assigned to a new box. -/
theorem not_assigned (h : TracedInv g) (hok : Fenced g e) (hbox : (g.sys.pc t).box = some i)
    (henters : (g.sys.pc e.thread).enters = true) :
    freeSlot g.sys.broker.mbrokerBoxes ≠ some i := by
  intro hfree
  exact (hok.assigns henters i hfree t (h.lt_of_box hbox)).2 hbox

/-- The slot that the thread points to after its step is not assigned to a new box by it. -/
theorem not_assigned_self (h : TracedInv g) (hok : Fenced g e) (hs : TracedStep g e r g')
    (hbox : r.pc.box = some i) (henters : (g.sys.pc e.thread).enters = true) :
    freeSlot g.sys.broker.mbrokerBoxes ≠ some i := by
  rcases step_box hs.step hbox with hold | ⟨hidle, -⟩
  · exact h.not_assigned hok hold henters
  · rw [hidle] at henters
    cases henters

theorem used_before (hs : TracedStep g e r g')
    (hfree : (g.sys.pc e.thread).enters = true → freeSlot g.sys.broker.mbrokerBoxes ≠ some i)
    (hused : (g'.sys.broker.mbrokerBoxes i).allocState = .USED) :
    (g.sys.broker.mbrokerBoxes i).allocState = .USED := by
  rw [hs.broker] at hused
  refine (used_after hs.step hused).resolve_right ?_
  rintro ⟨henters, hassigned⟩
  exact hfree henters hassigned

theorem made_same (hs : TracedStep g e r g')
    (hfree : (g.sys.pc e.thread).enters = true → freeSlot g.sys.broker.mbrokerBoxes ≠ some i) :
    g'.made i = g.made i := by
  rw [hs.made]
  refine if_neg ?_
  rintro ⟨henters, hassigned⟩
  exact hfree henters hassigned

/-- No thread was about to free a slot that is in use after the step. -/
theorem not_unlinked (hs : TracedStep g e r g')
    (hused : (g'.sys.broker.mbrokerBoxes i).allocState = .USED)
    (hnone : ∀ u, g'.sys.pc u ≠ .delete (.unlinked i)) (u : ℕ) :
    g.sys.pc u ≠ .delete (.unlinked i) := by
  intro hu
  by_cases hue : u = e.thread
  · have hstep := hs.step
    rw [← hue, hu] at hstep
    rw [hs.broker, step_unlinked hstep] at hused
    cases hused
  · exact hnone u (((hs.same hue).unlinked i).mpr hu)

/-- While a thread has the mutex of a slot, no other is about to free the slot. -/
theorem not_unlinked_of_holds (h : TracedInv g) (hheld : (g.sys.pc t).holds = some i)
    (hne : ∀ i, g.sys.pc t ≠ .delete (.unlinked i)) (u : ℕ) :
    g.sys.pc u ≠ .delete (.unlinked i) := by
  intro hu
  have hholds : (g.sys.pc u).holds = some i := by rw [hu]; rfl
  obtain rfl := h.held.alone t u i hheld hholds
  exact hne i hu

/-- The handle of a session that is not being deleted stays on the file of its box. -/
theorem next_onFile (h : TracedInv g) (hok : Fenced g e) (hs : TracedStep g e r g')
    (hbox : (g'.sys.pc t).box = some i) (hfd : (g'.sys.pc t).handle = some fd)
    (hused : (g'.sys.broker.mbrokerBoxes i).allocState = .USED)
    (hnone : ∀ u, g'.sys.pc u ≠ .delete (.unlinked i)) : OnFile g'.sys.broker i fd := by
  have hbefore := not_unlinked hs hused hnone
  by_cases hte : t = e.thread
  · rw [hte, hs.self] at hbox hfd
    have hfree := h.not_assigned_self hok hs hbox
    rw [hs.broker]
    exact step_onFile hs.step h.handles.stored (h.handles.opened _)
      (fun hp hold => h.onFile _ _ _ hp hold (used_before hs hfree hused) hbefore)
      (step_boxName hs.step hfree) hbox hfd
  · rw [(hs.others t hte).box] at hbox
    rw [(hs.same hte).handle] at hfd
    have hfree := h.not_assigned hok hbox
    have hused' := used_before hs hfree hused
    have hold := h.onFile t i fd hbox hfd hused' hbefore
    rw [hs.broker]
    refine hold.of_leaves h.handles.stored (step_leaves hs.step h.handles.stored) ?_
      (step_boxName hs.step hfree) ?_
    · intro hopens
      exact hte (h.handles.alone _ _ _ (Pc.opens_of_handle hfd) hopens)
    · intro j hp hpc
      have hij : i ≠ j := by
        rintro rfl
        exact hnone e.thread (hs.self.trans hpc)
      exact hok.deletes j hp t (h.lt_of_box hbox) i hij hbox hused'

/-- What a subscriber reads from a box in use are bytes of its file. -/
theorem shown_of_read (h : TracedInv g) {ret : ℤ} {tfs : State}
    (hp : g.sys.pc t = .subscriber (.reading i fd n))
    (hread : readMessage g.sys.broker.tfs fd = .ret (ret, buffer, tfs))
    (hused : (g.sys.broker.mbrokerBoxes i).allocState = .USED) :
    ∃ bytes, g.sees t = some bytes ∧ buffer <:+: bytes := by
  have hholds : (g.sys.pc t).holds = some i := by rw [hp]; rfl
  have hnone := h.not_unlinked_of_holds hholds (by simp [hp])
  have hfile := h.onFile t i fd (by rw [hp]; rfl) (by rw [hp]; rfl) hused hnone
  obtain ⟨fh, k, rfl, hon, hl, hle⟩ := hfile
  obtain ⟨fh', hfh', hlt, -⟩ := h.handles.opened t fh (by rw [hp]; rfl)
  obtain rfl : fh = fh' := by exact_mod_cast hfh'
  have hopen := h.handles.stored.openFile hon hlt (taken_of_lookup h.handles.stored hl)
  refine ⟨fileContents g.sys.broker.tfs k, ?_, (readMessage_within hopen hle hread).1⟩
  have hfile : g.sys.broker.file i = some k :=
    (Broker.file_eq_some h.handles.stored.toSound).mpr ⟨hused, hl⟩
  simp only [Traced.sees, hp, hfile, Option.map_some]

/-- The bytes that a subscriber has to send after its step were in the file of its box. -/
theorem shown_self (h : TracedInv g) (hok : Fenced g e) (hs : TracedStep g e r g')
    (hbox : r.pc.box = some i) (hmessage : r.pc.message = some buffer)
    (hused : (g'.sys.broker.mbrokerBoxes i).allocState = .USED) :
    ∃ bytes, g'.seen e.thread = some bytes ∧ buffer <:+: bytes := by
  have hused' := used_before hs (h.not_assigned_self hok hs hbox) hused
  rw [hs.seen_self]
  cases step_message hs.step hmessage with
  | reads j n fd ret hp hr hread =>
    rw [hr] at hbox
    obtain rfl := Option.some_inj.mp hbox
    exact h.shown_of_read hp hread hused'
  | sends j n n' fd ret hp hr hstate =>
    have hsees : g.sees e.thread = g.seen e.thread := by simp only [Traced.sees, hp]
    rw [hsees]
    exact h.shown e.thread j buffer (by rw [hp]; rfl) (by rw [hp]; rfl) hstate

theorem found_self (h : TracedInv g) (hok : Fenced g e) (hs : TracedStep g e r g')
    (hbox : r.pc.box = some i) : g'.found e.thread = g'.made i := by
  rw [made_same hs (h.not_assigned_self hok hs hbox), hs.found_self, Traced.finds]
  rcases step_box hs.step hbox with hold | ⟨hidle, -⟩
  · rw [if_neg (by simp [hold])]
    exact h.found _ _ hold
  · have hnone : (g.sys.pc e.thread).box = none := by rw [hidle]; rfl
    rw [if_pos hnone, hbox]
    rfl

/-- Every fenced step keeps the sessions to their boxes. -/
theorem next (h : TracedInv g) (hok : Fenced g e) (hs : TracedStep g e r g') : TracedInv g' where
  handles := h.handles.next hs.sys
  held := h.held.next (fun henters i hfree t ht => (hok.assigns henters i hfree t ht).1) hs.toDatedStep
  found := by
    intro t i ht
    by_cases hte : t = e.thread
    · rw [hte, hs.self] at ht
      rw [hte]
      exact h.found_self hok hs ht
    · rw [(hs.others t hte).box] at ht
      rw [made_same hs (h.not_assigned hok ht), hs.found_others t hte]
      exact h.found t i ht
  onFile t i fd hbox hfd hused hnone := h.next_onFile hok hs hbox hfd hused hnone
  shown := by
    intro t i buffer hbox hmessage hused
    by_cases hte : t = e.thread
    · rw [hte, hs.self] at hbox hmessage
      rw [hte]
      exact h.shown_self hok hs hbox hmessage hused
    · rw [(hs.others t hte).box] at hbox
      rw [(hs.same hte).message] at hmessage
      have hold := h.shown t i buffer hbox hmessage (used_before hs (h.not_assigned hok hbox) hused)
      unfold Traced.Shown
      rwa [hs.seen_others t hte]
  sends := by
    intro t i fd n buffer ht
    by_cases hte : t = e.thread
    · rw [hte, hs.self] at ht
      rw [hte]
      cases step_message hs.step (by rw [ht]; rfl) with
      | reads j n fd ret hp hr => cases hr.symm.trans ht
      | sends j n n' fd ret hp hr hused =>
        have hsees : g.sees e.thread = g.seen e.thread := by simp only [Traced.sees, hp]
        unfold Traced.Shown
        rw [hs.seen_self, hsees]
        exact h.shown e.thread j buffer (by rw [hp]; rfl) (by rw [hp]; rfl) hused
    · rw [hs.wakes t hte] at ht
      have hpc : g.sys.pc t = .subscriber (.sending i fd n buffer) := by
        rcases r.output.wakes_cases g.sys.pc t with heq | ⟨i', fd', n', -, heq⟩
        · exact heq.symm.trans ht
        · cases heq.symm.trans ht
      have hold := h.sends t i fd n buffer hpc
      unfold Traced.Shown
      rwa [hs.seen_others t hte]

end TracedInv

/-! ### What a session leaves alone -/

namespace TracedInv

/-- The inode that a publisher writes to is that of its box, or is free, and no other file has
its block. -/
theorem apart_of_writing (h : TracedInv g) (hok : Fenced g e) {message : CString} {fh : ℕ}
    (hp : g.sys.pc e.thread = .publisher (.writing i fh message))
    (hon : Fs.HandleOn g.sys.broker.tfs.toFs fh k) : Apart g.sys.broker.tfs.toFs k ∧
      (g.sys.broker.tfs.freeinodeTs k = .TAKEN → g.sys.broker.file i = some k) := by
  rcases hok.writes i fh message hp with hused | hfree
  · have hholds : (g.sys.pc e.thread).holds = some i := by rw [hp]; rfl
    have hnone := h.not_unlinked_of_holds hholds (by simp [hp])
    obtain ⟨fh', k', hfh, hon', hl, -⟩ :=
      h.onFile e.thread i fh (by rw [hp]; rfl) (by rw [hp]; rfl) hused hnone
    obtain rfl : fh = fh' := by exact_mod_cast hfh
    obtain rfl : k = k' := by exact_mod_cast hon.2.symm.trans hon'.2
    exact ⟨h.handles.stored.apart (taken_of_lookup h.handles.stored hl),
      fun _ => (Broker.file_eq_some h.handles.stored.toSound).mpr ⟨hused, hl⟩⟩
  · obtain ⟨hnotused, hapart⟩ := hfree fh k rfl hon.2
    exact ⟨hapart, fun htaken => by cases hnotused.symm.trans htaken⟩

end TracedInv

/-! ### Whole runs -/

/-- The broker was just started, with two worker threads. -/
def Traced.fresh : Traced :=
  ⟨⟨⟨2, two_le_intMax, .fresh, fun _ => .idle⟩, fun _ => 0, fun _ => 0⟩, fun _ => 0, fun _ => none⟩

end TfsBroker.Mbroker
