import TfsBroker.Mbroker.BoxFiles
import TfsBroker.Mbroker.MessageSteps

/-!
# What subscribers are sent

Beside the threads stand the messages that were written to the box in each slot since the slot
was assigned, and the buffers that each session has sent. Whatever the threads of any number of
boxes do, a subscriber is sent the messages of its box in the order in which they were written,
from the first one on, none twice and none in between left out. A subscriber that sleeps while
no publisher has anything to announce has been sent all of them.

## Main results

* `LedgerInv.next` — what every step keeps
* `messages_delivered` — every run
-/

namespace TfsBroker.Mbroker

open Fs2 Runs CString

variable {m : Broker} {e : Turn} {p q : Pc} {a : Act} {r : Step} {i j k n t u fh : ℕ} {fd : ℤ}
  {message : CString}

/-! ### The system -/

/-- The system, with the messages that were written to the box in each slot, and what each
session has sent. -/
structure Ledger extends Traced where
  posted : ℕ → List CString
  sent : ℕ → List (List UInt8)

/-- The messages of the box in slot `i` after a step of the thread to `q`. -/
def Ledger.posts (g : Ledger) (t : ℕ) (q : Pc) (i : ℕ) : List CString :=
  match (g.sys.pc t).posts q with
  | some (j, message) => if i = j then g.posted i ++ [message] else g.posted i
  | none =>
    if (g.sys.pc t).enters ∧ freeSlot g.sys.broker.mbrokerBoxes = some i then [] else g.posted i

/-- What the session of the thread has sent after a step. A session begins with a request. -/
def Ledger.sends (g : Ledger) (e : Turn) : List (List UInt8) :=
  if g.sys.pc e.thread = .idle then []
  else (((step g.sys.broker (g.sys.pc e.thread) e.act).map Step.output).getD .none).sent
    (g.sent e.thread)

/-- A step of the system. -/
def Ledger.next (g : Ledger) (e : Turn) : Option Ledger :=
  (g.toTraced.next e).map fun y => {
    toTraced := y
    posted := g.posts e.thread (y.sys.pc e.thread)
    sent := fun t => if t = e.thread then g.sends e else g.sent t }

/-- The broker was just started. -/
def Ledger.Initial (g : Ledger) : Prop := g.toTraced.Initial ∧ g.posted = fun _ => []

/-- The steps are settled, and a message that is written fits in the file of its box, with its
terminator. -/
structure Posts (g : Ledger) (e : Turn) : Prop extends Settled g.toTraced e where
  short : ∀ i fd message, g.sys.pc e.thread = .publisher (.writing i fd message) →
    message.strlen < messageLength
  fits : ∀ i fd message k, g.sys.pc e.thread = .publisher (.writing i fd message) →
    g.sys.broker.file i = some k →
    (g.sys.broker.tfs.inodeTable k).iSize + message.strlen < g.sys.broker.tfs.blockSize

/-- A subscriber has read the first `n` messages, and sent those that it does not hold. -/
structure ReadsAt (s : State) (posted : List CString) (sent : List (List UInt8)) (p : Pc)
    (fh n : ℕ) : Prop where
  le : n ≤ posted.length
  offset : (s.openFileTable fh).ofOffset = (framed (posted.take n)).length
  sent : sent ++ p.message.toList = (posted.take n).map CString.terminated
  totalRead : p.totalRead = some (s.openFileTable fh).ofOffset

/-- What the file of a live box, its size, its publisher and its subscribers have to do with the
messages that were written to it. -/
structure LedgerInv (g : Ledger) : Prop where
  files : BoxFilesInv g.toTraced
  counts : CountInv g.toDated
  since : ∀ t i, (g.sys.pc t).publishes = some i ∨ (g.sys.pc t).subscribes = some i →
    g.since t = g.made i
  short : ∀ i, ∀ message ∈ g.posted i, message.strlen < messageLength
  contents : ∀ i k, g.sys.Live i → g.sys.broker.file i = some k →
    fileContents g.sys.broker.tfs k = framed (g.posted i)
  size : ∀ i, g.sys.Live i → (∀ t fd ret, g.sys.pc t ≠ .publisher (.written i fd ret)) →
    (g.sys.broker.mbrokerBoxes i).size = (framed (g.posted i)).length
  added : ∀ t i fd ret, g.sys.Live i → g.sys.pc t = .publisher (.written i fd ret) →
    ((g.sys.broker.mbrokerBoxes i).size + ret.toNat + 1) % sizeRange =
      (framed (g.posted i)).length
  atEnd : ∀ t i (fh k : ℕ), g.sys.Live i → (g.sys.pc t).writes = true →
    (g.sys.pc t).box = some i → (g.sys.pc t).handle = some (fh : ℤ) →
    g.sys.broker.file i = some k →
    (g.sys.broker.tfs.openFileTable fh).ofOffset = (g.sys.broker.tfs.inodeTable k).iSize
  sending : ∀ t i fd n buffer, g.sys.pc t = .subscriber (.sending i fd n buffer) →
    (g.sys.broker.mbrokerBoxes i).allocState = .USED
  fresh : ∀ t i, g.sys.pc t = .subscriber (.found i) ∨ g.sys.pc t = .subscriber (.locked i) →
    g.sent t = []
  ordered : ∀ t i, (g.sys.pc t).follows = some i →
    g.sent t <+: (g.posted i).map CString.terminated
  reads : ∀ t i (fh : ℕ), g.sys.Live i → (g.sys.pc t).receives = some (i, (fh : ℤ)) →
    ∃ n, ReadsAt g.sys.broker.tfs (g.posted i) (g.sent t) (g.sys.pc t) fh n
  awaited : ∀ t i fd n, g.sys.pc t = .subscriber (.asleep i fd n) → g.sys.Live i →
    (∀ u, ¬ (g.sys.pc u).AnnouncesTo i) → (framed (g.posted i)).length ≤ n

/-- The messages that were read stay the first ones, when others are written. -/
theorem ReadsAt.next {s s' : State} {posted posted' : List CString} {sent : List (List UInt8)}
    (h : ReadsAt s posted sent p fh n) (hposted : posted <+: posted')
    (hoffset : (s'.openFileTable fh).ofOffset = (s.openFileTable fh).ofOffset)
    (hmessage : q.message = p.message) (htotal : q.totalRead = p.totalRead) :
    ReadsAt s' posted' sent q fh n := by
  have htake : posted'.take n = posted.take n := by
    obtain ⟨rest, rfl⟩ := hposted
    exact List.take_append_of_le_length h.le
  refine ⟨h.le.trans hposted.length_le, ?_, ?_, ?_⟩
  · rw [hoffset, htake]
    exact h.offset
  · rw [hmessage, htake]
    exact h.sent
  · rw [htotal, hoffset]
    exact h.totalRead

/-! ### Steps -/

variable {g g' : Ledger}

/-- A step of the system is the step `r` of one thread. -/
structure LedgerStep (g : Ledger) (e : Turn) (r : Step) (g' : Ledger) : Prop
    extends TracedStep g.toTraced e r g'.toTraced where
  posted : ∀ i, g'.posted i = g.posts e.thread r.pc i
  sent_self : g'.sent e.thread =
    if g.sys.pc e.thread = .idle then [] else r.output.sent (g.sent e.thread)
  sent_others : ∀ t ≠ e.thread, g'.sent t = g.sent t

theorem Ledger.next_eq_some (h : g.next e = some g') : ∃ r, LedgerStep g e r g' := by
  obtain ⟨y, hnext, rfl⟩ := Option.map_eq_some_iff.mp h
  obtain ⟨r, hs⟩ := Traced.next_eq_some hnext
  refine ⟨r, hs, fun i => ?_, ?_, fun t ht => if_neg ht⟩
  · exact congrArg (g.posts e.thread · i) hs.self
  · refine (if_pos rfl).trans ?_
    unfold Ledger.sends
    rw [hs.step]
    rfl

/-- The slot is not assigned to a new box with the step. -/
def LedgerStep.Old (g : Ledger) (e : Turn) (i : ℕ) : Prop :=
  (g.sys.pc e.thread).enters = true → freeSlot g.sys.broker.mbrokerBoxes ≠ some i

/-- The messages of a box after a step: one more was written, the box is new, or they are the
same. -/
theorem LedgerStep.posted_cases (hs : LedgerStep g e r g') (i : ℕ) :
    (∃ message, (g.sys.pc e.thread).posts r.pc = some (i, message) ∧
      g'.posted i = g.posted i ++ [message]) ∨
    ((g.sys.pc e.thread).enters = true ∧ freeSlot g.sys.broker.mbrokerBoxes = some i ∧
      g'.posted i = []) ∨
    ((∀ message, (g.sys.pc e.thread).posts r.pc ≠ some (i, message)) ∧ Old g e i ∧
      g'.posted i = g.posted i) := by
  have hposted := hs.posted i
  unfold Ledger.posts at hposted
  split at hposted
  · rename_i j message hposts
    split at hposted
    · rename_i hij
      rw [hij]
      rw [hij] at hposted
      exact .inl ⟨message, hposts, hposted⟩
    · rename_i hij
      refine .inr (.inr ⟨fun message' heq => ?_, fun henters => ?_, hposted⟩)
      · exact hij (Prod.mk.inj (Option.some_inj.mp (heq.symm.trans hposts))).1
      · obtain ⟨⟨fd, hp⟩, -⟩ := Pc.posts_eq_some hposts
        rw [hp] at henters
        cases henters
  · rename_i hnone
    split at hposted
    · rename_i hnew
      exact .inr (.inl ⟨hnew.1, hnew.2, hposted⟩)
    · rename_i hold
      refine .inr (.inr ⟨fun message heq => ?_, fun henters hfree => hold ⟨henters, hfree⟩, hposted⟩)
      cases hnone.symm.trans heq

namespace LedgerInv

theorem stored (h : LedgerInv g) : Stored g.sys.broker.tfs.toFs := h.files.traced.handles.stored

/-- A thread that has the mutex of a box in use keeps it live. -/
theorem live_of_holds (h : LedgerInv g) (hheld : (g.sys.pc t).holds = some i)
    (hused : (g.sys.broker.mbrokerBoxes i).allocState = .USED)
    (hne : ∀ i, g.sys.pc t ≠ .delete (.unlinked i)) : g.sys.Live i :=
  ⟨hused, h.files.traced.not_unlinked_of_holds hheld hne⟩

/-- The slot that a session points to is not assigned to a new box. -/
theorem old_of_box (h : LedgerInv g) (hok : Posts g e) (hbox : (g.sys.pc t).box = some i) :
    LedgerStep.Old g e i :=
  h.files.traced.not_assigned (h.files.fenced hok.toSettled) hbox

theorem old_of_box_self (h : LedgerInv g) (hok : Posts g e) (hs : LedgerStep g e r g')
    (hbox : r.pc.box = some i) : LedgerStep.Old g e i :=
  h.files.traced.not_assigned_self (h.files.fenced hok.toSettled) hs.toTracedStep hbox

theorem live_before (hs : LedgerStep g e r g') (hlive : g'.sys.Live i)
    (hold : LedgerStep.Old g e i) : g.sys.Live i := by
  rcases BoxFilesInv.live_before hs.toTracedStep hlive with ⟨hbefore, -⟩ | ⟨henters, hfree⟩
  · exact hbefore
  · exact absurd hfree (hold henters)

/-- The handle of a session of a live box is open on the file of the box. -/
theorem openFile (h : LedgerInv g) (hlive : g.sys.Live i) (hbox : (g.sys.pc t).box = some i)
    (hfh : (g.sys.pc t).handle = some (fh : ℤ)) :
    ∃ k, g.sys.broker.file i = some k ∧ OpenFile g.sys.broker.tfs fh k := by
  obtain ⟨fh', k, hfd, hon, hl, -⟩ := h.files.traced.onFile t i fh hbox hfh hlive.1 hlive.2
  obtain rfl : fh = fh' := by exact_mod_cast hfd
  obtain ⟨fh', hfd', hlt, -⟩ := h.files.traced.handles.opened t fh (Pc.opens_of_handle hfh)
  obtain rfl : fh = fh' := by exact_mod_cast hfd'
  exact ⟨k, (Broker.file_eq_some h.stored.toSound).mpr ⟨hlive.1, hl⟩,
    h.stored.openFile hon hlt (taken_of_lookup h.stored hl)⟩

theorem size_eq (h : LedgerInv g) (hlive : g.sys.Live i) (hfile : g.sys.broker.file i = some k) :
    (g.sys.broker.tfs.inodeTable k).iSize = (framed (g.posted i)).length := by
  rw [← h.contents i k hlive hfile, length_fileContents]

/-- The file of a box that is neither new nor removed is the one it had. -/
theorem file_before (h : LedgerInv g) (hok : Posts g e) (hs : LedgerStep g e r g')
    (hlive : g'.sys.Live i) (hold : LedgerStep.Old g e i) (hfile : g'.sys.broker.file i = some k) :
    g.sys.Live i ∧ g.sys.broker.file i = some k := by
  rcases BoxFilesInv.live_before hs.toTracedStep hlive with ⟨hbefore, hname⟩ | ⟨henters, hfree⟩
  swap
  · exact absurd hfree (hold henters)
  refine ⟨hbefore, ?_⟩
  have hstored' := (step_leaves hs.step h.stored).stored
  rw [← hs.broker] at hstored'
  obtain ⟨-, hl'⟩ := (Broker.file_eq_some hstored'.toSound).mp hfile
  obtain ⟨k', hk'⟩ := h.files.files i hbefore
  have hnext := h.files.fileAt_next hs.toTracedStep hk' fun j hp hr heq => by
    have hij : i ≠ j := by
      rintro rfl
      exact hlive.2 e.thread (hs.self.trans hr)
    exact h.files.name_ne hbefore.1 (hok.deletes j hp) hij (Option.some_inj.mp heq)
  rw [hname] at hl'
  obtain rfl : k = k' := by exact_mod_cast hl'.symm.trans hnext
  exact (Broker.file_eq_some h.stored.toSound).mpr ⟨hbefore.1, hk'⟩

/-- At most one thread is the publisher of a live box. -/
theorem writer_unique (h : LedgerInv g) (ht : (g.sys.pc t).writes = true)
    (hbox : (g.sys.pc t).box = some i) (hu : (g.sys.pc u).writes = true)
    (hbox' : (g.sys.pc u).box = some i) : t = u := by
  have hslot := h.counts.slots i (h.counts.known t i hbox).2
  have hcases : ∀ v, (g.sys.pc v).writes = true → (g.sys.pc v).box = some i →
      (g.sys.pc v).publishes = some i ∨ (g.sys.pc v).admits = some i := by
    intro v hv hboxv
    cases hp : g.sys.pc v with
    | publisher q =>
      rw [hp] at hv hboxv
      cases q with
      | found | locked | admitted | refused | uncounted | left => cases hv
      | opened => exact .inr hboxv
      | _ => exact .inl hboxv
    | _ =>
      rw [hp] at hv
      cases hv
  have hlt : ∀ v, (g.sys.pc v).box = some i → v < g.sys.maxSessions := fun v hv =>
    h.files.traced.lt_of_box hv
  have hcount : ∀ v, (g.sys.pc v).publishes = some i → (g.sys.pc v).box = some i →
      (g.sys.broker.mbrokerBoxes i).nPublishers ≠ 0 := by
    intro v hv hboxv
    rw [hslot.publishers]
    exact (Dated.registered_pos (hlt v hboxv) hv (h.since v i (.inl hv))).ne'
  rcases hcases t ht hbox with htp | hta <;> rcases hcases u hu hbox' with hup | hua
  · have hone : g.publishers i ≤ 1 := hslot.publishers ▸ hslot.single
    exact Dated.eq_of_registered_le_one hone (hlt t hbox) htp (h.since t i (.inl htp))
      (hlt u hbox') hup (h.since u i (.inl hup))
  · exact absurd (hslot.admitted u hua) (hcount t htp hbox)
  · exact absurd (hslot.admitted t hta) (hcount u hup hbox')
  · exact h.counts.held.alone t u i (Pc.holds_of_admits hta) (Pc.holds_of_admits hua)

/-- What a publisher of a live box writes. -/
theorem writing (h : LedgerInv g) (hok : Posts g e) (hs : LedgerStep g e r g')
    (hp : g.sys.pc e.thread = .publisher (.writing i fd message)) (hlive : g.sys.Live i) :
    r.broker.mbrokerBoxes = g.sys.broker.mbrokerBoxes ∧
      (r.pc = .publisher (.failed i fd) ∧ r.broker.tfs = g.sys.broker.tfs ∨
        ∃ fh k b : ℕ, fd = fh ∧ g.sys.broker.file i = some k ∧ OpenFile g.sys.broker.tfs fh k ∧
          Fs.WriteBlock g.sys.broker.tfs.toFs k b ∧
          r.pc = .publisher (.written i fd message.strlen) ∧
          r.broker.tfs = appended g.sys.broker.tfs fh k b (message.strlen + 1) message.byteAt) := by
  obtain ⟨fh, hfd, -⟩ := h.files.traced.handles.opened e.thread fd (by rw [hp]; rfl)
  subst hfd
  have hbox : (g.sys.pc e.thread).box = some i := by rw [hp]; rfl
  have hhandle : (g.sys.pc e.thread).handle = some (fh : ℤ) := by rw [hp]; rfl
  obtain ⟨k, hfile, hopen⟩ := h.openFile hlive hbox hhandle
  have hend := h.atEnd e.thread i fh k hlive (by rw [hp]; rfl) hbox hhandle hfile
  obtain ⟨ret, hwrite, hr, hboxes⟩ := step_writing (hp ▸ hs.step)
  refine ⟨hboxes, ?_⟩
  rcases writeMessage_fits hopen hend (hok.short i fh message hp) (hok.fits i fh message k hp hfile)
    with ⟨-, -, hfail⟩ | ⟨b, hb, hwritten⟩
  · obtain ⟨rfl, htfs⟩ := Prod.mk.inj (Outcome.ret.inj (hwrite.symm.trans hfail))
    exact .inl ⟨hr, htfs⟩
  · obtain ⟨rfl, htfs⟩ := Prod.mk.inj (Outcome.ret.inj (hwrite.symm.trans hwritten))
    have hret : (message.strlen : ℤ) ≠ -1 := by omega
    exact .inr ⟨fh, k, b, rfl, hfile, hopen, hb, by rw [hr, if_neg hret], htfs⟩

/-- What a step does to the file of a box that is neither new nor removed. -/
theorem file_cases (h : LedgerInv g) (hok : Posts g e) (hs : LedgerStep g e r g')
    (hlive : g.sys.Live i) (hlive' : g'.sys.Live i) (hfile : g.sys.broker.file i = some k) :
    (∃ fd message, g.sys.pc e.thread = .publisher (.writing i fd message)) ∨
      fileContents r.broker.tfs k = fileContents g.sys.broker.tfs k := by
  obtain ⟨-, hl⟩ := (Broker.file_eq_some h.stored.toSound).mp hfile
  obtain ⟨-, -, k', -, -, -, hk', hpos, -⟩ := h.stored.dir.lookup hl (Fs.natCast_ne_neg_one k)
  obtain rfl : k = k' := by exact_mod_cast hk'
  cases h.files.traced.step_file (h.files.fenced hok.toSettled) hs.toTracedStep hpos
    (taken_of_lookup h.stored hl) with
  | keeps _ hcontents => exact .inr hcontents
  | writes j fd message hp hfile' =>
    obtain rfl := h.files.filesOfBoxes.own j i k hfile' hfile
    exact .inl ⟨fd, message, hp⟩
  | removes j hp hr hl' =>
    -- two boxes in use have different names
    have hname := Option.some_inj.mp (h.stored.lookup_injective hl hl')
    have hij : i = j := by
      by_contra hij
      exact h.files.name_ne hlive.1 (hok.deletes j hp) hij hname
    exact absurd (hs.self.trans (hij ▸ hr)) (hlive'.2 e.thread)

theorem next_contents (h : LedgerInv g) (hok : Posts g e) (hs : LedgerStep g e r g')
    (hlive : g'.sys.Live i) (hfile : g'.sys.broker.file i = some k) :
    fileContents g'.sys.broker.tfs k = framed (g'.posted i) := by
  rcases hs.posted_cases i with ⟨message, hposts, hposted⟩ | ⟨henters, hfree, hposted⟩ |
    ⟨hnone, hold, hposted⟩
  · -- one more message
    obtain ⟨⟨fd, hp⟩, j, fd', ret, hr⟩ := Pc.posts_eq_some hposts
    have hold : LedgerStep.Old g e i := by
      intro henters
      rw [hp] at henters
      cases henters
    obtain ⟨hbefore, hfile'⟩ := h.file_before hok hs hlive hold hfile
    rcases (h.writing hok hs hp hbefore).2 with ⟨hfail, -⟩ | ⟨fh, k', b, -, hk', -, hb, -, htfs⟩
    · cases hr.symm.trans hfail
    · obtain rfl := Option.some_inj.mp (hfile'.symm.trans hk')
      rw [hs.broker, htfs, fileContents_appended hb, h.contents i k hbefore hfile', hposted,
        framed_append, framed_singleton, terminated_eq_map]
  · -- a new box
    obtain ⟨n, hp, htfs, hbox⟩ := BoxFilesInv.entered hs.toTracedStep henters hfree
    have hstored' := (step_leaves hs.step h.stored).stored
    rw [← hs.broker] at hstored'
    obtain ⟨-, hl⟩ := (Broker.file_eq_some hstored'.toSound).mp hfile
    rw [hs.broker, hbox, htfs] at hl
    rw [hs.broker, htfs, hposted, framed_nil]
    refine h.files.orphans (some (slashed n)) k hl fun j hlive heq => ?_
    have hclaim : Claims (g.sys.pc e.thread) n := ⟨_, by simp, hp⟩
    exact h.files.name_ne_of_claim hclaim hlive.1 (Option.some_inj.mp heq)
  · obtain ⟨hbefore, hfile'⟩ := h.file_before hok hs hlive hold hfile
    have hcontents : fileContents r.broker.tfs k = fileContents g.sys.broker.tfs k := by
      rcases h.file_cases hok hs hbefore hlive hfile' with ⟨fd, message, hp⟩ | hsame
      · rcases (h.writing hok hs hp hbefore).2 with ⟨-, htfs⟩ | ⟨_, _, _, -, -, -, -, hr, -⟩
        · rw [htfs]
        · exact absurd (by rw [hp, hr]; rfl) (hnone message)
      · exact hsame
    rw [hs.broker, hcontents, h.contents i k hbefore hfile', hposted]

/-- A thread that has the mutex of a live box takes a step: no other thread is between writing to
the box and adding to its size. -/
theorem not_written_of_holds (h : LedgerInv g) (hheld : (g.sys.pc e.thread).holds = some i)
    (hp : ∀ fd ret, g.sys.pc e.thread ≠ .publisher (.written i fd ret)) (t : ℕ) (fd ret : ℤ) :
    g.sys.pc t ≠ .publisher (.written i fd ret) := by
  intro ht
  have hholds : (g.sys.pc t).holds = some i := by rw [ht]; rfl
  rw [h.counts.held.alone t e.thread i hholds hheld] at ht
  exact hp fd ret ht

theorem next_size (h : LedgerInv g) (hs : LedgerStep g e r g')
    (hlive : g'.sys.Live i) (hnone : ∀ t fd ret, g'.sys.pc t ≠ .publisher (.written i fd ret)) :
    (g'.sys.broker.mbrokerBoxes i).size = (framed (g'.posted i)).length := by
  rcases hs.posted_cases i with ⟨message, hposts, -⟩ | ⟨henters, hfree, hposted⟩ |
    ⟨-, hold, hposted⟩
  · -- the publisher has not added to the size yet
    obtain ⟨⟨fd, hp⟩, j, fd', ret, hr⟩ := Pc.posts_eq_some hposts
    obtain ⟨ret', -, hr', -⟩ := step_writing (hp ▸ hs.step)
    split at hr'
    · cases hr.symm.trans hr'
    · exact absurd (hs.self.trans hr') (hnone _ _ _)
  · obtain ⟨n, -, -, hbox⟩ := BoxFilesInv.entered hs.toTracedStep henters hfree
    rw [hs.broker, hbox, hposted, framed_nil]
    rfl
  rw [hposted, hs.broker]
  have hbefore := live_before hs hlive hold
  by_cases hp : ∃ fd ret, g.sys.pc e.thread = .publisher (.written i fd ret)
  · obtain ⟨fd, ret, hp⟩ := hp
    rw [step_written (hp ▸ hs.step)]
    exact h.added e.thread i fd ret hbefore hp
  · rw [step_size hs.step (fun fd ret heq => hp ⟨fd, ret, heq⟩) hold]
    refine h.size i hbefore fun t fd ret ht => ?_
    by_cases hte : t = e.thread
    · exact hp ⟨fd, ret, hte ▸ ht⟩
    · refine hnone t fd ret ?_
      rw [hs.wakes t hte, wakes_eq_publisher]
      exact ht

theorem next_added (h : LedgerInv g) (hok : Posts g e) (hs : LedgerStep g e r g') {ret : ℤ}
    (hlive : g'.sys.Live i) (ht : g'.sys.pc t = .publisher (.written i fd ret)) :
    ((g'.sys.broker.mbrokerBoxes i).size + ret.toNat + 1) % sizeRange =
      (framed (g'.posted i)).length := by
  by_cases hte : t = e.thread
  · -- the publisher has just written
    rw [hte, hs.self] at ht
    obtain ⟨message, hp⟩ := step_wrote hs.step ht
    have hbox : (g.sys.pc e.thread).box = some i := by rw [hp]; rfl
    have hbefore := live_before hs hlive (h.old_of_box hok hbox)
    obtain ⟨hboxes, ⟨hfail, -⟩ | ⟨fh, k, b, -, hfile, hopen, -, hr, -⟩⟩ := h.writing hok hs hp hbefore
    · cases ht.symm.trans hfail
    obtain ⟨-, -, hret⟩ := PublisherPc.written.inj (Pc.publisher.inj (ht.symm.trans hr))
    have hholds : (g.sys.pc e.thread).holds = some i := by rw [hp]; rfl
    have hsize := h.size i hbefore (h.not_written_of_holds hholds (by simp [hp]))
    have hposted : g'.posted i = g.posted i ++ [message] := by
      simp [hs.posted, Ledger.posts, hp, hr, Pc.posts]
    have hfits := hok.fits i fd message k hp hfile
    have hrange := blockSize_lt g.sys.broker.tfs
    rw [h.size_eq hbefore hfile] at hfits
    rw [hs.broker, hboxes, hsize, hret, hposted, framed_append, framed_singleton,
      List.length_append, length_terminated, Int.toNat_natCast]
    exact Nat.mod_eq_of_lt (by omega)
  · -- the mutex keeps the others away from the box
    rw [hs.wakes t hte, wakes_eq_publisher] at ht
    have hholds : (g.sys.pc t).holds = some i := by rw [ht]; rfl
    have hbox : (g.sys.pc t).box = some i := by rw [ht]; rfl
    have hold := h.old_of_box hok hbox
    have hposted : g'.posted i = g.posted i := by
      rcases hs.posted_cases i with ⟨message, hposts, -⟩ | ⟨henters, hfree, -⟩ | ⟨-, -, hposted⟩
      · obtain ⟨⟨fd', hp⟩, -⟩ := Pc.posts_eq_some hposts
        have hholds' : (g.sys.pc e.thread).holds = some i := by rw [hp]; rfl
        exact absurd (h.counts.held.alone t e.thread i hholds hholds') hte
      · exact absurd hfree (hold henters)
      · exact hposted
    have hsize : (r.broker.mbrokerBoxes i).size = (g.sys.broker.mbrokerBoxes i).size := by
      refine step_size hs.step (fun fd' ret' hp => ?_) hold
      have hholds' : (g.sys.pc e.thread).holds = some i := by rw [hp]; rfl
      exact hte (h.counts.held.alone t e.thread i hholds hholds')
    rw [hs.broker, hsize, hposted]
    exact h.added t i fd ret (live_before hs hlive hold) ht

/-- Where `tfs_open` of the file of a box places its handle. -/
theorem offset_of_tfsOpen (h : LedgerInv g) {mode : ℕ} {tfs : State}
    (hfile : g.sys.broker.file i = some k) (htrunc : hasFlag mode tfsOTrunc = false)
    (hopen : tfsOpen g.sys.broker.tfs (some (g.sys.broker.mbrokerBoxes i).name) mode =
      .ret ((fh : ℤ), tfs)) : tfs.inodeTable = g.sys.broker.tfs.inodeTable ∧
      (tfs.openFileTable fh).ofOffset =
        if hasFlag mode tfsOAppend then (g.sys.broker.tfs.inodeTable k).iSize else 0 := by
  have hsound := h.stored.toSound
  obtain ⟨-, hl⟩ := (Broker.file_eq_some hsound).mp hfile
  have hlookup : tfsLookup g.sys.broker.tfs (some (g.sys.broker.mbrokerBoxes i).name) rootDirInum =
      .ret (k : ℤ) := by
    rw [tfsLookup_eq_ret hsound.dir.toRootOk, hl]
  rw [hsound.tfsOpen_eq hlookup htrunc] at hopen
  have heq := Outcome.ret.inj hopen
  rcases addToOpenFileTable_cases g.sys.broker.tfs k
    (if hasFlag mode tfsOAppend then (g.sys.broker.tfs.inodeTable k).iSize else 0) with
    hfull | ⟨fh', -, hnew⟩
  · obtain ⟨hret, -⟩ := Prod.mk.inj (hfull.symm.trans heq)
    omega
  · obtain ⟨hret, rfl⟩ := Prod.mk.inj (hnew.symm.trans heq)
    obtain rfl : fh' = fh := by exact_mod_cast hret
    exact ⟨rfl, by simp [registered, State.setEntry, State.setFreeEntry]⟩

/-- A step of another thread leaves a handle where it is. -/
theorem offset_others (h : LedgerInv g) (hs : LedgerStep g e r g') (hte : t ≠ e.thread)
    (hfh : (g.sys.pc t).handle = some (fh : ℤ)) :
    (r.broker.tfs.openFileTable fh).ofOffset = (g.sys.broker.tfs.openFileTable fh).ofOffset := by
  have hopens := Pc.opens_of_handle hfh
  obtain ⟨fh', hfh', -, htaken⟩ := h.files.traced.handles.opened t fh hopens
  obtain rfl : fh = fh' := by exact_mod_cast hfh'
  have hne : (g.sys.pc e.thread).opens ≠ some (fh : ℤ) := fun hopens' =>
    hte (h.files.traced.handles.alone t e.thread fh hopens hopens')
  obtain ⟨-, hentry⟩ := (step_leaves hs.step h.stored).handle hne htaken
  exact congrArg Fs.OpenFileEntry.ofOffset hentry

/-- The publisher of a box is at the end of its file. -/
theorem next_atEnd (h : LedgerInv g) (hok : Posts g e) (hs : LedgerStep g e r g')
    (hlive : g'.sys.Live i) (hwrites : (g'.sys.pc t).writes = true)
    (hbox : (g'.sys.pc t).box = some i) (hfh : (g'.sys.pc t).handle = some (fh : ℤ))
    (hfile : g'.sys.broker.file i = some k) :
    (g'.sys.broker.tfs.openFileTable fh).ofOffset = (g'.sys.broker.tfs.inodeTable k).iSize := by
  rw [hs.broker]
  by_cases hte : t = e.thread
  · rw [hte, hs.self] at hwrites hbox hfh
    have hold := h.old_of_box_self hok hs hbox
    obtain ⟨hbefore, hfile'⟩ := h.file_before hok hs hlive hold hfile
    cases step_writes hs.step hwrites hbox hfh with
    | opens hp hfd hcall =>
      obtain ⟨hinodes, hoffset⟩ := h.offset_of_tfsOpen hfile' (by decide) hcall
      rw [hoffset, hinodes, if_pos (by decide)]
    | writes message hp =>
      rcases (h.writing hok hs hp hbefore).2 with ⟨-, htfs⟩ | ⟨fh', k', b, hfd, hk', -, -, -, htfs⟩
      · rw [htfs]
        refine h.atEnd e.thread i fh k hbefore ?_ ?_ ?_ hfile' <;> rw [hp] <;> rfl
      · obtain rfl : fh = fh' := by exact_mod_cast hfd
        obtain rfl := Option.some_inj.mp (hfile'.symm.trans hk')
        rw [htfs]
        exact atEnd_appended
    | keeps hp hbox' hhandle htfs =>
      rw [htfs]
      exact h.atEnd e.thread i fh k hbefore hp hbox' hhandle hfile'
  · rw [(hs.same hte).writes] at hwrites
    rw [(hs.others t hte).box] at hbox
    rw [(hs.same hte).handle] at hfh
    obtain ⟨hbefore, hfile'⟩ := h.file_before hok hs hlive (h.old_of_box hok hbox) hfile
    rw [h.offset_others hs hte hfh, h.atEnd t i fh k hbefore hwrites hbox hfh hfile']
    rcases h.file_cases hok hs hbefore hlive hfile' with ⟨fd, message, hp⟩ | hsame
    · -- there is no other publisher
      have hwrites' : (g.sys.pc e.thread).writes = true := by rw [hp]; rfl
      have hbox' : (g.sys.pc e.thread).box = some i := by rw [hp]; rfl
      exact absurd (h.writer_unique hwrites hbox hwrites' hbox') hte
    · have hlength := congrArg List.length hsame
      rwa [length_fileContents, length_fileContents, eq_comm] at hlength

/-! ### Subscribers -/

/-- A live box whose mutex a thread has stays live with the step of the thread. -/
theorem live_next_of_holds (h : LedgerInv g) (hs : LedgerStep g e r g')
    (hheld : (g.sys.pc t).holds = some i)
    (hused : (g.sys.broker.mbrokerBoxes i).allocState = .USED)
    (hne : ∀ i, g.sys.pc t ≠ .delete (.unlinked i)) (hr : t = e.thread → r.pc ≠ .delete (.unlinked i)) :
    g'.sys.Live i := by
  refine (BoxFilesInv.live_next hs.toTracedStep (h.live_of_holds hheld hused hne) fun hunlinked => ?_).1
  obtain ⟨hp, -⟩ := step_unlinks hs.step hunlinked
  have hholds : (g.sys.pc e.thread).holds = some i := by rw [hp]; rfl
  exact hr (h.counts.held.alone t e.thread i hheld hholds) hunlinked

theorem next_sending (h : LedgerInv g) (hs : LedgerStep g e r g') {buffer : List UInt8}
    (ht : g'.sys.pc t = .subscriber (.sending i fd n buffer)) :
    (g'.sys.broker.mbrokerBoxes i).allocState = .USED := by
  by_cases hte : t = e.thread
  · rw [hte, hs.self] at ht
    have hmessage : r.pc.message = some buffer := by rw [ht]; rfl
    cases step_message hs.step hmessage with
    | reads _ _ _ _ _ hr => cases hr.symm.trans ht
    | sends j n' n'' fd' ret hp hr hused =>
      obtain ⟨rfl, -⟩ := SubscriberPc.sending.inj (Pc.subscriber.inj (hr.symm.trans ht))
      have hholds : (g.sys.pc e.thread).holds = some j := by rw [hp]; rfl
      exact (h.live_next_of_holds hs hholds hused (by simp [hp]) fun _ => by simp [hr]).1
  · have hpc : g.sys.pc t = .subscriber (.sending i fd n buffer) := by
      rw [hs.wakes t hte] at ht
      rcases r.output.wakes_cases g.sys.pc t with heq | ⟨i', fd', n', -, heq⟩
      · exact heq.symm.trans ht
      · cases heq.symm.trans ht
    have hholds : (g.sys.pc t).holds = some i := by rw [hpc]; rfl
    exact (h.live_next_of_holds hs hholds (h.sending t i fd n buffer hpc) (by simp [hpc])
      fun heq => absurd heq hte).1

/-- What the session of a subscriber has sent before, or sends with its step. -/
theorem sent_cases (hs : LedgerStep g e r g') (hr : r.pc.follows = some i) :
    g.sys.pc e.thread = .idle ∧ g'.sent e.thread = [] ∨
    (g.sys.pc e.thread).follows = some i ∧ (g'.sent e.thread = g.sent e.thread ∨
      ∃ fd n buffer, g.sys.pc e.thread = .subscriber (.sending i fd n buffer) ∧
        g'.sent e.thread = g.sent e.thread ++ [buffer]) := by
  rw [hs.sent_self]
  rcases step_follows hs.step hr with hold | hidle
  · have hne : g.sys.pc e.thread ≠ .idle := by
      intro hidle
      rw [hidle] at hold
      cases hold
    rw [if_neg hne]
    exact .inr ⟨hold, step_sends hs.step hold _⟩
  · exact .inl ⟨hidle, if_pos hidle⟩

theorem next_fresh (h : LedgerInv g) (hs : LedgerStep g e r g')
    (ht : g'.sys.pc t = .subscriber (.found i) ∨ g'.sys.pc t = .subscriber (.locked i)) :
    g'.sent t = [] := by
  by_cases hte : t = e.thread
  · rw [hte, hs.self] at ht
    rw [hte]
    have hfollows : r.pc.follows = some i := by rcases ht with ht | ht <;> rw [ht] <;> rfl
    rcases sent_cases hs hfollows with ⟨-, hnil⟩ | ⟨hold, hsame | ⟨fd, n, buffer, hp, -⟩⟩
    · exact hnil
    · rw [hsame]
      rcases step_found hs.step ht with hidle | hp
      · rw [hidle] at hold
        cases hold
      · exact h.fresh e.thread i (.inl hp)
    · -- it has nothing to send yet
      rcases step_found hs.step ht with hidle | hp' <;> rw [hp] at *
      · cases hidle
      · cases hp'
  · rw [hs.sent_others t hte]
    refine h.fresh t i ?_
    rw [hs.wakes t hte] at ht
    rcases r.output.wakes_cases g.sys.pc t with heq | ⟨i', fd', n', -, heq⟩
    · rwa [heq] at ht
    · rcases ht with ht | ht <;> cases heq.symm.trans ht

/-- The messages of a box that is not new stay the first ones. -/
theorem posted_grows (hs : LedgerStep g e r g') (hold : LedgerStep.Old g e i) :
    g.posted i <+: g'.posted i := by
  rcases hs.posted_cases i with ⟨message, -, hposted⟩ | ⟨henters, hfree, -⟩ | ⟨-, -, hposted⟩
  · rw [hposted]
    exact List.prefix_append _ _
  · exact absurd hfree (hold henters)
  · rw [hposted]

theorem next_ordered (h : LedgerInv g) (hok : Posts g e) (hs : LedgerStep g e r g')
    (ht : (g'.sys.pc t).follows = some i) :
    g'.sent t <+: (g'.posted i).map CString.terminated := by
  by_cases hte : t = e.thread
  · rw [hte, hs.self] at ht
    rw [hte]
    rcases sent_cases hs ht with ⟨-, hnil⟩ | ⟨hfollows, hsent⟩
    · rw [hnil]
      exact List.nil_prefix
    have hmap := (posted_grows hs (h.old_of_box_self hok hs (Pc.box_of_follows ht))).map
      CString.terminated
    refine List.IsPrefix.trans ?_ hmap
    rcases hsent with hsame | ⟨fd, n, buffer, hp, hsent⟩
    · rw [hsame]
      exact h.ordered e.thread i hfollows
    · -- the message that it has just read
      have hhandle : (g.sys.pc e.thread).handle = some fd := by rw [hp]; rfl
      have hholds : (g.sys.pc e.thread).holds = some i := by rw [hp]; rfl
      obtain ⟨fh, rfl, -⟩ := h.files.traced.handles.opened e.thread fd (Pc.opens_of_handle hhandle)
      have hlive := h.live_of_holds hholds (h.sending _ _ _ _ _ hp) (by simp [hp])
      obtain ⟨n', hreads⟩ := h.reads e.thread i fh hlive (by rw [hp]; rfl)
      have hmessage : (g.sys.pc e.thread).message = some buffer := by rw [hp]; rfl
      have heq := hreads.sent
      rw [hmessage] at heq
      rw [hsent]
      refine heq ▸ ?_
      exact (List.take_prefix n' _).map _
  · have hfollows : (g.sys.pc t).follows = some i := by rwa [hs.wakes t hte, follows_wakes] at ht
    rw [hs.sent_others t hte]
    exact (h.ordered t i hfollows).trans
      ((posted_grows hs (h.old_of_box hok (Pc.box_of_follows hfollows))).map _)

/-- A subscriber that reads gets the next message of its box. -/
theorem reads_next (h : LedgerInv g) (hlive : g.sys.Live i) {buffer : List UInt8} {ret : ℤ}
    {tfs : State} (hp : g.sys.pc t = .subscriber (.reading i fh u)) (hret : ret ≠ -1)
    (hread : readMessage g.sys.broker.tfs fh = .ret (ret, buffer, tfs)) :
    ∃ n, ReadsAt tfs (g.posted i) (g.sent t) (.subscriber (.read i fh u ret buffer)) fh n := by
  have hreceives : (g.sys.pc t).receives = some (i, (fh : ℤ)) := by rw [hp]; rfl
  obtain ⟨hfollows, hbox, hhandle⟩ := Pc.follows_of_receives hreceives
  obtain ⟨n, hreads⟩ := h.reads t i fh hlive hreceives
  obtain ⟨k, hfile, hopen⟩ := h.openFile hlive hbox hhandle
  have hsize := h.size_eq hlive hfile
  have hoffset := hreads.offset
  have hsent := hreads.sent
  have htotal := hreads.totalRead
  rw [hp] at hsent htotal
  obtain rfl : u = _ := Option.some_inj.mp htotal
  rcases hreads.le.eq_or_lt with hall | hlt
  · -- there is nothing to read
    have hend : (g.sys.broker.tfs.openFileTable fh).ofOffset =
        (g.sys.broker.tfs.inodeTable k).iSize := by
      rw [hoffset, hsize, hall, List.take_length]
    exact absurd (readLoop_end hopen hend hread).1 hret
  obtain ⟨message, hn⟩ : ∃ message, (g.posted i)[n]? = some message :=
    ⟨_, List.getElem?_eq_getElem hlt⟩
  have hshort := h.short i message (List.mem_of_getElem? hn)
  rw [readMessage_eq hopen (h.contents i k hlive hfile) hn hshort hoffset] at hread
  obtain ⟨rfl, hrest⟩ := Prod.mk.inj (Outcome.ret.inj hread)
  obtain ⟨rfl, rfl⟩ := Prod.mk.inj hrest
  have hsucc := length_framed_take_succ hn
  refine ⟨n + 1, hlt, ?_, ?_, ?_⟩
  · simp [State.setEntry]
  · rw [List.take_add_one, hn, List.map_append]
    simp only [Pc.message, Option.toList_none, List.append_nil] at hsent
    rw [hsent]
    rfl
  · -- `total_read` does not wrap
    have hle : (framed ((g.posted i).take (n + 1))).length ≤ (framed (g.posted i)).length := by
      have hsplit := congrArg List.length (framed_split hn)
      simp only [List.length_append, length_terminated] at hsplit
      omega
    have hblock := blockSize_lt g.sys.broker.tfs
    have hfits := hopen.size_le
    simp only [Pc.totalRead, State.setEntry, Function.update_self, Option.some_inj]
    rw [hsize] at hfits
    have hnat : ((message.strlen : ℤ) + 1).toNat = message.strlen + 1 := by omega
    rw [hnat, hoffset, ← Nat.add_assoc, ← hsucc]
    exact Nat.mod_eq_of_lt (by omega)

theorem next_reads (h : LedgerInv g) (hok : Posts g e) (hs : LedgerStep g e r g')
    (hlive : g'.sys.Live i) (ht : (g'.sys.pc t).receives = some (i, (fh : ℤ))) :
    ∃ n, ReadsAt g'.sys.broker.tfs (g'.posted i) (g'.sent t) (g'.sys.pc t) fh n := by
  rw [hs.broker]
  by_cases hte : t = e.thread
  · rw [hte, hs.self] at ht
    rw [hte, hs.self]
    obtain ⟨-, hbox, -⟩ := Pc.follows_of_receives ht
    have hold := h.old_of_box_self hok hs hbox
    have hbefore := live_before hs hlive hold
    have hposted := posted_grows hs hold
    -- the thread was in its session before
    have hsent : ∀ before, g.sys.pc e.thread ≠ .idle → r.output.sent (g.sent e.thread) = before →
        g'.sent e.thread = before := by
      intro before hne hsent
      rw [hs.sent_self, if_neg hne, hsent]
    cases step_reads hs.step ht with
    | opens hp hr hfd hcall houtput =>
      obtain ⟨k, hfile⟩ := h.files.filesOfBoxes.has i hbefore
      obtain ⟨-, hoffset⟩ := h.offset_of_tfsOpen hfile (by decide) hcall
      rw [hsent [] (by simp [hp]) (by rw [houtput, h.fresh e.thread i (.inr hp)]), hr]
      refine ⟨0, Nat.zero_le _, hoffset, rfl, ?_⟩
      rw [hoffset]
      rfl
    | reads n ret buffer hp hr hret hcall houtput =>
      obtain ⟨n', hreads⟩ := h.reads_next hbefore hp hret hcall
      rw [hsent _ (by simp [hp]) (houtput _), hr]
      exact ⟨n', hreads.next hposted rfl rfl rfl⟩
    | sends n buffer hp hr htfs houtput =>
      obtain ⟨n', hreads⟩ := h.reads e.thread i fh hbefore (by rw [hp]; rfl)
      have hread := hreads.sent
      have htotal := hreads.totalRead
      rw [hp] at hread htotal
      have hreads' : ReadsAt g.sys.broker.tfs (g.posted i) (g.sent e.thread ++ [buffer])
          (.subscriber (.sent i fh n)) fh n' := by
        refine ⟨hreads.le, hreads.offset, ?_, htotal⟩
        rw [← hread]
        exact List.append_nil _
      rw [hsent _ (by simp [hp]) (by rw [houtput, Output.sent]), hr, htfs]
      exact ⟨n', hreads'.next hposted rfl rfl rfl⟩
    | keeps hp htfs hmessage htotal houtput =>
      obtain ⟨n', hreads⟩ := h.reads e.thread i fh hbefore hp
      have hne : g.sys.pc e.thread ≠ .idle := by
        intro hidle
        rw [hidle] at hp
        cases hp
      rw [hsent _ hne (houtput _), htfs]
      exact ⟨n', hreads.next hposted rfl hmessage htotal⟩
  · have hsame := sameReader_wakes r.output g.sys.pc t
    rw [← hs.wakes t hte] at hsame
    rw [hsame.receives] at ht
    obtain ⟨-, hbox, hhandle⟩ := Pc.follows_of_receives ht
    have hold := h.old_of_box hok hbox
    obtain ⟨n, hreads⟩ := h.reads t i fh (live_before hs hlive hold) ht
    rw [hs.sent_others t hte]
    exact ⟨n, hreads.next (posted_grows hs hold) (h.offset_others hs hte hhandle) hsame.message
      hsame.totalRead⟩

/-- A subscriber sleeps on a message only while its publisher has yet to announce it. -/
theorem next_awaited (h : LedgerInv g) (hok : Posts g e) (hs : LedgerStep g e r g')
    (ht : g'.sys.pc t = .subscriber (.asleep i fd n)) (hlive : g'.sys.Live i)
    (hnone : ∀ u, ¬ (g'.sys.pc u).AnnouncesTo i) : (framed (g'.posted i)).length ≤ n := by
  by_cases hte : t = e.thread
  · rw [hte, hs.self] at ht
    obtain ⟨hp, hsize⟩ := step_asleep hs.step ht
    have hbox : (g.sys.pc e.thread).box = some i := by rw [hp]; rfl
    have hholds : (g.sys.pc e.thread).holds = some i := by rw [hp]; rfl
    have hold := h.old_of_box hok hbox
    rw [h.size i (live_before hs hlive hold) (h.not_written_of_holds hholds (by simp [hp]))] at hsize
    rcases hs.posted_cases i with ⟨message, hposts, -⟩ | ⟨henters, hfree, -⟩ | ⟨-, -, hposted⟩
    · rw [hp] at hposts
      cases hposts
    · exact absurd hfree (hold henters)
    · rwa [hposted]
  · have hawake : r.output.wakes g.sys.pc t = .subscriber (.asleep i fd n) :=
      (hs.wakes t hte).symm.trans ht
    have hpc : g.sys.pc t = .subscriber (.asleep i fd n) := by
      rcases r.output.wakes_cases g.sys.pc t with heq | ⟨i', fd', n', -, heq⟩
      · exact heq.symm.trans hawake
      · cases heq.symm.trans hawake
    have hold : LedgerStep.Old g e i := h.old_of_box hok (t := t) (by rw [hpc]; rfl)
    -- a broadcast would have woken it
    have hbefore : ∀ u, ¬ (g.sys.pc u).AnnouncesTo i := by
      intro u hu
      by_cases hue : u = e.thread
      · rw [hue] at hu
        rcases step_announces hs.step hu with hr | hbroadcast
        · exact hnone e.thread (hs.self.symm ▸ hr)
        · rw [hbroadcast] at hawake
          simp [Output.wakes, wake, hpc] at hawake
      · exact hnone u (by rwa [hs.wakes u hue, announcesTo_wakes])
    have hle := h.awaited t i fd n hpc (live_before hs hlive hold) hbefore
    rcases hs.posted_cases i with ⟨message, hposts, -⟩ | ⟨henters, hfree, -⟩ | ⟨-, -, hposted⟩
    · -- the publisher that has just written has yet to announce it
      obtain ⟨⟨fd', hp⟩, j, fd'', ret, hr⟩ := Pc.posts_eq_some hposts
      obtain ⟨ret', -, hr', -⟩ := step_writing (hp ▸ hs.step)
      split at hr'
      · cases hr.symm.trans hr'
      · refine absurd ?_ (hnone e.thread)
        rw [hs.self, hr']
        exact ⟨rfl, rfl⟩
    · exact absurd hfree (hold henters)
    · rwa [hposted]

/-! ### All of it -/

theorem next_short (h : LedgerInv g) (hok : Posts g e) (hs : LedgerStep g e r g')
    (hmem : message ∈ g'.posted i) : message.strlen < messageLength := by
  rcases hs.posted_cases i with ⟨message', hposts, hposted⟩ | ⟨-, -, hposted⟩ | ⟨-, -, hposted⟩
  · rw [hposted, List.mem_append, List.mem_singleton] at hmem
    rcases hmem with hmem | rfl
    · exact h.short i message hmem
    · obtain ⟨⟨fd, hp⟩, -⟩ := Pc.posts_eq_some hposts
      exact hok.short i fd message hp
  · rw [hposted] at hmem
    cases hmem
  · rw [hposted] at hmem
    exact h.short i message hmem

/-- A session is registered on the box that its slot has. -/
theorem next_since (h : LedgerInv g) (hok : Posts g e) (hs : LedgerStep g e r g')
    (ht : (g'.sys.pc t).publishes = some i ∨ (g'.sys.pc t).subscribes = some i) :
    g'.since t = g'.made i := by
  have hbox : (g'.sys.pc t).box = some i := ht.elim Pc.box_of_publishes Pc.box_of_subscribes
  by_cases hte : t = e.thread
  · rw [hte, hs.self] at ht hbox
    rw [hte, TracedInv.made_same hs.toTracedStep (h.old_of_box_self hok hs hbox)]
    have hcases : ((g.sys.pc e.thread).publishes = some i ∨
        (g.sys.pc e.thread).subscribes = some i) ∧ (g.sys.pc e.thread).registers = none ∨
        (g.sys.pc e.thread).registers = some i := by
      rcases ht with ht | ht
      · exact ((step_counts hs.step).published ht).imp_left fun hp => ⟨.inl hp.1, hp.2⟩
      · exact ((step_counts hs.step).subscribed ht).imp_left fun hp => ⟨.inr hp.1, hp.2⟩
    rcases hcases with ⟨hbefore, hregisters⟩ | hregisters
    · rw [hs.since_eq hregisters]
      exact h.since e.thread i hbefore
    · exact hs.since_registers hregisters
  · rw [(hs.others t hte).box] at hbox
    rw [(hs.others t hte).publishes, (hs.others t hte).subscribes] at ht
    rw [hs.since_others t hte, TracedInv.made_same hs.toTracedStep (h.old_of_box hok hbox)]
    exact h.since t i ht

/-- The sessions leave the boxes that they are registered on. -/
theorem orderly (h : LedgerInv g) (hok : Posts g e) : Orderly g.toDated e where
  assigns henters i hfree t ht := (hok.assigns henters i hfree t ht).1
  leaves i hi := h.since e.thread i (Pc.registered_of_leaves hi)

/-- Every step in which the boxes keep their files delivers the messages. -/
theorem next (h : LedgerInv g) (hok : Posts g e) (hs : LedgerStep g e r g') : LedgerInv g' where
  files := h.files.next hok.toSettled hs.toTracedStep
  counts := h.counts.next (h.orderly hok) hs.toDatedStep
  since _ _ := h.next_since hok hs
  short _ _ := h.next_short hok hs
  contents _ _ := h.next_contents hok hs
  size _ := h.next_size hs
  added _ _ _ _ := h.next_added hok hs
  atEnd _ _ _ _ := h.next_atEnd hok hs
  sending _ _ _ _ _ := h.next_sending hs
  fresh _ _ := h.next_fresh hs
  ordered _ _ := h.next_ordered hok hs
  reads _ _ _ := h.next_reads hok hs
  awaited _ _ _ _ := h.next_awaited hok hs

end LedgerInv

/-! ### Whole runs -/

/-- The broker was just started, with two worker threads. -/
def Ledger.fresh : Ledger := ⟨.fresh, fun _ => [], fun _ => []⟩

end TfsBroker.Mbroker
