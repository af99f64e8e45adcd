import TfsBroker.Mbroker.Counters
import TfsBroker.Mbroker.Framing

/-!
# Whether subscribers are served

The sessions of one box that is not deleted, step by step. A publisher unlocks the box before
it broadcasts, and a subscriber that was woken reads without looking at the size of the box
again. As long as no subscriber falls asleep between the two steps of a publisher, every
subscriber that reads finds a message.

Beside the threads stands the channel of the box (`Channel`), with the messages that were
written to it and the subscribers by their handles.

## Main results

* `Linked.next` — what every step keeps
* `subscribers_served` — every state
-/

namespace TfsBroker.Mbroker

open Fs2 Runs Counting

variable {m m' : Broker} {x y : Sys} {e : Turn} {p : Pc} {r : Step} {c c' : Channel}
  {fd : ℤ} {i k t u n fh : ℕ}

/-! ### The system -/

/-- The thread is in the loop of `handle_subscriber`. -/
def Pc.serves : Pc → Bool
  | .subscriber (.looping _ _ _) | .subscriber (.looking _ _ _) | .subscriber (.asleep _ _ _)
  | .subscriber (.woken _ _ _) | .subscriber (.reading _ _ _) | .subscriber (.read _ _ _ _ _)
  | .subscriber (.sending _ _ _ _) | .subscriber (.sent _ _ _) => true
  | _ => false

/-- The box in slot `i` was just created, its file is empty, and no thread has accepted a
request. -/
def JustCreated (i : ℕ) (x : Sys) : Prop :=
  Start ⟨x.broker.tfs, x.broker.mbrokerBoxes i, none, fun _ => none, []⟩ ∧ x.pc = fun _ => .idle

/-- The step is one of a session of the box in slot `i`, and a message that it writes fits in
the file of the box, with its terminator. -/
structure OfSession (i : ℕ) (x : Sys) (e : Turn) : Prop where
  accepts : ∀ opCode boxName, e.act = .accept opCode boxName →
    (opCode = registerPublisherOp ∨ opCode = registerSubscriberOp) ∧
      getBox x.broker.mbrokerBoxes boxName = some i
  fits : ∀ fd message k, x.pc e.thread = .publisher (.writing i fd message) →
    tfsLookup x.broker.tfs (some (x.broker.mbrokerBoxes i).name) rootDirInum = .ret (k : ℕ) →
    message.strlen < messageLength ∧
      (x.broker.tfs.inodeTable k).iSize + message.strlen < x.broker.tfs.blockSize

/-- No subscriber falls asleep while a publisher has unlocked the box and not yet broadcast. -/
def NoLateWait (i : ℕ) (x : Sys) (e : Turn) : Prop :=
  ∀ fd totalRead, x.pc e.thread = .subscriber (.looking i fd totalRead) →
    (x.broker.mbrokerBoxes i).size ≤ totalRead →
    ∀ t < x.maxSessions, ∀ fd', x.pc t ≠ .publisher (.unlocked i fd')

/-- A subscriber that is about to read finds a whole message, and no subscriber leaves its loop
unless its client has closed the pipe. -/
structure StaysServed (i : ℕ) (x : Sys) : Prop where
  reads : ∀ t fd totalRead, x.pc t = .subscriber (.reading i fd totalRead) →
    ∃ (message : CString) (s' : State), readMessage x.broker.tfs fd =
      .ret (message.strlen + 1, message.terminated, s')
  stays : ∀ e y, x.next e = some y → (x.pc e.thread).serves = true → e.act ≠ .send false →
    (y.pc e.thread).serves = true

/-! ### The threads and the channel -/

/-- A subscriber of the channel has the handle, and has read so many bytes. -/
def HasReader (c : Channel) (fd : ℤ) (totalRead : ℕ) : Prop :=
  ∃ fh : ℕ, fd = fh ∧ ∃ r, c.readers fh = some r ∧ r.totalRead = totalRead

/-- The publisher of the channel has the handle. -/
def HasPublisher (c : Channel) (fd : ℤ) : Prop := ∃ fh : ℕ, fd = fh ∧ c.publisher = some fh

/-- Where a publisher of the box in slot `i` stands, and what its handle is to the channel.
Once it is no longer counted its handle is one that has read everything. -/
def PublisherPc.At (c : Channel) (i : ℕ) : PublisherPc → Prop
  | found j | locked j | admitted j | refused j => j = i
  | opened j fd | counted j fd | waiting j fd | received j fd _ | checked j fd _
  | writing j fd _ | failed j fd | written j fd _ | sized j fd | unlocked j fd | leaving j fd
  | lockedToLeave j fd => j = i ∧ HasPublisher c fd
  | uncounted j fd => j = i ∧ ∃ n, HasReader c fd n
  | left fd => ∃ n, HasReader c fd n

/-- Where a subscriber of the box in slot `i` stands, and what its handle is to the channel. A
subscriber that reads next has something to read. -/
def SubscriberPc.At (c : Channel) (i : ℕ) : SubscriberPc → Prop
  | found j | locked j | refused j | left j => j = i
  | opened j fd | counted j fd => j = i ∧ HasReader c fd 0
  | looping j fd n | looking j fd n | asleep j fd n | sending j fd n _ | sent j fd n =>
    j = i ∧ HasReader c fd n
  | woken j fd n | reading j fd n => j = i ∧ HasReader c fd n ∧ n < c.box.size
  | read j fd n ret _ => j = i ∧ HasReader c fd ((n + ret.toNat) % sizeRange) ∧ ret ≠ -1
  | leaving j fd | uncounted j fd => j = i ∧ ∃ n, HasReader c fd n

/-- Where a thread of the system stands. -/
def Pc.At (c : Channel) (i : ℕ) : Pc → Prop
  | idle => True
  | publisher p => p.At c i
  | subscriber p => p.At c i
  | create _ _ | delete _ => False

/-- The handle that the thread has open. -/
def Pc.handle : Pc → Option ℤ
  | .publisher (.opened _ fd) | .publisher (.counted _ fd) | .publisher (.waiting _ fd)
  | .publisher (.received _ fd _) | .publisher (.checked _ fd _) | .publisher (.writing _ fd _)
  | .publisher (.failed _ fd) | .publisher (.written _ fd _) | .publisher (.sized _ fd)
  | .publisher (.unlocked _ fd) | .publisher (.leaving _ fd) | .publisher (.lockedToLeave _ fd)
  | .publisher (.uncounted _ fd) | .publisher (.left fd)
  | .subscriber (.opened _ fd) | .subscriber (.counted _ fd) | .subscriber (.looping _ fd _)
  | .subscriber (.looking _ fd _) | .subscriber (.asleep _ fd _) | .subscriber (.woken _ fd _)
  | .subscriber (.reading _ fd _) | .subscriber (.read _ fd _ _ _)
  | .subscriber (.sending _ fd _ _) | .subscriber (.sent _ fd _) | .subscriber (.leaving _ fd)
  | .subscriber (.uncounted _ fd) => some fd
  | _ => none

/-- The thread is the publisher of the channel. -/
def Pc.writes : Pc → Bool
  | .publisher (.opened _ _) | .publisher (.counted _ _) | .publisher (.waiting _ _)
  | .publisher (.received _ _ _) | .publisher (.checked _ _ _) | .publisher (.writing _ _ _)
  | .publisher (.failed _ _) | .publisher (.written _ _ _) | .publisher (.sized _ _)
  | .publisher (.unlocked _ _) | .publisher (.leaving _ _) | .publisher (.lockedToLeave _ _) => true
  | _ => false

/-- The number of bytes that the thread has written, and is about to add to the size of the
box. -/
def Pc.adds : Pc → Option ℕ
  | .publisher (.written _ _ ret) => some (ret.toNat + 1)
  | _ => none

/-- The thread has written a message, and not yet broadcast. -/
def Pc.announces : Pc → Bool
  | .publisher (.written _ _ _) | .publisher (.sized _ _) | .publisher (.unlocked _ _) => true
  | _ => false

/-- The system as a dated one, for sessions of one box only. -/
def Sys.dated (x : Sys) : Dated := ⟨x, fun _ => 1, fun _ => 1⟩

/-- The channel of the box in slot `i`, whose file is that of inode `k`, agrees with the
threads. A subscriber is asleep only if it has read everything, or is about to be woken. -/
structure Linked (i k : ℕ) (x : Sys) (c : Channel) : Prop where
  framed : Framed c k
  tfs : c.tfs = x.broker.tfs
  name : c.box.name = (x.broker.mbrokerBoxes i).name
  used : (x.broker.mbrokerBoxes i).allocState = .USED
  size : (∀ t, (x.pc t).adds = none) → c.box.size = (x.broker.mbrokerBoxes i).size
  added : ∀ t n, (x.pc t).adds = some n →
    c.box.size = ((x.broker.mbrokerBoxes i).size + n) % sizeRange
  threads : ∀ t, (x.pc t).At c i
  apart : ∀ t u fd, (x.pc t).handle = some fd → (x.pc u).handle = some fd → t = u
  publisher : c.publisher ≠ none → ∃ t, (x.pc t).writes = true
  awaited : ∀ t u fd n, x.pc t = .subscriber (.asleep i fd n) → (x.pc u).announces = true →
    n < c.box.size
  idle : ∀ t, x.maxSessions ≤ t → x.pc t = .idle
  held : LockedAlone x.dated
  slot : SlotRight x.dated i

/-! ### One thread -/

namespace Pc.At

/-- A handle that a thread has open is one of the channel. -/
theorem known (h : p.At c i) (hp : p.handle = some fd) :
    ∃ fh : ℕ, fd = fh ∧ (c.publisher = some fh ∨ ∃ r, c.readers fh = some r) := by
  have hpublisher : HasPublisher c fd →
      ∃ fh : ℕ, fd = fh ∧ (c.publisher = some fh ∨ ∃ r, c.readers fh = some r) :=
    fun ⟨fh, hfd, hfh⟩ => ⟨fh, hfd, .inl hfh⟩
  have hreader : ∀ n, HasReader c fd n →
      ∃ fh : ℕ, fd = fh ∧ (c.publisher = some fh ∨ ∃ r, c.readers fh = some r) :=
    fun n ⟨fh, hfd, r, hr, _⟩ => ⟨fh, hfd, .inr ⟨r, hr⟩⟩
  cases p with
  | idle | create | delete => cases hp
  | publisher p =>
    cases p with
    | found | locked | admitted | refused => cases hp
    | uncounted =>
      obtain rfl := Option.some_inj.mp hp
      exact hreader _ h.2.choose_spec
    | left =>
      obtain rfl := Option.some_inj.mp hp
      exact hreader _ h.choose_spec
    | _ =>
      obtain rfl := Option.some_inj.mp hp
      exact hpublisher h.2
  | subscriber p =>
    cases p with
    | found | locked | refused | left => cases hp
    | woken | reading | read =>
      obtain rfl := Option.some_inj.mp hp
      exact hreader _ h.2.1
    | leaving | uncounted =>
      obtain rfl := Option.some_inj.mp hp
      exact hreader _ h.2.choose_spec
    | _ =>
      obtain rfl := Option.some_inj.mp hp
      exact hreader _ h.2

/-- The handle of the publisher of the channel. -/
theorem publisher_of_writes (h : p.At c i) (hp : p.writes = true) :
    ∃ fh : ℕ, p.handle = some (fh : ℤ) ∧ c.publisher = some fh := by
  cases p with
  | idle | create | delete | subscriber => cases hp
  | publisher p =>
    cases p with
    | found | locked | admitted | refused | uncounted | left => cases hp
    | _ =>
      obtain ⟨-, fh, rfl, hfh⟩ := h
      exact ⟨fh, rfl, hfh⟩

/-- A change of the channel that leaves the handle of the thread alone. -/
theorem mono (h : p.At c i) (hwrites : p.writes = true → c'.publisher = c.publisher)
    (hreaders : ∀ fh : ℕ, p.handle = some (fh : ℤ) → c'.readers fh = c.readers fh)
    (hsize : c.box.size ≤ c'.box.size) : p.At c' i := by
  have hpublisher : ∀ {fd}, p.writes = true → HasPublisher c fd → HasPublisher c' fd :=
    fun hp ⟨fh, hfd, hfh⟩ => ⟨fh, hfd, (hwrites hp).trans hfh⟩
  have hreader : ∀ {fd n}, p.handle = some fd → HasReader c fd n → HasReader c' fd n := by
    rintro fd n hp ⟨fh, rfl, r, hr, hn⟩
    exact ⟨fh, rfl, r, (hreaders fh hp).trans hr, hn⟩
  cases p with
  | idle | create | delete => exact h
  | publisher p =>
    cases p with
    | found | locked | admitted | refused => exact h
    | uncounted => exact ⟨h.1, h.2.imp fun n => hreader rfl⟩
    | left => exact Exists.imp (fun n => hreader rfl) h
    | _ => exact ⟨h.1, hpublisher rfl h.2⟩
  | subscriber p =>
    cases p with
    | found | locked | refused | left => exact h
    | woken | reading => exact ⟨h.1, hreader rfl h.2.1, h.2.2.trans_le hsize⟩
    | read => exact ⟨h.1, hreader rfl h.2.1, h.2.2⟩
    | leaving | uncounted => exact ⟨h.1, h.2.imp fun n => hreader rfl⟩
    | _ => exact ⟨h.1, hreader rfl h.2⟩

/-- The publisher of the channel is counted in the box, or has been admitted. -/
theorem publishes_or_admits (h : p.At c i) (hp : p.writes = true) :
    p.publishes = some i ∨ p.admits = some i := by
  cases p with
  | idle | create | delete | subscriber => cases hp
  | publisher p =>
    cases p with
    | found | locked | admitted | refused | uncounted | left => cases hp
    | opened =>
      obtain ⟨rfl, -⟩ := h
      exact .inr rfl
    | _ =>
      obtain ⟨rfl, -⟩ := h
      exact .inl rfl

/-- A thread that adds to the size of the box has its mutex. -/
theorem holds_of_adds (h : p.At c i) (hp : p.adds = some n) : p.holds = some i := by
  cases p with
  | idle | create | delete | subscriber => cases hp
  | publisher p =>
    cases p with
    | written =>
      obtain ⟨rfl, -⟩ := h
      rfl
    | _ => cases hp

/-- No thread of the system assigns a box. -/
theorem enters (h : p.At c i) : p.enters = false := by
  cases p with
  | create => exact h.elim
  | _ => rfl

end Pc.At

/-- A step of a thread that assigns no box is one of the dated system. -/
theorem Sys.dated_next (hnext : x.next e = some y) (henters : (x.pc e.thread).enters = false) :
    ∃ r, DatedStep x.dated e r y.dated ∧
      ∀ t, t ≠ e.thread → y.pc t = r.output.wakes x.pc t := by
  obtain ⟨r, hstep, hbroker, hself, hother, hlt, hmax⟩ := Sys.next_eq_some hnext
  refine ⟨r, ⟨hstep, hbroker, hself, fun t ht => ?_, ?_, fun _ _ => rfl, fun i => ?_, hlt, hmax⟩,
    hother⟩
  · change SameRole (x.pc t) (y.pc t)
    rw [hother t ht]
    exact sameRole_wakes _ _ _
  · change 1 = ((x.pc e.thread).registers.map fun _ => 1).getD 1
    cases (x.pc e.thread).registers <;> rfl
  · refine (if_neg fun h => ?_).symm
    cases henters.symm.trans h.1

/-! ### One step -/

/-- What a step does to the channel, and what it leaves to the other threads. -/
structure Moves (i k : ℕ) (x : Sys) (e : Turn) (r : Step) (c c' : Channel) : Prop where
  framed : Framed c' k
  tfs : c'.tfs = r.broker.tfs
  name : c'.box.name = c.box.name
  slot : (r.broker.mbrokerBoxes i).name = (x.broker.mbrokerBoxes i).name ∧
    (r.broker.mbrokerBoxes i).allocState = (x.broker.mbrokerBoxes i).allocState
  self : r.pc.At c' i
  size_le : c.box.size ≤ c'.box.size
  readers : ∀ t ≠ e.thread, ∀ fh : ℕ, (x.pc t).handle = some (fh : ℤ) →
    c'.readers fh = c.readers fh
  publisher : c'.publisher = c.publisher ∨ ∀ t ≠ e.thread, (x.pc t).writes = false
  handle : ∀ fd, r.pc.handle = some fd →
    (x.pc e.thread).handle = some fd ∨ ∀ t, (x.pc t).handle ≠ some fd
  writes : c'.publisher ≠ none →
    r.pc.writes = true ∨ (x.pc e.thread).writes = false ∧ c'.publisher = c.publisher
  size : r.pc.adds = none → (∀ t ≠ e.thread, (x.pc t).adds = none) →
    c'.box.size = (r.broker.mbrokerBoxes i).size
  added : ∀ t n, (if t = e.thread then r.pc.adds else (x.pc t).adds) = some n →
    c'.box.size = ((r.broker.mbrokerBoxes i).size + n) % sizeRange
  sleeps : ∀ fd n, r.pc = .subscriber (.asleep i fd n) → ∀ t ≠ e.thread,
    (x.pc t).announces = true → n < c'.box.size
  announces : r.pc.announces = true → (x.pc e.thread).announces = true ∨
    ∀ t fd n, t ≠ e.thread → x.pc t = .subscriber (.asleep i fd n) → n < c'.box.size
  broadcast : ∀ j, r.output = .broadcast j → (x.pc e.thread).announces = true

/-- Only a broadcast wakes a thread. -/
theorem Output.wakes_cases_broadcast (o : Output) (pc : ℕ → Pc) (t : ℕ) : o.wakes pc t = pc t ∨
    (∃ j, o = .broadcast j) ∧ ∃ i fd n, pc t = .subscriber (.asleep i fd n) ∧
      o.wakes pc t = .subscriber (.woken i fd n) := by
  cases o with
  | broadcast j => exact ((broadcast j).wakes_cases pc t).imp_right fun h => ⟨⟨j, rfl⟩, h⟩
  | none | respond | deliver => exact .inl rfl

/-- What a broadcast leaves of a thread. -/
theorem wakes_same (o : Output) (pc : ℕ → Pc) (t : ℕ) :
    (o.wakes pc t).handle = (pc t).handle ∧ (o.wakes pc t).writes = (pc t).writes ∧
      (o.wakes pc t).adds = (pc t).adds ∧ (o.wakes pc t).announces = (pc t).announces := by
  rcases o.wakes_cases pc t with heq | ⟨i, fd, n, hpc, heq⟩
  · rw [heq]
    exact ⟨rfl, rfl, rfl, rfl⟩
  · rw [heq, hpc]
    exact ⟨rfl, rfl, rfl, rfl⟩

namespace Linked

/-- The channel and the threads still agree after a step that moves both. -/
theorem of_moves (h : Linked i k x c) (hs : DatedStep x.dated e r y.dated)
    (hother : ∀ t, t ≠ e.thread → y.pc t = r.output.wakes x.pc t) (hm : Moves i k x e r c c') :
    Linked i k y c' := by
  have hbroker : y.broker = r.broker := hs.broker
  have hself : y.pc e.thread = r.pc := hs.self
  have henters : (x.dated.sys.pc e.thread).enters = false := (h.threads e.thread).enters
  have hsame : ∀ t, t ≠ e.thread → (y.pc t).handle = (x.pc t).handle ∧
      (y.pc t).writes = (x.pc t).writes ∧ (y.pc t).adds = (x.pc t).adds ∧
      (y.pc t).announces = (x.pc t).announces := by
    intro t ht
    rw [hother t ht]
    exact wakes_same _ _ _
  constructor
  · exact hm.framed
  · rw [hm.tfs, hbroker]
  · rw [hm.name, h.name, hbroker, hm.slot.1]
  · rw [hbroker, hm.slot.2, h.used]
  · intro hnone
    rw [hbroker]
    refine hm.size (hself ▸ hnone e.thread) fun t ht => ?_
    rw [← (hsame t ht).2.2.1]
    exact hnone t
  · intro t n ht
    rw [hbroker]
    refine hm.added t n ?_
    split
    · rename_i hte
      rwa [← hself, ← hte]
    · rename_i hte
      rwa [← (hsame t hte).2.2.1]
  · -- where each thread stands
    intro t
    by_cases hte : t = e.thread
    · rw [hte, hself]
      exact hm.self
    have hstays : (x.pc t).At c' i := by
      refine (h.threads t).mono (fun hwrites => ?_) (hm.readers t hte) hm.size_le
      rcases hm.publisher with hsame | hno
      · exact hsame
      · cases (hno t hte).symm.trans hwrites
    rw [hother t hte]
    rcases r.output.wakes_cases_broadcast x.pc t with heq | ⟨⟨j, hj⟩, i', fd, n, hpc, heq⟩
    · rwa [heq]
    · -- it was asleep, and what it waits for was written
      rw [heq]
      rw [hpc] at hstays
      obtain ⟨rfl, hreader⟩ := hstays
      exact ⟨rfl, hreader, (h.awaited t e.thread fd n hpc (hm.broadcast j hj)).trans_le hm.size_le⟩
  · intro t u fd ht hu
    have hnew : ∀ t, t ≠ e.thread → (y.pc t).handle = some fd → r.pc.handle = some fd → False := by
      intro t hte ht hfd
      rw [(hsame t hte).1] at ht
      rcases hm.handle fd hfd with hold | hno
      · exact hte (h.apart t e.thread fd ht hold)
      · exact hno t ht
    by_cases hte : t = e.thread <;> by_cases hue : u = e.thread
    · rw [hte, hue]
    · rw [hte, hself] at ht
      exact (hnew u hue hu ht).elim
    · rw [hue, hself] at hu
      exact (hnew t hte ht hu).elim
    · rw [(hsame t hte).1] at ht
      rw [(hsame u hue).1] at hu
      exact h.apart t u fd ht hu
  · intro hne
    rcases hm.writes hne with hwrites | ⟨hno, heq⟩
    · exact ⟨e.thread, hself ▸ hwrites⟩
    · rw [heq] at hne
      obtain ⟨t, ht⟩ := h.publisher hne
      have hte : t ≠ e.thread := by
        rintro rfl
        cases hno.symm.trans ht
      exact ⟨t, (hsame t hte).2.1.trans ht⟩
  · intro t u fd n ht hu
    by_cases hte : t = e.thread
    · have hue : u ≠ e.thread := by
        rintro rfl
        rw [← hte, ht] at hu
        cases hu
      rw [hte, hself] at ht
      rw [(hsame u hue).2.2.2] at hu
      exact hm.sleeps fd n ht u hue hu
    have hold : x.pc t = .subscriber (.asleep i fd n) := by
      rw [hother t hte] at ht
      rcases r.output.wakes_cases x.pc t with heq | ⟨i', fd', n', hpc, heq⟩
      · rw [← heq, ht]
      · rw [heq] at ht
        cases ht
    by_cases hue : u = e.thread
    · rw [hue, hself] at hu
      rcases hm.announces hu with hannounces | hlt
      · exact (h.awaited t e.thread fd n hold hannounces).trans_le hm.size_le
      · exact hlt t fd n hte hold
    · rw [(hsame u hue).2.2.2] at hu
      exact (h.awaited t u fd n hold hu).trans_le hm.size_le
  · intro t ht
    have hmax : y.maxSessions = x.maxSessions := hs.maxSessions
    rw [hmax] at ht
    have hidle := h.idle t ht
    have hte : t ≠ e.thread := by
      have hlt : e.thread < x.maxSessions := hs.thread_lt
      omega
    rw [hother t hte]
    rcases r.output.wakes_cases x.pc t with heq | ⟨i', fd', n', hpc, heq⟩
    · rw [heq, hidle]
    · cases hidle.symm.trans hpc
  · refine h.held.next (fun htrue => ?_) hs
    cases henters.symm.trans htrue
  · exact h.slot.next_of_not_enters h.held hs henters fun _ => rfl

end Linked

/-- The file system, and what the channel knows of the box. -/
def SameBox (i : ℕ) (m m' : Broker) : Prop :=
  m'.tfs = m.tfs ∧ (m'.mbrokerBoxes i).name = (m.mbrokerBoxes i).name ∧
    (m'.mbrokerBoxes i).allocState = (m.mbrokerBoxes i).allocState ∧
    (m'.mbrokerBoxes i).size = (m.mbrokerBoxes i).size

theorem SameBox.refl (m : Broker) : SameBox i m m := ⟨rfl, rfl, rfl, rfl⟩

theorem Broker.setBox_self (m : Broker) (i : ℕ) (box : Box) :
    (m.setBox i box).mbrokerBoxes i = box := Function.update_self _ _ _

/-- An assignment to another field of the box. -/
theorem SameBox.setBox {box : Box} (hname : box.name = (m.mbrokerBoxes i).name)
    (halloc : box.allocState = (m.mbrokerBoxes i).allocState)
    (hsize : box.size = (m.mbrokerBoxes i).size) : SameBox i m (m.setBox i box) := by
  have hself := m.setBox_self i box
  exact ⟨rfl, (congrArg Box.name hself).trans hname, (congrArg Box.allocState hself).trans halloc,
    (congrArg Box.size hself).trans hsize⟩

theorem SameBox.lock (h : m.lock i = some m') : SameBox i m m' := by
  unfold Broker.lock at h
  split at h
  · cases h
  · obtain rfl := Option.some_inj.mp h
    exact .setBox rfl rfl rfl

theorem SameBox.unlock : SameBox i m (m.unlock i) := .setBox rfl rfl rfl

/-- The size of the box, for a step of a thread that neither has something to add to it nor gets
it. -/
theorem Linked.size_keeps (h : Linked i k x c) (hp : x.pc e.thread = p) {q : Pc} {size size' : ℕ}
    (hadds : p.adds = none ∧ q.adds = none) (hsize' : size' = c.box.size)
    (hsize : size = (x.broker.mbrokerBoxes i).size) :
    (q.adds = none → (∀ t ≠ e.thread, (x.pc t).adds = none) → size' = size) ∧
    ∀ t n, (if t = e.thread then q.adds else (x.pc t).adds) = some n →
      size' = (size + n) % sizeRange := by
  subst hp hsize' hsize
  refine ⟨fun _ hnone => h.size fun t => ?_, fun t n ht => ?_⟩
  · by_cases hte : t = e.thread
    · rw [hte, hadds.1]
    · exact hnone t hte
  · split at ht
    · cases hadds.2.symm.trans ht
    · exact h.added t n ht

namespace Moves

/-- A step that leaves the channel alone. -/
theorem stay (h : Linked i k x c) (hp : x.pc e.thread = p) (hbox : SameBox i x.broker r.broker)
    (hself : r.pc.At c i) (hhandle : r.pc.handle = p.handle ∨ r.pc.handle = none)
    (hsleeps : ∀ fd n, r.pc = .subscriber (.asleep i fd n) → ∀ t ≠ e.thread,
      (x.pc t).announces = true → n < c.box.size := by rintro _ _ ⟨⟩)
    (hwrites : p.writes = true → r.pc.writes = true := by first | exact fun _ => rfl | rintro ⟨⟩)
    (hadds : p.adds = none ∧ r.pc.adds = none := by exact ⟨rfl, rfl⟩)
    (hannounces : r.pc.announces = true → p.announces = true := by
      first | exact fun _ => rfl | rintro ⟨⟩)
    (hbroadcast : ∀ j, r.output = .broadcast j → p.announces = true := by
      first | exact fun _ _ => rfl | rintro _ ⟨⟩) :
    Moves i k x e r c c := by
  obtain ⟨hsize, hadded⟩ := h.size_keeps hp hadds rfl hbox.2.2.2
  subst hp
  refine ⟨h.framed, h.tfs.trans hbox.1.symm, rfl, ⟨hbox.2.1, hbox.2.2.1⟩, hself, le_rfl,
    fun _ _ _ _ => rfl, .inl rfl, fun fd hfd => ?_, fun hne => ?_, hsize, hadded, hsleeps,
    fun h => .inl (hannounces h), hbroadcast⟩
  · rcases hhandle with heq | hnone
    · exact .inl (heq.symm.trans hfd)
    · cases hnone.symm.trans hfd
  · cases hw : (x.pc e.thread).writes with
    | true => exact .inl (hwrites hw)
    | false => exact .inr ⟨rfl, rfl⟩

end Moves

namespace Linked

/-- While a thread has the mutex, no other thread is about to add to the size of the box. -/
theorem adds_eq_none (h : Linked i k x c) (hheld : (x.pc e.thread).holds = some i)
    (ht : t ≠ e.thread) : (x.pc t).adds = none := by
  cases hadds : (x.pc t).adds with
  | none => rfl
  | some n => exact absurd (h.held.alone t e.thread i ((h.threads t).holds_of_adds hadds) hheld) ht

/-- The channel knows the size of the box while a thread that adds nothing has the mutex. -/
theorem size_eq (h : Linked i k x c) (hheld : (x.pc e.thread).holds = some i)
    (hadds : (x.pc e.thread).adds = none) : c.box.size = (x.broker.mbrokerBoxes i).size := by
  refine h.size fun t => ?_
  by_cases ht : t = e.thread
  · rw [ht, hadds]
  · exact h.adds_eq_none hheld ht

/-- A new handle is of no thread. -/
theorem handle_ne (h : Linked i k x c)
    (hfirst : firstFree c.tfs.freeOpenFileEntries c.tfs.maxOpenFiles = some fh) (t : ℕ) :
    (x.pc t).handle ≠ some (fh : ℤ) := by
  intro ht
  obtain ⟨hpublisher, hreaders⟩ := h.framed.registered_others 0 hfirst
  obtain ⟨fh', heq, hknown⟩ := (h.threads t).known ht
  obtain rfl := Int.ofNat_inj.mp heq
  rcases hknown with hpub | ⟨r, hr⟩
  · exact (hpublisher fh hpub).1 rfl
  · exact (hreaders fh r hr).1 rfl

/-- `tfs_open` of the file of the box. -/
theorem tfsOpen_cases (h : Linked i k x c) {mode : ℕ} {tfs : State}
    (htrunc : hasFlag mode tfsOTrunc = false)
    (hopen : tfsOpen x.broker.tfs (some (x.broker.mbrokerBoxes i).name) mode = .ret (fd, tfs)) :
    (fd = -1 ∧ tfs = x.broker.tfs) ∨
      ∃ fh : ℕ, fd = fh ∧ ∀ t, (x.pc t).handle ≠ some (fh : ℤ) := by
  rw [← h.tfs, ← h.name] at hopen
  rcases h.framed.tfsOpen_cases htrunc hopen with ⟨hfd, htfs⟩ | ⟨fh, hfirst, hfd, -⟩
  · exact .inl ⟨hfd, htfs.trans h.tfs⟩
  · exact .inr ⟨fh, hfd, h.handle_ne hfirst⟩

end Linked

/-! ### Subscribers -/

section Subscribers

variable {q : SubscriberPc}

/-- A subscriber that opens the file. -/
theorem subscribe_moves (h : Linked i k x c) (hp : x.pc e.thread = .subscriber (.locked i))
    (hstep : subscriberStep x.broker (.locked i) = some r) : ∃ c', Moves i k x e r c c' := by
  obtain ⟨⟨fd, tfs⟩, hopen, rfl⟩ := Option.map_eq_some_iff.mp hstep
  rw [Outcome.toOption_eq_some] at hopen
  rcases h.tfsOpen_cases (by decide) hopen with ⟨rfl, rfl⟩ | ⟨fh, rfl, hnew⟩
  · exact ⟨c, .stay h hp (.refl _) rfl (.inl rfl)⟩
  have hne : ((fh : ℕ) : ℤ) ≠ -1 := by omega
  have hnext : next c .subscribe = some
      { c with tfs, readers := Function.update c.readers fh (some ⟨0, []⟩) } := by
    simp [next, h.tfs, h.name, hopen, Outcome.toOption, hne]
  obtain ⟨hsize, hadded⟩ := h.size_keeps (q := .subscriber (.opened i fh)) hp ⟨rfl, rfl⟩ rfl rfl
  simp only [hne, if_false]
  refine ⟨_, h.framed.subscribe hnext, rfl, rfl, ⟨rfl, rfl⟩,
    ⟨rfl, fh, rfl, ⟨0, []⟩, Function.update_self _ _ _, rfl⟩, le_rfl, fun t _ fh' ht => ?_,
    .inl rfl, fun fd hfd => ?_, fun _ => ?_, hsize, hadded, by rintro _ _ ⟨⟩, by rintro ⟨⟩,
    by rintro _ ⟨⟩⟩
  · refine Function.update_of_ne (fun heq => ?_) _ _
    exact hnew t (heq ▸ ht)
  · obtain rfl := Option.some_inj.mp hfd
    exact .inr hnew
  · rw [hp]
    exact .inr ⟨rfl, rfl⟩

/-- A subscriber that reads finds a whole message. -/
theorem Linked.readMessage_next (h : Linked i k x c) {t : ℕ} {totalRead : ℕ}
    (hp : x.pc t = .subscriber (.reading i fd totalRead)) :
    ∃ (message : CString) (s' : State), readMessage x.broker.tfs fd =
      .ret (message.strlen + 1, message.terminated, s') := by
  have hat := h.threads t
  rw [hp] at hat
  obtain ⟨-, ⟨fh, rfl, rd, hrd, rfl⟩, hlt⟩ := hat
  obtain ⟨message, -, hread⟩ := h.framed.readMessage_next hrd hlt
  rw [h.tfs] at hread
  exact ⟨message, _, hread⟩

/-- A subscriber reads. -/
theorem read_moves (h : Linked i k x c) {totalRead : ℕ}
    (hp : x.pc e.thread = .subscriber (.reading i fd totalRead))
    (hstep : subscriberStep x.broker (.reading i fd totalRead) = some r) :
    ∃ c', Moves i k x e r c c' := by
  obtain ⟨⟨ret, buffer, tfs⟩, hread, rfl⟩ := Option.map_eq_some_iff.mp hstep
  rw [Outcome.toOption_eq_some] at hread
  obtain ⟨message, s', hmessage⟩ := h.readMessage_next hp
  have hret : ret ≠ -1 := by
    rw [hread] at hmessage
    obtain ⟨rfl, -⟩ := Prod.mk.inj (Outcome.ret.inj hmessage)
    omega
  have hat := h.threads e.thread
  rw [hp] at hat
  obtain ⟨-, ⟨fh, rfl, rd, hrd, rfl⟩, hlt⟩ := hat
  have hnext : next c (.read fh) = some { c with
      tfs
      readers := Function.update c.readers fh
        (some ⟨(rd.totalRead + ret.toNat) % sizeRange, rd.received ++ [(ret, buffer)]⟩) } := by
    simp [next, h.tfs, hrd, hlt, hread, Outcome.toOption]
  obtain ⟨hsize, hadded⟩ := h.size_keeps
    (q := .subscriber (.read i fh rd.totalRead ret buffer)) hp ⟨rfl, rfl⟩ rfl rfl
  simp only [hret, if_false]
  refine ⟨_, h.framed.read hnext, rfl, rfl, ⟨rfl, rfl⟩,
    ⟨rfl, ⟨fh, rfl, _, Function.update_self _ _ _, rfl⟩, hret⟩, le_rfl, fun t hte fh' ht => ?_,
    .inl rfl, fun fd hfd => .inl (by rw [hp]; exact hfd), fun _ => ?_, hsize, hadded,
    by rintro _ _ ⟨⟩, by rintro ⟨⟩, by rintro _ ⟨⟩⟩
  · refine Function.update_of_ne (fun heq => hte ?_) _ _
    exact h.apart t e.thread fh' ht (by rw [hp, heq]; rfl)
  · rw [hp]
    exact .inr ⟨rfl, rfl⟩

/-- A thread closes its handle, which is not that of the publisher. -/
theorem close_moves (h : Linked i k x c) {ret : ℤ} {tfs : State} {q : Pc}
    (hhandle : (x.pc e.thread).handle = some fd) (hreader : ∃ n, HasReader c fd n)
    (hclose : tfsClose x.broker.tfs fd = .ret (ret, tfs)) (hwrites : (x.pc e.thread).writes = false)
    (hadds : (x.pc e.thread).adds = none) (hat : ∀ c, q.At c i) (hq : q.handle = none)
    (hq' : q.adds = none ∧ q.announces = false)
    (hsleeps : ∀ fd n, q ≠ .subscriber (.asleep i fd n)) :
    ∃ c', Moves i k x e ⟨{ x.broker with tfs }, q, .none⟩ c c' := by
  obtain ⟨n, fh, rfl, rd, hrd, -⟩ := hreader
  have hnext : next c (.unsubscribe fh) = some
      { c with tfs, readers := Function.update c.readers fh none } := by
    simp [next, h.tfs, hrd, hclose, Outcome.toOption]
  obtain ⟨hsize, hadded⟩ := h.size_keeps (q := q) rfl ⟨hadds, hq'.1⟩ rfl rfl
  refine ⟨_, h.framed.unsubscribe hnext, rfl, rfl, ⟨rfl, rfl⟩, hat _, le_rfl,
    fun t hte fh' ht => ?_, .inl rfl, fun fd hfd => ?_, fun _ => .inr ⟨hwrites, rfl⟩, hsize, hadded,
    fun fd n heq => absurd heq (hsleeps fd n), fun htrue => ?_, by rintro _ ⟨⟩⟩
  · refine Function.update_of_ne (fun heq => hte ?_) _ _
    exact h.apart t e.thread fh' ht (by rw [hhandle, heq])
  · cases hq.symm.trans hfd
  · cases hq'.2.symm.trans htrue

/-- A subscriber looks whether there is something to read. -/
theorem looking_moves (h : Linked i k x c) {totalRead : ℕ}
    (hp : x.pc e.thread = .subscriber (.looking i fd totalRead))
    (hstep : subscriberStep x.broker (.looking i fd totalRead) = some r)
    (hlate : NoLateWait i x e) : ∃ c', Moves i k x e r c c' := by
  have hheld : (x.pc e.thread).holds = some i := by rw [hp]; rfl
  have hat := h.threads e.thread
  rw [hp] at hat
  simp only [subscriberStep] at hstep
  split at hstep
  · rename_i hle
    obtain rfl := Option.some_inj.mp hstep
    refine ⟨c, .stay h hp .unlock hat (.inl rfl) fun fd' n _ t hte ht => ?_⟩
    -- no publisher has written and not broadcast
    exfalso
    have hatt := h.threads t
    cases hpt : x.pc t with
    | idle | create | delete | subscriber =>
      rw [hpt] at ht
      cases ht
    | publisher q =>
      have hlt : t < x.maxSessions := by
        by_contra hge
        rw [h.idle t (by omega)] at hpt
        cases hpt
      rw [hpt] at ht hatt
      cases q with
      | written j fd' ret =>
        obtain ⟨rfl, -⟩ := hatt
        exact hte (h.held.alone t e.thread j (by rw [Sys.dated, hpt]; rfl) hheld)
      | sized j fd' =>
        obtain ⟨rfl, -⟩ := hatt
        exact hte (h.held.alone t e.thread j (by rw [Sys.dated, hpt]; rfl) hheld)
      | unlocked j fd' =>
        obtain ⟨rfl, -⟩ := hatt
        exact hlate fd totalRead hp hle t hlt fd' hpt
      | _ => cases ht
  · rename_i hlt
    obtain rfl := Option.some_inj.mp hstep
    have hsize := h.size_eq hheld (by rw [hp]; rfl)
    exact ⟨c, .stay h hp (.refl _) ⟨rfl, hat.2, by omega⟩ (.inl rfl)⟩

theorem subscriberStep_moves (h : Linked i k x c) (hp : x.pc e.thread = .subscriber q)
    (hstep : subscriberStep x.broker q = some r) (hlate : NoLateWait i x e) :
    ∃ c', Moves i k x e r c c' := by
  have hat := h.threads e.thread
  rw [hp] at hat
  cases q with
  | found j =>
    obtain rfl := hat
    obtain ⟨m', hlock, rfl⟩ := Option.map_eq_some_iff.mp hstep
    exact ⟨c, .stay h hp (.lock hlock) rfl (.inl rfl)⟩
  | locked j =>
    obtain rfl := hat
    exact subscribe_moves h hp hstep
  | refused j =>
    obtain rfl := hat
    obtain rfl := Option.some_inj.mp hstep
    exact ⟨c, .stay h hp .unlock trivial (.inl rfl)⟩
  | opened j fd =>
    obtain ⟨rfl, hreader⟩ := hat
    obtain rfl := Option.some_inj.mp hstep
    exact ⟨c, .stay h hp (.setBox rfl rfl rfl) ⟨rfl, hreader⟩ (.inl rfl)⟩
  | counted j fd =>
    obtain ⟨rfl, hreader⟩ := hat
    obtain rfl := Option.some_inj.mp hstep
    exact ⟨c, .stay h hp .unlock ⟨rfl, hreader⟩ (.inl rfl)⟩
  | looping j fd n =>
    obtain ⟨rfl, hreader⟩ := hat
    obtain ⟨m', hlock, rfl⟩ := Option.map_eq_some_iff.mp hstep
    exact ⟨c, .stay h hp (.lock hlock) ⟨rfl, hreader⟩ (.inl rfl)⟩
  | looking j fd n =>
    obtain ⟨rfl, -⟩ := hat
    exact looking_moves h hp hstep hlate
  | woken j fd n =>
    obtain ⟨rfl, hreader⟩ := hat
    obtain ⟨m', hlock, rfl⟩ := Option.map_eq_some_iff.mp hstep
    exact ⟨c, .stay h hp (.lock hlock) ⟨rfl, hreader⟩ (.inl rfl)⟩
  | reading j fd n =>
    obtain ⟨rfl, -⟩ := hat
    exact read_moves h hp hstep
  | read j fd n ret buffer =>
    obtain ⟨rfl, hreader, -⟩ := hat
    obtain rfl := Option.some_inj.mp hstep
    rw [if_neg (by rw [h.used]; decide)]
    exact ⟨c, .stay h hp (.refl _) ⟨rfl, hreader⟩ (.inl rfl)⟩
  | sent j fd n =>
    obtain ⟨rfl, hreader⟩ := hat
    obtain rfl := Option.some_inj.mp hstep
    exact ⟨c, .stay h hp .unlock ⟨rfl, hreader⟩ (.inl rfl)⟩
  | leaving j fd =>
    obtain ⟨rfl, hreader⟩ := hat
    obtain rfl := Option.some_inj.mp hstep
    exact ⟨c, .stay h hp (.setBox rfl rfl rfl) ⟨rfl, hreader⟩ (.inl rfl)⟩
  | uncounted j fd =>
    obtain ⟨rfl, hreader⟩ := hat
    obtain ⟨⟨ret, tfs⟩, hclose, rfl⟩ := Option.map_eq_some_iff.mp hstep
    rw [Outcome.toOption_eq_some] at hclose
    exact close_moves h (by rw [hp]; rfl) hreader hclose (by rw [hp]; rfl) (by rw [hp]; rfl)
      (fun _ => rfl) rfl ⟨rfl, rfl⟩ (by rintro _ _ ⟨⟩)
  | left j =>
    obtain rfl := hat
    obtain rfl := Option.some_inj.mp hstep
    exact ⟨c, .stay h hp .unlock trivial (.inl rfl)⟩
  | asleep | sending => cases hstep

end Subscribers

/-! ### Publishers -/

section Publishers

variable {q : PublisherPc} {message : CString}

/-- No subscriber has read more than there is. -/
theorem Framed.totalRead_le (h : Framed c k) {rd : Reader} (hrd : c.readers fh = some rd) :
    rd.totalRead ≤ c.box.size := by
  have hat := h.reader fh rd hrd
  have hsplit := congrArg (fun l => (CString.framed l).length)
    (List.take_append_drop rd.received.length c.written)
  simp only [CString.framed_append, List.length_append] at hsplit
  rw [hat.totalRead, hat.offset, h.size]
  omega

/-- A thread that works has a number below that of the threads. -/
theorem Linked.lt_of_ne_idle (h : Linked i k x c) (ht : x.pc t ≠ .idle) : t < x.maxSessions := by
  by_contra hge
  exact ht (h.idle t (not_lt.mp hge))

theorem Linked.lt_of_writes (h : Linked i k x c) (ht : (x.pc t).writes = true) :
    t < x.maxSessions := by
  refine h.lt_of_ne_idle fun hidle => ?_
  rw [hidle] at ht
  cases ht

/-- Nobody is admitted while a publisher is counted. -/
theorem Linked.not_admitted (h : Linked i k x c) (ht : (x.pc t).writes = true)
    (hpublishes : (x.pc t).publishes = some i) (u : ℕ) : (x.pc u).admits ≠ some i := by
  intro hadmits
  have hzero := h.slot.publishers
  rw [h.slot.admitted u hadmits] at hzero
  have hpos : 0 < x.dated.publishers i :=
    Dated.registered_pos (h.lt_of_writes ht) hpublishes rfl
  omega

/-- There is one publisher at a time. -/
theorem Linked.writes_unique (h : Linked i k x c) (ht : (x.pc t).writes = true)
    (hu : (x.pc u).writes = true) : t = u := by
  rcases (h.threads t).publishes_or_admits ht with htpub | htadm <;>
    rcases (h.threads u).publishes_or_admits hu with hupub | huadm
  · have hsingle := h.slot.single
    rw [h.slot.publishers] at hsingle
    exact Dated.eq_of_registered_le_one hsingle (h.lt_of_writes ht) htpub rfl (h.lt_of_writes hu)
      hupub rfl
  · exact absurd huadm (h.not_admitted ht htpub u)
  · exact absurd htadm (h.not_admitted hu hupub t)
  · exact h.held.alone t u i (Pc.holds_of_admits htadm) (Pc.holds_of_admits huadm)

/-- A publisher that was admitted finds no other. -/
theorem Linked.publisher_eq_none (h : Linked i k x c)
    (hp : x.pc e.thread = .publisher (.admitted i)) : c.publisher = none := by
  by_contra hne
  obtain ⟨t, ht⟩ := h.publisher hne
  have hadmits : (x.pc e.thread).admits = some i := by rw [hp]; rfl
  rcases (h.threads t).publishes_or_admits ht with hpub | hadm
  · exact h.not_admitted ht hpub e.thread hadmits
  · obtain rfl := h.held.alone t e.thread i (Pc.holds_of_admits hadm) (Pc.holds_of_admits hadmits)
    rw [hp] at ht
    cases ht

/-- A publisher that opens the file. -/
theorem connect_moves (h : Linked i k x c) (hp : x.pc e.thread = .publisher (.admitted i))
    (hstep : publisherStep x.broker (.admitted i) = some r) : ∃ c', Moves i k x e r c c' := by
  obtain ⟨⟨fd, tfs⟩, hopen, rfl⟩ := Option.map_eq_some_iff.mp hstep
  rw [Outcome.toOption_eq_some] at hopen
  rcases h.tfsOpen_cases (by decide) hopen with ⟨rfl, rfl⟩ | ⟨fh, rfl, hnew⟩
  · exact ⟨c, .stay h hp (.refl _) rfl (.inl rfl)⟩
  have hne : ((fh : ℕ) : ℤ) ≠ -1 := by omega
  have hnone := h.publisher_eq_none hp
  have hnext : next c .connect = some { c with tfs, publisher := some fh } := by
    simp [next, h.tfs, h.name, hopen, hnone, Outcome.toOption, hne]
  obtain ⟨hsize, hadded⟩ := h.size_keeps (q := .publisher (.opened i fh)) hp ⟨rfl, rfl⟩ rfl rfl
  simp only [hne, if_false]
  refine ⟨_, h.framed.connect hnext, rfl, rfl, ⟨rfl, rfl⟩, ⟨rfl, fh, rfl, rfl⟩, le_rfl,
    fun _ _ _ _ => rfl, .inr fun t _ => ?_, fun fd hfd => ?_, fun _ => .inl rfl, hsize, hadded,
    by rintro _ _ ⟨⟩, by rintro ⟨⟩, by rintro _ ⟨⟩⟩
  · cases ht : (x.pc t).writes with
    | false => rfl
    | true =>
      obtain ⟨fh', -, hknown⟩ := (h.threads t).publisher_of_writes ht
      cases hnone.symm.trans hknown
  · obtain rfl := Option.some_inj.mp hfd
    exact .inr hnew

/-- The channel after `write_message`. -/
def Channel.wrote (c : Channel) (tfs : State) (ret : ℤ) (message : CString) : Channel :=
  { c with
    tfs
    box := if ret = -1 then c.box
      else { c.box with size := (c.box.size + ret.toNat + 1) % sizeRange }
    written := if ret = -1 then c.written else c.written ++ [message] }

/-- A publisher that writes a message. -/
theorem publish_moves (h : Linked i k x c)
    (hp : x.pc e.thread = .publisher (.writing i fd message)) (hsession : OfSession i x e)
    (hstep : publisherStep x.broker (.writing i fd message) = some r) :
    ∃ c', Moves i k x e r c c' := by
  obtain ⟨⟨ret, tfs⟩, hwrite, rfl⟩ := Option.map_eq_some_iff.mp hstep
  rw [Outcome.toOption_eq_some] at hwrite
  have hheld : (x.pc e.thread).holds = some i := by rw [hp]; rfl
  have hat := h.threads e.thread
  rw [hp] at hat
  obtain ⟨-, fh, rfl, hpub⟩ := hat
  -- the message fits
  obtain ⟨hshort, hroom⟩ := hsession.fits fh message k hp (by
    rw [← h.tfs, ← h.name]
    exact h.framed.names)
  rw [← h.tfs] at hroom hwrite
  have hfits : (CString.framed (c.written ++ [message])).length ≤ c.tfs.blockSize := by
    have hsize := h.framed.size_eq
    simp only [CString.framed_append, CString.framed_singleton, List.length_append,
      CString.length_terminated]
    omega
  have hnext : next c (.publish message) = some (c.wrote tfs ret message) := by
    simp only [next, hpub, hshort, hfits, and_self, if_true, publish_eq c.box hwrite,
      Outcome.toOption, Option.map_some, Channel.wrote]
  have hframed := h.framed.publish hnext
  have hothers : ∀ t, t ≠ e.thread → (x.pc t).adds = none := fun t ht => h.adds_eq_none hheld ht
  have hbox : c.box.size = (x.broker.mbrokerBoxes i).size :=
    h.size_eq hheld (by rw [hp]; rfl)
  by_cases hret : ret = -1
  · -- no byte was written
    subst hret
    refine ⟨c.wrote tfs (-1) message, hframed, rfl, rfl, ⟨rfl, rfl⟩, ⟨rfl, fh, rfl, hpub⟩, le_rfl,
      fun _ _ _ _ => rfl, .inl rfl, fun fd hfd => .inl (by rw [hp]; exact hfd), fun _ => .inl rfl,
      fun _ _ => hbox, fun t n ht => ?_, by rintro _ _ ⟨⟩,
      by rintro ⟨⟩, by rintro _ ⟨⟩⟩
    split at ht
    · cases ht
    · rename_i hte
      cases (hothers t hte).symm.trans ht
  · have hgrows : c.box.size < (c.wrote tfs ret message).box.size := by
      rw [hframed.size, h.framed.size]
      simp [Channel.wrote, hret]
    simp only [hret, if_false]
    refine ⟨c.wrote tfs ret message, hframed, rfl, ?_, ⟨rfl, rfl⟩, ⟨rfl, fh, rfl, hpub⟩, hgrows.le,
      fun _ _ _ _ => rfl, .inl rfl, fun fd hfd => .inl (by rw [hp]; exact hfd), fun _ => .inl rfl,
      by rintro ⟨⟩, fun t n ht => ?_, by rintro _ _ ⟨⟩, fun _ => .inr fun t fd n _ ht => ?_,
      by rintro _ ⟨⟩⟩
    · simp [Channel.wrote, hret]
    · split at ht
      · obtain rfl := Option.some_inj.mp ht
        simp [Channel.wrote, hret, hbox, Nat.add_assoc]
      · rename_i hte
        cases (hothers t hte).symm.trans ht
    · -- a subscriber that is asleep has not read the message
      have hasleep := h.threads t
      rw [ht] at hasleep
      obtain ⟨-, fh', -, rd, hrd, rfl⟩ := hasleep
      exact (h.framed.totalRead_le hrd).trans_lt hgrows

/-- A publisher adds to the size of the box. -/
theorem size_moves (h : Linked i k x c) {ret : ℤ}
    (hp : x.pc e.thread = .publisher (.written i fd ret))
    (hstep : publisherStep x.broker (.written i fd ret) = some r) :
    ∃ c', Moves i k x e r c c' := by
  obtain rfl := Option.some_inj.mp hstep
  have hheld : (x.pc e.thread).holds = some i := by rw [hp]; rfl
  have hat := h.threads e.thread
  rw [hp] at hat
  have hadded := h.added e.thread (ret.toNat + 1) (by rw [hp]; rfl)
  refine ⟨c, h.framed, h.tfs, rfl, ⟨by simp only [Broker.setBox_self],
    by simp only [Broker.setBox_self]⟩, hat, le_rfl, fun _ _ _ _ => rfl, .inl rfl,
    fun fd hfd => .inl (by rw [hp]; exact hfd),
    fun _ => .inl rfl, fun _ _ => ?_, fun t n ht => ?_, by rintro _ _ ⟨⟩,
    fun _ => .inl (by rw [hp]; rfl), by rintro _ ⟨⟩⟩
  · rw [← Nat.add_assoc] at hadded
    simp only [Broker.setBox_self, hadded]
  · split at ht
    · cases ht
    · rename_i hte
      cases (h.adds_eq_none hheld hte).symm.trans ht

/-- The channel after its publisher has left: the handle of the publisher, still open, is that of
one that has read everything. -/
def Channel.retire (c : Channel) (fh : ℕ) : Channel :=
  { c with
    publisher := none
    readers := Function.update c.readers fh
      (some ⟨c.box.size, c.written.map fun m => ((m.strlen : ℤ) + 1, m.terminated)⟩) }

theorem Framed.retire (h : Framed c k) (hpub : c.publisher = some fh) : Framed (c.retire fh) k := by
  obtain ⟨hopen, hend, -⟩ := h.publisher fh hpub
  refine h.of_sameFiles ⟨rfl, rfl, rfl⟩ h.sound (fun _ hnone => by cases hnone) fun j rd hrd => ?_
  by_cases hj : j = fh
  · subst hj
    rw [Function.update_self] at hrd
    obtain rfl := Option.some_inj.mp hrd
    have hoffset := hend.trans h.size_eq
    refine ⟨hopen, ?_, ?_, ?_, h.size.trans hoffset.symm⟩ <;> simp [hoffset]
  · rw [Function.update_of_ne hj] at hrd
    exact h.reader j rd hrd

/-- A publisher is no longer counted. -/
theorem retire_moves (h : Linked i k x c)
    (hp : x.pc e.thread = .publisher (.lockedToLeave i fd))
    (hstep : publisherStep x.broker (.lockedToLeave i fd) = some r) :
    ∃ c', Moves i k x e r c c' := by
  obtain rfl := Option.some_inj.mp hstep
  have hat := h.threads e.thread
  rw [hp] at hat
  obtain ⟨-, fh, rfl, hpub⟩ := hat
  have hbox : SameBox i x.broker (x.broker.setBox i { x.broker.mbrokerBoxes i with
      nPublishers := subSize (x.broker.mbrokerBoxes i).nPublishers 1 }) := .setBox rfl rfl rfl
  obtain ⟨hsize, hadded⟩ := h.size_keeps (q := .publisher (.uncounted i fh)) hp ⟨rfl, rfl⟩ rfl
    hbox.2.2.2
  refine ⟨c.retire fh, h.framed.retire hpub, h.tfs, rfl, ⟨hbox.2.1, hbox.2.2.1⟩,
    ⟨rfl, _, fh, rfl, _, Function.update_self _ _ _, rfl⟩, le_rfl, fun t hte fh' ht => ?_,
    .inr fun t hte => ?_, fun fd hfd => .inl (by rw [hp]; exact hfd), fun hne => absurd rfl hne,
    hsize, hadded, by rintro _ _ ⟨⟩, by rintro ⟨⟩, by rintro _ ⟨⟩⟩
  · refine Function.update_of_ne (fun heq => hte ?_) _ _
    exact h.apart t e.thread fh' ht (by rw [hp, heq]; rfl)
  · cases ht : (x.pc t).writes with
    | false => rfl
    | true => exact absurd (h.writes_unique ht (by rw [hp]; rfl)) hte

theorem publisherStep_moves (h : Linked i k x c) (hp : x.pc e.thread = .publisher q)
    (hstep : publisherStep x.broker q = some r) (hsession : OfSession i x e) :
    ∃ c', Moves i k x e r c c' := by
  have hat := h.threads e.thread
  rw [hp] at hat
  cases q with
  | found j =>
    obtain rfl := hat
    obtain ⟨m', hlock, rfl⟩ := Option.map_eq_some_iff.mp hstep
    exact ⟨c, .stay h hp (.lock hlock) rfl (.inl rfl)⟩
  | locked j =>
    obtain rfl := hat
    obtain rfl := Option.some_inj.mp hstep
    split <;> exact ⟨c, .stay h hp (.refl _) rfl (.inl rfl)⟩
  | admitted j =>
    obtain rfl := hat
    exact connect_moves h hp hstep
  | refused j =>
    obtain rfl := hat
    obtain rfl := Option.some_inj.mp hstep
    exact ⟨c, .stay h hp .unlock trivial (.inl rfl)⟩
  | opened j fd =>
    obtain ⟨rfl, hpub⟩ := hat
    obtain rfl := Option.some_inj.mp hstep
    exact ⟨c, .stay h hp (.setBox rfl rfl rfl) ⟨rfl, hpub⟩ (.inl rfl)⟩
  | counted j fd | failed j fd | sized j fd =>
    obtain ⟨rfl, hpub⟩ := hat
    obtain rfl := Option.some_inj.mp hstep
    exact ⟨c, .stay h hp .unlock ⟨rfl, hpub⟩ (.inl rfl)⟩
  | received j fd message =>
    obtain ⟨rfl, hpub⟩ := hat
    obtain rfl := Option.some_inj.mp hstep
    rw [if_neg (by rw [h.used]; decide)]
    exact ⟨c, .stay h hp (.refl _) ⟨rfl, hpub⟩ (.inl rfl)⟩
  | checked j fd | leaving j fd =>
    obtain ⟨rfl, hpub⟩ := hat
    obtain ⟨m', hlock, rfl⟩ := Option.map_eq_some_iff.mp hstep
    exact ⟨c, .stay h hp (.lock hlock) ⟨rfl, hpub⟩ (.inl rfl)⟩
  | writing j fd message =>
    obtain ⟨rfl, -⟩ := hat
    exact publish_moves h hp hsession hstep
  | written j fd ret =>
    obtain ⟨rfl, -⟩ := hat
    exact size_moves h hp hstep
  | unlocked j fd =>
    obtain ⟨rfl, hpub⟩ := hat
    obtain rfl := Option.some_inj.mp hstep
    exact ⟨c, .stay h hp (.refl _) ⟨rfl, hpub⟩ (.inl rfl)⟩
  | lockedToLeave j fd =>
    obtain ⟨rfl, -⟩ := hat
    exact retire_moves h hp hstep
  | uncounted j fd =>
    obtain ⟨rfl, hreader⟩ := hat
    obtain rfl := Option.some_inj.mp hstep
    exact ⟨c, .stay h hp .unlock hreader (.inl rfl)⟩
  | left fd =>
    obtain ⟨⟨ret, tfs⟩, hclose, rfl⟩ := Option.map_eq_some_iff.mp hstep
    rw [Outcome.toOption_eq_some] at hclose
    exact close_moves h (by rw [hp]; rfl) hat hclose (by rw [hp]; rfl) (by rw [hp]; rfl)
      (fun _ => trivial) rfl ⟨rfl, rfl⟩ (by rintro _ _ ⟨⟩)
  | waiting => cases hstep

end Publishers

/-! ### Every step -/

/-- What a publisher does. -/
theorem step_publisher {q : PublisherPc} {a : Act} (h : step m (.publisher q) a = some r) :
    publisherStep m q = some r ∨ ∃ i fd message, q = .waiting i fd ∧
      r = ⟨m, .publisher (match message with
        | some message => .received i fd message
        | none => .leaving i fd), .none⟩ := by
  cases a with
  | go => exact .inl (by cases q <;> exact h)
  | receive message =>
    cases q with
    | waiting i fd => exact .inr ⟨i, fd, message, rfl, (Option.some_inj.mp h).symm⟩
    | _ => cases h
  | accept | send => cases q <;> cases h

/-- What a subscriber does. -/
theorem step_subscriber {q : SubscriberPc} {a : Act} (h : step m (.subscriber q) a = some r) :
    subscriberStep m q = some r ∨ ∃ i fd n buffer ok, q = .sending i fd n buffer ∧ a = .send ok ∧
      r = if ok then ⟨m, .subscriber (.sent i fd n), .deliver buffer⟩
        else ⟨m, .subscriber (.leaving i fd), .none⟩ := by
  cases a with
  | go => exact .inl (by cases q <;> exact h)
  | send ok =>
    cases q with
    | sending i fd n buffer =>
      exact .inr ⟨i, fd, n, buffer, ok, rfl, rfl, (Option.some_inj.mp h).symm⟩
    | _ => cases h
  | accept | receive => cases q <;> cases h

namespace Linked

theorem accept_moves (h : Linked i k x c) (hp : x.pc e.thread = .idle) {opCode : ℕ}
    {boxName : CString} (hop : opCode = registerPublisherOp ∨ opCode = registerSubscriberOp)
    (hbox : getBox x.broker.mbrokerBoxes boxName = some i) :
    Moves i k x e (accept x.broker opCode boxName) c c := by
  rcases hop with rfl | rfl
  · have haccept : accept x.broker registerPublisherOp boxName =
        ⟨x.broker, .publisher (.found i), .none⟩ := by
      unfold accept
      simp only [if_true, hbox]
    rw [haccept]
    exact .stay h hp (.refl _) rfl (.inl rfl)
  · have haccept : accept x.broker registerSubscriberOp boxName =
        ⟨x.broker, .subscriber (.found i), .none⟩ := by
      unfold accept
      simp only [registerPublisherOp, registerSubscriberOp, hbox]
      rfl
    rw [haccept]
    exact .stay h hp (.refl _) rfl (.inl rfl)

/-- Every step of a session keeps the threads and the channel in agreement. -/
theorem next (h : Linked i k x c) (hsession : OfSession i x e) (hlate : NoLateWait i x e)
    (hnext : x.next e = some y) : ∃ c', Linked i k y c' := by
  obtain ⟨r, hs, hother⟩ := Sys.dated_next hnext (h.threads e.thread).enters
  have hstep : step x.broker (x.pc e.thread) e.act = some r := hs.step
  have hat := h.threads e.thread
  suffices hmoves : ∃ c', Moves i k x e r c c' from
    hmoves.imp fun c' hm => h.of_moves hs hother hm
  cases hp : x.pc e.thread with
  | create | delete =>
    rw [hp] at hat
    exact hat.elim
  | idle =>
    rw [hp] at hstep
    cases hact : e.act with
    | accept opCode boxName =>
      rw [hact] at hstep
      obtain rfl := Option.some_inj.mp hstep
      obtain ⟨hop, hbox⟩ := hsession.accepts opCode boxName hact
      exact ⟨c, h.accept_moves hp hop hbox⟩
    | receive | send | go =>
      rw [hact] at hstep
      cases hstep
  | publisher q =>
    rw [hp] at hstep hat
    rcases step_publisher hstep with hgo | ⟨j, fd, message, rfl, rfl⟩
    · exact publisherStep_moves h hp hgo hsession
    · obtain ⟨rfl, hpub⟩ := hat
      cases message with
      | none => exact ⟨c, .stay h hp (.refl _) ⟨rfl, hpub⟩ (.inl rfl)⟩
      | some => exact ⟨c, .stay h hp (.refl _) ⟨rfl, hpub⟩ (.inl rfl)⟩
  | subscriber q =>
    rw [hp] at hstep hat
    rcases step_subscriber hstep with hgo | ⟨j, fd, n, buffer, ok, rfl, -, rfl⟩
    · exact subscriberStep_moves h hp hgo hlate
    · obtain ⟨rfl, hreader⟩ := hat
      cases ok with
      | false => exact ⟨c, .stay h hp (.refl _) ⟨rfl, n, hreader⟩ (.inl rfl)⟩
      | true => exact ⟨c, .stay h hp (.refl _) ⟨rfl, hreader⟩ (.inl rfl)⟩

end Linked

/-! ### Whole runs -/

theorem JustCreated.linked (h : JustCreated i x) : ∃ k c, Linked i k x c := by
  obtain ⟨hstart, hpc⟩ := h
  obtain ⟨k, hframed⟩ := hstart.framed
  obtain ⟨name, hbox⟩ := hstart.box_eq
  dsimp only at hbox
  have hrole : ∀ role : Pc → Option ℕ, role .idle = none → x.dated.registered role i = 0 := by
    intro role hidle
    refine Dated.registered_eq_zero fun t ht => ?_
    rw [Sys.dated, hpc, hidle] at ht
    cases ht
  refine ⟨k, _, hframed, rfl, rfl, by rw [hbox], fun _ => rfl, ?_, ?_, ?_,
    fun hne => absurd rfl hne, ?_, fun t _ => by rw [hpc], ⟨?_, ?_, ?_⟩, ⟨?_, ?_, ?_, ?_⟩⟩
  · simp [hpc, Pc.adds]
  · simp [hpc, Pc.At]
  · simp [hpc, Pc.handle]
  · simp [hpc]
  · simp [Sys.dated, hpc, Pc.holds]
  · simp [Sys.dated, hpc, Pc.holds]
  · simp [Sys.dated, hpc, Pc.holds]
  · rw [Dated.publishers, hrole _ rfl, Sys.dated, hbox]
  · rw [Dated.subscribers, hrole _ rfl, Sys.dated, hbox]
  · rw [Sys.dated, hbox]
    exact Nat.zero_le 1
  · simp [Sys.dated, hpc, Pc.admits]

/-- In every state the channel and the threads agree. -/
theorem linked_of_reach
    (h : Reach Sys.next (JustCreated i) (fun x e => OfSession i x e ∧ NoLateWait i x e) x) :
    ∃ k c, Linked i k x c := by
  induction h with
  | init hx => exact hx.linked
  | step _ hok hnext ih =>
    obtain ⟨k, c, hc⟩ := ih
    exact ⟨k, hc.next hok.1 hok.2 hnext⟩

/-- A subscriber of the system stays in its loop while its pipe is open. -/
theorem Linked.stays (h : Linked i k x c) (hnext : x.next e = some y)
    (hserves : (x.pc e.thread).serves = true) (hopen : e.act ≠ .send false) :
    (y.pc e.thread).serves = true := by
  obtain ⟨r, hstep, -, hself, -⟩ := Sys.next_eq_some hnext
  rw [hself]
  have hat := h.threads e.thread
  cases hp : x.pc e.thread with
  | idle | create | delete | publisher =>
    rw [hp] at hserves
    cases hserves
  | subscriber q =>
    rw [hp] at hserves hstep hat
    rcases step_subscriber hstep with hgo | ⟨j, fd, n, buffer, ok, rfl, hact, rfl⟩
    · cases q with
      | looping | woken =>
        obtain ⟨m', -, rfl⟩ := Option.map_eq_some_iff.mp hgo
        rfl
      | looking =>
        simp only [subscriberStep] at hgo
        split at hgo <;> obtain rfl := Option.some_inj.mp hgo <;> rfl
      | reading j fd n =>
        -- there is a message to read
        obtain ⟨rfl, -⟩ := hat
        obtain ⟨⟨ret, buffer, tfs⟩, hread, rfl⟩ := Option.map_eq_some_iff.mp hgo
        rw [Outcome.toOption_eq_some] at hread
        obtain ⟨message, s', hmessage⟩ := h.readMessage_next hp
        rw [hread] at hmessage
        obtain ⟨rfl, -⟩ := Prod.mk.inj (Outcome.ret.inj hmessage)
        have hret : (message.strlen : ℤ) + 1 ≠ -1 := by omega
        simp only [hret, if_false]
        rfl
      | read j =>
        obtain ⟨rfl, -⟩ := hat
        obtain rfl := Option.some_inj.mp hgo
        rw [if_neg (by rw [h.used]; decide)]
        rfl
      | sent =>
        obtain rfl := Option.some_inj.mp hgo
        rfl
      | asleep | sending => cases hgo
      | _ => cases hserves
    · cases ok with
      | true => rfl
      | false => exact absurd hact hopen

/-- When no subscriber falls asleep while a publisher has unlocked the box and not yet broadcast,
every subscriber that is about to read finds a whole message, and stays in its loop as long as
its client keeps the pipe open. -/
theorem subscribers_served
    (h : Reach Sys.next (JustCreated i) (fun x e => OfSession i x e ∧ NoLateWait i x e) x) :
    StaysServed i x := by
  obtain ⟨k, c, hc⟩ := linked_of_reach h
  exact ⟨fun _ _ _ => hc.readMessage_next, fun _ _ => hc.stays⟩

/-- The box `a` was just created, and there are two worker threads. -/
private def twoSessions : Sys := ⟨2, two_le_intMax, .created, fun _ => .idle⟩

private theorem justCreated_twoSessions : JustCreated 0 twoSessions := by
  refine ⟨?_, rfl⟩
  simp only [twoSessions]
  exact start_created

/-- The name of the box. -/
private def servedBox : CString := Wire.ofArray [97]

/-- The test of `OfSession`. -/
private def sessionCheck (x : Sys) (e : Turn) : Bool :=
  (match e.act with
    | .accept opCode boxName =>
      (opCode == registerPublisherOp || opCode == registerSubscriberOp) &&
        getBox x.broker.mbrokerBoxes boxName == some 0
    | _ => true) &&
  match x.pc e.thread with
  | .publisher (.writing 0 _ message) =>
    decide (message.strlen < messageLength) &&
      match tfsLookup x.broker.tfs (some (x.broker.mbrokerBoxes 0).name) rootDirInum with
      | .ret k =>
        decide ((x.broker.tfs.inodeTable k.toNat).iSize + message.strlen < x.broker.tfs.blockSize)
      | _ => true
  | _ => true

private theorem ofSession_of_check (h : sessionCheck x e = true) : OfSession 0 x e := by
  obtain ⟨haccept, hwriting⟩ := Bool.and_eq_true_iff.mp h
  constructor
  · intro opCode boxName hact
    rw [hact] at haccept
    simpa using haccept
  · intro fd message k hp hlookup
    rw [hp] at hwriting
    simp only [hlookup] at hwriting
    simpa using hwriting

/-- The test of `NoLateWait`. -/
private def noLateWaitCheck (x : Sys) (e : Turn) : Bool :=
  match x.pc e.thread with
  | .subscriber (.looking 0 _ _) => (List.range x.maxSessions).all fun t =>
    match x.pc t with
    | .publisher (.unlocked _ _) => false
    | _ => true
  | _ => true

private theorem noLateWait_of_check (h : noLateWaitCheck x e = true) : NoLateWait 0 x e := by
  intro fd totalRead hp _ t ht fd' ht'
  rw [noLateWaitCheck, hp] at h
  have hall := List.all_eq_true.mp h t (List.mem_range.mpr ht)
  rw [ht'] at hall
  cases hall

/-- The message `hi`. -/
private def hiMessage : CString := Wire.ofArray [104, 105]

/-- A subscriber falls asleep, is woken by the broadcast after the first message, and is about to
read it. -/
theorem subscribers_served_woken : ∃ x,
    Reach Sys.next (JustCreated 0) (fun x e => OfSession 0 x e ∧ NoLateWait 0 x e) x ∧
    x.pc 1 = .subscriber (.reading 0 1 0) ∧ StaysServed 0 x := by
  obtain ⟨x, hreach, hx⟩ := exists_reach_of_runList Sys.next
    (fun x e => OfSession 0 x e ∧ NoLateWait 0 x e)
    (fun x e => sessionCheck x e && noLateWaitCheck x e)
    (fun _ _ h => ⟨ofSession_of_check (Bool.and_eq_true_iff.mp h).1,
      noLateWait_of_check (Bool.and_eq_true_iff.mp h).2⟩)
    [⟨0, .accept 1 servedBox⟩, ⟨0, .go⟩, ⟨0, .go⟩, ⟨0, .go⟩, ⟨0, .go⟩, ⟨0, .go⟩,
      ⟨1, .accept 2 servedBox⟩, ⟨1, .go⟩, ⟨1, .go⟩, ⟨1, .go⟩, ⟨1, .go⟩, ⟨1, .go⟩, ⟨1, .go⟩,
      ⟨0, .receive (some hiMessage)⟩, ⟨0, .go⟩, ⟨0, .go⟩, ⟨0, .go⟩, ⟨0, .go⟩, ⟨0, .go⟩, ⟨0, .go⟩,
      ⟨1, .go⟩]
    (fun x => decide (x.pc 1 = .subscriber (.reading 0 1 0))) justCreated_twoSessions
    (by decide +kernel)
  exact ⟨x, hreach, of_decide_eq_true hx, subscribers_served hreach⟩

/-- The publisher unlocks the box, the subscriber reads the message and falls asleep, and then the
publisher broadcasts: the subscriber reads again, and finds nothing. -/
theorem late_broadcast_drops :
    ¬ ∀ i x, Reach Sys.next (JustCreated i) (OfSession i) x → StaysServed i x := by
  intro hall
  obtain ⟨x, hreach, hx⟩ := exists_reach_of_runList Sys.next (OfSession 0) sessionCheck
    (fun _ _ => ofSession_of_check)
    [⟨0, .accept 1 servedBox⟩, ⟨0, .go⟩, ⟨0, .go⟩, ⟨0, .go⟩, ⟨0, .go⟩, ⟨0, .go⟩,
      ⟨1, .accept 2 servedBox⟩, ⟨1, .go⟩, ⟨1, .go⟩, ⟨1, .go⟩, ⟨1, .go⟩,
      ⟨0, .receive (some hiMessage)⟩, ⟨0, .go⟩, ⟨0, .go⟩, ⟨0, .go⟩, ⟨0, .go⟩, ⟨0, .go⟩,
      ⟨1, .go⟩, ⟨1, .go⟩, ⟨1, .go⟩, ⟨1, .go⟩, ⟨1, .send true⟩, ⟨1, .go⟩, ⟨1, .go⟩, ⟨1, .go⟩,
      ⟨0, .go⟩, ⟨1, .go⟩]
    (fun x => decide (x.pc 1 = .subscriber (.reading 0 1 3)) &&
      (readMessage x.broker.tfs 1).toOption.any fun r => r.1 == -1)
    justCreated_twoSessions (by decide +kernel)
  obtain ⟨hp, hread⟩ := Bool.and_eq_true_iff.mp hx
  obtain ⟨message, s', hmessage⟩ := (hall 0 x hreach).reads 1 1 3 (of_decide_eq_true hp)
  rw [hmessage] at hread
  have hret : (message.strlen : ℤ) + 1 = -1 := by simpa [Outcome.toOption] using hread
  omega

end TfsBroker.Mbroker
