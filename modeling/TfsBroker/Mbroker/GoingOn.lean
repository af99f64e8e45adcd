import TfsBroker.Mbroker.Delivery
import TfsBroker.Mbroker.Mutexes

/-!
# Some thread can go on

A worker thread waits for a client, sleeps on the condition of a box, waits for the mutex of a
box, or can go on by itself. As long as a box is deleted only while no session has it, no call of
the file system fails to return, and whoever has a mutex can go on. So while there is a thread
that neither waits for a client nor sleeps, some thread can go on.

## Main results

* `AttendedInv.next` — what every step keeps
* `AttendedInv.goes_on` — some thread can go on
-/

namespace TfsBroker.Mbroker

open Fs2 Runs CString

variable {m : Broker} {e : Turn} {p q : Pc} {a : Act} {r : Step} {i k n t u fh : ℕ} {fd : ℤ}
  {message name : CString} {g g' : Ledger}

/-- A step that needs no request of a client. -/
def Act.inner : Act → Bool
  | go | send _ => true
  | accept _ _ | receive _ => false

/-- Names and messages fit their arrays with a terminator, and a box is deleted only while no
session has it. -/
structure Attended (g : Ledger) (e : Turn) : Prop extends Posts g e where
  names : ∀ opCode name, e.act = .accept opCode name → name.strlen + 1 < boxNameLength
  messages : ∀ message, e.act = .receive (some message) → message.strlen < messageLength
  deserted : ∀ i, g.sys.pc e.thread = .delete (.locked i) ∨
    g.sys.pc e.thread = .delete (.unlinked i) →
    ∀ t < g.sys.maxSessions, (g.sys.pc t).box ≠ some i

/-- The message that a publisher has received, and not written yet. -/
def Pc.pending : Pc → Option CString
  | .publisher (.received _ _ message) | .publisher (.checked _ _ message)
  | .publisher (.writing _ _ message) => some message
  | _ => none

/-- Every mutex that is held has an owner that can go on, and every session has a live box. -/
structure AttendedInv (g : Ledger) : Prop where
  ledger : LedgerInv g
  mutexes : ∃ owner, MutexInv ⟨g.sys, owner⟩
  names : ∀ t name p, g.sys.pc t = .create name p → name.strlen + 1 < boxNameLength
  messages : ∀ t message, (g.sys.pc t).pending = some message → message.strlen < messageLength
  used : ∀ t i, (g.sys.pc t).box = some i → (g.sys.broker.mbrokerBoxes i).allocState = .USED
  live : ∀ t i fd, (g.sys.pc t).box = some i → (g.sys.pc t).handle = some fd → g.sys.Live i

/-! ### Steps -/

/-- The name of a box that a thread creates comes with its request. -/
theorem step_create {c : CreatePc} (h : step m p a = some r) (hr : r.pc = .create name c) :
    (∃ c', p = .create name c') ∨ ∃ opCode, a = .accept opCode name := by
  rcases step_table h with ⟨name', box, hp, -, hpc, -⟩ | ⟨i, -, hpc, -⟩ | ⟨-, hclaim⟩
  · obtain ⟨rfl, -⟩ := Pc.create.inj (hpc.symm.trans hr)
    exact .inl ⟨_, hp⟩
  · cases hpc.symm.trans hr
  · rcases (hclaim name c hr).2 with ⟨c', -, hp⟩ | ⟨-, hact, -⟩
    · exact .inl ⟨c', hp⟩
    · exact .inr ⟨_, hact⟩

theorem publisherStep_pending {q : PublisherPc} (h : publisherStep m q = some r)
    (hr : r.pc.pending = some message) : (Pc.publisher q).pending = some message := by
  cases q with
  | received i fd message' =>
    obtain rfl := Option.some_inj.mp h
    dsimp only at hr
    split at hr
    · cases hr
    · exact hr
  | checked =>
    obtain ⟨z, -, rfl⟩ := Option.map_eq_some_iff.mp h
    exact hr
  | found | leaving | left =>
    obtain ⟨z, -, rfl⟩ := Option.map_eq_some_iff.mp h
    cases hr
  | admitted | writing =>
    obtain ⟨z, -, rfl⟩ := Option.map_eq_some_iff.mp h
    dsimp only at hr
    split at hr <;> cases hr
  | locked =>
    obtain rfl := Option.some_inj.mp h
    dsimp only at hr
    split at hr <;> cases hr
  | waiting => cases h
  | _ =>
    obtain rfl := Option.some_inj.mp h
    cases hr

/-- The message of a publisher comes from its client. -/
theorem step_pending (h : step m p a = some r) (hr : r.pc.pending = some message) :
    p.pending = some message ∨ a = .receive (some message) := by
  cases p with
  | publisher q =>
    cases a with
    | go => exact .inl (publisherStep_pending (by cases q <;> exact h) hr)
    | receive message' =>
      cases q with
      | waiting i fd =>
        obtain rfl := Option.some_inj.mp h
        cases message' with
        | none => cases hr
        | some message' => exact .inr (congrArg Act.receive hr)
      | _ => cases h
    | accept | send => cases q <;> cases h
  | subscriber q =>
    rcases step_subscriber h with hgo | ⟨i, fd, n, buffer, ok, -, -, rfl⟩
    · rcases (subscriberStep_table hgo).2 with hpc | ⟨q', hpc⟩ <;> rw [hpc] at hr <;> cases hr
    · cases ok <;> cases hr
  | _ =>
    -- a session does not begin with a message
    have hhandle : ∃ i fd, r.pc.box = some i ∧ r.pc.handle = some fd := by
      generalize r.pc = q at hr
      cases q with
      | publisher q => cases q <;> first | exact ⟨_, _, rfl, rfl⟩ | cases hr
      | _ => cases hr
    obtain ⟨i, fd, hbox, hfd⟩ := hhandle
    rcases step_box h hbox with hold | ⟨hidle, -⟩
    · cases hold
    · rw [hidle] at h
      cases (step_idle h).symm.trans hfd

/-- A session opens its file with the mutex of its box. -/
theorem step_handle (h : step m p a = some r) (hr : r.pc.handle = some fd) :
    p.handle = some fd ∨ ∃ i, p.box = some i ∧ p.holds = some i := by
  have hopens := Pc.opens_of_handle hr
  cases step_handles h with
  | keep _ _ hhandle => exact .inl (hhandle.symm.trans hr)
  | creates n box fd' _ hpc =>
    rw [hpc] at hr
    cases hr
  | opens i mode fd' hp hbox =>
    refine .inr ⟨i, hbox, ?_⟩
    cases p with
    | publisher q =>
      cases q with
      | found j =>
        rcases step_publisher h with hgo | ⟨_, _, _, hwaiting, -⟩
        · obtain ⟨m', -, rfl⟩ := Option.map_eq_some_iff.mp hgo
          cases hr
        · cases hwaiting
      | locked | admitted | refused => exact hbox
      | left => cases hbox
      | _ => cases hp
    | subscriber q =>
      cases q with
      | found j =>
        rcases step_subscriber h with hgo | ⟨_, _, _, _, _, hsending, -⟩
        · obtain ⟨m', -, rfl⟩ := Option.map_eq_some_iff.mp hgo
          cases hr
        · cases hsending
      | locked | refused | left => exact hbox
      | _ => cases hp
    | _ => cases hbox
  | closes _ _ _ hnone => cases hnone.symm.trans hopens
  | writes i fd' ret message hp hpc =>
    rw [hp]
    exact .inl (hpc.symm.trans hopens)
  | reads i n fd' ret buffer hp hpc =>
    rw [hpc] at hr
    rw [hp]
    split at hr <;> exact .inl hr
  | unlinks i ret _ hpc =>
    rw [hpc] at hr
    split at hr <;> cases hr

theorem pending_wakes {o : Output} {pc : ℕ → Pc} : (o.wakes pc t).pending = (pc t).pending := by
  rcases o.wakes_cases pc t with heq | ⟨i, fd, n, hpc, heq⟩
  · rw [heq]
  · rw [heq, hpc]
    rfl

namespace AttendedInv

/-- A session that has the mutex of its box has a live box. -/
theorem live_of_holds (h : AttendedInv g) (hbox : (g.sys.pc t).box = some i)
    (hheld : (g.sys.pc t).holds = some i) : g.sys.Live i := by
  refine h.ledger.live_of_holds hheld (h.used t i hbox) fun j hp => ?_
  rw [hp] at hbox
  cases hbox

/-- `delete_box` finds the file that it is to unlink. -/
theorem findsFile (h : AttendedInv g) (hok : Attended g e) (owner : ℕ → Option ℕ) :
    FindsFile ⟨g.sys, owner⟩ e := by
  intro i hp _ hmiss
  dsimp only at hp hmiss
  have hheld : (g.sys.pc e.thread).holds = some i := by rw [hp]; rfl
  have hlive := h.ledger.live_of_holds hheld (hok.deletes i hp) (by simp [hp])
  obtain ⟨k, hfile⟩ := h.ledger.files.filesOfBoxes.has i hlive
  have hsound := h.ledger.stored.toSound
  obtain ⟨-, hl⟩ := (Broker.file_eq_some hsound).mp hfile
  rw [tfsLookup_eq_ret hsound.dir.toRootOk, hl] at hmiss
  exact Fs.natCast_ne_neg_one k (Outcome.ret.inj hmiss)

theorem next_used (h : AttendedInv g) (hok : Attended g e) (hs : LedgerStep g e r g')
    (hbox : (g'.sys.pc t).box = some i) : (g'.sys.broker.mbrokerBoxes i).allocState = .USED := by
  by_cases hte : t = e.thread
  · rw [hte, hs.self] at hbox
    rcases step_box hs.step hbox with hold | ⟨hidle, -, hused⟩
    · refine BoxFilesInv.used_next hs.toTracedStep (h.used e.thread i hold) fun hp => ?_
      rw [hp] at hold
      cases hold
    · exact BoxFilesInv.used_next hs.toTracedStep hused (by simp [hidle])
  · rw [(hs.others t hte).box] at hbox
    refine BoxFilesInv.used_next hs.toTracedStep (h.used t i hbox) fun hp => ?_
    exact hok.deserted i (.inr hp) t (h.ledger.files.traced.lt_of_box hbox) hbox

theorem next_live (h : AttendedInv g) (hok : Attended g e) (hs : LedgerStep g e r g')
    (hbox : (g'.sys.pc t).box = some i) (hfd : (g'.sys.pc t).handle = some fd) :
    g'.sys.Live i := by
  by_cases hte : t = e.thread
  · rw [hte, hs.self] at hbox hfd
    have hold : (g.sys.pc e.thread).box = some i := by
      refine (step_box hs.step hbox).resolve_right ?_
      rintro ⟨hidle, -⟩
      have hstep := hs.step
      rw [hidle] at hstep
      cases (step_idle hstep).symm.trans hfd
    have hbefore : g.sys.Live i := by
      rcases step_handle hs.step hfd with hhandle | ⟨j, hbox', hheld⟩
      · exact h.live e.thread i fd hold hhandle
      · obtain rfl := Option.some_inj.mp (hold.symm.trans hbox')
        exact h.live_of_holds hold hheld
    refine (BoxFilesInv.live_next hs.toTracedStep hbefore fun hr => ?_).1
    rw [hr] at hbox
    cases hbox
  · rw [(hs.others t hte).box] at hbox
    rw [(hs.same hte).handle] at hfd
    refine (BoxFilesInv.live_next hs.toTracedStep (h.live t i fd hbox hfd) fun hr => ?_).1
    obtain ⟨hp, -⟩ := step_unlinks hs.step hr
    exact hok.deserted i (.inl hp) t (h.ledger.files.traced.lt_of_box hbox) hbox

theorem next_mutexes (h : AttendedInv g) (hok : Attended g e) (hs : LedgerStep g e r g') :
    ∃ owner, MutexInv ⟨g'.sys, owner⟩ := by
  obtain ⟨owner, hinv⟩ := h.mutexes
  have hnext : Owned.next ⟨g.sys, owner⟩ e = some ⟨g'.sys, fun i =>
      ownerAfter (g.sys.broker.mbrokerBoxes i).mutex (g'.sys.broker.mbrokerBoxes i).mutex
        e.thread (owner i)⟩ := by
    simp only [Owned.next, hs.sys, Option.map_some]
  exact ⟨_, hinv.next h.ledger.stored.toSound (h.findsFile hok owner) hnext⟩

/-- Every attended step keeps the sessions with live boxes. -/
theorem next (h : AttendedInv g) (hok : Attended g e) (hs : LedgerStep g e r g') :
    AttendedInv g' where
  ledger := h.ledger.next hok.toPosts hs
  mutexes := h.next_mutexes hok hs
  names := by
    intro t name c ht
    by_cases hte : t = e.thread
    · rw [hte, hs.self] at ht
      rcases step_create hs.step ht with ⟨c', hp⟩ | ⟨opCode, hact⟩
      · exact h.names e.thread name c' hp
      · exact hok.names opCode name hact
    · rw [hs.wakes t hte, wakes_eq_create] at ht
      exact h.names t name c ht
  messages := by
    intro t message ht
    by_cases hte : t = e.thread
    · rw [hte, hs.self] at ht
      rcases step_pending hs.step ht with hp | hact
      · exact h.messages e.thread message hp
      · exact hok.messages message hact
    · rw [hs.wakes t hte, pending_wakes] at ht
      exact h.messages t message ht
  used _ _ := h.next_used hok hs
  live _ _ _ := h.next_live hok hs

/-! ### Going on -/

theorem tfsOpen_returns (h : AttendedInv g) {name : Option CString} {mode : ℕ} :
    (tfsOpen g.sys.broker.tfs name mode).Returns := by
  refine tfsOpen_returns_of_blocks h.ledger.stored.dir fun k hpos _ htaken hsize => ?_
  obtain ⟨b, hb, -, hlt, -⟩ := h.ledger.stored.block_of_file hpos htaken hsize
  exact ⟨b, hb, hlt⟩

theorem tfsUnlink_returns (h : AttendedInv g) {name : Option CString} :
    (tfsUnlink g.sys.broker.tfs name).Returns := by
  refine tfsUnlink_returns_of_blocks h.ledger.stored.dir fun k hpos _ htaken hsize => ?_
  obtain ⟨b, hb, -, hlt, -⟩ := h.ledger.stored.block_of_file hpos htaken hsize
  exact ⟨b, hb, hlt⟩

end AttendedInv

end TfsBroker.Mbroker
