import TfsBroker.Mbroker.GoingOn

/-!
# What a publisher sends is what its box gets

Beside the messages of the boxes stand those that each session has received from its client. A
publisher writes what it receives, one message after the other, and no other thread writes to its
box. So the messages that it has received are the last ones of its box, in order, except for the
one that it has not written yet.

## Main results

* `step_relays` — how a publisher comes to be in its loop
* `JournalInv.next` — what every step keeps
-/

namespace TfsBroker.Mbroker

open Fs2 Runs CString

variable {m : Broker} {e : Turn} {p q : Pc} {a : Act} {r : Step} {i j n t : ℕ} {fd : ℤ}
  {message : CString}

/-! ### The system -/

/-- The message that a step takes from the pipe of a publisher. -/
def Act.taken : Act → Option CString
  | receive message => message
  | go | send _ | accept _ _ => none

/-- The ledger, with the messages that each session has received from its client. -/
structure Journal extends Ledger where
  received : ℕ → List CString

/-- What the session of the thread has received after a step. A session begins with a request. -/
def Journal.receives (g : Journal) (e : Turn) : List CString :=
  if g.sys.pc e.thread = .idle then [] else g.received e.thread ++ e.act.taken.toList

/-- A step of the system. -/
def Journal.next (g : Journal) (e : Turn) : Option Journal :=
  (g.toLedger.next e).map fun y => {
    toLedger := y
    received := Function.update g.received e.thread (g.receives e) }

/-- The broker was just started. -/
def Journal.Initial (g : Journal) : Prop := g.toLedger.Initial

/-- The slot of the box of a publisher that has not left its loop. -/
def Pc.relays : Pc → Option ℕ
  | .publisher (.opened i _) | .publisher (.counted i _) | .publisher (.waiting i _)
  | .publisher (.received i _ _) | .publisher (.checked i _ _) | .publisher (.writing i _ _)
  | .publisher (.written i _ _) | .publisher (.sized i _) | .publisher (.unlocked i _) => some i
  | _ => none

/-- The messages that a publisher has received are the last ones of its box, and the one that it
has not written yet. -/
structure JournalInv (g : Journal) : Prop where
  ledger : LedgerInv g.toLedger
  fresh : ∀ t i, g.sys.pc t = .publisher (.found i) ∨ g.sys.pc t = .publisher (.locked i) ∨
    g.sys.pc t = .publisher (.admitted i) → g.received t = []
  written : ∀ t i, g.sys.Live i → (g.sys.pc t).relays = some i →
    ∃ earlier later, g.posted i = earlier ++ later ∧
      later ++ (g.sys.pc t).pending.toList = g.received t

/-! ### Steps -/

theorem Pc.of_relays (h : p.relays = some i) : p.box = some i ∧ p.writes = true := by
  cases p with
  | publisher q => cases q <;> first | exact ⟨h, rfl⟩ | cases h
  | _ => cases h

/-- How a thread comes to be a publisher in its loop: it enters the loop, takes a message from its
pipe, writes it, or has the message that it had. -/
inductive Relays (p : Pc) (a : Act) (q : Pc) (i : ℕ) : Prop
  | enters : p = .publisher (.admitted i) → q.pending = none → a.taken = none →
      Relays p a q i
  | takes (message : CString) : p.relays = some i → p.pending = none → q.pending = some message →
      a.taken = some message → p.posts q = none → Relays p a q i
  | writes (message : CString) : p.relays = some i → p.pending = some message →
      q.pending = none → a.taken = none → p.posts q = some (i, message) → Relays p a q i
  | keeps : p.relays = some i → q.pending = p.pending → a.taken = none → p.posts q = none →
      Relays p a q i

theorem publisherStep_relays {c : PublisherPc} (h : publisherStep m c = some r)
    (hr : r.pc.relays = some i) : Relays (.publisher c) .go r.pc i := by
  cases c with
  | admitted =>
    obtain ⟨z, -, rfl⟩ := Option.map_eq_some_iff.mp h
    dsimp only at hr ⊢
    split at hr
    · cases hr
    · rename_i hfd
      obtain rfl := Option.some_inj.mp hr
      rw [if_neg hfd]
      exact .enters rfl rfl rfl
  | writing j fd message =>
    obtain ⟨z, -, rfl⟩ := Option.map_eq_some_iff.mp h
    dsimp only at hr ⊢
    split at hr
    · cases hr
    · rename_i hret
      rw [if_neg hret]
      obtain rfl := Option.some_inj.mp hr
      exact .writes message rfl rfl rfl rfl rfl
  | received =>
    obtain rfl := Option.some_inj.mp h
    dsimp only at hr ⊢
    split at hr
    · cases hr
    · rename_i hstate
      rw [if_neg hstate]
      exact .keeps hr rfl rfl rfl
  | checked =>
    obtain ⟨z, -, rfl⟩ := Option.map_eq_some_iff.mp h
    exact .keeps hr rfl rfl rfl
  | opened | counted | written | sized | unlocked =>
    obtain rfl := Option.some_inj.mp h
    exact .keeps hr rfl rfl rfl
  | locked =>
    obtain rfl := Option.some_inj.mp h
    dsimp only at hr
    split at hr <;> cases hr
  | found | leaving | left =>
    obtain ⟨z, -, rfl⟩ := Option.map_eq_some_iff.mp h
    cases hr
  | waiting => cases h
  | refused | failed | lockedToLeave | uncounted =>
    obtain rfl := Option.some_inj.mp h
    cases hr

theorem step_relays (h : step m p a = some r) (hr : r.pc.relays = some i) :
    Relays p a r.pc i := by
  cases p with
  | publisher c =>
    cases a with
    | go => exact publisherStep_relays (by cases c <;> exact h) hr
    | receive message =>
      cases c with
      | waiting j fd =>
        obtain rfl := Option.some_inj.mp h
        cases message with
        | none => cases hr
        | some message => exact .takes message hr rfl rfl rfl rfl
      | _ => cases h
    | accept | send => cases c <;> cases h
  | subscriber c =>
    rcases step_subscriber h with hgo | ⟨j, fd, n, buffer, ok, -, -, rfl⟩
    · rcases (subscriberStep_table hgo).2 with hpc | ⟨c', hpc⟩ <;> rw [hpc] at hr <;> cases hr
    · cases ok <;> cases hr
  | _ =>
    -- a session does not begin in its loop
    obtain ⟨hbox, hwrites⟩ := Pc.of_relays hr
    rcases step_box h hbox with hold | ⟨hidle, -⟩
    · cases hold
    · rw [hidle] at h
      have hhandle : ∃ fd, r.pc.handle = some fd := by
        generalize r.pc = q at hr
        cases q with
        | publisher q => cases q <;> first | exact ⟨_, rfl⟩ | cases hr
        | _ => cases hr
      obtain ⟨fd, hfd⟩ := hhandle
      cases (step_idle h).symm.trans hfd

/-- A session that is not yet in its loop has just begun, or was not yet there before. -/
theorem step_unrelayed (h : step m p a = some r) (hr : r.pc = .publisher (.found i) ∨
    r.pc = .publisher (.locked i) ∨ r.pc = .publisher (.admitted i)) :
    p = .idle ∨ a.taken = none ∧
      (p = .publisher (.found i) ∨ p = .publisher (.locked i) ∨ p = .publisher (.admitted i)) := by
  have hbox : r.pc.box = some i := by rcases hr with hr | hr | hr <;> rw [hr] <;> rfl
  rcases step_box h hbox with hold | ⟨hidle, -⟩
  swap
  · exact .inl hidle
  refine .inr ?_
  cases p with
  | publisher c =>
    cases a with
    | go =>
      refine ⟨rfl, ?_⟩
      cases c with
      | found j =>
        obtain rfl := Option.some_inj.mp hold
        exact .inl rfl
      | locked j =>
        obtain rfl := Option.some_inj.mp hold
        exact .inr (.inl rfl)
      | admitted =>
        obtain ⟨z, -, rfl⟩ := Option.map_eq_some_iff.mp h
        dsimp only at hr
        split at hr <;> simp at hr
      | received =>
        obtain rfl := Option.some_inj.mp h
        dsimp only at hr
        split at hr <;> simp at hr
      | writing =>
        obtain ⟨z, -, rfl⟩ := Option.map_eq_some_iff.mp h
        dsimp only at hr
        split at hr <;> simp at hr
      | checked | leaving | left =>
        obtain ⟨z, -, rfl⟩ := Option.map_eq_some_iff.mp h
        simp at hr
      | waiting => cases h
      | _ =>
        obtain rfl := Option.some_inj.mp h
        simp at hr
    | receive message =>
      cases c with
      | waiting j fd =>
        obtain rfl := Option.some_inj.mp h
        cases message <;> simp at hr
      | _ => cases h
    | accept | send => cases c <;> cases h
  | subscriber c =>
    rcases step_subscriber h with hgo | ⟨j, fd, n, buffer, ok, -, -, rfl⟩
    · rcases (subscriberStep_table hgo).2 with hpc | ⟨c', hpc⟩ <;> simp [hpc] at hr
    · cases ok <;> simp at hr
  | idle | create | delete => cases hold

theorem relays_wakes {o : Output} {pc : ℕ → Pc} : (o.wakes pc t).relays = (pc t).relays := by
  rcases o.wakes_cases pc t with heq | ⟨i, fd, n, hpc, heq⟩
  · rw [heq]
  · rw [heq, hpc]
    rfl

/-! ### What every step keeps -/

variable {g g' : Journal}

/-- A step of the system is the step `r` of one thread. -/
structure JournalStep (g : Journal) (e : Turn) (r : Step) (g' : Journal) : Prop
    extends LedgerStep g.toLedger e r g'.toLedger where
  received_self : g'.received e.thread = g.receives e
  received_others : ∀ t ≠ e.thread, g'.received t = g.received t

theorem Journal.next_eq_some (h : g.next e = some g') : ∃ r, JournalStep g e r g' := by
  obtain ⟨y, hnext, rfl⟩ := Option.map_eq_some_iff.mp h
  obtain ⟨r, hs⟩ := Ledger.next_eq_some hnext
  exact ⟨r, hs, Function.update_self _ _ _, fun t ht => Function.update_of_ne ht _ _⟩

namespace JournalInv

/-- A thread in a session keeps what it has received, with what it takes from its pipe. -/
theorem received_eq (hs : JournalStep g e r g') (hne : g.sys.pc e.thread ≠ .idle) :
    g'.received e.thread = g.received e.thread ++ e.act.taken.toList := by
  rw [hs.received_self, Journal.receives, if_neg hne]

theorem next_fresh (h : JournalInv g) (hs : JournalStep g e r g')
    (ht : g'.sys.pc t = .publisher (.found i) ∨ g'.sys.pc t = .publisher (.locked i) ∨
      g'.sys.pc t = .publisher (.admitted i)) : g'.received t = [] := by
  by_cases hte : t = e.thread
  · rw [hte, hs.self] at ht
    rw [hte]
    rcases step_unrelayed hs.step ht with hidle | ⟨htaken, hp⟩
    · rw [hs.received_self, Journal.receives, if_pos hidle]
    · have hne : g.sys.pc e.thread ≠ .idle := by
        rcases hp with hp | hp | hp <;> rw [hp] <;> simp
      rw [received_eq hs hne, htaken, h.fresh e.thread i hp]
      rfl
  · rw [hs.received_others t hte]
    refine h.fresh t i ?_
    rw [hs.wakes t hte] at ht
    rcases r.output.wakes_cases g.sys.pc t with heq | ⟨j, fd, n, -, heq⟩
    · rwa [heq] at ht
    · simp [heq] at ht

/-- The publisher of a box that goes on writes what it receives. -/
theorem next_self (h : JournalInv g) (hok : Posts g.toLedger e) (hs : JournalStep g e r g')
    (hlive : g'.sys.Live i) (ht : r.pc.relays = some i) :
    ∃ earlier later, g'.posted i = earlier ++ later ∧
      later ++ r.pc.pending.toList = g'.received e.thread := by
  have hold := h.ledger.old_of_box_self hok hs.toLedgerStep (Pc.of_relays ht).1
  have hbefore := LedgerInv.live_before hs.toLedgerStep hlive hold
  have hsame : (g.sys.pc e.thread).posts r.pc = none → g'.posted i = g.posted i := by
    intro hnone
    rw [hs.posted i, Ledger.posts, hnone]
    exact if_neg fun hnew => hold hnew.1 hnew.2
  have hne : ∀ i, (g.sys.pc e.thread).relays = some i → g.sys.pc e.thread ≠ .idle := by
    intro i hp hidle
    rw [hidle] at hp
    cases hp
  cases step_relays hs.step ht with
  | enters hp hpending htaken =>
    refine ⟨g'.posted i, [], (List.append_nil _).symm, ?_⟩
    rw [received_eq hs (by rw [hp]; simp), h.fresh e.thread i (.inr (.inr hp)), hpending, htaken]
  | takes message hp hnone hpending htaken hposts =>
    obtain ⟨earlier, later, hposted, hreceived⟩ := h.written e.thread i hbefore hp
    refine ⟨earlier, later, (hsame hposts).trans hposted, ?_⟩
    rw [received_eq hs (hne i hp), ← hreceived, hnone, hpending, htaken, Option.toList_none,
      List.append_nil]
  | writes message hp hwriting hpending htaken hposts =>
    obtain ⟨earlier, later, hposted, hreceived⟩ := h.written e.thread i hbefore hp
    have hposted' : g'.posted i = g.posted i ++ [message] := by
      rw [hs.posted i, Ledger.posts, hposts]
      exact if_pos rfl
    refine ⟨earlier, later ++ [message], ?_, ?_⟩
    · rw [hposted', hposted, List.append_assoc]
    · rw [received_eq hs (hne i hp), ← hreceived, hwriting, hpending, htaken]
      rfl
  | keeps hp hpending htaken hposts =>
    obtain ⟨earlier, later, hposted, hreceived⟩ := h.written e.thread i hbefore hp
    refine ⟨earlier, later, (hsame hposts).trans hposted, ?_⟩
    rw [received_eq hs (hne i hp), ← hreceived, hpending, htaken]
    exact (List.append_nil _).symm

/-- No other thread writes to the box of a publisher. -/
theorem posted_others (h : JournalInv g) (hok : Posts g.toLedger e) (hs : JournalStep g e r g')
    (hte : t ≠ e.thread) (ht : (g.sys.pc t).relays = some i) (hlive : g'.sys.Live i) :
    g.sys.Live i ∧ g'.posted i = g.posted i := by
  obtain ⟨hbox, hwrites⟩ := Pc.of_relays ht
  have hold := h.ledger.old_of_box hok hbox
  have hbefore := LedgerInv.live_before hs.toLedgerStep hlive hold
  refine ⟨hbefore, ?_⟩
  rcases hs.posted_cases i with ⟨message, hposts, -⟩ | ⟨henters, hfree, -⟩ | ⟨-, -, hposted⟩
  · obtain ⟨⟨fd, hp⟩, -⟩ := Pc.posts_eq_some hposts
    exact absurd (h.ledger.writer_unique hwrites hbox (by rw [hp]; rfl) (by rw [hp]; rfl)) hte
  · exact absurd hfree (hold henters)
  · exact hposted

/-- Every step in which the boxes keep their files writes what was received. -/
theorem next (h : JournalInv g) (hok : Posts g.toLedger e) (hs : JournalStep g e r g') :
    JournalInv g' where
  ledger := h.ledger.next hok hs.toLedgerStep
  fresh _ _ := h.next_fresh hs
  written := by
    intro t i hlive ht
    by_cases hte : t = e.thread
    · rw [hte, hs.self] at ht ⊢
      exact h.next_self hok hs hlive ht
    · rw [hs.wakes t hte, relays_wakes] at ht
      obtain ⟨hbefore, hposted⟩ := h.posted_others hok hs hte ht hlive
      rw [hs.wakes t hte, pending_wakes, hs.received_others t hte, hposted]
      exact h.written t i hbefore ht

end JournalInv

/-! ### Whole runs -/

end TfsBroker.Mbroker
