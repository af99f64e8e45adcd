import TfsBroker.Mbroker.Listing
import TfsBroker.Mbroker.UniqueNames

/-!
# A listing beside other requests

`handle_list` reads `box_count` and one slot in each turn of its loop, and takes no lock.
Other threads assign slots, free them and change `box_count` in between, and `box_count`
follows the table some steps later. One call of `handle_list` runs beside the worker threads
here, and one turn of its loop is a step.

The pipe takes every response whole. Whether there was a moment of the call in which no box
was in use is recorded beside the state.

## Main results

* `handleList_listStep` — the turns of an undisturbed call put into the pipe what
  `handleList` does
* `ListInv.next` — what every step keeps
* `listing_terminated` — when the responses end with the one that is flagged
-/

namespace TfsBroker.Mbroker

open Fs2 Runs

/-- Where `handle_list` stands in its loop, and the responses it has sent. -/
structure Lister where
  i : ℕ
  j : ℤ
  sent : List ListManagerResponse
  closed : Bool
  deriving DecidableEq

/-- `handle_list` before its loop. -/
def Lister.start : Lister := ⟨0, 0, [], false⟩

/-- The next turn leaves the loop. -/
def Leaves (m : Broker) (l : Lister) : Prop := l.i = boxCountMax ∨ l.j = m.boxCount

instance (m : Broker) (l : Lister) : Decidable (Leaves m l) := inferInstanceAs (Decidable (_ ∨ _))

/-- The next turn sends a response. -/
def Sends (m : Broker) (l : Lister) : Prop :=
  ¬ Leaves m l ∧ (m.mbrokerBoxes l.i).allocState = .USED

instance (m : Broker) (l : Lister) : Decidable (Sends m l) := inferInstanceAs (Decidable (_ ∧ _))

/-- One turn of the loop of `handle_list`. -/
def listStep (m : Broker) (l : Lister) : Option Lister :=
  if l.closed then none
  else if Leaves m l then some { l with closed := true }
  else
    let box := m.mbrokerBoxes l.i
    if box.allocState = .USED then
      let last := if l.j + 1 = m.boxCount then 1 else 0
      (listManagerResponseInit last box.name box.size box.nPublishers box.nSubscribers).map
        fun resp => { l with i := l.i + 1, j := l.j + 1, sent := l.sent ++ [resp] }
    else some { l with i := l.i + 1 }

/-- No box is in use. -/
def noneUsed (boxes : ℕ → Box) : Bool :=
  (List.range boxCountMax).all fun i => (boxes i).allocState = .NOT_USED

/-- The worker threads, and a call of `handle_list`; `emptied` tells whether there was a
moment of the call in which no box was in use. -/
structure Race where
  sys : Sys
  lister : Lister
  emptied : Bool

/-- A step of a worker thread, or of the listing. -/
inductive RaceEvent
  | turn (e : Turn)
  | list

/-- A step of the system. -/
def Race.next (x : Race) : RaceEvent → Option Race
  | .turn e => (x.sys.next e).map fun sys =>
    ⟨sys, x.lister, x.emptied || !x.lister.closed && noneUsed sys.broker.mbrokerBoxes⟩
  | .list => (listStep x.sys.broker x.lister).map fun lister => { x with lister }

/-- The call begins, with the other threads anywhere in their requests. -/
def Race.Start (x : Race) : Prop :=
  Reachable Sys.next Sys.Initial x.sys ∧ x.lister = .start ∧
    x.emptied = noneUsed x.sys.broker.mbrokerBoxes

/-- What the pipe holds. -/
def Lister.stream (l : Lister) : List UInt8 := l.sent.flatMap ListManagerResponse.toBytes

/-- A turn of the listing finds `box_count` as it needs it: behind a flagged response it sends
no other; it does not leave the loop behind a response without a flag; and if it leaves
without a response, there was a moment without boxes. -/
def Steady (x : Race) : RaceEvent → Prop
  | .turn _ => True
  | .list =>
    match x.lister.sent.getLast? with
    | none => Leaves x.sys.broker x.lister → x.emptied = true
    | some resp =>
      if resp.lastFlag = 1 then ¬ Sends x.sys.broker x.lister
      else ¬ Leaves x.sys.broker x.lister

variable {m : Broker} {l l' : Lister} {x y : Race} {e : RaceEvent}

/-! ### One turn -/

/-- The ways a turn of the loop can go. -/
theorem listStep_cases (h : listStep m l = some l') : l.closed = false ∧
    ((Leaves m l ∧ l' = { l with closed := true }) ∨
      (Sends m l ∧ ∃ resp, resp.boxName.strlen < boxNameLength ∧
        resp.lastFlag = (if l.j + 1 = m.boxCount then 1 else 0) ∧
        l' = { l with i := l.i + 1, j := l.j + 1, sent := l.sent ++ [resp] }) ∨
      (¬ Leaves m l ∧ ¬ Sends m l ∧ l' = { l with i := l.i + 1 })) := by
  unfold listStep at h
  split at h
  · cases h
  rename_i hover
  refine ⟨Bool.eq_false_of_not_eq_true hover, ?_⟩
  split at h
  · rename_i hleaves
    exact .inl ⟨hleaves, (Option.some_inj.mp h).symm⟩
  rename_i hstays
  dsimp only at h
  split at h
  · rename_i hused
    obtain ⟨resp, hinit, rfl⟩ := Option.map_eq_some_iff.mp h
    unfold listManagerResponseInit at hinit
    split at hinit
    · rename_i hname
      obtain rfl := Option.some_inj.mp hinit
      exact .inr (.inl ⟨⟨hstays, hused⟩, _, hname, rfl, rfl⟩)
    · cases hinit
  · rename_i hfree
    exact .inr (.inr ⟨hstays, fun hsends => hfree hsends.2, (Option.some_inj.mp h).symm⟩)

/-- Undisturbed, the turns of the loop send what `handle_list` sends. -/
theorem listLoop_listStep {stream : List UInt8} {k : ℕ} (hover : l.closed = false)
    (hk : l.i + k = boxCountMax)
    (h : listLoop m (fun _ => .whole) (List.range' l.i k) l.j = some stream) :
    ∃ n l', runList (fun l (_ : Unit) => listStep m l) l (List.replicate n ()) = some l' ∧
      l'.closed = true ∧ l'.stream = l.stream ++ stream := by
  induction k generalizing l stream with
  | zero =>
    obtain rfl := Option.some_inj.mp h
    have hleaves : Leaves m l := .inl hk
    refine ⟨1, { l with closed := true }, ?_, rfl, (List.append_nil _).symm⟩
    simp [runList, listStep, hover, hleaves]
  | succ k ih =>
    rw [List.range'_succ] at h
    unfold listLoop at h
    split at h
    · -- all boxes have been sent
      rename_i hdone
      obtain rfl := Option.some_inj.mp h
      have hleaves : Leaves m l := .inr hdone
      refine ⟨1, { l with closed := true }, ?_, rfl, (List.append_nil _).symm⟩
      simp [runList, listStep, hover, hleaves]
    rename_i hmore
    have hstays : ¬ Leaves m l := by
      rintro (hend | hdone)
      · omega
      · exact hmore hdone
    dsimp only at h
    split at h
    · rename_i hused
      obtain ⟨resp, hinit, h⟩ := Option.bind_eq_some_iff.mp h
      rw [if_neg (by simp [listManagerResponseSend])] at h
      obtain ⟨rest, hrest, rfl⟩ := Option.map_eq_some_iff.mp h
      have hstep : listStep m l =
          some { l with i := l.i + 1, j := l.j + 1, sent := l.sent ++ [resp] } := by
        rw [listStep, hover, if_neg Bool.false_ne_true, if_neg hstays]
        dsimp only
        rw [if_pos hused, hinit, Option.map_some]
      obtain ⟨n, l', hrun, hend, hstream⟩ := ih
        (l := { l with i := l.i + 1, j := l.j + 1, sent := l.sent ++ [resp] }) hover
        (by dsimp only; omega) hrest
      refine ⟨n + 1, l', ?_, hend, ?_⟩
      · rw [List.replicate_succ, runList, hstep, Option.bind_some, hrun]
      · rw [hstream]
        simp [Lister.stream, Written.sent]
    · rename_i hfree
      have hstep : listStep m l = some { l with i := l.i + 1 } := by
        rw [listStep, hover, if_neg Bool.false_ne_true, if_neg hstays]
        dsimp only
        rw [if_neg hfree]
      obtain ⟨n, l', hrun, hend, hstream⟩ := ih (l := { l with i := l.i + 1 }) hover
        (by dsimp only; omega) h
      refine ⟨n + 1, l', ?_, hend, hstream⟩
      rw [List.replicate_succ, runList, hstep, Option.bind_some, hrun]

theorem handleList_listStep {stream : List UInt8}
    (h : handleList m (fun _ => .whole) = some stream) : ∃ n l',
      runList (fun l (_ : Unit) => listStep m l) .start (List.replicate n ()) = some l' ∧
      l'.closed = true ∧ l'.stream = stream := by
  rw [handleList, List.range_eq_range'] at h
  exact listLoop_listStep (l := .start) rfl (Nat.zero_add _) h

/-! ### The manager -/

/-- The responses so far, and how the loop was left. -/
structure ListInv (x : Race) : Prop where
  fits : ∀ resp ∈ x.lister.sent, resp.boxName.strlen < boxNameLength
  flag : ∀ resp ∈ x.lister.sent, resp.lastFlag = 0 ∨ resp.lastFlag = 1
  index : x.lister.i ≤ boxCountMax
  room : x.lister.sent.length ≤ x.lister.i
  flags : ∀ resp ∈ x.lister.sent.dropLast, resp.lastFlag = 0
  last : x.lister.closed = true → ∀ resp ∈ x.lister.sent.getLast?, resp.lastFlag = 1
  empty : x.lister.closed = true → x.lister.sent = [] → x.emptied = true

namespace ListInv

theorem next (h : ListInv x) (hok : Steady x e) (hnext : x.next e = some y) : ListInv y := by
  cases e with
  | turn e =>
    obtain ⟨sys, -, rfl⟩ := Option.map_eq_some_iff.mp hnext
    exact { h with
      empty := fun hover hnil => by
        dsimp only at hover hnil ⊢
        rw [h.empty hover hnil, Bool.true_or] }
  | list =>
    obtain ⟨l', hstep, rfl⟩ := Option.map_eq_some_iff.mp hnext
    obtain ⟨hrunning, ⟨hleaves, rfl⟩ | ⟨hsends, resp, hname, hflag, rfl⟩ | ⟨hstays, -, rfl⟩⟩ :=
      listStep_cases hstep
    · -- the loop is left behind a flagged response, or without any
      refine { h with last := fun _ resp hresp => ?_, empty := fun _ hnil => ?_ }
      · change x.lister.sent.getLast? = some resp at hresp
        simp only [Steady, hresp] at hok
        by_contra hflag
        rw [if_neg hflag] at hok
        exact hok hleaves
      · change x.lister.sent = [] at hnil
        simp only [Steady, hnil, List.getLast?_nil] at hok
        exact hok hleaves
    · -- another response: none of those before it is flagged
      have hlt : x.lister.i < boxCountMax :=
        lt_of_le_of_ne h.index fun heq => hsends.1 (.inl heq)
      have hbefore : ∀ resp ∈ x.lister.sent, resp.lastFlag = 0 := by
        intro resp hresp
        rcases List.eq_nil_or_concat x.lister.sent with hnil | ⟨init, last, hconcat⟩
        · rw [hnil] at hresp
          cases hresp
        have hlast : x.lister.sent.getLast? = some last := by
          rw [hconcat, List.concat_eq_append, List.getLast?_concat]
        have hmem : last ∈ x.lister.sent := List.mem_of_getLast? hlast
        have hflags := h.flags
        simp only [Steady, hlast] at hok
        have hzero : last.lastFlag = 0 := by
          refine (h.flag last hmem).resolve_right fun hone => ?_
          rw [if_pos hone] at hok
          exact hok hsends
        rw [hconcat, List.concat_eq_append] at hresp hflags
        rw [List.dropLast_concat] at hflags
        rcases List.mem_append.mp hresp with hinit | hend
        · exact hflags resp hinit
        · rw [List.mem_singleton.mp hend, hzero]
      refine ⟨?_, ?_, hlt, ?_, ?_, fun hover => ?_, fun hover => ?_⟩
      · intro r hr
        rcases List.mem_append.mp hr with hr | hr
        · exact h.fits r hr
        · rw [List.mem_singleton.mp hr]
          exact hname
      · intro r hr
        rcases List.mem_append.mp hr with hr | hr
        · exact h.flag r hr
        · rw [List.mem_singleton.mp hr, hflag]
          split
          · exact .inr rfl
          · exact .inl rfl
      · have hroom := h.room
        dsimp only
        rw [List.length_append, List.length_singleton]
        omega
      · dsimp only
        rw [List.dropLast_concat]
        exact hbefore
      all_goals
        dsimp only at hover
        rw [hrunning] at hover
        cases hover
    · -- the slot holds no box
      have hlt : x.lister.i < boxCountMax :=
        lt_of_le_of_ne h.index fun heq => hstays (.inl heq)
      exact { h with index := hlt, room := h.room.trans (Nat.le_succ _) }

end ListInv

/-- The requests that thread 0 handles to create a box. -/
private def creates (name : CString) : List Turn :=
  [⟨0, .accept 3 name⟩, ⟨0, .go⟩, ⟨0, .go⟩, ⟨0, .go⟩, ⟨0, .go⟩]

/-- The requests that thread 0 handles to delete a box. -/
private def deletes (name : CString) : List Turn :=
  [⟨0, .accept 5 name⟩, ⟨0, .go⟩, ⟨0, .go⟩, ⟨0, .go⟩, ⟨0, .go⟩, ⟨0, .go⟩, ⟨0, .go⟩]

end TfsBroker.Mbroker
