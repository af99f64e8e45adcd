import TfsBroker.Manager.Session

/-!
# What managers see of the broker

Managers are started one after the other, while no session of a publisher or a subscriber is open.
What they print is what a set of names answers: a name is created once, as long as the directory has
room for it, a name is deleted that was created, and a listing shows all of them in order. Between
the set and the terminal are the requests and responses on the pipes, the table of boxes, and the
files.

## Main results

* `Tidy.invoke` — one manager
* `managers_see_names` — any number of them
-/

namespace TfsBroker.Manager

open Fs2 State Mbroker Protocol Utils Wire

/-! ### The set of names -/

/-- The most names that there is room for in the directory. -/
def namesMax : ℕ := 23

/-- What a manager prints that asks for the command, when there are boxes for the names in `S`, and
the names afterwards. -/
inductive Shows (S : Finset CString) : Command → Exit → Finset CString → Prop
  | created {n : BoxName} : n.name ∉ S → S.card < namesMax →
      Shows S (.create n) ⟨0, bytesOf "OK\n", []⟩ (insert n.name S)
  | duplicate {n : BoxName} : n.name ∈ S →
      Shows S (.create n) ⟨0, [], bytesOf "ERR Box already exists\n"⟩ S
  | full {n : BoxName} : n.name ∉ S → S.card = namesMax →
      Shows S (.create n) ⟨0, [], bytesOf "ERR Couldn't create box\n"⟩ S
  | deleted {n : BoxName} : n.name ∈ S →
      Shows S (.delete n) ⟨0, bytesOf "OK\n", []⟩ (S.erase n.name)
  | unknown {n : BoxName} : n.name ∉ S →
      Shows S (.delete n) ⟨0, [], bytesOf "ERR Box doesn't exist\n"⟩ S
  | noBoxes : S = ∅ → Shows S .list ⟨0, bytesOf "NO BOXES FOUND\n", []⟩ S
  | boxes (names : List CString) : S ≠ ∅ → names.Nodup → (∀ n, n ∈ names ↔ n ∈ S) →
      (names.Pairwise fun a b => a.bytes ≤ b.bytes) →
      Shows S .list ⟨0, names.flatMap fun n => n.bytes ++ bytesOf " 0 0 0\n", []⟩ S

/-- What managers print that are started one after the other. -/
inductive Transcript : Finset CString → List Command → List Exit → Prop
  | nil {S : Finset CString} : Transcript S [] []
  | cons {S S' : Finset CString} {command : Command} {exit : Exit} {commands : List Command}
      {exits : List Exit} : Shows S command exit S' → Transcript S' commands exits →
      Transcript S (command :: commands) (exit :: exits)

/-! ### The boxes of the broker -/

variable {x x' : Broker} {S : Finset CString} {n : BoxName} {i : ℕ} {m : Memory} {resp : ℕ}
  {qsort : List ListManagerResponse → List ListManagerResponse}

/-- A box without messages and sessions. -/
def newBox (n : BoxName) : Box := ⟨slashed n.name, 0, 0, 0, false, .USED⟩

/-- The broker has a new box for each of the names in `S`. -/
structure Tidy (x : Broker) (S : Finset CString) : Prop where
  represents : Represents x S
  boxes : ∀ i, (x.mbrokerBoxes i).allocState = .USED → ∃ n, x.mbrokerBoxes i = newBox n

theorem Tidy.enter (h : Tidy x S) {count : ℤ} {tfs : State} {S' : Finset CString}
    (hrep : Represents ⟨Function.update x.mbrokerBoxes i (newBox n), count, tfs⟩ S') :
    Tidy ⟨Function.update x.mbrokerBoxes i (newBox n), count, tfs⟩ S' := by
  refine ⟨hrep, fun j hj => ?_⟩
  by_cases hji : j = i
  · subst hji
    exact ⟨n, Function.update_self _ _ _⟩
  · dsimp only at hj ⊢
    rw [Function.update_of_ne hji] at hj ⊢
    exact h.boxes j hj

theorem Tidy.clear (h : Tidy x S) {count : ℤ} {tfs : State} {S' : Finset CString} {box : Box}
    (hbox : box.allocState = .NOT_USED)
    (hrep : Represents ⟨Function.update x.mbrokerBoxes i box, count, tfs⟩ S') :
    Tidy ⟨Function.update x.mbrokerBoxes i box, count, tfs⟩ S' := by
  refine ⟨hrep, fun j hj => ?_⟩
  by_cases hji : j = i
  · subst hji
    dsimp only at hj
    rw [Function.update_self, hbox] at hj
    cases hj
  · dsimp only at hj ⊢
    rw [Function.update_of_ne hji] at hj ⊢
    exact h.boxes j hj

/-! ### Creating and deleting -/

namespace Tidy

theorem maxDirEntries_eq (h : Tidy x S) : x.tfs.maxDirEntries = namesMax :=
  h.represents.maxDirEntries_eq

/-- A request to create a box, on the pipes. -/
theorem requestsHandler_create (h : Tidy x S) (n : BoxName) {pipeName : CString} :
    ∃ r x', requestsHandler m resp x ⟨3, pipeName, n.name⟩ = some (managerResponse m resp r, x') ∧
      ((n.name ∈ S ∧ r = ⟨createBoxOp + 1, -1, respErrDuplicateBox⟩ ∧ Tidy x' S) ∨
      (n.name ∉ S ∧ S.card = namesMax ∧ r = ⟨createBoxOp + 1, -1, respErrCreateBox⟩ ∧ Tidy x' S) ∨
      (n.name ∉ S ∧ S.card < namesMax ∧ r = ⟨createBoxOp + 1, 0, ""⟩ ∧
        Tidy x' (insert n.name S))) := by
  have hle : S.card ≤ x.tfs.maxDirEntries := h.represents.files.entries.card_le
  have hop : (3 : UInt8).toNat = createBoxOp := rfl
  unfold requestsHandler
  rw [if_pos (.inl rfl), hop, handleManager, if_pos rfl]
  by_cases hn : n.name ∈ S
  · rw [h.represents.createBox_dup hn]
    exact ⟨_, _, rfl, .inl ⟨hn, rfl, h⟩⟩
  rcases hle.lt_or_eq with hcard | hfull
  · obtain ⟨tfs, i, -, hcreate, hrep⟩ := h.represents.createBox_new hn hcard
    rw [hcreate]
    exact ⟨_, _, rfl, .inr (.inr ⟨hn, h.maxDirEntries_eq ▸ hcard, rfl, h.enter hrep⟩)⟩
  · obtain ⟨tfs, hcreate, hrep⟩ := h.represents.createBox_full hn hfull
    rw [hcreate]
    exact ⟨_, _, rfl, .inr (.inl ⟨hn, h.maxDirEntries_eq ▸ hfull, rfl, hrep, h.boxes⟩)⟩

/-- A request to delete a box, on the pipes. -/
theorem requestsHandler_delete (h : Tidy x S) (n : BoxName) {pipeName : CString} :
    ∃ r x', requestsHandler m resp x ⟨5, pipeName, n.name⟩ = some (managerResponse m resp r, x') ∧
      ((n.name ∉ S ∧ r = ⟨deleteBoxOp + 1, -1, respErrUnknownBox⟩ ∧ Tidy x' S) ∨
      (n.name ∈ S ∧ r = ⟨deleteBoxOp + 1, 0, ""⟩ ∧ Tidy x' (S.erase n.name))) := by
  have hop : (5 : UInt8).toNat = deleteBoxOp := rfl
  have hne : deleteBoxOp ≠ createBoxOp := by decide
  unfold requestsHandler
  rw [if_pos (.inr rfl), hop, handleManager, if_neg hne, if_pos rfl]
  by_cases hn : n.name ∈ S
  · obtain ⟨tfs, i, hdelete, hrep⟩ := h.represents.deleteBox_known hn
    rw [hdelete]
    exact ⟨_, _, rfl, .inr ⟨hn, rfl, h.clear rfl hrep⟩⟩
  · rw [h.represents.deleteBox_unknown hn]
    exact ⟨_, _, rfl, .inl ⟨hn, rfl, h⟩⟩

/-! ### Listing -/

/-- The names of the boxes in use are those in `S`, one each. -/
theorem usedBoxes_names (h : Tidy x S) : ((usedBoxes x).map fun box => box.name.tail).Nodup ∧
    ∀ n, n ∈ (usedBoxes x).map (fun box => box.name.tail) ↔ n ∈ S := by
  have hslots := h.represents.boxes.slots
  have hused : usedBoxes x = ((List.range boxCountMax).filter fun i =>
      (x.mbrokerBoxes i).allocState = .USED).map x.mbrokerBoxes := List.filter_map
  rw [hused, List.map_map]
  constructor
  · refine List.Nodup.map_on (fun i hi j hj heq => ?_) (List.nodup_range.filter _)
    obtain ⟨hi, hused⟩ := List.mem_filter.mp hi
    obtain ⟨hj, hused'⟩ := List.mem_filter.mp hj
    exact hslots.slot_unique i (List.mem_range.mp hi) j (List.mem_range.mp hj) _
      (isBox_eq_true.mpr ⟨of_decide_eq_true hused, rfl⟩)
      (isBox_eq_true.mpr ⟨of_decide_eq_true hused', heq.symm⟩)
  · intro n
    rw [hslots.mem_iff, List.mem_map]
    constructor
    · rintro ⟨i, hi, rfl⟩
      obtain ⟨hi, hused⟩ := List.mem_filter.mp hi
      exact ⟨i, List.mem_range.mp hi, isBox_eq_true.mpr ⟨of_decide_eq_true hused, rfl⟩⟩
    · rintro ⟨i, hi, hbox⟩
      obtain ⟨hused, htail⟩ := isBox_eq_true.mp hbox
      exact ⟨i, List.mem_filter.mpr ⟨List.mem_range.mpr hi, decide_eq_true hused⟩, htail⟩

theorem length_usedBoxes (h : Tidy x S) : (usedBoxes x).length = S.card := by
  obtain ⟨hnodup, hmem⟩ := h.usedBoxes_names
  have hset : ((usedBoxes x).map fun box => box.name.tail).toFinset = S := by
    ext n
    rw [List.mem_toFinset, hmem]
  rw [← hset, List.toFinset_card_of_nodup hnodup, List.length_map]

theorem exists_newBox (h : Tidy x S) {box : Box} (hbox : box ∈ usedBoxes x) :
    ∃ n, box = newBox n := by
  obtain ⟨hmem, hused⟩ := List.mem_filter.mp hbox
  obtain ⟨i, -, rfl⟩ := List.mem_map.mp hmem
  exact h.boxes i (of_decide_eq_true hused)

theorem fits (h : Tidy x S) : ∀ box ∈ usedBoxes x, box.Fits := by
  intro box hbox
  obtain ⟨n, rfl⟩ := h.exists_newBox hbox
  have hpos : 0 < sizeRange := by decide
  exact ⟨Nat.succ_le_succ (Nat.succ_le_succ n.le), hpos, hpos, hpos⟩

/-- What `handle_list` puts into the pipe. -/
theorem handleList_eq (h : Tidy x S) : handleList x (fun _ => .whole) =
    some ((listing (usedBoxes x)).flatMap ListManagerResponse.toBytes) := by
  refine Mbroker.handleList_eq ?_ h.fits
  rw [h.represents.count, h.length_usedBoxes]

end Tidy

/-- The responses of a listing are those for its boxes. -/
theorem mem_listing {boxes : List Box} {r : ListManagerResponse} (h : r ∈ listing boxes) :
    ∃ box ∈ boxes, ∃ last, r = frame last box := by
  induction boxes with
  | nil => cases h
  | cons box boxes ih =>
    rcases List.mem_cons.mp h with rfl | h
    · exact ⟨box, List.mem_cons_self, _, rfl⟩
    · obtain ⟨box', hmem, hr⟩ := ih h
      exact ⟨box', List.mem_cons_of_mem _ hmem, hr⟩

theorem map_listing (boxes : List Box) : (listing boxes).map (fun r => r.boxName.tail) =
    boxes.map fun box => box.name.tail := by
  induction boxes with
  | nil => rfl
  | cons box boxes ih =>
    rw [listing, List.map_cons, List.map_cons, ih]
    rfl

/-- What a manager prints for the names of new boxes. -/
theorem flatMap_stdout (names : List CString) :
    (names.map fun n => Line.box n 0 0 0).flatMap stdout =
      names.flatMap fun n => n.bytes ++ bytesOf " 0 0 0\n" := by
  rw [List.flatMap_map]
  rfl

namespace Tidy

/-- The manager sorts the names by their bytes. -/
theorem sorted (h : Tidy x S) (hsort : Sorts qsort) :
    ((qsort (listing (usedBoxes x))).map fun r => r.boxName.tail).Pairwise
      fun a b => a.bytes ≤ b.bytes := by
  obtain ⟨hperm, horder⟩ := hsort (listing (usedBoxes x))
  refine List.pairwise_map.mpr (horder.imp_of_mem fun {a b} ha hb hle => ?_)
  obtain ⟨box, hbox, last, rfl⟩ := mem_listing (hperm.mem_iff.mp ha)
  obtain ⟨box', hbox', last', rfl⟩ := mem_listing (hperm.mem_iff.mp hb)
  obtain ⟨n, rfl⟩ := h.exists_newBox hbox
  obtain ⟨n', rfl⟩ := h.exists_newBox hbox'
  -- both names begin with a slash
  have hbytes : (slashed n.name).bytes ≤ (slashed n'.name).bytes := CString.strcmp_nonpos.mp hle
  rcases List.cons_le_cons_iff.mp hbytes with hlt | ⟨-, hle⟩
  · exact absurd hlt (by decide)
  · exact hle

/-- A listing prints a line for each name. -/
theorem listBoxes_eq (h : Tidy x S) (hsort : Sorts qsort) (pipeName : CString) :
    ∃ exit, listBoxes qsort pipeName true
      ((listing (usedBoxes x)).flatMap ListManagerResponse.toBytes) = some exit ∧
      Shows S .list exit S := by
  unfold listBoxes Mbroker.listBoxes
  by_cases hnone : usedBoxes x = []
  · -- the pipe is closed without a response
    have hqsort : qsort [] = [] := List.perm_nil.mp (hsort []).1
    have hcard : S.card = 0 := by rw [← h.length_usedBoxes, hnone, List.length_nil]
    rw [hnone, listing, List.flatMap_nil, readBoxes_nil]
    simp only [Option.map_some, hqsort]
    exact ⟨_, rfl, .noBoxes (Finset.card_eq_zero.mp hcard)⟩
  rw [readBoxes_listing hnone h.fits (Mbroker.length_usedBoxes x)]
  have hperm := (hsort (listing (usedBoxes x))).1
  have hnames := hperm.map fun r => r.boxName.tail
  rw [map_listing] at hnames
  obtain ⟨hnodup, hmem⟩ := h.usedBoxes_names
  have hlines : (qsort (listing (usedBoxes x))).map boxLine =
      ((qsort (listing (usedBoxes x))).map fun r => r.boxName.tail).map fun n => .box n 0 0 0 := by
    rw [List.map_map]
    refine List.map_congr_left fun r hr => ?_
    obtain ⟨box, hbox, last, rfl⟩ := mem_listing (hperm.mem_iff.mp hr)
    obtain ⟨n, rfl⟩ := h.exists_newBox hbox
    rfl
  have hstderr : ∀ names : List CString,
      (names.map fun n => Line.box n 0 0 0).flatMap (stderr pipeName) = [] := by
    intro names
    rw [List.flatMap_map]
    exact List.flatMap_eq_nil_iff.mpr fun _ _ => rfl
  simp only [Option.map_some, List.nil_append, hlines, flatMap_stdout, hstderr]
  refine ⟨_, rfl, .boxes _ ?_ (hnames.nodup_iff.mpr hnodup) (fun n => ?_) (h.sorted hsort)⟩
  · rintro rfl
    exact hnone (List.length_eq_zero_iff.mp h.length_usedBoxes)
  · rw [hnames.mem_iff, hmem]

/-! ### Any number of managers -/

/-- A manager prints what the names answer. -/
theorem invoke (h : Tidy x S) (hsort : Sorts qsort) (i : Invocation) :
    ∃ exit x' S', Manager.invoke qsort x i = some (exit, x') ∧ Shows S i.command exit S' ∧
      Tidy x' S' := by
  unfold Manager.invoke
  rw [main_argv, Option.bind_some]
  cases i.command with
  | create n =>
    have hname : (nameOr (some n.name)).strlen < boxNameLength :=
      Nat.lt_succ_of_le (Nat.le_succ_of_le n.le)
    obtain ⟨r, x', hhandle, hcases⟩ := h.requestsHandler_create n
    dsimp only
    rw [ofBytes_connectToMbroker i hname, nameOr, Option.getD_some, hhandle, Option.bind_some]
    rcases hcases with ⟨hn, rfl, htidy⟩ | ⟨hn, hfull, rfl, htidy⟩ | ⟨hn, hcard, rfl, htidy⟩
    · rw [createDeleteBox_managerResponse (.inr rfl) (by decide)]
      exact ⟨_, _, _, rfl, .duplicate hn, htidy⟩
    · rw [createDeleteBox_managerResponse (.inr rfl) (by decide)]
      exact ⟨_, _, _, rfl, .full hn hfull, htidy⟩
    · rw [createDeleteBox_managerResponse (.inl rfl) (by decide)]
      exact ⟨_, _, _, rfl, .created hn hcard, htidy⟩
  | delete n =>
    have hname : (nameOr (some n.name)).strlen < boxNameLength :=
      Nat.lt_succ_of_le (Nat.le_succ_of_le n.le)
    obtain ⟨r, x', hhandle, hcases⟩ := h.requestsHandler_delete n
    dsimp only
    rw [ofBytes_connectToMbroker i hname, nameOr, Option.getD_some, hhandle, Option.bind_some]
    rcases hcases with ⟨hn, rfl, htidy⟩ | ⟨hn, rfl, htidy⟩
    · rw [createDeleteBox_managerResponse (.inr rfl) (by decide)]
      exact ⟨_, _, _, rfl, .unknown hn, htidy⟩
    · rw [createDeleteBox_managerResponse (.inl rfl) (by decide)]
      exact ⟨_, _, _, rfl, .deleted hn, htidy⟩
  | list =>
    obtain ⟨exit, hexit, hshows⟩ := h.listBoxes_eq hsort i.pipeName
    have hop : ¬ ((7 : UInt8) = 3 ∨ (7 : UInt8) = 5) := by decide
    dsimp only
    rw [ofBytes_connectToMbroker i (by decide), requestsHandler, if_neg hop, if_pos rfl,
      h.handleList_eq, Option.map_some, Option.bind_some, hexit]
    exact ⟨_, _, _, rfl, hshows, h⟩

end Tidy

/-- Start managers one after the other: what they print. -/
def invokeAll (qsort : List ListManagerResponse → List ListManagerResponse) :
    Broker → List Invocation → Option (List Exit)
  | _, [] => some []
  | x, i :: is =>
    (invoke qsort x i).bind fun (exit, x) => (invokeAll qsort x is).map fun exits => exit :: exits

theorem Tidy.invokeAll (h : Tidy x S) (hsort : Sorts qsort) (is : List Invocation) :
    ∃ exits, Manager.invokeAll qsort x is = some exits ∧
      Transcript S (is.map Invocation.command) exits := by
  induction is generalizing x S with
  | nil => exact ⟨[], rfl, .nil⟩
  | cons i is ih =>
    obtain ⟨exit, x', S', hinvoke, hshows, htidy⟩ := h.invoke hsort i
    obtain ⟨exits, hexits, htranscript⟩ := ih htidy
    refine ⟨exit :: exits, ?_, .cons hshows htranscript⟩
    rw [Manager.invokeAll, hinvoke, Option.bind_some]
    exact congrArg (Option.map (exit :: ·)) hexits

end TfsBroker.Manager
