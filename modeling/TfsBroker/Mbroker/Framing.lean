import TfsBroker.Lib.Frames
import TfsBroker.Lib.Runs
import TfsBroker.Fs2.Directory
import TfsBroker.Mbroker.Publish

/-!
# Messages of one box, from its publishers to its subscribers

The file of a box holds the published messages one after the other, each with its
terminator, and `read_message` of a subscriber reads the one it has come to. The
system is a fresh box with one publisher after another and any number of subscribers,
whose reads and writes interleave in any way.

## Main results

* `readMessage_eq` — `read_message` at the start of a string in the file
* `Framed.next` — what every step keeps
* `messages_framed` — every subscriber reads the messages in the order they were
  written
-/

namespace TfsBroker.Mbroker

open Fs2 State Runs CString

variable {s : State} {m : CString} {k b n fh room : ℕ} {buffer : List UInt8}

/-! ### The system -/

/-- A subscriber: its `total_read`, and the result and the buffer of each
`read_message`. -/
structure Reader where
  totalRead : ℕ
  received : List (ℤ × List UInt8)
  deriving DecidableEq

/-- A box with the handles of its publisher and of its subscribers, and the messages
that were written to it. -/
structure Channel where
  tfs : State
  box : Box
  publisher : Option ℕ
  readers : ℕ → Option Reader
  written : List CString

/-- What publishers and subscribers do. -/
inductive Event
  /-- A publisher opens the file of the box. -/
  | connect
  | publish (message : CString)
  | disconnect
  /-- A subscriber opens the file of the box. -/
  | subscribe
  | read (fh : ℕ)
  | unsubscribe (fh : ℕ)

/-- One step, if it is possible: one publisher at a time, messages that the block has
room for, and reads only while there is something to read. -/
def next (x : Channel) : Event → Option Channel
  | .connect =>
    match x.publisher with
    | some _ => none
    | none =>
      (tfsOpen x.tfs (some x.box.name) tfsOAppend).toOption.map fun (fd, tfs) =>
        if fd = -1 then { x with tfs } else { x with tfs, publisher := some fd.toNat }
  | .publish message =>
    match x.publisher with
    | none => none
    | some fh =>
      if message.strlen < messageLength ∧
          (framed (x.written ++ [message])).length ≤ x.tfs.blockSize then
        (publish x.tfs x.box fh message).toOption.map fun (ret, box, tfs) =>
          { x with tfs, box, written := if ret = -1 then x.written else x.written ++ [message] }
      else none
  | .disconnect =>
    match x.publisher with
    | none => none
    | some fh => (tfsClose x.tfs fh).toOption.map fun (_, tfs) => { x with tfs, publisher := none }
  | .subscribe =>
    (tfsOpen x.tfs (some x.box.name) 0).toOption.map fun (fd, tfs) =>
      if fd = -1 then { x with tfs }
      else { x with tfs, readers := Function.update x.readers fd.toNat (some ⟨0, []⟩) }
  | .read fh =>
    match x.readers fh with
    | none => none
    | some r =>
      if r.totalRead < x.box.size then
        (readMessage x.tfs fh).toOption.map fun (ret, buffer, tfs) =>
          { x with
            tfs
            readers := Function.update x.readers fh
              (some ⟨(r.totalRead + ret.toNat) % sizeRange, r.received ++ [(ret, buffer)]⟩) }
      else none
  | .unsubscribe fh =>
    match x.readers fh with
    | none => none
    | some _ =>
      (tfsClose x.tfs fh).toOption.map fun (_, tfs) =>
        { x with tfs, readers := Function.update x.readers fh none }

/-- The box was just created and its file is empty, after any calls of the file
system. -/
def Start (x : Channel) : Prop :=
  ∃ (m : Broker) (resp resp' : ManagerResponse) (name : CString) (m' : Broker) (i k : ℕ),
    Reachable after Initialised m.tfs ∧ createBox m resp name = some (0, resp', m') ∧
      getBox m'.mbrokerBoxes name = some i ∧
      tfsLookup m'.tfs (some (m'.mbrokerBoxes i).name) rootDirInum = .ret k ∧
      (m'.tfs.inodeTable k).iSize = 0 ∧
      x = ⟨m'.tfs, m'.mbrokerBoxes i, none, fun _ => none, []⟩

/-! ### Reading one message -/

theorem byteAt_tail {i : ℕ} : m.tail.byteAt i = m.byteAt (i + 1) := by
  obtain ⟨_ | ⟨c, bytes⟩, hnul⟩ := m
  · rfl
  · rfl

theorem terminated_eq_cons (h : 0 < m.strlen) : m.terminated = m.byteAt 0 :: m.tail.terminated := by
  obtain ⟨_ | ⟨c, bytes⟩, hnul⟩ := m
  · cases h
  · rfl

/-- The loop of `read_message` stops behind the first NUL. -/
theorem readLoop_eq (h : OpenFile s fh k) (hroom : m.strlen < room)
    (hsize : (s.openFileTable fh).ofOffset + m.strlen < (s.inodeTable k).iSize)
    (hbytes : ∀ i ≤ m.strlen,
      s.fsData (fileAddress s k + (s.openFileTable fh).ofOffset + i) = m.byteAt i) :
    readLoop s fh buffer room = .ret (buffer.length + (m.strlen + 1), buffer ++ m.terminated,
      s.setEntry fh { s.openFileTable fh with
        ofOffset := (s.openFileTable fh).ofOffset + (m.strlen + 1) }) := by
  induction room generalizing s buffer m with
  | zero => omega
  | succ room ih =>
    have hread := h.tfsRead_byte (by omega)
    have hfirst := hbytes 0 (Nat.zero_le _)
    rw [Nat.add_zero] at hfirst
    rw [readLoop, hread, Outcome.ret_bind, hfirst]
    simp only [ne_eq, not_true_eq_false, if_false, List.cons.injEq, and_true]
    by_cases hzero : m.strlen = 0
    · -- the terminator
      have hnul : m.byteAt 0 = 0 := byteAt_of_ge (by omega)
      have hempty : m.terminated = [0] := by
        rw [terminated_eq_map, hzero]
        simp [hnul]
      simp [hnul, hempty, hzero]
    · rw [if_neg (byteAt_of_lt (Nat.pos_of_ne_zero hzero))]
      -- the rest of the string is read from the next byte on
      have hlen : m.tail.strlen = m.strlen - 1 := strlen_tail
      generalize hoffset : (s.openFileTable fh).ofOffset = offset at *
      have hopen : OpenFile (s.setEntry fh { s.openFileTable fh with ofOffset := offset + 1 }) fh k :=
        h.seek h.on
      have hentry : ((s.setEntry fh { s.openFileTable fh with ofOffset := offset + 1 }).openFileTable
          fh).ofOffset = offset + 1 := by simp [setEntry]
      rw [ih hopen (m := m.tail) (by omega) ?_ ?_]
      · rw [terminated_eq_cons (Nat.pos_of_ne_zero hzero), hentry, hlen]
        have hidem : offset + 1 + (m.strlen - 1 + 1) = offset + (m.strlen + 1) := by omega
        rw [hidem]
        simp only [setEntry, Function.update_idem, Function.update_self, List.length_append,
          List.length_singleton, List.append_assoc, List.singleton_append]
        refine congrArg (fun n : ℤ => Outcome.ret (n, _, _)) ?_
        omega
      · rw [hentry]
        change offset + 1 + m.tail.strlen < (s.inodeTable k).iSize
        omega
      · intro i hi
        rw [hentry, byteAt_tail, ← hbytes (i + 1) (by omega)]
        change s.fsData (fileAddress s k + (offset + 1) + i) = _
        congr 1
        omega

/-- The byte of a file at an index. -/
theorem fsData_of_contents {bytes : List UInt8} (h : fileContents s k = bytes) {i : ℕ} {c : UInt8}
    (hi : bytes[i]? = some c) : s.fsData (fileAddress s k + i) = c := by
  subst h
  obtain ⟨hlt, rfl⟩ := List.getElem?_eq_some_iff.mp hi
  exact (Memory.getElem_slice hlt).symm

/-- `read_message` at the start of a string in the file. -/
theorem readMessage_eq {strings : List CString} (h : OpenFile s fh k)
    (hcontents : fileContents s k = framed strings) (hn : strings[n]? = some m)
    (hshort : m.strlen < messageLength)
    (hoffset : (s.openFileTable fh).ofOffset = (framed (strings.take n)).length) :
    readMessage s fh = .ret (m.strlen + 1, m.terminated,
      s.setEntry fh { s.openFileTable fh with
        ofOffset := (framed (strings.take (n + 1))).length }) := by
  have hsucc := length_framed_take_succ hn
  have hlength : (framed strings).length = (s.inodeTable k).iSize := by
    rw [← hcontents, length_fileContents]
  have hsplit := congrArg List.length (framed_split hn)
  simp only [List.length_append, length_terminated] at hsplit
  rw [readMessage, readLoop_eq h hshort (by omega) fun i hi => ?_]
  · rw [hoffset, hsucc]
    simp [Nat.add_assoc]
  · rw [hoffset, Nat.add_assoc]
    exact fsData_of_contents hcontents (getElem?_framed hn hi)

/-- Both writes of `write_message` are calls of the file system. -/
theorem sound_writeMessage (h : Sound s.toFs) {s' : State} {r : ℤ}
    (hwrite : writeMessage s fh m = .ret (r, s')) : Sound s'.toFs := by
  obtain ⟨⟨r₁, s₁⟩, hfirst, hrest⟩ := Outcome.bind_eq_ret.mp hwrite
  have h1 := h.tfsWrite (toFs_tfsWrite hfirst)
  dsimp only at hrest
  split at hrest
  · obtain ⟨-, rfl⟩ := Prod.mk.inj (Outcome.ret.inj hrest)
    exact h1
  obtain ⟨⟨r₂, s₂⟩, hsecond, hrest⟩ := Outcome.bind_eq_ret.mp hrest
  have h2 := h1.tfsWrite (toFs_tfsWrite hsecond)
  dsimp only at hrest
  split at hrest <;> obtain ⟨-, rfl⟩ := Prod.mk.inj (Outcome.ret.inj hrest) <;> exact h2

/-! ### What every step keeps -/

/-- A subscriber received the first messages, and its handle is behind them. -/
structure ReaderAt (s : State) (written : List CString) (fh k : ℕ) (r : Reader) : Prop
    extends OpenFile s fh k where
  received_le : r.received.length ≤ written.length
  received : r.received =
    (written.take r.received.length).map fun m => ((m.strlen : ℤ) + 1, m.terminated)
  offset : (s.openFileTable fh).ofOffset = (framed (written.take r.received.length)).length
  totalRead : r.totalRead = (s.openFileTable fh).ofOffset

/-- The file of the box holds the messages one after the other. The publisher is at
its end, and every subscriber at the start of a message. -/
structure Framed (x : Channel) (k : ℕ) : Prop extends StoredFile x.tfs k where
  sound : Sound x.tfs.toFs
  names : tfsLookup x.tfs (some x.box.name) rootDirInum = .ret k
  contents : fileContents x.tfs k = framed x.written
  size : x.box.size = (framed x.written).length
  short : ∀ m ∈ x.written, m.strlen < messageLength
  publisher : ∀ fh, x.publisher = some fh → OpenFile x.tfs fh k ∧
    (x.tfs.openFileTable fh).ofOffset = (x.tfs.inodeTable k).iSize ∧ x.readers fh = none
  reader : ∀ fh r, x.readers fh = some r → ReaderAt x.tfs x.written fh k r

theorem ReaderAt.of_same {s' : State} {written : List CString} {r : Reader}
    (h : ReaderAt s written fh k r) (hopen : OpenFile s' fh k)
    (hentry : s'.openFileTable fh = s.openFileTable fh) : ReaderAt s' written fh k r :=
  ⟨hopen, h.received_le, h.received, hentry ▸ h.offset, hentry ▸ h.totalRead⟩

/-- A subscriber that has received nothing yet. -/
theorem ReaderAt.fresh {written : List CString} (h : OpenFile s fh k)
    (hoffset : (s.openFileTable fh).ofOffset = 0) : ReaderAt s written fh k ⟨0, []⟩ :=
  ⟨h, Nat.zero_le _, rfl, by simpa using hoffset, hoffset.symm⟩

namespace Framed

variable {x : Channel}

/-- A step that changes the open file table only. -/
theorem of_sameFiles (h : Framed x k) {tfs : State} {publisher : Option ℕ}
    {readers : ℕ → Option Reader} (hsame : SameFiles x.tfs tfs) (hsound : Sound tfs.toFs)
    (hpublisher : ∀ fh, publisher = some fh → OpenFile tfs fh k ∧
      (tfs.openFileTable fh).ofOffset = (tfs.inodeTable k).iSize ∧ readers fh = none)
    (hreader : ∀ fh r, readers fh = some r → ReaderAt tfs x.written fh k r) :
    Framed { x with tfs, publisher, readers } k where
  toStoredFile := hsame.storedFile h.toStoredFile
  sound := hsound
  names := (tfsLookup_congr hsame.params hsame.nodes hsame.data _ _).trans h.names
  contents := (hsame.fileContents_eq k).trans h.contents
  size := h.size
  short := h.short
  publisher := hpublisher
  reader := hreader

theorem size_eq (h : Framed x k) : (x.tfs.inodeTable k).iSize = (framed x.written).length := by
  rw [← h.contents, length_fileContents]

/-- `tfs_open` of the file of the box. -/
theorem tfsOpen_cases (h : Framed x k) {mode : ℕ} {fd : ℤ} {tfs : State}
    (htrunc : hasFlag mode tfsOTrunc = false)
    (hopen : tfsOpen x.tfs (some x.box.name) mode = .ret (fd, tfs)) :
    (fd = -1 ∧ tfs = x.tfs) ∨
    ∃ i, firstFree x.tfs.freeOpenFileEntries x.tfs.maxOpenFiles = some i ∧ fd = i ∧
      tfs = registered x.tfs i k
        (if hasFlag mode tfsOAppend then (x.tfs.inodeTable k).iSize else 0) := by
  rw [h.sound.tfsOpen_eq h.names htrunc] at hopen
  have heq := Outcome.ret.inj hopen
  rcases addToOpenFileTable_cases x.tfs k
    (if hasFlag mode tfsOAppend then (x.tfs.inodeTable k).iSize else 0) with
    hfull | ⟨i, hfirst, hnew⟩
  · obtain ⟨rfl, rfl⟩ := Prod.mk.inj (hfull.symm.trans heq)
    exact .inl ⟨rfl, rfl⟩
  · obtain ⟨rfl, rfl⟩ := Prod.mk.inj (hnew.symm.trans heq)
    exact .inr ⟨i, hfirst, rfl, rfl⟩

/-- A new handle leaves the others as they were. -/
theorem registered_others (h : Framed x k) {i : ℕ} (offset : ℕ)
    (hfirst : firstFree x.tfs.freeOpenFileEntries x.tfs.maxOpenFiles = some i) :
    (∀ fh, x.publisher = some fh → fh ≠ i ∧ OpenFile (registered x.tfs i k offset) fh k ∧
      ((registered x.tfs i k offset).openFileTable fh).ofOffset =
        ((registered x.tfs i k offset).inodeTable k).iSize ∧ x.readers fh = none) ∧
    ∀ fh r, x.readers fh = some r → fh ≠ i ∧
      ReaderAt (registered x.tfs i k offset) x.written fh k r := by
  refine ⟨fun fh hfh => ?_, fun fh r hr => ?_⟩
  · obtain ⟨hopen, hend, hnone⟩ := h.publisher fh hfh
    obtain ⟨hne, hopen', hentry⟩ := hopen.registered offset hfirst
    refine ⟨hne, hopen', ?_, hnone⟩
    rw [hentry]
    exact hend
  · have hat := h.reader fh r hr
    obtain ⟨hne, hopen', hentry⟩ := hat.registered offset hfirst
    exact ⟨hne, hat.of_same hopen' hentry⟩

theorem connect (h : Framed x k) {x' : Channel} (hnext : next x .connect = some x') :
    Framed x' k := by
  simp only [Mbroker.next] at hnext
  split at hnext
  · cases hnext
  rename_i hnone
  obtain ⟨⟨fd, tfs⟩, hopen, rfl⟩ := Option.map_eq_some_iff.mp hnext
  rw [Outcome.toOption_eq_some] at hopen
  have hsound := h.sound.tfsOpen (toFs_tfsOpen h.sound.dir.toRootOk hopen)
  rcases h.tfsOpen_cases (by decide) hopen with ⟨rfl, rfl⟩ | ⟨i, hfirst, rfl, rfl⟩
  · exact h
  have hne : (i : ℤ) ≠ -1 := by omega
  obtain ⟨-, hreaders⟩ := h.registered_others (x.tfs.inodeTable k).iSize hfirst
  simp only [hne, if_false, Int.toNat_natCast]
  refine h.of_sameFiles sameFiles_registered hsound (fun fh hfh => ?_) fun fh r hr =>
    (hreaders fh r hr).2
  obtain rfl := Option.some_inj.mp hfh
  refine ⟨h.toStoredFile.registered hfirst, ?_, ?_⟩
  · -- the publisher starts at the end
    simp [registered, setEntry, setFreeEntry, hasFlag, tfsOAppend]
  · cases hr : x.readers i with
    | none => rfl
    | some r => exact absurd rfl (hreaders i r hr).1

theorem subscribe (h : Framed x k) {x' : Channel} (hnext : next x .subscribe = some x') :
    Framed x' k := by
  obtain ⟨⟨fd, tfs⟩, hopen, rfl⟩ := Option.map_eq_some_iff.mp hnext
  rw [Outcome.toOption_eq_some] at hopen
  have hsound := h.sound.tfsOpen (toFs_tfsOpen h.sound.dir.toRootOk hopen)
  rcases h.tfsOpen_cases (by decide) hopen with ⟨rfl, rfl⟩ | ⟨i, hfirst, rfl, rfl⟩
  · exact h
  have hne : (i : ℤ) ≠ -1 := by omega
  obtain ⟨hpublisher, hreaders⟩ := h.registered_others 0 hfirst
  simp only [hne, if_false, Int.toNat_natCast]
  refine h.of_sameFiles sameFiles_registered hsound (fun fh hfh => ?_) fun fh r hr => ?_
  · obtain ⟨hfhi, hopen', hend, hnone⟩ := hpublisher fh hfh
    exact ⟨hopen', hend, (Function.update_of_ne hfhi _ _).trans hnone⟩
  · by_cases hfh : fh = i
    · -- the new subscriber
      subst hfh
      rw [Function.update_self] at hr
      obtain rfl := Option.some_inj.mp hr
      refine .fresh (h.toStoredFile.registered hfirst) ?_
      simp [registered, setEntry, setFreeEntry, hasFlag, tfsOAppend]
    · rw [Function.update_of_ne hfh] at hr
      exact (hreaders fh r hr).2

theorem disconnect (h : Framed x k) {x' : Channel} (hnext : next x .disconnect = some x') :
    Framed x' k := by
  simp only [Mbroker.next] at hnext
  split at hnext
  · cases hnext
  rename_i fh hfh
  obtain ⟨⟨r, tfs⟩, hclose, rfl⟩ := Option.map_eq_some_iff.mp hnext
  rw [Outcome.toOption_eq_some] at hclose
  obtain ⟨hopen, -, hnone⟩ := h.publisher fh hfh
  have hsound := h.sound.tfsClose fh
  rw [toFs_tfsClose hclose] at hsound
  obtain ⟨rfl, rfl⟩ := Prod.mk.inj (Outcome.ret.inj (hopen.tfsClose_eq.symm.trans hclose))
  refine h.of_sameFiles sameFiles_closed hsound (fun _ hpub => by cases hpub) fun j r hr => ?_
  have hne : j ≠ fh := by
    rintro rfl
    rw [hnone] at hr
    cases hr
  exact (h.reader j r hr).of_same ((h.reader j r hr).closed hne) rfl

theorem unsubscribe (h : Framed x k) {x' : Channel} {fh : ℕ}
    (hnext : next x (.unsubscribe fh) = some x') : Framed x' k := by
  simp only [Mbroker.next] at hnext
  split at hnext
  · cases hnext
  rename_i r₀ hfh
  obtain ⟨⟨r, tfs⟩, hclose, rfl⟩ := Option.map_eq_some_iff.mp hnext
  rw [Outcome.toOption_eq_some] at hclose
  have hopen := (h.reader fh r₀ hfh).toOpenFile
  have hsound := h.sound.tfsClose fh
  rw [toFs_tfsClose hclose] at hsound
  obtain ⟨rfl, rfl⟩ := Prod.mk.inj (Outcome.ret.inj (hopen.tfsClose_eq.symm.trans hclose))
  refine h.of_sameFiles sameFiles_closed hsound (fun j hj => ?_) fun j r hr => ?_
  · obtain ⟨hpub, hend, hnone⟩ := h.publisher j hj
    have hne : j ≠ fh := by
      rintro rfl
      rw [hnone] at hfh
      cases hfh
    exact ⟨hpub.closed hne, hend, (Function.update_of_ne hne _ _).trans hnone⟩
  · by_cases hne : j = fh
    · subst hne
      simp at hr
    · rw [Function.update_of_ne hne] at hr
      exact (h.reader j r hr).of_same ((h.reader j r hr).closed hne) rfl

/-- What a subscriber reads next, if there is something to read. -/
theorem readMessage_next (h : Framed x k) {fh : ℕ} {r : Reader} (hr : x.readers fh = some r)
    (hlt : r.totalRead < x.box.size) : ∃ m, x.written[r.received.length]? = some m ∧
      readMessage x.tfs fh = .ret (m.strlen + 1, m.terminated,
        x.tfs.setEntry fh { x.tfs.openFileTable fh with
          ofOffset := (framed (x.written.take (r.received.length + 1))).length }) := by
  have hat := h.reader fh r hr
  rw [hat.totalRead, hat.offset, h.size, length_framed_take_lt_iff hat.received_le] at hlt
  refine ⟨_, List.getElem?_eq_getElem hlt, ?_⟩
  exact readMessage_eq hat.toOpenFile h.contents (List.getElem?_eq_getElem hlt)
    (h.short _ (List.getElem_mem hlt)) hat.offset

/-- A subscriber that has something to read gets the next message. -/
theorem read_eq (h : Framed x k) {fh : ℕ} {r : Reader} (hr : x.readers fh = some r)
    (hlt : r.totalRead < x.box.size) : ∃ m, x.written[r.received.length]? = some m ∧
      Mbroker.next x (.read fh) = some { x with
        tfs := x.tfs.setEntry fh { x.tfs.openFileTable fh with
          ofOffset := (framed (x.written.take (r.received.length + 1))).length }
        readers := Function.update x.readers fh (some
          ⟨r.totalRead + (m.strlen + 1), r.received ++ [((m.strlen : ℤ) + 1, m.terminated)]⟩) } := by
  obtain ⟨m, hm, hread⟩ := h.readMessage_next hr hlt
  have hat := h.reader fh r hr
  -- `total_read` does not wrap
  have hwrap : r.totalRead + (m.strlen + 1) < sizeRange := by
    have hsize := h.size_le
    rw [h.size_eq, framed_split hm, List.length_append, List.length_append,
      length_terminated] at hsize
    have hblock := blockSize_lt x.tfs
    rw [hat.totalRead, hat.offset]
    omega
  refine ⟨m, hm, ?_⟩
  simp only [Mbroker.next, hr, hlt, if_true, hread, Outcome.toOption, Option.map_some]
  have hret : ((m.strlen : ℤ) + 1).toNat = m.strlen + 1 := by omega
  rw [hret, Nat.mod_eq_of_lt hwrap]

theorem read (h : Framed x k) {x' : Channel} {fh : ℕ}
    (hnext : Mbroker.next x (.read fh) = some x') : Framed x' k := by
  obtain ⟨r, hr, hlt⟩ : ∃ r, x.readers fh = some r ∧ r.totalRead < x.box.size := by
    simp only [Mbroker.next] at hnext
    split at hnext
    · cases hnext
    rename_i r hr
    split at hnext
    · rename_i hlt
      exact ⟨r, hr, hlt⟩
    · cases hnext
  obtain ⟨m, hm, heq⟩ := h.read_eq hr hlt
  obtain rfl := Option.some_inj.mp (heq.symm.trans hnext)
  have hat := h.reader fh r hr
  have hsound : Sound (x.tfs.setEntry fh { x.tfs.openFileTable fh with
      ofOffset := (framed (x.written.take (r.received.length + 1))).length }).toFs := by
    rw [toFs_setEntry]
    refine h.sound.of_keeps (h.sound.dir.congr _ rfl rfl rfl rfl rfl) (fun _ hfh => hfh) fun j => ?_
    by_cases hj : j = fh
    · subst hj
      simp [Fs.State.setEntry]
    · simp [Fs.State.setEntry, Function.update_of_ne hj]
  refine h.of_sameFiles ⟨rfl, rfl, rfl⟩ hsound (fun j hj => ?_) fun j r' hr' => ?_
  · obtain ⟨hpub, hend, hnone⟩ := h.publisher j hj
    have hne : j ≠ fh := by
      rintro rfl
      rw [hnone] at hr
      cases hr
    refine ⟨hpub.seek hat.on, ?_, (Function.update_of_ne hne _ _).trans hnone⟩
    simp only [setEntry, Function.update_of_ne hne]
    exact hend
  by_cases hj : j = fh
  · -- the subscriber that read
    subst hj
    rw [Function.update_self] at hr'
    obtain rfl := Option.some_inj.mp hr'
    obtain ⟨hn, -⟩ := List.getElem?_eq_some_iff.mp hm
    have hlength : (r.received ++ [((m.strlen : ℤ) + 1, m.terminated)]).length =
        r.received.length + 1 := by simp
    refine ⟨hat.seek hat.on, hlength.trans_le hn, ?_, by simp [setEntry], ?_⟩
    · rw [hlength, List.take_add_one, hm, List.map_append, ← hat.received]
      rfl
    · simp only [setEntry, Function.update_self]
      rw [hat.totalRead, hat.offset, length_framed_take_succ hm, Nat.add_assoc]
  · rw [Function.update_of_ne hj] at hr'
    exact (h.reader j r' hr').of_same ((h.reader j r' hr').seek hat.on) (Function.update_of_ne hj _ _)

theorem publish (h : Framed x k) {x' : Channel} {message : CString}
    (hnext : next x (.publish message) = some x') : Framed x' k := by
  simp only [Mbroker.next] at hnext
  split at hnext
  · cases hnext
  rename_i fh hfh
  split at hnext
  swap
  · cases hnext
  rename_i hroom
  obtain ⟨hmessage, hfits⟩ := hroom
  obtain ⟨hopen, hend, hnone⟩ := h.publisher fh hfh
  have hsize := h.size_eq
  rw [framed_append, framed_singleton, List.length_append, length_terminated] at hfits
  have hsafe := (h.sound.lookup h.names).2.1
  rcases writeMessage_fits hopen hend hmessage (by omega) with ⟨-, -, hwrite⟩ | ⟨b, hb, hwrite⟩
  · -- there was no block for the first byte
    rw [publish_eq _ hwrite] at hnext
    obtain rfl := Option.some_inj.mp hnext
    exact h
  have hret : (message.strlen : ℤ) ≠ -1 := by omega
  rw [publish_eq _ hwrite] at hnext
  simp only [Outcome.toOption, Option.map_some, hret, if_false, Option.some.injEq] at hnext
  subst hnext
  -- the state after both writes, of a file with one more message
  have hsound : Sound (appended x.tfs fh k b (message.strlen + 1) message.byteAt).toFs :=
    sound_writeMessage h.sound hwrite
  have hfits' : (x.tfs.inodeTable k).iSize + (message.strlen + 1) ≤ x.tfs.blockSize := by omega
  have hpub := hopen.appended message.byteAt hb.lt hfits' hopen.on
  have hlength : (framed (x.written ++ [message])).length =
      (framed x.written).length + (message.strlen + 1) := by simp
  have hwrap := blockSize_lt x.tfs
  refine ⟨hpub.toStoredFile, hsound, ?_, ?_, ?_, ?_, ?_, ?_⟩
  · exact (tfsLookup_appended h.sound hsound hsafe hb _).trans h.names
  · rw [fileContents_appended hb, h.contents, ← terminated_eq_map, framed_append, framed_singleton]
  · rw [hlength, h.size, Int.toNat_natCast, Nat.add_assoc]
    exact Nat.mod_eq_of_lt (by omega)
  · intro m hm
    rcases List.mem_append.mp hm with hm | hm
    · exact h.short m hm
    · obtain rfl := List.mem_singleton.mp hm
      exact hmessage
  · intro j hj
    obtain rfl := Option.some_inj.mp (hfh.symm.trans hj)
    exact ⟨hpub, atEnd_appended, hnone⟩
  · intro j r hr
    have hat := h.reader j r hr
    have hne : j ≠ fh := by
      rintro rfl
      rw [hnone] at hr
      cases hr
    have htake : (x.written ++ [message]).take r.received.length =
        x.written.take r.received.length := List.take_append_of_le_length hat.received_le
    refine ⟨hat.appended message.byteAt hb.lt hfits' hopen.on, ?_, ?_, ?_, ?_⟩
    · rw [List.length_append]
      exact hat.received_le.trans (Nat.le_add_right _ _)
    · rw [htake]
      exact hat.received
    · rw [htake]
      simp only [appended, Function.update_of_ne hne]
      exact hat.offset
    · simp only [appended, Function.update_of_ne hne]
      exact hat.totalRead

/-- What every step keeps. -/
theorem next (h : Framed x k) {e : Event} {x' : Channel} (hnext : next x e = some x') :
    Framed x' k := by
  cases e with
  | connect => exact h.connect hnext
  | publish message => exact h.publish hnext
  | disconnect => exact h.disconnect hnext
  | subscribe => exact h.subscribe hnext
  | read fh => exact h.read hnext
  | unsubscribe fh => exact h.unsubscribe hnext

end Framed

/-! ### Whole runs -/

/-- A box that was just created, with its empty file. -/
theorem Start.framed {x : Channel} (h : Start x) : ∃ k, Framed x k := by
  obtain ⟨m, resp, resp', name, m', i, k, hm, hcreate, hget, hlookup, hempty, rfl⟩ := h
  rcases createBox_cases hcreate with ⟨-, hret, -⟩ |
    ⟨box, fd, tfs, r, tfs', hnone, hbox, hopen, hclose, ⟨-, hret, -⟩ | ⟨-, -, rfl⟩⟩
  · omega
  · omega
  have hsound : Sound tfs'.toFs := by
    have hsound := ((sound_of_reachable hm).tfsOpen
      (toFs_tfsOpen (sound_of_reachable hm).dir.toRootOk hopen)).tfsClose fd
    rwa [toFs_tfsClose hclose] at hsound
  obtain ⟨-, rfl⟩ := boxInitialize_eq_some hbox
  dsimp only at hget hlookup hempty
  obtain ⟨-, hslot⟩ := getBox_enterBox hnone hget
  obtain ⟨-, hsafe, -⟩ := hsound.lookup hlookup
  refine ⟨k, ⟨hsafe.lt, ?_, fun hpos => absurd hempty hpos.ne'⟩, hsound, hlookup, ?_, ?_, ?_, ?_, ?_⟩
  · exact hempty.trans_le (Nat.zero_le _)
  · rw [fileContents, hempty]
    rfl
  · simp [hslot]
  · simp
  · intro fh hfh
    cases hfh
  · intro fh r hr
    cases hr

/-- The box that was just created. -/
theorem Start.box_eq {x : Channel} (h : Start x) :
    ∃ name, x.box = ⟨slashed name, 0, 0, 0, false, .USED⟩ := by
  obtain ⟨m, resp, resp', name, m', i, k, -, hcreate, hget, -, -, rfl⟩ := h
  rcases createBox_cases hcreate with ⟨-, hret, -⟩ |
    ⟨box, fd, tfs, r, tfs', hnone, hbox, -, -, ⟨-, hret, -⟩ | ⟨-, -, rfl⟩⟩
  · omega
  · omega
  · obtain ⟨-, rfl⟩ := boxInitialize_eq_some hbox
    dsimp only at hget ⊢
    obtain ⟨-, hslot⟩ := getBox_enterBox hnone hget
    exact ⟨name, hslot⟩

/-- In every reachable state the file holds the messages. -/
theorem framed_of_reachable {x : Channel} (h : Reachable next Start x) : ∃ k, Framed x k :=
  h.invariant (I := fun x => ∃ k, Framed x k) (fun _ hx => hx.framed)
    fun _ _ _ ⟨k, hx⟩ _ hnext => ⟨k, hx.next hnext⟩

/-- Every subscriber has read the first messages, in the order in which they were
written. Its `total_read` is the offset of its handle, and reaches the size of the box
when it has read every message; before that, its next `read_message` returns, with the
next message in its buffer. -/
theorem messages_framed {x : Channel} (h : Reachable next Start x) :
    ∀ fh r, x.readers fh = some r →
      r.received =
        (x.written.take r.received.length).map (fun m => ((m.strlen : ℤ) + 1, m.terminated)) ∧
      r.totalRead = (x.tfs.openFileTable fh).ofOffset ∧
      (x.box.size ≤ r.totalRead ↔ r.received.length = x.written.length) ∧
      (r.totalRead < x.box.size → ∃ m s', x.written[r.received.length]? = some m ∧
        readMessage x.tfs fh = .ret (m.strlen + 1, m.terminated, s')) := by
  obtain ⟨k, hinv⟩ := framed_of_reachable h
  intro fh r hr
  have hat := hinv.reader fh r hr
  refine ⟨hat.received, hat.totalRead, ?_, fun hlt => ?_⟩
  · have hle := hat.received_le
    rw [← not_lt, hat.totalRead, hat.offset, hinv.size, length_framed_take_lt_iff hle]
    omega
  · obtain ⟨m, hm, hread⟩ := hinv.readMessage_next hr hlt
    exact ⟨m, _, hm, hread⟩

/-- A fresh broker after the box `a` was created. -/
def Broker.created : Broker :=
  ((createBox .fresh ⟨4, 0, ""⟩ (Wire.ofArray [97])).map fun x => x.2.2).getD .fresh

/-- The channel of its box. -/
theorem start_created :
    Start ⟨Broker.created.tfs, Broker.created.mbrokerBoxes 0, none, fun _ => none, []⟩ := by
  have hinit : Initialised Broker.fresh.tfs :=
    ⟨.zeroed, mbrokerParams, tfsInit_eq_ret.mpr ⟨by decide, by decide, rfl⟩⟩
  have hret : (createBox .fresh ⟨4, 0, ""⟩ (Wire.ofArray [97])).any
      (fun x => decide (x.1 = 0)) = true := by decide +kernel
  obtain ⟨⟨ret, resp, m⟩, hcreate, hzero⟩ := (Option.any_eq_true _ _).mp hret
  obtain rfl := of_decide_eq_true hzero
  have hm : Broker.created = m := by
    unfold Broker.created
    rw [hcreate]
    rfl
  subst hm
  exact ⟨.fresh, _, resp, _, .created, 0, 1, .init hinit, hcreate, by decide +kernel,
    by decide +kernel, by decide +kernel, rfl⟩

/-- A subscriber has read two of three messages, the second of them empty. -/
theorem messages_framed_two : ∃ x, Reachable next Start x ∧
    (x.readers 1 = some ⟨4, [(3, [104, 105, 0]), (1, [0])]⟩ ∧ x.box.size = 6) ∧
    ∀ fh r, x.readers fh = some r →
      r.received =
        (x.written.take r.received.length).map (fun m => ((m.strlen : ℤ) + 1, m.terminated)) ∧
      r.totalRead = (x.tfs.openFileTable fh).ofOffset ∧
      (x.box.size ≤ r.totalRead ↔ r.received.length = x.written.length) ∧
      (r.totalRead < x.box.size → ∃ m s', x.written[r.received.length]? = some m ∧
        readMessage x.tfs fh = .ret (m.strlen + 1, m.terminated, s')) := by
  let hi : CString := ⟨[104, 105], by decide⟩
  let a : CString := ⟨[65], by decide⟩
  obtain ⟨x, hreach, hx⟩ := exists_of_runList next
    [.connect, .publish hi, .subscribe, .publish .empty, .publish a]
    (fun x => decide (x.readers 1 = some ⟨0, []⟩ ∧ x.box.size = 6 ∧ x.written = [hi, .empty, a]))
    start_created (by decide +kernel)
  obtain ⟨hreader, hsize, hwritten⟩ := of_decide_eq_true hx
  -- the two reads
  obtain ⟨k, hinv⟩ := framed_of_reachable hreach
  obtain ⟨m, hm, hfirst⟩ := hinv.read_eq hreader (by rw [hsize]; decide)
  obtain rfl : hi = m := by simpa [hwritten] using hm
  have hreach' := hreach.step trivial hfirst
  obtain ⟨k', hinv'⟩ := framed_of_reachable hreach'
  obtain ⟨m', hm', hsecond⟩ :=
    hinv'.read_eq (Function.update_self _ _ _) (by rw [hsize]; decide)
  obtain rfl : CString.empty = m' := by simpa [hwritten] using hm'
  have hreach'' := hreach'.step trivial hsecond
  refine ⟨_, hreach'', ⟨?_, hsize⟩, messages_framed hreach''⟩
  dsimp only
  rw [Function.update_self]
  rfl

end TfsBroker.Mbroker
