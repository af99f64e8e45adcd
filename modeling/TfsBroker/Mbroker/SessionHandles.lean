import TfsBroker.Fs2.StaleHandles
import TfsBroker.Mbroker.Served

/-!
# The handles of the worker threads

A thread opens a file when it creates a box and when it begins a session, and closes it
when it is done. In between the handle is its own. What a step does through a handle says
what it leaves of the handles of the other threads, of the files and of their names.

## Main results

* `step_handles` — the call of the file system that a step makes
* `step_leaves` — what a step leaves of the handles and files of the other threads
* `readMessage_within` — what is read through a handle inside its file
-/

namespace TfsBroker.Mbroker

open Fs2 Runs

variable {m : Broker} {x y : Sys} {e : Turn} {p : Pc} {a : Act} {r : Step} {i k t fh room : ℕ}
  {s s' : State} {fd ret : ℤ} {buffer buffer' : List UInt8} {message : CString}

/-- The handle that the thread has open, also while it creates a box. -/
def Pc.opens : Pc → Option ℤ
  | .create _ (.opened fd) => if fd = -1 then none else some fd
  | p => p.handle

/-- The call of the file system that a step makes. -/
inductive HandleStep (m : Broker) (p : Pc) (r : Step) : Prop
  | keep (htfs : r.broker.tfs = m.tfs) (hopens : r.pc.opens = p.opens)
      (hhandle : r.pc.handle = p.handle)
  | creates (n : CString) (box : Box) (fd : ℤ) (hp : p = .create n .absent)
      (hr : r.pc = .create n (.opened fd))
      (hcall : tfsOpen m.tfs (some box.name) tfsOCreat = .ret (fd, r.broker.tfs))
  | opens (i mode : ℕ) (fd : ℤ) (hp : p.opens = none) (hbox : p.box = some i)
      (hr : r.pc.box = some i) (hopens : r.pc.opens = if fd = -1 then none else some fd)
      (hcreat : hasFlag mode tfsOCreat = false) (htrunc : hasFlag mode tfsOTrunc = false)
      (hcall : tfsOpen m.tfs (some (m.mbrokerBoxes i).name) mode = .ret (fd, r.broker.tfs))
  | closes (fd ret : ℤ) (hp : p.opens.getD (-1) = fd) (hr : r.pc.opens = none)
      (hcall : tfsClose m.tfs fd = .ret (ret, r.broker.tfs))
  | writes (i : ℕ) (fd ret : ℤ) (message : CString) (hp : p = .publisher (.writing i fd message))
      (hr : r.pc.opens = some fd)
      (hcall : writeMessage m.tfs fd message = .ret (ret, r.broker.tfs))
  | reads (i n : ℕ) (fd ret : ℤ) (buffer : List UInt8) (hp : p = .subscriber (.reading i fd n))
      (hr : r.pc = .subscriber (if ret = -1 then .leaving i fd else .read i fd n ret buffer))
      (hcall : readMessage m.tfs fd = .ret (ret, buffer, r.broker.tfs))
  | unlinks (i : ℕ) (ret : ℤ) (hp : p = .delete (.locked i))
      (hr : r.pc = if ret = 0 then .delete (.unlinked i) else .idle)
      (hcall : tfsUnlink m.tfs (some (m.mbrokerBoxes i).name) = .ret (ret, r.broker.tfs))

namespace HandleStep

/-- A step that begins with `mutex_lock`. -/
theorem of_lock {f : Broker → Step} (h : (m.lock i).map f = some r)
    (hopens : ∀ m, (f m).pc.opens = p.opens) (hhandle : ∀ m, (f m).pc.handle = p.handle)
    (htfs : ∀ m, (f m).broker.tfs = m.tfs := by intro; rfl) : HandleStep m p r := by
  obtain ⟨m', hlock, rfl⟩ := Option.map_eq_some_iff.mp h
  unfold Broker.lock at hlock
  split at hlock
  · cases hlock
  · obtain rfl := Option.some_inj.mp hlock
    exact .keep (htfs _) (hopens _) (hhandle _)

end HandleStep

theorem accept_handles (m : Broker) (opCode : ℕ) (boxName : CString) :
    HandleStep m .idle (accept m opCode boxName) := by
  unfold accept
  repeat' split
  all_goals exact .keep rfl rfl rfl

theorem createStep_handles {n : CString} {p : CreatePc} (h : createStep m n p = some r) :
    HandleStep m (.create n p) r := by
  cases p with
  | absent =>
    obtain ⟨box, -, h⟩ := Option.bind_eq_some_iff.mp h
    obtain ⟨⟨fd, tfs⟩, hopen, rfl⟩ := Option.map_eq_some_iff.mp h
    exact .creates n box fd rfl rfl (Outcome.toOption_eq_some.mp hopen)
  | opened fd =>
    obtain ⟨⟨ret, tfs⟩, hclose, rfl⟩ := Option.map_eq_some_iff.mp h
    have hp : (Pc.create n (.opened fd)).opens.getD (-1) = fd := by
      change (if fd = -1 then none else some fd).getD (-1) = fd
      split
      · rename_i hfd
        exact hfd.symm
      · rfl
    refine .closes fd ret hp ?_ ((Outcome.toOption_eq_some.mp hclose).trans ?_) <;>
      dsimp only <;> split <;> rfl
  | closed =>
    obtain ⟨box, -, hr⟩ := Option.map_eq_some_iff.mp h
    rw [← hr]
    exact .keep rfl rfl rfl
  | entered =>
    obtain rfl := Option.some_inj.mp h
    exact .keep rfl rfl rfl

theorem deleteStep_handles {p : DeletePc} (h : deleteStep m p = some r) :
    HandleStep m (.delete p) r := by
  cases p with
  | found => exact .of_lock h (fun _ => rfl) fun _ => rfl
  | locked i =>
    obtain ⟨⟨ret, tfs⟩, hunlink, rfl⟩ := Option.map_eq_some_iff.mp h
    refine .unlinks i ret rfl ?_ ((Outcome.toOption_eq_some.mp hunlink).trans ?_) <;> dsimp only
    · by_cases hret : ret = 0
      · rw [if_neg (not_not.mpr hret), if_pos hret]
      · rw [if_pos hret, if_neg hret]
    · split <;> rfl
  | unlinked | cleared | unlocked | deleted =>
    obtain rfl := Option.some_inj.mp h
    exact .keep rfl rfl rfl

theorem publisherStep_handles {p : PublisherPc} (h : publisherStep m p = some r) :
    HandleStep m (.publisher p) r := by
  cases p with
  | found | checked | leaving => exact .of_lock h (fun _ => rfl) fun _ => rfl
  | locked | received =>
    obtain rfl := Option.some_inj.mp h
    split <;> exact .keep rfl rfl rfl
  | admitted i =>
    obtain ⟨⟨fd, tfs⟩, hopen, rfl⟩ := Option.map_eq_some_iff.mp h
    refine .opens i _ fd rfl rfl ?_ ?_ (by decide) (by decide) (Outcome.toOption_eq_some.mp hopen) <;>
      dsimp only <;> split <;> rfl
  | writing i fd message =>
    obtain ⟨⟨ret, tfs⟩, hwrite, rfl⟩ := Option.map_eq_some_iff.mp h
    refine .writes i fd ret message rfl ?_ (Outcome.toOption_eq_some.mp hwrite)
    dsimp only
    split <;> rfl
  | left fd =>
    obtain ⟨⟨ret, tfs⟩, hclose, rfl⟩ := Option.map_eq_some_iff.mp h
    exact .closes fd ret rfl rfl (Outcome.toOption_eq_some.mp hclose)
  | opened | counted | failed | written | sized | unlocked | lockedToLeave | refused | uncounted =>
    obtain rfl := Option.some_inj.mp h
    exact .keep rfl rfl rfl
  | waiting => cases h

theorem subscriberStep_handles {p : SubscriberPc} (h : subscriberStep m p = some r) :
    HandleStep m (.subscriber p) r := by
  cases p with
  | found | looping | woken => exact .of_lock h (fun _ => rfl) fun _ => rfl
  | locked i =>
    obtain ⟨⟨fd, tfs⟩, hopen, rfl⟩ := Option.map_eq_some_iff.mp h
    refine .opens i _ fd rfl rfl ?_ ?_ (by decide) (by decide) (Outcome.toOption_eq_some.mp hopen) <;>
      dsimp only <;> split <;> rfl
  | looking =>
    simp only [subscriberStep] at h
    split at h <;> obtain rfl := Option.some_inj.mp h <;> exact .keep rfl rfl rfl
  | reading i fd n =>
    obtain ⟨⟨ret, buffer, tfs⟩, hread, rfl⟩ := Option.map_eq_some_iff.mp h
    exact .reads i n fd ret buffer rfl rfl (Outcome.toOption_eq_some.mp hread)
  | read =>
    obtain rfl := Option.some_inj.mp h
    split <;> exact .keep rfl rfl rfl
  | uncounted i fd =>
    obtain ⟨⟨ret, tfs⟩, hclose, rfl⟩ := Option.map_eq_some_iff.mp h
    exact .closes fd ret rfl rfl (Outcome.toOption_eq_some.mp hclose)
  | opened | counted | sent | leaving | refused | left =>
    obtain rfl := Option.some_inj.mp h
    exact .keep rfl rfl rfl
  | asleep | sending => cases h

/-- The call of the file system that a step makes. -/
theorem step_handles (h : step m p a = some r) : HandleStep m p r := by
  unfold step at h
  split at h
  · obtain rfl := Option.some_inj.mp h
    exact accept_handles _ _ _
  · exact createStep_handles h
  · exact deleteStep_handles h
  · obtain rfl := Option.some_inj.mp h
    split <;> exact .keep rfl rfl rfl
  · exact publisherStep_handles h
  · obtain rfl := Option.some_inj.mp h
    split <;> exact .keep rfl rfl rfl
  · exact subscriberStep_handles h
  · cases h

/-! ### Messages -/

theorem writeMessage_uses (hs : Stored s.toFs)
    (h : writeMessage s fd message = .ret (ret, s')) : Uses fd s.toFs s'.toFs :=
  writeMessage_rel (R := fun s s' => Stored s.toFs → Uses fd s.toFs s'.toFs)
    (fun _ _ _ hfirst hsecond hs => (hfirst hs).trans (hsecond (hfirst hs).stored))
    (fun _ _ _ _ _ hwrite hs => (hs.tfsWrite_uses (toFs_tfsWrite hwrite)).1) h hs

theorem readMessage_sparesFiles {own : ℕ → Prop} (hs : Stored s.toFs)
    (h : readMessage s fd = .ret (ret, buffer, s')) : SparesFiles own s.toFs s'.toFs :=
  (readLoop_rel (R := fun s s' => Stored s.toFs →
      SparesFiles own s.toFs s'.toFs ∧ Stored s'.toFs)
    (fun _ _ _ hfirst hsecond hs => by
      obtain ⟨hspares, hs'⟩ := hfirst hs
      obtain ⟨hspares', hs''⟩ := hsecond hs'
      exact ⟨hspares.trans hspares', hs''⟩)
    (fun _ _ _ hread hs => ⟨hs.tfsRead_sparesFiles (toFs_tfsRead hread),
      (hs.tfsRead_uses (toFs_tfsRead hread)).stored⟩) h hs).1

theorem readMessage_uses (hs : Stored s.toFs)
    (h : readMessage s fd = .ret (ret, buffer, s')) : Uses fd s.toFs s'.toFs :=
  readLoop_rel (R := fun s s' => Stored s.toFs → Uses fd s.toFs s'.toFs)
    (fun _ _ _ hfirst hsecond hs => (hfirst hs).trans (hsecond (hfirst hs).stored))
    (fun _ _ _ hread hs => hs.tfsRead_uses (toFs_tfsRead hread)) h hs

/-- A message leaves the handle inside its file. -/
theorem writeMessage_inside (hs : Stored s.toFs) (hon : Fs.HandleOn s.toFs fh k)
    (hinside : (s.openFileTable fh).ofOffset ≤ (s.inodeTable k).iSize)
    (h : writeMessage s fh message = .ret (ret, s')) :
    (s'.openFileTable fh).ofOffset ≤ (s'.inodeTable k).iSize :=
  (writeMessage_rel (R := fun s s' => Stored s.toFs ∧ Fs.HandleOn s.toFs fh k ∧
      (s.openFileTable fh).ofOffset ≤ (s.inodeTable k).iSize →
      Stored s'.toFs ∧ Fs.HandleOn s'.toFs fh k ∧
      (s'.openFileTable fh).ofOffset ≤ (s'.inodeTable k).iSize)
    (fun _ _ _ hfirst hsecond hs => hsecond (hfirst hs))
    (fun _ _ _ _ _ hwrite hs => by
      obtain ⟨hs, hon, hle⟩ := hs
      obtain ⟨huses, hinside⟩ := hs.tfsWrite_uses (toFs_tfsWrite hwrite)
      exact ⟨huses.stored, huses.handleOn hon, hinside fh k rfl hon hle⟩) h ⟨hs, hon, hinside⟩).2.2

/-- A message changes no file but that of its handle, if no other has its block. -/
theorem writeMessage_sparesFiles (hs : Stored s.toFs) (hon : Fs.HandleOn s.toFs fh k)
    (hapart : Apart s.toFs k) (h : writeMessage s fh message = .ret (ret, s')) :
    SparesFiles (· = k) s.toFs s'.toFs :=
  (writeMessage_rel (R := fun s s' => Stored s.toFs ∧ Fs.HandleOn s.toFs fh k ∧ Apart s.toFs k →
      SparesFiles (· = k) s.toFs s'.toFs ∧ Stored s'.toFs ∧ Fs.HandleOn s'.toFs fh k ∧ Apart s'.toFs k)
    (fun _ _ _ hfirst hsecond hs => by
      obtain ⟨hspares, hs'⟩ := hfirst hs
      obtain ⟨hspares', hs''⟩ := hsecond hs'
      exact ⟨hspares.trans hspares', hs''⟩)
    (fun _ _ _ _ _ hwrite hs => by
      obtain ⟨hs, hon, hapart⟩ := hs
      have huses := (hs.tfsWrite_uses (toFs_tfsWrite hwrite)).1
      obtain ⟨hspares, hapart'⟩ := hs.tfsWrite_sparesFiles hon hapart (toFs_tfsWrite hwrite)
      exact ⟨hspares, huses.stored, huses.handleOn hon, hapart'⟩) h ⟨hs, hon, hapart⟩).1

/-- At the end of the file the loop of `read_message` stops. -/
theorem readLoop_stops (h : OpenFile s fh k)
    (hend : (s.openFileTable fh).ofOffset = (s.inodeTable k).iSize) :
    readLoop s fh buffer room = .ret (-1, buffer, s) := by
  cases room <;> rw [readLoop, h.tfsRead_end hend, Outcome.ret_bind] <;> rfl

theorem readLoop_end (h : OpenFile s fh k)
    (hend : (s.openFileTable fh).ofOffset = (s.inodeTable k).iSize)
    (hread : readLoop s fh buffer room = .ret (ret, buffer', s')) :
    ret = -1 ∧ buffer' = buffer ∧ s' = s := by
  obtain ⟨hret, hrest⟩ := Prod.mk.inj (Outcome.ret.inj (hread.symm.trans (readLoop_stops h hend)))
  exact ⟨hret, Prod.mk.inj hrest⟩

/-- What the loop of `read_message` reads through a handle inside its file. -/
theorem readLoop_inside (h : OpenFile s fh k)
    (hle : (s.openFileTable fh).ofOffset ≤ (s.inodeTable k).iSize)
    (hread : readLoop s fh buffer room = .ret (ret, buffer', s')) :
    ∃ n, (s.openFileTable fh).ofOffset + n ≤ (s.inodeTable k).iSize ∧
      buffer' = buffer ++ s.fsData.slice (fileAddress s k + (s.openFileTable fh).ofOffset) n ∧
      (s'.openFileTable fh).ofOffset ≤ (s'.inodeTable k).iSize := by
  induction room generalizing s buffer with
  | zero =>
    rcases hle.eq_or_lt with hend | hlt
    · obtain ⟨-, rfl, rfl⟩ := readLoop_end h hend hread
      exact ⟨0, hle, by rw [Memory.slice_zero, List.append_nil], hle⟩
    · rw [readLoop, h.tfsRead_byte hlt, Outcome.ret_bind] at hread
      cases hread
  | succ room ih =>
    rcases hle.eq_or_lt with hend | hlt
    · obtain ⟨-, rfl, rfl⟩ := readLoop_end h hend hread
      exact ⟨0, hle, by rw [Memory.slice_zero, List.append_nil], hle⟩
    -- one byte, and what the rest of the loop reads
    rw [readLoop, h.tfsRead_byte hlt, Outcome.ret_bind] at hread
    dsimp only at hread
    rw [if_neg (by decide)] at hread
    have hnext : (s.openFileTable fh).ofOffset + 1 ≤ (s.inodeTable k).iSize := hlt
    split at hread
    · obtain ⟨-, hrest⟩ := Prod.mk.inj (Outcome.ret.inj hread)
      obtain ⟨rfl, rfl⟩ := Prod.mk.inj hrest
      exact ⟨1, hlt, rfl, by simpa [State.setEntry] using hnext⟩
    · have hle' : ((s.setEntry fh { s.openFileTable fh with
          ofOffset := (s.openFileTable fh).ofOffset + 1 }).openFileTable fh).ofOffset ≤
          (s.inodeTable k).iSize := by
        simpa [State.setEntry] using hnext
      obtain ⟨n, hn, rfl, hinside⟩ := ih (h.seek h.on) hle' hread
      simp only [State.setEntry, Function.update_self] at hn
      refine ⟨1 + n, by omega, ?_, hinside⟩
      rw [Memory.slice_add, List.append_assoc]
      simp only [State.setEntry, Function.update_self, Nat.add_assoc]
      rfl

/-- What is read through a handle inside its file are bytes of the file. -/
theorem readMessage_within (h : OpenFile s fh k)
    (hle : (s.openFileTable fh).ofOffset ≤ (s.inodeTable k).iSize)
    (hread : readMessage s fh = .ret (ret, buffer, s')) :
    buffer <:+: fileContents s k ∧ (s'.openFileTable fh).ofOffset ≤ (s'.inodeTable k).iSize := by
  obtain ⟨n, hn, rfl, hinside⟩ := readLoop_inside h hle hread
  refine ⟨?_, hinside⟩
  obtain ⟨d, hd⟩ := Nat.exists_eq_add_of_le hn
  rw [fileContents, hd, Memory.slice_add, Memory.slice_add]
  exact ⟨_, _, rfl⟩

/-! ### What a step leaves -/

/-- The handle is open. -/
def OpenHandle (s : State) (fd : ℤ) : Prop :=
  ∃ fh : ℕ, fd = fh ∧ fh < s.maxOpenFiles ∧ s.freeOpenFileEntries fh = .TAKEN

/-- The handle is on the file of the box in slot `i`, and inside it. -/
def OnFile (m : Broker) (i : ℕ) (fd : ℤ) : Prop :=
  ∃ fh k : ℕ, fd = fh ∧ Fs.HandleOn m.tfs.toFs fh k ∧
    Fs.tfsLookup m.tfs.toFs (some (m.mbrokerBoxes i).name) 0 = k ∧
    (m.tfs.openFileTable fh).ofOffset ≤ (m.tfs.inodeTable k).iSize

/-- What a step leaves: the handles of the other threads, the files, and the names but that of
a box which is deleted. -/
structure StepLeaves (m : Broker) (p : Pc) (r : Step) : Prop
    extends Spares (p.opens.getD (-1)) m.tfs.toFs r.broker.tfs.toFs where
  stored : Stored r.broker.tfs.toFs
  params : r.broker.tfs.fsParams = m.tfs.fsParams
  names : ∀ name (k : ℕ), (∀ i, p = .delete (.locked i) → r.pc = .delete (.unlinked i) →
      name ≠ some (m.mbrokerBoxes i).name) →
    Fs.tfsLookup m.tfs.toFs name 0 = k → Fs.tfsLookup r.broker.tfs.toFs name 0 = k

theorem StepLeaves.of_leaves (h : CallLeaves (p.opens.getD (-1)) m.tfs.toFs r.broker.tfs.toFs) :
    StepLeaves m p r :=
  ⟨h.toSpares, h.stored, h.params, fun name k _ => h.names name k⟩

/-- A handle of another thread stays open, and where it is. -/
theorem StepLeaves.handle (h : StepLeaves m p r) (hne : p.opens ≠ some (fh : ℤ))
    (htaken : m.tfs.freeOpenFileEntries fh = .TAKEN) :
    r.broker.tfs.freeOpenFileEntries fh = .TAKEN ∧
      r.broker.tfs.toFs.openFileTable fh = m.tfs.toFs.openFileTable fh := by
  have hother : (fh : ℤ) ≠ p.opens.getD (-1) := by
    cases hp : p.opens with
    | none => exact Fs.natCast_ne_neg_one fh
    | some fd => exact fun heq => hne (by rw [hp, heq]; rfl)
  exact h.handles fh hother htaken

theorem step_leaves (h : step m p a = some r) (hs : Stored m.tfs.toFs) : StepLeaves m p r := by
  cases step_handles h with
  | keep htfs =>
    refine .of_leaves ?_
    rw [htfs]
    exact .refl hs
  | creates n box fd hp hr hcall =>
    refine .of_leaves ?_
    rw [hp]
    exact (hs.tfsOpen_leaves (by decide) (toFs_tfsOpen hs.dir.toRootOk hcall)).1
  | opens i mode fd hp hbox hr hopens hcreat htrunc hcall =>
    refine .of_leaves ?_
    rw [hp]
    exact (hs.tfsOpen_leaves htrunc (toFs_tfsOpen hs.dir.toRootOk hcall)).1
  | closes fd ret hp hr hcall =>
    refine .of_leaves ?_
    have hleaves := hs.tfsClose_leaves fd
    rw [toFs_tfsClose hcall] at hleaves
    rwa [hp]
  | writes i fd ret message hp hr hcall =>
    refine .of_leaves ?_
    rw [hp]
    exact (writeMessage_uses hs hcall).toCallLeaves
  | reads i n fd ret buffer hp hr hcall =>
    refine .of_leaves ?_
    rw [hp]
    exact (readMessage_uses hs hcall).toCallLeaves
  | unlinks i ret hp hr hcall =>
    obtain ⟨hstored, hparams, -, hspares, hnames⟩ := hs.tfsUnlink hcall
    refine ⟨?_, hstored, hparams, fun name k hne => hnames name k fun hret => ?_⟩
    · rw [hp]
      exact hspares
    · exact hne i hp (by rw [hr, if_pos hret])

/-- The handle that `tfs_open` gives out was not open. -/
theorem openHandle_new {name : Option CString} {mode : ℕ} (hs : Stored s.toFs)
    (htrunc : hasFlag mode tfsOTrunc = false) (hcall : tfsOpen s name mode = .ret (ret, s'))
    (hfd : (if ret = -1 then none else some ret) = some fd) :
    OpenHandle s' fd ∧ ¬ OpenHandle s fd := by
  have hopen := toFs_tfsOpen hs.dir.toRootOk hcall
  obtain ⟨hleaves, hnew⟩ := hs.tfsOpen_leaves htrunc hopen
  split at hfd
  · cases hfd
  rename_i hret
  obtain rfl := Option.some_inj.mp hfd
  obtain ⟨fh, k, h, -⟩ := hnew.resolve_left fun hfail => hret hfail.1
  have hmax : s'.maxOpenFiles = s.maxOpenFiles := congrArg TfsParams.maxOpenFilesCount hleaves.params
  refine ⟨⟨fh, h.handle, hmax ▸ h.lt, h.on.1⟩, ?_⟩
  rintro ⟨fh', hfd', -, htaken⟩
  obtain rfl : fh = fh' := by exact_mod_cast h.handle.symm.trans hfd'
  cases h.fresh.symm.trans htaken

/-- A step of another thread leaves the handle open. -/
theorem OpenHandle.of_leaves (h : OpenHandle m.tfs fd) (hleaves : StepLeaves m p r)
    (hne : p.opens ≠ some fd) : OpenHandle r.broker.tfs fd := by
  obtain ⟨fh, rfl, hlt, htaken⟩ := h
  have hmax : r.broker.tfs.maxOpenFiles = m.tfs.maxOpenFiles :=
    congrArg TfsParams.maxOpenFilesCount hleaves.params
  exact ⟨fh, rfl, hmax ▸ hlt, (hleaves.handle hne htaken).1⟩

/-- A read or a write leaves its handle open. -/
theorem OpenHandle.of_uses (h : OpenHandle s fd) (huses : Uses fd s.toFs s'.toFs) :
    OpenHandle s' fd := by
  obtain ⟨fh, hfd, hlt, htaken⟩ := h
  have hmax : s'.maxOpenFiles = s.maxOpenFiles := congrArg TfsParams.maxOpenFilesCount huses.params
  exact ⟨fh, hfd, hmax ▸ hlt, (congrFun huses.entries fh).trans htaken⟩

/-- The handle that a thread has open after its step is the one it had, or was not open. -/
theorem step_opens (h : step m p a = some r) (hs : Stored m.tfs.toFs)
    (hown : ∀ fd, p.opens = some fd → OpenHandle m.tfs fd) (hr : r.pc.opens = some fd) :
    OpenHandle r.broker.tfs fd ∧ (p.opens = some fd ∨ ¬ OpenHandle m.tfs fd) := by
  cases step_handles h with
  | keep htfs hopens =>
    rw [htfs]
    exact ⟨hown fd (hopens.symm.trans hr), .inl (hopens.symm.trans hr)⟩
  | creates n box fd' hp hpc hcall =>
    rw [hpc] at hr
    exact (openHandle_new hs (by decide) hcall hr).imp_right .inr
  | opens i mode fd' hp hbox hpc hopens hcreat htrunc hcall =>
    rw [hopens] at hr
    exact (openHandle_new hs htrunc hcall hr).imp_right .inr
  | closes fd' ret hp hpc => cases hpc.symm.trans hr
  | writes i fd' ret message hp hpc hcall =>
    obtain rfl := Option.some_inj.mp (hpc.symm.trans hr)
    have hp' : p.opens = some fd' := by rw [hp]; rfl
    exact ⟨(hown fd' hp').of_uses (writeMessage_uses hs hcall), .inl hp'⟩
  | reads i n fd' ret buffer hp hpc hcall =>
    have hfd' : fd' = fd := by
      rw [hpc] at hr
      split at hr <;> exact Option.some_inj.mp hr
    subst hfd'
    have hp' : p.opens = some fd' := by rw [hp]; rfl
    exact ⟨(hown fd' hp').of_uses (readMessage_uses hs hcall), .inl hp'⟩
  | unlinks i ret hp hpc =>
    rw [hpc] at hr
    split at hr <;> cases hr

/-- A handle that is open after a step is the one that the thread has then, or was open and
not the one that the thread had. -/
theorem step_openHandle (h : step m p a = some r) (hs : Stored m.tfs.toFs)
    (hopen : OpenHandle r.broker.tfs fd) :
    r.pc.opens = some fd ∨ OpenHandle m.tfs fd ∧ p.opens ≠ some fd := by
  have hmax : r.broker.tfs.maxOpenFiles = m.tfs.maxOpenFiles :=
    congrArg TfsParams.maxOpenFilesCount (step_leaves h hs).params
  have hsame : r.broker.tfs.freeOpenFileEntries = m.tfs.freeOpenFileEntries →
      OpenHandle m.tfs fd := by
    intro hentries
    obtain ⟨fh, hfd, hlt, htaken⟩ := hopen
    exact ⟨fh, hfd, hmax ▸ hlt, hentries ▸ htaken⟩
  have hkeep : r.broker.tfs.freeOpenFileEntries = m.tfs.freeOpenFileEntries →
      r.pc.opens = p.opens → r.pc.opens = some fd ∨ OpenHandle m.tfs fd ∧ p.opens ≠ some fd := by
    intro hentries hopens
    by_cases hp : p.opens = some fd
    · exact .inl (hopens.trans hp)
    · exact .inr ⟨hsame hentries, hp⟩
  -- `tfs_open` by a thread without a handle
  have hnew : ∀ {name mode ret}, hasFlag mode tfsOTrunc = false →
      tfsOpen m.tfs name mode = .ret (ret, r.broker.tfs) → p.opens = none →
      (r.pc.opens = if ret = -1 then none else some ret) →
      r.pc.opens = some fd ∨ OpenHandle m.tfs fd ∧ p.opens ≠ some fd := by
    intro name mode ret htrunc hcall hp hopens
    obtain ⟨-, ⟨-, hentries⟩ | ⟨fh, k, hfh, -⟩⟩ :=
      hs.tfsOpen_leaves htrunc (toFs_tfsOpen hs.dir.toRootOk hcall)
    · exact .inr ⟨hsame hentries, by simp [hp]⟩
    · obtain ⟨fh', rfl, hlt, htaken⟩ := hopen
      rcases hfh.only fh' htaken with rfl | hold
      · rw [hopens, hfh.handle, if_neg (Fs.natCast_ne_neg_one fh')]
        exact .inl rfl
      · exact .inr ⟨⟨fh', rfl, hmax ▸ hlt, hold⟩, by simp [hp]⟩
  cases step_handles h with
  | keep htfs hopens => exact hkeep (by rw [htfs]) hopens
  | creates n box fd' hp hpc hcall =>
    exact hnew (by decide) hcall (by rw [hp]; rfl) (by rw [hpc]; rfl)
  | opens i mode fd' hp hbox hpc hopens hcreat htrunc hcall => exact hnew htrunc hcall hp hopens
  | closes fd' ret hp hpc hcall =>
    have hstate : (Fs.tfsClose m.tfs.toFs fd').2 = r.broker.tfs.toFs :=
      congrArg Prod.snd (toFs_tfsClose hcall)
    obtain ⟨fh, rfl, hlt, htaken⟩ := hopen
    have hlt' : fh < m.tfs.maxOpenFiles := hmax ▸ hlt
    rcases Fs.tfsClose_cases m.tfs.toFs fd' with ⟨hget, heq⟩ | ⟨fh', hget, heq⟩
    · -- a thread with a handle closes that one
      have hsame' : r.broker.tfs.toFs = m.tfs.toFs := by rw [← hstate, heq]
      have htaken' : m.tfs.freeOpenFileEntries fh = .TAKEN :=
        (congrFun (congrArg Fs.State.freeOpenFileEntries hsame') fh).symm.trans htaken
      refine .inr ⟨⟨fh, rfl, hlt', htaken'⟩, fun hown => ?_⟩
      rw [hown, Option.getD_some] at hp
      have hsome : Fs.getOpenFileEntry m.tfs.toFs fd' = some fh :=
        Fs.getOpenFileEntry_eq_some.mpr ⟨hp.symm, hlt', htaken'⟩
      cases hget.symm.trans hsome
    · obtain ⟨rfl, -, -⟩ := Fs.getOpenFileEntry_eq_some.mp hget
      have hentries : r.broker.tfs.freeOpenFileEntries =
          Function.update m.tfs.freeOpenFileEntries fh' .FREE := by
        rw [heq] at hstate
        exact (congrArg Fs.State.freeOpenFileEntries hstate).symm
      rw [hentries] at htaken
      by_cases hne : fh = fh'
      · rw [hne, Function.update_self] at htaken
        cases htaken
      · rw [Function.update_of_ne hne] at htaken
        refine .inr ⟨⟨fh, rfl, hlt', htaken⟩, fun hown => hne ?_⟩
        rw [hown, Option.getD_some] at hp
        exact_mod_cast hp
  | writes i fd' ret message hp hpc hcall =>
    refine hkeep (writeMessage_uses hs hcall).entries ?_
    rw [hpc, hp]
    rfl
  | reads i n fd' ret buffer hp hpc hcall =>
    refine hkeep (readMessage_uses hs hcall).entries ?_
    rw [hpc, hp]
    split <;> rfl
  | unlinks i ret hp hpc hcall =>
    refine hkeep (hs.tfsUnlink hcall).2.2.1 ?_
    rw [hpc, hp]
    split <;> rfl

/-! ### The file of the box -/

theorem Pc.opens_of_handle (h : p.handle = some fd) : p.opens = some fd := by
  cases p with
  | create => cases h
  | _ => exact h

/-- The file of a box in use is in use. -/
theorem taken_of_lookup (hs : Stored s.toFs) {name : Option CString}
    (hl : Fs.tfsLookup s.toFs name 0 = k) : s.freeinodeTs k = .TAKEN := by
  obtain ⟨-, -, k', -, -, -, hk, -, -, htaken⟩ := hs.dir.lookup hl (Fs.natCast_ne_neg_one k)
  obtain rfl : k = k' := by exact_mod_cast hk
  exact htaken

/-- A step of another thread. -/
theorem OnFile.of_leaves (h : OnFile m i fd) (hs : Stored m.tfs.toFs) (hleaves : StepLeaves m p r)
    (hne : p.opens ≠ some fd) (hname : (r.broker.mbrokerBoxes i).name = (m.mbrokerBoxes i).name)
    (hdelete : ∀ j, p = .delete (.locked j) → r.pc = .delete (.unlinked j) →
      (m.mbrokerBoxes i).name ≠ (m.mbrokerBoxes j).name) : OnFile r.broker i fd := by
  obtain ⟨fh, k, rfl, hon, hl, hle⟩ := h
  obtain ⟨htaken, hentry⟩ := hleaves.handle hne hon.1
  have hl' := hleaves.names _ k (fun j hp hr heq => hdelete j hp hr (Option.some_inj.mp heq)) hl
  refine ⟨fh, k, rfl, ⟨htaken, hentry ▸ hon.2⟩, by rw [hname, hl'], ?_⟩
  have hgrows := hleaves.grows k (taken_of_lookup hs hl) (taken_of_lookup hleaves.stored hl')
  have hoffset : (r.broker.tfs.openFileTable fh).ofOffset = (m.tfs.openFileTable fh).ofOffset :=
    congrArg Fs.OpenFileEntry.ofOffset hentry
  rw [hoffset]
  exact hle.trans hgrows

/-- A read or a write of the thread itself. -/
theorem OnFile.of_uses {fh : ℕ} (hon : Fs.HandleOn m.tfs.toFs fh k)
    (hl : Fs.tfsLookup m.tfs.toFs (some (m.mbrokerBoxes i).name) 0 = k)
    (huses : Uses fh m.tfs.toFs r.broker.tfs.toFs)
    (hname : (r.broker.mbrokerBoxes i).name = (m.mbrokerBoxes i).name)
    (hle : (r.broker.tfs.openFileTable fh).ofOffset ≤ (r.broker.tfs.inodeTable k).iSize) :
    OnFile r.broker i fh :=
  ⟨fh, k, rfl, huses.handleOn hon, by rw [hname]; exact huses.names _ k hl, hle⟩

/-- A step of the thread itself: a handle that it opens is on the file of the box, and the one
it had stays there. -/
theorem step_onFile (h : step m p a = some r) (hs : Stored m.tfs.toFs)
    (hown : ∀ fd, p.opens = some fd → OpenHandle m.tfs fd)
    (honFile : p.box = some i → p.handle = some fd → OnFile m i fd)
    (hname : (r.broker.mbrokerBoxes i).name = (m.mbrokerBoxes i).name)
    (hbox : r.pc.box = some i) (hfd : r.pc.handle = some fd) : OnFile r.broker i fd := by
  have hopens' := Pc.opens_of_handle hfd
  -- the session did not begin with this step if it had a handle before
  have hbefore : ∀ {fd'}, p.handle = some fd' → p.box = some i := by
    intro fd' hp
    refine (step_box h hbox).resolve_right ?_
    rintro ⟨rfl, -⟩
    cases hp
  cases step_handles h with
  | keep htfs hopens hhandle =>
    have hp := hhandle.symm.trans hfd
    obtain ⟨fh, k, rfl, hon, hl, hle⟩ := honFile (hbefore hp) hp
    refine ⟨fh, k, rfl, ?_, ?_, ?_⟩
    · rwa [htfs]
    · rwa [htfs, hname]
    · rwa [htfs]
  | creates n box fd' hp hpc =>
    rw [hpc] at hfd
    cases hfd
  | opens j mode fd' hp _ hpc hopens hcreat htrunc hcall =>
    obtain rfl := Option.some_inj.mp (hpc.symm.trans hbox)
    rw [hopens] at hopens'
    split at hopens'
    · cases hopens'
    rename_i hne
    obtain rfl := Option.some_inj.mp hopens'
    obtain ⟨hleaves, hnew⟩ := hs.tfsOpen_leaves htrunc (toFs_tfsOpen hs.dir.toRootOk hcall)
    obtain ⟨fh, k, hnew, hl⟩ := hnew.resolve_left fun hfail => hne hfail.1
    exact ⟨fh, k, hnew.handle, hnew.on, by rw [hname]; exact hleaves.names _ k (hl hcreat),
      hnew.inside⟩
  | closes fd' ret hp hpc => cases hpc.symm.trans hopens'
  | writes j fd' ret message hp hpc hcall =>
    obtain rfl := Option.some_inj.mp (hpc.symm.trans hopens')
    have hp' : p.handle = some fd' := by rw [hp]; rfl
    obtain ⟨fh, k, rfl, hon, hl, hle⟩ := honFile (hbefore hp') hp'
    exact .of_uses hon hl (writeMessage_uses hs hcall) hname (writeMessage_inside hs hon hle hcall)
  | reads j n fd' ret buffer hp hpc hcall =>
    have hfd' : fd' = fd := by
      rw [hpc] at hopens'
      split at hopens' <;> exact Option.some_inj.mp hopens'
    subst hfd'
    have hp' : p.handle = some fd' := by rw [hp]; rfl
    obtain ⟨fh, k, rfl, hon, hl, hle⟩ := honFile (hbefore hp') hp'
    obtain ⟨fh', hfh', hlt, -⟩ := hown fh (Pc.opens_of_handle hp')
    obtain rfl : fh = fh' := by exact_mod_cast hfh'
    have hopen := hs.openFile hon hlt (taken_of_lookup hs hl)
    exact .of_uses hon hl (readMessage_uses hs hcall) hname (readMessage_within hopen hle hcall).2
  | unlinks j ret hp hpc =>
    rw [hpc] at hfd
    split at hfd <;> cases hfd

end TfsBroker.Mbroker
