import TfsBroker.Fs2.Asserts
import TfsBroker.Fs.Congruence

/-!
# The two file systems agree

A run of calls on `fs2/` is followed step by step by the same run on `fs/`. The state
of `fs2/`, read as one of `fs/`, does the same as the call of `fs/`, as long as no
file with an open handle is removed; and a state of `fs/` with the same control and
the same data area answers alike.

## Main results

* `Mirrors.step` — one call on both file systems
* `file_systems_agree` — the same answers in whole runs, in which no assertion of
  `fs2/` can fire
-/

namespace TfsBroker.Fs2

open State Runs

variable {s s' : State} {t u : Fs.State} {name target : Option CString}
  {mode k b i n fh depth : ℕ} {fhandle r : ℤ}

/-! ### Handles on files without a block -/

namespace Backed

/-- A step that leaves the handles alone, and keeps the block number of every open
file and its size, or empties it. -/
theorem of_nodes (h : Backed t) (hparams : u.fsParams = t.fsParams) (hsame : Fs.SameHandles t u)
    (hnode : ∀ fh k, Fs.HandleOn t fh k →
      (u.inodeTable k).iDataBlock = (t.inodeTable k).iDataBlock ∧
        ((u.inodeTable k).iSize = 0 ∨ (u.inodeTable k).iSize = (t.inodeTable k).iSize)) :
    Backed u := by
  intro fh k hon
  have hold : Fs.HandleOn t fh k := ⟨hsame.entries ▸ hon.1, hsame.table ▸ hon.2⟩
  obtain ⟨hblock, hsize⟩ := hnode fh k hold
  rw [hblock, Fs.dataBlocks_congr hparams, hsame.table]
  refine (h fh k hold).imp_right ?_
  rintro ⟨hempty, hoffset⟩
  exact ⟨by omega, hoffset⟩

/-- A step that changes only a slot of the inode table that was free. -/
theorem of_freeSlot (h : Backed t) (hs : Fs.SeqInv t) (hparams : u.fsParams = t.fsParams)
    (hsame : Fs.SameHandles t u) (hfree : t.freeinodeTs k = .FREE)
    (hother : ∀ j, j ≠ k → u.inodeTable j = t.inodeTable j) : Backed u := by
  refine h.of_nodes hparams hsame fun fh j hon => ?_
  have hjk : j ≠ k := by
    rintro rfl
    obtain ⟨j', hj', hlive⟩ := hs.handles fh hon.1
    obtain rfl : j' = j := by exact_mod_cast hj'.symm.trans hon.2
    rw [hlive.taken] at hfree
    cases hfree
  rw [hother j hjk]
  exact ⟨rfl, .inr rfl⟩

/-- Opening a handle not behind the end of its file. -/
theorem tfsOpenRegister (h : Backed t) (hs : Fs.SeqInv t) (hk : Fs.LiveFile t k) {offset : ℕ}
    (hoffset : offset ≤ (t.inodeTable k).iSize)
    (hreg : (r, u) = Fs.tfsOpenRegister t k offset) : Backed u := by
  rcases Fs.tfsOpenRegister_cases t k offset with ⟨-, heq⟩ | ⟨fh, -, heq⟩ <;>
    rw [heq] at hreg <;> obtain ⟨-, rfl⟩ := Prod.mk.inj hreg
  · exact h
  intro fh' j hon
  by_cases hfh : fh' = fh
  · -- the new handle
    subst hfh
    obtain rfl : k = j := by
      have hj := hon.2
      simp only [Fs.registered, Fs.State.setEntry, Function.update_self] at hj
      exact_mod_cast hj
    by_cases hempty : (t.inodeTable k).iSize = 0
    · refine .inr ⟨hempty, ?_⟩
      simp only [Fs.registered, Fs.State.setEntry, Function.update_self]
      omega
    · obtain ⟨-, b, hb, hlt, -⟩ := hs.file_block hk (Nat.pos_of_ne_zero hempty)
      exact .inl ⟨b, hb, hlt⟩
  · have hentry : (Fs.registered t fh k offset).openFileTable fh' = t.openFileTable fh' :=
      Function.update_of_ne hfh _ _
    have hold : Fs.HandleOn t fh' j :=
      ⟨(Function.update_of_ne hfh _ _).symm.trans hon.1, hentry ▸ hon.2⟩
    rw [hentry]
    exact h fh' j hold

theorem tfsOpen (h : Backed t) (hs : Fs.SeqInv t)
    (hopen : Fs.tfsOpen t name mode depth = .ret (r, u)) : Backed u := by
  rcases hs.toDirInv.tfsOpen_cases hopen with ⟨-, rfl | ⟨k, hfirst, rfl⟩⟩ |
    ⟨k, i, -, hfirst, -, hdir, hreg⟩ | ⟨k, -, hk, hreg⟩
  · exact h
  · exact h.of_freeSlot hs rfl ⟨rfl, rfl⟩ (firstFree_free hfirst) fun j hj =>
      Function.update_of_ne hj _ _
  · refine tfsOpenRegister ?_ (hs.created hfirst hdir) (Fs.SeqInv.liveFile_created hfirst hs)
      (Nat.zero_le _) hreg
    exact h.of_freeSlot hs rfl ⟨rfl, rfl⟩ (firstFree_free hfirst) fun j hj =>
      Function.update_of_ne hj _ _
  · have hfound : Backed (Fs.found t k mode) := by
      unfold Fs.found
      split
      · rw [Fs.truncate_eq]
        refine h.of_nodes rfl ⟨rfl, rfl⟩ fun _ j _ => ?_
        by_cases hjk : j = k
        · subst hjk
          simp
        · simp [Function.update_of_ne hjk]
      · exact h
    refine tfsOpenRegister hfound (hs.found hk) (Fs.SeqInv.liveFile_found hk) ?_ hreg
    split
    · exact le_rfl
    · exact Nat.zero_le _

theorem tfsClose (h : Backed t) (fhandle : ℤ) : Backed (Fs.tfsClose t fhandle).2 := by
  rcases Fs.tfsClose_cases t fhandle with ⟨-, heq⟩ | ⟨fh, -, heq⟩
  · rw [heq]
    exact h
  · rw [heq]
    intro fh' k hon
    have hne : fh' ≠ fh := by
      rintro rfl
      have htaken := hon.1
      simp [Fs.State.setFreeEntry] at htaken
    exact h fh' k ⟨(Function.update_of_ne hne _ _).symm.trans hon.1, hon.2⟩

theorem tfsWrite (h : Backed t) (hs : Fs.SeqInv t) {buffer : ℕ → UInt8} {toWrite : ℕ}
    (hwrite : Fs.tfsWrite t fhandle buffer toWrite = .ret (r, u)) : Backed u := by
  rcases hs.tfsWrite_cases hwrite with ⟨rfl, -⟩ |
    ⟨fh, k, b, n, -, hon, -, hb, -, -, -, -, rfl⟩
  · exact h
  intro fh' j hon'
  by_cases hjk : j = k
  · -- the file has the block that was written
    subst hjk
    exact .inl ⟨b, by simp [Fs.written], hb.lt⟩
  · have hne : fh' ≠ fh := by
      rintro rfl
      have hj := hon'.2
      simp only [Fs.written, Function.update_self] at hj
      exact hjk (by exact_mod_cast hj.symm.trans hon)
    have hentry : (Fs.written t fh k b n buffer).openFileTable fh' = t.openFileTable fh' :=
      Function.update_of_ne hne _ _
    have hnode : (Fs.written t fh k b n buffer).inodeTable j = t.inodeTable j :=
      Function.update_of_ne hjk _ _
    rw [hentry, hnode]
    exact h fh' j ⟨hon'.1, hentry ▸ hon'.2⟩

theorem tfsRead (h : Backed t) (hs : Fs.SeqInv t) {len : ℕ} {res : ReadResult}
    (hread : Fs.tfsRead t fhandle len = .ret (res, u)) : Backed u := by
  rcases hs.tfsRead_cases hread with rfl | ⟨fh, k, n, hget, hon, -, hn, rfl⟩
  · exact h
  have htaken := (Fs.getOpenFileEntry_eq_some.mp hget).2.2
  intro fh' j hon'
  by_cases hfh : fh' = fh
  · subst hfh
    obtain rfl : k = j := by
      have hj := hon'.2
      simp only [Fs.State.setEntry, Function.update_self] at hj
      exact_mod_cast hon.symm.trans hj
    refine (h fh' k ⟨htaken, hon⟩).imp_right ?_
    rintro ⟨hempty, hoffset⟩
    refine ⟨hempty, ?_⟩
    -- an empty file gives no bytes
    rw [hempty, hoffset] at hn
    simp only [Fs.State.setEntry, Function.update_self, hoffset, hn]
    simp [clampRead, subSize]
  · have hentry : (t.setEntry fh { t.openFileTable fh with
        ofOffset := (t.openFileTable fh).ofOffset + n }).openFileTable fh' = t.openFileTable fh' :=
      Function.update_of_ne hfh _ _
    rw [hentry]
    exact h fh' j ⟨hon'.1, hentry ▸ hon'.2⟩

theorem freed (h : Backed t) : Backed (Fs.freed (Fs.cleared t i) k) := by
  rw [Fs.freed_eq]
  exact h.of_nodes rfl ⟨rfl, rfl⟩ fun _ _ _ => ⟨rfl, .inr rfl⟩

end Backed

/-! ### States of `fs/` with the same data area -/

/-- The same control and the same data area. -/
structure SameData (t u : Fs.State) : Prop extends Fs.SameControl t u where
  data : u.fsData = t.fsData

/-- A change writes the same bytes in both states. -/
theorem SameData.apply (h : SameData t u) (ht : Fs.ExclusiveInv t) (hu : Fs.ExclusiveInv u)
    {c : Fs.Change} (hc : Fs.Enabled t c) : SameData (c.apply t) (c.apply u) := by
  refine ⟨h.toSameControl.apply ht hu hc, ?_⟩
  have hblock := Fs.blockSize_congr h.params
  cases hc with
  | discard | register | close | seek => exact h.data
  | truncate =>
    simp only [Fs.Change.apply, Fs.truncate_eq]
    exact h.data
  | create | link | unlink =>
    simp only [Fs.Change.apply, Fs.created, Fs.linked, Fs.unlinked, Fs.cleared, Fs.State.setInode,
      h.data]
  | write hopen =>
    simp only [Fs.Change.apply, Fs.written, h.data, hblock, h.offset _ hopen]
  | discardLink | createLink =>
    simp only [Fs.Change.apply, Fs.linkDiscarded, Fs.linkCreated, Fs.linkInode, h.data, hblock]
  | free =>
    simp only [Fs.Change.apply, Fs.freed_eq, Fs.cleared, h.data]

/-- No call sees more than the control and the data area. -/
theorem congruence_sameData : Fs.Congruence SameData fun _ _ _ => True where
  control := SameData.toSameControl
  apply ht hu hr hc _ := hr.apply ht hu hc
  bytes _ _ hr _ _ _ _ _ _ _ := by rw [hr.data]
  fresh _ := trivial

/-! ### One call on both file systems -/

/-- What a call answers, the bytes it copies to its caller included, and the state it
leaves. -/
def respond (s : State) : Call → Outcome (ReadResult × State)
  | .read fh len => tfsRead s fh len.toNat
  | c => (call s c).bind fun (r, s) => .ret (⟨r, []⟩, s)

/-- What a call answers, if it returns. -/
def answer (s : State) (c : Call) : Option (ReadResult × State) := (respond s c).toOption

/-- The same call on `fs/`, following at most `depth` symbolic links. -/
def Call.toFs (depth : ℕ) : Call → Fs.Call
  | .open name mode => .open name mode depth
  | .close fh => .close fh
  | .write fh buffer toWrite => .write fh buffer toWrite
  | .read fh len => .read fh len
  | .unlink target => .unlink target

/-- The call removes no name whose inode has an open handle. -/
def SparesOpen (s : State) : Call → Prop
  | .unlink target => ∀ k : ℕ, tfsLookup s target rootDirInum = .ret k →
      ∀ fh < s.maxOpenFiles, ¬ HandleOn s fh k
  | _ => True

instance : (s : State) → (c : Call) → Decidable (SparesOpen s c)
  | s, .unlink target =>
    match h : tfsLookup s target rootDirInum with
    | .ret (.ofNat k) =>
      decidable_of_iff (∀ fh < s.maxOpenFiles, ¬ HandleOn s fh k) (by simp [SparesOpen, h])
    | .ret (.negSucc _) | .fault | .abort | .deep => .isTrue (by simp [SparesOpen, h])
  | _, .open _ _ | _, .close _ | _, .write _ _ _ | _, .read _ _ => .isTrue trivial

/-- The call removes no name whose inode has an open handle, and stays in the data
area. -/
def Admitted (s : State) (c : Call) : Prop := SparesOpen s c ∧ respond s c ≠ .fault

instance : (s : State) → (c : Call) → Decidable (Admitted s c) := fun _ _ =>
  inferInstanceAs (Decidable (_ ∧ _))

/-- A call that returns is answered, by itself or with the bytes read. -/
theorem respond_clean {c : Call} (h : Fs.SeqInv s.toFs) (hbacked : Backed s.toFs) :
    (respond s c).Clean := by
  cases c with
  | «open» name mode => exact Outcome.Clean.bind (tfsOpen_returns h).clean fun _ _ => by simp
  | close fh => exact Outcome.Clean.bind tfsClose_returns.clean fun _ _ => by simp
  | write fh buffer toWrite => exact Outcome.Clean.bind (tfsWrite_clean h) fun _ _ => by simp
  | read fh len => exact tfsRead_clean h hbacked
  | unlink target => exact Outcome.Clean.bind (tfsUnlink_returns h).clean fun _ _ => by simp

/-- A call of `tfs_open` that returns does not need its bound on links. -/
theorem tfsOpen_mono {x : ℤ × Fs.State} (h : Fs.tfsOpen t name mode depth = .ret x) :
    Fs.tfsOpen t name mode (depth + 1) = .ret x := by
  induction depth generalizing t name with
  | zero => cases h
  | succ depth ih =>
    rw [Fs.tfsOpen] at h ⊢
    obtain ⟨⟨root, t1⟩, hroot, h⟩ := Outcome.bind_eq_ret.mp h
    rw [hroot, Outcome.ret_bind]
    cases root with
    | failed | created => exact h
    | found k =>
      obtain ⟨⟨inode, t2⟩, hinode, h⟩ := Outcome.bind_eq_ret.mp h
      dsimp only
      rw [hinode, Outcome.ret_bind]
      cases inode with
      | failed | opened => exact h
      | follow target => exact ih h

theorem tfsOpen_of_one {x : ℤ × Fs.State} (h : Fs.tfsOpen t name mode 1 = .ret x) :
    Fs.tfsOpen t name mode (depth + 1) = .ret x := by
  induction depth with
  | zero => exact h
  | succ depth ih => exact tfsOpen_mono ih

/-- `tfs_unlink` of a file that is not open does what that of `fs/` does. -/
theorem toFs_tfsUnlink (h : Fs.SeqInv s.toFs) (hok : SparesOpen s (.unlink target))
    (hunlink : tfsUnlink s target = .ret (r, s')) :
    ∃ root, Fs.tfsUnlink s.toFs target = .ret (root, s'.toFs) ∧ root.ret = r := by
  rcases tfsUnlink_cases h.toDirInv hunlink with ⟨hmiss, rfl, rfl⟩ |
    ⟨k, i, hl, -, hlt, -, hi, hnames, -, rfl, hs'⟩
  · exact ⟨_, h.toDirInv.tfsUnlink_miss hmiss, rfl⟩
  have hlookup : tfsLookup s target rootDirInum = .ret k := by
    rw [tfsLookup_eq_ret h.toRootOk, hl]
  have hclosed : Fs.isInOpenFileTable s.toFs k = false := by
    refine (Fs.isInOpenFileTable_eq_false hlt).mpr fun fh hfh htaken hk => ?_
    exact hok k hlookup fh hfh ⟨htaken, hk⟩
  have heq := h.toDirInv.tfsUnlink_eq hl hi hnames
  rw [hclosed, Bool.and_false, if_neg (by decide), if_pos (by rfl), ← hs'] at heq
  exact ⟨_, heq, rfl⟩

/-- A call on `fs2/` is that call on `fs/`, in the state read as one of `fs/`. -/
theorem toFs_respond {c : Call} {res : ReadResult} (h : Fs.SeqInv s.toFs) (hok : SparesOpen s c)
    (hres : respond s c = .ret (res, s')) :
    Fs.call s.toFs (c.toFs (depth + 1)) = .ret (res, s'.toFs) := by
  cases c with
  | «open» name mode =>
    obtain ⟨⟨r, u⟩, hcall, hret⟩ := Outcome.bind_eq_ret.mp hres
    obtain ⟨rfl, rfl⟩ := Prod.mk.inj (Outcome.ret.inj hret)
    simp only [Call.toFs, Fs.call, Fs.noBytes,
      tfsOpen_of_one (toFs_tfsOpen h.toRootOk hcall), Outcome.ret_bind, id]
  | close fh =>
    obtain ⟨⟨r, u⟩, hcall, hret⟩ := Outcome.bind_eq_ret.mp hres
    obtain ⟨rfl, rfl⟩ := Prod.mk.inj (Outcome.ret.inj hret)
    simp only [Call.toFs, Fs.call, Fs.noBytes, toFs_tfsClose hcall, Outcome.ret_bind, id]
  | write fh buffer toWrite =>
    obtain ⟨⟨r, u⟩, hcall, hret⟩ := Outcome.bind_eq_ret.mp hres
    obtain ⟨rfl, rfl⟩ := Prod.mk.inj (Outcome.ret.inj hret)
    simp only [Call.toFs, Fs.call, Fs.noBytes, toFs_tfsWrite hcall, Outcome.ret_bind, id]
  | read fh len => exact toFs_tfsRead hres
  | unlink target =>
    obtain ⟨⟨r, u⟩, hcall, hret⟩ := Outcome.bind_eq_ret.mp hres
    obtain ⟨rfl, rfl⟩ := Prod.mk.inj (Outcome.ret.inj hret)
    obtain ⟨root, hunlink, rfl⟩ := toFs_tfsUnlink h hok hcall
    simp only [Call.toFs, Fs.call, Fs.noBytes, hunlink, Outcome.ret_bind]

theorem backed_respond {c : Call} {res : ReadResult} (h : Fs.SeqInv s.toFs)
    (hbacked : Backed s.toFs) (hres : respond s c = .ret (res, s')) : Backed s'.toFs := by
  cases c with
  | «open» name mode =>
    obtain ⟨⟨r, u⟩, hcall, hret⟩ := Outcome.bind_eq_ret.mp hres
    obtain ⟨rfl, rfl⟩ := Prod.mk.inj (Outcome.ret.inj hret)
    exact hbacked.tfsOpen h (toFs_tfsOpen h.toRootOk hcall)
  | close fh =>
    obtain ⟨⟨r, u⟩, hcall, hret⟩ := Outcome.bind_eq_ret.mp hres
    obtain ⟨rfl, rfl⟩ := Prod.mk.inj (Outcome.ret.inj hret)
    have hclose := hbacked.tfsClose fh
    rwa [toFs_tfsClose hcall] at hclose
  | write fh buffer toWrite =>
    obtain ⟨⟨r, u⟩, hcall, hret⟩ := Outcome.bind_eq_ret.mp hres
    obtain ⟨rfl, rfl⟩ := Prod.mk.inj (Outcome.ret.inj hret)
    exact hbacked.tfsWrite h (toFs_tfsWrite hcall)
  | read fh len => exact hbacked.tfsRead h (toFs_tfsRead hres)
  | unlink target =>
    obtain ⟨⟨r, u⟩, hcall, hret⟩ := Outcome.bind_eq_ret.mp hres
    obtain ⟨rfl, rfl⟩ := Prod.mk.inj (Outcome.ret.inj hret)
    rcases tfsUnlink_cases h.toDirInv hcall with ⟨-, -, rfl⟩ |
      ⟨k, i, -, -, -, -, -, -, -, -, hs'⟩
    · exact hbacked
    · rw [hs']
      exact hbacked.freed

/-- The state `t` of `fs/` does what the state `s` of `fs2/` does. -/
structure Mirrors (s : State) (t : Fs.State) : Prop where
  inv : Fs.ExclusiveInv s.toFs
  inv' : Fs.ExclusiveInv t
  backed : Backed s.toFs
  same : SameData s.toFs t

/-- One call on both file systems. -/
theorem Mirrors.step (h : Mirrors s t) {c : Call} (hok : Admitted s c) (depth : ℕ) :
    ∃ res s' t', respond s c = .ret (res, s') ∧
      Fs.call t (c.toFs (depth + 1)) = .ret (res, t') ∧ Mirrors s' t' := by
  have hs := h.inv.toSeqInv
  obtain ⟨⟨res, s'⟩, hres⟩ := (respond_clean hs h.backed).exists_ret hok.2
  have hcall : Fs.call s.toFs (c.toFs (depth + 1)) = .ret (res, s'.toFs) :=
    toFs_respond hs hok.1 hres
  have hallowed : Fs.Allowed (fun _ _ _ => True) s.toFs (c.toFs (depth + 1)) := by
    cases c with
    | write | read => exact fun _ _ _ _ _ => trivial
    | «open» | close | unlink => trivial
  -- the other state of `fs/` answers alike
  have hrel := congruence_sameData.call h.inv h.inv' h.same hallowed
  rw [hcall] at hrel
  generalize hother : Fs.call t (c.toFs (depth + 1)) = y at hrel
  obtain ⟨⟨res', t'⟩, rfl, hsame⟩ : ∃ p, y = .ret p ∧ Fs.SameAnswer SameData (res, s'.toFs) p := by
    cases hrel with
    | ret hsame => exact ⟨_, rfl, hsame⟩
  obtain ⟨rfl, hdata⟩ : res = res' ∧ SameData s'.toFs t' := hsame
  have hnext : ∀ {u u' : Fs.State}, Fs.call u (c.toFs (depth + 1)) = .ret (res, u') →
      Fs.next u (c.toFs (depth + 1)) = some u' := by
    intro u u' hu
    rw [Fs.next_eq, Fs.answer, hu]
    rfl
  exact ⟨res, s', t', hres, rfl, h.inv.next (hnext hcall), h.inv'.next (hnext hother),
    backed_respond hs h.backed hres, hdata⟩

/-! ### Whole runs -/

/-- After `tfs_init` of both, with the same memory for the data area. -/
theorem mirrors_init {heap : Heap} {heap' : Fs.Heap} {params : TfsParams}
    (hdata : heap'.fsData = heap.fsData) (h : tfsInit heap params = .ret (true, s)) :
    ∃ t, Fs.tfsInit heap' params = (true, t) ∧ Mirrors s t := by
  obtain ⟨hinodes, hblocks, rfl⟩ := tfsInit_eq_ret.mp h
  have hinit : ∀ heap, Fs.tfsInit heap params = (true, Fs.initState heap params) := fun heap =>
    have hok : (Fs.tfsInit heap params).1 = true := Fs.tfsInit_eq.1.mpr ⟨hinodes, hblocks⟩
    Prod.ext hok (Fs.tfsInit_eq.2 hok)
  -- the state of `fs2/` is one after the `tfs_init` of `fs/` as well
  have hinit' : Fs.tfsInit heap.toFs params = (true, (initState heap params).toFs) := by
    rw [hinit, toFs_initState]
  refine ⟨_, hinit heap', Fs.tfsInit_exclusiveInv ⟨_, _, hinit'⟩,
    Fs.tfsInit_exclusiveInv ⟨_, _, hinit heap'⟩, fun fh k hon => ?_,
    Fs.tfsInit_sameControl hinit' (hinit heap'), ?_⟩
  · cases hon.1
  · rw [toFs_initState]
    simp only [Fs.initState, Heap.toFs, hdata]

/-- The runs answer alike from states that mirror each other. -/
theorem Mirrors.answers_eq {calls : List Call} (h : Mirrors s t)
    (hok : Along Admitted answer s calls) :
    answers Fs.answer t (calls.map (Call.toFs (depth + 1))) = answers answer s calls ∧
      Along (fun s c => NoAssertFires s ∧ (answer s c).isSome = true) answer s calls := by
  induction calls generalizing s t with
  | nil => exact ⟨rfl, trivial⟩
  | cons c calls ih =>
    obtain ⟨res, s', t', hres, hcall, hmirrors⟩ := h.step hok.1 depth
    have hanswer : answer s c = some (res, s') := by rw [answer, hres, Outcome.toOption]
    have hanswer' : Fs.answer t (c.toFs (depth + 1)) = some (res, t') := by
      rw [Fs.answer, hcall, Outcome.toOption]
    obtain ⟨hrest, hclean⟩ := ih hmirrors (hok.2 res s' hanswer)
    refine ⟨?_, ⟨noAssertFires h.inv.toSeqInv h.backed, by rw [hanswer]; rfl⟩, ?_⟩
    · simp only [List.map_cons, answers, hanswer, hanswer', hrest]
    · intro res' u hu
      obtain ⟨rfl, rfl⟩ := Prod.mk.inj (Option.some_inj.mp (hanswer.symm.trans hu))
      exact hclean

/-- From the same memory for the data area, every run of calls that removes no open
file and stays in the data area is answered alike by both file systems. Every call
returns, and in no state of the run could an assertion of `fs2/` fire. -/
theorem file_systems_agree {heap : Heap} {heap' : Fs.Heap} {params : TfsParams}
    (hdata : heap'.fsData = heap.fsData) (h : tfsInit heap params = .ret (true, s))
    {calls : List Call} (hok : Along Admitted answer s calls) (depth : ℕ) :
    ∃ t, Fs.tfsInit heap' params = (true, t) ∧
      answers Fs.answer t (calls.map (Call.toFs (depth + 1))) = answers answer s calls ∧
      Along (fun s c => NoAssertFires s ∧ (answer s c).isSome = true) answer s calls := by
  obtain ⟨t, ht, hmirrors⟩ := mirrors_init hdata h
  exact ⟨t, ht, hmirrors.answers_eq hok⟩

/-- A file is written, read back through a second handle, closed and removed. -/
private def readBack : List Call :=
  [.open Fs.pathF1 tfsOCreat, .write 0 (fun _ => 7) 2, .open Fs.pathF1 0, .read 1 4, .close 0,
    .close 1, .unlink Fs.pathF1]

/-- Both file systems answer this run with the two bytes written. -/
theorem file_systems_agree_read : ∃ t, Fs.tfsInit .zeroed tfsDefaultParams = (true, t) ∧
    answers Fs.answer t (readBack.map (Call.toFs 1)) =
      [some ⟨0, []⟩, some ⟨2, []⟩, some ⟨1, []⟩, some ⟨2, [7, 7]⟩, some ⟨0, []⟩, some ⟨0, []⟩,
        some ⟨0, []⟩] := by
  have hinit : tfsInit .zeroed tfsDefaultParams = .ret (true, initState .zeroed tfsDefaultParams) :=
    tfsInit_eq_ret.mpr ⟨by decide, by decide, rfl⟩
  have hdata : Fs.Heap.zeroed.fsData = Heap.zeroed.fsData := rfl
  obtain ⟨t, ht, hanswers, -⟩ := file_systems_agree hdata hinit
    (show Along Admitted answer _ readBack by decide +kernel) 0
  refine ⟨t, ht, ?_⟩
  rw [hanswers]
  decide +kernel

end TfsBroker.Fs2
