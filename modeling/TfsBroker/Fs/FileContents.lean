import TfsBroker.Fs.Failures

/-!
# The bytes of a file

What a file holds changes only when the file is created, truncated or written to. The
ledger kept beside the file system collects, for each file, the bytes written through
its handles since it was created or last truncated. While every write is made through
a handle that stands inside its file, the ledger is what the files hold.

## Main results

* `fileContents_written` — what a write inside the file does to its bytes
* `Ledger.Matches.next` — the files hold the bytes of the ledger
-/

namespace TfsBroker.Fs

open State Runs

variable {s s' : State} {name : Option CString} {mode k b i n fh depth : ℕ} {c : Change}

/-- The handle `fh` stands inside the file `k`. -/
def StandsInside (s : State) (fh k : ℕ) : Prop :=
  (s.openFileTable fh).ofOffset ≤ (s.inodeTable k).iSize

/-- The call reads and writes bytes only through handles inside their file. -/
def StaysInside (s : State) : Call → Prop
  | .write fhandle _ len | .read fhandle len => 0 < len.toNat →
    ∀ fh ∈ getOpenFileEntry s fhandle,
      StandsInside s fh (s.openFileTable fh).ofInumber.toNat
  | _ => True

instance (c : Call) : Decidable (StaysInside s c) := by
  unfold StaysInside StandsInside
  cases c <;> infer_instance

theorem fileContents_of_empty (hsize : (s.inodeTable k).iSize = 0) : fileContents s k = [] := by
  rw [fileContents, hsize, Memory.slice_zero]

theorem LiveFile.owner (hk : LiveFile s k) (hsize : 0 < (s.inodeTable k).iSize) : Owner s k :=
  ⟨hk.lt, hk.taken, .inr (.inl ⟨hk.file, hsize⟩)⟩

/-- A file whose block is as it was holds the bytes it held. -/
theorem SameBlock.contents (hsame : SameBlock s s' k) (h : ExclusiveInv s) (hk : Owner s k)
    (hparams : s'.fsParams = s.fsParams) : fileContents s' k = fileContents s k := by
  obtain ⟨b, hb, -, -⟩ := h.block_of_owner hk
  unfold fileContents
  rw [hsame.size, hsame.block, blockSize_congr hparams, hb]
  exact ((hsame.bytes b hb).mono le_rfl (Nat.add_le_add_left (h.owner_size hk) _)).slice_eq

private theorem file_of_node (hk : LiveFile s' k) (hparams : s'.fsParams = s.fsParams)
    (hfree : s'.freeinodeTs k = s.freeinodeTs k) (hnode : s'.inodeTable k = s.inodeTable k) :
    LiveFile s k ∧ (s'.inodeTable k).iSize = (s.inodeTable k).iSize :=
  ⟨hk.congr hparams.symm hfree.symm (by rw [hnode]), by rw [hnode]⟩

/-- A file was there before the change, with the same size unless it was filled, or the
change created it. -/
theorem Enabled.file_before (he : Enabled s c) (hk : LiveFile (c.apply s) k) :
    (¬ c.Fills k ∧ LiveFile s k ∧ ((c.apply s).inodeTable k).iSize = (s.inodeTable k).iSize) ∨
      (c.Fills k ∧ LiveFile s k) ∨ ∃ i sub, c = .create k i sub := by
  cases he with
  | discard hfirst | discardLink hfirst =>
    have hne := (firstFree_ne hfirst hk.taken).symm
    exact .inl ⟨id, file_of_node hk rfl rfl (Function.update_of_ne hne _ _)⟩
  | @create j i sub hfirst =>
    by_cases hne : k = j
    · subst hne
      exact .inr (.inr ⟨i, sub, rfl⟩)
    · exact .inl ⟨id, file_of_node hk rfl (Function.update_of_ne hne _ _)
        (Function.update_of_ne hne _ _)⟩
  | @createLink j b i t sub hfirst =>
    have hne : k ≠ j := by
      rintro rfl
      have hfile := hk.file
      simp [Change.apply, linkCreated, linkInode, Inode.new] at hfile
    exact .inl ⟨id, file_of_node hk rfl (Function.update_of_ne hne _ _)
      (Function.update_of_ne hne _ _)⟩
  | @truncate j hfile =>
    by_cases hne : k = j
    · subst hne
      exact .inr (.inl ⟨rfl, hfile⟩)
    · simp only [Change.apply, truncate_eq] at hk ⊢
      exact .inl ⟨Ne.symm hne, file_of_node hk rfl rfl (Function.update_of_ne hne _ _)⟩
  | register | close | seek => exact .inl ⟨id, file_of_node hk rfl rfl rfl⟩
  | @write fh j b n buffer hopen hfile =>
    by_cases hne : k = j
    · subst hne
      exact .inr (.inl ⟨rfl, hfile⟩)
    · exact .inl ⟨Ne.symm hne, file_of_node hk rfl rfl (Function.update_of_ne hne _ _)⟩
  | link =>
    obtain ⟨htype, hsize, -⟩ := linked_node
    exact .inl ⟨id, hk.congr rfl rfl htype.symm, hsize⟩
  | unlink =>
    obtain ⟨htype, hsize, -⟩ := unlinked_node
    exact .inl ⟨id, hk.congr rfl rfl htype.symm, hsize⟩
  | @free j i =>
    simp only [Change.apply, freed_eq] at hk ⊢
    have hne : k ≠ j := by
      rintro rfl
      have htaken := hk.taken
      simp at htaken
    exact .inl ⟨id, hk.congr rfl (Function.update_of_ne hne _ _).symm rfl, rfl⟩

/-- A change that does not fill the file `k` leaves its bytes alone. -/
theorem Enabled.contents_eq (he : Enabled s c) (hs : ExclusiveInv s) (hk : LiveFile s k)
    (hfills : ¬ c.Fills k)
    (hsize : ((c.apply s).inodeTable k).iSize = (s.inodeTable k).iSize) :
    fileContents (c.apply s) k = fileContents s k := by
  by_cases hempty : (s.inodeTable k).iSize = 0
  · rw [fileContents_of_empty hempty, fileContents_of_empty (hsize.trans hempty)]
  · have hold := hk.owner (Nat.pos_of_ne_zero hempty)
    exact (he.keepsBlock hs.toSeqInv hold hk.pos.ne' hfills).contents hs hold
      (he.frame hs.root_taken).params

theorem fileContents_created {sub : CString} : fileContents (created s k i sub) k = [] :=
  fileContents_of_empty (by simp [created, newInode, Inode.new])

theorem fileContents_truncate : fileContents (truncate s k) k = [] :=
  fileContents_of_empty (by simp [truncate_eq])

/-- What the file holds once `n` bytes were written through a handle inside it. -/
theorem fileContents_written {buffer : ℕ → UInt8} (hb : WriteBlock s k b)
    (hinside : StandsInside s fh k) :
    fileContents (written s fh k b n buffer) k =
      (fileContents s k).take (s.openFileTable fh).ofOffset ++ (List.range n).map buffer ++
        (fileContents s k).drop ((s.openFileTable fh).ofOffset + n) := by
  have hnew : fileContents (written s fh k b n buffer) k =
      (s.fsData.memcpy (b * s.blockSize + (s.openFileTable fh).ofOffset) n buffer).slice
        (b * s.blockSize) (max (s.inodeTable k).iSize ((s.openFileTable fh).ofOffset + n)) := by
    simp [fileContents, written, blockSize]
  have hold : fileContents s k = s.fsData.slice (b * s.blockSize) (s.inodeTable k).iSize := by
    unfold WriteBlock at hb
    split at hb
    · rename_i hsize
      rw [fileContents_of_empty hsize, hsize, Memory.slice_zero]
    · rw [fileContents, hb.1, Int.toNat_natCast]
  rw [hnew, hold, Memory.slice_memcpy_inside hinside]

/-- The change fills no file and creates none. -/
def Change.Quiet (c : Change) : Prop := (∀ k, ¬ c.Fills k) ∧ ∀ k i sub, c ≠ .create k i sub

/-- The call neither opens a file nor writes. -/
def Call.Quiet : Call → Prop
  | .open .. | .write .. | .copyFromExternalFs .. => False
  | _ => True

/-! ### The ledger -/

/-- A file system, and for each inode the bytes written through handles of its file
since the file was created or last truncated. -/
structure Ledger where
  fs : State
  bytes : ℕ → List UInt8

namespace Ledger

variable {g g' : Ledger}

/-- The ledger after a `tfs_open` that led to `s'`. -/
def opened (g : Ledger) (name : Option CString) (mode depth : ℕ) (s' : State) : Ledger where
  fs := s'
  bytes k :=
    if g.fs.freeinodeTs k = .FREE ∨
        (hasFlag mode tfsOTrunc ∧ resolve g.fs name mode depth = some k) then []
    else g.bytes k

/-- The ledger after a `tfs_write` that answered `r` and led to `s'`. -/
def wrote (g : Ledger) (fhandle : ℤ) (buffer : ℕ → UInt8) (r : ℤ) (s' : State) : Ledger where
  fs := s'
  bytes :=
    match getOpenFileEntry g.fs fhandle with
    | none => g.bytes
    | some fh =>
      let e := g.fs.openFileTable fh
      let old := g.bytes e.ofInumber.toNat
      if 0 < r then
        Function.update g.bytes e.ofInumber.toNat
          (old.take e.ofOffset ++ (List.range r.toNat).map buffer
            ++ old.drop (e.ofOffset + r.toNat))
      else g.bytes

/-- The ledger after a copy, which opens its destination and writes to it. -/
def copied (g : Ledger) (source : Option ExternalFile) (destPath : Option CString) (depth : ℕ) :
    ℕ → List UInt8 :=
  match source with
  | none => g.bytes
  | some file =>
    if g.fs.blockSize < file.contents.length then g.bytes
    else
      match tfsOpen g.fs destPath (tfsOTrunc ||| tfsOCreat) depth with
      | .ret (fd, s1) =>
        let g := g.opened destPath (tfsOTrunc ||| tfsOCreat) depth s1
        let buffer := fun i => file.contents.getD i 0
        match tfsWrite s1 fd buffer file.contents.length with
        | .ret (r, s2) => (g.wrote fd buffer r s2).bytes
        | _ => g.bytes
      | _ => g.bytes

/-- A call made alone, if it returns. -/
def next (g : Ledger) : Call → Option Ledger
  | .open name mode depth =>
    (tfsOpen g.fs name mode depth).toOption.map fun (_, s') => g.opened name mode depth s'
  | .write fh buffer n =>
    (tfsWrite g.fs fh buffer n.toNat).toOption.map fun (r, s') => g.wrote fh buffer r s'
  | .copyFromExternalFs source destPath depth =>
    (Fs.next g.fs (.copyFromExternalFs source destPath depth)).map fun s' =>
      ⟨s', g.copied source destPath depth⟩
  | c => (Fs.next g.fs c).map fun s' => ⟨s', g.bytes⟩

/-- Every file holds the bytes of the ledger. -/
def Matches (g : Ledger) : Prop := ∀ k, LiveFile g.fs k → fileContents g.fs k = g.bytes k

theorem opened_bytes_of_taken (htaken : g.fs.freeinodeTs k = .TAKEN)
    (hother : hasFlag mode tfsOTrunc = true → resolve g.fs name mode depth ≠ some k) :
    (g.opened name mode depth s').bytes k = g.bytes k := by
  refine if_neg ?_
  rintro (hfree | ⟨htrunc, hres⟩)
  · rw [htaken] at hfree
    cases hfree
  · exact hother htrunc hres

/-- A `tfs_open` that changed nothing in the files. -/
private theorem Matches.of_same (h : g.Matches)
    (hother : hasFlag mode tfsOTrunc = true → ∀ k, resolve g.fs name mode depth = some k →
      (g.fs.inodeTable k).iSize = 0)
    (hfile : ∀ k, LiveFile s' k → LiveFile g.fs k ∧ fileContents s' k = fileContents g.fs k) :
    (g.opened name mode depth s').Matches := by
  intro k hk
  obtain ⟨hold, heq⟩ := hfile k hk
  refine heq.trans ?_
  by_cases htrunc : hasFlag mode tfsOTrunc = true ∧ resolve g.fs name mode depth = some k
  · have hnil : (g.opened name mode depth s').bytes k = [] := if_pos (.inr htrunc)
    rw [hnil, fileContents_of_empty (hother htrunc.1 k htrunc.2)]
  · rw [opened_bytes_of_taken hold.taken fun hflag hres => htrunc ⟨hflag, hres⟩]
    exact h k hold

/-- Entering a file in the open file table changes no file. -/
private theorem Matches.register {fd : ℤ} {offset : ℕ} {bytes : ℕ → List UInt8}
    (h : Matches ⟨s, bytes⟩) (hreg : (fd, s') = tfsOpenRegister s k offset) :
    Matches ⟨s', bytes⟩ := by
  rcases tfsOpenRegister_cases s k offset with ⟨-, heq⟩ | ⟨fh, -, heq⟩ <;> rw [heq] at hreg <;>
    obtain ⟨-, rfl⟩ := Prod.mk.inj hreg
  · exact h
  · exact fun j hj => h j (hj.congr rfl rfl rfl)

private theorem Matches.close {bytes : ℕ → List UInt8} (h : Matches ⟨s, bytes⟩) (fd : ℤ) :
    Matches ⟨(tfsClose s fd).2, bytes⟩ := by
  rcases tfsClose_cases s fd with ⟨-, heq⟩ | ⟨fh, -, heq⟩ <;> rw [heq]
  · exact h
  · exact fun j hj => h j (hj.congr rfl rfl rfl)

theorem Matches.opened (h : g.Matches) (hs : ExclusiveInv g.fs) {fd : ℤ}
    (hopen : tfsOpen g.fs name mode depth = .ret (fd, s')) :
    (g.opened name mode depth s').Matches := by
  cases hres : resolve g.fs name mode depth with
  | some k =>
    obtain ⟨hk, heq⟩ := hs.toDirInv.tfsOpen_of_resolve hres
    rw [heq] at hopen
    have hfound : (g.opened name mode depth (found g.fs k mode)).Matches := by
      unfold found
      by_cases hcond : hasFlag mode tfsOTrunc = true ∧ 0 < (g.fs.inodeTable k).iSize
      · rw [if_pos hcond]
        have he : Enabled g.fs (.truncate k) := .truncate hk hcond.2
        intro j hj
        rcases he.file_before hj with ⟨hfills, hold, hsize⟩ | ⟨rfl, -⟩ | ⟨i, sub, hc⟩
        · have hother : resolve g.fs name mode depth ≠ some j := by
            rw [hres]
            exact fun hkj => hfills (Option.some_inj.mp hkj)
          rw [opened_bytes_of_taken hold.taken fun _ => hother, ← h j hold]
          exact he.contents_eq hs hold hfills hsize
        · have hnil : (g.opened name mode depth (truncate g.fs k)).bytes k = [] :=
            if_pos (.inr ⟨hcond.1, hres⟩)
          rw [hnil]
          exact fileContents_truncate
        · cases hc
      · rw [if_neg hcond]
        refine h.of_same (fun htrunc j hj => ?_) fun j hj => ⟨hj, rfl⟩
        obtain rfl := Option.some_inj.mp (hres.symm.trans hj)
        by_contra hsize
        exact hcond ⟨htrunc, Nat.pos_of_ne_zero hsize⟩
    exact hfound.register (Outcome.ret.inj hopen).symm
  | none =>
    have hnone : hasFlag mode tfsOTrunc = true → ∀ k, resolve g.fs name mode depth = some k →
        (g.fs.inodeTable k).iSize = 0 := fun _ k hk => by
      rw [hres] at hk
      cases hk
    rcases hs.toDirInv.tfsOpen_cases hopen with ⟨-, rfl | ⟨k, hfirst, rfl⟩⟩ |
      ⟨k, i, -, hfirst, hroom, -, hreg⟩ | ⟨k, hk, -⟩
    · exact h.of_same hnone fun j hj => ⟨hj, rfl⟩
    · refine h.of_same hnone fun j hj => ?_
      have he : Enabled g.fs (.discard k .T_FILE) := .discard hfirst
      rcases he.file_before hj with ⟨hfills, hold, hsize⟩ | ⟨hfills, -⟩ | ⟨i, sub, hc⟩
      · exact ⟨hold, he.contents_eq hs hold hfills hsize⟩
      · exact hfills.elim
      · cases hc
    · have he : Enabled g.fs (.create k i (subName name)) := .create hfirst hroom
      have hcreated : (g.opened name mode depth (created g.fs k i (subName name))).Matches := by
        intro j hj
        rcases he.file_before hj with ⟨hfills, hold, hsize⟩ | ⟨hfills, -⟩ | ⟨i', sub, hc⟩
        · rw [opened_bytes_of_taken hold.taken fun _ => (by rw [hres]; simp), ← h j hold]
          exact he.contents_eq hs hold hfills hsize
        · exact hfills.elim
        · obtain ⟨rfl, rfl, rfl⟩ := Change.create.inj hc
          have hnil : (g.opened name mode depth (created g.fs k i (subName name))).bytes k = [] :=
            if_pos (.inl (firstFree_free hfirst))
          rw [hnil]
          exact fileContents_created
      exact hcreated.register hreg
    · rw [hres] at hk
      cases hk

theorem Matches.wrote (h : g.Matches) (hs : ExclusiveInv g.fs) {fhandle r : ℤ}
    {buffer : ℕ → UInt8} {toWrite : ℕ}
    (hinside : 0 < toWrite → ∀ fh ∈ getOpenFileEntry g.fs fhandle,
      StandsInside g.fs fh (g.fs.openFileTable fh).ofInumber.toNat)
    (hwrite : tfsWrite g.fs fhandle buffer toWrite = .ret (r, s')) :
    (g.wrote fhandle buffer r s').Matches := by
  rcases hs.toSeqInv.tfsWrite_cases hwrite with ⟨rfl, hr, -⟩ |
    ⟨fh, k, b, n, hget, hinum, hlive, hb, hpos, hn, hfits, rfl, rfl⟩
  · have hbytes : (g.wrote fhandle buffer r g.fs).bytes = g.bytes := by
      unfold Ledger.wrote
      cases getOpenFileEntry g.fs fhandle with
      | none => rfl
      | some fh => exact if_neg (by omega)
    intro k hk
    rw [hbytes]
    exact h k hk
  · have hlen : 0 < toWrite := by
      rw [hn] at hpos hfits
      exact hpos.trans_le (clampWrite_le hfits)
    have hin := hinside hlen fh hget
    rw [hinum, Int.toNat_natCast] at hin
    have hopen := (getOpenFileEntry_eq_some.mp hget).2.2
    have he : Enabled g.fs (.write fh k b n buffer) := .write hopen hlive hb hpos hfits
    have hbytes : (g.wrote fhandle buffer n (written g.fs fh k b n buffer)).bytes =
        Function.update g.bytes k ((g.bytes k).take (g.fs.openFileTable fh).ofOffset ++
          (List.range n).map buffer ++ (g.bytes k).drop ((g.fs.openFileTable fh).ofOffset + n)) := by
      simp only [Ledger.wrote, hget, hinum, Int.toNat_natCast, Nat.cast_pos, hpos, if_true]
    intro j hj
    rw [hbytes]
    by_cases hjk : j = k
    · subst hjk
      rw [Function.update_self, ← h j hlive]
      exact fileContents_written hb hin
    · rw [Function.update_of_ne hjk]
      rcases he.file_before hj with ⟨hfills, hold, hsize⟩ | ⟨rfl, -⟩ | ⟨i, sub, hc⟩
      · exact (he.contents_eq hs hold hfills hsize).trans (h j hold)
      · exact absurd rfl hjk
      · cases hc

theorem Matches.apply (h : g.Matches) (hs : ExclusiveInv g.fs) (he : Enabled g.fs c)
    (hfills : ∀ k, ¬ c.Fills k) (hcreate : ∀ k i sub, c ≠ .create k i sub) :
    Matches ⟨c.apply g.fs, g.bytes⟩ := by
  intro k hk
  rcases he.file_before hk with ⟨-, hold, hsize⟩ | ⟨hfill, -⟩ | ⟨i, sub, rfl⟩
  · exact (he.contents_eq hs hold (hfills k) hsize).trans (h k hold)
  · exact absurd hfill (hfills k)
  · exact absurd rfl (hcreate k i sub)

theorem Matches.copied (h : g.Matches) (hs : ExclusiveInv g.fs) {source : Option ExternalFile}
    {destPath : Option CString}
    (hnext : Fs.next g.fs (.copyFromExternalFs source destPath depth) = some s') :
    Matches ⟨s', g.copied source destPath depth⟩ := by
  obtain ⟨r, hcopy⟩ := exists_ret_of_map hnext
  unfold tfsCopyFromExternalFs at hcopy
  cases source with
  | none =>
    obtain ⟨-, rfl⟩ := Prod.mk.inj (Outcome.ret.inj hcopy)
    exact h
  | some file =>
    simp only [List.length_take] at hcopy
    simp only [Ledger.copied]
    by_cases hlen : g.fs.blockSize < file.contents.length
    · rw [if_pos (by omega)] at hcopy
      obtain ⟨-, rfl⟩ := Prod.mk.inj (Outcome.ret.inj hcopy)
      rw [if_pos hlen]
      exact h
    rw [if_neg (by omega), List.take_of_length_le (by omega), min_eq_right (by omega)] at hcopy
    rw [if_neg hlen]
    obtain ⟨⟨fd, s1⟩, hopen, hcopy⟩ := Outcome.bind_eq_ret.mp hcopy
    have h1 := h.opened hs hopen
    have hs1 := hs.of_effects (hs.toSeqInv.tfsOpen_effects hopen) (hs.toSeqInv.tfsOpen hopen)
    simp only [hopen]
    by_cases hfd : fd = -1
    · simp only [hfd, if_true] at hcopy ⊢
      obtain ⟨-, rfl⟩ := Prod.mk.inj (Outcome.ret.inj hcopy)
      -- there is no handle to write through
      have hnone : getOpenFileEntry s1 (-1) = none := by
        simp [getOpenFileEntry, validFileHandle]
      simp only [tfsWrite, hnone, Ledger.wrote, Ledger.opened]
      exact h1
    · simp only [hfd, if_false] at hcopy
      obtain ⟨⟨r', s2⟩, hwrite, hcopy⟩ := Outcome.bind_eq_ret.mp hcopy
      have h2 : Matches ⟨s2, _⟩ := h1.wrote hs1 (fun _ fh hget => by
        have hzero := copy_offset hs.toDirInv hfd hopen hget
        exact hzero.le.trans (Nat.zero_le _)) hwrite
      simp only [hwrite]
      have hclose : Matches ⟨(tfsClose s2 fd).2, _⟩ := h2.close fd
      split at hcopy
      · obtain ⟨-, rfl⟩ := Prod.mk.inj (Outcome.ret.inj hcopy)
        exact hclose
      split at hcopy
      · obtain ⟨-, rfl⟩ := Prod.mk.inj (Outcome.ret.inj hcopy)
        exact h2
      · obtain ⟨-, rfl⟩ := Prod.mk.inj (Outcome.ret.inj hcopy)
        exact hclose

/-- `tfs_sym_link` makes at most one change, which fills no file and creates none. -/
private theorem tfsSymLink_quiet (hs : ExclusiveInv s) {target linkName : Option CString}
    {r : RootExit} (hlink : tfsSymLink s target linkName = .ret (r, s')) :
    s' = s ∨ ∃ c, Enabled s c ∧ s' = c.apply s ∧ c.Quiet := by
  rcases hs.tfsSymLink_cases hs.root_taken hlink with ⟨-, rfl, -⟩ | ⟨k, hfirst, hvalid, htarget,
    hname, ⟨-, -, rfl⟩ | ⟨b, t, hb, rfl, ⟨-, rfl, -⟩ | ⟨i, hpos, hlen, hroom, -, rfl⟩⟩⟩
  · exact .inl rfl
  · exact .inr ⟨_, .discard hfirst, rfl, fun _ => id, by simp⟩
  · exact .inr ⟨_, .discardLink hfirst hb htarget, rfl, fun _ => id, by simp⟩
  · rw [freeEntry_linkInode hs.toDirInv hb] at hroom
    exact .inr ⟨_, .createLink hfirst hb htarget
      ⟨hpos, hlen, hroom, hs.not_named hname hvalid⟩, rfl, fun _ => id, by simp⟩

/-- A call that neither opens a file nor writes makes at most one change, which fills
no file and creates none. -/
private theorem quiet_next {call : Call} (hs : ExclusiveInv s) (hquiet : call.Quiet)
    (hnext : Fs.next s call = some s') :
    s' = s ∨ ∃ c, Enabled s c ∧ s' = c.apply s ∧ c.Quiet := by
  cases call with
  | «open» | write | copyFromExternalFs => exact hquiet.elim
  | close fhandle =>
    obtain rfl := Option.some_inj.mp hnext
    rcases tfsClose_cases s fhandle with ⟨-, heq⟩ | ⟨fh, -, heq⟩ <;> rw [heq]
    · exact .inl rfl
    · exact .inr ⟨.close fh, .close, rfl, fun _ => id, by simp⟩
  | read fhandle len =>
    obtain ⟨r, hr⟩ := exists_ret_of_map hnext
    rcases hs.toSeqInv.tfsRead_cases hr with rfl | ⟨fh, k, n, -, -, -, -, rfl⟩
    · exact .inl rfl
    · exact .inr ⟨_, .seek, rfl, fun _ => id, by simp⟩
  | link target linkName =>
    obtain ⟨r, hr⟩ := exists_ret_of_map hnext
    rcases hs.tfsLink_cases hr with ⟨-, -, rfl⟩ |
      ⟨k, i, hvalid, hl, hname, htype, hpos, hlen, hroom, -, rfl⟩
    · exact .inl rfl
    · exact .inr ⟨_, .link (hs.toDirInv.liveFile hl htype)
        ⟨hpos, hlen, hroom, hs.not_named hname hvalid⟩, rfl, fun _ => id, by simp⟩
  | symLink target linkName =>
    obtain ⟨r, hr⟩ := exists_ret_of_map hnext
    exact tfsSymLink_quiet hs hr
  | unlink target =>
    obtain ⟨r, hr⟩ := exists_ret_of_map hnext
    rcases hs.toDirInv.tfsUnlink_cases hr with ⟨-, rfl⟩ |
      ⟨k, i, -, hpos, -, htaken, -, hi, -, -, -, ⟨-, rfl⟩ | ⟨-, rfl⟩⟩
    · exact .inl rfl
    · exact .inr ⟨_, .free hpos htaken hi, rfl, fun _ => id, by simp⟩
    · exact .inr ⟨_, .unlink hpos htaken hi, rfl, fun _ => id, by simp⟩

private theorem Matches.quiet (h : g.Matches) (call : Call) (hs : ExclusiveInv g.fs)
    (hquiet : call.Quiet)
    (hnext : (Fs.next g.fs call).map (fun s' => (⟨s', g.bytes⟩ : Ledger)) = some g') :
    g'.Matches := by
  obtain ⟨s', hs', rfl⟩ := Option.map_eq_some_iff.mp hnext
  rcases quiet_next hs hquiet hs' with rfl | ⟨c, he, rfl, hfills, hcreate⟩
  · exact h
  · exact h.apply hs he hfills hcreate

/-- While the writes stay inside, the files hold the bytes of the ledger. -/
theorem Matches.next {call : Call} (h : g.Matches) (hs : ExclusiveInv g.fs)
    (hok : StaysInside g.fs call) (hnext : g.next call = some g') : g'.Matches := by
  cases call with
  | «open» name mode depth =>
    obtain ⟨⟨fd, s'⟩, hopen, rfl⟩ := Option.map_eq_some_iff.mp hnext
    exact h.opened hs (Outcome.toOption_eq_some.mp hopen)
  | write fhandle buffer len =>
    obtain ⟨⟨r, s'⟩, hwrite, rfl⟩ := Option.map_eq_some_iff.mp hnext
    exact h.wrote hs hok (Outcome.toOption_eq_some.mp hwrite)
  | copyFromExternalFs source destPath depth =>
    obtain ⟨s', hs', rfl⟩ := Option.map_eq_some_iff.mp hnext
    exact h.copied hs hs'
  | close fhandle => exact h.quiet (.close fhandle) hs trivial hnext
  | read fhandle len => exact h.quiet (.read fhandle len) hs trivial hnext
  | link target linkName => exact h.quiet (.link target linkName) hs trivial hnext
  | symLink target linkName => exact h.quiet (.symLink target linkName) hs trivial hnext
  | unlink target => exact h.quiet (.unlink target) hs trivial hnext

/-- The ledger follows the file system. -/
theorem fs_next {call : Call} (hnext : g.next call = some g') :
    Fs.next g.fs call = some g'.fs := by
  cases call with
  | «open» | write =>
    obtain ⟨⟨r, s'⟩, hcall, rfl⟩ := Option.map_eq_some_iff.mp hnext
    exact Option.map_eq_some_iff.mpr ⟨_, hcall, rfl⟩
  | close fhandle =>
    obtain rfl := Option.some_inj.mp hnext
    rfl
  | copyFromExternalFs | read | link | symLink | unlink =>
    obtain ⟨s', hs', rfl⟩ := Option.map_eq_some_iff.mp hnext
    exact hs'

end Ledger

end TfsBroker.Fs
