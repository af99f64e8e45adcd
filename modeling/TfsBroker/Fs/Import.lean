import TfsBroker.Fs.Chunks
import TfsBroker.Fs.SameControl

/-!
# Importing a file

`tfs_copy_from_external_fs` opens its destination with `TFS_O_TRUNC` and `TFS_O_CREAT`,
writes once and closes. After the open the name is that of an empty file, after the write of
a file with the bytes that were read; no other file is touched.

## Main results

* `ExclusiveInv.emptied` — the destination after the open
* `Holds.write` — the destination after the write
* `import_copies_exactly` — what an import leaves
-/

namespace TfsBroker.Fs

open State Runs

variable {s s' t u : State} {name dest : Option CString} {bytes : List UInt8} {fhandle fd r : ℤ}
  {mode depth fh k j i : ℕ} {c : Change}

/-- `t` is `s` but for the file `k` at `dest`, which holds `bytes`. -/
structure Holds (s t : State) (dest : Option CString) (k : ℕ) (bytes : List UInt8) : Prop where
  inv : ExclusiveInv t
  params : t.fsParams = s.fsParams
  named : tfsLookup t dest rootDirInum = k
  file : LiveFile t k
  contents : fileContents t k = bytes
  others : ∀ j, j ≠ k → LiveFile s j → LiveFile t j ∧ fileContents t j = fileContents s j

/-- What a successful import leaves: the file `k` at `dest` holds `bytes`, and a new handle
reads them; the same handles are open, and the other files are as they were. -/
structure Imported (s s' : State) (dest : Option CString) (k : ℕ) (bytes : List UInt8) : Prop where
  named : tfsLookup s' dest rootDirInum = k
  file : LiveFile s' k
  contents : fileContents s' k = bytes
  opens : ∃ fd fh s'', tfsOpen s' dest 0 1 = .ret (fd, s'') ∧ Handle s'' fd fh k
  reads : ReadsBack s' k bytes
  handles : s'.freeOpenFileEntries = s.freeOpenFileEntries
  others : ∀ j, j ≠ k → LiveFile s j → LiveFile s' j ∧ fileContents s' j = fileContents s j

/-! ### The destination after the open -/

/-- With `TFS_O_CREAT` only a file at the name itself is opened. -/
theorem lookup_of_resolve_creat (hcreat : hasFlag mode tfsOCreat = true)
    (h : resolve s name mode depth = some k) : tfsLookup s name 0 = k := by
  cases depth with
  | zero => cases h
  | succ depth =>
    simp only [resolve] at h
    split at h
    · cases h
    split at h
    · rw [← Option.some_inj.mp h]
      omega
    · simp [hcreat] at h

theorem validPathname_of_tfsOpen (hopen : tfsOpen s name mode depth = .ret (fd, s'))
    (hfd : fd ≠ -1) : validPathname name = true := by
  cases depth with
  | zero => cases hopen
  | succ depth =>
    by_contra hvalid
    have hroot : tfsOpenRoot s name mode = .ret (.failed, s) := by
      rw [tfsOpenRoot, if_neg hvalid]
    rw [tfsOpen, hroot, Outcome.ret_bind] at hopen
    exact hfd (Prod.mk.inj (Outcome.ret.inj hopen)).1.symm

/-- The new name is found in the entry that was filled for it. -/
theorem DirInv.lookup_created (h : DirInv (created s k i (subName name)))
    (hfirst : firstFree s.freeinodeTs s.inodeTableSize = some k) (hroom : Room s i (subName name))
    (hvalid : validPathname name = true) :
    tfsLookup (created s k i (subName name)) name 0 = k := by
  have hint : Memory.IsInt (k : ℤ) := isInt_of_lt (firstFree_lt hfirst)
  have hinum : Directory.dInumber (created s k i (subName name)).fsData 0 i = k :=
    Directory.dInumber_fillEntry hint
  have hnames : Directory.Names (created s k i (subName name)).fsData 0 i (subName name) :=
    ⟨hinum.trans_ne (natCast_ne_neg_one k), Directory.holdsAt_fillEntry hroom.len_lt⟩
  have hfind := h.wf.findEntry_eq_some.mpr ⟨hroom.lt, hnames⟩
  rw [h.tfsLookup_eq, if_pos hvalid, h.findInDir_eq, hfind, Option.elim_some, hinum]

/-- A file whose slot is left alone is as it was. -/
theorem Enabled.keepsFile (he : Enabled s c) (h : ExclusiveInv s) (hj : LiveFile s j)
    (hfills : ¬ c.Fills j) (hfree : (c.apply s).freeinodeTs j = s.freeinodeTs j)
    (hnode : (c.apply s).inodeTable j = s.inodeTable j) :
    LiveFile (c.apply s) j ∧ fileContents (c.apply s) j = fileContents s j :=
  ⟨hj.congr (he.frame h.root_taken).params hfree (by rw [hnode]),
    he.contents_eq h hj hfills (by rw [hnode])⟩

theorem ExclusiveInv.holds_created (h : ExclusiveInv s)
    (hfirst : firstFree s.freeinodeTs s.inodeTableSize = some k) (hroom : Room s i (subName name))
    (hdir : DirInv (created s k i (subName name))) (hvalid : validPathname name = true) :
    Holds s (created s k i (subName name)) name k [] := by
  have he : Enabled s (.create k i (subName name)) := .create hfirst hroom
  refine ⟨h.apply he (h.toSeqInv.created hfirst hdir), rfl, hdir.lookup_created hfirst hroom hvalid,
    SeqInv.liveFile_created hfirst h.toSeqInv, fileContents_created, fun j hjk hj => ?_⟩
  exact he.keepsFile h hj id (Function.update_of_ne hjk _ _) (Function.update_of_ne hjk _ _)

theorem ExclusiveInv.holds_found (h : ExclusiveInv s) (hl : tfsLookup s name 0 = k)
    (hk : LiveFile s k) (htrunc : hasFlag mode tfsOTrunc = true) :
    Holds s (Fs.found s k mode) name k [] := by
  by_cases hsize : 0 < (s.inodeTable k).iSize
  · have he : Enabled s (.truncate k) := .truncate hk hsize
    have hfound : Fs.found s k mode = truncate s k := if_pos ⟨htrunc, hsize⟩
    have hinv := h.found hk mode
    rw [hfound] at hinv ⊢
    have hlookup : tfsLookup (truncate s k) name 0 = tfsLookup s name 0 := by
      refine h.toDirInv.lookup_congr hinv.toDirInv (by rw [truncate_eq]) ?_ name
      rw [truncate_eq]
      exact Directory.Alike.refl _ _ _
    refine ⟨hinv, by rw [truncate_eq], hlookup.trans hl, ?_, fileContents_truncate,
      fun j hjk hj => ?_⟩
    · exact hk.congr (by rw [truncate_eq]) (by rw [truncate_eq]) (by simp [truncate_eq])
    · refine he.keepsFile h hj (Ne.symm hjk) ?_ ?_
      · simp only [Change.apply, truncate_eq]
      · simp only [Change.apply, truncate_eq]
        exact Function.update_of_ne hjk _ _
  · have hfound : Fs.found s k mode = s := if_neg fun hcond => hsize hcond.2
    rw [hfound]
    exact ⟨h, rfl, hl, hk, fileContents_of_empty (by omega), fun j _ hj => ⟨hj, rfl⟩⟩

/-- The open of an import leaves an empty file at the destination, and a handle at its
beginning. -/
theorem ExclusiveInv.emptied (h : ExclusiveInv s)
    (hopen : Fs.tfsOpen s dest (tfsOTrunc ||| tfsOCreat) depth = .ret (fd, s')) (hfd : fd ≠ -1) :
    ∃ (t : State) (k fh : ℕ), Holds s t dest k [] ∧
      t.freeOpenFileEntries = s.freeOpenFileEntries ∧
      firstFree t.freeOpenFileEntries t.maxOpenFiles = some fh ∧ fd = fh ∧
      s' = registered t fh k 0 := by
  have hregister : ∀ {t : State} {k : ℕ}, (fd, s') = Fs.tfsOpenRegister t k 0 →
      ∃ fh : ℕ, firstFree t.freeOpenFileEntries t.maxOpenFiles = some fh ∧ fd = fh ∧
        s' = Fs.registered t fh k 0 := by
    intro t k hreg
    rcases tfsOpenRegister_cases t k 0 with ⟨-, heq⟩ | ⟨fh, hfirst, heq⟩ <;>
      obtain ⟨rfl, rfl⟩ := Prod.mk.inj (hreg.trans heq)
    · exact absurd rfl hfd
    · exact ⟨fh, hfirst, rfl, rfl⟩
  rcases h.toDirInv.tfsOpen_cases hopen with ⟨rfl, -⟩ | ⟨k, i, -, hfirst, hroom, hdir, hreg⟩ |
    ⟨k, hres, hk, hreg⟩
  · exact absurd rfl hfd
  · obtain ⟨fh, hfh⟩ := hregister hreg
    exact ⟨_, k, fh, h.holds_created hfirst hroom hdir (validPathname_of_tfsOpen hopen hfd), rfl,
      hfh⟩
  · rw [show hasFlag (tfsOTrunc ||| tfsOCreat) tfsOAppend = false by decide,
      if_neg Bool.false_ne_true] at hreg
    obtain ⟨fh, hfh⟩ := hregister hreg
    refine ⟨_, k, fh, h.holds_found (lookup_of_resolve_creat (by decide) hres) hk hasFlag_copy, ?_,
      hfh⟩
    unfold Fs.found
    split
    · rw [truncate_eq]
    · rfl

/-! ### The destination after the write -/

namespace Holds

/-- Only the open file table changes. -/
theorem of_same (h : Holds s t dest k bytes) (hinv : ExclusiveInv u)
    (hparams : u.fsParams = t.fsParams) (hnodes : u.inodeTable = t.inodeTable)
    (hinodes : u.freeinodeTs = t.freeinodeTs) (hdata : u.fsData = t.fsData) :
    Holds s u dest k bytes := by
  have hlookup : tfsLookup u dest 0 = tfsLookup t dest 0 := by
    refine h.inv.toDirInv.lookup_congr hinv.toDirInv hparams ?_ dest
    rw [hdata]
    exact Directory.Alike.refl _ _ _
  have hkeeps : ∀ j, LiveFile t j → LiveFile u j ∧ fileContents u j = fileContents t j := by
    intro j hj
    refine ⟨hj.congr hparams (by rw [hinodes]) (by rw [hnodes]), ?_⟩
    rw [fileContents, fileContents, hnodes, hdata, blockSize_congr hparams]
  refine ⟨hinv, hparams.trans h.params, hlookup.trans h.named, (hkeeps k h.file).1,
    (hkeeps k h.file).2.trans h.contents, fun j hjk hj => ?_⟩
  obtain ⟨hlive, hcontents⟩ := h.others j hjk hj
  exact ⟨(hkeeps j hlive).1, (hkeeps j hlive).2.trans hcontents⟩

theorem registered (h : Holds s t dest k bytes)
    (hfirst : firstFree t.freeOpenFileEntries t.maxOpenFiles = some fh) :
    Holds s (Fs.registered t fh k 0) dest k bytes := by
  have hreg : ((fh : ℤ), Fs.registered t fh k 0) = Fs.tfsOpenRegister t k 0 := by
    rw [Fs.tfsOpenRegister, addToOpenFileTable, hfirst]
    rfl
  exact h.of_same (h.inv.apply (.register h.file hfirst)
    (h.inv.toSeqInv.tfsOpenRegister h.file hreg)) rfl rfl rfl rfl

theorem closed (h : Holds s t dest k bytes) (fhandle : ℤ) :
    Holds s (tfsClose t fhandle).2 dest k bytes := by
  have hinv := h.inv.of_effects (h.inv.toSeqInv.tfsClose_effects fhandle)
    (h.inv.toSeqInv.tfsClose fhandle)
  rcases tfsClose_cases t fhandle with ⟨-, heq⟩ | ⟨i, -, heq⟩ <;> rw [heq] at hinv ⊢
  · exact h
  · exact h.of_same hinv rfl rfl rfl rfl

/-- A write to the empty file, from its beginning. -/
theorem written {b n : ℕ} {buffer : ℕ → UInt8} (h : Holds s t dest k [])
    (hopen : t.freeOpenFileEntries fh = .TAKEN) (hoff : (t.openFileTable fh).ofOffset = 0)
    (hb : WriteBlock t k b) (hn : 0 < n) (hle : n ≤ t.blockSize)
    (hinv : SeqInv (Fs.written t fh k b n buffer)) :
    Holds s (Fs.written t fh k b n buffer) dest k ((List.range n).map buffer) := by
  have he : Enabled t (.write fh k b n buffer) := .write hopen h.file hb hn (by omega)
  have hexcl : ExclusiveInv (Fs.written t fh k b n buffer) := h.inv.apply he hinv
  have hb0 := h.inv.toDirInv.writeBlock_ne (h.inv.isSafe h.file.pos h.file.lt h.file.taken) hb
  have hlookup : tfsLookup (Fs.written t fh k b n buffer) dest 0 = tfsLookup t dest 0 := by
    refine h.inv.toDirInv.lookup_congr hexcl.toDirInv rfl ?_ dest
    -- the directory is in block 0
    exact (Directory.Alike.refl _ _ _).of_agreeOn (fun _ _ _ => rfl)
      ((DirInv.agreeOn_block hb0 _).symm.mono le_rfl (by simpa using entries_le_blockSize t))
  refine ⟨hexcl, h.params, hlookup.trans h.named, h.file.congr rfl rfl (by simp [Fs.written]), ?_,
    fun j hjk hj => ?_⟩
  · rw [fileContents_written hb (by rw [StandsInside, hoff]; exact Nat.zero_le _), h.contents, hoff]
    simp
  · obtain ⟨hlive, hcontents⟩ := h.others j hjk hj
    have hkept := he.keepsFile h.inv hlive (Ne.symm hjk) rfl (Function.update_of_ne hjk _ _)
    exact ⟨hkept.1, hkept.2.trans hcontents⟩

/-- A write to the empty file either is refused or writes all bytes, if they fit. -/
theorem write (h : Holds s t dest k []) (hh : Handle t fhandle fh k)
    (hoff : (t.openFileTable fh).ofOffset = 0) (hle : bytes.length ≤ t.blockSize)
    (hwrite : tfsWrite t fhandle (bufferOf bytes) bytes.length = .ret (r, u)) (hr : r ≠ -1) :
    Holds s u dest k bytes ∧ u.freeOpenFileEntries = t.freeOpenFileEntries := by
  have hinv := h.inv.toSeqInv.tfsWrite hwrite
  have hinode : inodeGet t (t.openFileTable fh).ofInumber = some k :=
    inodeGet_eq_some.mpr ⟨hh.inumber, h.file.lt⟩
  have hclamp : bytes.length = clampWrite t.blockSize (t.openFileTable fh).ofOffset bytes.length := by
    rw [hoff, clampWrite_zero_offset hle t.fsParams.blockSize_lt]
  simp only [tfsWrite, hh.entry, hinode] at hwrite
  rcases tfsWriteBody_eq t fh k (bufferOf bytes) hclamp with
    ⟨hzero, heq⟩ | ⟨-, -, heq⟩ | ⟨b, hpos, hb, heq⟩ <;> rw [heq] at hwrite
  · obtain ⟨-, rfl⟩ := Prod.mk.inj (Outcome.ret.inj hwrite)
    rw [List.length_eq_zero_iff.mp hzero]
    exact ⟨h, rfl⟩
  · exact absurd (Prod.mk.inj (Outcome.ret.inj hwrite)).1.symm hr
  · split at hwrite
    · obtain ⟨-, rfl⟩ := Prod.mk.inj (Outcome.ret.inj hwrite)
      have hopen := (getOpenFileEntry_eq_some.mp hh.entry).2.2
      have hwritten := h.written hopen hoff hb hpos hle hinv
      rw [map_bufferOf le_rfl, List.take_length] at hwritten
      exact ⟨hwritten, rfl⟩
    · cases hwrite

/-- The file can be opened. -/
theorem opens (h : Holds s t dest k bytes)
    (hfirst : firstFree t.freeOpenFileEntries t.maxOpenFiles = some fh) :
    ∃ fd fh u, tfsOpen t dest 0 1 = .ret (fd, u) ∧ Handle u fd fh k := by
  have hl : tfsLookup t dest 0 = k := h.named
  have hres : resolve t dest 0 1 = some k := by
    simp only [resolve, hl, Int.toNat_natCast, h.file.file]
    rw [if_neg (by omega), if_pos (by decide)]
  obtain ⟨-, hopen⟩ := h.inv.toDirInv.tfsOpen_of_resolve hres
  have hfound : found t k 0 = t := if_neg (by simp [hasFlag, tfsOTrunc])
  have hreg : tfsOpenRegister t k 0 = ((fh : ℤ), Fs.registered t fh k 0) := by
    rw [tfsOpenRegister, addToOpenFileTable, hfirst]
    rfl
  rw [hfound, show hasFlag 0 tfsOAppend = false by decide, if_neg Bool.false_ne_true, hreg] at hopen
  refine ⟨fh, fh, _, hopen, getOpenFileEntry_eq_some.mpr ⟨rfl, firstFree_lt hfirst, ?_⟩, ?_⟩
  · simp [Fs.registered, setFreeEntry, setEntry]
  · simp [Fs.registered, setEntry]

end Holds

/-! ### The import -/

/-- A file larger than a block is refused. -/
theorem import_refused {file : ExternalFile} (h : s.blockSize < file.contents.length)
    (dest : Option CString) (depth : ℕ) :
    tfsCopyFromExternalFs s (some file) dest depth = .ret (-1, s) := by
  simp only [tfsCopyFromExternalFs, List.length_take]
  rw [if_pos (by omega)]

/-- The steps of an import that answers 0. -/
theorem import_steps {file : ExternalFile}
    (h : tfsCopyFromExternalFs s (some file) dest depth = .ret (0, s')) :
    file.contents.length ≤ s.blockSize ∧ ∃ fd s1 r s2,
      tfsOpen s dest (tfsOTrunc ||| tfsOCreat) depth = .ret (fd, s1) ∧ fd ≠ -1 ∧
      tfsWrite s1 fd (bufferOf file.contents) file.contents.length = .ret (r, s2) ∧ r ≠ -1 ∧
      s' = (tfsClose s2 fd).2 := by
  have hlen : file.contents.length ≤ s.blockSize := by
    by_contra hlong
    rw [import_refused (not_le.mp hlong)] at h
    cases h
  simp only [tfsCopyFromExternalFs, List.length_take] at h
  rw [if_neg (by omega), List.take_of_length_le (by omega), min_eq_right (by omega)] at h
  obtain ⟨⟨fd, s1⟩, hopen, h⟩ := Outcome.bind_eq_ret.mp h
  simp only at h
  split at h
  · cases h
  rename_i hfd
  obtain ⟨⟨r, s2⟩, hwrite, h⟩ := Outcome.bind_eq_ret.mp h
  simp only at h
  split at h
  · cases h
  rename_i hr
  split at h
  · cases h
  exact ⟨hlen, fd, s1, r, s2, hopen, hfd, hwrite, hr, (Prod.mk.inj (Outcome.ret.inj h)).2.symm⟩

/-- The copy answers 0 only for contents that fit in a block. Then the destination is a
file with exactly these contents, which a new handle reads back, as many handles are open as
before, and no other file has changed; a file that does not fit changes nothing. -/
theorem import_copies_exactly (h : Reachable next Initialised s) (file : ExternalFile)
    (dest : Option CString) (depth : ℕ) :
    (∀ s', tfsCopyFromExternalFs s (some file) dest depth = .ret (0, s') →
      file.contents.length ≤ s.blockSize ∧ ∃ k, Imported s s' dest k file.contents) ∧
    (s.blockSize < file.contents.length →
      tfsCopyFromExternalFs s (some file) dest depth = .ret (-1, s)) := by
  refine ⟨fun s' hcopy => ?_, fun hlong => import_refused hlong dest depth⟩
  have hinv := exclusiveInv_of_reachable h
  obtain ⟨hlen, fd, s1, r, s2, hopen, hfd, hwrite, hr, rfl⟩ := import_steps hcopy
  obtain ⟨t, k, fh, hholds, hentries, hfirst, rfl, rfl⟩ := hinv.emptied hopen hfd
  have hregistered := hholds.registered hfirst
  have hh : Handle (registered t fh k 0) fh fh k :=
    ⟨getOpenFileEntry_eq_some.mpr ⟨rfl, firstFree_lt hfirst, by
      simp [registered, setFreeEntry, setEntry]⟩, by simp [registered, setEntry]⟩
  obtain ⟨hwritten, hopened⟩ := hregistered.write hh (by simp [registered, setEntry])
    (hlen.trans_eq (blockSize_congr hregistered.params).symm) hwrite hr
  have hclosed := hwritten.closed fh
  -- the entry is the one that was free
  have hfree : (tfsClose s2 fh).2.freeOpenFileEntries = s.freeOpenFileEntries := by
    have htaken : getOpenFileEntry s2 fh = some fh := by
      refine getOpenFileEntry_eq_some.mpr ⟨rfl, ?_, ?_⟩
      · rw [maxOpenFiles_congr (hwritten.params.trans hholds.params.symm)]
        exact firstFree_lt hfirst
      · rw [hopened]
        simp [registered, setFreeEntry, setEntry]
    rcases tfsClose_cases s2 fh with ⟨hnone, -⟩ | ⟨i, hi, heq⟩
    · rw [htaken] at hnone
      cases hnone
    · obtain rfl := Option.some_inj.mp (htaken.symm.trans hi)
      rw [heq, ← hentries]
      funext j
      by_cases hj : j = fh
      · subst hj
        simp [setFreeEntry, firstFree_free hfirst]
      · simp [setFreeEntry, Function.update_of_ne hj, hopened, registered, setEntry]
  have hroom : firstFree (tfsClose s2 fh).2.freeOpenFileEntries (tfsClose s2 fh).2.maxOpenFiles =
      some fh := by
    rw [hfree, ← hentries, maxOpenFiles_congr (hclosed.params.trans hholds.params.symm), hfirst]
  have hreads := hclosed.inv.toSeqInv.readsBack hclosed.file
  rw [hclosed.contents] at hreads
  exact ⟨hlen, k, hclosed.named, hclosed.file, hclosed.contents, hclosed.opens hroom, hreads, hfree,
    hclosed.others⟩

/-- Two bytes over the five of a file with two names, one handle still open. -/
theorem import_copies_exactly_over : ∃ s s', Reachable next Initialised s ∧
    ((s.inodeTable 1).iSize = 5 ∧ s.freeOpenFileEntries 0 = .TAKEN ∧
      tfsLookup s pathF1 rootDirInum = 1) ∧
    tfsCopyFromExternalFs s (some ⟨[66, 67], true⟩) pathL1 1 = .ret (0, s') ∧
    ∃ k, Imported s s' pathL1 k [66, 67] := by
  obtain ⟨s, hreach, hs⟩ := exists_of_runList next
    [Call.open pathF1 tfsOCreat 1, .write 0 (fun _ => 65) 5, .link pathF1 pathL1]
    (fun s => decide ((s.inodeTable 1).iSize = 5 ∧ s.freeOpenFileEntries 0 = .TAKEN ∧
      tfsLookup s pathF1 rootDirInum = 1) &&
      (tfsCopyFromExternalFs s (some ⟨[66, 67], true⟩) pathL1 1).toOption.any
        fun r : ℤ × State => decide (r.1 = 0)) initialised_fresh (by decide +kernel)
  obtain ⟨hs, hcopy⟩ := Bool.and_eq_true_iff.mp hs
  obtain ⟨⟨r, s'⟩, hcopy, hr⟩ := (Option.any_eq_true _ _).mp hcopy
  obtain rfl : r = 0 := of_decide_eq_true hr
  have hret := Outcome.toOption_eq_some.mp hcopy
  exact ⟨s, s', hreach, of_decide_eq_true hs, hret,
    ((import_copies_exactly hreach _ _ _).1 s' hret).2⟩

end TfsBroker.Fs
