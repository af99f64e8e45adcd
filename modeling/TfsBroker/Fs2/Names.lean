import Mathlib.Order.Interval.Finset.Nat
import TfsBroker.Lib.Tables
import TfsBroker.Fs2.Asserts

/-!
# The directory of `fs2/` as a set of names

As long as files are only created, closed at once and removed, the directory is a set
of names. Its capacity is the number of entries that fit in a block, or less if there
are fewer inodes.

## Main results

* `EmptyFiles.tfsOpen_full`, `EmptyFiles.tfsOpen_new` — creating a file
* `EmptyFiles.tfsUnlink` — removing one
-/

namespace TfsBroker.Fs2

open State Tables

variable {s s' : State} {t : Fs.State} {S : Finset CString} {name : Option CString} {n : CString}
  {mode k i fh : ℕ} {fd r : ℤ}

/-- Entry `i` of the directory is live under `n`. -/
abbrev EntryNames (t : Fs.State) (i : ℕ) (n : CString) : Prop := Directory.Names t.fsData 0 i n

/-- The names in the directory are `S`, all files are empty and none is open. -/
structure EmptyFiles (t : Fs.State) (S : Finset CString) : Prop extends Fs.SeqInv t where
  closed : ∀ fh, t.freeOpenFileEntries fh = .FREE
  entries : Tabulates (EntryNames t) t.maxDirEntries S
  empty : ∀ k, 0 < k → t.freeinodeTs k = .TAKEN → (t.inodeTable k).iSize = 0

/-! ### Room for another file -/

/-- Every inode in use but the root has an entry, so the entries run out first. -/
theorem exists_freeInode (h : Fs.DirInv t) (hroom : t.maxDirEntries + 1 < t.inodeTableSize) :
    ∃ k, firstFree t.freeinodeTs t.inodeTableSize = some k := by
  cases hfirst : firstFree t.freeinodeTs t.inodeTableSize with
  | some k => exact ⟨k, rfl⟩
  | none =>
    exfalso
    have htaken := firstFree_eq_none.mp hfirst
    -- the entries reach every inode but the root
    have hreach : Set.SurjOn (fun i => (Directory.dInumber t.fsData 0 i).toNat)
        (Finset.range t.maxDirEntries) (Finset.Ico 1 t.inodeTableSize) := by
      intro k hk
      obtain ⟨hpos, hlt⟩ := Finset.mem_Ico.mp (Finset.mem_coe.mp hk)
      have hnode := h.node k hpos hlt (htaken k hlt)
      have hcount := hnode.links ▸ hnode.links_pos
      obtain ⟨i, hi, hik⟩ := Counting.countOf_pos.mp hcount
      exact ⟨i, Finset.mem_coe.mpr hi, by simp [hik]⟩
    have hcard := Finset.card_le_card_of_surjOn _ hreach
    rw [Finset.card_range, Nat.card_Ico] at hcard
    omega

/-! ### The names in the entries -/

theorem live_iff_names (h : Fs.DirInv t) (hi : i < t.maxDirEntries) :
    Directory.Live t.fsData 0 i ↔ ∃ n, EntryNames t i n := by
  constructor
  · intro hlive
    obtain ⟨n, -, hn⟩ := h.wf.named i hi hlive
    exact ⟨n, hn⟩
  · rintro ⟨n, hn⟩
    exact hn.1

/-- The names that a lookup finds. -/
theorem lookup_eq_neg_one_iff (h : Fs.DirInv t) (hS : Tabulates (EntryNames t) t.maxDirEntries S)
    (hvalid : validPathname name = true) : Fs.tfsLookup t name 0 = -1 ↔ subName name ∉ S := by
  rw [hS.mem_iff]
  constructor
  · rintro hmiss ⟨i, hi, hn⟩
    exact h.not_named hmiss hvalid i hi hn
  · intro hnone
    by_contra hfound
    obtain ⟨-, i, -, hi, hn, -⟩ := h.lookup rfl hfound
    exact hnone ⟨i, hi, hn⟩

/-- A new name. -/
theorem entries_created (hS : Tabulates (EntryNames t) t.maxDirEntries S) (hn : n ∉ S)
    (hlen : n.strlen < maxFileName) (hk : firstFree t.freeinodeTs t.inodeTableSize = some k)
    (hi : Directory.freeEntry t.fsData 0 t.maxDirEntries = some i) :
    Tabulates (EntryNames (Fs.created t k i n)) t.maxDirEntries (insert n S) := by
  obtain ⟨hdead, hlt, -⟩ := Directory.freeEntry_eq_some.mp hi
  have hint : Memory.IsInt (k : ℤ) := Fs.isInt_of_lt (firstFree_lt hk)
  have hself : ∀ b, EntryNames (Fs.created t k i n) i b ↔ b = n := by
    intro b
    have hholds : CString.HoldsAt (Directory.fillEntry t.fsData 0 i n k) (Directory.entryAddr 0 i)
        maxFileName n := Directory.holdsAt_fillEntry hlen
    constructor
    · intro hb
      exact hb.2.unique hholds
    · rintro rfl
      exact ⟨(Directory.dInumber_fillEntry hint).trans_ne (Fs.natCast_ne_neg_one k), hholds⟩
  refine hS.enter hlt (fun b hb => hdead hb.1) hn hself fun j _ hji b => ?_
  exact (Directory.sameEntry_fillEntry hji).names_iff

/-- A name fewer. -/
theorem entries_freed (hS : Tabulates (EntryNames t) t.maxDirEntries S) (hi : i < t.maxDirEntries)
    (hn : EntryNames t i n) :
    Tabulates (EntryNames (Fs.freed (Fs.cleared t i) k)) t.maxDirEntries (S.erase n) := by
  rw [Fs.freed_eq]
  refine hS.clear hi hn (fun b hb => Directory.not_live_clearEntry hb.1) fun j _ hji b => ?_
  exact (Directory.sameEntry_clearEntry hji).names_iff

namespace EmptyFiles

/-- The directory is full when it has as many names as entries. -/
theorem freeEntry_eq_none (h : EmptyFiles t S) :
    Directory.freeEntry t.fsData 0 t.maxDirEntries = none ↔ S.card = t.maxDirEntries := by
  rw [Directory.freeEntry_eq_none, h.entries.card_eq_iff]
  exact forall_congr' fun i => forall_congr' fun hi => live_iff_names h.toDirInv hi

/-- The names that a lookup finds. -/
theorem lookup_eq_neg_one (h : EmptyFiles t S) (hvalid : validPathname name = true) :
    Fs.tfsLookup t name 0 = -1 ↔ subName name ∉ S :=
  lookup_eq_neg_one_iff h.toDirInv h.entries hvalid

/-- Only parts of the state changed that hold neither names nor handles nor sizes of
files in use. -/
theorem of_same {u : Fs.State} (h : EmptyFiles t S) (hinv : Fs.SeqInv u)
    (hparams : u.fsParams = t.fsParams) (hdata : u.fsData = t.fsData)
    (hentries : u.freeOpenFileEntries = t.freeOpenFileEntries)
    (hempty : ∀ k, 0 < k → u.freeinodeTs k = .TAKEN → (u.inodeTable k).iSize = 0) :
    EmptyFiles u S where
  toSeqInv := hinv
  closed fh := by rw [hentries, h.closed fh]
  entries := by
    rw [Fs.maxDirEntries_congr hparams]
    exact h.entries.congr fun i _ n => by rw [EntryNames, hdata]
  empty := hempty

theorem discarded (h : EmptyFiles t S) (hk : firstFree t.freeinodeTs t.inodeTableSize = some k) :
    EmptyFiles (Fs.discarded t k (.new .T_FILE)) S := by
  refine h.of_same (h.toSeqInv.discarded hk) rfl rfl rfl fun j hpos htaken => ?_
  have hjk : j ≠ k := by
    rintro rfl
    have hfree : t.freeinodeTs j = .FREE := firstFree_free hk
    exact absurd (hfree.symm.trans htaken) (by decide)
  simp only [Fs.discarded, Function.update_of_ne hjk]
  exact h.empty j hpos htaken

/-- A new name, with an empty file behind it. -/
theorem created (h : EmptyFiles t S) (hn : n ∉ S) (hpos : 0 < n.strlen)
    (hlen : n.strlen < maxFileName)
    (hk : firstFree t.freeinodeTs t.inodeTableSize = some k)
    (hi : Directory.freeEntry t.fsData 0 t.maxDirEntries = some i)
    (hdir : Fs.DirInv (Fs.created t k i n)) : EmptyFiles (Fs.created t k i n) (insert n S) where
  toSeqInv := h.toSeqInv.created hk hdir
  closed := h.closed
  entries := entries_created h.entries hn hlen hk hi
  empty j hjpos htaken := by
    by_cases hjk : j = k
    · subst hjk
      simp [Fs.created, Fs.newInode, Fs.Inode.new]
    · simp only [Fs.created, Fs.newInode, Function.update_of_ne hjk] at htaken ⊢
      exact h.empty j hjpos htaken

/-- A name fewer, and its inode given back. -/
theorem freed (h : EmptyFiles t S) (hi : i < t.maxDirEntries) (hn : EntryNames t i n)
    (hik : Directory.dInumber t.fsData 0 i = k) (hpos : 0 < k) (hlt : k < t.inodeTableSize)
    (htaken : t.freeinodeTs k = .TAKEN) (hdir : Fs.DirInv (Fs.freed (Fs.cleared t i) k)) :
    EmptyFiles (Fs.freed (Fs.cleared t i) k) (S.erase n) where
  toSeqInv := by
    refine h.toSeqInv.freed hdir hpos hlt htaken fun fh hfh => ?_
    rw [h.closed fh] at hfh
    cases hfh
  closed fh := by
    rw [Fs.freed_eq]
    exact h.closed fh
  entries := by
    have hentries := entries_freed (k := k) h.entries hi hn
    rw [Fs.freed_eq] at hentries ⊢
    exact hentries
  empty j hjpos hjtaken := by
    rw [Fs.freed_eq] at hjtaken ⊢
    have hjk : j ≠ k := by
      rintro rfl
      simp at hjtaken
    exact h.empty j hjpos ((Function.update_of_ne hjk _ _).symm.trans hjtaken)

end EmptyFiles

/-! ### The calls of `fs2/` -/

/-- `tfs_open` that creates a file, up to the open file table. -/
theorem tfsOpenRoot_new (h : Fs.DirInv t) (hvalid : validPathname name = true)
    (hmiss : Fs.tfsLookup t name 0 = -1) (hcreat : hasFlag mode tfsOCreat = true)
    (hlen : (subName name).strlen < maxFileName)
    (hk : firstFree t.freeinodeTs t.inodeTableSize = some k) :
    Fs.tfsOpenRoot t name mode = .ret
      (match Directory.freeEntry t.fsData 0 t.maxDirEntries with
      | none => (.failed, Fs.discarded t k (.new .T_FILE))
      | some i => (.created k, Fs.created t k i (subName name))) := by
  have hk0 : k ≠ 0 := firstFree_ne hk h.root_taken
  have hpos := strlen_subName_pos hvalid
  have hmax : maxFileName = 40 := rfl
  have hshort : ¬ ((subName name).strlen = 0 ∨ maxFileName - 1 < (subName name).strlen) := by omega
  have hneg : ¬ (0 : ℤ) ≤ -1 := by decide
  have hentry : Directory.freeEntry (Fs.newInode t k .T_FILE).fsData 0
      (Fs.newInode t k .T_FILE).maxDirEntries =
        Directory.freeEntry t.fsData 0 t.maxDirEntries := rfl
  unfold Fs.tfsOpenRoot
  simp only [hvalid, if_true, h.inodeGet_root, hmiss, hneg, if_false, hcreat]
  rw [Fs.inodeCreate_eq (by decide), hk]
  simp only [(h.toRootOk.of_newInode hk0).addDirEntry_eq, Outcome.ret_bind, hshort, if_false, hentry]
  cases Directory.freeEntry t.fsData 0 t.maxDirEntries with
  | none =>
    rw [← Fs.inodeDelete_newInode (firstFree_lt hk) (firstFree_free hk)]
    rfl
  | some i => rfl

/-- The ways `tfs_open` with `TFS_O_CREAT` alone can go. -/
theorem tfsOpen_creat_cases (h : Fs.DirInv s.toFs)
    (hopen : Fs2.tfsOpen s name tfsOCreat = .ret (fd, s')) :
    (fd = -1 ∧ s'.toFs = s.toFs) ∨
    (∃ k : ℕ, Fs.tfsLookup s.toFs name 0 = k ∧ (fd, s'.toFs) = Fs.tfsOpenRegister s.toFs k 0) ∨
    ∃ k, firstFree s.freeinodeTs s.inodeTableSize = some k ∧ validPathname name = true ∧
      Fs.tfsLookup s.toFs name 0 = -1 ∧
      ((fd = -1 ∧ s'.toFs = Fs.discarded s.toFs k (.new .T_FILE)) ∨
        ∃ i, (subName name).strlen < maxFileName ∧
          Directory.freeEntry s.fsData 0 s.maxDirEntries = some i ∧
          Fs.DirInv (Fs.created s.toFs k i (subName name)) ∧
          (fd, s'.toFs) = Fs.tfsOpenRegister (Fs.created s.toFs k i (subName name)) k 0) := by
  have hfs := toFs_tfsOpen h.toRootOk hopen
  rw [Fs.tfsOpen] at hfs
  obtain ⟨⟨root, t1⟩, hroot, hfs⟩ := Outcome.bind_eq_ret.mp hfs
  have htrunc : hasFlag tfsOCreat tfsOTrunc = false := by decide
  have happend : hasFlag tfsOCreat tfsOAppend = false := by decide
  rcases h.tfsOpenRoot_cases h.root_taken hroot with ⟨rfl, rfl⟩ | ⟨k, rfl, rfl, hl⟩ |
    ⟨k, hfirst, hvalid, hneg, ⟨rfl, rfl⟩ | ⟨i, -, hlen, hroom, rfl, rfl⟩⟩
  · obtain ⟨rfl, hs'⟩ := Prod.mk.inj (Outcome.ret.inj hfs)
    exact .inl ⟨rfl, hs'.symm⟩
  · -- the file exists
    refine .inr (.inl ⟨k, hl, ?_⟩)
    obtain ⟨⟨inode, t2⟩, hinode, hfs⟩ := Outcome.bind_eq_ret.mp hfs
    obtain ⟨-, ⟨hlink, -⟩ | ⟨-, ⟨-, hflag, -⟩ | ⟨rfl, -⟩, rfl⟩⟩ := Fs.tfsOpenInode_cases hinode
    · exact absurd hlink InodeType.toFs_ne_link
    · exact absurd (htrunc.symm.trans hflag) (by decide)
    · simp only [happend, Bool.false_eq_true, if_false] at hfs
      exact (Outcome.ret.inj hfs).symm
  · obtain ⟨rfl, hs'⟩ := Prod.mk.inj (Outcome.ret.inj hfs)
    exact .inr (.inr ⟨k, hfirst, hvalid, h.lookup_neg hneg, .inl ⟨rfl, hs'.symm⟩⟩)
  · exact .inr (.inr ⟨k, hfirst, hvalid, h.lookup_neg hneg,
      .inr ⟨i, hlen, hroom, (h.tfsOpenRoot hroot).1, (Outcome.ret.inj hfs).symm⟩⟩)

namespace EmptyFiles

/-- `tfs_open` finds no room for another name. -/
theorem tfsOpen_full (h : EmptyFiles s.toFs S) (hvalid : validPathname name = true)
    (hn : subName name ∉ S) (hlen : (subName name).strlen < maxFileName)
    (hroom : s.maxDirEntries + 1 < s.inodeTableSize) (hfull : S.card = s.maxDirEntries) :
    ∃ s', Fs2.tfsOpen s name tfsOCreat = .ret (-1, s') ∧ EmptyFiles s'.toFs S ∧
      s'.fsParams = s.fsParams := by
  obtain ⟨k, hk⟩ := exists_freeInode h.toDirInv hroom
  have hroot := tfsOpenRoot_new h.toDirInv hvalid ((h.lookup_eq_neg_one hvalid).mpr hn)
    (by decide : hasFlag tfsOCreat tfsOCreat = true) hlen hk
  rw [h.freeEntry_eq_none.mpr hfull] at hroot
  obtain ⟨⟨r, s'⟩, hopen⟩ := tfsOpen_returns h.toSeqInv
  have hfs := toFs_tfsOpen h.toRootOk hopen
  rw [Fs.tfsOpen, hroot, Outcome.ret_bind] at hfs
  obtain ⟨rfl, hs'⟩ := Prod.mk.inj (Outcome.ret.inj hfs)
  have hdiscarded := h.discarded hk
  rw [hs'] at hdiscarded
  exact ⟨s', hopen, hdiscarded, congrArg Fs.State.fsParams hs'.symm⟩

/-- The file of a name. -/
theorem lookup (h : EmptyFiles s.toFs S) (hvalid : validPathname name = true)
    (hn : subName name ∈ S) : ∃ k : ℕ, tfsLookup s name rootDirInum = .ret k ∧
      Fs.tfsLookup s.toFs name 0 = k ∧ (s.inodeTable k).iSize = 0 := by
  have hfound : Fs.tfsLookup s.toFs name 0 ≠ -1 :=
    fun hmiss => (h.lookup_eq_neg_one hvalid).mp hmiss hn
  obtain ⟨-, -, k, -, -, -, hk, hpos, -, htaken⟩ := h.toDirInv.lookup rfl hfound
  exact ⟨k, (tfsLookup_eq_ret h.toRootOk).trans (congrArg _ hk), hk, h.empty k hpos htaken⟩

/-- A file is opened with the first handle and closed again. -/
theorem register_close (h : EmptyFiles t S) (hopen : 0 < t.maxOpenFiles) (hk : Fs.LiveFile t k)
    (offset : ℕ) : Fs.tfsOpenRegister t k offset = (0, Fs.registered t 0 k offset) ∧
      Fs.tfsClose (Fs.registered t 0 k offset) 0 =
        (0, (Fs.registered t 0 k offset).setFreeEntry 0 .FREE) ∧
      EmptyFiles ((Fs.registered t 0 k offset).setFreeEntry 0 .FREE) S := by
  have hreg : Fs.tfsOpenRegister t k offset = (0, Fs.registered t 0 k offset) := by
    have hfirst : firstFree t.freeOpenFileEntries t.maxOpenFiles = some 0 :=
      (firstFree_of_zero (h.closed 0)).trans (if_pos hopen)
    rcases Fs.tfsOpenRegister_cases t k offset with ⟨hnone, -⟩ | ⟨fh, hfh, heq⟩
    · exact absurd (hfirst.symm.trans hnone) (by simp)
    · obtain rfl : 0 = fh := Option.some_inj.mp (hfirst.symm.trans hfh)
      exact heq
  have hentry : Fs.getOpenFileEntry (Fs.registered t 0 k offset) ((0 : ℕ) : ℤ) = some 0 :=
    Fs.getOpenFileEntry_eq_some.mpr
      ⟨rfl, hopen, by simp [Fs.registered, Fs.State.setEntry, Fs.State.setFreeEntry]⟩
  have hclose : Fs.tfsClose (Fs.registered t 0 k offset) 0 =
      (0, (Fs.registered t 0 k offset).setFreeEntry 0 .FREE) := by
    rcases Fs.tfsClose_cases (Fs.registered t 0 k offset) ((0 : ℕ) : ℤ) with
      ⟨hnone, -⟩ | ⟨fh, hfh, heq⟩
    · exact absurd (hentry.symm.trans hnone) (by simp)
    · obtain rfl : 0 = fh := Option.some_inj.mp (hentry.symm.trans hfh)
      exact heq
  refine ⟨hreg, hclose, h.of_same ?_ rfl rfl ?_ h.empty⟩
  · have hinv := (h.toSeqInv.tfsOpenRegister hk hreg.symm).tfsClose 0
    rwa [hclose] at hinv
  · funext fh
    by_cases hfh : fh = 0
    · subst hfh
      simp [Fs.registered, Fs.State.setEntry, Fs.State.setFreeEntry, h.closed 0]
    · simp [Fs.registered, Fs.State.setEntry, Fs.State.setFreeEntry, Function.update_of_ne hfh]

/-- `tfs_open` creates a file, and `tfs_close` closes it. -/
theorem tfsOpen_new (h : EmptyFiles s.toFs S) (hvalid : validPathname name = true)
    (hn : subName name ∉ S) (hlen : (subName name).strlen < maxFileName)
    (hroom : s.maxDirEntries + 1 < s.inodeTableSize) (hcard : S.card < s.maxDirEntries)
    (hopen : 0 < s.maxOpenFiles) :
    ∃ s' s'', Fs2.tfsOpen s name tfsOCreat = .ret (0, s') ∧ Fs2.tfsClose s' 0 = .ret (0, s'') ∧
      EmptyFiles s''.toFs (insert (subName name) S) ∧ s''.fsParams = s.fsParams := by
  obtain ⟨k, hk⟩ := exists_freeInode h.toDirInv hroom
  have hroot := tfsOpenRoot_new h.toDirInv hvalid ((h.lookup_eq_neg_one hvalid).mpr hn)
    (by decide : hasFlag tfsOCreat tfsOCreat = true) hlen hk
  obtain ⟨i, hi⟩ : ∃ i, Directory.freeEntry s.toFs.fsData 0 s.toFs.maxDirEntries = some i := by
    rw [← Option.ne_none_iff_exists']
    exact fun hfull => hcard.ne (h.freeEntry_eq_none.mp hfull)
  rw [hi] at hroot
  have hcreated := h.created hn (strlen_subName_pos hvalid) hlen hk hi
    (h.toDirInv.tfsOpenRoot hroot).1
  obtain ⟨hreg, hclosed, hfinal⟩ :=
    hcreated.register_close hopen (Fs.SeqInv.liveFile_created hk h.toSeqInv) 0
  -- the same calls on `fs2/`
  obtain ⟨⟨fd, s'⟩, hcall⟩ : (Fs2.tfsOpen s name tfsOCreat).Returns := tfsOpen_returns h.toSeqInv
  have hfs := toFs_tfsOpen h.toRootOk hcall
  rw [Fs.tfsOpen, hroot, Outcome.ret_bind] at hfs
  dsimp only at hfs
  rw [hreg] at hfs
  obtain ⟨rfl, hs'⟩ := Prod.mk.inj (Outcome.ret.inj hfs)
  obtain ⟨⟨r, s''⟩, hclose⟩ := (tfsClose_returns : (Fs2.tfsClose s' 0).Returns)
  have hfs' := toFs_tfsClose hclose
  rw [← hs', hclosed] at hfs'
  obtain ⟨rfl, hs''⟩ := Prod.mk.inj hfs'
  rw [hs''] at hfinal
  have hparams : s''.toFs.fsParams = s.toFs.fsParams := by
    rw [← hs'']
    rfl
  exact ⟨s', s'', hcall, hclose, hfinal, hparams⟩

/-- `tfs_unlink` removes the file of a name. -/
theorem tfsUnlink (h : EmptyFiles s.toFs S) (hvalid : validPathname name = true)
    (hn : subName name ∈ S) : ∃ s', Fs2.tfsUnlink s name = .ret (0, s') ∧
      EmptyFiles s'.toFs (S.erase (subName name)) ∧ s'.fsParams = s.fsParams := by
  obtain ⟨⟨r, s'⟩, hcall⟩ : (Fs2.tfsUnlink s name).Returns := tfsUnlink_returns h.toSeqInv
  rcases tfsUnlink_cases h.toDirInv hcall with ⟨hmiss, -⟩ |
    ⟨k, i, -, hpos, hlt, htaken, hi, hnames, hik, rfl, hs'⟩
  · exact absurd hn ((h.lookup_eq_neg_one hvalid).mp hmiss)
  · have hdir := (h.toDirInv.freed hi hik hpos hlt htaken rfl).1
    have hfreed := h.freed hi hnames hik hpos hlt htaken hdir
    rw [← hs'] at hfreed
    have hparams : s'.toFs.fsParams = s.toFs.fsParams := by
      rw [hs', Fs.freed_eq]
      rfl
    exact ⟨s', hcall, hfreed, hparams⟩

/-- Right after `tfs_init`. -/
theorem init (heap : Heap) (params : TfsParams) (hinodes : 0 < params.maxInodeCount)
    (hblocks : 0 < params.maxBlockCount) : EmptyFiles (initState heap params).toFs ∅ := by
  have hinit : Initialised (initState heap params) :=
    ⟨heap, params, tfsInit_eq_ret.mpr ⟨hinodes, hblocks, rfl⟩⟩
  refine ⟨Fs.tfsInit_seqInv (initialised_toFs hinit), fun fh => rfl, .empty fun i hi n hn => ?_,
    fun k hpos htaken => ?_⟩
  · rw [toFs_initState] at hn hi
    exact hn.1 (Directory.dInumber_initEntries hi)
  · rw [toFs_initState] at htaken
    have hfree : Function.update (fun _ => AllocationState.FREE) 0 .TAKEN k = .FREE :=
      Function.update_of_ne hpos.ne' _ _
    exact absurd (hfree.symm.trans htaken) (by decide)

end EmptyFiles

end TfsBroker.Fs2
