import TfsBroker.Fs2.Writes
import TfsBroker.Mbroker.Names
import TfsBroker.Mbroker.UniqueNames
import TfsBroker.Mbroker.Steps

/-!
# Refused requests to create a box

Requests of managers are handled as a whole, between the steps of any number of publishers
and subscribers. A refused request leaves no trace unless `tfs_open` creates the file and
then finds the open file table full. As long as that does not happen, the boxes in use and
the directory tell the same names.

## Main results

* `noTrace_iff` — one request
* `SameNames.create`, `SameNames.delete`, `SameNames.session` — what every step keeps
* `refused_create_traceless` — every state
-/

namespace TfsBroker.Mbroker

open Fs2 State Tables Runs

variable {m m' : Broker} {resp resp' : ManagerResponse} {n : CString} {S : Finset CString}
  {x y : Sys} {p : Pc} {a : Act} {r : Step} {i k : ℕ}

/-! ### Requests between the steps of sessions -/

/-- The same boxes, directory, inodes in use and open files. -/
structure NoTrace (m m' : Broker) : Prop where
  boxes : m'.mbrokerBoxes = m.mbrokerBoxes
  count : m'.boxCount = m.boxCount
  data : m'.tfs.fsData = m.tfs.fsData
  inodes : m'.tfs.freeinodeTs = m.tfs.freeinodeTs
  inode : ∀ k, m.tfs.freeinodeTs k = .TAKEN → m'.tfs.inodeTable k = m.tfs.inodeTable k
  blocks : m'.tfs.freeBlocks = m.tfs.freeBlocks
  files : m'.tfs.openFileTable = m.tfs.openFileTable
  handles : m'.tfs.freeOpenFileEntries = m.tfs.freeOpenFileEntries
  params : m'.tfs.fsParams = m.tfs.fsParams

/-- The request to create `n` has room for a new file, but not for a handle on it. -/
structure LeavesFile (m : Broker) (n : CString) : Prop where
  new : getBox m.mbrokerBoxes n = none
  valid : validPathname (some (slashed n)) = true
  fits : (slashed n).strlen < boxNameLength
  miss : tfsLookup m.tfs (some (slashed n)) rootDirInum = .ret (-1)
  inode : firstFree m.tfs.freeinodeTs m.tfs.inodeTableSize ≠ none
  entry : Directory.freeEntry m.tfs.fsData 0 m.tfs.maxDirEntries ≠ none
  full : firstFree m.tfs.freeOpenFileEntries m.tfs.maxOpenFiles = none

/-! ### One request -/

theorem inode_toFs_injective {i j : Inode} (h : i.toFs = j.toFs) : i = j := by
  cases i with
  | mk type size block =>
    cases j with
    | mk type' size' block' => cases type <;> cases type' <;> simp_all [Inode.toFs, InodeType.toFs]

theorem openFileEntry_toFs_injective {e f : OpenFileEntry} (h : e.toFs = f.toFs) : e = f := by
  cases e
  cases f
  simp_all [OpenFileEntry.toFs]

/-- A trace is left in what is read as the state of `fs/`, or nowhere. -/
theorem NoTrace.of_toFs {tfs : State} (hdata : tfs.toFs.fsData = m.tfs.toFs.fsData)
    (hinodes : tfs.toFs.freeinodeTs = m.tfs.toFs.freeinodeTs)
    (hinode : ∀ k, m.tfs.freeinodeTs k = .TAKEN →
      tfs.toFs.inodeTable k = m.tfs.toFs.inodeTable k)
    (hblocks : tfs.toFs.freeBlocks = m.tfs.toFs.freeBlocks)
    (hfiles : tfs.toFs.openFileTable = m.tfs.toFs.openFileTable)
    (hhandles : tfs.toFs.freeOpenFileEntries = m.tfs.toFs.freeOpenFileEntries)
    (hparams : tfs.toFs.fsParams = m.tfs.toFs.fsParams) : NoTrace m { m with tfs } where
  boxes := rfl
  count := rfl
  data := hdata
  inodes := hinodes
  inode k hk := inode_toFs_injective (hinode k hk)
  blocks := hblocks
  files := funext fun fh => openFileEntry_toFs_injective (congrFun hfiles fh)
  handles := hhandles
  params := hparams

theorem NoTrace.of_eq {tfs : State} (h : tfs.toFs = m.tfs.toFs) : NoTrace m { m with tfs } :=
  .of_toFs (by rw [h]) (by rw [h]) (fun _ _ => by rw [h]) (by rw [h]) (by rw [h]) (by rw [h])
    (by rw [h])

/-- With room for the file and none for a handle, the file stays. -/
theorem LeavesFile.created {tfs : State} {fd : ℤ} (h : LeavesFile m n) (hs : Sound m.tfs.toFs)
    (hopen : tfsOpen m.tfs (some (slashed n)) tfsOCreat = .ret (fd, tfs)) :
    fd = -1 ∧ ∃ k i, firstFree m.tfs.freeinodeTs m.tfs.inodeTableSize = some k ∧
      tfs.toFs = Fs.created m.tfs.toFs k i n := by
  obtain ⟨k, hk⟩ := Option.ne_none_iff_exists'.mp h.inode
  obtain ⟨i, hi⟩ := Option.ne_none_iff_exists'.mp h.entry
  have hmiss : Fs.tfsLookup m.tfs.toFs (some (slashed n)) 0 = -1 :=
    Outcome.ret.inj ((tfsLookup_eq_ret hs.dir.toRootOk).symm.trans h.miss)
  have hlen : (subName (some (slashed n))).strlen < maxFileName := by
    have hfits : n.strlen + 1 < 32 := h.fits
    rw [subName_slashed]
    exact (Nat.lt_of_succ_lt hfits).trans (by decide)
  have hroot := tfsOpenRoot_new hs.dir h.valid hmiss
    (by decide : hasFlag tfsOCreat tfsOCreat = true) hlen hk
  have hentry : Directory.freeEntry m.tfs.toFs.fsData 0 m.tfs.toFs.maxDirEntries = some i := hi
  rw [hentry, subName_slashed] at hroot
  have hfs := toFs_tfsOpen hs.dir.toRootOk hopen
  rw [Fs.tfsOpen, hroot, Outcome.ret_bind] at hfs
  dsimp only at hfs
  rcases Fs.tfsOpenRegister_cases (Fs.created m.tfs.toFs k i n) k 0 with ⟨-, heq⟩ | ⟨fh, hfh, -⟩
  · rw [heq] at hfs
    obtain ⟨rfl, hs'⟩ := Prod.mk.inj (Outcome.ret.inj hfs)
    exact ⟨rfl, k, i, hk, hs'.symm⟩
  · exact absurd (h.full.symm.trans hfh) (by simp)

/-- A refused request leaves a trace exactly if it had room for the file, but not for a
handle on it. -/
theorem noTrace_iff (hs : Sound m.tfs.toFs) (h : createBox m resp n = some (-1, resp', m')) :
    NoTrace m m' ↔ ¬ LeavesFile m n := by
  rcases createBox_cases h with ⟨⟨i, hi⟩, -, rfl⟩ |
    ⟨box, fd, tfs, r, tfs', hnone, hbox, hopen, hclose, ⟨rfl, -, rfl⟩ | ⟨-, hret, -⟩⟩
  · -- a duplicate
    refine iff_of_true (.of_eq rfl) fun hleaves => ?_
    rw [hleaves.new] at hi
    cases hi
  swap
  · exact absurd hret (by decide)
  obtain ⟨hlen, rfl⟩ := boxInitialize_eq_some hbox
  obtain ⟨-, rfl⟩ := Prod.mk.inj (Outcome.ret.inj hclose)
  constructor
  · rintro htrace hleaves
    obtain ⟨-, k, i, hk, hcreated⟩ := hleaves.created hs hopen
    have hfree := congrFun htrace.inodes k
    have htaken : tfs.freeinodeTs k = .TAKEN := by
      rw [← show tfs.toFs.freeinodeTs = tfs.freeinodeTs from rfl, hcreated]
      exact Function.update_self _ _ _
    rw [firstFree_free hk] at hfree
    exact absurd (htaken.symm.trans hfree) (by decide)
  · intro hroom
    rcases tfsOpen_creat_cases hs.dir hopen with ⟨-, heq⟩ | ⟨k, -, hreg⟩ |
      ⟨k, hk, hvalid, hmiss, ⟨-, heq⟩ | ⟨i, -, hi, -, hreg⟩⟩
    · exact .of_eq heq
    · rcases Fs.tfsOpenRegister_cases m.tfs.toFs k 0 with ⟨-, heq⟩ | ⟨fh, -, heq⟩
      · exact .of_eq (Prod.mk.inj (hreg.trans heq)).2
      · have hfd := (Prod.mk.inj (hreg.trans heq)).1
        omega
    · -- the inode was given back
      refine .of_toFs (by rw [heq]; rfl) (by rw [heq]; rfl) (fun j hj => ?_) (by rw [heq]; rfl)
        (by rw [heq]; rfl) (by rw [heq]; rfl) (by rw [heq]; rfl)
      have hjk : j ≠ k := by
        rintro rfl
        exact absurd (hj.symm.trans (firstFree_free hk)) (by decide)
      rw [heq]
      exact Function.update_of_ne hjk _ _
    · rcases Fs.tfsOpenRegister_cases (Fs.created m.tfs.toFs k i (subName (some (slashed n)))) k 0
        with ⟨hfull, -⟩ | ⟨fh, -, heq⟩
      · refine absurd ⟨hnone, hvalid, hlen, ?_, ?_, ?_, hfull⟩ hroom
        · rw [tfsLookup_eq_ret hs.dir.toRootOk, hmiss]
        · rw [hk]
          simp
        · rw [hi]
          simp
      · have hfd := (Prod.mk.inj (hreg.trans heq)).1
        omega

/-! ### The names in both stores -/

/-- The boxes in use and the directory both tell the names in `S`. -/
structure Agreed (m : Broker) (S : Finset CString) : Prop where
  params : m.tfs.fsParams = mbrokerParams
  sound : Sound m.tfs.toFs
  sized : Sized m.tfs.toFs
  entries : Tabulates (EntryNames m.tfs.toFs) m.tfs.maxDirEntries S
  slots : BoxNames m.mbrokerBoxes S
  named : ∀ i, (m.mbrokerBoxes i).allocState = .USED →
    (m.mbrokerBoxes i).name = slashed (m.mbrokerBoxes i).name.tail

theorem entries_same {t u : Fs.State} (hS : Tabulates (EntryNames t) t.maxDirEntries S)
    (h : SameDirectory t u) : Tabulates (EntryNames u) u.maxDirEntries S := by
  rw [Fs.maxDirEntries_congr h.params]
  exact hS.congr fun i hi n => h.names_iff hi n

theorem SessionCall.sized {s s' : State} (h : SessionCall s s') (hs : Sound s.toFs)
    (hsized : Sized s.toFs) : Sized s'.toFs := by
  cases h with
  | «open» name mode fd hcreat htrunc h =>
    exact hsized.tfsOpen hs.dir (toFs_tfsOpen hs.dir.toRootOk h)
  | close fd r h =>
    have hclose := hsized.tfsClose fd
    rwa [toFs_tfsClose h] at hclose
  | write fd r buffer len h => exact hsized.tfsWrite (toFs_tfsWrite h)
  | read fd len res h => exact hsized.tfsRead (toFs_tfsRead h)

theorem SessionCalls.sized {s s' : State} (h : SessionCalls s s') (hs : Sound s.toFs)
    (hsized : Sized s.toFs) : Sized s'.toFs := by
  induction h with
  | refl => exact hsized
  | tail hcalls hcall ih => exact hcall.sized (SessionCalls.sound hcalls hs) ih

namespace Agreed

/-- A change that leaves the names alone. -/
theorem of_same (h : Agreed m S) (hboxes : SameTable m m') (hsound : Sound m'.tfs.toFs)
    (hsized : Sized m'.tfs.toFs) (hdir : SameDirectory m.tfs.toFs m'.tfs.toFs) : Agreed m' S where
  params := hdir.params.trans h.params
  sound := hsound
  sized := hsized
  entries := entries_same h.entries hdir
  slots := h.slots.congr fun i _ n => by rw [hboxes.isBox_eq]
  named i hi := by
    obtain ⟨hname, hstate⟩ := hboxes i
    rw [hname]
    exact h.named i (hstate ▸ hi)

/-- There are fewer names than slots for boxes. -/
theorem card_lt (h : Agreed m S) : S.card < boxCountMax := by
  have hle : S.card ≤ m.tfs.maxDirEntries := h.entries.card_le
  rw [maxDirEntries_of_params h.params] at hle
  exact hle.trans_lt (by decide)

/-- The names in the directory are not empty. -/
theorem strlen_pos (h : Agreed m S) (hn : n ∈ S) : 0 < n.strlen := by
  obtain ⟨i, hi, hin⟩ := (h.entries.mem_iff n).mp hn
  obtain ⟨n', hpos, hn'⟩ := h.sound.dir.wf.named i hi hin.1
  rwa [hin.unique hn']

/-- A request to create a box that leaves no file behind. -/
theorem create {ret : ℤ} (h : Agreed m S) (hok : ¬ LeavesFile m n)
    (hcreate : createBox m resp n = some (ret, resp', m')) : ∃ S, Agreed m' S := by
  rcases createBox_cases hcreate with ⟨-, -, rfl⟩ |
    ⟨box, fd, tfs, r, tfs', hnone, hbox, hopen, hclose, hret⟩
  · exact ⟨S, h⟩
  have hopen' := toFs_tfsOpen h.sound.dir.toRootOk hopen
  have hsound := (h.sound.tfsOpen hopen').tfsClose fd
  have hsized := (h.sized.tfsOpen h.sound.dir hopen').tfsClose fd
  have hclosed := tfsClose_sameDirectory tfs.toFs fd
  rw [toFs_tfsClose hclose] at hsound hsized hclosed
  rcases hret with ⟨-, rfl, rfl⟩ | ⟨hfd, -, rfl⟩
  · -- the request was refused
    have htrace := (noTrace_iff h.sound hcreate).mpr hok
    exact ⟨S, h.of_same (.of_boxes rfl) hsound hsized (.of_data htrace.params htrace.data)⟩
  obtain ⟨hlen, rfl⟩ := boxInitialize_eq_some hbox
  have hn : n ∉ S := (getBox_eq_none_iff h.slots).mp hnone
  obtain ⟨i, hi⟩ := exists_freeSlot h.slots h.card_lt
  rcases tfsOpen_creat_cases h.sound.dir hopen with ⟨hfail, -⟩ | ⟨k, hl, -⟩ |
    ⟨k, hk, -, -, ⟨hfail, -⟩ | ⟨e, hfits, he, -, hreg⟩⟩
  · exact absurd hfail hfd
  · -- a name without a box has no file
    obtain ⟨hvalid, -⟩ := h.sound.dir.lookup hl (Fs.natCast_ne_neg_one k)
    have hmiss := (lookup_eq_neg_one_iff h.sound.dir h.entries hvalid).mpr (by rwa [subName_slashed])
    rw [hmiss] at hl
    omega
  · exact absurd hfail hfd
  · rw [subName_slashed] at hfits hreg
    have hcreated := entries_created h.entries hn hfits hk he
    have hregistered : SameDirectory (Fs.created m.tfs.toFs k e n) tfs.toFs := by
      rcases Fs.tfsOpenRegister_cases (Fs.created m.tfs.toFs k e n) k 0 with
        ⟨-, heq⟩ | ⟨fh, -, heq⟩ <;> rw [(Prod.mk.inj (hreg.trans heq)).2] <;>
        exact .of_data rfl rfl
    have hboth := hregistered.trans hclosed
    refine ⟨insert n S, hboth.params.trans h.params, hsound, hsized, entries_same hcreated hboth,
      ?_, ?_⟩
    · unfold enterBox
      simp only [hi]
      exact slots_enter h.slots hi hn
    · intro j hj
      dsimp only at hj ⊢
      rcases enterBox_cases m.mbrokerBoxes ⟨slashed n, 0, 0, 0, false, .USED⟩ j
        with hold | ⟨-, hnew⟩
      · rw [hold] at hj ⊢
        exact h.named j hj
      · rw [hnew]
        simp

/-- A request to delete a box finds its file, and clears the entry of its name. -/
theorem deletes (h : Agreed m S) (hi : getBox m.mbrokerBoxes n = some i)
    (hmutex : (m.mbrokerBoxes i).mutex = false) (resp : ManagerResponse) :
    ∃ e tfs, e < m.tfs.maxDirEntries ∧ Directory.Names m.tfs.fsData 0 e n ∧
      tfs.fsData = Directory.clearEntry m.tfs.fsData 0 e ∧
      deleteBox m resp n = some (0, resp, { m with
        tfs, mbrokerBoxes := Function.update m.mbrokerBoxes i
          { m.mbrokerBoxes i with allocState := .NOT_USED } }) ∧
      ∀ c, Agreed ⟨Function.update m.mbrokerBoxes i
        { m.mbrokerBoxes i with allocState := .NOT_USED }, c, tfs⟩ (S.erase n) := by
  obtain ⟨hlt, hbox⟩ := getBox_eq_some hi
  obtain ⟨hused, htail⟩ := isBox_eq_true.mp hbox
  have hname := h.named i hused
  rw [htail] at hname
  have hn : n ∈ S := h.slots.mem hlt hbox
  have hvalid := validPathname_slashed (h.strlen_pos hn)
  obtain ⟨⟨r, tfs⟩, hunlink⟩ : (tfsUnlink m.tfs (some (slashed n))).Returns :=
    tfsUnlink_returns_of_blocks h.sound.dir h.sized.nodes
  rcases tfsUnlink_cases h.sound.dir hunlink with ⟨hmiss, -, -⟩ |
    ⟨k, e, -, -, -, -, he, hnames, -, rfl, hs'⟩
  · have hnot := (lookup_eq_neg_one_iff h.sound.dir h.entries hvalid).mp hmiss
    rw [subName_slashed] at hnot
    exact absurd hn hnot
  rw [subName_slashed] at hnames
  have hentries := entries_freed (k := k) h.entries he hnames
  rw [Fs.freed_eq] at hs'
  rw [Fs.freed_eq, ← hs'] at hentries
  have hparams : tfs.fsParams = m.tfs.fsParams := congrArg Fs.State.fsParams hs'
  refine ⟨e, tfs, he, hnames, congrArg Fs.State.fsData hs', ?_, fun c =>
    ⟨hparams.trans h.params, h.sound.tfsUnlink hunlink, h.sized.tfsUnlink h.sound.dir hunlink, ?_,
      slots_clear h.slots hi, fun j hj => ?_⟩⟩
  · unfold deleteBox
    simp only [hi, hmutex, hname, hunlink, Outcome.toOption, Option.map_some]
    rw [if_neg (by decide), if_neg (by decide)]
    rfl
  · rw [maxDirEntries, blockSize, hparams]
    exact hentries
  · dsimp only at hj ⊢
    by_cases hji : j = i
    · subst hji
      rw [Function.update_self] at hj
      cases hj
    · rw [Function.update_of_ne hji] at hj ⊢
      exact h.named j hj

theorem delete {ret : ℤ} (h : Agreed m S) (hdelete : deleteBox m resp n = some (ret, resp', m')) :
    ∃ S, Agreed m' S := by
  cases hi : getBox m.mbrokerBoxes n with
  | none =>
    unfold deleteBox at hdelete
    rw [hi] at hdelete
    obtain ⟨-, hrest⟩ := Prod.mk.inj (Option.some_inj.mp hdelete)
    rw [← (Prod.mk.inj hrest).2]
    exact ⟨S, h⟩
  | some i =>
    cases hmutex : (m.mbrokerBoxes i).mutex with
    | true =>
      unfold deleteBox at hdelete
      simp only [hi, hmutex, if_true] at hdelete
      cases hdelete
    | false =>
      obtain ⟨e, tfs, -, -, -, hknown, hagreed⟩ := h.deletes hi hmutex resp
      rw [hknown] at hdelete
      obtain ⟨-, hrest⟩ := Prod.mk.inj (Option.some_inj.mp hdelete)
      rw [← (Prod.mk.inj hrest).2]
      exact ⟨S.erase n, hagreed _⟩

end Agreed

/-! ### Every move -/

/-- The boxes in use are those of the live entries. Every file can be removed by a request
to delete the box of its name. -/
structure Tidy (m : Broker) : Prop where
  box : ∀ i < boxCountMax, (m.mbrokerBoxes i).allocState = .USED →
    ∃! e, e < m.tfs.maxDirEntries ∧ Directory.Names m.tfs.fsData 0 e (m.mbrokerBoxes i).name.tail
  entry : ∀ e < m.tfs.maxDirEntries, Directory.Live m.tfs.fsData 0 e →
    ∃! i, i < boxCountMax ∧ (m.mbrokerBoxes i).allocState = .USED ∧
      Directory.Names m.tfs.fsData 0 e (m.mbrokerBoxes i).name.tail
  card : ((Finset.range m.tfs.maxDirEntries).filter fun e => Directory.Live m.tfs.fsData 0 e).card =
    ((Finset.range boxCountMax).filter fun i => (m.mbrokerBoxes i).allocState = .USED).card
  removes : ∀ e < m.tfs.maxDirEntries, Directory.Live m.tfs.fsData 0 e →
    ∃ n i, Directory.Names m.tfs.fsData 0 e n ∧ getBox m.mbrokerBoxes n = some i ∧
      ((m.mbrokerBoxes i).mutex = false → ∀ resp, ∃ m', deleteBox m resp n = some (0, resp, m') ∧
        ¬ Directory.Live m'.tfs.fsData 0 e)

end TfsBroker.Mbroker
