import TfsBroker.Fs2.Asserts

/-!
# Handles of `fs2/` and the files they were opened on

`tfs_unlink` of `fs2/` deletes an inode without a look at the open file table, so a
handle can outlive its file and come to stand on the next one created in the same
slot. `SparesHandles` are the calls that let this not happen; `Tracked` is what runs
of such calls keep of the file system and its history.

## Main results

* `handles_on_file` — in every run that removes no open file and truncates none
  below a handle, handles stay on their file, no assertion fires, and reads return
  bytes of the handle's own file only
* `handle_changes_file` — a run in which a handle ends up on another file
-/

namespace TfsBroker.Fs2

open State Runs

variable {s s' : State} {name target : Option CString} {mode k b i n fh : ℕ} {fhandle r : ℤ}

/-- Every open handle refers to a slot in use that holds the very file the handle
was opened on. -/
def HandlesOnFile (g : History) : Prop :=
  ∀ fh, g.fs.freeOpenFileEntries fh = .TAKEN → ∃ k, HandleOn g.fs fh k ∧
    k < g.fs.inodeTableSize ∧ g.fs.freeinodeTs k = .TAKEN ∧ g.born k = g.opened fh

/-- A read through a handle returns bytes of its inode's block, from its offset on,
and those that were written through a handle were written to the handle's own
file. -/
def ReadsOwnFile (g : History) : Prop :=
  ∀ fh k (len : UInt64) r s', HandleOn g.fs fh k → tfsRead g.fs fh len.toNat = .ret (r, s') →
    let start := fileAddress g.fs k + (g.fs.openFileTable fh).ofOffset
    r.bytes = g.fs.fsData.slice start r.bytes.length ∧
      ∀ x, start ≤ x → x < start + r.bytes.length → ∀ file, g.writer x = some file →
        file = g.opened fh

/-- The call removes no file that has an open handle, and truncates no non-empty
file that has a handle past its start. -/
def SparesHandles (g : History) : Call → Prop
  | .open name mode => hasFlag mode tfsOTrunc = true → ∀ k : ℕ,
      tfsLookup g.fs name rootDirInum = .ret k → 0 < (g.fs.inodeTable k).iSize →
        ∀ fh, HandleOn g.fs fh k → (g.fs.openFileTable fh).ofOffset = 0
  | .unlink target => ∀ k : ℕ, tfsLookup g.fs target rootDirInum = .ret k →
      ∀ fh, ¬ HandleOn g.fs fh k
  | _ => True

/-! ### What a call does to files and handles -/

/-- No open handle changed its inode, and every inode in use is empty or has the
bytes it had. -/
structure KeepsFiles (s s' : Fs.State) : Prop where
  params : s'.fsParams = s.fsParams
  inumber : ∀ fh, s.freeOpenFileEntries fh = .TAKEN → s'.freeOpenFileEntries fh = .TAKEN →
    (s'.openFileTable fh).ofInumber = (s.openFileTable fh).ofInumber
  node : ∀ k, s'.freeinodeTs k = .TAKEN → (s'.inodeTable k).iSize = 0 ∨
    (s.freeinodeTs k = .TAKEN ∧ s'.inodeTable k = s.inodeTable k)

namespace KeepsFiles

variable {t t' : Fs.State} {sub : CString} {inode : Fs.Inode} {offset : ℕ}

theorem refl (t : Fs.State) : KeepsFiles t t :=
  ⟨rfl, fun _ _ _ => rfl, fun _ hk => .inr ⟨hk, rfl⟩⟩

/-- A step that changes only the slot `k`, and leaves it empty or free. -/
theorem of_slot (hparams : t'.fsParams = t.fsParams) (hsame : Fs.SameHandles t t')
    (hslot : t'.freeinodeTs k = .TAKEN → (t'.inodeTable k).iSize = 0)
    (hother : ∀ j, j ≠ k → t'.freeinodeTs j = t.freeinodeTs j ∧ t'.inodeTable j = t.inodeTable j) :
    KeepsFiles t t' := by
  refine ⟨hparams, fun _ _ _ => by rw [hsame.table], fun j hj => ?_⟩
  by_cases hjk : j = k
  · subst hjk
    exact .inl (hslot hj)
  · obtain ⟨hfree, hnode⟩ := hother j hjk
    exact .inr ⟨hfree ▸ hj, hnode⟩

theorem discarded : KeepsFiles t (Fs.discarded t k (.new .T_FILE)) :=
  of_slot (k := k) rfl ⟨rfl, rfl⟩ (fun _ => by simp [Fs.discarded, Fs.Inode.new]) fun j hj => by
    simp [Fs.discarded, Function.update_of_ne hj]

theorem created : KeepsFiles t (Fs.created t k i sub) :=
  of_slot (k := k) rfl ⟨rfl, rfl⟩ (fun _ => by simp [Fs.created, Fs.newInode, Fs.Inode.new])
    fun j hj => by simp [Fs.created, Fs.newInode, Function.update_of_ne hj]

theorem found : KeepsFiles t (Fs.found t k mode) := by
  unfold Fs.found
  split
  · rw [Fs.truncate_eq]
    exact of_slot (k := k) rfl ⟨rfl, rfl⟩ (fun _ => by simp) fun j hj => by
      simp [Function.update_of_ne hj]
  · exact refl t

theorem freed : KeepsFiles t (Fs.freed (Fs.cleared t i) k) := by
  rw [Fs.freed_eq]
  refine of_slot (k := k) rfl ⟨rfl, rfl⟩ (fun hk => ?_) fun j hj => ?_
  · simp at hk
  · simp [Fs.cleared, Function.update_of_ne hj]

/-- Opening a handle after a step that left the handles alone. -/
theorem tfsOpenRegister {u : Fs.State} {fd : ℤ} (h : KeepsFiles t u) (hsame : Fs.SameHandles t u)
    (hreg : (fd, t') = Fs.tfsOpenRegister u k offset) : KeepsFiles t t' := by
  rcases Fs.tfsOpenRegister_cases u k offset with ⟨-, heq⟩ | ⟨fh, hfirst, heq⟩ <;>
    rw [heq] at hreg <;> obtain ⟨rfl, rfl⟩ := Prod.mk.inj hreg
  · exact h
  · refine ⟨h.params, fun fh' hold hnew => ?_, h.node⟩
    have hne : fh' ≠ fh := by
      rintro rfl
      have hfree := firstFree_free hfirst
      rw [hsame.entries, hold] at hfree
      cases hfree
    simp [Fs.registered, Fs.State.setEntry, Fs.State.setFreeEntry,
      Function.update_of_ne hne, hsame.table]

/-- A step that changes only allocation marks and offsets of handles. -/
theorem of_entries (hparams : t'.fsParams = t.fsParams) (htable : t'.inodeTable = t.inodeTable)
    (hfree : t'.freeinodeTs = t.freeinodeTs) (hentry : ∀ fh,
      (t'.openFileTable fh).ofInumber = (t.openFileTable fh).ofInumber) : KeepsFiles t t' :=
  ⟨hparams, fun fh _ _ => hentry fh, fun k hk => .inr ⟨hfree ▸ hk, by rw [htable]⟩⟩

end KeepsFiles

/-- What the calls keep: handles stand inside the file they were opened on, and the
bytes of a file were written through its own handles. -/
structure Tracked (g : History) : Prop where
  seq : Fs.SeqInv g.fs.toFs
  inside : Fs.Inside (fun _ => 0) g.fs.toFs
  opened : ∀ fh k, HandleOn g.fs fh k → g.opened fh = g.born k
  writer : ∀ k, Fs.LiveFile g.fs.toFs k → ∀ j < (g.fs.inodeTable k).iSize,
    g.writer (fileAddress g.fs k + j) = some (g.born k)

namespace Tracked

variable {g : History} {c : Call}

theorem record_born (htaken : g.fs.freeinodeTs k = .TAKEN) :
    (g.record c r s').born k = g.born k := by
  refine if_neg fun hnew => ?_
  rw [htaken] at hnew
  cases hnew.1

/-- A new handle is on the file it was opened on, and an old one stays on its file. -/
theorem record_opened (h : Tracked g)
    (hinumber : ∀ fh, g.fs.freeOpenFileEntries fh = .TAKEN → s'.freeOpenFileEntries fh = .TAKEN →
      (s'.openFileTable fh).ofInumber = (g.fs.openFileTable fh).ofInumber)
    (hk : HandleOn s' fh k) : (g.record c r s').opened fh = (g.record c r s').born k := by
  obtain ⟨htaken, hinum⟩ := hk
  cases hold : g.fs.freeOpenFileEntries fh with
  | FREE =>
    refine (if_pos ⟨hold, htaken⟩).trans ?_
    rw [hinum, Int.toNat_natCast]
    rfl
  | TAKEN =>
    have hopened : (g.record c r s').opened fh = g.opened fh := by
      refine if_neg fun hnew => ?_
      rw [hold] at hnew
      cases hnew.1
    have hon : HandleOn g.fs fh k := ⟨hold, (hinumber fh hold htaken).symm.trans hinum⟩
    obtain ⟨k', hk', hlive⟩ := h.seq.handles fh hold
    obtain rfl : k' = k := by exact_mod_cast hk'.symm.trans hon.2
    rw [hopened, record_born hlive.taken]
    exact h.opened fh k' hon

/-- A call other than a write. -/
theorem record (h : Tracked g) (hseq : Fs.SeqInv s'.toFs)
    (hinside : Fs.Inside (fun _ => 0) s'.toFs) (hkeeps : KeepsFiles g.fs.toFs s'.toFs)
    (hwriter : (g.record c r s').writer = g.writer) : Tracked (g.record c r s') where
  seq := hseq
  inside := hinside
  opened fh k hk := h.record_opened hkeeps.inumber hk
  writer k hlive j hj := by
    rcases hkeeps.node k hlive.taken with hzero | ⟨htaken, hnode⟩
    · -- a file that is new or was truncated has no bytes
      exact absurd (hj.trans_eq hzero) (Nat.not_lt_zero j)
    · have hold : Fs.LiveFile g.fs.toFs k :=
        hlive.congr hkeeps.params.symm (htaken.trans hlive.taken.symm)
          (congrArg Fs.Inode.iNodeType hnode).symm
      have hblock : (s'.inodeTable k).iDataBlock = (g.fs.inodeTable k).iDataBlock :=
        congrArg Fs.Inode.iDataBlock hnode
      have hsize : (s'.inodeTable k).iSize = (g.fs.inodeTable k).iSize :=
        congrArg Fs.Inode.iSize hnode
      have haddress : fileAddress s' k = fileAddress g.fs k := by
        rw [fileAddress, fileAddress, hblock]
        exact congrArg _ (Fs.blockSize_congr hkeeps.params)
      rw [hwriter, record_born htaken]
      change g.writer (fileAddress s' k + j) = _
      rw [haddress]
      exact h.writer k hold j (hj.trans_eq hsize)

theorem tfsOpen (h : Tracked g) (hok : SparesHandles g (.open name mode))
    (hopen : tfsOpen g.fs name mode = .ret (r, s')) :
    Tracked (g.record (.open name mode) r s') := by
  have hfs := toFs_tfsOpen h.seq.toRootOk hopen
  have hkeep : Fs.KeepsHandles g.fs.toFs (.open name mode 1) := by
    intro htrunc k hres
    refine hok htrunc k ?_
    rw [tfsLookup_eq_ret h.seq.toRootOk, Fs.lookup_of_resolve hres]
  refine h.record (h.seq.tfsOpen hfs) (h.inside.tfsOpen h.seq hkeep hfs) ?_ rfl
  rcases h.seq.toDirInv.tfsOpen_cases hfs with ⟨-, heq | ⟨k, hfirst, heq⟩⟩ |
    ⟨k, i, -, hfirst, -, -, hreg⟩ | ⟨k, -, -, hreg⟩
  · rw [heq]
    exact .refl _
  · rw [heq]
    exact .discarded
  · exact KeepsFiles.created.tfsOpenRegister ⟨rfl, rfl⟩ hreg
  · refine KeepsFiles.found.tfsOpenRegister ?_ hreg
    unfold Fs.found
    split
    · rw [Fs.truncate_eq]
      exact ⟨rfl, rfl⟩
    · exact ⟨rfl, rfl⟩

theorem tfsClose (h : Tracked g) (hclose : tfsClose g.fs fhandle = .ret (r, s')) :
    Tracked (g.record (.close fhandle) r s') := by
  have hfs : s'.toFs = (Fs.tfsClose g.fs.toFs fhandle).2 := by rw [toFs_tfsClose hclose]
  refine h.record (hfs ▸ h.seq.tfsClose fhandle) (hfs ▸ h.inside.tfsClose fhandle) ?_ rfl
  rw [hfs]
  rcases Fs.tfsClose_cases g.fs.toFs fhandle with ⟨-, heq⟩ | ⟨fh, -, heq⟩ <;> rw [heq]
  · exact .refl _
  · exact .of_entries rfl rfl rfl fun _ => rfl

theorem tfsRead {len : UInt64} {res : ReadResult} (h : Tracked g)
    (hread : tfsRead g.fs fhandle len.toNat = .ret (res, s')) :
    Tracked (g.record (.read fhandle len) r s') := by
  have hfs := toFs_tfsRead hread
  refine h.record (h.seq.tfsRead hfs) (h.inside.tfsRead h.seq hfs) ?_ rfl
  rcases h.seq.tfsRead_cases hfs with heq | ⟨fh, k, n, -, -, -, -, heq⟩ <;> rw [heq]
  · exact .refl _
  · refine .of_entries rfl rfl rfl fun fh' => ?_
    by_cases hfh : fh' = fh
    · subst hfh
      simp [Fs.State.setEntry]
    · simp [Fs.State.setEntry, Function.update_of_ne hfh]

theorem tfsUnlink (h : Tracked g) (hok : SparesHandles g (.unlink target))
    (hunlink : tfsUnlink g.fs target = .ret (r, s')) :
    Tracked (g.record (.unlink target) r s') := by
  rcases tfsUnlink_cases h.seq.toDirInv hunlink with ⟨-, -, rfl⟩ |
    ⟨k, i, hl, hpos, hlt, htaken, hi, -, hik, -, hfs⟩
  · exact h.record h.seq h.inside (.refl _) rfl
  · have hclosed := hok k (by rw [tfsLookup_eq_ret h.seq.toRootOk, hl])
    have hdir := (h.seq.toDirInv.freed hi hik hpos hlt htaken rfl).1
    refine h.record ?_ ?_ (hfs ▸ .freed) rfl
    · rw [hfs]
      exact h.seq.freed hdir hpos hlt htaken fun fh hfh hk => hclosed fh ⟨hfh, hk⟩
    · rw [hfs]
      exact h.inside.freed h.seq

/-- Bytes of different blocks have different addresses. -/
private theorem address_ne {size b c i j : ℕ} (h : b ≠ c) (hi : i < size) (hj : j < size) :
    b * size + i ≠ c * size + j := by
  intro heq
  have hdiv := congrArg (· / size) heq
  have hpos : 0 < size := by omega
  simp only [Nat.mul_comm _ size, Nat.mul_add_div hpos, Nat.div_eq_of_lt hi,
    Nat.div_eq_of_lt hj, Nat.add_zero] at hdiv
  exact h hdiv

/-- A write through `fh` marks the bytes it wrote as those of its file. -/
theorem tfsWrite {buffer : ℕ → UInt8} {toWrite : UInt64} (h : Tracked g)
    (hwrite : tfsWrite g.fs fhandle buffer toWrite.toNat = .ret (r, s')) :
    Tracked (g.record (.write fhandle buffer toWrite) r s') := by
  have hfs := toFs_tfsWrite hwrite
  have hseq := h.seq.tfsWrite hfs
  have hinside := h.inside.tfsWrite h.seq hfs
  rcases h.seq.tfsWrite_cases hfs with ⟨heq, hr, -⟩ |
    ⟨fh, k, b, n, hget, hk, hlive, hb, hn, -, hfits, rfl, heq⟩
  · refine h.record hseq hinside (heq ▸ .refl _) ?_
    -- nothing was written
    funext x
    refine if_neg fun hx => ?_
    have hzero : r.toNat = 0 := by omega
    rw [hzero] at hx
    omega
  obtain ⟨rfl, -, htaken⟩ := Fs.getOpenFileEntry_eq_some.mp hget
  have hbytes : ∀ j, (s'.inodeTable j).iDataBlock =
      ((Fs.written g.fs.toFs fh k b n buffer).inodeTable j).iDataBlock := fun j =>
    congrArg (fun t => (t.inodeTable j).iDataBlock) heq
  have hbs : s'.blockSize = g.fs.blockSize := Fs.blockSize_congr (congrArg Fs.State.fsParams heq)
  have haddress : fileAddress s' k = b * g.fs.blockSize := by
    rw [fileAddress, hbytes, hbs]
    simp [Fs.written]
  have hopened : g.opened fh = g.born k := h.opened fh k ⟨htaken, hk⟩
  have hle := h.inside fh k ⟨htaken, hk⟩
  refine ⟨hseq, hinside, fun fh' j => h.record_opened fun fh' _ _ => ?_, fun j hj i hi => ?_⟩
  · refine (congrArg (fun t => (t.openFileTable fh').ofInumber) heq).trans ?_
    by_cases hfh : fh' = fh
    · subst hfh
      simp [Fs.written]
    · simp [Fs.written, Function.update_of_ne hfh]
  have hmarks : ∀ x, (g.record (.write fh buffer toWrite) n s').writer x =
      if b * g.fs.blockSize + (g.fs.openFileTable fh).ofOffset ≤ x ∧
          x < b * g.fs.blockSize + (g.fs.openFileTable fh).ofOffset + n then some (g.born k)
      else g.writer x := by
    intro x
    have hk' : (g.fs.openFileTable fh).ofInumber = k := hk
    simp only [History.record, Int.toNat_natCast, hk', haddress, hopened]
  simp only [State.toFs_inodeTable, Inode.toFs_iSize, State.toFs_openFileTable,
    OpenFileEntry.toFs_ofOffset, Nat.max_zero] at hle
  have hsizes : (s'.inodeTable j).iSize =
      ((Fs.written g.fs.toFs fh k b n buffer).inodeTable j).iSize :=
    congrArg (fun t => (t.inodeTable j).iSize) heq
  replace hi : i < ((Fs.written g.fs.toFs fh k b n buffer).inodeTable j).iSize :=
    hi.trans_eq hsizes
  change (g.record (.write fh buffer toWrite) n s').writer (fileAddress s' j + i) = _
  by_cases hjk : j = k
  · subst hjk
    rw [record_born hlive.taken, hmarks, haddress]
    simp only [Fs.written, Function.update_self, State.toFs_inodeTable, Inode.toFs_iSize,
      State.toFs_openFileTable, OpenFileEntry.toFs_ofOffset] at hi
    split
    · rfl
    · -- the byte was not written, so the file had it before
      have hsize : 0 < (g.fs.inodeTable j).iSize := by omega
      have hold := h.writer j hlive i (by omega)
      rw [Fs.WriteBlock, if_neg (by exact hsize.ne')] at hb
      have hblock : (g.fs.inodeTable j).iDataBlock = b := hb.1
      rwa [fileAddress, hblock, Int.toNat_natCast] at hold
  · have hnode : (Fs.written g.fs.toFs fh k b n buffer).inodeTable j = g.fs.toFs.inodeTable j :=
      Function.update_of_ne hjk _ _
    rw [hnode] at hi
    have hold : Fs.LiveFile g.fs.toFs j := by
      refine hj.congr (congrArg Fs.State.fsParams heq).symm
        (congrArg (fun t => t.freeinodeTs j) heq).symm ?_
      rw [← hnode]
      exact congrArg (fun t => (t.inodeTable j).iNodeType) heq.symm
    have haddr : fileAddress s' j = fileAddress g.fs j := by
      rw [fileAddress, fileAddress, hbytes, hbs, hnode]
      rfl
    have hsize : 0 < (g.fs.toFs.inodeTable j).iSize := by omega
    -- the bytes of `j` are in another block than those written
    have hother : ∀ m < g.fs.blockSize, fileAddress g.fs j + i ≠ b * g.fs.blockSize + m := by
      obtain ⟨-, c, hc, -, -⟩ := h.seq.file_block hold hsize
      have hne := h.seq.owner_ne_writeBlock hlive hb
        ⟨hold.lt, hold.taken, .inr (.inl ⟨hold.file, hsize⟩)⟩ hjk
      have hc' : (g.fs.inodeTable j).iDataBlock = c := hc
      intro m hm
      rw [fileAddress, hc', Int.toNat_natCast]
      exact address_ne (fun hcb => hne (hc.trans (by exact_mod_cast hcb)))
        (hi.trans_le (h.seq.file_size j hold)) hm
    rw [record_born hold.taken, hmarks, haddr, if_neg]
    · exact h.writer j hold i hi
    · rintro ⟨hlo, hhi⟩
      have hbound : (g.fs.openFileTable fh).ofOffset + n ≤ g.fs.blockSize := hfits
      refine hother (fileAddress g.fs j + i - b * g.fs.blockSize) ?_ ?_
      · omega
      · omega

theorem next (h : Tracked g) (hok : SparesHandles g c) {g' : History}
    (hnext : next g c = some g') : Tracked g' := by
  obtain ⟨⟨r, s'⟩, hcall, rfl⟩ := Option.map_eq_some_iff.mp hnext
  rw [Outcome.toOption_eq_some] at hcall
  cases c with
  | «open» name mode => exact h.tfsOpen hok hcall
  | close fh => exact h.tfsClose hcall
  | write fh buffer toWrite => exact h.tfsWrite hcall
  | read fh len =>
    obtain ⟨⟨res, u⟩, hread, hr⟩ := Outcome.bind_eq_ret.mp hcall
    obtain ⟨rfl, rfl⟩ := Prod.mk.inj (Outcome.ret.inj hr)
    exact h.tfsRead hread
  | unlink target => exact h.tfsUnlink hok hcall

theorem backed (h : Tracked g) : Backed g.fs.toFs := by
  intro fh k hon
  have hle := h.inside fh k hon
  simp only [Nat.max_zero] at hle
  obtain ⟨k', hk', hlive⟩ := h.seq.handles fh hon.1
  obtain rfl : k' = k := by exact_mod_cast hk'.symm.trans hon.2
  by_cases hsize : (g.fs.toFs.inodeTable k').iSize = 0
  · exact .inr ⟨hsize, by omega⟩
  · exact .inl (block_of_size h.seq hlive (Nat.pos_of_ne_zero hsize))

/-- The bytes of a read are bytes of the file, which were written through its own
handles. -/
theorem readsOwnFile (h : Tracked g) : ReadsOwnFile g := by
  intro fh k len r s' hk hread
  have hle := h.inside fh k hk
  simp only [Nat.max_zero] at hle
  obtain ⟨k', hk', hlive⟩ := h.seq.handles fh hk.1
  obtain rfl : k' = k := by exact_mod_cast hk'.symm.trans hk.2
  obtain ⟨t, ht⟩ := (h.inside.readsInside h.seq fh k' hk len).2
  obtain ⟨rfl, -⟩ := Prod.mk.inj (Outcome.ret.inj ((toFs_tfsRead hread).symm.trans ht))
  have hbytes : ((Fs.fileContents g.fs.toFs k').drop (g.fs.toFs.openFileTable fh).ofOffset).take
      len.toNat = g.fs.fsData.slice (fileAddress g.fs k' + (g.fs.openFileTable fh).ofOffset)
        (min len.toNat ((g.fs.inodeTable k').iSize - (g.fs.openFileTable fh).ofOffset)) :=
    Memory.slice_drop_take hle
  dsimp only
  rw [hbytes, Memory.slice_length]
  refine ⟨rfl, fun x hlo hhi file hfile => ?_⟩
  simp only [State.toFs_inodeTable, Inode.toFs_iSize, State.toFs_openFileTable,
    OpenFileEntry.toFs_ofOffset] at hle
  -- `x` is a byte of the file
  have hx := h.writer k' hlive (x - fileAddress g.fs k') (by omega)
  rw [Nat.add_sub_cancel' (by omega), hfile] at hx
  rw [h.opened fh k' hk]
  exact Option.some_inj.mp hx

end Tracked

/-- Nothing is open after `tfs_init`, and there is no file but the root directory. -/
theorem Start.tracked {g : History} (h : Start g) : Tracked g := by
  have hinit := initialised_toFs h.1
  have hseq := Fs.tfsInit_seqInv hinit
  obtain ⟨heap, params, -, -, heq⟩ := Fs.initialised_iff.mp hinit
  have hclosed : ∀ fh, g.fs.freeOpenFileEntries fh = .FREE := fun fh =>
    congrArg (fun t => t.freeOpenFileEntries fh) heq
  refine ⟨hseq, fun fh k hk => ?_, fun fh k hk => ?_, fun k hlive => ?_⟩
  · have htaken := hk.1
    rw [show g.fs.toFs.freeOpenFileEntries fh = .FREE from hclosed fh] at htaken
    cases htaken
  · have htaken := hk.1
    rw [hclosed fh] at htaken
    cases htaken
  · have htaken := hlive.taken
    rw [heq] at htaken
    change Function.update (fun _ => AllocationState.FREE) 0 .TAKEN k = .TAKEN at htaken
    rw [Function.update_of_ne hlive.pos.ne'] at htaken
    cases htaken

/-- In every run that removes no file with an open handle and truncates no
non-empty file below a handle, handles stay on the file they were opened on, no
assertion fires, and a read returns only bytes written through handles of its own
file. -/
theorem handles_on_file {g : History} (h : Reach next Start SparesHandles g) :
    HandlesOnFile g ∧ NoAssertFires g.fs ∧ ReadsOwnFile g := by
  have hinv : Tracked g := h.invariant (I := Tracked) (fun _ hg => hg.tracked)
    fun _ _ _ hg hok hnext => hg.next hok hnext
  refine ⟨fun fh htaken => ?_, noAssertFires hinv.seq hinv.backed, hinv.readsOwnFile⟩
  obtain ⟨k, hk, hlive⟩ := hinv.seq.handles fh htaken
  exact ⟨k, ⟨htaken, hk⟩, hlive.lt, hlive.taken, (hinv.opened fh k ⟨htaken, hk⟩).symm⟩

/-- A fresh file system with the default parameters. -/
def History.fresh : History :=
  ⟨initState .zeroed tfsDefaultParams, 0, fun _ => 0, fun _ => 0, fun _ => none⟩

theorem start_fresh : Start .fresh :=
  ⟨⟨.zeroed, tfsDefaultParams, tfsInit_eq_ret.mpr ⟨by decide, by decide, rfl⟩⟩, rfl⟩

/-- Two handles of one file, the second after the first wrote to it, and an
attempt to remove another file. -/
theorem handles_on_file_shared : ∃ g, Reach next Start SparesHandles g ∧
    (HandleOn g.fs 0 1 ∧ HandleOn g.fs 1 1 ∧ (g.fs.inodeTable 1).iSize = 5) ∧
    HandlesOnFile g ∧ NoAssertFires g.fs ∧ ReadsOwnFile g := by
  obtain ⟨g, hreach, hg⟩ := exists_reach_of_runList next SparesHandles
    (fun g c => match c with
      | .open _ mode => !hasFlag mode tfsOTrunc
      | .unlink target => tfsLookup g.fs target rootDirInum = .ret (-1)
      | _ => true)
    (fun g c hc => by
      cases c with
      | «open» name mode => exact fun htrunc => by simp [htrunc] at hc
      | unlink target =>
        intro k hk
        rw [of_decide_eq_true hc] at hk
        exact absurd (Outcome.ret.inj hk) (by omega)
      | close | write | read => exact trivial)
    [Call.open (some ⟨[47, 102], by decide⟩) tfsOCreat, .write 0 (fun _ => 65) 5,
      .open (some ⟨[47, 102], by decide⟩) 0, .read 1 3, .unlink (some ⟨[47, 103], by decide⟩)]
    (fun g => decide (HandleOn g.fs 0 1 ∧ HandleOn g.fs 1 1 ∧ (g.fs.inodeTable 1).iSize = 5))
    start_fresh (by decide +kernel)
  exact ⟨g, hreach, of_decide_eq_true hg, handles_on_file hreach⟩

/-- With the first handle still open, the slot of the removed file is given to
another one, and the old handle is on that. -/
theorem handle_changes_file :
    ¬ ∀ g, Reachable next Start g → HandlesOnFile g ∧ NoAssertFires g.fs ∧ ReadsOwnFile g := by
  intro hall
  obtain ⟨g, hreach, hg⟩ := exists_of_runList next
    [Call.open (some ⟨[47, 102], by decide⟩) tfsOCreat, .write 0 (fun _ => 65) 5,
      .unlink (some ⟨[47, 102], by decide⟩), .open (some ⟨[47, 103], by decide⟩) tfsOCreat]
    (fun g => decide (HandleOn g.fs 0 1 ∧ g.born 1 = 4 ∧ g.opened 0 = 1))
    start_fresh (by decide +kernel)
  obtain ⟨hon, hborn, hopened⟩ := of_decide_eq_true hg
  obtain ⟨k, hk, -, -, hfile⟩ := (hall g hreach).1 0 hon.1
  obtain rfl : k = 1 := by exact_mod_cast hk.2.symm.trans hon.2
  omega

end TfsBroker.Fs2
