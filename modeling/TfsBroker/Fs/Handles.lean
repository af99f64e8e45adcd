import TfsBroker.Fs.Sequential
import TfsBroker.Lib.Runs

/-!
# Open handles of `fs/` and the size of their file

`tfs_read` computes `i_size - of_offset` on `size_t`, so it relies on the offset of
every open handle being at most the size of its file. Writing through another
handle keeps that, since files only grow; truncating keeps it only when no handle
of the file stands beyond its new end.

## Main results

* `handles_inside` — offsets and reads are right in every run whose truncations
  leave no handle beyond the end of its file
* `handle_outside` — a run in which a handle ends up beyond the end of its file
-/

namespace TfsBroker.Fs

open State Ownership Runs

variable {s s' : State} {name target linkName : Option CString} {mode k b i n fh depth : ℕ}

/-- `fh` is an open handle on the inode `k`. -/
def HandleOn (s : State) (fh k : ℕ) : Prop :=
  s.freeOpenFileEntries fh = .TAKEN ∧ (s.openFileTable fh).ofInumber = k

/-- The bytes of the file `k`. -/
def fileContents (s : State) (k : ℕ) : List UInt8 :=
  s.fsData.slice ((s.inodeTable k).iDataBlock.toNat * s.blockSize) (s.inodeTable k).iSize

/-- Every read through an open handle returns the bytes between its offset and the
end of its file, at most `len` of them, from a block that the file owns. -/
def ReadsInside (s : State) : Prop :=
  ∀ fh k, HandleOn s fh k → ∀ len : UInt64,
    (0 < (s.inodeTable k).iSize → Owner s k) ∧
    ∃ s', tfsRead s fh len.toNat = .ret
      (⟨(min len.toNat ((s.inodeTable k).iSize - (s.openFileTable fh).ofOffset) : ℕ),
        ((fileContents s k).drop (s.openFileTable fh).ofOffset).take len.toNat⟩, s')

/-- The call leaves no open handle beyond the end of its file: it truncates no
non-empty file that has a handle past its start, unless it is a copy that opens the
file again and fills it at least up to that handle. -/
def KeepsHandles (s : State) : Call → Prop
  | .open name mode depth => hasFlag mode tfsOTrunc = true →
      ∀ k, resolve s name mode depth = some k → 0 < (s.inodeTable k).iSize →
        ∀ fh, HandleOn s fh k → (s.openFileTable fh).ofOffset = 0
  | .copyFromExternalFs (some file) destPath depth => file.contents.length ≤ s.blockSize →
      ∀ k, resolve s destPath (tfsOTrunc ||| tfsOCreat) depth = some k →
        0 < (s.inodeTable k).iSize → ∀ fh, HandleOn s fh k → (s.openFileTable fh).ofOffset = 0 ∨
          ((s.openFileTable fh).ofOffset ≤ file.contents.length ∧
            firstFree s.freeOpenFileEntries s.maxOpenFiles ≠ none)
  | _ => True

/-- Every open handle stands inside its file, or inside the part of it that is
about to be written again. -/
def Inside (limit : ℕ → ℕ) (s : State) : Prop :=
  ∀ fh k, HandleOn s fh k → (s.openFileTable fh).ofOffset ≤ max (s.inodeTable k).iSize (limit k)

namespace Inside

variable {limit : ℕ → ℕ}

/-- A step that leaves the handles alone and keeps the size of the files in use. -/
theorem of_sizes (h : Inside limit s) (hinv : SeqInv s) (hsame : SameHandles s s')
    (hsize : ∀ k, LiveFile s k → (s'.inodeTable k).iSize = (s.inodeTable k).iSize) :
    Inside limit s' := by
  rintro fh k ⟨htaken, hk⟩
  rw [hsame.entries] at htaken
  rw [hsame.table] at hk ⊢
  obtain ⟨k', hk', hlive⟩ := hinv.handles fh htaken
  obtain rfl : k' = k := by exact_mod_cast hk'.symm.trans hk
  rw [hsize k' hlive]
  exact h fh k' ⟨htaken, hk⟩

private theorem ne_of_live (hlive : LiveFile s n)
    (hfirst : firstFree s.freeinodeTs s.inodeTableSize = some k) : n ≠ k := by
  rintro rfl
  exact firstFree_ne hfirst hlive.taken rfl

theorem discarded (h : Inside limit s) (hinv : SeqInv s)
    (hfirst : firstFree s.freeinodeTs s.inodeTableSize = some k) {inode : Inode} :
    Inside limit (discarded s k inode) :=
  h.of_sizes hinv ⟨rfl, rfl⟩ fun j hlive => by
    simp [Fs.discarded, Function.update_of_ne (ne_of_live hlive hfirst)]

theorem created {sub : CString} (h : Inside limit s) (hinv : SeqInv s)
    (hfirst : firstFree s.freeinodeTs s.inodeTableSize = some k) :
    Inside limit (created s k i sub) :=
  h.of_sizes hinv ⟨rfl, rfl⟩ fun j hlive => by
    simp [Fs.created, newInode, Function.update_of_ne (ne_of_live hlive hfirst)]

theorem tfsSymLink {r : RootExit} (h : Inside limit s) (hinv : SeqInv s)
    (hlink : tfsSymLink s target linkName = .ret (r, s')) : Inside limit s' := by
  rcases hinv.tfsSymLink_cases hinv.root_taken hlink with ⟨-, rfl, -⟩ | ⟨k, hfirst, -, -, -,
    ⟨-, -, rfl⟩ | ⟨b, t, -, -, ⟨-, rfl, -⟩ | ⟨i, -, -, -, -, rfl⟩⟩⟩
  · exact h
  · exact h.discarded hinv hfirst
  · exact h.of_sizes hinv ⟨rfl, rfl⟩ fun j hlive => by
      simp [linkDiscarded, Fs.discarded, Function.update_of_ne (ne_of_live hlive hfirst)]
  · exact h.of_sizes hinv ⟨rfl, rfl⟩ fun j hlive => by
      simp [linkInode, Function.update_of_ne (ne_of_live hlive hfirst)]

theorem tfsLink {r : RootExit} (h : Inside limit s) (hinv : SeqInv s)
    (hlink : tfsLink s target linkName = .ret (r, s')) : Inside limit s' := by
  rcases hinv.tfsLink_cases hlink with ⟨-, -, rfl⟩ | ⟨k, i, -, -, -, -, -, -, -, -, rfl⟩
  · exact h
  · refine h.of_sizes hinv ⟨rfl, rfl⟩ fun j _ => ?_
    by_cases hj : j = k
    · subst hj
      simp [linked]
    · simp [linked, Function.update_of_ne hj]

theorem freed (h : Inside limit s) (hinv : SeqInv s) : Inside limit (freed (cleared s i) k) := by
  rw [freed_eq]
  exact h.of_sizes hinv ⟨rfl, rfl⟩ fun _ _ => rfl

theorem tfsUnlink {r : RootExit} (h : Inside limit s) (hinv : SeqInv s)
    (hunlink : tfsUnlink s target = .ret (r, s')) : Inside limit s' := by
  rcases hinv.toDirInv.tfsUnlink_cases hunlink with ⟨-, rfl⟩ |
    ⟨k, i, -, -, -, -, -, -, -, -, -, ⟨-, rfl⟩ | ⟨-, rfl⟩⟩
  · exact h
  · exact h.freed hinv
  · refine h.of_sizes hinv ⟨rfl, rfl⟩ fun j _ => ?_
    by_cases hj : j = k
    · subst hj
      simp [unlinked, setInode, cleared]
    · simp [unlinked, setInode, cleared, Function.update_of_ne hj]

/-- After a truncation the handles of the file stand inside what was allowed for. -/
theorem found (h : Inside (fun _ => 0) s) (k mode len : ℕ)
    (hopen : hasFlag mode tfsOTrunc = true → 0 < (s.inodeTable k).iSize →
      ∀ fh, HandleOn s fh k → (s.openFileTable fh).ofOffset ≤ len) :
    Inside (fun j => if j = k then len else 0) (found s k mode) := by
  unfold Fs.found
  split
  · rename_i hcond
    rw [truncate_eq]
    rintro fh j hj
    by_cases hjk : j = k
    · subst hjk
      simpa using hopen hcond.1 hcond.2 fh hj
    · simpa [Function.update_of_ne hjk, hjk] using h fh j hj
  · rintro fh j hj
    have := h fh j hj
    simp only [Nat.max_zero] at this
    omega

/-- A new handle stands at the start or at the end of its file. -/
theorem tfsOpenRegister {offset : ℕ} {fd : ℤ} (h : Inside limit s)
    (hoffset : offset ≤ (s.inodeTable k).iSize)
    (hreg : (fd, s') = tfsOpenRegister s k offset) : Inside limit s' := by
  rcases tfsOpenRegister_cases s k offset with
    ⟨-, heq⟩ | ⟨fh, -, heq⟩ <;> rw [heq] at hreg <;> obtain ⟨rfl, rfl⟩ := Prod.mk.inj hreg
  · exact h
  · rintro fh' j ⟨htaken, hj⟩
    by_cases hfh : fh' = fh
    · subst hfh
      simp only [registered, setEntry, Function.update_self] at hj ⊢
      obtain rfl : k = j := by exact_mod_cast hj
      exact le_max_of_le_left hoffset
    · simp only [registered, setEntry, setFreeEntry, Function.update_of_ne hfh] at htaken hj ⊢
      exact h fh' j ⟨htaken, hj⟩

/-- Writing only lets files grow. -/
theorem written {buffer : ℕ → UInt8} (h : Inside limit s)
    (hfh : (s.openFileTable fh).ofInumber = k) : Inside limit (written s fh k b n buffer) := by
  rintro fh' j ⟨htaken, hj⟩
  have hold : HandleOn s fh' j := by
    refine ⟨htaken, ?_⟩
    by_cases heq : fh' = fh
    · subst heq
      simpa [Fs.written] using hj
    · simpa [Fs.written, Function.update_of_ne heq] using hj
  have hle := h fh' j hold
  by_cases hjk : j = k
  · subst hjk
    simp only [Fs.written, Function.update_self]
    by_cases heq : fh' = fh
    · subst heq
      simp only [Function.update_self]
      omega
    · simp only [Function.update_of_ne heq]
      omega
  · have heq : fh' ≠ fh := by
      rintro rfl
      exact hjk (by exact_mod_cast hold.2.symm.trans hfh)
    simpa [Fs.written, Function.update_of_ne hjk, Function.update_of_ne heq] using hle

theorem tfsWrite {buffer : ℕ → UInt8} {toWrite : ℕ} {fhandle r : ℤ} (h : Inside limit s)
    (hinv : SeqInv s) (hwrite : tfsWrite s fhandle buffer toWrite = .ret (r, s')) :
    Inside limit s' := by
  rcases hinv.tfsWrite_cases hwrite with ⟨rfl, -⟩ | ⟨fh, k, b, n, -, hk, -, -, -, -, -, -, rfl⟩
  · exact h
  · exact h.written hk

theorem tfsClose (h : Inside limit s) (fh : ℤ) : Inside limit (tfsClose s fh).2 := by
  rcases tfsClose_cases s fh with ⟨-, heq⟩ | ⟨fh, -, heq⟩ <;> rw [heq]
  · exact h
  · rintro fh' j ⟨htaken, hj⟩
    have hne : fh' ≠ fh := by
      rintro rfl
      simp [setFreeEntry] at htaken
    simp only [setFreeEntry, Function.update_of_ne hne] at htaken
    exact h fh' j ⟨htaken, hj⟩

end Inside

/-- With the offset inside the file, the subtraction of `tfs_read` does not wrap. -/
theorem clampRead_eq {size offset : ℕ} (len : ℕ) (h : offset ≤ size) (hsize : size < sizeRange) :
    clampRead size offset len = min len (size - offset) := by
  have hsub : subSize size offset = size - offset := by
    simp only [subSize, sizeRange] at *
    omega
  rw [clampRead, hsub]
  by_cases hlen : len < size - offset
  · rw [if_pos hlen, min_eq_left hlen.le]
  · rw [if_neg hlen, min_eq_right (not_lt.mp hlen)]

theorem SeqInv.size_lt (h : SeqInv s) (hk : LiveFile s k) : (s.inodeTable k).iSize < sizeRange :=
  ((h.file_size k hk).trans (blockSize_le_dataSize h.block_valid)).trans_lt
    (dataSize_lt_sizeRange s)

theorem Inside.tfsRead {fhandle : ℤ} {len : ℕ} {r : ReadResult} (h : Inside (fun _ => 0) s)
    (hinv : SeqInv s) (hread : tfsRead s fhandle len = .ret (r, s')) :
    Inside (fun _ => 0) s' := by
  rcases hinv.tfsRead_cases hread with rfl | ⟨fh, k, n, hget, hk, hlive, hn, rfl⟩
  · exact h
  · have hle := h fh k ⟨(getOpenFileEntry_eq_some.mp hget).2.2, hk⟩
    simp only [Nat.max_zero] at hle
    rw [clampRead_eq len hle (hinv.size_lt hlive)] at hn
    rintro fh' j ⟨htaken, hj⟩
    by_cases hfh : fh' = fh
    · subst hfh
      simp only [setEntry, Function.update_self] at hj ⊢
      obtain rfl : k = j := by exact_mod_cast hk.symm.trans hj
      simp only [Nat.max_zero]
      omega
    · simp only [setEntry, Function.update_of_ne hfh] at hj ⊢
      exact h fh' j ⟨htaken, hj⟩

theorem Inside.tfsOpen {fd : ℤ} (h : Inside (fun _ => 0) s) (hinv : SeqInv s)
    (hok : KeepsHandles s (.open name mode depth))
    (hopen : tfsOpen s name mode depth = .ret (fd, s')) : Inside (fun _ => 0) s' := by
  rcases hinv.toDirInv.tfsOpen_cases hopen with ⟨-, rfl | ⟨k, hfirst, rfl⟩⟩ |
    ⟨k, i, -, hfirst, -, -, hreg⟩ | ⟨k, hres, -, hreg⟩
  · exact h
  · exact h.discarded hinv hfirst
  · exact (h.created hinv hfirst).tfsOpenRegister (Nat.zero_le _) hreg
  · have hfound := h.found k mode 0 fun htrunc hsize fh hfh =>
      (hok htrunc k hres hsize fh hfh).le
    simp only [ite_self] at hfound
    refine hfound.tfsOpenRegister ?_ hreg
    split
    · exact le_rfl
    · exact Nat.zero_le _

theorem hasFlag_copy : hasFlag (tfsOTrunc ||| tfsOCreat) tfsOTrunc = true := by decide

theorem clampWrite_zero_offset {blockSize len : ℕ} (h : len ≤ blockSize)
    (hsize : blockSize < sizeRange) : clampWrite blockSize 0 len = len := by
  rw [clampWrite, if_neg]
  rw [Nat.add_zero, Nat.mod_eq_of_lt (by omega)]
  omega

private theorem found_params (s : State) (k mode : ℕ) : (found s k mode).fsParams = s.fsParams := by
  unfold found
  split
  · rw [truncate_eq]
  · rfl

/-- The block given back by a truncation is there for the next write. -/
private theorem exists_writeBlock (fh : ℕ) (hinv : SeqInv s) (hk : LiveFile s k)
    (htrunc : hasFlag mode tfsOTrunc = true ∧ 0 < (s.inodeTable k).iSize) :
    ∃ b, WriteBlock (registered (found s k mode) fh k 0) k b := by
  obtain ⟨-, b, hb, hblt, -⟩ := hinv.file_block hk htrunc.2
  have hempty : ((registered (found s k mode) fh k 0).inodeTable k).iSize = 0 := by
    simp [registered, setEntry, setFreeEntry, found, if_pos htrunc, truncate_eq]
  have hfree : (registered (found s k mode) fh k 0).freeBlocks b = .FREE := by
    simp [registered, setEntry, setFreeEntry, found, if_pos htrunc, truncate_eq, hb,
      blocksWithout_natCast hblt]
  have hcount : (registered (found s k mode) fh k 0).dataBlocks = s.dataBlocks :=
    dataBlocks_congr (found_params s k mode)
  have hlt : b < (registered (found s k mode) fh k 0).dataBlocks := hblt.trans_eq hcount.symm
  cases hany : firstFree (registered (found s k mode) fh k 0).freeBlocks
      (registered (found s k mode) fh k 0).dataBlocks with
  | none =>
    have htaken := firstFree_eq_none.mp hany b hlt
    rw [hfree] at htaken
    cases htaken
  | some b' => exact ⟨b', by rw [WriteBlock, if_pos hempty, hany]⟩

/-- A copy over a file that was truncated writes all of it again. -/
theorem inside_of_copy {len : ℕ} {fd r : ℤ} {buffer : ℕ → UInt8} {s1 s2 : State}
    (h : Inside (fun j => if j = k then len else 0) (found s k mode)) (hinv : SeqInv s)
    (hk : LiveFile s k) (htrunc : hasFlag mode tfsOTrunc = true ∧ 0 < (s.inodeTable k).iSize)
    (hlen : len ≤ s.blockSize) (hreg : (fd, s1) = tfsOpenRegister (found s k mode) k 0)
    (hfd : fd ≠ -1) (hwrite : tfsWrite s1 fd buffer len = .ret (r, s2)) :
    Inside (fun _ => 0) s2 := by
  have hinv1 := (hinv.found hk).tfsOpenRegister (SeqInv.liveFile_found hk) hreg
  have h1 := h.tfsOpenRegister (Nat.zero_le _) hreg
  rcases Nat.eq_zero_or_pos len with rfl | hpos
  · simp only [ite_self] at h1
    exact h1.tfsWrite hinv1 hwrite
  rcases tfsOpenRegister_cases (found s k mode) k 0 with
    ⟨-, heq⟩ | ⟨fh, hfirst, heq⟩ <;> rw [heq] at hreg <;> obtain ⟨rfl, rfl⟩ := Prod.mk.inj hreg
  · exact absurd rfl hfd
  have hget : getOpenFileEntry (registered (found s k mode) fh k 0) fh = some fh :=
    getOpenFileEntry_eq_some.mpr ⟨rfl, firstFree_lt hfirst, by
      simp [registered, setEntry, setFreeEntry]⟩
  have hinum : ((registered (found s k mode) fh k 0).openFileTable fh).ofInumber = k := by
    simp [registered, setEntry]
  have hoffset : ((registered (found s k mode) fh k 0).openFileTable fh).ofOffset = 0 := by
    simp [registered, setEntry]
  have hbs : (registered (found s k mode) fh k 0).blockSize = s.blockSize :=
    blockSize_congr (found_params s k mode)
  have hsize : (registered (found s k mode) fh k 0).blockSize < sizeRange := by
    rw [hbs]
    exact (blockSize_le_dataSize hinv.block_valid).trans_lt (dataSize_lt_sizeRange s)
  rcases hinv1.tfsWrite_cases hwrite with ⟨-, -, hwhy⟩ |
    ⟨fh', k', b', n, hget', hk', -, -, -, hn, -, -, rfl⟩
  · obtain ⟨b, hb⟩ := exists_writeBlock fh hinv hk htrunc
    rcases hwhy fh k hget hinum with hnone | hzero
    · exact absurd hb (hnone b)
    · rw [hoffset, clampWrite_zero_offset (hbs ▸ hlen) hsize] at hzero
      omega
  · rw [hget] at hget'
    obtain rfl := Option.some_inj.mp hget'
    obtain rfl : k = k' := by exact_mod_cast hinum.symm.trans hk'
    rw [hoffset, clampWrite_zero_offset (hbs ▸ hlen) hsize] at hn
    subst hn
    rintro fh' j hj
    have hle := h1.written hk' fh' j hj
    by_cases hjk : j = k
    · subst hjk
      simp only [if_true] at hle
      have hgrown : n ≤ ((Fs.written (registered (found s j mode) fh j 0) fh j b' n
          buffer).inodeTable j).iSize := by
        simp only [Fs.written, Function.update_self, hoffset]
        omega
      simp only [Nat.max_zero]
      exact hle.trans (max_le le_rfl hgrown)
    · simpa only [if_neg hjk] using hle

/-- A copy leaves no handle beyond the end of its file. -/
theorem inside_tfsCopyFromExternalFs {source : Option ExternalFile} {destPath : Option CString}
    {r : ℤ} (h : Inside (fun _ => 0) s) (hinv : SeqInv s)
    (hok : KeepsHandles s (.copyFromExternalFs source destPath depth))
    (hcopy : tfsCopyFromExternalFs s source destPath depth = .ret (r, s')) :
    Inside (fun _ => 0) s' := by
  rcases tfsCopyFromExternalFs_cases hcopy with rfl | ⟨file, fd, s1, rfl, hlen, hopen, hrest⟩
  · exact h
  have hinv1 := hinv.tfsOpen hopen
  -- what is left to do once the handles are inside their files after `tfs_open`
  have hdone : Inside (fun _ => 0) s1 → Inside (fun _ => 0) s' := by
    intro h1
    rcases hrest with ⟨-, rfl⟩ | ⟨-, r', s2, hwrite, rfl | rfl⟩
    · exact h1
    · exact h1.tfsWrite hinv1 hwrite
    · exact (h1.tfsWrite hinv1 hwrite).tfsClose fd
  rcases hinv.toDirInv.tfsOpen_cases hopen with ⟨-, rfl | ⟨k, hfirst, rfl⟩⟩ |
    ⟨k, i, -, hfirst, -, -, hreg⟩ | ⟨k, hres, hk, hreg⟩
  · exact hdone h
  · exact hdone (h.discarded hinv hfirst)
  · exact hdone ((h.created hinv hfirst).tfsOpenRegister (Nat.zero_le _) hreg)
  · rw [show hasFlag (tfsOTrunc ||| tfsOCreat) tfsOAppend = false by decide] at hreg
    by_cases hstart : 0 < (s.inodeTable k).iSize → ∀ fh, HandleOn s fh k →
        (s.openFileTable fh).ofOffset = 0
    · have hfound := h.found k (tfsOTrunc ||| tfsOCreat) 0
        fun _ hsize fh hfh => (hstart hsize fh hfh).le
      simp only [ite_self] at hfound
      exact hdone (hfound.tfsOpenRegister (Nat.zero_le _) hreg)
    · obtain ⟨hsize, fh, hfh, hne⟩ : 0 < (s.inodeTable k).iSize ∧
          ∃ fh, HandleOn s fh k ∧ (s.openFileTable fh).ofOffset ≠ 0 := by
        simpa using hstart
      have hfits := hok hlen k hres hsize
      have hroom := ((hfits fh hfh).resolve_left hne).2
      have hfound := h.found k (tfsOTrunc ||| tfsOCreat) file.contents.length
        fun _ hsize fh hfh => by
          rcases hfits fh hfh with hzero | ⟨hle, -⟩
          · omega
          · exact hle
      have hentries : (found s k (tfsOTrunc ||| tfsOCreat)).freeOpenFileEntries
          = s.freeOpenFileEntries := by
        rw [found, if_pos ⟨hasFlag_copy, hsize⟩, truncate_eq]
      have hfd : fd ≠ -1 := by
        rintro rfl
        rcases tfsOpenRegister_cases (found s k (tfsOTrunc ||| tfsOCreat)) k 0 with
          ⟨hnone, -⟩ | ⟨fh', -, heq⟩
        · rw [hentries] at hnone
          refine hroom ?_
          rwa [maxOpenFiles_congr (s := s) (found_params _ _ _)] at hnone
        · rw [if_neg Bool.false_ne_true, heq] at hreg
          exact absurd (Prod.mk.inj hreg).1 (by omega)
      have hcopied : ∀ r' s2, tfsWrite s1 fd (fun i => file.contents.getD i 0)
          file.contents.length = .ret (r', s2) → Inside (fun _ => 0) s2 := fun r' s2 hwrite =>
        inside_of_copy hfound hinv hk ⟨hasFlag_copy, hsize⟩ hlen hreg hfd hwrite
      rcases hrest with ⟨hfail, -⟩ | ⟨-, r', s2, hwrite, rfl | rfl⟩
      · exact absurd hfail hfd
      · exact hcopied r' s' hwrite
      · exact (hcopied r' s2 hwrite).tfsClose fd

theorem Inside.next {c : Call} (h : Inside (fun _ => 0) s) (hinv : SeqInv s)
    (hok : KeepsHandles s c) (hnext : next s c = some s') : Inside (fun _ => 0) s' := by
  cases c with
  | «open» name mode depth =>
    obtain ⟨r, hr⟩ := exists_ret_of_map hnext
    exact h.tfsOpen hinv hok hr
  | close fh =>
    obtain rfl := Option.some_inj.mp hnext
    exact h.tfsClose fh
  | write fh buffer toWrite =>
    obtain ⟨r, hr⟩ := exists_ret_of_map hnext
    exact h.tfsWrite hinv hr
  | read fh len =>
    obtain ⟨r, hr⟩ := exists_ret_of_map hnext
    exact h.tfsRead hinv hr
  | link target linkName =>
    obtain ⟨r, hr⟩ := exists_ret_of_map hnext
    exact h.tfsLink hinv hr
  | symLink target linkName =>
    obtain ⟨r, hr⟩ := exists_ret_of_map hnext
    exact h.tfsSymLink hinv hr
  | unlink target =>
    obtain ⟨r, hr⟩ := exists_ret_of_map hnext
    exact h.tfsUnlink hinv hr
  | copyFromExternalFs source destPath depth =>
    obtain ⟨r, hr⟩ := exists_ret_of_map hnext
    exact inside_tfsCopyFromExternalFs h hinv hok hr

/-- A read through a handle inside its file returns the bytes after the offset, at most
`len` of them, and moves the handle past them. -/
theorem SeqInv.tfsRead_inside (h : SeqInv s) {fhandle : ℤ} {len : ℕ}
    (hget : getOpenFileEntry s fhandle = some fh) (hk : (s.openFileTable fh).ofInumber = k)
    (hlive : LiveFile s k) (hle : (s.openFileTable fh).ofOffset ≤ (s.inodeTable k).iSize)
    (hn : n = min len ((s.inodeTable k).iSize - (s.openFileTable fh).ofOffset)) :
    Fs.tfsRead s fhandle len = .ret
      (⟨n, ((fileContents s k).drop (s.openFileTable fh).ofOffset).take len⟩,
      s.setEntry fh
        { s.openFileTable fh with ofOffset := (s.openFileTable fh).ofOffset + n }) := by
  have hinode : inodeGet s (s.openFileTable fh).ofInumber = some k :=
    inodeGet_eq_some.mpr ⟨hk, hlive.lt⟩
  have hlt := h.size_lt hlive
  have hclamp := clampRead_eq len hle hlt
  rw [← hn] at hclamp
  simp only [Fs.tfsRead, hget, hinode, tfsReadBody, hclamp]
  split
  · rename_i hpos
    have hsize : 0 < (s.inodeTable k).iSize := by omega
    obtain ⟨-, b, hb, hblt, -⟩ := h.file_block hlive hsize
    have hfile := h.file_size k hlive
    have hend : b * s.blockSize + s.blockSize ≤ s.dataSize := by
      rw [← Nat.succ_mul]
      exact Nat.mul_le_mul_right _ hblt
    have hbytes : s.fsData.slice (b * s.blockSize + (s.openFileTable fh).ofOffset) n
        = ((fileContents s k).drop (s.openFileTable fh).ofOffset).take len := by
      rw [fileContents, hb, Int.toNat_natCast, hn, Memory.slice_drop_take hle]
    simp only [dataBlockGet_eq_some.mpr ⟨b, hb, hblt, rfl⟩]
    rw [if_pos (by omega), hbytes, Nat.mod_eq_of_lt (by omega)]
  · rename_i hzero
    have hnil : n = 0 := by omega
    have hempty : ((fileContents s k).drop (s.openFileTable fh).ofOffset).take len = [] := by
      rw [List.take_eq_nil_iff, List.drop_eq_nil_iff, fileContents, Memory.slice_length]
      omega
    rw [hempty, hnil]
    simp [setEntry]

/-- A read through a handle inside its file succeeds and returns the file's bytes. -/
theorem Inside.readsInside (h : Inside (fun _ => 0) s) (hinv : SeqInv s) : ReadsInside s := by
  rintro fh k ⟨htaken, hk⟩ len
  obtain ⟨k', hk', hlive⟩ := hinv.handles fh htaken
  obtain rfl : k' = k := by exact_mod_cast hk'.symm.trans hk
  have hle := h fh k' ⟨htaken, hk⟩
  simp only [Nat.max_zero] at hle
  have howner : 0 < (s.inodeTable k').iSize → Owner s k' := fun hsize =>
    ⟨hlive.lt, hlive.taken, .inr (.inl ⟨hlive.file, hsize⟩)⟩
  have hget : getOpenFileEntry s fh = some fh :=
    getOpenFileEntry_eq_some.mpr ⟨rfl, hinv.handle_lt fh htaken, htaken⟩
  exact ⟨howner, _, hinv.tfsRead_inside hget hk hlive hle rfl⟩

end TfsBroker.Fs
