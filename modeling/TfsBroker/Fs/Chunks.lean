import TfsBroker.Fs.FileContents
import TfsBroker.Fs.Writes

/-!
# Writing in chunks and reading back

Bytes that are written in any number of pieces leave the state that one write of all of
them leaves: `writeAll` is followed through the block limit and the allocation of the
block. A handle opened afterwards reads the bytes of the file, in pieces of any sizes.

## Main results

* `writeAll_eq` — writing in pieces is writing at once
* `SeqInv.readUntilZero_eq` — reading until `tfs_read` answers 0 gives the rest of the file
* `written_in_chunks` — both, for every handle inside its file
-/

namespace TfsBroker.Fs

open State Runs

variable {s s' : State} {name : Option CString} {fhandle fd : ℤ}
  {mode depth fh fh' k b n n' i : ℕ}

/-- The buffer that holds these bytes. -/
def bufferOf (bytes : List UInt8) : ℕ → UInt8 := fun i => bytes.getD i 0

/-- `tfs_write` of one piece after the other: what the calls answer, and the state after
the last. -/
def writeAll (s : State) (fhandle : ℤ) : List (List UInt8) → Outcome (List ℤ × State)
  | [] => .ret ([], s)
  | bytes :: chunks =>
    (tfsWrite s fhandle (bufferOf bytes) bytes.length).bind fun (r, s) =>
      (writeAll s fhandle chunks).bind fun (rs, s) => .ret (r :: rs, s)

/-- `tfs_read` of `lens 0`, `lens 1`, … bytes until it answers 0, at most `fuel` times: the
bytes that were read. -/
def readUntilZero (s : State) (fhandle : ℤ) (lens : ℕ → UInt64) :
    ℕ → Outcome (List UInt8 × State)
  | 0 => .deep
  | fuel + 1 =>
    (tfsRead s fhandle (lens 0).toNat).bind fun (r, s) =>
      if r.ret = 0 then .ret ([], s)
      else
        (readUntilZero s fhandle (fun i => lens (i + 1)) fuel).bind fun (bytes, s) =>
          .ret (r.bytes ++ bytes, s)

/-- Through every handle of the file `k` that `tfs_open` gives at its beginning, these bytes
are read, in pieces of any sizes. -/
def ReadsBack (s : State) (k : ℕ) (bytes : List UInt8) : Prop :=
  ∀ name mode depth fd s', tfsOpen s name mode depth = .ret (fd, s') →
    hasFlag mode tfsOTrunc = false → hasFlag mode tfsOAppend = false →
    ∀ fh, Handle s' fd fh k → ∀ lens : ℕ → UInt64, (∀ i, 0 < lens i) →
      ∃ fuel s'', readUntilZero s' fd lens fuel = .ret (bytes, s'')

/-! ### Writing -/

theorem bufferOf_append_left {bytes bytes' : List UInt8} (h : i < bytes.length) :
    bufferOf (bytes ++ bytes') i = bufferOf bytes i :=
  List.getD_append _ _ _ _ h

theorem bufferOf_append_right (bytes bytes' : List UInt8) (i : ℕ) :
    bufferOf (bytes ++ bytes') (bytes.length + i) = bufferOf bytes' i := by
  rw [bufferOf, List.getD_append_right _ _ _ _ (by omega), Nat.add_sub_cancel_left, bufferOf]

theorem map_bufferOf {bytes : List UInt8} (h : n ≤ bytes.length) :
    (List.range n).map (bufferOf bytes) = bytes.take n := by
  apply List.ext_getElem
  · simp [h]
  · intro i hi hi'
    rw [List.length_map, List.length_range] at hi
    simp [bufferOf, List.getElem?_eq_getElem (hi.trans_le h)]

section WroteTo

variable {buffer buffer' buffer'' : ℕ → UInt8}

theorem wroteTo_zero : wroteTo s fh k b 0 buffer = s := if_pos rfl

theorem wroteTo_entry : (wroteTo s fh k b n buffer).openFileTable fh =
    { s.openFileTable fh with ofOffset := (s.openFileTable fh).ofOffset + n } := by
  unfold wroteTo
  split
  · rename_i hn
    rw [hn]
    rfl
  · simp [written]

theorem wroteTo_params : (wroteTo s fh k b n buffer).fsParams = s.fsParams := by
  unfold wroteTo
  split <;> rfl

/-- The handle stays open. -/
theorem Handle.wroteTo (h : Handle s fhandle fh k) :
    Handle (wroteTo s fh k b n buffer) fhandle fh k := by
  refine ⟨?_, by rw [wroteTo_entry]; exact h.inumber⟩
  have hentry := h.entry
  unfold Fs.wroteTo
  split
  · exact hentry
  · exact hentry

/-- The next bytes go to the same block. -/
theorem WriteBlock.wroteTo (h : WriteBlock s k b) :
    WriteBlock (wroteTo s fh k b n buffer) k b := by
  unfold Fs.wroteTo
  split
  · exact h
  · rename_i hn
    have hsize : max (s.inodeTable k).iSize ((s.openFileTable fh).ofOffset + n) ≠ 0 := by omega
    simp only [WriteBlock, written, Function.update_self, if_neg hsize]
    exact ⟨trivial, h.lt⟩

theorem wroteTo_congr (h : ∀ i < n, buffer i = buffer' i) :
    wroteTo s fh k b n buffer = wroteTo s fh k b n buffer' := by
  unfold wroteTo written
  rw [Memory.memcpy_congr h]

/-- Two writes through one handle are one write of both pieces. -/
theorem wroteTo_wroteTo (hfirst : ∀ i < n, buffer'' i = buffer i)
    (hsecond : ∀ i < n', buffer'' (n + i) = buffer' i) :
    wroteTo (wroteTo s fh k b n buffer) fh k b n' buffer' = wroteTo s fh k b (n + n') buffer'' := by
  by_cases hn : n = 0
  · subst hn
    rw [wroteTo_zero, Nat.zero_add]
    refine wroteTo_congr fun i hi => ?_
    rw [← hsecond i hi, Nat.zero_add]
  by_cases hn' : n' = 0
  · subst hn'
    rw [wroteTo_zero, Nat.add_zero]
    exact wroteTo_congr fun i hi => (hfirst i hi).symm
  have hsize : max (s.inodeTable k).iSize ((s.openFileTable fh).ofOffset + n) ≠ 0 := by omega
  have hmax : max (max (s.inodeTable k).iSize ((s.openFileTable fh).ofOffset + n))
      ((s.openFileTable fh).ofOffset + (n + n')) =
      max (s.inodeTable k).iSize ((s.openFileTable fh).ofOffset + (n + n')) := by omega
  have hdata := Memory.memcpy_memcpy (m := s.fsData)
    (a := b * s.fsParams.blockSize + (s.openFileTable fh).ofOffset) hfirst hsecond
  rw [Nat.add_assoc] at hdata
  unfold wroteTo
  rw [if_neg hn, if_neg hn', if_neg (by omega)]
  simp only [written, blockSize, Function.update_self, Function.update_idem, if_neg hsize, hmax,
    hdata, Nat.add_assoc]

end WroteTo

private theorem min_add_min {room : ℕ} (n n' : ℕ) :
    min n room + min n' (room - min n room) = min (n + n') room := by omega

/-- Writing in pieces leaves what one write of all of them leaves, and the answers add up
to what fits. -/
theorem writeAll_eq {chunks : List (List UInt8)} (h : Handle s fhandle fh k)
    (hlt : k < s.inodeTableSize) (hb : WriteBlock s k b)
    (hoff : (s.openFileTable fh).ofOffset ≤ s.blockSize)
    (htotal : chunks.flatten.length + s.blockSize < sizeRange) :
    ∃ rs : List ℤ, rs.sum = (min chunks.flatten.length
        (s.blockSize - (s.openFileTable fh).ofOffset) : ℕ) ∧
      writeAll s fhandle chunks = .ret (rs, wroteTo s fh k b (min chunks.flatten.length
        (s.blockSize - (s.openFileTable fh).ofOffset)) (bufferOf chunks.flatten)) := by
  induction chunks generalizing s with
  | nil => exact ⟨[], by simp, by simp [writeAll, wroteTo_zero]⟩
  | cons bytes chunks ih =>
    rw [List.flatten_cons, List.length_append] at htotal ⊢
    set room := s.blockSize - (s.openFileTable fh).ofOffset with hroom
    set n := min bytes.length room with hn
    have hwrite := h.tfsWrite_eq hlt hb hoff
      (show bytes.length < sizeRange by omega) (bufferOf bytes)
    rw [if_pos (by omega), ← hroom, ← hn] at hwrite
    set t := wroteTo s fh k b n (bufferOf bytes) with ht
    -- the handle stands behind the piece, in the same block
    have hparams : t.fsParams = s.fsParams := wroteTo_params
    have hoffset : (t.openFileTable fh).ofOffset = (s.openFileTable fh).ofOffset + n := by
      rw [ht, wroteTo_entry]
    have hsize : t.blockSize = s.blockSize := blockSize_congr hparams
    obtain ⟨rs, hsum, hrest⟩ := ih (s := t) h.wroteTo
      (hlt.trans_eq (inodeTableSize_congr hparams).symm) hb.wroteTo (by omega) (by omega)
    have hroom' : t.blockSize - (t.openFileTable fh).ofOffset = room - n := by omega
    rw [hroom'] at hsum hrest
    refine ⟨n :: rs, ?_, ?_⟩
    · rw [List.sum_cons, hsum, ← Nat.cast_add, hn, min_add_min]
    · have hboth : wroteTo t fh k b (min chunks.flatten.length (room - n))
          (bufferOf chunks.flatten) =
          wroteTo s fh k b (n + min chunks.flatten.length (room - n))
            (bufferOf (bytes ++ chunks.flatten)) := by
        refine wroteTo_wroteTo (fun i hi => bufferOf_append_left (by omega)) fun i hi => ?_
        -- a second piece is written only when the first one fits
        have hwhole : n = bytes.length := by omega
        rw [hwhole, bufferOf_append_right]
      simp only [writeAll, hwrite, Outcome.ret_bind, hrest]
      rw [hboth, hn, min_add_min]

/-! ### Reading -/

/-- Reading until `tfs_read` answers 0 gives the bytes from the offset to the end. -/
theorem SeqInv.readUntilZero_eq (h : SeqInv s) (hh : Handle s fhandle fh k)
    (hinside : (s.openFileTable fh).ofOffset ≤ (s.inodeTable k).iSize) {lens : ℕ → UInt64}
    (hlens : ∀ i, 0 < lens i) {fuel : ℕ}
    (hfuel : (s.inodeTable k).iSize - (s.openFileTable fh).ofOffset < fuel) :
    ∃ s', readUntilZero s fhandle lens fuel =
      .ret ((fileContents s k).drop (s.openFileTable fh).ofOffset, s') := by
  induction fuel generalizing s lens with
  | zero => cases hfuel
  | succ fuel ih =>
    have hlen : 0 < (lens 0).toNat := UInt64.lt_iff_toNat_lt.mp (hlens 0)
    set off := (s.openFileTable fh).ofOffset with hoff
    set n := min (lens 0).toNat ((s.inodeTable k).iSize - off) with hn
    have hread := h.tfsRead_inside hh.entry hh.inumber (h.liveFile_of_handle hh) hinside hn
    set t := s.setEntry fh { s.openFileTable fh with ofOffset := off + n } with ht
    simp only [readUntilZero, hread, Outcome.ret_bind]
    by_cases hzero : n = 0
    · -- the handle is at the end of the file
      have hempty : (fileContents s k).drop off = [] := by
        rw [List.drop_eq_nil_iff, fileContents, Memory.slice_length]
        omega
      exact ⟨t, by rw [if_pos (by exact_mod_cast hzero), hempty]⟩
    · have hoffset : (t.openFileTable fh).ofOffset = off + n := by simp [ht, setEntry]
      have hnext : Handle t fhandle fh k := ⟨hh.entry, by simp [ht, setEntry, hh.inumber]⟩
      have hsame : t.inodeTable k = s.inodeTable k := rfl
      obtain ⟨s', hrest⟩ := ih (h.tfsRead hread) hnext (by rw [hsame, hoffset]; omega)
        (fun i => hlens (i + 1)) (by rw [hsame, hoffset]; omega)
      have hbytes : ((fileContents s k).drop off).take (lens 0).toNat ++
          (fileContents t k).drop (off + n) = (fileContents s k).drop off := by
        have hcontents : fileContents t k = fileContents s k := rfl
        have htake : ((fileContents s k).drop off).take (lens 0).toNat =
            ((fileContents s k).drop off).take n := by
          rw [List.take_eq_take_iff, List.length_drop, fileContents, Memory.slice_length]
          omega
        rw [hcontents, htake, ← List.drop_drop, List.take_append_drop]
      rw [if_neg (by exact_mod_cast hzero), hrest, Outcome.ret_bind, hoffset]
      exact ⟨s', by rw [hbytes]⟩

theorem Handle.eq_entry (h : Handle s fhandle fh k) : fhandle = fh :=
  (getOpenFileEntry_eq_some.mp h.entry).1

/-- A handle of a file in use that `tfs_open` gives without truncating or appending stands
at the beginning of the file, which is as it was. -/
theorem SeqInv.handle_opened (h : SeqInv s) (hk : LiveFile s k)
    (hopen : Fs.tfsOpen s name mode depth = .ret (fd, s')) (htrunc : hasFlag mode tfsOTrunc = false)
    (happend : hasFlag mode tfsOAppend = false) (hh : Handle s' fd fh k) :
    (s'.openFileTable fh).ofOffset = 0 ∧ fileContents s' k = fileContents s k := by
  have hfd : fd ≠ -1 := by
    rw [hh.eq_entry]
    omega
  have hentry : ∀ {u : State} {inum offset}, (fd, s') = Fs.tfsOpenRegister u inum offset →
      s' = Fs.registered u fh inum offset ∧ inum = k := by
    intro u inum offset hreg
    rcases tfsOpenRegister_cases u inum offset with ⟨-, heq⟩ | ⟨i, -, heq⟩ <;>
      obtain ⟨hi, rfl⟩ := Prod.mk.inj (hreg.trans heq)
    · exact absurd hi hfd
    · obtain rfl : fh = i := by exact_mod_cast hh.eq_entry.symm.trans hi
      have hinum := hh.inumber
      simp only [registered, setEntry, Function.update_self] at hinum
      exact ⟨rfl, by exact_mod_cast hinum⟩
  rcases h.tfsOpen_cases hopen with ⟨rfl, -⟩ | ⟨j, i, -, hfirst, -, -, hreg⟩ | ⟨j, -, -, hreg⟩
  · exact absurd rfl hfd
  · -- a new file is not in a slot that is in use
    obtain ⟨-, rfl⟩ := hentry hreg
    exact absurd rfl (firstFree_ne hfirst hk.taken)
  · obtain ⟨rfl, rfl⟩ := hentry hreg
    have hfound : Fs.found s j mode = s := if_neg (by simp [htrunc])
    rw [hfound, happend]
    exact ⟨by simp [registered, setEntry], rfl⟩

/-- A handle opened at the beginning of a file reads its bytes. -/
theorem SeqInv.readsBack (h : SeqInv s) (hk : LiveFile s k) :
    ReadsBack s k (fileContents s k) := by
  intro name mode depth fd s' hopen htrunc happend fh hh lens hlens
  obtain ⟨hoff, hsame⟩ := h.handle_opened hk hopen htrunc happend hh
  obtain ⟨s'', hread⟩ := (h.tfsOpen hopen).readUntilZero_eq hh (by omega) hlens
    (Nat.lt_succ_self _)
  rw [hoff, List.drop_zero, hsame] at hread
  exact ⟨_, s'', hread⟩

/-! ### Writing, then reading -/

theorem fileContents_wroteTo {buffer : ℕ → UInt8} (hb : WriteBlock s k b)
    (hinside : StandsInside s fh k) :
    fileContents (wroteTo s fh k b n buffer) k =
      (fileContents s k).take (s.openFileTable fh).ofOffset ++ (List.range n).map buffer ++
        (fileContents s k).drop ((s.openFileTable fh).ofOffset + n) := by
  unfold wroteTo
  split
  · rename_i hn
    subst hn
    simp
  · exact fileContents_written hb hinside

theorem SeqInv.blockSize_lt (h : SeqInv s) : s.blockSize < 2 ^ 63 := by
  have hle := (blockSize_le_dataSize h.block_valid).trans s.fsParams.data_object
  exact hle.trans_lt (by decide)

/-- In every state that calls reach one at a time: bytes written in any pieces through a
handle inside its file leave the state that one write of them all leaves. As many as fit
replace the old bytes from the offset on, and a handle opened then reads what is in the
file. -/
theorem written_in_chunks (h : Reachable next Initialised s) (hh : Handle s fhandle fh k)
    (hinside : (s.openFileTable fh).ofOffset ≤ (s.inodeTable k).iSize)
    (hfree : (s.inodeTable k).iSize = 0 → firstFree s.freeBlocks s.dataBlocks ≠ none)
    (chunks : List (List UInt8)) (htotal : chunks.flatten.length < 2 ^ 63) :
    ∃ (n : ℕ) (rs : List ℤ) (s' : State),
      n = min chunks.flatten.length (s.blockSize - (s.openFileTable fh).ofOffset) ∧
      writeAll s fhandle chunks = .ret (rs, s') ∧
      tfsWrite s fhandle (bufferOf chunks.flatten) chunks.flatten.length = .ret (n, s') ∧
      rs.sum = n ∧
      fileContents s' k = (fileContents s k).take (s.openFileTable fh).ofOffset ++
        chunks.flatten.take n ++ (fileContents s k).drop ((s.openFileTable fh).ofOffset + n) ∧
      ReadsBack s' k (fileContents s' k) := by
  have hinv := (exclusiveInv_of_reachable h).toSeqInv
  have hlive := hinv.liveFile_of_handle hh
  obtain ⟨b, hb⟩ := hinv.exists_writeBlock hlive hfree
  have hoff := hinside.trans (hinv.file_size k hlive)
  have hblock := hinv.blockSize_lt
  have hrange : sizeRange = 2 ^ 64 := rfl
  have hfits : chunks.flatten.length + s.blockSize < sizeRange := by omega
  have hwrite := hh.tfsWrite_eq hlive.lt hb hoff (show chunks.flatten.length < sizeRange by omega)
    (bufferOf chunks.flatten)
  rw [if_pos (by omega)] at hwrite
  obtain ⟨rs, hsum, hall⟩ := writeAll_eq hh hlive.lt hb hoff hfits
  have hinv' := hinv.tfsWrite hwrite
  refine ⟨_, rs, _, rfl, hall, hwrite, hsum, ?_, ?_⟩
  · rw [fileContents_wroteTo hb hinside, map_bufferOf (min_le_left _ _)]
  · exact hinv'.readsBack (hinv'.liveFile_of_handle hh.wroteTo)

/-- Three bytes in two pieces, written to an empty file. -/
theorem written_in_chunks_two : ∃ s s', Reachable next Initialised s ∧
    (∃ rs, writeAll s 0 [[65], [66, 67]] = .ret (rs, s') ∧ rs.sum = 3) ∧
    fileContents s' 1 = [65, 66, 67] ∧ ReadsBack s' 1 [65, 66, 67] := by
  obtain ⟨s, hreach, hs⟩ := exists_of_runList next [Call.open pathF1 tfsOCreat 1]
    (fun s => decide ((getOpenFileEntry s 0 = some 0 ∧ (s.openFileTable 0).ofInumber = 1) ∧
      (s.openFileTable 0).ofOffset = 0 ∧ (s.inodeTable 1).iSize = 0 ∧ s.blockSize = 1024 ∧
      firstFree s.freeBlocks s.dataBlocks ≠ none)) initialised_fresh (by decide +kernel)
  obtain ⟨⟨hentry, hinum⟩, hoff, hsize, hblock, hfree⟩ := of_decide_eq_true hs
  obtain ⟨n, rs, s', hn, hall, -, hsum, hcontents, hreads⟩ :=
    written_in_chunks hreach ⟨hentry, by exact_mod_cast hinum⟩ (by rw [hoff, hsize]) (fun _ => hfree)
      [[65], [66, 67]] (by decide)
  obtain rfl : n = 3 := by
    rw [hn, hblock, hoff]
    rfl
  rw [hoff, fileContents_of_empty hsize] at hcontents
  rw [hcontents] at hreads
  exact ⟨s, s', hreach, ⟨rs, hall, hsum⟩, hcontents, hreads⟩

end TfsBroker.Fs
