import TfsBroker.Fs.SameControl

/-!
# Relations between states that the operations of `fs/` respect

An operation takes the same branches in two states with the same control, so it
makes the same changes and answers alike. A relation between states that every
change respects is therefore respected by every call.

## Main results

* `Congruence.call` — a call takes related states to related states, with the same
  answer
-/

namespace TfsBroker.Fs

open State

variable {s s' : State} {name target linkName : Option CString} {mode k b i n fh depth : ℕ}
  {t sub : CString} {c : Change}

/-- The next state is the one a call leaves with its answer. -/
theorem next_eq (s : State) (c : Call) : next s c = (answer s c).map Prod.snd := by
  have hbytes : ∀ {α : Type} (x : Outcome (α × State)) (ret : α → ℤ),
      x.toOption.map Prod.snd = (noBytes x ret).toOption.map Prod.snd := by
    intro α x ret
    cases x <;> rfl
  cases c with
  | close | read => rfl
  | «open» | write | link | symLink | unlink | copyFromExternalFs => exact hbytes _ _

/-! ### Relations that every change respects -/

/-- Every change takes related states to related states. A write or a read through
the handle `fh` of the file `k` has to meet `W`, as fresh handles do. -/
structure Congruence (R : State → State → Prop) (W : State → ℕ → ℕ → Prop) : Prop where
  control : ∀ {s s'}, R s s' → SameControl s s'
  apply : ∀ {s s' c}, ExclusiveInv s → ExclusiveInv s' → R s s' → Enabled s c →
    (∀ fh k b n buffer, c = .write fh k b n buffer → W s fh k) → R (c.apply s) (c.apply s')
  bytes : ∀ {s s' fh k b n}, ExclusiveInv s → ExclusiveInv s' → R s s' → HandleOn s fh k →
    LiveFile s k → W s fh k → (s.inodeTable k).iDataBlock = (b : ℕ) → b < s.dataBlocks →
    ∀ len, n = clampRead (s.inodeTable k).iSize (s.openFileTable fh).ofOffset len →
      s'.fsData.slice (b * s.blockSize + (s.openFileTable fh).ofOffset) n
        = s.fsData.slice (b * s.blockSize + (s.openFileTable fh).ofOffset) n
  fresh : ∀ {s fh k}, (s.openFileTable fh).ofOffset = 0 → W s fh k

/-- The same answer, and related states. -/
def SameAnswer {α : Type} (R : State → State → Prop) (x y : α × State) : Prop :=
  x.1 = y.1 ∧ R x.2 y.2

/-- The call reads or writes bytes only through handles that allow it. -/
def Allowed (W : State → ℕ → ℕ → Prop) (s : State) : Call → Prop
  | .write fhandle _ len | .read fhandle len => 0 < len.toNat →
    ∀ fh k, getOpenFileEntry s fhandle = some fh → HandleOn s fh k → W s fh k
  | _ => True

namespace Congruence

variable {R : State → State → Prop} {W : State → ℕ → ℕ → Prop}

/-- Changes other than writes need no condition. -/
theorem apply' (hR : Congruence R W) (hs : ExclusiveInv s) (hs' : ExclusiveInv s') (hr : R s s')
    (hc : Enabled s c) (hwrite : ∀ fh k b n buffer, c ≠ .write fh k b n buffer) :
    R (c.apply s) (c.apply s') :=
  hR.apply hs hs' hr hc fun fh k b n buffer heq => absurd heq (hwrite fh k b n buffer)

theorem tfsOpenRegister (hR : Congruence R W) (hs : ExclusiveInv s) (hs' : ExclusiveInv s')
    (hr : R s s') (hk : LiveFile s k) (offset : ℕ) :
    SameAnswer R (tfsOpenRegister s k offset) (tfsOpenRegister s' k offset) := by
  have hfirst := (hR.control hr).firstEntry
  rcases tfsOpenRegister_cases s k offset with ⟨hnone, heq⟩ | ⟨fh, hfh, heq⟩ <;>
    rcases tfsOpenRegister_cases s' k offset with ⟨hnone', heq'⟩ | ⟨fh', hfh', heq'⟩
  · rw [heq, heq']
    exact ⟨rfl, hr⟩
  · rw [hfirst, hnone] at hfh'
    cases hfh'
  · rw [hfirst, hfh] at hnone'
    cases hnone'
  · rw [hfirst, hfh] at hfh'
    obtain rfl := Option.some_inj.mp hfh'
    rw [heq, heq']
    exact ⟨rfl, hR.apply' hs hs' hr (.register hk hfh) (by simp)⟩

theorem tfsOpenRoot (hR : Congruence R W) (hs : ExclusiveInv s) (hs' : ExclusiveInv s')
    (hr : R s s') (name : Option CString) (mode : ℕ) :
    Outcome.Rel (SameAnswer R) (tfsOpenRoot s name mode) (tfsOpenRoot s' name mode) := by
  have hcontrol := hR.control hr
  unfold Fs.tfsOpenRoot
  by_cases hvalid : validPathname name = true
  · simp only [hvalid, if_true, hs.inodeGet_root, hs'.inodeGet_root,
      hcontrol.lookup hs.toDirInv hs'.toDirInv]
    by_cases hfound : 0 ≤ tfsLookup s name 0
    · simp only [hfound, if_true]
      exact .ret ⟨rfl, hr⟩
    simp only [hfound, if_false]
    by_cases hcreat : hasFlag mode tfsOCreat = true
    · simp only [hcreat, if_true]
      rw [inodeCreate_eq (by decide), inodeCreate_eq (by decide), hcontrol.firstInode]
      cases hfirst : firstFree s.freeinodeTs s.inodeTableSize with
      | none => exact .ret ⟨rfl, hr⟩
      | some k =>
        have hk0 : k ≠ 0 := firstFree_ne hfirst hs.root_taken
        have hfirst' := hcontrol.firstInode.trans hfirst
        simp only [(hs.of_newInode hk0).addDirEntry_eq, (hs'.of_newInode hk0).addDirEntry_eq,
          Outcome.ret_bind]
        have hroom : Directory.freeEntry (newInode s' k .T_FILE).fsData 0
            (newInode s' k .T_FILE).maxDirEntries = Directory.freeEntry
              (newInode s k .T_FILE).fsData 0 (newInode s k .T_FILE).maxDirEntries :=
          hcontrol.freeEntry
        rw [hroom]
        have hdiscard : R (discarded s k (.new .T_FILE)) (discarded s' k (.new .T_FILE)) :=
          hR.apply' hs hs' hr (.discard hfirst) (by simp)
        rw [inodeDelete_newInode (firstFree_lt hfirst) (firstFree_free hfirst),
          inodeDelete_newInode (firstFree_lt hfirst') (firstFree_free hfirst')]
        by_cases hlen : (subName name).strlen = 0 ∨ maxFileName - 1 < (subName name).strlen
        · simp only [hlen, if_true]
          exact .ret ⟨rfl, hdiscard⟩
        simp only [hlen, if_false]
        cases hfree : Directory.freeEntry (newInode s k .T_FILE).fsData 0
            (newInode s k .T_FILE).maxDirEntries with
        | none => exact .ret ⟨rfl, hdiscard⟩
        | some i =>
          have hmax : maxFileName = 40 := rfl
          have hnew := hs.not_named (hs.lookup_neg (not_le.mp hfound)) hvalid
          refine .ret ⟨rfl, hR.apply' hs hs' hr (.create hfirst ⟨?_, ?_, hfree, hnew⟩) (by simp)⟩
          · omega
          · omega
    · simp only [hcreat, Bool.false_eq_true, if_false]
      exact .ret ⟨rfl, hr⟩
  · simp only [hvalid, Bool.false_eq_true, if_false]
    exact .ret ⟨rfl, hr⟩

theorem found (hR : Congruence R W) (hs : ExclusiveInv s) (hs' : ExclusiveInv s') (hr : R s s')
    (hk : LiveFile s k) (mode : ℕ) : R (Fs.found s k mode) (Fs.found s' k mode) := by
  have hsize := congrArg Inode.iSize ((hR.control hr).node k hk.taken)
  unfold Fs.found
  rw [hsize]
  by_cases hcond : hasFlag mode tfsOTrunc = true ∧ 0 < (s.inodeTable k).iSize
  · rw [if_pos hcond, if_pos hcond]
    exact hR.apply' hs hs' hr (.truncate hk hcond.2) (by simp)
  · rw [if_neg hcond, if_neg hcond]
    exact hr

theorem tfsOpenInode (hR : Congruence R W) (hs : ExclusiveInv s) (hs' : ExclusiveInv s')
    (hr : R s s') (hl : tfsLookup s name 0 = k) (mode : ℕ) :
    Outcome.Rel (SameAnswer R) (tfsOpenInode s k mode) (tfsOpenInode s' k mode) := by
  have hcontrol := hR.control hr
  have hl' := (hcontrol.lookup hs.toDirInv hs'.toDirInv name).trans hl
  rcases hs.tfsOpenInode_eq hl mode with ⟨t, hk, hstored, heq⟩ | ⟨hk, heq⟩ <;>
    rcases hs'.tfsOpenInode_eq hl' mode with ⟨t', hk', hstored', heq'⟩ | ⟨hk', heq'⟩ <;>
    rw [heq, heq']
  · obtain rfl := hstored'.unique (hcontrol.target k t hk hstored)
    exact .ret ⟨rfl, hr⟩
  · exact absurd hk' (hcontrol.liveLink hk).not_liveFile
  · exact absurd (hcontrol.liveFile hk) hk'.not_liveFile
  · have hfound := hR.found hs hs' hr hk mode
    have hnode := (hR.control hfound).node k (SeqInv.liveFile_found hk).taken
    refine .ret ⟨?_, hfound⟩
    rw [hnode]

/-- `tfs_open` in related states. -/
theorem tfsOpen (hR : Congruence R W) (hs : ExclusiveInv s) (hs' : ExclusiveInv s') (hr : R s s')
    (name : Option CString) (mode depth : ℕ) :
    Outcome.Rel (SameAnswer R) (tfsOpen s name mode depth) (tfsOpen s' name mode depth) := by
  induction depth generalizing name with
  | zero => exact .deep
  | succ depth ih =>
    refine (hR.tfsOpenRoot hs hs' hr name mode).bind ?_
    rintro ⟨r, s1⟩ ⟨r', s1'⟩ hroot hroot' ⟨heq, hr1⟩
    obtain rfl : r = r' := heq
    obtain ⟨hinv, hfound, hcreated⟩ := hs.tfsOpenRoot hroot
    obtain ⟨hinv', hfound', -⟩ := hs'.tfsOpenRoot hroot'
    cases r with
    | failed => exact .ret ⟨rfl, hr1⟩
    | created k => exact .ret (hR.tfsOpenRegister hinv hinv' hr1 (hcreated k rfl) 0)
    | found k =>
      obtain ⟨rfl, hl⟩ := hfound k rfl
      obtain ⟨rfl, hl'⟩ := hfound' k rfl
      refine (hR.tfsOpenInode hs hs' hr hl mode).bind ?_
      rintro ⟨r, s2⟩ ⟨r', s2'⟩ hinode hinode' ⟨heq, hr2⟩
      obtain rfl : r = r' := heq
      rcases hs.tfsOpenInode_eq hl mode with ⟨t, hk, -, heq⟩ | ⟨hk, heq⟩ <;>
        rw [heq] at hinode <;> obtain ⟨rfl, rfl⟩ := Prod.mk.inj (Outcome.ret.inj hinode)
      · -- the call fails, or goes on in the same states with the target of the link
        rcases hs'.tfsOpenInode_eq hl' mode with ⟨t', -, -, heq'⟩ | ⟨hk', -⟩
        · rw [heq'] at hinode'
          obtain ⟨-, rfl⟩ := Prod.mk.inj (Outcome.ret.inj hinode')
          by_cases hcreat : hasFlag mode tfsOCreat = true
          · rw [if_pos hcreat]
            exact .ret ⟨rfl, hr2⟩
          · rw [if_neg hcreat]
            exact ih (some t)
        · exact absurd hk' ((hR.control hr).liveLink hk).not_liveFile
      · rcases hs'.tfsOpenInode_eq hl' mode with ⟨t', hk', -, -⟩ | ⟨hk', heq'⟩
        · exact absurd ((hR.control hr).liveFile hk) hk'.not_liveFile
        · rw [heq'] at hinode'
          obtain ⟨-, rfl⟩ := Prod.mk.inj (Outcome.ret.inj hinode')
          exact .ret (hR.tfsOpenRegister (hs.found hk mode) (hs'.found hk' mode) hr2
            (SeqInv.liveFile_found hk) _)

theorem tfsClose (hR : Congruence R W) (hs : ExclusiveInv s) (hs' : ExclusiveInv s')
    (hr : R s s') (fhandle : ℤ) : SameAnswer R (tfsClose s fhandle) (tfsClose s' fhandle) := by
  have hget := (hR.control hr).getOpenFileEntry fhandle
  rcases tfsClose_cases s fhandle with ⟨hnone, heq⟩ | ⟨fh, hsome, heq⟩ <;>
    rcases tfsClose_cases s' fhandle with ⟨hnone', heq'⟩ | ⟨fh', hsome', heq'⟩ <;> rw [heq, heq']
  · exact ⟨rfl, hr⟩
  · rw [hget, hnone] at hsome'
    cases hsome'
  · rw [hget, hsome] at hnone'
    cases hnone'
  · rw [hget, hsome] at hsome'
    obtain rfl := Option.some_inj.mp hsome'
    exact ⟨rfl, hR.apply' hs hs' hr .close (by simp)⟩

/-- The file a handle refers to is the same in related states. -/
theorem file_of_handle (hR : Congruence R W) (hs : ExclusiveInv s) (hr : R s s') {fhandle : ℤ}
    (hget : getOpenFileEntry s fhandle = some fh) :
    ∃ k, LiveFile s k ∧ HandleOn s fh k ∧ inodeGet s (s.openFileTable fh).ofInumber = some k ∧
      inodeGet s' (s'.openFileTable fh).ofInumber = some k := by
  have hcontrol := hR.control hr
  obtain ⟨k, hk, hinode, hinum⟩ := hs.toSeqInv.file_of_handle hget
  have hopen := (getOpenFileEntry_eq_some.mp hget).2.2
  refine ⟨k, hk, ⟨hopen, hinum⟩, hinode, ?_⟩
  rw [hcontrol.inumber fh hopen]
  exact inodeGet_eq_some.mpr ⟨hinum, (hcontrol.liveFile hk).lt⟩

/-- `tfs_write` in related states, where the handle allows it. -/
theorem tfsWrite (hR : Congruence R W) (hs : ExclusiveInv s) (hs' : ExclusiveInv s') (hr : R s s')
    {fhandle : ℤ} {toWrite : ℕ} (hW : 0 < toWrite →
      ∀ fh k, getOpenFileEntry s fhandle = some fh → HandleOn s fh k → W s fh k)
    (buffer : ℕ → UInt8) : Outcome.Rel (SameAnswer R)
      (tfsWrite s fhandle buffer toWrite) (tfsWrite s' fhandle buffer toWrite) := by
  have hcontrol := hR.control hr
  unfold Fs.tfsWrite
  rw [hcontrol.getOpenFileEntry]
  cases hget : getOpenFileEntry s fhandle with
  | none => exact .ret ⟨rfl, hr⟩
  | some fh =>
    obtain ⟨k, hk, hon, hinode, hinode'⟩ := hR.file_of_handle hs hr hget
    simp only [hinode, hinode']
    have hoffset := hcontrol.offset fh hon.1
    have hbs := blockSize_congr hcontrol.params
    obtain ⟨n, hn⟩ : ∃ n, n = clampWrite s.blockSize (s.openFileTable fh).ofOffset toWrite :=
      ⟨_, rfl⟩
    have hn' : n = clampWrite s'.blockSize (s'.openFileTable fh).ofOffset toWrite := by
      rw [hn, hoffset, hbs]
    rcases tfsWriteBody_eq s fh k buffer hn with ⟨hzero, heq⟩ | ⟨hpos, hnone, heq⟩ |
      ⟨b, hpos, hb, heq⟩ <;>
      rcases tfsWriteBody_eq s' fh k buffer hn' with ⟨hzero', heq'⟩ | ⟨hpos', hnone', heq'⟩ |
        ⟨b', hpos', hb', heq'⟩ <;>
      rw [heq, heq']
    · exact .ret ⟨rfl, hr⟩
    · omega
    · omega
    · omega
    · exact .ret ⟨rfl, hr⟩
    · exact absurd ((hcontrol.writeBlock_iff hk).mp hb') (hnone b')
    · omega
    · exact absurd ((hcontrol.writeBlock_iff hk).mpr hb) (hnone' b)
    · obtain rfl := hb.unique ((hcontrol.writeBlock_iff hk).mp hb')
      rw [hoffset, hbs, dataSize_congr hcontrol.params]
      by_cases hfits : b * s.blockSize + (s.openFileTable fh).ofOffset + n ≤ s.dataSize
      · rw [if_pos hfits, if_pos hfits]
        have hblock : (s.openFileTable fh).ofOffset + n ≤ s.blockSize := by
          rw [hn] at hpos hfits ⊢
          exact offset_add_clampWrite_le (dataSize_lt_sizeRange s) hpos (by omega)
        refine .ret ⟨rfl, hR.apply hs hs' hr (.write hon.1 hk hb hpos hblock) ?_⟩
        rintro fh' k' b' n' buffer' heq
        obtain ⟨rfl, rfl, -⟩ := Change.write.inj heq
        -- a write of no bytes that stays in the block writes none
        have hlen : 0 < toWrite := by
          rw [hn] at hpos hblock
          exact hpos.trans_le (clampWrite_le hblock)
        exact hW hlen fh k hget hon
      · rw [if_neg hfits, if_neg hfits]
        exact .fault

/-- `tfs_read` in related states, where the handle allows it. -/
theorem tfsRead (hR : Congruence R W) (hs : ExclusiveInv s) (hs' : ExclusiveInv s') (hr : R s s')
    {fhandle : ℤ} {len : ℕ} (hW : 0 < len →
      ∀ fh k, getOpenFileEntry s fhandle = some fh → HandleOn s fh k → W s fh k) :
    Outcome.Rel (SameAnswer R) (tfsRead s fhandle len) (tfsRead s' fhandle len) := by
  have hcontrol := hR.control hr
  unfold Fs.tfsRead
  rw [hcontrol.getOpenFileEntry]
  cases hget : getOpenFileEntry s fhandle with
  | none => exact .ret ⟨rfl, hr⟩
  | some fh =>
    obtain ⟨k, hk, hon, hinode, hinode'⟩ := hR.file_of_handle hs hr hget
    simp only [hinode, hinode']
    have hoffset := hcontrol.offset fh hon.1
    have hnode := hcontrol.node k hk.taken
    have hblock : dataBlockGet s' (s'.inodeTable k).iDataBlock
        = dataBlockGet s (s.inodeTable k).iDataBlock := by
      rw [hnode]
      unfold dataBlockGet validBlockNumber
      rw [dataBlocks_congr hcontrol.params, blockSize_congr hcontrol.params]
    obtain ⟨n, hn⟩ : ∃ n, n = clampRead (s.inodeTable k).iSize (s.openFileTable fh).ofOffset len :=
      ⟨_, rfl⟩
    have hn' : n = clampRead (s'.inodeTable k).iSize (s'.openFileTable fh).ofOffset len := by
      rw [hn, hoffset, hnode]
    rcases tfsReadBody_eq s fh k hn with ⟨hzero, heq⟩ | ⟨hpos, hnone, heq⟩ |
      ⟨b, hpos, hb, hblt, heq⟩ <;>
      rcases tfsReadBody_eq s' fh k hn' with ⟨hzero', heq'⟩ | ⟨hpos', hnone', heq'⟩ |
        ⟨b', hpos', hb', hblt', heq'⟩ <;>
      rw [heq, heq']
    · exact .ret ⟨rfl, hr⟩
    · omega
    · omega
    · omega
    · exact .ret ⟨rfl, hr⟩
    · rw [hnode] at hb'
      rw [dataBlocks_congr hcontrol.params] at hblt'
      rw [dataBlockGet_eq_some.mpr ⟨b', hb', hblt', rfl⟩] at hnone
      cases hnone
    · omega
    · rw [hblock, dataBlockGet_eq_some.mpr ⟨b, hb, hblt, rfl⟩] at hnone'
      cases hnone'
    · obtain rfl : b = b' := by
        rw [hnode, hb] at hb'
        exact_mod_cast hb'
      have hlen : 0 < len := by
        rw [hn] at hpos
        exact hpos.trans_le clampRead_le
      rw [hoffset, blockSize_congr hcontrol.params, dataSize_congr hcontrol.params,
        hR.bytes hs hs' hr hon hk (hW hlen fh k hget hon) hb hblt len hn]
      by_cases hfits : b * s.blockSize + (s.openFileTable fh).ofOffset + n ≤ s.dataSize
      · rw [if_pos hfits, if_pos hfits]
        have hseek := hR.apply' hs hs' hr
          (.seek : Enabled s (.seek fh ((s.openFileTable fh).ofOffset + n))) (by simp)
        exact .ret ⟨rfl, hseek⟩
      · rw [if_neg hfits, if_neg hfits]
        exact .fault

/-- `tfs_link` in related states. -/
theorem tfsLink (hR : Congruence R W) (hs : ExclusiveInv s) (hs' : ExclusiveInv s') (hr : R s s')
    (target linkName : Option CString) : Outcome.Rel (SameAnswer R)
      (tfsLink s target linkName) (tfsLink s' target linkName) := by
  have hcontrol := hR.control hr
  have hlookup := hcontrol.lookup hs.toDirInv hs'.toDirInv
  unfold Fs.tfsLink
  by_cases hvalid : validPathname linkName = true
  · simp only [hvalid, if_true, hs.inodeGet_root, hs'.inodeGet_root, hlookup]
    by_cases htarget : tfsLookup s target 0 = -1
    · simp only [htarget, if_true]
      exact .ret ⟨rfl, hr⟩
    by_cases hname : tfsLookup s linkName 0 = -1
    · obtain ⟨-, i, k, -, -, -, hk, -, hlt, htaken⟩ := hs.lookup rfl htarget
      have hnode := hcontrol.node k htaken
      have hget : inodeGet s k = some k := inodeGet_eq_some.mpr ⟨rfl, hlt⟩
      have hget' : inodeGet s' k = some k :=
        inodeGet_eq_some.mpr ⟨rfl, inodeTableSize_congr hcontrol.params ▸ hlt⟩
      simp only [htarget, hname, ne_eq, not_true_eq_false, if_false]
      simp only [hk, hget, hget', hnode]
      by_cases hlink : (s.inodeTable k).iNodeType = .T_LINK
      · simp only [hlink, if_true]
        exact .ret ⟨rfl, hr⟩
      simp only [hlink, if_false, hs.addDirEntry_eq, hs'.addDirEntry_eq, hcontrol.freeEntry,
        Outcome.ret_bind]
      by_cases hlen : (subName linkName).strlen = 0 ∨ maxFileName - 1 < (subName linkName).strlen
      · simp only [hlen, if_true]
        exact .ret ⟨rfl, hr⟩
      simp only [hlen, if_false]
      cases hfree : Directory.freeEntry s.fsData 0 s.maxDirEntries with
      | none => exact .ret ⟨rfl, hr⟩
      | some i =>
        have hmax : maxFileName = 40 := rfl
        have hroom : Room s i (subName linkName) :=
          ⟨by omega, by omega, hfree, hs.not_named hname hvalid⟩
        have happly := hR.apply' hs hs' hr
          (.link (hs.toDirInv.liveFile hk hlink) hroom) (by simp)
        exact .ret ⟨rfl, happly⟩
    · simp only [htarget, hname, ne_eq, not_false_eq_true, if_true, if_false]
      exact .ret ⟨rfl, hr⟩
  · simp only [hvalid, Bool.false_eq_true, if_false]
    exact .ret ⟨rfl, hr⟩

/-- `tfs_sym_link` in related states. -/
theorem tfsSymLink (hR : Congruence R W) (hs : ExclusiveInv s) (hs' : ExclusiveInv s')
    (hr : R s s') (target linkName : Option CString) : Outcome.Rel (SameAnswer R)
      (tfsSymLink s target linkName) (tfsSymLink s' target linkName) := by
  have hcontrol := hR.control hr
  have hlookup := hcontrol.lookup hs.toDirInv hs'.toDirInv
  have hfirst := hcontrol.firstInode
  obtain ⟨⟨r, s1⟩, hlink⟩ := hs.toDirInv.tfsSymLink_ret target linkName
  obtain ⟨⟨r', s1'⟩, hlink'⟩ := hs'.toDirInv.tfsSymLink_ret target linkName
  have hcases := hs.tfsSymLink_cases hs.root_taken hlink
  have hcases' := hs'.tfsSymLink_cases hs'.root_taken hlink'
  simp only [hlookup, hfirst, hcontrol.firstBlock] at hcases'
  rw [hlink, hlink']
  refine .ret ?_
  rcases hcases with ⟨rfl, rfl, hwhy⟩ | ⟨k, hk, hvalid, htarget, hname, hrest⟩
  · rcases hcases' with ⟨rfl, rfl, -⟩ | ⟨k', hk', hvalid', htarget', hname', -⟩
    · exact ⟨rfl, hr⟩
    · rw [hwhy hvalid' htarget' hname'] at hk'
      cases hk'
  rcases hcases' with ⟨rfl, rfl, hwhy'⟩ | ⟨k', hk', -, -, -, hrest'⟩
  · rw [hwhy' hvalid htarget hname] at hk
    cases hk
  obtain rfl := Option.some_inj.mp (hk.symm.trans hk')
  have hdiscard := hR.apply' hs hs' hr (.discard hk : Enabled s (.discard k .T_LINK)) (by simp)
  rcases hrest with ⟨rfl, hnone, rfl⟩ | ⟨b, t, hb, rfl, hrest⟩
  · rcases hrest' with ⟨rfl, -, rfl⟩ | ⟨b', t', hb', -, -⟩
    · exact ⟨rfl, hdiscard⟩
    · rw [hnone] at hb'
      cases hb'
  rcases hrest' with ⟨rfl, hnone', -⟩ | ⟨b', t', hb', ht', hrest'⟩
  · rw [hb] at hnone'
    cases hnone'
  obtain rfl := Option.some_inj.mp (hb.symm.trans hb')
  obtain rfl := Option.some_inj.mp ht'
  have hb2 := hcontrol.firstBlock.trans hb
  rw [freeEntry_linkInode hs'.toDirInv hb2, hcontrol.freeEntry] at hrest'
  rw [freeEntry_linkInode hs.toDirInv hb] at hrest
  rcases hrest with ⟨rfl, rfl, hwhy⟩ | ⟨i, hpos, hlen, hroom, rfl, rfl⟩ <;>
    rcases hrest' with ⟨rfl, rfl, hwhy'⟩ | ⟨i', hpos', hlen', hroom', rfl, rfl⟩
  · exact ⟨rfl, hR.apply' hs hs' hr (.discardLink hk hb htarget) (by simp)⟩
  · rw [hroom', or_iff_left (by simp)] at hwhy
    have hmax : maxFileName = 40 := rfl
    omega
  · rw [hroom, or_iff_left (by simp)] at hwhy'
    have hmax : maxFileName = 40 := rfl
    omega
  · obtain rfl := Option.some_inj.mp (hroom.symm.trans hroom')
    have hroomy : Room s i (subName linkName) :=
      ⟨hpos, hlen, hroom, hs.not_named hname hvalid⟩
    exact ⟨rfl, hR.apply' hs hs' hr (.createLink hk hb htarget hroomy) (by simp)⟩

/-- `tfs_unlink` in related states. -/
theorem tfsUnlink (hR : Congruence R W) (hs : ExclusiveInv s) (hs' : ExclusiveInv s')
    (hr : R s s') (target : Option CString) :
    Outcome.Rel (SameAnswer R) (tfsUnlink s target) (tfsUnlink s' target) := by
  have hcontrol := hR.control hr
  have hlookup := hcontrol.lookup hs.toDirInv hs'.toDirInv target
  by_cases htarget : tfsLookup s target 0 = -1
  · rw [hs.toDirInv.tfsUnlink_miss htarget, hs'.toDirInv.tfsUnlink_miss (hlookup.trans htarget)]
    exact .ret ⟨rfl, hr⟩
  obtain ⟨-, i, k, hi, hnames, -, hk, hpos, hlt, htaken⟩ := hs.lookup rfl htarget
  have hnode := hcontrol.node k htaken
  have hi' : i < s'.maxDirEntries := maxDirEntries_congr hcontrol.params ▸ hi
  -- both directories hold the name in the same entry
  rw [hs.toDirInv.tfsUnlink_eq hk hi hnames, hs'.toDirInv.tfsUnlink_eq (hlookup.trans hk) hi'
    ((hcontrol.directory.names_iff hi).mpr hnames), hnode, hcontrol.isInOpenFileTable hlt]
  refine .ret ?_
  by_cases hopen : (decide ((s.inodeTable k).iNodeType ≠ .T_LINK) && isInOpenFileTable s k) = true
  · rw [if_pos hopen, if_pos hopen]
    exact ⟨rfl, hr⟩
  rw [if_neg hopen, if_neg hopen]
  by_cases hlinks : (s.inodeTable k).iLinksCount = 1
  · rw [if_pos hlinks, if_pos hlinks]
    exact ⟨rfl, hR.apply' hs hs' hr (.free hpos htaken hi) (by simp)⟩
  · rw [if_neg hlinks, if_neg hlinks]
    exact ⟨rfl, hR.apply' hs hs' hr (.unlink hpos htaken hi) (by simp)⟩

/-- `tfs_copy_from_external_fs` in related states. -/
theorem tfsCopyFromExternalFs (hR : Congruence R W) (hs : ExclusiveInv s) (hs' : ExclusiveInv s')
    (hr : R s s') (source : Option ExternalFile) (destPath : Option CString) (depth : ℕ) :
    Outcome.Rel (SameAnswer R) (tfsCopyFromExternalFs s source destPath depth)
      (tfsCopyFromExternalFs s' source destPath depth) := by
  unfold Fs.tfsCopyFromExternalFs
  cases source with
  | none => exact .ret ⟨rfl, hr⟩
  | some file =>
    simp only [blockSize_congr (hR.control hr).params]
    by_cases hlen : s.blockSize < (file.contents.take (s.blockSize + 1)).length
    · simp only [hlen, if_true]
      exact .ret ⟨rfl, hr⟩
    simp only [hlen, if_false]
    refine (hR.tfsOpen hs hs' hr destPath _ depth).bind ?_
    rintro ⟨fd, s1⟩ ⟨fd', s1'⟩ hopen hopen' ⟨heq, hr1⟩
    obtain rfl : fd = fd' := heq
    by_cases hfd : fd = -1
    · simp only [hfd, if_true]
      exact .ret ⟨rfl, hr1⟩
    simp only [hfd, if_false]
    have hinv := hs.of_effects (hs.toSeqInv.tfsOpen_effects hopen) (hs.toSeqInv.tfsOpen hopen)
    have hinv' := hs'.of_effects (hs'.toSeqInv.tfsOpen_effects hopen')
      (hs'.toSeqInv.tfsOpen hopen')
    refine (hR.tfsWrite hinv hinv' hr1 (fun _ fh k hget _ =>
      hR.fresh (copy_offset hs.toDirInv hfd hopen hget)) _).bind ?_
    rintro ⟨n, s2⟩ ⟨n', s2'⟩ hwrite hwrite' ⟨heq, hr2⟩
    obtain rfl : n = n' := heq
    have hclose := hR.tfsClose (hinv.of_effects (hinv.toSeqInv.tfsWrite_effects hwrite)
      (hinv.toSeqInv.tfsWrite hwrite)) (hinv'.of_effects
      (hinv'.toSeqInv.tfsWrite_effects hwrite') (hinv'.toSeqInv.tfsWrite hwrite')) hr2 fd
    by_cases hn : n = -1
    · simp only [hn, if_true]
      exact .ret ⟨rfl, hclose.2⟩
    by_cases hcloses : file.closes = true
    · simp only [hn, hcloses, Bool.not_true, Bool.false_eq_true, if_false, hclose.1]
      exact .ret ⟨rfl, hclose.2⟩
    · simp only [hn, hcloses, if_false, Bool.not_eq_true', if_true]
      exact .ret ⟨rfl, hr2⟩

/-- A call answers alike in related states, and leaves them related. -/
theorem call (hR : Congruence R W) (hs : ExclusiveInv s) (hs' : ExclusiveInv s') (hr : R s s')
    {c : Call} (hok : Allowed W s c) : Outcome.Rel (SameAnswer R) (call s c) (call s' c) := by
  have hbytes : ∀ {α : Type} {x y : Outcome (α × State)} (ret : α → ℤ),
      Outcome.Rel (SameAnswer R) x y → Outcome.Rel (SameAnswer R) (noBytes x ret) (noBytes y ret) := by
    intro α x y ret hxy
    refine hxy.bind ?_
    rintro ⟨r, s1⟩ ⟨r', s1'⟩ - - ⟨heq, hr1⟩
    obtain rfl : r = r' := heq
    exact .ret ⟨rfl, hr1⟩
  cases c with
  | «open» name mode depth => exact hbytes _ (hR.tfsOpen hs hs' hr name mode depth)
  | close fh => exact hbytes _ (.ret (hR.tfsClose hs hs' hr fh))
  | write fh buffer toWrite => exact hbytes _ (hR.tfsWrite hs hs' hr hok buffer)
  | read fh len => exact hR.tfsRead hs hs' hr hok
  | link target linkName => exact hbytes _ (hR.tfsLink hs hs' hr target linkName)
  | symLink target linkName => exact hbytes _ (hR.tfsSymLink hs hs' hr target linkName)
  | unlink target => exact hbytes _ (hR.tfsUnlink hs hs' hr target)
  | copyFromExternalFs source destPath depth =>
    exact hbytes _ (hR.tfsCopyFromExternalFs hs hs' hr source destPath depth)

end Congruence

end TfsBroker.Fs
