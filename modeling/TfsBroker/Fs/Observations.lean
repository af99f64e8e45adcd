import TfsBroker.Fs.Congruence
import TfsBroker.Fs.FileContents

/-!
# What a client of `fs/` observes

`malloc` clears no memory, and neither does `data_block_alloc` or `data_block_free`.
As long as bytes are read and written inside the files only, a client sees none of
what the memory happened to hold. A handle that a truncation left beyond the end of
its file writes behind a gap, and shows what the block held there.

## Main results

* `congruence_sameView` — no call sees more than the control and the files
* `answers_independent` — the answers do not depend on the initial memory, in every
  run that reads and writes inside the files
* `answers_depend` — a run whose answers depend on it
-/

namespace TfsBroker.Fs

open State Runs

variable {s s' : State} {k b i n fh : ℕ} {c : Change}

/-- The same control, and the same bytes in every file. -/
structure SameView (s s' : State) : Prop extends SameControl s s' where
  contents : ∀ k, LiveFile s k → fileContents s' k = fileContents s k

/-- The bytes a read inside the file copies. -/
private theorem slice_of_contents (h : SeqInv s) (hk : LiveFile s k)
    (hb : (s.inodeTable k).iDataBlock = b) (hinside : StandsInside s fh k) (len : ℕ)
    (hn : n = clampRead (s.inodeTable k).iSize (s.openFileTable fh).ofOffset len) :
    s.fsData.slice (b * s.blockSize + (s.openFileTable fh).ofOffset) n =
      ((fileContents s k).drop (s.openFileTable fh).ofOffset).take len := by
  rw [hn, clampRead_eq len hinside (h.size_lt hk), fileContents, hb, Int.toNat_natCast,
    Memory.slice_drop_take hinside]

/-- A change keeps the view of two states the same, if it writes inside the files. -/
theorem SameView.apply (h : SameView s s') (hs : ExclusiveInv s) (hs' : ExclusiveInv s')
    (he : Enabled s c) (hwrite : ∀ fh k b n buffer, c = .write fh k b n buffer →
      StandsInside s fh k) : SameView (c.apply s) (c.apply s') := by
  have hcontrol := h.toSameControl.apply hs hs' he
  refine ⟨hcontrol, fun k hk => ?_⟩
  have hnode := hcontrol.node k hk.taken
  have he' := h.enabled hs.toDirInv hs'.toDirInv he
  rcases he.file_before hk with ⟨hfills, hold, hsize⟩ | ⟨hfills, hold⟩ | ⟨i, sub, rfl⟩
  · have hsize' : ((c.apply s').inodeTable k).iSize = (s'.inodeTable k).iSize := by
      rw [hnode, h.node k hold.taken, hsize]
    rw [he.contents_eq hs hold hfills hsize,
      he'.contents_eq hs' (h.liveFile hold) hfills hsize', h.contents k hold]
  · cases he with
    | truncate =>
      obtain rfl := hfills
      exact fileContents_truncate.trans fileContents_truncate.symm
    | @write fh k b n buffer hopen hlive hb hn hfits =>
      obtain rfl := hfills
      have hinside := hwrite fh k b n buffer rfl
      have hoffset := h.offset fh hopen
      have hinside' : StandsInside s' fh k := by
        rw [StandsInside, hoffset, h.node k hlive.taken]
        exact hinside
      have hb' := (h.writeBlock_iff hlive).mpr hb
      simp only [Change.apply]
      rw [fileContents_written hb hinside, fileContents_written hb' hinside', hoffset,
        h.contents k hlive]
    | discard | create | register | close | seek | discardLink | createLink | link | unlink
      | free => exact absurd hfills id
  · exact fileContents_created.trans fileContents_created.symm

/-- No call sees more than the control and the files. -/
theorem congruence_sameView : Congruence SameView StandsInside where
  control := SameView.toSameControl
  apply hs hs' hr he hwrite := hr.apply hs hs' he hwrite
  bytes {s s' fh k b n} hs hs' hr hon hk hinside hb hblt len hn := by
    have hnode := hr.node k hk.taken
    have hoffset := hr.offset fh hon.1
    have hinside' : StandsInside s' fh k := by
      rw [StandsInside, hoffset, hnode]
      exact hinside
    have hslice := slice_of_contents hs'.toSeqInv (hr.liveFile hk) (b := b) (hnode ▸ hb) hinside' len
      (n := n) (by rw [hnode, hoffset, hn])
    rw [hoffset, blockSize_congr hr.params] at hslice
    rw [hslice, slice_of_contents hs.toSeqInv hk hb hinside len hn, hr.contents k hk]
  fresh h := by
    rw [StandsInside, h]
    exact Nat.zero_le _

theorem StaysInside.allowed {c : Call} (h : StaysInside s c) : Allowed StandsInside s c := by
  cases c with
  | write fhandle buffer len | read fhandle len =>
    intro hlen fh k hget hon
    have hinside := h hlen fh hget
    rwa [hon.2, Int.toNat_natCast] at hinside
  | «open» | close | link | symLink | unlink | copyFromExternalFs => trivial

/-- After `tfs_init` with the same parameters, nothing but the memory differs. -/
theorem tfsInit_sameView {heap heap' : Heap} {params : TfsParams}
    (h : tfsInit heap params = (true, s)) (h' : tfsInit heap' params = (true, s')) :
    SameView s s' :=
  ⟨tfsInit_sameControl h h', fun _ hk => absurd (taken_of_init h hk.taken) hk.pos.ne'⟩

/-- Related states answer alike. -/
private theorem answer_rel (h : ExclusiveInv s ∧ ExclusiveInv s' ∧ SameView s s') {c : Call}
    (hok : StaysInside s c) : Option.Rel (fun x y => x.1 = y.1 ∧ ExclusiveInv x.2 ∧
      ExclusiveInv y.2 ∧ SameView x.2 y.2) (answer s c) (answer s' c) := by
  obtain ⟨hs, hs', hview⟩ := h
  have hcall := congruence_sameView.call hs hs' hview hok.allowed
  have hnext := next_eq s c
  have hnext' := next_eq s' c
  unfold answer at *
  generalize call s c = x at hcall hnext ⊢
  generalize call s' c = y at hcall hnext' ⊢
  cases hcall with
  | ret hsame =>
    exact .some ⟨hsame.1, hs.next hnext, hs'.next hnext', hsame.2⟩
  | fault | abort | deep => exact .none

/-- While the run reads and writes inside the files, they hold the bytes of the
ledger. -/
private theorem matches_of_runList {g g' : Ledger} {calls : List Call} (h : g.Matches)
    (hs : ExclusiveInv g.fs) (hok : Along StaysInside answer g.fs calls)
    (hrun : runList Ledger.next g calls = some g') : g'.Matches := by
  induction calls generalizing g with
  | nil =>
    obtain rfl := Option.some_inj.mp hrun
    exact h
  | cons c calls ih =>
    obtain ⟨g1, hnext, hrest⟩ := Option.bind_eq_some_iff.mp hrun
    have hfs := Ledger.fs_next hnext
    rw [next_eq] at hfs
    obtain ⟨⟨r, s1⟩, hanswer, rfl⟩ := Option.map_eq_some_iff.mp hfs
    exact ih (h.next hs hok.1 hnext) (hs.next (Ledger.fs_next hnext)) (hok.2 r _ hanswer) hrest

/-- In every run that reads and writes inside the files, the answers do not depend on
the initial memory, and the files hold what was written through their handles since
they were created or last truncated. -/
theorem answers_independent {heap heap' : Heap} {params : TfsParams}
    (h : tfsInit heap params = (true, s)) (h' : tfsInit heap' params = (true, s'))
    {calls : List Call} (hok : Along StaysInside answer s calls) :
    answers answer s' calls = answers answer s calls ∧
      ∀ g, runList Ledger.next ⟨s, fun _ => []⟩ calls = some g → g.Matches := by
  have hs := tfsInit_exclusiveInv ⟨heap, params, h⟩
  have hs' := tfsInit_exclusiveInv ⟨heap', params, h'⟩
  refine ⟨?_, fun g hrun => ?_⟩
  · exact answers_eq (R := fun s s' => ExclusiveInv s ∧ ExclusiveInv s' ∧ SameView s s')
      (by exact fun _ _ _ hrel hstay => answer_rel hrel hstay)
      ⟨hs, hs', tfsInit_sameView h h'⟩ hok
  · refine matches_of_runList (fun k hk => ?_) hs hok hrun
    exact absurd (taken_of_init h hk.taken) hk.pos.ne'

/-- Memory that happens to hold ones. -/
private def ones : Heap := ⟨fun _ => ⟨.T_FILE, 1, 1, 1⟩, fun _ => 1, fun _ => ⟨1, 1, true⟩⟩

private theorem tfsInit_default (heap : Heap) :
    tfsInit heap tfsDefaultParams = (true, initState heap tfsDefaultParams) := by
  have hok : (tfsInit heap tfsDefaultParams).1 = true := tfsInit_eq.1.mpr ⟨by decide, by decide⟩
  exact Prod.ext hok (tfsInit_eq.2 hok)

/-- Writing two bytes and reading them through a second handle. -/
theorem answers_independent_read :
    answers answer (initState ones tfsDefaultParams) [.open pathF1 tfsOCreat 1,
        .write 0 (fun _ => 7) 2, .open pathF1 0 1, .read 1 4] =
      [some ⟨0, []⟩, some ⟨2, []⟩, some ⟨1, []⟩, some ⟨2, [7, 7]⟩] := by
  have hanswers : answers answer (initState .zeroed tfsDefaultParams) [.open pathF1 tfsOCreat 1,
        .write 0 (fun _ => 7) 2, .open pathF1 0 1, .read 1 4] =
      [some ⟨0, []⟩, some ⟨2, []⟩, some ⟨1, []⟩, some ⟨2, [7, 7]⟩] := by decide +kernel
  rw [← hanswers]
  exact (answers_independent (tfsInit_default .zeroed) (tfsInit_default ones)
    (by decide +kernel)).1

/-- The first handle of `/f1` is left at offset 2 of the file that the second truncates,
and its block is given to `/l1`. -/
private def gapRun : List Call :=
  [.open pathF1 tfsOCreat 1, .write 0 (fun _ => 7) 2, .open pathF1 tfsOTrunc 1,
    .open pathL1 tfsOCreat 1, .write 2 (fun _ => 7) 1, .write 0 (fun _ => 7) 1, .read 1 3]

/-- The next write through that handle goes to a fresh block, behind a gap that shows
what the memory held. -/
theorem answers_depend : ¬ ∀ heap heap' params s s', tfsInit heap params = (true, s) →
    tfsInit heap' params = (true, s') → ∀ calls : List Call,
      answers answer s' calls = answers answer s calls := by
  intro hall
  have hsame := congrArg List.getLast?
    (hall .zeroed ones tfsDefaultParams _ _ (tfsInit_default _) (tfsInit_default _) gapRun)
  have hzeros : (answers answer (initState .zeroed tfsDefaultParams) gapRun).getLast? =
      some (some ⟨3, [0, 0, 7]⟩) := by decide +kernel
  have hones : (answers answer (initState ones tfsDefaultParams) gapRun).getLast? =
      some (some ⟨3, [1, 1, 7]⟩) := by decide +kernel
  rw [hzeros, hones] at hsame
  simp at hsame

end TfsBroker.Fs
