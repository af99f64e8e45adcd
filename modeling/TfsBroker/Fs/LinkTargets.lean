import TfsBroker.Fs.LinkChains

/-!
# The buffer for the target of a symbolic link

`tfs_open` copies the target of a symbolic link, with its slash and terminator, to a
buffer of `MAX_FILE_NAME` bytes. `tfs_sym_link` accepts every path that is found, and
the name of a found path has up to `MAX_FILE_NAME - 1` bytes without the slash: the
longest path needs one byte more than the buffer has.

## Main results

* `targets_fit` — the targets fit if every accepted one is short
* `target_overflows` — the longest name of a file, as a target, does not fit
-/

namespace TfsBroker.Fs

open State Runs

variable {s s' : State} {t : CString}

/-- The path is no longer, with its terminator, than the `buffer` of `tfs_open`. -/
def FitsBuffer (t : CString) : Prop := t.terminated.length ≤ maxFileName

instance : Decidable (FitsBuffer t) := inferInstanceAs (Decidable (_ ≤ _))

/-- The block of every symbolic link in the directory holds a terminated path that
fits into the buffer of `tfs_open`. -/
def TargetsFit (s : State) : Prop :=
  ∀ i < s.maxDirEntries, ∀ k : ℕ, Directory.dInumber s.fsData 0 i = k →
    (s.inodeTable k).iNodeType = .T_LINK → ∃ t, StoredTarget s k t ∧ FitsBuffer t

/-- A `tfs_sym_link` that passes its checks and finds room has a target that fits. -/
def KeepsTargetsShort (s : State) : Call → Prop
  | .symLink target linkName => SymLinkRuns s target linkName →
      ∀ t, target = some t → FitsBuffer t
  | _ => True

/-- Every call with a short target keeps the targets short. -/
private theorem shortTargets_next {c : Call}
    (hl : ∀ k, LiveLink s k → ∃ t, StoredTarget s k t ∧ FitsBuffer t) (h : ExclusiveInv s)
    (hok : KeepsTargetsShort s c) (hnext : Fs.next s c = some s') :
    ∀ k, LiveLink s' k → ∃ t, StoredTarget s' k t ∧ FitsBuffer t := by
  rcases h.toSeqInv.next_effects hnext with heffects |
    ⟨t, l, k, b, i, rfl, hvalid, hname, he, rfl⟩
  · refine heffects.invariant
      (P := fun u => ∀ k, LiveLink u k → ∃ t, StoredTarget u k t ∧ FitsBuffer t) ?_ hl
    intro u c hinv he hlink hu
    refine he.storedTargets hinv hu ?_
    rintro k b i t sub rfl
    exact hlink.elim
  · have hfits : FitsBuffer t := hok (he.symLinkRuns hvalid hname) t rfl
    refine he.storedTargets h.toSeqInv hl fun k' b' i' t' sub' heq => ?_
    obtain ⟨-, -, -, rfl, -⟩ := Change.createLink.inj heq
    exact hfits

/-- In every run in which every accepted target fits into the buffer, the stored
targets fit. -/
theorem targets_fit (h : Reach next Initialised KeepsTargetsShort s) : TargetsFit s := by
  have hinv : ExclusiveInv s ∧ ∀ k, LiveLink s k → ∃ t, StoredTarget s k t ∧ FitsBuffer t :=
    h.invariant
      (I := fun s => ExclusiveInv s ∧ ∀ k, LiveLink s k → ∃ t, StoredTarget s k t ∧ FitsBuffer t)
      (fun _ hs => ⟨tfsInit_exclusiveInv hs, fun _ hk => absurd hk (not_liveLink_of_initialised hs)⟩)
      fun _ _ _ hs hok hnext => ⟨hs.1.next hnext, shortTargets_next hs.2 hs.1 hok hnext⟩
  intro i hi k hk htype
  -- an entry of the directory refers to an inode in use
  obtain ⟨k', hk', -, hlt, htaken⟩ := hinv.1.refers i hi (hk.trans_ne (natCast_ne_neg_one k))
  obtain rfl : k = k' := by exact_mod_cast hk.symm.trans hk'
  exact hinv.2 k ⟨hlt, htaken, htype⟩

/-- The test of `KeepsTargetsShort`. -/
private def targetCheck : Call → Bool
  | .symLink (some t) _ => decide (FitsBuffer t)
  | .symLink none _ => false
  | _ => true

private theorem keepsTargetsShort_of_check {s : State} {c : Call} (h : targetCheck c = true) :
    KeepsTargetsShort s c := by
  cases c with
  | symLink target linkName =>
    cases target with
    | none => cases h
    | some t =>
      rintro - _ ⟨⟩
      exact of_decide_eq_true h
  | _ => trivial

/-- The symbolic link `/l1` to the file `/f1`. -/
theorem targets_fit_link : ∃ s, Reach next Initialised KeepsTargetsShort s ∧
    (s.inodeTable 2).iNodeType = .T_LINK ∧ TargetsFit s := by
  obtain ⟨s, hreach, hs⟩ := exists_reach_of_runList next KeepsTargetsShort
    (fun _ => targetCheck) (fun s c => keepsTargetsShort_of_check)
    [Call.open pathF1 tfsOCreat 1, .symLink pathF1 pathL1]
    (fun s => decide ((s.inodeTable 2).iNodeType = .T_LINK)) initialised_fresh (by decide +kernel)
  exact ⟨s, hreach, of_decide_eq_true hs, targets_fit hreach⟩

/-- The slash and 39 bytes, the longest path that can be found. -/
private def longestPath : CString := ⟨47 :: List.replicate 39 97, by decide⟩

/-- The target of a symbolic link to the longest path needs 41 bytes. -/
theorem target_overflows : ¬ ∀ s, Reachable next Initialised s → TargetsFit s := by
  intro hall
  obtain ⟨s, hreach, hs⟩ := exists_of_runList next
    [Call.open longestPath tfsOCreat 1, .symLink longestPath pathL1]
    (fun s => decide (1 < s.maxDirEntries ∧ Directory.dInumber s.fsData 0 1 = (2 : ℕ) ∧
      (s.inodeTable 2).iNodeType = .T_LINK ∧
      (dataBlockGet s (s.inodeTable 2).iDataBlock).bind
        (fun a => CString.strAt s.fsData a (s.dataSize - a)) = some longestPath))
    initialised_fresh (by decide +kernel)
  obtain ⟨hentries, hinum, htype, htarget⟩ := of_decide_eq_true hs
  obtain ⟨t, hstored, hfits⟩ := hall s hreach 1 hentries 2 hinum htype
  obtain ⟨a, ha, hstr⟩ := hstored.strAt
  rw [ha, Option.bind_some, hstr] at htarget
  obtain rfl := Option.some_inj.mp htarget
  exact absurd hfits (by decide)

end TfsBroker.Fs
