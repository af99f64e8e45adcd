import TfsBroker.Fs.Sequential
import Mathlib.Logic.Relation

/-!
# What a call made alone can do

A call is a few primitive changes, each of one slot, one block or one entry of the
open file table. What every one of them keeps, every call keeps.

## Main results

* `SeqInv.next_effects` — a call is a sequence of primitive changes
* `SeqInv.next_invariant` — what every primitive change keeps, every call keeps
* `SeqInv.next_frame` — no call changes the inode of the root directory
-/

namespace TfsBroker.Fs

open State Relation

variable {s s' : State} {name target linkName : Option CString} {mode k b i n fh depth : ℕ}
  {t l sub : CString}

/-- The primitive changes. -/
inductive Change
  /-- An inode is created and given back. -/
  | discard (k : ℕ) (iType : InodeType)
  /-- A new file is entered in the directory. -/
  | create (k i : ℕ) (sub : CString)
  | truncate (k : ℕ)
  /-- A file is entered in the open file table. -/
  | register (fh k offset : ℕ)
  | close (fh : ℕ)
  | write (fh k b n : ℕ) (buffer : ℕ → UInt8)
  /-- The offset of a handle moves. -/
  | seek (fh offset : ℕ)
  /-- A new symbolic link is given back, without its block. -/
  | discardLink (k b : ℕ) (t : CString)
  /-- A new symbolic link is entered in the directory. -/
  | createLink (k b i : ℕ) (t sub : CString)
  /-- A further name is entered for a file. -/
  | link (k i : ℕ) (sub : CString)
  /-- One of several names is removed. -/
  | unlink (k i : ℕ)
  /-- The last name is removed and the inode deleted. -/
  | free (k i : ℕ)

/-- The state after `tfs_sym_link` entered `sub` for the link `k` to `t`. -/
def linkCreated (s : State) (k b i : ℕ) (t sub : CString) : State :=
  { linkInode s k b t with
    fsData := Directory.fillEntry (linkInode s k b t).fsData 0 i sub k }

/-- The state after a change. -/
def Change.apply (s : State) : Change → State
  | discard k iType => discarded s k (.new iType)
  | create k i sub => created s k i sub
  | truncate k => Fs.truncate s k
  | register fh k offset => registered s fh k offset
  | close fh => s.setFreeEntry fh .FREE
  | write fh k b n buffer => written s fh k b n buffer
  | seek fh offset => s.setEntry fh { s.openFileTable fh with ofOffset := offset }
  | discardLink k b t => linkDiscarded s k b t
  | createLink k b i t sub => linkCreated s k b i t sub
  | link k i sub => linked s k i sub
  | unlink k i => unlinked s k i
  | free k i => freed (cleared s i) k

/-- A change in a state where it can happen. -/
inductive Enabled (s : State) : Change → Prop
  | discard {k : ℕ} {iType : InodeType}
      (hfirst : firstFree s.freeinodeTs s.inodeTableSize = some k) : Enabled s (.discard k iType)
  | create {k i : ℕ} {sub : CString} (hfirst : firstFree s.freeinodeTs s.inodeTableSize = some k)
      (hroom : Room s i sub) : Enabled s (.create k i sub)
  | truncate {k : ℕ} (hk : LiveFile s k) (hsize : 0 < (s.inodeTable k).iSize) :
      Enabled s (.truncate k)
  | register {fh k offset : ℕ} (hk : LiveFile s k)
      (hfirst : firstFree s.freeOpenFileEntries s.maxOpenFiles = some fh) :
      Enabled s (.register fh k offset)
  | close {fh : ℕ} : Enabled s (.close fh)
  | write {fh k b n : ℕ} {buffer : ℕ → UInt8} (hopen : s.freeOpenFileEntries fh = .TAKEN)
      (hk : LiveFile s k) (hb : WriteBlock s k b) (hn : 0 < n)
      (hfits : (s.openFileTable fh).ofOffset + n ≤ s.blockSize) : Enabled s (.write fh k b n buffer)
  | seek {fh offset : ℕ} : Enabled s (.seek fh offset)
  | discardLink {k b : ℕ} {t : CString}
      (hfirst : firstFree s.freeinodeTs s.inodeTableSize = some k)
      (hb : firstFree s.freeBlocks s.dataBlocks = some b) (ht : tfsLookup s (some t) 0 ≠ -1) :
      Enabled s (.discardLink k b t)
  | createLink {k b i : ℕ} {t sub : CString}
      (hfirst : firstFree s.freeinodeTs s.inodeTableSize = some k)
      (hb : firstFree s.freeBlocks s.dataBlocks = some b) (ht : tfsLookup s (some t) 0 ≠ -1)
      (hroom : Room s i sub) : Enabled s (.createLink k b i t sub)
  | link {k i : ℕ} {sub : CString} (hk : LiveFile s k) (hroom : Room s i sub) :
      Enabled s (.link k i sub)
  | unlink {k i : ℕ} (hk : 0 < k) (htaken : s.freeinodeTs k = .TAKEN) (hi : i < s.maxDirEntries) :
      Enabled s (.unlink k i)
  | free {k i : ℕ} (hk : 0 < k) (htaken : s.freeinodeTs k = .TAKEN) (hi : i < s.maxDirEntries) :
      Enabled s (.free k i)

/-- The change makes no symbolic link. -/
def Change.MakesNoLink : Change → Prop
  | createLink .. => False
  | _ => True

/-- Any number of primitive changes that make no symbolic link, in states where
`SeqInv` holds. -/
abbrev Effects : State → State → Prop :=
  ReflTransGen fun s s' => SeqInv s ∧ ∃ c, Enabled s c ∧ c.MakesNoLink ∧ s' = c.apply s

namespace SeqInv

theorem effects {c : Change} (h : SeqInv s) (he : Enabled s c)
    (hlink : c.MakesNoLink := by trivial) : Effects s (c.apply s) :=
  .single ⟨h, c, he, hlink, rfl⟩

theorem found_effects (h : SeqInv s) (hk : LiveFile s k) : Effects s (Fs.found s k mode) := by
  unfold Fs.found
  split
  · rename_i hcond
    exact h.effects (.truncate hk hcond.2)
  · exact .refl

theorem tfsOpenRegister_effects {offset : ℕ} {fd : ℤ} (h : SeqInv s) (hk : LiveFile s k)
    (hreg : (fd, s') = Fs.tfsOpenRegister s k offset) : Effects s s' := by
  rcases tfsOpenRegister_cases s k offset with ⟨-, heq⟩ | ⟨fh, hfirst, heq⟩ <;>
    rw [heq] at hreg <;> obtain ⟨-, rfl⟩ := Prod.mk.inj hreg
  · exact .refl
  · exact h.effects (.register hk hfirst)

theorem tfsOpen_effects {fd : ℤ} (h : SeqInv s)
    (hopen : Fs.tfsOpen s name mode depth = .ret (fd, s')) : Effects s s' := by
  rcases h.toDirInv.tfsOpen_cases hopen with ⟨-, rfl | ⟨k, hfirst, rfl⟩⟩ |
    ⟨k, i, -, hfirst, hroom, hdir, hreg⟩ | ⟨k, -, hk, hreg⟩
  · exact .refl
  · exact h.effects (.discard hfirst)
  · exact (h.effects (.create hfirst hroom)).trans
      ((h.created hfirst hdir).tfsOpenRegister_effects (liveFile_created hfirst h) hreg)
  · exact (h.found_effects hk).trans
      ((h.found hk).tfsOpenRegister_effects (liveFile_found hk) hreg)

theorem tfsClose_effects (h : SeqInv s) (fh : ℤ) : Effects s (Fs.tfsClose s fh).2 := by
  rcases tfsClose_cases s fh with ⟨-, heq⟩ | ⟨fh, -, heq⟩
  · exact heq ▸ .refl
  · exact heq ▸ h.effects .close

theorem tfsWrite_effects {buffer : ℕ → UInt8} {toWrite : ℕ} {fhandle r : ℤ} (h : SeqInv s)
    (hwrite : Fs.tfsWrite s fhandle buffer toWrite = .ret (r, s')) : Effects s s' := by
  rcases h.tfsWrite_cases hwrite with ⟨rfl, -⟩ |
    ⟨fh, k, b, n, hget, -, hlive, hb, hpos, -, hfits, -, rfl⟩
  · exact .refl
  · obtain ⟨-, -, hopen⟩ := getOpenFileEntry_eq_some.mp hget
    exact h.effects (.write hopen hlive hb hpos hfits)

/-- `tfs_sym_link` does nothing unless it is given two paths. -/
theorem tfsSymLink_paths {r : RootExit} (h : SeqInv s)
    (hlink : Fs.tfsSymLink s target linkName = .ret (r, s')) :
    s' = s ∨ ∃ t l, target = some t ∧ linkName = some l := by
  rcases h.tfsSymLink_cases h.root_taken hlink with ⟨-, rfl, -⟩ | ⟨k, -, hvalid, htarget, -⟩
  · exact .inl rfl
  · refine .inr ?_
    cases linkName with
    | none => cases hvalid
    | some l =>
      cases target with
      | none => exact absurd (by rw [h.tfsLookup_eq]; rfl) htarget
      | some t => exact ⟨t, l, rfl, rfl⟩

/-- `tfs_sym_link` undoes what it did, or creates a symbolic link. -/
theorem tfsSymLink_effects {r : RootExit} (h : SeqInv s)
    (hlink : Fs.tfsSymLink s (some t) (some l) = .ret (r, s')) : Effects s s' ∨
      ∃ k b i, validPathname (some l) = true ∧ tfsLookup s (some l) 0 = -1 ∧
        Enabled s (.createLink k b i t (subName (some l))) ∧
        s' = linkCreated s k b i t (subName (some l)) := by
  rcases h.tfsSymLink_cases h.root_taken hlink with ⟨-, rfl, -⟩ | ⟨k, hfirst, hvalid, htarget,
    hname, ⟨-, -, rfl⟩ | ⟨b, t', hb, ht, ⟨-, rfl, -⟩ | ⟨i, hpos, hlen, hroom, -, rfl⟩⟩⟩
  · exact .inl .refl
  · exact .inl (h.effects (.discard hfirst))
  · obtain rfl := Option.some_inj.mp ht
    exact .inl (h.effects (.discardLink hfirst hb htarget))
  · obtain rfl := Option.some_inj.mp ht
    rw [freeEntry_linkInode h.toDirInv hb] at hroom
    exact .inr ⟨k, b, i, hvalid, hname,
      .createLink hfirst hb htarget ⟨hpos, hlen, hroom, h.not_named hname hvalid⟩, rfl⟩

/-- A call is a sequence of primitive changes, or creates a symbolic link. -/
theorem next_effects {c : Call} (h : SeqInv s) (hnext : Fs.next s c = some s') : Effects s s' ∨
    ∃ t l k b i, c = .symLink (some t) (some l) ∧ validPathname (some l) = true ∧
      tfsLookup s (some l) 0 = -1 ∧ Enabled s (.createLink k b i t (subName (some l))) ∧
      s' = linkCreated s k b i t (subName (some l)) := by
  cases c with
  | «open» name mode depth =>
    obtain ⟨r, hr⟩ := exists_ret_of_map hnext
    exact .inl (h.tfsOpen_effects hr)
  | close fh =>
    obtain rfl := Option.some_inj.mp hnext
    exact .inl (h.tfsClose_effects fh)
  | write fh buffer toWrite =>
    obtain ⟨r, hr⟩ := exists_ret_of_map hnext
    exact .inl (h.tfsWrite_effects hr)
  | read fh len =>
    obtain ⟨r, hr⟩ := exists_ret_of_map hnext
    rcases h.tfsRead_cases hr with rfl | ⟨fh, k, n, -, -, -, -, rfl⟩
    · exact .inl .refl
    · exact .inl (h.effects .seek)
  | link target linkName =>
    obtain ⟨r, hr⟩ := exists_ret_of_map hnext
    rcases h.tfsLink_cases hr with ⟨-, -, rfl⟩ |
      ⟨k, i, hvalid, hl, hname, htype, hpos, hlen, hroom, -, rfl⟩
    · exact .inl .refl
    · exact .inl (h.effects (.link (h.toDirInv.liveFile hl htype)
        ⟨hpos, hlen, hroom, h.not_named hname hvalid⟩))
  | symLink target linkName =>
    obtain ⟨r, hr⟩ := exists_ret_of_map hnext
    rcases h.tfsSymLink_paths hr with rfl | ⟨t, l, rfl, rfl⟩
    · exact .inl .refl
    · refine (h.tfsSymLink_effects hr).imp_right ?_
      rintro ⟨k, b, i, hvalid, hname, hnew, rfl⟩
      exact ⟨t, l, k, b, i, rfl, hvalid, hname, hnew, rfl⟩
  | unlink target =>
    obtain ⟨r, hr⟩ := exists_ret_of_map hnext
    rcases h.toDirInv.tfsUnlink_cases hr with ⟨-, rfl⟩ |
      ⟨k, i, -, hpos, -, htaken, -, hi, -, -, -, ⟨-, rfl⟩ | ⟨-, rfl⟩⟩
    · exact .inl .refl
    · exact .inl (h.effects (.free hpos htaken hi))
    · exact .inl (h.effects (.unlink hpos htaken hi))
  | copyFromExternalFs source destPath depth =>
    obtain ⟨r, hr⟩ := exists_ret_of_map hnext
    rcases tfsCopyFromExternalFs_cases hr with rfl | ⟨file, fd, s1, -, -, hopen, hrest⟩
    · exact .inl .refl
    have h1 := h.tfsOpen hopen
    have hopened := h.tfsOpen_effects hopen
    rcases hrest with ⟨-, rfl⟩ | ⟨-, r', s2, hwrite, rfl | rfl⟩
    · exact .inl hopened
    · exact .inl (hopened.trans (h1.tfsWrite_effects hwrite))
    · exact .inl ((hopened.trans (h1.tfsWrite_effects hwrite)).trans
        ((h1.tfsWrite hwrite).tfsClose_effects fd))

end SeqInv

/-- What every primitive change keeps, every call keeps that makes no symbolic
link. -/
theorem Effects.invariant {P : State → Prop}
    (hstep : ∀ {s c}, SeqInv s → Enabled s c → c.MakesNoLink → P s → P (c.apply s))
    (h : Effects s s') (hs : P s) : P s' := by
  induction h with
  | refl => exact hs
  | tail _ hchange ih =>
    obtain ⟨hinv, c, he, hlink, rfl⟩ := hchange
    exact hstep hinv he hlink ih

/-- What every primitive change keeps, every call keeps. -/
theorem SeqInv.next_invariant {P : State → Prop} {c : Call}
    (hstep : ∀ {s c}, SeqInv s → Enabled s c → P s → P (c.apply s)) (h : SeqInv s) (hs : P s)
    (hnext : Fs.next s c = some s') : P s' := by
  rcases h.next_effects hnext with heffects | ⟨t, l, k, b, i, -, -, -, he, rfl⟩
  · exact heffects.invariant (fun hinv he _ => hstep hinv he) hs
  · exact hstep h he hs

/-- What no call changes: the parameters, and the inode of the root directory. -/
structure Frame (s s' : State) : Prop where
  params : s'.fsParams = s.fsParams
  root : s'.inodeTable 0 = s.inodeTable 0

theorem Frame.trans {s'' : State} (h : Frame s s') (h' : Frame s' s'') : Frame s s'' :=
  ⟨h'.params.trans h.params, h'.root.trans h.root⟩

theorem Enabled.frame {c : Change} (h : Enabled s c) (h0 : s.freeinodeTs 0 = .TAKEN) :
    Frame s (c.apply s) := by
  have hne : ∀ {k}, firstFree s.freeinodeTs s.inodeTableSize = some k → 0 ≠ k := fun hfirst =>
    (firstFree_ne hfirst h0).symm
  cases h with
  | discard hfirst | create hfirst | discardLink hfirst | createLink hfirst =>
    exact ⟨rfl, Function.update_of_ne (hne hfirst) _ _⟩
  | truncate hk hsize =>
    simp only [Change.apply, truncate_eq]
    exact ⟨rfl, Function.update_of_ne hk.pos.ne _ _⟩
  | register | close | seek => exact ⟨rfl, rfl⟩
  | write _ hk | link hk => exact ⟨rfl, Function.update_of_ne hk.pos.ne _ _⟩
  | unlink hk => exact ⟨rfl, Function.update_of_ne hk.ne _ _⟩
  | free hk =>
    simp only [Change.apply, freed_eq]
    exact ⟨rfl, rfl⟩

/-- No call changes the inode of the root directory. -/
theorem SeqInv.next_frame {c : Call} (h : SeqInv s) (hnext : Fs.next s c = some s') :
    Frame s s' :=
  h.next_invariant (fun hinv he hframe => hframe.trans (he.frame hinv.root_taken)) ⟨rfl, rfl⟩ hnext

end TfsBroker.Fs
