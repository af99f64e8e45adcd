import TfsBroker.Tfs.Params
import TfsBroker.Lib.Counting

/-!
# The root directory block

The directory is a block of the data area read as an array of `dir_entry_t`. The
loops of `inode_create`, `find_in_dir`, `add_dir_entry` and `clear_dir_entry`
are the same text in `fs/state.c` and `fs2/state.c`; here they are functions of
the memory, the address of the block and the number of entries.

An entry is live when its `d_inumber` is not -1. `Wf` is what every run keeps:
live entries carry distinct non-empty terminated names, and every free entry
below a live one has an all-zero name. The last clause is why `clear_dir_entry`,
which compares with `strcmp` and does not skip free entries, stops at the entry
`find_in_dir` matched.
-/

namespace TfsBroker.Directory

open CString (HoldsAt)
open Counting (countOf)

variable {m m' : Memory} {base n i j k : ℕ} {name : CString} {inum : ℤ}

/-- The address of entry `i`, where its `d_name` starts. -/
def entryAddr (base i : ℕ) : ℕ := base + dirEntrySize * i

/-- The field `d_inumber` of entry `i`. -/
def dInumber (m : Memory) (base i : ℕ) : ℤ := m.getInt (entryAddr base i + maxFileName)

/-- The string in the field `d_name` of entry `i`, if it is terminated. -/
def dName (m : Memory) (base i : ℕ) : Option CString :=
  CString.strAt m (entryAddr base i) maxFileName

/-- Entry `i` is in use. -/
def Live (m : Memory) (base i : ℕ) : Prop := dInumber m base i ≠ -1

instance : Decidable (Live m base i) := inferInstanceAs (Decidable (_ ≠ _))

/-- The loop of `inode_create` that marks the entries of a new directory. -/
def initEntries (m : Memory) (base : ℕ) : ℕ → Memory
  | 0 => m
  | n + 1 => (initEntries m base n).putInt (entryAddr base n + maxFileName) (-1)

/-- The entry the loop of `find_in_dir` stops at. -/
def findEntry (m : Memory) (base n : ℕ) (name : CString) : Option ℕ :=
  (List.range n).find? fun i =>
    dInumber m base i != -1 && CString.strncmpEq m (entryAddr base i) name maxFileName

/-- The entry the loop of `add_dir_entry` stops at. -/
def freeEntry (m : Memory) (base n : ℕ) : Option ℕ :=
  (List.range n).find? fun i => dInumber m base i == -1

/-- The assignments of `add_dir_entry` to the entry it found. -/
def fillEntry (m : Memory) (base i : ℕ) (name : CString) (inum : ℤ) : Memory :=
  let a := entryAddr base i
  (CString.strncpy (m.putInt (a + maxFileName) inum) a name (maxFileName - 1)).memcpy
    (a + (maxFileName - 1)) 1 fun _ => 0

/-- The entry the loop of `clear_dir_entry` stops at. -/
def matchEntry (m : Memory) (base n : ℕ) (name : CString) : Option ℕ :=
  (List.range n).find? fun i => CString.strcmpEq m (entryAddr base i) name

/-- The assignments of `clear_dir_entry` to the entry it found. -/
def clearEntry (m : Memory) (base i : ℕ) : Memory :=
  let a := entryAddr base i
  (m.putInt (a + maxFileName) (-1)).memcpy a maxFileName fun _ => 0

/-- Entry `i` is live under the name `name`. -/
def Names (m : Memory) (base i : ℕ) (name : CString) : Prop :=
  Live m base i ∧ HoldsAt m (entryAddr base i) maxFileName name

/-- The number of live entries that refer to the inode `inum`. -/
def linkCount (m : Memory) (base n : ℕ) (inum : ℤ) : ℕ :=
  countOf (Finset.range n) fun i => dInumber m base i = inum

/-- A well-formed directory of `n` entries at `base`. -/
structure Wf (m : Memory) (base n : ℕ) : Prop where
  named : ∀ i < n, Live m base i → ∃ name, 0 < name.strlen ∧ Names m base i name
  distinct : ∀ i < n, ∀ j < n, ∀ name, Names m base i name → Names m base j name → i = j
  zeroed : ∀ i < n, Live m base i → ∀ j < i, ¬ Live m base j →
    ∀ x < maxFileName, m (entryAddr base j + x) = 0

/-! ### What an update of one entry touches -/

/-- `m` and `m'` have the same bytes in entry `i`. -/
def SameEntry (m m' : Memory) (base i : ℕ) : Prop :=
  m.AgreeOn m' (entryAddr base i) dirEntrySize

theorem SameEntry.dInumber_eq (h : SameEntry m m' base i) :
    dInumber m base i = dInumber m' base i :=
  (h.mono (by omega) (by simp only [maxFileName, dirEntrySize]; omega)).getInt_eq

theorem SameEntry.live_iff (h : SameEntry m m' base i) : Live m base i ↔ Live m' base i := by
  rw [Live, Live, h.dInumber_eq]

theorem SameEntry.names_iff (h : SameEntry m m' base i) :
    Names m base i name ↔ Names m' base i name := by
  have hname : m.AgreeOn m' (entryAddr base i) maxFileName :=
    h.mono le_rfl (by simp only [maxFileName, dirEntrySize]; omega)
  exact and_congr h.live_iff ⟨fun h => h.congr hname, fun h => h.congr hname.symm⟩

theorem sameEntry_of_agreeOn (h : m.AgreeOn m' base (dirEntrySize * n)) (hi : i < n) :
    SameEntry m m' base i := by
  refine h.mono (Nat.le_add_right _ _) ?_
  simp only [entryAddr, dirEntrySize]
  omega

theorem entryAddr_succ_le (h : i < j) : entryAddr base i + dirEntrySize ≤ entryAddr base j := by
  simp only [entryAddr, dirEntrySize]
  omega

theorem entryAddr_add_le (h : i < n) :
    entryAddr base i + dirEntrySize ≤ base + dirEntrySize * n := by
  simp only [entryAddr, dirEntrySize]
  omega

private theorem sameEntry_memcpy (m : Memory) (base a len : ℕ) (src : ℕ → UInt8) (hij : j ≠ i)
    (hlo : entryAddr base i ≤ a) (hhi : a + len ≤ entryAddr base i + dirEntrySize) :
    SameEntry (m.memcpy a len src) m base j := by
  refine Memory.agreeOn_memcpy ?_
  rcases Nat.lt_or_gt_of_ne hij with h | h
  · exact Or.inl ((entryAddr_succ_le h).trans hlo)
  · exact Or.inr (hhi.trans (entryAddr_succ_le h))

private theorem SameEntry.trans {m'' : Memory} (h : SameEntry m m' base i)
    (h' : SameEntry m' m'' base i) : SameEntry m m'' base i :=
  fun x hx hx' => (h x hx hx').trans (h' x hx hx')

theorem sameEntry_fillEntry (hij : j ≠ i) :
    SameEntry (fillEntry m base i name inum) m base j := by
  have h1 := sameEntry_memcpy m base (entryAddr base i + maxFileName) 4 (Memory.intBytes inum) hij
    (by omega) (by simp only [maxFileName, dirEntrySize]; omega)
  have h2 := sameEntry_memcpy (m.putInt (entryAddr base i + maxFileName) inum) base
    (entryAddr base i) (maxFileName - 1) name.byteAt hij le_rfl
    (by simp only [maxFileName, dirEntrySize]; omega)
  have h3 := sameEntry_memcpy
    (CString.strncpy (m.putInt (entryAddr base i + maxFileName) inum) (entryAddr base i) name
      (maxFileName - 1)) base (entryAddr base i + (maxFileName - 1)) 1 (fun _ => 0) hij (by omega)
    (by simp only [maxFileName, dirEntrySize]; omega)
  exact (h3.trans h2).trans h1

theorem sameEntry_clearEntry (hij : j ≠ i) : SameEntry (clearEntry m base i) m base j := by
  have h1 := sameEntry_memcpy m base (entryAddr base i + maxFileName) 4 (Memory.intBytes (-1)) hij
    (by omega) (by simp only [maxFileName, dirEntrySize]; omega)
  have h2 := sameEntry_memcpy (m.putInt (entryAddr base i + maxFileName) (-1)) base
    (entryAddr base i) maxFileName (fun _ => 0) hij le_rfl
    (by simp only [maxFileName, dirEntrySize]; omega)
  exact h2.trans h1

/-- Filling an entry stays inside it. -/
theorem agreeOn_fillEntry {a len : ℕ}
    (h : a + len ≤ entryAddr base i ∨ entryAddr base i + dirEntrySize ≤ a) :
    (fillEntry m base i name inum).AgreeOn m a len := by
  have hd : dirEntrySize = 44 := rfl
  have hf : maxFileName = 40 := rfl
  intro x hx hx'
  simp only [fillEntry, CString.strncpy, Memory.putInt]
  rw [Memory.memcpy_of_not_mem (by omega), Memory.memcpy_of_not_mem (by omega),
    Memory.memcpy_of_not_mem (by omega)]

/-- Clearing an entry stays inside it. -/
theorem agreeOn_clearEntry {a len : ℕ}
    (h : a + len ≤ entryAddr base i ∨ entryAddr base i + dirEntrySize ≤ a) :
    (clearEntry m base i).AgreeOn m a len := by
  have hd : dirEntrySize = 44 := rfl
  have hf : maxFileName = 40 := rfl
  intro x hx hx'
  simp only [clearEntry, Memory.putInt]
  rw [Memory.memcpy_of_not_mem (by omega), Memory.memcpy_of_not_mem (by omega)]

theorem dInumber_fillEntry (h : Memory.IsInt inum) :
    dInumber (fillEntry m base i name inum) base i = inum := by
  have hf : maxFileName = 40 := rfl
  simp only [dInumber, fillEntry, CString.strncpy]
  rw [Memory.getInt_memcpy_of_disjoint (by omega), Memory.getInt_memcpy_of_disjoint (by omega),
    Memory.getInt_putInt h]

theorem holdsAt_fillEntry (h : name.strlen < maxFileName) :
    HoldsAt (fillEntry m base i name inum) (entryAddr base i) maxFileName name := by
  refine ⟨h, fun x hx => ?_⟩
  have hf : maxFileName = 40 := rfl
  simp only [fillEntry, CString.strncpy]
  rcases Nat.lt_or_ge x (maxFileName - 1) with hlt | hge
  · rw [Memory.memcpy_of_not_mem (by omega), Memory.memcpy_of_mem (by omega) (by omega),
      Nat.add_sub_cancel_left]
  · rw [Memory.memcpy_of_mem (by omega) (by omega), CString.byteAt_of_ge (by omega)]

theorem dInumber_clearEntry : dInumber (clearEntry m base i) base i = -1 := by
  simp only [dInumber, clearEntry]
  rw [Memory.getInt_memcpy_of_disjoint (by omega), Memory.getInt_putInt (by
    constructor <;> norm_num)]

theorem not_live_clearEntry : ¬ Live (clearEntry m base i) base i :=
  not_not.mpr dInumber_clearEntry

theorem clearEntry_name_zero {x : ℕ} (h : x < maxFileName) :
    clearEntry m base i (entryAddr base i + x) = 0 := by
  simp only [clearEntry]
  rw [Memory.memcpy_of_mem (by omega) (by omega)]

theorem dInumber_initEntries (h : i < n) : dInumber (initEntries m base n) base i = -1 := by
  induction n with
  | zero => omega
  | succ n ih =>
    rw [dInumber, initEntries]
    rcases Nat.lt_succ_iff_lt_or_eq.mp h with hlt | rfl
    · rw [Memory.putInt, Memory.getInt_memcpy_of_disjoint (by
        simp only [entryAddr, dirEntrySize, maxFileName]; omega)]
      exact ih hlt
    · exact Memory.getInt_putInt (by constructor <;> norm_num)

/-! ### Lookup, insertion and removal in a well-formed directory -/

theorem wf_initEntries : Wf (initEntries m base n) base n where
  named _ hi hlive := absurd (dInumber_initEntries hi) hlive
  distinct _ hi _ _ _ h _ := absurd (dInumber_initEntries hi) h.1
  zeroed _ hi hlive := absurd (dInumber_initEntries hi) hlive

theorem Names.unique {name' : CString} (h : Names m base i name) (h' : Names m base i name') :
    name = name' :=
  h.2.unique h'.2

theorem Wf.congr (h : Wf m base n) (hm : m.AgreeOn m' base (dirEntrySize * n)) : Wf m' base n where
  named i hi hlive := by
    have hsame := sameEntry_of_agreeOn hm hi
    obtain ⟨name, hpos, hname⟩ := h.named i hi (hsame.live_iff.mpr hlive)
    exact ⟨name, hpos, hsame.names_iff.mp hname⟩
  distinct i hi j hj name hni hnj :=
    h.distinct i hi j hj name ((sameEntry_of_agreeOn hm hi).names_iff.mpr hni)
      ((sameEntry_of_agreeOn hm hj).names_iff.mpr hnj)
  zeroed _ hi hlive j hj hfree x hx := by
    have hsame := sameEntry_of_agreeOn hm (hj.trans hi)
    rw [← hsame _ (Nat.le_add_right _ _) (by simp only [maxFileName, dirEntrySize] at *; omega)]
    exact h.zeroed _ hi ((sameEntry_of_agreeOn hm hi).live_iff.mpr hlive) j hj
      (fun hl => hfree (hsame.live_iff.mp hl)) x hx

theorem linkCount_congr (hm : m.AgreeOn m' base (dirEntrySize * n)) :
    linkCount m base n inum = linkCount m' base n inum :=
  Counting.countOf_congr fun _ hi => by
    rw [(sameEntry_of_agreeOn hm (Finset.mem_range.mp hi)).dInumber_eq]

/-- `find_in_dir` stops at the entry live under the name, if there is one. -/
theorem Wf.findEntry_eq_some (h : Wf m base n) :
    findEntry m base n name = some i ↔ i < n ∧ Names m base i name := by
  have hiff : ∀ j < n, (dInumber m base j != -1 &&
      CString.strncmpEq m (entryAddr base j) name maxFileName) = true ↔ Names m base j name := by
    intro j hj
    rw [Bool.and_eq_true, bne_iff_ne]
    constructor
    · rintro ⟨hlive, hcmp⟩
      obtain ⟨name', -, hname'⟩ := h.named j hj hlive
      obtain rfl := hname'.2.strncmpEq_iff.mp hcmp
      exact hname'
    · exact fun hname => ⟨hname.1, hname.2.strncmpEq_iff.mpr rfl⟩
  rw [findEntry, List.find?_range_eq_some, List.mem_range]
  constructor
  · rintro ⟨hi, hlt, -⟩
    exact ⟨hlt, (hiff i hlt).mp hi⟩
  · rintro ⟨hlt, hname⟩
    refine ⟨(hiff i hlt).mpr hname, hlt, fun j hj => ?_⟩
    rw [Bool.not_eq_true', ← Bool.not_eq_true, hiff j (hj.trans hlt)]
    intro hj'
    exact absurd (h.distinct j (hj.trans hlt) i hlt name hj' hname) hj.ne

theorem Wf.findEntry_eq_none (h : Wf m base n) :
    findEntry m base n name = none ↔ ∀ i < n, ¬ Names m base i name := by
  rw [Option.eq_none_iff_forall_ne_some]
  constructor
  · intro hnone i hi hname
    exact hnone i (h.findEntry_eq_some.mpr ⟨hi, hname⟩)
  · intro hall i hi
    obtain ⟨hlt, hname⟩ := h.findEntry_eq_some.mp hi
    exact hall i hlt hname

theorem freeEntry_eq_some :
    freeEntry m base n = some i ↔ ¬ Live m base i ∧ i < n ∧ ∀ j < i, Live m base j := by
  simp [freeEntry, Live]

theorem freeEntry_eq_none : freeEntry m base n = none ↔ ∀ i < n, Live m base i := by
  simp [freeEntry, Live]

/-- `clear_dir_entry` stops at the entry `find_in_dir` matched. -/
theorem Wf.matchEntry_eq (h : Wf m base n) (hi : i < n) (hname : Names m base i name)
    (hpos : 0 < name.strlen) : matchEntry m base n name = some i := by
  rw [matchEntry, List.find?_range_eq_some, List.mem_range]
  refine ⟨hname.2.strcmpEq_iff.mpr rfl, hi, fun j hj => ?_⟩
  rw [Bool.not_eq_true', ← Bool.not_eq_true]
  intro hcmp
  by_cases hlive : Live m base j
  · obtain ⟨name', -, hname'⟩ := h.named j (hj.trans hi) hlive
    obtain rfl := hname'.2.strcmpEq_iff.mp hcmp
    exact absurd (h.distinct j (hj.trans hi) i hi _ hname' hname) hj.ne
  · have h0 := CString.strcmpEq_iff.mp hcmp 0 (Nat.zero_le _)
    rw [h.zeroed i hi hname.1 j hj hlive 0 (by decide)] at h0
    exact CString.byteAt_of_lt hpos h0.symm

/-- Filling the first free entry with a new name keeps the directory well formed. -/
theorem Wf.fillEntry (h : Wf m base n) (hfree : freeEntry m base n = some i)
    (hpos : 0 < name.strlen) (hlen : name.strlen < maxFileName)
    (hnew : ∀ j < n, ¬ Names m base j name) (hint : Memory.IsInt inum) (hne : inum ≠ -1) :
    Wf (fillEntry m base i name inum) base n := by
  obtain ⟨hdead, hi, hbelow⟩ := freeEntry_eq_some.mp hfree
  have hother : ∀ {j}, j ≠ i → SameEntry (Directory.fillEntry m base i name inum) m base j :=
    sameEntry_fillEntry
  have hself : HoldsAt (Directory.fillEntry m base i name inum) (entryAddr base i) maxFileName
      name := holdsAt_fillEntry hlen
  constructor
  · intro j hj hlive
    by_cases hji : j = i
    · subst hji
      exact ⟨name, hpos, hlive, hself⟩
    · obtain ⟨name', hpos', hname'⟩ := h.named j hj ((hother hji).live_iff.mp hlive)
      exact ⟨name', hpos', (hother hji).names_iff.mpr hname'⟩
  · intro j hj k hk name' hj' hk'
    by_cases hji : j = i <;> by_cases hki : k = i
    · rw [hji, hki]
    · subst hji
      obtain rfl := hj'.2.unique hself
      exact absurd ((hother hki).names_iff.mp hk') (hnew k hk)
    · subst hki
      obtain rfl := hk'.2.unique hself
      exact absurd ((hother hji).names_iff.mp hj') (hnew j hj)
    · exact h.distinct j hj k hk name' ((hother hji).names_iff.mp hj')
        ((hother hki).names_iff.mp hk')
  · intro j hj hlive k hk hkfree x hx
    have hki : k ≠ i := by
      rintro rfl
      exact hkfree ((dInumber_fillEntry hint).trans_ne hne)
    rw [hother hki _ (Nat.le_add_right _ _) (by simp only [maxFileName, dirEntrySize] at *; omega)]
    have hkdead : ¬ Live m base k := fun hl => hkfree ((hother hki).live_iff.mpr hl)
    by_cases hji : j = i
    · subst hji
      exact absurd (hbelow k hk) hkdead
    · exact h.zeroed j hj ((hother hji).live_iff.mp hlive) k hk hkdead x hx

/-- Clearing a live entry keeps the directory well formed. -/
theorem Wf.clearEntry (h : Wf m base n) (hi : i < n) : Wf (clearEntry m base i) base n := by
  have hother : ∀ {j}, j ≠ i → SameEntry (Directory.clearEntry m base i) m base j :=
    sameEntry_clearEntry
  have hne : ∀ {j}, Live (Directory.clearEntry m base i) base j → j ≠ i := by
    rintro j hlive rfl
    exact not_live_clearEntry hlive
  constructor
  · intro j hj hlive
    obtain ⟨name', hpos', hname'⟩ := h.named j hj ((hother (hne hlive)).live_iff.mp hlive)
    exact ⟨name', hpos', (hother (hne hlive)).names_iff.mpr hname'⟩
  · intro j hj k hk name' hj' hk'
    exact h.distinct j hj k hk name' ((hother (hne hj'.1)).names_iff.mp hj')
      ((hother (hne hk'.1)).names_iff.mp hk')
  · intro j hj hlive k hk hkfree x hx
    by_cases hki : k = i
    · subst hki
      exact clearEntry_name_zero hx
    · rw [hother hki _ (Nat.le_add_right _ _)
        (by simp only [maxFileName, dirEntrySize] at *; omega)]
      exact h.zeroed j hj ((hother (hne hlive)).live_iff.mp hlive) k hk
        (fun hl => hkfree ((hother hki).live_iff.mpr hl)) x hx

theorem linkCount_fillEntry_self (hdead : ¬ Live m base i) (hi : i < n) (hint : Memory.IsInt inum)
    (hne : inum ≠ -1) :
    linkCount (fillEntry m base i name inum) base n inum = linkCount m base n inum + 1 :=
  Counting.countOf_succ (Finset.mem_range.mpr hi)
    (by rw [not_not.mp hdead]; exact hne.symm) (dInumber_fillEntry hint)
    fun _ _ hj => by rw [(sameEntry_fillEntry hj).dInumber_eq]

theorem linkCount_fillEntry_of_ne (hdead : ¬ Live m base i) (hint : Memory.IsInt inum) {inum' : ℤ}
    (hne : inum' ≠ inum) (hlive : inum' ≠ -1) :
    linkCount (fillEntry m base i name inum) base n inum' = linkCount m base n inum' := by
  refine Counting.countOf_congr fun j _ => ?_
  by_cases hji : j = i
  · subst hji
    rw [dInumber_fillEntry hint, not_not.mp hdead]
    exact iff_of_false hne.symm hlive.symm
  · rw [(sameEntry_fillEntry hji).dInumber_eq]

theorem linkCount_clearEntry_self (hi : i < n) (hlive : dInumber m base i ≠ -1) :
    linkCount m base n (dInumber m base i)
      = linkCount (clearEntry m base i) base n (dInumber m base i) + 1 :=
  Counting.countOf_succ (Finset.mem_range.mpr hi)
    (by rw [dInumber_clearEntry]; exact hlive.symm) rfl
    fun _ _ hj => by rw [(sameEntry_clearEntry hj).dInumber_eq]

theorem linkCount_clearEntry_of_ne {inum' : ℤ} (hne : inum' ≠ dInumber m base i)
    (hlive : inum' ≠ -1) :
    linkCount (clearEntry m base i) base n inum' = linkCount m base n inum' := by
  refine Counting.countOf_congr fun j _ => ?_
  by_cases hji : j = i
  · subst hji
    rw [dInumber_clearEntry]
    exact iff_of_false hlive.symm hne.symm
  · rw [(sameEntry_clearEntry hji).dInumber_eq]

/-! ### The names entered for an inode -/

/-- Some entry is live under `name` and refers to the inode `inum`. -/
def Entered (m : Memory) (base n : ℕ) (name : CString) (inum : ℤ) : Prop :=
  ∃ i < n, Names m base i name ∧ dInumber m base i = inum

theorem Entered.of_same (hm : m.AgreeOn m' base (dirEntrySize * n))
    (h : Entered m' base n name inum) : Entered m base n name inum := by
  obtain ⟨i, hi, hnames, hinum⟩ := h
  have hsame := sameEntry_of_agreeOn hm hi
  exact ⟨i, hi, hsame.names_iff.mpr hnames, hsame.dInumber_eq.trans hinum⟩

/-- Filling an entry enters one name, and no other. -/
theorem Entered.of_fillEntry {name' : CString} {inum' : ℤ} (hint : Memory.IsInt inum)
    (hlen : name.strlen < maxFileName)
    (h : Entered (fillEntry m base i name inum) base n name' inum') :
    (name' = name ∧ inum' = inum) ∨ Entered m base n name' inum' := by
  obtain ⟨j, hj, hnames, hinum⟩ := h
  by_cases hji : j = i
  · subst hji
    exact .inl ⟨hnames.2.unique (holdsAt_fillEntry hlen),
      hinum.symm.trans (dInumber_fillEntry hint)⟩
  · have hsame : SameEntry (fillEntry m base i name inum) m base j := sameEntry_fillEntry hji
    exact .inr ⟨j, hj, hsame.names_iff.mp hnames, hsame.dInumber_eq.symm.trans hinum⟩

/-- Clearing an entry enters nothing. -/
theorem Entered.of_clearEntry (h : Entered (clearEntry m base i) base n name inum) :
    Entered m base n name inum := by
  obtain ⟨j, hj, hnames, hinum⟩ := h
  have hji : j ≠ i := by
    rintro rfl
    exact not_live_clearEntry hnames.1
  have hsame : SameEntry (clearEntry m base i) m base j := sameEntry_clearEntry hji
  exact ⟨j, hj, hsame.names_iff.mp hnames, hsame.dInumber_eq.symm.trans hinum⟩

/-- Filling a free entry enters one name, and keeps the others. -/
theorem entered_fillEntry {name' : CString} {inum' : ℤ} (hdead : ¬ Live m base i) (hi : i < n)
    (hint : Memory.IsInt inum) (hne : inum ≠ -1) (hlen : name.strlen < maxFileName) :
    Entered (fillEntry m base i name inum) base n name' inum' ↔
      (name' = name ∧ inum' = inum) ∨ Entered m base n name' inum' := by
  constructor
  · exact Entered.of_fillEntry hint hlen
  · rintro (⟨rfl, rfl⟩ | ⟨j, hj, hnames, hinum⟩)
    · have hinum : dInumber (fillEntry m base i name' inum') base i = inum' :=
        dInumber_fillEntry hint
      refine ⟨i, hi, ⟨?_, holdsAt_fillEntry hlen⟩, hinum⟩
      rw [Live, hinum]
      exact hne
    · have hji : j ≠ i := by
        rintro rfl
        exact hdead hnames.1
      have hsame : SameEntry (fillEntry m base i name inum) m base j := sameEntry_fillEntry hji
      exact ⟨j, hj, hsame.names_iff.mpr hnames, hsame.dInumber_eq.trans hinum⟩

/-- Clearing the entry of a name makes this name, and no other, unknown. -/
theorem entered_clearEntry {name' : CString} (h : Wf m base n) (hi : i < n)
    (hname : Names m base i name) :
    Entered (clearEntry m base i) base n name' inum ↔
      name' ≠ name ∧ Entered m base n name' inum := by
  constructor
  · rintro ⟨j, hj, hnames, hinum⟩
    have hji : j ≠ i := by
      rintro rfl
      exact not_live_clearEntry hnames.1
    have hsame : SameEntry (clearEntry m base i) m base j := sameEntry_clearEntry hji
    have hold := hsame.names_iff.mp hnames
    refine ⟨?_, j, hj, hold, hsame.dInumber_eq.symm.trans hinum⟩
    rintro rfl
    exact hji (h.distinct j hj i hi name' hold hname)
  · rintro ⟨hne, j, hj, hnames, hinum⟩
    have hji : j ≠ i := by
      rintro rfl
      exact hne (hnames.unique hname)
    have hsame : SameEntry (clearEntry m base i) m base j := sameEntry_clearEntry hji
    exact ⟨j, hj, hsame.names_iff.mpr hnames, hsame.dInumber_eq.trans hinum⟩

/-! ### Two directories with the same names -/

/-- The same names are entered for the same inodes in the same entries of both. -/
structure Alike (m m' : Memory) (base n : ℕ) : Prop where
  inumber : ∀ i < n, dInumber m' base i = dInumber m base i
  names : ∀ i < n, Live m base i → ∀ name, Names m' base i name ↔ Names m base i name

namespace Alike

theorem refl (m : Memory) (base n : ℕ) : Alike m m base n := ⟨fun _ _ => rfl, fun _ _ _ _ => .rfl⟩

theorem live_iff (h : Alike m m' base n) (hi : i < n) : Live m' base i ↔ Live m base i := by
  rw [Live, Live, h.inumber i hi]

theorem names_iff (h : Alike m m' base n) (hi : i < n) :
    Names m' base i name ↔ Names m base i name := by
  constructor
  · intro hnames
    exact (h.names i hi ((h.live_iff hi).mp hnames.1) name).mp hnames
  · intro hnames
    exact (h.names i hi hnames.1 name).mpr hnames

/-- Entries that are as they were in both stay alike. -/
private theorem of_sameEntry {m₁ m₁' : Memory} (h : Alike m m' base n) (hi : i < n)
    (hm : SameEntry m₁ m base i) (hm' : SameEntry m₁' m' base i) :
    dInumber m₁' base i = dInumber m₁ base i ∧
      ∀ name, Names m₁' base i name ↔ Names m₁ base i name := by
  refine ⟨?_, fun name => ?_⟩
  · rw [hm'.dInumber_eq, h.inumber i hi, hm.dInumber_eq]
  · rw [hm'.names_iff, h.names_iff hi, hm.names_iff]

theorem of_agreeOn {m₁ m₁' : Memory} (h : Alike m m' base n)
    (hm : m₁.AgreeOn m base (dirEntrySize * n)) (hm' : m₁'.AgreeOn m' base (dirEntrySize * n)) :
    Alike m₁ m₁' base n := by
  have hentry : ∀ i < n, _ := fun i hi =>
    h.of_sameEntry hi (sameEntry_of_agreeOn hm hi) (sameEntry_of_agreeOn hm' hi)
  exact ⟨fun i hi => (hentry i hi).1, fun i hi _ => (hentry i hi).2⟩

/-- Both get the same new name. -/
theorem fillEntry (h : Alike m m' base n) (hint : Memory.IsInt inum)
    (hlen : name.strlen < maxFileName) :
    Alike (fillEntry m base i name inum) (fillEntry m' base i name inum) base n := by
  have hsame : ∀ {m : Memory} {j : ℕ}, j ≠ i →
      SameEntry (Directory.fillEntry m base i name inum) m base j := sameEntry_fillEntry
  have hother : ∀ j < n, j ≠ i → _ := fun j hj hji => h.of_sameEntry hj (hsame hji) (hsame hji)
  refine ⟨fun j hj => ?_, fun j hj hlive sub => ?_⟩
  · by_cases hji : j = i
    · subst hji
      rw [dInumber_fillEntry hint, dInumber_fillEntry hint]
    · exact (hother j hj hji).1
  · by_cases hji : j = i
    · subst hji
      have hlive' : Live (Directory.fillEntry m' base j name inum) base j := by
        rw [Live, dInumber_fillEntry hint]
        rwa [Live, dInumber_fillEntry hint] at hlive
      -- both entries hold the name, and no other
      constructor
      · intro hnames
        obtain rfl := hnames.2.unique (holdsAt_fillEntry hlen)
        exact ⟨hlive, holdsAt_fillEntry hlen⟩
      · intro hnames
        obtain rfl := hnames.2.unique (holdsAt_fillEntry hlen)
        exact ⟨hlive', holdsAt_fillEntry hlen⟩
    · exact (hother j hj hji).2 sub

/-- The same entry is cleared in both. -/
theorem clearEntry (h : Alike m m' base n) :
    Alike (clearEntry m base i) (clearEntry m' base i) base n := by
  have hother : ∀ j < n, j ≠ i → _ := fun j hj hji =>
    h.of_sameEntry hj (sameEntry_clearEntry hji) (sameEntry_clearEntry hji)
  refine ⟨fun j hj => ?_, fun j hj hlive sub => ?_⟩
  · by_cases hji : j = i
    · subst hji
      rw [dInumber_clearEntry, dInumber_clearEntry]
    · exact (hother j hj hji).1
  · have hji : j ≠ i := by
      rintro rfl
      exact not_live_clearEntry hlive
    exact (hother j hj hji).2 sub

theorem findEntry_eq (h : Alike m m' base n) (hwf : Wf m base n) (hwf' : Wf m' base n) :
    findEntry m' base n name = findEntry m base n name := by
  apply Option.ext
  intro i
  rw [hwf'.findEntry_eq_some, hwf.findEntry_eq_some]
  exact and_congr_right fun hi => h.names_iff hi

theorem freeEntry_eq (h : Alike m m' base n) : freeEntry m' base n = freeEntry m base n := by
  apply Option.ext
  intro i
  rw [freeEntry_eq_some, freeEntry_eq_some]
  constructor
  · rintro ⟨hdead, hi, hbelow⟩
    exact ⟨mt (h.live_iff hi).mpr hdead, hi, fun j hj =>
      (h.live_iff (hj.trans hi)).mp (hbelow j hj)⟩
  · rintro ⟨hdead, hi, hbelow⟩
    exact ⟨mt (h.live_iff hi).mp hdead, hi, fun j hj =>
      (h.live_iff (hj.trans hi)).mpr (hbelow j hj)⟩

end Alike

theorem freeEntry_congr (hm : m.AgreeOn m' base (dirEntrySize * n)) :
    freeEntry m base n = freeEntry m' base n :=
  ((Alike.refl m' base n).of_agreeOn (fun _ _ _ => rfl) hm).freeEntry_eq

/-- The same entry filled in two memories that agree. -/
theorem fillEntry_congr {a len : ℕ} (hm : m.AgreeOn m' a len) :
    (fillEntry m base i name inum).AgreeOn (fillEntry m' base i name inum) a len := by
  unfold fillEntry CString.strncpy Memory.putInt
  exact (hm.memcpy.memcpy).memcpy

/-- The same entry cleared in two memories that agree. -/
theorem clearEntry_congr {a len : ℕ} (hm : m.AgreeOn m' a len) :
    (clearEntry m base i).AgreeOn (clearEntry m' base i) a len := by
  unfold clearEntry Memory.putInt
  exact hm.memcpy.memcpy

end TfsBroker.Directory
