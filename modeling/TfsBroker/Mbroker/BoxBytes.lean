import TfsBroker.Lib.Copies
import TfsBroker.Lib.Wire
import TfsBroker.Mbroker.UniqueNames

/-!
# The bytes of the name of a box

A client gives the name of a box in an array of `BOX_NAME_LENGTH` bytes. `box_initialize`
prepends a `'/'` in a temporary array and copies the result to the array of the box, right
behind which the counters stand; `handle_list` copies it from there to the response.

The condition, the mutex and `alloc_state` of a `box_t` stand behind the counters, and are
left out.

## Main results

* `boxInitializeTmp_within` — how long the temporary array has to be
* `strcmpEq_box` — when `get_box` finds the name, whatever the counters are
* `stays_of_assigned` — a box stays until it is deleted
* `name_registered` — what a name of each length comes to
-/

namespace TfsBroker.Mbroker

open Fs2 Runs Wire Copy

variable {m : Memory} {name : CString} {tmp box resp n i : ℕ}
  {nPublishers nSubscribers size : ℕ}

/-! ### The copies -/

/-- The string `"/"`. -/
def slash : CString := ⟨[47], by decide⟩

/-- The size of the array `tmp` of `box_initialize`. -/
def tmpSize (name : CString) : ℕ := name.strlen + 1

/-- What `box_initialize` writes to the array `tmp`. -/
def boxInitializeTmp (tmp : ℕ) (name : CString) : List Copy :=
  [put tmp 47, put (tmp + 1) 0, strcat tmp slash name]

/-- The offset of `n_publishers` in a `box_t`. -/
def nPublishersOffset : ℕ := boxNameLength

/-- The offset of `n_subscribers` in a `box_t`. -/
def nSubscribersOffset : ℕ := nPublishersOffset + 8

/-- The offset of `size` in a `box_t`. -/
def sizeOffset : ℕ := nSubscribersOffset + 8

/-- What `box_initialize` copies to `box->name`: the string that `tmp` holds. -/
def boxNameCopy (box : ℕ) (name : CString) : Copy := strcpy box (slashed name)

/-- What `box_initialize` writes. -/
def boxInitializeCopies (tmp box : ℕ) (name : CString) : List Copy :=
  memset box 0 (sizeOffset + 8) :: (boxInitializeTmp tmp name ++ [boxNameCopy box name])

/-- What sessions write to a box: its counters. -/
def counterCopies (box nPublishers nSubscribers size : ℕ) : List Copy :=
  [⟨box + nPublishersOffset, toBytes 8 nPublishers⟩,
    ⟨box + nSubscribersOffset, toBytes 8 nSubscribers⟩, ⟨box + sizeOffset, toBytes 8 size⟩]

/-- The offset of `box_name` in a `list_manager_response_t`. -/
def responseNameOffset : ℕ := 2

/-- What `list_manager_response_init` copies to the field `box_name`. -/
def responseNameCopy (resp : ℕ) (boxName : CString) : Copy :=
  strcpy (resp + responseNameOffset) boxName

/-! ### What a name should come to -/

/-- Once a request to create a box assigns it to the slot `i`, `get_box` finds a box of the
name, until a request to delete sets `alloc_state` of the slot. -/
def Stays (name : CString) : Prop :=
  ∀ (x y : Sys) (e : Turn) (i : ℕ), x.next e = some y → x.pc e.thread = .create name .closed →
    freeSlot x.broker.mbrokerBoxes = some i →
    ∀ z, Reach Sys.next (· = y) (fun x e => x.pc e.thread ≠ .delete (.unlinked i)) z →
      isBox (z.broker.mbrokerBoxes i) name = true ∧ getBox z.broker.mbrokerBoxes name ≠ none

/-- A name fits the array of its box and the field of the response, and is found. -/
structure Kept (name : CString) : Prop where
  box : ∀ box, (boxNameCopy box name).Within box boxNameLength
  response : ∀ resp,
    (responseNameCopy resp (slashed name)).Within (resp + responseNameOffset) boxNameLength
  found : ∀ m tmp box nPublishers nSubscribers size,
    CString.strcmpEq (store m (boxInitializeCopies tmp box name ++
      counterCopies box nPublishers nSubscribers size)) (box + 1) name = true
  stays : Stays name

/-- A name fits every array that it is copied to, and is found. -/
structure Registered (name : CString) : Prop extends Kept name where
  tmp : ∀ tmp, ∀ c ∈ boxInitializeTmp tmp name, c.Within tmp (tmpSize name)

/-! ### The temporary array -/

/-- The array needs room for the `'/'`, the name and the terminator. -/
theorem boxInitializeTmp_within :
    (∀ c ∈ boxInitializeTmp tmp name, c.Within tmp n) ↔ name.strlen + 2 ≤ n := by
  have hlen : (strcat tmp slash name).bytes.length = name.strlen + 1 := CString.length_terminated
  have haddr : (strcat tmp slash name).address = tmp + 1 := rfl
  simp only [boxInitializeTmp, List.forall_mem_cons, List.not_mem_nil, false_implies, implies_true,
    and_true, Within, put, List.length_singleton, hlen, haddr]
  omega

/-- The terminator is written behind the array, whatever the name is. -/
theorem not_boxInitializeTmp_within (tmp : ℕ) (name : CString) :
    ¬ ∀ c ∈ boxInitializeTmp tmp name, c.Within tmp (tmpSize name) := by
  rw [boxInitializeTmp_within, tmpSize]
  omega

/-! ### The array of the box -/

theorem strlen_slashed : (slashed name).strlen = name.strlen + 1 := rfl

theorem byteAt_slashed : (slashed name).byteAt (i + 1) = name.byteAt i := rfl

theorem strcpy_within {a : ℕ} {s : CString} : (strcpy a s).Within a n ↔ s.strlen < n := by
  have hlen : (strcpy a s).bytes.length = s.strlen + 1 := CString.length_terminated
  have haddr : (strcpy a s).address = a := rfl
  unfold Within
  rw [hlen, haddr]
  omega

/-- The name behind the `'/'`, in a new box. -/
theorem store_boxInitialize (h : i ≤ name.strlen) :
    store m (boxInitializeCopies tmp box name) (box + 1 + i) = name.byteAt i := by
  have hslot : box ≤ box + 1 + i ∧ box + 1 + i ≤ box + (slashed name).strlen := by
    rw [strlen_slashed]
    omega
  have hindex : box + 1 + i - box = i + 1 := by omega
  rw [boxInitializeCopies, store_cons, store_append, store_cons, store_nil, boxNameCopy,
    apply_strcpy, if_pos hslot, hindex, byteAt_slashed]

/-- What stands before the counters. -/
theorem store_counterCopies_beside (h : i < nPublishersOffset) :
    store m (counterCopies box nPublishers nSubscribers size) (box + i) = m (box + i) := by
  refine store_of_beside fun c hc => .inl ?_
  simp only [counterCopies, List.mem_cons, List.not_mem_nil, or_false] at hc
  rcases hc with rfl | rfl | rfl <;> simp only [nSubscribersOffset, sizeOffset] <;> omega

/-- The first byte of the counters is that of `n_publishers`. -/
theorem store_counterCopies_first :
    store m (counterCopies box nPublishers nSubscribers size) (box + nPublishersOffset) =
      UInt8.ofNat nPublishers := by
  have hrest : ∀ m : Memory, store m [⟨box + nSubscribersOffset, toBytes 8 nSubscribers⟩,
      ⟨box + sizeOffset, toBytes 8 size⟩] (box + nPublishersOffset) =
      m (box + nPublishersOffset) := by
    intro m
    refine store_of_beside fun c hc => .inl ?_
    simp only [List.mem_cons, List.not_mem_nil, or_false] at hc
    rcases hc with rfl | rfl <;> simp only [nSubscribersOffset, sizeOffset] <;> omega
  have hfirst : (Copy.mk (box + nPublishersOffset) (toBytes 8 nPublishers)).apply m
      (box + nPublishersOffset) = (toBytes 8 nPublishers).getD (box + nPublishersOffset -
        (box + nPublishersOffset)) 0 :=
    Memory.memcpy_of_mem le_rfl (Nat.lt_add_of_pos_right (by rw [length_toBytes]; decide))
  rw [counterCopies, store_cons, hrest, hfirst, Nat.sub_self]
  rfl

/-- The comparison of `get_box` looks at the name of the box, and at the first byte behind it
if the name fills its array. -/
theorem strcmpEq_box (h : name.strlen < boxNameLength) :
    CString.strcmpEq (store m (boxInitializeCopies tmp box name ++
      counterCopies box nPublishers nSubscribers size)) (box + 1) name = true ↔
      name.strlen + 1 < boxNameLength ∨ nPublishers % 256 = 0 := by
  have hoff : nPublishersOffset = boxNameLength := rfl
  have hbyte : ∀ i ≤ name.strlen, i + 1 < boxNameLength →
      store m (boxInitializeCopies tmp box name ++
        counterCopies box nPublishers nSubscribers size) (box + 1 + i) = name.byteAt i := by
    intro i hi hlt
    rw [store_append, Nat.add_assoc, Nat.add_comm 1 i, store_counterCopies_beside (by omega),
      Nat.add_comm i 1, ← Nat.add_assoc, store_boxInitialize hi]
  rw [CString.strcmpEq_iff]
  by_cases hshort : name.strlen + 1 < boxNameLength
  · exact iff_of_true (fun i hi => hbyte i hi (by omega)) (.inl hshort)
  · -- the terminator of the name stands in `n_publishers`
    have hlast : name.strlen = boxNameLength - 1 := by omega
    have hcounter : store m (boxInitializeCopies tmp box name ++
        counterCopies box nPublishers nSubscribers size) (box + 1 + name.strlen) =
        UInt8.ofNat nPublishers := by
      have haddr : box + 1 + name.strlen = box + nPublishersOffset := by omega
      rw [haddr, store_append, store_counterCopies_first]
    have hzero : UInt8.ofNat nPublishers = 0 ↔ nPublishers % 256 = 0 := by
      rw [← UInt8.toNat_inj, UInt8.toNat_ofNat']
      rfl
    rw [or_iff_right hshort, ← hzero, ← hcounter,
      ← CString.byteAt_of_ge (s := name) (le_refl name.strlen)]
    constructor
    · intro hall
      exact hall _ le_rfl
    · intro hend i hi
      rcases hi.lt_or_eq with hlt | rfl
      · exact hbyte i hi (by omega)
      · exact hend

/-! ### The slot of the box -/

/-- Only the deletion of a box frees its slot, and no other box is assigned to it before. -/
theorem isBox_next {x y : Sys} {e : Turn} (h : isBox (x.broker.mbrokerBoxes i) name = true)
    (hok : x.pc e.thread ≠ .delete (.unlinked i)) (hnext : x.next e = some y) :
    isBox (y.broker.mbrokerBoxes i) name = true := by
  obtain ⟨r, hstep, hbroker, -⟩ := Sys.next_eq_some hnext
  rw [hbroker]
  rcases step_table hstep with ⟨n, box, -, -, -, hboxes⟩ | ⟨j, hp, -, hboxes⟩ | ⟨hsame, -⟩
  · rw [hboxes]
    rcases enterBox_cases x.broker.mbrokerBoxes box i with hold | ⟨hfree, -⟩
    · rw [hold, h]
    · have hused := (isBox_eq_true.mp h).1
      rw [(freeSlot_eq_some hfree).2] at hused
      cases hused
  · have hij : i ≠ j := fun heq => hok (heq ▸ hp)
    rw [hboxes, Function.update_of_ne hij, h]
  · rw [hsame.isBox_eq, h]

theorem stays_of_assigned (name : CString) : Stays name := by
  intro x y e i hnext hpc hfree z hz
  obtain ⟨r, hstep, hbroker, -⟩ := Sys.next_eq_some hnext
  have hentered : isBox (y.broker.mbrokerBoxes i) name = true := by
    rw [hpc] at hstep
    cases hact : e.act with
    | accept | receive | send =>
      rw [hact] at hstep
      cases hstep
    | go =>
      rw [hact] at hstep
      obtain ⟨box, hbox, rfl⟩ := Option.map_eq_some_iff.mp hstep
      obtain ⟨-, rfl⟩ := boxInitialize_eq_some hbox
      rw [hbroker]
      dsimp only [enterBox]
      rw [hfree]
      dsimp only
      rw [Function.update_self, isBox_eq_true]
      exact ⟨rfl, tail_slashed⟩
  have hbox : isBox (z.broker.mbrokerBoxes i) name = true :=
    hz.invariant (I := fun z => isBox (z.broker.mbrokerBoxes i) name = true)
      (fun s hs => by rw [hs, hentered]) fun _ _ _ h hok hnext => isBox_next h hok hnext
  refine ⟨hbox, fun hnone => ?_⟩
  rw [getBox_eq_none.mp hnone i (freeSlot_eq_some hfree).1] at hbox
  cases hbox

/-! ### Names of each length -/

/-- No name fits the temporary array; all else that is asked of a name holds exactly if it
leaves room for the `'/'` and the terminator. -/
theorem name_registered (name : CString) :
    ¬ Registered name ∧ (Kept name ↔ name.strlen + 1 < boxNameLength) := by
  constructor
  · intro h
    exact not_boxInitializeTmp_within 0 name (h.tmp 0)
  constructor
  · intro h
    exact strcpy_within.mp (h.box 0)
  · intro h
    exact {
      box := fun _ => strcpy_within.mpr h
      response := fun _ => strcpy_within.mpr h
      found := fun _ _ _ _ _ _ => (strcmpEq_box (Nat.lt_of_succ_lt h)).mpr (.inl h)
      stays := stays_of_assigned name }

/-- The terminator of `"/a"` is written behind the two bytes of its temporary array. -/
theorem short_name_overflows : ¬ Registered ⟨[97], by decide⟩ := by
  intro h
  have hlast := h.tmp 0 (strcat 0 slash ⟨[97], by decide⟩) (by simp [boxInitializeTmp])
  exact absurd hlast (by decide)

end TfsBroker.Mbroker
