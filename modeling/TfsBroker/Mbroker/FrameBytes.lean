import TfsBroker.Lib.Fields
import TfsBroker.Mbroker.Box
import TfsBroker.Protocol.Requests

/-!
# What the broker reads of a frame

`main` and `handle_publisher` accept a frame if `read` gives as many bytes as the structure
has, whatever they are. Here the functions that look at the strings of a frame are given on
its bytes: `none` stands for a function that examines a byte behind the field it was given.

A path or a name in a message on `stderr` is read like any other string. `opened` tells
whether the pipe of the client could be opened.

## Main results

* `requestsHandlerIn_isSome` — when a registration request is read inside its fields
* `getBoxIn_eq` — `get_box` then finds what it finds in the table of boxes
* `writeMessage_memcpy` — what `write_message` writes
* `frames_contained` — registration requests and messages
-/

namespace TfsBroker.Mbroker

open Fs2 Fields Wire
open Protocol (registrationRequestSize publisherRequestSize pipeNameOffset boxNameOffset
  pipePathnameLength messageOffset)

/-- A registration request that `main` accepts. -/
structure RegistrationFrame where
  bytes : List UInt8
  length_eq : bytes.length = registrationRequestSize

namespace RegistrationFrame

/-- The field `op_code`. -/
def opCode (req : RegistrationFrame) : ℕ := (req.bytes.headD 0).toNat

/-- The field `pipe_name`. -/
def pipeName (req : RegistrationFrame) : List UInt8 :=
  (req.bytes.drop pipeNameOffset).take pipePathnameLength

/-- The field `box_name`. -/
def boxName (req : RegistrationFrame) : List UInt8 :=
  (req.bytes.drop boxNameOffset).take boxNameLength

end RegistrationFrame

/-- A request of a publisher that `handle_publisher` accepts. -/
structure PublisherFrame where
  bytes : List UInt8
  length_eq : bytes.length = publisherRequestSize

/-- The field `message`. -/
def PublisherFrame.message (req : PublisherFrame) : List UInt8 := req.bytes.drop messageOffset

/-- A box in memory: the bytes from `name` on. -/
structure BoxMemory where
  name : ℕ → UInt8
  allocState : BoxAllocationState

/-! ### Strings of a registration request -/

/-- The loop of `get_box`, over the slots `is`. -/
def getBoxLoop (boxes : ℕ → BoxMemory) (name : List UInt8) : List ℕ → Option (Option ℕ)
  | [] => some none
  | i :: is =>
    if (boxes i).allocState = .USED then
      match strcmpIn name fun k => (boxes i).name (k + 1) with
      | none => none
      | some true => some (some i)
      | some false => getBoxLoop boxes name is
    else getBoxLoop boxes name is

/-- `get_box`. -/
def getBoxIn (boxes : ℕ → BoxMemory) (name : List UInt8) : Option (Option ℕ) :=
  getBoxLoop boxes name (List.range boxCountMax)

/-- `get_box`, and if there is no box, a function that reads the name. -/
def getBoxOrRead (boxes : ℕ → BoxMemory) (name : List UInt8) : Option (Option ℕ) :=
  (getBoxIn boxes name).bind fun found =>
    match found with
    | some i => some (some i)
    | none => (strlenIn name).map fun _ => none

/-- `handle_publisher` up to `get_box` and the message that there is no box. -/
def handlePublisherIn (boxes : ℕ → BoxMemory) (opened : Bool) (req : RegistrationFrame) :
    Option (Option ℕ) :=
  (strlenIn req.pipeName).bind fun _ =>
    if opened then getBoxOrRead boxes req.boxName else some none

/-- `handle_subscriber` up to `get_box` and the message that there is no box. -/
def handleSubscriberIn (boxes : ℕ → BoxMemory) (opened : Bool) (req : RegistrationFrame) :
    Option (Option ℕ) :=
  (strlenIn req.pipeName).bind fun _ =>
    if opened then getBoxOrRead boxes req.boxName else some none

/-- `handle_manager`. Without a box `create_box` calls `box_initialize`, which takes the
length of the name and appends the name to the `'/'`; `delete_box` only looks for the box. -/
def handleManagerIn (boxes : ℕ → BoxMemory) (opened : Bool) (req : RegistrationFrame) :
    Option (Option ℕ) :=
  (strlenIn req.pipeName).bind fun _ =>
    if opened then
      if req.opCode = createBoxOp then getBoxOrRead boxes req.boxName
      else if req.opCode = deleteBoxOp then getBoxIn boxes req.boxName
      else some none
    else some none

/-- `handle_list`, which does not look at `box_name`. -/
def handleListIn (req : RegistrationFrame) : Option (Option ℕ) :=
  (strlenIn req.pipeName).map fun _ => none

/-- `requests_handler`: the box of the request, if it names one. -/
def requestsHandlerIn (boxes : ℕ → BoxMemory) (opened : Bool) (req : RegistrationFrame) :
    Option (Option ℕ) :=
  match req.opCode with
  | 1 => handlePublisherIn boxes opened req
  | 2 => handleSubscriberIn boxes opened req
  | 3 => handleManagerIn boxes opened req
  | 5 => handleManagerIn boxes opened req
  | 7 => handleListIn req
  | _ => some none

/-- `write_message` on the field of a request. -/
def writeMessageIn (s : State) (fd : ℤ) (message : List UInt8) : Option (Outcome (ℤ × State)) :=
  (strlenIn message).map fun _ => writeMessage s fd (ofArray message)

variable {boxes : ℕ → BoxMemory} {table : ℕ → Box} {name : List UInt8} {i : ℕ} {opened : Bool}
  {req : RegistrationFrame}

/-- The name of a box in use is the same as the field, as far as that reaches. -/
def FillsField (boxes : ℕ → BoxMemory) (name : List UInt8) (i : ℕ) : Prop :=
  (boxes i).allocState = .USED ∧ Agrees name fun k => (boxes i).name (k + 1)

/-- The strings that a request reads end in their fields; the name of a box to delete may
also differ from the names of all boxes there. -/
def Contained (boxes : ℕ → BoxMemory) (opened : Bool) (req : RegistrationFrame) : Prop :=
  req.opCode ∈ [1, 2, 3, 5, 7] → 0 ∈ req.pipeName ∧
    (opened = true → req.opCode ≠ 7 → 0 ∈ req.boxName ∨
      req.opCode = deleteBoxOp ∧ ∀ i < boxCountMax, ¬ FillsField boxes req.boxName i)

/-! ### `get_box` -/

theorem getBoxLoop_eq_none {is : List ℕ} :
    getBoxLoop boxes name is = none ↔ 0 ∉ name ∧ ∃ i ∈ is, FillsField boxes name i := by
  induction is with
  | nil => simp [getBoxLoop]
  | cons i is ih =>
    have hcons : (∃ j ∈ i :: is, FillsField boxes name j) ↔
        FillsField boxes name i ∨ ∃ j ∈ is, FillsField boxes name j := by simp
    rw [getBoxLoop, hcons]
    by_cases hused : (boxes i).allocState = .USED
    · rw [if_pos hused]
      cases hcmp : strcmpIn name fun k => (boxes i).name (k + 1) with
      | none =>
        obtain ⟨hnul, hagrees⟩ := strcmpIn_eq_none.mp hcmp
        exact iff_of_true rfl ⟨hnul, .inl ⟨hused, hagrees⟩⟩
      | some equal =>
        have hfills : 0 ∉ name → ¬ FillsField boxes name i := fun hnul hfills =>
          absurd (strcmpIn_eq_none.mpr ⟨hnul, hfills.2⟩) (by rw [hcmp]; exact Option.some_ne_none _)
        cases equal with
        | true =>
          have hmem := mem_of_strcmpIn hcmp
          exact iff_of_false (Option.some_ne_none _) fun h => h.1 hmem
        | false =>
          dsimp only
          rw [ih]
          constructor
          · rintro ⟨hnul, hrest⟩
            exact ⟨hnul, .inr hrest⟩
          · rintro ⟨hnul, hfirst | hrest⟩
            · exact absurd hfirst (hfills hnul)
            · exact ⟨hnul, hrest⟩
    · rw [if_neg hused, ih]
      have hfills : ¬ FillsField boxes name i := fun h => hused h.1
      rw [or_iff_right hfills]

theorem mem_of_getBoxLoop {is : List ℕ} (h : getBoxLoop boxes name is = some (some i)) :
    0 ∈ name := by
  induction is with
  | nil => cases h
  | cons j is ih =>
    rw [getBoxLoop] at h
    split at h
    · split at h
      · cases h
      · rename_i hcmp
        exact mem_of_strcmpIn hcmp
      · exact ih h
    · exact ih h

/-- `get_box` goes behind the field exactly if that has no NUL and the name of a box in use
fills it. -/
theorem getBoxIn_isSome : (getBoxIn boxes name).isSome = true ↔
    0 ∈ name ∨ ∀ i < boxCountMax, ¬ FillsField boxes name i := by
  have hnone : getBoxLoop boxes name (List.range boxCountMax) = none ↔ _ := getBoxLoop_eq_none
  rw [Option.isSome_iff_ne_none, getBoxIn, ne_eq, hnone, not_and_or, not_not]
  simp only [List.mem_range, not_exists, not_and]

/-- Without a NUL there is no box of the name, and the field is read to its end. -/
theorem getBoxOrRead_isSome : (getBoxOrRead boxes name).isSome = true ↔ 0 ∈ name := by
  unfold getBoxOrRead
  cases hget : getBoxIn boxes name with
  | none =>
    refine iff_of_false (by simp) fun h => ?_
    have hsome : (getBoxIn boxes name).isSome = true := getBoxIn_isSome.mpr (.inl h)
    rw [hget] at hsome
    cases hsome
  | some found =>
    cases found with
    | some i => exact iff_of_true rfl (mem_of_getBoxLoop hget)
    | none => rw [Option.bind_some, Option.isSome_map, strlenIn_isSome]

/-- The memory holds the table of boxes: a name with its terminator in the array of each
box in use. -/
structure Holds (boxes : ℕ → BoxMemory) (table : ℕ → Box) : Prop where
  allocState : ∀ i < boxCountMax, (boxes i).allocState = (table i).allocState
  name : ∀ i < boxCountMax, (table i).allocState = .USED → 0 < (table i).name.strlen ∧
    CString.HoldsAt (boxes i).name 0 boxNameLength (table i).name

/-- Inside the field, `get_box` finds the box that the table has. -/
theorem getBoxIn_eq (h : Holds boxes table) (hname : 0 ∈ name) :
    getBoxIn boxes name = some (getBox table (ofArray name)) := by
  have hloop : ∀ is : List ℕ, (∀ i ∈ is, i < boxCountMax) → getBoxLoop boxes name is =
      some (is.find? fun i => isBox (table i) (ofArray name)) := by
    intro is his
    induction is with
    | nil => rfl
    | cons i is ih =>
      have hi := his i List.mem_cons_self
      have hrest := ih fun j hj => his j (List.mem_cons_of_mem _ hj)
      rw [getBoxLoop, h.allocState i hi, List.find?_cons]
      by_cases hused : (table i).allocState = .USED
      · obtain ⟨hpos, -, hbytes⟩ := h.name i hi hused
        have htail : ∀ k ≤ (table i).name.tail.strlen,
            (boxes i).name (k + 1) = (table i).name.tail.byteAt k := by
          intro k hk
          rw [CString.strlen_tail] at hk
          have hbyte := hbytes (k + 1) (by omega)
          rw [Nat.zero_add] at hbyte
          rw [hbyte]
          simp only [CString.byteAt, CString.bytes_tail, List.getD_eq_getElem?_getD,
            List.getElem?_tail]
        rw [if_pos hused, strcmpIn_eq hname htail, isBox, hused]
        by_cases heq : (table i).name.tail = ofArray name
        · simp [heq]
        · simp [heq, Ne.symm heq, hrest]
      · have hbox : isBox (table i) (ofArray name) = false := by simp [isBox, hused]
        rw [if_neg hused, hrest, hbox]
  exact hloop _ fun i hi => List.mem_range.mp hi

/-! ### `requests_handler` -/

theorem requestsHandlerIn_isSome :
    (requestsHandlerIn boxes opened req).isSome = true ↔ Contained boxes opened req := by
  have hbind : ∀ {α : Type} {o : Option ℕ} {f : Option α},
      (o.bind fun _ => f).isSome = true ↔ o.isSome = true ∧ f.isSome = true := by
    intro α o f
    cases o <;> simp
  unfold requestsHandlerIn Contained
  split <;> rename_i hop
  · rw [handlePublisherIn, hbind, strlenIn_isSome]
    cases opened <;> simp [hop, getBoxOrRead_isSome, deleteBoxOp]
  · rw [handleSubscriberIn, hbind, strlenIn_isSome]
    cases opened <;> simp [hop, getBoxOrRead_isSome, deleteBoxOp]
  · rw [handleManagerIn, hbind, strlenIn_isSome]
    cases opened <;> simp [hop, getBoxOrRead_isSome, createBoxOp, deleteBoxOp]
  · rw [handleManagerIn, hbind, strlenIn_isSome]
    cases opened <;> simp [hop, getBoxIn_isSome, createBoxOp, deleteBoxOp]
  · rw [handleListIn, Option.isSome_map, strlenIn_isSome]
    simp [hop]
  · simp_all

/-! ### `write_message` -/

section Messages

variable {s s' : State} {fd ret : ℤ} {message : CString}

/-- A write that returns copies no more than it was asked to. -/
theorem tfsWrite_memcpy {buffer : ℕ → UInt8} {n : ℕ}
    (h : tfsWrite s fd buffer n = .ret (ret, s')) :
    ∃ a k, k ≤ n ∧ s'.fsData = s.fsData.memcpy a k buffer := by
  have hfs := toFs_tfsWrite h
  unfold Fs.tfsWrite at hfs
  split at hfs
  · obtain ⟨-, hs'⟩ := Prod.mk.inj (Outcome.ret.inj hfs)
    have hdata : s'.fsData = s.fsData := congrArg Fs.State.fsData hs'.symm
    exact ⟨0, 0, Nat.zero_le _, by rw [hdata, Memory.memcpy_zero]⟩
  split at hfs
  · cases hfs
  rcases Fs.tfsWriteBody_cases hfs with ⟨hs', -⟩ | ⟨b, -, hpos, hfits, -, hs'⟩
  · have hdata : s'.fsData = s.fsData := congrArg Fs.State.fsData hs'
    exact ⟨0, 0, Nat.zero_le _, by rw [hdata, Memory.memcpy_zero]⟩
  · have hblock := Fs.offset_add_clampWrite_le (Fs.dataSize_lt_sizeRange s.toFs) hpos
      ((Nat.add_le_add_right (Nat.le_add_left _ _) _).trans hfits)
    exact ⟨_, _, Fs.clampWrite_le hblock, congrArg Fs.State.fsData hs'⟩

/-- At most the bytes of the message are written, and one for its terminator. -/
def WritesAtMost (s s' : State) (message : CString) : Prop :=
  ∃ a n a' n', n ≤ message.strlen ∧ n' ≤ 1 ∧
    s'.fsData = (s.fsData.memcpy a n message.byteAt).memcpy a' n' fun _ => 0

theorem writeMessage_memcpy (h : writeMessage s fd message = .ret (ret, s')) :
    WritesAtMost s s' message := by
  obtain ⟨⟨r, t⟩, hwrite, h⟩ := Outcome.bind_eq_ret.mp h
  obtain ⟨a, n, hn, hdata⟩ := tfsWrite_memcpy hwrite
  dsimp only at h
  split at h
  · -- the message was cut short, and has no terminator
    obtain ⟨-, rfl⟩ := Prod.mk.inj (Outcome.ret.inj h)
    exact ⟨a, n, 0, 0, hn, Nat.zero_le _, by rw [Memory.memcpy_zero, hdata]⟩
  · obtain ⟨⟨r', u⟩, hterm, h⟩ := Outcome.bind_eq_ret.mp h
    obtain ⟨a', n', hn', hdata'⟩ := tfsWrite_memcpy hterm
    have hs' : s' = u := by
      dsimp only at h
      split at h <;> exact (Prod.mk.inj (Outcome.ret.inj h)).2.symm
    exact ⟨a, n, a', n', hn, hn', by rw [hs', hdata', hdata]⟩

theorem length_message (req : PublisherFrame) : req.message.length = messageLength := by
  rw [PublisherFrame.message, List.length_drop, req.length_eq, publisherRequestSize,
    Nat.add_sub_cancel_left]

end Messages

/-- A registration request is read inside its fields exactly if its strings end there, or the
name to delete differs from all others; a message exactly if it ends in its field, and then
at most 1023 bytes of it are written, and its terminator. -/
theorem frames_contained :
    (∀ boxes opened req, (requestsHandlerIn boxes opened req).isSome = true ↔
      Contained boxes opened req) ∧
    ∀ (s : State) (fd : ℤ) (req : PublisherFrame),
      ((writeMessageIn s fd req.message).isSome = true ↔ 0 ∈ req.message) ∧
      ∀ ret s', writeMessageIn s fd req.message = some (.ret (ret, s')) →
        (ofArray req.message).strlen ≤ messageLength - 1 ∧
          WritesAtMost s s' (ofArray req.message) := by
  refine ⟨fun boxes opened req => requestsHandlerIn_isSome, fun s fd req => ⟨?_, ?_⟩⟩
  · rw [writeMessageIn, Option.isSome_map, strlenIn_isSome]
  · intro ret s' h
    obtain ⟨n, hlen, hwrite⟩ := Option.map_eq_some_iff.mp h
    obtain ⟨hstrlen, hlt⟩ := strlenIn_eq_some hlen
    rw [length_message] at hlt
    exact ⟨by omega, writeMessage_memcpy hwrite⟩

/-- A request to create a box, with a name that fills its field. -/
private def fullNameFrame : RegistrationFrame :=
  ⟨3 :: 112 :: (List.replicate 255 0 ++ List.replicate 32 97), by decide +kernel⟩

/-- A message that fills its field. -/
private def fullMessageFrame : PublisherFrame where
  bytes := 9 :: List.replicate 1024 97
  length_eq := by
    rw [List.length_cons, List.length_replicate]
    rfl

/-- A name or a message without a NUL is read behind its field. -/
theorem full_fields_overrun :
    (¬ ∀ boxes opened req, (requestsHandlerIn boxes opened req).isSome = true) ∧
    ¬ ∀ (s : State) (fd : ℤ) (req : PublisherFrame),
      (writeMessageIn s fd req.message).isSome = true := by
  constructor
  · intro h
    have hname := h (fun _ => ⟨fun _ => 0, .NOT_USED⟩) true fullNameFrame
    have hcontained := (requestsHandlerIn_isSome.mp hname (by decide)).2 rfl (by decide)
    rcases hcontained with hmem | ⟨hop, -⟩
    · exact absurd hmem (by decide +kernel)
    · exact absurd hop (by decide)
  · intro h
    have hmessage := h (initState .zeroed mbrokerParams) 0 fullMessageFrame
    rw [writeMessageIn, Option.isSome_map, strlenIn_isSome] at hmessage
    exact absurd hmessage (by decide +kernel)

end TfsBroker.Mbroker
