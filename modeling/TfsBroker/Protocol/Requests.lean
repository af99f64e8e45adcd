import TfsBroker.Lib.Copies
import TfsBroker.Lib.Wire
import TfsBroker.Mbroker.Box

/-!
# The requests of the clients (`protocol/requests.c`)

Both requests are packed structures, and a function that fills one is the list of the
copies it makes, in the order of the source. `registration_request_init` copies the two
names into adjacent arrays whatever their lengths are, and terminates the arrays
afterwards; `publisher_request_init` copies no more than the message and its terminator.

## Main results

* `registrationRequestInit_box` — what stands in the array of the box name
* `registration_encoded` — when the request holds the truncated names
-/

namespace TfsBroker.Protocol

open Mbroker (boxNameLength messageLength)
open Wire Copy

/-- `PIPE_PATHNAME_LENGTH`. -/
def pipePathnameLength : ℕ := 256

/-- The offset of `pipe_name` in a `registration_request_t`. -/
def pipeNameOffset : ℕ := 1

/-- The offset of `box_name` in a `registration_request_t`. -/
def boxNameOffset : ℕ := pipeNameOffset + pipePathnameLength

/-- `sizeof(registration_request_t)`. -/
def registrationRequestSize : ℕ := boxNameOffset + boxNameLength

/-- The copies that `registration_request_init` makes into the request at the address
`req`. It always returns 0: `strcpy` does not fail. -/
def registrationRequestInit (req : ℕ) (opCode : UInt8) (pipeName : CString)
    (boxName : Option CString) : List Copy :=
  [memset req 0 registrationRequestSize, put req opCode, strcpy (req + pipeNameOffset) pipeName] ++
    (match boxName with
    | some boxName =>
      [strcpy (req + boxNameOffset) boxName, put (req + boxNameOffset + (boxNameLength - 1)) 0]
    | none => []) ++
    [put (req + pipeNameOffset + (pipePathnameLength - 1)) 0]

/-- `registration_request_t`, as the broker reads it. -/
structure RegistrationRequest where
  opCode : UInt8
  pipeName : CString
  boxName : CString
  deriving DecidableEq

/-- The request that some bytes hold. -/
def RegistrationRequest.ofBytes (bytes : List UInt8) : RegistrationRequest where
  opCode := bytes.headD 0
  pipeName := ofArray ((bytes.drop pipeNameOffset).take pipePathnameLength)
  boxName := ofArray ((bytes.drop boxNameOffset).take boxNameLength)

/-- `PUBLISH_OP_CODE`. -/
def publishOpCode : UInt8 := 9

/-- The offset of `message` in a `publisher_request_t`. -/
def messageOffset : ℕ := 1

/-- `sizeof(publisher_request_t)`. -/
def publisherRequestSize : ℕ := messageOffset + messageLength

/-- The copies that `publisher_request_init` makes into the request at the address `req`. -/
def publisherRequestInit (req : ℕ) (message : CString) : List Copy :=
  [put req publishOpCode, strcpy (req + messageOffset) message]

/-! ### What the request should hold -/

variable {m : Memory} {req : ℕ} {opCode : UInt8} {pipeName : CString} {boxName : Option CString}

/-- The box name that a client without one is taken to have given. -/
def nameOr (boxName : Option CString) : CString := boxName.getD .empty

/-- The request holds the op code and the two names, each cut off to leave room for its
terminator and padded with zeros, and nothing outside it was written. -/
structure Encodes (copies : List Copy) (req : ℕ) (opCode : UInt8) (pipeName : CString)
    (boxName : Option CString) : Prop where
  inside : ∀ c ∈ copies, c.Within req registrationRequestSize
  bytes : ∀ m, Memory.slice (store m copies) req registrationRequestSize =
    opCode :: (toArray pipePathnameLength (pipeName.truncate (pipePathnameLength - 1)) ++
      toArray boxNameLength ((nameOr boxName).truncate (boxNameLength - 1)))
  decoded : ∀ m, RegistrationRequest.ofBytes
      (Memory.slice (store m copies) req registrationRequestSize) =
    ⟨opCode, pipeName.truncate (pipePathnameLength - 1),
      (nameOr boxName).truncate (boxNameLength - 1)⟩

/-- The names are short enough: `pipe_name` may run over the end of its array by its
terminator, or by what `box_name` overwrites. -/
def Short (pipeName : CString) : Option CString → Prop
  | none => pipeName.strlen ≤ pipePathnameLength
  | some boxName => boxName.strlen < boxNameLength ∧
      pipeName.strlen < pipePathnameLength + boxNameLength ∧
      pipeName.strlen ≤ pipePathnameLength + (boxName.strlen + 1)

/-! ### The bytes of the request -/

/-- What the two copies before those of the box name leave behind `op_code`. -/
theorem store_pipeName {k : ℕ} (hk : k < pipePathnameLength + boxNameLength) :
    store m [memset req 0 registrationRequestSize, put req opCode,
      strcpy (req + pipeNameOffset) pipeName] (req + pipeNameOffset + k) = pipeName.byteAt k := by
  simp only [store_cons, store_nil, apply_strcpy, apply_put, apply_memset,
    registrationRequestSize, boxNameOffset, pipeNameOffset] at *
  by_cases hlen : k ≤ pipeName.strlen
  · rw [if_pos (by omega)]
    congr 1
    omega
  · rw [if_neg (by omega), if_neg (by omega), if_pos (by omega), CString.byteAt_of_ge (by omega)]

/-- The copies of the box name are behind the array of the pipe name. -/
private theorem store_boxName_beside {x : ℕ} (hx : x < req + boxNameOffset) :
    store m (match boxName with
      | some boxName =>
        [strcpy (req + boxNameOffset) boxName, put (req + boxNameOffset + (boxNameLength - 1)) 0]
      | none => []) x = m x := by
  refine store_of_beside fun c hc => ?_
  cases boxName with
  | none => cases hc
  | some name =>
    have hmem : c = strcpy (req + boxNameOffset) name ∨
        c = put (req + boxNameOffset + (boxNameLength - 1)) 0 := by simpa using hc
    rcases hmem with rfl | rfl
    · exact .inl hx
    · exact .inl (hx.trans_le (Nat.le_add_right _ _))

/-- The array of the pipe name is right whatever the names are. -/
theorem registrationRequestInit_pipe {k : ℕ} (hk : k < pipePathnameLength) :
    store m (registrationRequestInit req opCode pipeName boxName) (req + pipeNameOffset + k) =
      (pipeName.truncate (pipePathnameLength - 1)).byteAt k := by
  unfold registrationRequestInit
  rw [store_append, store_append, store_cons, store_nil, apply_put, CString.byteAt_truncate]
  by_cases hlast : k = pipePathnameLength - 1
  · rw [if_pos (by omega), if_neg (by omega)]
  · rw [if_neg (by omega), if_pos (by omega),
      store_boxName_beside (by unfold boxNameOffset; omega), store_pipeName (by omega)]

/-- The byte `k` of the array of the box name. What the pipe name left there stays unless
the box name covers it. -/
def boxByte (pipeName : CString) : Option CString → ℕ → UInt8
  | none, k => pipeName.byteAt (pipePathnameLength + k)
  | some boxName, k =>
    if k = boxNameLength - 1 then 0
    else if k ≤ boxName.strlen then boxName.byteAt k
    else pipeName.byteAt (pipePathnameLength + k)

theorem registrationRequestInit_box {k : ℕ} (hk : k < boxNameLength) :
    store m (registrationRequestInit req opCode pipeName boxName) (req + boxNameOffset + k) =
      boxByte pipeName boxName k := by
  have hlast : req + boxNameOffset + k ≠ req + pipeNameOffset + (pipePathnameLength - 1) := by
    simp only [boxNameOffset, pipePathnameLength]
    omega
  have hpipe : req + boxNameOffset + k = req + pipeNameOffset + (pipePathnameLength + k) := by
    unfold boxNameOffset
    omega
  unfold registrationRequestInit
  rw [store_append, store_append, store_cons, store_nil, apply_put, if_neg hlast]
  cases boxName with
  | none => rw [store_nil, hpipe, store_pipeName (by omega), boxByte]
  | some name =>
    rw [store_cons, store_cons, store_nil, apply_put, apply_strcpy, boxByte]
    by_cases hend : k = boxNameLength - 1
    · rw [if_pos (by omega), if_pos hend]
    rw [if_neg (by omega), if_neg hend]
    by_cases hlen : k ≤ name.strlen
    · rw [if_pos (by omega), if_pos hlen, Nat.add_sub_cancel_left]
    · rw [if_neg (by omega), if_neg hlen, hpipe, store_pipeName (by omega)]

theorem registrationRequestInit_opCode :
    store m (registrationRequestInit req opCode pipeName boxName) req = opCode := by
  have hoff : 0 < pipeNameOffset := Nat.one_pos
  unfold registrationRequestInit
  rw [store_append, store_append, store_cons, store_nil, apply_put, if_neg (by omega),
    store_boxName_beside (by unfold boxNameOffset; omega), store_cons, store_cons, store_cons,
    store_nil, apply_strcpy, if_neg (by omega), apply_put, if_pos rfl]

/-- All copies are inside the request when neither name is longer than what is left of it. -/
theorem registrationRequestInit_within :
    (∀ c ∈ registrationRequestInit req opCode pipeName boxName,
      c.Within req registrationRequestSize) ↔
    pipeName.strlen < pipePathnameLength + boxNameLength ∧
      ∀ name ∈ boxName, name.strlen < boxNameLength := by
  have hstr : ∀ s : CString, s.terminated.length = s.strlen + 1 := fun s =>
    CString.length_terminated
  cases boxName <;>
    simp only [registrationRequestInit, List.cons_append, List.nil_append, List.forall_mem_cons,
      Within, memset, put, strcpy, hstr, List.length_replicate, List.length_singleton,
      registrationRequestSize, boxNameOffset, pipeNameOffset, pipePathnameLength, boxNameLength,
      Option.mem_def, Option.some.injEq, forall_eq', reduceCtorEq, false_implies, implies_true,
      List.not_mem_nil, and_true] <;>
    omega

/-- The whole request, as its three fields. -/
theorem slice_request : Memory.slice m req registrationRequestSize =
    m req :: (Memory.slice m (req + pipeNameOffset) pipePathnameLength ++
      Memory.slice m (req + boxNameOffset) boxNameLength) := by
  have hsize : registrationRequestSize = 1 + (pipePathnameLength + boxNameLength) := rfl
  rw [hsize, Memory.slice_add, Memory.slice_add]
  rfl

/-- An array holds a string and zeros exactly if each of its bytes is that of the string. -/
theorem slice_eq_toArray {a n : ℕ} {s : CString} (h : s.strlen ≤ n) :
    Memory.slice m a n = toArray n s ↔ ∀ k < n, m (a + k) = s.byteAt k := by
  rw [toArray_eq_map h, Memory.slice, List.map_inj_left]
  simp only [List.mem_range]

/-- The request holds the truncated box name exactly if nothing of the pipe name is left
behind it. -/
theorem boxByte_eq_iff : (∀ k < boxNameLength, boxByte pipeName boxName k =
      ((nameOr boxName).truncate (boxNameLength - 1)).byteAt k) ↔
    match boxName with
    | none => pipeName.strlen ≤ pipePathnameLength
    | some name => boxNameLength ≤ name.strlen + 2 ∨
        pipeName.strlen ≤ pipePathnameLength + (name.strlen + 1) := by
  have hsize : boxNameLength = 32 := rfl
  cases boxName with
  | none =>
    have hempty : ∀ k, ((nameOr none).truncate (boxNameLength - 1)).byteAt k = 0 := by
      intro k
      rw [CString.byteAt_truncate]
      exact ite_self 0
    simp only [boxByte, hempty, CString.byteAt_eq_zero]
    constructor
    · intro h
      exact h 0 (by decide)
    · intro h k _
      omega
  | some name =>
    simp only [boxByte, nameOr, Option.getD_some, CString.byteAt_truncate, hsize]
    constructor
    · -- the byte behind the terminator of the box name
      intro h
      by_contra hnot
      push Not at hnot
      have hbyte := h (name.strlen + 1) (by omega)
      rw [if_neg (by omega), if_neg (by omega), if_pos (by omega),
        CString.byteAt_of_ge (Nat.le_succ _), CString.byteAt_eq_zero] at hbyte
      omega
    · intro h k hk
      by_cases hend : k = 31
      · rw [if_pos hend, if_neg (by omega)]
      have hk' : k < 32 - 1 := by omega
      rw [if_neg hend, if_pos hk']
      split
      · rfl
      · rw [CString.byteAt_of_ge (by omega), CString.byteAt_of_ge (by omega)]

/-- What was said of the bytes of the two arrays, for the request. -/
private theorem slice_iff : Memory.slice (store m (registrationRequestInit req opCode pipeName
      boxName)) req registrationRequestSize =
      opCode :: (toArray pipePathnameLength (pipeName.truncate (pipePathnameLength - 1)) ++
        toArray boxNameLength ((nameOr boxName).truncate (boxNameLength - 1))) ↔
    ∀ k < boxNameLength, boxByte pipeName boxName k =
      ((nameOr boxName).truncate (boxNameLength - 1)).byteAt k := by
  have hfits : ∀ (n : ℕ) (s : CString), (s.truncate (n - 1)).strlen ≤ n := by
    intro n s
    rw [CString.strlen_truncate]
    omega
  have hpipe : Memory.slice (store m (registrationRequestInit req opCode pipeName boxName))
      (req + pipeNameOffset) pipePathnameLength =
      toArray pipePathnameLength (pipeName.truncate (pipePathnameLength - 1)) :=
    (slice_eq_toArray (hfits _ _)).mpr fun k hk => registrationRequestInit_pipe hk
  rw [slice_request, hpipe, registrationRequestInit_opCode, List.cons_inj_right,
    List.append_cancel_left_eq, slice_eq_toArray (hfits _ _)]
  exact forall₂_congr fun k hk => by rw [registrationRequestInit_box hk]

/-- A request that holds the two arrays is read as the names in them. -/
theorem ofBytes_request {p b : CString} (hp : p.strlen ≤ pipePathnameLength)
    (hb : b.strlen ≤ boxNameLength) :
    RegistrationRequest.ofBytes (opCode :: (toArray pipePathnameLength p ++
      toArray boxNameLength b)) = ⟨opCode, p, b⟩ := by
  have hlen := length_toArray hp
  have hlen' := length_toArray hb
  have hdrop : (opCode :: (toArray pipePathnameLength p ++ toArray boxNameLength b)).drop
      boxNameOffset = toArray boxNameLength b := by
    have hoff : boxNameOffset = pipePathnameLength + 1 := rfl
    rw [hoff, List.drop_succ_cons, List.drop_left' hlen]
  have hpipe : ((opCode :: (toArray pipePathnameLength p ++ toArray boxNameLength b)).drop
      pipeNameOffset).take pipePathnameLength = toArray pipePathnameLength p := by
    rw [pipeNameOffset, List.drop_succ_cons, List.drop_zero, List.take_left' hlen]
  unfold RegistrationRequest.ofBytes
  rw [hdrop, hpipe, List.take_of_length_le hlen'.le, ofArray_toArray, ofArray_toArray]
  rfl

/-- `registration_request_init` stays inside the request and encodes the truncated names
exactly if the names are short enough. -/
theorem registration_encoded (req : ℕ) (opCode : UInt8) (pipeName : CString)
    (boxName : Option CString) :
    Encodes (registrationRequestInit req opCode pipeName boxName) req opCode pipeName boxName ↔
      Short pipeName boxName := by
  have hshort : Short pipeName boxName ↔ (pipeName.strlen < pipePathnameLength + boxNameLength ∧
      ∀ name ∈ boxName, name.strlen < boxNameLength) ∧
      match boxName with
      | none => pipeName.strlen ≤ pipePathnameLength
      | some name => boxNameLength ≤ name.strlen + 2 ∨
          pipeName.strlen ≤ pipePathnameLength + (name.strlen + 1) := by
    have hsize : 0 < boxNameLength := by decide
    cases boxName with
    | none =>
      simp only [Short, Option.mem_def, reduceCtorEq, false_implies, implies_true, and_true]
      omega
    | some name =>
      simp only [Short, Option.mem_def, Option.some.injEq, forall_eq']
      omega
  have hwithin : (∀ c ∈ registrationRequestInit req opCode pipeName boxName,
      c.Within req registrationRequestSize) ↔ _ := registrationRequestInit_within
  rw [hshort, ← boxByte_eq_iff, ← hwithin]
  constructor
  · intro h
    exact ⟨h.inside, slice_iff.mp (h.bytes fun _ => 0)⟩
  · rintro ⟨hinside, hbytes⟩
    have hslice : ∀ m, Memory.slice (store m (registrationRequestInit req opCode pipeName boxName))
        req registrationRequestSize = _ := fun m => slice_iff.mpr hbytes
    refine ⟨hinside, hslice, fun m => ?_⟩
    rw [hslice m]
    refine ofBytes_request ?_ ?_ <;> rw [CString.strlen_truncate] <;> omega

/-- The broker reads the names that a client has given, when they fit their arrays. -/
theorem ofBytes_registrationRequest (hp : pipeName.strlen < pipePathnameLength)
    (hb : (nameOr boxName).strlen < boxNameLength) :
    RegistrationRequest.ofBytes (Memory.slice (store m (registrationRequestInit req opCode pipeName
      boxName)) req registrationRequestSize) = ⟨opCode, pipeName, nameOr boxName⟩ := by
  have hp' := CString.truncate_of_le (Nat.le_sub_one_of_lt hp)
  have hb' := CString.truncate_of_le (Nat.le_sub_one_of_lt hb)
  have hbytes : Memory.slice (store m (registrationRequestInit req opCode pipeName boxName)) req
      registrationRequestSize = opCode :: (toArray pipePathnameLength pipeName ++
        toArray boxNameLength (nameOr boxName)) := by
    rw [slice_iff.mpr (boxByte_eq_iff.mpr ?_), hp', hb']
    cases boxName with
    | none => exact hp.le
    | some name => exact .inr (hp.le.trans (Nat.le_add_right _ _))
  rw [hbytes]
  exact ofBytes_request hp.le hb.le

/-! ### The request of the publisher -/

section Publisher

variable {message : CString}

theorem publisherRequestInit_opCode :
    store m (publisherRequestInit req message) req = publishOpCode := by
  have hoff : 0 < messageOffset := Nat.one_pos
  unfold publisherRequestInit
  rw [store_cons, store_cons, store_nil, apply_strcpy, if_neg (by omega), apply_put, if_pos rfl]

/-- Behind the terminator of the message the request stays as it was. -/
theorem publisherRequestInit_message {k : ℕ} :
    store m (publisherRequestInit req message) (req + messageOffset + k) =
      if k ≤ message.strlen then message.byteAt k else m (req + messageOffset + k) := by
  have hoff : 0 < messageOffset := Nat.one_pos
  unfold publisherRequestInit
  rw [store_cons, store_cons, store_nil, apply_strcpy]
  by_cases hk : k ≤ message.strlen
  · rw [if_pos (by omega), if_pos hk, Nat.add_sub_cancel_left]
  · rw [if_neg (by omega), if_neg hk, apply_put, if_neg (by omega)]

/-- The whole request, as its two fields. -/
theorem slice_publisherRequest : Memory.slice m req publisherRequestSize =
    m req :: Memory.slice m (req + messageOffset) messageLength := by
  have hop : Memory.slice m req messageOffset = [m req] := rfl
  rw [publisherRequestSize, Memory.slice_add, hop, List.singleton_append]

theorem holdsAt_publisherRequestInit (h : message.strlen < messageLength) :
    CString.HoldsAt (store m (publisherRequestInit req message)) (req + messageOffset)
      messageLength message :=
  ⟨h, fun _ hi => publisherRequestInit_message.trans (if_pos hi)⟩

end Publisher

/-! ### Names that are too long -/

/-- A pipe name of two bytes. -/
private def pipeAb : CString := ⟨[97, 98], by decide⟩

/-- A name of `n` bytes. -/
def longName (n : ℕ) : CString := ⟨List.replicate n 97, by simp [List.mem_replicate]⟩

theorem strlen_longName (n : ℕ) : (longName n).strlen = n := List.length_replicate

/-- The terminator of a box name of 32 bytes is written behind the request; and without a
box name, a pipe name of 257 bytes leaves its last byte in the array of the box name. -/
theorem registration_overflows :
    ¬ Encodes (registrationRequestInit 0 1 pipeAb (some (longName 32))) 0 1 pipeAb
        (some (longName 32)) ∧
    ¬ Encodes (registrationRequestInit 0 7 (longName 257) none) 0 7 (longName 257) none := by
  constructor
  · intro h
    have hlen := (registrationRequestInit_within.mp h.inside).2 _ rfl
    rw [strlen_longName] at hlen
    exact absurd hlen (by decide)
  · intro h
    have hlen : (longName 257).strlen ≤ pipePathnameLength :=
      boxByte_eq_iff.mp (slice_iff.mp (h.bytes fun _ => 0))
    rw [strlen_longName] at hlen
    exact absurd hlen (by decide)

end TfsBroker.Protocol
