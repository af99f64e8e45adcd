import TfsBroker.Utils.Client

/-!
# The responses of the broker (`protocol/response.c`)

A subscriber is sent the structure of the publisher's request, and a manager one with a return
code and a text. Both are filled with zeros first, so a response shows its own fields and nothing
that the memory held before.

## Main results

* `slice_subscriberResponse` — the bytes of a filled response
* `retCodeIn_managerResponse`, `errorMessageIn_managerResponse` — what a manager reads
-/

namespace TfsBroker.Protocol

open Mbroker (messageLength ManagerResponse)
open Utils Wire Copy

variable {m : Memory} {resp k : ℕ} {message : CString}

/-- `sizeof(subscriber_response_t)`: the structure is the one of the publisher. -/
def subscriberResponseSize : ℕ := publisherRequestSize

theorem zero_mem_toArray (h : message.strlen < k) : 0 ∈ toArray k message :=
  List.mem_append_right _ (List.mem_replicate.mpr ⟨Nat.sub_ne_zero_of_lt h, rfl⟩)

/-! ### The response to a manager -/

/-- `ERR_MESSAGE_LENGTH`. -/
def errMessageLength : ℕ := 1024

/-- The offset of `ret_code` in a `manager_response_t`. -/
def retCodeOffset : ℕ := 1

/-- The offset of `error_message` in a `manager_response_t`. -/
def errorMessageOffset : ℕ := retCodeOffset + 4

/-- `sizeof(manager_response_t)`. -/
def managerResponseSize : ℕ := errorMessageOffset + errMessageLength

/-- The copies that `manager_response_init` makes into the response at the address `resp`. It always
returns 0. -/
def managerResponseInit (resp : ℕ) (opCode : UInt8) (retCode : ℤ) (message : Option CString) :
    List Copy :=
  [memset resp 0 managerResponseSize, put resp opCode, putInt (resp + retCodeOffset) retCode] ++
    match message with
    | some message => [strcpy (resp + errorMessageOffset) message]
    | none => []

/-- The copy of `manager_response_set_error_msg`. -/
def managerResponseSetErrorMsg (resp : ℕ) (msg : CString) : List Copy :=
  [strcpy (resp + errorMessageOffset) msg]

/-- The copies that `handle_manager` makes for the response `r`: it fills the response before it
handles the request, and assigns to `ret_code` afterwards. -/
def handleManagerCopies (resp : ℕ) (r : ManagerResponse) : List Copy :=
  managerResponseInit resp (.ofNat r.opCode) 0 none ++
    (if r.errorMessage = "" then [] else managerResponseSetErrorMsg resp (text r.errorMessage)) ++
    [putInt (resp + retCodeOffset) r.retCode]

/-- The response that `handle_manager` sends. -/
def managerResponse (m : Memory) (resp : ℕ) (r : ManagerResponse) : List UInt8 :=
  Memory.slice (store m (handleManagerCopies resp r)) resp managerResponseSize

/-- The field `ret_code` of a response. -/
def retCodeIn (response : List UInt8) : ℤ :=
  Memory.getInt (fun i => response.getD i 0) retCodeOffset

/-- The string in `error_message`, for a `printf` that does not read on behind its array. -/
def errorMessageIn (response : List UInt8) : Option CString :=
  if 0 ∈ response.drop errorMessageOffset then some (ofArray (response.drop errorMessageOffset))
  else none

variable {r : ManagerResponse}

theorem length_managerResponse : (managerResponse m resp r).length = managerResponseSize :=
  Memory.slice_length

/-- Behind the return code stand the zeros, before the text of an error is copied. -/
theorem store_managerResponseInit {opCode : UInt8} (hk : k < errMessageLength) :
    store m (managerResponseInit resp opCode 0 none) (resp + errorMessageOffset + k) = 0 := by
  have hoff : errorMessageOffset = 5 := rfl
  have hcode : retCodeOffset = 1 := rfl
  have hsize : managerResponseSize = 5 + errMessageLength := rfl
  unfold managerResponseInit
  rw [List.append_nil, store_cons, store_cons, store_cons, store_nil, apply_putInt,
    if_neg (by omega), apply_put, if_neg (by omega), apply_memset, if_pos (by omega)]

theorem handleManagerCopies_message (hk : k < errMessageLength) :
    store m (handleManagerCopies resp r) (resp + errorMessageOffset + k) =
      (text r.errorMessage).byteAt k := by
  have hcode : errorMessageOffset = retCodeOffset + 4 := rfl
  unfold handleManagerCopies
  rw [store_append, store_append, store_cons, store_nil, apply_putInt, if_neg (by omega)]
  by_cases hnone : r.errorMessage = ""
  · -- without an error the array holds the zeros
    have hempty : (text "").byteAt k = 0 := CString.byteAt_of_ge (Nat.zero_le k)
    rw [if_pos hnone, store_nil, store_managerResponseInit hk, hnone, hempty]
  · rw [if_neg hnone, managerResponseSetErrorMsg, store_cons, store_nil, apply_strcpy]
    by_cases hlen : k ≤ (text r.errorMessage).strlen
    · rw [if_pos (by omega), Nat.add_sub_cancel_left]
    · rw [if_neg (by omega), store_managerResponseInit hk, CString.byteAt_of_ge (by omega)]

theorem handleManagerCopies_retCode (hk : k < 4) :
    store m (handleManagerCopies resp r) (resp + retCodeOffset + k) =
      Memory.intBytes r.retCode k := by
  unfold handleManagerCopies
  rw [store_append, store_cons, store_nil, apply_putInt, if_pos (by omega),
    Nat.add_sub_cancel_left]

theorem retCodeIn_managerResponse (h : Memory.IsInt r.retCode) :
    retCodeIn (managerResponse m resp r) = r.retCode := by
  have hsize : retCodeOffset + 4 ≤ managerResponseSize := by decide
  -- the bytes of the return code are those of an `int`
  have hagree : Memory.AgreeOn (fun i => (managerResponse m resp r).getD i 0)
      (Memory.putInt (fun _ => 0) retCodeOffset r.retCode) retCodeOffset 4 := by
    intro x hle hlt
    obtain ⟨k, rfl⟩ := Nat.exists_eq_add_of_le hle
    have hk : k < 4 := by omega
    have hint : Memory.putInt (fun _ => 0) retCodeOffset r.retCode (retCodeOffset + k) =
        Memory.intBytes r.retCode (retCodeOffset + k - retCodeOffset) :=
      Memory.memcpy_of_mem hle hlt
    have hlength : retCodeOffset + k < (managerResponse m resp r).length := by
      rw [length_managerResponse]
      omega
    have hget : (managerResponse m resp r).getD (retCodeOffset + k) 0 =
        store m (handleManagerCopies resp r) (resp + (retCodeOffset + k)) :=
      (List.getD_eq_getElem _ _ hlength).trans (Memory.getElem_slice hlength)
    refine hget.trans ?_
    rw [hint, Nat.add_sub_cancel_left, ← Nat.add_assoc, handleManagerCopies_retCode hk]
  rw [retCodeIn, hagree.getInt_eq, Memory.getInt_putInt h]

theorem errorMessageIn_managerResponse (h : (text r.errorMessage).strlen < errMessageLength) :
    errorMessageIn (managerResponse m resp r) = some (text r.errorMessage) := by
  have hdrop : (managerResponse m resp r).drop errorMessageOffset =
      toArray errMessageLength (text r.errorMessage) := by
    have hle : errorMessageOffset ≤ managerResponseSize := by decide
    have hroom : managerResponseSize - errorMessageOffset = errMessageLength := rfl
    rw [managerResponse, Memory.slice_drop hle, hroom]
    exact (slice_eq_toArray h.le).mpr fun k hk => handleManagerCopies_message hk
  rw [errorMessageIn, hdrop, if_pos (zero_mem_toArray h), ofArray_toArray]

end TfsBroker.Protocol
