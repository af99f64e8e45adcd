import TfsBroker.Lib.Wire
import TfsBroker.Mbroker.Box

/-!
# Listing the boxes (`handle_list`, and `list_boxes` of the manager)

The broker sends a packed structure for each box and closes the pipe; the manager reads
structures until one has its flag set or the pipe is closed, sorts them by name and prints
them. Here the stream is what the broker has put into the pipe when it closes it.

## Main results

* `handleList_eq` — the stream of the broker
* `readBoxes_listing` — what the manager reads from it
* `listing_exact` — what the manager prints
-/

namespace TfsBroker.Mbroker

open Wire

/-! ### The response -/

/-- `list_manager_response_t`. -/
structure ListManagerResponse where
  opCode : ℕ
  lastFlag : ℕ
  boxName : CString
  boxSize : ℕ
  nPublishers : ℕ
  nSubscribers : ℕ
  deriving DecidableEq

/-- `LIST_MANAGER_OP`. -/
def listManagerOp : ℕ := 8

/-- `list_manager_response_init`; `none` when the name is copied beyond its array. It
always returns 0. -/
def listManagerResponseInit (lastFlag : ℕ) (boxName : CString)
    (boxSize nPublishers nSubscribers : ℕ) : Option ListManagerResponse :=
  if boxName.strlen < boxNameLength then
    some ⟨listManagerOp, lastFlag, boxName, boxSize, nPublishers, nSubscribers⟩
  else none

/-- `sizeof(list_manager_response_t)`. -/
def listManagerResponseSize : ℕ := 58

namespace ListManagerResponse

/-- The bytes of a response. -/
def toBytes (resp : ListManagerResponse) : List UInt8 :=
  Wire.toBytes 1 resp.opCode ++ (Wire.toBytes 1 resp.lastFlag ++
    (toArray boxNameLength resp.boxName ++ (Wire.toBytes 8 resp.boxSize ++
      (Wire.toBytes 8 resp.nPublishers ++ Wire.toBytes 8 resp.nSubscribers))))

/-- The response that some bytes hold. -/
def ofBytes (bytes : List UInt8) : ListManagerResponse where
  opCode := Wire.ofBytes (bytes.take 1)
  lastFlag := Wire.ofBytes ((bytes.drop 1).take 1)
  boxName := ofArray ((bytes.drop 2).take boxNameLength)
  boxSize := Wire.ofBytes ((bytes.drop 34).take 8)
  nPublishers := Wire.ofBytes ((bytes.drop 42).take 8)
  nSubscribers := Wire.ofBytes ((bytes.drop 50).take 8)

/-- The numbers are in the ranges of their fields, and the name is in its array with its
terminator. -/
structure Fits (resp : ListManagerResponse) : Prop where
  opCode : resp.opCode < 256
  lastFlag : resp.lastFlag < 256
  boxName : resp.boxName.strlen < boxNameLength
  boxSize : resp.boxSize < sizeRange
  nPublishers : resp.nPublishers < sizeRange
  nSubscribers : resp.nSubscribers < sizeRange

end ListManagerResponse

/-! ### The broker -/

/-- What `write` does with a response. -/
inductive Written
  /-- It writes all of it. -/
  | whole
  /-- It writes the first bytes. -/
  | part (n : ℕ)
  /-- It fails: the pipe is closed. -/
  | closed
  /-- It fails otherwise. -/
  | failed
  deriving DecidableEq

/-- The bytes that come into the pipe. -/
def Written.sent (bytes : List UInt8) : Written → List UInt8
  | whole => bytes
  | part n => bytes.take n
  | closed | failed => []

/-- `list_manager_response_send`. It takes a failure with another `errno` than `EPIPE` for
a success. -/
def listManagerResponseSend : Written → ℤ
  | .whole | .failed => 0
  | .part _ => -2
  | .closed => -1

/-- The loop of `handle_list` from the slots `is` on, when `j` boxes have been sent; `write`
tells what each call of `write` does. -/
def listLoop (m : Broker) (write : ℤ → Written) : List ℕ → ℤ → Option (List UInt8)
  | [], _ => some []
  | i :: is, j =>
    if j = m.boxCount then some []
    else
      let box := m.mbrokerBoxes i
      if box.allocState = .USED then
        let last := if j + 1 = m.boxCount then 1 else 0
        (listManagerResponseInit last box.name box.size box.nPublishers box.nSubscribers).bind
          fun resp =>
            if listManagerResponseSend (write j) ≠ 0 then some ((write j).sent resp.toBytes)
            else (listLoop m write is (j + 1)).map ((write j).sent resp.toBytes ++ ·)
      else listLoop m write is j

/-- `handle_list` once the pipe of the client is open: what it puts into the pipe. -/
def handleList (m : Broker) (write : ℤ → Written) : Option (List UInt8) :=
  listLoop m write (List.range boxCountMax) 0

/-! ### The manager -/

/-- A line that `list_boxes` prints. -/
inductive Line
  /-- `NO BOXES FOUND`. -/
  | noBoxesFound
  /-- The error for a response that was not read as a whole. -/
  | pipeError
  | box (name : CString) (boxSize nPublishers nSubscribers : ℕ)
  deriving DecidableEq

/-- The reading loop of `list_boxes`: what it prints, and the responses in `boxes`. There
is room for `room` more; `none` when one is stored beyond the end. -/
def readBoxes : ℕ → List UInt8 → Option (List Line × List ListManagerResponse)
  | room, stream =>
    let read := stream.take listManagerResponseSize
    if read.length = 0 then some ([.noBoxesFound], [])
    else if read.length ≠ listManagerResponseSize then some ([.pipeError], [])
    else
      let listResp := ListManagerResponse.ofBytes read
      match room with
      | 0 => none
      | room + 1 =>
        if listResp.lastFlag = 1 then some ([], [listResp])
        else
          (readBoxes room (stream.drop listManagerResponseSize)).map fun (lines, boxes) =>
            (lines, listResp :: boxes)

/-- `cmpstr`. -/
def cmpstr (a b : ListManagerResponse) : ℤ := a.boxName.strcmp b.boxName

/-- What `list_boxes` prints of a box. -/
def boxLine (resp : ListManagerResponse) : Line :=
  .box resp.boxName.tail resp.boxSize resp.nPublishers resp.nSubscribers

/-- `list_boxes` once the pipe is open: what it prints, up to the end of the loop over
`boxes`. -/
def listBoxes (qsort : List ListManagerResponse → List ListManagerResponse)
    (stream : List UInt8) : Option (List Line) :=
  (readBoxes boxCountMax stream).map fun (lines, boxes) => lines ++ (qsort boxes).map boxLine

/-! ### What a listing is -/

/-- The boxes in use, in the order of their slots. -/
def usedBoxes (m : Broker) : List Box :=
  ((List.range boxCountMax).map m.mbrokerBoxes).filter fun box => box.allocState = .USED

/-- The response for a box. -/
def frame (last : ℕ) (box : Box) : ListManagerResponse :=
  ⟨listManagerOp, last, box.name, box.size, box.nPublishers, box.nSubscribers⟩

/-- The responses for some boxes, the last one flagged. -/
def listing : List Box → List ListManagerResponse
  | [] => []
  | box :: boxes => frame (if boxes = [] then 1 else 0) box :: listing boxes

/-- The name of a box is in its array with its terminator, and its numbers are in the
ranges of their types. -/
structure Box.Fits (box : Box) : Prop where
  name : box.name.strlen < boxNameLength
  size : box.size < sizeRange
  nPublishers : box.nPublishers < sizeRange
  nSubscribers : box.nSubscribers < sizeRange

/-- What libc promises of `qsort` with `cmpstr`. -/
def Sorts (qsort : List ListManagerResponse → List ListManagerResponse) : Prop :=
  ∀ boxes, (qsort boxes).Perm boxes ∧ (qsort boxes).Pairwise fun a b => cmpstr a b ≤ 0

variable {m : Broker} {qsort : List ListManagerResponse → List ListManagerResponse}
  {resp : ListManagerResponse} {box : Box} {boxes : List Box} {stream : List UInt8} {last : ℕ}

@[simp] theorem length_listing : (listing boxes).length = boxes.length := by
  induction boxes with
  | nil => rfl
  | cons box boxes ih => simp [listing, ih]

@[simp] theorem listing_eq_nil : listing boxes = [] ↔ boxes = [] := by
  rw [← List.length_eq_zero_iff, length_listing, List.length_eq_zero_iff]

theorem getElem?_listing (k : ℕ) : (listing boxes)[k]? =
    boxes[k]?.map (frame (if k + 1 = boxes.length then 1 else 0)) := by
  induction boxes generalizing k with
  | nil => rfl
  | cons box boxes ih =>
    cases k with
    | zero => simp [listing]
    | succ k => simp [listing, ih]

/-! ### The bytes of a response -/

namespace ListManagerResponse

theorem length_toBytes (h : resp.boxName.strlen < boxNameLength) :
    resp.toBytes.length = listManagerResponseSize := by
  simp only [toBytes, List.length_append, Wire.length_toBytes, length_toArray h.le]
  rfl

/-- The flag is read as it was written, whatever the numbers are. -/
theorem lastFlag_ofBytes (h : resp.lastFlag < 256) :
    (ofBytes resp.toBytes).lastFlag = resp.lastFlag := by
  have hdrop : ∀ rest, (Wire.toBytes 1 resp.opCode ++ rest).drop 1 = rest := fun rest =>
    List.drop_left' Wire.length_toBytes
  have htake : ∀ rest, (Wire.toBytes 1 resp.lastFlag ++ rest).take 1 =
      Wire.toBytes 1 resp.lastFlag := fun rest => List.take_left' Wire.length_toBytes
  have hone : resp.lastFlag < 256 ^ 1 := by rwa [pow_one]
  simp only [ofBytes, toBytes, hdrop, htake, Wire.ofBytes_toBytes hone]

/-- A response is read as it was written. -/
theorem ofBytes_toBytes (h : resp.Fits) : ofBytes resp.toBytes = resp := by
  have hname : (toArray boxNameLength resp.boxName).length = 32 := length_toArray h.boxName.le
  have hrange : sizeRange = 256 ^ 8 := by norm_num [sizeRange]
  obtain ⟨hop, hlast, -, hsize, hpub, hsub⟩ := h
  rw [hrange] at hsize hpub hsub
  cases resp with
  | mk opCode lastFlag boxName boxSize nPublishers nSubscribers =>
    simp only [toBytes, ofBytes, List.take_append, List.drop_append, Wire.length_toBytes, hname,
      boxNameLength] at *
    simp [List.take_of_length_le, List.drop_of_length_le, hname, Wire.ofBytes_toBytes, hop, hlast,
      Wire.ofBytes_toBytes hsize, Wire.ofBytes_toBytes hpub, Wire.ofBytes_toBytes hsub]

end ListManagerResponse

theorem Box.Fits.frame (h : box.Fits) (hlast : last = 0 ∨ last = 1) :
    (frame last box).Fits where
  opCode := Nat.lt_of_sub_eq_succ rfl
  lastFlag := by
    show last < 256
    omega
  boxName := h.name
  boxSize := h.size
  nPublishers := h.nPublishers
  nSubscribers := h.nSubscribers

/-! ### The broker -/

theorem listManagerResponseInit_eq (last : ℕ) (h : box.name.strlen < boxNameLength) :
    listManagerResponseInit last box.name box.size box.nPublishers box.nSubscribers =
      some (frame last box) := if_pos h

/-- The loop sends a response for each box in use from its slot on. -/
theorem listLoop_eq {is : List ℕ} {j : ℤ} (hfits : ∀ i ∈ is, (m.mbrokerBoxes i).allocState = .USED →
      (m.mbrokerBoxes i).name.strlen < boxNameLength)
    (hboxes : boxes = (is.map m.mbrokerBoxes).filter fun box => box.allocState = .USED)
    (hcount : j + boxes.length = m.boxCount) :
    listLoop m (fun _ => .whole) is j =
      some ((listing boxes).flatMap ListManagerResponse.toBytes) := by
  induction is generalizing j boxes with
  | nil =>
    rw [hboxes]
    rfl
  | cons i is ih =>
    have hrest : ∀ k ∈ is, (m.mbrokerBoxes k).allocState = .USED →
        (m.mbrokerBoxes k).name.strlen < boxNameLength :=
      fun k hk => hfits k (List.mem_cons_of_mem _ hk)
    unfold listLoop
    split
    · -- all boxes have been sent, so none is left
      rename_i hdone
      have hnil : boxes = [] := List.length_eq_zero_iff.mp (by omega)
      rw [hnil]
      rfl
    rename_i hmore
    dsimp only
    split
    · rename_i hused
      rw [List.map_cons, List.filter_cons_of_pos (by simpa using hused)] at hboxes
      subst hboxes
      rw [List.length_cons] at hcount
      have hinit := listManagerResponseInit_eq (if j + 1 = m.boxCount then 1 else 0)
        (hfits i List.mem_cons_self hused)
      have hloop := ih hrest rfl (j := j + 1) (by push_cast at hcount; omega)
      have hlast : j + 1 = m.boxCount ↔
          (is.map m.mbrokerBoxes).filter (fun box => box.allocState = .USED) = [] := by
        rw [← List.length_eq_zero_iff]
        push_cast at hcount
        omega
      rw [hinit, Option.bind_some, hloop]
      simp only [listing, List.flatMap_cons, hlast]
      rfl
    · rename_i hfree
      refine ih hrest ?_ hcount
      rw [hboxes, List.map_cons, List.filter_cons_of_neg (by simpa using hfree)]

/-- `handle_list` puts the listing of the boxes in use into the pipe. -/
theorem handleList_eq (hcount : m.boxCount = (usedBoxes m).length)
    (hfits : ∀ box ∈ usedBoxes m, box.Fits) : handleList m (fun _ => .whole) =
      some ((listing (usedBoxes m)).flatMap ListManagerResponse.toBytes) := by
  refine listLoop_eq (fun i hi hused => ?_) rfl (by rw [hcount, zero_add])
  have hmem : m.mbrokerBoxes i ∈ usedBoxes m :=
    List.mem_filter.mpr ⟨List.mem_map_of_mem hi, by simpa using hused⟩
  exact (hfits _ hmem).name

/-! ### The manager -/

/-- One turn of the reading loop, when the pipe has a whole response. -/
theorem readBoxes_response {room : ℕ} (hname : resp.boxName.strlen < boxNameLength)
    (hlast : resp.lastFlag < 256) : readBoxes (room + 1) (resp.toBytes ++ stream) =
    if resp.lastFlag = 1 then some ([], [.ofBytes resp.toBytes])
    else (readBoxes room stream).map fun (lines, boxes) =>
      (lines, .ofBytes resp.toBytes :: boxes) := by
  have hlen := ListManagerResponse.length_toBytes hname
  have htake : (resp.toBytes ++ stream).take listManagerResponseSize = resp.toBytes :=
    List.take_left' hlen
  have hdrop : (resp.toBytes ++ stream).drop listManagerResponseSize = stream :=
    List.drop_left' hlen
  have hpos : listManagerResponseSize ≠ 0 := by decide
  rw [readBoxes]
  simp only [htake, hdrop, hlen, hpos, ListManagerResponse.lastFlag_ofBytes hlast, ne_eq,
    not_true_eq_false, if_false]

theorem readBoxes_append {room : ℕ} (h : resp.Fits) : readBoxes (room + 1) (resp.toBytes ++ stream) =
    if resp.lastFlag = 1 then some ([], [resp])
    else (readBoxes room stream).map fun (lines, boxes) => (lines, resp :: boxes) := by
  rw [readBoxes_response h.boxName h.lastFlag, ListManagerResponse.ofBytes_toBytes h]

/-- The manager reads the boxes the broker has sent, and stops after the last one. -/
theorem readBoxes_listing {room : ℕ} (hne : boxes ≠ []) (hfits : ∀ box ∈ boxes, box.Fits)
    (hroom : boxes.length ≤ room) :
    readBoxes room ((listing boxes).flatMap ListManagerResponse.toBytes) =
      some ([], listing boxes) := by
  induction boxes generalizing room with
  | nil => exact absurd rfl hne
  | cons box boxes ih =>
    obtain ⟨room, rfl⟩ : ∃ r, room = r + 1 :=
      Nat.exists_eq_add_one.mpr (hroom.trans_lt' (by simp))
    have hbox := hfits box List.mem_cons_self
    rw [listing, List.flatMap_cons]
    by_cases hlast : boxes = []
    · rw [readBoxes_append (hbox.frame (.inr (if_pos hlast)))]
      subst hlast
      rfl
    · rw [readBoxes_append (hbox.frame (.inl (if_neg hlast))), if_neg hlast,
        ih hlast (fun b hb => hfits b (List.mem_cons_of_mem _ hb)) (Nat.le_of_succ_le_succ hroom)]
      rfl

/-- The manager finds the pipe closed when the broker has sent nothing. -/
theorem readBoxes_nil (room : ℕ) : readBoxes room [] = some ([.noBoxesFound], []) := by
  cases room <;> rfl

theorem length_usedBoxes (m : Broker) : (usedBoxes m).length ≤ boxCountMax := by
  refine (List.length_filter_le _ _).trans ?_
  rw [List.length_map, List.length_range]

/-! ### The listing from end to end -/

/-- The lines for some responses: a message when there are none, else a line for each in
ascending order of their names. -/
def Printed (frames : List ListManagerResponse) (lines : List Line) : Prop :=
  (Line.noBoxesFound ∈ lines ↔ frames = []) ∧ (frames = [] → lines = [.noBoxesFound]) ∧
  (frames ≠ [] → ∃ sorted : List ListManagerResponse, sorted.Perm frames ∧
    (sorted.Pairwise fun a b => a.boxName.bytes ≤ b.boxName.bytes) ∧
    -- the names as they are printed, if all of them begin with the `'/'`
    ((∀ resp ∈ frames, ∃ n, resp.boxName = slashed n) →
      sorted.Pairwise fun a b => a.boxName.tail.bytes ≤ b.boxName.tail.bytes) ∧
    lines = sorted.map boxLine)

/-- When `box_count` is the number of the boxes in use, the broker sends one response for
each of them in the order of their slots, the last one flagged, and the manager prints each
of them once in the order of their names. -/
theorem listing_exact (hcount : m.boxCount = (usedBoxes m).length)
    (hfits : ∀ box ∈ usedBoxes m, box.Fits) (hsort : Sorts qsort) :
    ∃ frames : List ListManagerResponse, frames.length = (usedBoxes m).length ∧
      (∀ k, frames[k]? = (usedBoxes m)[k]?.map
        (frame (if k + 1 = (usedBoxes m).length then 1 else 0))) ∧
      handleList m (fun _ => .whole) = some (frames.flatMap ListManagerResponse.toBytes) ∧
      ∃ lines, listBoxes qsort (frames.flatMap ListManagerResponse.toBytes) = some lines ∧
        Printed frames lines := by
  refine ⟨listing (usedBoxes m), length_listing, getElem?_listing, handleList_eq hcount hfits, ?_⟩
  unfold listBoxes
  by_cases hnone : usedBoxes m = []
  · have hqsort : qsort [] = [] := List.perm_nil.mp (hsort []).1
    simp [hnone, listing, readBoxes_nil, hqsort, Printed]
  · rw [readBoxes_listing hnone hfits (length_usedBoxes m)]
    obtain ⟨hperm, horder⟩ := hsort (listing (usedBoxes m))
    refine ⟨_, rfl, ?_, fun hnil => absurd (listing_eq_nil.mp hnil) hnone, fun _ => ?_⟩
    · simp [boxLine, hnone]
    · have hnames := horder.imp fun {a b} hle => CString.strcmp_nonpos.mp hle
      refine ⟨_, hperm, hnames, fun hslash => ?_, rfl⟩
      refine hnames.imp_of_mem fun {a b} ha hb hle => ?_
      obtain ⟨n, hn⟩ := hslash a (hperm.mem_iff.mp ha)
      obtain ⟨k, hk⟩ := hslash b (hperm.mem_iff.mp hb)
      rw [hn, hk] at hle ⊢
      rcases List.cons_le_cons_iff.mp hle with hlt | ⟨-, hle⟩
      · exact absurd hlt (by decide)
      · exact hle

/-- A stable sort that compares with `cmpstr` is one that libc may use. -/
theorem sorts_of_mergeSort :
    Sorts fun boxes => boxes.mergeSort fun a b => decide (cmpstr a b ≤ 0) := by
  intro frames
  refine ⟨List.mergeSort_perm _ _, ?_⟩
  have hpairs : (frames.mergeSort fun a b => decide (cmpstr a b ≤ 0)).Pairwise
      fun a b => decide (cmpstr a b ≤ 0) = true := by
    refine List.pairwise_mergeSort (fun a b c hab hbc => ?_) (fun a b => ?_) frames
    · simp only [cmpstr, CString.strcmp_nonpos, decide_eq_true_eq] at *
      exact List.le_trans hab hbc
    · simp only [cmpstr, CString.strcmp_nonpos, Bool.or_eq_true, decide_eq_true_eq]
      exact List.le_total _ _
  exact hpairs.imp fun hle => of_decide_eq_true hle

/-- A sort that compares with `cmpstr`. -/
private def mergeSort (frames : List ListManagerResponse) : List ListManagerResponse :=
  frames.mergeSort fun a b => decide (cmpstr a b ≤ 0)

private theorem sorts_mergeSort : Sorts mergeSort := sorts_of_mergeSort

/-- A broker with the boxes `b` and `a` in its slots 1 and 3. -/
private def twoBoxes : Broker where
  mbrokerBoxes i :=
    if i = 1 then ⟨⟨[47, 98], by decide⟩, 1, 2, 7, false, .USED⟩
    else if i = 3 then ⟨⟨[47, 97], by decide⟩, 0, 1, 0, false, .USED⟩
    else ⟨.empty, 0, 0, 0, false, .NOT_USED⟩
  boxCount := 2
  tfs := Broker.fresh.tfs

/-- The two boxes are sent in the order of their slots and printed in that of their names. -/
theorem listing_exact_two :
    (usedBoxes twoBoxes).map (fun box => box.name.bytes) = [[47, 98], [47, 97]] ∧
    ∃ frames : List ListManagerResponse, frames.length = 2 ∧
      ∃ lines, listBoxes mergeSort (frames.flatMap ListManagerResponse.toBytes) = some lines ∧
        Printed frames lines := by
  have hused : usedBoxes twoBoxes = [twoBoxes.mbrokerBoxes 1, twoBoxes.mbrokerBoxes 3] := by
    decide +kernel
  have hcount : twoBoxes.boxCount = (usedBoxes twoBoxes).length := by rw [hused]; rfl
  have hfits : ∀ box ∈ usedBoxes twoBoxes, box.Fits := by
    intro box hbox
    rw [hused] at hbox
    rcases List.mem_cons.mp hbox with rfl | hbox
    · exact ⟨by decide, by decide, by decide, by decide⟩
    · rw [List.mem_singleton.mp hbox]
      exact ⟨by decide, by decide, by decide, by decide⟩
  obtain ⟨frames, hlen, -, -, hlines⟩ := listing_exact hcount hfits sorts_mergeSort
  rw [hused] at hlen
  exact ⟨by rw [hused]; rfl, frames, hlen, hlines⟩

end TfsBroker.Mbroker
