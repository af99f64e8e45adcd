import TfsBroker.Mbroker.Listing
import TfsBroker.Mbroker.Names
import TfsBroker.Protocol.Responses

/-!
# A session of a manager (`manager/manager.c`)

A manager makes one request, reads the answer and prints it. `main` compares its third argument with
`create`, `delete` and `list`; the usage text has `remove` in place of `delete`. A request is handled
while no other is.

## Main results

* `createDeleteBox_managerResponse` — what a manager prints for a response
-/

namespace TfsBroker.Manager

open Mbroker Protocol Utils Wire

/-! ### The client -/

/-- What `main` does with its arguments. -/
inductive Call
  | printUsage
  | createDeleteBox (opCode : UInt8) (boxName : CString)
  | listBoxes
  deriving DecidableEq

/-- `main`; `none` when it compares an argument that is not there. -/
def main (argv : List CString) : Option Call :=
  argv[3]?.map fun command =>
    if (argv.length < 5 ∧ command ≠ text "list") ∨ argv[1]? = some (text "--help") then .printUsage
    else if command = text "create" then .createDeleteBox 3 (argv.getD 4 .empty)
    else if command = text "delete" then .createDeleteBox 5 (argv.getD 4 .empty)
    else if command = text "list" then .listBoxes
    else .printUsage

/-- `print_usage`. -/
def usage : List UInt8 :=
  bytesOf ("usage: \n" ++
    "manager <register_pipe_name> <pipe_name> create <box_name>\n" ++
    "manager <register_pipe_name> <pipe_name> remove <box_name>\n" ++
    "manager <register_pipe_name> <pipe_name> list\n")

/-- `create_delete_box` behind its call of `connect_to_mbroker`, when `read` returns the bytes of
`response`; `none` when it prints beyond the end of them. -/
def createDeleteBox (pipeName : CString) (unlinks : Bool) (response : Option (List UInt8)) :
    Option Exit :=
  match response with
  | none => some ⟨1, [], pipePartialRwErrMsg pipeName⟩
  | some response =>
    if response.length ≠ managerResponseSize then some ⟨1, [], pipePartialRwErrMsg pipeName⟩
    else if retCodeIn response = -1 then
      (errorMessageIn response).map fun message =>
        Exit.unlink pipeName unlinks ⟨0, [], bytesOf "ERR " ++ message.bytes⟩
    else some (Exit.unlink pipeName unlinks ⟨0, bytesOf "OK\n", []⟩)

/-- What `list_boxes` prints on `stdout`. -/
def stdout : Line → List UInt8
  | .noBoxesFound => bytesOf "NO BOXES FOUND\n"
  | .pipeError => []
  | .box name boxSize nPublishers nSubscribers =>
    name.bytes ++ bytesOf (" " ++ toString boxSize ++ " " ++ toString nPublishers ++ " " ++
      toString nSubscribers ++ "\n")

/-- What `list_boxes` prints on `stderr`. -/
def stderr (pipeName : CString) : Line → List UInt8
  | .pipeError => pipeCreateErrMsg pipeName
  | .noBoxesFound | .box _ _ _ _ => []

/-- `list_boxes` behind its call of `connect_to_mbroker`. -/
def listBoxes (qsort : List ListManagerResponse → List ListManagerResponse) (pipeName : CString)
    (unlinks : Bool) (stream : List UInt8) : Option Exit :=
  (Mbroker.listBoxes qsort stream).map fun lines =>
    Exit.unlink pipeName unlinks ⟨0, lines.flatMap stdout, lines.flatMap (stderr pipeName)⟩

/-! ### The broker -/

/-- `requests_handler`, for the requests that managers make: what it puts into the pipe of the
client. The response stands at the address `resp` in the memory `m`. -/
def requestsHandler (m : Memory) (resp : ℕ) (x : Broker) (req : RegistrationRequest) :
    Option (List UInt8 × Broker) :=
  if req.opCode = 3 ∨ req.opCode = 5 then
    (handleManager x req.opCode.toNat req.boxName).map fun (r, x) => (managerResponse m resp r, x)
  else if req.opCode = 7 then (handleList x fun _ => .whole).map fun stream => (stream, x)
  else none

/-! ### One invocation -/

/-- What a user asks for. -/
inductive Command
  | create (n : BoxName)
  | delete (n : BoxName)
  | list

/-- A manager that is started. Its request is at the address `req` in its memory, and the response of
the broker at the address `resp` in that of the thread that serves it. -/
structure Invocation where
  command : Command
  registerPipe : CString
  pipeName : CString
  client : Memory
  req : ℕ
  server : Memory
  resp : ℕ
  registerPipe_ne : registerPipe ≠ text "--help"
  pipeName_fits : pipeName.strlen < pipePathnameLength

/-- The arguments of the manager. -/
def Invocation.argv (i : Invocation) : List CString :=
  [text "manager", i.registerPipe, i.pipeName] ++
    match i.command with
    | .create n => [text "create", n.name]
    | .delete n => [text "delete", n.name]
    | .list => [text "list"]

/-- A manager from its start to its end: it registers with the broker, which handles the request. It
can remove its pipe. -/
def invoke (qsort : List ListManagerResponse → List ListManagerResponse) (x : Broker)
    (i : Invocation) : Option (Exit × Broker) :=
  (main i.argv).bind fun call =>
    match call with
    | .printUsage => some (⟨1, [], usage⟩, x)
    | .createDeleteBox opCode boxName =>
      let frame := connectToMbroker i.client i.req i.pipeName (some boxName) opCode
      (requestsHandler i.server i.resp x (.ofBytes frame)).bind fun (response, x) =>
        (createDeleteBox i.pipeName true (some response)).map fun exit => (exit, x)
    | .listBoxes =>
      let frame := connectToMbroker i.client i.req i.pipeName none 7
      (requestsHandler i.server i.resp x (.ofBytes frame)).bind fun (stream, x) =>
        (listBoxes qsort i.pipeName true stream).map fun exit => (exit, x)

/-! ### What a manager prints -/

variable {m : Memory} {resp : ℕ} {r : ManagerResponse} {pipeName : CString}

/-- A manager prints the text of the error, or that there was none. -/
theorem createDeleteBox_managerResponse (hcode : r.retCode = 0 ∨ r.retCode = -1)
    (htext : (text r.errorMessage).strlen < errMessageLength) :
    createDeleteBox pipeName true (some (managerResponse m resp r)) =
      some (if r.retCode = -1 then ⟨0, [], bytesOf "ERR " ++ (text r.errorMessage).bytes⟩
        else ⟨0, bytesOf "OK\n", []⟩) := by
  have hint : Memory.IsInt r.retCode := by
    unfold Memory.IsInt
    omega
  have hlength : ¬ (managerResponse m resp r).length ≠ managerResponseSize :=
    not_not.mpr length_managerResponse
  unfold createDeleteBox
  dsimp only
  rw [if_neg hlength, retCodeIn_managerResponse hint, errorMessageIn_managerResponse htext]
  split <;> rfl

/-- The broker reads the names that the manager was given. -/
theorem ofBytes_connectToMbroker (i : Invocation) {boxName : Option CString} {opCode : UInt8}
    (h : (nameOr boxName).strlen < boxNameLength) :
    RegistrationRequest.ofBytes (connectToMbroker i.client i.req i.pipeName boxName opCode) =
      ⟨opCode, i.pipeName, nameOr boxName⟩ :=
  ofBytes_registrationRequest i.pipeName_fits h

theorem main_argv (i : Invocation) : main i.argv =
    some (match i.command with
      | .create n => .createDeleteBox 3 n.name
      | .delete n => .createDeleteBox 5 n.name
      | .list => .listBoxes) := by
  have hdelete : text "delete" ≠ text "create" := by decide
  have hlist : text "list" ≠ text "create" ∧ text "list" ≠ text "delete" := by decide
  have hhelp := i.registerPipe_ne
  unfold main Invocation.argv
  cases i.command <;> simp [hdelete, hlist, hhelp]

end TfsBroker.Manager
