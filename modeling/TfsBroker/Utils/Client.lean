import TfsBroker.Protocol.Requests

/-!
# What the clients have in common (`utils/client.c`)

Every client registers with the broker and then works on a pipe of its own. The texts are those
that the clients print.
-/

namespace TfsBroker.Utils

open Protocol Copy

/-- The bytes of a text of the program. -/
def bytesOf (s : String) : List UInt8 := s.toUTF8.data.toList

/-- A text of the program as a string in memory. -/
def text (s : String) : CString := Wire.ofArray (bytesOf s)

/-- `PIPE_CREATE_ERR_MSG`. -/
def pipeCreateErrMsg (pipeName : CString) : List UInt8 :=
  bytesOf "ERROR: Failed creating pipe " ++ pipeName.bytes ++ bytesOf "\n"

/-- `PIPE_DELETE_ERR_MSG`. -/
def pipeDeleteErrMsg (pipeName : CString) : List UInt8 :=
  bytesOf "ERROR: Failed deleting pipe " ++ pipeName.bytes ++ bytesOf "\n"

/-- `PIPE_PARTIAL_RW_ERR_MSG`. -/
def pipePartialRwErrMsg (pipeName : CString) : List UInt8 :=
  bytesOf "ERROR: Partial read/write in pipe " ++ pipeName.bytes ++ bytesOf "\n"

/-- `INVALID_OP_ERR_MSG`. -/
def invalidOpErrMsg : List UInt8 :=
  bytesOf "ERROR: Pipe closed by mbroker, operation was invalid\n"

/-- `SIGINT_MSG`. -/
def sigintMsg : List UInt8 := bytesOf "SIGINT received, closing session\n"

/-- The exit status of a client, and what it has printed. -/
structure Exit where
  status : ℕ
  stdout : List UInt8
  stderr : List UInt8
  deriving DecidableEq

/-- The end of a client: it removes its pipe, if `unlinks`. -/
def Exit.unlink (pipeName : CString) (unlinks : Bool) (exit : Exit) : Exit :=
  if unlinks then exit
  else { exit with status := 1, stderr := exit.stderr ++ pipeDeleteErrMsg pipeName }

/-- `connect_to_mbroker`, when the pipes can be opened and the request is written whole: the request,
at the address `req` in the memory `m`. -/
def connectToMbroker (m : Memory) (req : ℕ) (pipeName : CString) (boxName : Option CString)
    (opCode : UInt8) : List UInt8 :=
  Memory.slice (store m (registrationRequestInit req opCode pipeName boxName)) req
    registrationRequestSize

end TfsBroker.Utils
