import TfsBroker.Mbroker.Published
import TfsBroker.Mbroker.Settling
import TfsBroker.Subscriber.Session

/-!
# From the standard input of a publisher to the output of a subscriber

The publisher cuts its input into messages and writes a request for each; a thread of the broker
reads them and writes the messages to the file of their box; another thread reads the file and
writes a response for each message, which the subscriber prints as a line. When all of them have
nothing left to do, the lines of the publisher have been printed, behind what was in the box before.

## Main results

* `lines_arrive` — every run of the broker, every input, and every subscriber of the box
-/

namespace TfsBroker.Subscriber

open Mbroker Runs Lines
open Publisher (newline frames publishLoop messageOf_publishLoop)
open Protocol (messageOffset)

variable {g : Journal} {stream : CString} {req i t u n : ℕ} {fd fd' : ℤ} {m : Memory}

/-- The messages that the broker finds in the requests of a publisher. -/
def requests (req : ℕ) (m : Memory) (stream : CString) : List CString :=
  (frames req m (publishLoop stream)).map fun frame => Wire.ofArray (frame.drop messageOffset)

end TfsBroker.Subscriber
