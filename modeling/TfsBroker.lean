import TfsBroker.Lib.Runs
import TfsBroker.Tfs.Params
import TfsBroker.Tfs.Directory
import TfsBroker.Fs.Operations
import TfsBroker.Fs.OpenUnlink
import TfsBroker.Fs.Leaks
import TfsBroker.Fs.Handles
import TfsBroker.Fs.Failures
import TfsBroker.Fs.LinkTargets
import TfsBroker.Fs.Unlinking
import TfsBroker.Fs.Import
import TfsBroker.Fs.Observations
import TfsBroker.Pcq.Wakeup
import TfsBroker.Fs2.Incarnations
import TfsBroker.Fs2.Agreement
import TfsBroker.Fs2.Removal
import TfsBroker.Fs2.Writes
import TfsBroker.Fs2.Initialisation
import TfsBroker.Mbroker.Framing
import TfsBroker.Mbroker.Listing
import TfsBroker.Mbroker.Names
import TfsBroker.Mbroker.UniqueNames
import TfsBroker.Mbroker.Mutexes
import TfsBroker.Mbroker.Refusals
import TfsBroker.Mbroker.Counters
import TfsBroker.Mbroker.Served
import TfsBroker.Fs.LockOrder
import TfsBroker.Publisher.Session
import TfsBroker.Mbroker.BoxBytes
import TfsBroker.Mbroker.FrameBytes
import TfsBroker.Mbroker.ListingRaces
import TfsBroker.Fs2.StoredFiles
import TfsBroker.Mbroker.OpenHandles
import TfsBroker.Mbroker.Delivery
import TfsBroker.Mbroker.Settling
import TfsBroker.Pcq.Progress
import TfsBroker.Subscriber.Arrival
import TfsBroker.Manager.Transcript
import TfsBroker.Mbroker.Intake
import TfsBroker.Fs.FilesRuns
