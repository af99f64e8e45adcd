import TfsBroker.Fs2.Operations
import TfsBroker.Lib.Runs

/-!
# Calls of `fs2/` and their history

The history kept beside the file system identifies a file by the time of the call
that created it, since slots of the inode table are used again. It gives every slot
the file it holds, every handle the file it was opened on, and every byte of the
data area the file it was last written to. No call reads it.
-/

namespace TfsBroker.Fs2

open State Runs

/-- A call of the interface. -/
inductive Call
  | «open» (name : Option CString) (mode : ℕ)
  | close (fh : ℤ)
  | write (fh : ℤ) (buffer : ℕ → UInt8) (toWrite : UInt64)
  | read (fh : ℤ) (len : UInt64)
  | unlink (target : Option CString)

/-- What a call answers, and the state it leaves. -/
def call (s : State) : Call → Outcome (ℤ × State)
  | .open name mode => tfsOpen s name mode
  | .close fh => tfsClose s fh
  | .write fh buffer toWrite => tfsWrite s fh buffer toWrite.toNat
  | .read fh len => (tfsRead s fh len.toNat).bind fun (r, s) => .ret (r.ret, s)
  | .unlink target => tfsUnlink s target

/-- Where the bytes of the file in slot `k` start. -/
def fileAddress (s : State) (k : ℕ) : ℕ := (s.inodeTable k).iDataBlock.toNat * s.blockSize

/-- A file system and its history. A file is identified by the time of the call
that created it: `born k` for the one in slot `k`, `opened fh` for the one the
handle `fh` was opened on, `writer x` for the one whose handle last wrote the byte
at `x`. -/
structure History where
  fs : State
  time : ℕ
  born : ℕ → ℕ
  opened : ℕ → ℕ
  writer : ℕ → Option ℕ

/-- The history after a call `c` that answered `r` and led to `s'`. -/
def History.record (g : History) (c : Call) (r : ℤ) (s' : State) : History :=
  let time := g.time + 1
  -- a slot that was taken by this call holds a new file
  let born := fun k =>
    if g.fs.freeinodeTs k = .FREE ∧ s'.freeinodeTs k = .TAKEN then time else g.born k
  { fs := s'
    time := time
    born := born
    opened := fun fh =>
      if g.fs.freeOpenFileEntries fh = .FREE ∧ s'.freeOpenFileEntries fh = .TAKEN then
        born (s'.openFileTable fh).ofInumber.toNat
      else g.opened fh
    writer := fun x =>
      match c with
      | .write fh _ _ =>
        let e := g.fs.openFileTable fh.toNat
        let start := fileAddress s' e.ofInumber.toNat + e.ofOffset
        if start ≤ x ∧ x < start + r.toNat then some (g.opened fh.toNat) else g.writer x
      | _ => g.writer x }

/-- One call, if it returns. -/
def next (g : History) (c : Call) : Option History :=
  (call g.fs c).toOption.map fun (r, s') => g.record c r s'

/-- After `tfs_init`, before any call. -/
def Start (g : History) : Prop := Initialised g.fs ∧ g.writer = fun _ => none

end TfsBroker.Fs2
