import TfsBroker.Fs.State

/-!
# The operations of `fs/` (`fs/operations.c`)

Each operation is cut where the source drops a lock. `tfsOpenRoot` is the part
of `tfs_open` under the root directory's lock, `tfsOpenInode` the part under the
lock of the inode it found; `tfsWriteBody` and `tfsReadBody` are the parts under
the locks of the open file entry and of its inode. `tfs_link`, `tfs_sym_link`
and `tfs_unlink` run wholly under the root lock. A call made alone is the
composition of its parts (`tfsOpen`, `tfsWrite`, …).

Sizes wrap as `size_t` does. An access that leaves the data area is a `fault`.
The target of a symbolic link is copied to `buffer` at its string meaning.
-/

namespace TfsBroker.Fs

open State

/-- `tfs_init` on the uninitialised module: whether it answers 0, and the state
it leaves. -/
def tfsInit (heap : Heap) (params : TfsParams) : Bool × State :=
  let (root, s) := inodeCreate (stateInit heap params) .T_DIRECTORY
  (root = some rootDirInum, s)

/-- `tfs_lookup`. -/
def tfsLookup (s : State) (name : Option CString) (root : ℕ) : ℤ :=
  if validPathname name then
    if (s.inodeTable root).iNodeType ≠ .T_DIRECTORY then -1 else findInDir s root (subName name)
  else -1

/-- How the part of `tfs_open` under the root lock ends. -/
inductive OpenRoot
  /-- The call answers -1. -/
  | failed
  /-- The name was found; the root lock is dropped. -/
  | found (inum : ℕ)
  /-- A new file was entered in the directory. -/
  | created (inum : ℕ)
  deriving DecidableEq

/-- `tfs_open` up to the point where it drops the root lock. -/
def tfsOpenRoot (s : State) (name : Option CString) (mode : ℕ) : Outcome (OpenRoot × State) :=
  if validPathname name then
    match inodeGet s rootDirInum with
    | none => .ret (.failed, s)
    | some root =>
      let inum := tfsLookup s name root
      if 0 ≤ inum then .ret (.found inum.toNat, s)
      else if hasFlag mode tfsOCreat then
        match inodeCreate s .T_FILE with
        | (none, s) => .ret (.failed, s)
        | (some inum, s) =>
          (addDirEntry s root (subName name) inum).bind fun
            | none => .ret (.failed, (inodeDelete s inum).getD s)
            | some s => .ret (.created inum, s)
      else .ret (.failed, s)
  else .ret (.failed, s)

/-- How the part of `tfs_open` under the lock of the inode found ends. -/
inductive OpenInode
  /-- The call answers -1. -/
  | failed
  /-- The inode is a symbolic link; the call goes on with its target. -/
  | follow (target : CString)
  /-- The file is to be opened at this offset. -/
  | opened (offset : ℕ)
  deriving DecidableEq

/-- The truncation of `tfs_open`. -/
def truncate (s : State) (k : ℕ) : State :=
  let s := dataBlockFree s (s.inodeTable k).iDataBlock
  s.setInode k { s.inodeTable k with iSize := 0 }

/-- `tfs_open` from the lock of the inode found to its release. -/
def tfsOpenInode (s : State) (inum : ℕ) (mode : ℕ) : Outcome (OpenInode × State) :=
  match inodeGet s inum with
  | none => .abort
  | some k =>
    if (s.inodeTable k).iNodeType = .T_LINK then
      if hasFlag mode tfsOCreat then .ret (.failed, s)
      else
        match dataBlockGet s (s.inodeTable k).iDataBlock with
        | none => .fault
        | some a =>
          match CString.strAt s.fsData a (s.dataSize - a) with
          | none => .fault
          | some target => .ret (.follow target, s)
    else
      let s := if hasFlag mode tfsOTrunc && 0 < (s.inodeTable k).iSize then truncate s k else s
      let offset := if hasFlag mode tfsOAppend then (s.inodeTable k).iSize else 0
      .ret (.opened offset, s)

/-- The last statement of `tfs_open`: enter the file in the open file table. -/
def tfsOpenRegister (s : State) (inum : ℕ) (offset : ℕ) : ℤ × State :=
  match addToOpenFileTable s inum offset with
  | none => (-1, s)
  | some (fh, s) => (fh, s)

/-- `tfs_open`, following at most `depth` symbolic links. -/
def tfsOpen (s : State) (name : Option CString) (mode : ℕ) : ℕ → Outcome (ℤ × State)
  | 0 => .deep
  | depth + 1 =>
    (tfsOpenRoot s name mode).bind fun
      | (.failed, s) => .ret (-1, s)
      | (.created inum, s) => .ret (tfsOpenRegister s inum 0)
      | (.found inum, s) =>
        (tfsOpenInode s inum mode).bind fun
          | (.failed, s) => .ret (-1, s)
          | (.follow target, s) => tfsOpen s (some target) mode depth
          | (.opened offset, s) => .ret (tfsOpenRegister s inum offset)

/-- How an operation that runs under the root lock ends: its answer, the inode
whose lock it takes on the way, and whether it returns without unlocking. -/
structure RootExit where
  ret : ℤ
  locked : Option ℕ := none
  keepsLocks : Bool := false
  deriving DecidableEq

/-- `tfs_sym_link`. -/
def tfsSymLink (s : State) (target linkName : Option CString) : Outcome (RootExit × State) :=
  if validPathname linkName then
    match inodeGet s rootDirInum with
    | none => .fault
    | some root =>
      if tfsLookup s target root = -1 then .ret ({ ret := -1 }, s)
      else if tfsLookup s linkName root ≠ -1 then .ret ({ ret := -1 }, s)
      else
        match inodeCreate s .T_LINK with
        | (none, s) => .ret ({ ret := -1 }, s)
        | (some newInum, s) =>
          match dataBlockAlloc s with
          | none => .ret ({ ret := -1 }, (inodeDelete s newInum).getD s)
          | some (newBnum, s) =>
            match dataBlockGet s newBnum, target with
            | some a, some target =>
              if a + (target.strlen + 1) ≤ s.dataSize then
                let s := { s with fsData := s.fsData.memcpy a (target.strlen + 1) target.byteAt }
                let s := s.setInode newInum { s.inodeTable newInum with iDataBlock := newBnum }
                (addDirEntry s root (subName linkName) newInum).bind fun
                  | none => .ret ({ ret := -1 }, (inodeDelete s newInum).getD s)
                  | some s => .ret ({ ret := 0 }, s)
              else .fault
            | _, _ => .fault
  else .ret ({ ret := -1 }, s)

/-- `tfs_link`. -/
def tfsLink (s : State) (target linkName : Option CString) : Outcome (RootExit × State) :=
  if validPathname linkName then
    match inodeGet s rootDirInum with
    | none => .fault
    | some root =>
      let targetInumber := tfsLookup s target root
      if targetInumber = -1 then .ret ({ ret := -1 }, s)
      else if tfsLookup s linkName root ≠ -1 then .ret ({ ret := -1 }, s)
      else
        match inodeGet s targetInumber with
        | none => .fault
        | some k =>
          if (s.inodeTable k).iNodeType = .T_LINK then .ret ({ ret := -1, locked := some k }, s)
          else
            (addDirEntry s root (subName linkName) targetInumber).bind fun
              | none => .ret ({ ret := -1, locked := some k }, s)
              | some s =>
                let count := ((s.inodeTable k).iLinksCount + 1) % 4294967296
                .ret ({ ret := 0, locked := some k },
                  s.setInode k { s.inodeTable k with iLinksCount := count })
  else .ret ({ ret := -1 }, s)

/-- `tfs_unlink`. When `inode_delete` fails it returns with both locks held. -/
def tfsUnlink (s : State) (target : Option CString) : Outcome (RootExit × State) :=
  match inodeGet s rootDirInum with
  | none => .fault
  | some root =>
    let targetInum := tfsLookup s target root
    if targetInum = -1 then .ret ({ ret := -1 }, s)
    else
      match inodeGet s targetInum with
      | none => .fault
      | some k =>
        if (s.inodeTable k).iNodeType ≠ .T_LINK && isInOpenFileTable s targetInum then
          .ret ({ ret := -1 }, s)
        else
          (clearDirEntry s root (subName target)).bind fun
            | none => .ret ({ ret := -1 }, s)
            | some s =>
              if (s.inodeTable k).iLinksCount = 1 then
                match inodeDelete s targetInum with
                | none => .ret ({ ret := -1, locked := some k, keepsLocks := true }, s)
                | some s => .ret ({ ret := 0, locked := some k }, s)
              else
                let count := ((s.inodeTable k).iLinksCount + 4294967295) % 4294967296
                .ret ({ ret := 0, locked := some k },
                  s.setInode k { s.inodeTable k with iLinksCount := count })

/-- `tfs_close`. -/
def tfsClose (s : State) (fh : ℤ) : ℤ × State :=
  match getOpenFileEntry s fh with
  | none => (-1, s)
  | some _ => (0, (removeFromOpenFileTable s fh).getD s)

/-- `tfs_write` under the locks of the entry `fh` and of the inode `k`. -/
def tfsWriteBody (s : State) (fh k : ℕ) (buffer : ℕ → UInt8) (toWrite : ℕ) :
    Outcome (ℤ × State) :=
  let offset := (s.openFileTable fh).ofOffset
  let toWrite := clampWrite s.blockSize offset toWrite
  if 0 < toWrite then
    let alloc :=
      if (s.inodeTable k).iSize = 0 then
        (dataBlockAlloc s).map fun (b, s) => s.setInode k { s.inodeTable k with iDataBlock := b }
      else some s
    match alloc with
    | none => .ret (-1, s)
    | some s =>
      match dataBlockGet s (s.inodeTable k).iDataBlock with
      | none => .ret (-1, s)
      | some a =>
        if a + offset + toWrite ≤ s.dataSize then
          let s := { s with fsData := s.fsData.memcpy (a + offset) toWrite buffer }
          let offset := (offset + toWrite) % sizeRange
          let s := s.setEntry fh { s.openFileTable fh with ofOffset := offset }
          let s :=
            if (s.inodeTable k).iSize < offset then
              s.setInode k { s.inodeTable k with iSize := offset }
            else s
          .ret (toWrite, s)
        else .fault
  else .ret (0, s)

/-- `tfs_write`. -/
def tfsWrite (s : State) (fh : ℤ) (buffer : ℕ → UInt8) (toWrite : ℕ) : Outcome (ℤ × State) :=
  match getOpenFileEntry s fh with
  | none => .ret (-1, s)
  | some file =>
    match inodeGet s (s.openFileTable file).ofInumber with
    | none => .fault
    | some k => tfsWriteBody s file k buffer toWrite

/-- `tfs_read` under the locks of the entry `fh` and of the inode `k`. -/
def tfsReadBody (s : State) (fh k len : ℕ) : Outcome (ReadResult × State) :=
  let offset := (s.openFileTable fh).ofOffset
  let toRead := clampRead (s.inodeTable k).iSize offset len
  if 0 < toRead then
    match dataBlockGet s (s.inodeTable k).iDataBlock with
    | none => .ret (⟨-1, []⟩, s)
    | some a =>
      if a + offset + toRead ≤ s.dataSize then
        .ret (⟨toRead, s.fsData.slice (a + offset) toRead⟩,
          s.setEntry fh { s.openFileTable fh with ofOffset := (offset + toRead) % sizeRange })
      else .fault
  else .ret (⟨0, []⟩, s)

/-- `tfs_read`. -/
def tfsRead (s : State) (fh : ℤ) (len : ℕ) : Outcome (ReadResult × State) :=
  match getOpenFileEntry s fh with
  | none => .ret (⟨-1, []⟩, s)
  | some file =>
    match inodeGet s (s.openFileTable file).ofInumber with
    | none => .fault
    | some k => tfsReadBody s file k len

/-- A file outside the file system, once it is open: what `fread` gets from it,
and whether `fclose` succeeds. -/
structure ExternalFile where
  contents : List UInt8
  closes : Bool

/-- `tfs_copy_from_external_fs`; `source` is `none` when `fopen` fails. After a
failing `fclose` the handle stays open. -/
def tfsCopyFromExternalFs (s : State) (source : Option ExternalFile) (destPath : Option CString)
    (depth : ℕ) : Outcome (ℤ × State) :=
  match source with
  | none => .ret (-1, s)
  | some file =>
    let buffer := file.contents.take (s.blockSize + 1)
    let bytesRead := buffer.length
    if s.blockSize < bytesRead then .ret (-1, s)
    else
      (tfsOpen s destPath (tfsOTrunc ||| tfsOCreat) depth).bind fun (fd, s) =>
        if fd = -1 then .ret (-1, s)
        else
          (tfsWrite s fd (fun i => buffer.getD i 0) bytesRead).bind fun (bytesSize, s) =>
            if bytesSize = -1 then .ret (-1, (tfsClose s fd).2)
            else if !file.closes then .ret (-1, s)
            else .ret ((if (tfsClose s fd).1 = -1 then -1 else 0), (tfsClose s fd).2)

/-! ### Calls made one at a time -/

/-- A call of the interface. -/
inductive Call
  | «open» (name : Option CString) (mode depth : ℕ)
  | close (fh : ℤ)
  | write (fh : ℤ) (buffer : ℕ → UInt8) (toWrite : UInt64)
  | read (fh : ℤ) (len : UInt64)
  | link (target linkName : Option CString)
  | symLink (target linkName : Option CString)
  | unlink (target : Option CString)
  | copyFromExternalFs (source : Option ExternalFile) (destPath : Option CString) (depth : ℕ)

/-- The state after a call made alone, if it returns. -/
def next (s : State) : Call → Option State
  | .open name mode depth => (tfsOpen s name mode depth).toOption.map Prod.snd
  | .close fh => some (tfsClose s fh).2
  | .write fh buffer toWrite => (tfsWrite s fh buffer toWrite.toNat).toOption.map Prod.snd
  | .read fh len => (tfsRead s fh len.toNat).toOption.map Prod.snd
  | .link target linkName => (tfsLink s target linkName).toOption.map Prod.snd
  | .symLink target linkName => (tfsSymLink s target linkName).toOption.map Prod.snd
  | .unlink target => (tfsUnlink s target).toOption.map Prod.snd
  | .copyFromExternalFs source destPath depth =>
    (tfsCopyFromExternalFs s source destPath depth).toOption.map Prod.snd

/-- The answer of a call that copies no bytes to its caller. -/
def noBytes {α : Type} (x : Outcome (α × State)) (ret : α → ℤ) : Outcome (ReadResult × State) :=
  x.bind fun (r, s) => .ret (⟨ret r, []⟩, s)

/-- What a call made alone answers, and the state it leaves. -/
def call (s : State) : Call → Outcome (ReadResult × State)
  | .open name mode depth => noBytes (tfsOpen s name mode depth) id
  | .close fh => noBytes (.ret (tfsClose s fh)) id
  | .write fh buffer toWrite => noBytes (tfsWrite s fh buffer toWrite.toNat) id
  | .read fh len => tfsRead s fh len.toNat
  | .link target linkName => noBytes (tfsLink s target linkName) RootExit.ret
  | .symLink target linkName => noBytes (tfsSymLink s target linkName) RootExit.ret
  | .unlink target => noBytes (tfsUnlink s target) RootExit.ret
  | .copyFromExternalFs source destPath depth =>
    noBytes (tfsCopyFromExternalFs s source destPath depth) id

/-- What a call made alone answers, if it returns. -/
def answer (s : State) (c : Call) : Option (ReadResult × State) := (call s c).toOption

/-- The states a successful `tfs_init` leaves. -/
def Initialised (s : State) : Prop := ∃ heap params, tfsInit heap params = (true, s)

end TfsBroker.Fs
