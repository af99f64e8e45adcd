import TfsBroker.Fs.Operations
import TfsBroker.Lib.Programs

/-!
# The operations of `fs/` with every lock operation

The same functions of `state.c` and `operations.c` as programs: each acquisition and
each release of a lock is a step of its own, and so is each stretch of code between two
of them. Every exit path releases what the source releases there; the one of
`tfs_unlink` on which `inode_delete` failed keeps the lock of the inode.

`filled` only records which entries of the open file table `add_to_open_file_table` has
written since `tfs_init`; no program reads it. Dereferencing a null pointer and a failed
`ALWAYS_ASSERT` stop the thread.
-/

namespace TfsBroker.Fs.Locking

open State Programs

/-- The locks of `state.c`. -/
inductive Lock
  /-- `open_file_table_rwl`. -/
  | openFileTable
  /-- The mutex of an entry of the open file table. -/
  | entry (fh : ℕ)
  /-- The lock of an inode. -/
  | inode (inumber : ℕ)
  /-- `inode_table_rwl`. -/
  | inodeTable
  /-- `free_blocks_rwl`. -/
  | freeBlocks
  deriving DecidableEq

/-- The file system with all its locks. -/
structure Shared where
  fs : State
  openFileTableRwl : Rwlock
  inodeTableRwl : Rwlock
  freeBlocksRwl : Rwlock
  filled : ℕ → Bool

/-- A call of the interface. -/
inductive Call
  | «open» (name : Option CString) (mode : ℕ)
  | symLink (target linkName : Option CString)
  | link (target linkName : Option CString)
  | close (fhandle : ℤ)
  | write (fhandle : ℤ) (buffer : ℕ → UInt8) (toWrite : UInt64)
  | read (fhandle : ℤ) (len : UInt64)
  | unlink (target : Option CString)

/-- A program over the file system. -/
abbrev Program (α : Type) : Type := Prog Shared Lock Call α

/-! ### The locks -/

/-- `rwl_wrlock` or `rwl_rdlock`, when it does not have to wait. -/
def rwlock (l : Rwlock) (write : Bool) : Option Rwlock := if write then l.wrlock else l.rdlock

/-- Take a lock, when it can be taken. -/
def acquire : Lock → Bool → Shared → Option Shared
  | .openFileTable, w, s => (rwlock s.openFileTableRwl w).map fun l => { s with openFileTableRwl := l }
  | .entry fh, _, s =>
    if (s.fs.openFileTable fh).lock then none
    else some { s with fs := s.fs.setEntry fh { s.fs.openFileTable fh with lock := true } }
  | .inode k, w, s => (rwlock (s.fs.inodeRwl k) w).map fun l => { s with fs := s.fs.setRwl k l }
  | .inodeTable, w, s => (rwlock s.inodeTableRwl w).map fun l => { s with inodeTableRwl := l }
  | .freeBlocks, w, s => (rwlock s.freeBlocksRwl w).map fun l => { s with freeBlocksRwl := l }

/-- Release a lock. -/
def free : Lock → Shared → Shared
  | .openFileTable, s => { s with openFileTableRwl := s.openFileTableRwl.unlock }
  | .entry fh, s =>
    { s with fs := s.fs.setEntry fh { s.fs.openFileTable fh with lock := false } }
  | .inode k, s => { s with fs := s.fs.setRwl k (s.fs.inodeRwl k).unlock }
  | .inodeTable, s => { s with inodeTableRwl := s.inodeTableRwl.unlock }
  | .freeBlocks, s => { s with freeBlocksRwl := s.freeBlocksRwl.unlock }

/-- The locks of the file system. -/
def locks : Locks Shared Lock := ⟨acquire, free⟩

/-- The rank of a lock: the root directory's lock is the lowest. -/
def rank : Lock → ℕ
  | .inode k => if k = rootDirInum then 0 else 3
  | .openFileTable => 1
  | .entry _ => 2
  | .inodeTable => 4
  | .freeBlocks => 5

/-! ### Accesses -/

variable {α : Type}

/-- Read the file system. -/
def get (f : State → α) : Program α := .read fun s => f s.fs

/-- Test the file system. -/
def test (p : State → Prop) [DecidablePred p] : Program Bool := get fun s => decide (p s)

/-- Change the file system. -/
def set (f : State → State) : Program PUnit := .modify fun s => { s with fs := f s.fs }

/-- Do what `f` does, if it does something. -/
def attempt (f : State → Option (α × State)) : Program (Option α) :=
  .update fun s => (f s.fs).elim (none, s) fun r => (some r.1, { s with fs := r.2 })

/-! ### `state.c` -/

/-- `inode_alloc`. -/
def inodeAlloc : Program (Option ℕ) := do
  .wrlock .inodeTable
  let inumber ← attempt Fs.inodeAlloc
  .release .inodeTable
  return inumber

/-- `data_block_alloc`. -/
def dataBlockAlloc : Program (Option ℕ) := do
  .wrlock .freeBlocks
  let b ← attempt Fs.dataBlockAlloc
  .release .freeBlocks
  return b

/-- `data_block_free`. No caller reads its result. -/
def dataBlockFree (blockNumber : ℤ) : Program PUnit := do
  if ← get (validBlockNumber · blockNumber) then
    .wrlock .freeBlocks
    set fun s => s.setFreeBlock blockNumber.toNat .FREE
    .release .freeBlocks
  else return ⟨⟩

/-- The end of `inode_delete`. -/
def inodeDeleteEnd (k : ℕ) : Program Bool := do
  set fun s => s.setFreeinode k .FREE
  .release .inodeTable
  return true

/-- `inode_delete`; it answers whether it succeeded. -/
def inodeDelete (inumber : ℕ) : Program Bool := do
  match ← get (inodeGet · inumber) with
  | none => return false
  | some k =>
    .wrlock .inodeTable
    if ← test fun s => s.freeinodeTs k = .FREE then
      .release .inodeTable
      return false
    else if 0 < (← get fun s => (s.inodeTable k).iSize) then
      dataBlockFree (← get fun s => (s.inodeTable k).iDataBlock)
      inodeDeleteEnd k
    else inodeDeleteEnd k

/-- `inode_create` of a file or a symbolic link. -/
def inodeCreate (iType : InodeType) : Program (Option ℕ) := do
  match ← inodeAlloc with
  | none => return none
  | some k =>
    set fun s =>
      (s.setInode k { s.inodeTable k with iNodeType := iType, iLinksCount := 1 }).setRwl k .unlocked
    set fun s => s.setInode k { s.inodeTable k with iSize := 0, iDataBlock := -1 }
    return some k

/-- `add_to_open_file_table`. -/
def addToOpenFileTable (inumber : ℕ) (offset : ℕ) : Program ℤ := do
  .wrlock .openFileTable
  match ← attempt fun s => (firstFree s.freeOpenFileEntries s.maxOpenFiles).map fun i =>
      (i, s.setFreeEntry i .TAKEN) with
  | none =>
    .release .openFileTable
    return -1
  | some i =>
    .wrlock (.entry i)
    .modify fun s => { s with
      fs := s.fs.setEntry i { s.fs.openFileTable i with ofInumber := inumber, ofOffset := offset }
      filled := Function.update s.filled i true }
    .release (.entry i)
    .release .openFileTable
    return i

/-- `remove_from_open_file_table`. Its caller does not read the result. -/
def removeFromOpenFileTable (fhandle : ℤ) : Program PUnit := do
  if ← get (validFileHandle · fhandle) then
    .wrlock .openFileTable
    if ← test fun s => s.freeOpenFileEntries fhandle.toNat = .FREE then
      .release .openFileTable
    else
      set fun s => s.setFreeEntry fhandle.toNat .FREE
      .release .openFileTable
  else return ⟨⟩

/-- `is_in_open_file_table`. -/
def isInOpenFileTable (inumber : ℕ) : Program Bool := do
  if ← get (validInumber · inumber) then
    .rdlock .openFileTable
    let found ← get (Fs.isInOpenFileTable · inumber)
    .release .openFileTable
    return found
  else return false

/-! ### `operations.c` -/

/-- The end of `tfs_open` for a file that exists. -/
def openEnd (k mode : ℕ) : Program ℤ := do
  let offset ← get fun s => if hasFlag mode tfsOAppend then (s.inodeTable k).iSize else 0
  .release (.inode k)
  addToOpenFileTable k offset

/-- The path a symbolic link stands for; `none` where reading it leaves the data area. -/
def linkTarget (s : State) (k : ℕ) : Option CString :=
  (dataBlockGet s (s.inodeTable k).iDataBlock).bind fun a =>
    CString.strAt s.fsData a (s.dataSize - a)

/-- `tfs_open` of a name that was found. -/
def openFound (inum : ℤ) (mode : ℕ) : Program ℤ := do
  match ← get (inodeGet · inum) with
  | none => .stop
  | some k =>
    .wrlock (.inode k)
    if ← test fun s => (s.inodeTable k).iNodeType = .T_LINK then
      if hasFlag mode tfsOCreat then
        .release (.inode k)
        return -1
      else
        match ← get (linkTarget · k) with
        | none => .stop
        | some buffer =>
          .release (.inode k)
          .jump (.open (some buffer) mode)
    else if hasFlag mode tfsOTrunc && 0 < (← get fun s => (s.inodeTable k).iSize) then
      dataBlockFree (← get fun s => (s.inodeTable k).iDataBlock)
      set fun s => s.setInode k { s.inodeTable k with iSize := 0 }
      openEnd k mode
    else openEnd k mode

/-- `add_dir_entry`: whether it succeeded. -/
def addDirEntry (root : ℕ) (subName : CString) (subInumber : ℕ) : Program Bool := do
  match ← attempt fun s =>
      (Fs.addDirEntry s root subName subInumber).toOption.map fun r => (r.isSome, r.getD s) with
  | none => .stop
  | some done => return done

/-- `tfs_open` of a name that is to be created. -/
def openNew (root : ℕ) (name : Option CString) : Program ℤ := do
  match ← inodeCreate .T_FILE with
  | none =>
    .release (.inode root)
    return -1
  | some inum =>
    if ← addDirEntry root (subName name) inum then
      .release (.inode root)
      addToOpenFileTable inum 0
    else
      let _ ← inodeDelete inum
      .release (.inode root)
      return -1

/-- `tfs_open`. -/
def tfsOpen (name : Option CString) (mode : ℕ) : Program ℤ :=
  if validPathname name then do
    match ← get (inodeGet · rootDirInum) with
    | none => return -1
    | some root =>
      .wrlock (.inode root)
      let inum ← get (tfsLookup · name root)
      if 0 ≤ inum then
        .release (.inode root)
        openFound inum mode
      else if hasFlag mode tfsOCreat then openNew root name
      else
        .release (.inode root)
        return -1
  else return -1

/-- Leave the root lock and answer. -/
def leaveRoot (root : ℕ) (ret : ℤ) : Program ℤ := do
  .release (.inode root)
  return ret

/-- Leave the lock of an inode and the root lock, and answer. -/
def leaveBoth (root k : ℕ) (ret : ℤ) : Program ℤ := do
  .release (.inode k)
  leaveRoot root ret

/-- `memcpy(block, target, strlen(target) + 1)` and what follows up to `add_dir_entry`. -/
def storeTarget (s : State) (newInum newBnum : ℕ) : Option CString → Option State
  | none => none
  | some target =>
    (dataBlockGet s newBnum).bind fun a =>
      if a + (target.strlen + 1) ≤ s.dataSize then
        some ({ s with fsData := s.fsData.memcpy a (target.strlen + 1) target.byteAt }.setInode
          newInum { s.inodeTable newInum with iDataBlock := newBnum })
      else none

/-- `tfs_sym_link` once a block is allocated. -/
def symLinkEnter (root newInum newBnum : ℕ) (target linkName : Option CString) : Program ℤ := do
  match ← attempt fun s => (storeTarget s newInum newBnum target).map fun s => ((), s) with
  | none => .stop
  | some _ =>
    if ← addDirEntry root (subName linkName) newInum then leaveRoot root 0
    else
      let _ ← inodeDelete newInum
      leaveRoot root (-1)

/-- `tfs_sym_link`. -/
def tfsSymLink (target linkName : Option CString) : Program ℤ :=
  if validPathname linkName then do
    match ← get (inodeGet · rootDirInum) with
    | none => .stop
    | some root =>
      .wrlock (.inode root)
      if ← test fun s => tfsLookup s target root = -1 then leaveRoot root (-1)
      else if ← test fun s => tfsLookup s linkName root ≠ -1 then leaveRoot root (-1)
      else
        match ← inodeCreate .T_LINK with
        | none => leaveRoot root (-1)
        | some newInum =>
          match ← dataBlockAlloc with
          | none =>
            let _ ← inodeDelete newInum
            leaveRoot root (-1)
          | some newBnum => symLinkEnter root newInum newBnum target linkName
  else return -1

/-- `tfs_link` once the target was found. -/
def linkEnter (root k : ℕ) (linkName : Option CString) : Program ℤ := do
  .wrlock (.inode k)
  if ← test fun s => (s.inodeTable k).iNodeType = .T_LINK then leaveBoth root k (-1)
  else if ← addDirEntry root (subName linkName) k then
    set fun s => s.setInode k { s.inodeTable k with
      iLinksCount := ((s.inodeTable k).iLinksCount + 1) % 4294967296 }
    leaveBoth root k 0
  else leaveBoth root k (-1)

/-- `tfs_link`. -/
def tfsLink (target linkName : Option CString) : Program ℤ :=
  if validPathname linkName then do
    match ← get (inodeGet · rootDirInum) with
    | none => .stop
    | some root =>
      .wrlock (.inode root)
      let targetInumber ← get (tfsLookup · target root)
      if targetInumber = -1 then leaveRoot root (-1)
      else if ← test fun s => tfsLookup s linkName root ≠ -1 then leaveRoot root (-1)
      else
        match ← get (inodeGet · targetInumber) with
        | none => .stop
        | some k => linkEnter root k linkName
  else return -1

/-- `tfs_close`. -/
def tfsClose (fhandle : ℤ) : Program ℤ := do
  match ← get (getOpenFileEntry · fhandle) with
  | none => return -1
  | some _ =>
    removeFromOpenFileTable fhandle
    return 0

/-- Leave the lock of an inode and the mutex of an entry, and answer. -/
def leaveFile {α : Type} (file k : ℕ) (ret : α) : Program α := do
  .release (.inode k)
  .release (.entry file)
  return ret

/-- `tfs_write` from `data_block_get` on; `none` where it leaves the data area. -/
def storeBlock (s : State) (file k : ℕ) (buffer : ℕ → UInt8) (toWrite : ℕ) : Option (ℤ × State) :=
  match dataBlockGet s (s.inodeTable k).iDataBlock with
  | none => some (-1, s)
  | some a =>
    let offset := (s.openFileTable file).ofOffset
    if a + offset + toWrite ≤ s.dataSize then
      let s := { s with fsData := s.fsData.memcpy (a + offset) toWrite buffer }
      let offset := (offset + toWrite) % sizeRange
      let s := s.setEntry file { s.openFileTable file with ofOffset := offset }
      some (toWrite,
        if (s.inodeTable k).iSize < offset then
          s.setInode k { s.inodeTable k with iSize := offset }
        else s)
    else none

/-- The end of `tfs_write`. -/
def writeEnd (file k : ℕ) (buffer : ℕ → UInt8) (toWrite : ℕ) : Program ℤ := do
  match ← attempt (storeBlock · file k buffer toWrite) with
  | none => .stop
  | some ret => leaveFile file k ret

/-- `tfs_write` under both locks. -/
def writeLocked (file k : ℕ) (buffer : ℕ → UInt8) (toWrite : ℕ) : Program ℤ := do
  let toWrite ← get fun s => clampWrite s.blockSize (s.openFileTable file).ofOffset toWrite
  if 0 < toWrite then
    if (← get fun s => (s.inodeTable k).iSize) = 0 then
      match ← dataBlockAlloc with
      | none => leaveFile file k (-1)
      | some bnum =>
        set fun s => s.setInode k { s.inodeTable k with iDataBlock := bnum }
        writeEnd file k buffer toWrite
    else writeEnd file k buffer toWrite
  else leaveFile file k 0

/-- `tfs_write`. -/
def tfsWrite (fhandle : ℤ) (buffer : ℕ → UInt8) (toWrite : ℕ) : Program ℤ := do
  match ← get (getOpenFileEntry · fhandle) with
  | none => return -1
  | some file =>
    .wrlock (.entry file)
    match ← get (fun s => inodeGet s (s.openFileTable file).ofInumber) with
    | none => .stop
    | some k =>
      .wrlock (.inode k)
      writeLocked file k buffer toWrite

/-- `tfs_read`. -/
def tfsRead (fhandle : ℤ) (len : ℕ) : Program ReadResult := do
  match ← get (getOpenFileEntry · fhandle) with
  | none => return ⟨-1, []⟩
  | some file =>
    .wrlock (.entry file)
    match ← get (fun s => inodeGet s (s.openFileTable file).ofInumber) with
    | none => .stop
    | some k =>
      .rdlock (.inode k)
      match ← attempt fun s => (tfsReadBody s file k len).toOption with
      | none => .stop
      | some ret => leaveFile file k ret

/-- `tfs_unlink` under the lock of the inode. -/
def unlinkLocked (root k : ℕ) : Program ℤ := do
  if (← get fun s => (s.inodeTable k).iLinksCount) = 1 then
    if ← inodeDelete k then leaveBoth root k 0
    else leaveRoot root (-1)
  else
    set fun s => s.setInode k { s.inodeTable k with
      iLinksCount := ((s.inodeTable k).iLinksCount + 4294967295) % 4294967296 }
    leaveBoth root k 0

/-- `tfs_unlink` of a file that is not opened. -/
def unlinkEnter (root k : ℕ) (target : Option CString) : Program ℤ := do
  match ← attempt fun s =>
      (clearDirEntry s root (subName target)).toOption.map fun r => (r.isSome, r.getD s) with
  | none => .stop
  | some false => leaveRoot root (-1)
  | some true =>
    .wrlock (.inode k)
    unlinkLocked root k

/-- `tfs_unlink`. -/
def tfsUnlink (target : Option CString) : Program ℤ := do
  match ← get (inodeGet · rootDirInum) with
  | none => .stop
  | some root =>
    .wrlock (.inode root)
    let targetInum ← get (tfsLookup · target root)
    if targetInum = -1 then leaveRoot root (-1)
    else
      match ← get (inodeGet · targetInum) with
      | none => .stop
      | some k =>
        if ← test fun s => (s.inodeTable k).iNodeType ≠ .T_LINK then
          if ← isInOpenFileTable k then leaveRoot root (-1)
          else unlinkEnter root k target
        else unlinkEnter root k target

/-- A call that copies no bytes to its caller. -/
def noBytes (p : Program ℤ) : Program ReadResult := do
  return ⟨← p, []⟩

/-- The program of a call. -/
def start : Call → Program ReadResult
  | .open name mode => noBytes (tfsOpen name mode)
  | .symLink target linkName => noBytes (tfsSymLink target linkName)
  | .link target linkName => noBytes (tfsLink target linkName)
  | .close fhandle => noBytes (tfsClose fhandle)
  | .write fhandle buffer toWrite => noBytes (tfsWrite fhandle buffer toWrite.toNat)
  | .read fhandle len => tfsRead fhandle len.toNat
  | .unlink target => noBytes (tfsUnlink target)

/-! ### The system -/

/-- The file system and the threads that call it. -/
abbrev Sys (T : Type*) : Type _ := Programs.Sys Shared Lock Call ReadResult T

/-- One step of a thread. -/
def next {T : Type*} [DecidableEq T] (σ : Sys T) (e : T × Option Call) : Option (Sys T) :=
  Programs.Sys.next locks start σ e

/-- After a successful `tfs_init`, before any call. -/
structure Start {T : Type*} (σ : Sys T) : Prop where
  initialised : Initialised σ.shared.fs
  openFileTableRwl : σ.shared.openFileTableRwl = .unlocked
  inodeTableRwl : σ.shared.inodeTableRwl = .unlocked
  freeBlocksRwl : σ.shared.freeBlocksRwl = .unlocked
  filled : ∀ fh, σ.shared.filled fh = false
  idle : ∀ t, (σ.thread t).prog.Returned ∧ (σ.thread t).held = []

end TfsBroker.Fs.Locking
