import TfsBroker.Lib.Rwlock
import TfsBroker.Tfs.Directory

/-!
# The state of `fs/` (`fs/state.c`)

The tables of `state.c` and the functions that work on them, in the order of the
source. A table is a function from indices; the bounds are those of `fs_params`.
A result of -1 is `none` where the function changes nothing on failure.

`insert_delay` only spends time. Calls of `rwl_*` and `mutex_*` are not part of
these functions: the lock objects are in the state, `inode_create` initialises
them, and the threads of `TfsBroker.Fs.Threads` take and release them.
-/

namespace TfsBroker.Fs

/-- `inode_type`. -/
inductive InodeType
  | T_FILE
  | T_DIRECTORY
  | T_LINK
  deriving DecidableEq, Repr

/-- `inode_t`. -/
structure Inode where
  iNodeType : InodeType
  iLinksCount : ℕ
  iSize : ℕ
  iDataBlock : ℤ
  deriving DecidableEq, Repr

/-- `open_file_entry_t`; `lock` tells whether its mutex is held. -/
structure OpenFileEntry where
  ofInumber : ℤ
  ofOffset : ℕ
  lock : Bool
  deriving DecidableEq, Repr

/-- The static variables of `state.c`. -/
structure State where
  fsParams : TfsParams
  inodeTable : ℕ → Inode
  inodeRwl : ℕ → Rwlock
  freeinodeTs : ℕ → AllocationState
  fsData : Memory
  freeBlocks : ℕ → AllocationState
  openFileTable : ℕ → OpenFileEntry
  freeOpenFileEntries : ℕ → AllocationState

/-- What the memory given out by `malloc` happens to hold. -/
structure Heap where
  inodeTable : ℕ → Inode
  fsData : Memory
  openFileTable : ℕ → OpenFileEntry

/-- Memory that happens to hold zeros. -/
def Heap.zeroed : Heap := ⟨fun _ => ⟨.T_FILE, 0, 0, 0⟩, fun _ => 0, fun _ => ⟨0, 0, false⟩⟩

namespace State

variable (s : State)

/-- `INODE_TABLE_SIZE`. -/
def inodeTableSize : ℕ := s.fsParams.maxInodeCount

/-- `DATA_BLOCKS`. -/
def dataBlocks : ℕ := s.fsParams.maxBlockCount

/-- `MAX_OPEN_FILES`. -/
def maxOpenFiles : ℕ := s.fsParams.maxOpenFilesCount

/-- `BLOCK_SIZE`. -/
def blockSize : ℕ := s.fsParams.blockSize

/-- `MAX_DIR_ENTRIES`. -/
def maxDirEntries : ℕ := s.blockSize / dirEntrySize

/-- The number of bytes of `fs_data`. -/
def dataSize : ℕ := s.dataBlocks * s.blockSize

/-- Assign to `inode_table[k]`. -/
def setInode (k : ℕ) (i : Inode) : State :=
  { s with inodeTable := Function.update s.inodeTable k i }

/-- Assign to `freeinode_ts[k]`. -/
def setFreeinode (k : ℕ) (a : AllocationState) : State :=
  { s with freeinodeTs := Function.update s.freeinodeTs k a }

/-- Assign to `free_blocks[b]`. -/
def setFreeBlock (b : ℕ) (a : AllocationState) : State :=
  { s with freeBlocks := Function.update s.freeBlocks b a }

/-- Assign to `open_file_table[fh]`. -/
def setEntry (fh : ℕ) (e : OpenFileEntry) : State :=
  { s with openFileTable := Function.update s.openFileTable fh e }

/-- Assign to `free_open_file_entries[fh]`. -/
def setFreeEntry (fh : ℕ) (a : AllocationState) : State :=
  { s with freeOpenFileEntries := Function.update s.freeOpenFileEntries fh a }

/-- Assign to `inode_rwl[k]`. -/
def setRwl (k : ℕ) (l : Rwlock) : State :=
  { s with inodeRwl := Function.update s.inodeRwl k l }

end State

open State

/-- `valid_inumber`. -/
def validInumber (s : State) (inumber : ℤ) : Bool := 0 ≤ inumber && inumber < s.inodeTableSize

/-- `valid_block_number`. -/
def validBlockNumber (s : State) (b : ℤ) : Bool := 0 ≤ b && b < s.dataBlocks

/-- `valid_file_handle`. -/
def validFileHandle (s : State) (fh : ℤ) : Bool := 0 ≤ fh && fh < s.maxOpenFiles

/-- `state_init` on the uninitialised module. -/
def stateInit (heap : Heap) (params : TfsParams) : State where
  fsParams := params
  inodeTable := heap.inodeTable
  inodeRwl := fun _ => .unlocked
  freeinodeTs := fun _ => .FREE
  fsData := heap.fsData
  freeBlocks := fun _ => .FREE
  openFileTable := fun fh => { heap.openFileTable fh with lock := false }
  freeOpenFileEntries := fun _ => .FREE

/-- `inode_alloc`. -/
def inodeAlloc (s : State) : Option (ℕ × State) :=
  (firstFree s.freeinodeTs s.inodeTableSize).map fun k => (k, s.setFreeinode k .TAKEN)

/-- `data_block_alloc`. -/
def dataBlockAlloc (s : State) : Option (ℕ × State) :=
  (firstFree s.freeBlocks s.dataBlocks).map fun b => (b, s.setFreeBlock b .TAKEN)

/-- `data_block_free`. No caller reads its result. -/
def dataBlockFree (s : State) (b : ℤ) : State :=
  if validBlockNumber s b then s.setFreeBlock b.toNat .FREE else s

/-- `data_block_get`: the address of the block, `none` for a null pointer. -/
def dataBlockGet (s : State) (b : ℤ) : Option ℕ :=
  if validBlockNumber s b then some (b.toNat * s.blockSize) else none

/-- `inode_delete`. -/
def inodeDelete (s : State) (inumber : ℤ) : Option State :=
  if validInumber s inumber then
    let k := inumber.toNat
    if s.freeinodeTs k = .FREE then none
    else
      let s := if 0 < (s.inodeTable k).iSize then dataBlockFree s (s.inodeTable k).iDataBlock else s
      some (s.setFreeinode k .FREE)
  else none

/-- `inode_create`. A directory for which there is no block is deleted again. -/
def inodeCreate (s : State) (iType : InodeType) : Option ℕ × State :=
  match inodeAlloc s with
  | none => (none, s)
  | some (k, s) =>
    let s := (s.setInode k { s.inodeTable k with iNodeType := iType, iLinksCount := 1 }).setRwl k
      .unlocked
    match iType with
    | .T_DIRECTORY =>
      match dataBlockAlloc s with
      | none =>
        let s := s.setInode k { s.inodeTable k with iSize := 0, iDataBlock := -1 }
        (none, (inodeDelete s k).getD s)
      | some (b, s) =>
        let s := s.setInode k { s.inodeTable k with iSize := s.blockSize, iDataBlock := b }
        match dataBlockGet s b with
        | none => (none, s)
        | some a =>
          (some k, { s with fsData := Directory.initEntries s.fsData a s.maxDirEntries })
    | .T_FILE | .T_LINK =>
      (some k, s.setInode k { s.inodeTable k with iSize := 0, iDataBlock := -1 })

/-- `inode_get`, and with the same test `inode_rwl_get`: the index of the inode,
`none` for a null pointer. -/
def inodeGet (s : State) (inumber : ℤ) : Option ℕ :=
  if validInumber s inumber then some inumber.toNat else none

/-- `clear_dir_entry`. -/
def clearDirEntry (s : State) (inode : ℕ) (name : CString) : Outcome (Option State) :=
  if (s.inodeTable inode).iNodeType ≠ .T_DIRECTORY then .ret none
  else
    match dataBlockGet s (s.inodeTable inode).iDataBlock with
    | none => .abort
    | some a =>
      .ret <| (Directory.matchEntry s.fsData a s.maxDirEntries name).map fun i =>
        { s with fsData := Directory.clearEntry s.fsData a i }

/-- `add_dir_entry`. -/
def addDirEntry (s : State) (inode : ℕ) (name : CString) (subInumber : ℤ) :
    Outcome (Option State) :=
  if name.strlen = 0 ∨ maxFileName - 1 < name.strlen then .ret none
  else if (s.inodeTable inode).iNodeType ≠ .T_DIRECTORY then .ret none
  else
    match dataBlockGet s (s.inodeTable inode).iDataBlock with
    | none => .abort
    | some a =>
      .ret <| (Directory.freeEntry s.fsData a s.maxDirEntries).map fun i =>
        { s with fsData := Directory.fillEntry s.fsData a i name subInumber }

/-- `find_in_dir`. -/
def findInDir (s : State) (inode : ℕ) (name : CString) : ℤ :=
  if (s.inodeTable inode).iNodeType ≠ .T_DIRECTORY then -1
  else
    match dataBlockGet s (s.inodeTable inode).iDataBlock with
    | none => -1
    | some a =>
      match Directory.findEntry s.fsData a s.maxDirEntries name with
      | none => -1
      | some i => Directory.dInumber s.fsData a i

/-- `add_to_open_file_table`. -/
def addToOpenFileTable (s : State) (inumber : ℤ) (offset : ℕ) : Option (ℕ × State) :=
  (firstFree s.freeOpenFileEntries s.maxOpenFiles).map fun i =>
    (i, (s.setFreeEntry i .TAKEN).setEntry i
      { s.openFileTable i with ofInumber := inumber, ofOffset := offset })

/-- `remove_from_open_file_table`. -/
def removeFromOpenFileTable (s : State) (fh : ℤ) : Option State :=
  if validFileHandle s fh then
    if s.freeOpenFileEntries fh.toNat = .FREE then none
    else some (s.setFreeEntry fh.toNat .FREE)
  else none

/-- `get_open_file_entry`: the index of the entry, `none` for a null pointer. -/
def getOpenFileEntry (s : State) (fh : ℤ) : Option ℕ :=
  if validFileHandle s fh then
    if s.freeOpenFileEntries fh.toNat = .FREE then none else some fh.toNat
  else none

/-- `is_in_open_file_table`. -/
def isInOpenFileTable (s : State) (inumber : ℤ) : Bool :=
  validInumber s inumber && (List.range s.maxOpenFiles).any fun i =>
    s.freeOpenFileEntries i = .TAKEN && (s.openFileTable i).ofInumber = inumber

end TfsBroker.Fs
