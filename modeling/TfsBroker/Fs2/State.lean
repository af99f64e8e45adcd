import TfsBroker.Tfs.Directory

/-!
# The state of `fs2/` (`fs2/state.c`)

`fs2/` is the file system the broker is linked with. Its tables are those of `fs/`
without locks, link counters and symbolic links, and where a function of `fs/`
answers -1 or a null pointer on a wrong number, the one of `fs2/` has an
`ALWAYS_ASSERT`, here `Outcome.abort`.

A table is a function from indices; the bounds are those of `fs_params`.
`insert_delay` only spends time.
-/

namespace TfsBroker.Fs2

/-- `inode_type`. -/
inductive InodeType
  | T_FILE
  | T_DIRECTORY
  deriving DecidableEq, Repr

/-- `inode_t`. -/
structure Inode where
  iNodeType : InodeType
  iSize : ℕ
  iDataBlock : ℤ
  deriving DecidableEq, Repr

/-- `open_file_entry_t`. -/
structure OpenFileEntry where
  ofInumber : ℤ
  ofOffset : ℕ
  deriving DecidableEq, Repr

/-- The static variables of `state.c`. -/
structure State where
  fsParams : TfsParams
  inodeTable : ℕ → Inode
  freeinodeTs : ℕ → AllocationState
  fsData : Memory
  freeBlocks : ℕ → AllocationState
  openFileTable : ℕ → OpenFileEntry
  freeOpenFileEntries : ℕ → AllocationState

/-- What the memory given out by `malloc` happens to hold. -/
structure Heap where
  inodeTable : ℕ → Inode
  fsData : Memory
  openFileTable : ℕ → OpenFileEntry

/-- Memory that happens to hold zeros. -/
def Heap.zeroed : Heap := ⟨fun _ => ⟨.T_FILE, 0, 0⟩, fun _ => 0, fun _ => ⟨0, 0⟩⟩

namespace State

variable (s : State)

/-- `INODE_TABLE_SIZE`. -/
def inodeTableSize : ℕ := s.fsParams.maxInodeCount

/-- `DATA_BLOCKS`. -/
def dataBlocks : ℕ := s.fsParams.maxBlockCount

/-- `MAX_OPEN_FILES`. -/
def maxOpenFiles : ℕ := s.fsParams.maxOpenFilesCount

/-- `BLOCK_SIZE`. -/
def blockSize : ℕ := s.fsParams.blockSize

/-- `MAX_DIR_ENTRIES`. -/
def maxDirEntries : ℕ := s.blockSize / dirEntrySize

/-- The number of bytes of `fs_data`. -/
def dataSize : ℕ := s.dataBlocks * s.blockSize

/-- Assign to `inode_table[k]`. -/
def setInode (k : ℕ) (i : Inode) : State :=
  { s with inodeTable := Function.update s.inodeTable k i }

/-- Assign to `freeinode_ts[k]`. -/
def setFreeinode (k : ℕ) (a : AllocationState) : State :=
  { s with freeinodeTs := Function.update s.freeinodeTs k a }

/-- Assign to `free_blocks[b]`. -/
def setFreeBlock (b : ℕ) (a : AllocationState) : State :=
  { s with freeBlocks := Function.update s.freeBlocks b a }

/-- Assign to `open_file_table[fh]`. -/
def setEntry (fh : ℕ) (e : OpenFileEntry) : State :=
  { s with openFileTable := Function.update s.openFileTable fh e }

/-- Assign to `free_open_file_entries[fh]`. -/
def setFreeEntry (fh : ℕ) (a : AllocationState) : State :=
  { s with freeOpenFileEntries := Function.update s.freeOpenFileEntries fh a }

end State

open State

/-- `valid_inumber`. -/
def validInumber (s : State) (inumber : ℤ) : Bool := 0 ≤ inumber && inumber < s.inodeTableSize

/-- `valid_block_number`. -/
def validBlockNumber (s : State) (b : ℤ) : Bool := 0 ≤ b && b < s.dataBlocks

/-- `valid_file_handle`. -/
def validFileHandle (s : State) (fh : ℤ) : Bool := 0 ≤ fh && fh < s.maxOpenFiles

/-- `state_init` on the uninitialised module. -/
def stateInit (heap : Heap) (params : TfsParams) : State where
  fsParams := params
  inodeTable := heap.inodeTable
  freeinodeTs := fun _ => .FREE
  fsData := heap.fsData
  freeBlocks := fun _ => .FREE
  openFileTable := heap.openFileTable
  freeOpenFileEntries := fun _ => .FREE

/-- `inode_alloc`. -/
def inodeAlloc (s : State) : Option (ℕ × State) :=
  (firstFree s.freeinodeTs s.inodeTableSize).map fun k => (k, s.setFreeinode k .TAKEN)

/-- `data_block_alloc`. -/
def dataBlockAlloc (s : State) : Option (ℕ × State) :=
  (firstFree s.freeBlocks s.dataBlocks).map fun b => (b, s.setFreeBlock b .TAKEN)

/-- `data_block_free`. -/
def dataBlockFree (s : State) (b : ℤ) : Outcome State :=
  if validBlockNumber s b then .ret (s.setFreeBlock b.toNat .FREE) else .abort

/-- `data_block_get`: the address of the block. -/
def dataBlockGet (s : State) (b : ℤ) : Outcome ℕ :=
  if validBlockNumber s b then .ret (b.toNat * s.blockSize) else .abort

/-- `inode_delete`. -/
def inodeDelete (s : State) (inumber : ℤ) : Outcome State :=
  if validInumber s inumber then
    let k := inumber.toNat
    if s.freeinodeTs k = .TAKEN then
      (if 0 < (s.inodeTable k).iSize then dataBlockFree s (s.inodeTable k).iDataBlock
        else .ret s).bind fun s => .ret (s.setFreeinode k .FREE)
    else .abort
  else .abort

/-- `inode_create`. A directory for which there is no block is deleted again. -/
def inodeCreate (s : State) (iType : InodeType) : Outcome (Option ℕ × State) :=
  match inodeAlloc s with
  | none => .ret (none, s)
  | some (k, s) =>
    let s := s.setInode k { s.inodeTable k with iNodeType := iType }
    match iType with
    | .T_DIRECTORY =>
      match dataBlockAlloc s with
      | none =>
        (inodeDelete (s.setInode k { s.inodeTable k with iSize := 0, iDataBlock := -1 }) k).bind
          fun s => .ret (none, s)
      | some (b, s) =>
        let s := s.setInode k { s.inodeTable k with iSize := s.blockSize, iDataBlock := b }
        (dataBlockGet s b).bind fun a =>
          .ret (some k, { s with fsData := Directory.initEntries s.fsData a s.maxDirEntries })
    | .T_FILE =>
      .ret (some k, s.setInode k { s.inodeTable k with iSize := 0, iDataBlock := -1 })

/-- `inode_get`: the index of the inode. -/
def inodeGet (s : State) (inumber : ℤ) : Outcome ℕ :=
  if validInumber s inumber then .ret inumber.toNat else .abort

/-- `clear_dir_entry`. -/
def clearDirEntry (s : State) (inode : ℕ) (name : CString) : Outcome (Option State) :=
  if (s.inodeTable inode).iNodeType ≠ .T_DIRECTORY then .ret none
  else
    (dataBlockGet s (s.inodeTable inode).iDataBlock).bind fun a =>
      .ret <| (Directory.matchEntry s.fsData a s.maxDirEntries name).map fun i =>
        { s with fsData := Directory.clearEntry s.fsData a i }

/-- `add_dir_entry`. -/
def addDirEntry (s : State) (inode : ℕ) (name : CString) (subInumber : ℤ) :
    Outcome (Option State) :=
  if name.strlen = 0 ∨ maxFileName - 1 < name.strlen then .ret none
  else if (s.inodeTable inode).iNodeType ≠ .T_DIRECTORY then .ret none
  else
    (dataBlockGet s (s.inodeTable inode).iDataBlock).bind fun a =>
      .ret <| (Directory.freeEntry s.fsData a s.maxDirEntries).map fun i =>
        { s with fsData := Directory.fillEntry s.fsData a i name subInumber }

/-- `find_in_dir`. -/
def findInDir (s : State) (inode : ℕ) (name : CString) : Outcome ℤ :=
  if (s.inodeTable inode).iNodeType ≠ .T_DIRECTORY then .ret (-1)
  else
    (dataBlockGet s (s.inodeTable inode).iDataBlock).bind fun a =>
      .ret <| (Directory.findEntry s.fsData a s.maxDirEntries name).elim (-1) fun i =>
        Directory.dInumber s.fsData a i

/-- `add_to_open_file_table`. -/
def addToOpenFileTable (s : State) (inumber : ℤ) (offset : ℕ) : ℤ × State :=
  match firstFree s.freeOpenFileEntries s.maxOpenFiles with
  | none => (-1, s)
  | some i => (i, (s.setFreeEntry i .TAKEN).setEntry i ⟨inumber, offset⟩)

/-- `remove_from_open_file_table`. -/
def removeFromOpenFileTable (s : State) (fh : ℤ) : Outcome State :=
  if validFileHandle s fh then
    if s.freeOpenFileEntries fh.toNat = .TAKEN then .ret (s.setFreeEntry fh.toNat .FREE)
    else .abort
  else .abort

/-- `get_open_file_entry`: the index of the entry, `none` for a null pointer. -/
def getOpenFileEntry (s : State) (fh : ℤ) : Option ℕ :=
  if validFileHandle s fh then
    if s.freeOpenFileEntries fh.toNat ≠ .TAKEN then none else some fh.toNat
  else none

end TfsBroker.Fs2
