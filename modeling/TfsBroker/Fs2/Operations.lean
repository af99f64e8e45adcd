import TfsBroker.Fs2.State

/-!
# The operations of `fs2/` (`fs2/operations.c`)

Every operation runs wholly under `g_library_mutex`, so a call is one step. Sizes
wrap as `size_t` does, and an access that leaves the data area is a `fault`.
-/

namespace TfsBroker.Fs2

open State

/-- `tfs_init` on the uninitialised module: whether it answers 0, and the state
it leaves. -/
def tfsInit (heap : Heap) (params : TfsParams) : Outcome (Bool × State) :=
  (inodeCreate (stateInit heap params) .T_DIRECTORY).bind fun (root, s) =>
    .ret (root = some rootDirInum, s)

/-- `tfs_lookup`. -/
def tfsLookup (s : State) (name : Option CString) (root : ℕ) : Outcome ℤ :=
  if validPathname name then findInDir s root (subName name) else .ret (-1)

/-- The truncation of `tfs_open`. -/
def truncate (s : State) (k : ℕ) : Outcome State :=
  if 0 < (s.inodeTable k).iSize then
    (dataBlockFree s (s.inodeTable k).iDataBlock).bind fun s =>
      .ret (s.setInode k { s.inodeTable k with iSize := 0 })
  else .ret s

/-- `tfs_open`. -/
def tfsOpen (s : State) (name : Option CString) (mode : ℕ) : Outcome (ℤ × State) :=
  if validPathname name then
    (inodeGet s rootDirInum).bind fun root =>
      (tfsLookup s name root).bind fun inum =>
        if 0 ≤ inum then
          (inodeGet s inum).bind fun k =>
            (if hasFlag mode tfsOTrunc then truncate s k else .ret s).bind fun s =>
              .ret (addToOpenFileTable s inum
                (if hasFlag mode tfsOAppend then (s.inodeTable k).iSize else 0))
        else if hasFlag mode tfsOCreat then
          (inodeCreate s .T_FILE).bind fun
            | (none, s) => .ret (-1, s)
            | (some inum, s) =>
              (addDirEntry s root (subName name) inum).bind fun
                | none => (inodeDelete s inum).bind fun s => .ret (-1, s)
                | some s => .ret (addToOpenFileTable s inum 0)
        else .ret (-1, s)
  else .ret (-1, s)

/-- `tfs_close`. -/
def tfsClose (s : State) (fhandle : ℤ) : Outcome (ℤ × State) :=
  match getOpenFileEntry s fhandle with
  | none => .ret (-1, s)
  | some _ => (removeFromOpenFileTable s fhandle).bind fun s => .ret (0, s)

/-- `tfs_write`. -/
def tfsWrite (s : State) (fhandle : ℤ) (buffer : ℕ → UInt8) (toWrite : ℕ) :
    Outcome (ℤ × State) :=
  match getOpenFileEntry s fhandle with
  | none => .ret (-1, s)
  | some fh =>
    (inodeGet s (s.openFileTable fh).ofInumber).bind fun k =>
      let offset := (s.openFileTable fh).ofOffset
      let toWrite := clampWrite s.blockSize offset toWrite
      if 0 < toWrite then
        let alloc :=
          if (s.inodeTable k).iSize = 0 then
            (dataBlockAlloc s).map fun (b, s) => s.setInode k { s.inodeTable k with iDataBlock := b }
          else some s
        match alloc with
        | none => .ret (-1, s)
        | some s =>
          (dataBlockGet s (s.inodeTable k).iDataBlock).bind fun a =>
            if a + offset + toWrite ≤ s.dataSize then
              let s := { s with fsData := s.fsData.memcpy (a + offset) toWrite buffer }
              let offset := (offset + toWrite) % sizeRange
              let s := s.setEntry fh { s.openFileTable fh with ofOffset := offset }
              let s :=
                if (s.inodeTable k).iSize < offset then
                  s.setInode k { s.inodeTable k with iSize := offset }
                else s
              .ret (toWrite, s)
            else .fault
      else .ret (0, s)

/-- `tfs_read`. -/
def tfsRead (s : State) (fhandle : ℤ) (len : ℕ) : Outcome (ReadResult × State) :=
  match getOpenFileEntry s fhandle with
  | none => .ret (⟨-1, []⟩, s)
  | some fh =>
    (inodeGet s (s.openFileTable fh).ofInumber).bind fun k =>
      let offset := (s.openFileTable fh).ofOffset
      let toRead := clampRead (s.inodeTable k).iSize offset len
      if 0 < toRead then
        (dataBlockGet s (s.inodeTable k).iDataBlock).bind fun a =>
          if a + offset + toRead ≤ s.dataSize then
            .ret (⟨toRead, s.fsData.slice (a + offset) toRead⟩,
              s.setEntry fh { s.openFileTable fh with ofOffset := (offset + toRead) % sizeRange })
          else .fault
      else .ret (⟨0, []⟩, s)

/-- `tfs_unlink`. -/
def tfsUnlink (s : State) (target : Option CString) : Outcome (ℤ × State) :=
  if validPathname target then
    (inodeGet s rootDirInum).bind fun root =>
      (tfsLookup s target root).bind fun inum =>
        if inum = -1 then .ret (-1, s)
        else
          (inodeDelete s inum).bind fun s =>
            (clearDirEntry s root (subName target)).bind fun
              | none => .ret (-1, s)
              | some s => .ret (0, s)
  else .ret (-1, s)

/-- The states a successful `tfs_init` leaves. -/
def Initialised (s : State) : Prop := ∃ heap params, tfsInit heap params = .ret (true, s)

end TfsBroker.Fs2
