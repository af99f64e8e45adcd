import TfsBroker.Fs.Operations

/-!
# What `fs/` is for

A file system is a directory of names for inodes, the inodes, which are files of bytes or symbolic
links to other names, and the open handles, which stand somewhere in a file. Nothing is said here of
slots, link counters, directory entries or the data area; only the number of free blocks is left of
them, since the calls fail when there is none.

`Step` says for each call of the interface what it may answer and what it leaves. Only two things
are left open: the bytes behind the end of a file, which a handle sees that stands there after the
file was truncated, and the numbers of new inodes and handles.

## Main definitions

* `Files` — names, inodes and handles
* `Files.Leads` — following symbolic links from a name to a file
* `Files.Step` — what a call answers and leaves
* `Files.Returns` — when it answers at all
-/

namespace TfsBroker.Fs

/-- An inode, as its users know it. -/
inductive Node
  | file (bytes : List UInt8)
  /-- A symbolic link to a name. -/
  | link (target : CString)
  deriving DecidableEq

/-- Where an open handle stands. -/
structure Position where
  inumber : ℕ
  offset : ℕ
  deriving DecidableEq

/-- The names, the inodes, the open handles, and the number of free blocks. -/
@[ext]
structure Files where
  entries : CString → Option ℕ
  node : ℕ → Option Node
  handle : ℕ → Option Position
  free : ℕ

namespace Files

/-- The name in a path, if the path is valid. -/
def nameOf (path : Option CString) : Option CString :=
  if validPathname path then some (subName path) else none

variable (p : TfsParams) (F : Files)

/-- After `tfs_init`. -/
def empty : Files := ⟨fun _ => none, fun _ => none, fun _ => none, p.maxBlockCount - 1⟩

/-- The inode that a path is entered for. -/
def lookup (path : Option CString) : Option ℕ := (nameOf path).bind F.entries

/-- Following symbolic links, if they are to be followed, leads from the name to a file. -/
inductive Leads (follow : Bool) : CString → ℕ → Prop
  | file {name : CString} {k : ℕ} {bytes : List UInt8} :
      F.entries name = some k → F.node k = some (.file bytes) → Leads follow name k
  | link {name target : CString} {k j : ℕ} :
      follow = true → F.entries name = some k → F.node k = some (.link target) →
      Leads follow target j → Leads follow name j

/-! ### When there is no room -/

/-- All inodes are in use. -/
def NoInode : Prop := ∀ k, 0 < k → k < p.maxInodeCount → F.node k ≠ none

/-- All handles are open. -/
def NoHandle : Prop := ∀ fh < p.maxOpenFilesCount, F.handle fh ≠ none

/-- The directory takes no entry for the name: it is full, or the name is too long. -/
def NoEntry (name : CString) : Prop :=
  (∃ names : Fin (p.blockSize / dirEntrySize) → CString,
    Function.Injective names ∧ ∀ i, F.entries (names i) ≠ none) ∨ maxFileName ≤ name.strlen

/-! ### The changes -/

/-- An inode that is not in use. -/
structure Fresh (k : ℕ) : Prop where
  pos : 0 < k
  lt : k < p.maxInodeCount
  node : F.node k = none

/-- A new inode is entered under a name. -/
def enter (name : CString) (k : ℕ) (node : Node) : Files :=
  { F with
    entries := Function.update F.entries name (some k)
    node := Function.update F.node k (some node) }

/-- A name is removed. -/
def remove (name : CString) : Files := { F with entries := Function.update F.entries name none }

/-- A handle is opened or moved, or closed. -/
def place (fh : ℕ) (position : Option Position) : Files :=
  { F with handle := Function.update F.handle fh position }

/-- A file is emptied, and gives back its block if it had one. -/
def truncate (k : ℕ) : Files :=
  match F.node k with
  | some (.file (_ :: _)) =>
    { F with node := Function.update F.node k (some (.file [])), free := F.free + 1 }
  | _ => F

/-- An inode is given back, with the block of a file. A symbolic link does not give back its
block. -/
def delete (k : ℕ) : Files :=
  { F with
    node := Function.update F.node k none
    free := F.free +
      match F.node k with
      | some (.file (_ :: _)) => 1
      | _ => 0 }

/-- The size of a file. -/
def size (k : ℕ) : ℕ :=
  match F.node k with
  | some (.file bytes) => bytes.length
  | _ => 0

/-- `bytes'` are the bytes of a file after `new` was written to it from `offset` on. Between the end
of the file and the offset they are any. -/
structure Overwrites (bytes : List UInt8) (offset : ℕ) (new bytes' : List UInt8) : Prop where
  length : bytes'.length = max bytes.length (offset + new.length)
  written : ∀ i < new.length, bytes'[offset + i]? = new[i]?
  kept : ∀ i < bytes.length, (i < offset ∨ offset + new.length ≤ i) → bytes'[i]? = bytes[i]?

/-! ### The calls -/

/-- A handle for the file `k` is opened at an offset. -/
inductive Registers (k offset : ℕ) : ℤ → Files → Prop
  | full : F.NoHandle p → Registers k offset (-1) F
  | opens (fh : ℕ) : fh < p.maxOpenFilesCount → F.handle fh = none →
      Registers k offset fh (F.place fh (some ⟨k, offset⟩))

/-- `tfs_open`. -/
inductive Opens (path : Option CString) (mode : ℕ) : ℤ → Files → Prop
  /-- The path leads to no file, and is not to be created. -/
  | unknown : (∀ name, nameOf path = some name →
      (∀ k, ¬ F.Leads (!hasFlag mode tfsOCreat) name k) ∧
        (F.entries name = none → hasFlag mode tfsOCreat = false)) → Opens path mode (-1) F
  | full (name : CString) : nameOf path = some name → F.entries name = none →
      hasFlag mode tfsOCreat = true → F.NoInode p ∨ F.NoEntry p name → Opens path mode (-1) F
  | creates (name : CString) (k : ℕ) (fd : ℤ) (F' : Files) : nameOf path = some name →
      F.entries name = none → hasFlag mode tfsOCreat = true → F.Fresh p k →
      (F.enter name k (.file [])).Registers p k 0 fd F' → Opens path mode fd F'
  /-- A file is truncated also when no handle is left for it. -/
  | finds (name : CString) (k : ℕ) (fd : ℤ) (F₁ F' : Files) : nameOf path = some name →
      F.Leads (!hasFlag mode tfsOCreat) name k →
      F₁ = (if hasFlag mode tfsOTrunc then F.truncate k else F) →
      F₁.Registers p k (if hasFlag mode tfsOAppend then F₁.size k else 0) fd F' →
      Opens path mode fd F'

/-- `tfs_close`. -/
inductive Closes (fhandle : ℤ) : ℤ → Files → Prop
  | unknown : (∀ fh : ℕ, fhandle = fh → F.handle fh = none) → Closes fhandle (-1) F
  | closes (fh : ℕ) (q : Position) : fhandle = fh → F.handle fh = some q →
      Closes fhandle 0 (F.place fh none)

/-- `tfs_write`: as much as fits into the block. -/
inductive Writes (fhandle : ℤ) (buffer : ℕ → UInt8) (len : ℕ) : ℤ → Files → Prop
  | unknown : (∀ fh : ℕ, fhandle = fh → F.handle fh = none) → Writes fhandle buffer len (-1) F
  | nothing (fh : ℕ) (q : Position) : fhandle = fh → F.handle fh = some q →
      min len (p.blockSize - q.offset) = 0 → Writes fhandle buffer len 0 F
  | noBlock (fh : ℕ) (q : Position) : fhandle = fh → F.handle fh = some q →
      F.node q.inumber = some (.file []) → F.free = 0 → 0 < len ∨ p.blockSize < q.offset →
      Writes fhandle buffer len (-1) F
  | writes (fh : ℕ) (q : Position) (bytes bytes' : List UInt8) (n : ℕ) : fhandle = fh →
      F.handle fh = some q → F.node q.inumber = some (.file bytes) →
      n = min len (p.blockSize - q.offset) → 0 < n → (bytes = [] → 0 < F.free) →
      Overwrites bytes q.offset ((List.range n).map buffer) bytes' →
      Writes fhandle buffer len n
        { F.place fh (some ⟨q.inumber, q.offset + n⟩) with
          node := Function.update F.node q.inumber (some (.file bytes'))
          free := if bytes = [] then F.free - 1 else F.free }

/-- `tfs_read`. -/
inductive Reads (fhandle : ℤ) (len : ℕ) : ReadResult → Files → Prop
  | unknown : (∀ fh : ℕ, fhandle = fh → F.handle fh = none) → Reads fhandle len ⟨-1, []⟩ F
  | reads (fh : ℕ) (q : Position) (bytes out : List UInt8) : fhandle = fh → F.handle fh = some q →
      F.node q.inumber = some (.file bytes) → q.offset ≤ bytes.length →
      out = (bytes.drop q.offset).take len →
      Reads fhandle len ⟨out.length, out⟩ (F.place fh (some ⟨q.inumber, q.offset + out.length⟩))
  /-- The handle stands behind the end of its file. -/
  | behind (fh : ℕ) (q : Position) (bytes out : List UInt8) : fhandle = fh →
      F.handle fh = some q → F.node q.inumber = some (.file bytes) → bytes.length < q.offset →
      out.length ≤ len →
      Reads fhandle len ⟨out.length, out⟩ (F.place fh (some ⟨q.inumber, q.offset + out.length⟩))
  | behindFails (fh : ℕ) (q : Position) (bytes : List UInt8) : fhandle = fh →
      F.handle fh = some q → F.node q.inumber = some (.file bytes) → bytes.length < q.offset →
      Reads fhandle len ⟨-1, []⟩ F

/-- `tfs_link`. -/
inductive Links (target linkName : Option CString) : ℤ → Files → Prop
  | unknown : F.lookup target = none → Links target linkName (-1) F
  | badName : nameOf linkName = none → Links target linkName (-1) F
  | exists (name : CString) (k : ℕ) : nameOf linkName = some name → F.entries name = some k →
      Links target linkName (-1) F
  | isLink (k : ℕ) (next : CString) : F.lookup target = some k → F.node k = some (.link next) →
      Links target linkName (-1) F
  | full (name : CString) : nameOf linkName = some name → F.NoEntry p name →
      Links target linkName (-1) F
  | links (name : CString) (k : ℕ) (bytes : List UInt8) : nameOf linkName = some name →
      F.entries name = none → F.lookup target = some k → F.node k = some (.file bytes) →
      Links target linkName 0 { F with entries := Function.update F.entries name (some k) }

/-- `tfs_sym_link`. -/
inductive SymLinks (target linkName : Option CString) : ℤ → Files → Prop
  | unknown : F.lookup target = none → SymLinks target linkName (-1) F
  | badName : nameOf linkName = none → SymLinks target linkName (-1) F
  | exists (name : CString) (k : ℕ) : nameOf linkName = some name → F.entries name = some k →
      SymLinks target linkName (-1) F
  | full : F.NoInode p ∨ F.free = 0 → SymLinks target linkName (-1) F
  /-- The block that was allocated for the target is not given back. -/
  | noEntry (name : CString) (k : ℕ) : nameOf linkName = some name → F.entries name = none →
      F.lookup target = some k → 0 < F.free → F.NoEntry p name →
      SymLinks target linkName (-1) { F with free := F.free - 1 }
  | links (name next : CString) (j k : ℕ) : nameOf linkName = some name → F.entries name = none →
      nameOf target = some next → F.entries next = some j → F.Fresh p k → 0 < F.free →
      SymLinks target linkName 0 { F.enter name k (.link next) with free := F.free - 1 }

/-- A handle is open on the inode `k`. -/
def IsOpen (k : ℕ) : Prop := ∃ fh q, F.handle fh = some q ∧ q.inumber = k

/-- `tfs_unlink`: the inode is deleted with its last name. -/
inductive Unlinks (target : Option CString) : ℤ → Files → Prop
  | unknown : F.lookup target = none → Unlinks target (-1) F
  | busy (k : ℕ) (bytes : List UInt8) : F.lookup target = some k →
      F.node k = some (.file bytes) → F.IsOpen k → Unlinks target (-1) F
  | removes (name other : CString) (k : ℕ) : nameOf target = some name → F.entries name = some k →
      ¬ F.IsOpen k → other ≠ name → F.entries other = some k → Unlinks target 0 (F.remove name)
  | deletes (name : CString) (k : ℕ) : nameOf target = some name → F.entries name = some k →
      ¬ F.IsOpen k → (∀ other, other ≠ name → F.entries other ≠ some k) →
      Unlinks target 0 ((F.remove name).delete k)

/-- `tfs_copy_from_external_fs`: open, write, close. -/
inductive Copies (source : Option ExternalFile) (destPath : Option CString) : ℤ → Files → Prop
  | noSource : source = none → Copies source destPath (-1) F
  | tooLong (file : ExternalFile) : source = some file → p.blockSize < file.contents.length →
      Copies source destPath (-1) F
  | notOpened (file : ExternalFile) (F₁ : Files) : source = some file →
      F.Opens p destPath (tfsOTrunc ||| tfsOCreat) (-1) F₁ → Copies source destPath (-1) F₁
  | notWritten (file : ExternalFile) (fd r : ℤ) (F₁ F₂ F₃ : Files) : source = some file →
      F.Opens p destPath (tfsOTrunc ||| tfsOCreat) fd F₁ → fd ≠ -1 →
      F₁.Writes p fd (fun i => file.contents.getD i 0) file.contents.length (-1) F₂ →
      F₂.Closes fd r F₃ → Copies source destPath (-1) F₃
  /-- `fclose` failed, and the handle stays open. -/
  | staysOpen (file : ExternalFile) (fd r : ℤ) (F₁ F₂ : Files) : source = some file →
      F.Opens p destPath (tfsOTrunc ||| tfsOCreat) fd F₁ → fd ≠ -1 →
      F₁.Writes p fd (fun i => file.contents.getD i 0) file.contents.length r F₂ → r ≠ -1 →
      file.closes = false → Copies source destPath (-1) F₂
  | copies (file : ExternalFile) (fd r r' : ℤ) (F₁ F₂ F₃ : Files) : source = some file →
      F.Opens p destPath (tfsOTrunc ||| tfsOCreat) fd F₁ → fd ≠ -1 →
      F₁.Writes p fd (fun i => file.contents.getD i 0) file.contents.length r F₂ → r ≠ -1 →
      file.closes = true → F₂.Closes fd r' F₃ → Copies source destPath r' F₃

/-- What a call answers and leaves. -/
def Step : Call → ReadResult → Files → Prop
  | .open path mode _, r, F' => r.bytes = [] ∧ F.Opens p path mode r.ret F'
  | .close fhandle, r, F' => r.bytes = [] ∧ F.Closes fhandle r.ret F'
  | .write fhandle buffer len, r, F' => r.bytes = [] ∧ F.Writes p fhandle buffer len.toNat r.ret F'
  | .read fhandle len, r, F' => F.Reads fhandle len.toNat r F'
  | .link target linkName, r, F' => r.bytes = [] ∧ F.Links p target linkName r.ret F'
  | .symLink target linkName, r, F' => r.bytes = [] ∧ F.SymLinks p target linkName r.ret F'
  | .unlink target, r, F' => r.bytes = [] ∧ F.Unlinks target r.ret F'
  | .copyFromExternalFs source destPath _, r, F' =>
    r.bytes = [] ∧ F.Copies p source destPath r.ret F'

/-! ### When a call returns -/

/-- Symbolic links from the name on, if they are to be followed, end before the `n`-th. -/
inductive Within (follow : Bool) : ℕ → CString → Prop
  | ends {n : ℕ} {name : CString} :
      (∀ k target, F.entries name = some k → F.node k = some (.link target) → follow = false) →
      Within follow (n + 1) name
  | link {n k : ℕ} {name target : CString} : F.entries name = some k →
      F.node k = some (.link target) → Within follow n target → Within follow (n + 1) name

/-- `tfs_open` comes to the end of the symbolic links. -/
def OpenReturns (path : Option CString) (mode depth : ℕ) : Prop :=
  0 < depth ∧ ∀ name, nameOf path = some name → F.Within (!hasFlag mode tfsOCreat) depth name

/-- The call follows not too many symbolic links, and does not leave the data area: it goes through
no handle that stands behind the end of its file, and what is to be written is not too long. -/
def Returns : Call → Prop
  | .open path mode depth => F.OpenReturns path mode depth
  | .write fhandle _ len => ∀ (fh : ℕ) q, fhandle = fh → F.handle fh = some q →
      q.offset ≤ F.size q.inumber ∧ len.toNat + q.offset < sizeRange
  | .read fhandle _ => ∀ (fh : ℕ) q, fhandle = fh → F.handle fh = some q →
      q.offset ≤ F.size q.inumber
  | .copyFromExternalFs _ destPath depth => F.OpenReturns destPath (tfsOTrunc ||| tfsOCreat) depth
  | _ => True

end Files

end TfsBroker.Fs
