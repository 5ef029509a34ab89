import GatOS.MachineInt
import GatOS.Octets

/-!
# The disk utility

`bmfs.c`, with which the disk image of the system is made. A disk has blocks of 2 MiB, and in the
first one a directory of 64 records. A run of the utility reads the directory, carries out one
command and writes the directory back. A file has consecutive blocks, and the first and the last
block of the disk are nobody's.
-/
namespace GatOS.BMFS
open Octets MachineInt

abbrev Bytes := ℕ → UInt8

/-- The disk image: a file of the host. -/
structure Disk where
  size : ℕ
  bytes : Bytes

def blockSize : ℕ := 2097152

/-! ### Records -/

/-- The 64 bytes of a record. -/
def entry (directory : Bytes) (tint : ℕ) : Bytes := fun i => directory (64 * tint + i)

/-- The characters in front of the first zero. -/
def fileName (e : Bytes) : List UInt8 := (get 0 64 e).takeWhile (· ≠ 0)

def startingBlock (e : Bytes) : ℕ := ofOctets (get 32 8 e)

def reservedBlocks (e : Bytes) : ℕ := ofOctets (get 40 8 e)

def fileSize (e : Bytes) : ℕ := ofOctets (get 48 8 e)

/-! ### The directory -/

def findfileFrom (directory : Bytes) (filename : List UInt8) : ℕ → ℕ → Option ℕ
  | 0, _ => none
  | n + 1, tint =>
    let e := entry directory tint
    if e 0 = 0 then none
    else if e 0 = 1 then findfileFrom directory filename n (tint + 1)
    else if filename = fileName e then some tint
    else findfileFrom directory filename n (tint + 1)

/-- The record of a file. -/
def findfile (directory : Bytes) (filename : List UInt8) : Option ℕ :=
  findfileFrom directory filename 64 0

def listFrom (directory : Bytes) : ℕ → ℕ → List (List UInt8 × ℕ × ℕ)
  | 0, _ => []
  | n + 1, tint =>
    let e := entry directory tint
    if e 0 = 0 then []
    else if e 0 = 1 then listFrom directory n (tint + 1)
    else (fileName e, fileSize e, reservedBlocks e * 2 % 2 ^ 64) ::
      listFrom directory n (tint + 1)

/-- The lines of `list`: names, sizes and MiB. -/
def list (directory : Bytes) : List (List UInt8 × ℕ × ℕ) := listFrom directory 64 0

/-! ### The disk -/

def Disk.directory (d : Disk) : Bytes := fun i => d.bytes (4096 + i)

/-- The size in MiB. -/
def Disk.disksize (d : Disk) : ℕ := uint32 (d.size / 1048576)

/-- `fwrite` from a place of the file on. -/
def Disk.store (a : ℕ) (l : List UInt8) (d : Disk) : Disk :=
  ⟨if l = [] then d.size else max d.size (a + l.length), put a l d.bytes⟩

/-- The directory is written to the disk. -/
def Disk.flush (directory : Bytes) (d : Disk) : Disk where
  size := max d.size 8192
  bytes b := if 4096 ≤ b ∧ b < 8192 then directory (b - 4096) else d.bytes b

def tolower (c : UInt8) : UInt8 := if 65 ≤ c ∧ c ≤ 90 then c + 32 else c

/-- `strcasecmp` finds no difference. -/
def sameCaseless (l r : List UInt8) : Prop := l.map tolower = r.map tolower

instance (l r : List UInt8) : Decidable (sameCaseless l r) := inferInstanceAs (Decidable (_ = _))

/-- `BMFS` -/
def fsTag : List UInt8 := [66, 77, 70, 83]

/-- Is it a BMFS formatted disk? -/
def Disk.formatted (d : Disk) : Prop :=
  sameCaseless ((get 1024 512 d.bytes).takeWhile (· ≠ 0)) fsTag

instance (d : Disk) : Decidable d.formatted := inferInstanceAs (Decidable (sameCaseless _ _))

/-- The tag between zeros, and an empty directory. -/
def format (d : Disk) : Disk :=
  Disk.flush (fun _ => 0) ⟨max d.size 1536, fun b =>
    if 1024 ≤ b ∧ b < 1536 then fsTag.getD (b - 1024) 0 else d.bytes b⟩

/-! ### New files -/

/-- `numUsedEntries` counts the records in front of the end of the directory, and stays 0 where the
directory is full. -/
def countFrom (directory : Bytes) : ℕ → ℕ → Option ℕ → ℕ × Option ℕ
  | 0, _, firstFree => (0, firstFree)
  | n + 1, tint, firstFree =>
    let e := entry directory tint
    if e 0 = 0 then (tint, firstFree <|> some tint)
    else if e 0 = 1 then countFrom directory n (tint + 1) (firstFree <|> some tint)
    else countFrom directory n (tint + 1) firstFree

/-- The order for `qsort`: empty records go to the end. -/
def startingBlockCmp (ea eb : Bytes) : ℤ :=
  if ea 0 = 1 then 1
  else if eb 0 = 1 then -1
  else int32 (uint64Sub (startingBlock ea) (startingBlock eb))

/-- The order does not ask for `eb` in front of `ea`. -/
def Precedes (ea eb : Bytes) : Prop := startingBlockCmp ea eb ≤ 0 ∨ 0 ≤ startingBlockCmp eb ea

/-- What `qsort` does with this order. The difference of the numbers is an `int`, so it has to be
small. -/
structure Qsort where
  sort : List Bytes → List Bytes
  perm : ∀ l, (sort l).Perm l
  sorted : ∀ l, (∀ e ∈ l, startingBlock e < 2 ^ 31) → (sort l).Pairwise Precedes

/-- The search for an area with enough free blocks; 0 where there is none. -/
def searchArea (numBlocks blocksRequested : ℕ) : ℕ → List Bytes → ℕ
  | prevFileEnd, [] =>
    if blocksRequested ≤ uint64Sub (uint64Sub numBlocks 1) prevFileEnd then prevFileEnd else 0
  | prevFileEnd, e :: es =>
    let thisFileStart := if e 0 = 1 then uint64Sub numBlocks 1 else startingBlock e
    if blocksRequested ≤ uint64Sub thisFileStart prevFileEnd then prevFileEnd
    else searchArea numBlocks blocksRequested ((startingBlock e + reservedBlocks e) % 2 ^ 64) es

/-- A record is written field by field, the name last. -/
def addRecord (tint : ℕ) (filename : List UInt8) (newFileStart blocksRequested : ℕ)
    (directory : Bytes) : Bytes :=
  let directory := put (64 * tint + 32) (toOctets 8 newFileStart) directory
  let directory := put (64 * tint + 40) (toOctets 8 blocksRequested) directory
  let directory := put (64 * tint + 48) (toOctets 8 0) directory
  put (64 * tint) (filename ++ [0]) directory

/-- What a run prints, and the local file that `read` makes. -/
inductive Reply
  | notFormatted
  | unknownCommand
  | listing (lines : List (List UInt8 × ℕ × ℕ))
  | formatComplete
  | formatAborted
  | invalidFileSize
  | fileExists
  | noFreeEntries
  | cannotCreate (maxsize : ℕ)
  | complete
  | fileNotFound
  | couldNotOpen (filename : List UInt8)
  | notEnoughSpace
  | saved (filename data : List UInt8)
deriving DecidableEq

def create (q : Qsort) (filename : List UInt8) (maxsize : ℕ) (d : Disk) : Disk × Reply :=
  let maxsize := if maxsize % 2 ≠ 0 then (maxsize + 1) % 2 ^ 64 else maxsize
  match findfile d.directory filename with
  | some _ => (d, .fileExists)
  | none =>
    let blocksRequested := maxsize / 2
    let numBlocks := d.disksize / 2
    let (numUsedEntries, firstFreeEntry) := countFrom d.directory 64 0 none
    match firstFreeEntry with
    | none => (d, .noFreeEntries)
    | some tint =>
      let dirCopy := q.sort ((List.range numUsedEntries).map (entry d.directory))
      let newFileStart := searchArea numBlocks blocksRequested 1 dirCopy
      if newFileStart = 0 then (d, .cannotCreate maxsize)
      else
        let directory := addRecord tint filename newFileStart blocksRequested d.directory
        -- the end of the directory was used, so the next record gets the mark
        let directory := if tint = numUsedEntries ∧ numUsedEntries + 1 < 64 then
          put (64 * (numUsedEntries + 1)) [0] directory else directory
        (d.flush directory, .complete)

/-! ### Files -/

/-- `opens` says whether the local file can be opened. Behind the end of the disk `getc` returns
`EOF`. -/
def read (filename : List UInt8) (opens : Bool) (d : Disk) : Disk × Reply :=
  match findfile d.directory filename with
  | none => (d, .fileNotFound)
  | some slot =>
    let e := entry d.directory slot
    if opens then
      let start := startingBlock e * blockSize % 2 ^ 64
      (d, .saved (fileName e) ((List.range (fileSize e)).map fun tint =>
        if start + tint < d.size then d.bytes (start + tint) else 255))
    else (d, .couldNotOpen (fileName e))

/-- `tfile` is the local file, when it can be opened. -/
def write (filename : List UInt8) (tfile : Option (List UInt8)) (d : Disk) : Disk × Reply :=
  match findfile d.directory filename with
  | none => (d, .fileNotFound)
  | some slot =>
    let e := entry d.directory slot
    match tfile with
    | none => (d, .couldNotOpen (fileName e))
    | some data =>
      if reservedBlocks e * blockSize % 2 ^ 64 < data.length then (d, .notEnoughSpace)
      else
        let written := d.store (startingBlock e * blockSize % 2 ^ 64) data
        (written.flush (put (64 * slot + 48) (toOctets 8 data.length) d.directory), .complete)

def delete (filename : List UInt8) (d : Disk) : Disk × Reply :=
  match findfile d.directory filename with
  | none => (d, .fileNotFound)
  | some slot => (d.flush (put (64 * slot) [1] d.directory), .complete)

/-! ### Commands -/

/-- The command line, with the numbers that `atoi` reads from it or from the keyboard. -/
inductive Command
  | list
  | format (force : Bool)
  | create (filename : List UInt8) (filesize : ℤ)
  | createAsked (filename : List UInt8) (filesize : ℤ)
  | read (filename : List UInt8) (opens : Bool)
  | write (filename : List UInt8) (tfile : Option (List UInt8))
  | delete (filename : List UInt8)
  | unknown

/-- A run of the utility on a disk that can be opened. -/
def main (q : Qsort) (c : Command) (d : Disk) : Disk × Reply :=
  if d.formatted then
    match c with
    | .list => (d, .listing (list d.directory))
    | .format force => if force then (format d, .formatComplete) else (d, .formatAborted)
    | .create filename filesize =>
      if 1 ≤ filesize then create q filename filesize.toNat d else (d, .invalidFileSize)
    | .createAsked filename filesize =>
      -- here the number is unsigned
      let filesize := (filesize % 2 ^ 32).toNat
      if 1 ≤ filesize then create q filename filesize d else (d, .invalidFileSize)
    | .read filename opens => read filename opens d
    | .write filename tfile => write filename tfile d
    | .delete filename => delete filename d
    | .unknown => (d, .unknownCommand)
  else
    match c with
    | .format _ => (format d, .formatComplete)
    | _ => (d, .notFormatted)

end GatOS.BMFS
