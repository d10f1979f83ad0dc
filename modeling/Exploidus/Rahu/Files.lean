import Exploidus.Lib.Bytes
import Exploidus.Lib.Chunks

/-! The file operations that the package manager uses, with every pattern of failures. -/
namespace Exploidus.Rahu

abbrev Path := List UInt8

structure File where
  bytes : List UInt8
  mode : UInt32
  deriving DecidableEq

/-- What the next operation does, whichever it is. An operation that fails for another reason (a file
that is not there, or one that is) fails in any case. -/
structure Outcome where
  opens : Bool
  /-- The bytes that one `read` gives at most; none is an error. -/
  reads : ℕ
  creates : Bool
  unlinks : Bool
  /-- The bytes that one `write` takes at most. -/
  writes : ℕ
  chmods : Bool
  /-- The bytes that `file_write` writes at most, unless it cannot open or create the file. -/
  saves : Option ℕ
  /-- What `http_download` of a package returns, what the file holds then, and the digest. -/
  fetched : Path → ℤ
  staged : Path → Option (List UInt8)
  digest : Path → List UInt8
  staged_of_fetched : ∀ pkg, 0 < fetched pkg → (staged pkg).isSome = true

/-- The system below: which file a path names, and the outcome of each operation by its number. -/
structure Host (Key : Type) where
  resolve : Path → Key
  outcome : ℕ → Outcome

inductive Event where
  | installed (pkg : Path) (files deps : List Path)
  | removed (pkg : Path)
  deriving DecidableEq

/-- The files, the static `staging_path`, the number of the next operation, and a history that no
function reads. -/
structure World (Key : Type) where
  files : Key → Option File
  staging : Path
  tick : ℕ
  log : List Event

variable {Key : Type} [DecidableEq Key]

namespace World

def tock (w : World Key) : World Key := { w with tick := w.tick + 1 }

def set (w : World Key) (key : Key) (f : Option File) : World Key :=
  { w with files := Function.update w.files key f }

def note (w : World Key) (e : Event) : World Key := { w with log := w.log ++ [e] }

end World

variable (host : Host Key)

/-- `open` for reading; a descriptor reads what the file held then. -/
def openFile (path : Path) (w : World Key) : Option (List UInt8) × World Key :=
  ((w.files (host.resolve path)).bind fun f =>
    if (host.outcome w.tick).opens then some f.bytes else none, w.tock)

/-- One `read` of at most `limit` bytes. -/
def readOnce (limit : ℕ) (src : List UInt8) (w : World Key) : List UInt8 × World Key :=
  (src.take (min limit (host.outcome w.tick).reads), w.tock)

/-- Reading from an open file: the result, if there is one, and the bytes that are left. -/
abbrev Reader (Key α : Type) := List UInt8 → World Key → Option α × List UInt8 × World Key

namespace Reader
variable {α β : Type}

def stop : Reader Key α := fun src w => (none, src, w)

def give (a : α) : Reader Key α := fun src w => (some a, src, w)

/-- One reading after the other, as long as there is a result. -/
def andThen (r : Reader Key α) (k : α → Reader Key β) : Reader Key β := fun src w =>
  match r src w with
  | (none, src, w) => (none, src, w)
  | (some a, src, w) => k a src w

end Reader

/-- `read_exact`: the bytes, if they all came, and the rest. -/
def readExact (n : ℕ) : Reader Key (List UInt8) := fun src w =>
  let r := Chunks.pull n (fun k => (host.outcome k).reads) n w.tick n src
  (r.1, r.2.1, { w with tick := r.2.2 })

/-- `fs_create` of a file. -/
def fsCreate (path : Path) (w : World Key) : Bool × World Key :=
  if (w.files (host.resolve path)).isNone ∧ (host.outcome w.tick).creates then
    (true, (w.set (host.resolve path) (some ⟨[], 0o644⟩)).tock)
  else (false, w.tock)

/-- `unlink`. -/
def unlink (path : Path) (w : World Key) : Bool × World Key :=
  if (w.files (host.resolve path)).isSome ∧ (host.outcome w.tick).unlinks then
    (true, (w.set (host.resolve path) none).tock)
  else (false, w.tock)

/-- `write` at the end of a file that is open; the number of bytes written. -/
def writeChunk (path : Path) (chunk : List UInt8) (w : World Key) : ℕ × World Key :=
  match w.files (host.resolve path) with
  | none => (0, w.tock)
  | some f =>
    let n := min chunk.length (host.outcome w.tick).writes
    (n, (w.set (host.resolve path) (some { f with bytes := f.bytes ++ chunk.take n })).tock)

/-- `chmod`. -/
def chmod (path : Path) (mode : UInt32) (w : World Key) : World Key :=
  match w.files (host.resolve path) with
  | none => w.tock
  | some f =>
    if (host.outcome w.tick).chmods then
      (w.set (host.resolve path) (some { f with mode := mode })).tock
    else w.tock

/-- `file_write`: it writes over the front of a file and does not cut off the rest. -/
def fileWrite (path : Path) (data : List UInt8) (w : World Key) : World Key :=
  match (host.outcome w.tick).saves with
  | none => w.tock
  | some m =>
    let f := (w.files (host.resolve path)).getD ⟨[], 0o644⟩
    let n := min m data.length
    (w.set (host.resolve path) (some { f with bytes := data.take n ++ f.bytes.drop n })).tock

end Exploidus.Rahu
