import Exploidus.Rahu.Files

/-! The package manager: unpacking an archive, installing a package with its dependencies, and
removing one. -/
namespace Exploidus.Rahu
open ByteLayout

def ascii (s : String) : List UInt8 := s.toList.map fun c => UInt8.ofNat c.toNat

def cstr (bs : List UInt8) : Path := bs.takeWhile (· ≠ 0)

/-- A path made in a buffer: the directory and the name up to 60 bytes, and a suffix. -/
def pathFor (dir name suffix : List UInt8) : Path := dir ++ name.take (60 - dir.length) ++ suffix

/-- `/var/rahu/installed/<pkg>.list`. -/
def listPath (pkg : Path) : Path := pathFor (ascii "/var/rahu/installed/") pkg (ascii ".list")

/-- `/var/rahu/installed/<pkg>.dependents`. -/
def dependentsPath (pkg : Path) : Path :=
  pathFor (ascii "/var/rahu/installed/") pkg (ascii ".dependents")

/-- `/var/rahu/tmp/<pkg>.fozu`. -/
def stagingPath (pkg : Path) : Path := pathFor (ascii "/var/rahu/tmp/") pkg (ascii ".fozu")

def installedJson : Path := ascii "/var/rahu/installed.json"
def indexJson : Path := ascii "/var/rahu/index.json"

variable {Key : Type} [DecidableEq Key] (host : Host Key)

/-! The records. -/

/-- `is_installed`. -/
def isInstalled (pkg : Path) (w : World Key) : Bool × World Key :=
  let (c, w) := openFile host (listPath pkg) w
  (c.isSome, w)

/-- The front of a file, as one `read` gives it; nothing if it cannot be opened. -/
def readFront (limit : ℕ) (path : Path) (w : World Key) : List UInt8 × World Key :=
  match openFile host path w with
  | (none, w) => ([], w)
  | (some bytes, w) => readOnce host limit bytes w

/-- `append_line`. -/
def appendLine (path line : Path) (w : World Key) : World Key :=
  let (buf, w) := readFront host 16128 path w
  fileWrite host path (buf ++ line.take (16382 - buf.length) ++ [10]) w

/-- `record_dependent`. -/
def recordDependent (dep dependent : Path) (w : World Key) : World Key :=
  appendLine host (dependentsPath dep) dependent w

def decimal (n : ℕ) : List UInt8 := (Nat.toDigits 10 n).map fun c => UInt8.ofNat c.toNat

/-- `write_manifest_entry`. -/
def writeManifestEntry (pkg : Path) (size : ℕ) (w : World Key) : World Key :=
  let (buf, w) := readFront host 16128 installedJson w
  fileWrite host installedJson
    (buf ++ pkg.take (16352 - buf.length) ++ [32] ++ decimal size ++ [10]) w

/-! Reading an archive. -/

/-- A number of `k` bytes, the lowest first: `read_u32` and `read_u64`. -/
def readNum (k : ℕ) : Reader Key ℕ :=
  (readExact host k).andThen fun bs => .give (le k fun i => bs.getD i 0)

/-- A length of at most `limit`, and that many bytes. -/
def readField (limit : ℕ) : Reader Key (List UInt8) :=
  (readNum host 4).andThen fun n => if limit < n then .stop else readExact host n

/-- The magic, the format, the name, the version and the number of dependencies. -/
def readHeader : Reader Key ℕ :=
  (readExact host 4).andThen fun magic =>
    if magic ≠ ascii "FOZU" then .stop
    else
      (readNum host 4).andThen fun _ => (readField host 200).andThen fun _ =>
        (readField host 64).andThen fun _ => readNum host 4

def readHead : Reader Key (Path × UInt32 × ℕ) :=
  (readField host 200).andThen fun path => (readNum host 4).andThen fun mode =>
    (readNum host 8).andThen fun size => .give (cstr path, UInt32.ofNat mode, size)

/-- The loop of `extract_one_file`, in chunks of 8192 bytes; every round takes a byte or more. -/
def copyChunks (path : Path) : ℕ → ℕ → List UInt8 → World Key → Bool × List UInt8 × World Key
  | 0, remaining, src, w => (decide (remaining = 0), src, w)
  | fuel + 1, remaining, src, w =>
    if remaining = 0 then (true, src, w)
    else
      let want := min remaining 8192
      match readExact host want src w with
      | (none, src, w) => (false, src, w)
      | (some chunk, src, w) =>
        let (n, w) := writeChunk host path chunk w
        if n ≠ want then (false, src, w) else copyChunks path fuel (remaining - want) src w

/-- The new file of `extract_one_file`; one that is in the way is removed. -/
def createFresh (path : Path) (w : World Key) : Bool × World Key :=
  match fsCreate host path w with
  | (true, w) => (true, w)
  | (false, w) => fsCreate host path (unlink host path w).2

/-- `extract_one_file`. -/
def extractOneFile (path : Path) (mode : UInt32) (size : ℕ) (src : List UInt8) (w : World Key) :
    Bool × List UInt8 × World Key :=
  match createFresh host path w with
  | (false, w) => (false, src, w)
  | (true, w) =>
    match copyChunks host path (src.length + 1) size src w with
    | (false, src, w) => (false, src, w)
    | (true, src, w) => (true, src, chmod host path mode w)

/-- The files of an archive: the paths that were installed, and whether the end was reached. -/
def unpackFiles (manifest : Path) :
    ℕ → List Path → List UInt8 → World Key → List Path × Bool × World Key
  | 0, done, _, w => (done, true, w)
  | count + 1, done, src, w =>
    match readHead host src w with
    | (none, _, w) => (done, false, w)
    | (some (path, mode, size), src, w) =>
      match extractOneFile host path mode size src w with
      | (false, _, w) => (done, false, w)
      | (true, src, w) =>
        unpackFiles manifest count (done ++ [path]) src (appendLine host manifest path w)

/-- The dependencies of an archive. `install` installs a package, unless the chain is too deep. -/
def unpackDeps (install : Option (Path → World Key → Bool × World Key)) (pkg : Path) :
    ℕ → List Path → List UInt8 → World Key → Option (List Path) × List UInt8 × World Key
  | 0, deps, src, w => (some deps, src, w)
  | count + 1, deps, src, w =>
    match readField host 63 src w with
    | (none, src, w) => (none, src, w)
    | (some name, src, w) =>
      let dep := cstr name
      match isInstalled host dep w with
      | (true, w) =>
        unpackDeps install pkg count (deps ++ [dep]) src (recordDependent host dep pkg w)
      | (false, w) =>
        match install with
        | none => (none, src, w)
        | some f =>
          match f dep w with
          | (false, w) => (none, src, w)
          | (true, w) =>
            unpackDeps install pkg count (deps ++ [dep]) src (recordDependent host dep pkg w)

/-- The end of `unpack_fozu`: the manifest and the files. -/
def unpackContents (pkg : Path) (deps : List Path) (count : ℕ) (src : List UInt8) (w : World Key) :
    ℤ × World Key :=
  let (done, complete, w) := unpackFiles host (listPath pkg) count [] src
    (unlink host (listPath pkg) w).2
  let w := if done = [] then w else w.note (.installed pkg done deps)
  (if complete ∨ 0 < done.length then done.length else -1, w)

/-- `unpack_fozu`. -/
def unpackFozu (install : Option (Path → World Key → Bool × World Key)) (fozuPath pkg : Path)
    (w : World Key) : ℤ × World Key :=
  match openFile host fozuPath w with
  | (none, w) => (-1, w)
  | (some src, w) =>
    match readHeader host src w with
    | (none, _, w) => (-1, w)
    | (some depCount, src, w) =>
      match unpackDeps host install pkg depCount [] src w with
      | (none, _, w) => (-1, w)
      | (some deps, src, w) =>
        match readNum host 4 src w with
        | (none, _, w) => (-1, w)
        | (some fileCount, src, w) => unpackContents host pkg deps fileCount src w

/-! Installing a package. -/

/-- The hash of a line of the index, if the line is for the package. -/
def lineHash (pkg line : Path) : Option (List UInt8) :=
  if pkg <+: cstr line ∧ (cstr line).getD pkg.length 0 = 32 then
    let hash := (((cstr line).drop (pkg.length + 1)).takeWhile (· ≠ 32)).take 64
    if hash.length = 64 then some hash else none
  else none

/-- The loop of `index_lookup_hash`; the bytes are read one by one. -/
def lookupHash (pkg : Path) : List UInt8 → List UInt8 → World Key → Option (List UInt8) × World Key
  | _, [], w => (none, w.tock)
  | line, ch :: src, w =>
    if (host.outcome w.tick).reads = 0 then (none, w.tock)
    else if ch = 10 ∨ 255 ≤ line.length then
      match lineHash pkg line with
      | some hash => (some hash, w.tock)
      | none => lookupHash pkg [] src w.tock
    else lookupHash pkg (line ++ [ch]) src w.tock

/-- `index_lookup_hash`. -/
def indexLookupHash (pkg : Path) (w : World Key) : Option (List UInt8) × World Key :=
  match openFile host indexJson w with
  | (none, w) => (none, w)
  | (some src, w) => lookupHash host pkg [] src w

/-- `hex_encode`. -/
def hexEncode (bs : List UInt8) : List UInt8 :=
  bs.flatMap fun b : UInt8 =>
    ([b >>> 4, b &&& 0xF] : List UInt8).map fun d => if d < 10 then 48 + d else 87 + d

/-- `ensure_rahu_dirs`: four directories, which hold no bytes. -/
def ensureRahuDirs (w : World Key) : World Key := { w with tick := w.tick + 4 }

/-- `http_download` of a package to the staging path. -/
def httpDownload (pkg : Path) (w : World Key) : ℤ × List UInt8 × World Key :=
  let o := host.outcome w.tick
  let w := match o.staged pkg with
    | none => w
    | some bytes => w.set (host.resolve w.staging) (some ⟨bytes, 0o644⟩)
  (o.fetched pkg, o.digest pkg, w.tock)

/-- The first part of `install_package`: the archive is downloaded and its hash is checked. -/
def fetchPackage (pkg : Path) (w : World Key) : Option ℕ × World Key :=
  let w := { ensureRahuDirs w with staging := stagingPath pkg }
  let (expected, w) := indexLookupHash host pkg w
  let (n, digest, w) := httpDownload host pkg w
  if n ≤ 0 then (none, w)
  else
    match expected with
    | none => (some n.toNat, w)
    | some hex =>
      if hexEncode digest = hex then (some n.toNat, w) else (none, (unlink host w.staging w).2)

/-- The body of `install_package`; `install` is for the dependencies. -/
def installWith (install : Option (Path → World Key → Bool × World Key)) (pkg : Path)
    (w : World Key) : Bool × World Key :=
  match fetchPackage host pkg w with
  | (none, w) => (false, w)
  | (some n, w) =>
    let (installed, w) := unpackFozu host install w.staging pkg w
    -- the static path may be that of a dependency by now
    let w := (unlink host w.staging w).2
    if installed ≤ 0 then (false, w) else (true, writeManifestEntry host pkg n w)

/-- `install_package` with that many levels of dependencies below it. -/
def installPackage : ℕ → Path → World Key → Bool × World Key
  | 0 => installWith host none
  | levels + 1 => installWith host (some (installPackage levels))

/-- `MAX_DEP_DEPTH - 1`. -/
def maxLevels : ℕ := 7

def isLocal (arg : Path) : Bool :=
  (5 < arg.length && ascii ".fozu" <:+ arg) || arg.head? == some 47 || arg.take 2 == [46, 47]

/-- The name of a local archive: its file name up to a dot. -/
def cleanName (arg : Path) : Path :=
  (((arg.reverse.takeWhile (· ≠ 47)).reverse).takeWhile (· ≠ 46)).take 63

/-- The local branch of `cmd_install`, for an archive that was opened. -/
def installLocal (arg : Path) (w : World Key) : Bool × World Key :=
  let (installed, w) := unpackFozu host (some (installPackage host (maxLevels - 1))) arg
    (cleanName arg) (ensureRahuDirs w)
  if installed ≤ 0 then (false, w) else (true, writeManifestEntry host (cleanName arg) 0 w)

/-- `cmd_install`: whether success is reported. -/
def cmdInstall (arg : Path) (w : World Key) : Bool × World Key :=
  if arg = [] then (false, w)
  else if isLocal arg then
    match openFile host arg w with
    | (some _, w) => installLocal host arg w
    | (none, w) => installPackage host maxLevels arg w
  else installPackage host maxLevels arg w

/-! Removing a package. -/

/-- The lines of a file that is read byte by byte. A line ends at a newline or after 255 bytes, and
what follows the last newline is not a line. -/
def readLines {σ : Type} (act : Path → σ → World Key → σ × World Key) :
    List UInt8 → List UInt8 → σ → World Key → σ × World Key
  | _, [], s, w => (s, w.tock)
  | line, ch :: src, s, w =>
    if (host.outcome w.tick).reads = 0 then (s, w.tock)
    else if ch = 10 ∨ 255 ≤ line.length then
      if line = [] then readLines act [] src s w.tock
      else
        let (s, w) := act (cstr line) s w.tock
        readLines act [] src s w
    else readLines act (line ++ [ch]) src s w.tock

/-- Whether some package in the dependents file is still installed. -/
def findBlockers (pkg : Path) (w : World Key) : Bool × World Key :=
  match openFile host (dependentsPath pkg) w with
  | (none, w) => (false, w)
  | (some src, w) =>
    readLines host (fun line found w =>
      if line = pkg then (found, w)
      else
        let (installed, w) := isInstalled host line w
        (found || installed, w)) [] src false w

/-- The line is the package's own: its name, and then the end or a space. -/
def ownLine (pkg line : List UInt8) : Bool :=
  pkg <+: line && (line.length == pkg.length || line.getD pkg.length 0 == 32)

/-- `remove_manifest_entry`. -/
def removeManifestEntry (pkg : Path) (w : World Key) : World Key :=
  match openFile host installedJson w with
  | (none, w) => w
  | (some src, w) =>
    let (buf, w) := readOnce host 16383 src w
    let kept := (buf.splitOn 10).filter fun line => line ≠ [] ∧ ownLine pkg line = false
    fileWrite host installedJson (kept.flatMap (· ++ [10])) w

/-- `cmd_remove`: whether the package was removed. -/
def cmdRemove (pkg : Path) (w : World Key) : Bool × World Key :=
  if pkg = [] then (false, w)
  else
    match findBlockers host pkg w with
    | (true, w) => (false, w)
    | (false, w) =>
      match openFile host (listPath pkg) w with
      | (none, w) => (false, w)
      | (some src, w) =>
        let (_, w) := readLines host (fun line _ w => ((), (unlink host line w).2)) [] src () w
        let w := (unlink host (listPath pkg) w).2
        (true, (removeManifestEntry host pkg w).note (.removed pkg))

end Exploidus.Rahu
