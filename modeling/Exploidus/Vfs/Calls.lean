import Exploidus.Vfs.Lookup

/-! The calls of the virtual file system and the system calls over them. -/
namespace Exploidus.Vfs
open Exfs

/-- `g_current_proc` as far as the file layer looks at it; all three are 0 outside a process. -/
structure Caller where
  pid : UInt32
  uid : UInt32
  gid : UInt32
  deriving DecidableEq

/-- The class bits of `vfs_open`: the given bit for the owner and for root, shifted by three for
the group and by six for others. -/
def classBit (c : Caller) (ownerUid groupGid bit : UInt32) : UInt32 :=
  if c.uid = 0 ∨ c.uid = ownerUid then bit
  else if c.gid = groupGid then bit >>> 3
  else bit >>> 6

def mayRead (c : Caller) (mode ownerUid groupGid : UInt32) : Bool :=
  mode &&& classBit c ownerUid groupGid 0o400 ≠ 0

def mayWrite (c : Caller) (mode ownerUid groupGid : UInt32) : Bool :=
  mode &&& classBit c ownerUid groupGid 0o200 ≠ 0

def wantsRead (flags : UInt32) : Bool := flags &&& 3 = 0 ∨ flags &&& 3 = 2

def wantsWrite (flags : UInt32) : Bool :=
  flags &&& 3 = 1 ∨ flags &&& 3 = 2 ∨ flags &&& 0x400 ≠ 0

/-- The permission check of `vfs_open` on a node. -/
def permitted (c : Caller) (node : Node) (flags : UInt32) : Bool :=
  (!wantsRead flags || mayRead c node.mode node.ownerUid node.groupGid) &&
    (!wantsWrite flags || mayWrite c node.mode node.ownerUid node.groupGid)

/-- The parent directory and the last component of a path, as `split_path`, `vfs_create`,
`vfs_unlink` and `vfs_rmdir` split it. -/
def splitPath (path : List UInt8) : Option (List UInt8 × List UInt8) :=
  let name := (path.reverse.takeWhile (· ≠ slash)).reverse
  let parent := path.take (path.length - name.length - 1)
  if name = [] ∨ 255 < name.length then none
  else if parent = [] then some ([slash], name)
  else if 255 ≤ parent.length then none
  else some (parent, name)

/-- The names `.` and `..`. -/
def isDots (name : List UInt8) : Bool := name = [46] ∨ name = [46, 46]

/-- The live entries of a directory from logical block `fb` on, up to the first unmapped one. -/
def liveEntries (vol : Volume) (i : Inode) : ℕ → ℕ → List Dirent
  | 0, _ => []
  | fuel + 1, fb =>
    let blk := vol.blockOf i fb
    if blk = 0 then []
    else ((List.range 15).map (direntAt (vol.readBlock blk))).filter Dirent.live ++
      liveEntries vol i fuel (fb + 1)

/-- `exfs_op_readdir`: at most `max` live entries after the first `off`. -/
def opReaddir (vol : Volume) (dir : Node) (off max : ℕ) : List Dirent :=
  ((liveEntries vol dir.inode maxDirBlocks 0).drop off).take max

namespace State

/-- The first inactive descriptor from 3 on. -/
def freeFd (s : State) : Option ℕ := (List.range' 3 61).find? fun i => (s.fds i).isNone

/-- The active descriptor `fd`. -/
def fdAt (s : State) (fd : ℤ) : Option Fd :=
  if 0 ≤ fd ∧ fd < 64 then s.fds fd.toNat else none

def setFd (s : State) (i : ℕ) (fd : Option Fd) : State :=
  { s with fds := Function.update s.fds i fd }

/-- `node->ops->open`; the driver ignores the flags. -/
def openNode (s : State) (n : ℕ) : State :=
  let r := (s.volOf n).opOpen (s.nodes n).node
  s.after n r.1 r.2.1

/-- Open node `n` through the first inactive descriptor; the node is released when there is
none. -/
def install (s : State) (c : Caller) (n : ℕ) : State × ℤ :=
  match s.freeFd with
  | none => (s.freeChild n, -1)
  | some i => ((s.openNode n).setFd i (some ⟨n, 0, c.pid⟩), i)

/-- `vfs_open`. -/
def vfsOpen (s : State) (c : Caller) (path : List UInt8) (flags : UInt32) : State × ℤ :=
  let r := s.lookup path
  match r.2 with
  | none => (r.1, -1)
  | some n =>
    if !permitted c (r.1.nodes n).node flags then (r.1.freeChild n, -1)
    else r.1.install c n

/-- `vfs_close`. -/
def vfsClose (s : State) (fd : ℤ) : State × ℤ :=
  match s.fdAt fd with
  | none => (s, -1)
  | some e => ((s.freeChild e.node).setFd fd.toNat none, 0)

/-- The loop of `vfs_close_all_for_pid` over the given descriptors. -/
def closeAll (s : State) (pid : UInt32) (is : List ℕ) : State :=
  is.foldl (fun s i => match s.fds i with
    | none => s
    | some e => if e.ownerPid = pid then (s.vfsClose i).1 else s) s

/-- `vfs_close_all_for_pid`. -/
def vfsCloseAllForPid (s : State) (pid : UInt32) : State :=
  if pid = 0 then s else s.closeAll pid (List.range' 3 61)

/-- `vfs_read`. -/
def vfsRead (s : State) (fd : ℤ) (len : UInt64) : State × List UInt8 × ℤ :=
  match s.fdAt fd with
  | none => (s, [], -1)
  | some e =>
    let r := s.readNode e.node e.offset.toNat len.toNat
    (r.1.setFd fd.toNat (some { e with offset := e.offset + UInt64.ofNat r.2.length }), r.2,
      r.2.length)

/-- `node->ops->write`. -/
def writeNode (s : State) (n : ℕ) (off : ℕ) (data : List UInt8) : State × ℕ :=
  let r := (s.volOf n).opWrite (s.nodes n).node off data
  (s.after n r.1 r.2.1, r.2.2)

/-- `vfs_write`. -/
def vfsWrite (s : State) (fd : ℤ) (data : List UInt8) : State × ℤ :=
  match s.fdAt fd with
  | none => (s, -1)
  | some e =>
    let r := s.writeNode e.node e.offset.toNat data
    (r.1.setFd fd.toNat (some { e with offset := e.offset + UInt64.ofNat r.2 }), r.2)

/-- `vfs_readdir`; the offset of a directory's descriptor counts entries. -/
def vfsReaddir (s : State) (fd : ℤ) (max : UInt64) : State × List Dirent × ℤ :=
  match s.fdAt fd with
  | none => (s, [], -1)
  | some e =>
    if (s.nodes e.node).node.type ≠ .directory then (s, [], -1)
    else
      let es := opReaddir (s.volOf e.node) (s.nodes e.node).node e.offset.toNat max.toNat
      (s.setFd fd.toNat (some { e with offset := e.offset + UInt64.ofNat es.length }), es,
        es.length)

/-- `dir->ops->create`: a fresh child node that points back to `dir`. -/
def createIn (s : State) (dir : ℕ) (name : List UInt8) (type : UInt8) (c : Caller) :
    State × Option ℕ :=
  let r := (s.volOf dir).opCreate (s.nodes dir).node name type c.uid c.gid
  let s' := s.after dir r.1 r.2.1
  match r.2.2 with
  | none => (s', none)
  | some child =>
    let r' := s'.newNode ⟨(s.nodes dir).vol, child, some dir⟩
    (r'.1, some r'.2)

/-- Resolve the parent directory of a path and run `f` on it with the last component; the
directory node is released afterwards. A parent that is not a directory is not released. -/
def inParent (s : State) (path : List UInt8) (f : State → ℕ → List UInt8 → State × ℤ) : State × ℤ :=
  match splitPath path with
  | none => (s, -1)
  | some (parent, name) =>
    let r := s.lookup parent
    match r.2 with
    | none => (r.1, -1)
    | some dir =>
      if (r.1.nodes dir).node.type ≠ .directory then (r.1, -1)
      else
        let r' := f r.1 dir name
        (r'.1.freeChild dir, r'.2)

/-- `vfs_create`. -/
def vfsCreate (s : State) (c : Caller) (path : List UInt8) (type : UInt8) : State × ℤ :=
  match splitPath path with
  | none => (s, -1)
  | some (parent, name) =>
    if isDots name then (s, -1)
    else
      let r := s.lookup parent
      match r.2 with
      | none => (r.1, -1)
      | some dir =>
        if (r.1.nodes dir).node.type ≠ .directory then (r.1, -1)
        else
          let r' := r.1.createIn dir name type c
          let s := r'.1.freeChild dir
          match r'.2 with
          | none => (s, -1)
          | some n => s.install c n

/-- Run a driver operation on the node of a path and release the node. -/
def onNode (s : State) (path : List UInt8) (f : State → ℕ → State × ℤ) : State × ℤ :=
  let r := s.lookup path
  match r.2 with
  | none => (r.1, -1)
  | some n =>
    let r' := f r.1 n
    (r'.1.freeChild n, r'.2)

/-- `vfs_chmod`. -/
def vfsChmod (s : State) (path : List UInt8) (mode : UInt32) : State × ℤ :=
  s.onNode path fun s n =>
    let r := (s.volOf n).opChmod (s.nodes n).node mode
    (s.after n r.1 r.2, 0)

/-- `vfs_chgrp`. -/
def vfsChgrp (s : State) (path : List UInt8) (gid : UInt32) : State × ℤ :=
  s.onNode path fun s n =>
    let r := (s.volOf n).opChgrp (s.nodes n).node gid
    (s.after n r.1 r.2, 0)

/-- `vfs_unlink`. -/
def vfsUnlink (s : State) (path : List UInt8) : State × ℤ :=
  s.inParent path fun s dir name =>
    let r := (s.volOf dir).opUnlink (s.nodes dir).node name
    (s.after dir r.1 (s.nodes dir).node, r.2)

/-- `vfs_rmdir`. -/
def vfsRmdir (s : State) (path : List UInt8) : State × ℤ :=
  s.inParent path fun s dir name =>
    let r := (s.volOf dir).opRmdir (s.nodes dir).node name
    (s.after dir r.1 (s.nodes dir).node, r.2)

/-- `vfs_symlink`. -/
def vfsSymlink (s : State) (c : Caller) (target linkpath : List UInt8) : State × ℤ :=
  if target = [] ∨ 255 < target.length then (s, -1)
  else match splitPath linkpath with
    | none => (s, -1)
    | some (_, name) =>
      if isDots name then (s, -1)
      else s.inParent linkpath fun s dir name =>
        let r := (s.volOf dir).opSymlink (s.nodes dir).node name target c.uid c.gid
        (s.after dir r.1 r.2.1, if r.2.2 then 0 else -1)

/-- `old_dir->ops->rename`; the driver refuses directories on two volumes. -/
def renameIn (s : State) (oldDir : ℕ) (oldName : List UInt8) (newDir : ℕ) (newName : List UInt8) :
    State × ℤ :=
  if (s.nodes oldDir).vol ≠ (s.nodes newDir).vol then (s, -1)
  else
    let r := (s.volOf oldDir).opRename (s.nodes oldDir).node oldName (s.nodes newDir).node newName
      (oldDir == newDir)
    (s.after newDir r.1 r.2.1, r.2.2)

/-- `vfs_rename`. All volumes share one operation table, so the test of the tables passes. -/
def vfsRename (s : State) (oldPath newPath : List UInt8) : State × ℤ :=
  match splitPath oldPath, splitPath newPath with
  | some (oldParent, oldName), some (newParent, newName) =>
    if isDots oldName ∨ isDots newName then (s, -1)
    else
      let r := s.lookup oldParent
      match r.2 with
      | none => (r.1, -1)
      | some oldDir =>
        if (r.1.nodes oldDir).node.type ≠ .directory then (r.1, -1)
        else
          let r' := r.1.lookup newParent
          match r'.2 with
          | none => (r'.1.freeChild oldDir, -1)
          | some newDir =>
            if (r'.1.nodes newDir).node.type ≠ .directory then (r'.1.freeChild oldDir, -1)
            else
              let q := r'.1.renameIn oldDir oldName newDir newName
              let s := q.1.freeChild oldDir
              (if newDir = oldDir then s else s.freeChild newDir, q.2)
  | _, _ => (s, -1)

/-- `vfs_readlink`. -/
def vfsReadlink (s : State) (path : List UInt8) (len : UInt64) : State × List UInt8 × ℤ :=
  let r := s.lookupLink path
  match r.2 with
  | none => (r.1, [], -1)
  | some n =>
    if (r.1.nodes n).node.type ≠ .symlink then (r.1.freeChild n, [], -1)
    else
      let r' := r.1.readNode n 0 len.toNat
      (r'.1.freeChild n, r'.2, r'.2.length)

/-- Make `n` the current directory and release the old one. -/
def setCwd (s : State) (n : ℕ) : State :=
  { (match s.cwd with
      | none => s
      | some old => s.freeChild old) with cwd := some n }

/-- The last part of `vfs_chdir`, for an absolute path. -/
def chdirTo (s : State) (path : List UInt8) : State × ℤ :=
  let r := s.lookup path
  match r.2 with
  | none => (r.1, -1)
  | some n =>
    if (r.1.nodes n).node.type ≠ .directory then (r.1.freeChild n, -1)
    else (r.1.setCwd n, 0)

/-- Whether `vfs_chdir` tries a relative path below a mount: the current directory is its root, or
its root has an entry of that name. -/
def probe (s : State) (cwd : ℕ) (m : Mount) (path : List UInt8) : State × Bool :=
  if m.root = cwd then (s, true)
  else
    let r := s.lookupIn m.root path
    match r.2 with
    | none => (r.1, false)
    | some n => (r.1.freeChild n, true)

/-- The loop of `vfs_chdir` over the mounts for a relative path; `true` when it has changed the
current directory. -/
def chdirBelow (cwd : ℕ) (path : List UInt8) : List Mount → State → State × Bool
  | [], s => (s, false)
  | m :: ms, s =>
    let r := s.probe cwd m path
    if !r.2 ∨ 512 ≤ m.mountpoint.length + path.length + 2 then chdirBelow cwd path ms r.1
    else
      let sep := if m.mountpoint.getLast? = some slash then [] else [slash]
      let r' := r.1.lookup (m.mountpoint ++ sep ++ path)
      match r'.2 with
      | none => chdirBelow cwd path ms r'.1
      | some n =>
        if (r'.1.nodes n).node.type = .directory then (r'.1.setCwd n, true)
        else chdirBelow cwd path ms (r'.1.freeChild n)

/-- The part of `vfs_chdir` for a relative path and a current directory. -/
def chdirRelative (s : State) (path : List UInt8) : State × Bool :=
  match s.cwd with
  | none => (s, false)
  | some cwd =>
    if (s.nodes cwd).node.name = [] then (s, false) else chdirBelow cwd path s.mounts s

/-- `vfs_chdir`. -/
def vfsChdir (s : State) (path : List UInt8) : State × ℤ :=
  if path.head? = some slash then s.chdirTo path
  else
    let r := s.chdirRelative path
    if r.2 then (r.1, 0)
    else r.1.chdirTo (if path.length + 2 < 512 then slash :: path else path)

/-- The nodes whose fields `vfs_getcwd` reads, from `n` upwards; at most 16 names are
collected. -/
def cwdChain (s : State) : ℕ → ℕ → List ℕ
  | 0, n => [n]
  | depth + 1, n => n :: match (s.nodes n).parent with
    | none => []
    | some p => if p = n then [] else s.cwdChain depth p

/-- The nodes that `vfs_getcwd` reads for a buffer of `size` bytes. -/
def cwdReads (s : State) (size : UInt64) : List ℕ :=
  if size = 0 then []
  else match s.cwd with
    | none => []
    | some n => s.cwdChain 16 n

def vfsGetcwd (s : State) (size : UInt64) : Option (List UInt8) :=
  if size = 0 then none
  else
    let named := (s.cwdReads size).filter fun m =>
      (s.nodes m).parent.isSome ∧ (s.nodes m).parent ≠ some m
    let parts := ((named.take 16).map fun m => (s.nodes m).node.name).reverse
    some ((slash :: [slash].intercalate parts).take (size.toNat - 1))

/-- `vfs_lseek`; the sums are those of 64-bit signed integers. -/
def vfsLseek (s : State) (fd : ℤ) (offset : ℤ) (whence : ℤ) : State × ℤ :=
  match s.fdAt fd with
  | none => (s, -1)
  | some e =>
    let base := if whence = 0 then some 0 else if whence = 1 then some (e.offset.toNat : ℤ)
      else if whence = 2 then some ((s.nodes e.node).node.size.toNat : ℤ) else none
    match base with
    | none => (s, -1)
    | some b =>
      let new := Int.bmod (b + offset) (2 ^ 64)
      if new < 0 then (s, -1)
      else (s.setFd fd.toNat (some { e with offset := UInt64.ofNat new.toNat }), new)

/-- `vfs_dup`. -/
def vfsDup (s : State) (fd : ℤ) : State × ℤ :=
  match s.fdAt fd with
  | none => (s, -1)
  | some e =>
    match s.freeFd with
    | none => (s, -1)
    | some i => (s.setFd i (some e), i)

/-- `vfs_dup2`. -/
def vfsDup2 (s : State) (oldfd newfd : ℤ) : State × ℤ :=
  match s.fdAt oldfd with
  | none => (s, -1)
  | some e =>
    if newfd < 0 ∨ 64 ≤ newfd then (s, -1)
    else if newfd = oldfd then (s, newfd)
    else (((s.vfsClose newfd).1).setFd newfd.toNat (some e), newfd)

/-- `sys_open`. -/
def sysOpen (s : State) (c : Caller) (path : List UInt8) (flags : UInt32) : State × ℤ :=
  if 4096 ≤ path.length then (s, -1)
  else
    let r := s.vfsOpen c path flags
    if 0 ≤ r.2 ∨ flags &&& 0x40 = 0 then r
    else
      let q := r.1.vfsCreate c path 0
      let s := if 0 ≤ q.2 then (q.1.vfsClose q.2).1 else q.1
      s.vfsOpen c path flags

/-- `sys_file_write`. -/
def sysFileWrite (s : State) (c : Caller) (path data : List UInt8) : State × ℤ :=
  let r := s.vfsOpen c path 1
  if 0 ≤ r.2 then
    let w := r.1.vfsWrite r.2 data
    ((w.1.vfsClose r.2).1, w.2)
  else
    let q := r.1.vfsCreate c path 0
    if q.2 < 0 then (q.1, -2)
    else
      let r := (q.1.vfsClose q.2).1.vfsOpen c path 1
      if r.2 < 0 then (r.1, -3)
      else
        let w := r.1.vfsWrite r.2 data
        ((w.1.vfsClose r.2).1, w.2)

end State

/-- The calls of `vfs.c`. -/
inductive Call where
  | open (path : List UInt8) (flags : UInt32)
  | create (path : List UInt8) (type : UInt8)
  | close (fd : ℤ)
  | closeAllForPid (pid : UInt32)
  | read (fd : ℤ) (len : UInt64)
  | write (fd : ℤ) (data : List UInt8)
  | readdir (fd : ℤ) (max : UInt64)
  | chmod (path : List UInt8) (mode : UInt32)
  | chgrp (path : List UInt8) (gid : UInt32)
  | unlink (path : List UInt8)
  | rmdir (path : List UInt8)
  | rename (oldPath newPath : List UInt8)
  | symlink (target linkpath : List UInt8)
  | readlink (path : List UInt8) (len : UInt64)
  | chdir (path : List UInt8)
  | getcwd (size : UInt64)
  | lseek (fd offset whence : ℤ)
  | dup (fd : ℤ)
  | dup2 (oldfd newfd : ℤ)

def exec (s : State) (c : Caller) : Call → State
  | .open path flags => (s.vfsOpen c path flags).1
  | .create path type => (s.vfsCreate c path type).1
  | .close fd => (s.vfsClose fd).1
  | .closeAllForPid pid => s.vfsCloseAllForPid pid
  | .read fd len => (s.vfsRead fd len).1
  | .write fd data => (s.vfsWrite fd data).1
  | .readdir fd max => (s.vfsReaddir fd max).1
  | .chmod path mode => (s.vfsChmod path mode).1
  | .chgrp path gid => (s.vfsChgrp path gid).1
  | .unlink path => (s.vfsUnlink path).1
  | .rmdir path => (s.vfsRmdir path).1
  | .rename oldPath newPath => (s.vfsRename oldPath newPath).1
  | .symlink target linkpath => (s.vfsSymlink c target linkpath).1
  | .readlink path len => (s.vfsReadlink path len).1
  | .chdir path => (s.vfsChdir path).1
  | .getcwd _ => s
  | .lseek fd offset whence => (s.vfsLseek fd offset whence).1
  | .dup fd => (s.vfsDup fd).1
  | .dup2 oldfd newfd => (s.vfsDup2 oldfd newfd).1

def run (s : State) (cs : List (Caller × Call)) : State :=
  cs.foldl (fun s e => exec s e.1 e.2) s

namespace State
variable {s s' : State} {c : Caller} {path : List UInt8} {fd : ℤ}

@[simp] theorem freeChild_volumes (s : State) (n : ℕ) : (s.freeChild n).volumes = s.volumes := by
  unfold freeChild
  split_ifs <;> rfl

theorem vfsClose_volumes (s : State) (fd : ℤ) : (s.vfsClose fd).1.volumes = s.volumes := by
  unfold vfsClose
  split
  · rfl
  · exact freeChild_volumes ..

theorem setFd_fds (s : State) (i : ℕ) (e : Option Fd) :
    (s.setFd i e).fds = Function.update s.fds i e := rfl

theorem createIn_fds (s : State) (dir : ℕ) (name : List UInt8) (type : UInt8) (c : Caller) :
    (s.createIn dir name type c).1.fds = s.fds := by
  unfold createIn
  dsimp only
  split <;> rfl

theorem freeChild_fds (s : State) (n : ℕ) : (s.freeChild n).fds = s.fds := by
  unfold freeChild
  split_ifs <;> rfl

theorem freeFd_congr (h : s.fds = s'.fds) : s.freeFd = s'.freeFd := by
  rw [freeFd, freeFd, h]

theorem install_ok {n : ℕ} (h : s.install c n = (s', fd)) (hfd : 0 ≤ fd) :
    s.freeFd = some fd.toNat ∧ s' = (s.openNode n).setFd fd.toNat (some ⟨n, 0, c.pid⟩) := by
  unfold install at h
  cases hi : s.freeFd with
  | none =>
    rw [hi] at h
    cases h
    omega
  | some i =>
    rw [hi] at h
    cases h
    exact ⟨by simp, by simp⟩

/-- A successful `vfs_open`: the path has a node, the caller is permitted, and the first inactive
descriptor now refers to the node, which the driver has opened. -/
theorem vfsOpen_ok {flags : UInt32} (h : s.vfsOpen c path flags = (s', fd)) (hfd : 0 ≤ fd) :
    ∃ n, (s.lookup path).2 = some n ∧ permitted c ((s.lookup path).1.nodes n).node flags ∧
      (s.lookup path).1.freeFd = some fd.toNat ∧
      s' = ((s.lookup path).1.openNode n).setFd fd.toNat (some ⟨n, 0, c.pid⟩) := by
  unfold vfsOpen at h
  dsimp only at h
  cases hr : (s.lookup path).2 with
  | none =>
    rw [hr] at h
    cases h
    omega
  | some n =>
    rw [hr] at h
    dsimp only at h
    split_ifs at h with hperm
    · cases h
      omega
    · exact ⟨n, rfl, by simpa using hperm, install_ok h hfd⟩

/-- A successful `vfs_create`: the parent is a directory, the driver has made the entry, and the
first inactive descriptor refers to the new node. -/
theorem vfsCreate_ok {type : UInt8} (h : s.vfsCreate c path type = (s', fd)) (hfd : 0 ≤ fd) :
    ∃ parent name dir n s1, splitPath path = some (parent, name) ∧ (s.lookup parent).2 = some dir ∧
      ((s.lookup parent).1.nodes dir).node.type = .directory ∧
      (s.lookup parent).1.createIn dir name type c = (s1, some n) ∧
      (s1.freeChild dir).freeFd = some fd.toNat ∧
      s' = ((s1.freeChild dir).openNode n).setFd fd.toNat (some ⟨n, 0, c.pid⟩) := by
  unfold vfsCreate at h
  cases hp : splitPath path with
  | none =>
    rw [hp] at h
    cases h
    omega
  | some p =>
    obtain ⟨parent, name⟩ := p
    rw [hp] at h
    dsimp only at h
    split_ifs at h
    · cases h
      omega
    cases hr : (s.lookup parent).2 with
    | none =>
      rw [hr] at h
      cases h
      omega
    | some dir =>
      rw [hr] at h
      dsimp only at h
      split_ifs at h with hdir
      · cases h
        omega
      generalize hc : (s.lookup parent).1.createIn dir name type c = r at h
      obtain ⟨s1, n⟩ := r
      cases n with
      | none =>
        cases h
        omega
      | some n =>
        obtain ⟨hi, hs'⟩ := install_ok h hfd
        exact ⟨parent, name, dir, n, s1, rfl, hr, by simpa using hdir, hc, hi, hs'⟩

end State

end Exploidus.Vfs
