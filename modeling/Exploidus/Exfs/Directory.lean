import Exploidus.Exfs.File

/-! Directory operations of the driver: lookup, create, symlink, unlink, rmdir, rename. -/
namespace Exploidus.Exfs
open ByteLayout

namespace Dirent

/-- A live entry; unlink leaves tombstones with inode number 0. -/
def live (e : Dirent) : Bool := e.inodeNum != 0

end Dirent

/-- The first of the `count` slots `k, k + 1, …` of a directory block whose entry satisfies `p`. -/
def findSlot (p : Dirent → Bool) (buf : Block) : ℕ → ℕ → Option ℕ
  | 0, _ => none
  | count + 1, k => if p (direntAt buf k) then some k else findSlot p buf count (k + 1)

/-- Where `exfs_op_create` can put an entry: a block with an empty slot, the first unmapped
logical block, or nowhere. -/
inductive Room where
  | block (blk : ℕ)
  | hole (fb : ℕ)
  | full
  deriving DecidableEq

namespace Volume

/-- The directory scan shared by lookup, the duplicate check, unlink, rmdir and rename:
logical blocks from `fb` on until the first unmapped one, slots in order. The result is the
disk block, the slot and the entry. -/
def scanDir (vol : Volume) (i : Inode) (p : Dirent → Bool) : ℕ → ℕ → Option (ℕ × ℕ × Dirent)
  | 0, _ => none
  | fuel + 1, fb =>
    let blk := vol.blockOf i fb
    if blk = 0 then none
    else match findSlot p (vol.readBlock blk) 15 0 with
      | some k => some (blk, k, direntAt (vol.readBlock blk) k)
      | none => scanDir vol i p fuel (fb + 1)

def findEntry (vol : Volume) (i : Inode) (name : List UInt8) : Option (ℕ × ℕ × Dirent) :=
  vol.scanDir i (fun e => e.live && e.hasName name) maxDirBlocks 0

/-- `exfs_dir_is_empty`. -/
def dirIsEmpty (vol : Volume) (i : Inode) : Bool :=
  (vol.scanDir i Dirent.live maxDirBlocks 0).isNone

/-- The node type lookup derives from an entry's file type. -/
def typeOf (fileType : UInt8) : NodeType :=
  if fileType = 1 then .directory else if fileType = 2 then .symlink else .file

def opLookup (vol : Volume) (dir : Node) (name : List UInt8) : Option Node :=
  match vol.findEntry dir.inode name with
  | none => none
  | some (_, _, e) =>
    let i := vol.readInode e.inodeNum.toNat
    some ⟨name, typeOf e.fileType, i.size, e.inodeNum.toNat, i, i.mode, i.ownerUid, i.groupGid,
      false⟩

/-- The free-inode scan of create and symlink over the `count` inodes `n, n + 1, …`; inode 0
is the root and skipped. 0 when no inode is free. -/
def findFreeInode (vol : Volume) : ℕ → ℕ → ℕ
  | 0, _ => 0
  | count + 1, n =>
    if n ≠ 0 ∧ ¬ (vol.readInode n).inUse then n else findFreeInode vol count (n + 1)

/-- The scan for room in a directory from logical block `fb` on. -/
def findRoom (vol : Volume) (i : Inode) : ℕ → ℕ → Room
  | 0, _ => .full
  | fuel + 1, fb =>
    let blk := vol.blockOf i fb
    if blk = 0 then .hole fb
    else match findSlot (fun e => !e.live) (vol.txnReadBlock blk) 15 0 with
      | some _ => .block blk
      | none => findRoom vol i fuel (fb + 1)

/-- Put an entry into the first empty slot of directory block `blk`, read as `buf`, and commit. -/
def putEntry (vol : Volume) (blk : ℕ) (buf : Block) (e : Dirent) : Volume × Bool :=
  match findSlot (fun e => !e.live) buf 15 0 with
  | some k => ((vol.metaWriteBlock blk (setDirent buf k e)).journalCommit, true)
  | none => (vol.journalCommit, false)

/-- The common tail of create and symlink inside their transaction: add entry `e` to the
directory with inode number `d` and private inode copy `din`, growing it by a block at the
first hole. The transaction is committed on every path. -/
def addEntry (vol : Volume) (d : ℕ) (din : Inode) (e : Dirent) : Volume × Inode × Bool :=
  match vol.findRoom din maxDirBlocks 0 with
  | .full => (vol.journalCommit, din, false)
  | .block blk =>
    let r := vol.putEntry blk (vol.txnReadBlock blk) e
    (r.1, din, r.2)
  | .hole fb =>
    let r := vol.resolveBlock din fb true
    if r.2.2.1 = 0 then (r.1.journalCommit, r.2.1, false)
    else
      let vol := if r.2.2.2 then r.1.writeInode d r.2.1 else r.1
      let r' := vol.putEntry r.2.2.1 zeroBlock e
      (r'.1, r.2.1, r'.2)

/-- The inode `exfs_op_create` writes. -/
def newInode (fileType : UInt8) (uid gid : UInt32) : Inode :=
  { Inode.blank with
    mode := if fileType = 1 then 0o755 else 0o644
    creatorPid := 1, ownerUid := uid, groupGid := gid }

/-- `exfs_op_create`: the volume, the directory node, and the new node if there is one. -/
def opCreate (vol : Volume) (dir : Node) (name : List UInt8) (fileType : UInt8)
    (uid gid : UInt32) : Volume × Node × Option Node :=
  if name.length = 0 ∨ 255 < name.length then (vol, dir, none)
  else if (vol.findEntry dir.inode name).isSome then (vol, dir, none)
  else
    let ino := vol.findFreeInode (vol.sb.totalInodes / 16 * 16) 0
    if ino = 0 then (vol, dir, none)
    else
      let i := newInode fileType uid gid
      let vol := vol.journalBegin.writeInode ino i
      let r := vol.addEntry dir.inodeNum dir.inode (Dirent.named ino fileType name)
      let dir := { dir with inode := r.2.1 }
      if r.2.2 then
        (r.1, dir, some ⟨name, if fileType = 1 then .directory else .file, 0, ino, i, i.mode,
          i.ownerUid, i.groupGid, false⟩)
      else (r.1, dir, none)

/-- The inode `exfs_op_symlink` writes for a target stored in block `blk`. -/
def linkInode (target : List UInt8) (blk : ℕ) (uid gid : UInt32) : Inode :=
  { Inode.blank.setDirect 0 blk with
    mode := 0o777, size := UInt64.ofNat target.length, creatorPid := 1
    ownerUid := uid, groupGid := gid
    blockHash := UInt64.ofNat (le 8 fun k => (Blake3.hash target).getD k 0) }

/-- `exfs_op_symlink`; the flag is success. -/
def opSymlink (vol : Volume) (dir : Node) (name target : List UInt8) (uid gid : UInt32) :
    Volume × Node × Bool :=
  if name.length = 0 ∨ 255 < name.length ∨ target.length = 0 ∨ 255 < target.length then
    (vol, dir, false)
  else if (vol.findEntry dir.inode name).isSome then (vol, dir, false)
  else
    let ino := vol.findFreeInode (vol.sb.totalInodes / 16 * 16) 0
    if ino = 0 then (vol, dir, false)
    else
      let a := vol.journalBegin.allocBlock
      if a.2 = 0 then (a.1.journalCommit, dir, false)
      else
        let vol := a.1.metaWriteBlock a.2
          (zeroBlock.patch 0 target.length fun k => target.getD k 0)
        let vol := vol.writeInode ino (linkInode target a.2 uid gid)
        let r := vol.addEntry dir.inodeNum dir.inode (Dirent.named ino 2 name)
        (r.1, { dir with inode := r.2.1 }, r.2.2)

def freeBlocks (vol : Volume) (bs : List ℕ) : Volume :=
  bs.foldl (fun v b => if b = 0 then v else v.freeBlock b) vol

def pointers (buf : Block) : List ℕ := (List.range 512).map (ptrAt buf)

/-- Free everything a pointer block points to, then the block itself. -/
def freeTable (vol : Volume) (tbl : ℕ) : Volume :=
  (vol.freeBlocks (pointers (vol.readBlock tbl))).freeBlock tbl

/-- The block-freeing tail of unlink and rmdir for the removed inode. -/
def freeInodeBlocks (vol : Volume) (i : Inode) : Volume :=
  let vol := vol.freeBlocks ((List.range 12).map i.directAt)
  let vol := if i.indirect = 0 then vol else vol.freeTable i.indirect.toNat
  if i.doubleIndirect = 0 then vol
  else
    let l1 := vol.readBlock i.doubleIndirect.toNat
    let vol := (pointers l1).foldl (fun v p => if p = 0 then v else v.freeTable p) vol
    vol.freeBlock i.doubleIndirect.toNat

/-- The transaction of unlink and rmdir: blank the child's inode, clear its entry. -/
def dropEntry (vol : Volume) (blk k child : ℕ) : Volume :=
  let buf := vol.readBlock blk
  let vol := vol.journalBegin.writeInode child Inode.blank
  (vol.metaWriteBlock blk (setDirent buf k Dirent.blank)).journalCommit

/-- `exfs_op_unlink` with its return code. -/
def opUnlink (vol : Volume) (dir : Node) (name : List UInt8) : Volume × ℤ :=
  if name.length = 0 ∨ 255 < name.length then (vol, -1)
  else match vol.findEntry dir.inode name with
    | none => (vol, -1)
    | some (blk, k, e) =>
      if e.fileType = 1 then (vol, -2)
      else
        let child := e.inodeNum.toNat
        ((vol.dropEntry blk k child).freeInodeBlocks (vol.readInode child), 0)

/-- `exfs_op_rmdir` with its return code. -/
def opRmdir (vol : Volume) (dir : Node) (name : List UInt8) : Volume × ℤ :=
  if name.length = 0 ∨ 255 < name.length then (vol, -1)
  else if name = [46] ∨ name = [46, 46] then (vol, -1)
  else match vol.findEntry dir.inode name with
    | none => (vol, -1)
    | some (blk, k, e) =>
      if e.fileType ≠ 1 then (vol, -3)
      else
        let child := e.inodeNum.toNat
        if !vol.dirIsEmpty (vol.readInode child) then (vol, -2)
        else ((vol.dropEntry blk k child).freeInodeBlocks (vol.readInode child), 0)

/-- Clear the source slot and fill the destination slot of a rename, in one buffer when they
share a block. -/
def moveEntry (vol : Volume) (src : ℕ × ℕ) (dst : ℕ × ℕ) (dstBuf : Block) (e : Dirent) : Volume :=
  if dst.1 = src.1 then
    vol.metaWriteBlock dst.1 (setDirent (setDirent dstBuf src.2 Dirent.blank) dst.2 e)
  else
    let vol := vol.metaWriteBlock src.1 (setDirent (vol.readBlock src.1) src.2 Dirent.blank)
    vol.metaWriteBlock dst.1 (setDirent dstBuf dst.2 e)

/-- The part of `exfs_op_rename` after a destination file has been removed: find a slot in
the new directory and move the entry in one transaction. -/
def renameInto (vol : Volume) (src : ℕ × ℕ) (newDir : Node) (e : Dirent) : Volume × Node × ℤ :=
  match vol.findRoom newDir.inode maxDirBlocks 0 with
  | .full => (vol, newDir, -1)
  | .block blk =>
    let buf := vol.readBlock blk
    match findSlot (fun e => !e.live) buf 15 0 with
    | none => (vol, newDir, -1)
    | some k => ((vol.journalBegin.moveEntry src (blk, k) buf e).journalCommit, newDir, 0)
  | .hole fb =>
    let r := vol.journalBegin.resolveBlock newDir.inode fb true
    let newDir := { newDir with inode := r.2.1 }
    if r.2.2.1 = 0 then (r.1.journalCommit, newDir, -1)
    else
      let vol := if r.2.2.2 then r.1.writeInode newDir.inodeNum r.2.1 else r.1
      ((vol.moveEntry src (r.2.2.1, 0) zeroBlock e).journalCommit, newDir, 0)

/-- `exfs_op_rename` within one volume. `same` says that both directory arguments are the same
node object. The result is the volume, the new directory's node and the return code. -/
def opRename (vol : Volume) (oldDir : Node) (oldName : List UInt8) (newDir : Node)
    (newName : List UInt8) (same : Bool) : Volume × Node × ℤ :=
  if oldName.length = 0 ∨ 255 < oldName.length ∨ newName.length = 0 ∨ 255 < newName.length then
    (vol, newDir, -1)
  else match vol.findEntry oldDir.inode oldName with
    | none => (vol, newDir, -1)
    | some (sblk, sk, e) =>
      if same ∧ oldName = newName then (vol, newDir, 0)
      else
        let moved := Dirent.named e.inodeNum.toNat e.fileType newName
        match vol.opLookup newDir newName with
        | none => vol.renameInto (sblk, sk) newDir moved
        | some node =>
          if node.type = .directory then (vol, newDir, -1)
          else
            let u := vol.opUnlink newDir newName
            if u.2 ≠ 0 then (u.1, newDir, -1) else u.1.renameInto (sblk, sk) newDir moved

end Volume

end Exploidus.Exfs
