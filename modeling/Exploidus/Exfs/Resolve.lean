import Exploidus.Exfs.Journal

/-! Inode I/O and the translation of logical file blocks to disk blocks. -/
namespace Exploidus.Exfs

namespace Inode

def directAt (i : Inode) (k : ℕ) : ℕ := if h : k < 12 then (i.direct ⟨k, h⟩).toNat else 0

def setDirect (i : Inode) (k v : ℕ) : Inode :=
  { i with direct := fun j => if j.val = k then UInt64.ofNat v else i.direct j }

end Inode

namespace Volume

def readInode (vol : Volume) (n : ℕ) : Inode :=
  inodeAt (vol.readBlock (vol.sb.inodeTableBlock + n / 16)) (n % 16)

def writeInode (vol : Volume) (n : ℕ) (i : Inode) : Volume :=
  let b := vol.sb.inodeTableBlock + n / 16
  vol.metaWriteBlock b (setInode (vol.txnReadBlock b) (n % 16) i)

/-- Allocate a pointer block and clear it through the metadata writer; 0 when the volume
is full. -/
def allocTable (vol : Volume) : Volume × ℕ :=
  let r := vol.allocBlock
  if r.2 = 0 then r else (r.1.metaWriteBlock r.2 zeroBlock, r.2)

/-- The pointer block behind pointer `p`, allocated if `p` is empty and `alloc` is set.
The flag says that it is new. -/
def ensureTable (vol : Volume) (p : ℕ) (alloc : Bool) : Volume × ℕ × Bool :=
  if p ≠ 0 then (vol, p, false)
  else if !alloc then (vol, 0, false)
  else
    let r := vol.allocTable
    (r.1, r.2, decide (r.2 ≠ 0))

/-- Entry `idx` of pointer block `tbl`, whose content was read as `buf`; an empty entry is
filled with a new block, and the table written back, if `alloc` is set. -/
def tableEntry (vol : Volume) (tbl : ℕ) (buf : Block) (idx : ℕ) (alloc : Bool) : Volume × ℕ :=
  if ptrAt buf idx ≠ 0 then (vol, ptrAt buf idx)
  else if !alloc then (vol, 0)
  else
    let r := vol.allocBlock
    if r.2 = 0 then r else (r.1.metaWriteBlock tbl (setPtr buf idx r.2), r.2)

/-- The second-level table behind entry `idx` of the first-level table `tbl`. -/
def midTable (vol : Volume) (tbl idx : ℕ) (alloc : Bool) : Volume × ℕ :=
  let buf := vol.readBlock tbl
  let r := vol.ensureTable (ptrAt buf idx) alloc
  if r.2.2 then (r.1.metaWriteBlock tbl (setPtr buf idx r.2.1), r.2.1) else (r.1, r.2.1)

/-- `exfs_resolve_block`: the disk block of logical block `fb` (0 if unmapped or out of
range), with the inode and whether it was changed. Pointer blocks are read from the disk
even while a transaction is open. -/
def resolveBlock (vol : Volume) (i : Inode) (fb : ℕ) (alloc : Bool) : Volume × Inode × ℕ × Bool :=
  if fb < 12 then
    if i.directAt fb ≠ 0 then (vol, i, i.directAt fb, false)
    else if !alloc then (vol, i, 0, false)
    else
      let r := vol.allocBlock
      if r.2 = 0 then (r.1, i, 0, false) else (r.1, i.setDirect fb r.2, r.2, true)
  else if fb - 12 < 512 then
    let r := vol.ensureTable i.indirect.toNat alloc
    let i := if r.2.2 then { i with indirect := UInt64.ofNat r.2.1 } else i
    if r.2.1 = 0 then (r.1, i, 0, r.2.2)
    else
      let e := r.1.tableEntry r.2.1 (r.1.readBlock r.2.1) (fb - 12) alloc
      (e.1, i, e.2, r.2.2)
  else if fb - 12 - 512 < 512 * 512 then
    let r := vol.ensureTable i.doubleIndirect.toNat alloc
    let i := if r.2.2 then { i with doubleIndirect := UInt64.ofNat r.2.1 } else i
    if r.2.1 = 0 then (r.1, i, 0, r.2.2)
    else
      let m := r.1.midTable r.2.1 ((fb - 12 - 512) / 512) alloc
      if m.2 = 0 then (m.1, i, 0, r.2.2)
      else
        let e := m.1.tableEntry m.2 (m.1.readBlock m.2) ((fb - 12 - 512) % 512) alloc
        (e.1, i, e.2, r.2.2)
  else (vol, i, 0, false)

def blockOf (vol : Volume) (i : Inode) (fb : ℕ) : ℕ := (vol.resolveBlock i fb false).2.2.1

end Volume

end Exploidus.Exfs
