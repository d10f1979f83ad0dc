import Exploidus.Exfs.Resolve
import Exploidus.Crypto.Blake3

/-! File operations of the driver: integrity hash, provenance records, open, read, write,
chmod and chgrp. -/
namespace Exploidus.Exfs
open ByteLayout

/-- `vfs_node_type_t`. -/
inductive NodeType where
  | file | directory | device | symlink
  deriving DecidableEq, Repr

/-- A `vfs_node_t` of this driver with its `exfs_node_data_t`: the node holds a private copy
of the on-disk inode. `isRoot` is `parent == NULL`. -/
structure Node where
  name : List UInt8
  type : NodeType
  size : UInt64
  inodeNum : ℕ
  inode : Inode
  mode : UInt32
  ownerUid : UInt32
  groupGid : UInt32
  isRoot : Bool

def provOpRead : UInt8 := 2
def provOpWrite : UInt8 := 3

namespace Volume

/-- The bytes `exfs_compute_whole_file_hash` feeds to the hash, from logical block `fb` on. -/
def hashedBytes (vol : Volume) (i : Inode) : ℕ → ℕ → ℕ → List UInt8
  | 0, _, _ => []
  | fuel + 1, remaining, fb =>
    if remaining = 0 then []
    else
      let blk := vol.blockOf i fb
      if blk = 0 then []
      else
        let chunk := min remaining 4096
        (List.range chunk).map (vol.readBlock blk).byte ++
          hashedBytes vol i fuel (remaining - chunk) (fb + 1)

def computeWholeFileHash (vol : Volume) (i : Inode) : UInt64 :=
  let digest := Blake3.hash (vol.hashedBytes i (i.size.toNat / 4096 + 1) i.size.toNat 0)
  UInt64.ofNat (le 8 fun k => digest.getD k 0)

/-- `exfs_append_prov`: the record goes to slot `prov_head + prov_count` of the region;
nothing happens when the region is full. -/
def appendProv (vol : Volume) (n : ℕ) (i : Inode) (op : UInt8) (pid : UInt32)
    (capUpper fileOffset length : UInt64) : Volume × Inode :=
  let rec' : ProvRecord := ⟨vol.auditTotal, pid, op, capUpper, fileOffset, length⟩
  let idx := (i.provHead + i.provCount.toUInt64).toNat
  if vol.sb.provenanceSize ≤ idx / 102 then (vol, i)
  else
    let b := vol.sb.provenanceBlock + idx / 102
    let vol := vol.writeBlock b (ProvRecord.store (vol.readBlock b) (idx % 102 * 40) rec')
    let i := { i with provCount := i.provCount + 1 }
    let vol := vol.writeInode n i
    ({ vol with auditTotal := vol.auditTotal + 1 }, i)

/-- `exfs_op_open`. The flag is the integrity warning. -/
def opOpen (vol : Volume) (node : Node) : Volume × Node × Bool :=
  let i := vol.readInode node.inodeNum
  let warn := i.blockHash != 0 && vol.computeWholeFileHash i != i.blockHash
  let r := vol.appendProv node.inodeNum i provOpRead 0 0 0 0
  (r.1, { node with inode := r.2 }, warn)

def opChmod (vol : Volume) (node : Node) (mode : UInt32) : Volume × Node :=
  let i := { node.inode with mode := mode }
  (vol.writeInode node.inodeNum i, { node with inode := i, mode := mode })

def opChgrp (vol : Volume) (node : Node) (gid : UInt32) : Volume × Node :=
  let i := { node.inode with groupGid := gid }
  (vol.writeInode node.inodeNum i, { node with inode := i, groupGid := gid })

/-- The loop of `exfs_op_read` with `n` bytes read so far; it stops at the first unmapped
block. A turn reads at least one byte, so `len` turns suffice. -/
def readLoop (vol : Volume) (i : Inode) (off len : ℕ) : ℕ → ℕ → List UInt8 → List UInt8
  | 0, _, acc => acc
  | fuel + 1, n, acc =>
    if len ≤ n then acc
    else
      let pos := (off + n) % 2 ^ 64
      let can := min (4096 - pos % 4096) (len - n)
      let blk := vol.blockOf i (pos / 4096)
      if blk = 0 then acc
      else readLoop vol i off len fuel (n + can)
        (acc ++ (List.range can).map fun k => (vol.readBlock blk).byte (pos % 4096 + k))

/-- `exfs_op_read` of `len` bytes at `off`, both below `2 ^ 64`. -/
def opRead (vol : Volume) (node : Node) (off len : ℕ) : Volume × Node × List UInt8 :=
  let i := node.inode
  if i.size.toNat ≤ off then (vol, node, [])
  else
    let len := if i.size.toNat < (off + len) % 2 ^ 64 then i.size.toNat - off else len
    if len = 0 then (vol, node, [])
    else
      let bytes := vol.readLoop i off len len 0 []
      let r := vol.appendProv node.inodeNum i provOpRead 0 0 (UInt64.ofNat off)
        (UInt64.ofNat bytes.length)
      (r.1, { node with inode := r.2 }, bytes)

/-- The loop of `exfs_op_write` with `n` bytes written so far: volume, inode, bytes written
and whether the inode changed. -/
def writeLoop (off : ℕ) (data : List UInt8) :
    ℕ → Volume → Inode → ℕ → Bool → Volume × Inode × ℕ × Bool
  | 0, vol, i, n, dirty => (vol, i, n, dirty)
  | fuel + 1, vol, i, n, dirty =>
    if data.length ≤ n then (vol, i, n, dirty)
    else
      let pos := (off + n) % 2 ^ 64
      let can := min (4096 - pos % 4096) (data.length - n)
      let r := vol.resolveBlock i (pos / 4096) true
      let blk := r.2.2.1
      if blk = 0 then (r.1, r.2.1, n, dirty || r.2.2.2)
      else
        let old := if pos % 4096 ≠ 0 ∨ can ≠ 4096 then r.1.readBlock blk else zeroBlock
        let buf := old.patch (pos % 4096) can fun k => data.getD (n + k) 0
        writeLoop off data fuel (r.1.writeBlock blk buf) r.2.1 (n + can) (dirty || r.2.2.2)

/-- The inode update of `exfs_op_write` after its loop: size and modification time, and
whether the inode has to be written. -/
def grownInode (i : Inode) (off written : ℕ) (now : UInt64) (dirty : Bool) : Inode × Bool :=
  let grows := decide (i.size.toNat < (off + written) % 2 ^ 64)
  let i := if grows then { i with size := UInt64.ofNat (off + written) } else i
  let i := if 0 < written then { i with modifiedAt := now } else i
  (i, dirty || grows || decide (0 < written))

/-- `exfs_op_write` of `data` at `off`; the last component is the number of bytes written. -/
def opWrite (vol : Volume) (node : Node) (off : ℕ) (data : List UInt8) : Volume × Node × ℕ :=
  let r := writeLoop off data data.length vol node.inode 0 false
  let vol := r.1
  let written := r.2.2.1
  let g := grownInode r.2.1 off written vol.auditTotal r.2.2.2
  let i := if g.2 then { g.1 with blockHash := vol.computeWholeFileHash g.1 } else g.1
  let vol := if g.2 then (vol.journalBegin.writeInode node.inodeNum i).journalCommit else vol
  let p := vol.appendProv node.inodeNum i provOpWrite 0 0 (UInt64.ofNat off)
    (UInt64.ofNat written)
  (p.1, { node with inode := p.2, size := i.size }, written)

end Volume

end Exploidus.Exfs
