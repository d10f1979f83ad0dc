import Exploidus.Exfs.Directory

/-! Mounting and formatting a volume. -/
namespace Exploidus.Exfs

/-- `exfs_mount` of a device with the given content: the superblock and bitmap are loaded, the
metadata blocks marked used in memory, the journal replayed, the root node built. `jbuf` says
whether the staging buffer could be allocated; every other allocation succeeds. -/
def mount (d : ℕ → Block) (jbuf : Bool) (auditTotal : UInt64) : Option (Volume × Node) :=
  let sb := Superblock.load (d 0)
  if sb.magic ≠ exfsMagic then none
  else
    let bm := (List.range sb.dataStartBlock).foldl bitmapSet (diskBitmap sb d)
    let vol := Volume.journalReplay ⟨sb, bm, d, [], false, jbuf, [], auditTotal⟩
    let i := vol.readInode 0
    some (vol, ⟨[47], .directory, i.size, 0, i, i.mode, i.ownerUid, 0, true⟩)

/-- The superblock `exfs_format` computes, with 64-bit arithmetic; `none` when the volume is
too small. -/
def formatSuperblock (totalBlocks : ℕ) : Option Superblock :=
  let inodeBlocks := 256
  let bitmapSize := max ((totalBlocks + 32767) % 2 ^ 64 / 32768) 1
  let inodeTableBlock := 1 + bitmapSize
  if totalBlocks ≤ inodeTableBlock + inodeBlocks + 16 + 17 then none
  else
    let dataStartBlock := inodeTableBlock + inodeBlocks
    let provenanceBlock := totalBlocks - 16
    some {
      magic := exfsMagic
      version := 1
      totalBlocks := totalBlocks
      freeBlocks := totalBlocks - dataStartBlock - 16 - 17
      totalInodes := 4096
      freeInodes := 4095
      inodeTableBlock := inodeTableBlock
      blockBitmapBlock := 1
      dataStartBlock := dataStartBlock
      provenanceBlock := provenanceBlock
      provenanceSize := 16
      journalBlock := provenanceBlock - 17
      journalSize := 17
      bitmapSize := bitmapSize }

/-- Whether `exfs_format` marks block `b` as used. -/
def formatUsed (sb : Superblock) (b : ℕ) : Bool :=
  decide (b < sb.dataStartBlock) ||
    (decide (sb.provenanceBlock ≤ b) && decide (b < sb.totalBlocks)) ||
    (decide (sb.journalBlock ≤ b) && decide (b < sb.journalBlock + sb.journalSize))

/-- Bitmap block `bb` as `exfs_format` builds it, bit by bit in a zeroed buffer. -/
def formatBitmapBlock (sb : Superblock) (bb : ℕ) : Block :=
  let base := bb * 32768
  let lim := min (base + 32768) sb.totalBlocks
  bitmapSlice ((List.range (lim - base)).foldl
    (fun bm l => if formatUsed sb (base + l) then bitmapSet bm l else bm) (fun _ => 0)) 0

def rootInode : Inode := { Inode.blank with mode := 0o755 }

/-- `exfs_format`: the formatted device, or `none` when the volume is too small. -/
def format (d : ℕ → Block) (totalBlocks : ℕ) : Option (ℕ → Block) :=
  (formatSuperblock totalBlocks).map fun sb =>
    let vol : Volume := ⟨sb, fun _ => 0, d, [], false, false, [], 0⟩
    let vol := vol.writeBlock 0 sb.block
    let vol := (List.range 256).foldl
      (fun v b => v.writeBlock (sb.inodeTableBlock + b) zeroBlock) vol
    let vol := (List.range sb.bitmapSize).foldl
      (fun v bb => v.writeBlock (sb.blockBitmapBlock + bb) (formatBitmapBlock sb bb)) vol
    let vol := (List.range 17).foldl
      (fun v b => v.writeBlock (sb.journalBlock + b) zeroBlock) vol
    (vol.writeInode 0 rootInode).disk

end Exploidus.Exfs
