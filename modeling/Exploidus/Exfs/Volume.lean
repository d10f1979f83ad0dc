import Exploidus.Exfs.Layout
import Exploidus.Lib.WriteLog

/-! The mounted volume: block I/O, the in-memory block bitmap, block allocation.

The device completes a whole-block write or none of it, a read returns the last
completed write, and neither fails; `log` remembers the completed writes, so that a
stop between two of them leaves `applyWrites` of a prefix behind. -/
namespace Exploidus.Exfs
open WriteLog

/-- `exfs_volume_t` with the device under it. `jtxnData` says whether the staging buffer was
allocated at mount; `auditTotal` is the kernel's `audit_total()` counter. -/
structure Volume where
  sb : Superblock
  blockBitmap : ℕ → UInt8
  disk : ℕ → Block
  log : List (ℕ × Block)
  jtxnActive : Bool
  jtxnData : Bool
  jtxn : List (ℕ × Block)
  auditTotal : UInt64

namespace Volume

def readBlock (vol : Volume) (b : ℕ) : Block := vol.disk b

def writeBlock (vol : Volume) (b : ℕ) (buf : Block) : Volume :=
  { vol with disk := Function.update vol.disk b buf, log := vol.log ++ [(b, buf)] }

section
variable (vol : Volume)

@[simp] theorem writeBlock_sb (b : ℕ) (buf : Block) : (vol.writeBlock b buf).sb = vol.sb := rfl

@[simp] theorem writeBlock_blockBitmap (b : ℕ) (buf : Block) :
    (vol.writeBlock b buf).blockBitmap = vol.blockBitmap := rfl

@[simp] theorem writeBlock_disk (b : ℕ) (buf : Block) :
    (vol.writeBlock b buf).disk = Function.update vol.disk b buf := rfl

@[simp] theorem writeBlock_jtxnActive (b : ℕ) (buf : Block) :
    (vol.writeBlock b buf).jtxnActive = vol.jtxnActive := rfl

@[simp] theorem writeBlock_jtxnData (b : ℕ) (buf : Block) :
    (vol.writeBlock b buf).jtxnData = vol.jtxnData := rfl

@[simp] theorem writeBlock_jtxn (b : ℕ) (buf : Block) :
    (vol.writeBlock b buf).jtxn = vol.jtxn := rfl

end

def writeAll (vol : Volume) (ws : List (ℕ × Block)) : Volume :=
  ws.foldl (fun v w => v.writeBlock w.1 w.2) vol

/-- The writes completed on the way from `vol` to `vol'`. -/
def writesSince (vol vol' : Volume) : List (ℕ × Block) := vol'.log.drop vol.log.length

/-- What a stop after `k` of the writes on the way to `vol'` leaves on the device. -/
def stoppedAt (vol vol' : Volume) (k : ℕ) : ℕ → Block :=
  applyWrites vol.disk ((vol.writesSince vol').take k)

structure Wrote (vol : Volume) (ws : List (ℕ × Block)) (vol' : Volume) : Prop where
  log : vol'.log = vol.log ++ ws
  disk : vol'.disk = applyWrites vol.disk ws

theorem Wrote.refl (vol : Volume) : Wrote vol [] vol := ⟨by simp, rfl⟩

theorem Wrote.trans {u v w : Volume} {as bs : List (ℕ × Block)} (h : Wrote u as v)
    (h' : Wrote v bs w) : Wrote u (as ++ bs) w :=
  ⟨by rw [h'.log, h.log, List.append_assoc], by rw [h'.disk, h.disk, applyWrites_append]⟩

theorem wrote_writeBlock (vol : Volume) (b : ℕ) (buf : Block) :
    Wrote vol [(b, buf)] (vol.writeBlock b buf) := ⟨rfl, rfl⟩

theorem writeAll_eq (vol : Volume) (ws : List (ℕ × Block)) : vol.writeAll ws =
    { vol with disk := applyWrites vol.disk ws, log := vol.log ++ ws } := by
  induction ws generalizing vol with
  | nil => simp [writeAll]
  | cons w ws ih =>
    have h := ih (vol.writeBlock w.1 w.2)
    simp only [writeAll, List.foldl_cons] at h ⊢
    rw [h]
    simp [writeBlock]

theorem wrote_writeAll (vol : Volume) (ws : List (ℕ × Block)) : Wrote vol ws (vol.writeAll ws) := by
  rw [writeAll_eq]
  exact ⟨rfl, rfl⟩

theorem Wrote.writesSince {vol vol' : Volume} {ws : List (ℕ × Block)} (h : Wrote vol ws vol') :
    vol.writesSince vol' = ws := by
  rw [Volume.writesSince, h.log, List.drop_left]

theorem Wrote.stoppedAt {vol vol' : Volume} {ws : List (ℕ × Block)} (h : Wrote vol ws vol')
    (k : ℕ) : vol.stoppedAt vol' k = applyWrites vol.disk (ws.take k) := by
  rw [Volume.stoppedAt, h.writesSince]

end Volume

/-! The bitmap is a byte array, one bit per block, 1 = used. -/

def bitMask (blk : ℕ) : UInt8 := 1 <<< UInt8.ofNat (blk % 8)

def bitmapGet (bm : ℕ → UInt8) (blk : ℕ) : Bool := (bm (blk / 8) &&& bitMask blk) != 0

def bitmapSet (bm : ℕ → UInt8) (blk : ℕ) : ℕ → UInt8 :=
  fun j => if j = blk / 8 then bm j ||| bitMask blk else bm j

def bitmapClear (bm : ℕ → UInt8) (blk : ℕ) : ℕ → UInt8 :=
  fun j => if j = blk / 8 then bm j &&& ~~~ bitMask blk else bm j

/-- Bytes `i * 4096, …` of the bitmap as one block. -/
def bitmapSlice (bm : ℕ → UInt8) (i : ℕ) : Block := fun j => bm (i * 4096 + j.val)

/-- The first of the blocks `b, b + 1, …` (`count` of them) whose bit is clear. -/
def findClear (bm : ℕ → UInt8) : ℕ → ℕ → Option ℕ
  | 0, _ => none
  | count + 1, b => if bitmapGet bm b then findClear bm count (b + 1) else some b

namespace Volume

/-- Number of bitmap blocks; a legacy volume stores 0 and has one. -/
def bitmapBlocks (sb : Superblock) : ℕ := if sb.bitmapSize = 0 then 1 else sb.bitmapSize

end Volume

/-- Byte `j` of the bitmap on a device. -/
def diskBitmap (sb : Superblock) (d : ℕ → Block) (j : ℕ) : UInt8 :=
  if j < Volume.bitmapBlocks sb * 4096 then (d (sb.blockBitmapBlock + j / 4096)).byte (j % 4096)
  else 0

namespace Volume

/-- The loop of `flush_bitmap` from block `i` on. -/
def flushFrom (vol : Volume) : ℕ → ℕ → Volume
  | 0, _ => vol
  | count + 1, i =>
    flushFrom (vol.writeBlock (vol.sb.blockBitmapBlock + i) (bitmapSlice vol.blockBitmap i))
      count (i + 1)

def flushBitmap (vol : Volume) : Volume := vol.flushFrom (bitmapBlocks vol.sb) 0

/-- `exfs_alloc_block`: the first free block of the volume, marked used and flushed;
0 when the volume is full. -/
def allocBlock (vol : Volume) : Volume × ℕ :=
  match findClear vol.blockBitmap (vol.sb.totalBlocks - vol.sb.dataStartBlock)
    vol.sb.dataStartBlock with
  | none => (vol, 0)
  | some b => (flushBitmap { vol with
      blockBitmap := bitmapSet vol.blockBitmap b
      sb := { vol.sb with freeBlocks := (vol.sb.freeBlocks + 2 ^ 64 - 1) % 2 ^ 64 } }, b)

def freeBlock (vol : Volume) (blk : ℕ) : Volume :=
  if blk < vol.sb.dataStartBlock ∨ vol.sb.totalBlocks ≤ blk then vol
  else if !bitmapGet vol.blockBitmap blk then vol
  else flushBitmap { vol with
    blockBitmap := bitmapClear vol.blockBitmap blk
    sb := { vol.sb with freeBlocks := (vol.sb.freeBlocks + 1) % 2 ^ 64 } }

end Volume

end Exploidus.Exfs
