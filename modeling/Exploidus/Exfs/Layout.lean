import Exploidus.Lib.Bytes

/-! On-disk structures of an ExFS volume (`exfs.h`): blocks of 4096 bytes read as
pointer tables, inodes (16 to a block), directory entries (15 to a block),
provenance records (102 to a block), the superblock and the journal header. -/
namespace Exploidus.Exfs
open ByteLayout Nat

/-- One block of `EXFS_BLOCK_SIZE` bytes. -/
abbrev Block := Buf 4096

abbrev zeroBlock : Block := Buf.zero

/-- `EXFS_MAX_DIR_BLOCKS`: direct, indirect and double-indirect logical blocks. -/
def maxDirBlocks : ℕ := 12 + 512 + 512 * 512

def exfsMagic : ℕ := 0x45584653
def journalMagic : ℕ := 0x45584a4c

theorem ofNat_toNat_mod64 (v : UInt64) : UInt64.ofNat (v.toNat % 256 ^ 8) = v := by
  rw [mod_eq_of_lt (by simpa using v.toNat_lt), UInt64.ofNat_toNat]

theorem ofNat_toNat_mod32 (v : UInt32) : UInt32.ofNat (v.toNat % 256 ^ 4) = v := by
  rw [mod_eq_of_lt (by simpa using v.toNat_lt), UInt32.ofNat_toNat]

theorem ofNat_toNat_mod16 (v : UInt16) : UInt16.ofNat (v.toNat % 256 ^ 2) = v := by
  rw [mod_eq_of_lt (by simpa using v.toNat_lt), UInt16.ofNat_toNat]

theorem ofNat_toNat_mod8 (v : UInt8) : UInt8.ofNat (v.toNat % 256 ^ 1) = v := by
  rw [mod_eq_of_lt (by simpa using v.toNat_lt), UInt8.ofNat_toNat]

/-! Pointer tables: a block read as `uint64_t[512]`. -/

def ptrAt (b : Block) (j : ℕ) : ℕ := b.get (8 * j) 8

def setPtr (b : Block) (j v : ℕ) : Block := b.patch (8 * j) 8 (leByte v)

@[simp] theorem ptrAt_zeroBlock (j : ℕ) : ptrAt zeroBlock j = 0 := Buf.get_zero _ _

theorem ptrAt_of_le (b : Block) {j : ℕ} (h : 512 ≤ j) : ptrAt b j = 0 :=
  b.get_of_le 8 (by omega)

theorem ptrAt_setPtr_self (b : Block) {j v : ℕ} (hj : j < 512) (hv : v < 2 ^ 64) :
    ptrAt (setPtr b j v) j = v := by
  have h : (setPtr b j v).get (8 * j + 0) 8 = le 8 fun i => leByte v (0 + i) :=
    b.get_patch_inside _ (by omega) (by omega)
  simp only [zero_add, add_zero] at h
  rw [ptrAt, h, le_leByte, mod_eq_of_lt (by simpa using hv)]

theorem ptrAt_setPtr_ne (b : Block) {i j : ℕ} (v : ℕ) (h : i ≠ j) :
    ptrAt (setPtr b j v) i = ptrAt b i :=
  b.get_patch_disjoint _ (by omega)

/-! Inodes. -/

/-- `exfs_inode_t`, 188 packed bytes in a slot of `EXFS_INODE_SIZE` = 256. -/
structure Inode where
  size : UInt64
  createdAt : UInt64
  modifiedAt : UInt64
  creatorPid : UInt32
  mode : UInt32
  direct : Fin 12 → UInt64
  indirect : UInt64
  doubleIndirect : UInt64
  tripleIndirect : UInt64
  provHead : UInt64
  provCount : UInt32
  blockHash : UInt64
  ownerUid : UInt32
  groupGid : UInt32
  reserved : UInt64
  deriving DecidableEq

namespace Inode

/-- The inode after `memset(&inode, 0, sizeof(inode))`. -/
def blank : Inode :=
  ⟨0, 0, 0, 0, 0, fun _ => 0, 0, 0, 0, 0, 0, 0, 0, 0, 0⟩

def fields (i : Inode) : List (ℕ × ℕ) :=
  (8, i.size.toNat) :: (8, i.createdAt.toNat) :: (8, i.modifiedAt.toNat) ::
    (4, i.creatorPid.toNat) :: (4, i.mode.toNat) ::
    ((List.ofFn fun k => (i.direct k).toNat).map (fun v => (8, v)) ++
      [(8, i.indirect.toNat), (8, i.doubleIndirect.toNat), (8, i.tripleIndirect.toNat),
        (8, i.provHead.toNat), (4, i.provCount.toNat), (8, i.blockHash.toNat),
        (4, i.ownerUid.toNat), (4, i.groupGid.toNat), (8, i.reserved.toNat)])

/-- `memcpy(out, b + base, sizeof(exfs_inode_t))`. -/
def load (b : Block) (base : ℕ) : Inode where
  size := UInt64.ofNat (b.get base 8)
  createdAt := UInt64.ofNat (b.get (base + 8) 8)
  modifiedAt := UInt64.ofNat (b.get (base + 16) 8)
  creatorPid := UInt32.ofNat (b.get (base + 24) 4)
  mode := UInt32.ofNat (b.get (base + 28) 4)
  direct k := UInt64.ofNat (b.get (base + (32 + 8 * k.val)) 8)
  indirect := UInt64.ofNat (b.get (base + 128) 8)
  doubleIndirect := UInt64.ofNat (b.get (base + 136) 8)
  tripleIndirect := UInt64.ofNat (b.get (base + 144) 8)
  provHead := UInt64.ofNat (b.get (base + 152) 8)
  provCount := UInt32.ofNat (b.get (base + 160) 4)
  blockHash := UInt64.ofNat (b.get (base + 164) 8)
  ownerUid := UInt32.ofNat (b.get (base + 172) 4)
  groupGid := UInt32.ofNat (b.get (base + 176) 4)
  reserved := UInt64.ofNat (b.get (base + 180) 8)

/-- `memcpy(b + base, in, sizeof(exfs_inode_t))`. -/
def store (b : Block) (base : ℕ) (i : Inode) : Block := b.patch base 188 (packed i.fields)

/-- The free-inode scan's test, negated: an inode is in use when its mode or size is set. -/
def inUse (i : Inode) : Prop := i.mode ≠ 0 ∨ i.size ≠ 0
  deriving Decidable

private theorem get_store (b : Block) {base : ℕ} (i : Inode) (h : base + 188 ≤ 4096) {d k : ℕ}
    (hd : d + k ≤ 188) : (store b base i).get (base + d) k = field i.fields d k :=
  b.get_patch_inside _ hd h

theorem load_store (b : Block) {base : ℕ} (i : Inode) (h : base + 188 ≤ 4096) :
    load (store b base i) base = i := by
  have hg {d k : ℕ} (hd : d + k ≤ 188) := get_store b i h hd
  have hg0 : (store b base i).get base 8 = field i.fields 0 8 := by
    simpa only [add_zero] using hg (d := 0) (k := 8) (by omega)
  have hdir (k : Fin 12) :
      UInt64.ofNat ((store b base i).get (base + (32 + 8 * k.val)) 8) = i.direct k := by
    rw [hg (by omega), fields, field_tail _ _ _ (by omega), field_tail _ _ _ (by omega),
      field_tail _ _ _ (by omega), field_tail _ _ _ (by omega), field_tail _ _ _ (by omega)]
    have h32 : 32 + 8 * k.val - 8 - 8 - 8 - 4 - 4 = 8 * k.val := by omega
    rw [h32, field_map _ _ (by simp), List.getElem_ofFn]
    exact ofNat_toNat_mod64 _
  have hlen : (List.ofFn fun k => (i.direct k).toNat).length = 12 := List.length_ofFn
  cases i
  simp only [load, hdir, Inode.mk.injEq]
  rw [hg0, hg (by omega), hg (by omega), hg (by omega), hg (by omega), hg (by omega),
    hg (by omega), hg (by omega), hg (by omega), hg (by omega), hg (by omega), hg (by omega),
    hg (by omega), hg (by omega)]
  simp (disch := simp) only [fields, field_head, field_tail, field_skip, hlen, reduceSub,
    reduceMul, ofNat_toNat_mod64, ofNat_toNat_mod32, and_self]

theorem load_store_other (b : Block) {base base' : ℕ} (i : Inode)
    (h : base' + 188 ≤ base ∨ base + 188 ≤ base') :
    load (store b base i) base' = load b base' := by
  have hg {d k : ℕ} (hd : d + k ≤ 188) : (store b base i).get (base' + d) k = b.get (base' + d) k :=
    b.get_patch_disjoint _ (by omega)
  have hg0 : (store b base i).get base' 8 = b.get base' 8 := by
    simpa only [add_zero] using hg (d := 0) (k := 8) (by omega)
  simp (disch := omega) only [load, hg0, hg]

@[simp] theorem load_zero (base : ℕ) : load zeroBlock base = blank := by
  simp [load, blank]

end Inode

def inodeAt (b : Block) (k : ℕ) : Inode := Inode.load b (k * 256)

def setInode (b : Block) (k : ℕ) (i : Inode) : Block := Inode.store b (k * 256) i

theorem inodeAt_setInode_self (b : Block) {k : ℕ} (i : Inode) (h : k < 16) :
    inodeAt (setInode b k i) k = i := Inode.load_store b i (by omega)

theorem inodeAt_setInode_ne (b : Block) {k k' : ℕ} (i : Inode) (h : k' ≠ k) :
    inodeAt (setInode b k i) k' = inodeAt b k' :=
  Inode.load_store_other b i (by omega)

/-! Directory entries. -/

/-- `exfs_dirent_t`, 268 packed bytes. -/
structure Dirent where
  inodeNum : UInt64
  nameLen : UInt16
  fileType : UInt8
  pad : UInt8
  name : Buf 256

namespace Dirent

/-- The entry after `memset(de, 0, sizeof(exfs_dirent_t))`: a tombstone. -/
def blank : Dirent := ⟨0, 0, 0, 0, Buf.zero⟩

def bytes (e : Dirent) (j : ℕ) : UInt8 :=
  if j < 12 then
    packed [(8, e.inodeNum.toNat), (2, e.nameLen.toNat), (1, e.fileType.toNat), (1, e.pad.toNat)] j
  else e.name.byte (j - 12)

def load (b : Block) (base : ℕ) : Dirent where
  inodeNum := UInt64.ofNat (b.get base 8)
  nameLen := UInt16.ofNat (b.get (base + 8) 2)
  fileType := UInt8.ofNat (b.get (base + 10) 1)
  pad := UInt8.ofNat (b.get (base + 11) 1)
  name i := b.byte (base + 12 + i.val)

def store (b : Block) (base : ℕ) (e : Dirent) : Block := b.patch base 268 e.bytes

theorem load_store (b : Block) {base : ℕ} (e : Dirent) (h : base + 268 ≤ 4096) :
    load (store b base e) base = e := by
  have hg {d k : ℕ} (hd : d + k ≤ 12) : (store b base e).get (base + d) k =
      field [(8, e.inodeNum.toNat), (2, e.nameLen.toNat), (1, e.fileType.toNat),
        (1, e.pad.toNat)] d k := by
    rw [store, Buf.get_patch_inside _ _ (by omega) h]
    apply le_congr
    intro i hi
    rw [bytes, if_pos (by omega)]
  have hg0 : (store b base e).get base 8 = field [(8, e.inodeNum.toNat), (2, e.nameLen.toNat),
      (1, e.fileType.toNat), (1, e.pad.toNat)] 0 8 := by
    simpa only [add_zero] using hg (d := 0) (k := 8) (by omega)
  have hname : (fun i : Fin 256 => (store b base e).byte (base + 12 + i.val)) = e.name := by
    funext i
    have hi := i.isLt
    rw [store, add_assoc, Buf.byte_patch_inside _ _ (by omega) (by omega), bytes,
      if_neg (by omega), Nat.add_sub_cancel_left]
    simp [Buf.byte]
  obtain ⟨ino, len, ty, pad, name⟩ := e
  rw [load, hg0, hg (by omega), hg (by omega), hg (by omega), hname]
  simp (disch := simp) only [field_head, field_tail, reduceSub, ofNat_toNat_mod64,
    ofNat_toNat_mod16, ofNat_toNat_mod8]

theorem load_store_other (b : Block) {base base' : ℕ} (e : Dirent)
    (h : base' + 268 ≤ base ∨ base + 268 ≤ base') :
    load (store b base e) base' = load b base' := by
  have hg {d k : ℕ} (hd : d + k ≤ 268) : (store b base e).get (base' + d) k = b.get (base' + d) k :=
    b.get_patch_disjoint _ (by omega)
  have hg0 : (store b base e).get base' 8 = b.get base' 8 := by
    simpa only [add_zero] using hg (d := 0) (k := 8) (by omega)
  have hname : (fun i : Fin 256 => (store b base e).byte (base' + 12 + i.val)) =
      fun i : Fin 256 => b.byte (base' + 12 + i.val) := by
    funext i
    have hi := i.isLt
    rw [store, Buf.byte_patch, if_neg (by omega)]
  simp (disch := omega) only [load, hg0, hname, hg]

@[simp] theorem load_zero (base : ℕ) : load zeroBlock base = blank := by
  simp only [load, blank, Buf.get_zero, Buf.byte_zero]
  rfl

/-- The first `nameLen` bytes of the name field. -/
def text (e : Dirent) : List UInt8 := (List.range e.nameLen.toNat).map e.name.byte

/-- `de->name_len == (uint16_t)strlen(name) && memcmp(de->name, name, name_len) == 0`. -/
def hasName (e : Dirent) (name : List UInt8) : Bool :=
  e.nameLen == UInt16.ofNat name.length && e.text == name.take e.nameLen.toNat

/-- The entry `exfs_op_create`, `exfs_op_symlink` and `exfs_op_rename` build in an empty slot. -/
def named (ino : ℕ) (fileType : UInt8) (name : List UInt8) : Dirent where
  inodeNum := UInt64.ofNat ino
  nameLen := UInt16.ofNat name.length
  fileType := fileType
  pad := 0
  name i := name.getD i.val 0

end Dirent

def direntAt (b : Block) (k : ℕ) : Dirent := Dirent.load b (k * 268)

def setDirent (b : Block) (k : ℕ) (e : Dirent) : Block := Dirent.store b (k * 268) e

theorem direntAt_setDirent_self (b : Block) {k : ℕ} (e : Dirent) (h : k < 15) :
    direntAt (setDirent b k e) k = e := Dirent.load_store b e (by omega)

theorem direntAt_setDirent_ne (b : Block) {k k' : ℕ} (e : Dirent) (h : k' ≠ k) :
    direntAt (setDirent b k e) k' = direntAt b k' :=
  Dirent.load_store_other b e (by omega)

@[simp] theorem direntAt_zeroBlock (k : ℕ) : direntAt zeroBlock k = Dirent.blank :=
  Dirent.load_zero _

/-! Provenance records. -/

/-- `exfs_prov_record_t`, 40 packed bytes. -/
structure ProvRecord where
  timestamp : UInt64
  pid : UInt32
  operation : UInt8
  capUpper : UInt64
  fileOffset : UInt64
  length : UInt64
  deriving DecidableEq

namespace ProvRecord

def fields (r : ProvRecord) : List (ℕ × ℕ) :=
  [(8, r.timestamp.toNat), (4, r.pid.toNat), (1, r.operation.toNat), (3, 0),
    (8, r.capUpper.toNat), (8, r.fileOffset.toNat), (8, r.length.toNat)]

def store (b : Block) (base : ℕ) (r : ProvRecord) : Block := b.patch base 40 (packed r.fields)

end ProvRecord

/-! The superblock and the journal header. -/

/-- `exfs_superblock_t` without the unused UUID and padding. -/
structure Superblock where
  magic : ℕ
  version : ℕ
  totalBlocks : ℕ
  freeBlocks : ℕ
  totalInodes : ℕ
  freeInodes : ℕ
  inodeTableBlock : ℕ
  blockBitmapBlock : ℕ
  dataStartBlock : ℕ
  provenanceBlock : ℕ
  provenanceSize : ℕ
  journalBlock : ℕ
  journalSize : ℕ
  bitmapSize : ℕ
  deriving DecidableEq

namespace Superblock

def fields (s : Superblock) : List (ℕ × ℕ) :=
  [(4, s.magic), (4, s.version), (8, s.totalBlocks), (8, s.freeBlocks), (8, s.totalInodes),
    (8, s.freeInodes), (8, s.inodeTableBlock), (8, s.blockBitmapBlock), (8, s.dataStartBlock),
    (8, s.provenanceBlock), (8, s.provenanceSize), (16, 0), (8, s.journalBlock),
    (8, s.journalSize), (8, s.bitmapSize)]

def load (b : Block) : Superblock where
  magic := b.get 0 4
  version := b.get 4 4
  totalBlocks := b.get 8 8
  freeBlocks := b.get 16 8
  totalInodes := b.get 24 8
  freeInodes := b.get 32 8
  inodeTableBlock := b.get 40 8
  blockBitmapBlock := b.get 48 8
  dataStartBlock := b.get 56 8
  provenanceBlock := b.get 64 8
  provenanceSize := b.get 72 8
  journalBlock := b.get 96 8
  journalSize := b.get 104 8
  bitmapSize := b.get 112 8

/-- The block `exfs_format` writes: the structure over a zeroed buffer. -/
def block (s : Superblock) : Block := zeroBlock.patch 0 120 (packed s.fields)

def Fits (s : Superblock) : Prop :=
  s.magic < 2 ^ 32 ∧ s.version < 2 ^ 32 ∧
    ∀ v ∈ [s.totalBlocks, s.freeBlocks, s.totalInodes, s.freeInodes, s.inodeTableBlock,
      s.blockBitmapBlock, s.dataStartBlock, s.provenanceBlock, s.provenanceSize, s.journalBlock,
      s.journalSize, s.bitmapSize], v < 2 ^ 64

theorem load_block (s : Superblock) (h : s.Fits) : load s.block = s := by
  have hg {d k : ℕ} (hd : d + k ≤ 120) : s.block.get d k = field s.fields d k := by
    have h0 : s.block.get (0 + d) k = field s.fields d k :=
      zeroBlock.get_patch_inside _ hd (by omega)
    rwa [zero_add] at h0
  obtain ⟨hm, hv, h64⟩ := h
  simp only [List.forall_mem_cons] at h64
  obtain ⟨h1, h2, h3, h4, h5, h6, h7, h8, h9, h10, h11, h12, -⟩ := h64
  obtain ⟨m, v, tb, fb, ti, fi, it, bb, ds, pb, ps, jb, js, bs⟩ := s
  simp only [load]
  rw [hg (by omega), hg (by omega), hg (by omega), hg (by omega), hg (by omega), hg (by omega),
    hg (by omega), hg (by omega), hg (by omega), hg (by omega), hg (by omega), hg (by omega),
    hg (by omega), hg (by omega)]
  simp (disch := simp) only [fields, field_head, field_tail, reduceSub]
  simp only [Superblock.mk.injEq]
  norm_num only [mod_eq_of_lt] at *
  refine ⟨?_, ?_, ?_, ?_, ?_, ?_, ?_, ?_, ?_, ?_, ?_, ?_, ?_, ?_⟩ <;>
    exact mod_eq_of_lt (by assumption)

end Superblock

/-- The header block of a transaction with the given target blocks: magic, count and
block numbers over a zeroed buffer. -/
def journalHeader (targets : List ℕ) : Block :=
  zeroBlock.patch 0 (8 + 8 * targets.length)
    (packed ((4, journalMagic) :: (4, targets.length) :: targets.map fun t => (8, t)))

def headerMagic (b : Block) : ℕ := b.get 0 4
def headerCount (b : Block) : ℕ := b.get 4 4
def headerTarget (b : Block) (i : ℕ) : ℕ := b.get (8 + 8 * i) 8

@[simp] theorem headerMagic_zeroBlock : headerMagic zeroBlock = 0 := Buf.get_zero _ _

section Header
variable {targets : List ℕ} (h : targets.length ≤ 16)
include h

private theorem get_journalHeader {d k : ℕ} (hd : d + k ≤ 8 + 8 * targets.length) :
    (journalHeader targets).get d k =
      field ((4, journalMagic) :: (4, targets.length) :: targets.map fun t => (8, t)) d k := by
  have h0 : (journalHeader targets).get (0 + d) k =
      field ((4, journalMagic) :: (4, targets.length) :: targets.map fun t => (8, t)) d k :=
    zeroBlock.get_patch_inside _ hd (by omega)
  rwa [zero_add] at h0

theorem headerMagic_journalHeader : headerMagic (journalHeader targets) = journalMagic := by
  rw [headerMagic, get_journalHeader h (by omega), field_head]
  rfl

theorem headerCount_journalHeader : headerCount (journalHeader targets) = targets.length := by
  rw [headerCount, get_journalHeader h (by omega), field_tail _ _ _ (by omega), Nat.sub_self,
    field_head]
  exact mod_eq_of_lt (by omega)

theorem headerTarget_journalHeader {i : ℕ} (hi : i < targets.length)
    (hfit : targets[i] < 2 ^ 64) : headerTarget (journalHeader targets) i = targets[i] := by
  rw [headerTarget, get_journalHeader h (by omega), field_tail _ _ _ (by omega),
    field_tail _ _ _ (by omega)]
  have h8 : 8 + 8 * i - 4 - 4 = 8 * i := by omega
  have hmap := field_map (w := 8) targets [] hi
  rw [List.append_nil] at hmap
  rw [h8, hmap]
  exact mod_eq_of_lt (by simpa using hfit)

end Header

end Exploidus.Exfs
