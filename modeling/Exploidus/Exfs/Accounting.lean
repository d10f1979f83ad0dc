import Exploidus.Exfs.FormatSpec
import Exploidus.Exfs.Run

/-! The free-block count over operations and remounts. The count and the bitmap change together,
in `exfs_alloc_block` and `exfs_free_block` only; a mount reads the count from the superblock, which
no operation writes. -/
namespace Exploidus.Exfs
open ByteLayout Superblock List

/-- The free-block count is the number of clear bits in `[data_start_block, total_blocks)`. -/
def FreeExact (vol : Volume) : Prop :=
  vol.sb.freeBlocks = clearCount vol.blockBitmap vol.sb.dataStartBlock vol.sb.totalBlocks
  deriving Decidable

namespace Volume

def books (vol : Volume) : Superblock × (ℕ → UInt8) := (vol.sb, vol.blockBitmap)

structure Counted (vol : Volume) : Prop where
  fits : vol.sb.totalBlocks < 2 ^ 64
  free : FreeExact vol

theorem Counted.of_books {vol vol' : Volume} (h : vol.Counted) (hb : vol'.books = vol.books) :
    vol'.Counted := by
  obtain ⟨hsb, hbm⟩ := Prod.mk.injEq .. ▸ hb
  exact ⟨hsb ▸ h.fits, by rw [FreeExact, hsb, hbm]; exact h.free⟩

section
variable (vol : Volume)

@[simp] theorem books_writeBlock (b : ℕ) (buf : Block) :
    (vol.writeBlock b buf).books = vol.books := rfl

@[simp] theorem books_writeAll (ws : List (ℕ × Block)) :
    (vol.writeAll ws).books = vol.books := by rw [writeAll_eq]; rfl

@[simp] theorem books_journalStage (b : ℕ) (buf : Block) :
    (vol.journalStage b buf).books = vol.books := by
  unfold journalStage
  split
  · rfl
  split
  · rfl
  · split <;> rfl

@[simp] theorem books_metaWriteBlock (b : ℕ) (buf : Block) :
    (vol.metaWriteBlock b buf).books = vol.books := by
  unfold metaWriteBlock
  split_ifs <;> simp

@[simp] theorem books_writeInode (n : ℕ) (i : Inode) :
    (vol.writeInode n i).books = vol.books := books_metaWriteBlock ..

@[simp] theorem books_journalCommit : vol.journalCommit.books = vol.books := by
  unfold journalCommit
  simp only
  split_ifs
  · rfl
  · rfl
  · exact books_writeAll { vol with jtxnActive := false } vol.jtxn
  simp only [writeAll_eq]
  rfl

@[simp] theorem books_flushFrom (count i : ℕ) : (vol.flushFrom count i).books = vol.books := by
  induction count generalizing vol i with
  | zero => rfl
  | succ count ih => rw [flushFrom, ih, books_writeBlock]

@[simp] theorem books_flushBitmap : vol.flushBitmap.books = vol.books :=
  books_flushFrom ..

end

variable {vol : Volume}

section
variable (h : vol.Counted)
include h

theorem Counted.flushBitmap : vol.flushBitmap.Counted :=
  h.of_books (books_flushBitmap vol)

theorem Counted.change {bm : ℕ → UInt8} {n : ℕ}
    (hn : n = clearCount bm vol.sb.dataStartBlock vol.sb.totalBlocks) :
    Counted { vol with blockBitmap := bm, sb := { vol.sb with freeBlocks := n } } :=
  ⟨h.fits, hn⟩

theorem Counted.allocBlock : vol.allocBlock.1.Counted := by
  unfold Volume.allocBlock
  split
  · exact h
  rename_i b hb
  obtain ⟨h1, h2, hclear⟩ := findClear_eq_some hb
  have hend : b < vol.sb.totalBlocks := by omega
  have hcount := clearCount_bitmapSet h1 hend hclear
  have hle := clearCount_le vol.blockBitmap vol.sb.dataStartBlock vol.sb.totalBlocks
  have hlt := h.fits
  have hfree : vol.sb.freeBlocks = _ := h.free
  exact (h.change (by omega)).flushBitmap

theorem Counted.freeBlock (b : ℕ) : (vol.freeBlock b).Counted := by
  unfold Volume.freeBlock
  split_ifs with hout hclear
  · exact h
  · exact h
  have hset : bitmapGet vol.blockBitmap b := by simpa using hclear
  have h1 : vol.sb.dataStartBlock ≤ b := by omega
  have h2 : b < vol.sb.totalBlocks := by omega
  have hcount := clearCount_bitmapClear h1 h2 hset
  have hle := clearCount_le (bitmapClear vol.blockBitmap b) vol.sb.dataStartBlock
    vol.sb.totalBlocks
  have hlt := h.fits
  have hfree : vol.sb.freeBlocks = _ := h.free
  exact (h.change (by omega)).flushBitmap

theorem Counted.metaWriteBlock (b : ℕ) (buf : Block) :
    (vol.metaWriteBlock b buf).Counted := h.of_books (books_metaWriteBlock vol b buf)

theorem Counted.writeInode (n : ℕ) (i : Inode) : (vol.writeInode n i).Counted :=
  h.of_books (books_writeInode vol n i)

theorem Counted.journalCommit : vol.journalCommit.Counted :=
  h.of_books (books_journalCommit vol)

theorem Counted.journalBegin : vol.journalBegin.Counted := h.of_books rfl

/-! Every operation keeps the count exact, whatever the state of the volume. -/

theorem Counted.newBlock (leaf : Bool) : (vol.newBlock leaf).1.Counted := by
  unfold Volume.newBlock Volume.allocTable
  dsimp only
  split_ifs
  · exact h.allocBlock
  · exact h.allocBlock
  · exact h.allocBlock.metaWriteBlock _ _

theorem Counted.descend (t : ℕ) (q : List ℕ) : (vol.descend t q).1.Counted := by
  induction q generalizing vol t with
  | nil => exact h
  | cons idx q ih =>
    have ha := h.newBlock q.isEmpty
    rw [Volume.descend]
    split_ifs
    · exact ih h _
    · exact ha
    · exact ih (ha.metaWriteBlock _ _) _

theorem Counted.resolveBlock (i : Inode) (fb : ℕ) (alloc : Bool) :
    (vol.resolveBlock i fb alloc).1.Counted := by
  cases alloc with
  | false =>
    rwa [resolveBlock_false]
  | true =>
    by_cases hmax : fb < maxDirBlocks
    swap
    · rwa [resolveBlock_of_ge _ _ hmax]
    have ha := h.newBlock (pathOf fb).reverse.isEmpty
    rw [resolveBlock_true _ _ hmax, Volume.resolveAt]
    split_ifs
    · exact h.descend _ _
    · exact ha
    · exact ha.descend _ _

theorem Counted.appendProv (n : ℕ) (i : Inode) (op : UInt8) (pid : UInt32)
    (capUpper fileOffset length : UInt64) :
    (vol.appendProv n i op pid capUpper fileOffset length).1.Counted := by
  unfold Volume.appendProv
  dsimp only
  split_ifs
  · exact h
  refine Counted.of_books (Counted.writeInode (h.of_books ?_) n _) rfl
  exact books_writeBlock vol _ _

end

theorem Counted.writeLoop (off : ℕ) (data : List UInt8) (fuel : ℕ) (h : vol.Counted) (i : Inode)
    (n : ℕ) (dirty : Bool) : (writeLoop off data fuel vol i n dirty).1.Counted := by
  induction fuel generalizing vol i n dirty with
  | zero => exact h
  | succ fuel ih =>
    have hr := h.resolveBlock i ((off + n) % 2 ^ 64 / 4096) true
    rw [Volume.writeLoop]
    dsimp only
    generalize vol.resolveBlock i ((off + n) % 2 ^ 64 / 4096) true = r at hr ⊢
    split
    · exact h
    split
    · exact hr
    · exact ih (hr.of_books (books_writeBlock _ _ _)) _ _ _

section
variable (h : vol.Counted)
include h

theorem Counted.opWrite (node : Node) (off : ℕ) (data : List UInt8) :
    (vol.opWrite node off data).1.Counted := by
  have hloop := Counted.writeLoop off data data.length h node.inode 0 false
  unfold Volume.opWrite
  dsimp only
  refine Counted.appendProv ?_ _ _ _ _ _ _ _
  split_ifs
  · exact (hloop.journalBegin.writeInode _ _).journalCommit
  · exact hloop

theorem Counted.opRead (node : Node) (off len : ℕ) : (vol.opRead node off len).1.Counted := by
  unfold Volume.opRead
  dsimp only
  generalize (if node.inode.size.toNat < (off + len) % 2 ^ 64 then node.inode.size.toNat - off
    else len) = n
  split
  · exact h
  split
  · exact h
  dsimp only
  exact h.appendProv _ _ _ _ _ _ _

theorem Counted.putEntry (blk : ℕ) (buf : Block) (e : Dirent) :
    (vol.putEntry blk buf e).1.Counted := by
  unfold Volume.putEntry
  split <;> dsimp only
  · exact (h.metaWriteBlock _ _).journalCommit
  · exact h.journalCommit

theorem Counted.addEntry (d : ℕ) (din : Inode) (e : Dirent) : (vol.addEntry d din e).1.Counted := by
  unfold Volume.addEntry
  split <;> dsimp only
  · exact h.journalCommit
  · exact h.putEntry _ _ _
  rename_i fb _
  have hr := h.resolveBlock din fb true
  generalize vol.resolveBlock din fb true = r at hr ⊢
  by_cases h0 : r.2.2.1 = 0
  · rw [if_pos h0]
    exact hr.journalCommit
  rw [if_neg h0]
  dsimp only
  refine Counted.putEntry ?_ _ _ _
  split_ifs
  · exact hr.writeInode _ _
  · exact hr

theorem Counted.opCreate (dir : Node) (name : List UInt8) (fileType : UInt8)
    (uid gid : UInt32) : (vol.opCreate dir name fileType uid gid).1.Counted := by
  unfold Volume.opCreate
  dsimp only
  split
  · exact h
  split
  · exact h
  split
  · exact h
  · split <;> dsimp only <;> exact (h.journalBegin.writeInode _ _).addEntry _ _ _

theorem Counted.opSymlink (dir : Node) (name target : List UInt8)
    (uid gid : UInt32) : (vol.opSymlink dir name target uid gid).1.Counted := by
  have ha := h.journalBegin.allocBlock
  unfold Volume.opSymlink
  dsimp only
  generalize vol.journalBegin.allocBlock = a at ha ⊢
  split
  · exact h
  split
  · exact h
  split
  · exact h
  split <;> dsimp only
  · exact ha.journalCommit
  · exact ((ha.metaWriteBlock _ _).writeInode _ _).addEntry _ _ _

end

theorem Counted.freeFold {f : Volume → ℕ → Volume} (hf : ∀ v b, Counted v → (f v b).Counted)
    (h : vol.Counted) (bs : List ℕ) :
    (bs.foldl (fun v b => if b = 0 then v else f v b) vol).Counted := by
  induction bs generalizing vol with
  | nil => exact h
  | cons b bs ih =>
    rw [foldl_cons]
    split_ifs
    · exact ih h
    · exact ih (hf vol b h)

section
variable (h : vol.Counted)
include h

theorem Counted.freeTable (tbl : ℕ) : (vol.freeTable tbl).Counted :=
  (h.freeFold (fun _ b hv => hv.freeBlock b) _).freeBlock tbl

theorem Counted.freeInodeBlocks (i : Inode) : (vol.freeInodeBlocks i).Counted := by
  have hdirect : (vol.freeBlocks ((range 12).map i.directAt)).Counted :=
    h.freeFold (fun _ b hv => hv.freeBlock b) _
  unfold Volume.freeInodeBlocks
  dsimp only
  generalize vol.freeBlocks ((range 12).map i.directAt) = v at hdirect ⊢
  have hind : (if i.indirect = 0 then v else v.freeTable i.indirect.toNat).Counted := by
    split
    · exact hdirect
    · exact hdirect.freeTable _
  generalize (if i.indirect = 0 then v else v.freeTable i.indirect.toNat) = v at hind ⊢
  split
  · exact hind
  · exact (hind.freeFold (fun _ p hv => hv.freeTable p) _).freeBlock _

theorem Counted.dropEntry (blk k child : ℕ) : (vol.dropEntry blk k child).Counted :=
  ((h.journalBegin.writeInode _ _).metaWriteBlock _ _).journalCommit

theorem Counted.opUnlink (dir : Node) (name : List UInt8) : (vol.opUnlink dir name).1.Counted := by
  unfold Volume.opUnlink
  split
  · exact h
  split
  · exact h
  split <;> dsimp only
  · exact h
  · exact (h.dropEntry _ _ _).freeInodeBlocks _

theorem Counted.opRmdir (dir : Node) (name : List UInt8) : (vol.opRmdir dir name).1.Counted := by
  unfold Volume.opRmdir
  split
  · exact h
  split
  · exact h
  split
  · exact h
  split
  · exact h
  dsimp only
  split
  · exact h
  dsimp only
  exact (h.dropEntry _ _ _).freeInodeBlocks _

theorem Counted.moveEntry (src dst : ℕ × ℕ) (dstBuf : Block) (e : Dirent) :
    (vol.moveEntry src dst dstBuf e).Counted := by
  unfold Volume.moveEntry
  split
  · exact h.metaWriteBlock _ _
  · exact (h.metaWriteBlock _ _).metaWriteBlock _ _

theorem Counted.renameInto (src : ℕ × ℕ) (newDir : Node) (e : Dirent) :
    (vol.renameInto src newDir e).1.Counted := by
  unfold Volume.renameInto
  split
  · exact h
  · dsimp only
    split
    · exact h
    dsimp only
    exact (h.journalBegin.moveEntry _ _ _ _).journalCommit
  rename_i fb _
  have hr := h.journalBegin.resolveBlock newDir.inode fb true
  dsimp only
  generalize vol.journalBegin.resolveBlock newDir.inode fb true = r at hr ⊢
  by_cases h0 : r.2.2.1 = 0
  · rw [if_pos h0]
    exact hr.journalCommit
  rw [if_neg h0]
  dsimp only
  refine Counted.journalCommit (Counted.moveEntry ?_ _ _ _ _)
  split_ifs
  · exact hr.writeInode _ _
  · exact hr

theorem Counted.opRename (oldDir : Node) (oldName : List UInt8) (newDir : Node)
    (newName : List UInt8) (same : Bool) :
    (vol.opRename oldDir oldName newDir newName same).1.Counted := by
  have hu := h.opUnlink newDir newName
  unfold Volume.opRename
  split
  · exact h
  split
  · exact h
  split
  · exact h
  dsimp only
  split
  · exact h.renameInto _ _ _
  split
  · exact h
  split
  · exact hu
  · exact hu.renameInto _ _ _

end

@[simp] theorem books_redoFrom (vol : Volume) (hdr : Block) (count i : ℕ) :
    (vol.redoFrom hdr count i).books = vol.books := by
  induction count generalizing vol i with
  | zero => rfl
  | succ count ih => rw [redoFrom, ih, books_writeBlock]

theorem books_journalReplay (vol : Volume) : vol.journalReplay.books = vol.books := by
  unfold journalReplay
  dsimp only
  split
  · rfl
  split
  · rfl
  · rw [books_writeBlock, books_redoFrom]

end Volume

/-- A call of the driver, or the volume mounted again from its device. -/
inductive Event where
  | call (c : Call)
  | remount (jbuf : Bool) (auditTotal : UInt64)

/-- One event; `none` when the mount fails. The nodes of the old mount are gone with it. -/
def happen (s : Fs) : Event → Option Fs
  | .call c => some (exec s c)
  | .remount jbuf auditTotal =>
    (mount s.vol.disk jbuf auditTotal).map fun r => ⟨r.1, [r.2]⟩

def happenAll : Fs → List Event → Option Fs
  | s, [] => some s
  | s, e :: es => (happen s e).bind fun s => happenAll s es

/-- The superblock on the device counts the clear bits of the bitmap on the device. -/
def DeviceExact (d : ℕ → Block) : Prop :=
  let sb := load (d 0)
  sb.freeBlocks = clearCount (diskBitmap sb d) sb.dataStartBlock sb.totalBlocks
  deriving Decidable

/-- A volume is mounted again only from a device whose count is exact. -/
def Event.Fine (s : Fs) : Event → Prop
  | .call _ => True
  | .remount _ _ => (load (s.vol.disk 0)).magic = exfsMagic → DeviceExact s.vol.disk

/-- Every event of a run is fine in the state it happens in. -/
def FineRun : Fs → List Event → Prop
  | _, [] => True
  | s, e :: es => e.Fine s ∧ ∀ s', happen s e = some s' → FineRun s' es

def ExactRun (s : Fs) (es : List Event) : Prop :=
  ∀ k s', happenAll s (es.take k) = some s' → FreeExact s'.vol

/-- A device of fewer than 2 ^ 29 blocks as `exfs_format` leaves it, mounted. -/
def FreshMount (s : Fs) : Prop :=
  ∃ total d0 d jbuf auditTotal vol root, total < 2 ^ 29 ∧ format d0 total = some d ∧
    mount d jbuf auditTotal = some (vol, root) ∧ s = ⟨vol, [root]⟩

section
variable {s s' : Fs} {vol : Volume}
open Volume

theorem Volume.Counted.on {h : ℕ} {f : Node → Fs} (hs : s.vol.Counted)
    (hf : ∀ node, (f node).vol.Counted) : (s.on h f).vol.Counted := by
  unfold Fs.on
  split
  · exact hs
  · exact hf _

theorem Volume.Counted.exec (h : s.vol.Counted) (c : Call) : (exec s c).vol.Counted := by
  cases c with
  | lookup => exact h.on fun _ => h
  | create => exact h.on fun _ => h.opCreate _ _ _ _ _
  | symlink => exact h.on fun _ => h.opSymlink _ _ _ _ _
  | «open» => exact h.on fun _ => h.appendProv _ _ _ _ _ _ _
  | read => exact h.on fun _ => h.opRead _ _ _
  | write => exact h.on fun _ => h.opWrite _ _ _
  | chmod => exact h.on fun _ => h.writeInode _ _
  | chgrp => exact h.on fun _ => h.writeInode _ _
  | unlink => exact h.on fun _ => h.opUnlink _ _
  | rmdir => exact h.on fun _ => h.opRmdir _ _
  | rename => exact h.on fun _ => h.on fun _ => h.opRename _ _ _ _ _

theorem bitmapGet_marked {bm : ℕ → UInt8} {n c : ℕ} (h : n ≤ c) :
    bitmapGet ((range n).foldl bitmapSet bm) c = bitmapGet bm c := by
  induction n with
  | zero => rfl
  | succ n ih =>
    rw [range_succ, foldl_append, foldl_cons, foldl_nil, bitmapGet_bitmapSet,
      ih (by omega), decide_eq_false (by omega), Bool.false_or]

theorem mount_counted_iff {d : ℕ → Block} {jbuf : Bool} {auditTotal : UInt64} {root : Node}
    (hm : mount d jbuf auditTotal = some (vol, root)) :
    (load (d 0)).magic = exfsMagic ∧ vol.sb.totalBlocks < 2 ^ 64 ∧
      (FreeExact vol ↔ DeviceExact d) := by
  unfold mount at hm
  dsimp only at hm
  split at hm
  · cases hm
  rename_i hmagic
  obtain ⟨rfl, -⟩ := Prod.mk.inj (Option.some.inj hm)
  obtain ⟨hsb, hbm⟩ := Prod.mk.inj (books_journalReplay ⟨load (d 0),
    (range (load (d 0)).dataStartBlock).foldl bitmapSet
      (diskBitmap (load (d 0)) d), d, [], false, jbuf, [], auditTotal⟩)
  refine ⟨not_not.mp hmagic, ?_, ?_⟩
  · rw [hsb]
    exact Buf.get_lt _ _ _
  · rw [FreeExact, hsb, hbm, DeviceExact, clearCount_congr fun c hc _ => bitmapGet_marked hc]

theorem remount_counted_iff {jbuf : Bool} {auditTotal : UInt64}
    (hr : happen s (.remount jbuf auditTotal) = some s') :
    (s'.vol.Counted ↔ FreeExact s'.vol) ∧
      (FreeExact s'.vol ↔ (Event.remount jbuf auditTotal).Fine s) := by
  simp only [happen, Option.map_eq_some_iff] at hr
  obtain ⟨⟨vol, root⟩, hm, rfl⟩ := hr
  obtain ⟨hmagic, hfits, hiff⟩ := mount_counted_iff hm
  refine ⟨⟨fun h => h.free, fun h => ⟨hfits, h⟩⟩, hiff.trans ?_⟩
  exact ⟨fun h _ => h, fun h => h hmagic⟩

theorem FreshMount.counted (h : FreshMount s) : s.vol.Counted := by
  obtain ⟨total, d0, d, jbuf, a, vol, root, hlt, hf, hm, rfl⟩ := h
  obtain ⟨-, hfits, hiff⟩ := mount_counted_iff hm
  refine ⟨hfits, hiff.mpr ?_⟩
  rcases hg : formatSuperblock total with _ | g
  · simp [format, hg] at hf
  have hfmt := formatted hg hlt hf
  have hfields := formatFields hg (by omega)
  have hload : load (d 0) = g := by
    rw [hfmt.super, load_block g hfmt.fits]
  rw [DeviceExact, hload, hfields.totalBlocks]
  refine (hfields.clearCount_eq le_rfl fun c _ hc => ?_).symm
  exact hfmt.diskBitmap_eq (hc.trans_eq hfields.totalBlocks.symm)

theorem Volume.Counted.happenAll_iff (h : s.vol.Counted) (es : List Event) :
    ExactRun s es ↔ FineRun s es := by
  induction es generalizing s with
  | nil =>
    refine iff_of_true (fun k s' hs' => ?_) trivial
    rw [take_nil] at hs'
    cases hs'
    exact h.free
  | cons e es ih =>
    -- what the first event does to the count
    have hstep : ∀ s', happen s e = some s' →
        (FreeExact s'.vol ↔ e.Fine s) ∧ (e.Fine s → s'.vol.Counted) := by
      intro s' hs'
      cases e with
      | call c =>
        cases hs'
        have hc := h.exec c
        exact ⟨iff_of_true hc.free trivial, fun _ => hc⟩
      | remount jbuf a =>
        obtain ⟨hcount, hfine⟩ := remount_counted_iff hs'
        exact ⟨hfine, fun hf => hcount.mpr (hfine.mpr hf)⟩
    have hfine_of_none : happen s e = none → e.Fine s := by
      intro hn
      cases e with
      | call c => trivial
      | remount jbuf a =>
        intro hmagic
        simp [happen, mount, hmagic] at hn
    constructor
    · intro hall
      have hfirst : e.Fine s := by
        rcases he : happen s e with _ | s'
        · exact hfine_of_none he
        · exact (hstep s' he).1.mp (hall 1 s' (by simp [happenAll, he]))
      refine ⟨hfirst, fun s' hs' => (ih ((hstep s' hs').2 hfirst)).mp fun k s'' hs'' => ?_⟩
      exact hall (k + 1) s'' (by simpa [happenAll, hs'] using hs'')
    rintro ⟨hfirst, hrest⟩ k s'' hs''
    cases k with
    | zero =>
      cases hs''
      exact h.free
    | succ k =>
      rw [take_succ_cons, happenAll, Option.bind_eq_some_iff] at hs''
      obtain ⟨s', hs', hs''⟩ := hs''
      exact (ih ((hstep s' hs').2 hfirst)).mpr (hrest s' hs') k s'' hs''

/-- From a formatted and mounted volume, over every sequence of operations and remounts: the
free-block count is the number of clear bits in every state exactly when the volume is mounted
again only while the superblock on the device, which the operations do not write, still counts
the clear bits of the bitmap on the device. -/
theorem freeBlocks_exact_iff (hs : FreshMount s) (es : List Event) : ExactRun s es ↔ FineRun s es :=
  hs.counted.happenAll_iff es

end

theorem Start.freshMount {g : Superblock} {s : Fs} (h : Start g s) : FreshMount s := by
  obtain ⟨total, d0, d, a, vol, root, hlt, -, hf, hm, hs⟩ := h.made
  exact ⟨total, d0, d, true, a, vol, root, hlt, hf, hm, hs⟩

def sampleEvents : List Event :=
  [.remount true 0, .call (.create 0 [102] 0 0 0), .call (.write 1 0 [104, 105])]

theorem sampleEvents_exact : ExactRun sampleFs sampleEvents := by
  have hdev : DeviceExact sampleFs.vol.disk := by decide +kernel
  refine (freeBlocks_exact_iff sampleFs_start.freshMount sampleEvents).mpr ?_
  exact ⟨fun _ => hdev, fun _ _ => ⟨trivial, fun _ _ => ⟨trivial, fun _ _ => trivial⟩⟩⟩

def remountEvents : List Event :=
  [.call (.create 0 [102] 0 0 0), .call (.write 1 0 [104, 105]), .remount true 0]

/-- Two blocks are in use after the remount, and the count is that of the empty volume. -/
theorem remountEvents_count_stale :
    (happenAll sampleFs remountEvents).map (fun s => (s.vol.sb.freeBlocks,
      clearCount s.vol.blockBitmap s.vol.sb.dataStartBlock s.vol.sb.totalBlocks)) = some (9, 7) ∧
    ¬ ExactRun sampleFs remountEvents := by
  have hcount : (happenAll sampleFs remountEvents).map (fun s => (s.vol.sb.freeBlocks,
      clearCount s.vol.blockBitmap s.vol.sb.dataStartBlock s.vol.sb.totalBlocks)) =
        some (9, 7) := by decide +kernel
  refine ⟨hcount, fun h => ?_⟩
  obtain ⟨s, hs, heq⟩ := Option.map_eq_some_iff.mp hcount
  obtain ⟨h9, h7⟩ := Prod.mk.inj heq
  have hexact := h 3 s hs
  rw [FreeExact, h9, h7] at hexact
  cases hexact

end Exploidus.Exfs
