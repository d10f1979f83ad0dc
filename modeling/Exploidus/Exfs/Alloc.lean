import Exploidus.Exfs.Volume

/-! The layout of a formatted volume, and what block allocation and freeing do to the bitmap
in memory and on the device. -/
namespace Exploidus.Exfs
open ByteLayout WriteLog List

structure Geometry (g : Superblock) : Prop where
  magic : g.magic = exfsMagic
  blockBitmapBlock : g.blockBitmapBlock = 1
  bitmapSize_pos : 0 < g.bitmapSize
  inodeTableBlock : g.inodeTableBlock = 1 + g.bitmapSize
  dataStartBlock : g.dataStartBlock = g.inodeTableBlock + 256
  data_lt_journal : g.dataStartBlock < g.journalBlock
  provenanceBlock : g.provenanceBlock = g.journalBlock + 17
  totalBlocks : g.totalBlocks = g.provenanceBlock + 16
  totalBlocks_le : g.totalBlocks ≤ g.bitmapSize * 32768
  totalBlocks_lt : g.totalBlocks < 2 ^ 29
  totalInodes : g.totalInodes = 4096
  provenanceSize : g.provenanceSize = 16
  journalSize : g.journalSize = 17

def SameGeometry (g sb : Superblock) : Prop := ∃ n, sb = { g with freeBlocks := n }

theorem SameGeometry.refl (g : Superblock) : SameGeometry g g := ⟨g.freeBlocks, rfl⟩

def InData (g : Superblock) (b : ℕ) : Prop := g.dataStartBlock ≤ b ∧ b < g.journalBlock
  deriving Decidable

def InBody (g : Superblock) (b : ℕ) : Prop := g.inodeTableBlock ≤ b ∧ b < g.journalBlock

variable {g : Superblock} {bm : ℕ → UInt8}

theorem Geometry.lt_of_inData (hg : Geometry g) {b : ℕ} (h : InData g b) : b < 2 ^ 64 := by
  have := h.2
  have := hg.provenanceBlock
  have := hg.totalBlocks
  have := hg.totalBlocks_lt
  omega

theorem Geometry.inBody_of_inData (hg : Geometry g) {b : ℕ} (h : InData g b) : InBody g b := by
  have := hg.dataStartBlock
  exact ⟨by have := h.1; omega, h.2⟩

theorem Geometry.inBody_table (hg : Geometry g) {n : ℕ} (h : n < 4096) :
    InBody g (g.inodeTableBlock + n / 16) := by
  have := hg.dataStartBlock
  have := hg.data_lt_journal
  exact ⟨by omega, by omega⟩

/-! Bits. -/

private theorem and_mask_ne_zero : ∀ x : Fin 256, ∀ j : Fin 8,
    ((UInt8.ofNat x.val &&& (1 <<< UInt8.ofNat j.val)) != 0) = x.val.testBit j.val := by
  decide +kernel

private theorem testBit_mask : ∀ i j : Fin 8,
    (1 <<< UInt8.ofNat i.val : UInt8).toNat.testBit j.val = decide (j = i) := by
  decide

private theorem testBit_not_mask : ∀ i j : Fin 8,
    (~~~(1 <<< UInt8.ofNat i.val) : UInt8).toNat.testBit j.val = decide (j ≠ i) := by
  decide

theorem bitmapGet_eq_testBit (bm : ℕ → UInt8) (c : ℕ) :
    bitmapGet bm c = (bm (c / 8)).toNat.testBit (c % 8) := by
  have h := and_mask_ne_zero ⟨(bm (c / 8)).toNat, (bm (c / 8)).toNat_lt⟩ ⟨c % 8, by omega⟩
  rwa [UInt8.ofNat_toNat] at h

theorem bitmapGet_bitmapSet (bm : ℕ → UInt8) (b c : ℕ) :
    bitmapGet (bitmapSet bm b) c = (decide (c = b) || bitmapGet bm c) := by
  simp only [bitmapGet_eq_testBit, bitmapSet]
  by_cases h : c / 8 = b / 8
  · have hm := testBit_mask ⟨b % 8, by omega⟩ ⟨c % 8, by omega⟩
    have hiff : (c % 8 = b % 8) ↔ c = b := by omega
    rw [if_pos h, UInt8.toNat_or, Nat.testBit_or, bitMask, hm, Bool.or_comm]
    simp only [Fin.mk.injEq, hiff]
  · have hne : c ≠ b := fun he => h (by rw [he])
    rw [if_neg h]
    simp [hne]

theorem bitmapGet_bitmapClear (bm : ℕ → UInt8) (b c : ℕ) :
    bitmapGet (bitmapClear bm b) c = (decide (c ≠ b) && bitmapGet bm c) := by
  simp only [bitmapGet_eq_testBit, bitmapClear]
  by_cases h : c / 8 = b / 8
  · have hm := testBit_not_mask ⟨b % 8, by omega⟩ ⟨c % 8, by omega⟩
    have hiff : (c % 8 = b % 8) ↔ c = b := by omega
    rw [if_pos h, UInt8.toNat_and, Nat.testBit_and, bitMask, hm, Bool.and_comm]
    simp only [ne_eq, Fin.mk.injEq, hiff]
  · have hne : c ≠ b := fun he => h (by rw [he])
    rw [if_neg h]
    simp [hne]

theorem findClear_eq_some {count b x : ℕ} (h : findClear bm count b = some x) :
    b ≤ x ∧ x < b + count ∧ bitmapGet bm x = false := by
  induction count generalizing b with
  | zero => simp [findClear] at h
  | succ count ih =>
    rw [findClear] at h
    split_ifs at h with hb
    · have := ih h
      exact ⟨by omega, by omega, this.2.2⟩
    · obtain rfl := Option.some.inj h
      exact ⟨le_rfl, by omega, by simpa using hb⟩

/-! Flushing. -/

def Flushed (g : Superblock) (bm : ℕ → UInt8) (d : ℕ → Block) : Prop :=
  ∀ i, i < g.bitmapSize → d (g.blockBitmapBlock + i) = bitmapSlice bm i

theorem bitmapBlocks_eq (hg : Geometry g) :
    Volume.bitmapBlocks g = g.bitmapSize := if_neg (by have := hg.bitmapSize_pos; omega)

theorem diskBitmap_congr (hg : Geometry g) {d : ℕ → Block} {c : ℕ} (hc : c < g.totalBlocks)
    (h : d (g.blockBitmapBlock + c / 32768) = bitmapSlice bm (c / 32768)) :
    bitmapGet (diskBitmap g d) c = bitmapGet bm c := by
  have hle := hg.totalBlocks_le
  have hlt : c / 8 < g.bitmapSize * 4096 := by omega
  have hdiv : c / 8 / 4096 = c / 32768 := by omega
  have hbyte : diskBitmap g d (c / 8) = bm (c / 8) := by
    rw [diskBitmap, bitmapBlocks_eq hg, if_pos hlt, hdiv, h, Buf.byte,
      dif_pos (Nat.mod_lt _ (by decide)), bitmapSlice]
    congr 1
    dsimp only
    omega
  rw [bitmapGet, bitmapGet, hbyte]

theorem diskBitmap_eq_of_eq (g : Superblock) {d e : ℕ → Block} {c : ℕ}
    (h : e (g.blockBitmapBlock + c / 32768) = d (g.blockBitmapBlock + c / 32768)) :
    bitmapGet (diskBitmap g e) c = bitmapGet (diskBitmap g d) c := by
  have hdiv : c / 8 / 4096 = c / 32768 := by omega
  have hbyte : diskBitmap g e (c / 8) = diskBitmap g d (c / 8) := by
    rw [diskBitmap, diskBitmap, hdiv, h]
  rw [bitmapGet, bitmapGet, hbyte]

theorem Flushed.diskBitmap (hg : Geometry g) {d : ℕ → Block} (h : Flushed g bm d) {c : ℕ}
    (hc : c < g.totalBlocks) :
    bitmapGet (diskBitmap g d) c = bitmapGet bm c :=
  diskBitmap_congr hg hc (h _ (by have := hg.totalBlocks_le; omega))

/-- The writes of `flush_bitmap`. -/
def flushWrites (g : Superblock) (bm : ℕ → UInt8) : List (ℕ × Block) :=
  (range' 0 g.bitmapSize).map fun i => (g.blockBitmapBlock + i, bitmapSlice bm i)

theorem mem_flushWrites {w : ℕ × Block} (h : w ∈ flushWrites g bm) :
    ∃ i, i < g.bitmapSize ∧ w = (g.blockBitmapBlock + i, bitmapSlice bm i) := by
  obtain ⟨i, hi, rfl⟩ := mem_map.mp h
  refine ⟨i, ?_, rfl⟩
  simpa using hi

theorem nodup_flushWrites (g : Superblock) (bm : ℕ → UInt8) :
    ((flushWrites g bm).map Prod.fst).Nodup := by
  rw [flushWrites, map_map]
  refine List.Nodup.map ?_ nodup_range'
  intro i j h
  simpa using h

theorem flush_prefix (g : Superblock) (bm : ℕ → UInt8) (d : ℕ → Block) (k i : ℕ) :
    applyWrites d ((flushWrites g bm).take k) (g.blockBitmapBlock + i) =
        d (g.blockBitmapBlock + i) ∨
      applyWrites d ((flushWrites g bm).take k) (g.blockBitmapBlock + i) = bitmapSlice bm i := by
  by_cases hex : ∃ w ∈ (flushWrites g bm).take k, w.1 = g.blockBitmapBlock + i
  · obtain ⟨w, hw, hwi⟩ := hex
    right
    obtain ⟨j, -, rfl⟩ := mem_flushWrites (mem_of_mem_take hw)
    have hji : j = i := by simpa using hwi
    have hnd : (((flushWrites g bm).take k).map Prod.fst).Nodup :=
      (nodup_flushWrites g bm).sublist ((take_sublist k _).map _)
    rw [← hwi, applyWrites_of_mem hnd hw, hji]
  · left
    apply applyWrites_of_forall_ne
    exact fun w hw he => hex ⟨w, hw, he⟩

theorem flush_prefix_other (bm : ℕ → UInt8) (d : ℕ → Block) (k : ℕ) {b : ℕ}
    (hb : b < g.blockBitmapBlock ∨ g.blockBitmapBlock + g.bitmapSize ≤ b) :
    applyWrites d ((flushWrites g bm).take k) b = d b := by
  apply applyWrites_of_forall_ne
  intro w hw he
  obtain ⟨i, hi, rfl⟩ := mem_flushWrites (mem_of_mem_take hw)
  dsimp only at he
  omega

theorem flushed_flushWrites (g : Superblock) (bm : ℕ → UInt8) (d : ℕ → Block) :
    Flushed g bm (applyWrites d (flushWrites g bm)) := by
  intro i hi
  have hmem : (g.blockBitmapBlock + i, bitmapSlice bm i) ∈ flushWrites g bm :=
    mem_map.mpr ⟨i, by simpa using hi, rfl⟩
  exact applyWrites_of_mem (nodup_flushWrites g bm) hmem

namespace Volume

theorem flushFrom_eq (vol : Volume) (count i : ℕ) : vol.flushFrom count i =
    vol.writeAll ((range' i count).map fun i =>
      (vol.sb.blockBitmapBlock + i, bitmapSlice vol.blockBitmap i)) := by
  induction count generalizing vol i with
  | zero => rfl
  | succ count ih =>
    rw [flushFrom, ih, range'_succ]
    rfl

theorem flushBitmap_eq {g : Superblock} (hg : Geometry g) {vol : Volume}
    (hsb : SameGeometry g vol.sb) :
    vol.flushBitmap = vol.writeAll (flushWrites g vol.blockBitmap) := by
  obtain ⟨n, hn⟩ := hsb
  have hbb : bitmapBlocks vol.sb = g.bitmapSize := by
    have h : bitmapBlocks vol.sb = bitmapBlocks g := by
      rw [hn]
      rfl
    rw [h, bitmapBlocks_eq hg]
  rw [flushBitmap, flushFrom_eq, hbb, hn]
  rfl

def marked (g : Superblock) (vol : Volume) (b n : ℕ) : Volume :=
  { vol with sb := { g with freeBlocks := n }, blockBitmap := bitmapSet vol.blockBitmap b }.writeAll
    (flushWrites g (bitmapSet vol.blockBitmap b))

def unmarked (g : Superblock) (vol : Volume) (b n : ℕ) : Volume :=
  { vol with sb := { g with freeBlocks := n }
             blockBitmap := bitmapClear vol.blockBitmap b }.writeAll
    (flushWrites g (bitmapClear vol.blockBitmap b))

theorem allocBlock_cases {g : Superblock} (hg : Geometry g) {vol : Volume}
    (hsb : SameGeometry g vol.sb) :
    (findClear vol.blockBitmap (g.totalBlocks - g.dataStartBlock) g.dataStartBlock = none ∧
      vol.allocBlock = (vol, 0)) ∨ ∃ b n,
        findClear vol.blockBitmap (g.totalBlocks - g.dataStartBlock) g.dataStartBlock = some b ∧
        vol.allocBlock = (marked g vol b n, b) := by
  obtain ⟨m, hm⟩ := hsb
  unfold allocBlock
  cases hf : findClear vol.blockBitmap (vol.sb.totalBlocks - vol.sb.dataStartBlock)
      vol.sb.dataStartBlock with
  | none =>
    simp only [hm] at hf
    exact .inl ⟨hf, rfl⟩
  | some b =>
    right
    simp only [hm] at hf
    refine ⟨b, (vol.sb.freeBlocks + 2 ^ 64 - 1) % 2 ^ 64, hf, ?_⟩
    dsimp only
    rw [flushBitmap_eq hg ⟨(vol.sb.freeBlocks + 2 ^ 64 - 1) % 2 ^ 64, by rw [hm]⟩, marked, hm]

theorem freeBlock_cases {g : Superblock} (hg : Geometry g) {vol : Volume}
    (hsb : SameGeometry g vol.sb) (b : ℕ) : vol.freeBlock b = vol ∨
      ∃ n, bitmapGet vol.blockBitmap b ∧ vol.freeBlock b = unmarked g vol b n := by
  obtain ⟨m, hm⟩ := hsb
  unfold freeBlock
  split_ifs with hrange hbit
  · exact .inl rfl
  · exact .inl rfl
  right
  refine ⟨(vol.sb.freeBlocks + 1) % 2 ^ 64, by simpa using hbit, ?_⟩
  rw [flushBitmap_eq hg ⟨(vol.sb.freeBlocks + 1) % 2 ^ 64, by rw [hm]⟩, unmarked, hm]

end Volume

end Exploidus.Exfs
