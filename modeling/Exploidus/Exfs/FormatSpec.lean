import Exploidus.Exfs.Init
import Exploidus.Exfs.Sectors

/-! The layout `exfs_format` computes, for every size of the volume: the regions, the bitmap and
the free-block count, and what of it reaches the sectors of the device. -/
namespace Exploidus.Exfs
open WriteLog Function Finset

/-- The number of clear bits among those of the blocks in `[lo, hi)`. -/
def clearCount (bm : ℕ → UInt8) (lo hi : ℕ) : ℕ :=
  ((Finset.Ico lo hi).filter fun b => bitmapGet bm b = false).card

section
variable {bm bm' : ℕ → UInt8} {lo hi b : ℕ}

theorem clearCount_congr (h : ∀ c, lo ≤ c → c < hi → bitmapGet bm c = bitmapGet bm' c) :
    clearCount bm lo hi = clearCount bm' lo hi := by
  unfold clearCount
  congr 1
  refine filter_congr fun c hc => ?_
  obtain ⟨h1, h2⟩ := mem_Ico.mp hc
  rw [h c h1 h2]

theorem clearCount_le (bm : ℕ → UInt8) (lo hi : ℕ) : clearCount bm lo hi ≤ hi - lo :=
  (card_filter_le _ _).trans (Nat.card_Ico lo hi).le

theorem clearCount_bitmapSet (h1 : lo ≤ b) (h2 : b < hi) (hb : bitmapGet bm b = false) :
    clearCount (bitmapSet bm b) lo hi + 1 = clearCount bm lo hi := by
  have hmem : b ∈ (Finset.Ico lo hi).filter fun c => bitmapGet bm c = false :=
    mem_filter.mpr ⟨mem_Ico.mpr ⟨h1, h2⟩, hb⟩
  have herase : ((Finset.Ico lo hi).filter fun c => bitmapGet (bitmapSet bm b) c = false) =
      ((Finset.Ico lo hi).filter fun c => bitmapGet bm c = false).erase b := by
    ext c
    simp only [mem_filter, mem_erase, bitmapGet_bitmapSet, Bool.or_eq_false_iff,
      decide_eq_false_iff_not]
    tauto
  rw [clearCount, herase]
  exact card_erase_add_one hmem

theorem clearCount_bitmapClear (h1 : lo ≤ b) (h2 : b < hi) (hb : bitmapGet bm b) :
    clearCount (bitmapClear bm b) lo hi = clearCount bm lo hi + 1 := by
  have hmem : b ∉ (Finset.Ico lo hi).filter fun c => bitmapGet bm c = false := by
    simp [hb]
  have hinsert : ((Finset.Ico lo hi).filter fun c => bitmapGet (bitmapClear bm b) c = false) =
      insert b ((Finset.Ico lo hi).filter fun c => bitmapGet bm c = false) := by
    ext c
    simp only [mem_filter, mem_insert, mem_Ico, bitmapGet_bitmapClear,
      Bool.and_eq_false_iff, decide_eq_false_iff_not, not_not]
    by_cases hc : c = b
    · subst hc
      simp [h1, h2]
    · simp [hc]
  rw [clearCount, hinsert]
  exact card_insert_of_notMem hmem

end

def regions (g : Superblock) : List (ℕ × ℕ) :=
  [(0, 1), (g.blockBitmapBlock, g.bitmapSize), (g.inodeTableBlock, 256),
    (g.dataStartBlock, g.journalBlock - g.dataStartBlock), (g.journalBlock, g.journalSize),
    (g.provenanceBlock, g.provenanceSize)]

structure Partition (total : ℕ) (rs : List (ℕ × ℕ)) : Prop where
  disjoint : rs.Pairwise fun r s => r.1 + r.2 ≤ s.1 ∨ s.1 + s.2 ≤ r.1
  inside : ∀ r ∈ rs, r.1 + r.2 ≤ total
  cover : ∀ b, b < total → ∃ r ∈ rs, r.1 ≤ b ∧ b < r.1 + r.2

/-- The bitmap has a bit for every block, the set bits are those of the blocks outside the data
region, and the free-block count is the number of clear ones. -/
structure BitmapExact (total : ℕ) (g : Superblock) (bs : ℕ → Block) : Prop where
  covers : total ≤ g.bitmapSize * 32768
  bits : ∀ c, c < g.bitmapSize * 32768 →
    (bitmapGet (blocksBitmap bs) c = true ↔ c < total ∧ ¬ InData g c)
  free : g.freeBlocks = clearCount (blocksBitmap bs) 0 total

/-- The 64-bit sums of `exfs_format` stay below 2 ^ 64 and its differences above 0. -/
structure NoWrap (total : ℕ) (g : Superblock) : Prop where
  bitmapSize : total + 32767 < 2 ^ 64
  needed : g.inodeTableBlock + 256 + 16 + 17 < 2 ^ 64
  provenance : 16 ≤ total
  journal : 17 ≤ g.provenanceBlock
  free : g.dataStartBlock + 16 + 17 ≤ total
  journalEnd : g.journalBlock + g.journalSize < 2 ^ 64
  limits : ∀ bb, bb < g.bitmapSize → bb * 32768 + 32768 < 2 ^ 64

/-- What `exfs_format` lays out and writes into the bitmap blocks. -/
structure FormatExact (total : ℕ) (g : Superblock) : Prop where
  regions : Partition total (regions g)
  bitmap : BitmapExact total g (formatBitmapBlock g)
  noWrap : NoWrap total g

structure FormatFields (total : ℕ) (g : Superblock) : Prop where
  totalBlocks : g.totalBlocks = total
  blockBitmapBlock : g.blockBitmapBlock = 1
  bitmapSize : g.bitmapSize = max ((total + 32767) / 32768) 1
  inodeTableBlock : g.inodeTableBlock = 1 + g.bitmapSize
  dataStartBlock : g.dataStartBlock = g.inodeTableBlock + 256
  room : g.dataStartBlock + 33 < total
  provenanceBlock : g.provenanceBlock = total - 16
  provenanceSize : g.provenanceSize = 16
  journalBlock : g.journalBlock = g.provenanceBlock - 17
  journalSize : g.journalSize = 17
  freeBlocks : g.freeBlocks = total - g.dataStartBlock - 16 - 17

section
variable {total : ℕ} {g : Superblock}

theorem formatFields (h : formatSuperblock total = some g) (hlt : total + 32767 < 2 ^ 64) :
    FormatFields total g := by
  simp only [formatSuperblock, Nat.mod_eq_of_lt hlt] at h
  split at h
  · cases h
  obtain rfl := Option.some.inj h
  exact ⟨rfl, rfl, rfl, rfl, rfl, by simp only; omega, rfl, rfl, rfl, rfl, rfl⟩

section
variable (hf : FormatFields total g)
include hf

theorem FormatFields.used_iff {c : ℕ} (hc : c < total) : formatUsed g c ↔ ¬ InData g c := by
  obtain ⟨h1, -, -, -, -, h2, h3, -, h4, h5, -⟩ := hf
  simp only [formatUsed, InData, Bool.or_eq_true, Bool.and_eq_true, decide_eq_true_eq]
  omega

theorem FormatFields.partition : Partition total (regions g) := by
  obtain ⟨-, h1, -, h2, h3, h4, h5, h6, h7, h8, -⟩ := hf
  refine ⟨?_, ?_, fun b hb => ?_⟩
  · simp only [regions, List.pairwise_cons, List.mem_cons, List.not_mem_nil, or_false,
      forall_eq_or_imp, forall_eq, List.Pairwise.nil, and_true, false_implies, implies_true]
    omega
  · simp only [regions, List.mem_cons, List.not_mem_nil, or_false, forall_eq_or_imp, forall_eq]
    omega
  · simp only [regions, List.mem_cons, List.not_mem_nil, or_false, exists_eq_or_imp, exists_eq_left]
    omega

theorem FormatFields.clearCount_eq {bm : ℕ → UInt8} {lo : ℕ} (hlo : lo ≤ g.dataStartBlock)
    (hbits : ∀ c, lo ≤ c → c < total → bitmapGet bm c = formatUsed g c) :
    clearCount bm lo total = g.freeBlocks := by
  have h4 := hf.room
  have h5 := hf.provenanceBlock
  have h7 := hf.journalBlock
  have hset : ((Finset.Ico lo total).filter fun b => bitmapGet bm b = false) =
      Finset.Ico g.dataStartBlock g.journalBlock := by
    ext c
    rw [mem_filter, mem_Ico, mem_Ico]
    constructor
    · rintro ⟨⟨h1, h2⟩, hclear⟩
      by_contra hnot
      have hused := (hf.used_iff h2).mpr hnot
      rw [← hbits c h1 h2, hclear] at hused
      cases hused
    · rintro ⟨h1, h2⟩
      have hlt : c < total := by omega
      refine ⟨⟨by omega, hlt⟩, ?_⟩
      rw [hbits c (by omega) hlt, ← Bool.not_eq_true]
      exact fun hused => (hf.used_iff hlt).mp hused ⟨h1, h2⟩
  rw [clearCount, hset, Nat.card_Ico, hf.freeBlocks]
  omega

theorem FormatFields.bitmapExact : BitmapExact total g (formatBitmapBlock g) := by
  have hsize := hf.bitmapSize
  refine ⟨by omega, fun c _ => ?_, ?_⟩
  · rw [bitmapGet_formatBitmapBlock, hf.totalBlocks, Bool.and_eq_true, decide_eq_true_eq]
    exact ⟨fun h => ⟨h.1, (hf.used_iff h.1).mp h.2⟩, fun h => ⟨h.1, (hf.used_iff h.1).mpr h.2⟩⟩
  · refine (hf.clearCount_eq (Nat.zero_le _) fun c _ hc => ?_).symm
    rw [bitmapGet_formatBitmapBlock, hf.totalBlocks, decide_eq_true hc, Bool.true_and]

theorem FormatFields.noWrap (hlt : total + 32767 < 2 ^ 64) : NoWrap total g := by
  obtain ⟨-, h1, hsize, h2, h3, h4, h5, h6, h7, h8, -⟩ := hf
  refine ⟨hlt, ?_, ?_, ?_, ?_, ?_, fun bb hbb => ?_⟩ <;> omega

end

theorem formatExact_iff (h : formatSuperblock total = some g) :
    FormatExact total g ↔ total + 32767 < 2 ^ 64 := by
  refine ⟨fun hexact => hexact.noWrap.bitmapSize, fun hlt => ?_⟩
  have hf := formatFields h hlt
  exact ⟨hf.partition, hf.bitmapExact, hf.noWrap hlt⟩

end

namespace Drive

/-- A block write of which every sector succeeds, on a volume without a cache. -/
def put (v : Drive) (b : ℕ) (buf : Block) : Drive := (v.writeBlock b buf fun _ => true).1

/-- `exfs_format` on the sectors of a device that takes every write; `none` when the volume is
too small. The volume it works on is zeroed, so it has no cache. -/
def format (v : Drive) (totalBlocks : ℕ) : Option Drive :=
  (formatSuperblock totalBlocks).map fun sb =>
    let v := { v with cache := none }
    let v := v.put 0 sb.block
    let v := (List.range 256).foldl (fun v b => v.put (sb.inodeTableBlock + b) zeroBlock) v
    let v := (List.range sb.bitmapSize).foldl
      (fun v bb => v.put (sb.blockBitmapBlock + bb) (formatBitmapBlock sb bb)) v
    let v := (List.range 17).foldl (fun v b => v.put (sb.journalBlock + b) zeroBlock) v
    v.put sb.inodeTableBlock (setInode (v.deviceBlock sb.inodeTableBlock) 0 rootInode)

def Follows (v : Drive) (d : ℕ → Block) : Prop := ∀ x, x < 2 ^ 29 → v.deviceBlock x = d x

variable {v : Drive} {d : ℕ → Block}

theorem Follows.put (h : v.Follows d) (b : ℕ) (hb : b < 2 ^ 29) (buf : Block) :
    (v.put b buf).Follows (update d b buf) := by
  intro x hx
  rw [Drive.put, deviceBlock_writeBlock v buf _ hb hx, torn_of_ok fun _ _ => rfl]
  by_cases he : x = b
  · rw [he, update_self, update_self]
  · rw [update_of_ne he, update_of_ne he, h x hx]

theorem Follows.foldl (h : v.Follows d) (base n : ℕ) (hn : base + n ≤ 2 ^ 29) (f : ℕ → Block) :
    ((List.range n).foldl (fun v b => v.put (base + b) (f b)) v).Follows
      (applyWrites d ((List.range n).map fun b => (base + b, f b))) := by
  induction n with
  | zero => exact h
  | succ n ih =>
    rw [List.range_succ, List.foldl_append, List.map_append, applyWrites_append]
    exact (ih (by omega)).put (base + n) (by omega) (f n)

theorem format_follows {total : ℕ} (hlt : total < 2 ^ 29) {v' : Drive}
    (hv : v.format total = some v') :
    ∃ d', Exfs.format v.deviceBlock total = some d' ∧ v'.Follows d' := by
  rcases hg : formatSuperblock total with _ | g
  · simp [Drive.format, hg] at hv
  obtain ⟨hgeo, -⟩ := formatSuperblock_geometry hg hlt
  have h1 := hgeo.blockBitmapBlock
  have h2 := hgeo.inodeTableBlock
  have h3 := hgeo.dataStartBlock
  have h4 := hgeo.data_lt_journal
  have h5 := hgeo.provenanceBlock
  have h6 := hgeo.totalBlocks
  have h7 := hgeo.totalBlocks_lt
  have hstart : ({ v with cache := none } : Drive).Follows v.deviceBlock := fun _ _ => rfl
  have hwrites := (((hstart.put 0 (by omega) g.block).foldl g.inodeTableBlock 256 (by omega)
    fun _ => zeroBlock).foldl g.blockBitmapBlock g.bitmapSize (by omega)
    (formatBitmapBlock g)).foldl g.journalBlock 17 (by omega) fun _ => zeroBlock
  have hd : applyWrites (applyWrites (applyWrites (update v.deviceBlock 0 g.block)
        ((List.range 256).map fun b => (g.inodeTableBlock + b, zeroBlock)))
        ((List.range g.bitmapSize).map fun b => (g.blockBitmapBlock + b, formatBitmapBlock g b)))
        ((List.range 17).map fun b => (g.journalBlock + b, zeroBlock)) =
      applyWrites v.deviceBlock (formatWrites g) := by
    rw [formatWrites, applyWrites_append, applyWrites_append, applyWrites_append,
      applyWrites_cons, applyWrites_nil]
  rw [hd] at hwrites
  have hroot := hwrites.put g.inodeTableBlock (by omega) (setInode
    (applyWrites v.deviceBlock (formatWrites g) g.inodeTableBlock) 0 rootInode)
  refine ⟨_, format_eq hg, ?_⟩
  rw [← hwrites g.inodeTableBlock (by omega)] at hroot ⊢
  simp only [Drive.format, hg, Option.map_some, Option.some.injEq] at hv
  rwa [← hv]

end Drive

section
variable {total : ℕ} {g : Superblock}

theorem BitmapExact.congr {bs bs' : ℕ → Block} (h : BitmapExact total g bs)
    (hbs : ∀ bb < g.bitmapSize, bs' bb = bs bb) : BitmapExact total g bs' := by
  have hget : ∀ c, c < g.bitmapSize * 32768 →
      bitmapGet (blocksBitmap bs') c = bitmapGet (blocksBitmap bs) c := by
    intro c hc
    rw [bitmapGet, bitmapGet, blocksBitmap, blocksBitmap, hbs _ (by omega)]
  refine ⟨h.covers, fun c hc => by rw [hget c hc, h.bits c hc], h.free.trans ?_⟩
  exact clearCount_congr fun c _ hc => (hget c (hc.trans_le h.covers)).symm

/-- For every size that `exfs_format` accepts: the regions, the bitmap it builds, the free-block
count and the arithmetic are exact exactly when `total_blocks + 32767` does not wrap, and on a
device of fewer than 2 ^ 29 blocks the sectors of the bitmap blocks hold that bitmap. -/
theorem format_exact_iff (h : formatSuperblock total = some g) :
    (FormatExact total g ↔ total + 32767 < 2 ^ 64) ∧
      (total < 2 ^ 29 → ∀ v : Drive, ∃ v', v.format total = some v' ∧
        BitmapExact total g fun bb => v'.deviceBlock (g.blockBitmapBlock + bb)) := by
  refine ⟨formatExact_iff h, fun hlt v => ?_⟩
  obtain ⟨v', hv⟩ : ∃ v', v.format total = some v' := by simp [Drive.format, h]
  obtain ⟨d', hd, hfollows⟩ := Drive.format_follows hlt hv
  have hf := formatted h hlt hd
  have hgeo := hf.geometry
  refine ⟨v', hv, (formatFields h (by omega)).bitmapExact.congr fun bb hbb => ?_⟩
  rw [← hf.bitmap bb hbb]
  have h1 := hgeo.blockBitmapBlock
  have h2 := hgeo.inodeTableBlock
  have h3 := hgeo.dataStartBlock
  have h4 := hgeo.data_lt_journal
  have h5 := hgeo.provenanceBlock
  have h6 := hgeo.totalBlocks
  have h7 := hgeo.totalBlocks_lt
  exact hfollows _ (by omega)

/-- The superblock of a volume of 2 ^ 64 - 1 blocks. -/
def hugeSuperblock : Superblock := (formatSuperblock (2 ^ 64 - 1)).get (by decide)

/-- It is accepted with a bitmap of one block, which has a bit for 32768 of its blocks. -/
theorem hugeSuperblock_bitmap : formatSuperblock (2 ^ 64 - 1) = some hugeSuperblock ∧
    hugeSuperblock.bitmapSize = 1 ∧
    ¬ BitmapExact (2 ^ 64 - 1) hugeSuperblock (formatBitmapBlock hugeSuperblock) ∧
    ¬ NoWrap (2 ^ 64 - 1) hugeSuperblock := by
  refine ⟨(Option.some_get _).symm, by decide, fun h => ?_, fun h => ?_⟩
  · exact absurd h.covers (by decide)
  · exact absurd h.bitmapSize (by decide)

/-- A volume of 40000 blocks, whose bitmap takes two blocks. -/
def twoBlockSuperblock : Superblock := (formatSuperblock 40000).get (by decide)

theorem twoBlockSuperblock_exact : FormatExact 40000 twoBlockSuperblock :=
  (format_exact_iff (Option.some_get _).symm).1.mpr (by decide)

end

end Exploidus.Exfs
