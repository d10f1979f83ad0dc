import Exploidus.Exfs.Mount
import Exploidus.Exfs.Namespace

/-! What formatting and mounting establish. A formatted device holds an empty root directory and
no other inode; its mounted volume is at rest. -/
namespace Exploidus.Exfs
open ByteLayout WriteLog RedoLog Refs Function List Volume

structure Formatted (g : Superblock) (d : ℕ → Block) : Prop where
  geometry : Geometry g
  fits : g.Fits
  super : d 0 = g.block
  bitmap : ∀ i, i < g.bitmapSize → d (g.blockBitmapBlock + i) = formatBitmapBlock g i
  table : ∀ n, inodeTable g d n = if n = 0 then rootInode else Inode.blank
  header : d g.journalBlock = zeroBlock

theorem formatSuperblock_geometry {total : ℕ} {g : Superblock}
    (h : formatSuperblock total = some g) (hlt : total < 2 ^ 29) : Geometry g ∧ g.Fits := by
  unfold formatSuperblock at h
  have hmod : (total + 32767) % 2 ^ 64 = total + 32767 := Nat.mod_eq_of_lt (by omega)
  simp only [hmod] at h
  split at h
  · cases h
  obtain rfl := Option.some.inj h
  refine ⟨⟨rfl, rfl, ?_, rfl, rfl, ?_, ?_, ?_, ?_, hlt, rfl, rfl, rfl⟩,
    show exfsMagic < 2 ^ 32 by decide, show 1 < 2 ^ 32 by decide, ?_⟩
  all_goals simp only [forall_mem_cons, not_mem_nil, false_implies, implies_true, and_true]
  all_goals omega

section Format
variable {g : Superblock} {d : ℕ → Block} {total : ℕ}

private theorem foldl_writeBlock (vol : Volume) (base n : ℕ) (f : ℕ → Block) :
    (range n).foldl (fun v b => v.writeBlock (base + b) (f b)) vol =
      vol.writeAll ((range n).map fun b => (base + b, f b)) := by
  rw [writeAll, foldl_map]

def formatWrites (g : Superblock) : List (ℕ × Block) :=
  [(0, g.block)] ++ (range 256).map (fun b => (g.inodeTableBlock + b, zeroBlock)) ++
    (range g.bitmapSize).map (fun b => (g.blockBitmapBlock + b, formatBitmapBlock g b)) ++
    (range 17).map (fun b => (g.journalBlock + b, zeroBlock))

theorem format_eq (h : formatSuperblock total = some g) : format d total =
    some (update (applyWrites d (formatWrites g)) g.inodeTableBlock
      (setInode (applyWrites d (formatWrites g) g.inodeTableBlock) 0 rootInode)) := by
  simp only [format, h, Option.map_some, foldl_writeBlock, writeAll_eq]
  simp only [writeInode, metaWriteBlock, txnReadBlock, readBlock,
    writeBlock, Bool.false_and, Bool.false_eq_true, if_false, Nat.zero_div, Nat.add_zero,
    Nat.zero_mod, formatWrites, applyWrites_append, applyWrites_cons, applyWrites_nil]

theorem formatted (h : formatSuperblock total = some g) (hlt : total < 2 ^ 29)
    {d' : ℕ → Block} (hd : format d total = some d') : Formatted g d' := by
  obtain ⟨hg, hfits⟩ := formatSuperblock_geometry h hlt
  rw [format_eq h] at hd
  have hd' := Option.some.inj hd
  have h1 := hg.blockBitmapBlock
  have h2 := hg.inodeTableBlock
  have h3 := hg.dataStartBlock
  have h4 := hg.data_lt_journal
  have hwrites : ∀ x, applyWrites d (formatWrites g) x =
      if g.journalBlock ≤ x ∧ x < g.journalBlock + 17 then zeroBlock
      else if g.blockBitmapBlock ≤ x ∧ x < g.blockBitmapBlock + g.bitmapSize then
        formatBitmapBlock g (x - g.blockBitmapBlock)
      else if g.inodeTableBlock ≤ x ∧ x < g.inodeTableBlock + 256 then zeroBlock
      else if x = 0 then g.block else d x := by
    intro x
    rw [formatWrites, applyWrites_append, applyWrites_append, applyWrites_append]
    simp only [applyWrites_map_range, applyWrites_cons, applyWrites_nil, update_apply]
  have hother : ∀ x ≠ g.inodeTableBlock, d' x = applyWrites d (formatWrites g) x :=
    fun x hx => by rw [← hd', update_of_ne hx]
  have hzero : applyWrites d (formatWrites g) g.inodeTableBlock = zeroBlock := by
    rw [hwrites, if_neg (by omega), if_neg (by omega), if_pos (by omega)]
  have hroot : d' g.inodeTableBlock = setInode zeroBlock 0 rootInode := by
    rw [← hd', update_self, hzero]
  refine ⟨hg, hfits, ?_, fun i hi => ?_, fun n => ?_, ?_⟩
  · rw [hother 0 (by omega), hwrites, if_neg (by omega), if_neg (by omega), if_neg (by omega),
      if_pos rfl]
  · rw [hother _ (by omega), hwrites, if_neg (by omega), if_pos (by omega), Nat.add_sub_cancel_left]
  · rw [inodeTable]
    by_cases hn : n < 4096
    · rw [if_pos hn]
      by_cases hb : n / 16 = 0
      · rw [hb, Nat.add_zero, hroot]
        by_cases h0 : n = 0
        · rw [if_pos h0, h0]
          exact inodeAt_setInode_self _ _ (by decide)
        · rw [if_neg h0, inodeAt_setInode_ne _ _ (by omega)]
          exact Inode.load_zero _
      · rw [hother _ (by omega), hwrites, if_neg (by omega), if_neg (by omega), if_pos (by omega),
          if_neg (by omega)]
        exact Inode.load_zero _
    · rw [if_neg hn, if_neg (by omega)]
  · rw [hother _ (by omega), hwrites, if_pos (by omega)]

end Format

section Bitmap
variable {g : Superblock} {d : ℕ → Block}

private theorem bitmapGet_foldl (P : ℕ → Bool) (bm : ℕ → UInt8) (n c : ℕ) :
    bitmapGet ((range n).foldl (fun bm l => if P l then bitmapSet bm l else bm) bm) c =
      ((decide (c < n) && P c) || bitmapGet bm c) := by
  induction n with
  | zero => simp
  | succ n ih =>
    rw [range_succ, foldl_append, foldl_cons, foldl_nil]
    by_cases hc : c = n
    · subst hc
      cases hP : P c <;> simp [hP, bitmapGet_bitmapSet, ih]
    · have hiff : c < n + 1 ↔ c < n := by omega
      cases P n <;> simp [bitmapGet_bitmapSet, ih, hc, hiff]

def blocksBitmap (bs : ℕ → Block) (j : ℕ) : UInt8 := (bs (j / 4096)).byte (j % 4096)

/-- The bits `exfs_format` writes, over every block of the bitmap. -/
theorem bitmapGet_formatBitmapBlock (g : Superblock) (c : ℕ) :
    bitmapGet (blocksBitmap (formatBitmapBlock g)) c =
      (decide (c < g.totalBlocks) && formatUsed g c) := by
  have hbits := bitmapGet_foldl (fun l => formatUsed g (c / 32768 * 32768 + l)) (fun _ => 0)
    (min (c / 32768 * 32768 + 32768) g.totalBlocks - c / 32768 * 32768) (c % 32768)
  have hin : (c % 32768 < min (c / 32768 * 32768 + 32768) g.totalBlocks - c / 32768 * 32768) =
      (c < g.totalBlocks) := propext (by omega)
  have hsplit : c / 32768 * 32768 + c % 32768 = c := by omega
  have hzero : bitmapGet (fun _ => 0) (c % 32768) = false := by simp [bitmapGet]
  simp only [hin, hsplit, hzero, Bool.or_false] at hbits
  have hdiv : c / 8 / 4096 = c / 32768 := by omega
  have hlow : c % 32768 / 8 = c / 8 % 4096 := by omega
  have hbit : c % 32768 % 8 = c % 8 := by omega
  rw [← hbits, bitmapGet, bitmapGet, bitMask, bitMask, hbit, hlow, blocksBitmap, hdiv, Buf.byte,
    dif_pos (Nat.mod_lt _ (by decide))]
  simp only [formatBitmapBlock, bitmapSlice, Nat.zero_mul, Nat.zero_add]

theorem Formatted.diskBitmap_eq (hf : Formatted g d) {c : ℕ} (hc : c < g.totalBlocks) :
    bitmapGet (diskBitmap g d) c = formatUsed g c := by
  have hg := hf.geometry
  have hle := hg.totalBlocks_le
  have hdiv : c / 8 / 4096 = c / 32768 := by omega
  have hbyte : diskBitmap g d (c / 8) = blocksBitmap (formatBitmapBlock g) (c / 8) := by
    rw [diskBitmap, bitmapBlocks_eq hg, if_pos (by omega), hdiv, hf.bitmap _ (by omega),
      blocksBitmap, hdiv]
  rw [bitmapGet, hbyte, ← bitmapGet, bitmapGet_formatBitmapBlock, decide_eq_true hc, Bool.true_and]

private theorem or_mask_of_set : ∀ x : Fin 256, ∀ j : Fin 8,
    ((UInt8.ofNat x.val &&& (1 <<< UInt8.ofNat j.val)) != 0) →
      UInt8.ofNat x.val ||| (1 <<< UInt8.ofNat j.val) = UInt8.ofNat x.val := by
  decide +kernel

theorem bitmapSet_of_set {bm : ℕ → UInt8} {b : ℕ} (h : bitmapGet bm b) :
    bitmapSet bm b = bm := by
  funext j
  rw [bitmapSet]
  by_cases hj : j = b / 8
  · have hm := or_mask_of_set ⟨(bm j).toNat, (bm j).toNat_lt⟩ ⟨b % 8, by omega⟩
    rw [UInt8.ofNat_toNat] at hm
    rw [if_pos hj]
    exact hm (by rw [hj]; exact h)
  · exact if_neg hj

private theorem foldl_bitmapSet_of_set {bm : ℕ → UInt8} {n : ℕ}
    (h : ∀ b < n, bitmapGet bm b) : (range n).foldl bitmapSet bm = bm := by
  induction n with
  | zero => rfl
  | succ n ih =>
    rw [range_succ, foldl_append, ih fun b hb => h b (by omega), foldl_cons,
      foldl_nil, bitmapSet_of_set (h n (by omega))]

end Bitmap

section Mount
variable {g : Superblock} {d : ℕ → Block}

theorem mount_disk (hg : Geometry g) (hfits : g.Fits) (h0 : d 0 = g.block) (jbuf : Bool)
    (auditTotal : UInt64) : ∃ vol root, mount d jbuf auditTotal = some (vol, root) ∧
      vol.disk = recover journalFormat g.journalBlock d := by
  have hload : Superblock.load (d 0) = g := by rw [h0, Superblock.load_block g hfits]
  unfold mount
  rw [hload, if_neg (not_not.mpr hg.magic)]
  exact ⟨_, _, rfl, (wrote_journalReplay hg.journalSize).disk⟩

def freshVolume (g : Superblock) (d : ℕ → Block) (auditTotal : UInt64) : Volume :=
  ⟨g, diskBitmap g d, d, [], false, true, [], auditTotal⟩

def freshRoot : Node :=
  ⟨[47], .directory, rootInode.size, 0, rootInode, rootInode.mode, rootInode.ownerUid, 0, true⟩

section
variable (hf : Formatted g d)
include hf

theorem Formatted.reserved {b : ℕ}
    (hb : b < g.dataStartBlock ∨ g.journalBlock ≤ b ∧ b < g.totalBlocks) :
    bitmapGet (diskBitmap g d) b := by
  have h1 := hf.geometry.data_lt_journal
  have h2 := hf.geometry.provenanceBlock
  have h3 := hf.geometry.totalBlocks
  rw [hf.diskBitmap_eq (by omega), formatUsed, hf.geometry.journalSize]
  simp only [Bool.or_eq_true, Bool.and_eq_true, decide_eq_true_eq]
  omega

theorem Formatted.mount (auditTotal : UInt64) :
    Exfs.mount d true auditTotal = some (freshVolume g d auditTotal, freshRoot) := by
  have hload : Superblock.load (d 0) = g := by rw [hf.super, Superblock.load_block g hf.fits]
  have hbits := foldl_bitmapSet_of_set fun b hb => hf.reserved (.inl hb)
  have hclear : headerMagic (d g.journalBlock) ≠ journalMagic := by
    rw [hf.header, headerMagic_zeroBlock]
    decide
  have hreplay : (freshVolume g d auditTotal).journalReplay = freshVolume g d auditTotal := by
    rw [journalReplay, if_neg (by simp [freshVolume, hf.geometry.journalSize])]
    exact if_pos hclear
  have hroot : (freshVolume g d auditTotal).readInode 0 = rootInode := by
    have h := hf.table 0
    rwa [if_pos rfl] at h
  unfold Exfs.mount
  rw [hload, if_neg (not_not.mpr hf.geometry.magic), hbits]
  change some ((freshVolume g d auditTotal).journalReplay, _) = _
  simp only [← freshVolume.eq_1, hreplay, hroot, freshRoot]

theorem Formatted.root_eq_zero (x : ℕ × Root) : diskRoots g d x = 0 := by
  rw [diskRoots, hf.table]
  obtain ⟨n, r⟩ := x
  cases r <;> split <;> simp [Inode.root, rootInode, Inode.blank, Inode.directAt]

theorem Formatted.siteRef_eq_zero (s : Site) : siteRef (diskRoots g d) d s = 0 :=
  ref_of_root_eq_zero (hf.root_eq_zero s.1) s.2

theorem Formatted.rest (auditTotal : UInt64) : Rest g (freshVolume g d auditTotal) := by
  have hzero : siteRef (diskRoots g d) d = fun _ => 0 := funext hf.siteRef_eq_zero
  have howned (ok : ℕ → Prop) : Owned (siteRef (diskRoots g d) d) ok := by
    rw [hzero]
    exact ⟨fun h => absurd rfl h, fun h => absurd rfl h⟩
  have hclear : headerMagic (d g.journalBlock) ≠ journalMagic := by
    rw [hf.header, headerMagic_zeroBlock]
    decide
  refine ⟨rfl, hf.geometry, SameGeometry.refl g, ⟨rfl, nodup_nil, by simp [freshVolume],
    by simp [freshVolume]⟩, fun b hb => hf.reserved hb, fun i hi => ?_, ?_,
    ⟨hf.super, hclear, howned _⟩, fun _ _ => .inr rfl⟩
  · refine Buf.ext fun j hj => ?_
    have hlt : i * 4096 + j < g.bitmapSize * 4096 := by
      have := Nat.mul_le_mul_right 4096 (Nat.succ_le_of_lt hi)
      omega
    have hdiv : (i * 4096 + j) / 4096 = i := by omega
    have hmod : (i * 4096 + j) % 4096 = j := by omega
    conv_rhs => rw [Buf.byte, dif_pos hj, bitmapSlice]
    simp only [freshVolume, diskBitmap, bitmapBlocks_eq hf.geometry, if_pos hlt, hdiv, hmod]
  · rw [view_of_idle rfl]
    exact howned _

theorem Formatted.blockAt_eq_zero (n f : ℕ) : blockAt d (inodeTable g d n) f = 0 :=
  blockAt_of_root_eq_zero (hf.root_eq_zero (n, rootOf f)) d

theorem Formatted.not_live (n f k : ℕ) : (entry g d n f k).live ≠ true := by
  rw [entry, slotAt_unmapped (hf.blockAt_eq_zero n f), Dirent.live_blank]
  exact Bool.false_ne_true

theorem Formatted.ns : Ns g d :=
  ⟨fun n _ _ h => absurd (hf.blockAt_eq_zero n _) h,
    fun n f k _ h => absurd h (hf.not_live n f k), fun n f k _ h => absurd h (hf.not_live n f k),
    fun n f k _ _ _ _ _ h => absurd h (hf.not_live n f k),
    fun n f k _ _ _ h => absurd h (hf.not_live n f k)⟩

end

end Mount

end Exploidus.Exfs
