import Exploidus.Exfs.DirOps
import Mathlib.Data.List.GetD

/-! File content: what `exfs_op_write` and `exfs_op_read` do to the bytes of a file, against a
byte array in which the writes are applied in order. -/
namespace Exploidus.Exfs
open ByteLayout Refs Function Volume List

/-- The array `ref` with `data` written at `off`; a gap before `off` is filled with zeros. -/
def overlay (ref : List UInt8) (off : ℕ) (data : List UInt8) : List UInt8 :=
  if data = [] then ref
  else (range (max ref.length (off + data.length))).map fun x =>
    if off ≤ x ∧ x < off + data.length then data.getD (x - off) 0 else ref.getD x 0

@[simp] theorem overlay_nil (ref : List UInt8) (off : ℕ) : overlay ref off [] = ref := if_pos rfl

theorem length_overlay (ref : List UInt8) (off : ℕ) {data : List UInt8} (h : data ≠ []) :
    (overlay ref off data).length = max ref.length (off + data.length) := by
  rw [overlay, if_neg h, length_map, length_range]

theorem getD_overlay (ref : List UInt8) (off : ℕ) {data : List UInt8} (h : data ≠ []) {x : ℕ}
    (hx : x < max ref.length (off + data.length)) : (overlay ref off data).getD x 0 =
      if off ≤ x ∧ x < off + data.length then data.getD (x - off) 0 else ref.getD x 0 := by
  rw [overlay, if_neg h, getD_eq_getElem?_getD, getElem?_map, getElem?_range hx]
  rfl

/-- Byte `x` of the file with inode `i`, where a block is mapped. -/
def byteAt (d : ℕ → Block) (i : Inode) (x : ℕ) : Option UInt8 :=
  if blockAt d i (x / 4096) = 0 then none
  else some ((d (blockAt d i (x / 4096))).byte (x % 4096))

/-- The bytes of the file are `ref`. -/
structure Content (d : ℕ → Block) (i : Inode) (ref : List UInt8) : Prop where
  size : i.size.toNat = ref.length
  bytes : ∀ x, x < ref.length → byteAt d i x = some (ref.getD x 0)

theorem Content.unique {d : ℕ → Block} {i : Inode} {ref ref' : List UInt8} (h : Content d i ref)
    (h' : Content d i ref') : ref = ref' := by
  have hlen : ref.length = ref'.length := h.size.symm.trans h'.size
  refine ext_getElem hlen fun x hx hx' => ?_
  have hbyte := (h.bytes x hx).symm.trans (h'.bytes x hx')
  rw [getD_eq_getElem _ _ hx, getD_eq_getElem _ _ hx'] at hbyte
  exact Option.some.inj hbyte

theorem Content.of_agrees {d : ℕ → Block} {i j : Inode} {ref : List UInt8} (h : Content d i ref)
    (hij : Agrees i j) : Content d j ref := by
  refine ⟨by rw [← hij.size]; exact h.size, fun x hx => ?_⟩
  rw [byteAt, blockAt_congr_root (fun r => (hij.root r).symm)]
  exact h.bytes x hx

theorem overlay_zero_eq_iff (old data : List UInt8) :
    overlay old 0 data = data ↔ old.length ≤ data.length := by
  by_cases hd : data = []
  · simp [hd]
  have hlen := length_overlay old 0 hd
  constructor
  · intro h
    rw [h] at hlen
    omega
  intro hle
  refine ext_getElem (by omega) fun x hx hx' => ?_
  have hget := getD_overlay old 0 hd (x := x) (by omega)
  rw [if_pos ⟨Nat.zero_le x, by omega⟩, getD_eq_getElem _ _ hx, Nat.sub_zero,
    getD_eq_getElem _ _ hx'] at hget
  exact hget

theorem overlay_zero_eq_append_iff (old data : List UInt8) :
    overlay old 0 data = old ++ data ↔ old = [] ∨ data = [] := by
  constructor
  · intro h
    by_contra hne
    obtain ⟨hold, hdata⟩ := not_or.mp hne
    have hlen := congrArg length h
    rw [length_overlay old 0 hdata, length_append] at hlen
    have := length_pos_iff.mpr hold
    have := length_pos_iff.mpr hdata
    omega
  · rintro (rfl | rfl)
    · exact (overlay_zero_eq_iff [] data).mpr (Nat.zero_le _)
    · simp

section Bytes
variable {d d' : ℕ → Block} {i i' : Inode} {x : ℕ}

theorem byteAt_of_ne (h : blockAt d i (x / 4096) ≠ 0) :
    byteAt d i x = some ((d (blockAt d i (x / 4096))).byte (x % 4096)) := if_neg h

theorem blockAt_ne_of_byteAt {b : UInt8} (h : byteAt d i x = some b) :
    blockAt d i (x / 4096) ≠ 0 := by
  intro h0
  rw [byteAt, if_pos h0] at h
  cases h

theorem byteAt_congr (hb : blockAt d' i' (x / 4096) = blockAt d i (x / 4096))
    (hd : blockAt d i (x / 4096) ≠ 0 → d' (blockAt d i (x / 4096)) = d (blockAt d i (x / 4096))) :
    byteAt d' i' x = byteAt d i x := by
  by_cases h0 : blockAt d i (x / 4096) = 0
  · rw [byteAt, byteAt, hb, if_pos h0, if_pos h0]
  · rw [byteAt_of_ne (hb.trans_ne h0), byteAt_of_ne h0, hb, hd h0]

end Bytes

section Resolve
variable {g : Superblock} {R : ℕ × Root → ℕ} {n fb : ℕ} {vol : Volume} {i : Inode}
  {r : Volume × Inode × ℕ × Bool}

theorem Resolved.byteAt_eq (hres : Resolved g R n vol i fb r) (hm : Mid g (withInode R n i) vol)
    (hidle : vol.jtxnActive = false) {x : ℕ} {b : UInt8} (h : byteAt vol.disk i x = some b) :
    byteAt r.1.disk r.2.1 x = some b := by
  have hview := view_of_idle hidle
  have hview' := view_of_idle (hres.grew.active.trans hidle)
  have h0 := blockAt_ne_of_byteAt h
  have hblock : blockAt r.1.disk r.2.1 (x / 4096) = blockAt vol.disk i (x / 4096) := by
    rw [← hview] at h0 ⊢
    rw [← hview']
    by_cases hfb : x / 4096 = fb
    · rw [hfb] at h0 ⊢
      rw [hres.kept h0]
    · exact hres.other hfb
  rw [← h]
  refine byteAt_congr hblock fun h0 => ?_
  have hdata := hres.data hm (f := x / 4096)
  rw [hview, hview'] at hdata
  exact hdata h0

theorem Resolved.byteAt_new (hres : Resolved g R n vol i fb r)
    (hidle : vol.jtxnActive = false) (hhole : blockAt vol.disk i fb = 0) (h0 : r.2.2.1 ≠ 0)
    {x : ℕ} (hx : x / 4096 = fb) :
    byteAt r.1.disk r.2.1 x = some ((vol.disk r.2.2.1).byte (x % 4096)) := by
  have hview := view_of_idle hidle
  have hview' := view_of_idle (hres.grew.active.trans hidle)
  have hblock := hres.block
  have hmid := hres.grew.mid
  have hmax : fb < maxDirBlocks := lt_of_blockAt (hblock.trans_ne h0)
  have hsite := (siteRef_eq_blockAt (withInode_self R n r.2.1) r.1.view hmax).trans hblock
  have hin : InData g r.2.2.1 := hsite ▸ (hmid.owned.ok (hsite.trans_ne h0)).1
  have hfree := hres.new_free (by rw [hview]; exact hhole) h0
  have hkept := hres.grew.free _ (hmid.geometry.inBody_of_inData hin) hfree fun p _ hlt he => by
    have hs := hmid.owned.unique (he.trans_ne h0) (he.trans hsite.symm)
    have hp := (Prod.mk.inj hs).2
    rw [hp, length_pathOf] at hlt
    exact lt_irrefl _ hlt
  rw [hview'] at hblock hkept
  rw [hview] at hkept
  rw [byteAt_of_ne (by rw [hx, hblock]; exact h0), hx, hblock, hkept]

/-- Writing the block of logical block `fb` changes the bytes in it only. -/
theorem Mid.byteAt_writeData (hm : Mid g (withInode R n i) vol) (hidle : vol.jtxnActive = false)
    (h0 : blockAt vol.disk i fb ≠ 0) (buf : Block) (x : ℕ) :
    byteAt (vol.writeBlock (blockAt vol.disk i fb) buf).disk i x =
      if x / 4096 = fb then some (buf.byte (x % 4096)) else byteAt vol.disk i x := by
  have howned := hm.owned
  rw [view_of_idle hidle] at howned
  have hself := withInode_self R n i
  have hsite := siteRef_eq_blockAt hself vol.disk (lt_of_blockAt h0)
  have hkeep : ∀ f, blockAt (vol.writeBlock (blockAt vol.disk i fb) buf).disk i f =
      blockAt vol.disk i f := by
    intro f
    rw [writeBlock_disk, ← hsite]
    exact blockAt_update_leaf howned hself (hsite ▸ h0) (length_pathOf fb) buf f
  by_cases hx : x / 4096 = fb
  · rw [if_pos hx, byteAt_of_ne (by rw [hkeep, hx]; exact h0), hkeep, hx, writeBlock_disk,
      update_self]
  rw [if_neg hx]
  refine byteAt_congr (hkeep _) fun hx0 => ?_
  rw [writeBlock_disk, update_of_ne]
  exact fun he => hx (blockAt_inj howned hself hx0 he)

end Resolve

section Leaf

/-- The `m`-th of the blocks the allocator hands out next, 0 when there are not that many. -/
def nthFree (g : Superblock) : ℕ → (ℕ → UInt8) → ℕ
  | 0, bm => (findClear bm (g.totalBlocks - g.dataStartBlock) g.dataStartBlock).getD 0
  | m + 1, bm => match findClear bm (g.totalBlocks - g.dataStartBlock) g.dataStartBlock with
    | none => 0
    | some b => nthFree g m (bitmapSet bm b)

/-- How many pointer blocks are missing above logical block `fb`. -/
def missingTables (d : ℕ → Block) (i : Inode) (fb : ℕ) : ℕ :=
  if fb < 12 then 0
  else if fb < 524 then if i.indirect.toNat = 0 then 1 else 0
  else if i.doubleIndirect.toNat = 0 then 2
  else if ptrAt (d i.doubleIndirect.toNat) ((fb - 524) / 512) = 0 then 1 else 0

/-- The block that an unmapped logical block `fb` is given next, 0 when the volume is full or the
file at its largest. -/
def nextLeaf (g : Superblock) (vol : Volume) (i : Inode) (fb : ℕ) : ℕ :=
  if fb < maxDirBlocks then nthFree g (missingTables vol.disk i fb) vol.blockBitmap else 0

variable {g : Superblock} {vol : Volume} {i : Inode} {fb : ℕ}

private def Stock (g : Superblock) (vol : Volume) : Prop :=
  SameGeometry g vol.sb ∧ vol.jtxnActive = false

private theorem Stock.allocBlock (hg : Geometry g) (hs : Stock g vol) :
    Stock g vol.allocBlock.1 ∧ vol.allocBlock.2 = nthFree g 0 vol.blockBitmap ∧
      (vol.allocBlock.2 ≠ 0 → bitmapGet vol.blockBitmap vol.allocBlock.2 = false ∧
        bitmapGet vol.allocBlock.1.blockBitmap vol.allocBlock.2) ∧
      ∀ m, nthFree g (m + 1) vol.blockBitmap =
        if vol.allocBlock.2 = 0 then 0 else nthFree g m vol.allocBlock.1.blockBitmap := by
  rcases allocBlock_cases hg hs.1 with ⟨hfind, h⟩ | ⟨b, n, hfind, h⟩
  · rw [h]
    refine ⟨hs, by rw [nthFree, hfind]; rfl, fun h => absurd rfl h, fun m => ?_⟩
    rw [nthFree, hfind, if_pos rfl]
  obtain ⟨hlo, -, hbit⟩ := findClear_eq_some hfind
  have hb : b ≠ 0 := by
    have := hg.dataStartBlock
    omega
  rw [h, marked, writeAll_eq]
  refine ⟨⟨⟨n, rfl⟩, hs.2⟩, by rw [nthFree, hfind]; rfl, fun _ => ⟨hbit, ?_⟩, fun m => ?_⟩
  · rw [bitmapGet_bitmapSet, decide_eq_true rfl, Bool.true_or]
  · rw [nthFree, hfind, if_neg hb]

private theorem Stock.metaWriteBlock (hs : Stock g vol) (b : ℕ) (buf : Block) :
    vol.metaWriteBlock b buf = vol.writeBlock b buf := by
  rw [Volume.metaWriteBlock, hs.2]
  rfl

private theorem Stock.writeBlock (hs : Stock g vol) (b : ℕ) (buf : Block) :
    Stock g (vol.writeBlock b buf) := hs

private theorem Stock.newBlock (hg : Geometry g) (hs : Stock g vol) (leaf : Bool) :
    Stock g (vol.newBlock leaf).1 ∧ (vol.newBlock leaf).2 = nthFree g 0 vol.blockBitmap ∧
      ((vol.newBlock leaf).2 ≠ 0 →
        (leaf = false → (vol.newBlock leaf).1.disk (vol.newBlock leaf).2 = zeroBlock) ∧
        bitmapGet vol.blockBitmap (vol.newBlock leaf).2 = false ∧
        bitmapGet (vol.newBlock leaf).1.blockBitmap (vol.newBlock leaf).2) ∧
      ∀ m, nthFree g (m + 1) vol.blockBitmap =
        if (vol.newBlock leaf).2 = 0 then 0 else nthFree g m (vol.newBlock leaf).1.blockBitmap := by
  obtain ⟨hs', hfirst, hbits, hnext⟩ := hs.allocBlock hg
  cases leaf with
  | true => exact ⟨hs', hfirst, fun h => ⟨fun h => absurd h (by decide), hbits h⟩, hnext⟩
  | false =>
    unfold Volume.newBlock Volume.allocTable
    rw [if_neg Bool.false_ne_true]
    dsimp only
    by_cases h0 : vol.allocBlock.2 = 0
    · rw [if_pos h0]
      exact ⟨hs', hfirst, fun h => absurd h0 h, hnext⟩
    · rw [if_neg h0, hs'.metaWriteBlock]
      exact ⟨hs', hfirst, fun _ => ⟨fun _ => update_self _ _ _, hbits h0⟩, hnext⟩

/-- Below an empty entry every block is allocated, the leaf last. -/
private theorem Stock.descend (hg : Geometry g) (hs : Stock g vol) {t idx : ℕ} {q : List ℕ}
    (ht : q ≠ [] → bitmapGet vol.blockBitmap t) (h : ptrAt (vol.disk t) idx = 0) :
    (vol.descend t (idx :: q)).2 = nthFree g q.length vol.blockBitmap := by
  induction q generalizing vol t idx with
  | nil =>
    obtain ⟨-, hfirst, -⟩ := hs.newBlock hg true
    rw [descend, if_neg (not_not.mpr h)]
    split_ifs
    · exact hfirst
    · exact hfirst
  | cons j q ih =>
    obtain ⟨hs', -, hnew, hnext⟩ := hs.newBlock hg false
    rw [descend, if_neg (not_not.mpr h), length_cons, hnext, isEmpty_cons]
    by_cases h0 : (vol.newBlock false).2 = 0
    · rwa [if_pos h0, if_pos h0]
    obtain ⟨hzero, hfree, hset⟩ := hnew h0
    have hne : (vol.newBlock false).2 ≠ t := by
      intro he
      rw [he, ht (by simp)] at hfree
      exact absurd hfree (by decide)
    rw [if_neg h0, if_neg h0, hs'.metaWriteBlock]
    refine (ih (hs'.writeBlock t _) (fun _ => hset) ?_).trans (by rw [writeBlock_blockBitmap])
    rw [writeBlock_disk, update_of_ne hne, hzero rfl, ptrAt_zeroBlock]

private theorem Stock.resolveAt (hg : Geometry g) (hs : Stock g vol) {r : Root} (q : List ℕ)
    (h0 : i.root r = 0) :
    (vol.resolveAt i r q).2.2.1 = nthFree g q.length vol.blockBitmap := by
  obtain ⟨hs', hfirst, hnew, hnext⟩ := hs.newBlock hg q.isEmpty
  rw [Volume.resolveAt, if_neg (not_not.mpr h0)]
  by_cases hz : (vol.newBlock q.isEmpty).2 = 0
  · rw [if_pos hz]
    cases q with
    | nil => exact hz.symm.trans hfirst
    | cons idx q => rw [length_cons, hnext, if_pos hz]
  rw [if_neg hz]
  dsimp only
  cases q with
  | nil => exact hfirst
  | cons idx q =>
    obtain ⟨hzero, -, hset⟩ := hnew hz
    rw [length_cons, hnext, if_neg hz]
    exact hs'.descend hg (fun _ => hset) (by rw [hzero rfl, ptrAt_zeroBlock])

theorem Mid.resolveBlock_nextLeaf {R : ℕ × Root → ℕ} {n : ℕ} (hm : Mid g (withInode R n i) vol)
    (hidle : vol.jtxnActive = false) (hhole : blockAt vol.disk i fb = 0) :
    (vol.resolveBlock i fb true).2.2.1 = nextLeaf g vol i fb := by
  have hg := hm.geometry
  have hs : Stock g vol := ⟨hm.sb, hidle⟩
  by_cases hmax : fb < maxDirBlocks
  swap
  · rw [vol.resolveBlock_of_ge i hmax, nextLeaf, if_neg hmax]
  rw [blockAt, if_pos hmax] at hhole
  rw [Volume.resolveBlock_true vol i hmax, nextLeaf, if_pos hmax, missingTables,
    show i.indirect.toNat = i.root .indirect from rfl,
    show i.doubleIndirect.toNat = i.root .doubleIndirect from rfl]
  unfold rootOf pathOf at hhole ⊢
  by_cases h1 : fb < 12
  · simp only [if_pos h1] at hhole ⊢
    exact hs.resolveAt hg [] hhole
  by_cases h2 : fb < 524
  · simp only [if_neg h1, if_pos h2] at hhole ⊢
    by_cases h0 : i.root .indirect = 0
    · rw [hs.resolveAt hg _ h0, if_pos h0]
      rfl
    have hleaf := hs.descend hg (t := i.root .indirect) (q := [])
      (fun h => absurd rfl h) (by simpa [refAt, Root.depth, slot, h0] using hhole)
    simpa [Volume.resolveAt, h0] using hleaf
  simp only [if_neg h1, if_neg h2] at hhole ⊢
  by_cases h0 : i.root .doubleIndirect = 0
  · rw [hs.resolveAt hg _ h0, if_pos h0]
    rfl
  rw [Volume.resolveAt, if_pos h0, if_neg h0]
  generalize (fb - 524) / 512 = j at hhole ⊢
  by_cases hj : ptrAt (vol.disk (i.root .doubleIndirect)) j = 0
  · have hsite : siteRef (withInode R n i) vol.view ((n, .doubleIndirect), []) =
        i.root .doubleIndirect := withInode_self R n i _
    have hused := (hm.owned.ok (hsite.trans_ne h0)).2
    rw [hsite] at hused
    have hnew := hs.descend hg (q := [(fb - 524) % 512]) (fun _ => hused) hj
    simpa [hj] using hnew
  · have hleaf := hs.descend hg (t := ptrAt (vol.disk (i.root .doubleIndirect)) j) (q := [])
      (fun h => absurd rfl h) (by simpa [refAt, Root.depth, slot, h0, hj] using hhole)
    simpa [Volume.descend, hj] using hleaf

end Leaf

section Loop
variable {g : Superblock} {R : ℕ × Root → ℕ} {n : ℕ} {vol : Volume} {i : Inode}

structure LoopBytes (off : ℕ) (data : List UInt8) (k : ℕ) (vol : Volume) (i : Inode)
    (res : Volume × Inode × ℕ × Bool) : Prop where
  le : k ≤ res.2.2.1
  count : res.2.2.1 ≤ data.length
  fits : off + res.2.2.1 ≤ maxDirBlocks * 4096
  written : ∀ x, off + k ≤ x → x < off + res.2.2.1 →
    byteAt res.1.disk res.2.1 x = some (data.getD (x - off) 0)
  kept : ∀ x b, ¬ (off + k ≤ x ∧ x < off + res.2.2.1) → byteAt vol.disk i x = some b →
    byteAt res.1.disk res.2.1 x = some b
  stopped : res.2.2.1 < data.length → byteAt res.1.disk res.2.1 (off + res.2.2.1) = none

/-- One turn of the write loop, after the block has been mapped: `can` bytes from `k` on are put
into the block of position `pos`. -/
theorem Mid.byteAt_writeChunk (hm : Mid g (withInode R n i) vol) (hidle : vol.jtxnActive = false)
    {pos can k : ℕ} (data : List UInt8) (h0 : blockAt vol.disk i (pos / 4096) ≠ 0)
    (hcan : pos % 4096 + can ≤ 4096) {buf : Block} (hbuf : buf =
      (if pos % 4096 ≠ 0 ∨ can ≠ 4096 then vol.readBlock (blockAt vol.disk i (pos / 4096))
        else zeroBlock).patch (pos % 4096) can fun j => data.getD (k + j) 0) (x : ℕ) :
    byteAt (vol.writeBlock (blockAt vol.disk i (pos / 4096)) buf).disk i x =
      if pos ≤ x ∧ x < pos + can then some (data.getD (k + (x - pos)) 0)
      else byteAt vol.disk i x := by
  rw [hm.byteAt_writeData hidle h0]
  by_cases hin : pos ≤ x ∧ x < pos + can
  · have hx : x / 4096 = pos / 4096 := by omega
    have hpos : x % 4096 = pos % 4096 + (x - pos) := by omega
    rw [if_pos hin, if_pos hx, hbuf, hpos, Buf.byte_patch_inside _ _ (by omega) (by omega)]
  rw [if_neg hin]
  by_cases hx : x / 4096 = pos / 4096
  · rw [if_pos hx, hbuf, if_pos (by omega), byteAt_of_ne (by rw [hx]; exact h0), hx]
    rcases lt_or_ge x pos with hlt | hge
    · rw [Buf.byte_patch_of_lt _ _ (by omega)]
      rfl
    · rw [Buf.byte_patch_of_ge _ _ (by omega)]
      rfl
  · rw [if_neg hx]

private theorem pos_mod {off k : ℕ} (hfits : off + k ≤ maxDirBlocks * 4096) :
    (off + k) % 2 ^ 64 = off + k := by
  unfold maxDirBlocks at hfits
  exact Nat.mod_eq_of_lt (by omega)

theorem Mid.writeTurn (hm : Mid g (withInode R n i) vol) (hidle : vol.jtxnActive = false)
    {off k : ℕ} {data : List UInt8} (hk : k < data.length)
    (hfits : off + k ≤ maxDirBlocks * 4096) {r : Volume × Inode × ℕ × Bool}
    (hr : vol.resolveBlock i ((off + k) / 4096) true = r) (hblk : r.2.2.1 ≠ 0) (fuel : ℕ)
    (dirty : Bool) : ∃ can vol' dirty', 0 < can ∧ k + can ≤ data.length ∧
      off + k + can ≤ maxDirBlocks * 4096 ∧ Mid g (withInode R n r.2.1) vol' ∧
      vol'.jtxnActive = false ∧
      (∀ x, byteAt vol'.disk r.2.1 x = if off + k ≤ x ∧ x < off + k + can then
        some (data.getD (x - off) 0) else byteAt r.1.disk r.2.1 x) ∧
      Volume.writeLoop off data (fuel + 1) vol i k dirty =
        Volume.writeLoop off data fuel vol' r.2.1 (k + can) dirty' := by
  obtain ⟨hloop, hres⟩ := hm.resolve_loop hidle _ hr.symm
  have hblock := hres.block
  rw [Volume.view_of_idle hloop.idle] at hblock
  have h0 := hblock.trans_ne hblk
  have hmax := lt_of_blockAt h0
  rw [Volume.writeLoop, if_neg (by omega), pos_mod hfits]
  dsimp only
  rw [hr, if_neg hblk, ← hblock]
  generalize hcan : min (4096 - (off + k) % 4096) (data.length - k) = can
  generalize hbuf : (Buf.patch _ _ _ _ : Block) = buf
  have hchunk := hloop.mid.byteAt_writeChunk hloop.idle data h0 (by omega) hbuf.symm
  obtain ⟨hdata, -⟩ := hloop.mid.writeData hloop.idle h0 buf
  refine ⟨can, _, _, by omega, by omega, by unfold maxDirBlocks at hmax ⊢; omega, hdata.mid,
    hdata.idle, fun x => ?_, rfl⟩
  rw [hchunk]
  by_cases hin : off + k ≤ x ∧ x < off + k + can
  · rw [if_pos hin, if_pos hin, show k + (x - (off + k)) = x - off by omega]
  · rw [if_neg hin, if_neg hin]

theorem Mid.writeLoop_bytes (off : ℕ) (data : List UInt8) (fuel : ℕ)
    (hm : Mid g (withInode R n i) vol) (hidle : vol.jtxnActive = false) {k : ℕ} (dirty : Bool)
    (hk : k ≤ data.length) (hfuel : data.length ≤ k + fuel)
    (hfits : off + k ≤ maxDirBlocks * 4096) {res : Volume × Inode × ℕ × Bool}
    (h : res = Volume.writeLoop off data fuel vol i k dirty) :
    LoopBytes off data k vol i res := by
  induction fuel generalizing vol i k dirty with
  | zero =>
    subst h
    exact ⟨le_rfl, hk, hfits, fun x h h' => absurd h (by dsimp only [Volume.writeLoop] at h'; omega),
      fun _ _ _ hb => hb, fun hlt => absurd hlt (by dsimp only [Volume.writeLoop]; omega)⟩
  | succ fuel ih =>
    by_cases hdone : data.length ≤ k
    · rw [Volume.writeLoop, if_pos hdone] at h
      subst h
      exact ⟨le_rfl, hk, hfits, fun x h h' => absurd h (by dsimp only at h'; omega),
        fun _ _ _ hb => hb, fun hlt => absurd hlt (by dsimp only; omega)⟩
    generalize hr : vol.resolveBlock i ((off + k) / 4096) true = r
    obtain ⟨hloop, hres⟩ := hm.resolve_loop hidle _ hr.symm
    by_cases hblk : r.2.2.1 = 0
    · have hblock := hres.block
      rw [Volume.view_of_idle hloop.idle] at hblock
      rw [Volume.writeLoop, if_neg hdone, pos_mod hfits] at h
      dsimp only at h
      rw [hr, if_pos hblk] at h
      subst h
      refine ⟨le_rfl, hk, hfits, fun x h h' => absurd h (by dsimp only at h'; omega),
        fun x b _ hb => hres.byteAt_eq hm hidle hb, fun _ => ?_⟩
      exact if_pos (hblock.trans hblk)
    obtain ⟨can, vol', dirty', hpos, hcan, hfits', hmid, hidle', hchunk, heq⟩ :=
      hm.writeTurn hidle (lt_of_not_ge hdone) hfits hr hblk fuel dirty
    have hnext := ih hmid hidle' dirty' hcan (by omega) (by omega) (h.trans heq)
    have hle := hnext.le
    refine ⟨by omega, hnext.count, hnext.fits, fun x hx hx' => ?_, fun x b hx hb => ?_,
      hnext.stopped⟩
    · by_cases hin : x < off + k + can
      · refine hnext.kept x _ (by omega) ?_
        rw [hchunk, if_pos ⟨hx, hin⟩]
      · exact hnext.written x (by omega) hx'
    · refine hnext.kept x b (by omega) ?_
      rw [hchunk, if_neg (by omega)]
      exact hres.byteAt_eq hm hidle hb

theorem lt_of_blockAt_or {i : Inode} {fb : ℕ}
    (h : blockAt vol.disk i fb ≠ 0 ∨ nextLeaf g vol i fb ≠ 0) : fb < maxDirBlocks := by
  rcases h with h0 | h0
  · exact lt_of_blockAt h0
  by_contra hge
  exact h0 (if_neg hge)

theorem Mid.writeLoop_first {off : ℕ} {data : List UInt8}
    (hm : Mid g (withInode R n i) vol) (hidle : vol.jtxnActive = false) (dirty : Bool)
    (hdata : data ≠ [])
    (hblk : blockAt vol.disk i (off / 4096) ≠ 0 ∨ nextLeaf g vol i (off / 4096) ≠ 0)
    {res : Volume × Inode × ℕ × Bool}
    (h : res = Volume.writeLoop off data data.length vol i 0 dirty) :
    0 < res.2.2.1 ∧ (blockAt vol.disk i (off / 4096) = 0 → ∀ x, x / 4096 = off / 4096 → x < off →
      byteAt res.1.disk res.2.1 x =
        some ((vol.disk (nextLeaf g vol i (off / 4096))).byte (x % 4096))) := by
  have hmax := lt_of_blockAt_or hblk
  have hlen := length_pos_iff.mpr hdata
  obtain ⟨fuel, hfuel⟩ : ∃ fuel, data.length = fuel + 1 := ⟨data.length - 1, by omega⟩
  generalize hr : vol.resolveBlock i ((off + 0) / 4096) true = r
  obtain ⟨hloop, hres⟩ := hm.resolve_loop hidle _ hr.symm
  rw [Nat.add_zero] at hr hres
  have hleaf : blockAt vol.disk i (off / 4096) = 0 →
      r.2.2.1 = nextLeaf g vol i (off / 4096) := fun h0 => by
    rw [← hr, hm.resolveBlock_nextLeaf hidle h0]
  have hr0 : r.2.2.1 ≠ 0 := by
    by_cases h0 : blockAt vol.disk i (off / 4096) = 0
    · rw [hleaf h0]
      exact hblk.resolve_left (not_not.mpr h0)
    · rwa [hres.kept (by rw [view_of_idle hidle]; exact h0), view_of_idle hidle]
  obtain ⟨can, vol', dirty', hpos, hcan, hfits', hmid, hidle', hchunk, heq⟩ :=
    hm.writeTurn hidle hlen (by unfold maxDirBlocks at hmax ⊢; omega) hr hr0 fuel dirty
  rw [hfuel] at h
  have hnext := hmid.writeLoop_bytes off data fuel hidle' dirty' hcan (by omega) (by omega)
    (h.trans heq)
  have hle := hnext.le
  refine ⟨by omega, fun h0 x hx hlt => ?_⟩
  refine hnext.kept x _ (by omega) ?_
  rw [hchunk, if_neg (by omega), hres.byteAt_new hidle h0 hr0 hx, hleaf h0]

end Loop

section Write
variable {g : Superblock} {vol : Volume} {node : Node} {ref : List UInt8} {off : ℕ}
  {data : List UInt8}

/-- The write starts at or before the end of the file, or the gap it leaves reads as zeros: each
byte of the gap is mapped and zero, or lies in the block of the offset, which is unmapped and will
be mapped to a block that holds zeros there. -/
def WriteOk (g : Superblock) (vol : Volume) (i : Inode) (off : ℕ) (data : List UInt8) : Prop :=
  off ≤ i.size.toNat ∨ (data ≠ [] ∧
    (blockAt vol.disk i (off / 4096) ≠ 0 ∨ nextLeaf g vol i (off / 4096) ≠ 0) ∧
    ∀ x, i.size.toNat ≤ x → x < off → byteAt vol.disk i x = some 0 ∨
      (blockAt vol.disk i (off / 4096) = 0 ∧ x / 4096 = off / 4096 ∧
        (vol.disk (nextLeaf g vol i (off / 4096))).byte (x % 4096) = 0))

theorem Content.length_le {d : ℕ → Block} {i : Inode} (hc : Content d i ref) :
    ref.length ≤ maxDirBlocks * 4096 := by
  rcases Nat.eq_zero_or_pos ref.length with h0 | hpos
  · omega
  have h := hc.bytes (ref.length - 1) (by omega)
  have hmax := lt_of_blockAt (blockAt_ne_of_byteAt h)
  unfold maxDirBlocks at hmax ⊢
  omega

theorem byteAt_congr_data {R : ℕ × Root → ℕ} {n : ℕ} {ok : ℕ → Prop} {d d' : ℕ → Block}
    {i i' : Inode} (ho : Owned (siteRef R d) fun b => InData g b ∧ ok b)
    (hR : ∀ r, R (n, r) = i.root r) (hroot : ∀ r, i'.root r = i.root r)
    (hd : ∀ b, InData g b → d' b = d b) (x : ℕ) : byteAt d' i' x = byteAt d i x := by
  refine byteAt_congr ?_ fun h0 => hd _ (blockAt_inData ho hR h0).1
  rw [blockAt_congr_root hroot]
  exact blockAt_congr_sites hR (fun s _ h0 => hd _ (ho.ok h0).1) _

theorem WriteOk.fits {i : Inode} (hok : WriteOk g vol i off data)
    (hc : Content vol.disk i ref) : off ≤ maxDirBlocks * 4096 := by
  rcases hok with hle | ⟨-, hblk, -⟩
  · have := hc.length_le
    rw [hc.size] at hle
    omega
  have hmax := lt_of_blockAt_or hblk
  unfold maxDirBlocks at hmax ⊢
  omega

/-- The size after a write of `c` bytes at `off`. -/
theorem grown_size {size : UInt64} {c : ℕ} (h : off + c ≤ maxDirBlocks * 4096) :
    (if size.toNat < (off + c) % 2 ^ 64 then UInt64.ofNat (off + c) else size).toNat =
      max size.toNat (off + c) := by
  have hlt : off + c < 2 ^ 64 := by
    unfold maxDirBlocks at h
    omega
  rw [Nat.mod_eq_of_lt hlt]
  split
  · rw [UInt64.toNat_ofNat_of_lt' hlt]
    omega
  · omega

theorem Written.current {lp : Volume × Inode × ℕ × Bool} {res : Volume × Node × ℕ}
    (h : Written g vol node off lp res) (hcur : Current g vol.disk node) :
    Current g res.1.disk res.2.1 := by
  have hsame := congrArg Node.inodeNum h.same
  have hnum : res.2.1.inodeNum = node.inodeNum := hsame
  refine ⟨by rw [hnum]; exact hcur.bound, ?_⟩
  rw [hnum]
  exact h.agrees

theorem Current.mid (hcur : Current g vol.disk node) (hr : Rest g vol) :
    Mid g (withInode (diskRoots g vol.disk) node.inodeNum node.inode) vol := by
  rw [hcur.agrees.withInode_eq]
  exact hr.mid

theorem Content.opWrite (hc : Content vol.disk node.inode ref) (hr : Rest g vol)
    (hcur : Current g vol.disk node) (hok : WriteOk g vol node.inode off data)
    {res : Volume × Node × ℕ} (h : res = vol.opWrite node off data) :
    Content res.1.disk res.2.1.inode (overlay ref off (data.take res.2.2)) := by
  generalize hlp : writeLoop off data data.length vol node.inode 0 false = lp
  have hw := hr.opWrite hcur.bound hcur.agrees off data hlp.symm h
  have hm := hcur.mid hr
  have hfits := hok.fits hc
  obtain ⟨hloop, -⟩ := hm.writeLoop off data data.length hr.idle 0 false hlp.symm
  have hbytes := hm.writeLoop_bytes off data data.length hr.idle false (Nat.zero_le _) (by omega)
    hfits hlp.symm
  have hfirst : ¬ off ≤ node.inode.size.toNat → 0 < lp.2.2.1 ∧
      ∀ x, ref.length ≤ x → x < off → byteAt lp.1.disk lp.2.1 x = some 0 := by
    intro hgap
    obtain ⟨hne, hblk, hzero⟩ := hok.resolve_left hgap
    obtain ⟨hpos, hnew⟩ := hm.writeLoop_first hr.idle false hne hblk hlp.symm
    refine ⟨hpos, fun x hx hx' => ?_⟩
    rcases hzero x (by rw [hc.size]; exact hx) hx' with h0 | ⟨hhole, hsame, h0⟩
    · exact hbytes.kept x 0 (by omega) h0
    · rw [hnew hhole x hsame hx', h0]
  have hsame : ∀ x, byteAt res.1.disk res.2.1.inode x = byteAt lp.1.disk lp.2.1 x := by
    have howned := hloop.mid.owned
    rw [view_of_idle hloop.idle] at howned
    exact byteAt_congr_data howned (withInode_self _ _ _) hw.root hw.data
  have hsize : res.2.1.inode.size.toNat = max ref.length (off + lp.2.2.1) := by
    rw [hw.size, hw.count, grown_size hbytes.fits, hc.size]
  have hcount := hbytes.count
  have hlen : (data.take lp.2.2.1).length = lp.2.2.1 := by
    rw [length_take]
    omega
  rw [hw.count]
  by_cases h0 : lp.2.2.1 = 0
  · have hle : off ≤ node.inode.size.toNat := by
      by_contra hgap
      exact absurd h0 (hfirst hgap).1.ne'
    rw [hc.size] at hle
    rw [h0, take_zero, overlay_nil]
    refine ⟨by rw [hsize, h0]; omega, fun x hx => ?_⟩
    rw [hsame]
    exact hbytes.kept x _ (by omega) (hc.bytes x hx)
  have hne : data.take lp.2.2.1 ≠ [] := by
    rw [← length_pos_iff, hlen]
    omega
  refine ⟨by rw [hsize, length_overlay _ _ hne, hlen], fun x hx => ?_⟩
  rw [length_overlay _ _ hne, hlen] at hx
  rw [hsame, getD_overlay _ _ hne (by rw [hlen]; exact hx), hlen]
  by_cases hin : off ≤ x ∧ x < off + lp.2.2.1
  · rw [if_pos hin, hbytes.written x (by omega) hin.2]
    simp only [getD_eq_getElem?_getD, getElem?_take, if_pos (show x - off < lp.2.2.1 by omega)]
  rw [if_neg hin]
  by_cases hlt : x < ref.length
  · exact hbytes.kept x _ (by omega) (hc.bytes x hlt)
  have hsz := hc.size
  rw [(hfirst (by omega)).2 x (by omega) (by omega), getD_eq_getElem?_getD,
    getElem?_eq_none (by omega)]
  rfl

end Write

section Read
variable {g : Superblock} {vol : Volume} {node : Node} {ref : List UInt8} {off len : ℕ}

private theorem map_range_add (f : ℕ → UInt8) (a b : ℕ) :
    (range (a + b)).map f = (range a).map f ++ (range b).map fun k => f (a + k) := by
  rw [range_add, map_append, map_map]
  rfl

theorem readLoop_eq {i : Inode} (f : ℕ → UInt8)
    (hf : ∀ x, off ≤ x → x < off + len → byteAt vol.disk i x = some (f x)) (fuel : ℕ) {k : ℕ}
    (hk : k ≤ len) (hfuel : len ≤ k + fuel) (acc : List UInt8) :
    vol.readLoop i off len fuel k acc = acc ++ (range (len - k)).map fun j => f (off + k + j) := by
  induction fuel generalizing k acc with
  | zero =>
    rw [readLoop, show len - k = 0 by omega]
    simp
  | succ fuel ih =>
    rw [readLoop]
    by_cases hdone : len ≤ k
    · rw [if_pos hdone, show len - k = 0 by omega]
      simp
    rw [if_neg hdone]
    have hmap := hf (off + k) (by omega) (by omega)
    have h0 := blockAt_ne_of_byteAt hmap
    have hmax := lt_of_blockAt h0
    have hpos : (off + k) % 2 ^ 64 = off + k := by
      unfold maxDirBlocks at hmax
      exact Nat.mod_eq_of_lt (by omega)
    dsimp only
    rw [hpos, blockOf_eq, if_neg h0]
    generalize hcan : min (4096 - (off + k) % 4096) (len - k) = can
    rw [ih (by omega) (by omega), append_assoc]
    congr 1
    rw [show len - k = can + (len - (k + can)) by omega, map_range_add]
    congr 1
    · refine map_congr_left fun j hj => ?_
      have hj' := mem_range.mp hj
      have hb := hf (off + k + j) (by omega) (by omega)
      have hsame : (off + k + j) / 4096 = (off + k) / 4096 := by omega
      rw [byteAt_of_ne (by rw [hsame]; exact h0), hsame] at hb
      rw [readBlock, show (off + k) % 4096 + j = (off + k + j) % 4096 by omega]
      exact Option.some.inj hb
    · refine map_congr_left fun j _ => ?_
      rw [show off + (k + can) + j = off + k + (can + j) by omega]

/-- A read returns the bytes from `off` on, as many as asked for and there are. -/
theorem Content.opRead (hc : Content vol.disk node.inode ref)
    (hlen : off + len < 2 ^ 64 ∨ ref.length ≤ off) :
    (vol.opRead node off len).2.2 = (ref.drop off).take len := by
  have hsize := hc.size
  unfold Volume.opRead
  dsimp only
  by_cases hoff : ref.length ≤ off
  · rw [if_pos (by omega), drop_eq_nil_of_le hoff, take_nil]
  rw [if_neg (by omega), Nat.mod_eq_of_lt (hlen.resolve_right hoff)]
  generalize hl : (if node.inode.size.toNat < off + len then node.inode.size.toNat - off
    else len) = l
  have hmin : l = min len (ref.length - off) := by
    rw [← hl, hsize]
    split <;> omega
  have htake : (ref.drop off).take len = (range l).map fun j => ref.getD (off + j) 0 := by
    apply ext_getElem
    · simp [hmin]
    intro j hj hj'
    have hj'' : j < l := by simpa using hj'
    simp only [getElem_take, getElem_drop, getElem_map, getElem_range]
    rw [getD_eq_getElem?_getD, getElem?_eq_getElem (by omega)]
    rfl
  rw [htake]
  by_cases h0 : l = 0
  · rw [if_pos h0, h0]
    rfl
  rw [if_neg h0]
  dsimp only
  rw [readLoop_eq (fun x => ref.getD x 0) (fun x _ hx => hc.bytes x (by omega)) l
    (Nat.zero_le l) (by omega), nil_append, Nat.sub_zero]
  rfl

theorem mem_readLoop {i : Inode} {b : UInt8} (fuel k : ℕ) (acc : List UInt8)
    (h : b ∈ vol.readLoop i off len fuel k acc) : b ∈ acc ∨ ∃ x, byteAt vol.disk i x = some b := by
  induction fuel generalizing k acc with
  | zero => exact .inl h
  | succ fuel ih =>
    rw [readLoop] at h
    dsimp only at h
    generalize (off + k) % 2 ^ 64 = pos at h
    rw [blockOf_eq] at h
    split_ifs at h with hdone h0
    · exact .inl h
    · exact .inl h
    rcases ih _ _ h with hmem | hfound
    · refine (mem_append.mp hmem).imp_right fun hnew => ?_
      obtain ⟨j, hj, rfl⟩ := mem_map.mp hnew
      have hj' := mem_range.mp hj
      have hsame : (pos + j) / 4096 = pos / 4096 := by omega
      refine ⟨pos + j, ?_⟩
      rw [byteAt_of_ne (by rw [hsame]; exact h0), hsame, readBlock,
        show pos % 4096 + j = (pos + j) % 4096 by omega]
    · exact .inr hfound

theorem mem_opRead {b : UInt8} (h : b ∈ (vol.opRead node off len).2.2) :
    ∃ x, byteAt vol.disk node.inode x = some b := by
  unfold opRead at h
  dsimp only at h
  generalize (if node.inode.size.toNat < (off + len) % 2 ^ 64 then _ else len) = len' at h
  split_ifs at h
  · exact absurd h (not_mem_nil)
  · exact absurd h (not_mem_nil)
  · exact (mem_readLoop _ _ _ h).resolve_left not_mem_nil

end Read

end Exploidus.Exfs
