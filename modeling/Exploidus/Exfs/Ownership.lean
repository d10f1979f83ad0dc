import Exploidus.Exfs.Transaction
import Exploidus.Exfs.Resolve
import Exploidus.Lib.Refs

/-! Who owns which block. The pointers of all inodes form a forest of references; on a sound
device no two of them are equal and every block they name is a data block marked used. The
invariant of a running operation keeps the device sound at every stop between two writes. -/
namespace Exploidus.Exfs
open WriteLog RedoLog Refs Function Volume

inductive Root where
  | direct (k : ℕ)
  | indirect
  | doubleIndirect
  deriving DecidableEq

/-- How many levels of pointer blocks lie below a pointer. -/
def Root.depth : Root → ℕ
  | .direct _ => 0
  | .indirect => 1
  | .doubleIndirect => 2

def Inode.root (i : Inode) : Root → ℕ
  | .direct k => i.directAt k
  | .indirect => i.indirect.toNat
  | .doubleIndirect => i.doubleIndirect.toNat

@[simp] theorem Inode.root_blank (r : Root) : Inode.blank.root r = 0 := by
  cases r with
  | direct k =>
    simp only [Inode.root, Inode.directAt, Inode.blank]
    split <;> rfl
  | indirect => rfl
  | doubleIndirect => rfl

/-- A place where a block number stands: a pointer of an inode, or an entry of a pointer block
below it, innermost index first. -/
abbrev Site := (ℕ × Root) × List ℕ

/-- The block number at a site, given the inodes' pointers and the pointer blocks of `d`. -/
def siteRef (R : ℕ × Root → ℕ) (d : ℕ → Block) : Site → ℕ :=
  ref (fun r => r.2.depth) R (fun t j => ptrAt (d t) j)

theorem siteRef_nil (R : ℕ × Root → ℕ) (d : ℕ → Block) (r : ℕ × Root) :
    siteRef R d (r, []) = R r := rfl

variable {R : ℕ × Root → ℕ} {d d' : ℕ → Block} {g : Superblock}

theorem siteRef_cons {r : ℕ × Root} {p : List ℕ} (h : p.length < r.2.depth) (j : ℕ) :
    siteRef R d (r, j :: p) = slot (fun t j => ptrAt (d t) j) (siteRef R d (r, p)) j := if_pos h

def inodeTable (g : Superblock) (d : ℕ → Block) (n : ℕ) : Inode :=
  if n < 4096 then inodeAt (d (g.inodeTableBlock + n / 16)) (n % 16) else Inode.blank

def diskRoots (g : Superblock) (d : ℕ → Block) (x : ℕ × Root) : ℕ := (inodeTable g d x.1).root x.2

def Sound (g : Superblock) (d : ℕ → Block) : Prop :=
  Owned (siteRef (diskRoots g d) d) fun b => InData g b ∧ bitmapGet (diskBitmap g d) b = true

theorem siteRef_congr
    (h : ∀ r p, p.length < Root.depth r.2 → siteRef R d (r, p) ≠ 0 → d' (siteRef R d (r, p)) = d
      (siteRef R d (r, p))) : siteRef R d' = siteRef R d := by
  apply ref_congr
  intro r p hlt h0 j
  exact congrArg (ptrAt · j) (h r p hlt h0)

theorem siteRef_congr_at {R' : ℕ × Root → ℕ} {r : ℕ × Root} (hr : R' r = R r)
    (h : ∀ p, siteRef R d (r, p) ≠ 0 → d' (siteRef R d (r, p)) = d (siteRef R d (r, p)))
    (p : List ℕ) :
    siteRef R' d' (r, p) = siteRef R d (r, p) := by
  induction p with
  | nil => exact hr
  | cons j p ih =>
    by_cases hlt : p.length < r.2.depth
    · rw [siteRef_cons hlt, siteRef_cons hlt, ih]
      by_cases h0 : siteRef R d (r, p) = 0
      · rw [h0, slot_zero, slot_zero]
      · rw [slot_of_ne h0, slot_of_ne h0, h p h0]
    · exact (if_neg hlt : siteRef R' d' (r, j :: p) = 0).trans (if_neg hlt).symm

theorem siteRef_congr_inData {ok : ℕ → Prop} (ho : Owned (siteRef R d) fun b => InData g b ∧ ok b)
    (h : ∀ b, InData g b → d' b = d b) : siteRef R d' = siteRef R d :=
  siteRef_congr fun _ _ _ h0 => h _ (ho.ok h0).1

theorem siteRef_update_leaf {ok : ℕ → Prop} (ho : Owned (siteRef R d) ok) {s : Site}
    (h0 : siteRef R d s ≠ 0) (hleaf : s.2.length = s.1.2.depth) (buf : Block) :
    siteRef R (update d (siteRef R d s) buf) = siteRef R d := by
  apply siteRef_congr
  intro r p hlt hne
  refine update_of_ne (fun he => ?_) _ _
  have hs := ho.unique hne he
  subst hs
  exact absurd hlt (not_lt.mpr hleaf.ge)

section
variable (hg : Geometry g)
include hg

theorem inodeTable_congr (h : ∀ b, InBody g b → d' b = d b) : inodeTable g d' = inodeTable g d := by
  funext n
  unfold inodeTable
  split_ifs with hn
  · rw [h _ (hg.inBody_table hn)]
  · rfl

theorem inodeTable_update_data (d : ℕ → Block) {b : ℕ} (hb : InData g b)
    (buf : Block) : inodeTable g (update d b buf) = inodeTable g d := by
  funext n
  unfold inodeTable
  split_ifs with hn
  · have := hg.dataStartBlock
    rw [update_of_ne (by have := hb.1; omega)]
  · rfl

theorem diskRoots_update_data (d : ℕ → Block) {b : ℕ} (hb : InData g b)
    (buf : Block) :
    diskRoots g (update d b buf) = diskRoots g d := by
  unfold diskRoots
  rw [inodeTable_update_data hg d hb]

theorem diskRoots_congr (h : ∀ b, InBody g b → d' b = d b) : diskRoots g d' = diskRoots g d := by
  unfold diskRoots
  rw [inodeTable_congr hg h]

theorem Sound.congr (hs : Sound g d) (hbody : ∀ b, InBody g b → d' b = d b)
    (hbits : ∀ s, siteRef (diskRoots g d) d s ≠ 0 → bitmapGet (diskBitmap g d') (siteRef (diskRoots
      g d) d s)) : Sound g d' := by
  unfold Sound
  rw [diskRoots_congr hg hbody,
    siteRef_congr_inData hs fun b hb => hbody b (hg.inBody_of_inData hb)]
  exact hs.mono fun s h0 hok => ⟨hok.1, hbits s h0⟩

end

structure Safe (g : Superblock) (d : ℕ → Block) : Prop where
  super : d 0 = g.block
  clear : headerMagic (d g.journalBlock) ≠ journalMagic
  sound : Sound g d

def Crash (g : Superblock) (d : ℕ → Block) : Prop :=
  d 0 = g.block ∧ Sound g (recover journalFormat g.journalBlock d)

theorem recover_of_clear (h : headerMagic (d g.journalBlock) ≠ journalMagic) :
    recover journalFormat g.journalBlock d = d := by
  have hs : Settled journalFormat g.journalBlock d d := ⟨parse_eq_none h, fun _ _ => rfl⟩
  exact hs.recover

theorem Safe.crash (h : Safe g d) : Crash g d := by
  refine ⟨h.super, ?_⟩
  rw [recover_of_clear h.clear]
  exact h.sound

def Runs (g : Superblock) (vol vol' : Volume) : Prop :=
  ∃ ws, vol.Wrote ws vol' ∧ AllPrefixes (Crash g) vol.disk ws

theorem Runs.of_eq {vol vol' : Volume} (hc : Crash g vol.disk) (hd : vol'.disk = vol.disk)
    (hl : vol'.log = vol.log) : Runs g vol vol' :=
  ⟨[], ⟨by rw [hl, List.append_nil], by rw [hd, applyWrites_nil]⟩, allPrefixes_nil hc⟩

theorem Runs.trans {u v w : Volume} (h : Runs g u v) (h' : Runs g v w) : Runs g u w := by
  obtain ⟨as, ha, hpa⟩ := h
  obtain ⟨bs, hb, hpb⟩ := h'
  refine ⟨as ++ bs, ha.trans hb, allPrefixes_append hpa ?_⟩
  rwa [← ha.disk]

theorem Runs.writeBlock {vol : Volume} (hc : Crash g vol.disk) (b : ℕ) (buf : Block)
    (hc' : Crash g (update vol.disk b buf)) :
    Runs g vol (vol.writeBlock b buf) :=
  ⟨_, vol.wrote_writeBlock b buf, allPrefixes_cons hc (allPrefixes_nil hc')⟩

structure LaidOut (g : Superblock) (vol : Volume) : Prop where
  geometry : Geometry g
  sb : SameGeometry g vol.sb
  reserved : ∀ b, g.journalBlock ≤ b → b < g.totalBlocks → bitmapGet vol.blockBitmap b = true

structure Mid (g : Superblock) (R : ℕ × Root → ℕ) (vol : Volume) : Prop where
  geometry : Geometry g
  sb : SameGeometry g vol.sb
  staging : vol.Staging g
  reserved : ∀ b, b < g.dataStartBlock ∨ (g.journalBlock ≤ b ∧ b < g.totalBlocks) →
    bitmapGet vol.blockBitmap b = true
  flushed : Flushed g vol.blockBitmap vol.disk
  owned : Owned (siteRef R vol.view) fun b => InData g b ∧ bitmapGet vol.blockBitmap b = true
  safe : Safe g vol.disk
  below : vol.jtxnActive = false → ∀ x, diskRoots g vol.disk x = 0 ∨ diskRoots g vol.disk x = R x

section Mid
variable {g : Superblock} {R R' : ℕ × Root → ℕ} {vol : Volume}

theorem Mid.laidOut (hm : Mid g R vol) : LaidOut g vol :=
  ⟨hm.geometry, hm.sb, fun b hb hb' => hm.reserved b (.inr ⟨hb, hb'⟩)⟩

theorem sound_of_owned (hg : Geometry g) {d : ℕ → Block} {bm : ℕ → UInt8}
    (hf : Flushed g bm d)
    (ho : Owned (siteRef R d) fun b => InData g b ∧ bitmapGet bm b)
    (hb : ∀ x, diskRoots g d x = 0 ∨ diskRoots g d x = R x) : Sound g d := by
  refine (ho.sub (ref_sub hb)).mono fun s _ hok => ⟨hok.1, ?_⟩
  have := hok.1.2
  have := hg.provenanceBlock
  have := hg.totalBlocks
  rw [hf.diskBitmap hg (by omega)]
  exact hok.2

theorem Mid.crash (hm : Mid g R vol) : Crash g vol.disk := hm.safe.crash

variable {b : ℕ}

theorem Mid.fresh (hm : Mid g R vol) (hb : bitmapGet vol.blockBitmap b = false) (s : Site) :
    siteRef R vol.view s ≠ b := by
  intro he
  by_cases h0 : siteRef R vol.view s = 0
  · have hpos : 0 < g.dataStartBlock := by
      have := hm.geometry.dataStartBlock
      omega
    have hr := hm.reserved 0 (.inl hpos)
    rw [← he, h0, hr] at hb
    exact absurd hb (by decide)
  · have hbit := (hm.owned.ok h0).2
    rw [he, hb] at hbit
    exact absurd hbit (by decide)

theorem Safe.flush (hg : Geometry g) {d : ℕ → Block} (hs : Safe g d) (bm : ℕ → UInt8)
    (hbits : ∀ s, siteRef (diskRoots g d) d s ≠ 0 →
      bitmapGet bm (siteRef (diskRoots g d) d s)) (k : ℕ) :
    Safe g (applyWrites d ((flushWrites g bm).take k)) := by
  have hbb := hg.blockBitmapBlock
  have hit := hg.inodeTableBlock
  have hds := hg.dataStartBlock
  have hdj := hg.data_lt_journal
  refine ⟨?_, ?_, hs.sound.congr hg (fun b hb => ?_) fun s h0 => ?_⟩
  · rw [flush_prefix_other bm d k (by omega)]
    exact hs.super
  · rw [flush_prefix_other bm d k (by omega)]
    exact hs.clear
  · exact flush_prefix_other bm d k (by have := hb.1; omega)
  obtain ⟨hin, hbit⟩ := hs.sound.ok h0
  have hlt : siteRef (diskRoots g d) d s < g.totalBlocks := by
    have := hin.2
    have := hg.provenanceBlock
    have := hg.totalBlocks
    omega
  rcases flush_prefix g bm d k (siteRef (diskRoots g d) d s / 32768) with hold | hnew
  · rwa [diskBitmap_eq_of_eq g hold]
  · rw [diskBitmap_congr hg hlt hnew]
    exact hbits s h0

structure Allocated (g : Superblock) (R : ℕ × Root → ℕ) (vol : Volume) (r : Volume × ℕ) :
    Prop where
  mid : Mid g R r.1
  runs : Runs g vol r.1
  active : r.1.jtxnActive = vol.jtxnActive
  jtxn : r.1.jtxn = vol.jtxn
  view : ∀ b, InBody g b → r.1.view b = vol.view b
  disk : ∀ b, InBody g b → r.1.disk b = vol.disk b
  mono : ∀ b, bitmapGet vol.blockBitmap b = true → bitmapGet r.1.blockBitmap b = true
  fresh : r.2 ≠ 0 → InData g r.2 ∧ bitmapGet vol.blockBitmap r.2 = false ∧
    bitmapGet r.1.blockBitmap r.2 = true
  next : r.2 ≠ 0 →
    findClear vol.blockBitmap (g.totalBlocks - g.dataStartBlock) g.dataStartBlock = some r.2 ∧
    r.1.blockBitmap = bitmapSet vol.blockBitmap r.2
  full : r.2 = 0 → r.1 = vol

theorem Allocated.fresh_site {r : Volume × ℕ} (h : Allocated g R vol r) (hm : Mid g R vol)
    (h0 : r.2 ≠ 0) (s : Site) : siteRef R r.1.view s ≠ r.2 := by
  rw [siteRef_congr_inData hm.owned fun b hb => h.view b (hm.geometry.inBody_of_inData hb)]
  exact hm.fresh (h.fresh h0).2.1 s

private theorem view_body {vol' : Volume} (ha : vol'.jtxnActive = vol.jtxnActive)
    (hj : vol'.jtxn = vol.jtxn) (hd : vol'.jtxnData = vol.jtxnData)
    (h : ∀ b, InBody g b → vol'.disk b = vol.disk b) (hb : InBody g b) :
    vol'.view b = vol.view b := by
  simp only [view, txnReadBlock, staged, ha, hj, hd, readBlock, h b hb]

section
variable (hm : Mid g R vol)
include hm

theorem Mid.disk_bit {s : Site}
    (h0 : siteRef (diskRoots g vol.disk) vol.disk s ≠ 0) :
    bitmapGet vol.blockBitmap (siteRef (diskRoots g vol.disk) vol.disk s) := by
  obtain ⟨hin, hbit⟩ := hm.safe.sound.ok h0
  have := hin.2
  have := hm.geometry.provenanceBlock
  have := hm.geometry.totalBlocks
  rwa [hm.flushed.diskBitmap hm.geometry (by omega)] at hbit

theorem Mid.flush (bm : ℕ → UInt8) (n : ℕ)
    (hres : ∀ b, bitmapGet vol.blockBitmap b → ¬ InData g b → bitmapGet bm b)
    (hown : ∀ s, siteRef R vol.view s ≠ 0 → bitmapGet bm (siteRef R vol.view s))
    (hdisk : ∀ s, siteRef (diskRoots g vol.disk) vol.disk s ≠ 0 →
      bitmapGet bm (siteRef (diskRoots g vol.disk) vol.disk s))
    {vol' : Volume} (h : vol' = writeAll
      { vol with sb := { g with freeBlocks := n }, blockBitmap := bm } (flushWrites g bm)) :
    Mid g R vol' ∧ Runs g vol vol' ∧ (∀ b, InBody g b → vol'.disk b = vol.disk b) ∧
      ∀ b, InBody g b → vol'.view b = vol.view b := by
  have hg := hm.geometry
  have hbb := hg.blockBitmapBlock
  have hit := hg.inodeTableBlock
  rw [writeAll_eq] at h
  have hsafe := hm.safe.flush hg bm hdisk
  have hlast := hsafe (flushWrites g bm).length
  rw [List.take_length] at hlast
  have hd : vol'.disk = applyWrites vol.disk (flushWrites g bm) := by rw [h]
  have hbm : vol'.blockBitmap = bm := by rw [h]
  have hbody : ∀ b, InBody g b → vol'.disk b = vol.disk b := by
    intro b hb
    have hlen := flush_prefix_other (g := g) bm vol.disk (flushWrites g bm).length (b := b)
      (by have := hb.1; omega)
    rwa [List.take_length, ← hd] at hlen
  have hview : ∀ b, InBody g b → vol'.view b = vol.view b := fun b hb =>
    view_body (by rw [h]) (by rw [h]) (by rw [h]) hbody hb
  refine ⟨⟨hg, ⟨n, by rw [h]⟩, ?_, fun b hb => ?_, ?_, ?_, ?_, fun hidle x => ?_⟩, ?_, hbody, hview⟩
  · subst h
    exact ⟨hm.staging.jtxnData, hm.staging.nodup, hm.staging.home, hm.staging.length_le⟩
  · rw [hbm]
    refine hres b (hm.reserved b hb) fun hin => ?_
    have := hin.1
    have := hin.2
    omega
  · rw [hbm, hd]
    exact flushed_flushWrites g bm vol.disk
  · rw [siteRef_congr_inData hm.owned fun b hb => hview b (hg.inBody_of_inData hb), hbm]
    exact hm.owned.mono fun s h0 hok => ⟨hok.1, hown s h0⟩
  · rwa [hd]
  · rw [diskRoots_congr hg hbody]
    exact hm.below (by rw [← hidle, h]) x
  · exact ⟨flushWrites g bm, ⟨by rw [h], hd⟩, fun k => (hsafe k).crash⟩

theorem Mid.allocBlock : Allocated g R vol vol.allocBlock := by
  rcases allocBlock_cases hm.geometry hm.sb with ⟨-, h⟩ | ⟨b, n, hfind, h⟩
  · rw [h]
    exact ⟨hm, Runs.of_eq hm.crash rfl rfl, rfl, rfl, fun _ _ => rfl, fun _ _ => rfl,
      fun _ h => h, fun h => absurd rfl h, fun h => absurd rfl h, fun _ => rfl⟩
  obtain ⟨hlo, hhi, hbit⟩ := findClear_eq_some hfind
  have hdata : InData g b := by
    refine ⟨hlo, ?_⟩
    by_contra hge
    rw [hm.reserved b (.inr ⟨by omega, by omega⟩)] at hbit
    exact absurd hbit (by decide)
  have hmono : ∀ c, bitmapGet vol.blockBitmap c →
      bitmapGet (bitmapSet vol.blockBitmap b) c := by
    intro c hc
    rw [bitmapGet_bitmapSet, hc, Bool.or_true]
  have hset : bitmapGet (bitmapSet vol.blockBitmap b) b := by
    simp [bitmapGet_bitmapSet]
  have hpos : b ≠ 0 := by
    have := hm.geometry.dataStartBlock
    omega
  obtain ⟨hmid, hruns, hdisk, hview⟩ := hm.flush (bitmapSet vol.blockBitmap b) n
    (fun c hc _ => hmono c hc) (fun s h0 => hmono _ (hm.owned.ok h0).2)
    (fun s h0 => hmono _ (hm.disk_bit h0)) rfl
  rw [h, marked]
  refine ⟨hmid, hruns, ?_, ?_, hview, hdisk, ?_, fun _ => ⟨hdata, hbit, ?_⟩,
    fun _ => ⟨hfind, ?_⟩, fun h0 => absurd h0 hpos⟩
  · rw [writeAll_eq]
  · rw [writeAll_eq]
  · rwa [writeAll_eq]
  · rwa [writeAll_eq]
  · rw [writeAll_eq]

theorem Mid.freeBlock (hidle : vol.jtxnActive = false) (hb : InData g b)
    (hfree : ∀ s, siteRef R vol.disk s ≠ b) :
    Mid g R (vol.freeBlock b) ∧ Runs g vol (vol.freeBlock b) ∧
      (∀ c, InBody g c → (vol.freeBlock b).disk c = vol.disk c) ∧
      (vol.freeBlock b).jtxnActive = false ∧
      ∀ c ≠ b, bitmapGet (vol.freeBlock b).blockBitmap c = bitmapGet vol.blockBitmap c := by
  rcases freeBlock_cases hm.geometry hm.sb b with h | ⟨n, hbit, h⟩
  · rw [h]
    exact ⟨hm, Runs.of_eq hm.crash rfl rfl, fun _ _ => rfl, hidle, fun _ _ => rfl⟩
  have hkeep : ∀ c ≠ b, bitmapGet (bitmapClear vol.blockBitmap b) c =
      bitmapGet vol.blockBitmap c := by
    intro c hc
    simp [bitmapGet_bitmapClear, hc]
  have hview := view_of_idle hidle
  have hsub : ∀ s, siteRef (diskRoots g vol.disk) vol.disk s ≠ 0 →
      siteRef (diskRoots g vol.disk) vol.disk s ≠ b := by
    intro s h0
    have := (ref_sub (hm.below hidle) s).resolve_left h0
    unfold siteRef
    rw [this]
    exact hfree s
  obtain ⟨hmid, hruns, hdisk, -⟩ := hm.flush (bitmapClear vol.blockBitmap b) n
    (fun c hc hout => by rw [hkeep c (fun he => hout (he ▸ hb))]; exact hc)
    (fun s h0 => by
      rw [hkeep _ (by rw [hview]; exact hfree s)]
      exact (hm.owned.ok h0).2)
    (fun s h0 => by rw [hkeep _ (hsub s h0)]; exact hm.disk_bit h0) rfl
  rw [h, unmarked]
  refine ⟨hmid, hruns, hdisk, ?_, ?_⟩
  · rwa [writeAll_eq]
  · rwa [writeAll_eq]

theorem Mid.writeBlock (hidle : vol.jtxnActive = false)
    (hlo : g.inodeTableBlock ≤ b) (hhi : b < g.journalBlock ∨ g.journalBlock + 17 ≤ b) (buf : Block)
    (hown : Owned (siteRef R' (update vol.disk b buf)) fun b => InData g b ∧ bitmapGet
      vol.blockBitmap b)
    (hbelow : ∀ x, diskRoots g (update vol.disk b buf) x = 0 ∨ diskRoots g
      (update vol.disk b buf) x = R' x) :
    Mid g R' (vol.writeBlock b buf) ∧ Runs g vol (vol.writeBlock b buf) := by
  have hg := hm.geometry
  have hbb := hg.blockBitmapBlock
  have hit := hg.inodeTableBlock
  have hne : ∀ c, c < g.inodeTableBlock ∨ c = g.journalBlock →
      update vol.disk b buf c = vol.disk c := fun c hc =>
    update_of_ne (by omega) _ _
  have hflushed : Flushed g vol.blockBitmap (update vol.disk b buf) := by
    intro i hi
    rw [hne _ (by omega)]
    exact hm.flushed i hi
  have hsafe : Safe g (update vol.disk b buf) := by
    refine ⟨?_, ?_, sound_of_owned hg hflushed hown hbelow⟩
    · rw [hne 0 (by omega)]
      exact hm.safe.super
    · rw [hne _ (.inr rfl)]
      exact hm.safe.clear
  refine ⟨⟨hg, hm.sb, ?_, hm.reserved, hflushed, ?_, hsafe, fun _ => hbelow⟩,
    Runs.writeBlock hm.crash b buf hsafe.crash⟩
  · exact ⟨hm.staging.jtxnData, hm.staging.nodup, hm.staging.home, hm.staging.length_le⟩
  rwa [view_of_idle (by simpa using hidle)]

end

structure MetaWritten (g : Superblock) (R : ℕ × Root → ℕ) (vol : Volume) (b : ℕ) (buf : Block)
    (vol' : Volume) : Prop where
  mid : Mid g R vol'
  runs : Runs g vol vol'
  active : vol'.jtxnActive = vol.jtxnActive
  bitmap : vol'.blockBitmap = vol.blockBitmap
  length : vol'.jtxn.length ≤ vol.jtxn.length + 1
  view : vol'.view = update vol.view b buf
  disk : vol.jtxnActive = true → vol'.disk = vol.disk

theorem Mid.metaWriteBlock (hm : Mid g R vol) (hroom : vol.jtxnActive → vol.jtxn.length < 16)
    (hb : InBody g b) (buf : Block)
    (hown : Owned (siteRef R' (update vol.view b buf)) fun b => InData g b ∧ bitmapGet
      vol.blockBitmap b)
    (hbelow : vol.jtxnActive = false → ∀ x, diskRoots g (update vol.disk b buf) x = 0 ∨
      diskRoots g (update vol.disk b buf) x = R' x) :
    MetaWritten g R' vol b buf (vol.metaWriteBlock b buf) := by
  cases hact : vol.jtxnActive with
  | false =>
    have hview := view_of_idle hact
    rw [hview] at hown
    have hw : vol.metaWriteBlock b buf = vol.writeBlock b buf := by
      simp [Volume.metaWriteBlock, hact]
    obtain ⟨hmid, hruns⟩ := hm.writeBlock hact hb.1 (.inl hb.2) buf hown (hbelow hact)
    rw [hw]
    refine ⟨hmid, hruns, rfl, rfl, by simp, ?_, fun h => absurd (hact ▸ h) (by decide)⟩
    rw [view_of_idle (by simpa using hact), hview]
    rfl
  | true =>
    obtain ⟨t, hw, hlen, hst, hview⟩ :=
      metaWriteBlock_active hm.staging hact (hroom hact) hb buf
    rw [hw]
    refine ⟨⟨hm.geometry, hm.sb, hst, hm.reserved, hm.flushed, ?_, hm.safe, ?_⟩,
      Runs.of_eq hm.crash rfl rfl, rfl, rfl, hlen, hview, fun _ => rfl⟩
    · rwa [hview]
    · intro hidle
      exact absurd (hact ▸ hidle) (by decide)

def withInode (R : ℕ × Root → ℕ) (n : ℕ) (i : Inode) (x : ℕ × Root) : ℕ :=
  if x.1 = n then i.root x.2 else R x

theorem inodeTable_setInode (g : Superblock) (d : ℕ → Block) {n : ℕ} (hn : n < 4096) (i : Inode) :
    inodeTable g (update d (g.inodeTableBlock + n / 16)
      (setInode (d (g.inodeTableBlock + n / 16)) (n % 16) i)) = update (inodeTable g d) n i := by
  funext m
  unfold inodeTable
  by_cases hmn : m = n
  · subst hmn
    rw [update_self, if_pos hn, update_self, inodeAt_setInode_self _ _ (by omega)]
  rw [update_of_ne hmn]
  split_ifs with hm
  · by_cases hblk : m / 16 = n / 16
    · rw [hblk, update_self, inodeAt_setInode_ne _ _ (by omega)]
    · rw [update_of_ne (by omega)]
  · rfl

theorem diskRoots_setInode (g : Superblock) (d : ℕ → Block) {n : ℕ} (hn : n < 4096) (i : Inode) :
    diskRoots g (update d (g.inodeTableBlock + n / 16)
      (setInode (d (g.inodeTableBlock + n / 16)) (n % 16) i)) = withInode (diskRoots g d) n i := by
  funext x
  unfold diskRoots withInode
  rw [inodeTable_setInode g d hn]
  split_ifs with hx
  · rw [hx, update_self]
  · rw [update_of_ne hx]

theorem Mid.writeInode (hm : Mid g R vol)
    (hroom : vol.jtxnActive → vol.jtxn.length < 16) {n : ℕ} (hn : n < 4096) (i : Inode)
    (hown : Owned (siteRef R' vol.view)
      fun b => InData g b ∧ bitmapGet vol.blockBitmap b)
    (hbelow : vol.jtxnActive = false → ∀ x, withInode (diskRoots g vol.disk) n i x = 0 ∨
      withInode (diskRoots g vol.disk) n i x = R' x) :
    MetaWritten g R' vol (g.inodeTableBlock + n / 16)
      (setInode (vol.view (g.inodeTableBlock + n / 16)) (n % 16) i) (vol.writeInode n i) := by
  have hg := hm.geometry
  obtain ⟨m, hsb⟩ := hm.sb
  have hw : vol.writeInode n i = vol.metaWriteBlock (g.inodeTableBlock + n / 16)
      (setInode (vol.view (g.inodeTableBlock + n / 16)) (n % 16) i) := by
    simp only [Volume.writeInode, hsb]
  rw [hw]
  refine hm.metaWriteBlock hroom (hg.inBody_table hn) _ ?_ fun hidle x => ?_
  · rw [siteRef_congr_inData hown]
    · exact hown
    intro b hb
    have := hg.dataStartBlock
    exact update_of_ne (by have := hb.1; omega) _ _
  · rw [view_of_idle hidle, diskRoots_setInode g vol.disk hn]
    exact hbelow hidle x

theorem Mid.journalBegin (hm : Mid g R vol) (hidle : vol.jtxnActive = false) :
    Mid g R vol.journalBegin ∧ Runs g vol vol.journalBegin ∧ vol.journalBegin.view = vol.disk := by
  have hview : vol.journalBegin.view = vol.disk := by
    funext b
    simp [Volume.view, Volume.journalBegin, Volume.txnReadBlock, Volume.staged, Volume.readBlock]
  refine ⟨⟨hm.geometry, hm.sb, ⟨hm.staging.jtxnData, by simp [Volume.journalBegin],
    by simp [Volume.journalBegin], by simp [Volume.journalBegin]⟩, hm.reserved, hm.flushed, ?_,
    hm.safe, fun h => absurd h (by simp [Volume.journalBegin])⟩, Runs.of_eq hm.crash rfl rfl, hview⟩
  rw [hview, ← view_of_idle hidle]
  exact hm.owned

private theorem journalCommit_fields {vol : Volume} (hact : vol.jtxnActive) :
    vol.journalCommit.sb = vol.sb ∧ vol.journalCommit.blockBitmap = vol.blockBitmap ∧
      vol.journalCommit.jtxnData = vol.jtxnData ∧ vol.journalCommit.jtxnActive = false ∧
      vol.journalCommit.jtxn = [] := by
  unfold journalCommit
  rw [if_neg (by simp [hact])]
  dsimp only
  split_ifs with hlen hdirect
  · simpa using hlen
  · simp [writeAll_eq]
  · simp [writeAll_eq, writeBlock]

structure TxnCommitted (g : Superblock) (R : ℕ × Root → ℕ) (vol vol' : Volume) : Prop where
  mid : Mid g R vol'
  runs : Runs g vol vol'
  idle : vol'.jtxnActive = false
  bitmap : vol'.blockBitmap = vol.blockBitmap
  disk : ∀ b, b < g.journalBlock ∨ g.journalBlock + 17 ≤ b → vol'.disk b = vol.view b

theorem Mid.journalCommit (hm : Mid g R vol) (hact : vol.jtxnActive)
    (htable : ∀ x, diskRoots g vol.view x = 0 ∨ diskRoots g vol.view x = R x) :
    TxnCommitted g R vol vol.journalCommit := by
  have hg := hm.geometry
  have hbb := hg.blockBitmapBlock
  have hit := hg.inodeTableBlock
  have hds := hg.dataStartBlock
  have hdj := hg.data_lt_journal
  obtain ⟨hsb', hbm', hdata', hidle', hjtxn'⟩ := journalCommit_fields hact
  have hsettled := journalCommit_settled hg hm.sb hm.staging hact hm.safe.clear
  have hdisk : ∀ b, b < g.journalBlock ∨ g.journalBlock + 17 ≤ b →
      vol.journalCommit.disk b = vol.view b := by
    intro b hb
    apply hsettled.agree
    intro hin
    have hcap : b < g.journalBlock + 1 + 16 := hin.2
    have := hin.1
    omega
  have hunstaged : ∀ b < g.inodeTableBlock, vol.view b = vol.disk b := by
    intro b hb
    rw [view_eq_applyWrites hm.staging hact]
    apply applyWrites_of_forall_ne
    intro p hp he
    have := (hm.staging.home p hp).1
    omega
  have hflushedView : Flushed g vol.blockBitmap vol.view := by
    intro i hi
    rw [hunstaged _ (by omega)]
    exact hm.flushed i hi
  have hsoundView : Sound g vol.view := sound_of_owned hg hflushedView hm.owned htable
  have hbody : ∀ b, InBody g b → vol.journalCommit.disk b = vol.view b := fun b hb =>
    hdisk b (.inl hb.2)
  have hagree : ∀ a c, AgreeHome journalFormat g.journalBlock a c → Sound g a → Sound g c := by
    intro a c hac hs
    have hout : ∀ b < g.journalBlock, a b = c b := fun b hb =>
      hac b fun hin => by have := hin.1; omega
    refine hs.congr hg (fun b hb => (hout b hb.2).symm) fun s h0 => ?_
    obtain ⟨hin, hbit⟩ := hs.ok h0
    have hle := hg.totalBlocks_le
    have := hin.2
    have := hg.provenanceBlock
    have := hg.totalBlocks
    rwa [diskBitmap_eq_of_eq g (hout _ (by omega)).symm]
  have hsafe : Safe g vol.journalCommit.disk := by
    refine ⟨?_, parse_eq_none_iff.mp hsettled.clear, ?_⟩
    · rw [hdisk 0 (by omega), hunstaged 0 (by omega)]
      exact hm.safe.super
    · exact hagree _ _ hsettled.agree.symm hsoundView
  refine ⟨⟨hg, hsb' ▸ hm.sb, ⟨hdata' ▸ hm.staging.jtxnData, by simp [hjtxn'], by simp [hjtxn'],
    by simp [hjtxn']⟩, hbm' ▸ hm.reserved, ?_, ?_, hsafe, fun _ x => ?_⟩, ?_, hidle', hbm', hdisk⟩
  · intro i hi
    rw [hdisk _ (by omega), hbm']
    exact hflushedView i hi
  · rw [view_of_idle hidle', hbm', siteRef_congr_inData hm.owned fun b hb =>
      hbody b (hg.inBody_of_inData hb)]
    exact hm.owned
  · rw [diskRoots_congr hg hbody]
    exact htable x
  by_cases hne : vol.jtxn = []
  · refine Runs.of_eq hm.crash ?_ ?_ <;> simp [Volume.journalCommit, hact, hne]
  obtain ⟨n, hn⟩ := hm.sb
  have hsize : vol.sb.journalSize = 17 := by
    rw [hn]
    exact hg.journalSize
  have hjb : vol.sb.journalBlock = g.journalBlock := by rw [hn]
  have hw := wrote_journalCommit hact hm.staging.jtxnData hsize hne
    hm.staging.length_le
  rw [hjb] at hw
  have hpost : Sound g (applyWrites vol.disk vol.jtxn) := by
    rwa [← view_eq_applyWrites hm.staging hact]
  have hprefix := commit_allPrefixes (hm.staging.valid hg) (parse_eq_none hm.safe.clear)
    hagree hm.safe.sound hpost
  refine ⟨_, hw, fun k => ⟨?_, hprefix k⟩⟩
  rw [applyWrites_of_forall_ne, hm.safe.super]
  intro w hwmem he
  have hmem := List.mem_of_mem_take hwmem
  rw [commitWrites, List.mem_append, List.mem_cons, List.mem_append, List.mem_singleton] at hmem
  rcases hmem with h | rfl | h | rfl
  · have := mem_slotWrites g.journalBlock h
    omega
  · dsimp only at he
    omega
  · have := (hm.staging.home w h).1
    omega
  · dsimp only at he
    omega

end Mid

end Exploidus.Exfs
