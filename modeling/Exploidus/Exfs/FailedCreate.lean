import Exploidus.Exfs.TxnResolve

/-! What `exfs_op_create` and `exfs_op_symlink` leave behind when they fail. Every exit inside
their transaction commits it, so a failure changes nothing only if it comes before the new inode
is staged. -/
namespace Exploidus.Exfs
open WriteLog RedoLog Refs Function Volume Root

/-- The inode table, the bitmap, the free-block count and the entries of all directories are the
same. -/
structure Untouched (g : Superblock) (vol vol' : Volume) : Prop where
  table : inodeTable g vol'.disk = inodeTable g vol.disk
  bitmap : vol'.blockBitmap = vol.blockBitmap
  onDisk : diskBitmap g vol'.disk = diskBitmap g vol.disk
  freeBlocks : vol'.sb.freeBlocks = vol.sb.freeBlocks
  entries : ∀ n fb k, entry g vol'.disk n fb k = entry g vol.disk n fb k

theorem Untouched.of_eq {g : Superblock} {vol vol' : Volume} (hd : vol'.disk = vol.disk)
    (hb : vol'.blockBitmap = vol.blockBitmap) (hs : vol'.sb = vol.sb) : Untouched g vol vol' := by
  refine ⟨?_, hb, ?_, ?_, fun n fb k => ?_⟩
  · rw [hd]
  · rw [hd]
  · rw [hs]
  · rw [hd]

structure Pending (g : Superblock) (k : ℕ) (v : Volume) : Prop extends LaidOut g v where
  active : v.jtxnActive = true
  staging : v.jtxnData = true → v.Staging g
  direct : v.jtxnData = false → v.jtxn = []
  length : v.jtxn.length ≤ k

section Pending
variable {g : Superblock} {vol v v' : Volume} {b k : ℕ}

theorem Pending.weaken {l : ℕ} (h : Pending g k v) (hkl : k ≤ l) : Pending g l v :=
  ⟨h.toLaidOut, h.active, h.staging, h.direct, h.length.trans hkl⟩

theorem LaidOut.pending_journalBegin (h : LaidOut g vol) : Pending g 0 vol.journalBegin :=
  ⟨⟨h.geometry, h.sb, h.reserved⟩, rfl, fun hd => ⟨hd, List.nodup_nil,
    by simp [journalBegin], by simp [journalBegin]⟩, fun _ => rfl, le_rfl⟩

theorem Pending.metaWriteBlock (h : Pending g k v) (hk : k < 16) (hb : InBody g b) (buf : Block) :
    Pending g (k + 1) (v.metaWriteBlock b buf) ∧ (v.metaWriteBlock b buf).jtxnData = v.jtxnData ∧
      (v.jtxnData → (v.metaWriteBlock b buf).disk = v.disk) ∧
      ∀ c ≠ b, (v.metaWriteBlock b buf).disk c = v.disk c := by
  have hlen := h.length
  cases hd : v.jtxnData with
  | true =>
    obtain ⟨t, heq, ht, hst, -⟩ := metaWriteBlock_active (h.staging hd) h.active
      (by omega) hb buf
    rw [heq]
    exact ⟨⟨⟨h.geometry, h.sb, h.reserved⟩, h.active, fun _ => hst,
      fun hf => absurd (hd.symm.trans hf) (by decide), by dsimp only; omega⟩, hd, fun _ => rfl,
      fun _ _ => rfl⟩
  | false =>
    have heq : v.metaWriteBlock b buf = v.writeBlock b buf := by
      simp [Volume.metaWriteBlock, Volume.journalStage, h.active, hd]
    rw [heq]
    exact ⟨⟨⟨h.geometry, h.sb, h.reserved⟩, h.active,
      fun ht => absurd (hd.symm.trans ht) (by decide), fun _ => h.direct hd, by
        rw [writeBlock_jtxn]; omega⟩, hd, fun ht => absurd ht (by decide),
      fun c hc => update_of_ne hc _ _⟩

theorem Pending.journalCommit (h : Pending g k v) (hb : InBody g b) :
    v.journalCommit.disk b = v.view b := by
  obtain ⟨n, hn⟩ := h.sb
  cases hd : v.jtxnData with
  | false =>
    have hview : v.view b = v.disk b := by simp [view, txnReadBlock, readBlock, hd]
    rw [hview]
    simp [Volume.journalCommit, h.active, h.direct hd]
  | true =>
    have hst := h.staging hd
    rw [view_eq_applyWrites hst h.active]
    by_cases hne : v.jtxn = []
    · simp [Volume.journalCommit, h.active, hne]
    have hsize : v.sb.journalSize = 17 := by rw [hn]; exact h.geometry.journalSize
    have hjb : v.sb.journalBlock = g.journalBlock := by rw [hn]
    rw [(wrote_journalCommit h.active hd hsize hne hst.length_le).disk, hjb]
    exact (commit_settled (hst.valid h.geometry) v.disk).agree b fun hlog => by
      have := hb.2
      have := hlog.1
      omega

theorem Pending.allocBlock (h : Pending g k v) :
    (nextFree g v.blockBitmap = none ∧ v.allocBlock = (v, 0)) ∨
      ∃ b, HandedOut g v b v.allocBlock.1 ∧ v.allocBlock.2 = b ∧ Pending g k v.allocBlock.1 ∧
        v.allocBlock.1.jtxnData = v.jtxnData ∧
        v.allocBlock.1.disk = applyWrites v.disk (flushWrites g (bitmapSet v.blockBitmap b)) ∧
        ∀ c, InBody g c → v.allocBlock.1.view c = v.view c := by
  have hg := h.geometry
  rcases h.toLaidOut.allocBlock with hnone | ⟨b, ho, heq, -⟩
  · exact .inl hnone
  rcases allocBlock_cases hg h.sb with ⟨hnone, -⟩ | ⟨b', n, -, hmark⟩
  · exact absurd (ho.next.symm.trans hnone) (by simp)
  obtain rfl : b' = b := (congrArg Prod.snd hmark).symm.trans heq
  have hlaid := ho.laidOut h.toLaidOut
  right
  rw [hmark] at ho hlaid ⊢
  rw [marked_eq] at ho hlaid ⊢
  refine ⟨b', ho, rfl, ⟨hlaid, h.active, fun hd => ?_, h.direct, h.length⟩, rfl, rfl,
    fun c hc => ?_⟩
  · have hst := h.staging hd
    exact ⟨hst.jtxnData, hst.nodup, hst.home, hst.length_le⟩
  · simp only [view, txnReadBlock, readBlock, staged]
    rw [hg.flushWrites_above _ _ hc.1]

end Pending

/-- What reading a pointer block gives that a transaction begun on `vol` has just allocated as
`t`. -/
def backOf (vol : Volume) (t : ℕ) : Block := if vol.jtxnData then vol.disk t else zeroBlock

/-- The device once bitmap `bm` has been flushed to it. -/
def flushedDisk (g : Superblock) (vol : Volume) (bm : ℕ → UInt8) : ℕ → Block :=
  applyWrites vol.disk (flushWrites g bm)

/-- A walk goes on through table `t`, or through a new one if `t` is 0. -/
def Through (g : Superblock) (vol : Volume) (bm : ℕ → UInt8) (t : ℕ)
    (next : (ℕ → UInt8) → Block → Prop) : Prop :=
  (t ≠ 0 ∧ next bm (flushedDisk g vol bm t)) ∨
    (t = 0 ∧ ∃ t', nextFree g bm = some t' ∧ next (bitmapSet bm t') (backOf vol t'))

/-- Entry `idx` of table `D` is there or can be filled. -/
def Fills (g : Superblock) (idx : ℕ) (bm : ℕ → UInt8) (D : Block) : Prop :=
  ptrAt D idx ≠ 0 ∨ nextFree g bm ≠ none

/-- Resolving logical block `fb` of an inode, with bitmap `bm`, finds the blocks it needs. -/
def CanMap (g : Superblock) (vol : Volume) (bm : ℕ → UInt8) (i : Inode) (fb : ℕ) : Prop :=
  if fb < 12 then i.directAt fb ≠ 0 ∨ nextFree g bm ≠ none
  else if fb < 524 then Through g vol bm i.indirect.toNat (Fills g (fb - 12))
  else if fb < maxDirBlocks then
    Through g vol bm i.doubleIndirect.toNat fun bm D =>
      Through g vol bm (ptrAt D ((fb - 524) / 512)) (Fills g ((fb - 524) % 512))
  else False

/-- Every block a directory inode references on the device lies in the data region and is marked
used. -/
structure DirState (g : Superblock) (vol : Volume) (din : Inode) : Prop extends LaidOut g vol where
  idle : vol.jtxnActive = false
  refs : ∀ s, ref depth din.root (fun t j => ptrAt (vol.disk t) j) s ≠ 0 →
    InData g (ref depth din.root (fun t j => ptrAt (vol.disk t) j) s) ∧
      bitmapGet vol.blockBitmap (ref depth din.root (fun t j => ptrAt (vol.disk t) j) s) = true

structure Shown (g : Superblock) (vol v : Volume) : Prop where
  jtxnData : v.jtxnData = vol.jtxnData
  mono : ∀ b, bitmapGet vol.blockBitmap b = true → bitmapGet v.blockBitmap b = true
  used : ∀ b, InData g b → bitmapGet vol.blockBitmap b = true →
    v.disk b = vol.disk b ∧ v.view b = vol.disk b
  raw : vol.jtxnData = true → v.disk = vol.disk ∨ ∃ bm, v.disk = flushedDisk g vol bm

section Walk
variable {g : Superblock} {vol v : Volume} {din : Inode} {k t : ℕ}

theorem Shown.unused (h : Shown g vol v) {b : ℕ} (hb : bitmapGet v.blockBitmap b = false) :
    bitmapGet vol.blockBitmap b = false := by
  by_contra hne
  rw [h.mono b (by simpa using hne)] at hb
  exact absurd hb (by decide)

theorem flush_flush (bm bm' : ℕ → UInt8) (d : ℕ → Block) :
    applyWrites (applyWrites d (flushWrites g bm)) (flushWrites g bm') =
      applyWrites d (flushWrites g bm') := by
  funext c
  by_cases hc : g.blockBitmapBlock ≤ c ∧ c < g.blockBitmapBlock + g.bitmapSize
  · obtain ⟨hlo, hhi⟩ := hc
    have he : c = g.blockBitmapBlock + (c - g.blockBitmapBlock) := by omega
    rw [he, flushed_flushWrites g bm' _ _ (by omega), flushed_flushWrites g bm' _ _ (by omega)]
  have hother : ∀ bm d, applyWrites d (flushWrites g bm) c = d c := by
    intro bm d
    have := flush_prefix_other (g := g) bm d (flushWrites g bm).length (b := c) (by omega)
    rwa [List.take_length] at this
  rw [hother, hother, hother]

theorem Shown.flushed (h : Shown g vol v) (hd : vol.jtxnData) (bm : ℕ → UInt8) :
    applyWrites v.disk (flushWrites g bm) = flushedDisk g vol bm := by
  rcases h.raw hd with hb | ⟨bm', hb⟩
  · rw [hb, flushedDisk]
  · rw [hb, flushedDisk, flush_flush, flushedDisk]

theorem Shown.metaWriteBlock (h : Shown g vol v) (hp : Pending g k v) (hk : k < 16) {b : ℕ}
    (hb : InBody g b) (hun : ¬ (InData g b ∧ bitmapGet vol.blockBitmap b)) (buf : Block) :
    Shown g vol (v.metaWriteBlock b buf) := by
  obtain ⟨-, hdata, hdisk, hother⟩ := hp.metaWriteBlock hk hb buf
  obtain ⟨hview, -, -, hbm, -⟩ := v.metaWriteBlock_spec b buf
  refine ⟨hdata.trans h.jtxnData, fun c hc => ?_, fun c hc hused => ?_, fun hd => ?_⟩
  · rw [hbm]
    exact h.mono c hc
  · have hne : c ≠ b := by
      rintro rfl
      exact hun ⟨hc, hused⟩
    rw [hother c hne, hview, update_of_ne hne]
    exact h.used c hc hused
  · rw [hdisk (h.jtxnData.trans hd)]
    exact h.raw hd

theorem Shown.allocBlock (h : Shown g vol v) (hp : Pending g k v) : Shown g vol v.allocBlock.1 := by
  have hg := hp.geometry
  rcases hp.allocBlock with ⟨-, heq⟩ | ⟨b, ho, -, -, hdata, hdisk, hview⟩
  · rwa [heq]
  refine ⟨hdata.trans h.jtxnData, fun c hc => ?_, fun c hc hused => ?_, fun hd => ?_⟩
  · rw [ho.bit, h.mono c hc, Bool.or_true]
  · have hin := hg.inBody_of_inData hc
    rw [hdisk, hg.flushWrites_above _ _ hin.1, hview c hin]
    exact h.used c hc hused
  · exact .inr ⟨_, hdisk.trans (h.flushed hd _)⟩

theorem Shown.newBlock (h : Shown g vol v) (hp : Pending g k v) (leaf : Bool)
    (hk : leaf = false → k < 16) :
    (nextFree g v.blockBitmap = none ∧ v.newBlock leaf = (v, 0)) ∨
      ∃ t, HandedOut g v t (v.newBlock leaf).1 ∧ (v.newBlock leaf).2 = t ∧
        Pending g (k + 1) (v.newBlock leaf).1 ∧ Shown g vol (v.newBlock leaf).1 ∧
        (leaf = false → (v.newBlock leaf).1.disk t = backOf vol t) ∧
        (vol.jtxnData →
          (v.newBlock leaf).1.disk = flushedDisk g vol (v.newBlock leaf).1.blockBitmap) ∧
        ∀ c, InBody g c → ¬ InData g c → (v.newBlock leaf).1.view c = v.view c := by
  have hg := hp.geometry
  have hs := h.allocBlock hp
  rcases hp.allocBlock with ⟨hnone, heq⟩ | ⟨t, ho, heq, hp', hdata, hdisk, hview⟩
  · left
    cases leaf <;> simp [Volume.newBlock, Volume.allocTable, heq, hnone]
  right
  have hflush : vol.jtxnData →
      v.allocBlock.1.disk = flushedDisk g vol v.allocBlock.1.blockBitmap := fun hd => by
    rw [hdisk, h.flushed hd, ho.bitmap]
  cases leaf with
  | true =>
    exact ⟨t, ho, heq, hp'.weaken (Nat.le_add_right k 1), hs, fun h => absurd h (by decide), hflush,
      fun c hc _ => hview c hc⟩
  | false =>
    have hin := hg.inBody_of_inData ho.inData
    have hnew : v.newBlock false = (v.allocBlock.1.metaWriteBlock t zeroBlock, t) := by
      simp [Volume.newBlock, Volume.allocTable, heq, ho.ne_zero hg]
    rw [hnew]
    obtain ⟨hp2, -, hkeep, -⟩ := hp'.metaWriteBlock (hk rfl) hin zeroBlock
    obtain ⟨hview2, hdisk2, -, hbm2, -⟩ := v.allocBlock.1.metaWriteBlock_spec t zeroBlock
    have hunused := h.unused ho.old
    refine ⟨t, ho.metaWriteBlock t zeroBlock, rfl, hp2, hs.metaWriteBlock hp' (hk rfl) hin
      (fun hu => by rw [hunused] at hu; exact absurd hu.2 (by decide)) zeroBlock, fun _ => ?_,
      fun hd => ?_, fun c hc hnot => ?_⟩
    · rw [backOf]
      cases hd : vol.jtxnData with
      | true =>
        rw [if_pos rfl, hkeep (hdata.trans (h.jtxnData.trans hd)), hdisk, h.flushed hd, flushedDisk,
          hg.flushWrites_above _ _ hin.1]
      | false =>
        have hst : v.allocBlock.1.stages t = false := by
          simp [stages, inTxn, hdata.trans (h.jtxnData.trans hd)]
        rw [hdisk2, hst]
        exact update_self ..
    · rw [hkeep (hdata.trans (h.jtxnData.trans hd)), hbm2]
      exact hflush hd
    · have hne : c ≠ t := by
        rintro rfl
        exact hnot ho.inData
      rw [hview2, update_of_ne hne, hview c hc]

structure Tried (g : Superblock) (k : ℕ) (v : Volume) (found : Prop) (r : Volume × ℕ) : Prop where
  iff : r.2 ≠ 0 ↔ found
  pending : r.2 = 0 → Pending g k r.1
  view : r.2 = 0 → ∀ c, InBody g c → ¬ InData g c → r.1.view c = v.view c

theorem Tried.nothing (hp : Pending g k v) {found : Prop} (hf : ¬ found) :
    Tried g k v found (v, 0) :=
  ⟨iff_of_false (fun h => h rfl) hf, fun _ => hp, fun _ _ _ _ => rfl⟩

theorem Tried.found {found : Prop} {r : Volume × ℕ} (h0 : r.2 ≠ 0) (hf : found) :
    Tried g k v found r :=
  ⟨iff_of_true h0 hf, fun hz => absurd hz h0, fun hz => absurd hz h0⟩

/-- From table `D` on, the blocks along the indices are there or can be allocated. -/
def Reaches (g : Superblock) (vol : Volume) : List ℕ → (ℕ → UInt8) → Block → Prop
  | [], _, _ => True
  | idx :: q, bm, D => Through g vol bm (ptrAt D idx) (Reaches g vol q)

theorem through_true {bm : ℕ → UInt8} {T : ℕ} :
    Through g vol bm T (fun _ _ => True) ↔ T ≠ 0 ∨ nextFree g bm ≠ none := by
  by_cases h : T = 0 <;> simp [Through, h, Option.ne_none_iff_exists']

theorem canMap_iff {bm : ℕ → UInt8} {fb : ℕ} : CanMap g vol bm din fb ↔ fb < maxDirBlocks ∧
    Through g vol bm (din.root (rootOf fb)) (Reaches g vol (pathOf fb).reverse) := by
  have hfills : ∀ idx, Reaches g vol [idx] = Fills g idx := fun idx => by
    funext bm D
    exact propext through_true
  unfold CanMap rootOf pathOf
  split_ifs with h1 h2 hmax
  · rw [and_iff_right (by unfold maxDirBlocks; omega)]
    exact through_true.symm
  · rw [and_iff_right (by unfold maxDirBlocks; omega), List.reverse_singleton, hfills]
    rfl
  · rw [and_iff_right hmax, ← hfills]
    rfl
  · exact iff_of_false not_false fun h => hmax h.1

section Through
variable {T : ℕ} {next : (ℕ → UInt8) → Block → Prop} {r : Volume × ℕ}

theorem Tried.through_old (hT : T ≠ 0) (hread : v.disk T = flushedDisk g vol v.blockBitmap T)
    (h : Tried g k v (next v.blockBitmap (v.disk T)) r) :
    Tried g k v (Through g vol v.blockBitmap T next) r := by
  refine ⟨h.iff.trans ⟨fun hf => .inl ⟨hT, hread ▸ hf⟩, ?_⟩, h.pending, h.view⟩
  rintro (⟨-, hf⟩ | ⟨hz, -⟩)
  · exact hread ▸ hf
  · exact absurd hz hT

theorem Tried.through_new {v' : Volume} (hT : T = 0) (ho : HandedOut g v t v')
    (hview : ∀ c, InBody g c → ¬ InData g c → v'.view c = v.view c)
    (h : Tried g k v' (next v'.blockBitmap (backOf vol t)) r) :
    Tried g k v (Through g vol v.blockBitmap T next) r := by
  have hiff := h.iff
  rw [ho.bitmap] at hiff
  refine ⟨hiff.trans ⟨fun hf => .inr ⟨hT, t, ho.next, hf⟩, ?_⟩, h.pending,
    fun hz c hc hnot => (h.view hz c hc hnot).trans (hview c hc hnot)⟩
  rintro (⟨hne, -⟩ | ⟨-, t', hnext, hf⟩)
  · exact absurd hT hne
  rw [ho.next] at hnext
  exact Option.some.inj hnext ▸ hf

theorem Tried.through_full (hp : Pending g k v) (hT : T = 0)
    (hnone : nextFree g v.blockBitmap = none) :
    Tried g k v (Through g vol v.blockBitmap T next) (v, 0) := by
  refine .nothing hp ?_
  rintro (⟨hne, -⟩ | ⟨-, t', hnext, -⟩)
  · exact hne hT
  rw [hnone] at hnext
  cases hnext

end Through

section Descend
variable {q : List ℕ}

/-- The last table of a path. -/
theorem Pending.descend (hp : Pending g k v) (idx : ℕ) :
    Tried g k v (Reaches g vol [idx] v.blockBitmap (v.disk t)) (v.descend t [idx]) := by
  rw [Volume.descend]
  by_cases h0 : ptrAt (v.disk t) idx = 0
  · rw [if_neg (by simpa using h0)]
    rcases hp.toLaidOut.newBlock true with ⟨hnone, heq⟩ | ⟨b, ho, heq, -⟩
    · rw [List.isEmpty_nil, heq, if_pos rfl]
      exact .through_full hp h0 hnone
    have hb := ho.ne_zero hp.geometry
    rw [List.isEmpty_nil, heq, if_neg hb]
    exact .found hb (.inr ⟨h0, b, ho.next, trivial⟩)
  · rw [if_pos h0]
    exact .found h0 (.inl ⟨h0, trivial⟩)

/-- From a table on. If it is not the last one, the tables in it are read as they are on the
device with the bitmap flushed. -/
theorem Shown.descend (h : Shown g vol v) (hp : Pending g k v) (hk : k + 2 ≤ 16)
    (hq : q.length ≤ 2) (ht0 : t ≠ 0)
    (ht : 2 ≤ q.length → InData g t ∧ bitmapGet v.blockBitmap t ∧
      ∀ j, ptrAt (v.disk t) j ≠ 0 → v.disk (ptrAt (v.disk t) j) =
        flushedDisk g vol v.blockBitmap (ptrAt (v.disk t) j)) :
    Tried g (k + 2) v (Reaches g vol q v.blockBitmap (v.disk t)) (v.descend t q) := by
  have hg := hp.geometry
  have hp' := hp.weaken (Nat.le_add_right k 2)
  match q, hq, ht with
  | [], _, _ => exact .found ht0 trivial
  | [idx], _, _ => exact hp'.descend idx
  | [idx1, idx2], _, ht =>
    obtain ⟨hin, hused, hread⟩ := ht le_rfl
    rw [Volume.descend]
    by_cases h0 : ptrAt (v.disk t) idx1 = 0
    · rw [if_neg (by simpa using h0)]
      rcases h.newBlock hp [idx2].isEmpty (fun _ => by omega) with
        ⟨hnone, heq⟩ | ⟨b, ho, heq, hp2, -, hback, -, hview⟩
      · rw [heq, if_pos rfl]
        exact .through_full hp' h0 hnone
      have hne : b ≠ t := by
        rintro rfl
        exact absurd (ho.old.symm.trans hused) (by decide)
      obtain ⟨hp3, -, -, hother⟩ := hp2.metaWriteBlock (by omega) (hg.inBody_of_inData hin)
        (setPtr (v.disk t) idx1 b)
      obtain ⟨hview3, -⟩ := (v.newBlock [idx2].isEmpty).1.metaWriteBlock_spec t
        (setPtr (v.disk t) idx1 b)
      have hlast : Tried _ _ _ (Reaches g vol _ _ _) _ := hp3.descend (t := b) idx2
      rw [hother b hne, hback rfl] at hlast
      rw [heq, if_neg (ho.ne_zero hg)]
      refine .through_new h0 (ho.metaWriteBlock t _) (fun c hc hnot => ?_) hlast
      have hct : c ≠ t := by
        rintro rfl
        exact hnot hin
      rw [hview3, update_of_ne hct, hview c hc hnot]
    · rw [if_pos h0]
      exact .through_old h0 (hread idx1 h0) (hp'.descend idx2)

end Descend

section
variable (hd : DirState g vol din)
include hd

theorem DirState.read (h : Shown g vol v) {s : Root × List ℕ}
    (ht : ref depth din.root (fun t j => ptrAt (vol.disk t) j) s = t) (h0 : t ≠ 0) :
    InData g t ∧ bitmapGet v.blockBitmap t ∧ v.disk t = vol.disk t ∧
      ∀ bm, flushedDisk g vol bm t = vol.disk t := by
  obtain ⟨hin, hused⟩ := hd.refs s (ht.trans_ne h0)
  rw [ht] at hin hused
  exact ⟨hin, h.mono t hused, (h.used t hin hused).1, fun bm =>
    hd.geometry.flushWrites_above bm _ (hd.geometry.inBody_of_inData hin).1⟩

theorem DirState.resolveBlock (h : Shown g vol v) (hp : Pending g k v)
    (hk : k + 3 ≤ 16) (fb : ℕ) :
    Tried g (k + 3) v (CanMap g vol v.blockBitmap din fb)
      ((v.resolveBlock din fb true).1, (v.resolveBlock din fb true).2.2.1) := by
  have hp' := hp.weaken (Nat.le_add_right k 3)
  have hlen : (pathOf fb).reverse.length = (rootOf fb).depth :=
    (List.length_reverse ..).trans (length_pathOf fb)
  have hq : (pathOf fb).reverse.length ≤ 2 := by
    rw [hlen]
    cases rootOf fb <;> simp [depth]
  rw [canMap_iff]
  by_cases hmax : fb < maxDirBlocks
  swap
  · rw [v.resolveBlock_of_ge din hmax]
    exact .nothing hp' fun hf => hmax hf.1
  rw [and_iff_right hmax, resolveBlock_true v din hmax, resolveAt]
  generalize (pathOf fb).reverse = q at hq hlen ⊢
  generalize rootOf fb = r at hlen ⊢
  by_cases h0 : din.root r = 0
  · rw [if_neg (by simpa using h0)]
    rcases h.newBlock hp q.isEmpty (fun _ => by omega) with
      ⟨hnone, heq⟩ | ⟨t, ho, heq, hp2, hs, hback, hfl, hview⟩
    · rw [heq, if_pos rfl]
      exact .through_full hp' h0 hnone
    have ht0 := ho.ne_zero hp.geometry
    rw [heq, if_neg ht0]
    dsimp only
    rw [Prod.mk.eta]
    cases q with
    | nil => exact .found ht0 (.inr ⟨h0, t, ho.next, trivial⟩)
    | cons idx q =>
      have hw := hs.descend hp2 (by omega) hq ht0 fun _ =>
        ⟨ho.inData, by rw [ho.bit]; simp, fun j hj => ?_⟩
      · rw [hback rfl] at hw
        exact .through_new h0 ho hview hw
      cases hdata : vol.jtxnData with
      | true => rw [← hfl hdata]
      | false =>
        rw [hback rfl, backOf, hdata] at hj
        exact absurd (ptrAt_zeroBlock j) hj
  · rw [if_pos h0]
    dsimp only
    rw [Prod.mk.eta]
    have hT : ref depth din.root (fun t j => ptrAt (vol.disk t) j) (r, []) = din.root r := rfl
    obtain ⟨hin, hused, hdisk, hfl⟩ := hd.read h hT h0
    have hw := h.descend (hp.weaken (Nat.le_add_right k 1)) (by omega) hq h0 fun h2 =>
      ⟨hin, hused, fun j hj => ?_⟩
    · exact .through_old h0 (hdisk.trans (hfl _).symm) hw
    have hmid : ref depth din.root (fun t j => ptrAt (vol.disk t) j) (r, [j]) =
        ptrAt (vol.disk (din.root r)) j :=
      (ref_cons_of_lt (by simp; omega) j).trans (slot_of_ne h0 j)
    rw [hdisk] at hj ⊢
    obtain ⟨-, -, hdisk', hfl'⟩ := hd.read h hmid hj
    rw [hdisk', hfl']

theorem DirState.blockAt_eq (h : Shown g vol v) (fb : ℕ) :
    blockAt v.disk din fb = blockAt vol.disk din fb := by
  have heq : ref depth din.root (fun t j => ptrAt (v.disk t) j) =
      ref depth din.root (fun t j => ptrAt (vol.disk t) j) := by
    refine ref_congr fun r p _ hne j => ?_
    exact congrArg (ptrAt · j) (hd.read h rfl hne).2.2.1
  unfold blockAt
  split_ifs
  · exact congrFun heq (rootOf fb, pathOf fb)
  · rfl

theorem DirState.findRoom_eq (h : Shown g vol v) (fuel fb : ℕ) :
    v.findRoom din fuel fb = vol.findRoom din fuel fb := by
  induction fuel generalizing fb with
  | zero => rfl
  | succ fuel ih =>
    unfold findRoom
    dsimp only
    rw [blockOf_eq, blockOf_eq, hd.blockAt_eq h, ih]
    by_cases h0 : blockAt vol.disk din fb = 0
    · rw [if_pos h0, if_pos h0]
    have hfb : fb < maxDirBlocks := lt_of_blockAt h0
    have hsite : ref depth din.root (fun t j => ptrAt (vol.disk t) j)
        (rootOf fb, pathOf fb) = blockAt vol.disk din fb := (if_pos hfb).symm
    obtain ⟨hin, hused⟩ := hd.refs _ (hsite.trans_ne h0)
    rw [hsite] at hin hused
    have hview : v.txnReadBlock (blockAt vol.disk din fb) =
        vol.txnReadBlock (blockAt vol.disk din fb) :=
      ((h.used _ hin hused).2).trans (congrFun (view_of_idle hd.idle) _).symm
    rw [if_neg h0, if_neg h0, hview]

end

/-- The directory has an empty slot, or a hole that can be mapped with bitmap `bm`. -/
def HasRoom (g : Superblock) (vol : Volume) (bm : ℕ → UInt8) (din : Inode) : Prop :=
  (∃ blk, vol.findRoom din maxDirBlocks 0 = .block blk) ∨
    ∃ fb, vol.findRoom din maxDirBlocks 0 = .hole fb ∧ CanMap g vol bm din fb

theorem DirState.addEntry (hd : DirState g vol din) (h : Shown g vol v) (hp : Pending g k v)
    (hk : k + 3 ≤ 16) (n : ℕ) (e : Dirent) :
    ((v.addEntry n din e).2.2 ↔ HasRoom g vol v.blockBitmap din) ∧
      ((v.addEntry n din e).2.2 = false → ∀ c, InBody g c → ¬ InData g c →
        (v.addEntry n din e).1.disk c = v.view c) := by
  have hroom := @findRoom_spec v din maxDirBlocks 0
    (fun f hf => absurd hf (Nat.not_lt_zero f))
  unfold Volume.addEntry HasRoom
  rw [← hd.findRoom_eq h]
  cases hfind : v.findRoom din maxDirBlocks 0 with
  | full => exact ⟨by simp, fun _ c hc _ => hp.journalCommit hc⟩
  | block blk =>
    rw [hfind] at hroom
    obtain ⟨f, j, -, -, hslot⟩ := hroom
    have hput : v.putEntry blk (v.txnReadBlock blk) e =
        ((v.metaWriteBlock blk (setDirent (v.txnReadBlock blk) j e)).journalCommit, true) := by
      simp only [putEntry, hslot]
    simp only [hput]
    exact ⟨by simp, fun hf => absurd hf (by simp)⟩
  | hole fb =>
    have ht := hd.resolveBlock h hp hk fb
    dsimp only
    generalize v.resolveBlock din fb true = r at ht
    by_cases h0 : r.2.2.1 = 0
    · rw [if_pos h0]
      refine ⟨iff_of_false (by simp) fun hf => ht.iff.mpr ?_ h0, fun _ c hc hnot => ?_⟩
      · simpa using hf
      rw [(ht.pending h0).journalCommit hc]
      exact ht.view h0 c hc hnot
    have hput : ∀ v : Volume, (v.putEntry r.2.2.1 zeroBlock e).2 := by
      intro v
      unfold putEntry
      rw [findSlot, direntAt_zeroBlock]
      rfl
    rw [if_neg h0]
    dsimp only
    rw [hput]
    exact ⟨iff_of_true rfl (.inr ⟨fb, rfl, ht.iff.mp h0⟩), fun hf => absurd hf (by decide)⟩

end Walk

/-- A creation of `name` passes its checks: the name can be entered and an inode is free. -/
structure Accepted (vol : Volume) (dir : Node) (name : List UInt8) : Prop where
  ne : name.length ≠ 0
  length : name.length ≤ 255
  fresh : vol.findEntry dir.inode name = none
  inode : vol.findFreeInode (vol.sb.totalInodes / 16 * 16) 0 ≠ 0

section
variable {g : Superblock} {vol v : Volume} {dir : Node} {name : List UInt8}

theorem Geometry.table_not_inData (hg : Geometry g) {n : ℕ} (hn : n < 4096) :
    ¬ InData g (g.inodeTableBlock + n / 16) := by
  intro hin
  have := hin.1
  have := hg.dataStartBlock
  omega

theorem Pending.writeInode {k n : ℕ} (hp : Pending g k v) (hk : k < 16) (hs : Shown g vol v)
    (hn : n < 4096) (i : Inode) :
    Pending g (k + 1) (v.writeInode n i) ∧ Shown g vol (v.writeInode n i) ∧
      (v.writeInode n i).blockBitmap = v.blockBitmap ∧
      ∀ d : ℕ → Block, d (g.inodeTableBlock + n / 16) =
        (v.writeInode n i).view (g.inodeTableBlock + n / 16) → inodeTable g d n = i := by
  have hg := hp.geometry
  have hb := hg.inBody_table hn
  have hnot := hg.table_not_inData hn
  obtain ⟨m, hm⟩ := hp.sb
  have hblk : v.sb.inodeTableBlock = g.inodeTableBlock := by rw [hm]
  unfold Volume.writeInode
  rw [hblk]
  dsimp only
  obtain ⟨hview, -, -, hbm, -⟩ := v.metaWriteBlock_spec (g.inodeTableBlock + n / 16)
    (setInode (v.txnReadBlock (g.inodeTableBlock + n / 16)) (n % 16) i)
  refine ⟨(hp.metaWriteBlock hk hb _).1, hs.metaWriteBlock hp hk hb (fun hu => hnot hu.1) _, hbm,
    fun d hd => ?_⟩
  rw [hview, update_self] at hd
  rw [inodeTable, if_pos hn, hd]
  exact inodeAt_setInode_self _ _ (Nat.mod_lt _ (by decide))

theorem shown_journalBegin (g : Superblock) (vol : Volume) : Shown g vol vol.journalBegin := by
  have hview : vol.journalBegin.view = vol.disk := by
    funext b
    simp [view, txnReadBlock, journalBegin, staged, readBlock]
  exact ⟨rfl, fun _ h => h, fun b _ _ => ⟨rfl, congrFun hview b⟩, fun _ => .inl rfl⟩

theorem DirState.addNew (hd : DirState g vol dir.inode) (hs : Shown g vol v) {k ino : ℕ}
    (hp : Pending g k v) (hk : k + 4 ≤ 16) (hf : FreeInode g vol.disk ino) {i : Inode}
    (hi : i.inUse) (e : Dirent) :
    (((v.writeInode ino i).addEntry dir.inodeNum dir.inode e).2.2 ↔
        HasRoom g vol v.blockBitmap dir.inode) ∧
      (((v.writeInode ino i).addEntry dir.inodeNum dir.inode e).2.2 = false →
        ¬ Untouched g vol ((v.writeInode ino i).addEntry dir.inodeNum dir.inode e).1) := by
  have hg := hd.geometry
  obtain ⟨hp1, hs1, hbm, htable⟩ := hp.writeInode (by omega) hs hf.bound i
  obtain ⟨hiff, hfail⟩ := hd.addEntry hs1 hp1 (by omega) dir.inodeNum e
  rw [hbm] at hiff
  refine ⟨hiff, fun hno hun => hf.free ?_⟩
  have hino := htable _ (hfail hno _ (hg.inBody_table hf.bound) (hg.table_not_inData hf.bound))
  rw [hun.table] at hino
  rwa [hino]

theorem inUse_linkInode (target : List UInt8) (blk : ℕ) (uid gid : UInt32) :
    (linkInode target blk uid gid).inUse := .inl (by simp [linkInode])

/-- If `exfs_op_create` fails, nothing has changed. -/
def CreateClean (g : Superblock) (vol : Volume) (dir : Node) (name : List UInt8)
    (fileType : UInt8) (uid gid : UInt32) : Prop :=
  (vol.opCreate dir name fileType uid gid).2.2 = none →
    Untouched g vol (vol.opCreate dir name fileType uid gid).1

/-- If `exfs_op_symlink` fails, nothing has changed. -/
def SymlinkClean (g : Superblock) (vol : Volume) (dir : Node) (name target : List UInt8)
    (uid gid : UInt32) : Prop :=
  (vol.opSymlink dir name target uid gid).2.2 = false →
    Untouched g vol (vol.opSymlink dir name target uid gid).1

private theorem create_iff (hd : DirState g vol dir.inode) (fileType : UInt8) (uid gid : UInt32) :
    CreateClean g vol dir name fileType uid gid ↔
      (Accepted vol dir name → HasRoom g vol vol.blockBitmap dir.inode) := by
  have hself : Untouched g vol vol := .of_eq rfl rfl rfl
  unfold CreateClean opCreate
  by_cases hname : name.length = 0 ∨ 255 < name.length
  · rw [if_pos hname]
    exact iff_of_true (fun _ => hself) fun ha => by
      have := ha.ne
      have := ha.length
      omega
  rw [if_neg hname]
  by_cases hfound : (vol.findEntry dir.inode name).isSome
  · rw [if_pos hfound]
    exact iff_of_true (fun _ => hself) fun ha => by simp [ha.fresh] at hfound
  rw [if_neg hfound]
  dsimp only
  by_cases h0 : vol.findFreeInode (vol.sb.totalInodes / 16 * 16) 0 = 0
  · rw [if_pos h0]
    exact iff_of_true (fun _ => hself) fun ha => absurd h0 ha.inode
  rw [if_neg h0]
  obtain ⟨hiff, hfail⟩ := hd.addNew (shown_journalBegin g vol)
    hd.toLaidOut.pending_journalBegin (by decide) (hd.toLaidOut.freeInode rfl h0)
    (inUse_newInode fileType uid gid)
    (Dirent.named (vol.findFreeInode (vol.sb.totalInodes / 16 * 16) 0) fileType name)
  have hacc : Accepted vol dir name := ⟨by omega, by omega, by simpa using hfound, h0⟩
  generalize addEntry _ dir.inodeNum dir.inode _ = r at *
  cases hr : r.2.2 with
  | true =>
    rw [if_pos rfl]
    exact iff_of_true (fun h => absurd h (by simp)) fun _ => hiff.mp hr
  | false =>
    rw [if_neg (by decide)]
    refine iff_of_false (fun h => hfail hr (h rfl)) fun h => ?_
    rw [hiff.mpr (h hacc)] at hr
    cases hr

private theorem symlink_iff (hd : DirState g vol dir.inode) (target : List UInt8)
    (uid gid : UInt32) :
    SymlinkClean g vol dir name target uid gid ↔
      (Accepted vol dir name → target.length ≠ 0 → target.length ≤ 255 →
        ∀ a, nextFree g vol.blockBitmap = some a →
          HasRoom g vol (bitmapSet vol.blockBitmap a) dir.inode) := by
  have hg := hd.geometry
  have hself : Untouched g vol vol := .of_eq rfl rfl rfl
  unfold SymlinkClean opSymlink
  by_cases hname : name.length = 0 ∨ 255 < name.length ∨ target.length = 0 ∨ 255 < target.length
  · rw [if_pos hname]
    exact iff_of_true (fun _ => hself) fun ha ht ht' => by
      have := ha.ne
      have := ha.length
      omega
  rw [if_neg hname]
  by_cases hfound : (vol.findEntry dir.inode name).isSome
  · rw [if_pos hfound]
    exact iff_of_true (fun _ => hself) fun ha => by simp [ha.fresh] at hfound
  rw [if_neg hfound]
  dsimp only
  by_cases h0 : vol.findFreeInode (vol.sb.totalInodes / 16 * 16) 0 = 0
  · rw [if_pos h0]
    exact iff_of_true (fun _ => hself) fun ha => absurd h0 ha.inode
  rw [if_neg h0]
  have hacc : Accepted vol dir name := ⟨by omega, by omega, by simpa using hfound, h0⟩
  have hp := hd.toLaidOut.pending_journalBegin
  have hs := (shown_journalBegin g vol).allocBlock hp
  rcases hp.allocBlock with ⟨hnone, heq⟩ | ⟨a, ho, heq, hp1, -, -, -⟩
  · -- No block for the target: the transaction committed is empty.
    rw [heq, if_pos rfl]
    refine iff_of_true (fun _ => .of_eq ?_ ?_ ?_) fun _ _ _ a ha => ?_
    · simp [journalCommit, journalBegin]
    · simp [journalCommit, journalBegin]
    · simp [journalCommit, journalBegin]
    · exact absurd (ha.symm.trans hnone) (by simp)
  have hunused := (shown_journalBegin g vol).unused ho.old
  have hin := hg.inBody_of_inData ho.inData
  rw [heq, if_neg (ho.ne_zero hg)]
  generalize (zeroBlock.patch 0 target.length fun k => target.getD k 0) = buf
  have hs2 := hs.metaWriteBlock hp1 (by decide) hin
    (fun hu => by rw [hunused] at hu; exact absurd hu.2 (by decide)) buf
  obtain ⟨hp2, -⟩ := hp1.metaWriteBlock (by decide) hin buf
  obtain ⟨-, -, -, hbm, -⟩ := vol.journalBegin.allocBlock.1.metaWriteBlock_spec a buf
  obtain ⟨hiff, hfail⟩ := hd.addNew hs2 hp2 (by decide) (hd.toLaidOut.freeInode rfl h0)
    (inUse_linkInode target a uid gid)
    (Dirent.named (vol.findFreeInode (vol.sb.totalInodes / 16 * 16) 0) 2 name)
  rw [hbm, ho.bitmap] at hiff
  generalize addEntry _ dir.inodeNum dir.inode _ = r at *
  cases hr : r.2.2 with
  | true =>
    refine iff_of_true (fun h => absurd h (by decide)) fun _ _ _ a' ha' => ?_
    obtain rfl := Option.some.inj (ho.next.symm.trans ha')
    exact hiff.mp hr
  | false =>
    refine iff_of_false (fun h => hfail hr (h rfl)) fun h => ?_
    rw [hiff.mpr (h hacc (by omega) (by omega) a ho.next)] at hr
    cases hr

/-- A failed creation leaves everything as it was exactly if, whenever its checks are passed, the
directory has room for the entry; for a symlink, once the block for the target is taken. -/
theorem failed_creation_iff (dir : Node) (hd : DirState g vol dir.inode) (name : List UInt8)
    (uid gid : UInt32) :
    (∀ fileType, CreateClean g vol dir name fileType uid gid ↔
      (Accepted vol dir name → HasRoom g vol vol.blockBitmap dir.inode)) ∧
    ∀ target, SymlinkClean g vol dir name target uid gid ↔
      (Accepted vol dir name → target.length ≠ 0 → target.length ≤ 255 →
        ∀ a, nextFree g vol.blockBitmap = some a →
          HasRoom g vol (bitmapSet vol.blockBitmap a) dir.inode) :=
  ⟨fun fileType => create_iff hd fileType uid gid, fun target => symlink_iff hd target uid gid⟩

theorem Consistent.dirState (h : Consistent g vol) (hc : Current g vol.disk dir) :
    DirState g vol dir.inode := by
  have hm := h.rest.mid
  have hview := view_of_idle h.rest.idle
  refine ⟨hm.laidOut, h.rest.idle, fun s hs => ?_⟩
  have hsite : ref depth dir.inode.root (fun t j => ptrAt (vol.disk t) j) s =
      siteRef (diskRoots g vol.disk) vol.view ((dir.inodeNum, s.1), s.2) := by
    rw [hview]
    exact (siteRef_eq_refAt (fun r => (hc.agrees.root r).symm) vol.disk s.1 s.2).symm
  rw [hsite] at hs ⊢
  exact hm.owned.ok hs

end

def oneFile : Fs := run sampleFs [.create 0 [102] 0 0 0]

/-- The root node of `oneFile`. -/
def oneFileRoot : Node := oneFile.nodes.getD 0 freshRoot

/-- Creating a name that is taken, and one that fits. -/
theorem oneFile_clean : (oneFile.vol.opCreate oneFileRoot [102] 0 0 0).2.2.isNone = true ∧
    CreateClean sampleSuperblock oneFile.vol oneFileRoot [102] 0 0 0 ∧
    SymlinkClean sampleSuperblock oneFile.vol oneFileRoot [108] [102] 0 0 := by
  have hcur : Current sampleSuperblock oneFile.vol.disk oneFileRoot := by decide +kernel
  have hmeets : MeetsAll sampleSuperblock sampleFs [.create 0 [102] 0 0 0] :=
    ⟨sampleCreate_meets, trivial⟩
  have hd : DirState sampleSuperblock oneFile.vol oneFileRoot.inode :=
    (sampleFs_start.consistent.run hmeets).consistent.dirState hcur
  have htaken : (oneFile.vol.findEntry oneFileRoot.inode [102]).isSome = true := by decide +kernel
  have hroom : oneFile.vol.findRoom oneFileRoot.inode maxDirBlocks 0 =
      .block (oneFile.vol.blockOf oneFileRoot.inode 0) := by decide +kernel
  refine ⟨by decide +kernel, ((failed_creation_iff oneFileRoot hd [102] 0 0).1 0).mpr fun ha => ?_,
    ((failed_creation_iff oneFileRoot hd [108] 0 0).2 [102]).mpr fun _ _ _ a _ => ?_⟩
  · exact absurd ha.fresh (Option.isSome_iff_ne_none.mp htaken)
  · exact .inl ⟨_, hroom⟩

/-- A volume of 292 blocks has one data block; the root directory takes it for the entry of a
subdirectory. -/
def tightDisk : ℕ → Block := (format (fun _ => zeroBlock) 292).get (by decide)
def tightMount : Volume × Node := (mount tightDisk true 0).get (by decide +kernel)
def tightFs : Fs := run ⟨tightMount.1, [tightMount.2]⟩ [.create 0 [100] 1 0 0]
def tightDir : Node := tightFs.nodes.getD 1 freshRoot

/-- A creation in the subdirectory fails, and its inode stays in use. -/
theorem tightFs_create_leaks : (tightFs.vol.opCreate tightDir [102] 0 0 0).2.2.isNone = true ∧
    (tightFs.vol.readInode 2).mode = 0 ∧
    ((tightFs.vol.opCreate tightDir [102] 0 0 0).1.readInode 2).mode = 0o644 ∧
    ¬ CreateClean tightMount.1.sb tightFs.vol tightDir [102] 0 0 0 := by
  refine ⟨by decide +kernel, by decide +kernel, by decide +kernel, fun hclean => ?_⟩
  have hun := hclean (Option.isNone_iff_eq_none.mp (by decide +kernel))
  exact absurd (congrArg (fun table => (table 2).mode) hun.table) (by decide +kernel)

end Exploidus.Exfs
