import Exploidus.Exfs.Scan

/-! What the directory operations do to the device: which entries they put and clear, which
inodes they change, and that the device is sound at every stop. -/
namespace Exploidus.Exfs
open Refs Function

/-- Entry `k` of logical block `fb` of directory `n` on a device. -/
def entry (g : Superblock) (d : ℕ → Block) (n fb k : ℕ) : Dirent := slotAt d (inodeTable g d n) fb k

variable {i : Inode}

theorem blockAt_congr_root {j : Inode} (h : ∀ r, i.root r = j.root r) (d : ℕ → Block) :
    blockAt d i = blockAt d j := by
  funext fb
  unfold blockAt
  rw [funext h]

theorem slotAt_congr_root {j : Inode} (h : ∀ r, i.root r = j.root r) (d : ℕ → Block) :
    slotAt d i = slotAt d j := by
  funext fb k
  unfold slotAt
  rw [blockAt_congr_root h]

theorem compact_congr_root {j : Inode} (h : ∀ r, i.root r = j.root r) (d : ℕ → Block) :
    Compact d i ↔ Compact d j := by
  unfold Compact
  rw [blockAt_congr_root h]

theorem slotAt_congr {d d' : ℕ → Block} {i' : Inode} {fb : ℕ}
    (hb : blockAt d' i' fb = blockAt d i fb)
    (hd : blockAt d i fb ≠ 0 → d' (blockAt d i fb) = d (blockAt d i fb)) (k : ℕ) :
    slotAt d' i' fb k = slotAt d i fb k := by
  unfold slotAt
  rw [hb]
  split_ifs with h
  · rw [hd h.1]
  · rfl

section
variable {g : Superblock} {R : ℕ × Root → ℕ} {vol vol' : Volume} {n : ℕ} {i : Inode}

variable {fb k f : ℕ} {d d' : ℕ → Block} {ok : ℕ → Prop}

theorem blockAt_eq_siteRef (d : ℕ → Block) (hfb : fb < maxDirBlocks) :
    blockAt d (inodeTable g d n) fb = siteRef (diskRoots g d) d ((n, rootOf fb), pathOf fb) :=
  (siteRef_eq_blockAt (fun _ => rfl) d hfb).symm

theorem lt_of_blockAt (h : blockAt d i fb ≠ 0) : fb < maxDirBlocks := by
  by_contra hge
  exact h (if_neg hge)

theorem blockAt_congr_sites {R : ℕ × Root → ℕ} (hR : ∀ r, R (n, r) = i.root r)
    (h : ∀ s : Site, s.1.1 = n → siteRef R d s ≠ 0 → d' (siteRef R d s) = d (siteRef R d s))
    (fb : ℕ) : blockAt d' i fb = blockAt d i fb := by
  by_cases hfb : fb < maxDirBlocks
  · rw [← siteRef_eq_blockAt hR d hfb, ← siteRef_eq_blockAt hR d' hfb]
    exact siteRef_congr_at rfl (fun p h0 => h _ rfl h0) _
  · exact (if_neg hfb).trans (if_neg hfb).symm

theorem blockAt_congr_inode (ht : inodeTable g d' n = inodeTable g d n)
    (hb : ∀ s : Site, s.1.1 = n → siteRef (diskRoots g d) d s ≠ 0 → d' (siteRef (diskRoots g d) d
      s) = d (siteRef (diskRoots g d) d s)) :
    blockAt d' (inodeTable g d' n) = blockAt d (inodeTable g d n) := by
  rw [ht]
  funext fb
  exact blockAt_congr_sites (R := diskRoots g d) (fun _ => rfl) hb fb

theorem entry_congr_inode (ht : inodeTable g d' n = inodeTable g d n)
    (hb : ∀ s : Site, s.1.1 = n → siteRef (diskRoots g d) d s ≠ 0 → d' (siteRef (diskRoots g d) d
      s) = d (siteRef (diskRoots g d) d s)) (fb k : ℕ) :
    entry g d' n fb k = entry g d n fb k := by
  refine slotAt_congr (congrFun (blockAt_congr_inode ht hb) fb) (fun h0 => ?_) k
  have hfb := lt_of_blockAt h0
  rw [blockAt_eq_siteRef _ hfb] at h0 ⊢
  exact hb _ rfl h0

theorem Step.blockAt_eq {S : Set ℕ} (h : Step g S vol vol') {m : ℕ} (hm : m ∉ S) :
    blockAt vol'.disk (inodeTable g vol'.disk m) = blockAt vol.disk (inodeTable g vol.disk m) :=
  blockAt_congr_inode (h.table m hm) fun s hs h0 => h.blocks s (hs ▸ hm) h0

theorem Step.entry_eq {S : Set ℕ} (h : Step g S vol vol') {m : ℕ} (hm : m ∉ S) (fb k : ℕ) :
    entry g vol'.disk m fb k = entry g vol.disk m fb k :=
  entry_congr_inode (h.table m hm) (fun s hs h0 => h.blocks s (hs ▸ hm) h0) fb k

theorem Mid.metaWriteLeaf (hm : Mid g R vol)
    (hroom : vol.jtxnActive → vol.jtxn.length < 16) {s : Site}
    (h0 : siteRef R vol.view s ≠ 0) (hleaf : s.2.length = s.1.2.depth) (buf : Block) :
    MetaWritten g R vol (siteRef R vol.view s) buf
      (vol.metaWriteBlock (siteRef R vol.view s) buf) := by
  have hin := (hm.owned.ok h0).1
  refine hm.metaWriteBlock hroom (hm.geometry.inBody_of_inData hin) buf ?_ fun hidle x => ?_
  · rw [siteRef_update_leaf hm.owned h0 hleaf]
    exact hm.owned
  · rw [diskRoots_update_data hm.geometry _ hin]
    exact hm.below hidle x

theorem Mid.rest (hm : Mid g R vol) (hidle : vol.jtxnActive = false) : Rest g vol := by
  refine ⟨hidle, hm.geometry, hm.sb, hm.staging, hm.reserved, hm.flushed, ?_, hm.safe,
    fun _ _ => .inr rfl⟩
  have howned := hm.owned
  rw [Volume.view_of_idle hidle] at howned ⊢
  exact howned.sub (ref_sub (hm.below hidle))

structure Put (g : Superblock) (d d' : ℕ → Block) (n fb k : ℕ) (e : Dirent) : Prop where
  entries : ∀ fb' k', entry g d' n fb' k' = if fb' = fb ∧ k' = k then e else entry g d n fb' k'
  mapped : ∀ f, blockAt d (inodeTable g d n) f ≠ 0 →
    blockAt d' (inodeTable g d' n) f = blockAt d (inodeTable g d n) f
  compact : Compact d (inodeTable g d n) → Compact d' (inodeTable g d' n)

structure Added (g : Superblock) (n : ℕ) (din : Inode) (e : Dirent) (vol : Volume)
    (res : Volume × Inode × Bool) : Prop where
  rest : Rest g res.1
  runs : Runs g vol res.1
  table : ∀ m, m ≠ n → inodeTable g res.1.disk m = inodeTable g vol.view m
  blocks : ∀ b, InData g b → bitmapGet vol.blockBitmap b = true →
    (∀ s : Site, s.1.1 = n → siteRef (diskRoots g vol.view) vol.view s ≠ b) →
      res.1.disk b = vol.view b
  info : res.2.1 = { din with
    direct := res.2.1.direct
    indirect := res.2.1.indirect
    doubleIndirect := res.2.1.doubleIndirect }
  failed : res.2.2 = false → inodeTable g res.1.disk n = inodeTable g vol.view n ∧
    (∀ fb k, entry g res.1.disk n fb k = entry g vol.view n fb k) ∧
    (Compact vol.view (inodeTable g vol.view n) → Compact res.1.disk (inodeTable g res.1.disk n))
  added : res.2.2 = true → Agrees res.2.1 (inodeTable g res.1.disk n) ∧
    ∃ fb k, (entry g vol.view n fb k).live = false ∧ Put g vol.view res.1.disk n fb k e

theorem put_of_block {blk : ℕ} {e : Dirent} (hblk : blk ≠ 0) (hk : k < 15)
    (hsame : blockAt d (inodeTable g d n) fb ≠ 0 → blk = blockAt d (inodeTable g d n) fb)
    (hb : ∀ f, blockAt d' (inodeTable g d' n) f = if f = fb then blk else blockAt d (inodeTable g d
      n) f) (hnew : ∀ j < 15, direntAt (d' blk) j = if j = k then e else entry g d n fb j)
    (hold : ∀ f ≠ fb, blockAt d (inodeTable g d n) f ≠ 0 → d' (blockAt d (inodeTable g d n) f)
      = d (blockAt d (inodeTable g d n) f))
    (hbelow : ∀ f < fb, blockAt d (inodeTable g d n) fb ≠ 0 ∨ blockAt d (inodeTable g d n) f ≠
      0) :
    Put g d d' n fb k e := by
  constructor
  · intro f j
    by_cases hf : f = fb
    · subst hf
      have hb' := hb f
      rw [if_pos rfl] at hb'
      by_cases hj : j < 15
      · rw [entry, slotAt_of_block (by rw [hb']; exact hblk) hj, hb', hnew j hj]
        simp
      · have hjk : ¬ (f = f ∧ j = k) := by omega
        rw [if_neg hjk, entry, entry, slotAt, slotAt, if_neg (by tauto), if_neg (by tauto)]
    · rw [if_neg (by tauto)]
      exact slotAt_congr (by rw [hb, if_neg hf]) (hold f hf) j
  · intro f hf
    rw [hb]
    split_ifs with hff
    · rw [hff] at hf ⊢
      exact hsame hf
    · rfl
  · intro hc f hf
    rw [hb] at hf ⊢
    by_cases hff : f = fb
    · rwa [if_pos hff]
    rw [if_neg hff]
    by_cases hff' : f + 1 = fb
    · rcases hbelow f (by omega) with h | h
      · exact hc f (by rw [hff']; exact h)
      · exact h
    · rw [if_neg hff'] at hf
      exact hc f hf

theorem blockAt_inj (ho : Owned (siteRef R d) ok) (hR : ∀ r, R (n, r) = i.root r) {f' : ℕ}
    (h0 : blockAt d i f ≠ 0) (h : blockAt d i f = blockAt d i f') : f = f' := by
  have hf := lt_of_blockAt h0
  have hf' := lt_of_blockAt (h ▸ h0)
  rw [← siteRef_eq_blockAt hR d hf, ← siteRef_eq_blockAt hR d hf'] at h
  rw [← siteRef_eq_blockAt hR d hf] at h0
  have hs := ho.unique h0 h
  simp only [Prod.mk.injEq, true_and] at hs
  exact pathOf_inj hs.1 hs.2

structure Finished (g : Superblock) (R : ℕ × Root → ℕ) (vol : Volume) (V : ℕ → Block)
    (vol' : Volume) : Prop where
  mid : Mid g R vol'
  runs : Runs g vol vol'
  idle : vol'.jtxnActive = false
  bitmap : vol'.blockBitmap = vol.blockBitmap
  disk : ∀ b, InBody g b → vol'.disk b = V b

theorem Mid.finish (hm : Mid g R vol) (hact : vol.jtxnActive)
    (htable : ∀ x, diskRoots g vol.view x = 0 ∨ diskRoots g vol.view x = R x) :
    Finished g R vol vol.view vol.journalCommit := by
  have hc := hm.journalCommit hact htable
  exact ⟨hc.mid, hc.runs, hc.idle, hc.bitmap, fun b hb => hc.disk b (.inl hb.2)⟩

theorem Mid.finishLeaf (hm : Mid g R vol) (hact : vol.jtxnActive)
    (htable : ∀ x, diskRoots g vol.view x = 0 ∨ diskRoots g vol.view x = R x)
    (hroom : vol.jtxn.length < 16) {s : Site}
    (h0 : siteRef R vol.view s ≠ 0) (hleaf : s.2.length = s.1.2.depth) (buf : Block) :
    Finished g R vol (update vol.view (siteRef R vol.view s) buf)
      (vol.metaWriteBlock (siteRef R vol.view s) buf).journalCommit := by
  have hw := hm.metaWriteLeaf (fun _ => hroom) h0 hleaf buf
  have hin := (hm.owned.ok h0).1
  have hc := hw.mid.journalCommit (hw.active.trans hact) fun x => by
    rw [hw.view, diskRoots_update_data hm.geometry _ hin]
    exact htable x
  refine ⟨hc.mid, hw.runs.trans hc.runs, hc.idle, hc.bitmap.trans hw.bitmap, fun b hb => ?_⟩
  rw [hc.disk b (.inl hb.2), hw.view]

theorem blockAt_congr_body (hg : Geometry g)
    (ho : Owned (siteRef (diskRoots g d) d) fun b => InData g b ∧ ok b)
    (h : ∀ b, InBody g b → d' b = d b) (m : ℕ) :
    blockAt d' (inodeTable g d' m) = blockAt d (inodeTable g d m) :=
  blockAt_congr_inode (congrFun (inodeTable_congr hg h) m)
    fun _ _ h0 => h _ (hg.inBody_of_inData (ho.ok h0).1)

theorem blockAt_inData (ho : Owned (siteRef R d) fun b => InData g b ∧ ok b)
    (hR : ∀ r, R (n, r) = i.root r) (h0 : blockAt d i f ≠ 0) :
    InData g (blockAt d i f) ∧ ok (blockAt d i f) := by
  have hf := lt_of_blockAt h0
  rw [← siteRef_eq_blockAt hR d hf] at h0 ⊢
  exact ho.ok h0

theorem entry_congr_body (hg : Geometry g)
    (ho : Owned (siteRef (diskRoots g d) d) fun b => InData g b ∧ ok b)
    (h : ∀ b, InBody g b → d' b = d b) (m f k : ℕ) : entry g d' m f k = entry g d m f k :=
  entry_congr_inode (congrFun (inodeTable_congr hg h) m)
    (fun _ _ h0 => h _ (hg.inBody_of_inData (ho.ok h0).1)) f k

theorem blockAt_update_leaf (ho : Owned (siteRef R d) ok) (hR : ∀ r, R (n, r) = i.root r) {s : Site}
    (h0 : siteRef R d s ≠ 0) (hleaf : s.2.length = s.1.2.depth) (buf : Block) (f : ℕ) :
    blockAt (update d (siteRef R d s) buf) i f = blockAt d i f := by
  by_cases hf : f < maxDirBlocks
  · rw [← siteRef_eq_blockAt hR _ hf, ← siteRef_eq_blockAt hR _ hf, siteRef_update_leaf ho h0 hleaf]
  · exact (if_neg hf).trans (if_neg hf).symm

theorem put_setDirent (hg : Geometry g)
    (ho : Owned (siteRef (diskRoots g d) d) fun b => InData g b ∧ ok b)
    (h0 : blockAt d (inodeTable g d n) fb ≠ 0) (hk : k < 15) (e : Dirent) :
    Put g d (update d (blockAt d (inodeTable g d n) fb)
      (setDirent (d (blockAt d (inodeTable g d n) fb)) k e)) n fb k e := by
  have hin := (blockAt_inData ho (fun _ => rfl) h0).1
  have hmap : ∀ buf f, blockAt (update d (blockAt d (inodeTable g d n) fb) buf)
      (inodeTable g d n) f = blockAt d (inodeTable g d n) f := by
    intro buf f
    have hfb := lt_of_blockAt h0
    rw [blockAt_eq_siteRef d hfb] at h0 ⊢
    exact blockAt_update_leaf ho (fun _ => rfl) h0 (length_pathOf fb) buf f
  refine put_of_block h0 hk (fun _ => rfl) (fun f => ?_) (fun j hj => ?_) (fun f hf hf0 => ?_)
    fun f hf => .inl h0
  · rw [inodeTable_update_data hg _ hin, hmap]
    split_ifs with hf
    · rw [hf]
    · rfl
  · rw [update_self]
    split_ifs with hjk
    · rw [hjk, direntAt_setDirent_self _ _ hk]
    · rw [direntAt_setDirent_ne _ _ hjk, entry, slotAt_of_block h0 hj]
  · exact update_of_ne (fun he => hf (blockAt_inj ho (fun _ => rfl) hf0 he)) _ _

theorem Put.congr_body {u : ℕ → Block} {e : Dirent} (hp : Put g d u n fb k e) (hg : Geometry g)
    (ho : Owned (siteRef (diskRoots g u) u) fun b => InData g b ∧ ok b)
    (h : ∀ b, InBody g b → d' b = u b) : Put g d d' n fb k e := by
  constructor
  · intro f j
    rw [entry_congr_body hg ho h, hp.entries]
  · intro f hf
    rw [blockAt_congr_body hg ho h]
    exact hp.mapped f hf
  · intro hc f
    rw [blockAt_congr_body hg ho h]
    exact hp.compact hc f

structure Ready (g : Superblock) (n : ℕ) (din : Inode) (R : ℕ × Root → ℕ) (vol : Volume) :
    Prop where
  mid : Mid g R vol
  active : vol.jtxnActive = true
  length : vol.jtxn.length ≤ 2
  roots : diskRoots g vol.view = R
  bound : n < 4096
  agrees : Agrees din (inodeTable g vol.view n)
  unstaged : ∀ s : Site, s.1.1 = n → siteRef R vol.view s ≠ 0 →
    vol.disk (siteRef R vol.view s) = vol.view (siteRef R vol.view s)

variable {din : Inode} {e : Dirent}

section
variable (h : Ready g n din R vol)
include h

theorem Ready.root (r : Root) : R (n, r) = din.root r := by
  rw [h.agrees.root, ← h.roots]
  rfl

theorem Ready.blockAt_disk (f : ℕ) : blockAt vol.disk din f = blockAt vol.view din f :=
  blockAt_congr_sites h.root h.unstaged f

theorem Ready.blockAt_view (f : ℕ) :
    blockAt vol.view din f = blockAt vol.view (inodeTable g vol.view n) f :=
  congrFun (blockAt_congr_root h.agrees.root _) f

theorem Ready.owned : Owned (siteRef (diskRoots g vol.view) vol.view)
      fun b => InData g b ∧ bitmapGet vol.blockBitmap b := by
  rw [h.roots]
  exact h.mid.owned

theorem Ready.added_full : Added g n din e vol (vol.journalCommit, din, false) := by
  have hf := h.mid.finish h.active fun x => .inr (by rw [h.roots])
  have hg := h.mid.geometry
  have htable := inodeTable_congr hg hf.disk
  refine ⟨hf.mid.rest hf.idle, hf.runs, fun m _ => by rw [htable],
    fun b hb _ _ => hf.disk b (hg.inBody_of_inData hb), rfl, fun _ => ⟨by rw [htable], ?_, ?_⟩,
    fun h => absurd h (by simp)⟩
  · exact entry_congr_body hg h.owned hf.disk n
  intro hc f
  rw [blockAt_congr_body hg h.owned hf.disk n]
  exact hc f

end

theorem Finished.owned {V : ℕ → Block} (hf : Finished g R vol V vol')
    (hV : diskRoots g V = R) :
    Owned (siteRef (diskRoots g V) V)
      fun b => InData g b ∧ bitmapGet vol'.blockBitmap b := by
  have hg := hf.mid.geometry
  have howned := hf.mid.owned
  rw [Volume.view_of_idle hf.idle] at howned
  rwa [hV, siteRef_congr_inData howned fun b hb => (hf.disk b (hg.inBody_of_inData hb)).symm]

structure PutBlock (g : Superblock) (n f k : ℕ) (e : Dirent) (vol vol' : Volume) : Prop where
  rest : Rest g vol'
  runs : Runs g vol vol'
  bitmap : vol'.blockBitmap = vol.blockBitmap
  table : inodeTable g vol'.disk = inodeTable g vol.view
  data : ∀ b, InData g b → b ≠ blockAt vol.view (inodeTable g vol.view n) f →
    vol'.disk b = vol.view b
  put : Put g vol.view vol'.disk n f k e

theorem Ready.putBlock (h : Ready g n din R vol)
    (h0 : blockAt vol.view (inodeTable g vol.view n) f ≠ 0) (hk : k < 15) (e : Dirent) :
    PutBlock g n f k e vol ((vol.metaWriteBlock (blockAt vol.view (inodeTable g vol.view n) f)
      (setDirent (vol.view (blockAt vol.view (inodeTable g vol.view n) f)) k e)).journalCommit) := by
  have hg := h.mid.geometry
  have hsite := blockAt_eq_siteRef (n := n) (g := g) vol.view (lt_of_blockAt h0)
  rw [h.roots] at hsite
  have hf := h.mid.finishLeaf h.active (fun x => .inr (by rw [h.roots]))
    (by have := h.length; omega) (hsite ▸ h0) (length_pathOf f)
    (setDirent (vol.view (blockAt vol.view (inodeTable g vol.view n) f)) k e)
  rw [← hsite] at hf
  generalize (vol.metaWriteBlock _ _).journalCommit = vc at hf ⊢
  have hin := (blockAt_inData h.owned (fun _ => rfl) h0).1
  have hput := put_setDirent hg h.owned h0 hk e
  refine ⟨hf.mid.rest hf.idle, hf.runs, hf.bitmap,
    (inodeTable_congr hg hf.disk).trans (inodeTable_update_data hg _ hin _), fun b hb hne => ?_,
    hput.congr_body hg (hf.owned ?_) hf.disk⟩
  · rw [hf.disk b (hg.inBody_of_inData hb), update_of_ne hne]
  rw [diskRoots_update_data hg _ hin]
  exact h.roots

theorem Ready.added_block (h : Ready g n din R vol) (h0 : blockAt vol.disk din f ≠ 0)
    (hk : findSlot (fun e => !e.live) (vol.view (blockAt vol.disk din f)) 15 0 = some k) :
    Added g n din e vol ((vol.metaWriteBlock (blockAt vol.disk din f)
      (setDirent (vol.view (blockAt vol.disk din f)) k e)).journalCommit, din, true) := by
  rw [h.blockAt_disk, h.blockAt_view] at h0 hk ⊢
  obtain ⟨-, hk15, hfree⟩ := findSlot_some hk
  have hp := h.putBlock h0 (by omega : k < 15) e
  generalize (vol.metaWriteBlock _ _).journalCommit = vc at hp ⊢
  refine ⟨hp.rest, hp.runs, fun m _ => by rw [hp.table], fun b hb _ hs => hp.data b hb ?_, rfl,
    fun h => absurd h (by simp), fun _ => ⟨?_, f, k, ?_, hp.put⟩⟩
  · rintro rfl
    exact hs ((n, rootOf f), pathOf f) rfl (blockAt_eq_siteRef vol.view (lt_of_blockAt h0)).symm
  · rw [hp.table]
    exact h.agrees
  · rw [entry, slotAt_of_block h0 (by omega)]
    simpa using hfree

theorem blockAt_congr_root_at {j : Inode} (h : i.root (rootOf f) = j.root (rootOf f))
    (d : ℕ → Block) : blockAt d i f = blockAt d j f := by
  by_cases hf : f < maxDirBlocks
  · rw [blockAt, blockAt, if_pos hf, if_pos hf]
    exact ref_of_root_eq h (pathOf f)
  · exact (if_neg hf).trans (if_neg hf).symm

theorem blockAt_of_root_eq_zero (h : i.root (rootOf f) = 0) (d : ℕ → Block) :
    blockAt d i f = 0 := by
  by_cases hf : f < maxDirBlocks
  · rw [blockAt, if_pos hf]
    exact ref_of_root_eq_zero h (pathOf f)
  · exact if_neg hf

section Resolved
variable {fb : ℕ} {res : Volume × Inode × ℕ × Bool}

section
variable (hres : Resolved g R n vol i fb res)
include hres

theorem Resolved.other {f : ℕ} (hf : f ≠ fb) :
    blockAt res.1.view res.2.1 f = blockAt vol.view i f := by
  by_cases hmax : f < maxDirBlocks
  · rw [← siteRef_eq_blockAt (withInode_self R n i) _ hmax,
      ← siteRef_eq_blockAt (withInode_self R n res.2.1) _ hmax]
    rcases hres.grew.added ((n, rootOf f), pathOf f) with he | ⟨hr, hp, -, -⟩
    · exact he
    have hroot : rootOf f = rootOf fb := (Prod.mk.inj hr).2
    refine absurd (pathOf_inj hroot (hp.eq_of_length ?_)) hf
    rw [length_pathOf, length_pathOf, hroot]
  · exact (if_neg hmax).trans (if_neg hmax).symm

theorem Resolved.root (r : Root) : i.root r = 0 ∨ i.root r = res.2.1.root r := by
  rcases hres.grew.added ((n, r), []) with he | ⟨-, -, h0, -⟩
  · rw [siteRef_nil, siteRef_nil, withInode_self, withInode_self] at he
    exact .inr he.symm
  · rw [siteRef_nil, withInode_self] at h0
    exact .inl h0

/-- A resolution keeps the used blocks outside inode `n`. -/
theorem Resolved.foreign {b : ℕ} (hb : InBody g b) (hused : bitmapGet vol.blockBitmap b)
    (hs : ∀ s : Site, s.1.1 = n → siteRef (withInode R n i) vol.view s ≠ b) :
    res.1.view b = vol.view b :=
  hres.grew.view b hb hused fun _ _ _ => hs _ rfl

theorem Resolved.table (hm : Mid g (withInode R n i) vol) :
    inodeTable g res.1.view = inodeTable g vol.view := by
  have hg := hm.geometry
  have hds := hg.dataStartBlock
  have hit := hg.inodeTableBlock
  funext m
  unfold inodeTable
  split_ifs with hmn
  · rw [hres.foreign (hg.inBody_table hmn) (hm.reserved _ (.inl (by omega))) fun s _ he => ?_]
    have := (hm.owned.ok (he.trans_ne (by omega))).1.1
    omega
  · rfl

theorem Resolved.data (hm : Mid g (withInode R n i) vol) {f : ℕ} (h0 : blockAt vol.view i f ≠ 0) :
    res.1.view (blockAt vol.view i f) = vol.view (blockAt vol.view i f) := by
  have hmax := lt_of_blockAt h0
  obtain ⟨hin, hused⟩ := blockAt_inData hm.owned (withInode_self R n i) h0
  refine hres.grew.view _ (hm.geometry.inBody_of_inData hin) hused fun p _ hlt he => ?_
  have hsite := siteRef_eq_blockAt (withInode_self R n i) vol.view hmax
  have hs := hm.owned.unique (he.trans_ne h0) (he.trans hsite.symm)
  obtain ⟨hr, hp⟩ := Prod.mk.inj hs
  have hlen := length_pathOf f
  rw [← hp, ← (Prod.mk.inj hr).2] at hlen
  exact absurd hlt (not_lt.mpr hlen.ge)

end

end Resolved

theorem Ready.withInode_eq (h : Ready g n din R vol) : withInode R n din = R := by
  funext x
  unfold withInode
  split_ifs with hx
  · rw [← h.root, ← hx]
  · rfl

section Hole
variable {fb : ℕ} {r : Volume × Inode × ℕ × Bool}

section
variable (h : Ready g n din R vol)
include h

theorem Ready.mid_self : Mid g (withInode R n din) vol := by
  rw [h.withInode_eq]
  exact h.mid

theorem Ready.resolved (hr : r = vol.resolveBlock din fb true)
    (hclean : needsTable vol.disk din fb → CleanFree g vol.disk 2 vol.blockBitmap) :
    Resolved g R n vol din fb r := by
  rw [hr]
  refine h.mid_self.resolveBlock (fun _ => by have := h.length; omega) (fun p _ h0 => ?_)
    fun _ => hclean
  rw [h.withInode_eq] at h0 ⊢
  exact h.unstaged _ rfl h0

section
variable (hres : Resolved g R n vol din fb r)
include hres

theorem Ready.below
    (x : ℕ × Root) : R x = 0 ∨ R x = withInode R n r.2.1 x := by
  obtain ⟨m, rt⟩ := x
  by_cases hm : m = n
  · subst hm
    rw [h.root, withInode_self]
    exact hres.root rt
  · exact .inr (withInode_of_ne R _ _ hm).symm

theorem Ready.roots_resolved : diskRoots g r.1.view = R := by
  rw [← h.roots]
  unfold diskRoots
  rw [hres.table h.mid_self]

theorem Ready.added_none
    (hhole : blockAt vol.view din fb = 0) (h0 : r.2.2.1 = 0) :
    Added g n din e vol (r.1.journalCommit, r.2.1, false) := by
  have hg := h.mid.geometry
  have hf := hres.grew.mid.finish (hres.grew.active.trans h.active) fun x => by
    rw [h.roots_resolved hres]
    exact h.below hres x
  have hrest := hf.mid.rest hf.idle
  have htable := (inodeTable_congr hg hf.disk).trans (hres.table h.mid_self)
  have hmap : ∀ f, blockAt r.1.journalCommit.disk (inodeTable g r.1.journalCommit.disk n) f =
      blockAt vol.view (inodeTable g vol.view n) f := by
    intro f
    have howned := hrest.mid.owned
    rw [Volume.view_of_idle hrest.idle] at howned
    rw [← blockAt_congr_body hg howned (fun b hb => (hf.disk b hb).symm) n,
      hres.table h.mid_self, ← h.blockAt_view, ← congrFun (blockAt_congr_root h.agrees.root _) f]
    rcases hres.root (rootOf f) with hz | he
    · rw [blockAt_of_root_eq_zero hz, blockAt_of_root_eq_zero hz]
    rw [blockAt_congr_root_at he]
    by_cases hfb : f = fb
    · rw [hfb, hres.block, h0, hhole]
    · exact hres.other hfb
  refine ⟨hrest, hres.grew.runs.trans hf.runs, fun m _ => by rw [htable], fun b hb hused hs => ?_,
    hres.info, fun _ => ⟨by rw [htable], fun f k => slotAt_congr (hmap f) (fun hf0 => ?_) k,
      fun hc f => ?_⟩, fun hh => absurd hh (by simp)⟩
  · rw [hf.disk b (hg.inBody_of_inData hb)]
    refine hres.foreign (hg.inBody_of_inData hb) hused ?_
    rwa [h.withInode_eq, ← h.roots]
  · rw [hf.disk _ (hg.inBody_of_inData (blockAt_inData h.owned (fun _ => rfl) hf0).1)]
    rw [← h.blockAt_view] at hf0 ⊢
    exact hres.data h.mid_self hf0
  · rw [hmap, hmap]
    exact hc f

end

end

structure Grown (g : Superblock) (n : ℕ) (R : ℕ × Root → ℕ) (vol : Volume)
    (r : Volume × Inode × ℕ × Bool) (vol' : Volume) : Prop where
  mid : Mid g (withInode R n r.2.1) vol'
  runs : Runs g vol vol'
  active : vol'.jtxnActive = true
  length : vol'.jtxn.length ≤ vol.jtxn.length + 5
  table : ∀ m, m ≠ n → inodeTable g vol'.view m = inodeTable g vol.view m
  agrees : Agrees r.2.1 (inodeTable g vol'.view n)
  view : ∀ b, InData g b → vol'.view b = r.1.view b
  disk : ∀ b, InBody g b → vol'.disk b = vol.disk b

theorem Ready.grown (h : Ready g n din R vol) (hres : Resolved g R n vol din fb r) :
    Grown g n R vol r (if r.2.2.2 then r.1.writeInode n r.2.1 else r.1) := by
  have hg := h.mid.geometry
  have hact := hres.grew.active.trans h.active
  have hlen := hres.grew.length
  have htable := hres.table h.mid_self
  cases hd : r.2.2.2 with
  | false =>
    have hsame := hres.clean hd
    refine ⟨hres.grew.mid, hres.grew.runs, hact, by simp only [Bool.false_eq_true, if_false]; omega,
      fun m _ => congrFun htable m, ?_, fun _ _ => rfl, hres.grew.disk h.active⟩
    rw [hsame]
    simp only [Bool.false_eq_true, if_false]
    rw [htable]
    exact h.agrees
  | true =>
    have hw : MetaWritten g (withInode R n r.2.1) r.1 _ _ (r.1.writeInode n r.2.1) :=
      hres.grew.mid.writeInode (fun _ => by have := h.length; omega) h.bound r.2.1
        hres.grew.mid.owned (fun hidle => absurd (hact ▸ hidle) (by decide))
    have hview := hw.view
    have ht : inodeTable g (r.1.writeInode n r.2.1).view =
        update (inodeTable g vol.view) n r.2.1 := by
      rw [hview, inodeTable_setInode g _ h.bound, htable]
    simp only [if_true]
    refine ⟨hw.mid, hres.grew.runs.trans hw.runs, hw.active.trans hact,
      by have := hw.length; omega, fun m hm => ?_, ?_, fun b hb => ?_,
      by rw [hw.disk hact]; exact hres.grew.disk h.active⟩
    · rw [ht, update_of_ne hm]
    · rw [ht, update_self]
      exact Agrees.refl _
    rw [hview, update_of_ne]
    have := hb.1
    have := hg.dataStartBlock
    have := h.bound
    omega

theorem Grown.roots (hw : Grown g n R vol r vol') (hR : diskRoots g vol.view = R) :
    diskRoots g vol'.view = withInode R n r.2.1 := by
  funext x
  unfold withInode diskRoots
  split_ifs with hx
  · rw [hx, hw.agrees.root]
  rw [hw.table _ hx, ← hR]
  rfl

theorem Grown.blockAt_eq (hw : Grown g n R vol r vol') (hres : Resolved g R n vol din fb r)
    (f : ℕ) : blockAt vol'.view r.2.1 f = blockAt r.1.view r.2.1 f :=
  blockAt_congr_sites (withInode_self R n r.2.1)
    (fun _ _ h0 => hw.view _ (hres.grew.mid.owned.ok h0).1) f

theorem Grown.site (hw : Grown g n R vol r vol') (hres : Resolved g R n vol din fb r)
    (h0 : r.2.2.1 ≠ 0) :
    siteRef (withInode R n r.2.1) vol'.view ((n, rootOf fb), pathOf fb) = r.2.2.1 := by
  have hfb : blockAt vol'.view r.2.1 fb = r.2.2.1 := (hw.blockAt_eq hres fb).trans hres.block
  rw [siteRef_eq_blockAt (withInode_self R n r.2.1) _ (lt_of_blockAt (hfb.trans_ne h0)), hfb]

theorem Resolved.new_free (hres : Resolved g R n vol din fb r)
    (hhole : blockAt vol.view din fb = 0) (h0 : r.2.2.1 ≠ 0) :
    bitmapGet vol.blockBitmap r.2.2.1 = false := by
  have hmax : fb < maxDirBlocks := lt_of_blockAt (hres.block.trans_ne h0)
  have hnew := (siteRef_eq_blockAt (withInode_self R n r.2.1) r.1.view hmax).trans hres.block
  rcases hres.grew.added ((n, rootOf fb), pathOf fb) with he | ⟨-, -, -, hfree⟩
  · rw [hnew, siteRef_eq_blockAt (withInode_self R n din) _ hmax, hhole] at he
    exact absurd he h0
  · rwa [hnew] at hfree

theorem Ready.put_hole (h : Ready g n din R vol) (hres : Resolved g R n vol din fb r)
    (hw : Grown g n R vol r vol') (hhole : blockAt vol.view din fb = 0)
    (hbelow : ∀ f < fb, blockAt vol.view din f ≠ 0) (h0 : r.2.2.1 ≠ 0) (e : Dirent) :
    Put g vol.view (update vol'.view r.2.2.1 (setDirent zeroBlock 0 e)) n fb 0 e := by
  have hg := h.mid.geometry
  have hself := withInode_self R n r.2.1
  have hsite := hw.site hres h0
  have hin : InData g r.2.2.1 := by
    rw [← hsite]
    exact (hw.mid.owned.ok (hsite.trans_ne h0)).1
  have hmap : ∀ f ≠ fb, blockAt vol'.view r.2.1 f = blockAt vol.view (inodeTable g vol.view n) f :=
    fun f hff => by rw [hw.blockAt_eq hres, hres.other hff, h.blockAt_view]
  have hfb : blockAt vol'.view r.2.1 fb = r.2.2.1 := (hw.blockAt_eq hres fb).trans hres.block
  refine put_of_block h0 (by omega) (fun hf0 => ?_) (fun f => ?_) (fun j hj => ?_)
    (fun f hff hf0 => ?_) fun f hff => .inr (by rw [← h.blockAt_view]; exact hbelow f hff)
  · rw [← h.blockAt_view] at hf0
    exact absurd hhole hf0
  · have hleaf := blockAt_update_leaf hw.mid.owned hself (hsite.trans_ne h0) (length_pathOf fb)
      (setDirent zeroBlock 0 e) f
    rw [hsite] at hleaf
    rw [inodeTable_update_data hg _ hin, ← blockAt_congr_root hw.agrees.root, hleaf]
    split_ifs with hff
    · rw [hff, hfb]
    · exact hmap f hff
  · rw [update_self]
    split_ifs with hj0
    · rw [hj0, direntAt_setDirent_self _ _ (by omega)]
    rw [direntAt_setDirent_ne _ _ hj0, direntAt_zeroBlock, entry, slotAt_unmapped]
    rwa [← h.blockAt_view]
  · have hne : blockAt vol.view (inodeTable g vol.view n) f ≠ r.2.2.1 := by
      rw [← hmap f hff, ← hfb]
      intro he
      exact hff (blockAt_inj hw.mid.owned hself (by rw [hmap f hff]; exact hf0) he)
    rw [update_of_ne hne, hw.view _ (blockAt_inData h.owned (fun _ => rfl) hf0).1]
    rw [← h.blockAt_view] at hf0 ⊢
    exact hres.data h.mid_self hf0

theorem Ready.added_hole (h : Ready g n din R vol) (hres : Resolved g R n vol din fb r)
    (hw : Grown g n R vol r vol') (hhole : blockAt vol.view din fb = 0)
    (hbelow : ∀ f < fb, blockAt vol.view din f ≠ 0) (h0 : r.2.2.1 ≠ 0) :
    Added g n din e vol ((vol'.metaWriteBlock r.2.2.1 (setDirent zeroBlock 0 e)).journalCommit,
      r.2.1, true) := by
  have hg := h.mid.geometry
  have hroots := hw.roots h.roots
  have hsite := hw.site hres h0
  have hf := hw.mid.finishLeaf hw.active (fun x => .inr (by rw [hroots]))
    (by have := h.length; have := hw.length; omega) (hsite.trans_ne h0) (length_pathOf fb)
    (setDirent zeroBlock 0 e)
  rw [hsite] at hf
  generalize (vol'.metaWriteBlock _ _).journalCommit = vc at hf ⊢
  have hin : InData g r.2.2.1 := by
    rw [← hsite]
    exact (hw.mid.owned.ok (hsite.trans_ne h0)).1
  have htable := (inodeTable_congr hg hf.disk).trans (inodeTable_update_data hg vol'.view hin _)
  have hput := h.put_hole hres hw hhole hbelow h0 e
  refine ⟨hf.mid.rest hf.idle, hw.runs.trans hf.runs, fun m hm => ?_, fun b hb hused hs => ?_,
    hres.info, fun hh => absurd hh (by simp), fun _ => ⟨?_, fb, 0, ?_, hput.congr_body hg
      (hf.owned ?_) hf.disk⟩⟩
  · rw [htable, hw.table m hm]
  · have hne : b ≠ r.2.2.1 := by
      rintro rfl
      exact absurd (hused.symm.trans (hres.new_free hhole h0)) (by decide)
    rw [hf.disk b (hg.inBody_of_inData hb), update_of_ne hne, hw.view b hb]
    refine hres.foreign (hg.inBody_of_inData hb) hused ?_
    rwa [h.withInode_eq, ← h.roots]
  · rw [htable]
    exact hw.agrees
  · rw [entry, slotAt_unmapped, Dirent.live_blank]
    rwa [← h.blockAt_view]
  · rwa [diskRoots_update_data hg _ hin]

end Hole

theorem Ready.addEntry (h : Ready g n din R vol)
    (hclean : ∀ fb, FullDir vol.view din fb → needsTable vol.disk din fb →
      CleanFree g vol.disk 2 vol.blockBitmap) (e : Dirent) :
    Added g n din e vol (vol.addEntry n din e) := by
  unfold Volume.addEntry
  have hroom := @Volume.findRoom_spec vol din maxDirBlocks 0 fun f hf => absurd hf (by omega)
  cases hfind : vol.findRoom din maxDirBlocks 0 with
  | full => exact h.added_full
  | block blk =>
    rw [hfind] at hroom
    obtain ⟨f, k, rfl, h0, hk⟩ := hroom
    have hput : vol.putEntry (blockAt vol.disk din f)
        (vol.txnReadBlock (blockAt vol.disk din f)) e = ((vol.metaWriteBlock
          (blockAt vol.disk din f) (setDirent (vol.view (blockAt vol.disk din f)) k
            e)).journalCommit, true) := by
      unfold Volume.putEntry
      rw [(hk : findSlot _ (vol.txnReadBlock _) 15 0 = some k)]
    dsimp only
    rw [hput]
    exact h.added_block h0 hk
  | hole fb =>
    rw [hfind] at hroom
    obtain ⟨hhole, hlow⟩ := hroom
    rw [h.blockAt_disk] at hhole
    have hbelow : ∀ f < fb, blockAt vol.view din f ≠ 0 := fun f hf => by
      rw [← h.blockAt_disk]
      exact (hlow f hf).1
    have hfull : FullDir vol.view din fb := by
      refine ⟨hhole, fun f hf => ⟨hbelow f hf, fun k hk => ?_⟩⟩
      have hslot := findSlot_none (hlow f hf).2 (Nat.zero_le k) (by omega)
      rw [h.blockAt_disk] at hslot
      rw [slotAt_of_block (hbelow f hf) hk]
      simpa using hslot
    dsimp only
    generalize hr : vol.resolveBlock din fb true = r
    have hres := h.resolved hr.symm (hclean fb hfull)
    by_cases h0 : r.2.2.1 = 0
    · rw [if_pos h0]
      exact h.added_none hres hhole h0
    have hput : ∀ v : Volume, v.putEntry r.2.2.1 zeroBlock e =
        ((v.metaWriteBlock r.2.2.1 (setDirent zeroBlock 0 e)).journalCommit, true) := by
      intro v
      unfold Volume.putEntry
      rw [findSlot, direntAt_zeroBlock]
      rfl
    rw [if_neg h0, hput]
    exact h.added_hole hres (h.grown hres) hhole hbelow h0

structure NewEntry (g : Superblock) (vol : Volume) (n : ℕ) (din : Inode) (ino : ℕ) (i : Inode)
    (e : Dirent) (res : Volume × Inode × Bool) : Prop where
  step : Step g {n, ino} vol res.1
  inode : inodeTable g res.1.disk ino = i
  info : res.2.1 = { din with
    direct := res.2.1.direct
    indirect := res.2.1.indirect
    doubleIndirect := res.2.1.doubleIndirect }
  failed : res.2.2 = false → inodeTable g res.1.disk n = inodeTable g vol.disk n ∧
    (∀ fb k, entry g res.1.disk n fb k = entry g vol.disk n fb k) ∧
    (Compact vol.disk (inodeTable g vol.disk n) → Compact res.1.disk (inodeTable g res.1.disk n))
  added : res.2.2 = true → Agrees res.2.1 (inodeTable g res.1.disk n) ∧
    ∃ fb k, (entry g vol.disk n fb k).live = false ∧ Put g vol.disk res.1.disk n fb k e

structure Begun (g : Superblock) (n ino : ℕ) (i : Inode) (vol vol' : Volume) : Prop where
  runs : Runs g vol vol'
  mid : Mid g (diskRoots g vol'.view) vol'
  active : vol'.jtxnActive = true
  length : vol'.jtxn.length ≤ 2
  mono : ∀ b, bitmapGet vol.blockBitmap b = true → bitmapGet vol'.blockBitmap b = true
  disk : ∀ b, InBody g b → vol'.disk b = vol.disk b
  data : ∀ b, InData g b → bitmapGet vol.blockBitmap b = true → vol'.view b = vol.disk b
  table : inodeTable g vol'.view = update (inodeTable g vol.disk) ino i
  ne : n ≠ ino

section Begun
variable {ino : ℕ} {res : Volume × Inode × Bool}

section
variable (hb : Begun g n ino i vol vol')
include hb

theorem Begun.block (hr : Rest g vol) {s : Site}
    (h0 : siteRef (diskRoots g vol.disk) vol.disk s ≠ 0) :
    vol'.view (siteRef (diskRoots g vol.disk) vol.disk s) =
      vol.disk (siteRef (diskRoots g vol.disk) vol.disk s) :=
  hb.data _ (hr.mid.safe.sound.ok h0).1 (hr.mid.disk_bit h0)

theorem Begun.sites (hr : Rest g vol) {s : Site}
    (hs : s.1.1 ≠ ino) : siteRef (diskRoots g vol'.view) vol'.view s =
      siteRef (diskRoots g vol.disk) vol.disk s := by
  obtain ⟨r, p⟩ := s
  refine siteRef_congr_at ?_ (fun p h0 => hb.block hr h0) p
  unfold diskRoots
  rw [hb.table, update_of_ne hs]

theorem Begun.table_self : inodeTable g vol'.view n = inodeTable g vol.disk n := by
  rw [hb.table, update_of_ne hb.ne]

theorem Begun.blockAt_eq (hr : Rest g vol) (f : ℕ) :
    blockAt vol'.view (inodeTable g vol'.view n) f = blockAt vol.disk (inodeTable g vol.disk n) f :=
  congrFun (blockAt_congr_inode hb.table_self fun _ _ h0 => hb.block hr h0) f

theorem Begun.entry_eq (hr : Rest g vol) (f k : ℕ) :
    entry g vol'.view n f k = entry g vol.disk n f k :=
  entry_congr_inode hb.table_self (fun _ _ h0 => hb.block hr h0) f k

/-- The transaction is ready for an entry in directory `n`. -/
theorem Begun.ready (hr : Rest g vol) (hn : n < 4096)
    (hdin : Agrees din (inodeTable g vol.disk n)) : Ready g n din (diskRoots g vol'.view) vol' := by
  refine ⟨hb.mid, hb.active, hb.length, rfl, hn, ?_, fun s hs h0 => ?_⟩
  · rwa [hb.table, update_of_ne hb.ne]
  have hne : s.1.1 ≠ ino := hs ▸ hb.ne
  rw [hb.sites hr hne] at h0 ⊢
  rw [hb.block hr h0, hb.disk _ (hr.mid.geometry.inBody_of_inData (hr.mid.safe.sound.ok h0).1)]

end

theorem Put.of_begun {d' : ℕ → Block} {f k : ℕ} (hp : Put g vol'.view d' n f k e)
    (hb : Begun g n ino i vol vol') (hr : Rest g vol) : Put g vol.disk d' n f k e := by
  constructor
  · intro f' k'
    rw [hp.entries, hb.entry_eq hr]
  · intro f' hf
    rw [← hb.blockAt_eq hr] at hf ⊢
    exact hp.mapped f' hf
  intro hc
  refine hp.compact fun f' => ?_
  rw [hb.blockAt_eq hr, hb.blockAt_eq hr]
  exact hc f'

theorem Added.newEntry (ha : Added g n din e vol' res) (hb : Begun g n ino i vol vol')
    (hr : Rest g vol) : NewEntry g vol n din ino i e res := by
  have htable : ∀ m ≠ n, inodeTable g res.1.disk m =
      update (inodeTable g vol.disk) ino i m := fun m hm => by
    rw [ha.table m hm, hb.table]
  have hcompact : Compact vol'.view (inodeTable g vol'.view n) ↔
      Compact vol.disk (inodeTable g vol.disk n) := by
    unfold Compact
    simp only [hb.blockAt_eq hr]
  refine ⟨⟨ha.rest, hb.runs.trans ha.runs, fun m hm => ?_, fun s hs h0 => ?_⟩, ?_, ha.info,
    fun hf => ?_, fun ht => ?_⟩
  · simp only [Set.mem_insert_iff, Set.mem_singleton_iff, not_or] at hm
    rw [htable m hm.1, update_of_ne hm.2]
  · simp only [Set.mem_insert_iff, Set.mem_singleton_iff, not_or] at hs
    rw [ha.blocks _ (hr.mid.safe.sound.ok h0).1 (hb.mono _ (hr.mid.disk_bit h0)), hb.block hr h0]
    intro s' hs' he
    rw [hb.sites hr (hs' ▸ hb.ne)] at he
    rw [hr.mid.safe.sound.unique (he.trans_ne h0) he] at hs'
    exact hs.1 hs'
  · rw [htable ino (Ne.symm hb.ne), update_self]
  · obtain ⟨htn, hentry, hc⟩ := ha.failed hf
    refine ⟨?_, fun f k => (hentry f k).trans (hb.entry_eq hr f k), fun h => hc (hcompact.mpr h)⟩
    rw [htn, hb.table, update_of_ne hb.ne]
  · obtain ⟨hagree, f, k, hfree, hput⟩ := ha.added ht
    refine ⟨hagree, f, k, by rw [← hb.entry_eq hr]; exact hfree, hput.of_begun hb hr⟩

end Begun

end

end Exploidus.Exfs
