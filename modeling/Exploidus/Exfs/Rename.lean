import Exploidus.Exfs.DirOps

/-! What rename does: one entry is cleared and another one put in a single transaction, after a
replaced file has been removed. -/
namespace Exploidus.Exfs
open Refs Function Dirent Volume

structure SetEntry (g : Superblock) (d d' : ℕ → Block) (n fb k : ℕ) (e : Dirent) : Prop where
  entries : ∀ m f j, entry g d' m f j = if m = n ∧ f = fb ∧ j = k then e else entry g d m f j
  compact : ∀ m, Compact d (inodeTable g d m) → Compact d' (inodeTable g d' m)

section
variable {g : Superblock} {R : ℕ × Root → ℕ} {vol vol' : Volume} {n fb k : ℕ} {e : Dirent}
  {d d' : ℕ → Block} {ok : ℕ → Prop}

theorem Put.setEntry (hp : Put g d d' n fb k e)
    (ht : ∀ m ≠ n, inodeTable g d' m = inodeTable g d m)
    (hb : ∀ s : Site, s.1.1 ≠ n → siteRef (diskRoots g d) d s ≠ 0 →
      d' (siteRef (diskRoots g d) d s) = d (siteRef (diskRoots g d) d s)) :
    SetEntry g d d' n fb k e := by
  constructor
  · intro m f j
    by_cases hm : m = n
    · subst hm
      rw [hp.entries]
      simp
    · rw [if_neg (by tauto)]
      exact entry_congr_inode (ht m hm) (fun s hs h0 => hb s (hs ▸ hm) h0) f j
  · intro m hc
    by_cases hm : m = n
    · subst hm
      exact hp.compact hc
    intro f
    rw [blockAt_congr_inode (ht m hm) fun s hs h0 => hb s (hs ▸ hm) h0]
    exact hc f

theorem setEntry_update (hg : Geometry g)
    (ho : Owned (siteRef (diskRoots g d) d) fun b => InData g b ∧ ok b)
    (h0 : blockAt d (inodeTable g d n) fb ≠ 0) (hk : k < 15) (e : Dirent)
    (hd : d' = update d (blockAt d (inodeTable g d n) fb)
      (setDirent (d (blockAt d (inodeTable g d n) fb)) k e)) :
    SetEntry g d d' n fb k e ∧ siteRef (diskRoots g d') d' = siteRef (diskRoots g d) d := by
  have hin := (blockAt_inData ho (fun _ => rfl) h0).1
  have hsite := blockAt_eq_siteRef (n := n) (g := g) d (lt_of_blockAt h0)
  subst hd
  constructor
  · refine (put_setDirent hg ho h0 hk e).setEntry
      (fun m _ => congrFun (inodeTable_update_data hg d hin _) m) fun s hs hs0 => ?_
    refine update_of_ne (fun he => hs ?_) _ _
    rw [hsite] at he
    exact congrArg (fun s : Site => s.1.1) (ho.unique hs0 he)
  · rw [diskRoots_update_data hg d hin]
    rw [hsite] at h0 ⊢
    exact siteRef_update_leaf ho h0 (length_pathOf fb) _

theorem blockAt_of_siteRef (h : siteRef (diskRoots g d') d' = siteRef (diskRoots g d) d)
    (m f : ℕ) : blockAt d' (inodeTable g d' m) f = blockAt d (inodeTable g d m) f := by
  by_cases hf : f < maxDirBlocks
  · rw [blockAt_eq_siteRef _ hf, blockAt_eq_siteRef _ hf, h]
  · exact (if_neg hf).trans (if_neg hf).symm

theorem SetEntry.congr_body {u : ℕ → Block} (hs : SetEntry g d u n fb k e) (hg : Geometry g)
    (ho : Owned (siteRef (diskRoots g u) u) fun b => InData g b ∧ ok b)
    (h : ∀ b, InBody g b → d' b = u b) : SetEntry g d d' n fb k e := by
  constructor
  · intro m f j
    rw [entry_congr_body hg ho h, hs.entries]
  intro m hc f
  rw [blockAt_congr_body hg ho h]
  exact hs.compact m hc f

structure Moved (g : Superblock) (d d' : ℕ → Block) (src dst : ℕ × ℕ × ℕ) (e : Dirent) :
    Prop where
  entries : ∀ m f j, entry g d' m f j =
    if (m, f, j) = dst then e else if (m, f, j) = src then blank else entry g d m f j
  compact : ∀ m, Compact d (inodeTable g d m) → Compact d' (inodeTable g d' m)

theorem SetEntry.moved {u : ℕ → Block} {n0 f0 k0 : ℕ}
    (h1 : SetEntry g d u n0 f0 k0 blank) (h2 : SetEntry g u d' n fb k e) :
    Moved g d d' (n0, f0, k0) (n, fb, k) e := by
  refine ⟨fun m f j => ?_, fun m hc => h2.compact m (h1.compact m hc)⟩
  rw [h2.entries, h1.entries]
  simp only [Prod.mk.injEq]

theorem SetEntry.moved_symm {u : ℕ → Block} {n0 f0 k0 : ℕ} (h1 : SetEntry g d u n fb k e)
    (h2 : SetEntry g u d' n0 f0 k0 blank) (hne : (n0, f0, k0) ≠ (n, fb, k)) :
    Moved g d d' (n0, f0, k0) (n, fb, k) e := by
  refine ⟨fun m f j => ?_, fun m hc => h2.compact m (h1.compact m hc)⟩
  rw [h2.entries, h1.entries]
  by_cases hdst : (m, f, j) = (n, fb, k)
  · rw [if_pos hdst, if_neg, if_pos (by simpa using hdst)]
    intro hsrc
    exact hne (by rw [← hdst]; simp [hsrc])
  · rw [if_neg hdst, if_neg (by simpa using hdst : ¬ (m = n ∧ f = fb ∧ j = k))]
    simp only [Prod.mk.injEq]

theorem Mid.moveEntry (hm : Mid g R vol) (hact : vol.jtxnActive)
    (hlen : vol.jtxn.length + 2 ≤ 16) {s0 s : Site} (h₀ : siteRef R vol.view s0 ≠ 0)
    (hleaf0 : s0.2.length = s0.1.2.depth) (h0 : siteRef R vol.view s ≠ 0)
    (hleaf : s.2.length = s.1.2.depth)
    (hread : vol.disk (siteRef R vol.view s0) = vol.view (siteRef R vol.view s0)) (k0 k : ℕ)
    (buf : Block) (e : Dirent) (hvol : vol' =
      vol.moveEntry (siteRef R vol.view s0, k0) (siteRef R vol.view s, k) buf e) :
    Mid g R vol' ∧ Runs g vol vol' ∧ vol'.jtxnActive ∧
      vol'.blockBitmap = vol.blockBitmap ∧ vol'.view = update
        (update vol.view (siteRef R vol.view s0)
          (setDirent (vol.view (siteRef R vol.view s0)) k0 blank))
        (siteRef R vol.view s) (setDirent (if siteRef R vol.view s = siteRef R vol.view s0 then
          setDirent buf k0 blank else buf) k e) := by
  unfold Volume.moveEntry at hvol
  dsimp only at hvol
  by_cases hsame : siteRef R vol.view s = siteRef R vol.view s0
  · rw [if_pos hsame] at hvol ⊢
    have hw := hm.metaWriteLeaf (fun _ => by omega) h0 hleaf
      (setDirent (setDirent buf k0 blank) k e)
    rw [← hvol] at hw
    refine ⟨hw.mid, hw.runs, hw.active.trans hact, hw.bitmap, ?_⟩
    rw [hw.view, hsame, update_idem]
  rw [if_neg hsame] at hvol ⊢
  have hread' : vol.readBlock (siteRef R vol.view s0) = vol.view (siteRef R vol.view s0) := hread
  rw [hread'] at hvol
  have hw1 := hm.metaWriteLeaf (fun _ => by omega) h₀ hleaf0
    (setDirent (vol.view (siteRef R vol.view s0)) k0 blank)
  have hsites : siteRef R (vol.metaWriteBlock (siteRef R vol.view s0)
      (setDirent (vol.view (siteRef R vol.view s0)) k0 blank)).view = siteRef R vol.view := by
    rw [hw1.view]
    exact siteRef_update_leaf hm.owned h₀ hleaf0 _
  generalize vol.metaWriteBlock _ _ = v1 at hvol hw1 hsites
  have hw2 := hw1.mid.metaWriteLeaf (fun _ => by have := hw1.length; omega)
    (by rw [hsites]; exact h0) hleaf (setDirent buf k e)
  rw [hsites, ← hvol] at hw2
  refine ⟨hw2.mid, hw1.runs.trans hw2.runs, hw2.active.trans (hw1.active.trans hact),
    hw2.bitmap.trans hw1.bitmap, ?_⟩
  rw [hw2.view, hw1.view]

theorem Rest.ready_begin (hr : Rest g vol) {dir : Node} (hc : Current g vol.disk dir) :
    Ready g dir.inodeNum dir.inode (diskRoots g vol.disk) vol.journalBegin := by
  obtain ⟨hm, -, hview⟩ := hr.mid.journalBegin hr.idle
  refine ⟨hm, rfl, by simp [journalBegin], by rw [hview], hc.bound, ?_, fun s _ _ => ?_⟩
  · rw [hview]
    exact hc.agrees
  · rw [hview]
    rfl

structure Renamed (g : Superblock) (vol : Volume) (n0 f0 k0 : ℕ) (newDir : Node) (e : Dirent)
    (res : Volume × Node × ℤ) : Prop where
  step : Step g {n0, newDir.inodeNum} vol res.1
  same : res.2.1 = { newDir with inode := res.2.1.inode }
  info : res.2.1.inode = { newDir.inode with
    direct := res.2.1.inode.direct
    indirect := res.2.1.inode.indirect
    doubleIndirect := res.2.1.inode.doubleIndirect }
  failed : res.2.2 ≠ 0 → inodeTable g res.1.disk = inodeTable g vol.disk ∧
    (∀ m f k, entry g res.1.disk m f k = entry g vol.disk m f k) ∧
    ∀ m, Compact vol.disk (inodeTable g vol.disk m) → Compact res.1.disk (inodeTable g res.1.disk m)
  done : res.2.2 = 0 → (∀ m, m ≠ newDir.inodeNum →
      inodeTable g res.1.disk m = inodeTable g vol.disk m) ∧
    Agrees res.2.1.inode (inodeTable g res.1.disk newDir.inodeNum) ∧
    ∃ f k, (entry g vol.disk newDir.inodeNum f k).live = false ∧
      Moved g vol.disk res.1.disk (n0, f0, k0) (newDir.inodeNum, f, k) e

section RenameInto
variable {newDir : Node} {n0 f0 k0 : ℕ}

theorem Rest.renamed_refl (hr : Rest g vol) {c : ℤ} (hc : c ≠ 0) :
    Renamed g vol n0 f0 k0 newDir e (vol, newDir, c) :=
  ⟨Step.refl hr, rfl, rfl, fun _ => ⟨rfl, fun _ _ _ => rfl, fun _ h => h⟩, fun h => absurd h hc⟩

theorem Added.renamed {res : Volume × Inode × Bool} {c : ℤ} (hr : Rest g vol) (hc : c ≠ 0)
    (ha : Added g newDir.inodeNum newDir.inode e vol.journalBegin res) (hfail : res.2.2 = false) :
    Renamed g vol n0 f0 k0 newDir e (res.1, { newDir with inode := res.2.1 }, c) := by
  obtain ⟨hm, hruns, hview⟩ := hr.mid.journalBegin hr.idle
  obtain ⟨htn, hentry, hcompact⟩ := ha.failed hfail
  have htable := ha.table
  have hblocks := ha.blocks
  rw [hview] at htn hentry hcompact htable hblocks
  have hsame : ∀ s : Site, s.1.1 ≠ newDir.inodeNum → siteRef (diskRoots g vol.disk) vol.disk s ≠ 0 →
      res.1.disk (siteRef (diskRoots g vol.disk) vol.disk s) =
        vol.disk (siteRef (diskRoots g vol.disk) vol.disk s) := by
    intro s hs h0
    refine hblocks _ (hr.mid.safe.sound.ok h0).1 (hr.mid.disk_bit h0) fun s' hs' he => hs ?_
    rw [← hs', hr.mid.safe.sound.unique (he.trans_ne h0) he]
  refine ⟨⟨ha.rest, hruns.trans ha.runs, fun m hmem => htable m fun he => hmem (.inr he),
    fun s hs h0 => hsame s (fun he => hs (.inr he)) h0⟩, rfl, ha.info,
    fun _ => ⟨?_, fun m f k => ?_, fun m hcm => ?_⟩, fun h => absurd h hc⟩
  · funext m
    by_cases hmn : m = newDir.inodeNum
    · rw [hmn, htn]
    · exact htable m hmn
  · by_cases hmn : m = newDir.inodeNum
    · rw [hmn]
      exact hentry f k
    · exact entry_congr_inode (htable m hmn) (fun s hs h0 => hsame s (hs ▸ hmn) h0) f k
  by_cases hmn : m = newDir.inodeNum
  · rw [hmn] at hcm ⊢
    exact hcompact hcm
  intro f
  rw [blockAt_congr_inode (htable m hmn) fun s hs h0 => hsame s (hs ▸ hmn) h0]
  exact hcm f

theorem Rest.renamed_block (hr : Rest g vol) (hc : Current g vol.disk newDir)
    (hsrc : blockAt vol.disk (inodeTable g vol.disk n0) f0 ≠ 0) (hk0 : k0 < 15) {f k : ℕ}
    (hdst : blockAt vol.disk (inodeTable g vol.disk newDir.inodeNum) f ≠ 0) (hk : k < 15)
    (hfree : (entry g vol.disk newDir.inodeNum f k).live = false) (e : Dirent) :
    Renamed g vol n0 f0 k0 newDir e
      ((vol.journalBegin.moveEntry (blockAt vol.disk (inodeTable g vol.disk n0) f0, k0)
        (blockAt vol.disk (inodeTable g vol.disk newDir.inodeNum) f, k)
        (vol.disk (blockAt vol.disk (inodeTable g vol.disk newDir.inodeNum) f)) e).journalCommit,
      newDir, 0) := by
  have hg := hr.mid.geometry
  have hsound := hr.mid.safe.sound
  obtain ⟨hm, hruns, hview⟩ := hr.mid.journalBegin hr.idle
  have howned := hm.owned
  rw [hview] at howned
  have hs0 := blockAt_eq_siteRef (n := n0) (g := g) vol.disk (lt_of_blockAt hsrc)
  have hs := blockAt_eq_siteRef (n := newDir.inodeNum) (g := g) vol.disk (lt_of_blockAt hdst)
  have hsrcsite : siteRef (diskRoots g vol.disk) vol.journalBegin.view
      ((n0, rootOf f0), pathOf f0) ≠ 0 := by
    rwa [hview, ← hs0]
  have hdstsite : siteRef (diskRoots g vol.disk) vol.journalBegin.view
      ((newDir.inodeNum, rootOf f), pathOf f) ≠ 0 := by
    rwa [hview, ← hs]
  have hmove := hm.moveEntry rfl (by simp [journalBegin]) hsrcsite (length_pathOf f0)
    hdstsite (length_pathOf f) (by rw [hview]; rfl) k0 k
    (vol.disk (blockAt vol.disk (inodeTable g vol.disk newDir.inodeNum) f)) e rfl
  rw [hview, ← hs0, ← hs] at hmove
  have hinsrc := (blockAt_inData howned (fun _ => rfl) hsrc).1
  have hindst := (blockAt_inData howned (fun _ => rfl) hdst).1
  generalize hV : update vol.disk (blockAt vol.disk (inodeTable g vol.disk n0) f0) _ = V1
    at hmove
  obtain ⟨h1, hsites1⟩ := setEntry_update hg howned hsrc hk0 blank hV.symm
  have hmap := blockAt_of_siteRef hsites1
  -- the destination buffer is the block with the source slot already cleared
  have hbuf : (if blockAt vol.disk (inodeTable g vol.disk newDir.inodeNum) f =
      blockAt vol.disk (inodeTable g vol.disk n0) f0 then
        setDirent (vol.disk (blockAt vol.disk (inodeTable g vol.disk newDir.inodeNum) f)) k0
          blank
      else vol.disk (blockAt vol.disk (inodeTable g vol.disk newDir.inodeNum) f)) =
      V1 (blockAt vol.disk (inodeTable g vol.disk newDir.inodeNum) f) := by
    rw [← hV]
    split_ifs with he
    · rw [he, update_self]
    · rw [update_of_ne he]
  rw [hbuf] at hmove
  generalize vol.journalBegin.moveEntry _ _ _ _ = v at hmove ⊢
  obtain ⟨hmid, hrun, hact, -, hv⟩ := hmove
  rw [← hmap] at hdst hindst hv
  have howned1 := howned
  rw [← hsites1] at howned1
  obtain ⟨h2, hsites2⟩ := setEntry_update hg howned1 hdst hk e hv
  have howned2 := howned1
  rw [← hsites2] at howned2
  have htable : inodeTable g v.view = inodeTable g vol.disk := by
    rw [hv, inodeTable_update_data hg _ hindst, ← hV, inodeTable_update_data hg _ hinsrc]
  have hf := hmid.finish hact fun x => .inr (by unfold diskRoots; rw [htable])
  have htable' := (inodeTable_congr hg hf.disk).trans htable
  refine ⟨⟨hf.mid.rest hf.idle, (hruns.trans hrun).trans hf.runs, fun m _ => by rw [htable'],
    fun s hsite h0 => ?_⟩, rfl, rfl, fun h => absurd rfl h,
    fun _ => ⟨fun m _ => by rw [htable'], by rw [htable']; exact hc.agrees, f, k, hfree,
      h1.moved (h2.congr_body hg howned2 hf.disk)⟩⟩
  have hne : ∀ {m f : ℕ}, m ∈ ({n0, newDir.inodeNum} : Set ℕ) →
      siteRef (diskRoots g vol.disk) vol.disk s ≠
        siteRef (diskRoots g vol.disk) vol.disk ((m, rootOf f), pathOf f) := by
    intro m f hmem he
    rw [hsound.unique h0 he] at hsite
    exact hsite hmem
  rw [hf.disk _ (hg.inBody_of_inData (hsound.ok h0).1), hv, hmap, hs,
    update_of_ne (hne (.inr rfl)), ← hV, hs0, update_of_ne (hne (.inl rfl))]

section Hole
variable {fb : ℕ} {r : Volume × Inode × ℕ × Bool} {v : Volume}

theorem Rest.grown_leaf (hr : Rest g vol) (hc : Current g vol.disk newDir)
    (hres : Resolved g (diskRoots g vol.disk) newDir.inodeNum vol.journalBegin newDir.inode fb r)
    (hw : Grown g newDir.inodeNum (diskRoots g vol.disk) vol.journalBegin r v) {s : Site}
    (h0 : siteRef (diskRoots g vol.disk) vol.disk s ≠ 0) (hleaf : s.2.length = s.1.2.depth) :
    siteRef (withInode (diskRoots g vol.disk) newDir.inodeNum r.2.1) v.view s =
        siteRef (diskRoots g vol.disk) vol.disk s ∧
      v.view (siteRef (diskRoots g vol.disk) vol.disk s) =
        vol.disk (siteRef (diskRoots g vol.disk) vol.disk s) := by
  have hsound := hr.mid.safe.sound
  have hready := hr.ready_begin hc
  have hview := (hr.mid.journalBegin hr.idle).2.2
  have hgrew := hres.grew
  rw [hready.withInode_eq] at hgrew
  have hadded := hgrew.added s
  have hkept := hgrew.view
  rw [hview] at hadded hkept
  constructor
  · rw [siteRef_congr_inData hgrew.mid.owned hw.view]
    rcases hadded with he | ⟨-, -, hz, -⟩
    · exact he
    · exact absurd hz h0
  obtain ⟨hin, -⟩ := hsound.ok h0
  rw [hw.view _ hin, hkept _ (hr.mid.geometry.inBody_of_inData hin) (hr.mid.disk_bit h0)]
  intro p _ hlt he
  have hs := hsound.unique (he.trans_ne h0) he
  subst hs
  exact absurd hlt (not_lt.mpr hleaf.ge)

theorem Rest.grown_new (hr : Rest g vol)
    (hres : Resolved g (diskRoots g vol.disk) newDir.inodeNum vol.journalBegin newDir.inode fb r)
    (hw : Grown g newDir.inodeNum (diskRoots g vol.disk) vol.journalBegin r v)
    (hhole : blockAt vol.disk newDir.inode fb = 0) (h0 : r.2.2.1 ≠ 0) :
    InData g r.2.2.1 ∧ ∀ s, siteRef (diskRoots g vol.disk) vol.disk s ≠ 0 →
      siteRef (diskRoots g vol.disk) vol.disk s ≠ r.2.2.1 := by
  have hview := (hr.mid.journalBegin hr.idle).2.2
  have hsite := hw.site hres h0
  have hnew := hres.new_free (by rw [hview]; exact hhole) h0
  constructor
  · rw [← hsite]
    exact (hw.mid.owned.ok (hsite.trans_ne h0)).1
  intro s hs he
  have hused := hr.mid.disk_bit hs
  rw [he] at hused
  exact absurd (hused.symm.trans hnew) (by decide)

structure GrownPut (g : Superblock) (vol v : Volume) (n fb : ℕ) (e : Dirent) (U : ℕ → Block) :
    Prop where
  set : SetEntry g vol.disk U n fb 0 e
  sites : siteRef (diskRoots g U) U = siteRef (diskRoots g v.view) v.view
  table : inodeTable g U = inodeTable g v.view
  other : ∀ s : Site, s.1.1 ≠ n → siteRef (diskRoots g vol.disk) vol.disk s ≠ 0 →
    U (siteRef (diskRoots g vol.disk) vol.disk s) =
      vol.disk (siteRef (diskRoots g vol.disk) vol.disk s)

theorem Rest.grownPut (hr : Rest g vol) (hc : Current g vol.disk newDir)
    (hres : Resolved g (diskRoots g vol.disk) newDir.inodeNum vol.journalBegin newDir.inode fb r)
    (hw : Grown g newDir.inodeNum (diskRoots g vol.disk) vol.journalBegin r v)
    (hhole : blockAt vol.disk newDir.inode fb = 0)
    (hbelow : ∀ f < fb, blockAt vol.disk newDir.inode f ≠ 0) (h0 : r.2.2.1 ≠ 0) (e : Dirent)
    {U : ℕ → Block} (hU : U = update v.view r.2.2.1 (setDirent zeroBlock 0 e)) :
    GrownPut g vol v newDir.inodeNum fb e U := by
  have hg := hr.mid.geometry
  have hsound := hr.mid.safe.sound
  have hready := hr.ready_begin hc
  have hview := (hr.mid.journalBegin hr.idle).2.2
  have hsite := hw.site hres h0
  have hroots := hw.roots hready.roots
  obtain ⟨hindst, hne⟩ := hr.grown_new hres hw hhole h0
  have hput := hready.put_hole hres hw (by rw [hview]; exact hhole) (by rw [hview]; exact hbelow)
    h0 e
  rw [hview, ← hU] at hput
  have htable : inodeTable g U = inodeTable g v.view := by
    rw [hU, inodeTable_update_data hg _ hindst]
  have hother : ∀ s : Site, s.1.1 ≠ newDir.inodeNum →
      siteRef (diskRoots g vol.disk) vol.disk s ≠ 0 →
      U (siteRef (diskRoots g vol.disk) vol.disk s) =
        vol.disk (siteRef (diskRoots g vol.disk) vol.disk s) := by
    intro s hs hs0
    have hin := (hsound.ok hs0).1
    rw [hU, update_of_ne (hne s hs0), hw.view _ hin,
      hres.foreign (hg.inBody_of_inData hin) (hr.mid.disk_bit hs0), hview]
    intro s' hs' he
    rw [hready.withInode_eq, hview] at he
    rw [hsound.unique (he.trans_ne hs0) he] at hs'
    exact hs hs'
  refine ⟨hput.setEntry (fun m hmn => ?_) hother, ?_, htable, hother⟩
  · rw [htable, hw.table m hmn, hview]
  rw [hU, diskRoots_update_data hg _ hindst, hroots, ← hsite]
  exact siteRef_update_leaf hw.mid.owned (hsite.trans_ne h0) (length_pathOf fb) _

theorem Rest.renamed_hole (hr : Rest g vol) (hc : Current g vol.disk newDir)
    (hsrc : blockAt vol.disk (inodeTable g vol.disk n0) f0 ≠ 0) (hk0 : k0 < 15)
    (hres : Resolved g (diskRoots g vol.disk) newDir.inodeNum vol.journalBegin newDir.inode fb r)
    (hw : Grown g newDir.inodeNum (diskRoots g vol.disk) vol.journalBegin r v)
    (hhole : blockAt vol.disk newDir.inode fb = 0)
    (hbelow : ∀ f < fb, blockAt vol.disk newDir.inode f ≠ 0) (h0 : r.2.2.1 ≠ 0) (e : Dirent) :
    Renamed g vol n0 f0 k0 newDir e
      ((v.moveEntry (blockAt vol.disk (inodeTable g vol.disk n0) f0, k0) (r.2.2.1, 0) zeroBlock
        e).journalCommit, { newDir with inode := r.2.1 }, 0) := by
  have hg := hr.mid.geometry
  have hsound := hr.mid.safe.sound
  have hready := hr.ready_begin hc
  obtain ⟨hm, hruns, hview⟩ := hr.mid.journalBegin hr.idle
  have hs₀ := blockAt_eq_siteRef (n := n0) (g := g) vol.disk (lt_of_blockAt hsrc)
  rw [hs₀] at hsrc
  obtain ⟨hsrcsite, hsrcview⟩ := hr.grown_leaf hc hres hw hsrc (length_pathOf f0)
  have hinsrc := (hsound.ok hsrc).1
  have hsite := hw.site hres h0
  have hroots := hw.roots hready.roots
  have hsrcne := (hr.grown_new hres hw hhole h0).2 _ hsrc
  have hmove := hw.mid.moveEntry hw.active
    (by have := hw.length; have := hready.length; omega)
    (hsrcsite.trans_ne hsrc) (length_pathOf f0) (hsite.trans_ne h0) (length_pathOf fb)
    (by rw [hsrcsite, hsrcview, hw.disk _ (hg.inBody_of_inData hinsrc)]; rfl) k0 0 zeroBlock e rfl
  rw [hsrcsite, hsite, if_neg hsrcne.symm, ← hs₀] at hmove
  rw [← hs₀] at hsrc hinsrc hsrcne
  rw [update_comm hsrcne] at hmove
  generalize v.moveEntry _ _ _ _ = w at hmove ⊢
  obtain ⟨hmid, hrun, hact, -, hwview⟩ := hmove
  -- first the grown directory with its entry, then the source slot cleared
  generalize hU : update v.view r.2.2.1 (setDirent zeroBlock 0 e) = U at hwview
  have hput := hr.grownPut hc hres hw hhole hbelow h0 e hU.symm
  have hownedU := hw.mid.owned
  rw [← hroots, ← hput.sites] at hownedU
  have hmapU : blockAt U (inodeTable g U n0) f0 = blockAt vol.disk (inodeTable g vol.disk n0) f0 := by
    rw [blockAt_eq_siteRef U (lt_of_blockAt hsrc), hput.sites, hroots, hsrcsite, hs₀]
  have hUsrc : U (blockAt vol.disk (inodeTable g vol.disk n0) f0) =
      v.view (blockAt vol.disk (inodeTable g vol.disk n0) f0) := by
    rw [← hU, update_of_ne hsrcne]
  rw [← hUsrc, ← hmapU] at hwview
  rw [← hmapU] at hinsrc
  obtain ⟨h2, hsites2⟩ := setEntry_update hg hownedU (hmapU.trans_ne hsrc) hk0 blank hwview
  have howned2 := hownedU
  rw [← hsites2] at howned2
  have htable2 : inodeTable g w.view = inodeTable g v.view := by
    rw [hwview, inodeTable_update_data hg _ hinsrc, hput.table]
  have hf := hmid.finish hact fun x => .inr (by rw [← hroots]; unfold diskRoots; rw [htable2])
  have htable' := (inodeTable_congr hg hf.disk).trans htable2
  generalize w.journalCommit = vc at hf htable' ⊢
  refine ⟨⟨hf.mid.rest hf.idle, ((hruns.trans hw.runs).trans hrun).trans hf.runs, fun m hmem => ?_,
    fun s hs hs0 => ?_⟩, rfl, hres.info, fun h => absurd rfl h, fun _ => ⟨fun m hmn => ?_, ?_, fb, 0,
      ?_, hput.set.moved_symm (h2.congr_body hg howned2 hf.disk) fun he => ?_⟩⟩
  · rw [htable', hw.table m fun he => hmem (.inr he), hview]
  · have hin := (hsound.ok hs0).1
    rw [hf.disk _ (hg.inBody_of_inData hin), hwview, hmapU, hs₀, update_of_ne,
      hput.other s (fun he => hs (.inr he)) hs0]
    intro he
    rw [hsound.unique hs0 he] at hs
    exact hs (.inl rfl)
  · rw [htable', hw.table m hmn, hview]
  · rw [htable']
    exact hw.agrees
  · rw [entry, slotAt_unmapped, live_blank]
    rwa [← blockAt_congr_root hc.agrees.root]
  · obtain ⟨rfl, rfl, rfl⟩ : n0 = newDir.inodeNum ∧ f0 = fb ∧ k0 = 0 := by simpa using he
    rw [← blockAt_congr_root hc.agrees.root] at hsrc
    exact hsrc hhole

end Hole

theorem Rest.renameInto (hr : Rest g vol) (hc : Current g vol.disk newDir)
    (hclean : CleanGrowth g vol newDir.inode 2)
    (hsrc : blockAt vol.disk (inodeTable g vol.disk n0) f0 ≠ 0) (hk0 : k0 < 15) (e : Dirent)
    {res : Volume × Node × ℤ} (h : res =
      vol.renameInto (blockAt vol.disk (inodeTable g vol.disk n0) f0, k0) newDir e) :
    Renamed g vol n0 f0 k0 newDir e res := by
  have hview := view_of_idle hr.idle
  have hroom := @findRoom_spec vol newDir.inode maxDirBlocks 0
    fun f hf => absurd hf (by omega)
  unfold Volume.renameInto at h
  cases hfind : vol.findRoom newDir.inode maxDirBlocks 0 with
  | full =>
    rw [hfind] at h
    subst h
    exact hr.renamed_refl (by decide)
  | block blk =>
    rw [hfind] at h hroom
    obtain ⟨f, k, hblk, h0, hk⟩ := hroom
    rw [hview] at hk
    have hk' : findSlot (fun e => !e.live) (vol.readBlock blk) 15 0 = some k := hk
    dsimp only at h
    rw [hk'] at h
    dsimp only at h
    obtain ⟨-, hk15, hfree⟩ := findSlot_some hk
    rw [blockAt_congr_root hc.agrees.root] at hblk
    subst hblk
    rw [h]
    refine hr.renamed_block hc hsrc hk0 h0 (by omega) ?_ e
    rw [entry, slotAt_of_block h0 (by omega)]
    simpa using hfree
  | hole fb =>
    rw [hfind] at h hroom
    obtain ⟨hhole, hlow⟩ := hroom
    have hfull : FullDir vol.disk newDir.inode fb := by
      refine ⟨hhole, fun f hf => ⟨(hlow f hf).1, fun k hk => ?_⟩⟩
      have hslot := findSlot_none (hlow f hf).2 (Nat.zero_le k) (by omega)
      rw [hview] at hslot
      rw [slotAt_of_block (hlow f hf).1 hk]
      simpa using hslot
    have hready := hr.ready_begin hc
    dsimp only at h
    generalize hres' : vol.journalBegin.resolveBlock newDir.inode fb true = r at h
    have hres := hready.resolved hres'.symm (hclean fb hfull)
    by_cases h0 : r.2.2.1 = 0
    · rw [if_pos h0] at h
      rw [h]
      have hview' := (hr.mid.journalBegin hr.idle).2.2
      exact (hready.added_none hres (by rw [hview']; exact hhole) h0).renamed hr (by decide) rfl
    · rw [if_neg h0] at h
      rw [h]
      exact hr.renamed_hole hc hsrc hk0 hres (hready.grown hres) hhole (fun f hf => (hlow f hf).1)
        h0 e

inductive RenameOutcome (g : Superblock) (vol : Volume) (oldDir : Node) (oldName : List UInt8)
    (newDir : Node) (newName : List UInt8) (same : Bool) (res : Volume × Node × ℤ) : Prop
  | refused (h : res.1 = vol ∧ res.2.1 = newDir) (hc : res.2.2 ≠ 0)
  | nothing (h : res = (vol, newDir, 0)) (hsame : same = true ∧ oldName = newName)
  | moved (f0 k0 : ℕ) (hsrc : Found g vol.disk oldDir.inodeNum oldName f0 k0)
      (hname : NewName vol newDir newName)
      (h : Renamed g vol oldDir.inodeNum f0 k0 newDir
        (named (entry g vol.disk oldDir.inodeNum f0 k0).inodeNum.toNat
          (entry g vol.disk oldDir.inodeNum f0 k0).fileType newName) res)
  | replaced (f0 k0 f1 k1 : ℕ) (u : Volume) (hlen : newName.length ≤ 255)
      (hdiff : ¬ (same = true ∧ oldName = newName))
      (hsrc : Found g vol.disk oldDir.inodeNum oldName f0 k0)
      (hdst : Found g vol.disk newDir.inodeNum newName f1 k1)
      (hfile : (entry g vol.disk newDir.inodeNum f1 k1).fileType ≠ 1)
      (hrem : Removed g newDir.inodeNum
        (entry g vol.disk newDir.inodeNum f1 k1).inodeNum.toNat f1 k1 vol u)
      (h : Renamed g u oldDir.inodeNum f0 k0 newDir
        (named (entry g vol.disk oldDir.inodeNum f0 k0).inodeNum.toNat
          (entry g vol.disk oldDir.inodeNum f0 k0).fileType newName) res)

theorem Removed.cleanGrowth {child f k m : ℕ} {din : Inode} (h : Removed g n child f k vol vol')
    (hne : n ≠ child) (hdin : Agrees din (inodeTable g vol.disk n))
    (hc : Compact vol.disk (inodeTable g vol.disk n))
    (h0 : blockAt vol.disk (inodeTable g vol.disk n) f ≠ 0) (hk : k < 15) :
    CleanGrowth g vol' din m := by
  intro fb hfull
  have hdin' : Agrees din (inodeTable g vol'.disk n) := by
    rwa [h.table, update_of_ne hne]
  obtain ⟨hhole, hlive⟩ := hfull
  rw [blockAt_congr_root hdin'.root] at hhole
  have hmapped := (h.put.mapped f h0).trans_ne h0
  rcases lt_or_ge f fb with hlt | hge
  · have hl := (hlive f hlt).2 k hk
    rw [slotAt_congr_root hdin'.root] at hl
    have he := h.put.entries f k
    rw [if_pos ⟨rfl, rfl⟩] at he
    rw [show slotAt vol'.disk (inodeTable g vol'.disk n) f k = blank from he] at hl
    exact absurd hl (by simp)
  · exact absurd hhole ((h.put.compact hc).below hge hmapped)

theorem Volume.opLookup_eq_none {dir : Node} {name : List UInt8}
    (h : vol.opLookup dir name = none) : vol.findEntry dir.inode name = none := by
  unfold opLookup at h
  cases hf : vol.findEntry dir.inode name with
  | none => rfl
  | some r =>
    rw [hf] at h
    exact absurd h (by simp)

theorem Rest.opRename {oldDir : Node} (hr : Rest g vol) (ho : Current g vol.disk oldDir)
    (hc : Current g vol.disk newDir) (hclean : CleanGrowth g vol newDir.inode 2)
    (hcompact : Compact vol.disk (inodeTable g vol.disk newDir.inodeNum))
    (hgood : GoodEntries g vol.disk newDir.inodeNum)
    (hfiles : ∀ f k, (entry g vol.disk newDir.inodeNum f k).live →
      (entry g vol.disk newDir.inodeNum f k).fileType ≠ 1 →
      oldDir.inodeNum ≠ (entry g vol.disk newDir.inodeNum f k).inodeNum.toNat)
    (oldName newName : List UInt8) (same : Bool) {res : Volume × Node × ℤ}
    (h : res = vol.opRename oldDir oldName newDir newName same) :
    RenameOutcome g vol oldDir oldName newDir newName same res := by
  unfold Volume.opRename at h
  by_cases hname : oldName.length = 0 ∨ 255 < oldName.length ∨ newName.length = 0 ∨
      255 < newName.length
  · rw [if_pos hname] at h
    subst h
    exact .refused ⟨rfl, rfl⟩ (by simp)
  rw [if_neg hname] at h
  cases hfind : vol.findEntry oldDir.inode oldName with
  | none =>
    rw [hfind] at h
    subst h
    exact .refused ⟨rfl, rfl⟩ (by simp)
  | some r =>
    obtain ⟨sblk, sk, e⟩ := r
    obtain ⟨f0, hsrc, he, hsblk⟩ := ho.findEntry (by omega) hfind
    rw [hfind] at h
    dsimp only at h
    by_cases hsame : same ∧ oldName = newName
    · rw [if_pos hsame] at h
      exact .nothing h hsame
    rw [if_neg hsame, he, hsblk] at h
    cases hlook : vol.opLookup newDir newName with
    | none =>
      rw [hlook] at h
      dsimp only at h
      have hnew : NewName vol newDir newName := by
        refine ⟨?_, by omega, opLookup_eq_none hlook⟩
        rintro rfl
        exact hname (.inr (.inr (.inl rfl)))
      exact .moved f0 sk hsrc hnew (hr.renameInto hc hclean hsrc.mapped hsrc.slot _ h)
    | some node =>
      rw [hlook] at h
      dsimp only at h
      by_cases hdir : node.type = .directory
      · rw [if_pos hdir] at h
        subst h
        exact .refused ⟨rfl, rfl⟩ (by simp)
      rw [if_neg hdir] at h
      generalize hu : vol.opUnlink newDir newName = u at h
      rcases hr.opUnlink hc hgood newName hu.symm with ⟨hvol, hcode⟩ | ⟨f1, k1, hdst, hfile, hrem, hcode⟩
      · rw [if_pos hcode] at h
        subst h
        exact .refused ⟨hvol, rfl⟩ (by simp)
      rw [if_neg (not_not.mpr hcode)] at h
      obtain ⟨hlt, hne⟩ := hgood f1 k1 hdst.live
      have hne0 := hfiles f1 k1 hdst.live hfile
      have hsame' : blockAt u.1.disk (inodeTable g u.1.disk oldDir.inodeNum) f0 =
          blockAt vol.disk (inodeTable g vol.disk oldDir.inodeNum) f0 := by
        by_cases hdirs : oldDir.inodeNum = newDir.inodeNum
        · have hmapped := hsrc.mapped
          rw [hdirs] at hmapped ⊢
          exact hrem.put.mapped f0 hmapped
        · refine congrFun (hrem.step.blockAt_eq ?_) f0
          simp [hdirs, hne0]
      have hc' : Current g u.1.disk newDir := by
        refine ⟨hc.bound, ?_⟩
        rw [hrem.table, update_of_ne hne]
        exact hc.agrees
      rw [← hsame'] at h
      exact .replaced f0 sk f1 k1 u.1 (by omega) hsame hsrc hdst hfile hrem
        (hrem.step.rest.renameInto hc' (hrem.cleanGrowth hne hc.agrees hcompact hdst.mapped
          hdst.slot) (hsame'.trans_ne hsrc.mapped) hsrc.slot _ h)

end RenameInto

end

end Exploidus.Exfs
