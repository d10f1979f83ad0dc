import Exploidus.Exfs.Free

/-! The directory operations through current nodes: create, symlink, unlink, rmdir, rename. -/
namespace Exploidus.Exfs
open Refs Function Volume Inode Dirent

/-- The node's private copy of its inode agrees with the device. -/
structure Current (g : Superblock) (d : ℕ → Block) (node : Node) : Prop where
  bound : node.inodeNum < 4096
  agrees : Agrees node.inode (inodeTable g d node.inodeNum)

def Taken (g : Superblock) (d : ℕ → Block) (n : ℕ) : Prop := n ≠ 0 → (inodeTable g d n).inUse

/-- If the directory has to grow and takes a new pointer block for it, the next `m` free blocks
read as zeros. -/
def CleanGrowth (g : Superblock) (vol : Volume) (din : Inode) (m : ℕ) : Prop :=
  ∀ fb, FullDir vol.disk din fb → needsTable vol.disk din fb →
    CleanFree g vol.disk m vol.blockBitmap

structure FreeInode (g : Superblock) (d : ℕ → Block) (ino : ℕ) : Prop where
  pos : ino ≠ 0
  bound : ino < 4096
  free : ¬ (inodeTable g d ino).inUse

section
variable {g : Superblock} {vol vol' : Volume} {n ino : ℕ} {i : Inode} {dir : Node}

theorem Taken.ne_free (ht : Taken g vol.disk n) (hf : FreeInode g vol.disk ino) : n ≠ ino := by
  rintro rfl
  exact hf.free (ht hf.pos)

theorem LaidOut.freeInode (h : LaidOut g vol)
    (hino : ino = vol.findFreeInode (vol.sb.totalInodes / 16 * 16) 0) (h0 : ino ≠ 0) :
    FreeInode g vol.disk ino := by
  obtain ⟨m, hsb⟩ := h.sb
  have htotal : vol.sb.totalInodes / 16 * 16 = 4096 := by
    rw [hsb]
    exact (congrArg (· / 16 * 16) h.geometry.totalInodes).trans rfl
  rw [htotal] at hino
  rcases @findFreeInode_spec vol 4096 0 with hz | ⟨-, -, hlt, hfree⟩
  · exact absurd (hino.trans hz) h0
  rw [← hino] at hlt hfree
  rw [h.readInode (by omega)] at hfree
  exact ⟨h0, by omega, hfree⟩

theorem Mid.begun_writeInode {R : ℕ × Root → ℕ} {vol' : Volume} (hr : Rest g vol)
    (hne : n ≠ ino) (hino : ino < 4096)
    (hm : Mid g R vol') (hruns : Runs g vol vol') (hact : vol'.jtxnActive)
    (hlen : vol'.jtxn.length ≤ 1)
    (hmono : ∀ b, bitmapGet vol.blockBitmap b → bitmapGet vol'.blockBitmap b)
    (hdisk : ∀ b, InBody g b → vol'.disk b = vol.disk b)
    (hview : ∀ b, InBody g b → bitmapGet vol.blockBitmap b → vol'.view b = vol.disk b)
    (hown : Owned (siteRef (withInode (diskRoots g vol.disk) ino i) vol'.view)
      fun b => InData g b ∧ bitmapGet vol'.blockBitmap b) :
    Begun g n ino i vol (vol'.writeInode ino i) ∧
      (vol'.writeInode ino i).blockBitmap = vol'.blockBitmap ∧
      ∀ b, InData g b → (vol'.writeInode ino i).view b = vol'.view b := by
  have hg := hr.mid.geometry
  have hds := hg.dataStartBlock
  have hw := hm.writeInode (fun _ => by omega) hino i hown
    (fun hidle => absurd (hact ▸ hidle) (by decide))
  have htable' : inodeTable g vol'.view = inodeTable g vol.disk := by
    funext m
    unfold inodeTable
    split_ifs with hmn
    · rw [hview _ (hg.inBody_table hmn) (hr.mid.reserved _ (.inl (by omega)))]
    · rfl
  have htable : inodeTable g (vol'.writeInode ino i).view =
      update (inodeTable g vol.disk) ino i := by
    rw [hw.view, inodeTable_setInode g _ hino, htable']
  have hroots : diskRoots g (vol'.writeInode ino i).view =
      withInode (diskRoots g vol.disk) ino i := by
    funext x
    unfold diskRoots withInode
    rw [htable]
    split_ifs with hx
    · rw [hx, update_self]
    · rw [update_of_ne hx]
  have hdata : ∀ b, InData g b → (vol'.writeInode ino i).view b = vol'.view b := by
    intro b hb
    rw [hw.view, update_of_ne]
    have := hb.1
    omega
  refine ⟨⟨hruns.trans hw.runs, hroots ▸ hw.mid, hw.active.trans hact, by have := hw.length; omega,
    fun b hb => ?_, fun b hb => ?_, fun b hb hused => ?_, htable, hne⟩, hw.bitmap, hdata⟩
  · rw [hw.bitmap]
    exact hmono b hb
  · rw [hw.disk hact]
    exact hdisk b hb
  · rw [hdata b hb]
    exact hview b (hg.inBody_of_inData hb) hused

theorem Rest.begun_create (hr : Rest g vol) (hne : n ≠ ino) (hino : ino < 4096)
    (hi : ∀ r, i.root r = 0) : Begun g n ino i vol (vol.journalBegin.writeInode ino i) ∧
      (vol.journalBegin.writeInode ino i).blockBitmap = vol.blockBitmap := by
  obtain ⟨hm, hruns, hview⟩ := hr.mid.journalBegin hr.idle
  suffices hown : Owned (siteRef (withInode (diskRoots g vol.disk) ino i) vol.journalBegin.view)
      fun b => InData g b ∧ bitmapGet vol.journalBegin.blockBitmap b = true by
    obtain ⟨hb, hbm, -⟩ := Mid.begun_writeInode hr hne hino hm hruns rfl
      (by simp [journalBegin]) (fun _ h => h) (fun _ _ => rfl) (fun b _ _ => by rw [hview])
      hown
    exact ⟨hb, hbm⟩
  refine hm.owned.sub (ref_sub fun x => ?_)
  unfold withInode
  split_ifs with hx
  · exact .inl (hi _)
  · exact .inr rfl

theorem Begun.clean (hb : Begun g n ino i vol vol') (hr : Rest g vol) {din : Inode}
    (hdin : Agrees din (inodeTable g vol.disk n)) {m : ℕ} (hc : CleanGrowth g vol din m)
    (hfree : CleanFree g vol.disk m vol.blockBitmap → CleanFree g vol.disk 2 vol'.blockBitmap)
    (fb : ℕ) (hfull : FullDir vol'.view din fb) (hneeds : needsTable vol'.disk din fb) :
    CleanFree g vol'.disk 2 vol'.blockBitmap := by
  have hg := hr.mid.geometry
  have hmap : ∀ f, blockAt vol'.view din f = blockAt vol.disk din f := fun f => by
    have hdin' : Agrees din (inodeTable g vol'.view n) := by
      rwa [hb.table, update_of_ne hb.ne]
    rw [blockAt_congr_root hdin'.root, hb.blockAt_eq hr, ← blockAt_congr_root hdin.root]
  have hslot : ∀ f k, slotAt vol'.view din f k = slotAt vol.disk din f k := fun f k =>
    slotAt_congr (hmap f) (fun h0 => by
      rw [blockAt_congr_root hdin.root] at h0 ⊢
      have hf := lt_of_blockAt h0
      rw [blockAt_eq_siteRef _ hf] at h0 ⊢
      exact hb.block hr h0) k
  have hfull' : FullDir vol.disk din fb := by
    unfold FullDir at hfull ⊢
    simp only [hmap, hslot] at hfull
    exact hfull
  have hneeds' : needsTable vol.disk din fb := by
    refine ⟨hneeds.1, hneeds.2.1, ?_⟩
    have h3 := hneeds.2.2
    split_ifs at h3 ⊢ with hlt
    · exact h3
    rcases h3 with hz | hp
    · exact .inl hz
    by_cases hz : din.doubleIndirect.toNat = 0
    · exact .inl hz
    have hsite : siteRef (diskRoots g vol.disk) vol.disk ((n, .doubleIndirect), []) =
        din.doubleIndirect.toNat := (hdin.root .doubleIndirect).symm
    have hin := (hr.mid.safe.sound.ok (hsite.trans_ne hz)).1
    rw [hsite] at hin
    rw [hb.disk _ (hg.inBody_of_inData hin)] at hp
    exact .inr hp
  exact (hfree (hc fb hfull' hneeds')).congr
    (fun b hb1 hb2 => hb.mid.reserved b (.inr ⟨hb1, hb2⟩))
    fun b hin => hb.disk b (hg.inBody_of_inData hin)

structure NewName (vol : Volume) (dir : Node) (name : List UInt8) : Prop where
  ne : name ≠ []
  length : name.length ≤ 255
  fresh : vol.findEntry dir.inode name = none

def newNode (name : List UInt8) (fileType : UInt8) (ino : ℕ) (i : Inode) : Node :=
  ⟨name, if fileType = 1 then .directory else .file, 0, ino, i, i.mode, i.ownerUid, i.groupGid,
    false⟩

@[simp] theorem root_newInode (fileType : UInt8) (uid gid : UInt32) (r : Root) :
    (newInode fileType uid gid).root r = 0 := by
  rw [← root_blank r]
  cases r <;> rfl

theorem inUse_newInode (fileType : UInt8) (uid gid : UInt32) :
    (newInode fileType uid gid).inUse := by
  refine .inl ?_
  simp only [newInode]
  split_ifs <;> decide

theorem Rest.opCreate (hr : Rest g vol) (hc : Current g vol.disk dir)
    (ht : Taken g vol.disk dir.inodeNum) (hclean : CleanGrowth g vol dir.inode 2) (name : List UInt8) (fileType : UInt8)
    (uid gid : UInt32) {res : Volume × Node × Option Node}
    (h : res = vol.opCreate dir name fileType uid gid) :
    res = (vol, dir, none) ∨ ∃ ino, FreeInode g vol.disk ino ∧ NewName vol dir name ∧
      NewEntry g vol dir.inodeNum dir.inode ino (newInode fileType uid gid)
        (named ino fileType name) (res.1, res.2.1.inode, res.2.2.isSome) ∧
      res.2.1 = { dir with inode := res.2.1.inode } ∧
      ∀ node, res.2.2 = some node →
        node = newNode name fileType ino (newInode fileType uid gid) := by
  unfold Volume.opCreate at h
  by_cases hname : name.length = 0 ∨ 255 < name.length
  · rw [if_pos hname] at h
    exact .inl h
  rw [if_neg hname] at h
  by_cases hdup : (vol.findEntry dir.inode name).isSome
  · rw [if_pos hdup] at h
    exact .inl h
  rw [if_neg hdup] at h
  dsimp only at h
  generalize hino : vol.findFreeInode (vol.sb.totalInodes / 16 * 16) 0 = ino at h
  by_cases h0 : ino = 0
  · rw [if_pos h0] at h
    exact .inl h
  rw [if_neg h0] at h
  have hfree := hr.mid.laidOut.freeInode hino.symm h0
  obtain ⟨hb, hbm⟩ :=
    hr.begun_create (ht.ne_free hfree) hfree.bound (root_newInode fileType uid gid)
  have hready := hb.ready hr hc.bound hc.agrees
  have hadd := hready.addEntry (hb.clean hr hc.agrees hclean fun h => hbm ▸ h)
    (named ino fileType name)
  generalize addEntry _ _ _ _ = r at hadd h
  have hnew := hadd.newEntry hb hr
  obtain ⟨v, din, ok⟩ := r
  refine .inr ⟨ino, hfree, ⟨?_, by omega, by simpa using hdup⟩, ?_⟩
  · rintro rfl
    exact hname (.inl rfl)
  cases ok with
  | true =>
    subst h
    exact ⟨hnew, rfl, fun node hnode => (Option.some.inj hnode).symm⟩
  | false =>
    subst h
    exact ⟨hnew, rfl, fun node hnode => by cases hnode⟩

theorem root_linkInode (target : List UInt8) {blk : ℕ} (hblk : blk < 2 ^ 64) (uid gid : UInt32)
    (r : Root) : (linkInode target blk uid gid).root r = if r = .direct 0 then blk else 0 := by
  have hroot : (linkInode target blk uid gid).root r = (blank.setRoot (.direct 0) blk).root r := by
    cases r <;> rfl
  rw [hroot]
  split_ifs with hr
  · rw [hr, root_setRoot_self _ hblk (fun k hk => by cases hk; omega)]
  · rw [root_setRoot_ne _ _ hr, root_blank]

theorem owned_withInode_single {R : ℕ × Root → ℕ} {d : ℕ → Block} {ok : ℕ → Prop} {a : ℕ}
    (ho : Owned (siteRef R d) ok) (hi : ∀ r, i.root r = if r = .direct 0 then a else 0)
    (h0 : a ≠ 0) (hfresh : ∀ s, siteRef R d s ≠ a) (ha : ok a) :
    Owned (siteRef (withInode R ino i) d) ok := by
  have hroots : withInode R ino i = update (withInode R ino blank) (ino, .direct 0) a := by
    funext x
    obtain ⟨m, r⟩ := x
    by_cases hm : m = ino
    · subst hm
      rw [withInode_self, hi]
      split_ifs with hr0
      · rw [hr0, update_self]
      · rw [update_of_ne (by simp [hr0]), withInode_self, root_blank]
    · rw [withInode_of_ne _ _ _ hm, update_of_ne (by simp [hm]), withInode_of_ne _ _ _ hm]
  have hsub : ∀ s, siteRef (withInode R ino blank) d s = 0 ∨
      siteRef (withInode R ino blank) d s = siteRef R d s := by
    refine ref_sub fun x => ?_
    unfold withInode
    split_ifs
    · exact .inl (root_blank _)
    · exact .inr rfl
  have hupd : siteRef (withInode R ino i) d =
      update (siteRef (withInode R ino blank) d) ((ino, .direct 0), []) a := by
    rw [hroots]
    exact ref_update_root (by rw [withInode_self, root_blank])
      (fun h => absurd h (lt_irrefl 0))
  rw [hupd]
  refine (ho.sub hsub).update (fun s => ?_) ha
  rcases hsub s with hz | he
  · exact hz.trans_ne h0.symm
  · exact he.trans_ne (hfresh s)

theorem Rest.begun_symlink (hr : Rest g vol) (hne : n ≠ ino) (hino : ino < 4096)
    (target : List UInt8) (uid gid : UInt32) {a : Volume × ℕ}
    (ha : a = vol.journalBegin.allocBlock) (h0 : a.2 ≠ 0) (buf : Block) {v : Volume}
    (hv : v = (a.1.metaWriteBlock a.2 buf).writeInode ino (linkInode target a.2 uid gid)) :
    Begun g n ino (linkInode target a.2 uid gid) vol v ∧ v.view a.2 = buf ∧
      Fresh g (diskRoots g vol.disk) vol.journalBegin a.2 0 False a.1 ∧
      v.blockBitmap = a.1.blockBitmap := by
  have hg := hr.mid.geometry
  obtain ⟨hm, hruns, hview⟩ := hr.mid.journalBegin hr.idle
  have hact : vol.journalBegin.jtxnActive := rfl
  have halloc := hm.allocBlock
  have hf := hm.fresh_allocBlock (by rw [← ha]; exact h0)
  rw [← ha] at halloc hf
  have hnot := halloc.fresh_site hm h0
  have hsites : siteRef (diskRoots g vol.disk) (update a.1.view a.2 buf) =
      siteRef (diskRoots g vol.disk) a.1.view := by
    apply siteRef_congr
    intro r p _ _
    exact update_of_ne (hnot (r, p)) _ _
  have hw : MetaWritten g (diskRoots g vol.disk) a.1 a.2 buf (a.1.metaWriteBlock a.2 buf) := by
    refine hf.mid.metaWriteBlock (fun _ => ?_) (hg.inBody_of_inData hf.inData) buf ?_
      fun hidle => absurd ((hf.active.trans hact).symm.trans hidle) (by decide)
    · rw [halloc.jtxn]
      simp [journalBegin]
    · rw [hsites]
      exact hf.mid.owned
  have hlink := root_linkInode target (hg.lt_of_inData hf.inData) uid gid
  have hown : Owned (siteRef (withInode (diskRoots g vol.disk) ino
      (linkInode target a.2 uid gid)) (a.1.metaWriteBlock a.2 buf).view)
      fun b => InData g b ∧ bitmapGet (a.1.metaWriteBlock a.2 buf).blockBitmap b := by
    refine owned_withInode_single hw.mid.owned hlink h0 (fun s => ?_)
      ⟨hf.inData, by rw [hw.bitmap]; exact hf.new⟩
    rw [hw.view, hsites]
    exact hnot s
  obtain ⟨hb, hbm, hdata⟩ := Mid.begun_writeInode hr hne hino hw.mid
    ((hruns.trans hf.runs).trans hw.runs) (hw.active.trans (hf.active.trans hact))
    (by have := hw.length; rw [halloc.jtxn] at this; simpa [journalBegin] using this)
    (fun b hb => by rw [hw.bitmap]; exact hf.mono b hb)
    (fun b hb => by rw [hw.disk (hf.active.trans hact)]; exact hf.disk hact b hb)
    (fun b hb hused => by
      have hba : b ≠ a.2 := by
        rintro rfl
        exact absurd (hused.symm.trans hf.old) (by decide)
      rw [hw.view, update_of_ne hba, hf.view b hb hba, hview]) hown
  subst hv
  refine ⟨hb, ?_, hf, hbm.trans hw.bitmap⟩
  rw [hdata _ hf.inData, hw.view, update_self]

theorem Rest.opSymlink (hr : Rest g vol) (hc : Current g vol.disk dir)
    (ht : Taken g vol.disk dir.inodeNum) (hclean : CleanGrowth g vol dir.inode 3) (name target : List UInt8) (uid gid : UInt32)
    {res : Volume × Node × Bool} (h : res = vol.opSymlink dir name target uid gid) :
    (Step g ∅ vol res.1 ∧ inodeTable g res.1.disk = inodeTable g vol.disk ∧ res.2 = (dir, false)) ∨
      ∃ ino blk, FreeInode g vol.disk ino ∧ NewName vol dir name ∧
        NewEntry g vol dir.inodeNum dir.inode ino (linkInode target blk uid gid)
          (named ino 2 name) (res.1, res.2.1.inode, res.2.2) ∧
        res.2.1 = { dir with inode := res.2.1.inode } ∧
        (linkInode target blk uid gid).directAt 0 = blk ∧ blk ≠ 0 ∧
        res.1.disk blk = zeroBlock.patch 0 target.length fun k => target.getD k 0 := by
  unfold Volume.opSymlink at h
  by_cases hname : name.length = 0 ∨ 255 < name.length ∨ target.length = 0 ∨ 255 < target.length
  · rw [if_pos hname] at h
    subst h
    exact .inl ⟨Step.refl hr, rfl, rfl⟩
  rw [if_neg hname] at h
  by_cases hdup : (vol.findEntry dir.inode name).isSome
  · rw [if_pos hdup] at h
    subst h
    exact .inl ⟨Step.refl hr, rfl, rfl⟩
  rw [if_neg hdup] at h
  dsimp only at h
  generalize hino : vol.findFreeInode (vol.sb.totalInodes / 16 * 16) 0 = ino at h
  by_cases h0 : ino = 0
  · rw [if_pos h0] at h
    subst h
    exact .inl ⟨Step.refl hr, rfl, rfl⟩
  rw [if_neg h0] at h
  have hfree := hr.mid.laidOut.freeInode hino.symm h0
  generalize ha : vol.journalBegin.allocBlock = a at h
  by_cases ha0 : a.2 = 0
  · rw [if_pos ha0] at h
    obtain ⟨hm, hruns, hview⟩ := hr.mid.journalBegin hr.idle
    have hsame : a.1 = vol.journalBegin := by
      rw [← ha] at ha0 ⊢
      exact hm.allocBlock.full ha0
    rw [hsame] at h
    have hf := hm.finish rfl fun x => .inr (by rw [hview])
    rw [hview] at hf
    have htable := inodeTable_congr hr.mid.geometry hf.disk
    subst h
    refine .inl ⟨⟨hf.mid.rest hf.idle, hruns.trans hf.runs, fun m _ => by rw [htable],
      fun s _ hs0 => ?_⟩, htable, rfl⟩
    exact hf.disk _ (hr.mid.geometry.inBody_of_inData (hr.mid.safe.sound.ok hs0).1)
  rw [if_neg ha0] at h
  generalize hbuf : (zeroBlock.patch 0 target.length fun k => target.getD k 0 : Block) = buf at h ⊢
  generalize hv : (a.1.metaWriteBlock a.2 buf).writeInode ino _ = v at h
  obtain ⟨hb, hvbuf, hfr, hbm⟩ := hr.begun_symlink (ht.ne_free hfree) hfree.bound target uid gid
    ha.symm ha0 buf hv.symm
  have hlink := root_linkInode target (hr.mid.geometry.lt_of_inData hfr.inData) uid gid
  have hready := hb.ready hr hc.bound hc.agrees
  have hadd := hready.addEntry (hb.clean hr hc.agrees hclean fun h => by
    rw [hbm, hfr.next.2]
    exact (h a.2 hfr.next.1).2) (named ino 2 name)
  subst h
  refine .inr ⟨ino, a.2, hfree, ⟨?_, by omega, by simpa using hdup⟩, hadd.newEntry hb hr, rfl,
    (hlink (.direct 0)).trans (if_pos rfl), ha0, ?_⟩
  · rintro rfl
    exact hname (.inl rfl)
  have hsite : siteRef (diskRoots g v.view) v.view ((ino, .direct 0), []) = a.2 := by
    rw [siteRef_nil, diskRoots, hb.table, update_self, hlink, if_pos rfl]
  rw [← hvbuf]
  refine hadd.blocks a.2 hfr.inData (by rw [hbm]; exact hfr.new) fun s hs he => ?_
  have := hb.mid.owned.unique (he.trans_ne ha0) (he.trans hsite.symm)
  rw [this] at hs
  exact hb.ne hs.symm

structure Removed (g : Superblock) (n child f k : ℕ) (vol vol' : Volume) : Prop where
  step : Step g {n, child} vol vol'
  table : inodeTable g vol'.disk = update (inodeTable g vol.disk) child blank
  put : Put g vol.disk vol'.disk n f k blank

structure Dropped (g : Superblock) (n child f k : ℕ) (vol vol' : Volume) : Prop where
  rest : Rest g vol'
  runs : Runs g vol vol'
  table : inodeTable g vol'.disk = update (inodeTable g vol.disk) child blank
  data : ∀ b, InData g b → bitmapGet vol.blockBitmap b = true →
    b ≠ blockAt vol.disk (inodeTable g vol.disk n) f → vol'.disk b = vol.disk b
  put : Put g vol.disk vol'.disk n f k blank

theorem Rest.dropEntry (hr : Rest g vol) {child f k : ℕ} (hn : n < 4096) (hchild : child < 4096)
    (hne : n ≠ child) (h0 : blockAt vol.disk (inodeTable g vol.disk n) f ≠ 0) (hk : k < 15) :
    Dropped g n child f k vol
      (vol.dropEntry (blockAt vol.disk (inodeTable g vol.disk n) f) k child) := by
  obtain ⟨hb, -⟩ := hr.begun_create hne hchild root_blank
  have hmap := hb.blockAt_eq hr
  have hp := (hb.ready hr hn (Agrees.refl _)).putBlock (by rw [hmap f]; exact h0) hk blank
  have hview : (vol.journalBegin.writeInode child blank).view
      (blockAt vol.disk (inodeTable g vol.disk n) f) =
        vol.disk (blockAt vol.disk (inodeTable g vol.disk n) f) := by
    have hfb := lt_of_blockAt h0
    rw [blockAt_eq_siteRef vol.disk hfb] at h0 ⊢
    exact hb.block hr h0
  have hdrop : vol.dropEntry (blockAt vol.disk (inodeTable g vol.disk n) f) k child =
      ((vol.journalBegin.writeInode child blank).metaWriteBlock
        (blockAt vol.disk (inodeTable g vol.disk n) f)
        (setDirent (vol.disk (blockAt vol.disk (inodeTable g vol.disk n) f)) k
          blank)).journalCommit := rfl
  rw [hmap f, hview, ← hdrop] at hp
  refine ⟨hp.rest, hb.runs.trans hp.runs, hp.table.trans hb.table, fun b hin hused hb' => ?_,
    hp.put.of_begun hb hr⟩
  rw [hp.data b hin (by rw [hmap f]; exact hb'), hb.data b hin hused]

theorem Dropped.loose {child f k : ℕ} (hd : Dropped g n child f k vol vol') (hr : Rest g vol)
    (hne : n ≠ child) (hmap : blockAt vol.disk (inodeTable g vol.disk n) f ≠ 0) (r : Root)
    (p : List ℕ) :
    Loose g (diskRoots g vol'.disk) vol'.disk
      (refAt Root.depth (inodeTable g vol.disk child).root
        (fun t j => ptrAt (vol'.disk t) j) r p) := by
  have hsound := hr.mid.safe.sound
  have hleaf := blockAt_eq_siteRef (n := n) (g := g) vol.disk (lt_of_blockAt hmap)
  have hroots : diskRoots g vol'.disk = withInode (diskRoots g vol.disk) child blank := by
    funext x
    unfold diskRoots withInode
    rw [hd.table]
    split_ifs with hx
    · rw [hx, update_self]
    · rw [update_of_ne hx]
  have hsub : ∀ s, siteRef (diskRoots g vol'.disk) vol.disk s = 0 ∨
      siteRef (diskRoots g vol'.disk) vol.disk s = siteRef (diskRoots g vol.disk) vol.disk s := by
    refine ref_sub fun x => ?_
    rw [hroots, withInode]
    split_ifs
    · exact .inl (root_blank _)
    · exact .inr rfl
  have hblock : ∀ s : Site, s ≠ ((n, rootOf f), pathOf f) →
      siteRef (diskRoots g vol.disk) vol.disk s ≠ 0 →
      vol'.disk (siteRef (diskRoots g vol.disk) vol.disk s) =
        vol.disk (siteRef (diskRoots g vol.disk) vol.disk s) := by
    intro s hs h0
    refine hd.data _ (hsound.ok h0).1 (hr.mid.disk_bit h0) fun he => hs ?_
    exact hsound.unique h0 (he.trans hleaf)
  have hchild : refAt Root.depth (inodeTable g vol.disk child).root
      (fun t j => ptrAt (vol'.disk t) j) r p =
        siteRef (diskRoots g vol.disk) vol.disk ((child, r), p) := by
    rw [← siteRef_eq_refAt (R := diskRoots g vol.disk) (n := child) (fun _ => rfl)]
    refine siteRef_congr_at rfl (fun p h0 => hblock _ (fun he => hne ?_) h0) p
    exact (congrArg (fun s : Site => s.1.1) he).symm
  have hsites : siteRef (diskRoots g vol'.disk) vol'.disk =
      siteRef (diskRoots g vol'.disk) vol.disk := by
    refine siteRef_congr fun r p hlt h0 => ?_
    have he := (hsub (r, p)).resolve_left h0
    rw [he] at h0 ⊢
    refine hblock _ (fun hs => ?_) h0
    cases hs
    exact absurd hlt (not_lt.mpr (length_pathOf f).ge)
  rw [hchild]
  intro h0
  refine ⟨(hsound.ok h0).1, fun s he => ?_⟩
  rw [hsites] at he
  have hs := hsub s
  have hs' := hsound.unique h0 (he.symm.trans (hs.resolve_left (he.trans_ne h0)))
  refine he.trans_ne h0 ?_
  rw [← hs', hroots]
  exact ref_of_root_eq_zero (by rw [withInode_self, root_blank]) p

theorem Rest.removed (hr : Rest g vol) {child f k : ℕ} (hn : n < 4096) (hchild : child < 4096)
    (hne : n ≠ child) (h0 : blockAt vol.disk (inodeTable g vol.disk n) f ≠ 0) (hk : k < 15) :
    Removed g n child f k vol
      ((vol.dropEntry (blockAt vol.disk (inodeTable g vol.disk n) f) k child).freeInodeBlocks
        (vol.readInode child)) := by
  have hg := hr.mid.geometry
  have hd := hr.dropEntry hn hchild hne h0 hk
  have hloose := hd.loose hr hne h0
  rw [hr.readInode hchild]
  generalize vol.dropEntry _ k child = v at hd hloose ⊢
  have hf := hd.rest.mid.freeInodeBlocks hd.rest.idle hloose
  have howned := hd.rest.mid.owned
  rw [view_of_idle hd.rest.idle] at howned
  have htable := (inodeTable_congr hg hf.body).trans hd.table
  refine ⟨⟨hf.mid.rest hf.idle, hd.runs.trans hf.runs, fun m hm => ?_, fun s hs hs0 => ?_⟩, htable,
    hd.put.congr_body hg howned hf.body⟩
  · rw [htable, update_of_ne fun he => hm (.inr he)]
  have hin := (hr.mid.safe.sound.ok hs0).1
  rw [hf.body _ (hg.inBody_of_inData hin), hd.data _ hin (hr.mid.disk_bit hs0)]
  rw [blockAt_eq_siteRef vol.disk (lt_of_blockAt h0)]
  intro he
  have := hr.mid.safe.sound.unique hs0 he
  exact hs (.inl (congrArg (fun s : Site => s.1.1) this))

def GoodEntries (g : Superblock) (d : ℕ → Block) (n : ℕ) : Prop :=
  ∀ f k, (entry g d n f k).live = true →
    (entry g d n f k).inodeNum.toNat < 4096 ∧ n ≠ (entry g d n f k).inodeNum.toNat

/-- The entry a scan by name finds through a current node. -/
structure Found (g : Superblock) (d : ℕ → Block) (n : ℕ) (name : List UInt8) (f k : ℕ) :
    Prop where
  mapped : blockAt d (inodeTable g d n) f ≠ 0
  slot : k < 15
  live : (entry g d n f k).live = true
  text : (entry g d n f k).text = name

theorem Current.findEntry (hc : Current g vol.disk dir) {name : List UInt8}
    (hname : name.length ≤ 255) {blk k : ℕ} {e : Dirent}
    (h : vol.findEntry dir.inode name = some (blk, k, e)) :
    ∃ f, Found g vol.disk dir.inodeNum name f k ∧ e = entry g vol.disk dir.inodeNum f k ∧
      blk = blockAt vol.disk (inodeTable g vol.disk dir.inodeNum) f := by
  obtain ⟨f, hblk, h0, hk, he, hl, ht⟩ := findEntry_some hname h
  rw [blockAt_congr_root hc.agrees.root] at hblk
  rw [slotAt_congr_root hc.agrees.root] at he
  have he' : e = entry g vol.disk dir.inodeNum f k := he
  rw [he'] at hl ht
  exact ⟨f, ⟨hblk ▸ h0, hk, hl, ht⟩, he', hblk⟩

/-- What `opUnlink` and `opRmdir` do: they refuse, or they take out the entry they found, which is
of the kind each accepts. -/
def Removal (g : Superblock) (vol : Volume) (n : ℕ) (name : List UInt8) (kind : Dirent → Prop)
    (res : Volume × ℤ) : Prop :=
  (res.1 = vol ∧ res.2 ≠ 0) ∨ ∃ f k, Found g vol.disk n name f k ∧ kind (entry g vol.disk n f k) ∧
    Removed g n (entry g vol.disk n f k).inodeNum.toNat f k vol res.1 ∧ res.2 = 0

section
variable {name : List UInt8} {kind : Dirent → Prop} {res : Volume × ℤ}

theorem Removal.refused {n : ℕ} {c : ℤ} (h : res = (vol, c)) (hc : c ≠ 0) :
    Removal g vol n name kind res := by
  subst h
  exact .inl ⟨rfl, hc⟩

theorem Rest.removal (hr : Rest g vol) (hc : Current g vol.disk dir)
    (hgood : GoodEntries g vol.disk dir.inodeNum) (hname : name.length ≤ 255) {blk k : ℕ}
    {e : Dirent} (hfind : vol.findEntry dir.inode name = some (blk, k, e)) (hkind : kind e)
    (h : res = ((vol.dropEntry blk k e.inodeNum.toNat).freeInodeBlocks
      (vol.readInode e.inodeNum.toNat), 0)) : Removal g vol dir.inodeNum name kind res := by
  obtain ⟨f, hfound, rfl, rfl⟩ := hc.findEntry hname hfind
  obtain ⟨hlt, hne⟩ := hgood f k hfound.live
  have hrem := hr.removed hc.bound hlt hne hfound.mapped hfound.slot
  generalize (vol.dropEntry _ _ _).freeInodeBlocks _ = v at h hrem
  subst h
  exact .inr ⟨f, k, hfound, hkind, hrem, rfl⟩

theorem Rest.opUnlink (hr : Rest g vol) (hc : Current g vol.disk dir)
    (hgood : GoodEntries g vol.disk dir.inodeNum) (name : List UInt8)
    (h : res = vol.opUnlink dir name) :
    Removal g vol dir.inodeNum name (fun e => e.fileType ≠ 1) res := by
  unfold Volume.opUnlink at h
  by_cases hname : name.length = 0 ∨ 255 < name.length
  · rw [if_pos hname] at h
    exact .refused h (by decide)
  rw [if_neg hname] at h
  cases hfind : vol.findEntry dir.inode name with
  | none =>
    rw [hfind] at h
    exact .refused h (by decide)
  | some r =>
    rw [hfind] at h
    dsimp only at h
    by_cases hdir : r.2.2.fileType = 1
    · rw [if_pos hdir] at h
      exact .refused h (by decide)
    · rw [if_neg hdir] at h
      exact hr.removal hc hgood (by omega) hfind hdir h

theorem Rest.opRmdir (hr : Rest g vol) (hc : Current g vol.disk dir)
    (hgood : GoodEntries g vol.disk dir.inodeNum) (name : List UInt8)
    (h : res = vol.opRmdir dir name) :
    Removal g vol dir.inodeNum name (fun e => e.fileType = 1 ∧
      vol.dirIsEmpty (vol.readInode e.inodeNum.toNat)) res := by
  unfold Volume.opRmdir at h
  by_cases hname : name.length = 0 ∨ 255 < name.length
  · rw [if_pos hname] at h
    exact .refused h (by decide)
  rw [if_neg hname] at h
  by_cases hdot : name = [46] ∨ name = [46, 46]
  · rw [if_pos hdot] at h
    exact .refused h (by decide)
  rw [if_neg hdot] at h
  cases hfind : vol.findEntry dir.inode name with
  | none =>
    rw [hfind] at h
    exact .refused h (by decide)
  | some r =>
    rw [hfind] at h
    dsimp only at h
    split_ifs at h with hdir hempty
    · exact .refused h (by decide)
    · exact .refused h (by decide)
    · exact hr.removal hc hgood (by omega) hfind ⟨not_not.mp hdir, by simpa using hempty⟩ h

end

end

end Exploidus.Exfs
