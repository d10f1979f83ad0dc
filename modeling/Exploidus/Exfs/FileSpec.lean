import Exploidus.Exfs.File
import Exploidus.Exfs.Mapping

/-! What the file operations do to the device: they keep it sound at every stop, and they touch
no inode but their own and no block of another inode. -/
namespace Exploidus.Exfs
open ByteLayout Refs Function Volume

structure Rest (g : Superblock) (vol : Volume) : Prop where
  idle : vol.jtxnActive = false
  mid : Mid g (diskRoots g vol.disk) vol

structure Step (g : Superblock) (S : Set ℕ) (vol vol' : Volume) : Prop where
  rest : Rest g vol'
  runs : Runs g vol vol'
  table : ∀ m, m ∉ S → inodeTable g vol'.disk m = inodeTable g vol.disk m
  blocks : ∀ s : Site, s.1.1 ∉ S → siteRef (diskRoots g vol.disk) vol.disk s ≠ 0 →
    vol'.disk (siteRef (diskRoots g vol.disk) vol.disk s) =
      vol.disk (siteRef (diskRoots g vol.disk) vol.disk s)

abbrev FileStep (g : Superblock) (n : ℕ) : Volume → Volume → Prop := Step g {n}

section
variable {g : Superblock} {n : ℕ} {vol vol' vol'' : Volume}

variable {S : Set ℕ} {node : Node}

theorem Step.refl (hr : Rest g vol) : Step g S vol vol :=
  ⟨hr, Runs.of_eq hr.mid.crash rfl rfl, fun _ _ => rfl, fun _ _ _ => rfl⟩

theorem Step.sites (h : Step g S vol vol') {s : Site} (hs : s.1.1 ∉ S) :
    siteRef (diskRoots g vol'.disk) vol'.disk s = siteRef (diskRoots g vol.disk) vol.disk s := by
  obtain ⟨r, p⟩ := s
  refine siteRef_congr_at ?_ (fun p h0 => h.blocks (r, p) hs h0) p
  unfold diskRoots
  rw [h.table r.1 hs]

theorem Step.trans (h : Step g S vol vol') (h' : Step g S vol' vol'') : Step g S vol vol'' := by
  refine ⟨h'.rest, h.runs.trans h'.runs, fun m hm => (h'.table m hm).trans (h.table m hm),
    fun s hs h0 => ?_⟩
  have hb := h'.blocks s hs (by rw [h.sites hs]; exact h0)
  rw [h.sites hs] at hb
  rw [hb, h.blocks s hs h0]

theorem Step.mono {T : Set ℕ} (h : Step g S vol vol') (hST : S ⊆ T) : Step g T vol vol' :=
  ⟨h.rest, h.runs, fun m hm => h.table m fun hs => hm (hST hs),
    fun s hs => h.blocks s fun hs' => hs (hST hs')⟩

structure InodeStep (g : Superblock) (n : ℕ) (vol vol' : Volume) : Prop where
  rest : Rest g vol'
  runs : Runs g vol vol'
  table : ∀ m, m ≠ n → inodeTable g vol'.disk m = inodeTable g vol.disk m
  data : ∀ b, InData g b → vol'.disk b = vol.disk b

theorem InodeStep.refl (hr : Rest g vol) : InodeStep g n vol vol :=
  ⟨hr, Runs.of_eq hr.mid.crash rfl rfl, fun _ _ => rfl, fun _ _ => rfl⟩

theorem InodeStep.trans (h : InodeStep g n vol vol') (h' : InodeStep g n vol' vol'') :
    InodeStep g n vol vol'' :=
  ⟨h'.rest, h.runs.trans h'.runs, fun m hm => (h'.table m hm).trans (h.table m hm),
    fun b hb => (h'.data b hb).trans (h.data b hb)⟩

theorem InodeStep.fileStep (h : InodeStep g n vol vol') (hr : Rest g vol) : FileStep g n vol vol' :=
  ⟨h.rest, h.runs, h.table, fun _ _ h0 => h.data _ (hr.mid.safe.sound.ok h0).1⟩

theorem Rest.writeInode (hr : Rest g vol) (hn : n < 4096) {i : Inode}
    (hi : ∀ r, i.root r = 0 ∨ i.root r = (inodeTable g vol.disk n).root r) :
    InodeStep g n vol (vol.writeInode n i) ∧ inodeTable g (vol.writeInode n i).disk n = i := by
  have hm := hr.mid
  have hview := view_of_idle hr.idle
  have hsub : ∀ x, withInode (diskRoots g vol.disk) n i x = 0 ∨
      withInode (diskRoots g vol.disk) n i x = diskRoots g vol.disk x := by
    intro x
    unfold withInode
    split_ifs with hx
    · rw [diskRoots, hx]
      exact hi x.2
    · exact .inr rfl
  have hown : Owned (siteRef (withInode (diskRoots g vol.disk) n i) vol.view)
      fun b => InData g b ∧ bitmapGet vol.blockBitmap b :=
    hm.owned.sub (ref_sub hsub)
  have hw := hm.writeInode (fun ha => absurd (hr.idle ▸ ha) (by decide)) hn i hown
    (fun _ x => .inr rfl)
  have hidle : (vol.writeInode n i).jtxnActive = false := hw.active.trans hr.idle
  have hdisk := hw.view
  rw [view_of_idle hidle, hview] at hdisk
  have htable : inodeTable g (vol.writeInode n i).disk = update (inodeTable g vol.disk) n i := by
    rw [hdisk, inodeTable_setInode g vol.disk hn]
  have hroots : diskRoots g (vol.writeInode n i).disk = withInode (diskRoots g vol.disk) n i := by
    rw [hdisk, diskRoots_setInode g vol.disk hn]
  refine ⟨⟨⟨hidle, hroots ▸ hw.mid⟩, hw.runs, fun m hmn => ?_, fun b hb => ?_⟩, ?_⟩
  · rw [htable, update_of_ne hmn]
  · rw [hdisk, update_of_ne]
    have := hb.1
    have := hm.geometry.dataStartBlock
    omega
  · rw [htable, update_self]

theorem Rest.writeProv (hr : Rest g vol) {b : ℕ} (hlo : g.provenanceBlock ≤ b) (buf : Block) :
    Rest g (vol.writeBlock b buf) ∧ Runs g vol (vol.writeBlock b buf) ∧
      ∀ c < g.provenanceBlock, (vol.writeBlock b buf).disk c = vol.disk c := by
  have hm := hr.mid
  have hg := hm.geometry
  have hview := view_of_idle hr.idle
  have hprov := hg.provenanceBlock
  have hsame : ∀ c < g.provenanceBlock, update vol.disk b buf c = vol.disk c :=
    fun c hc => update_of_ne (by omega) _ _
  have hroots : diskRoots g (update vol.disk b buf) = diskRoots g vol.disk :=
    diskRoots_congr hg fun c hc => hsame c (by have := hc.2; omega)
  have hown : Owned (siteRef (diskRoots g vol.disk) (update vol.disk b buf))
      fun b => InData g b ∧ bitmapGet vol.blockBitmap b := by
    have howned := hm.owned
    rw [hview] at howned
    rwa [siteRef_congr_inData howned fun c hc => hsame c (by have := hc.2; omega)]
  obtain ⟨hmid, hruns⟩ := hm.writeBlock hr.idle
    (by have := hg.data_lt_journal; have := hg.dataStartBlock; omega) (.inr (by omega)) buf hown
    (fun x => .inr (by rw [hroots]))
  refine ⟨⟨hr.idle, ?_⟩, hruns, hsame⟩
  rwa [writeBlock_disk, hroots]

theorem Rest.audit (hr : Rest g vol) (a : UInt64) : Rest g { vol with auditTotal := a } := by
  have hm := hr.mid
  have hs := hm.staging
  exact ⟨hr.idle, hm.geometry, hm.sb, ⟨hs.jtxnData, hs.nodup, hs.home, hs.length_le⟩, hm.reserved,
    hm.flushed, hm.owned, hm.safe, hm.below⟩

theorem InodeStep.audit (h : InodeStep g n vol vol') (a : UInt64) :
    InodeStep g n vol { vol' with auditTotal := a } := by
  obtain ⟨ws, hw, hp⟩ := h.runs
  exact ⟨h.rest.audit a, ⟨ws, ⟨hw.log, hw.disk⟩, hp⟩, h.table, h.data⟩

/-- `exfs_append_prov` with an inode whose block pointers are those on the device: nothing
happens when the region is full, otherwise the inode is written with its record count raised. -/
theorem Rest.appendProv (hr : Rest g vol) (hn : n < 4096) {i : Inode}
    (hi : ∀ r, i.root r = (inodeTable g vol.disk n).root r) (op : UInt8) (pid : UInt32)
    (capUpper fileOffset length : UInt64) {res : Volume × Inode}
    (h : res = vol.appendProv n i op pid capUpper fileOffset length) :
    InodeStep g n vol res.1 ∧ (res = (vol, i) ∨
      (res.2 = { i with provCount := i.provCount + 1 } ∧ inodeTable g res.1.disk n = res.2)) := by
  have hg := hr.mid.geometry
  obtain ⟨m, hsb⟩ := hr.mid.sb
  unfold Volume.appendProv at h
  dsimp only at h
  split_ifs at h with hfull
  · subst h
    exact ⟨InodeStep.refl hr, .inl rfl⟩
  rw [hsb] at h hfull
  dsimp only at h hfull
  generalize hidx : (i.provHead + i.provCount.toUInt64).toNat = idx at h hfull
  generalize ProvRecord.store _ _ _ = buf at h
  obtain ⟨hrest, hruns, hsame⟩ := hr.writeProv (b := g.provenanceBlock + idx / 102) (by omega) buf
  have hdj := hg.data_lt_journal
  have hprov := hg.provenanceBlock
  have hbody : ∀ c, InBody g c → (vol.writeBlock (g.provenanceBlock + idx / 102) buf).disk c =
      vol.disk c := fun c hc => hsame c (by have := hc.2; omega)
  have htable := inodeTable_congr hg hbody
  have hstep : InodeStep g n vol (vol.writeBlock (g.provenanceBlock + idx / 102) buf) :=
    ⟨hrest, hruns, fun m _ => by rw [htable], fun b hb => hbody b (hg.inBody_of_inData hb)⟩
  obtain ⟨hstep', hself⟩ := hrest.writeInode hn (i := { i with provCount := i.provCount + 1 })
    (fun r => .inr (by rw [htable]; exact hi r))
  subst h
  exact ⟨(hstep.trans hstep').audit _, .inr ⟨rfl, hself⟩⟩

theorem LaidOut.readInode (h : LaidOut g vol) (hn : n < 4096) :
    vol.readInode n = inodeTable g vol.disk n := by
  obtain ⟨m, hsb⟩ := h.sb
  rw [inodeTable, if_pos hn, Volume.readInode, hsb]
  rfl

theorem Rest.readInode (hr : Rest g vol) (hn : n < 4096) :
    vol.readInode n = inodeTable g vol.disk n := hr.mid.laidOut.readInode hn

structure Loop (g : Superblock) (n : ℕ) (R : ℕ × Root → ℕ) (vol : Volume) (i : Inode)
    (vol' : Volume) (i' : Inode) : Prop where
  mid : Mid g (withInode R n i') vol'
  idle : vol'.jtxnActive = false
  runs : Runs g vol vol'
  mono : ∀ b, bitmapGet vol.blockBitmap b = true → bitmapGet vol'.blockBitmap b = true
  sites : ∀ s : Site, s.1.1 ≠ n → siteRef (withInode R n i') vol'.disk s =
    siteRef (withInode R n i) vol.disk s
  added : ∀ s : Site, siteRef (withInode R n i') vol'.disk s =
      siteRef (withInode R n i) vol.disk s ∨
    bitmapGet vol.blockBitmap (siteRef (withInode R n i') vol'.disk s) = false
  frame : ∀ b, InBody g b → bitmapGet vol.blockBitmap b = true →
    (∀ s : Site, s.1.1 = n → siteRef (withInode R n i) vol.disk s ≠ b) → vol'.disk b = vol.disk b
  info : i' = { i with
    direct := i'.direct, indirect := i'.indirect, doubleIndirect := i'.doubleIndirect }

variable {R : ℕ × Root → ℕ} {i i' i'' : Inode}

theorem Loop.refl (hm : Mid g (withInode R n i) vol) (hidle : vol.jtxnActive = false) :
    Loop g n R vol i vol i :=
  ⟨hm, hidle, Runs.of_eq hm.crash rfl rfl, fun _ h => h, fun _ _ => rfl, fun _ => .inl rfl,
    fun _ _ _ _ => rfl, rfl⟩

theorem Loop.trans (h : Loop g n R vol i vol' i') (h' : Loop g n R vol' i' vol'' i'') :
    Loop g n R vol i vol'' i'' := by
  refine ⟨h'.mid, h'.idle, h.runs.trans h'.runs, fun b hb => h'.mono b (h.mono b hb),
    fun s hs => (h'.sites s hs).trans (h.sites s hs), fun s => ?_, fun b hb hused hs => ?_, ?_⟩
  · rcases h'.added s with he | hf
    · rw [he]
      exact h.added s
    right
    by_contra hne
    rw [h.mono _ (by simpa using hne)] at hf
    exact absurd hf (by decide)
  · rw [h'.frame b hb (h.mono b hused), h.frame b hb hused hs]
    intro s hsn he
    rcases h.added s with heq | hf
    · exact hs s hsn (heq ▸ he)
    rw [he, hused] at hf
    exact absurd hf (by decide)
  · rw [h'.info, h.info]

theorem Mid.resolve_loop (hm : Mid g (withInode R n i) vol) (hidle : vol.jtxnActive = false)
    (fb : ℕ) {res : Volume × Inode × ℕ × Bool} (h : res = vol.resolveBlock i fb true) :
    Loop g n R vol i res.1 res.2.1 ∧ Resolved g R n vol i fb res := by
  have hview := view_of_idle hidle
  have hres : Resolved g R n vol i fb (vol.resolveBlock i fb true) :=
    hm.resolveBlock (fun ha => absurd (hidle ▸ ha) (by decide)) (fun p _ _ => by rw [hview])
      (fun ha => absurd (hidle ▸ ha) (by decide))
  rw [← h] at hres
  have hgrew := hres.grew
  have hidle' := hgrew.active.trans hidle
  have hview' := view_of_idle hidle'
  have hadded := hgrew.added
  have hframe := hgrew.view
  rw [hview, hview'] at hadded hframe
  refine ⟨⟨hgrew.mid, hidle', hgrew.runs, hgrew.mono, fun s hs => ?_, fun s => ?_,
    fun b hb hused hs => ?_, hres.info⟩, hres⟩
  · rcases hadded s with he | ⟨hr, -⟩
    · exact he
    · exact absurd (by rw [hr]) hs
  · rcases hadded s with he | ⟨-, -, -, hf⟩
    · exact .inl he
    · exact .inr hf
  · exact hframe b hb hused fun p _ _ => hs _ rfl

/-- Writing a data block of inode `n`. -/
theorem Mid.writeData (hm : Mid g (withInode R n i) vol) (hidle : vol.jtxnActive = false)
    {fb : ℕ} (h0 : blockAt vol.disk i fb ≠ 0) (buf : Block) :
    Loop g n R vol i (vol.writeBlock (blockAt vol.disk i fb) buf) i ∧
      siteRef (withInode R n i) (vol.writeBlock (blockAt vol.disk i fb) buf).disk =
        siteRef (withInode R n i) vol.disk := by
  have hg := hm.geometry
  have hview := view_of_idle hidle
  have hmax : fb < maxDirBlocks := by
    by_contra h
    exact h0 (if_neg h)
  have hsite := siteRef_eq_blockAt (withInode_self R n i) vol.disk hmax
  have howned := hm.owned
  rw [hview] at howned
  have hin := (howned.ok (hsite ▸ h0)).1
  rw [hsite] at hin
  have hsites : siteRef (withInode R n i)
      (update vol.disk (blockAt vol.disk i fb) buf) = siteRef (withInode R n i) vol.disk := by
    rw [← hsite]
    exact siteRef_update_leaf howned (hsite ▸ h0) (length_pathOf fb) buf
  obtain ⟨hmid, hruns⟩ := hm.writeBlock hidle (hg.inBody_of_inData hin).1
    (.inl hin.2) buf (by rw [hsites]; exact howned)
    (fun x => by rw [diskRoots_update_data hg _ hin]; exact hm.below hidle x)
  refine ⟨⟨hmid, hidle, hruns, fun _ h => h, fun s _ => ?_, fun s => .inl ?_,
    fun b _ _ hs => ?_, rfl⟩, hsites⟩
  · rw [writeBlock_disk, hsites]
  · rw [writeBlock_disk, hsites]
  rw [writeBlock_disk, update_of_ne]
  intro he
  exact hs ((n, rootOf fb), pathOf fb) rfl (by rw [hsite, he])

theorem Mid.writeLoop (off : ℕ) (data : List UInt8) (fuel : ℕ)
    (hm : Mid g (withInode R n i) vol) (hidle : vol.jtxnActive = false) (k : ℕ) (dirty : Bool)
    {res : Volume × Inode × ℕ × Bool}
    (h : res = writeLoop off data fuel vol i k dirty) :
    Loop g n R vol i res.1 res.2.1 ∧ (res.2.2.2 = false → dirty = false ∧ res.2.1 = i) := by
  induction fuel generalizing vol i k dirty with
  | zero =>
    subst h
    exact ⟨Loop.refl hm hidle, fun hclean => ⟨hclean, rfl⟩⟩
  | succ fuel ih =>
    rw [writeLoop] at h
    split_ifs at h with hk
    · subst h
      exact ⟨Loop.refl hm hidle, fun hclean => ⟨hclean, rfl⟩⟩
    dsimp only at h
    generalize hr : vol.resolveBlock i ((off + k) % 2 ^ 64 / 4096) true = r at h
    obtain ⟨hloop, hres⟩ := hm.resolve_loop hidle _ hr.symm
    have hmark : (dirty || r.2.2.2) = false → dirty = false ∧ r.2.1 = i := fun hd =>
      (Bool.or_eq_false_iff.mp hd).imp_right hres.clean
    by_cases hblk : r.2.2.1 = 0
    · rw [if_pos hblk] at h
      subst h
      exact ⟨hloop, hmark⟩
    rw [if_neg hblk] at h
    have hblock := hres.block
    rw [view_of_idle hloop.idle] at hblock
    rw [← hblock] at h hblk
    generalize (Buf.patch _ _ _ _ : Block) = buf at h
    obtain ⟨hdata, -⟩ := hloop.mid.writeData hloop.idle hblk buf
    obtain ⟨hrest, hclean⟩ := ih hdata.mid hdata.idle _ _ h
    refine ⟨(hloop.trans hdata).trans hrest, fun hc => ?_⟩
    obtain ⟨hd, hi⟩ := hclean hc
    exact (hmark hd).imp_right hi.trans

theorem Loop.table_eq (h : Loop g n R vol i vol' i') (hm : Mid g (withInode R n i) vol)
    (hidle : vol.jtxnActive = false) :
    inodeTable g vol'.disk = inodeTable g vol.disk := by
  have hg := hm.geometry
  have hds := hg.dataStartBlock
  have hit := hg.inodeTableBlock
  have howned := hm.owned
  rw [view_of_idle hidle] at howned
  funext m
  unfold inodeTable
  split_ifs with hmn
  · rw [h.frame _ (hg.inBody_table hmn) (hm.reserved _ (.inl (by omega))) fun s _ he => ?_]
    have := (howned.ok (he.trans_ne (by omega))).1.1
    omega
  · rfl

theorem Loop.disk_other (h : Loop g n R vol i vol' i') (hm : Mid g (withInode R n i) vol)
    (hidle : vol.jtxnActive = false) {s : Site} (hs : s.1.1 ≠ n)
    (h0 : siteRef (withInode R n i) vol.disk s ≠ 0) :
    vol'.disk (siteRef (withInode R n i) vol.disk s) =
      vol.disk (siteRef (withInode R n i) vol.disk s) := by
  have howned := hm.owned
  rw [view_of_idle hidle] at howned
  obtain ⟨hin, hused⟩ := howned.ok h0
  refine h.frame _ (hm.geometry.inBody_of_inData hin) hused fun s' hs' he => ?_
  rw [howned.unique (he ▸ h0) he] at hs'
  exact hs hs'

theorem Loop.commit (h : Loop g n (diskRoots g vol.disk) vol i vol' i') (hr : Rest g vol)
    (hi : withInode (diskRoots g vol.disk) n i = diskRoots g vol.disk) (hn : n < 4096)
    {j : Inode} (hj : ∀ r, j.root r = i'.root r) :
    FileStep g n vol (vol'.journalBegin.writeInode n j).journalCommit ∧
      inodeTable g (vol'.journalBegin.writeInode n j).journalCommit.disk n = j ∧
      ∀ b, InData g b → (vol'.journalBegin.writeInode n j).journalCommit.disk b = vol'.disk b := by
  have hidle := hr.idle
  have hm : Mid g (withInode (diskRoots g vol.disk) n i) vol := hi.symm ▸ hr.mid
  have hg := hm.geometry
  have hdj := hg.data_lt_journal
  have hds := hg.dataStartBlock
  have htable' := h.table_eq hm hidle
  obtain ⟨hmb, hrb, hvb⟩ := h.mid.journalBegin h.idle
  have hw : MetaWritten g (withInode (diskRoots g vol.disk) n i') vol'.journalBegin _ _
      (vol'.journalBegin.writeInode n j) :=
    hmb.writeInode (fun _ => by simp [journalBegin]) hn j hmb.owned
      (fun ha => absurd ha (by simp [journalBegin]))
  have hact : (vol'.journalBegin.writeInode n j).jtxnActive := hw.active
  have hview := hw.view
  rw [hvb] at hview
  have htv : inodeTable g (vol'.journalBegin.writeInode n j).view =
      update (inodeTable g vol.disk) n j := by
    rw [hview, inodeTable_setInode g _ hn, htable']
  have hrv : diskRoots g (vol'.journalBegin.writeInode n j).view =
      withInode (diskRoots g vol.disk) n i' := by
    funext x
    unfold diskRoots withInode
    rw [htv]
    split_ifs with hx
    · rw [hx, update_self, hj]
    · rw [update_of_ne hx]
  have hc := hw.mid.journalCommit hact fun x => .inr (by rw [hrv])
  generalize (vol'.journalBegin.writeInode n j).journalCommit = vc at hc
  have hbody : ∀ b, InBody g b → vc.disk b = (vol'.journalBegin.writeInode n j).view b :=
    fun b hb => hc.disk b (.inl hb.2)
  have htc := (inodeTable_congr hg hbody).trans htv
  have hrc := (diskRoots_congr hg hbody).trans hrv
  have hdata : ∀ b, InData g b → vc.disk b = vol'.disk b := by
    intro b hb
    rw [hbody _ (hg.inBody_of_inData hb), hview, update_of_ne]
    have := hb.1
    omega
  refine ⟨⟨⟨hc.idle, hrc ▸ hc.mid⟩, ((h.runs.trans hrb).trans hw.runs).trans hc.runs,
    fun m hmn => ?_, fun s hs h0 => ?_⟩, ?_, hdata⟩
  · rw [htc, update_of_ne hmn]
  · have hother := h.disk_other hm hidle hs (by rw [hi]; exact h0)
    rw [hi] at hother
    rw [hdata _ (hr.mid.safe.sound.ok h0).1, hother]
  · rw [htc, update_self]

theorem Loop.fileStep (h : Loop g n (diskRoots g vol.disk) vol i vol' i) (hr : Rest g vol)
    (hi : withInode (diskRoots g vol.disk) n i = diskRoots g vol.disk) :
    FileStep g n vol vol' ∧ inodeTable g vol'.disk = inodeTable g vol.disk := by
  have hm : Mid g (withInode (diskRoots g vol.disk) n i) vol := hi.symm ▸ hr.mid
  have htable := h.table_eq hm hr.idle
  have hroots : diskRoots g vol'.disk = diskRoots g vol.disk := by
    unfold diskRoots
    rw [htable]
  refine ⟨⟨⟨h.idle, ?_⟩, h.runs, fun m _ => by rw [htable], fun s hs h0 => ?_⟩, htable⟩
  · rw [hroots, ← hi]
    exact h.mid
  have hother := h.disk_other hm hr.idle hs (by rw [hi]; exact h0)
  rwa [hi] at hother

structure Agrees (i j : Inode) : Prop where
  root : ∀ r, i.root r = j.root r
  mode : i.mode = j.mode
  size : i.size = j.size

theorem Agrees.refl (i : Inode) : Agrees i i := ⟨fun _ => rfl, rfl, rfl⟩

theorem Agrees.withInode_eq {d : ℕ → Block} (h : Agrees i (inodeTable g d n)) :
    withInode (diskRoots g d) n i = diskRoots g d := by
  funext x
  unfold withInode
  split_ifs with hx
  · rw [h.root, diskRoots, hx]
  · rfl

/-- `exfs_append_prov` keeps a node's copy in agreement with the device. -/
theorem Rest.appendProv_agrees (hr : Rest g vol) (hn : n < 4096)
    (hi : Agrees i (inodeTable g vol.disk n)) (op : UInt8) (pid : UInt32)
    (capUpper fileOffset length : UInt64) {res : Volume × Inode}
    (h : res = vol.appendProv n i op pid capUpper fileOffset length) :
    InodeStep g n vol res.1 ∧ Agrees res.2 (inodeTable g res.1.disk n) ∧ Agrees res.2 i := by
  obtain ⟨hstep, rfl | ⟨h2, htable⟩⟩ := hr.appendProv hn hi.root op pid capUpper fileOffset length h
  · exact ⟨hstep, hi, Agrees.refl _⟩
  refine ⟨hstep, ?_, ?_⟩
  · rw [htable]
    exact Agrees.refl _
  · rw [h2]
    exact ⟨fun r => by cases r <;> rfl, rfl, rfl⟩

theorem Rest.opOpen (hr : Rest g vol) (hn : node.inodeNum < 4096) {res : Volume × Node × Bool}
    (h : res = vol.opOpen node) :
    InodeStep g node.inodeNum vol res.1 ∧
      Agrees res.2.1.inode (inodeTable g res.1.disk node.inodeNum) ∧
      Agrees res.2.1.inode (inodeTable g vol.disk node.inodeNum) := by
  unfold Volume.opOpen at h
  dsimp only at h
  rw [hr.readInode hn] at h
  generalize hp : vol.appendProv _ _ _ _ _ _ _ = p at h
  subst h
  exact hr.appendProv_agrees hn (Agrees.refl _) _ _ _ _ _ hp.symm

theorem Rest.opRead (hr : Rest g vol) (hn : node.inodeNum < 4096)
    (hi : Agrees node.inode (inodeTable g vol.disk node.inodeNum)) (off len : ℕ)
    {res : Volume × Node × List UInt8} (h : res = vol.opRead node off len) :
    InodeStep g node.inodeNum vol res.1 ∧
      Agrees res.2.1.inode (inodeTable g res.1.disk node.inodeNum) ∧
      Agrees res.2.1.inode node.inode := by
  unfold Volume.opRead at h
  dsimp only at h
  generalize (if node.inode.size.toNat < (off + len) % 2 ^ 64 then _ else len) = len' at h
  split_ifs at h
  · subst h
    exact ⟨InodeStep.refl hr, hi, Agrees.refl _⟩
  · subst h
    exact ⟨InodeStep.refl hr, hi, Agrees.refl _⟩
  generalize hp : vol.appendProv _ _ _ _ _ _ _ = p at h
  subst h
  exact hr.appendProv_agrees hn hi _ _ _ _ _ hp.symm

/-- Writing the inode back with other attributes, as `opChmod` and `opChgrp` do. -/
theorem Rest.writeAttrs (hr : Rest g vol) (hn : node.inodeNum < 4096)
    (ha : Agrees node.inode (inodeTable g vol.disk node.inodeNum)) {i : Inode}
    (hi : ∀ r, i.root r = node.inode.root r) :
    InodeStep g node.inodeNum vol (vol.writeInode node.inodeNum i) ∧
      inodeTable g (vol.writeInode node.inodeNum i).disk node.inodeNum = i ∧
      ∀ r, i.root r = (inodeTable g vol.disk node.inodeNum).root r := by
  have hroot r := (hi r).trans (ha.root r)
  obtain ⟨hstep, hnew⟩ := hr.writeInode hn fun r => .inr (hroot r)
  exact ⟨hstep, hnew, hroot⟩

structure Written (g : Superblock) (vol : Volume) (node : Node) (off : ℕ)
    (lp : Volume × Inode × ℕ × Bool) (res : Volume × Node × ℕ) : Prop where
  step : FileStep g node.inodeNum vol res.1
  count : res.2.2 = lp.2.2.1
  agrees : Agrees res.2.1.inode (inodeTable g res.1.disk node.inodeNum)
  root : ∀ r, res.2.1.inode.root r = lp.2.1.root r
  mode : res.2.1.inode.mode = node.inode.mode
  size : res.2.1.inode.size = if node.inode.size.toNat < (off + res.2.2) % 2 ^ 64 then
    UInt64.ofNat (off + res.2.2) else node.inode.size
  data : ∀ b, InData g b → res.1.disk b = lp.1.disk b
  same : res.2.1 = { node with inode := res.2.1.inode, size := res.2.1.size }

theorem grownInode_root (i : Inode) (off written : ℕ) (now : UInt64) (dirty : Bool)
    (r : Root) : (grownInode i off written now dirty).1.root r = i.root r := by
  unfold grownInode
  dsimp only
  split_ifs <;> cases r <;> rfl

private theorem grownInode_mode (i : Inode) (off written : ℕ) (now : UInt64) (dirty : Bool) :
    (grownInode i off written now dirty).1.mode = i.mode := by
  unfold grownInode
  dsimp only
  split_ifs <;> rfl

theorem grownInode_size (i : Inode) (off written : ℕ) (now : UInt64) (dirty : Bool) :
    (grownInode i off written now dirty).1.size =
      if i.size.toNat < (off + written) % 2 ^ 64 then UInt64.ofNat (off + written)
      else i.size := by
  unfold grownInode
  dsimp only
  by_cases h : i.size.toNat < (off + written) % 2 ^ 64
  · simp only [h, decide_true, if_true]
    split_ifs <;> rfl
  · simp only [h, decide_false, Bool.false_eq_true, if_false]
    split_ifs <;> rfl

theorem grownInode_clean {i : Inode} {off written : ℕ} {now : UInt64} {dirty : Bool}
    (h : (grownInode i off written now dirty).2 = false) :
    dirty = false ∧ (grownInode i off written now dirty).1 = i := by
  unfold grownInode at h ⊢
  simp only [Bool.or_eq_false_iff] at h
  obtain ⟨⟨hd, hgrow⟩, hpos⟩ := h
  refine ⟨hd, ?_⟩
  simp only [hgrow, of_decide_eq_false hpos, Bool.false_eq_true, if_false]

private theorem FileStep.written {off : ℕ} {lp : Volume × Inode × ℕ × Bool} {j : Inode}
    (hstep : FileStep g node.inodeNum vol vol') (hn : node.inodeNum < 4096)
    (hj : Agrees j (inodeTable g vol'.disk node.inodeNum))
    (hdata : ∀ b, InData g b → vol'.disk b = lp.1.disk b) (hroot : ∀ r, j.root r = lp.2.1.root r)
    (hmode : j.mode = node.inode.mode)
    (hsize : j.size = if node.inode.size.toNat < (off + lp.2.2.1) % 2 ^ 64 then UInt64.ofNat (off +
      lp.2.2.1) else node.inode.size) {p : Volume × Inode}
    (hp : p = vol'.appendProv node.inodeNum j provOpWrite 0 0 (UInt64.ofNat off) (UInt64.ofNat
      lp.2.2.1)) :
    Written g vol node off lp (p.1, { node with inode := p.2, size := j.size }, lp.2.2.1) := by
  obtain ⟨hprov, hagree, hsame⟩ := hstep.rest.appendProv_agrees hn hj _ _ _ _ _ hp
  exact ⟨hstep.trans (hprov.fileStep hstep.rest), rfl, hagree,
    fun r => (hsame.root r).trans (hroot r), hsame.mode.trans hmode, hsame.size.trans hsize,
    fun b hb => (hprov.data b hb).trans (hdata b hb), rfl⟩

theorem Rest.opWrite (hr : Rest g vol) (hn : node.inodeNum < 4096)
    (hi : Agrees node.inode (inodeTable g vol.disk node.inodeNum)) (off : ℕ) (data : List UInt8)
    {lp : Volume × Inode × ℕ × Bool}
    (hlp : lp = writeLoop off data data.length vol node.inode 0 false)
    {res : Volume × Node × ℕ} (h : res = vol.opWrite node off data) :
    Written g vol node off lp res := by
  have hR := hi.withInode_eq
  have hm : Mid g (withInode (diskRoots g vol.disk) node.inodeNum node.inode) vol :=
    hR.symm ▸ hr.mid
  obtain ⟨hloop, hkeep⟩ := hm.writeLoop off data _ hr.idle 0 false hlp
  unfold Volume.opWrite at h
  rw [← hlp] at h
  dsimp only at h
  have hmode := grownInode_mode lp.2.1 off lp.2.2.1 lp.1.auditTotal lp.2.2.2
  have hsize := grownInode_size lp.2.1 off lp.2.2.1 lp.1.auditTotal lp.2.2.2
  have hroot := grownInode_root lp.2.1 off lp.2.2.1 lp.1.auditTotal lp.2.2.2
  rw [(by rw [hloop.info] : lp.2.1.mode = node.inode.mode)] at hmode
  rw [(by rw [hloop.info] : lp.2.1.size = node.inode.size)] at hsize
  generalize hgr : grownInode lp.2.1 off lp.2.2.1 lp.1.auditTotal lp.2.2.2 = gr at *
  cases hdirty : gr.2 with
  | false =>
    rw [hdirty] at h
    simp only [Bool.false_eq_true, if_false] at h
    generalize hp : lp.1.appendProv _ _ _ _ _ _ _ = p at h
    obtain ⟨hclean, hsame⟩ := grownInode_clean (hgr ▸ hdirty)
    have heq := (hkeep hclean).2
    rw [hgr, heq] at hsame
    rw [heq] at hloop
    obtain ⟨hstep, htable⟩ := hloop.fileStep hr hR
    rw [h]
    refine hstep.written hn ?_ (fun _ _ => rfl) hroot hmode hsize hp.symm
    rwa [hsame, htable]
  | true =>
    rw [hdirty] at h
    simp only [if_true] at h
    generalize lp.1.computeWholeFileHash gr.1 = hash at h
    have hroot' : ∀ r, ({ gr.1 with blockHash := hash } : Inode).root r = lp.2.1.root r :=
      fun r => (by cases r <;> rfl : _ = gr.1.root r).trans (hroot r)
    obtain ⟨hstep, htable, hdata⟩ := hloop.commit hr hR hn hroot'
    generalize (lp.1.journalBegin.writeInode _ _).journalCommit = vc at *
    generalize hp : vc.appendProv _ _ _ _ _ _ _ = p at h
    rw [h]
    refine hstep.written hn ?_ hdata hroot' hmode hsize hp.symm
    rw [htable]
    exact Agrees.refl _

end

end Exploidus.Exfs
