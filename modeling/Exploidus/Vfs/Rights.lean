import Exploidus.Vfs.Volumes
import Exploidus.Vfs.Calls

/-! What the driver's operations change on a volume, against the rights of the caller. -/
namespace Exploidus.Vfs
open Exfs Function

/-- The mode bits of a file let the caller write to it, or the caller owns it. -/
def mayChange (c : Caller) (i : Inode) : Bool :=
  mayWrite c i.mode i.ownerUid i.groupGid || c.uid == i.ownerUid

/-- The mode bits of a directory let the caller write to it. -/
def mayEnter (c : Caller) (i : Inode) : Bool := mayWrite c i.mode i.ownerUid i.groupGid

def Named (g : Superblock) (d : ℕ → Block) (n : ℕ) : Prop :=
  n = 0 ∨ ∃ m f k, IsDir g d m ∧ (entry g d m f k).live = true ∧
    (entry g d m f k).inodeNum.toNat = n

structure SameFile (g : Superblock) (d d' : ℕ → Block) (n : ℕ) : Prop where
  mode : (inodeTable g d' n).mode = (inodeTable g d n).mode
  ownerUid : (inodeTable g d' n).ownerUid = (inodeTable g d n).ownerUid
  groupGid : (inodeTable g d' n).groupGid = (inodeTable g d n).groupGid
  bytes : ¬ IsDir g d n → (inodeTable g d' n).size = (inodeTable g d n).size ∧
    ∀ x, byteAt d' (inodeTable g d' n) x = byteAt d (inodeTable g d n) x

/-- What the caller does on a volume is covered by its rights: a file changes its rights or its
bytes only if the caller may change it or it is one of `held`, and an entry appears, disappears or
changes only if the caller may write to the directory or owns the file it named. -/
structure Respects (g : Superblock) (c : Caller) (held : ℕ → Prop) (vol vol' : Volume) :
    Prop where
  files : ∀ n, Named g vol.disk n → Named g vol'.disk n → ¬ SameFile g vol.disk vol'.disk n →
    held n ∨ mayChange c (inodeTable g vol.disk n)
  names : ∀ m f k, IsDir g vol.disk m →
    (entry g vol.disk m f k).live = true ∨ (entry g vol'.disk m f k).live = true →
    entry g vol'.disk m f k ≠ entry g vol.disk m f k →
    mayEnter c (inodeTable g vol.disk m) ∨ ((entry g vol.disk m f k).live = true ∧
      c.uid = (inodeTable g vol.disk (entry g vol.disk m f k).inodeNum.toNat).ownerUid)

theorem mayChange_of_mayEnter {c : Caller} {i : Inode} (h : mayEnter c i) : mayChange c i := by
  unfold mayChange
  rw [Bool.or_eq_true]
  exact .inl h

section
variable {g : Superblock} {c : Caller} {held : ℕ → Prop} {vol vol' vol'' : Volume} {n : ℕ}
  {node dir : Node}

theorem SameFile.refl (d : ℕ → Block) (n : ℕ) : SameFile g d d n :=
  ⟨rfl, rfl, rfl, fun _ => ⟨rfl, fun _ => rfl⟩⟩

theorem SameFile.of_dir {d d' : ℕ → Block} (h : inodeTable g d' n = inodeTable g d n)
    (hn : IsDir g d n) : SameFile g d d' n :=
  ⟨by rw [h], by rw [h], by rw [h], fun hfile => absurd hn hfile⟩

theorem Respects.refl (vol : Volume) : Respects g c held vol vol :=
  ⟨fun n _ _ h => absurd (.refl _ n) h, fun _ _ _ _ _ h => absurd rfl h⟩

/-! Reading in between changes nothing of this. -/

theorem OnlyRead.byteAt_eq (h : OnlyRead g vol vol') (hr : Rest g vol) (n x : ℕ) :
    byteAt vol'.disk (inodeTable g vol'.disk n) x = byteAt vol.disk (inodeTable g vol.disk n) x :=
  byteAt_congr (h.blockAt_eq hr n _)
    fun h0 => h.data (blockAt_inData hr.mid.safe.sound (fun _ => rfl) h0).1

theorem SameFile.read (h : SameFile g vol.disk vol'.disk n) (hr : Rest g vol')
    (h' : OnlyRead g vol' vol'') : SameFile g vol.disk vol''.disk n := by
  obtain ⟨k, hk⟩ := h'.inode n
  refine ⟨by rw [hk]; exact h.mode, by rw [hk]; exact h.ownerUid, by rw [hk]; exact h.groupGid,
    fun hn => ?_⟩
  obtain ⟨hsize, hbytes⟩ := h.bytes hn
  exact ⟨by rw [hk]; exact hsize, fun x => (h'.byteAt_eq hr n x).trans (hbytes x)⟩

section
variable (h : OnlyRead g vol vol')
include h

theorem OnlyRead.isDir_iff (hr : Rest g vol) (n : ℕ) :
    IsDir g vol'.disk n ↔ IsDir g vol.disk n := by
  refine ⟨fun hn => ?_, h.isDir hr⟩
  induction hn with
  | root => exact .root
  | @child n f k _ hl ht ih =>
    rw [h.entry_eq hr] at hl ht ⊢
    exact .child ih hl ht

theorem OnlyRead.named_iff (hr : Rest g vol) (n : ℕ) :
    Named g vol'.disk n ↔ Named g vol.disk n := by
  unfold Named
  simp only [h.entry_eq hr, h.isDir_iff hr]

/-- Reading changes nothing of an inode but its count of records. -/
theorem OnlyRead.inode_congr {α : Type*} {f : Inode → α}
    (hf : ∀ i k, f { i with provCount := k } = f i) (n : ℕ) :
    f (inodeTable g vol'.disk n) = f (inodeTable g vol.disk n) := by
  obtain ⟨k, hk⟩ := h.inode n
  rw [hk, hf]

end

theorem SameFile.after_read (hr : Rest g vol) (h : OnlyRead g vol vol')
    (h' : SameFile g vol'.disk vol''.disk n) : SameFile g vol.disk vol''.disk n := by
  obtain ⟨k, hk⟩ := h.inode n
  have hmode := h'.mode
  have howner := h'.ownerUid
  have hgroup := h'.groupGid
  have hbytes := h'.bytes
  rw [h.isDir_iff hr] at hbytes
  rw [hk] at hmode howner hgroup
  refine ⟨hmode, howner, hgroup, fun hn => ?_⟩
  obtain ⟨hsize, hbytes⟩ := hbytes hn
  rw [hk] at hsize
  exact ⟨hsize, fun x => (hbytes x).trans (h.byteAt_eq hr n x)⟩

theorem Respects.after_read (hr : Rest g vol) (h : OnlyRead g vol vol')
    (h' : Respects g c held vol' vol'') : Respects g c held vol vol'' := by
  refine ⟨fun n hn hn'' hne => ?_, fun m f k hm hl hne => ?_⟩
  · rw [← h.inode_congr (f := mayChange c) fun _ _ => rfl]
    exact h'.files n ((h.named_iff hr n).mpr hn) hn'' fun hsame => hne (hsame.after_read hr h)
  have hentry := h.entry_eq hr m f k
  have hname := h'.names m f k (h.isDir hr hm) (by rwa [hentry]) (by rwa [hentry])
  rwa [hentry, h.inode_congr (f := mayEnter c) fun _ _ => rfl,
    h.inode_congr (f := Inode.ownerUid) fun _ _ => rfl] at hname

theorem Respects.before_read (hr : Rest g vol') (h : Respects g c held vol vol')
    (h' : OnlyRead g vol' vol'') : Respects g c held vol vol'' := by
  refine ⟨fun n hn hn'' hne => ?_, fun m f k hm hl hne => ?_⟩
  · exact h.files n hn ((h'.named_iff hr n).mp hn'') fun hsame => hne (hsame.read hr h')
  have hentry := h'.entry_eq hr m f k
  rw [hentry] at hl hne
  exact h.names m f k hm hl hne

theorem OnlyRead.respects (hr : Rest g vol) (h : OnlyRead g vol vol') :
    Respects g c held vol vol' := .after_read hr h (.refl vol')

/-! The operations of the driver. -/

theorem sameFile_of_step {S : Set ℕ} (h : Step g S vol vol') (hn : n ∉ S) :
    SameFile g vol.disk vol'.disk n := by
  have htable := h.table n hn
  refine ⟨by rw [htable], by rw [htable], by rw [htable], fun _ => ⟨by rw [htable], fun x => ?_⟩⟩
  refine byteAt_congr (congrFun (h.blockAt_eq hn) _) fun h0 => ?_
  have hsite : blockAt vol.disk (inodeTable g vol.disk n) (x / 4096) =
      siteRef (diskRoots g vol.disk) vol.disk _ := blockAt_eq_siteRef vol.disk (lt_of_blockAt h0)
  rw [hsite] at h0 ⊢
  exact h.blocks _ hn h0

theorem respects_of_step {S : Set ℕ} (h : Step g S vol vol')
    (hfiles : ∀ n ∈ S, Named g vol.disk n → Named g vol'.disk n →
      SameFile g vol.disk vol'.disk n ∨ held n ∨ mayChange c (inodeTable g vol.disk n))
    (hnames : ∀ m ∈ S, IsDir g vol.disk m → ∀ f k,
      (entry g vol.disk m f k).live ∨ (entry g vol'.disk m f k).live →
      entry g vol'.disk m f k ≠ entry g vol.disk m f k →
      mayEnter c (inodeTable g vol.disk m) ∨ ((entry g vol.disk m f k).live ∧
        c.uid = (inodeTable g vol.disk (entry g vol.disk m f k).inodeNum.toNat).ownerUid)) :
    Respects g c held vol vol' := by
  refine ⟨fun n hn hn' hne => ?_, fun m f k hm hl hne => ?_⟩
  · by_cases hS : n ∈ S
    · exact (hfiles n hS hn hn').resolve_left hne
    · exact absurd (sameFile_of_step h hS) hne
  · by_cases hS : m ∈ S
    · exact hnames m hS hm f k hl hne
    · exact absurd (h.entry_eq hS f k) hne

theorem named_taken (hc : Consistent g vol) (hn : Named g vol.disk n) : Taken g vol.disk n := by
  rcases hn with rfl | ⟨m, f, k, hm, hl, rfl⟩
  · exact fun h0 => absurd rfl h0
  · exact fun _ => hc.ns.inUse m f k hm hl

theorem inodeStep_respects (h : InodeStep g n vol vol') (hr : Rest g vol)
    (hroot : ∀ r, (inodeTable g vol'.disk n).root r = (inodeTable g vol.disk n).root r)
    (hmay : held n ∨ mayChange c (inodeTable g vol.disk n)) : Respects g c held vol vol' := by
  refine respects_of_step (h.fileStep hr) (fun m hm _ _ => ?_) fun m _ _ f k _ hne => ?_
  · obtain rfl : m = n := hm
    exact .inr hmay
  · exact absurd (h.entry_eq hr hroot m f k) hne

theorem writeAttrs_respects (hc : Consistent g vol) (hcur : Current g vol.disk node) {i : Inode}
    (hi : ∀ r, i.root r = node.inode.root r)
    (hmay : mayChange c (inodeTable g vol.disk node.inodeNum)) :
    Respects g c held vol (vol.writeInode node.inodeNum i) := by
  obtain ⟨hstep, hnew, hroot⟩ := hc.rest.writeAttrs hcur.bound hcur.agrees hi
  exact inodeStep_respects hstep hc.rest (fun r => by rw [hnew, hroot]) (.inr hmay)

theorem opWrite_respects (hc : Consistent g vol) (hcur : Current g vol.disk node)
    (hfile : ¬ IsDir g vol.disk node.inodeNum) (off : ℕ) (data : List UInt8)
    (hheld : held node.inodeNum) : Respects g c held vol (vol.opWrite node off data).1 := by
  have hw := hc.rest.opWrite hcur.bound hcur.agrees off data rfl rfl
  refine respects_of_step hw.step (fun m hm _ _ => ?_) fun m hm hdir => ?_
  · obtain rfl : m = node.inodeNum := hm
    exact .inr (.inl hheld)
  · obtain rfl : m = node.inodeNum := hm
    exact absurd hdir hfile

theorem newEntry_respects {din i : Inode} {ino : ℕ} {e : Dirent} {res : Volume × Inode × Bool}
    (h : NewEntry g vol n din ino i e res) (hc : Consistent g vol)
    (hfree : FreeInode g vol.disk ino) (hmay : mayEnter c (inodeTable g vol.disk n)) :
    Respects g c held vol res.1 := by
  refine respects_of_step h.step (fun m hm hn _ => ?_) fun m hm hdir f k hl hne => ?_
  · rcases hm with rfl | rfl
    · exact .inr (.inr (mayChange_of_mayEnter hmay))
    · exact absurd rfl ((named_taken hc hn).ne_free hfree)
  · rcases hm with rfl | rfl
    · exact .inl hmay
    · exact absurd rfl ((hc.ns.taken hdir).ne_free hfree)

theorem opCreate_respects (hc : Consistent g vol) (hcur : Current g vol.disk dir)
    (hdir : IsDir g vol.disk dir.inodeNum) (hclean : CleanGrowth g vol dir.inode 2)
    (name : List UInt8) (fileType : UInt8) (uid gid : UInt32)
    (hmay : mayEnter c (inodeTable g vol.disk dir.inodeNum)) :
    Respects g c held vol (vol.opCreate dir name fileType uid gid).1 := by
  rcases hc.rest.opCreate hcur (hc.ns.taken hdir) hclean name fileType uid gid rfl with
    h | ⟨ino, hfree, -, hnew, -, -⟩
  · rw [h]
    exact .refl vol
  · exact newEntry_respects hnew hc hfree hmay

theorem opSymlink_respects (hc : Consistent g vol) (hcur : Current g vol.disk dir)
    (hdir : IsDir g vol.disk dir.inodeNum) (hclean : CleanGrowth g vol dir.inode 3)
    (name target : List UInt8) (uid gid : UInt32)
    (hmay : mayEnter c (inodeTable g vol.disk dir.inodeNum)) :
    Respects g c held vol (vol.opSymlink dir name target uid gid).1 := by
  rcases hc.rest.opSymlink hcur (hc.ns.taken hdir) hclean name target uid gid rfl with
    ⟨hstep, -, -⟩ | ⟨ino, blk, hfree, -, hnew, -⟩
  · exact respects_of_step hstep (fun _ hm => absurd hm (Set.notMem_empty _))
      fun _ hm => absurd hm (Set.notMem_empty _)
  · exact newEntry_respects hnew hc hfree hmay

theorem removed_respects {f k : ℕ}
    (h : Removed g n (entry g vol.disk n f k).inodeNum.toNat f k vol vol')
    (hc : Consistent g vol) (hn : IsDir g vol.disk n) (hl : (entry g vol.disk n f k).live)
    (hempty : ∀ f' k', IsDir g vol.disk (entry g vol.disk n f k).inodeNum.toNat →
      (entry g vol.disk (entry g vol.disk n f k).inodeNum.toNat f' k').live = false)
    (hmay : mayEnter c (inodeTable g vol.disk n) ∨
      c.uid = (inodeTable g vol.disk (entry g vol.disk n f k).inodeNum.toNat).ownerUid) :
    Respects g c held vol vol' := by
  have hkept := h.kept hc hn
  have hne := hc.ns.no_self hn hl
  refine respects_of_step h.step (fun m hm _ hnamed => ?_) fun m hm hdir f' k' hlive hdiff => ?_
  · rcases hm with rfl | rfl
    · refine .inl (.of_dir ?_ hn)
      rw [h.table, update_of_ne hne]
    -- the inode is free afterwards
    have hpos : (entry g vol.disk n f k).inodeNum.toNat ≠ 0 := by rwa [Dirent.live_iff] at hl
    have huse := named_taken hkept.consistent hnamed hpos
    rw [h.table, update_self] at huse
    exact absurd huse (by simp [Inode.inUse, Inode.blank])
  rcases hm with rfl | rfl
  · rw [h.put.entries] at hdiff
    split_ifs at hdiff with hfk
    · rw [hfk.1, hfk.2]
      exact hmay.imp_right fun howner => ⟨hl, howner⟩
    · exact absurd rfl hdiff
  have hblank : entry g vol'.disk (entry g vol.disk n f k).inodeNum.toNat f' k' = Dirent.blank := by
    rw [entry, h.table, update_self]
    exact slotAt_unmapped (blockAt_of_root_eq_zero (Inode.root_blank _) _)
  rw [hempty f' k' hdir, hblank, Dirent.live_blank] at hlive
  exact absurd hlive (by decide)

/-- The caller may write to the directory or owns the file of that name in it. -/
def MayRemove (c : Caller) (g : Superblock) (vol : Volume) (n : ℕ) (name : List UInt8) : Prop :=
  mayEnter c (inodeTable g vol.disk n) ∨ ∀ f k, Exfs.Found g vol.disk n name f k →
    c.uid = (inodeTable g vol.disk (entry g vol.disk n f k).inodeNum.toNat).ownerUid

theorem removal_respects {name : List UInt8} {kind : Dirent → Prop} {res : Volume × ℤ}
    (h : Removal g vol n name kind res) (hc : Consistent g vol) (hn : IsDir g vol.disk n)
    (hempty : ∀ f k, Exfs.Found g vol.disk n name f k → kind (entry g vol.disk n f k) →
      IsDir g vol.disk (entry g vol.disk n f k).inodeNum.toNat → ∀ f' k',
        (entry g vol.disk (entry g vol.disk n f k).inodeNum.toNat f' k').live = false)
    (hmay : MayRemove c g vol n name) : Respects g c held vol res.1 := by
  rcases h with ⟨h, -⟩ | ⟨f, k, hfound, hkind, hrem, -⟩
  · rw [h]
    exact .refl vol
  · exact removed_respects hrem hc hn hfound.live
      (fun f' k' hchild => hempty f k hfound hkind hchild f' k')
      (hmay.imp_right fun howns => howns f k hfound)

theorem opUnlink_respects (hc : Consistent g vol) (hcur : Current g vol.disk dir)
    (hdir : IsDir g vol.disk dir.inodeNum) {name : List UInt8}
    (hmay : MayRemove c g vol dir.inodeNum name) :
    Respects g c held vol (vol.opUnlink dir name).1 := by
  refine removal_respects (hc.rest.opUnlink hcur (hc.ns.goodEntries hdir) name rfl) hc hdir ?_ hmay
  intro f k hfound hfile hchild
  exact absurd rfl (hc.ns.file_ne_dir hdir hfound.live hfile hchild)

theorem opRmdir_respects (hc : Consistent g vol) (hcur : Current g vol.disk dir)
    (hdir : IsDir g vol.disk dir.inodeNum) {name : List UInt8}
    (hmay : MayRemove c g vol dir.inodeNum name) :
    Respects g c held vol (vol.opRmdir dir name).1 := by
  refine removal_respects (hc.rest.opRmdir hcur (hc.ns.goodEntries hdir) name rfl) hc hdir ?_ hmay
  rintro f k hfound ⟨-, hempty⟩ hchild
  rw [hc.rest.readInode (hc.ns.bound _ f k hdir hfound.live)] at hempty
  exact Volume.dirIsEmpty_spec (hc.ns.compact _ hchild) hempty

/-- The second half of a rename, with the rights of an earlier state `vol0` that differs from `vol`
neither in the inode nor in the entries of the directory the file is taken from. -/
theorem renamed_entries {vol0 : Volume} {n0 f0 k0 : ℕ} {newDir : Node} {e : Dirent}
    {res : Volume × Node × ℤ} (h : Renamed g vol n0 f0 k0 newDir e res) {m f k : ℕ}
    (hsame : entry g vol.disk m f k = entry g vol0.disk m f k) (hm : m ≠ newDir.inodeNum)
    (hne : entry g res.1.disk m f k ≠ entry g vol0.disk m f k) : (m, f, k) = (n0, f0, k0) := by
  rw [← hsame] at hne
  by_cases hres : res.2.2 = 0
  · obtain ⟨-, -, f', k', -, hmoved⟩ := h.done hres
    rw [hmoved.entries, if_neg fun heq => hm (Prod.mk.inj heq).1] at hne
    by_contra hsrc
    exact hne (if_neg hsrc)
  · exact absurd ((h.failed hres).2.1 m f k) hne

theorem renamed_table {n0 f0 k0 : ℕ} {newDir : Node} {e : Dirent} {res : Volume × Node × ℤ}
    (h : Renamed g vol n0 f0 k0 newDir e res) {m : ℕ} (hm : m ≠ newDir.inodeNum) :
    inodeTable g res.1.disk m = inodeTable g vol.disk m := by
  by_cases hres : res.2.2 = 0
  · exact (h.done hres).1 m hm
  · rw [(h.failed hres).1]

theorem opRename_respects {oldDir newDir : Node} (hc : Consistent g vol)
    (hold : Current g vol.disk oldDir) (hodir : IsDir g vol.disk oldDir.inodeNum)
    (hnew : Current g vol.disk newDir) (hndir : IsDir g vol.disk newDir.inodeNum)
    (hclean : CleanGrowth g vol newDir.inode 2) {oldName newName : List UInt8} {same : Bool}
    (hdiff : same = false → ¬ SameEntry oldDir oldName newDir newName)
    (hfrom : MayRemove c g vol oldDir.inodeNum oldName)
    (hto : mayEnter c (inodeTable g vol.disk newDir.inodeNum)) :
    Respects g c held vol (vol.opRename oldDir oldName newDir newName same).1 := by
  have hkept := hc.opRename hold hodir hnew hndir hclean hdiff
  have hout := hc.rest.opRename hold hnew hclean (hc.ns.compact _ hndir) (hc.ns.goodEntries hndir)
    (fun f k hl ht => hc.ns.file_ne_dir hndir hl ht hodir) oldName newName same rfl
  generalize vol.opRename oldDir oldName newDir newName same = res at hout hkept
  have hsource : ∀ {f0 k0 m f k : ℕ}, Exfs.Found g vol.disk oldDir.inodeNum oldName f0 k0 →
      (m, f, k) = (oldDir.inodeNum, f0, k0) → mayEnter c (inodeTable g vol.disk m) ∨
        ((entry g vol.disk m f k).live ∧
          c.uid = (inodeTable g vol.disk (entry g vol.disk m f k).inodeNum.toNat).ownerUid) := by
    rintro f0 k0 m f k hsrc heq
    obtain ⟨rfl, rfl, rfl⟩ := by simpa using heq
    exact hfrom.imp_right fun howns => ⟨hsrc.live, howns f k hsrc⟩
  cases hout with
  | refused h _ =>
    rw [h.1]
    exact .refl vol
  | nothing h _ =>
    rw [h]
    exact .refl vol
  | moved f0 k0 hsrc hname h =>
    refine respects_of_step h.step (fun m hm _ _ => ?_) fun m hm hdir f k hl hne => ?_
    · by_cases hmn : m = newDir.inodeNum
      · rw [hmn]
        exact .inr (.inr (mayChange_of_mayEnter hto))
      obtain rfl : m = oldDir.inodeNum := hm.resolve_right hmn
      exact .inl (.of_dir (renamed_table h hmn) hodir)
    · by_cases hmn : m = newDir.inodeNum
      · rw [hmn]
        exact .inl hto
      · exact hsource hsrc (renamed_entries h rfl hmn hne)
  | replaced f0 k0 f1 k1 u hlen hnames hsrc hdst hfile hrem h =>
    generalize hchild : (entry g vol.disk newDir.inodeNum f1 k1).inodeNum.toNat = child at hrem
    have hnotdir : ∀ m, IsDir g vol.disk m → m ≠ child := fun m hm => by
      rw [← hchild]
      exact hc.ns.file_ne_dir hndir hdst.live hfile hm
    have hstep : Step g {oldDir.inodeNum, newDir.inodeNum, child} vol res.1 :=
      (hrem.step.mono (by simp)).trans (h.step.mono (by
        rintro m (rfl | rfl)
        · exact .inl rfl
        · exact .inr (.inl rfl)))
    refine respects_of_step hstep (fun m hm _ hnamed => ?_) fun m hm hdir f k hl hne => ?_
    · by_cases hmn : m = newDir.inodeNum
      · rw [hmn]
        exact .inr (.inr (mayChange_of_mayEnter hto))
      rcases hm with rfl | rfl | rfl
      · refine .inl (.of_dir ?_ hodir)
        rw [renamed_table h hmn, hrem.table, update_of_ne (hnotdir _ hodir)]
      · exact absurd rfl hmn
      -- the replaced file is gone
      have hpos : m ≠ 0 := by
        have hl := hdst.live
        rwa [Dirent.live_iff, hchild] at hl
      have huse := named_taken hkept.consistent hnamed hpos
      rw [renamed_table h hmn, hrem.table, update_self] at huse
      exact absurd huse (by simp [Inode.inUse, Inode.blank])
    · by_cases hmn : m = newDir.inodeNum
      · rw [hmn]
        exact .inl hto
      have hsame : entry g u.disk m f k = entry g vol.disk m f k := by
        refine hrem.step.entry_eq ?_ f k
        rintro (hm' | hm')
        · exact hmn hm'
        · exact hnotdir m hdir hm'
      exact hsource hsrc (renamed_entries h hsame hmn hne)

end

end Exploidus.Vfs
