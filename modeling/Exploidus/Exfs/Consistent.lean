import Exploidus.Exfs.Namespace

/-! Every operation keeps a volume consistent: it is at rest, its blocks are owned, and its names
are in order. -/
namespace Exploidus.Exfs
open Dirent

structure Consistent (g : Superblock) (vol : Volume) : Prop where
  rest : Rest g vol
  ns : Ns g vol.disk

structure Kept (g : Superblock) (vol vol' : Volume) : Prop where
  consistent : Consistent g vol'
  runs : Runs g vol vol'

section
variable {g : Superblock} {vol vol' : Volume} {n : ℕ} {node dir : Node}

theorem Consistent.refl (hc : Consistent g vol) : Kept g vol vol :=
  ⟨hc, Runs.of_eq hc.rest.mid.crash rfl rfl⟩

theorem Agrees.inUse {i j : Inode} (h : Agrees i j) : i.inUse ↔ j.inUse := by
  rw [Inode.inUse, Inode.inUse, h.mode, h.size]

/-! Operations on one inode. -/

section
variable (h : InodeStep g n vol vol')
include h

theorem InodeStep.blockAt_eq (hr : Rest g vol)
    (hroot : ∀ r, (inodeTable g vol'.disk n).root r = (inodeTable g vol.disk n).root r) (m : ℕ) :
    blockAt vol'.disk (inodeTable g vol'.disk m) = blockAt vol.disk (inodeTable g vol.disk m) := by
  by_cases hm : m = n
  · subst hm
    rw [blockAt_congr_root hroot]
    exact funext (@blockAt_congr_sites m _ _ _ (diskRoots g vol.disk) (fun _ => rfl)
      fun _ _ h0 => h.data _ (hr.mid.safe.sound.ok h0).1)
  · exact (h.fileStep hr).blockAt_eq hm

theorem InodeStep.entry_eq (hr : Rest g vol)
    (hroot : ∀ r, (inodeTable g vol'.disk n).root r = (inodeTable g vol.disk n).root r)
    (m f k : ℕ) : entry g vol'.disk m f k = entry g vol.disk m f k := by
  refine slotAt_congr (congrFun (h.blockAt_eq hr hroot m) f) (fun h0 => ?_) k
  exact h.data _ (blockAt_inData hr.mid.safe.sound (fun _ => rfl) h0).1

theorem InodeStep.kept (hc : Consistent g vol)
    (hroot : ∀ r, (inodeTable g vol'.disk n).root r = (inodeTable g vol.disk n).root r)
    (huse : n ≠ 0 → (inodeTable g vol.disk n).inUse → (inodeTable g vol'.disk n).inUse) :
    Kept g vol vol' := by
  refine ⟨⟨h.rest, hc.ns.same (fun m _ => h.entry_eq hc.rest hroot m) (fun m _ hm f => ?_)
    fun m hm0 hm => ?_⟩, h.runs⟩
  · rw [h.blockAt_eq hc.rest hroot m]
    exact hm f
  by_cases hmn : m = n
  · subst hmn
    exact huse hm0 hm
  · rwa [h.table m hmn]

theorem InodeStep.kept_agrees (hc : Consistent g vol) {i : Inode}
    (hnew : Agrees i (inodeTable g vol'.disk n)) (hold : Agrees i (inodeTable g vol.disk n)) :
    Kept g vol vol' :=
  h.kept hc (fun r => (hnew.root r).symm.trans (hold.root r)) fun _ hu =>
    hnew.inUse.mp (hold.inUse.mpr hu)

end

section
variable (hc : Consistent g vol)
include hc

theorem Consistent.opOpen (hn : node.inodeNum < 4096) : Kept g vol (vol.opOpen node).1 := by
  obtain ⟨hstep, hnew, hold⟩ := hc.rest.opOpen hn rfl
  exact hstep.kept_agrees hc hnew hold

section
variable (hcur : Current g vol.disk node)
include hcur

theorem Consistent.opRead (off len : ℕ) : Kept g vol (vol.opRead node off len).1 := by
  obtain ⟨hstep, hnew, hold⟩ := hc.rest.opRead hcur.bound hcur.agrees off len rfl
  exact hstep.kept_agrees hc hnew ⟨fun r => (hold.root r).trans (hcur.agrees.root r),
    hold.mode.trans hcur.agrees.mode, hold.size.trans hcur.agrees.size⟩

theorem Consistent.writeAttrs {i : Inode} (hi : ∀ r, i.root r = node.inode.root r)
    (huse : node.inodeNum ≠ 0 → node.inode.inUse → i.inUse) :
    Kept g vol (vol.writeInode node.inodeNum i) := by
  obtain ⟨hstep, hnew, hroot⟩ := hc.rest.writeAttrs hcur.bound hcur.agrees hi
  refine hstep.kept hc (fun r => ?_) fun h0 hu => ?_
  · rw [hnew, hroot]
  · rw [hnew]
    exact huse h0 (hcur.agrees.inUse.mpr hu)

theorem Consistent.opWrite
    (hfile : ¬ IsDir g vol.disk node.inodeNum) (off : ℕ) (data : List UInt8) :
    Kept g vol (vol.opWrite node off data).1 := by
  have hw := hc.rest.opWrite hcur.bound hcur.agrees off data rfl rfl
  have hne : ∀ m, IsDir g vol.disk m → m ∉ ({node.inodeNum} : Set ℕ) := by
    rintro m hm rfl
    exact hfile hm
  refine ⟨⟨hw.step.rest, hc.ns.same (fun m hm => hw.step.entry_eq (hne m hm))
    (fun m hm h f => ?_) fun m _ hu => ?_⟩, hw.step.runs⟩
  · rw [hw.step.blockAt_eq (hne m hm)]
    exact h f
  by_cases hmn : m = node.inodeNum
  · subst hmn
    rw [← hw.agrees.inUse, Inode.inUse, hw.mode, hw.size]
    rcases hcur.agrees.inUse.mpr hu with hmode | hsize
    · exact .inl hmode
    refine .inr ?_
    split
    · next hlt =>
      intro h0
      have := congrArg UInt64.toNat h0
      simp at this
      omega
    · exact hsize
  · rwa [hw.step.table m (by simpa using hmn)]

end

end

/-! Operations on a directory. -/

theorem Step.compact {S : Set ℕ} {m : ℕ} (h : Step g S vol vol') (hm : m ∉ S)
    (hc : Compact vol.disk (inodeTable g vol.disk m)) :
    Compact vol'.disk (inodeTable g vol'.disk m) := by
  intro f
  rw [h.blockAt_eq hm]
  exact hc f

theorem Consistent.fresh (hc : Consistent g vol) (hcur : Current g vol.disk dir)
    (hdir : IsDir g vol.disk dir.inodeNum) {name : List UInt8} (h : NewName vol dir name)
    (f k : ℕ) (hl : (entry g vol.disk dir.inodeNum f k).live) :
    (entry g vol.disk dir.inodeNum f k).text ≠ name := by
  have hcompact := (compact_congr_root hcur.agrees.root _).mpr (hc.ns.compact _ hdir)
  have hslot := slotAt_congr_root hcur.agrees.root vol.disk
  have hfresh := Volume.findEntry_none hcompact h.length h.fresh f k
  rw [hslot] at hfresh
  exact hfresh hl

section
variable {din i : Inode} {ino : ℕ} {e : Dirent} {res : Volume × Inode × Bool}
  (h : NewEntry g vol n din ino i e res) (hc : Consistent g vol) (hfree : FreeInode g vol.disk ino)
  (he : e.inodeNum.toNat = ino) (hempty : e.fileType = 1 → ∀ r, i.root r = 0)
include h hc hfree

theorem NewEntry.not_mem {m : ℕ} (hm : IsDir g vol.disk m) (hmn : m ≠ n) :
    m ∉ ({n, ino} : Set ℕ) := by
  rintro (rfl | rfl)
  · exact hmn rfl
  · exact (hc.ns.taken hm).ne_free hfree rfl

include he hempty

/-- The entries after a creation, whether there was room for the new one or not. -/
theorem NewEntry.shift : ∃ e' t, (e' = blank ∨ e' = e ∧ t.1 = n) ∧
    Shift g vol.disk res.1.disk e' t fun _ _ _ => True := by
  have hentry : ∀ m, IsDir g vol.disk m → m ≠ n → ∀ f k, _ := fun m hm hmn =>
    h.step.entry_eq (h.not_mem hc hfree hm hmn)
  cases hres : res.2.2 with
  | false =>
    refine ⟨_, (0, 0, 0), .inl rfl, .blank fun m f k hm _ => ⟨?_, trivial⟩⟩
    by_cases hmn : m = n
    · rw [hmn]
      exact (h.failed hres).2.1 f k
    · exact hentry m hm hmn f k
  | true =>
    obtain ⟨-, f, k, -, hput⟩ := h.added hres
    refine ⟨e, (n, f, k), .inr ⟨rfl, rfl⟩, hput.shift hentry fun ht f k => ?_⟩
    rw [entry, slotAt_unmapped, live_blank]
    rw [he, h.inode]
    exact blockAt_of_root_eq_zero (hempty ht _) _

theorem NewEntry.kept (hn : IsDir g vol.disk n) (hdin : Agrees din (inodeTable g vol.disk n))
    (hname : ∀ f k, (entry g vol.disk n f k).live → (entry g vol.disk n f k).text ≠ e.text)
    (hi : i.inUse) : Kept g vol res.1 := by
  obtain ⟨e', ⟨n', f', k'⟩, hnew, hs⟩ := h.shift hc hfree he hempty
  have hunref : ∀ m f k, IsDir g vol.disk m → (entry g vol.disk m f k).live →
      (entry g vol.disk m f k).inodeNum.toNat ≠ ino := fun m f k hm hl heq =>
    hfree.free (heq ▸ hc.ns.inUse m f k hm hl)
  refine ⟨⟨h.step.rest, hc.ns.shift hs (fun hl => ?_) (fun m f k hm hl _ => ⟨?_, ?_⟩) ?_⟩,
    h.step.runs⟩
  · obtain rfl | ⟨rfl, rfl⟩ := hnew
    · exact absurd hl (by decide)
    · rw [he, h.inode]
      exact ⟨hfree.bound, hi, hname⟩
  · obtain rfl | ⟨rfl, -⟩ := hnew
    · exact (live_iff _).mp hl
    · rw [he]
      exact hunref m f k hm hl
  · have hu := hc.ns.inUse m f k hm hl
    by_cases hmn : (entry g vol.disk m f k).inodeNum.toNat = n
    · rw [hmn] at hu ⊢
      cases hres : res.2.2 with
      | false =>
        rwa [(h.failed hres).1]
      | true =>
        rw [← (h.added hres).1.inUse, h.info]
        exact hdin.inUse.mpr hu
    · rwa [h.step.table _ (by simp [hmn, hunref m f k hm hl])]
  · rintro m (hm | ⟨rfl, ht⟩)
    · have hcm := hc.ns.compact m hm
      by_cases hmn : m = n
      · rw [hmn] at hcm ⊢
        cases hres : res.2.2 with
        | false => exact (h.failed hres).2.2 hcm
        | true =>
          obtain ⟨-, f, k, -, hput⟩ := h.added hres
          exact hput.compact hcm
      · exact h.step.compact (h.not_mem hc hfree hm hmn) hcm
    · obtain rfl | ⟨rfl, -⟩ := hnew
      · exact absurd ht (by decide)
      intro f h0
      rw [he, h.inode] at h0
      exact absurd (blockAt_of_root_eq_zero (hempty ht _) _) h0

end

theorem Consistent.opCreate (hc : Consistent g vol) (hcur : Current g vol.disk dir)
    (hdir : IsDir g vol.disk dir.inodeNum) (hclean : CleanGrowth g vol dir.inode 2)
    (name : List UInt8) (fileType : UInt8) (uid gid : UInt32) :
    Kept g vol (vol.opCreate dir name fileType uid gid).1 := by
  rcases hc.rest.opCreate hcur (hc.ns.taken hdir) hclean name fileType uid gid rfl with
    h | ⟨ino, hfree, hname, hnew, -, -⟩
  · rw [h]
    exact hc.refl
  refine hnew.kept hc hfree (inodeNum_named hfree.bound _ _)
    (fun _ => root_newInode _ _ _) hdir hcur.agrees (fun f k hl => ?_) (inUse_newInode _ _ _)
  rw [text_named _ _ hname.length]
  exact hc.fresh hcur hdir hname f k hl

theorem Consistent.opSymlink (hc : Consistent g vol) (hcur : Current g vol.disk dir)
    (hdir : IsDir g vol.disk dir.inodeNum) (hclean : CleanGrowth g vol dir.inode 3)
    (name target : List UInt8) (uid gid : UInt32) :
    Kept g vol (vol.opSymlink dir name target uid gid).1 := by
  rcases hc.rest.opSymlink hcur (hc.ns.taken hdir) hclean name target uid gid rfl with
    ⟨hstep, htable, -⟩ | ⟨ino, blk, hfree, hname, hnew, -⟩
  · refine ⟨⟨hstep.rest, hc.ns.same (fun m _ => hstep.entry_eq (Set.notMem_empty m))
      (fun m _ => hstep.compact (Set.notMem_empty m)) fun m _ hu => ?_⟩, hstep.runs⟩
    rwa [htable]
  refine hnew.kept hc hfree (inodeNum_named hfree.bound _ _)
    (fun h => absurd h (by simp [named])) hdir hcur.agrees (fun f k hl => ?_) ?_
  · rw [text_named _ _ hname.length]
    exact hc.fresh hcur hdir hname f k hl
  · exact .inl (by simp [Volume.linkInode])

theorem Removed.shift {f k : ℕ}
    (h : Removed g n (entry g vol.disk n f k).inodeNum.toNat f k vol vol') :
    Shift g vol.disk vol'.disk blank (0, 0, 0)
      fun m f' k' => ¬ (m = n ∧ f' = f ∧ k' = k) :=
  h.put.shift_removed h.table fun m _ hmn hme => h.step.entry_eq (by simp [hmn, hme])

theorem Removed.kept {f k : ℕ}
    (h : Removed g n (entry g vol.disk n f k).inodeNum.toNat f k vol vol')
    (hc : Consistent g vol) (hn : IsDir g vol.disk n) : Kept g vol vol' := by
  refine ⟨⟨h.step.rest, hc.ns.shift_blank h.shift (fun m f' k' hm hl hs => ?_) fun m hm => ?_⟩,
    h.step.runs⟩
  · rw [h.table, Function.update_of_ne]
    · exact hc.ns.inUse m f' k' hm hl
    exact fun he => hs (hc.ns.unique m f' k' n f k hm hn hl he)
  · by_cases hmc : m = (entry g vol.disk n f k).inodeNum.toNat
    · subst hmc
      exact fun f' hf => (hf (blockAt_removed h.table (f' + 1))).elim
    by_cases hmn : m = n
    · subst hmn
      exact h.put.compact (hc.ns.compact m hm)
    · exact h.step.compact (by simp [hmn, hmc]) (hc.ns.compact m hm)

theorem Removal.kept {name : List UInt8} {kind : Dirent → Prop} {res : Volume × ℤ}
    (h : Removal g vol n name kind res) (hc : Consistent g vol) (hn : IsDir g vol.disk n) :
    Kept g vol res.1 := by
  rcases h with ⟨h, -⟩ | ⟨f, k, -, -, hrem, -⟩
  · rw [h]
    exact hc.refl
  · exact hrem.kept hc hn

/-! Rename. -/

section
variable {n0 f0 k0 : ℕ} {newDir : Node} {e : Dirent} {res : Volume × Node × ℤ}
  (h : Renamed g vol n0 f0 k0 newDir e res) (hc : Consistent g vol) (hn0 : IsDir g vol.disk n0)
  (hl : (entry g vol.disk n0 f0 k0).live = true)
  (he : e.inodeNum.toNat = (entry g vol.disk n0 f0 k0).inodeNum.toNat)
  (htype : e.fileType = (entry g vol.disk n0 f0 k0).fileType)
include h hn0 hl he htype

theorem Renamed.shift (hres : res.2.2 = 0) : ∃ f k, Moved g vol.disk res.1.disk (n0, f0, k0)
    (newDir.inodeNum, f, k) e ∧ Shift g vol.disk res.1.disk e (newDir.inodeNum, f, k)
      fun m f' k' => (m, f', k') ≠ (n0, f0, k0) := by
  obtain ⟨-, -, f, k, -, hmoved⟩ := h.done hres
  exact ⟨f, k, hmoved, hmoved.shift fun ht => he ▸ .child hn0 hl (htype ▸ ht)⟩

include hc

theorem Renamed.kept
    (hagree : Agrees newDir.inode (inodeTable g vol.disk newDir.inodeNum))
    (hname : ∀ f k, (entry g vol.disk newDir.inodeNum f k).live →
      (entry g vol.disk newDir.inodeNum f k).text ≠ e.text) : Kept g vol res.1 := by
  refine ⟨⟨h.step.rest, ?_⟩, h.step.runs⟩
  by_cases hres : res.2.2 = 0
  · obtain ⟨f, k, hmoved, hs⟩ := h.shift hn0 hl he htype hres
    have huse : ∀ m f k, IsDir g vol.disk m → (entry g vol.disk m f k).live →
        (inodeTable g res.1.disk (entry g vol.disk m f k).inodeNum.toNat).inUse := by
      intro m f k hm hl
      have hu := hc.ns.inUse m f k hm hl
      by_cases hmn : (entry g vol.disk m f k).inodeNum.toNat = newDir.inodeNum
      · rw [hmn] at hu ⊢
        rw [← (h.done hres).2.1.inUse, h.info]
        exact hagree.inUse.mpr hu
      · rwa [(h.done hres).1 _ hmn]
    refine hc.ns.shift hs (fun _ => ⟨?_, ?_, hname⟩)
      (fun m f' k' hm hl' hne => ⟨fun heq => hne ?_, huse m f' k' hm hl'⟩) fun m hm => ?_
    · rw [he]
      exact hc.ns.bound n0 f0 k0 hn0 hl
    · rw [he]
      exact huse n0 f0 k0 hn0 hl
    · simpa using hc.ns.unique m f' k' n0 f0 k0 hm hn0 hl' (heq.trans he)
    · have hd : IsDir g vol.disk m := hm.elim id fun hm => hm.1 ▸ he ▸ .child hn0 hl (htype ▸ hm.2)
      exact hmoved.compact m (hc.ns.compact m hd)
  · obtain ⟨htable, hentry, hcompact⟩ := h.failed hres
    refine hc.ns.same (fun m _ => hentry m) (fun m _ => hcompact m) fun m _ hu => ?_
    rwa [htable]

end

/-- What a rename must not be given: one entry under two node objects. -/
def SameEntry (oldDir : Node) (oldName : List UInt8) (newDir : Node) (newName : List UInt8) :
    Prop :=
  oldDir.inodeNum = newDir.inodeNum ∧ oldName = newName

theorem Removed.entry_other {f k m f' k' : ℕ}
    (h : Removed g n (entry g vol.disk n f k).inodeNum.toNat f k vol vol')
    (hc : Consistent g vol) (hn : IsDir g vol.disk n)
    (hl : (entry g vol.disk n f k).live) (ht : (entry g vol.disk n f k).fileType ≠ 1)
    (hm : IsDir g vol.disk m) (hne : (m, f', k') ≠ (n, f, k)) :
    entry g vol'.disk m f' k' = entry g vol.disk m f' k' := by
  by_cases hmn : m = n
  · subst hmn
    rw [h.put.entries, if_neg fun hfk => hne (by rw [hfk.1, hfk.2])]
  refine h.step.entry_eq ?_ f' k'
  rintro (rfl | rfl)
  · exact hmn rfl
  · exact hc.ns.file_ne_dir hn hl ht hm rfl

theorem Removed.isDir {f k m : ℕ}
    (h : Removed g n (entry g vol.disk n f k).inodeNum.toNat f k vol vol')
    (hc : Consistent g vol) (hn : IsDir g vol.disk n)
    (hl : (entry g vol.disk n f k).live) (ht : (entry g vol.disk n f k).fileType ≠ 1)
    (hm : IsDir g vol.disk m) : IsDir g vol'.disk m := by
  induction hm with
  | root => exact .root
  | @child m f' k' hm hl' ht' ih =>
    have hne : (m, f', k') ≠ (n, f, k) := by
      intro he
      obtain ⟨rfl, rfl, rfl⟩ := by simpa using he
      exact ht ht'
    have hsame := h.entry_other hc hn hl ht hm hne
    rw [← hsame] at hl' ht' ⊢
    exact .child ih hl' ht'

theorem Found.ne_replaced {oldDir newDir : Node} {oldName newName : List UInt8} {same : Bool}
    {f0 k0 f1 k1 : ℕ} (hsrc : Found g vol.disk oldDir.inodeNum oldName f0 k0)
    (hdst : Found g vol.disk newDir.inodeNum newName f1 k1)
    (hnames : ¬ (same ∧ oldName = newName))
    (hdiff : same = false → ¬ SameEntry oldDir oldName newDir newName) :
    (oldDir.inodeNum, f0, k0) ≠ (newDir.inodeNum, f1, k1) := by
  intro he
  obtain ⟨hdirs, rfl, rfl⟩ := by simpa using he
  have htext : oldName = newName := by rw [← hsrc.text, ← hdst.text, hdirs]
  cases same with
  | true => exact hnames ⟨rfl, htext⟩
  | false => exact hdiff rfl ⟨hdirs, htext⟩

theorem Consistent.opRename {oldDir newDir : Node} (hc : Consistent g vol)
    (hold : Current g vol.disk oldDir) (hodir : IsDir g vol.disk oldDir.inodeNum)
    (hnew : Current g vol.disk newDir) (hndir : IsDir g vol.disk newDir.inodeNum)
    (hclean : CleanGrowth g vol newDir.inode 2) {oldName newName : List UInt8} {same : Bool}
    (hdiff : same = false → ¬ SameEntry oldDir oldName newDir newName) :
    Kept g vol (vol.opRename oldDir oldName newDir newName same).1 := by
  have hout := hc.rest.opRename hold hnew hclean (hc.ns.compact _ hndir) (hc.ns.goodEntries hndir)
    (fun f k hl ht => hc.ns.file_ne_dir hndir hl ht hodir) oldName newName same rfl
  generalize vol.opRename oldDir oldName newDir newName same = res at hout
  cases hout with
  | refused h _ =>
    rw [h.1]
    exact hc.refl
  | nothing h _ =>
    rw [h]
    exact hc.refl
  | moved f0 k0 hsrc hname h =>
    have hbound := hc.ns.bound _ f0 k0 hodir hsrc.live
    refine h.kept hc hodir hsrc.live (inodeNum_named hbound _ _) rfl hnew.agrees
      fun f k hl => ?_
    rw [text_named _ _ hname.length]
    exact hc.fresh hnew hndir hname f k hl
  | replaced f0 k0 f1 k1 u hlen hnames hsrc hdst hfile hrem h =>
    have hbound := hc.ns.bound _ f0 k0 hodir hsrc.live
    have hne := hsrc.ne_replaced hdst hnames hdiff
    have hkept := hrem.kept hc hndir
    have hsame0 := hrem.entry_other hc hndir hdst.live hfile hodir hne
    have hagree : Agrees newDir.inode (inodeTable g u.disk newDir.inodeNum) := by
      rw [hrem.table, Function.update_of_ne (hc.ns.no_self hndir hdst.live)]
      exact hnew.agrees
    have hmove := h.kept hkept.consistent (hrem.isDir hc hndir hdst.live hfile hodir)
      (by rw [hsame0]; exact hsrc.live) (by rw [hsame0]; exact inodeNum_named hbound _ _)
      (by rw [hsame0]; rfl) hagree ?_
    · exact ⟨hmove.consistent, hkept.runs.trans hmove.runs⟩
    intro f k hl htext
    rw [text_named _ _ hlen] at htext
    have hput := hrem.put.entries f k
    by_cases hfk : f = f1 ∧ k = k1
    · rw [if_pos hfk] at hput
      rw [hput, live_blank] at hl
      exact Bool.false_ne_true hl
    · rw [if_neg hfk] at hput
      rw [hput] at hl htext
      exact hfk (hc.ns.names _ f k f1 k1 hndir hl hdst.live (htext.trans hdst.text.symm))

end

end Exploidus.Exfs
