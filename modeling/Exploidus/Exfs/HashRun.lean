import Exploidus.Exfs.FileHash

/-! The whole-file hash over runs of the driver: every file keeps a valid hash over all its bytes
while writes leave no unmapped gap and no handle writes an old hash back. -/
namespace Exploidus.Exfs
open ByteLayout Volume

def FilesHashed (g : Superblock) (vol : Volume) : Prop := ∀ n, IsFile g vol.disk n → Hashed g vol n

/-- The node's copy of the stored hash is that of the device. -/
def HashCurrent (g : Superblock) (d : ℕ → Block) (node : Node) : Prop :=
  (inodeTable g d node.inodeNum).blockHash = node.inode.blockHash

section Ops
variable {g : Superblock} {vol vol' : Volume} {n : ℕ} {node dir : Node}

section
variable (hf : FilesHashed g vol)
include hf

section
variable (hr : Rest g vol)
include hr

theorem FilesHashed.inodeStep (h : InodeStep g n vol vol')
    (hroot : ∀ r, (inodeTable g vol'.disk n).root r = (inodeTable g vol.disk n).root r)
    (hsize : (inodeTable g vol'.disk n).size = (inodeTable g vol.disk n).size)
    (hhash : (inodeTable g vol'.disk n).blockHash = (inodeTable g vol.disk n).blockHash) :
    FilesHashed g vol' := fun m hm =>
  h.hashed hr hroot hsize hhash (hf m (hm.of_same fun m _ => h.entry_eq hr hroot m))

theorem FilesHashed.appendProv (hn : n < 4096)
    {i : Inode} (hi : Agrees i (inodeTable g vol.disk n))
    (hsame : (inodeTable g vol.disk n).blockHash = i.blockHash) (op : UInt8) (pid : UInt32)
    (capUpper fileOffset length : UInt64) :
    FilesHashed g (vol.appendProv n i op pid capUpper fileOffset length).1 := by
  obtain ⟨hstep, hnew, hold⟩ := hr.appendProv_agrees hn hi op pid capUpper fileOffset length rfl
  obtain ⟨hdisk, hhash⟩ := hr.appendProv_hash hn hi.root hsame op pid capUpper fileOffset length rfl
  refine hf.inodeStep hr hstep (fun r => ?_) ?_ ?_
  · rw [← hnew.root, hold.root, hi.root]
  · rw [← hnew.size, hold.size, hi.size]
  · rw [hdisk, hhash, hsame]

theorem FilesHashed.opOpen
    (hn : node.inodeNum < 4096) : FilesHashed g (vol.opOpen node).1 := by
  have hread := hr.readInode hn
  exact hf.appendProv hr hn (by rw [hread]; exact Agrees.refl _) (by rw [hread]) _ _ _ _ _

section
variable (hcur : Current g vol.disk node)
include hcur

section
variable (hhash : HashCurrent g vol.disk node)
include hhash

theorem FilesHashed.opRead
    (off len : ℕ) :
    FilesHashed g (vol.opRead node off len).1 := by
  unfold Volume.opRead
  dsimp only
  generalize (if node.inode.size.toNat < (off + len) % 2 ^ 64 then _ else len) = len'
  split_ifs
  · exact hf
  · exact hf
  · exact hf.appendProv hr hcur.bound hcur.agrees hhash _ _ _ _ _

theorem FilesHashed.writeAttrs
    {i : Inode}
    (hi : ∀ r, i.root r = node.inode.root r) (hsize : i.size = node.inode.size)
    (hcontent : i.blockHash = node.inode.blockHash) :
    FilesHashed g (vol.writeInode node.inodeNum i) := by
  obtain ⟨hstep, hnew, hroot⟩ := hr.writeAttrs hcur.bound hcur.agrees hi
  refine hf.inodeStep hr hstep (fun r => ?_) ?_ ?_
  · rw [hnew, hroot]
  · rw [hnew, hsize, hcur.agrees.size]
  · rw [hnew, hcontent, hhash]

theorem FilesHashed.opWrite

    (hfile : ¬ IsDir g vol.disk node.inodeNum) {off : ℕ} (hoff : off < 2 ^ 64) (data : List UInt8)
    (hgap : GapMapped g vol node.inode off data) : FilesHashed g (vol.opWrite node off data).1 := by
  generalize hres : vol.opWrite node off data = res
  have hw := hr.opWrite hcur.bound hcur.agrees off data rfl hres.symm
  intro n hn
  have hold : IsFile g vol.disk n := hn.of_same fun m hm =>
    hw.step.entry_eq (by rintro rfl; exact hfile hm)
  by_cases hnode : n = node.inodeNum
  · subst hnode
    obtain ⟨hcov, hvalue⟩ := (hashed_iff hcur hhash).mp (hf _ hold)
    have hnum : res.2.1.inodeNum = node.inodeNum := by rw [hw.same]
    have hsane := HashSane.opWrite ⟨hhash, hvalue⟩ hr hcur hoff hres.symm
    have hcur' : Current g res.1.disk res.2.1 :=
      ⟨hnum ▸ hcur.bound, by rw [hnum]; exact hw.agrees⟩
    rw [← hnum]
    exact (hashed_iff hcur' hsane.same).mpr
      ⟨(covered_opWrite_iff hr hcur hcov hoff hres.symm).mpr hgap, hsane.value⟩
  · exact hw.step.hashed hnode (hf n hold)

end

end

end

end

theorem NewEntry.filesHashed {din i : Inode} {ino : ℕ} {e : Dirent} {res : Volume × Inode × Bool}
    (h : NewEntry g vol n din ino i e res) (hc : Consistent g vol) (hn : IsDir g vol.disk n)
    (hfree : FreeInode g vol.disk ino) (he : e.inodeNum.toNat = ino)
    (hempty : e.fileType = 1 → ∀ r, i.root r = 0) (hino : Hashed g res.1 ino)
    (hf : FilesHashed g vol) : FilesHashed g res.1 := by
  intro m hm
  obtain ⟨e', t, hnew, hs⟩ := h.shift hc hfree he hempty
  obtain ⟨hl, -, rfl⟩ | ⟨m', f, k, hm', hl, ht, hnum, -⟩ := hm.shift hs
  · obtain rfl | ⟨rfl, -⟩ := hnew
    · exact absurd hl (by decide)
    · exact he ▸ hino
  have hold : IsFile g vol.disk m := ⟨m', f, k, hm', hl, ht, hnum⟩
  refine h.step.hashed ?_ (hf m hold)
  rintro (rfl | rfl)
  · exact hc.ns.isFile_ne_dir hold hn rfl
  · exact hfree.free (hc.ns.isFile_inUse hold)

theorem FilesHashed.opCreate (hf : FilesHashed g vol) (hc : Consistent g vol)
    (hdir : CurrentDir g vol.disk dir) (hclean : CleanGrowth g vol dir.inode 2)
    (name : List UInt8) (fileType : UInt8) (uid gid : UInt32) :
    FilesHashed g (vol.opCreate dir name fileType uid gid).1 := by
  rcases hc.rest.opCreate hdir.current (hc.ns.taken hdir.isDir) hclean name fileType uid gid rfl
    with h | ⟨ino, hfree, -, hnew, -, -⟩
  · rwa [h]
  refine hnew.filesHashed hc hdir.isDir hfree (Dirent.inodeNum_named hfree.bound _ _)
    (fun _ => root_newInode _ _ _) (hashed_of_empty ?_ ?_) hf
  · rw [hnew.inode]
    rfl
  · rw [hnew.inode]
    rfl

theorem hashed_link {ino blk : ℕ} {target : List UInt8} {uid gid : UInt32}
    (htable : inodeTable g vol.disk ino = linkInode target blk uid gid)
    (hblk : (linkInode target blk uid gid).directAt 0 = blk) (h0 : blk ≠ 0)
    (hdisk : vol.disk blk = zeroBlock.patch 0 target.length fun k => target.getD k 0)
    (hlen : target.length ≤ 255) : Hashed g vol ino := by
  have hsize : (linkInode target blk uid gid).size.toNat = target.length :=
    UInt64.toNat_ofNat_of_lt' (lt_of_le_of_lt hlen (by decide))
  have hat : ∀ x, x < target.length →
      blockAt vol.disk (linkInode target blk uid gid) (x / 4096) = blk := by
    intro x hx
    rw [Nat.div_eq_of_lt (by omega), blockAt_direct _ _ (by decide), hblk]
  have hcov : Covered vol.disk (linkInode target blk uid gid) := by
    intro x hx
    rw [hsize] at hx
    rwa [hat x hx]
  have hinput : vol.hashInput (linkInode target blk uid gid) = target := by
    rw [hashInput_of_covered hcov, hsize]
    refine List.ext_getElem (by simp) fun x hx hx' => ?_
    rw [List.getElem_map, List.getElem_range, hat x hx', hdisk, Nat.mod_eq_of_lt (by omega),
      Buf.byte_patch, if_pos (by omega), Nat.sub_zero, List.getD_eq_getElem _ _ hx']
  refine ⟨by rw [htable]; exact hcov, .inr ?_⟩
  rw [htable, hinput]
  rfl

theorem FilesHashed.opSymlink (hf : FilesHashed g vol) (hc : Consistent g vol)
    (hdir : CurrentDir g vol.disk dir) (hclean : CleanGrowth g vol dir.inode 3)
    (name target : List UInt8) (uid gid : UInt32) :
    FilesHashed g (vol.opSymlink dir name target uid gid).1 := by
  by_cases hlen : target.length ≤ 255
  · rcases hc.rest.opSymlink hdir.current (hc.ns.taken hdir.isDir) hclean name target uid gid rfl
      with ⟨hstep, -, -⟩ | ⟨ino, blk, hfree, -, hnew, -, hblk, h0, hdisk⟩
    · exact fun m hm => hstep.hashed (Set.notMem_empty m)
        (hf m (hm.of_same fun k _ => hstep.entry_eq (Set.notMem_empty k)))
    · exact hnew.filesHashed hc hdir.isDir hfree (Dirent.inodeNum_named hfree.bound _ _)
        (fun h => absurd h (by simp [Dirent.named])) (hashed_link hnew.inode hblk h0 hdisk hlen) hf
  · rwa [Volume.opSymlink, if_pos (by omega)]

theorem Removed.filesHashed {f k : ℕ}
    (h : Removed g n (entry g vol.disk n f k).inodeNum.toNat f k vol vol')
    (hc : Consistent g vol) (hn : IsDir g vol.disk n) (hf : FilesHashed g vol) :
    FilesHashed g vol' := by
  intro m hm
  obtain ⟨hb, -⟩ | ⟨m', f', k', hm', hl, ht, rfl, hs⟩ := hm.shift h.shift
  · exact absurd hb (by decide)
  have hold : IsFile g vol.disk _ := ⟨m', f', k', hm', hl, ht, rfl⟩
  refine h.step.hashed ?_ (hf _ hold)
  rintro (heq | heq)
  · exact hc.ns.isFile_ne_dir hold hn heq
  · exact hs (hc.ns.unique m' f' k' n f k hm' hn hl heq)

theorem Removal.filesHashed {name : List UInt8} {kind : Dirent → Prop} {res : Volume × ℤ}
    (h : Removal g vol n name kind res) (hc : Consistent g vol) (hn : IsDir g vol.disk n)
    (hf : FilesHashed g vol) : FilesHashed g res.1 := by
  rcases h with ⟨h, -⟩ | ⟨f, k, -, -, hrem, -⟩
  · rwa [h]
  · exact hrem.filesHashed hc hn hf

theorem Renamed.filesHashed {n0 f0 k0 : ℕ} {newDir : Node} {e : Dirent} {res : Volume × Node × ℤ}
    (h : Renamed g vol n0 f0 k0 newDir e res) (hc : Consistent g vol)
    (hn0 : IsDir g vol.disk n0) (hn : IsDir g vol.disk newDir.inodeNum)
    (hl : (entry g vol.disk n0 f0 k0).live)
    (he : e.inodeNum.toNat = (entry g vol.disk n0 f0 k0).inodeNum.toNat)
    (htype : e.fileType = (entry g vol.disk n0 f0 k0).fileType) (hf : FilesHashed g vol) :
    FilesHashed g res.1 := by
  intro m hm
  have hold : IsFile g vol.disk m := by
    by_cases hres : res.2.2 = 0
    · obtain ⟨f, k, -, hs⟩ := h.shift hn0 hl he htype hres
      obtain ⟨-, ht, rfl⟩ | ⟨m', f, k, hm', hl', ht, hnum, -⟩ := hm.shift hs
      · exact ⟨n0, f0, k0, hn0, hl, htype ▸ ht, he.symm⟩
      · exact ⟨m', f, k, hm', hl', ht, hnum⟩
    · exact hm.of_same fun k _ => (h.failed hres).2.1 k
  refine h.step.hashed ?_ (hf m hold)
  rintro (rfl | rfl)
  · exact hc.ns.isFile_ne_dir hold hn0 rfl
  · exact hc.ns.isFile_ne_dir hold hn rfl

theorem FilesHashed.opRename {oldDir newDir : Node} (hf : FilesHashed g vol)
    (hc : Consistent g vol) (hold : CurrentDir g vol.disk oldDir)
    (hnew : CurrentDir g vol.disk newDir) (hclean : CleanGrowth g vol newDir.inode 2)
    {oldName newName : List UInt8} {same : Bool}
    (hdiff : same = false → ¬ SameEntry oldDir oldName newDir newName) :
    FilesHashed g (vol.opRename oldDir oldName newDir newName same).1 := by
  have hout := hc.rest.opRename hold.current hnew.current hclean (hc.ns.compact _ hnew.isDir)
    (hc.ns.goodEntries hnew.isDir) (fun f k hl ht => hc.ns.file_ne_dir hnew.isDir hl ht hold.isDir)
    oldName newName same rfl
  generalize vol.opRename oldDir oldName newDir newName same = res at hout
  cases hout with
  | refused h _ =>
    rwa [h.1]
  | nothing h _ =>
    rwa [h]
  | moved f0 k0 hsrc hname h =>
    have hbound := hc.ns.bound _ f0 k0 hold.isDir hsrc.live
    exact h.filesHashed hc hold.isDir hnew.isDir hsrc.live (Dirent.inodeNum_named hbound _ _) rfl hf
  | replaced f0 k0 f1 k1 u hlen hnames hsrc hdst hfile hrem h =>
    have hbound := hc.ns.bound _ f0 k0 hold.isDir hsrc.live
    have hne := hsrc.ne_replaced hdst hnames hdiff
    have hkept := hrem.kept hc hnew.isDir
    have hsame0 := hrem.entry_other hc hnew.isDir hdst.live hfile hold.isDir hne
    refine h.filesHashed hkept.consistent (hrem.isDir hc hnew.isDir hdst.live hfile hold.isDir)
      (hrem.isDir hc hnew.isDir hdst.live hfile hnew.isDir) ?_ ?_ ?_
      (hrem.filesHashed hc hnew.isDir hf)
    · rw [hsame0]
      exact hsrc.live
    · rw [hsame0]
      exact Dirent.inodeNum_named hbound _ _
    · rw [hsame0]
      rfl

end Ops

/-- The condition on a call: that of `Meets`, for the calls that write the handle's copy of the
inode back an up-to-date hash in it, and for a write a mapped gap. -/
def HashMeets (g : Superblock) (s : Fs) (c : Call) : Prop :=
  Meets g s c ∧ match c with
    | .read h _ _ | .chmod h _ | .chgrp h _ => ∀ node, s.nodes[h]? = some node →
        HashCurrent g s.vol.disk node
    | .write h off data => ∀ node, s.nodes[h]? = some node →
        HashCurrent g s.vol.disk node ∧ GapMapped g s.vol node.inode off.toNat data
    | _ => True

/-- Every call of a run meets the condition in the state it is made in. -/
def HashMeetsAll (g : Superblock) (s : Fs) : List Call → Prop
  | [] => True
  | c :: cs => HashMeets g s c ∧ HashMeetsAll g (exec s c) cs

section Runs
variable {g : Superblock} {s : Fs} {cs : List Call} {n : ℕ}

theorem FilesHashed.on (hf : FilesHashed g s.vol) {h : ℕ} {f : Node → Fs}
    (hnode : ∀ node, s.nodes[h]? = some node → FilesHashed g (f node).vol) :
    FilesHashed g (s.on h f).vol := by
  unfold Fs.on
  split
  · exact hf
  · next node hn => exact hnode node hn

theorem FilesHashed.exec (hf : FilesHashed g s.vol) (hc : Consistent g s.vol) {c : Call}
    (hm : HashMeets g s c) : FilesHashed g (exec s c).vol := by
  obtain ⟨hm, hhash⟩ := hm
  cases c with
  | lookup h name => exact hf.on fun _ _ => hf
  | create h name fileType uid gid =>
    exact hf.on fun dir hdir => hf.opCreate hc (hm dir hdir).1 (hm dir hdir).2 name fileType uid gid
  | symlink h name target uid gid =>
    exact hf.on fun dir hdir => hf.opSymlink hc (hm dir hdir).1 (hm dir hdir).2 name target uid gid
  | «open» h => exact hf.on fun node hnode => hf.opOpen hc.rest (hm node hnode)
  | read h off len =>
    exact hf.on fun node hnode => hf.opRead hc.rest (hm node hnode) (hhash node hnode) _ _
  | write h off data =>
    refine hf.on fun node hnode => ?_
    obtain ⟨hcur, hfile⟩ := hm node hnode
    obtain ⟨hsame, hgap⟩ := hhash node hnode
    exact hf.opWrite hc.rest hcur hsame hfile off.toNat_lt data hgap
  | chmod h mode =>
    exact hf.on fun node hnode => hf.writeAttrs hc.rest (hm node hnode).1 (hhash node hnode)
      (fun r => by cases r <;> rfl) rfl rfl
  | chgrp h gid =>
    exact hf.on fun node hnode => hf.writeAttrs hc.rest (hm node hnode) (hhash node hnode)
      (fun r => by cases r <;> rfl) rfl rfl
  | unlink h name =>
    refine hf.on fun dir hdir => ?_
    obtain ⟨hcur, hn⟩ := hm dir hdir
    exact (hc.rest.opUnlink hcur (hc.ns.goodEntries hn) name rfl).filesHashed hc hn hf
  | rmdir h name =>
    refine hf.on fun dir hdir => ?_
    obtain ⟨hcur, hn⟩ := hm dir hdir
    exact (hc.rest.opRmdir hcur (hc.ns.goodEntries hn) name rfl).filesHashed hc hn hf
  | rename h name h' name' =>
    refine hf.on fun oldDir ho => hf.on fun newDir hn => ?_
    obtain ⟨hold, hnew, hclean, hdiff⟩ := hm oldDir newDir ho hn
    exact hf.opRename hc hold hnew hclean fun hne => hdiff (by simpa using hne)

theorem FilesHashed.run (hf : FilesHashed g s.vol) (hc : Consistent g s.vol)
    (hm : HashMeetsAll g s cs) : FilesHashed g (run s cs).vol ∧ Rest g (run s cs).vol := by
  induction cs generalizing s with
  | nil => exact ⟨hf, hc.rest⟩
  | cons c cs ih => exact ih (hf.exec hc hm.1) (hc.exec hm.1.1).consistent hm.2

theorem Start.filesHashed (hs : Start g s) : FilesHashed g s.vol := by
  obtain ⟨d, auditTotal, hfmt, rfl⟩ := hs.formatted
  rintro n ⟨m, f, k, -, hl, -⟩
  exact absurd hl (hfmt.not_live m f k)

/-- The hash of file `n` covers the file: its input is the whole content as a read returns it, an
open reports nothing, and after a change of any byte the input differs and an open reports it,
unless the eight bytes stored are zero or the same for the changed file. -/
structure HashGood (g : Superblock) (vol : Volume) (n : ℕ) : Prop where
  covers : HashCovers vol (inodeTable g vol.disk n)
  read : ∀ node, Current g vol.disk node → node.inodeNum = n →
    (vol.opRead node 0 node.inode.size.toNat).2.2 = vol.hashInput (inodeTable g vol.disk n)
  quiet : ∀ node : Node, node.inodeNum = n → n < 4096 → (vol.opOpen node).2.2 = false
  flips : ∀ x v vol', x < (inodeTable g vol.disk n).size.toNat →
    byteAt vol.disk (inodeTable g vol.disk n) x ≠ some v →
    vol' = vol.flip (inodeTable g vol.disk n) x v →
    vol'.hashInput (inodeTable g vol.disk n) ≠ vol.hashInput (inodeTable g vol.disk n) ∧
      ∀ node : Node, node.inodeNum = n → n < 4096 → ((vol'.opOpen node).2.2 = true ↔
        hashOf (vol.hashInput (inodeTable g vol.disk n)) ≠ 0 ∧
          hashOf (vol'.hashInput (inodeTable g vol.disk n)) ≠
            hashOf (vol.hashInput (inodeTable g vol.disk n)))

theorem Hashed.good {vol : Volume} (hh : Hashed g vol n) (hr : Rest g vol) : HashGood g vol n := by
  refine ⟨hashCovers_iff.mpr hh.covered, fun node hcur hnode => ?_, fun node hnode hn => ?_,
    fun x v vol' hx hv h => hh.flip hr hx hv h⟩
  · subst hnode
    have hbyte := byteAt_congr_root (fun r => (hcur.agrees.root r).symm) vol.disk
    have hcov := (covered_congr hcur.agrees.size.symm hbyte).mp hh.covered
    rw [opRead_eq_hashInput vol node hcov]
    exact (hashInput_congr hcur.agrees.size.symm fun x _ => hbyte x).symm
  · subst hnode
    exact hh.opOpen hr hn

/-- In a run from a formatted volume whose calls meet the condition the hash of every file covers
the file. -/
theorem run_hashGood (hs : Start g s) (hm : HashMeetsAll g s cs)
    (hn : IsFile g (run s cs).vol.disk n) : HashGood g (run s cs).vol n := by
  obtain ⟨hf, hr⟩ := hs.filesHashed.run hs.consistent hm
  exact (hf n hn).good hr

def hashCalls : List Call := [.create 0 [102] 0 0 0, .write 1 0 [104, 105]]

theorem hashCalls_good : HashGood sampleSuperblock (run sampleFs hashCalls).vol 1 := by
  have hnode : ∀ node ∈ (exec sampleFs (.create 0 [102] 0 0 0)).nodes[1]?,
      (inodeTable sampleSuperblock (exec sampleFs (.create 0 [102] 0 0 0)).vol.disk
        node.inodeNum).blockHash = node.inode.blockHash := by
    decide +kernel
  have hm : HashMeetsAll sampleSuperblock sampleFs hashCalls :=
    ⟨⟨sampleCreate_meets, trivial⟩, ⟨sampleWrite_meets _ _, fun node h =>
      ⟨hnode node h, .inl (Nat.zero_le _)⟩⟩, trivial⟩
  exact run_hashGood sampleFs_start hm ⟨0, 0, 0, .root, by decide +kernel⟩

def holeCalls : List Call := [.create 0 [102] 0 0 0, .write 1 8192 [33]]

/-- Create a file, write to it, look it up a second time, write through the first handle, and write
nothing through the second. -/
def staleHashCalls : List Call :=
  [.create 0 [102] 0 0 0, .write 1 0 [97], .lookup 0 [102], .write 1 0 [98], .write 2 0 []]

/-- Nothing is hashed of a file that starts with a gap, so a changed byte is not reported; and the
second handle puts the old hash back, so that an unmodified file is reported. -/
theorem hash_misses :
    (inodeTable sampleSuperblock (run sampleFs holeCalls).vol.disk 1).size = 8193 ∧
    (run sampleFs holeCalls).vol.hashInput
      (inodeTable sampleSuperblock (run sampleFs holeCalls).vol.disk 1) = [] ∧
    byteAt (run sampleFs holeCalls).vol.disk
      (inodeTable sampleSuperblock (run sampleFs holeCalls).vol.disk 1) 8192 = some 33 ∧
    (∃ node ∈ (run sampleFs holeCalls).nodes[1]?, node.inodeNum = 1 ∧
      (((run sampleFs holeCalls).vol.flip node.inode 8192 34).hashInput node.inode = []) ∧
      (((run sampleFs holeCalls).vol.flip node.inode 8192 34).opOpen node).2.2 = false) ∧
    ∃ node ∈ (run sampleFs staleHashCalls).nodes[1]?,
      ((run sampleFs staleHashCalls).vol.opRead node 0 1).2.2 = [98] ∧
      ((run sampleFs staleHashCalls).vol.opOpen node).2.2 = true := by
  decide +kernel

end Runs

end Exploidus.Exfs
