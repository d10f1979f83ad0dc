import Exploidus.Exfs.Init
import Exploidus.Exfs.Consistent

/-! Runs of the file system: calls through node handles on a formatted and mounted volume.
A handle keeps its private copy of the inode between calls, as the kernel's nodes do. -/
namespace Exploidus.Exfs

/-- A mounted volume and the nodes handed out so far; handle 0 is the root node. -/
structure Fs where
  vol : Volume
  nodes : List Node

/-- The operations of `exfs.c` on handles. -/
inductive Call where
  | lookup (h : ℕ) (name : List UInt8)
  | create (h : ℕ) (name : List UInt8) (fileType : UInt8) (uid gid : UInt32)
  | symlink (h : ℕ) (name target : List UInt8) (uid gid : UInt32)
  | open (h : ℕ)
  | read (h : ℕ) (off len : UInt64)
  | write (h : ℕ) (off : UInt64) (data : List UInt8)
  | chmod (h : ℕ) (mode : UInt32)
  | chgrp (h : ℕ) (gid : UInt32)
  | unlink (h : ℕ) (name : List UInt8)
  | rmdir (h : ℕ) (name : List UInt8)
  | rename (h : ℕ) (name : List UInt8) (h' : ℕ) (name' : List UInt8)

/-- The volume and the node after an operation on handle `h`, and the node it returns. -/
def Fs.after (s : Fs) (h : ℕ) (vol : Volume) (node : Node) (new : Option Node) : Fs :=
  ⟨vol, s.nodes.set h node ++ new.toList⟩

/-- Call `f` with the node of handle `h`; nothing happens when the handle was never given out. -/
def Fs.on (s : Fs) (h : ℕ) (f : Node → Fs) : Fs :=
  match s.nodes[h]? with
  | none => s
  | some node => f node

def exec (s : Fs) : Call → Fs
  | .lookup h name => s.on h fun dir => s.after h s.vol dir (s.vol.opLookup dir name)
  | .create h name fileType uid gid => s.on h fun dir =>
      let r := s.vol.opCreate dir name fileType uid gid
      s.after h r.1 r.2.1 r.2.2
  | .symlink h name target uid gid => s.on h fun dir =>
      let r := s.vol.opSymlink dir name target uid gid
      s.after h r.1 r.2.1 none
  | .open h => s.on h fun node =>
      let r := s.vol.opOpen node
      s.after h r.1 r.2.1 none
  | .read h off len => s.on h fun node =>
      let r := s.vol.opRead node off.toNat len.toNat
      s.after h r.1 r.2.1 none
  | .write h off data => s.on h fun node =>
      let r := s.vol.opWrite node off.toNat data
      s.after h r.1 r.2.1 none
  | .chmod h mode => s.on h fun node =>
      let r := s.vol.opChmod node mode
      s.after h r.1 r.2 none
  | .chgrp h gid => s.on h fun node =>
      let r := s.vol.opChgrp node gid
      s.after h r.1 r.2 none
  | .unlink h name => s.on h fun dir => s.after h (s.vol.opUnlink dir name).1 dir none
  | .rmdir h name => s.on h fun dir => s.after h (s.vol.opRmdir dir name).1 dir none
  | .rename h name h' name' => s.on h fun oldDir => s.on h' fun newDir =>
      let r := s.vol.opRename oldDir name newDir name' (h == h')
      s.after h' r.1 r.2.1 none

def run (s : Fs) (cs : List Call) : Fs := cs.foldl exec s

/-- A node whose copy of the inode is up to date and that names a directory. -/
structure CurrentDir (g : Superblock) (d : ℕ → Block) (node : Node) : Prop where
  current : Current g d node
  isDir : IsDir g d node.inodeNum

/-- The condition on a call under which the file system keeps its invariants: the handles it uses
are up to date, directory operations get directories and writes get files, `chmod` does not turn an
empty inode into a free one, a directory that grows by a pointer block grows into cleared blocks,
and a rename does not name one entry through two node objects. -/
def Meets (g : Superblock) (s : Fs) : Call → Prop
  | .lookup _ _ => True
  | .create h _ _ _ _ => ∀ dir, s.nodes[h]? = some dir →
      CurrentDir g s.vol.disk dir ∧ CleanGrowth g s.vol dir.inode 2
  | .symlink h _ _ _ _ => ∀ dir, s.nodes[h]? = some dir →
      CurrentDir g s.vol.disk dir ∧ CleanGrowth g s.vol dir.inode 3
  | .open h => ∀ node, s.nodes[h]? = some node → node.inodeNum < 4096
  | .read h _ _ => ∀ node, s.nodes[h]? = some node → Current g s.vol.disk node
  | .write h _ _ => ∀ node, s.nodes[h]? = some node →
      Current g s.vol.disk node ∧ ¬ IsDir g s.vol.disk node.inodeNum
  | .chmod h mode => ∀ node, s.nodes[h]? = some node →
      Current g s.vol.disk node ∧ (node.inodeNum ≠ 0 → mode ≠ 0 ∨ node.inode.size ≠ 0)
  | .chgrp h _ => ∀ node, s.nodes[h]? = some node → Current g s.vol.disk node
  | .unlink h _ => ∀ dir, s.nodes[h]? = some dir → CurrentDir g s.vol.disk dir
  | .rmdir h _ => ∀ dir, s.nodes[h]? = some dir → CurrentDir g s.vol.disk dir
  | .rename h name h' name' => ∀ oldDir newDir, s.nodes[h]? = some oldDir →
      s.nodes[h']? = some newDir → CurrentDir g s.vol.disk oldDir ∧ CurrentDir g s.vol.disk newDir ∧
        CleanGrowth g s.vol newDir.inode 2 ∧ (h ≠ h' → ¬ SameEntry oldDir name newDir name')

/-- Every call of a run meets the condition in the state it is made in. -/
def MeetsAll (g : Superblock) (s : Fs) : List Call → Prop
  | [] => True
  | c :: cs => Meets g s c ∧ MeetsAll g (exec s c) cs

/-- A volume as `exfs_format` and `exfs_mount` produce it, with its root node. -/
structure Start (g : Superblock) (s : Fs) : Prop where
  made : ∃ (total : ℕ) (d0 d : ℕ → Block) (auditTotal : UInt64) (vol : Volume) (root : Node),
    total < 2 ^ 29 ∧ formatSuperblock total = some g ∧ format d0 total = some d ∧
      mount d true auditTotal = some (vol, root) ∧ s = ⟨vol, [root]⟩

section
variable {g : Superblock} {s : Fs}

theorem Start.formatted (h : Start g s) : ∃ d auditTotal, Formatted g d ∧
    s = ⟨freshVolume g d auditTotal, [freshRoot]⟩ := by
  obtain ⟨total, d0, d, a, vol, root, hlt, hg, hf, hm, rfl⟩ := h.made
  have hfmt := Exfs.formatted hg hlt hf
  have hvol := (hfmt.mount a).symm.trans hm
  obtain ⟨rfl, rfl⟩ := Prod.mk.inj (Option.some.inj hvol)
  exact ⟨d, a, hfmt, rfl⟩

theorem Start.consistent (h : Start g s) : Consistent g s.vol := by
  obtain ⟨d, a, hf, rfl⟩ := h.formatted
  exact ⟨hf.rest a, hf.ns⟩

theorem Consistent.on (hc : Consistent g s.vol) {h : ℕ} {f : Node → Fs}
    (hf : ∀ node, s.nodes[h]? = some node → Kept g s.vol (f node).vol) :
    Kept g s.vol (s.on h f).vol := by
  unfold Fs.on
  split
  · exact hc.refl
  · next node hnode => exact hf node hnode

theorem Consistent.exec (hc : Consistent g s.vol) {c : Call} (hm : Meets g s c) :
    Kept g s.vol (exec s c).vol := by
  cases c with
  | lookup h name => exact hc.on fun _ _ => hc.refl
  | create h name fileType uid gid =>
    refine hc.on fun dir hdir => ?_
    obtain ⟨hcur, hclean⟩ := hm dir hdir
    exact hc.opCreate hcur.current hcur.isDir hclean name fileType uid gid
  | symlink h name target uid gid =>
    refine hc.on fun dir hdir => ?_
    obtain ⟨hcur, hclean⟩ := hm dir hdir
    exact hc.opSymlink hcur.current hcur.isDir hclean name target uid gid
  | «open» h => exact hc.on fun node hnode => hc.opOpen (hm node hnode)
  | read h off len => exact hc.on fun node hnode => hc.opRead (hm node hnode) _ _
  | write h off data =>
    refine hc.on fun node hnode => ?_
    obtain ⟨hcur, hfile⟩ := hm node hnode
    exact hc.opWrite hcur hfile _ data
  | chmod h mode =>
    refine hc.on fun node hnode => ?_
    obtain ⟨hcur, huse⟩ := hm node hnode
    exact hc.writeAttrs hcur (fun r => by cases r <;> rfl) fun h0 _ => huse h0
  | chgrp h gid =>
    exact hc.on fun node hnode => hc.writeAttrs (hm node hnode) (fun r => by cases r <;> rfl)
      fun _ hu => hu
  | unlink h name =>
    refine hc.on fun dir hdir => ?_
    obtain ⟨hcur, hn⟩ := hm dir hdir
    exact (hc.rest.opUnlink hcur (hc.ns.goodEntries hn) name rfl).kept hc hn
  | rmdir h name =>
    refine hc.on fun dir hdir => ?_
    obtain ⟨hcur, hn⟩ := hm dir hdir
    exact (hc.rest.opRmdir hcur (hc.ns.goodEntries hn) name rfl).kept hc hn
  | rename h name h' name' =>
    refine hc.on fun oldDir ho => hc.on fun newDir hn => ?_
    obtain ⟨hold, hnew, hclean, hdiff⟩ := hm oldDir newDir ho hn
    exact hc.opRename hold.current hold.isDir hnew.current hnew.isDir hclean
      fun hne => hdiff (by simpa using hne)

theorem Consistent.run (hc : Consistent g s.vol) {cs : List Call} (hm : MeetsAll g s cs) :
    Kept g s.vol (run s cs).vol := by
  induction cs generalizing s with
  | nil => exact hc.refl
  | cons c cs ih =>
    have hstep := hc.exec hm.1
    have hrest := ih hstep.consistent hm.2
    exact ⟨hrest.consistent, hstep.runs.trans hrest.runs⟩

end

/-! The condition can be checked on a concrete volume. -/

theorem agrees_iff (i j : Inode) : Agrees i j ↔ i.mode = j.mode ∧ i.size = j.size ∧
    i.indirect = j.indirect ∧ i.doubleIndirect = j.doubleIndirect ∧ i.direct = j.direct := by
  constructor
  · intro h
    refine ⟨h.mode, h.size, UInt64.toNat_inj.mp (h.root .indirect),
      UInt64.toNat_inj.mp (h.root .doubleIndirect), funext fun k => UInt64.toNat_inj.mp ?_⟩
    have := h.root (.direct k)
    simpa [Inode.root, Inode.directAt] using this
  · rintro ⟨hm, hs, hi, hd, hk⟩
    refine ⟨fun r => ?_, hm, hs⟩
    cases r <;> simp only [Inode.root, Inode.directAt, hi, hd, hk]

instance (i j : Inode) : Decidable (Agrees i j) := decidable_of_iff' _ (agrees_iff i j)

instance (g : Superblock) (d : ℕ → Block) (node : Node) : Decidable (Current g d node) :=
  decidable_of_iff (node.inodeNum < 4096 ∧ Agrees node.inode (inodeTable g d node.inodeNum))
    ⟨fun h => ⟨h.1, h.2⟩, fun h => ⟨h.bound, h.agrees⟩⟩

section
variable {g : Superblock} {s : Fs}

theorem root_current (h : ∀ dir ∈ s.nodes[0]?, Current g s.vol.disk dir ∧ dir.inodeNum = 0) :
    ∀ dir, s.nodes[0]? = some dir → CurrentDir g s.vol.disk dir := by
  intro dir hdir
  obtain ⟨hc, h0⟩ := h dir hdir
  exact ⟨hc, h0 ▸ .root⟩

theorem root_clean {m f : ℕ} (hf : f < 12) (h : ∀ dir ∈ s.nodes[0]?,
      (Current g s.vol.disk dir ∧ dir.inodeNum = 0) ∧ blockAt s.vol.disk dir.inode f = 0) :
    ∀ dir, s.nodes[0]? = some dir →
      CurrentDir g s.vol.disk dir ∧ CleanGrowth g s.vol dir.inode m := by
  intro dir hdir
  refine ⟨root_current (fun dir hdir => (h dir hdir).1) dir hdir, fun fb hfull hneeds => ?_⟩
  exact absurd (h dir hdir).2 (hfull.2 f (by have := hneeds.1; omega)).1

theorem write_meets (hc : Consistent g s.vol) (h : ∀ node ∈ s.nodes[1]?,
      Current g s.vol.disk node ∧ node.inodeNum = (entry g s.vol.disk 0 0 0).inodeNum.toNat ∧
      (entry g s.vol.disk 0 0 0).live ∧ (entry g s.vol.disk 0 0 0).fileType ≠ 1)
    (off : UInt64) (data : List UInt8) : Meets g s (.write 1 off data) := by
  intro node hnode
  obtain ⟨hcur, hn, hl, ht⟩ := h node hnode
  exact ⟨hcur, fun hdir => hc.ns.file_ne_dir .root hl ht hdir hn⟩

end

/-- A formatted and mounted volume of 300 blocks. -/
def sampleSuperblock : Superblock := (formatSuperblock 300).get (by decide)
def sampleDisk : ℕ → Block := (format (fun _ => zeroBlock) 300).get (by decide)
def sampleMount : Volume × Node := (mount sampleDisk true 0).get (by decide +kernel)
def sampleFs : Fs := ⟨sampleMount.1, [sampleMount.2]⟩

theorem sampleFs_start : Start sampleSuperblock sampleFs := by
  have hsuper : formatSuperblock 300 = some sampleSuperblock := (Option.some_get _).symm
  have hformat : format (fun _ => zeroBlock) 300 = some sampleDisk := (Option.some_get _).symm
  have hmount : mount sampleDisk true 0 = some (sampleMount.1, sampleMount.2) := by
    rw [Prod.mk.eta]
    exact (Option.some_get _).symm
  exact ⟨300, fun _ => zeroBlock, sampleDisk, 0, sampleMount.1, sampleMount.2, by norm_num,
    hsuper, hformat, hmount, rfl⟩

theorem sampleCreate_meets : Meets sampleSuperblock sampleFs (.create 0 [102] 0 0 0) :=
  root_clean (f := 0) (by decide) (by decide +kernel)

theorem sampleWrite_meets (off : UInt64) (data : List UInt8) :
    Meets sampleSuperblock (exec sampleFs (.create 0 [102] 0 0 0)) (.write 1 off data) :=
  write_meets (sampleFs_start.consistent.exec sampleCreate_meets).consistent (by decide +kernel) _ _

end Exploidus.Exfs
