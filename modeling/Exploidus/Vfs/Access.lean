import Exploidus.Vfs.Effects
import Exploidus.Vfs.Grants

/-! Access control over runs of calls by any processes. -/
namespace Exploidus.Vfs
open Exfs Function State Volume

/-- The bytes of files that a call hands out. `vfs_readdir` and `vfs_readlink` hand out names. -/
def State.fileBytes (s : State) : Call → List UInt8
  | .read fd len => (s.vfsRead fd len).2.1
  | _ => []

/-- Every byte a call hands out belongs to a file that the caller opened, through the descriptor it
uses, when the mode bits gave it read access. -/
def ReadsOk (g : ℕ → Superblock) (x : Session) (c : Caller) (call : Call) : Prop :=
  ∀ b ∈ x.state.fileBytes call, ∃ fd len gr y, call = .read fd len ∧
    x.grants fd.toNat = some gr ∧ gr.pid = c.pid ∧ gr.read ∧
    byteAt (x.state.volumes gr.vol).disk (x.state.inodeOf g gr.vol gr.inodeNum) y = some b

/-- The call writes through a descriptor of file `n` on volume `v` that the caller opened when the
mode bits gave it write access or it owned the file. -/
def Holding (x : Session) (c : Caller) (call : Call) (v n : ℕ) : Prop :=
  ∃ fd data gr, call = .write fd data ∧ x.grants fd.toNat = some gr ∧ gr.pid = c.pid ∧ gr.write ∧
    gr.vol = v ∧ gr.inodeNum = n

/-- What happens to the mounted volumes between `s` and `s'` is covered by the rights of the caller
and by the files it has open for writing. -/
def RespectsAll (g : ℕ → Superblock) (c : Caller) (held : ℕ → ℕ → Prop) (s s' : State) : Prop :=
  ∀ m ∈ s.mounts, Respects (g (s.nodes m.root).vol) c (held (s.nodes m.root).vol)
    (s.volumes (s.nodes m.root).vol) (s'.volumes (s.nodes m.root).vol)

/-- A call by a process other than root reads and changes files within its rights. -/
def AccessOk (g : ℕ → Superblock) (x : Session) (c : Caller) (call : Call) : Prop :=
  c.uid ≠ 0 → ReadsOk g x c call ∧ RespectsAll g c (Holding x c call) x.state (exec x.state c call)

/-! The condition. -/

/-- The lookup of the directory of a path finds names in directories only, and `P` holds of the
state after it, the directory and the last component. -/
def State.InParent (s : State) (path : List UInt8) (P : State → ℕ → List UInt8 → Prop) : Prop :=
  ∀ p ∈ splitPath path, State.InDirs true 9 s p.1 ∧ ∀ dir, (s.lookup p.1).2 = some dir →
    ((s.lookup p.1).1.nodes dir).node.type = .directory → P (s.lookup p.1).1 dir p.2

def State.inodeAt (g : ℕ → Superblock) (s : State) (n : ℕ) : Inode :=
  s.inodeOf g (s.nodes n).vol (s.nodes n).node.inodeNum

structure ShowsRights (g : ℕ → Superblock) (s : State) (n : ℕ) : Prop where
  mode : (s.nodes n).node.mode = (s.inodeAt g n).mode
  ownerUid : (s.nodes n).node.ownerUid = (s.inodeAt g n).ownerUid
  groupGid : (s.nodes n).node.groupGid = (s.inodeAt g n).groupGid

/-- The lookups of `vfs_chdir` below the mounts, each with the state it is made in. -/
def chdirLookups (cwd : ℕ) (path : List UInt8) : List Mount → State → List (State × List UInt8)
  | [], _ => []
  | m :: ms, s =>
    let r := s.probe cwd m path
    if !r.2 ∨ 512 ≤ m.mountpoint.length + path.length + 2 then chdirLookups cwd path ms r.1
    else
      let sep := if m.mountpoint.getLast? = some slash then [] else [slash]
      let r' := r.1.lookup (m.mountpoint ++ sep ++ path)
      (r.1, m.mountpoint ++ sep ++ path) :: match r'.2 with
        | none => chdirLookups cwd path ms r'.1
        | some n =>
          if (r'.1.nodes n).node.type = .directory then []
          else chdirLookups cwd path ms (r'.1.freeChild n)

/-- The lookups of the part of `vfs_chdir` for a relative path. -/
def State.chdirRelativeLookups (s : State) (path : List UInt8) : List (State × List UInt8) :=
  match s.cwd with
  | none => []
  | some cwd => if (s.nodes cwd).node.name = [] then [] else chdirLookups cwd path s.mounts s

/-- All lookups of `vfs_chdir`. -/
def State.vfsChdirLookups (s : State) (path : List UInt8) : List (State × List UInt8) :=
  if path.head? = some slash then [(s, path)]
  else s.chdirRelativeLookups path ++ if (s.chdirRelative path).2 then []
    else [((s.chdirRelative path).1, if path.length + 2 < 512 then slash :: path else path)]

def RenameOk (g : ℕ → Superblock) (c : Caller) (s : State) (oldDir : ℕ) (oldName : List UInt8)
    (newDir : ℕ) (newName : List UInt8) : Prop :=
  (s.nodes oldDir).vol = (s.nodes newDir).vol →
    MayRemove c (g (s.nodes oldDir).vol) (s.volOf oldDir) (s.nodes oldDir).node.inodeNum oldName ∧
    mayEnter c (s.inodeAt g newDir) ∧
    CleanGrowth (g (s.nodes newDir).vol) (s.volOf newDir) (s.nodes newDir).node.inode 2 ∧
    (oldDir ≠ newDir → ¬ SameEntry (s.nodes oldDir).node oldName (s.nodes newDir).node newName)

/-- The condition on a call under which access control holds. Where the code checks, it is that the
volumes are consistent, the nodes used are up to date and names are found in directories only; where
it does not check, it is also that the caller has the right. -/
def Permits (g : ℕ → Superblock) (x : Session) (c : Caller) : Call → Prop
  | .open path _ => Mounted g x.state ∧ State.InDirs true 9 x.state path ∧
      ∀ m ∈ x.state.mounts, (x.state.lookup path).2 = some m.root → ShowsRights g x.state m.root
  | .create path _ => Mounted g x.state ∧ x.state.InParent path fun s dir _ =>
      CleanGrowth (g (s.nodes dir).vol) (s.volOf dir) (s.nodes dir).node.inode 2 ∧
        (c.uid = 0 ∨ mayEnter c (s.inodeAt g dir))
  | .read fd _ => c.uid = 0 ∨ Mounted g x.state ∧ ∀ e, x.state.fdAt fd = some e →
      (∃ gr, x.grants fd.toNat = some gr ∧ gr.pid = c.pid ∧ gr.asksRead) ∧
      (x.state.nodes e.node).node.inodeNum < 4096 ∧
      (x.state.nodes e.node).node.inode = x.state.inodeAt g e.node
  | .write fd _ => c.uid = 0 ∨ Mounted g x.state ∧ ∀ e, x.state.fdAt fd = some e →
      (∃ gr, x.grants fd.toNat = some gr ∧ gr.pid = c.pid ∧ gr.asksWrite) ∧
      Current (g (x.state.nodes e.node).vol) (x.state.volOf e.node).disk
        (x.state.nodes e.node).node ∧
      ¬ IsDir (g (x.state.nodes e.node).vol) (x.state.volOf e.node).disk
        (x.state.nodes e.node).node.inodeNum
  | .chmod path _ => c.uid = 0 ∨ Mounted g x.state ∧ State.InDirs true 9 x.state path ∧
      ∀ n, (x.state.lookup path).2 = some n → mayChange c ((x.state.lookup path).1.inodeAt g n)
  | .chgrp path _ => c.uid = 0 ∨ Mounted g x.state ∧ State.InDirs true 9 x.state path ∧
      ∀ n, (x.state.lookup path).2 = some n → mayChange c ((x.state.lookup path).1.inodeAt g n)
  | .unlink path => c.uid = 0 ∨ Mounted g x.state ∧ x.state.InParent path fun s dir name =>
      MayRemove c (g (s.nodes dir).vol) (s.volOf dir) (s.nodes dir).node.inodeNum name
  | .rmdir path => c.uid = 0 ∨ Mounted g x.state ∧ x.state.InParent path fun s dir name =>
      MayRemove c (g (s.nodes dir).vol) (s.volOf dir) (s.nodes dir).node.inodeNum name
  | .rename oldPath newPath => c.uid = 0 ∨ Mounted g x.state ∧
      x.state.InParent oldPath fun s oldDir oldName =>
        s.InParent newPath fun s newDir newName => RenameOk g c s oldDir oldName newDir newName
  | .symlink _ linkpath => c.uid = 0 ∨ Mounted g x.state ∧ x.state.InParent linkpath fun s dir _ =>
        CleanGrowth (g (s.nodes dir).vol) (s.volOf dir) (s.nodes dir).node.inode 3 ∧
          mayEnter c (s.inodeAt g dir)
  | .readlink path _ => c.uid = 0 ∨ Mounted g x.state ∧ State.InDirs false 9 x.state path ∧
      ∀ m ∈ x.state.mounts, (x.state.nodes m.root).node.type = .directory
  | .chdir path => c.uid = 0 ∨ Mounted g x.state ∧
      ∀ q ∈ x.state.vfsChdirLookups path, State.InDirs true 9 q.1 q.2
  | .close _ => True
  | .closeAllForPid _ => True
  | .readdir _ _ => True
  | .getcwd _ => True
  | .lseek _ _ _ => True
  | .dup _ => True
  | .dup2 _ _ => True

section
variable {g : ℕ → Superblock} {c : Caller} {held : ℕ → ℕ → Prop} {s t : State} {n : ℕ}
  {path : List UInt8}

/-! Calls that only read. -/

theorem State.lookup_reads (hm : Mounted g s) (hdirs : State.InDirs true 9 s path) :
    ReadsOnly g s (s.lookup path).1 ∧
      ∀ n, (s.lookup path).2 = some n → Reaches g s (s.lookup path).1 n :=
  lookupImpl_reads hm hdirs

theorem RespectsAll.of_volumes (h : t.volumes = s.volumes) : RespectsAll g c held s t := by
  intro m _
  rw [h]
  exact .refl _

theorem RespectsAll.congr {t' : State} (h : RespectsAll g c held s t)
    (hvols : t'.volumes = t.volumes) : RespectsAll g c held s t' := by
  intro m hm
  rw [hvols]
  exact h m hm

theorem ReadsOnly.respectsAll (hm : Mounted g s) (h : ReadsOnly g s t) : RespectsAll g c held s t :=
  fun m hmem => (h.mounted m hmem).respects (hm.consistent m hmem).rest

theorem ReadsOnly.respectsAll_update (hm : Mounted g s) (h : ReadsOnly g s t) {v : ℕ}
    {vol : Volume} {t' : State} (hvols : t'.volumes = update t.volumes v vol)
    (hop : Respects (g v) c (held v) (t.volumes v) vol) : RespectsAll g c held s t' := by
  intro m hmem
  rw [hvols]
  have hrest := (hm.consistent m hmem).rest
  by_cases hv : (s.nodes m.root).vol = v
  · rw [volOf] at hrest
    have hread := h.mounted m hmem
    rw [volOf] at hread
    rw [hv] at hrest hread ⊢
    rw [update_self]
    exact .after_read hrest hread hop
  · rw [update_of_ne hv]
    exact (h.mounted m hmem).respects hrest

theorem Reaches.consistent (hm : Mounted g s) (h : ReadsOnly g s t) (hn : Reaches g s t n) :
    Consistent (g (t.nodes n).vol) (t.volOf n) := by
  obtain ⟨⟨m, hmem, hvol⟩, -⟩ := hn.node hm h
  rw [volOf, hvol]
  exact (h.mounted m hmem).consistent

theorem Reaches.lt (hm : Mounted g s) (h : ReadsOnly g s t) (hn : Reaches g s t n) :
    n < t.fresh := by
  rcases hn with ⟨m, hmem, rfl⟩ | hn
  · exact (hm.live m hmem).trans_le h.fresh
  · exact hn.2.1

theorem ReadsOnly.freeChild (h : ReadsOnly g s t) (n : ℕ) : ReadsOnly g s (t.freeChild n) := by
  unfold State.freeChild
  split_ifs
  · exact ⟨⟨h.fresh, h.nodes, h.mounts, h.fds, h.cwd⟩, h.mounted, h.others⟩
  · exact h

theorem State.install_volumes (s : State) (c : Caller) (n : ℕ) :
    (s.install c n).1.volumes = s.volumes ∨ (s.install c n).1.volumes =
      update s.volumes (s.nodes n).vol ((s.volOf n).opOpen (s.nodes n).node).1 := by
  unfold install
  split
  · exact .inl (freeChild_volumes ..)
  · exact .inr rfl

theorem State.vfsOpen_respects (hm : Mounted g s) (hdirs : State.InDirs true 9 s path) (c' : Caller)
    (flags : UInt32) : RespectsAll g c held s (s.vfsOpen c' path flags).1 := by
  obtain ⟨hreads, hreach⟩ := lookup_reads hm hdirs
  unfold vfsOpen
  dsimp only
  split
  · exact hreads.respectsAll hm
  next n hn =>
    have hn := hreach n hn
    split_ifs
    · exact (hreads.freeChild n).respectsAll hm
    rcases install_volumes (s.lookup path).1 c' n with hvols | hvols
    · exact (hreads.respectsAll hm).congr hvols
    refine hreads.respectsAll_update hm hvols ?_
    have hc := hn.consistent hm hreads
    exact (opOpen_onlyRead hc (hn.node hm hreads).2.current.bound).1.respects hc.rest

theorem State.vfsReadlink_respects (hm : Mounted g s) (hdirs : State.InDirs false 9 s path)
    (hroots : ∀ m ∈ s.mounts, (s.nodes m.root).node.type = .directory) (len : UInt64) :
    RespectsAll g c held s (s.vfsReadlink path len).1 := by
  obtain ⟨hreads, hreach⟩ := lookupImpl_reads hm hdirs
  unfold vfsReadlink
  dsimp only [lookupLink]
  split
  · exact hreads.respectsAll hm
  next n hn =>
    split_ifs with htype
    · exact (hreads.freeChild n).respectsAll hm
    have hlink := not_not.mp htype
    have hn := hreach n hn
    have hc := hn.consistent hm hreads
    rcases hn with ⟨m, hmem, rfl⟩ | ⟨-, -, -, -, hexact⟩
    · rw [hreads.nodes _ (hm.live m hmem), hroots m hmem] at hlink
      cases hlink
    · refine hreads.respectsAll_update hm (freeChild_volumes ..) ?_
      exact (opRead_onlyRead hc hexact.current.bound hexact.inode 0 len.toNat).1.respects hc.rest

theorem State.setCwd_volumes (s : State) (n : ℕ) : (s.setCwd n).volumes = s.volumes := by
  unfold setCwd
  split
  · rfl
  · exact freeChild_volumes ..

theorem ReadsOnly.probe (h : ReadsOnly g s t) (cwd : ℕ) (m : Mount)
    (path : List UInt8) : ReadsOnly g s (t.probe cwd m path).1 := by
  unfold State.probe
  split
  · exact h
  cases hl : (t.volOf m.root).opLookup (t.nodes m.root).node path with
  | none =>
    rwa [lookupIn_of_none hl]
  | some child =>
    rw [lookupIn_of_some hl]
    have hnew : ReadsOnly g s (t.newNode ⟨(t.nodes m.root).vol, child, some m.root⟩).1 := by
      refine ⟨⟨h.fresh.trans (Nat.le_succ _), fun k hk => ?_, h.mounts, h.fds, h.cwd⟩, h.mounted,
        h.others⟩
      rw [newNode_of_lt (hk.trans_le h.fresh), h.nodes k hk]
    exact hnew.freeChild _

theorem State.chdirTo_volumes (hm : Mounted g s) (hdirs : State.InDirs true 9 s path) :
    ∃ t, ReadsOnly g s t ∧ (s.chdirTo path).1.volumes = t.volumes := by
  obtain ⟨hreads, -⟩ := lookup_reads hm hdirs
  refine ⟨_, hreads, ?_⟩
  unfold chdirTo
  dsimp only
  split
  · rfl
  split_ifs
  · exact freeChild_volumes ..
  · exact setCwd_volumes ..

theorem State.chdirBelow_reads (hm : Mounted g s) {cwd : ℕ} {ms : List Mount} (h : ReadsOnly g s t)
    (hdirs : ∀ q ∈ chdirLookups cwd path ms t, State.InDirs true 9 q.1 q.2) :
    ∃ t', ReadsOnly g s t' ∧ (chdirBelow cwd path ms t).1.volumes = t'.volumes ∧
      ((chdirBelow cwd path ms t).2 = false → (chdirBelow cwd path ms t).1 = t') := by
  induction ms generalizing t with
  | nil => exact ⟨t, h, rfl, fun _ => rfl⟩
  | cons m ms ih =>
    have hprobe := h.probe cwd m path
    unfold chdirLookups at hdirs
    unfold chdirBelow
    dsimp only at hdirs ⊢
    generalize t.probe cwd m path = r at hprobe hdirs ⊢
    generalize (if m.mountpoint.getLast? = some slash then [] else [slash]) = sep at hdirs ⊢
    by_cases hskip : !r.2 ∨ 512 ≤ m.mountpoint.length + path.length + 2
    · rw [if_pos hskip] at hdirs ⊢
      exact ih hprobe hdirs
    rw [if_neg hskip] at hdirs ⊢
    obtain ⟨hhere, hlater⟩ := List.forall_mem_cons.mp hdirs
    have hlook := hprobe.trans hm (lookup_reads (hm.reads hprobe) hhere).1
    generalize r.1.lookup (m.mountpoint ++ sep ++ path) = q at hlook hlater ⊢
    obtain ⟨t1, found⟩ := q
    cases found with
    | none => exact ih hlook hlater
    | some n =>
      dsimp only at hlater ⊢
      split_ifs at hlater ⊢
      · exact ⟨t1, hlook, setCwd_volumes .., fun hno => by cases hno⟩
      · exact ih (hlook.freeChild n) hlater

theorem State.vfsChdir_respects (hm : Mounted g s)
    (hdirs : ∀ q ∈ s.vfsChdirLookups path, State.InDirs true 9 q.1 q.2) :
    RespectsAll g c held s (s.vfsChdir path).1 := by
  unfold vfsChdirLookups at hdirs
  unfold vfsChdir
  by_cases habs : path.head? = some slash
  · rw [if_pos habs] at hdirs ⊢
    obtain ⟨t, hreads, hvols⟩ := chdirTo_volumes hm (hdirs _ (List.mem_singleton_self _))
    exact (hreads.respectsAll hm).congr hvols
  rw [if_neg habs] at hdirs ⊢
  obtain ⟨hbelow, hlast⟩ := List.forall_mem_append.mp hdirs
  have hrel : ∃ t, ReadsOnly g s t ∧ (s.chdirRelative path).1.volumes = t.volumes ∧
      ((s.chdirRelative path).2 = false → (s.chdirRelative path).1 = t) := by
    unfold chdirRelativeLookups at hbelow
    unfold chdirRelative
    cases hcwd : s.cwd with
    | none => exact ⟨s, hm.refl, rfl, fun _ => rfl⟩
    | some cwd =>
      rw [hcwd] at hbelow
      dsimp only at hbelow ⊢
      split_ifs at hbelow ⊢
      · exact ⟨s, hm.refl, rfl, fun _ => rfl⟩
      · exact chdirBelow_reads hm hm.refl hbelow
  obtain ⟨t, hreads, hvols, hsame⟩ := hrel
  dsimp only
  cases hdone : (s.chdirRelative path).2 with
  | true => exact (hreads.respectsAll hm).congr hvols
  | false =>
    rw [hdone] at hlast
    have hlast := hlast _ (List.mem_singleton_self _)
    rw [hsame hdone] at hlast ⊢
    obtain ⟨t', hreads', hvols'⟩ := chdirTo_volumes (hm.reads hreads) hlast
    exact ((hreads.trans hm hreads').respectsAll hm).congr hvols'

/-! Calls that change something. -/

theorem State.onNode_respects (hm : Mounted g s) (hdirs : State.InDirs true 9 s path)
    (hmay : ∀ n, (s.lookup path).2 = some n → mayChange c ((s.lookup path).1.inodeAt g n))
    {f : Volume → Node → Volume × Node} (hf : ∀ vol node, ∃ i,
      (f vol node).1 = vol.writeInode node.inodeNum i ∧ ∀ r, i.root r = node.inode.root r) :
    RespectsAll g c held s (s.onNode path fun s n =>
      (s.after n (f (s.volOf n) (s.nodes n).node).1 (f (s.volOf n) (s.nodes n).node).2, 0)).1 := by
  obtain ⟨hreads, hreach⟩ := lookup_reads hm hdirs
  unfold onNode
  dsimp only
  split
  · exact hreads.respectsAll hm
  next n hn =>
    have hreached := hreach n hn
    refine hreads.respectsAll_update hm (freeChild_volumes ..) ?_
    obtain ⟨i, hi, hroot⟩ := hf ((s.lookup path).1.volOf n) ((s.lookup path).1.nodes n).node
    rw [hi]
    exact writeAttrs_respects (hreached.consistent hm hreads) (hreached.node hm hreads).2.current
      hroot (hmay n hn)

structure Directory (g : ℕ → Superblock) (t : State) (dir : ℕ) : Prop where
  consistent : Consistent (g (t.nodes dir).vol) (t.volOf dir)
  current : Current (g (t.nodes dir).vol) (t.volOf dir).disk (t.nodes dir).node
  isDir : IsDir (g (t.nodes dir).vol) (t.volOf dir).disk (t.nodes dir).node.inodeNum

theorem Reaches.directory (hm : Mounted g s) (h : ReadsOnly g s t) (hn : Reaches g s t n)
    (htype : (t.nodes n).node.type = .directory) : Directory g t n :=
  have hknown := (hn.node hm h).2
  ⟨hn.consistent hm h, hknown.current, hknown.dir htype⟩

theorem State.inParent_respects (hm : Mounted g s) {P : State → ℕ → List UInt8 → Prop}
    (hparent : s.InParent path P) {f : Volume → Node → List UInt8 → Volume × Node × ℤ}
    (hf : ∀ t dir name, P t dir name → Directory g t dir →
      Respects (g (t.nodes dir).vol) c (held (t.nodes dir).vol) (t.volOf dir)
        (f (t.volOf dir) (t.nodes dir).node name).1) :
    RespectsAll g c held s (s.inParent path fun s dir name =>
      (s.after dir (f (s.volOf dir) (s.nodes dir).node name).1
        (f (s.volOf dir) (s.nodes dir).node name).2.1,
        (f (s.volOf dir) (s.nodes dir).node name).2.2)).1 := by
  unfold inParent
  cases hp : splitPath path with
  | none => exact .of_volumes rfl
  | some p =>
    obtain ⟨hdirs, hmay⟩ := hparent p hp
    obtain ⟨hreads, hreach⟩ := lookup_reads hm hdirs
    dsimp only
    split
    · exact hreads.respectsAll hm
    next dir hdir =>
      split_ifs with htype
      · exact hreads.respectsAll hm
      have htype := not_not.mp htype
      refine hreads.respectsAll_update hm (freeChild_volumes ..) ?_
      exact hf _ dir p.2 (hmay dir hdir htype) ((hreach dir hdir).directory hm hreads htype)

theorem State.createIn_volumes (s : State) (dir : ℕ) (name : List UInt8) (type : UInt8)
    (c : Caller) : (s.createIn dir name type c).1.volumes = update s.volumes
      (s.nodes dir).vol ((s.volOf dir).opCreate (s.nodes dir).node name type c.uid c.gid).1 := by
  unfold createIn
  dsimp only
  split <;> rfl

variable {type : UInt8} {gr : Grant} {x : Session}

theorem State.createIn_node {dir : ℕ} {name : List UInt8}
    (h : (s.createIn dir name type c).2 = some n) :
    ∃ child, ((s.volOf dir).opCreate (s.nodes dir).node name type c.uid c.gid).2.2 = some child ∧
      n < (s.createIn dir name type c).1.fresh ∧
      (s.createIn dir name type c).1.nodes n = ⟨(s.nodes dir).vol, child, some dir⟩ := by
  unfold createIn at h ⊢
  dsimp only at h ⊢
  split at h
  · cases h
  next child hchild =>
    cases h
    rw [hchild]
    exact ⟨child, rfl, Nat.lt_succ_self _, update_self ..⟩

theorem opCreate_child {sb : Superblock} {vol : Volume} {dir child : Node} {name : List UInt8}
    {uid gid : UInt32} (hc : Consistent sb vol) (hcur : Current sb vol.disk dir)
    (hdir : IsDir sb vol.disk dir.inodeNum) (hclean : CleanGrowth sb vol dir.inode 2)
    (h : (vol.opCreate dir name type uid gid).2.2 = some child) : child.inodeNum < 4096 ∧
      inodeTable sb (vol.opCreate dir name type uid gid).1.disk child.inodeNum =
        newInode type uid gid := by
  rcases hc.rest.opCreate hcur (hc.ns.taken hdir) hclean name type uid gid rfl with
    hnone | ⟨ino, hfree, -, hnew, -, hchild⟩
  · rw [hnone] at h
    cases h
  · rw [hchild child h]
    exact ⟨hfree.bound, hnew.inode⟩

theorem Directory.create {dir : ℕ} (hd : Directory g t dir)
    (hclean : CleanGrowth (g (t.nodes dir).vol) (t.volOf dir) (t.nodes dir).node.inode 2)
    {name : List UInt8} {child : Node}
    (h : ((t.volOf dir).opCreate (t.nodes dir).node name type c.uid c.gid).2.2 = some child) :
    OnlyRead (g (t.nodes dir).vol)
      ((t.volOf dir).opCreate (t.nodes dir).node name type c.uid c.gid).1
      (((t.volOf dir).opCreate (t.nodes dir).node name type c.uid c.gid).1.opOpen child).1 := by
  have hkept := hd.consistent.opCreate hd.current hd.isDir hclean name type c.uid c.gid
  obtain ⟨hbound, -⟩ := opCreate_child hd.consistent hd.current hd.isDir hclean h
  exact (opOpen_onlyRead hkept.consistent hbound).1

section
variable (hm : Mounted g s)
include hm

theorem State.vfsCreate_respects
    (hparent : s.InParent path fun s dir _ => CleanGrowth (g (s.nodes dir).vol) (s.volOf dir)
      (s.nodes dir).node.inode 2 ∧ mayEnter c (s.inodeAt g dir)) :
    RespectsAll g c held s (s.vfsCreate c path type).1 := by
  unfold vfsCreate
  cases hp : splitPath path with
  | none => exact .of_volumes rfl
  | some p =>
    obtain ⟨hdirs, hmay⟩ := hparent p hp
    obtain ⟨hreads, hreach⟩ := lookup_reads hm hdirs
    dsimp only
    split
    · exact .of_volumes rfl
    split
    · exact hreads.respectsAll hm
    next dir hdir =>
      split_ifs with htype
      · exact hreads.respectsAll hm
      have htype := not_not.mp htype
      obtain ⟨hclean, hmay⟩ := hmay dir hdir htype
      have hd := (hreach dir hdir).directory hm hreads htype
      generalize (s.lookup p.1).1 = t at hreads hclean hmay hd ⊢
      have hop : Respects (g (t.nodes dir).vol) c (held (t.nodes dir).vol) (t.volOf dir)
          ((t.volOf dir).opCreate (t.nodes dir).node p.2 type c.uid c.gid).1 :=
        opCreate_respects hd.consistent hd.current hd.isDir hclean p.2 type c.uid c.gid hmay
      have hvols : ((t.createIn dir p.2 type c).1.freeChild dir).volumes = _ :=
        (freeChild_volumes ..).trans (t.createIn_volumes dir p.2 type c)
      split
      · exact hreads.respectsAll_update hm hvols hop
      next n hn =>
        obtain ⟨child, hchild, -, hnode⟩ := t.createIn_node hn
        rcases install_volumes ((t.createIn dir p.2 type c).1.freeChild dir) c n with
          hsame | hopened
        · exact hreads.respectsAll_update hm (hsame.trans hvols) hop
        have hnode' : ((t.createIn dir p.2 type c).1.freeChild dir).nodes n =
            ⟨(t.nodes dir).vol, child, some dir⟩ := by
          rw [freeChild_nodes, hnode]
        rw [volOf, hnode', hvols, update_self, update_idem] at hopened
        refine hreads.respectsAll_update hm hopened ?_
        have hkept := hd.consistent.opCreate hd.current hd.isDir hclean p.2 type c.uid c.gid
        exact hop.before_read hkept.consistent.rest (hd.create hclean hchild)

theorem State.vfsSymlink_respects {target : List UInt8} (hparent : s.InParent path fun s dir _ =>
      CleanGrowth (g (s.nodes dir).vol) (s.volOf dir) (s.nodes dir).node.inode 3 ∧
        mayEnter c (s.inodeAt g dir)) : RespectsAll g c held s (s.vfsSymlink c target path).1 := by
  unfold vfsSymlink
  split
  · exact .of_volumes rfl
  split
  · exact .of_volumes rfl
  split
  · exact .of_volumes rfl
  refine inParent_respects (f := fun vol node name =>
    ((vol.opSymlink node name target c.uid c.gid).1, (vol.opSymlink node name target c.uid c.gid).2.1,
      if (vol.opSymlink node name target c.uid c.gid).2.2 then 0 else -1)) hm hparent ?_
  rintro t dir name ⟨hclean, hmay⟩ hd
  exact opSymlink_respects hd.consistent hd.current hd.isDir hclean name target c.uid c.gid hmay

end

theorem Directory.reads {t' : State} {dir : ℕ} (hd : Directory g t dir) (hm : Mounted g s)
    (h : ReadsOnly g s t) (hdir : Reaches g s t dir) (h' : ReadsOnly g t t') :
    Directory g t' dir := by
  have hlt := hdir.lt hm h
  obtain ⟨⟨m, hmem, hvol⟩, -⟩ := hdir.node hm h
  have hread := h'.mounted m (h.mounts ▸ hmem)
  rw [volOf, h.nodes _ (hm.live m hmem), ← hvol, ← volOf] at hread
  refine ⟨?_, ?_, ?_⟩ <;> rw [h'.nodes dir hlt, volOf, h'.nodes dir hlt]
  · exact hread.consistent
  · exact hread.current hd.current
  · exact hread.isDir hd.consistent.rest hd.isDir

theorem State.renameIn_respects (hm : Mounted g s) (h : ReadsOnly g s t) {oldDir newDir : ℕ}
    {oldName newName : List UInt8} (hold : Directory g t oldDir) (hnew : Directory g t newDir)
    (hmay : RenameOk g c t oldDir oldName newDir newName) :
    RespectsAll g c held s (t.renameIn oldDir oldName newDir newName).1 := by
  unfold renameIn
  split_ifs with hvol
  · exact h.respectsAll hm
  have hvol := not_not.mp hvol
  obtain ⟨hfrom, hto, hclean, hdiff⟩ := hmay hvol
  have hsame : t.volOf oldDir = t.volOf newDir := by rw [volOf, hvol, volOf]
  refine h.respectsAll_update hm rfl ?_
  obtain ⟨hocons, hocur, hodir⟩ := hold
  rw [hsame, hvol] at hocons hocur hodir hfrom
  rw [hsame]
  refine opRename_respects hnew.consistent hocur hodir hnew.current hnew.isDir hclean
    (fun hne => hdiff fun heq => ?_) hfrom hto
  rw [heq, beq_self_eq_true] at hne
  cases hne

theorem State.vfsRename_respects (hm : Mounted g s) {oldPath newPath : List UInt8}
    (hparent : s.InParent oldPath fun s oldDir oldName =>
      s.InParent newPath fun s newDir newName => RenameOk g c s oldDir oldName newDir newName) :
    RespectsAll g c held s (s.vfsRename oldPath newPath).1 := by
  unfold vfsRename
  cases hp : splitPath oldPath with
  | none => exact .of_volumes rfl
  | some p =>
    cases hq : splitPath newPath with
    | none => exact .of_volumes rfl
    | some q =>
      obtain ⟨hdirs, hnext⟩ := hparent p hp
      obtain ⟨hreads, hreach⟩ := lookup_reads hm hdirs
      dsimp only
      split
      · exact .of_volumes rfl
      split
      · exact hreads.respectsAll hm
      next oldDir hoDir =>
        split_ifs with htype
        · exact hreads.respectsAll hm
        have htype := not_not.mp htype
        obtain ⟨hdirs', hmay⟩ := hnext oldDir hoDir htype q hq
        obtain ⟨hreads', hreach'⟩ := lookup_reads (hm.reads hreads) hdirs'
        have hboth := hreads.trans hm hreads'
        have hold := (hreach oldDir hoDir).directory hm hreads htype
        have hold' := hold.reads hm hreads (hreach oldDir hoDir) hreads'
        generalize (s.lookup p.1).1 = t at *
        split
        · exact (hboth.freeChild oldDir).respectsAll hm
        next newDir hnDir =>
          split_ifs with htype'
          · exact (hboth.freeChild oldDir).respectsAll hm
          all_goals
            have htype' := not_not.mp htype'
            have hnew := (hreach' newDir hnDir).directory (hm.reads hreads) hreads' htype'
            have hop : RespectsAll g c held s
                ((t.lookup q.1).1.renameIn oldDir p.2 newDir q.2).1 :=
              renameIn_respects hm hboth hold' hnew (hmay newDir hnDir htype')
            refine hop.congr ?_
            simp

/-! Reading and writing through descriptors. -/

theorem GrantOk.consistent (hm : Mounted g s) {i : ℕ} (h : GrantOk s i gr) :
    Consistent (g gr.vol) (s.volumes gr.vol) := by
  obtain ⟨m, hmem, -, hvol⟩ := h.mounted
  rw [← hvol]
  exact hm.consistent m hmem

theorem GrantOk.fdAt {fd : ℤ} {e : Fd} (h : GrantOk s fd.toNat gr) (he : s.fdAt fd = some e) :
    (s.nodes e.node).vol = gr.vol ∧ (s.nodes e.node).node.inodeNum = gr.inodeNum := by
  obtain ⟨e', he', -, hvol, hnum⟩ := h.node
  obtain rfl : e = e' := Option.some.inj ((fdAt_some he).1.symm.trans he')
  exact ⟨hvol, hnum⟩

theorem vfsRead_access (hok : GrantsOk x) (hroot : c.uid ≠ 0) {fd : ℤ} {len : UInt64}
    (h : Permits g x c (.read fd len)) :
    ReadsOk g x c (.read fd len) ∧ RespectsAll g c held x.state (x.state.vfsRead fd len).1 := by
  obtain ⟨hm, hfd⟩ := h.resolve_left hroot
  cases he : x.state.fdAt fd with
  | none =>
    unfold ReadsOk fileBytes vfsRead
    simp only [he]
    exact ⟨fun b hb => absurd hb List.not_mem_nil, .of_volumes rfl⟩
  | some e =>
    obtain ⟨⟨gr, hgr, hpid, hasks⟩, hbound, hinode⟩ := hfd e he
    have hgrant := hok _ gr hgr
    obtain ⟨hvol, hnum⟩ := hgrant.fdAt he
    constructor
    · intro b hb
      simp only [fileBytes, vfsRead, he] at hb
      obtain ⟨y, hy⟩ := mem_opRead hb
      rw [hinode, State.inodeAt, State.volOf, hvol, hnum] at hy
      exact ⟨fd, len, gr, y, rfl, hgr, hpid, hgrant.read hasks, hy⟩
    have hc := hgrant.consistent hm
    rw [← hvol, ← volOf] at hc
    unfold vfsRead
    simp only [he]
    exact hm.refl.respectsAll_update hm rfl
      ((opRead_onlyRead hc hbound hinode _ _).1.respects hc.rest)

theorem vfsWrite_access (hok : GrantsOk x) (hroot : c.uid ≠ 0) {fd : ℤ} {data : List UInt8}
    (h : Permits g x c (.write fd data)) :
    RespectsAll g c (Holding x c (.write fd data)) x.state (x.state.vfsWrite fd data).1 := by
  obtain ⟨hm, hfd⟩ := h.resolve_left hroot
  unfold vfsWrite
  cases he : x.state.fdAt fd with
  | none => exact .of_volumes rfl
  | some e =>
    obtain ⟨⟨gr, hgr, hpid, hasks⟩, hcur, hfile⟩ := hfd e he
    have hgrant := hok _ gr hgr
    obtain ⟨hvol, hnum⟩ := hgrant.fdAt he
    have hc := hgrant.consistent hm
    rw [← hvol, ← volOf] at hc
    refine hm.refl.respectsAll_update hm rfl ?_
    exact opWrite_respects hc hcur hfile _ data
      ⟨fd, data, gr, rfl, hgr, hpid, hgrant.write hasks, hvol.symm, hnum.symm⟩

/-! The openings are true when they are made. -/

theorem State.openNode_inodeAt (s : State) (n i : ℕ) (e : Option Fd) :
    ((s.openNode n).setFd i e).inodeAt g n = inodeTable (g (s.nodes n).vol)
      ((s.volOf n).opOpen (s.nodes n).node).1.disk (s.nodes n).node.inodeNum := by
  have hnode : ((s.openNode n).setFd i e).nodes n =
      { s.nodes n with node := ((s.volOf n).opOpen (s.nodes n).node).2.1 } := update_self ..
  have hvols : ((s.openNode n).setFd i e).volumes (s.nodes n).vol =
      ((s.volOf n).opOpen (s.nodes n).node).1 := update_self ..
  rw [inodeAt, inodeOf, hnode, hvols]
  rfl

theorem State.openNode_vol (s : State) (n m : ℕ) :
    ((s.openNode n).nodes m).vol = (s.nodes m).vol := by
  by_cases h : m = n
  · rw [h, openNode, after_self]
  · rw [openNode, after_of_ne _ _ _ _ h]

/-- The opening of node `n`, on a mounted volume, through descriptor `i`. -/
theorem opening_ok {i : ℕ} {asksRead asksWrite : Bool} (hlt : n < s.fresh)
    (hmount : ∃ m ∈ s.mounts, m.root < s.fresh ∧ (s.nodes n).vol = (s.nodes m.root).vol)
    (hopened : OnlyRead (g (s.nodes n).vol) (s.volOf n)
      ((s.volOf n).opOpen (s.nodes n).node).1)
    (hread : asksRead → mayRead c (s.inodeAt g n).mode (s.inodeAt g n).ownerUid
      (s.inodeAt g n).groupGid) (hwrite : asksWrite → mayChange c (s.inodeAt g n))
    (h : opening g ((s.openNode n).setFd i (some ⟨n, 0, c.pid⟩)) c i asksRead asksWrite = some gr) :
    GrantOk ((s.openNode n).setFd i (some ⟨n, 0, c.pid⟩)) i gr := by
  obtain ⟨m, hmem, hroot, hvol⟩ := hmount
  have he : ((s.openNode n).setFd i (some ⟨n, 0, c.pid⟩)).fds i = some ⟨n, 0, c.pid⟩ :=
    update_self ..
  have hsame {f : Inode → Bool} (hf : ∀ j k, f { j with provCount := k } = f j) :
      f (((s.openNode n).setFd i (some ⟨n, 0, c.pid⟩)).inodeAt g n) = f (s.inodeAt g n) :=
    (congrArg f (s.openNode_inodeAt n i _)).trans (hopened.inode_congr hf _)
  unfold opening at h
  rw [he] at h
  cases h
  refine ⟨⟨⟨_, he, hlt, rfl, rfl⟩, m, hmem, hroot, ?_⟩, fun hr => ?_, fun hw => ?_⟩
  · exact (s.openNode_vol n _).trans (hvol.symm.trans (s.openNode_vol n n).symm)
  · exact (hsame (f := fun j => mayRead c j.mode j.ownerUid j.groupGid) fun _ _ => rfl).trans
      (hread hr)
  · exact (hsame (f := mayChange c) fun _ _ => rfl).trans (hwrite hw)

theorem Reaches.shows (hm : Mounted g s) (h : ReadsOnly g s t) (hn : Reaches g s t n)
    (hroots : ∀ m ∈ s.mounts, n = m.root → ShowsRights g s m.root) : ShowsRights g t n := by
  rcases hn with ⟨m, hmem, rfl⟩ | ⟨-, -, -, -, hexact⟩
  · have hshows := hroots m hmem rfl
    obtain ⟨k, hk⟩ := (h.mounted m hmem).inode (s.nodes m.root).node.inodeNum
    have hsame : t.inodeAt g m.root = { s.inodeAt g m.root with provCount := k } := by
      rwa [State.inodeAt, h.nodes _ (hm.live m hmem)]
    refine ⟨?_, ?_, ?_⟩ <;> rw [h.nodes _ (hm.live m hmem), hsame]
    · exact hshows.mode
    · exact hshows.ownerUid
    · exact hshows.groupGid
  · have hinode : t.inodeAt g n = (t.nodes n).node.inode := hexact.inode.symm
    refine ⟨?_, ?_, ?_⟩ <;> rw [hinode]
    · exact hexact.mode
    · exact hexact.ownerUid
    · exact hexact.groupGid

theorem ShowsRights.permitted {flags : UInt32} (h : ShowsRights g t n)
    (hperm : permitted c (t.nodes n).node flags) :
    (wantsRead flags → mayRead c (t.inodeAt g n).mode (t.inodeAt g n).ownerUid
      (t.inodeAt g n).groupGid) ∧ (wantsWrite flags → mayChange c (t.inodeAt g n)) := by
  unfold Vfs.permitted at hperm
  rw [Bool.and_eq_true, h.mode, h.ownerUid, h.groupGid] at hperm
  refine ⟨fun hr => ?_, fun hw => ?_⟩
  · have := hperm.1
    rwa [hr, Bool.not_true, Bool.false_or] at this
  have := hperm.2
  rw [hw, Bool.not_true, Bool.false_or] at this
  unfold mayChange
  rw [this, Bool.true_or]

theorem vfsOpen_opening (hm : Mounted g s) (hdirs : State.InDirs true 9 s path) {flags : UInt32}
    (hroots : ∀ m ∈ s.mounts, (s.lookup path).2 = some m.root → ShowsRights g s m.root)
    (hfd : 0 ≤ (s.vfsOpen c path flags).2)
    (h : opening g (s.vfsOpen c path flags).1 c (s.vfsOpen c path flags).2.toNat (wantsRead flags)
      (wantsWrite flags) = some gr) :
    GrantOk (s.vfsOpen c path flags).1 (s.vfsOpen c path flags).2.toNat gr := by
  obtain ⟨hreads, hreach⟩ := lookup_reads hm hdirs
  generalize hres : s.vfsOpen c path flags = res at hfd h ⊢
  obtain ⟨s', fd⟩ := res
  obtain ⟨n, hn, hperm, -, rfl⟩ := vfsOpen_ok hres hfd
  have hreached := hreach n hn
  have hshows := hreached.shows hm hreads fun m hmem heq => hroots m hmem (heq ▸ hn)
  obtain ⟨⟨m, hmem, hvol⟩, hknown⟩ := hreached.node hm hreads
  obtain ⟨hread, hwrite⟩ := hshows.permitted hperm
  rw [← hreads.nodes _ (hm.live m hmem)] at hvol
  exact opening_ok (hreached.lt hm hreads)
    ⟨m, hreads.mounts ▸ hmem, (hm.live m hmem).trans_le hreads.fresh, hvol⟩
    (opOpen_onlyRead (hreached.consistent hm hreads) hknown.current.bound).1 hread hwrite h

theorem newInode_rights (type : UInt8) (c : Caller) :
    mayRead c (newInode type c.uid c.gid).mode (newInode type c.uid c.gid).ownerUid
      (newInode type c.uid c.gid).groupGid ∧
    mayChange c (newInode type c.uid c.gid) := by
  constructor
  · have howner : classBit c c.uid c.gid 0o400 = 0o400 := if_pos (.inr rfl)
    unfold mayRead
    simp only [newInode, howner]
    split_ifs <;> decide
  · unfold mayChange
    simp [newInode]

theorem vfsCreate_opening (hm : Mounted g s)
    (hparent : s.InParent path fun s dir _ => CleanGrowth (g (s.nodes dir).vol) (s.volOf dir)
      (s.nodes dir).node.inode 2) (hfd : 0 ≤ (s.vfsCreate c path type).2)
    (h : opening g (s.vfsCreate c path type).1 c (s.vfsCreate c path type).2.toNat true true = some
      gr) :
    GrantOk (s.vfsCreate c path type).1 (s.vfsCreate c path type).2.toNat gr := by
  generalize hres : s.vfsCreate c path type = res at hfd h ⊢
  obtain ⟨s', fd⟩ := res
  obtain ⟨parent, name, dir, n, s1, hp, hdir, htype, hmade, -, rfl⟩ := vfsCreate_ok hres hfd
  obtain ⟨hdirs, hclean⟩ := hparent _ hp
  obtain ⟨hreads, hreach⟩ := lookup_reads hm hdirs
  have hclean := hclean dir hdir htype
  have hd := (hreach dir hdir).directory hm hreads htype
  obtain ⟨⟨m, hmem, hvol⟩, -⟩ := (hreach dir hdir).node hm hreads
  dsimp only at hdir hreads hclean hd hvol
  rw [← hreads.nodes _ (hm.live m hmem)] at hvol
  have hroot := (hm.live m hmem).trans_le hreads.fresh
  rw [← hreads.mounts] at hmem
  generalize (s.lookup parent).1 = t at *
  obtain ⟨child, hchild, hlt, hnode⟩ := t.createIn_node (congrArg Prod.snd hmade)
  have hvols := t.createIn_volumes dir name type c
  have hst : Stays t ((t.createIn dir name type c).1.freeChild dir) :=
    ((Stays.discipline t).createIn (.refl t) trivial name type c).1
  rw [hmade] at hvols hlt hnode hst
  obtain ⟨-, hnew⟩ := opCreate_child hd.consistent hd.current hd.isDir hclean hchild
  have hopened := hd.create hclean hchild
  have hnode' : (s1.freeChild dir).nodes n = ⟨(t.nodes dir).vol, child, some dir⟩ := by
    rw [freeChild_nodes, hnode]
  have hvols' : (s1.freeChild dir).volumes (t.nodes dir).vol =
      ((t.volOf dir).opCreate (t.nodes dir).node name type c.uid c.gid).1 := by
    rw [freeChild_volumes, hvols, update_self]
  have hinode : (s1.freeChild dir).inodeAt g n = newInode type c.uid c.gid := by
    rw [State.inodeAt, State.inodeOf, hnode', hvols', hnew]
  refine opening_ok ?_ ⟨m, hst.mounts ▸ hmem, hroot.trans_le hst.fresh, ?_⟩ ?_ ?_ ?_ h
  · unfold freeChild
    split_ifs <;> exact hlt
  · rwa [hst.vol _ hroot, hnode']
  · rwa [volOf, hnode', hvols']
  · exact fun _ => hinode ▸ (newInode_rights type c).1
  · exact fun _ => hinode ▸ (newInode_rights type c).2

/-! Steps and runs. -/

theorem ReadsOk.of_nil {call : Call} (h : x.state.fileBytes call = []) : ReadsOk g x c call := by
  intro b hb
  rw [h] at hb
  exact absurd hb List.not_mem_nil

theorem State.InParent.mono {P Q : State → ℕ → List UInt8 → Prop} (h : s.InParent path P)
    (hPQ : ∀ t dir name, P t dir name → Q t dir name) : s.InParent path Q := fun p hp =>
  ⟨(h p hp).1, fun dir hdir htype => hPQ _ dir p.2 ((h p hp).2 dir hdir htype)⟩

theorem State.closeAll_volumes (s : State) (pid : UInt32) (is : List ℕ) :
    (s.closeAll pid is).volumes = s.volumes := by
  unfold closeAll
  induction is generalizing s with
  | nil => rfl
  | cons i is ih =>
    rw [List.foldl_cons, ih]
    split
    · rfl
    split_ifs
    · exact vfsClose_volumes ..
    · rfl

theorem Permits.access {call : Call} (h : Permits g x c call) (hok : GrantsOk x) :
    AccessOk g x c call := by
  intro hroot
  cases call with
  | «open» path flags => exact ⟨.of_nil rfl, vfsOpen_respects h.1 h.2.1 c flags⟩
  | create path type =>
    exact ⟨.of_nil rfl, vfsCreate_respects h.1
      (h.2.mono fun _ _ _ hP => ⟨hP.1, hP.2.resolve_left hroot⟩)⟩
  | read fd len => exact vfsRead_access hok hroot h
  | write fd data => exact ⟨.of_nil rfl, vfsWrite_access hok hroot h⟩
  | chmod path mode =>
    obtain ⟨hm, hdirs, hmay⟩ := h.resolve_left hroot
    exact ⟨.of_nil rfl, onNode_respects (f := fun vol node => vol.opChmod node mode) hm hdirs
      hmay fun _ _ => ⟨_, rfl, fun r => by cases r <;> rfl⟩⟩
  | chgrp path gid =>
    obtain ⟨hm, hdirs, hmay⟩ := h.resolve_left hroot
    exact ⟨.of_nil rfl, onNode_respects (f := fun vol node => vol.opChgrp node gid) hm hdirs
      hmay fun _ _ => ⟨_, rfl, fun r => by cases r <;> rfl⟩⟩
  | unlink path =>
    obtain ⟨hm, hparent⟩ := h.resolve_left hroot
    exact ⟨.of_nil rfl, inParent_respects (f := fun vol node name =>
      ((vol.opUnlink node name).1, node, (vol.opUnlink node name).2)) hm hparent
      fun _ _ _ hmay hd => opUnlink_respects hd.consistent hd.current hd.isDir hmay⟩
  | rmdir path =>
    obtain ⟨hm, hparent⟩ := h.resolve_left hroot
    exact ⟨.of_nil rfl, inParent_respects (f := fun vol node name =>
      ((vol.opRmdir node name).1, node, (vol.opRmdir node name).2)) hm hparent
      fun _ _ _ hmay hd => opRmdir_respects hd.consistent hd.current hd.isDir hmay⟩
  | rename oldPath newPath =>
    obtain ⟨hm, hparent⟩ := h.resolve_left hroot
    exact ⟨.of_nil rfl, vfsRename_respects hm hparent⟩
  | symlink target linkpath =>
    obtain ⟨hm, hparent⟩ := h.resolve_left hroot
    exact ⟨.of_nil rfl, vfsSymlink_respects hm hparent⟩
  | readlink path len =>
    obtain ⟨hm, hdirs, hroots⟩ := h.resolve_left hroot
    exact ⟨.of_nil rfl, vfsReadlink_respects hm hdirs hroots len⟩
  | chdir path =>
    obtain ⟨hm, hdirs⟩ := h.resolve_left hroot
    exact ⟨.of_nil rfl, vfsChdir_respects hm hdirs⟩
  | close fd => exact ⟨.of_nil rfl, .of_volumes (vfsClose_volumes ..)⟩
  | closeAllForPid pid =>
    refine ⟨.of_nil rfl, .of_volumes ?_⟩
    unfold exec vfsCloseAllForPid
    dsimp only
    split_ifs
    · rfl
    · exact closeAll_volumes ..
  | readdir fd max =>
    refine ⟨.of_nil rfl, .of_volumes ?_⟩
    unfold exec vfsReaddir
    dsimp only
    split
    · rfl
    · split_ifs <;> rfl
  | getcwd size => exact ⟨.of_nil rfl, .of_volumes rfl⟩
  | lseek fd offset whence =>
    refine ⟨.of_nil rfl, .of_volumes ?_⟩
    unfold exec vfsLseek
    dsimp only
    split
    · rfl
    split
    · rfl
    · split_ifs <;> rfl
  | dup fd =>
    refine ⟨.of_nil rfl, .of_volumes ?_⟩
    unfold exec vfsDup
    dsimp only
    split
    · rfl
    · split <;> rfl
  | dup2 oldfd newfd =>
    refine ⟨.of_nil rfl, .of_volumes ?_⟩
    change (x.state.vfsDup2 oldfd newfd).1.volumes = _
    rcases x.state.vfsDup2_cases oldfd newfd with hr | ⟨-, -, hr⟩ | ⟨e, -, -, -, hr⟩ <;> rw [hr]
    exact vfsClose_volumes ..

theorem Permits.grants {call : Call} (h : Permits g x c call) (hok : GrantsOk x) :
    GrantsOk (x.exec g c call) := by
  refine hok.exec c call ?_ ?_
  · rintro path flags gr rfl hfd hgr
    exact vfsOpen_opening h.1 h.2.1 h.2.2 hfd hgr
  · rintro path type gr rfl hfd hgr
    exact vfsCreate_opening h.1 (h.2.mono fun _ _ _ hP => hP.1) hfd hgr

/-- Every call of a run meets the condition in the state it is made in. -/
def PermitsAll (g : ℕ → Superblock) : Session → List (Caller × Call) → Prop
  | _, [] => True
  | x, e :: es => Permits g x e.1 e.2 ∧ PermitsAll g (x.exec g e.1 e.2) es

/-- Every call of a run keeps within the rights of its caller. -/
def AccessAlong (g : ℕ → Superblock) : Session → List (Caller × Call) → Prop
  | _, [] => True
  | x, e :: es => AccessOk g x e.1 e.2 ∧ AccessAlong g (x.exec g e.1 e.2) es

theorem GrantsOk.along (hok : GrantsOk x) {cs : List (Caller × Call)} (h : PermitsAll g x cs) :
    AccessAlong g x cs := by
  induction cs generalizing x with
  | nil => trivial
  | cons e es ih => exact ⟨h.1.access hok, ih (h.1.grants hok) h.2⟩

/-- The start of a run. A descriptor that is already open has no opening on record. -/
def Session.start (s : State) : Session := ⟨s, fun _ => none⟩

theorem Mounted.openNode (hm : Mounted g s) (hroots : ∀ m ∈ s.mounts, m.root ≠ n)
    (hread : OnlyRead (g (s.nodes n).vol) (s.volOf n) ((s.volOf n).opOpen (s.nodes n).node).1) :
    Mounted g (s.openNode n) := by
  have hnode : ∀ m ∈ s.mounts, (s.openNode n).nodes m.root = s.nodes m.root :=
    fun m hmem => after_of_ne _ _ _ _ (hroots m hmem)
  -- a volume is the one that has been read, or as before
  have hvols : ∀ m ∈ s.mounts,
      OnlyRead (g (s.nodes m.root).vol) (s.volOf m.root) ((s.openNode n).volOf m.root) := by
    intro m hmem
    have hvol : (s.openNode n).volumes = update s.volumes (s.nodes n).vol _ := rfl
    rw [volOf, volOf, hnode m hmem, hvol]
    by_cases h : (s.nodes m.root).vol = (s.nodes n).vol
    · rwa [h, update_self]
    · rw [update_of_ne h]
      exact .refl (hm.consistent m hmem)
  refine ⟨fun m hmem => ?_, fun m hmem => ?_, hm.live⟩ <;> rw [hnode m hmem]
  · exact (hvols m hmem).consistent
  · exact (hvols m hmem).known (hm.consistent m hmem).rest (hm.known m hmem)

theorem Mounted.vfsOpen (hm : Mounted g s) (hdirs : State.InDirs true 9 s path)
    (hroots : ∀ m ∈ s.mounts, (s.lookup path).2 ≠ some m.root) {flags : UInt32} {fd : ℤ}
    (hopen : (s.vfsOpen c path flags).2 = fd) (hfd : 0 ≤ fd) (ht : t = (s.vfsOpen c path flags).1) :
    Mounted g t ∧ ∀ e, t.fdAt fd = some e → (t.nodes e.node).node.inodeNum < 4096 ∧
      (t.nodes e.node).node.inode = t.inodeAt g e.node := by
  obtain ⟨n, hn, -, -, rfl⟩ := vfsOpen_ok (Prod.ext ht.symm hopen) hfd
  obtain ⟨hreads, hreach⟩ := lookup_reads hm hdirs
  have hbound := ((hreach n hn).node hm hreads).2.current.bound
  obtain ⟨hread, hinode⟩ := opOpen_onlyRead ((hreach n hn).consistent hm hreads) hbound
  have hopened := (hm.reads hreads).openNode
    (fun m hmem h => hroots m (hreads.mounts ▸ hmem) (h ▸ hn)) hread
  refine ⟨⟨hopened.consistent, hopened.known, hopened.live⟩, fun e he => ?_⟩
  generalize (s.lookup path).1 = u at *
  have hfds := (fdAt_some he).1
  rw [setFd_fds, update_self] at hfds
  cases hfds
  have hnode : ((u.openNode n).setFd fd.toNat (some ⟨n, 0, c.pid⟩)).nodes n =
      { u.nodes n with node := ((u.volOf n).opOpen (u.nodes n).node).2.1 } := update_self ..
  rw [u.openNode_inodeAt, hnode]
  exact ⟨hbound, hinode⟩

end

theorem not_accessOk {g : Superblock} {s : State} {c : Caller} {call : Call} {m : Mount} {n : ℕ}
    (hroot : c.uid ≠ 0) (hcall : ∀ fd data, call ≠ .write fd data) (hm : m ∈ s.mounts)
    (hn : Named g (s.volOf m.root).disk n)
    (hn' : Named g ((exec s c call).volumes (s.nodes m.root).vol).disk n)
    (hmode : (inodeTable g ((exec s c call).volumes (s.nodes m.root).vol).disk n).mode ≠
      (inodeTable g (s.volOf m.root).disk n).mode)
    (hmay : mayChange c (inodeTable g (s.volOf m.root).disk n) = false) :
    ¬ AccessOk (const ℕ g) (.start s) c call := by
  intro h
  rcases ((h hroot).2 m hm).files n hn hn' fun hsame => hmode hsame.mode with
    ⟨fd, data, gr, heq, -⟩ | hmay'
  · exact hcall fd data heq
  · exact Bool.false_ne_true (hmay.symm.trans hmay')

end Exploidus.Vfs
