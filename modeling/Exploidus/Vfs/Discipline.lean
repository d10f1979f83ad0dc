import Exploidus.Vfs.Walk
import Exploidus.Vfs.Calls

/-! How the calls handle node objects: a call works on nodes that a lookup hands it or that it
makes, and releases them. What each of these steps keeps, the calls keep. -/
namespace Exploidus.Vfs
open Exfs State

/-- A property `I` of states and one `H` of the nodes a call holds, kept by the steps of calls. -/
structure Discipline (I : State → Prop) (H : State → ℕ → Prop) : Prop where
  looks {followLast : Bool} {rounds : ℕ} {s : State} {path : List UInt8} {res : State × Option ℕ} :
    Looks followLast rounds s path res → I s → I res.1 ∧ ∀ n, res.2 = some n → H res.1 n
  held_looks {followLast : Bool} {rounds n : ℕ} {s : State} {path : List UInt8}
    {res : State × Option ℕ} : Looks followLast rounds s path res → H s n → H res.1 n
  freeChild {s : State} {n : ℕ} : I s → H s n → I (s.freeChild n)
  held_freeChild {s : State} {n m : ℕ} : H s n → n ≠ m → H (s.freeChild m) n
  after {s : State} {k : ℕ} {vol : Volume} {node : Node} : I s →
    node.inodeNum = (s.nodes k).node.inodeNum → I (s.after k vol node)
  held_after {s : State} {n k : ℕ} {vol : Volume} {node : Node} : H s n → H (s.after k vol node) n
  newNode {s : State} (v : Vnode) : I s → I (s.newNode v).1
  held_newNode {s : State} {n : ℕ} (v : Vnode) : H s n → H (s.newNode v).1 n
  held_new {s : State} {v : Vnode} : I s → v.parent ≠ none → H (s.newNode v).1 s.fresh
  held_fresh {s : State} {v : Vnode} {n : ℕ} : I s → v.parent ≠ none → H s n →
    H ((s.newNode v).1.freeChild n) s.fresh
  setCwd {s : State} {n : ℕ} : I s → H s n → I (s.setCwd n)

/-! The driver operations leave a node its inode. -/

section
variable (vol : Volume)

theorem opRead_inodeNum (node : Node) (off len : ℕ) :
    (vol.opRead node off len).2.1.inodeNum = node.inodeNum := by
  unfold Volume.opRead
  dsimp only
  split_ifs <;> rfl

theorem opCreate_inodeNum (dir : Node) (name : List UInt8) (type : UInt8)
    (uid gid : UInt32) : (vol.opCreate dir name type uid gid).2.1.inodeNum = dir.inodeNum := by
  unfold Volume.opCreate
  dsimp only
  split_ifs <;> rfl

theorem opSymlink_inodeNum (dir : Node) (name target : List UInt8)
    (uid gid : UInt32) : (vol.opSymlink dir name target uid gid).2.1.inodeNum = dir.inodeNum := by
  unfold Volume.opSymlink
  dsimp only
  split_ifs <;> rfl

theorem renameInto_inodeNum (src : ℕ × ℕ) (newDir : Node) (e : Dirent) :
    (vol.renameInto src newDir e).2.1.inodeNum = newDir.inodeNum := by
  unfold Volume.renameInto
  dsimp only
  split
  · rfl
  · split <;> rfl
  · split_ifs <;> rfl

theorem opRename_inodeNum (oldDir : Node) (oldName : List UInt8) (newDir : Node)
    (newName : List UInt8) (same : Bool) :
    (vol.opRename oldDir oldName newDir newName same).2.1.inodeNum = newDir.inodeNum := by
  unfold Volume.opRename
  split
  · rfl
  split
  · rfl
  split
  · rfl
  dsimp only
  split
  · exact renameInto_inodeNum ..
  split
  · rfl
  split
  · rfl
  · exact renameInto_inodeNum ..

end

namespace Discipline
variable {I : State → Prop} {H : State → ℕ → Prop} (D : Discipline I H) {s : State} (hs : I s)
include D hs

theorem lookup (path : List UInt8) :
    I (s.lookup path).1 ∧ ∀ n, (s.lookup path).2 = some n → H (s.lookup path).1 n :=
  D.looks (lookupImpl_looks true 9 s path) hs

theorem createIn {dir : ℕ} (hd : H s dir) (name : List UInt8) (type : UInt8) (c : Caller) :
    I ((s.createIn dir name type c).1.freeChild dir) ∧
      ∀ n, (s.createIn dir name type c).2 = some n →
        H ((s.createIn dir name type c).1.freeChild dir) n := by
  have hinode := opCreate_inodeNum (s.volOf dir) (s.nodes dir).node name type c.uid c.gid
  unfold State.createIn
  dsimp only
  generalize (s.volOf dir).opCreate (s.nodes dir).node name type c.uid c.gid = r at hinode ⊢
  have hs' : I (s.after dir r.1 r.2.1) := D.after hs hinode
  have hd' : H (s.after dir r.1 r.2.1) dir := D.held_after hd
  cases r.2.2 with
  | none => exact ⟨D.freeChild hs' hd', fun n hn => by cases hn⟩
  | some child =>
    refine ⟨D.freeChild (D.newNode _ hs') (D.held_newNode _ hd'), fun n hn => ?_⟩
    cases hn
    exact D.held_fresh hs' (Option.some_ne_none dir) hd'

section
variable {c : Caller}
  (hset : ∀ {t : State} {n i : ℕ}, I t → H t n → I (t.setFd i (some ⟨n, 0, c.pid⟩)))
include hset

theorem install {n : ℕ} (hn : H s n) : I (s.install c n).1 := by
  unfold State.install
  cases s.freeFd with
  | none => exact D.freeChild hs hn
  | some i => exact hset (D.after hs rfl) (D.held_after hn)

theorem vfsOpen (path : List UInt8) (flags : UInt32) : I (s.vfsOpen c path flags).1 := by
  obtain ⟨hs', hfound⟩ := D.lookup hs path
  unfold State.vfsOpen
  dsimp only
  cases hr : (s.lookup path).2 with
  | none => exact hs'
  | some n =>
    dsimp only
    split_ifs
    · exact D.freeChild hs' (hfound n hr)
    · exact D.install hs' hset (hfound n hr)

theorem vfsCreate (path : List UInt8) (type : UInt8) : I (s.vfsCreate c path type).1 := by
  unfold State.vfsCreate
  cases splitPath path with
  | none => exact hs
  | some p =>
    obtain ⟨parent, name⟩ := p
    obtain ⟨hs', hfound⟩ := D.lookup hs parent
    dsimp only
    split_ifs
    · exact hs
    cases hr : (s.lookup parent).2 with
    | none => exact hs'
    | some dir =>
      dsimp only
      split_ifs
      · exact hs'
      obtain ⟨hsc, hnew⟩ := D.createIn hs' (hfound dir hr) name type c
      cases hn : ((s.lookup parent).1.createIn dir name type c).2 with
      | none => exact hsc
      | some n => exact D.install hsc hset (hnew n hn)

end

theorem onNode (path : List UInt8) {f : State → ℕ → State × ℤ}
    (hf : ∀ s n, ∃ vol node, (f s n).1 = s.after n vol node ∧
      node.inodeNum = (s.nodes n).node.inodeNum) : I (s.onNode path f).1 := by
  obtain ⟨hs', hfound⟩ := D.lookup hs path
  unfold State.onNode
  dsimp only
  cases hr : (s.lookup path).2 with
  | none => exact hs'
  | some n =>
    obtain ⟨vol, node, heq, hinode⟩ := hf (s.lookup path).1 n
    dsimp only
    rw [heq]
    exact D.freeChild (D.after hs' hinode) (D.held_after (hfound n hr))

theorem inParent (path : List UInt8) {f : State → ℕ → List UInt8 → State × ℤ}
    (hf : ∀ s n name, ∃ vol node, (f s n name).1 = s.after n vol node ∧
      node.inodeNum = (s.nodes n).node.inodeNum) : I (s.inParent path f).1 := by
  unfold State.inParent
  cases splitPath path with
  | none => exact hs
  | some p =>
    obtain ⟨hs', hfound⟩ := D.lookup hs p.1
    dsimp only
    cases hr : (s.lookup p.1).2 with
    | none => exact hs'
    | some dir =>
      obtain ⟨vol, node, heq, hinode⟩ := hf (s.lookup p.1).1 dir p.2
      dsimp only
      split_ifs
      · exact hs'
      rw [heq]
      exact D.freeChild (D.after hs' hinode) (D.held_after (hfound dir hr))

theorem vfsSymlink (c : Caller) (target linkpath : List UInt8) :
    I (s.vfsSymlink c target linkpath).1 := by
  unfold State.vfsSymlink
  split_ifs
  · exact hs
  cases splitPath linkpath with
  | none => exact hs
  | some p =>
    dsimp only
    split_ifs
    · exact hs
    · exact D.inParent hs linkpath fun _ _ _ => ⟨_, _, rfl, opSymlink_inodeNum ..⟩

theorem vfsRename (oldPath newPath : List UInt8) : I (s.vfsRename oldPath newPath).1 := by
  unfold State.vfsRename
  cases splitPath oldPath with
  | none => exact hs
  | some p =>
  cases splitPath newPath with
  | none => exact hs
  | some q =>
    obtain ⟨oldParent, oldName⟩ := p
    obtain ⟨newParent, newName⟩ := q
    dsimp only
    split_ifs
    · exact hs
    obtain ⟨hs1, hold⟩ := D.lookup hs oldParent
    cases hr : (s.lookup oldParent).2 with
    | none => exact hs1
    | some oldDir =>
      dsimp only
      split_ifs
      · exact hs1
      have hold := D.held_looks (lookupImpl_looks true 9 _ newParent) (hold oldDir hr)
      obtain ⟨hs2, hnew⟩ := D.lookup hs1 newParent
      cases hr' : ((s.lookup oldParent).1.lookup newParent).2 with
      | none => exact D.freeChild hs2 hold
      | some newDir =>
        have hnew := hnew newDir hr'
        dsimp only
        split_ifs with htype hsame
        · exact D.freeChild hs2 hold
        all_goals unfold renameIn
        · split_ifs
          · exact D.freeChild hs2 hold
          · exact D.freeChild (D.after hs2 (opRename_inodeNum ..)) (D.held_after hold)
        · split_ifs
          · exact D.freeChild (D.freeChild hs2 hold) (D.held_freeChild hnew hsame)
          · exact D.freeChild (D.freeChild (D.after hs2 (opRename_inodeNum ..))
              (D.held_after hold)) (D.held_freeChild (D.held_after hnew) hsame)

theorem vfsReadlink (path : List UInt8) (len : UInt64) : I (s.vfsReadlink path len).1 := by
  obtain ⟨hs', hfound⟩ := D.looks (lookupImpl_looks false 9 s path) hs
  unfold State.vfsReadlink
  dsimp only [lookupLink]
  cases hr : (lookupImpl false 9 s path).2 with
  | none => exact hs'
  | some n =>
    dsimp only
    split_ifs
    · exact D.freeChild hs' (hfound n hr)
    · exact D.freeChild (D.after hs' (opRead_inodeNum ..)) (D.held_after (hfound n hr))

theorem chdirTo (path : List UInt8) : I (s.chdirTo path).1 := by
  obtain ⟨hs', hfound⟩ := D.lookup hs path
  unfold State.chdirTo
  dsimp only
  cases hr : (s.lookup path).2 with
  | none => exact hs'
  | some n =>
    dsimp only
    split_ifs
    · exact D.freeChild hs' (hfound n hr)
    · exact D.setCwd hs' (hfound n hr)

theorem probe (cwd : ℕ) (m : Mount) (path : List UInt8) : I (s.probe cwd m path).1 := by
  unfold State.probe
  split_ifs
  · exact hs
  unfold lookupIn
  cases (s.volOf m.root).opLookup (s.nodes m.root).node path with
  | none => exact hs
  | some child =>
    exact D.freeChild (D.newNode _ hs) (D.held_new hs (Option.some_ne_none m.root))

theorem chdirBelow (cwd : ℕ) (path : List UInt8) (ms : List Mount) :
    I (chdirBelow cwd path ms s).1 := by
  induction ms generalizing s with
  | nil => exact hs
  | cons m ms ih =>
    have hp := D.probe hs cwd m path
    unfold chdirBelow
    dsimp only
    generalize (if m.mountpoint.getLast? = some slash then [] else [slash]) = sep
    obtain ⟨hs', hfound⟩ := D.lookup hp (m.mountpoint ++ sep ++ path)
    split_ifs
    · exact ih hp
    cases hr : ((s.probe cwd m path).1.lookup (m.mountpoint ++ sep ++ path)).2 with
    | none => exact ih hs'
    | some n =>
      dsimp only
      split_ifs
      · exact D.setCwd hs' (hfound n hr)
      · exact ih (D.freeChild hs' (hfound n hr))

theorem vfsChdir (path : List UInt8) : I (s.vfsChdir path).1 := by
  have hrel : I (s.chdirRelative path).1 := by
    unfold chdirRelative
    cases s.cwd with
    | none => exact hs
    | some cwd =>
      dsimp only
      split_ifs
      · exact hs
      · exact D.chdirBelow hs cwd path s.mounts
  unfold State.vfsChdir
  dsimp only
  split_ifs
  · exact D.chdirTo hs path
  · exact hrel
  all_goals exact D.chdirTo hrel _

end Discipline

/-- The calls that may make a descriptor refer to another node. -/
def Call.rebinds : Call → Bool
  | .open .. | .create .. | .close _ | .closeAllForPid _ | .dup _ | .dup2 .. => true
  | _ => false

/-- The calls that do not rebind a descriptor, of which some move its offset. -/
theorem Discipline.exec {I : State → Prop} {H : State → ℕ → Prop} (D : Discipline I H) {s : State}
    (hs : I s) (c : Caller) {call : Call} (hcall : call.rebinds = false)
    (hmove : ∀ {t : State} {i : ℕ} {e e' : Fd}, I t → t.fds i = some e → e'.node = e.node →
      I (t.setFd i (some e'))) : I (exec s c call) := by
  have hfd : ∀ {fd : ℤ} {e : Fd}, s.fdAt fd = some e → s.fds fd.toNat = some e := by
    intro fd e he
    unfold fdAt at he
    split_ifs at he
    exact he
  cases call with
  | «open» | create | close | closeAllForPid | dup | dup2 => cases hcall
  | read fd len =>
    change I (s.vfsRead fd len).1
    unfold vfsRead
    cases he : s.fdAt fd with
    | none => exact hs
    | some e => exact hmove (D.after hs (opRead_inodeNum ..)) (hfd he) rfl
  | write fd data =>
    change I (s.vfsWrite fd data).1
    unfold vfsWrite
    cases he : s.fdAt fd with
    | none => exact hs
    | some e => exact hmove (D.after hs rfl) (hfd he) rfl
  | readdir fd max =>
    change I (s.vfsReaddir fd max).1
    unfold vfsReaddir
    cases he : s.fdAt fd with
    | none => exact hs
    | some e =>
      dsimp only
      split_ifs
      · exact hs
      · exact hmove hs (hfd he) rfl
  | lseek fd offset whence =>
    change I (s.vfsLseek fd offset whence).1
    unfold vfsLseek
    cases he : s.fdAt fd with
    | none => exact hs
    | some e =>
      dsimp only
      split
      · exact hs
      split_ifs
      · exact hs
      · exact hmove hs (hfd he) rfl
  | chmod path mode => exact D.onNode hs path fun _ _ => ⟨_, _, rfl, rfl⟩
  | chgrp path gid => exact D.onNode hs path fun _ _ => ⟨_, _, rfl, rfl⟩
  | unlink path => exact D.inParent hs path fun _ _ _ => ⟨_, _, rfl, rfl⟩
  | rmdir path => exact D.inParent hs path fun _ _ _ => ⟨_, _, rfl, rfl⟩
  | rename oldPath newPath => exact D.vfsRename hs oldPath newPath
  | symlink target linkpath => exact D.vfsSymlink hs c target linkpath
  | readlink path len => exact D.vfsReadlink hs path len
  | chdir path => exact D.vfsChdir hs path
  | getcwd size => exact hs

end Exploidus.Vfs
