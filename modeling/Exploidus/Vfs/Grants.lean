import Exploidus.Vfs.Lifetime
import Exploidus.Vfs.Rights

/-! Who opened a descriptor, how, and with what rights: a record kept next to the state for every
descriptor, which the code has no counterpart of. -/
namespace Exploidus.Vfs
open Exfs Function State

/-- The opening of a descriptor: the process, the file, what the flags asked for, and what the
mode bits of the file gave the process at that time. -/
structure Grant where
  pid : UInt32
  vol : ℕ
  inodeNum : ℕ
  asksRead : Bool
  asksWrite : Bool
  read : Bool
  write : Bool

structure Session where
  state : State
  grants : ℕ → Option Grant

def State.inodeOf (g : ℕ → Superblock) (s : State) (v n : ℕ) : Inode :=
  inodeTable (g v) (s.volumes v).disk n

/-- The opening of descriptor `i`, which `s` is the state after. -/
def opening (g : ℕ → Superblock) (s : State) (c : Caller) (i : ℕ) (asksRead asksWrite : Bool) :
    Option Grant :=
  (s.fds i).map fun e =>
    let v := (s.nodes e.node).vol
    let n := (s.nodes e.node).node.inodeNum
    let inode := s.inodeOf g v n
    ⟨c.pid, v, n, asksRead, asksWrite, mayRead c inode.mode inode.ownerUid inode.groupGid,
      mayChange c inode⟩

/-- The openings after a call, before files that are gone are struck off. A duplicate has the
opening of its original. -/
def regrant (g : ℕ → Superblock) (x : Session) (c : Caller) (call : Call) : ℕ → Option Grant :=
  let s' := exec x.state c call
  match call with
  | .open path flags =>
    let fd := (x.state.vfsOpen c path flags).2
    if 0 ≤ fd then update x.grants fd.toNat
      (opening g s' c fd.toNat (wantsRead flags) (wantsWrite flags))
    else x.grants
  | .create path type =>
    let fd := (x.state.vfsCreate c path type).2
    if 0 ≤ fd then update x.grants fd.toNat (opening g s' c fd.toNat true true)
    else x.grants
  | .dup fd =>
    let new := (x.state.vfsDup fd).2
    if 0 ≤ new then update x.grants new.toNat (x.grants fd.toNat) else x.grants
  | .dup2 oldfd newfd =>
    if 0 ≤ (x.state.vfsDup2 oldfd newfd).2 then
      update x.grants newfd.toNat (x.grants oldfd.toNat)
    else x.grants
  | _ => fun i => if (s'.fds i).isSome then x.grants i else none

/-- The state and the openings after a call. An opening ends with the descriptor and with the
file: an inode that has been freed may belong to another file later. -/
def Session.exec (g : ℕ → Superblock) (x : Session) (c : Caller) (call : Call) : Session :=
  let s' := Vfs.exec x.state c call
  ⟨s', fun i => (regrant g x c call i).filter fun gr => (s'.inodeOf g gr.vol gr.inodeNum).inUse⟩

/-! The node objects keep their files. -/

structure Stays (s s' : State) : Prop where
  fresh : s.fresh ≤ s'.fresh
  mounts : s'.mounts = s.mounts
  vol : ∀ m, m < s.fresh → (s'.nodes m).vol = (s.nodes m).vol
  inodeNum : ∀ m, m < s.fresh → (s'.nodes m).node.inodeNum = (s.nodes m).node.inodeNum

structure Quiet (s s' : State) : Prop extends Stays s s' where
  fds : s'.fds = s.fds

section
variable {s s' s'' : State}

theorem Stays.refl (s : State) : Stays s s := ⟨le_rfl, rfl, fun _ _ => rfl, fun _ _ => rfl⟩

theorem Stays.trans (h : Stays s s') (h' : Stays s' s'') : Stays s s'' :=
  ⟨h.fresh.trans h'.fresh, h'.mounts.trans h.mounts,
    fun m hm => (h'.vol m (hm.trans_le h.fresh)).trans (h.vol m hm),
    fun m hm => (h'.inodeNum m (hm.trans_le h.fresh)).trans (h.inodeNum m hm)⟩

theorem Quiet.refl (s : State) : Quiet s s := ⟨.refl s, rfl⟩

theorem Extends.quiet (h : Extends s s') : Quiet s s' :=
  ⟨⟨h.fresh, h.mounts, fun m hm => by rw [h.nodes m hm], fun m hm => by rw [h.nodes m hm]⟩, h.fds⟩

theorem State.freeChild_quiet (s : State) (n : ℕ) : Quiet s (s.freeChild n) := by
  unfold freeChild
  split_ifs
  · exact ⟨⟨le_rfl, rfl, fun _ _ => rfl, fun _ _ => rfl⟩, rfl⟩
  · exact .refl s

theorem State.setFd_stays (s : State) (i : ℕ) (e : Option Fd) : Stays s (s.setFd i e) :=
  ⟨le_rfl, rfl, fun _ _ => rfl, fun _ _ => rfl⟩

theorem State.newNode_quiet (s : State) (v : Vnode) : Quiet s (s.newNode v).1 :=
  ⟨⟨Nat.le_succ _, rfl, fun m hm => by rw [newNode_of_lt hm], fun m hm => by rw [newNode_of_lt hm]⟩,
    rfl⟩

theorem State.after_quiet (s : State) {n : ℕ} {vol : Volume} {node : Node}
    (h : node.inodeNum = (s.nodes n).node.inodeNum) : Quiet s (s.after n vol node) := by
  refine ⟨⟨le_rfl, rfl, fun m _ => ?_, fun m _ => ?_⟩, rfl⟩
  all_goals
    by_cases hm : m = n
    · subst hm
      rw [after_self]
      try exact h
    · rw [after_of_ne _ _ _ _ hm]

theorem State.setCwd_quiet (s : State) (n : ℕ) : Quiet s (s.setCwd n) := by
  unfold setCwd
  split
  · exact ⟨⟨le_rfl, rfl, fun _ _ => rfl, fun _ _ => rfl⟩, rfl⟩
  next old _ =>
    have h := s.freeChild_quiet old
    exact ⟨⟨h.fresh, h.mounts, h.vol, h.inodeNum⟩, h.fds⟩

theorem Quiet.discipline {I : State → Prop} (h : ∀ {s s' : State}, I s → Quiet s s' → I s') :
    Discipline I fun _ _ => True where
  looks hl hs := ⟨h hs hl.extends.quiet, fun _ _ => trivial⟩
  held_looks _ _ := trivial
  freeChild hs _ := h hs (freeChild_quiet ..)
  held_freeChild _ _ := trivial
  after hs hinode := h hs (after_quiet _ hinode)
  held_after _ := trivial
  newNode _ hs := h hs (newNode_quiet ..)
  held_newNode _ _ := trivial
  held_new _ _ := trivial
  held_fresh _ _ _ := trivial
  setCwd hs _ := h hs (setCwd_quiet ..)

theorem Stays.discipline (s : State) : Discipline (Stays s) fun _ _ => True :=
  Quiet.discipline fun h hq => h.trans hq.toStays

/-! Each call. -/

theorem State.vfsClose_stays (s : State) (fd : ℤ) : Stays s (s.vfsClose fd).1 := by
  unfold vfsClose
  split
  · exact .refl s
  · exact (freeChild_quiet ..).toStays.trans (setFd_stays ..)

theorem State.closeAll_stays (s : State) (pid : UInt32) (is : List ℕ) :
    Stays s (s.closeAll pid is) := by
  induction is generalizing s with
  | nil => exact .refl s
  | cons i is ih =>
    unfold closeAll
    rw [List.foldl_cons, ← closeAll]
    refine Stays.trans ?_ (ih _)
    split
    · exact .refl s
    split_ifs
    · exact s.vfsClose_stays i
    · exact .refl s

theorem State.vfsDup_stays (s : State) (fd : ℤ) : Stays s (s.vfsDup fd).1 := by
  unfold vfsDup
  split
  · exact .refl s
  split
  · exact .refl s
  · exact setFd_stays ..

theorem State.vfsDup2_stays (s : State) (oldfd newfd : ℤ) : Stays s (s.vfsDup2 oldfd newfd).1 := by
  unfold vfsDup2
  split
  · exact .refl s
  split_ifs
  · exact .refl s
  · exact .refl s
  · exact (s.vfsClose_stays newfd).trans (setFd_stays ..)

theorem exec_stays (s : State) (c : Caller) (call : Call) : Stays s (exec s c call) := by
  have hset : ∀ {t : State} {i : ℕ} {e : Option Fd}, Stays s t → Stays s (t.setFd i e) :=
    fun ht => ht.trans (setFd_stays ..)
  cases call with
  | «open» path flags => exact (Stays.discipline s).vfsOpen (.refl s) (fun h _ => hset h) path flags
  | create path type => exact (Stays.discipline s).vfsCreate (.refl s) (fun h _ => hset h) path type
  | close fd => exact s.vfsClose_stays fd
  | closeAllForPid pid =>
    unfold exec vfsCloseAllForPid
    dsimp only
    split_ifs
    · exact .refl s
    · exact s.closeAll_stays pid _
  | dup fd => exact s.vfsDup_stays fd
  | dup2 oldfd newfd => exact s.vfsDup2_stays oldfd newfd
  | _ => exact (Stays.discipline s).exec (.refl s) c rfl fun h _ _ => hset h

/-! The descriptors keep their nodes. -/

def Inherits (s s' : State) : Prop :=
  ∀ i e', s'.fds i = some e' → ∃ e, s.fds i = some e ∧ e'.node = e.node

theorem Inherits.of_fds (h : s'.fds = s.fds) : Inherits s s' := fun i e' he =>
  ⟨e', by rw [← h]; exact he, rfl⟩

theorem Inherits.trans (h : Inherits s s') (h' : Inherits s' s'') : Inherits s s'' := by
  intro i e'' he''
  obtain ⟨e', he', hn'⟩ := h' i e'' he''
  obtain ⟨e, he, hn⟩ := h i e' he'
  exact ⟨e, he, hn'.trans hn⟩

theorem Inherits.move {k : ℕ} {e e' : Fd} (he : s.fds k = some e) (hn : e'.node = e.node) :
    Inherits s (s.setFd k (some e')) := by
  intro i e'' hi
  by_cases hik : i = k
  · subst hik
    rw [setFd_fds, update_self] at hi
    cases hi
    exact ⟨e, he, hn⟩
  · rw [setFd_fds, update_of_ne hik] at hi
    exact ⟨e'', hi, rfl⟩

section
variable (s : State)

theorem Inherits.close (fd : ℤ) : Inherits s (s.vfsClose fd).1 := by
  by_cases hr : 0 ≤ fd ∧ fd < 64
  · intro i e' hi
    rw [s.vfsClose_fds fd hr] at hi
    by_cases hifd : i = fd.toNat
    · rw [hifd, update_self] at hi
      cases hi
    · rw [update_of_ne hifd] at hi
      exact ⟨e', hi, rfl⟩
  · refine .of_fds ?_
    unfold vfsClose fdAt
    rw [if_neg hr]

theorem Inherits.closeAll (pid : UInt32) (is : List ℕ) : Inherits s (s.closeAll pid is) := by
  induction is generalizing s with
  | nil => exact .of_fds rfl
  | cons i is ih =>
    unfold State.closeAll
    rw [List.foldl_cons, ← State.closeAll]
    refine Inherits.trans ?_ (ih _)
    split
    · exact .of_fds rfl
    split_ifs
    · exact .close s i
    · exact .of_fds rfl

theorem exec_inherits (c : Caller) {call : Call}
    (hopen : ∀ path flags, call ≠ .open path flags) (hcreate : ∀ path type, call ≠ .create path type)
    (hdup : ∀ fd, call ≠ .dup fd) (hdup2 : ∀ oldfd newfd, call ≠ .dup2 oldfd newfd) :
    Inherits s (exec s c call) := by
  cases call with
  | «open» path flags => exact absurd rfl (hopen path flags)
  | create path type => exact absurd rfl (hcreate path type)
  | dup fd => exact absurd rfl (hdup fd)
  | dup2 oldfd newfd => exact absurd rfl (hdup2 oldfd newfd)
  | close fd => exact .close s fd
  | closeAllForPid pid =>
    unfold exec vfsCloseAllForPid
    dsimp only
    split_ifs
    · exact .of_fds rfl
    · exact .closeAll s pid _
  | _ =>
    have D : Discipline (Inherits s) fun _ _ => True :=
      Quiet.discipline fun h hq => h.trans (.of_fds hq.fds)
    exact D.exec (.of_fds rfl) c rfl fun h he hn => h.trans (.move he hn)

theorem State.lookup_fds (path : List UInt8) : (s.lookup path).1.fds = s.fds :=
  (lookupImpl_looks true 9 s path).extends.fds

theorem State.install_fds (c : Caller) (n i : ℕ)
    (hi : 0 ≤ (s.install c n).2 → i ≠ (s.install c n).2.toNat) :
    (s.install c n).1.fds i = s.fds i := by
  unfold install at hi ⊢
  split at hi
  · rw [freeChild_fds]
  next j _ =>
  have hne : i ≠ j := by simpa using hi (Int.natCast_nonneg j)
  exact update_of_ne hne _ _

theorem State.vfsOpen_fds (c : Caller) (path : List UInt8) (flags : UInt32) (i : ℕ)
    (hi : 0 ≤ (s.vfsOpen c path flags).2 → i ≠ (s.vfsOpen c path flags).2.toNat) :
    (s.vfsOpen c path flags).1.fds i = s.fds i := by
  have hlook := s.lookup_fds path
  unfold vfsOpen at hi ⊢
  dsimp only at hi ⊢
  split at hi
  · rw [hlook]
  split_ifs at hi ⊢
  · rw [freeChild_fds, hlook]
  · rw [install_fds _ c _ i hi, hlook]

theorem State.vfsCreate_fds_of_ne (c : Caller) (path : List UInt8) (type : UInt8)
    (i : ℕ) (hi : 0 ≤ (s.vfsCreate c path type).2 → i ≠ (s.vfsCreate c path type).2.toNat) :
    (s.vfsCreate c path type).1.fds i = s.fds i := by
  unfold vfsCreate at hi ⊢
  split at hi
  · rfl
  next parent name _ =>
    have hlook := s.lookup_fds parent
    split_ifs at hi ⊢
    · rfl
    dsimp only at hi ⊢
    split at hi
    · rw [hlook]
    next dir _ =>
      split_ifs at hi ⊢
      · rw [hlook]
      split at hi
      · rw [freeChild_fds, createIn_fds, hlook]
      · rw [install_fds _ c _ i hi, freeChild_fds, createIn_fds, hlook]

end

/-! The openings stay true. -/

structure Backed (s : State) (i : ℕ) (gr : Grant) : Prop where
  node : ∃ e, s.fds i = some e ∧ e.node < s.fresh ∧ (s.nodes e.node).vol = gr.vol ∧
    (s.nodes e.node).node.inodeNum = gr.inodeNum
  mounted : ∃ m ∈ s.mounts, m.root < s.fresh ∧ (s.nodes m.root).vol = gr.vol

structure GrantOk (s : State) (i : ℕ) (gr : Grant) : Prop extends Backed s i gr where
  read : gr.asksRead → gr.read
  write : gr.asksWrite → gr.write

def GrantsOk (x : Session) : Prop := ∀ i gr, x.grants i = some gr → GrantOk x.state i gr

theorem GrantOk.keep {i j : ℕ} {gr : Grant} (h : GrantOk s i gr) (hst : Stays s s')
    (hfd : ∀ e, s.fds i = some e → ∃ e', s'.fds j = some e' ∧ e'.node = e.node) :
    GrantOk s' j gr := by
  obtain ⟨e, he, hlt, hvol, hnum⟩ := h.node
  obtain ⟨m, hm, hroot, hv⟩ := h.mounted
  obtain ⟨e', he', hn⟩ := hfd e he
  refine ⟨⟨⟨e', he', ?_, ?_, ?_⟩, m, ?_, hroot.trans_le hst.fresh, ?_⟩, h.read, h.write⟩
  · rw [hn]
    exact hlt.trans_le hst.fresh
  · rw [hn, hst.vol _ hlt, hvol]
  · rw [hn, hst.inodeNum _ hlt, hnum]
  · rwa [hst.mounts]
  · rw [hst.vol _ hroot, hv]

theorem GrantsOk.inherit {x : Session} (h : GrantsOk x) (hst : Stays x.state s')
    (hin : Inherits x.state s') {i : ℕ} {gr : Grant}
    (hgr : (if (s'.fds i).isSome then x.grants i else none) = some gr) : GrantOk s' i gr := by
  split_ifs at hgr with hsome
  obtain ⟨e', he'⟩ := Option.isSome_iff_exists.mp hsome
  obtain ⟨e, he, hn⟩ := hin i e' he'
  refine (h i gr hgr).keep hst fun e0 he0 => ⟨e', he', ?_⟩
  obtain rfl : e = e0 := Option.some.inj (he.symm.trans he0)
  exact hn

theorem State.vfsDup2_cases (s : State) (oldfd newfd : ℤ) : s.vfsDup2 oldfd newfd = (s, -1) ∨
      (newfd = oldfd ∧ 0 ≤ newfd ∧ s.vfsDup2 oldfd newfd = (s, newfd)) ∨
      ∃ e, s.fdAt oldfd = some e ∧ 0 ≤ newfd ∧ newfd < 64 ∧ s.vfsDup2 oldfd newfd =
        ((s.vfsClose newfd).1.setFd newfd.toNat (some e), newfd) := by
  unfold vfsDup2
  cases he : s.fdAt oldfd with
  | none => exact .inl rfl
  | some e =>
    dsimp only
    split_ifs with hrange hsame
    · exact .inl rfl
    · exact .inr (.inl ⟨hsame, by omega, rfl⟩)
    · exact .inr (.inr ⟨e, rfl, by omega, by omega, rfl⟩)

theorem GrantsOk.opened {x : Session} (h : GrantsOk x) {r : State × ℤ} (hst : Stays x.state r.1)
    (hfds : ∀ i, (0 ≤ r.2 → i ≠ r.2.toNat) → r.1.fds i = x.state.fds i) {new : Option Grant}
    (hnew : ∀ gr, 0 ≤ r.2 → new = some gr → GrantOk r.1 r.2.toNat gr) {i : ℕ} {gr : Grant}
    (hgr : (if 0 ≤ r.2 then update x.grants r.2.toNat new else x.grants) i = some gr) :
    GrantOk r.1 i gr := by
  by_cases hi : 0 ≤ r.2 → i ≠ r.2.toNat
  · have hold : x.grants i = some gr := by
      split_ifs at hgr with hfd
      · rwa [update_of_ne (hi hfd)] at hgr
      · exact hgr
    exact (h i gr hold).keep hst fun e he => ⟨e, (hfds i hi).trans he, rfl⟩
  obtain ⟨hfd, rfl⟩ : 0 ≤ r.2 ∧ i = r.2.toNat := by simpa using hi
  rw [if_pos hfd, update_self] at hgr
  exact hnew gr hfd hgr

theorem GrantsOk.exec {g : ℕ → Superblock} {x : Session} (h : GrantsOk x) (c : Caller) (call : Call)
    (hopen : ∀ path flags gr, call = .open path flags → 0 ≤ (x.state.vfsOpen c path flags).2 →
      opening g (x.state.vfsOpen c path flags).1 c (x.state.vfsOpen c path flags).2.toNat
        (wantsRead flags) (wantsWrite flags) = some gr →
      GrantOk (x.state.vfsOpen c path flags).1 (x.state.vfsOpen c path flags).2.toNat gr)
    (hcreate : ∀ path type gr, call = .create path type → 0 ≤ (x.state.vfsCreate c path type).2 →
      opening g (x.state.vfsCreate c path type).1 c (x.state.vfsCreate c path type).2.toNat
        true true = some gr →
      GrantOk (x.state.vfsCreate c path type).1 (x.state.vfsCreate c path type).2.toNat gr) :
    GrantsOk (x.exec g c call) := by
  intro i gr hgr
  have hgr : regrant g x c call i = some gr := (Option.filter_eq_some_iff.mp hgr).1
  have hst := exec_stays x.state c call
  change GrantOk (Vfs.exec x.state c call) i gr
  unfold regrant at hgr
  cases call with
  | «open» path flags =>
    exact h.opened hst (x.state.vfsOpen_fds c path flags) (hopen path flags · rfl) hgr
  | create path type =>
    exact h.opened hst (x.state.vfsCreate_fds_of_ne c path type) (hcreate path type · rfl) hgr
  | dup fd =>
    change GrantOk (x.state.vfsDup fd).1 i gr
    dsimp only at hgr
    unfold vfsDup at hgr ⊢
    split at hgr
    · exact h i gr hgr
    next e he =>
      split at hgr
      · exact h i gr hgr
      next j _ =>
        rw [if_pos (Int.natCast_nonneg j)] at hgr
        dsimp only at hgr ⊢
        rw [Int.toNat_natCast] at hgr
        by_cases hi : i = j
        · rw [hi, update_self] at hgr
          refine (h _ gr hgr).keep (setFd_stays ..) fun e0 he0 => ⟨e, ?_, ?_⟩
          · rw [hi, setFd_fds, update_self]
          · rw [Option.some.inj ((fdAt_some he).1.symm.trans he0)]
        · rw [update_of_ne hi] at hgr
          refine (h i gr hgr).keep (setFd_stays ..) fun e0 he0 => ⟨e0, ?_, rfl⟩
          rw [setFd_fds, update_of_ne hi, he0]
  | dup2 oldfd newfd =>
    change GrantOk (x.state.vfsDup2 oldfd newfd).1 i gr
    change Stays x.state (x.state.vfsDup2 oldfd newfd).1 at hst
    dsimp only at hgr
    rcases x.state.vfsDup2_cases oldfd newfd with hr | ⟨rfl, h0, hr⟩ | ⟨e, he, h0, h64, hr⟩
    · rw [hr, if_neg (show ¬ (0 : ℤ) ≤ -1 by decide)] at hgr
      rw [hr]
      exact h i gr hgr
    · rw [hr, if_pos h0, update_eq_self] at hgr
      rw [hr]
      exact h i gr hgr
    rw [hr] at hst ⊢
    rw [hr, if_pos h0] at hgr
    have hfds : (((x.state.vfsClose newfd).1).setFd newfd.toNat (some e)).fds =
        update x.state.fds newfd.toNat (some e) := by
      rw [setFd_fds, x.state.vfsClose_fds newfd ⟨h0, h64⟩, update_idem]
    by_cases hi : i = newfd.toNat
    · rw [hi, update_self] at hgr
      refine (h _ gr hgr).keep hst fun e0 he0 => ⟨e, ?_, ?_⟩
      · rw [hi, hfds, update_self]
      · rw [Option.some.inj ((fdAt_some he).1.symm.trans he0)]
    · rw [update_of_ne hi] at hgr
      refine (h i gr hgr).keep hst fun e0 he0 => ⟨e0, ?_, rfl⟩
      rw [hfds, update_of_ne hi, he0]
  | _ => exact h.inherit hst (exec_inherits _ c nofun nofun nofun nofun) hgr

end

end Exploidus.Vfs
