import Exploidus.Vfs.Lookup
import Exploidus.Lib.Components

/-! The walk along a path as a relation with one case for each way a turn can end. -/
namespace Exploidus.Vfs
open Exfs Components Function List

namespace State
variable (s : State) (n : ℕ) (v : Vnode) (vol : Volume) (node : Node)

@[simp] theorem newNode_self : (s.newNode v).1.nodes s.fresh = v := update_self ..

theorem newNode_of_lt {s : State} {m : ℕ} (h : m < s.fresh) (v : Vnode) :
    (s.newNode v).1.nodes m = s.nodes m := update_of_ne h.ne _ _

@[simp] theorem kfree_volumes : (s.kfree n).volumes = s.volumes := rfl
@[simp] theorem kfree_nodes : (s.kfree n).nodes = s.nodes := rfl
@[simp] theorem kfree_released : (s.kfree n).released = s.released ++ [n] := rfl


@[simp] theorem after_self : (s.after n vol node).nodes n = { s.nodes n with node := node } :=
  update_self ..

theorem after_of_ne {m : ℕ} (h : m ≠ n) : (s.after n vol node).nodes m = s.nodes m :=
  update_of_ne h _ _

/-- The parent pointers stay. -/
@[simp] theorem after_parent (m : ℕ) :
    ((s.after n vol node).nodes m).parent = (s.nodes m).parent := by
  by_cases h : m = n
  · subst h
    simp
  · rw [after_of_ne _ _ _ _ h]

def enter (root node : ℕ) (child : Node) : State :=
  let s' := (s.newNode ⟨(s.nodes node).vol, child, some node⟩).1
  if node = root then s' else s'.kfree node

def leave (root node : ℕ) : State := if node = root then s else s.kfree node

section
variable (root : ℕ)

@[simp] theorem enter_volumes : (s.enter root n node).volumes = s.volumes := by
  unfold enter; split_ifs <;> rfl
@[simp] theorem enter_nodes : (s.enter root n node).nodes =
    update s.nodes s.fresh ⟨(s.nodes n).vol, node, some n⟩ := by
  unfold enter; split_ifs <;> rfl
@[simp] theorem enter_fresh : (s.enter root n node).fresh = s.fresh + 1 := by
  unfold enter; split_ifs <;> rfl
@[simp] theorem enter_released : (s.enter root n node).released =
    s.released ++ (if n = root then [] else [n]) := by
  unfold enter; split_ifs <;> simp [newNode]

@[simp] theorem leave_volumes : (s.leave root n).volumes = s.volumes := by
  unfold leave; split_ifs <;> rfl
@[simp] theorem leave_released : (s.leave root n).released =
    s.released ++ (if n = root then [] else [n]) := by
  unfold leave; split_ifs <;> simp

end

def readLink (s : State) (n : ℕ) : State × List UInt8 :=
  let t := s.readNode n 0 255
  (t.1.kfree n, t.2.takeWhile (· ≠ 0))

end State

def turnAt (target rest : List UInt8) : Walked :=
  if target.head? ≠ some slash then .found none else .hop (combined target rest)

inductive Walks (root : ℕ) (followLast : Bool) : State → ℕ → List UInt8 → State × Walked → Prop
  | done (s : State) (node : ℕ) : Walks root followLast s node [] (s, .found (some node))
  | long {s : State} {node : ℕ} {cur : List UInt8} (hne : cur ≠ []) :
      Walks root followLast s node cur (s, .found none)
  | missing {s : State} {node : ℕ} {cur : List UInt8} (hne : cur ≠ [])
      (hlook : (s.volOf node).opLookup (s.nodes node).node (cur.takeWhile (· ≠ slash)) = none) :
      Walks root followLast s node cur (s.leave root node, .found none)
  | link {s : State} {node : ℕ} {cur : List UInt8} {child : Node} (hne : cur ≠ [])
      (hlen : (cur.takeWhile (· ≠ slash)).length ≤ 255)
      (hlook : (s.volOf node).opLookup (s.nodes node).node (cur.takeWhile (· ≠ slash)) =
        some child) (htype : child.type = .symlink)
      (hfollow : cur.dropWhile (· ≠ slash) ≠ [] ∨ followLast) :
      Walks root followLast s node cur (((s.enter root node child).readLink s.fresh).1,
        turnAt ((s.enter root node child).readLink s.fresh).2 (cur.dropWhile (· ≠ slash)))
  | next {s : State} {node : ℕ} {cur : List UInt8} {child : Node} {res : State × Walked}
      (hne : cur ≠ []) (hlen : (cur.takeWhile (· ≠ slash)).length ≤ 255)
      (hlook : (s.volOf node).opLookup (s.nodes node).node (cur.takeWhile (· ≠ slash)) = some child)
      (hstay : ¬ (child.type = .symlink ∧ (cur.dropWhile (· ≠ slash) ≠ [] ∨ followLast)))
      (hrest : Walks root followLast (s.enter root node child) s.fresh
        ((cur.dropWhile (· ≠ slash)).dropWhile (· = slash)) res) :
      Walks root followLast s node cur res

namespace State
variable {s : State} {root node : ℕ} {followLast : Bool} {name : List UInt8} {child : Node}

theorem lookupIn_of_none (h : (s.volOf node).opLookup (s.nodes node).node name = none) :
    s.lookupIn node name = (s, none) := by
  rw [lookupIn, h]

theorem lookupIn_of_some (h : (s.volOf node).opLookup (s.nodes node).node name = some child) :
    s.lookupIn node name =
      ((s.newNode ⟨(s.nodes node).vol, child, some node⟩).1, some s.fresh) := by
  rw [lookupIn, h]
  rfl

theorem readLink_eq {m : ℕ} (h : (s.nodes m).parent.isSome) :
    ((s.readNode m 0 255).1.freeChild m, (s.readNode m 0 255).2.takeWhile (· ≠ 0)) =
      s.readLink m := by
  have hp : ((s.readNode m 0 255).1.nodes m).parent.isSome := by
    rwa [readNode, after_parent]
  rw [freeChild, if_pos hp]
  rfl

theorem walk_walks {fuel : ℕ} {cur : List UInt8} (hfuel : cur.length ≤ fuel)
    (hhead : cur.head? ≠ some slash) :
    Walks root followLast s node cur (walk root followLast fuel s node cur) := by
  induction fuel generalizing s node cur with
  | zero =>
    obtain rfl := length_eq_zero_iff.mp (Nat.le_zero.mp hfuel)
    exact .done s node
  | succ fuel ih =>
    unfold walk
    by_cases hne : cur = []
    · subst hne
      exact .done s node
    rw [if_neg hne]
    dsimp only
    by_cases hlong : 255 < (cur.takeWhile (· ≠ slash)).length
    · rw [if_pos hlong]
      exact .long hne
    rw [if_neg hlong]
    cases hlook : (s.volOf node).opLookup (s.nodes node).node (cur.takeWhile (· ≠ slash)) with
    | none =>
      rw [lookupIn_of_none hlook]
      exact .missing hne hlook
    | some child =>
      rw [lookupIn_of_some hlook]
      dsimp only
      rw [← enter]
      have hself : (s.enter root node child).nodes s.fresh =
          ⟨(s.nodes node).vol, child, some node⟩ := by simp
      rw [hself]
      by_cases hlink : child.type = .symlink ∧ (cur.dropWhile (· ≠ slash) ≠ [] ∨ followLast)
      · rw [if_pos hlink]
        have hread := readLink_eq (s := s.enter root node child) (m := s.fresh) (by rw [hself]; rfl)
        have hw : Walks root followLast s node cur _ := .link hne (Nat.not_lt.mp hlong) hlook hlink.1
          hlink.2
        rw [← hread] at hw
        unfold turnAt at hw
        split_ifs at hw ⊢ <;> exact hw
      · rw [if_neg hlink]
        refine .next hne (Nat.not_lt.mp hlong) hlook hlink (ih ?_ (head_dropWhile_sep _))
        have hlt := length_dropWhile_lt hne hhead
        have hle := (dropWhile_suffix (· = slash) : _ <:+ cur.dropWhile (· ≠ slash)).length_le
        omega

end State

/-! What a walk leaves alone: everything but the volumes, the nodes it makes and the ones it
releases. -/

structure Extends (s s' : State) : Prop where
  fresh : s.fresh ≤ s'.fresh
  nodes : ∀ m, m < s.fresh → s'.nodes m = s.nodes m
  mounts : s'.mounts = s.mounts
  fds : s'.fds = s.fds
  cwd : s'.cwd = s.cwd

namespace Extends
variable {s s' s'' : State}

theorem refl (s : State) : Extends s s := ⟨le_rfl, fun _ _ => rfl, rfl, rfl, rfl⟩

theorem trans (h : Extends s s') (h' : Extends s' s'') : Extends s s'' :=
  ⟨h.fresh.trans h'.fresh, fun m hm => (h'.nodes m (hm.trans_le h.fresh)).trans (h.nodes m hm),
    h'.mounts.trans h.mounts, h'.fds.trans h.fds, h'.cwd.trans h.cwd⟩

theorem kfree (h : Extends s s') (n : ℕ) : Extends s (s'.kfree n) :=
  ⟨h.fresh, h.nodes, h.mounts, h.fds, h.cwd⟩

theorem enter (s : State) (root node : ℕ) (child : Node) : Extends s (s.enter root node child) := by
  have hnew : Extends s (s.newNode ⟨(s.nodes node).vol, child, some node⟩).1 :=
    ⟨Nat.le_succ _, fun m hm => State.newNode_of_lt hm _, rfl, rfl, rfl⟩
  unfold State.enter
  dsimp only
  split_ifs
  · exact hnew
  · exact hnew.kfree node

theorem leave (s : State) (root node : ℕ) : Extends s (s.leave root node) := by
  unfold State.leave
  split_ifs
  · exact .refl s
  · exact (refl s).kfree node

theorem readLink (h : Extends s s') {n : ℕ} (hn : s.fresh ≤ n) : Extends s (s'.readLink n).1 := by
  refine ⟨h.fresh, fun m hm => ?_, h.mounts, h.fds, h.cwd⟩
  unfold State.readLink State.readNode
  simp only [State.kfree_nodes]
  rw [State.after_of_ne _ _ _ _ (by omega), h.nodes m hm]

end Extends

theorem Walks.extends {root node : ℕ} {followLast : Bool} {s : State} {cur : List UInt8}
    {res : State × Walked} (h : Walks root followLast s node cur res) : Extends s res.1 := by
  induction h with
  | done | long => exact .refl _
  | missing => exact .leave ..
  | link => exact (Extends.enter ..).readLink le_rfl
  | next _ _ _ _ _ ih => exact (Extends.enter ..).trans ih

theorem bestMount_mem {mounts : List Mount} {path : List UInt8} {m : Mount}
    (h : bestMount mounts path = some m) : m ∈ mounts := by
  induction mounts using reverseRecOn with
  | nil => cases h
  | append_singleton ms a ih =>
    rw [bestMount, foldl_append, ← bestMount] at h
    simp only [foldl_cons, foldl_nil] at h
    cases hb : bestMount ms path with
    | none =>
      rw [hb] at h
      split_ifs at h
      cases h
      simp
    | some b =>
      rw [hb] at h ih
      split_ifs at h
      · exact mem_append_left _ (ih h)
      all_goals
        dsimp only at h
        split_ifs at h
        · cases h
          simp
        · exact mem_append_left _ (ih h)

inductive Looks (followLast : Bool) : ℕ → State → List UInt8 → State × Option ℕ → Prop
  | refused (rounds : ℕ) (s : State) (path : List UInt8) : Looks followLast rounds s path (s, none)
  | ended {rounds : ℕ} {s s' : State} {path : List UInt8} {m : Mount} {n : Option ℕ}
      (hm : bestMount s.mounts path = some m)
      (hwalk : Walks m.root followLast s m.root
        ((path.drop m.mountpoint.length).dropWhile (· = slash)) (s', .found n)) :
      Looks followLast (rounds + 1) s path (s', n)
  | hop {rounds : ℕ} {s s' : State} {path next : List UInt8} {m : Mount} {res : State × Option ℕ}
      (hm : bestMount s.mounts path = some m)
      (hwalk : Walks m.root followLast s m.root
        ((path.drop m.mountpoint.length).dropWhile (· = slash)) (s', .hop next))
      (hrest : Looks followLast rounds s' next res) :
      Looks followLast (rounds + 1) s path res

theorem State.lookupImpl_looks (followLast : Bool) (rounds : ℕ) (s : State) (path : List UInt8) :
    Looks followLast rounds s path (lookupImpl followLast rounds s path) := by
  induction rounds generalizing s path with
  | zero => exact .refused 0 s path
  | succ rounds ih =>
    unfold lookupImpl
    split_ifs
    · exact .refused _ s path
    cases hm : bestMount s.mounts path with
    | none => exact .refused _ s path
    | some m =>
      dsimp only
      have hlen : ((path.drop m.mountpoint.length).dropWhile (· = slash)).length ≤ path.length :=
        (dropWhile_suffix _).length_le.trans (by simp)
      have hwalk : Walks m.root followLast s m.root _ (walk m.root followLast path.length s _ _) :=
        walk_walks hlen (head_dropWhile_sep _)
      generalize walk m.root followLast path.length s m.root _ = r at hwalk
      obtain ⟨s', n | next⟩ := r
      · exact .ended hm hwalk
      · exact .hop hm hwalk (ih s' next)

theorem Looks.extends {followLast : Bool} {rounds : ℕ} {s : State} {path : List UInt8}
    {res : State × Option ℕ} (h : Looks followLast rounds s path res) : Extends s res.1 := by
  induction h with
  | refused => exact .refl _
  | ended _ hwalk => exact hwalk.extends
  | hop _ hwalk _ ih => exact hwalk.extends.trans ih

end Exploidus.Vfs
