import Exploidus.Vfs.Discipline
import Exploidus.Exfs.Run

/-! Lifetimes of node objects: who holds a node, and when it may be released. -/
namespace Exploidus.Vfs
open Exfs Function State Sound List

structure Sound (s : State) : Prop where
  roots : ∀ m ∈ s.mounts, m.root < s.fresh ∧ (s.nodes m.root).parent = none
  once : s.released.Nodup
  gone : ∀ n ∈ s.released, n < s.fresh ∧ (s.nodes n).parent ≠ none
  fds : ∀ i e, s.fds i = some e → e.node < s.fresh ∧ e.node ∉ s.released
  cwd : ∀ n, s.cwd = some n → n < s.fresh ∧ n ∉ s.released ∧
    ((s.nodes n).parent ≠ none → ∀ i e, s.fds i = some e → e.node ≠ n)

structure Held (s : State) (n : ℕ) : Prop where
  lt : n < s.fresh
  child : (s.nodes n).parent ≠ none
  live : n ∉ s.released
  fds : ∀ i e, s.fds i = some e → e.node ≠ n
  cwd : s.cwd ≠ some n

def Handed (s : State) (n : ℕ) : Prop :=
  (n < s.fresh ∧ (s.nodes n).parent = none) ∨ Held s n

section
variable {s s' : State} {n m : ℕ}

theorem Handed.lt (h : Handed s n) : n < s.fresh := h.elim And.left Held.lt

theorem Sound.not_released (hs : Sound s) (h : (s.nodes n).parent = none) : n ∉ s.released :=
  fun hn => (hs.gone n hn).2 h

theorem Handed.live (h : Handed s n) (hs : Sound s) : n ∉ s.released :=
  h.elim (fun hr => hs.not_released hr.2) Held.live

theorem Sound.kfree (hs : Sound s) (hn : Held s n) : Sound (s.kfree n) := by
  refine ⟨hs.roots, ?_, ?_, ?_, ?_⟩
  · rw [kfree_released]
    exact nodup_append.mpr ⟨hs.once, nodup_singleton n, fun a ha b hb => by
      rw [mem_singleton.mp hb]
      rintro rfl
      exact hn.live ha⟩
  · intro k hk
    rcases mem_append.mp hk with hk | hk
    · exact hs.gone k hk
    rw [mem_singleton.mp hk]
    exact ⟨hn.lt, hn.child⟩
  · intro i e he
    refine ⟨(hs.fds i e he).1, fun hk => ?_⟩
    rcases mem_append.mp hk with hk | hk
    · exact (hs.fds i e he).2 hk
    · exact hn.fds i e he (mem_singleton.mp hk)
  intro k hk
  obtain ⟨hlt, hlive, hown⟩ := hs.cwd k hk
  refine ⟨hlt, fun hin => ?_, hown⟩
  rcases mem_append.mp hin with hin | hin
  · exact hlive hin
  rw [mem_singleton.mp hin] at hk
  exact hn.cwd hk

theorem Sound.freeChild (hs : Sound s) (hn : Handed s n) : Sound (s.freeChild n) := by
  unfold State.freeChild
  split_ifs with hp
  · rcases hn with hr | hh
    · rw [hr.2] at hp
      cases hp
    · exact hs.kfree hh
  · exact hs

theorem Held.kfree (h : Held s n) (hne : n ≠ m) : Held (s.kfree m) n :=
  ⟨h.lt, h.child, fun hin => (mem_append.mp hin).elim h.live
    fun hm => hne (mem_singleton.mp hm), h.fds, h.cwd⟩

theorem Handed.freeChild (h : Handed s n) (hne : n ≠ m) : Handed (s.freeChild m) n := by
  unfold State.freeChild
  split_ifs
  · exact h.imp id (Held.kfree · hne)
  · exact h

theorem Sound.after (hs : Sound s) (k : ℕ) (vol : Volume) (node : Node) :
    Sound (s.after k vol node) := by
  refine ⟨fun m hm => ?_, hs.once, fun m hm => ?_, hs.fds, fun m hm => ?_⟩
  · rw [after_parent]
    exact hs.roots m hm
  · rw [after_parent]
    exact hs.gone m hm
  · rw [after_parent]
    exact hs.cwd m hm

theorem Held.after (h : Held s n) (k : ℕ) (vol : Volume) (node : Node) :
    Held (s.after k vol node) n :=
  ⟨h.lt, by rw [after_parent]; exact h.child, h.live, h.fds, h.cwd⟩

theorem Handed.after (h : Handed s n) (k : ℕ) (vol : Volume) (node : Node) :
    Handed (s.after k vol node) n := by
  refine h.imp (fun hr => ⟨hr.1, ?_⟩) (Held.after · k vol node)
  rw [after_parent]
  exact hr.2

theorem Sound.newNode (hs : Sound s) (v : Vnode) : Sound (s.newNode v).1 := by
  refine ⟨fun m hm => ?_, hs.once, fun m hm => ?_, fun i e he => ?_, fun m hm => ?_⟩
  · obtain ⟨hlt, hp⟩ := hs.roots m hm
    exact ⟨Nat.lt_succ_of_lt hlt, by rw [newNode_of_lt hlt]; exact hp⟩
  · obtain ⟨hlt, hp⟩ := hs.gone m hm
    exact ⟨Nat.lt_succ_of_lt hlt, by rw [newNode_of_lt hlt]; exact hp⟩
  · exact ⟨Nat.lt_succ_of_lt (hs.fds i e he).1, (hs.fds i e he).2⟩
  · obtain ⟨hlt, hlive, hown⟩ := hs.cwd m hm
    exact ⟨Nat.lt_succ_of_lt hlt, hlive, by rw [newNode_of_lt hlt]; exact hown⟩

theorem Sound.held_new (hs : Sound s) {v : Vnode} (hv : v.parent ≠ none) :
    Held (s.newNode v).1 s.fresh := by
  refine ⟨Nat.lt_succ_self _, by rw [newNode_self]; exact hv, fun hin => ?_,
    fun i e he => ?_, fun hc => ?_⟩
  · exact absurd (hs.gone _ hin).1 (lt_irrefl _)
  · exact (hs.fds i e he).1.ne
  · exact absurd (hs.cwd _ hc).1 (lt_irrefl _)

theorem Held.newNode (h : Held s n) (v : Vnode) : Held (s.newNode v).1 n :=
  ⟨Nat.lt_succ_of_lt h.lt, by rw [newNode_of_lt h.lt]; exact h.child, h.live, h.fds, h.cwd⟩

theorem Handed.newNode (h : Handed s n) (v : Vnode) : Handed (s.newNode v).1 n := by
  refine h.imp (fun hr => ⟨Nat.lt_succ_of_lt hr.1, ?_⟩) (Held.newNode · v)
  rw [newNode_of_lt hr.1]
  exact hr.2

/-! Lookups. -/

theorem Sound.enter (hs : Sound s) {root : ℕ} (hn : n = root ∨ Held s n) (child : Node) :
    Sound (s.enter root n child) ∧ Held (s.enter root n child) s.fresh := by
  unfold State.enter
  dsimp only
  have hnew := hs.newNode ⟨(s.nodes n).vol, child, some n⟩
  have hheld : Held (s.newNode ⟨(s.nodes n).vol, child, some n⟩).1 s.fresh :=
    hs.held_new (Option.some_ne_none n)
  split_ifs with hroot
  · exact ⟨hnew, hheld⟩
  have hh := hn.resolve_left hroot
  exact ⟨hnew.kfree (hh.newNode _), hheld.kfree hh.lt.ne'⟩

variable {followLast : Bool} {e : Fd}

theorem Walks.sound {root node : ℕ} {cur : List UInt8} {res : State × Walked}
    (h : Walks root followLast s node cur res) (hs : Sound s) (hn : node = root ∨ Held s node) :
    Sound res.1 ∧ ∀ n, res.2 = .found (some n) → n = root ∨ Held res.1 n := by
  induction h with
  | done s node =>
    refine ⟨hs, fun n hfound => ?_⟩
    cases hfound
    exact hn
  | long => exact ⟨hs, fun n hfound => by cases hfound⟩
  | @missing s node =>
    refine ⟨?_, fun n hfound => by cases hfound⟩
    unfold leave
    dsimp only
    split_ifs with hroot
    · exact hs
    · exact hs.kfree (hn.resolve_left hroot)
  | @link s node cur child hne hlen hlook htype hfollow =>
    obtain ⟨hs', hh⟩ := hs.enter hn child
    refine ⟨(hs'.after _ _ _).kfree (hh.after _ _ _), fun n hfound => ?_⟩
    dsimp only [turnAt] at hfound
    split_ifs at hfound
    all_goals cases hfound
  | @next s node cur child res hne hlen hlook hstay hrest ih =>
    obtain ⟨hs', hh⟩ := hs.enter hn child
    exact ih hs' (.inr hh)

theorem Sound.root_handed (hs : Sound s) {m : Mount} (hm : m ∈ s.mounts) : Handed s m.root :=
  .inl (hs.roots m hm)

theorem Looks.sound {rounds : ℕ} {path : List UInt8} {res : State × Option ℕ}
    (h : Looks followLast rounds s path res) (hs : Sound s) :
    Sound res.1 ∧ ∀ n, res.2 = some n → Handed res.1 n := by
  induction h with
  | refused => exact ⟨hs, fun n hn => by cases hn⟩
  | @ended rounds s s' path m o hm hwalk =>
    obtain ⟨hs', hfound⟩ := hwalk.sound hs (.inl rfl)
    refine ⟨hs', ?_⟩
    rintro n rfl
    rcases hfound n rfl with rfl | hh
    · refine hs'.root_handed ?_
      rw [hwalk.extends.mounts]
      exact bestMount_mem hm
    · exact .inr hh
  | hop hm hwalk hrest ih => exact ih (hwalk.sound hs (.inl rfl)).1

theorem Walks.released {root node base : ℕ} {cur : List UInt8} {res : State × Walked}
    (h : Walks root followLast s node cur res) (hbase : base ≤ s.fresh)
    (hn : node = root ∨ base ≤ node) : ∀ k ∈ res.1.released, k ∈ s.released ∨ base ≤ k := by
  have hleft : ∀ {s : State} {node : ℕ}, (node = root ∨ base ≤ node) →
      ∀ k ∈ s.released ++ (if node = root then [] else [node]), k ∈ s.released ∨ base ≤ k := by
    intro s node hn k hk
    rcases mem_append.mp hk with hk | hk
    · exact .inl hk
    split_ifs at hk with hroot
    · cases hk
    rw [mem_singleton.mp hk]
    exact .inr (hn.resolve_left hroot)
  induction h with
  | done | long => exact fun k hk => .inl hk
  | missing =>
    intro k hk
    rw [leave_released] at hk
    exact hleft hn k hk
  | @link s node cur child hne hlen hlook htype hfollow =>
    intro k hk
    rcases mem_append.mp hk with hk | hk
    · change k ∈ (s.enter root node child).released at hk
      rw [enter_released] at hk
      exact hleft hn k hk
    · rw [mem_singleton.mp hk]
      exact .inr hbase
  | @next s node cur child res hne hlen hlook hstay hrest ih =>
    intro k hk
    rcases ih (by simp; omega) (.inr hbase) k hk with hk | hk
    · rw [enter_released] at hk
      exact hleft hn k hk
    · exact .inr hk

theorem Looks.released {rounds base : ℕ} {path : List UInt8} {res : State × Option ℕ}
    (h : Looks followLast rounds s path res) (hbase : base ≤ s.fresh) :
    ∀ k ∈ res.1.released, k ∈ s.released ∨ base ≤ k := by
  induction h with
  | refused => exact fun k hk => .inl hk
  | ended hm hwalk => exact hwalk.released hbase (.inl rfl)
  | hop hm hwalk hrest ih =>
    intro k hk
    rcases ih (hbase.trans hwalk.extends.fresh) k hk with hk | hk
    · exact hwalk.released hbase (.inl rfl) k hk
    · exact .inr hk

theorem Handed.looks {rounds : ℕ} {path : List UInt8} {res : State × Option ℕ} (h : Handed s n)
    (hlook : Looks followLast rounds s path res) : Handed res.1 n := by
  have hext := hlook.extends
  rcases h with ⟨hlt, hp⟩ | hh
  · exact .inl ⟨hlt.trans_le hext.fresh, by rw [hext.nodes n hlt]; exact hp⟩
  refine .inr ⟨hh.lt.trans_le hext.fresh, ?_, fun hin => ?_, fun i e he => ?_, fun hc => ?_⟩
  · rw [hext.nodes n hh.lt]
    exact hh.child
  · rcases hlook.released le_rfl n hin with hin | hge
    · exact hh.live hin
    · exact absurd hh.lt (Nat.not_lt.mpr hge)
  · rw [hext.fds] at he
    exact hh.fds i e he
  · rw [hext.cwd] at hc
    exact hh.cwd hc

/-! Descriptors. -/

theorem State.fdAt_some {fd : ℤ} (h : s.fdAt fd = some e) :
    s.fds fd.toNat = some e ∧ 0 ≤ fd ∧ fd < 64 := by
  unfold fdAt at h
  split_ifs at h with hr
  exact ⟨h, hr⟩

theorem Sound.setFd (hs : Sound s) (i : ℕ) (hlt : e.node < s.fresh) (hlive : e.node ∉ s.released)
    (hcwd : s.cwd = some e.node → (s.nodes e.node).parent = none) :
    Sound (s.setFd i (some e)) := by
  refine ⟨hs.roots, hs.once, hs.gone, fun j e' he => ?_, fun m hm => ?_⟩
  · change update s.fds i (some e) j = some e' at he
    by_cases hj : j = i
    · subst hj
      rw [update_self] at he
      cases he
      exact ⟨hlt, hlive⟩
    · rw [update_of_ne hj] at he
      exact hs.fds j e' he
  obtain ⟨hm1, hm2, hm3⟩ := hs.cwd m hm
  refine ⟨hm1, hm2, fun hp j e' he => ?_⟩
  change update s.fds i (some e) j = some e' at he
  by_cases hj : j = i
  · subst hj
    rw [update_self] at he
    cases he
    rintro rfl
    exact hp (hcwd hm)
  · rw [update_of_ne hj] at he
    exact hm3 hp j e' he

theorem Sound.clearFd (hs : Sound s) (i : ℕ) : Sound (s.setFd i none) := by
  have hold : ∀ j e, (s.setFd i none).fds j = some e → s.fds j = some e := by
    intro j e he
    change update s.fds i none j = some e at he
    by_cases hj : j = i
    · subst hj
      rw [update_self] at he
      cases he
    · rwa [update_of_ne hj] at he
  refine ⟨hs.roots, hs.once, hs.gone, fun j e he => hs.fds j e (hold j e he), fun m hm => ?_⟩
  obtain ⟨hm1, hm2, hm3⟩ := hs.cwd m hm
  exact ⟨hm1, hm2, fun hp j e he => hm3 hp j e (hold j e he)⟩

theorem Sound.moveFd (hs : Sound s) {i : ℕ} (he : s.fds i = some e) (j : ℕ) {e' : Fd}
    (hsame : e'.node = e.node) : Sound (s.setFd j (some e')) := by
  obtain ⟨hlt, hlive⟩ := hs.fds i e he
  rw [← hsame] at hlt hlive
  refine hs.setFd j hlt hlive fun hc => ?_
  by_contra hp
  exact (hs.cwd _ hc).2.2 hp i e he hsame.symm

theorem Sound.handFd (hs : Sound s) (hn : Handed s n) (i : ℕ) {off : UInt64} {pid : UInt32} :
    Sound (s.setFd i (some ⟨n, off, pid⟩)) :=
  hs.setFd i hn.lt (hn.live hs) fun hc => hn.elim And.right fun hh => absurd hc hh.cwd

/-- The node of descriptor `i` is a mount root, or no other active descriptor refers to it. -/
def Unshared (s : State) (i : ℕ) : Prop :=
  ∀ e, s.fds i = some e → (s.nodes e.node).parent ≠ none →
    ∀ j e', j ≠ i → s.fds j = some e' → e'.node ≠ e.node

theorem State.freeChild_setFd (s : State) (n i : ℕ) (e : Option Fd) :
    (s.freeChild n).setFd i e = (s.setFd i e).freeChild n := by
  unfold freeChild
  by_cases hp : (s.nodes n).parent.isSome
  · rw [if_pos hp, if_pos (by exact hp)]
    rfl
  · rw [if_neg hp, if_neg (by exact hp)]

theorem Sound.closeFd (hs : Sound s) {i : ℕ} (he : s.fds i = some e) (hun : Unshared s i) :
    Sound ((s.freeChild e.node).setFd i none) := by
  rw [freeChild_setFd]
  refine (hs.clearFd i).freeChild ?_
  obtain ⟨hlt, hlive⟩ := hs.fds i e he
  by_cases hp : (s.nodes e.node).parent = none
  · exact .inl ⟨hlt, hp⟩
  refine .inr ⟨hlt, hp, hlive, fun j e' he' => ?_, fun hc => ?_⟩
  · change update s.fds i none j = some e' at he'
    by_cases hj : j = i
    · subst hj
      rw [update_self] at he'
      cases he'
    · rw [update_of_ne hj] at he'
      exact hun e he hp j e' hj he'
  · exact (hs.cwd _ hc).2.2 hp i e he rfl

theorem Sound.vfsClose (hs : Sound s) {fd : ℤ} (hun : Unshared s fd.toNat) :
    Sound (s.vfsClose fd).1 := by
  unfold State.vfsClose
  cases hfd : s.fdAt fd with
  | none => exact hs
  | some e => exact hs.closeFd (fdAt_some hfd).1 hun

theorem State.vfsClose_fds (s : State) (fd : ℤ) (hr : 0 ≤ fd ∧ fd < 64) :
    (s.vfsClose fd).1.fds = update s.fds fd.toNat none := by
  unfold vfsClose
  cases hfd : s.fdAt fd with
  | none =>
    have hnone : s.fds fd.toNat = none := by rwa [fdAt, if_pos hr] at hfd
    exact (update_eq_self_iff.mpr hnone.symm).symm
  | some e =>
    change update (s.freeChild e.node).fds fd.toNat none = _
    unfold freeChild
    split_ifs <;> rfl

theorem State.freeChild_nodes (s : State) (n : ℕ) : (s.freeChild n).nodes = s.nodes := by
  unfold freeChild
  split_ifs <;> rfl

theorem State.vfsClose_nodes (s : State) (fd : ℤ) : (s.vfsClose fd).1.nodes = s.nodes := by
  unfold vfsClose
  cases s.fdAt fd with
  | none => rfl
  | some e => exact freeChild_nodes s e.node

theorem Unshared.of_update {i k : ℕ} (h : Unshared s i)
    (hfds : s'.fds = update s.fds k none) (hnodes : s'.nodes = s.nodes) :
    Unshared s' i := by
  have hold : ∀ j e, s'.fds j = some e → s.fds j = some e := by
    intro j e he
    rw [hfds] at he
    by_cases hj : j = k
    · subst hj
      rw [update_self] at he
      cases he
    · rwa [update_of_ne hj] at he
  intro e he hp j e' hj he'
  rw [hnodes] at hp
  exact h e (hold i e he) hp j e' hj (hold j e' he')

section
variable (hs : Sound s)
include hs

theorem Sound.closeAll {pid : UInt32} {is : List ℕ} (hlt : ∀ i ∈ is, i < 64)
    (hun : ∀ i ∈ is, ∀ e, s.fds i = some e → e.ownerPid = pid → Unshared s i) :
    Sound (s.closeAll pid is) := by
  induction is generalizing s with
  | nil => exact hs
  | cons i is ih =>
    have hlt' : ∀ j ∈ is, j < 64 := fun j hj => hlt j (mem_cons_of_mem _ hj)
    have hun' : ∀ j ∈ is, ∀ e, s.fds j = some e → e.ownerPid = pid → Unshared s j :=
      fun j hj => hun j (mem_cons_of_mem _ hj)
    unfold closeAll
    rw [foldl_cons]
    cases he : s.fds i with
    | none => exact ih hs hlt' hun'
    | some e =>
      dsimp only
      split_ifs with hpid
      · have hi := hlt i mem_cons_self
        have hfds := s.vfsClose_fds (i : ℤ) ⟨by omega, by omega⟩
        rw [Int.toNat_natCast] at hfds
        refine ih (hs.vfsClose (hun i mem_cons_self e he hpid)) hlt' fun j hj e' he' hp' => ?_
        refine (hun' j hj e' ?_ hp').of_update hfds (s.vfsClose_nodes i)
        rw [hfds] at he'
        by_cases hji : j = i
        · subst hji
          rw [update_self] at he'
          cases he'
        · rwa [update_of_ne hji] at he'
      · exact ih hs hlt' hun'

/-! The current directory. -/

theorem Sound.noCwd : Sound { s with cwd := none } :=
  ⟨hs.roots, hs.once, hs.gone, hs.fds, fun _ hm => by cases hm⟩

theorem Sound.newCwd (hn : Handed s n) : Sound { s with cwd := some n } := by
  refine ⟨hs.roots, hs.once, hs.gone, hs.fds, fun k hk => ?_⟩
  cases hk
  exact ⟨hn.lt, hn.live hs, fun hp => (hn.resolve_left fun hr => hp hr.2).fds⟩

end

theorem State.freeChild_root {s : State} (h : (s.nodes n).parent = none) : s.freeChild n = s := by
  rw [freeChild, h]
  rfl

theorem Sound.setCwd (hs : Sound s) (hn : Handed s n) : Sound (s.setCwd n) := by
  -- between the two the call holds both nodes and there is no current directory
  have hn0 : Handed { s with cwd := none } n :=
    hn.imp id fun hh => ⟨hh.lt, hh.child, hh.live, hh.fds, (Option.some_ne_none n).symm⟩
  unfold State.setCwd
  cases hc : s.cwd with
  | none => exact hs.noCwd.newCwd hn0
  | some old =>
    obtain ⟨hlt, hlive, hown⟩ := hs.cwd old hc
    have hcomm : { s.freeChild old with cwd := some n } =
        { State.freeChild { s with cwd := none } old with cwd := some n } := by
      unfold State.freeChild
      by_cases hp : (s.nodes old).parent.isSome
      · rw [if_pos hp, if_pos (by exact hp)]
        rfl
      · rw [if_neg hp, if_neg (by exact hp)]
    dsimp only
    rw [hcomm]
    by_cases hp : (s.nodes old).parent = none
    · rw [State.freeChild_root (by exact hp)]
      exact hs.noCwd.newCwd hn0
    have hne : n ≠ old := by
      rintro rfl
      rcases hn with hr | hh
      · exact hp hr.2
      · exact hh.cwd hc
    have hold : Handed { s with cwd := none } old :=
      .inr ⟨hlt, hp, hlive, hown hp, (Option.some_ne_none old).symm⟩
    exact (hs.noCwd.freeChild hold).newCwd (hn0.freeChild hne)

theorem Sound.discipline : Discipline Sound Handed where
  looks h hs := h.sound hs
  held_looks h hn := hn.looks h
  freeChild := freeChild
  held_freeChild := Handed.freeChild
  after hs _ := hs.after _ _ _
  held_after hn := hn.after _ _ _
  newNode v hs := hs.newNode v
  held_newNode v hn := hn.newNode v
  held_new hs hv := .inr (hs.held_new hv)
  held_fresh hs hv hn := Handed.freeChild (.inr (hs.held_new hv)) hn.lt.ne'
  setCwd := setCwd

/-! Runs. -/

/-- What a call needs of the state it is made in: a descriptor that is closed, by itself, by
`vfs_dup2` or with all of a process, shares no node below a mount root with another one, and
`vfs_getcwd` finds the current directory at most one level below a mount root. -/
def Meets (s : State) : Call → Prop
  | .close fd => Unshared s fd.toNat
  | .closeAllForPid pid => ∀ i e, 3 ≤ i → i < 64 → s.fds i = some e → e.ownerPid = pid →
      Unshared s i
  | .dup2 oldfd newfd => (s.fdAt oldfd).isSome → newfd ≠ oldfd → Unshared s newfd.toNat
  | .getcwd size => size ≠ 0 → ∀ n p, s.cwd = some n → (s.nodes n).parent = some p →
      (s.nodes p).parent = none
  | _ => True

section
variable (hs : Sound s)
include hs

theorem Sound.vfsCloseAllForPid {pid : UInt32}
    (hm : Meets s (.closeAllForPid pid)) : Sound (s.vfsCloseAllForPid pid) := by
  unfold State.vfsCloseAllForPid
  split_ifs
  · exact hs
  refine hs.closeAll (fun i hi => (mem_range'_1.mp hi).2) fun i hi e he hp => ?_
  obtain ⟨hlo, hhi⟩ := mem_range'_1.mp hi
  exact hm i e hlo hhi he hp

theorem Sound.vfsDup (fd : ℤ) : Sound (s.vfsDup fd).1 := by
  unfold State.vfsDup
  cases hfd : s.fdAt fd with
  | none => exact hs
  | some e =>
    dsimp only
    cases s.freeFd with
    | none => exact hs
    | some i => exact hs.moveFd (fdAt_some hfd).1 i rfl

theorem Sound.vfsDup2 {oldfd newfd : ℤ} (hm : Meets s (.dup2 oldfd newfd)) :
    Sound (s.vfsDup2 oldfd newfd).1 := by
  unfold State.vfsDup2
  cases hfd : s.fdAt oldfd with
  | none => exact hs
  | some e =>
    dsimp only
    split_ifs with hrange hsame
    · exact hs
    · exact hs
    have hclose := hs.vfsClose (hm (by rw [hfd]; rfl) hsame)
    have hne : oldfd.toNat ≠ newfd.toNat := by
      have := (fdAt_some hfd).2
      omega
    have hkept : (s.vfsClose newfd).1.fds oldfd.toNat = some e := by
      rw [vfsClose_fds s newfd (by omega), update_of_ne hne]
      exact (fdAt_some hfd).1
    exact hclose.moveFd hkept _ rfl

theorem Sound.exec (c : Caller) {call : Call} (hm : Meets s call) : Sound (exec s c call) := by
  cases call with
  | «open» path flags => exact discipline.vfsOpen hs (handFd · · _) path flags
  | create path type => exact discipline.vfsCreate hs (handFd · · _) path type
  | close fd => exact hs.vfsClose hm
  | closeAllForPid pid => exact hs.vfsCloseAllForPid hm
  | dup fd => exact hs.vfsDup fd
  | dup2 oldfd newfd => exact hs.vfsDup2 hm
  | _ => exact discipline.exec hs c rfl fun ht he hn => ht.moveFd he _ hn

end

theorem State.cwdChain_root {k : ℕ} (h : (s.nodes k).parent = none) (depth : ℕ) :
    s.cwdChain depth k = [k] := by
  cases depth with
  | zero => rfl
  | succ depth => rw [cwdChain, h]

theorem State.mem_cwdChain {k depth : ℕ} (h : n ∈ s.cwdChain (depth + 1) k) :
    n = k ∨ ∃ p, (s.nodes k).parent = some p ∧ n ∈ s.cwdChain depth p := by
  rw [cwdChain] at h
  rcases mem_cons.mp h with rfl | h
  · exact .inl rfl
  cases hp : (s.nodes k).parent with
  | none =>
    rw [hp] at h
    cases h
  | some p =>
    rw [hp] at h
    dsimp only at h
    split_ifs at h
    · cases h
    · exact .inr ⟨p, rfl, h⟩

theorem Sound.cwdReads (hs : Sound s) {size : UInt64} (hm : Meets s (.getcwd size)) :
    ∀ n ∈ s.cwdReads size, n ∉ s.released := by
  intro n hn
  unfold State.cwdReads at hn
  split_ifs at hn with hsize
  · cases hn
  cases hc : s.cwd with
  | none =>
    rw [hc] at hn
    cases hn
  | some k =>
    rw [hc] at hn
    have hlive := (hs.cwd k hc).2.1
    rcases mem_cwdChain hn with rfl | ⟨p, hp, hn⟩
    · exact hlive
    have hroot := hm hsize k p hc hp
    rw [cwdChain_root hroot, mem_singleton] at hn
    rw [hn]
    exact hs.not_released hroot

end

/-- A state in which nothing has been opened yet: the mount roots are there and nothing else is
referred to. -/
structure Booted (s : State) : Prop where
  roots : ∀ m ∈ s.mounts, m.root < s.fresh ∧ (s.nodes m.root).parent = none
  released : s.released = []
  fds : ∀ i, s.fds i = none
  cwd : s.cwd = none

variable {s : State}

theorem Booted.sound (h : Booted s) : Sound s := by
  refine ⟨h.roots, by rw [h.released]; exact nodup_nil, fun n hn => ?_, fun i e he => ?_,
    fun n hn => ?_⟩
  · rw [h.released] at hn
    cases hn
  · rw [h.fds i] at he
    cases he
  · rw [h.cwd] at hn
    cases hn

/-- No node object has been released twice, and no active descriptor and no current directory
refers to a released one. -/
structure NodesOk (s : State) : Prop where
  once : s.released.Nodup
  fds : ∀ i e, s.fds i = some e → e.node ∉ s.released
  cwd : ∀ n, s.cwd = some n → n ∉ s.released

/-- Every call of a run meets the condition in the state it is made in. -/
def MeetsAll : State → List (Caller × Call) → Prop
  | _, [] => True
  | s, (c, call) :: cs => Meets s call ∧ MeetsAll (exec s c call) cs

/-- Along the run the node objects are in order, and `vfs_getcwd` reads no released one. -/
def OkAlong : State → List (Caller × Call) → Prop
  | s, [] => NodesOk s
  | s, (c, call) :: cs => NodesOk s ∧
      (∀ size, call = .getcwd size → ∀ n ∈ s.cwdReads size, n ∉ s.released) ∧
      OkAlong (exec s c call) cs

theorem Sound.nodesOk (hs : Sound s) : NodesOk s :=
  ⟨hs.once, fun i e he => (hs.fds i e he).2, fun n hn => (hs.cwd n hn).2.1⟩

theorem Sound.run {cs : List (Caller × Call)} (hs : Sound s) (hm : MeetsAll s cs) :
    OkAlong s cs := by
  induction cs generalizing s with
  | nil => exact hs.nodesOk
  | cons e cs ih =>
    obtain ⟨c, call⟩ := e
    refine ⟨hs.nodesOk, ?_, ih (hs.exec c hm.1) hm.2⟩
    rintro size rfl
    exact hs.cwdReads hm.1

/-- In every run of calls that meet the condition, in every state reached, no node object has been
released twice and none that is released is referred to or followed. -/
theorem nodes_run {s : State} {cs : List (Caller × Call)} (hs : Booted s) (hm : MeetsAll s cs) :
    OkAlong s cs := hs.sound.run hm

/-- A formatted volume mounted at `/`. -/
def bootState : State where
  volumes := fun _ => sampleMount.1
  nodes := fun _ => ⟨0, sampleMount.2, none⟩
  fresh := 1
  released := []
  mounts := [⟨[47], 0⟩]
  fds := fun _ => none
  cwd := none

theorem bootState_booted : Booted bootState :=
  ⟨fun m hm => by rw [mem_singleton.mp hm]; exact ⟨Nat.one_pos, rfl⟩, rfl, fun _ => rfl, rfl⟩

/-- Create a file, close its descriptor, change to the root directory and ask for it. -/
def sampleCalls : List (Caller × Call) :=
  [(⟨1, 0, 0⟩, .create [47, 102] 0), (⟨1, 0, 0⟩, .close 3), (⟨1, 0, 0⟩, .chdir [47]),
    (⟨1, 0, 0⟩, .getcwd 64)]

theorem State.vfsCreate_fds {s' : State} {c : Caller} {path : List UInt8} {type : UInt8} {fd : ℤ}
    (h : s.vfsCreate c path type = (s', fd)) (hfd : 0 ≤ fd) :
    ∃ n, s'.fds = update s.fds fd.toNat (some ⟨n, 0, c.pid⟩) := by
  obtain ⟨parent, name, dir, n, s1, -, -, -, hcreate, -, rfl⟩ := vfsCreate_ok h hfd
  refine ⟨n, ?_⟩
  have hfds : s1.fds = s.fds := by
    have := (s.lookup parent).1.createIn_fds dir name type c
    rw [hcreate] at this
    rw [this]
    exact (lookupImpl_looks true 9 s parent).extends.fds
  change update (s1.freeChild dir).fds fd.toNat _ = _
  rw [freeChild_fds, hfds]

theorem sampleCalls_ok : OkAlong bootState sampleCalls := by
  have hfd : (bootState.vfsCreate ⟨1, 0, 0⟩ [47, 102] 0).2 = 3 := by decide +kernel
  have hcwd : (exec (exec (exec bootState ⟨1, 0, 0⟩ (.create [47, 102] 0)) ⟨1, 0, 0⟩ (.close 3))
      ⟨1, 0, 0⟩ (.chdir [47])).cwd = some 0 ∧
      ((exec (exec (exec bootState ⟨1, 0, 0⟩ (.create [47, 102] 0)) ⟨1, 0, 0⟩ (.close 3))
        ⟨1, 0, 0⟩ (.chdir [47])).nodes 0).parent = none := by decide +kernel
  have hfds : ∃ n, (exec bootState ⟨1, 0, 0⟩ (.create [47, 102] 0)).fds =
      update bootState.fds 3 (some ⟨n, 0, 1⟩) := by
    generalize hr : bootState.vfsCreate ⟨1, 0, 0⟩ [47, 102] 0 = r at hfd
    obtain ⟨s', fd⟩ := r
    have hs' : exec bootState ⟨1, 0, 0⟩ (.create [47, 102] 0) = s' := congrArg Prod.fst hr
    cases hfd
    rw [hs']
    exact vfsCreate_fds hr (by decide)
  refine nodes_run bootState_booted ⟨trivial, ?_, trivial, ?_, trivial⟩
  · obtain ⟨n, hfds⟩ := hfds
    generalize exec bootState ⟨1, 0, 0⟩ (.create [47, 102] 0) = s at hfds
    intro e he hp j e' hj he'
    rw [hfds, update_of_ne (show j ≠ 3 from hj)] at he'
    cases he'
  · generalize exec _ _ (.chdir [47]) = s at hcwd
    intro _ n p hn hp
    obtain rfl : 0 = n := Option.some.inj (hcwd.1.symm.trans hn)
    cases hcwd.2.symm.trans hp

/-- The calls create a file, duplicate its descriptor and close both. -/
def dupCalls : List (Caller × Call) :=
  [(⟨1, 0, 0⟩, .create [47, 102] 0), (⟨1, 0, 0⟩, .dup 3), (⟨1, 0, 0⟩, .close 3),
    (⟨1, 0, 0⟩, .close 4)]

/-- The calls create a directory in a directory and change to it. -/
def nestedCalls : List (Caller × Call) :=
  [(⟨1, 0, 0⟩, .create [47, 100] 1), (⟨1, 0, 0⟩, .create [47, 100, 47, 101] 1),
    (⟨1, 0, 0⟩, .chdir [47, 100, 47, 101])]

/-- A duplicated descriptor outlives its node, which is then released a second time; and the path
of a nested current directory is read from a released node. -/
theorem dupCalls_released_twice : (∃ e ∈ (run bootState (dupCalls.take 3)).fds 4,
      e.node ∈ (run bootState (dupCalls.take 3)).released) ∧
    ¬ (run bootState dupCalls).released.Nodup ∧
    ∃ n ∈ (run bootState nestedCalls).cwdReads 64, n ∈ (run bootState nestedCalls).released := by
  decide +kernel

end Exploidus.Vfs
