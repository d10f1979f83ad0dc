import Exploidus.Vfs.Walk
import Exploidus.Exfs.Run
import Mathlib.Data.List.TakeWhile

/-! Path resolution against a reference resolver that works on places in the file tree instead of
node objects, takes mount points at component boundaries only, looks names up in directories only
and puts whole symlink targets in place of the links. -/
namespace Exploidus.Vfs
open Exfs Components List

/-- A place in the file tree: a volume and a node of it. -/
structure Place where
  vol : ℕ
  node : Node

def State.place (s : State) (n : ℕ) : Place := ⟨(s.nodes n).vol, (s.nodes n).node⟩

/-- The mount point begins the path and ends where one of its components ends. -/
def WholePrefix (m path : List UInt8) : Prop :=
  m <+: path ∧ (m.getLast? = some slash ∨ path.length = m.length ∨
    (path.drop m.length).head? = some slash)
  deriving Decidable

/-- The mount with the longest mount point that is a whole-component start of the path. -/
def mountFor (mounts : List Mount) (path : List UInt8) : Option Mount :=
  (mounts.filter fun m => m.mountpoint ≠ [] ∧ WholePrefix m.mountpoint path).argmax
    fun m => m.mountpoint.length

inductive Found where
  | place (p : Place)
  | missing
  | stray (p : Place) (name : List UInt8)
  | link (p : Place) (rest : List UInt8)

/-- Look the components up one by one, until one is missing, is a symlink, or would have to be
looked up in something that is not a directory. -/
def descend (vols : ℕ → Volume) : Place → List (List UInt8 × List UInt8) → Found
  | p, [] => .place p
  | p, (name, rest) :: cs =>
    if p.node.type ≠ .directory then .stray p name
    else match (vols p.vol).opLookup p.node name with
      | none => .missing
      | some child =>
        if child.type = .symlink then .link ⟨p.vol, child⟩ rest
        else descend vols ⟨p.vol, child⟩ cs

/-- The whole target of a symlink; the driver records the read on the volume. -/
def target (vols : ℕ → Volume) (p : Place) : (ℕ → Volume) × List UInt8 :=
  let r := (vols p.vol).opRead p.node 0 (2 ^ 64 - 1)
  (Function.update vols p.vol r.1, r.2.2)

/-- The result of a descent; `next` resolves the path after a symlink. -/
def Found.result (vols : ℕ → Volume)
    (next : (ℕ → Volume) → List UInt8 → (ℕ → Volume) × Option Place) :
    Found → (ℕ → Volume) × Option Place
  | .place p => (vols, some p)
  | .link p rest => next (target vols p).1 ((target vols p).2 ++ rest)
  | .missing => (vols, none)
  | .stray _ _ => (vols, none)

/-- The reference resolver, with the given number of rounds left. -/
def resolve (mounts : List Mount) (root : ℕ → Place) :
    ℕ → (ℕ → Volume) → List UInt8 → (ℕ → Volume) × Option Place
  | 0, vols, _ => (vols, none)
  | rounds + 1, vols, path =>
    if path.head? ≠ some slash then (vols, none)
    else match mountFor mounts path with
      | none => (vols, none)
      | some m =>
        (descend vols (root m.root) (components slash (path.drop m.mountpoint.length))).result vols
          (resolve mounts root rounds)

def Found.trail (vols : ℕ → Volume)
    (next : (ℕ → Volume) → List UInt8 → List (Mount × List UInt8)) :
    Found → List (Mount × List UInt8)
  | .link p rest => next (target vols p).1 ((target vols p).2 ++ rest)
  | _ => []

/-- The mounts and paths of the rounds of the reference resolver. -/
def resolveTrail (mounts : List Mount) (root : ℕ → Place) :
    ℕ → (ℕ → Volume) → List UInt8 → List (Mount × List UInt8)
  | 0, _, _ => []
  | rounds + 1, vols, path =>
    if path.head? ≠ some slash then []
    else match mountFor mounts path with
      | none => []
      | some m => (m, path) ::
        (descend vols (root m.root) (components slash (path.drop m.mountpoint.length))).trail vols
          (resolveTrail mounts root rounds)

def Walked.trail (next : List UInt8 → List (Mount × List UInt8)) :
    Walked → List (Mount × List UInt8)
  | .found _ => []
  | .hop path => next path

/-- The mounts and paths of the rounds of `vfs_lookup`. -/
def State.trail : ℕ → State → List UInt8 → List (Mount × List UInt8)
  | 0, _, _ => []
  | rounds + 1, s, path =>
    if path.head? ≠ some slash then []
    else match bestMount s.mounts path with
      | none => []
      | some m =>
        let r := walk m.root true path.length s m.root
          ((path.drop m.mountpoint.length).dropWhile (· = slash))
        (m, path) :: r.2.trail (trail rounds r.1)

/-- A lookup that returned node `n` did so for the given path: it went through the mounts and
paths of the reference resolver and came to the same place. -/
def State.Faithful (s : State) (path : List UInt8) (s' : State) (n : ℕ) : Prop :=
  s.trail 9 path = resolveTrail s.mounts s.place 9 s.volumes path ∧
    resolve s.mounts s.place 9 s.volumes path = (s'.volumes, some (s'.place n))

/-- What the code needs of the end of a descent: a name that would be looked up in something that
is not a directory is not found there, and a symlink has a target without zero bytes that fits,
alone and together with the rest of the path; `next` is what it needs of the path after that. -/
def Found.Fits (vols : ℕ → Volume) (next : (ℕ → Volume) → List UInt8 → Prop) : Found → Prop
  | .place _ => True
  | .missing => True
  | .stray p name => (vols p.vol).opLookup p.node name = none
  | .link p rest => ((target vols p).2.length ≤ 250 ∧ 0 ∉ (target vols p).2 ∧
      (target vols p).2.length + rest.length ≤ 299) ∧
      next (target vols p).1 ((target vols p).2 ++ rest)

/-- What the code needs of a path, round by round: the longest mount point that begins it does not
end inside one of its components, and the descent from there fits. -/
def Clean (mounts : List Mount) (root : ℕ → Place) : ℕ → (ℕ → Volume) → List UInt8 → Prop
  | 0, _, _ => True
  | rounds + 1, vols, path =>
    (∀ m ∈ bestMount mounts path, WholePrefix m.mountpoint path) ∧
    ∀ m ∈ mountFor mounts path,
      (descend vols (root m.root) (components slash (path.drop m.mountpoint.length))).Fits vols
        (Clean mounts root rounds)

instance (vols : ℕ → Volume) (next : (ℕ → Volume) → List UInt8 → Prop)
    [∀ vols path, Decidable (next vols path)] (found : Found) : Decidable (found.Fits vols next) := by
  cases found <;> unfold Found.Fits <;> infer_instance

instance Clean.decidable (mounts : List Mount) (root : ℕ → Place) :
    ∀ rounds vols path, Decidable (Clean mounts root rounds vols path)
  | 0, _, _ => isTrue trivial
  | rounds + 1, _, _ =>
    have := Clean.decidable mounts root rounds
    inferInstanceAs (Decidable (_ ∧ _))

/-! The choice of the mount. -/

theorem argmax_filter_of_imp {α : Type*} {f : α → ℕ} {p q : α → Bool} (hqp : ∀ a, q a → p a)
    {l : List α} {m : α} (h : (l.filter p).argmax f = some m) (hm : q m) :
    (l.filter q).argmax f = some m := by
  induction l using reverseRecOn generalizing m with
  | nil => simp at h
  | append_singleton l a ih =>
    rw [filter_append] at h ⊢
    by_cases hq : q a
    · rw [filter_cons_of_pos hq, filter_nil, argmax_concat]
      rw [filter_cons_of_pos (hqp a hq), filter_nil, argmax_concat] at h
      cases hp : (l.filter p).argmax f with
      | none =>
        have hnil : l.filter q = [] := by
          refine filter_eq_nil_iff.mpr fun b hb hqb => ?_
          exact filter_eq_nil_iff.mp (argmax_eq_none.mp hp) b hb (hqp b hqb)
        rw [hp] at h
        rwa [hnil]
      | some c =>
        rw [hp] at h
        simp only at h
        split_ifs at h with hlt
        · cases hw : (l.filter q).argmax f with
          | none => exact h
          | some w =>
            have hmem := mem_filter.mp (argmax_mem hw)
            have hle := le_of_mem_argmax (mem_filter.mpr ⟨hmem.1, hqp w hmem.2⟩) hp
            exact (if_pos (hle.trans_lt hlt)).trans h
        · obtain rfl := Option.some.inj h
          rw [ih hp hm]
          exact if_neg hlt
    · rw [filter_cons_of_neg hq, filter_nil, append_nil]
      by_cases hpa : p a
      · rw [filter_cons_of_pos hpa, filter_nil, argmax_concat] at h
        cases hp : (l.filter p).argmax f with
        | none =>
          rw [hp] at h
          obtain rfl := Option.some.inj h
          exact absurd hm hq
        | some c =>
          rw [hp] at h
          simp only at h
          split_ifs at h with hlt
          · obtain rfl := Option.some.inj h
            exact absurd hm hq
          · exact ih (hp.trans h) hm
      · rw [filter_cons_of_neg hpa, filter_nil, append_nil] at h
        exact ih h hm

theorem bestMount_eq (mounts : List Mount) (path : List UInt8) : bestMount mounts path =
    (mounts.filter fun m => m.mountpoint ≠ [] ∧ m.mountpoint <+: path).argmax
      fun m => m.mountpoint.length := by
  induction mounts using reverseRecOn with
  | nil => rfl
  | append_singleton ms m ih =>
    rw [bestMount, foldl_append, ← bestMount, ih, filter_append]
    simp only [foldl_cons, foldl_nil]
    by_cases hm : m.mountpoint ≠ [] ∧ m.mountpoint <+: path
    · rw [if_neg (by tauto), filter_cons_of_pos (by simpa using hm), filter_nil, argmax_concat]
      generalize argmax (fun m : Mount => m.mountpoint.length) _ = best
      cases best <;> rfl
    · rw [if_pos (by tauto), filter_cons_of_neg (by simpa using hm), filter_nil, append_nil]

variable {path : List UInt8} {p : Place} {vols : ℕ → Volume} {s : State} {rounds : ℕ}

theorem mountFor_eq {mounts : List Mount} {m : Mount} (h : bestMount mounts path = some m)
    (hm : WholePrefix m.mountpoint path) :
    mountFor mounts path = some m := by
  rw [bestMount_eq] at h
  have hne := (mem_filter.mp (argmax_mem h)).2
  simp only [decide_eq_true_eq] at hne
  refine argmax_filter_of_imp (fun a ha => ?_) h (by simpa using ⟨hne.1, hm⟩)
  simp only [decide_eq_true_eq] at ha ⊢
  exact ⟨ha.1, ha.2.1⟩

/-! The walk against the descent. -/

def shortTarget (vols : ℕ → Volume) (p : Place) : (ℕ → Volume) × List UInt8 :=
  let r := (vols p.vol).opRead p.node 0 255
  (Function.update vols p.vol r.1, r.2.2)

def Follows (vols : ℕ → Volume) (found : Found) (s : State) : Walked → Prop
  | .found none => True
  | .found (some n) => s.volumes = vols ∧ found = .place (s.place n)
  | .hop path => ∃ p rest, found = .link p rest ∧ s.volumes = (shortTarget vols p).1 ∧
      path = combined ((shortTarget vols p).2.takeWhile (· ≠ 0)) rest

theorem length_le_readLoop (vol : Volume) (i : Inode) (off len fuel k : ℕ) (acc : List UInt8) :
    acc.length ≤ (vol.readLoop i off len fuel k acc).length := by
  induction fuel generalizing k acc with
  | zero => exact le_rfl
  | succ fuel ih =>
    unfold Volume.readLoop
    split_ifs
    · exact le_rfl
    dsimp only
    split_ifs
    · exact le_rfl
    · exact le_trans (by simp) (ih _ _)

theorem readLoop_first (vol : Volume) (i : Inode) (len : ℕ) (hlen : 0 < len) :
    (vol.blockOf i 0 = 0 → vol.readLoop i 0 len len 0 [] = []) ∧
      (vol.blockOf i 0 ≠ 0 → min 4096 len ≤ (vol.readLoop i 0 len len 0 []).length) := by
  obtain ⟨k, rfl⟩ : ∃ k, len = k + 1 := ⟨len - 1, by omega⟩
  unfold Volume.readLoop
  rw [if_neg (by omega)]
  dsimp only
  rw [show (0 + 0) % 2 ^ 64 / 4096 = 0 by norm_num]
  constructor
  · intro h0
    rw [if_pos h0]
  intro h0
  rw [if_neg h0]
  exact le_trans (by simp) (length_le_readLoop ..)

theorem shortTarget_eq (h : (target vols p).2.length ≤ 250) :
    shortTarget vols p = target vols p := by
  unfold shortTarget target at *
  dsimp only at h ⊢
  suffices hread : (vols p.vol).opRead p.node 0 255 =
      (vols p.vol).opRead p.node 0 (2 ^ 64 - 1) by rw [hread]
  generalize vols p.vol = vol at h ⊢
  have hlt := p.node.inode.size.toNat_lt
  have hfull : (if p.node.inode.size.toNat < (0 + (2 ^ 64 - 1)) % 2 ^ 64 then
      p.node.inode.size.toNat - 0 else 2 ^ 64 - 1) = p.node.inode.size.toNat := by
    split_ifs <;> omega
  unfold Volume.opRead at h ⊢
  dsimp only at h ⊢
  rw [hfull] at h ⊢
  by_cases hsize : p.node.inode.size.toNat ≤ 255
  · have hcut : (if p.node.inode.size.toNat < (0 + 255) % 2 ^ 64 then
        p.node.inode.size.toNat - 0 else 255) = p.node.inode.size.toNat := by
      split_ifs <;> omega
    rw [hcut]
  rw [if_neg (show ¬ p.node.inode.size.toNat < (0 + 255) % 2 ^ 64 by omega)]
  rw [if_neg (by omega), if_neg (by omega)] at h
  rw [if_neg (by omega), if_neg (by omega), if_neg (by omega), if_neg (by omega)]
  obtain ⟨hnone, hmapped⟩ := readLoop_first vol p.node.inode p.node.inode.size.toNat
    (by omega)
  by_cases h0 : vol.blockOf p.node.inode 0 = 0
  · rw [hnone h0, (readLoop_first vol p.node.inode 255 (by omega)).1 h0]
  have := hmapped h0
  dsimp only at h
  omega

theorem State.readLink_shortTarget (s : State) (root node : ℕ) (child : Node) :
    ((s.enter root node child).readLink s.fresh).1.volumes =
        (shortTarget s.volumes ⟨(s.nodes node).vol, child⟩).1 ∧
      ((s.enter root node child).readLink s.fresh).2 =
        (shortTarget s.volumes ⟨(s.nodes node).vol, child⟩).2.takeWhile (· ≠ 0) := by
  have hself : (s.enter root node child).nodes s.fresh =
      ⟨(s.nodes node).vol, child, some node⟩ := by simp
  unfold readLink readNode volOf shortTarget after
  simp only [kfree_volumes, hself, enter_volumes, and_self]

theorem type_of_descend {name rest : List UInt8} {cs : List (List UInt8 × List UInt8)}
    {child : Node}
    (hstray : ∀ q name', descend vols p ((name, rest) :: cs) = .stray q name' → (vols
      q.vol).opLookup q.node name' = none) (hlook : (vols p.vol).opLookup p.node name = some child) :
    p.node.type = .directory := by
  by_contra hdir
  have := hstray p name (by rw [descend, if_pos hdir])
  rw [hlook] at this
  cases this

theorem descend_cons {name rest : List UInt8} {cs : List (List UInt8 × List UInt8)} {child : Node}
    (hstray : ∀ q name', descend vols p ((name, rest) :: cs) = .stray q name' → (vols
      q.vol).opLookup q.node name' = none) (hlook : (vols p.vol).opLookup p.node name = some child) :
    descend vols p ((name, rest) :: cs) = if child.type = .symlink then .link ⟨p.vol, child⟩ rest
      else descend vols ⟨p.vol, child⟩ cs := by
  rw [descend, if_neg (not_not.mpr (type_of_descend hstray hlook)), hlook]

theorem Walks.follows {root node : ℕ} {cur : List UInt8} {res : State × Walked}
    (h : Walks root true s node cur res) (hnode : node < s.fresh) (hhead : cur.head? ≠ some slash)
    (hstray : ∀ p name, descend s.volumes (s.place node) (components slash cur) = .stray p name →
      (s.volumes p.vol).opLookup p.node name = none) :
    Follows s.volumes (descend s.volumes (s.place node) (components slash cur)) res.1 res.2 := by
  induction h with
  | done s node => exact ⟨rfl, by rw [components_nil, descend]⟩
  | long | missing => trivial
  | @link s node cur child hne hlen hlook htype hfollow =>
    rw [components_of_head hne hhead] at hstray ⊢
    rw [descend_cons hstray hlook, if_pos htype]
    unfold turnAt
    split_ifs
    · trivial
    obtain ⟨hvols, htarget⟩ := State.readLink_shortTarget s root node child
    exact ⟨_, _, rfl, hvols, by rw [htarget]; rfl⟩
  | @next s node cur child res hne hlen hlook hstay hrest ih =>
    have htype : child.type ≠ .symlink := fun ht => hstay ⟨ht, .inr rfl⟩
    have hplace : (s.enter root node child).place s.fresh = ⟨(s.nodes node).vol, child⟩ := by
      simp [State.place]
    rw [components_of_head hne hhead] at hstray ⊢
    have hdown := descend_cons hstray hlook
    rw [if_neg htype] at hdown
    rw [hdown] at hstray ⊢
    have hnext := ih (by simp) (head_dropWhile_sep _)
    rw [State.enter_volumes, hplace, components_dropWhile_sep] at hnext
    exact hnext hstray

theorem combined_eq_iff {rest : List UInt8} :
    combined ((shortTarget vols p).2.takeWhile (· ≠ 0)) rest = (target vols p).2 ++ rest ↔
      (target vols p).2.length ≤ 250 ∧ 0 ∉ (target vols p).2 ∧
        (target vols p).2.length + rest.length ≤ 299 := by
  constructor
  · intro h
    have hlen := congrArg length h
    simp only [combined, length_take, length_append] at hlen
    have hshort : (target vols p).2.length ≤ 250 := by omega
    rw [shortTarget_eq hshort] at hlen
    have hle : ((target vols p).2.takeWhile (· ≠ 0)).length ≤ (target vols p).2.length :=
      ( takeWhile_prefix _).length_le
    refine ⟨hshort, fun hzero => ?_, by omega⟩
    have hall := takeWhile_eq_self_iff.mp
      (( takeWhile_prefix _).eq_of_length (show ((target vols p).2.takeWhile (· ≠ 0)).length =
        (target vols p).2.length by omega)) 0 hzero
    simp at hall
  · rintro ⟨hshort, hzero, hlen⟩
    have htake : (target vols p).2.takeWhile (· ≠ 0) = (target vols p).2 := by
      refine takeWhile_eq_self_iff.mpr fun b hb => ?_
      simp only [decide_eq_true_eq]
      rintro rfl
      exact hzero hb
    rw [shortTarget_eq hshort, combined, htake, take_of_length_le hshort,
      take_of_length_le (by simp; omega)]

theorem State.trail_head {s' : State} {n : ℕ} (h : lookupImpl true rounds s path = (s', some n)) :
    ∃ m tl, s.trail rounds path = (m, path) :: tl := by
  cases rounds with
  | zero => cases h
  | succ rounds =>
    unfold lookupImpl at h
    unfold trail
    split_ifs at h with habs
    · cases h
    rw [if_neg habs]
    cases hm : bestMount s.mounts path with
    | none =>
      rw [hm] at h
      cases h
    | some m => exact ⟨m, _, rfl⟩

theorem resolveTrail_head {mounts : List Mount} {root : ℕ → Place} {e : Mount × List UInt8}
    {tl : List (Mount × List UInt8)} (h : resolveTrail mounts root rounds vols path = e :: tl) :
    e.2 = path := by
  cases rounds with
  | zero => cases h
  | succ rounds =>
    unfold resolveTrail at h
    split_ifs at h
    cases hm : mountFor mounts path with
    | none =>
      rw [hm] at h
      cases h
    | some m =>
      rw [hm] at h
      cases h
      rfl

theorem Follows.place_or_link {found : Found} {w : Walked} (h : Follows vols found s w)
    (hw : w ≠ .found none) :
    (∃ p, found = .place p) ∨ ∃ p rest, found = .link p rest := by
  match w with
  | .found none => exact absurd rfl hw
  | .found (some n) => exact .inl ⟨_, h.2⟩
  | .hop path =>
    obtain ⟨p, rest, hfound, -⟩ := h
    exact .inr ⟨p, rest, hfound⟩

theorem State.round_faithful {s1 s' : State} {n : ℕ} {found : Found} {w : Walked}
    {mounts : List Mount} {root : ℕ → Place}
    (h : (match w with | .found k => (s1, k) | .hop next => lookupImpl true rounds s1 next) = (s',
      some n))
    (hdown : (∀ p name, found = .stray p name → (vols p.vol).opLookup p.node name = none) → Follows
      vols found s1 w)
    (ih : ∀ next, lookupImpl true rounds s1 next = (s', some n) → ((s1.trail rounds next =
      resolveTrail mounts root rounds s1.volumes next ∧ resolve mounts root rounds s1.volumes next
      = (s'.volumes, some (s'.place n))) ↔ Clean mounts root rounds s1.volumes next)) :
    (w.trail (s1.trail rounds) = found.trail vols (resolveTrail mounts root rounds) ∧
      found.result vols (resolve mounts root rounds) = (s'.volumes, some (s'.place n))) ↔
        found.Fits vols (Clean mounts root rounds) := by
  have hw : w ≠ .found none := by
    rintro rfl
    cases h
  cases found with
  | missing =>
    obtain ⟨p, hp⟩ | ⟨p, rest, hp⟩ := (hdown fun _ _ hf => by cases hf).place_or_link hw
    · cases hp
    · cases hp
  | stray p name =>
    refine ⟨fun hboth => by simp [Found.result] at hboth, fun hfits => ?_⟩
    obtain ⟨p, hp⟩ | ⟨p, rest, hp⟩ :=
      (hdown fun _ _ hf => by cases hf; exact hfits).place_or_link hw
    · cases hp
    · cases hp
  | place p =>
    have hfollows := hdown fun _ _ hf => by cases hf
    match w with
    | .found (some k) =>
      cases h
      obtain ⟨hvols, hp⟩ := hfollows
      refine ⟨fun _ => trivial, fun _ => ⟨rfl, ?_⟩⟩
      rw [hvols, ← Found.place.inj hp, Found.result]
    | .hop next =>
      obtain ⟨_, _, hp, -⟩ := hfollows
      cases hp
  | link p rest =>
    have hfollows := hdown fun _ _ hf => by cases hf
    match w with
    | .found (some k) => cases hfollows.2
    | .hop next =>
      obtain ⟨q, rest', hq, hvols, hnext⟩ := hfollows
      cases hq
      dsimp only at h ⊢
      by_cases hfits : combined ((shortTarget vols p).2.takeWhile (· ≠ 0)) rest =
          (target vols p).2 ++ rest
      · have hconds := combined_eq_iff.mp hfits
        rw [hfits] at hnext
        rw [shortTarget_eq hconds.1] at hvols
        rw [Found.Fits, Found.trail, Found.result, ← hvols, ← hnext, and_iff_right hconds]
        exact ih next h
      · refine ⟨fun hboth => ?_, fun hclean => absurd (combined_eq_iff.mpr hclean.1) hfits⟩
        obtain ⟨m, tl, hhead⟩ := trail_head h
        rw [Walked.trail, hhead, Found.trail] at hboth
        exact absurd (hnext.symm.trans (resolveTrail_head hboth.1.symm)) hfits

theorem State.lookupImpl_faithful {root : ℕ → Place} (hlive : ∀ m ∈ s.mounts, m.root < s.fresh)
    (hroot : ∀ m ∈ s.mounts, s.place m.root = root m.root) {s' : State} {n : ℕ}
    (h : lookupImpl true rounds s path = (s', some n)) :
    (s.trail rounds path = resolveTrail s.mounts root rounds s.volumes path ∧
      resolve s.mounts root rounds s.volumes path = (s'.volumes, some (s'.place n))) ↔
        Clean s.mounts root rounds s.volumes path := by
  induction rounds generalizing s path with
  | zero => cases h
  | succ rounds ih =>
    unfold lookupImpl at h
    split_ifs at h with habs
    · cases h
    cases hm : bestMount s.mounts path with
    | none =>
      rw [hm] at h
      cases h
    | some m =>
      have hmem := bestMount_mem hm
      rw [hm] at h
      dsimp only at h
      have hlen : ((path.drop m.mountpoint.length).dropWhile (· = slash)).length ≤ path.length :=
        (dropWhile_suffix _).length_le.trans (by simp)
      have hwalk : Walks m.root true s m.root _ (walk m.root true path.length s _ _) :=
        walk_walks hlen (head_dropWhile_sep _)
      have hext := hwalk.extends
      have hdown := hwalk.follows (hlive m hmem) (head_dropWhile_sep _)
      rw [components_dropWhile_sep, hroot m hmem] at hdown
      unfold trail resolveTrail resolve Clean
      rw [if_neg habs, if_neg habs, if_neg habs, hm]
      by_cases hwhole : WholePrefix m.mountpoint path
      · rw [mountFor_eq hm hwhole]
        simp only [Option.mem_def, Option.some.injEq, forall_eq', hwhole, true_and, cons.injEq]
        refine round_faithful h hdown fun next hnext => ?_
        have hold : ∀ k ∈ (walk m.root true path.length s m.root _).1.mounts, k ∈ s.mounts :=
          fun k hk => hext.mounts ▸ hk
        rw [← hext.mounts]
        refine ih (fun k hk => (hlive k (hold k hk)).trans_le hext.fresh) (fun k hk => ?_) hnext
        rw [place, hext.nodes _ (hlive k (hold k hk))]
        exact hroot k (hold k hk)
      have hnot : ¬ ∀ k ∈ some m, WholePrefix k.mountpoint path := fun hall => hwhole (hall m rfl)
      refine ⟨fun hboth => ?_, fun hclean => absurd hclean.1 hnot⟩
      cases hf : mountFor s.mounts path with
      | none =>
        rw [hf] at hboth
        simp at hboth
      | some k =>
        have hk := (mem_filter.mp (argmax_mem hf)).2
        simp only [decide_eq_true_eq] at hk
        rw [hf] at hboth
        obtain ⟨htrail, -⟩ := hboth
        obtain ⟨hmk, -⟩ := cons.inj htrail
        rw [← (Prod.mk.inj hmk).1] at hk
        exact absurd hk.2 hwhole

/-- For every mount table and every path for which `vfs_lookup` returns a node: it is the node of
the reference resolver, reached by way of the same mounts and paths, exactly when the path meets
the condition. -/
theorem State.lookup_faithful_iff {s s' : State} {path : List UInt8} {n : ℕ}
    (hlive : ∀ m ∈ s.mounts, m.root < s.fresh) (h : s.lookup path = (s', some n)) :
    s.Faithful path s' n ↔ Clean s.mounts s.place 9 s.volumes path :=
  lookupImpl_faithful hlive (fun _ _ => rfl) h

/-- A file `x` on the second of two volumes, the first mounted at `/` and the second at `/mnt`. -/
def twoVolumes : State :=
  let fs := Exfs.run sampleFs [.create 0 [120] 0 0 0]
  { volumes := fun v => if v = 0 then sampleMount.1 else fs.vol
    nodes := fun n => if n = 0 then ⟨0, sampleMount.2, none⟩ else ⟨1, fs.nodes.getD 0 freshRoot, none⟩
    fresh := 2
    released := []
    mounts := [⟨[47], 0⟩, ⟨[47, 109, 110, 116], 1⟩]
    fds := fun _ => none
    cwd := none }

theorem twoVolumes_lookup : (twoVolumes.lookup [47, 109, 110, 116, 47, 120]).2 = some 2 ∧
    twoVolumes.Faithful [47, 109, 110, 116, 47, 120]
      (twoVolumes.lookup [47, 109, 110, 116, 47, 120]).1 2 := by
  have h : (twoVolumes.lookup [47, 109, 110, 116, 47, 120]).2 = some 2 := by decide +kernel
  have hclean : Clean twoVolumes.mounts twoVolumes.place 9 twoVolumes.volumes
      [47, 109, 110, 116, 47, 120] := by decide +kernel
  exact ⟨h, (State.lookup_faithful_iff (by decide)
    (Prod.mk.eta.symm.trans (congrArg (Prod.mk _) h))).mpr hclean⟩

/-- `/mntx` on the first volume does not exist, but the code finds `x` on the second. -/
theorem twoVolumes_strays : (twoVolumes.lookup [47, 109, 110, 116, 120]).2 = some 2 ∧
    ((twoVolumes.lookup [47, 109, 110, 116, 120]).1.place 2).vol = 1 ∧
    (resolve twoVolumes.mounts twoVolumes.place 9 twoVolumes.volumes
      [47, 109, 110, 116, 120]).2.isNone := by
  decide +kernel

end Exploidus.Vfs
