import Mathlib.Tactic

/-! Radix trees kept as tables in a flat memory. `next d e` is the table an entry `e` of a table at
depth `d` points to, if any; paths are written innermost index first. -/
namespace RadixTree
open Function Option
variable {α ι ε : Type*}

/-- The table at the end of a path from the root `r`. -/
def tab (next : ℕ → ε → Option α) (mem : α → ι → ε) (r : α) : List ι → Option α
  | [] => some r
  | i :: p => (tab next mem r p).bind fun t => next p.length (mem t i)

/-- The entry a path leads to. -/
def entry (next : ℕ → ε → Option α) (mem : α → ι → ε) (r : α) : List ι → Option ε
  | [] => none
  | i :: p => (tab next mem r p).map fun t => mem t i

def Unshared (next : ℕ → ε → Option α) (mem : α → ι → ε) (r : α) : Prop :=
  ∀ ⦃p q t⦄, tab next mem r p = some t → tab next mem r q = some t → p = q

/-- The tables of the tree. -/
def tables (next : ℕ → ε → Option α) (mem : α → ι → ε) (r : α) : Set α :=
  {t | ∃ p, tab next mem r p = some t}

/-- Memory with one entry replaced. -/
def set [DecidableEq α] [DecidableEq ι] (mem : α → ι → ε) (t : α) (i : ι) (e : ε) : α → ι → ε :=
  update mem t (update (mem t) i e)

section
variable {next : ℕ → ε → Option α} {mem mem' : α → ι → ε} {r t f : α} {p q : List ι} {i j : ι}
  {e z : ε}

@[simp] theorem tab_nil : tab next mem r [] = some r := rfl

theorem tab_cons : tab next mem r (i :: p) =
    (tab next mem r p).bind fun t => next p.length (mem t i) := rfl

theorem tab_cons_of (h : tab next mem r p = some t) :
    tab next mem r (i :: p) = next p.length (mem t i) := by
  rw [tab_cons, h, bind_some]

theorem entry_of (h : tab next mem r p = some t) : entry next mem r (i :: p) = some (mem t i) := by
  rw [entry, h, map_some]

theorem entry_of_none (h : tab next mem r p = none) : entry next mem r (i :: p) = none := by
  rw [entry, h, map_none]

theorem root_mem_tables : r ∈ tables next mem r := ⟨[], rfl⟩

theorem tab_congr (h : ∀ t ∈ tables next mem r, mem' t = mem t) (p : List ι) :
    tab next mem' r p = tab next mem r p := by
  induction p with
  | nil => rfl
  | cons i p ih =>
    rw [tab_cons, tab_cons, ih]
    cases hp : tab next mem r p with
    | none => rfl
    | some t => rw [bind_some, bind_some, h t ⟨p, hp⟩]

theorem entry_congr (h : ∀ t ∈ tables next mem r, mem' t = mem t) (p : List ι) :
    entry next mem' r p = entry next mem r p := by
  cases p with
  | nil => rfl
  | cons i p =>
    rw [entry, entry, tab_congr h]
    cases hp : tab next mem r p with
    | none => rfl
    | some t => rw [map_some, map_some, h t ⟨p, hp⟩]

theorem cons_ne_of_none (hp : tab next mem r p = some t) (hq : tab next mem r q = none) :
    ¬ j :: q = i :: p := by
  intro heq
  rw [(List.cons.inj heq).2, hp] at hq
  cases hq

theorem cons_cons_ne (hq : q = i :: p) : ¬ j :: q = i :: p := by
  rw [hq]
  exact fun heq => List.cons_ne_self i p (List.cons.inj heq).2

variable [DecidableEq α] [DecidableEq ι]

@[simp] theorem set_self : set mem t i e t i = e := by
  simp [set]

theorem set_index_ne (h : j ≠ i) : set mem t i e t j = mem t j := by
  simp [set, h]

theorem set_table_ne (h : f ≠ t) : set mem t i e f = mem f := by
  simp [set, h]

theorem set_of_ne (h : f ≠ t ∨ j ≠ i) : set mem t i e f j = mem f j := by
  by_cases hf : f = t
  · subst hf
    exact set_index_ne (h.resolve_left fun hne => hne rfl)
  · rw [set_table_ne hf]

/-! ### Replacing an entry -/

section
variable (h : Unshared next mem r) (hp : tab next mem r p = some t)
include h hp

theorem Unshared.set_apply (hq : tab next mem r q = some f) (j : ι) :
    set mem t i e f j = if j :: q = i :: p then e else mem f j := by
  split_ifs with heq
  · obtain ⟨rfl, rfl⟩ := List.cons.inj heq
    obtain rfl : t = f := some.inj (hp.symm.trans hq)
    exact set_self
  refine set_of_ne ?_
  by_contra hc
  push Not at hc
  obtain ⟨rfl, rfl⟩ := hc
  exact heq (by rw [h hp hq])

/-- Replacing an entry by one that points to the same table keeps all tables. -/
theorem Unshared.tab_set (he : next p.length e = next p.length (mem t i)) (q : List ι) :
    tab next (set mem t i e) r q = tab next mem r q := by
  induction q with
  | nil => rfl
  | cons j q ih =>
    rw [tab_cons, tab_cons, ih]
    cases hq : tab next mem r q with
    | none => rfl
    | some u =>
      rw [bind_some, bind_some, h.set_apply hp hq]
      split_ifs with heq
      · obtain ⟨rfl, rfl⟩ := List.cons.inj heq
        obtain rfl : t = u := some.inj (hp.symm.trans hq)
        exact he
      · rfl

/-- It replaces this entry and no other. -/
theorem Unshared.entry_set (he : next p.length e = next p.length (mem t i)) (q : List ι) :
    entry next (set mem t i e) r q = if q = i :: p then some e else entry next mem r q := by
  cases q with
  | nil => simp [entry]
  | cons j q =>
    rw [entry, entry, h.tab_set hp he]
    cases hq : tab next mem r q with
    | none =>
      rw [if_neg (cons_ne_of_none hp hq)]
      rfl
    | some u =>
      rw [map_some, map_some, h.set_apply hp hq]
      split_ifs <;> rfl

end

/-! ### Linking a new table -/

/-- Memory in which the entry `i` of `t` was pointed at a table `f` filled with `z`. -/
def link (mem : α → ι → ε) (t : α) (i : ι) (e : ε) (f : α) (z : ε) : α → ι → ε :=
  RadixTree.set (update mem f fun _ => z) t i e

theorem link_new (hft : f ≠ t) : link mem t i e f z f j = z := by
  rw [link, set_table_ne hft, update_self]


section
variable (h : Unshared next mem r) (hp : tab next mem r p = some t) (hf : f ∉ tables next mem r)
include h hp hf

theorem Unshared.link_apply {u : α} (hq : tab next mem r q = some u) (j : ι) :
    link mem t i e f z u j = if j :: q = i :: p then e else mem u j := by
  have hmem : ∀ {v s}, tab next mem r s = some v →
      update mem f (fun _ => z) v = mem v := fun {v s} hv =>
    update_of_ne (fun heq => hf ⟨s, hv.trans (congrArg some heq)⟩) _ _
  rw [← h.set_apply hp hq, RadixTree.link]
  unfold RadixTree.set
  by_cases hu : u = t
  · subst hu
    rw [update_self, update_self, hmem hq]
  · rw [update_of_ne hu, update_of_ne hu, hmem hq]

variable (hnone : next p.length (mem t i) = none) (he : next p.length e = some f)
  (hz : ∀ d, next d z = none)
include hnone he hz

/-- The new table is at the path of the entry; the others are where they were. -/
theorem Unshared.tab_link (q : List ι) :
    tab next (link mem t i e f z) r q = if q = i :: p then some f else tab next mem r q := by
  have hft : f ≠ t := fun heq => hf ⟨p, heq ▸ hp⟩
  induction q with
  | nil => simp
  | cons j q ih =>
    rw [tab_cons, ih]
    by_cases hq : q = i :: p
    · -- below the new table there is nothing, before and after
      rw [if_pos hq, if_neg (cons_cons_ne hq), bind_some, link_new hft, hz, hq, tab_cons,
        tab_cons_of hp, hnone, bind_none]
    rw [if_neg hq]
    cases hqt : tab next mem r q with
    | none =>
      rw [if_neg (cons_ne_of_none hp hqt), tab_cons, hqt, bind_none, bind_none]
    | some u =>
      rw [bind_some, h.link_apply hp hf hqt, tab_cons_of hqt]
      split_ifs with heq
      · rw [(List.cons.inj heq).2, he]
      · rfl

theorem Unshared.link : Unshared next (link mem t i e f z) r := by
  intro q q' u hq hq'
  rw [h.tab_link hp hf hnone he hz] at hq hq'
  have hfresh : ∀ s, tab next mem r s ≠ some f := fun s hs => hf ⟨s, hs⟩
  split at hq <;> split at hq'
  · rename_i h1 h2
    rw [h1, h2]
  · obtain rfl := some.inj hq
    exact absurd hq' (hfresh q')
  · obtain rfl := some.inj hq'
    exact absurd hq (hfresh q)
  · exact h hq hq'

theorem Unshared.tables_link :
    tables next (RadixTree.link mem t i e f z) r = insert f (tables next mem r) := by
  ext u
  simp only [tables, Set.mem_ofPred_eq, Set.mem_insert_iff, h.tab_link hp hf hnone he hz]
  constructor
  · rintro ⟨q, hq⟩
    split at hq
    · exact .inl (some.inj hq).symm
    · exact .inr ⟨q, hq⟩
  rintro (rfl | ⟨q, hq⟩)
  · exact ⟨i :: p, if_pos rfl⟩
  refine ⟨q, ?_⟩
  rw [if_neg, hq]
  rintro rfl
  rw [tab_cons_of hp, hnone] at hq
  cases hq

/-- The entry is replaced, and entries of the new table appear. -/
theorem Unshared.entry_link (q : List ι) : entry next (RadixTree.link mem t i e f z) r q =
      if q = i :: p then some e
      else if q.tail = i :: p then some z else entry next mem r q := by
  have hft : f ≠ t := fun heq => hf ⟨p, heq ▸ hp⟩
  cases q with
  | nil => simp [entry]
  | cons j q =>
    rw [entry, h.tab_link hp hf hnone he hz, List.tail_cons]
    by_cases hq : q = i :: p
    · rw [if_pos hq, if_neg (cons_cons_ne hq), if_pos hq, map_some, link_new hft]
    rw [if_neg hq, if_neg hq]
    cases hqt : tab next mem r q with
    | none => rw [if_neg (cons_ne_of_none hp hqt), map_none, entry_of_none hqt]
    | some u =>
      rw [map_some, entry_of hqt, h.link_apply hp hf hqt]
      split_ifs <;> rfl

end

end
end RadixTree
