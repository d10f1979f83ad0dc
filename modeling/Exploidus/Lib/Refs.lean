import Mathlib.Tactic

/-! References held in slots, 0 meaning an empty slot: ownership (no two slots hold the same
reference) and forests of references read through tables of bounded depth. -/
namespace Refs
open Function
variable {ι : Type*} {f g : ι → ℕ} {ok ok' : ℕ → Prop}

/-- No two slots hold the same reference, and every reference held is `ok`. -/
structure Owned (f : ι → ℕ) (ok : ℕ → Prop) : Prop where
  unique : ∀ {a b}, f a ≠ 0 → f a = f b → a = b
  ok : ∀ {a}, f a ≠ 0 → ok (f a)

/-- Emptying slots keeps ownership. -/
theorem Owned.sub (h : Owned f ok) (hg : ∀ a, g a = 0 ∨ g a = f a) : Owned g ok := by
  refine ⟨fun {a b} ha hab => ?_, fun {a} ha => ?_⟩
  · have hb : g b ≠ 0 := hab ▸ ha
    have hfa := (hg a).resolve_left ha
    have hfb := (hg b).resolve_left hb
    exact h.unique (hfa ▸ ha) (by rw [← hfa, ← hfb, hab])
  · have hfa := (hg a).resolve_left ha
    rw [hfa]
    exact h.ok (hfa ▸ ha)

theorem Owned.mono (h : Owned f ok) (hok : ∀ a, f a ≠ 0 → ok (f a) → ok' (f a)) : Owned f ok' :=
  ⟨h.unique, fun {a} ha => hok a ha (h.ok ha)⟩

/-- A slot may receive a reference that no slot holds. -/
theorem Owned.update [DecidableEq ι] (h : Owned f ok) {a : ι} {v : ℕ} (hfresh : ∀ b, f b ≠ v)
    (hv : ok v) : Owned (update f a v) ok := by
  refine ⟨fun {b c} hb hbc => ?_, fun {b} hb => ?_⟩
  · by_cases hba : b = a
    · by_cases hca : c = a
      · rw [hba, hca]
      rw [hba, update_self, update_of_ne hca] at hbc
      exact absurd hbc.symm (hfresh c)
    rw [update_of_ne hba] at hb hbc
    by_cases hca : c = a
    · rw [hca, update_self] at hbc
      exact absurd hbc (hfresh b)
    · rw [update_of_ne hca] at hbc
      exact h.unique hb hbc
  · by_cases hba : b = a
    · rwa [hba, update_self]
    rw [update_of_ne hba] at hb ⊢
    exact h.ok hb

section Forest
variable {ρ : Type*}

/-- Entry `j` of table `t`; there is no table 0. -/
def slot (tab : ℕ → ℕ → ℕ) (t j : ℕ) : ℕ := if t = 0 then 0 else tab t j

@[simp] theorem slot_zero (tab : ℕ → ℕ → ℕ) (j : ℕ) : slot tab 0 j = 0 := if_pos rfl

theorem slot_of_ne {tab : ℕ → ℕ → ℕ} {t : ℕ} (h : t ≠ 0) (j : ℕ) : slot tab t j = tab t j :=
  if_neg h

/-- The reference at the end of a path below root `r`, innermost index first; the tables below
`r` are `depth r` levels deep. -/
def refAt (depth root : ρ → ℕ) (tab : ℕ → ℕ → ℕ) (r : ρ) : List ℕ → ℕ
  | [] => root r
  | j :: p => if p.length < depth r then slot tab (refAt depth root tab r p) j else 0

/-- The references of a forest, indexed by root and path. -/
def ref (depth root : ρ → ℕ) (tab : ℕ → ℕ → ℕ) (s : ρ × List ℕ) : ℕ :=
  refAt depth root tab s.1 s.2

variable {depth root root' : ρ → ℕ} {tab tab' : ℕ → ℕ → ℕ}

@[simp] theorem ref_nil (r : ρ) : ref depth root tab (r, []) = root r := rfl

theorem ref_cons (r : ρ) (j : ℕ) (p : List ℕ) : ref depth root tab (r, j :: p) =
    if p.length < depth r then slot tab (ref depth root tab (r, p)) j else 0 := rfl

variable {p : List ℕ} {r : ρ}

theorem ref_cons_of_lt (h : p.length < depth r) (j : ℕ) :
    ref depth root tab (r, j :: p) = slot tab (ref depth root tab (r, p)) j := if_pos h

theorem ref_cons_of_eq_zero (h : ref depth root tab (r, p) = 0) (j : ℕ) :
    ref depth root tab (r, j :: p) = 0 := by
  rw [ref_cons, h, slot_zero, ite_self]

/-- Nothing lies below an empty reference. -/
theorem ref_of_suffix_eq_zero {q : List ℕ} (h : ref depth root tab (r, p) = 0) (hq : p <:+ q) :
    ref depth root tab (r, q) = 0 := by
  obtain ⟨l, rfl⟩ := hq
  induction l with
  | nil => exact h
  | cons j l ih => exact ref_cons_of_eq_zero ih j

/-- A forest depends only on the tables it passes through. -/
theorem ref_congr (h : ∀ r p, p.length < depth r → ref depth root tab (r, p) ≠ 0 →
      ∀ j, tab' (ref depth root tab (r, p)) j = tab (ref depth root tab (r, p)) j) :
    ref depth root tab' = ref depth root tab := by
  have hp : ∀ p r, ref depth root tab' (r, p) = ref depth root tab (r, p) := by
    intro p
    induction p with
    | nil => exact fun r => rfl
    | cons j p ih =>
      intro r
      rw [ref_cons, ref_cons, ih r]
      by_cases hlt : p.length < depth r
      · rw [if_pos hlt, if_pos hlt]
        by_cases h0 : ref depth root tab (r, p) = 0
        · rw [h0, slot_zero, slot_zero]
        · rw [slot_of_ne h0, slot_of_ne h0, h r p hlt h0 j]
      · rw [if_neg hlt, if_neg hlt]
  exact funext fun s => hp s.2 s.1

/-- Emptying roots empties references and changes none. -/
theorem ref_sub (h : ∀ r, root' r = 0 ∨ root' r = root r) (s : ρ × List ℕ) :
    ref depth root' tab s = 0 ∨ ref depth root' tab s = ref depth root tab s := by
  obtain ⟨r, p⟩ := s
  induction p with
  | nil => exact h r
  | cons j p ih =>
    rcases ih with h0 | heq
    · exact .inl (ref_cons_of_eq_zero h0 j)
    right
    rw [ref_cons, ref_cons, heq]

theorem ref_of_root_eq (h : root' r = root r) (p : List ℕ) :
    ref depth root' tab (r, p) = ref depth root tab (r, p) := by
  induction p with
  | nil => exact h
  | cons j p ih => rw [ref_cons, ref_cons, ih]

theorem ref_of_root_eq_zero (h : root r = 0) (p : List ℕ) : ref depth root tab (r, p) = 0 := by
  have h' : ref depth root tab (r, []) = 0 := h
  exact ref_of_suffix_eq_zero h' List.nil_suffix

variable [DecidableEq ρ]

/-- An empty root that receives an empty table, or a leaf, adds one reference. -/
theorem ref_update_root {v : ℕ} (h0 : root r = 0) (hv : 0 < depth r → ∀ j, tab v j = 0) :
    ref depth (update root r v) tab = update (ref depth root tab) (r, []) v := by
  have hbelow : ∀ p j, ref depth (update root r v) tab (r, j :: p) = 0 := by
    intro p
    induction p with
    | nil =>
      intro j
      rw [ref_cons, ref_nil, update_self]
      split_ifs with hlt
      · unfold slot
        split_ifs with hz
        · rfl
        · exact hv hlt j
      · rfl
    | cons i p ih => exact fun j => ref_cons_of_eq_zero (ih i) j
  funext s
  obtain ⟨r', p⟩ := s
  by_cases hr : r' = r
  · subst hr
    cases p with
    | nil => simp
    | cons j p =>
      rw [update_of_ne (by simp), hbelow, ref_of_root_eq_zero h0]
  · rw [update_of_ne (by simp [hr]), ref_of_root_eq (update_of_ne hr v root)]

omit [DecidableEq ρ] in
private theorem below_ne {r' : ρ} {q : List ℕ} (i j : ℕ) (h : (r', q) ≠ (r, p)) :
    (r', j :: q) ≠ (r, i :: p) := by
  intro he
  obtain ⟨hr, hl⟩ := Prod.mk.inj he
  obtain ⟨-, hq⟩ := List.cons.inj hl
  exact h (by rw [hr, hq])

/-- An empty entry of a table of the forest that receives an empty table, or a leaf, adds one
reference. -/
theorem ref_update_entry {i v : ℕ} (hown : Owned (ref depth root tab) ok) (hlt : p.length < depth r)
    (ht : ref depth root tab (r, p) ≠ 0) (h0 : tab (ref depth root tab (r, p)) i = 0)
    (hv : p.length + 1 < depth r → ∀ j, tab' v j = 0) (hi : tab' (ref depth root tab (r, p)) i = v)
    (hne : ∀ j ≠ i, tab' (ref depth root tab (r, p)) j = tab (ref depth root tab (r, p)) j)
    (hother : ∀ r' p', p'.length < depth r' → ref depth root tab (r', p') ≠ 0 → ref depth root tab
      (r', p') ≠ ref depth root tab (r, p) → ∀ j, tab' (ref depth root tab (r', p')) j = tab (ref
      depth root tab (r', p')) j) :
    ref depth root tab' = update (ref depth root tab) (r, i :: p) v := by
  have hentry : ref depth root tab (r, i :: p) = 0 := by
    rw [ref_cons_of_lt hlt, slot_of_ne ht, h0]
  have hp : ∀ q r', ref depth root tab' (r', q) =
      update (ref depth root tab) (r, i :: p) v (r', q) := by
    intro q
    induction q with
    | nil =>
      intro r'
      rw [update_of_ne (by simp)]
      rfl
    | cons j q ih =>
      intro r'
      rw [ref_cons, ih r']
      by_cases hlen : q.length < depth r'
      · rw [if_pos hlen]
        by_cases hbelow : (r', q) = (r, i :: p)
        · obtain ⟨rfl, rfl⟩ := Prod.mk.inj hbelow
          have hne' : (r', j :: i :: p) ≠ (r', i :: p) := by
            intro h
            have := congrArg List.length (Prod.mk.inj h).2
            simp at this
          rw [update_self, update_of_ne hne', ref_cons_of_eq_zero hentry]
          unfold slot
          split_ifs with hz
          · rfl
          · exact hv hlen j
        rw [update_of_ne hbelow]
        by_cases hz : ref depth root tab (r', q) = 0
        · have hne' := below_ne i j (fun he : (r', q) = (r, p) => ht (he ▸ hz))
          rw [hz, slot_zero, update_of_ne hne', ref_cons_of_eq_zero hz]
        rw [slot_of_ne hz]
        by_cases heq : ref depth root tab (r', q) = ref depth root tab (r, p)
        · obtain ⟨rfl, rfl⟩ := Prod.mk.inj (hown.unique hz heq)
          by_cases hj : j = i
          · subst hj
            rw [update_self, hi]
          · rw [update_of_ne (by simp [hj]), hne j hj, ref_cons_of_lt hlen, slot_of_ne hz]
        · have hne' := below_ne i j (fun he : (r', q) = (r, p) => heq (by rw [he]))
          rw [update_of_ne hne', hother r' q hlen hz heq j, ref_cons_of_lt hlen, slot_of_ne hz]
      · have hne' := below_ne i j (fun he : (r', q) = (r, p) => by
          obtain ⟨rfl, rfl⟩ := Prod.mk.inj he
          exact hlen hlt)
        rw [if_neg hlen, update_of_ne hne', ref_cons, if_neg hlen]
  exact funext fun s => hp s.2 s.1

end Forest

end Refs
