import Mathlib.Data.List.Basic

/-! The components of a list with a separator: its maximal runs of other elements. -/
namespace Components
open List
variable {α : Type*} [DecidableEq α] (sep : α)

/-- The components from a position on, each with what follows it; `inside` says that the position
lies in a component that has been listed already. -/
def componentsFrom : Bool → List α → List (List α × List α)
  | _, [] => []
  | inside, b :: bs =>
    if b = sep then componentsFrom false bs
    else if inside then componentsFrom true bs
    else (b :: bs.takeWhile (· ≠ sep), bs.dropWhile (· ≠ sep)) :: componentsFrom true bs

/-- The components of a list, each with what follows it. -/
def components (l : List α) : List (List α × List α) := componentsFrom sep false l

variable {sep}

@[simp] theorem components_nil : components sep [] = [] := rfl

@[simp] theorem components_dropWhile_sep (l : List α) :
    components sep (l.dropWhile (· = sep)) = components sep l := by
  induction l with
  | nil => rfl
  | cons b bs ih =>
    by_cases hb : b = sep
    · rw [dropWhile_cons_of_pos (by simpa using hb), ih]
      simp [components, componentsFrom, hb]
    · rw [dropWhile_cons_of_neg (by simpa using hb)]

theorem componentsFrom_true (l : List α) :
    componentsFrom sep true l = components sep (l.dropWhile (· ≠ sep)) := by
  induction l with
  | nil => rfl
  | cons b bs ih =>
    by_cases hb : b = sep
    · rw [dropWhile_cons_of_neg (by simpa using hb)]
      simp [components, componentsFrom, hb]
    · rw [dropWhile_cons_of_pos (by simpa using hb), ← ih]
      simp [componentsFrom, hb]

/-- A list that starts with no separator starts with its first component. -/
theorem components_of_head {l : List α} (hne : l ≠ []) (hhead : l.head? ≠ some sep) :
    components sep l = (l.takeWhile (· ≠ sep), l.dropWhile (· ≠ sep)) ::
      components sep (l.dropWhile (· ≠ sep)) := by
  cases l with
  | nil => exact absurd rfl hne
  | cons b bs =>
    have hb : b ≠ sep := by simpa using hhead
    rw [takeWhile_cons_of_pos (by simpa using hb),
      dropWhile_cons_of_pos (by simpa using hb), ← componentsFrom_true]
    simp [components, componentsFrom, hb]

theorem head_dropWhile_sep (l : List α) : (l.dropWhile (· = sep)).head? ≠ some sep := by
  induction l with
  | nil => simp
  | cons b bs ih =>
    by_cases hb : b = sep
    · rwa [dropWhile_cons_of_pos (by simpa using hb)]
    rw [dropWhile_cons_of_neg (by simpa using hb)]
    simpa using hb

/-- What follows the first component is shorter. -/
theorem length_dropWhile_lt {l : List α} (hne : l ≠ []) (hhead : l.head? ≠ some sep) :
    (l.dropWhile (· ≠ sep)).length < l.length := by
  cases l with
  | nil => exact absurd rfl hne
  | cons b bs =>
    have hb : b ≠ sep := by simpa using hhead
    rw [dropWhile_cons_of_pos (by simpa using hb)]
    exact Nat.lt_succ_of_le (dropWhile_suffix _).length_le

end Components
