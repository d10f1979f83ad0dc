import Mathlib.Tactic

/-! Texts as lists of lines, each ended by a separator. -/
namespace Lines
open List
variable {α : Type*} [DecidableEq α] {sep : α} {l rest : List α} {ls : List (List α)}

def unlines (sep : α) (ls : List (List α)) : List α := ls.flatMap (· ++ [sep])

def lines (sep : α) (text : List α) : List (List α) := (text.splitOn sep).filter (· ≠ [])

def IsLine (sep : α) (l : List α) : Prop := l ≠ [] ∧ sep ∉ l

omit [DecidableEq α] in
@[simp]
theorem unlines_nil : unlines sep ([] : List (List α)) = [] := rfl

omit [DecidableEq α] in
@[simp]
theorem unlines_append (ls ms : List (List α)) :
    unlines sep (ls ++ ms) = unlines sep ls ++ unlines sep ms := flatMap_append

omit [DecidableEq α] in
theorem unlines_cons : unlines sep (l :: ls) = l ++ sep :: unlines sep ls := by
  simp [unlines]

omit [DecidableEq α] in
theorem eq_nil_of_unlines_eq_nil (h : unlines sep ls = []) : ls = [] := by
  cases ls with
  | nil => rfl
  | cons l ls => simp [unlines_cons] at h

omit [DecidableEq α] in
/-- Leaving out lines makes a text no longer. -/
theorem length_unlines_filter_le (p : List α → Bool) (ls : List (List α)) :
    (unlines sep (ls.filter p)).length ≤ (unlines sep ls).length := by
  induction ls with
  | nil => exact le_rfl
  | cons l ls ih =>
    rw [filter_cons]
    split_ifs
    · simp only [unlines_cons, length_append, length_cons]
      omega
    · simp only [unlines_cons, length_append, length_cons]
      omega

@[simp]
theorem lines_nil : lines sep ([] : List α) = [] := by simp [lines]

theorem lines_cons_append (h : IsLine sep l) :
    lines sep (l ++ sep :: rest) = l :: lines sep rest := by
  have hsplit : (l ++ sep :: rest).splitOn sep = l :: rest.splitOn sep := by
    apply splitOnP_append_cons_of_forall_mem
    · intro x hx
      exact beq_eq_false_iff_ne.mpr fun he => h.2 (he ▸ hx)
    · exact beq_self_eq_true sep
  simp [lines, hsplit, h.1]

/-- The lines of a text that begins with lines. -/
theorem lines_unlines_append (h : ∀ l ∈ ls, IsLine sep l) (rest : List α) :
    lines sep (unlines sep ls ++ rest) = ls ++ lines sep rest := by
  induction ls with
  | nil => rfl
  | cons l ls ih =>
    rw [unlines_cons, append_assoc, cons_append, lines_cons_append (h l (mem_cons_self ..)),
      ih fun m hm => h m (mem_cons_of_mem _ hm), cons_append]

theorem lines_unlines (h : ∀ l ∈ ls, IsLine sep l) : lines sep (unlines sep ls) = ls := by
  have := lines_unlines_append h []
  rwa [append_nil, lines_nil, append_nil] at this

/-- All pieces of a text, empty ones included, give it back with one more separator. -/
theorem unlines_splitOn (text : List α) : unlines sep (text.splitOn sep) = text ++ [sep] := by
  induction text with
  | nil => simp [unlines]
  | cons x text ih =>
    rw [splitOn, splitOnP_cons_eq_if_modifyHead, ← splitOn]
    split_ifs with hx
    · rw [unlines_cons, ih, beq_iff_eq.mp hx]
      rfl
    rcases hs : text.splitOn sep with _ | ⟨m, ms⟩ <;> rw [hs] at ih
    · simp at ih
    rw [modifyHead_cons, unlines_cons, cons_append, ← unlines_cons, ih]
    rfl

/-- No line holds the separator. -/
theorem not_mem_of_mem_splitOn {text : List α} (h : l ∈ text.splitOn sep) : sep ∉ l := by
  induction text generalizing l with
  | nil =>
    rw [splitOn_nil, mem_singleton] at h
    simp [h]
  | cons x text ih =>
    rw [splitOn, splitOnP_cons_eq_if_modifyHead] at h
    split_ifs at h with hx
    · rcases mem_cons.mp h with rfl | h
      · exact not_mem_nil
      · exact ih h
    rcases hs : text.splitOn sep with _ | ⟨m, ms⟩
    · rw [← splitOn, hs] at h
      cases h
    rw [← splitOn, hs, modifyHead_cons] at h
    rcases mem_cons.mp h with rfl | h
    · have hm : sep ∉ m := ih (hs ▸ mem_cons_self ..)
      have hne : sep ≠ x := fun he => hx (beq_iff_eq.mpr he.symm)
      exact not_mem_cons_of_ne_of_not_mem hne hm
    · exact ih (hs ▸ mem_cons_of_mem _ h)

end Lines
