import Mathlib.Computability.Language
import Mathlib.Tactic

/-! The commands of the shell. A string is the list of its bytes before the NUL. -/
namespace Exploidus.Shell
open List

/-! ### Glob patterns -/

def star : UInt8 := 42

/-- The search of `_str_match` after a star: what is left of the pattern is tried at each byte. -/
def anyFrom (found : List UInt8 → Bool) : List UInt8 → Bool
  | [] => false
  | c :: str => found (c :: str) || anyFrom found str

/-- `_str_match`. -/
def strMatch : List UInt8 → List UInt8 → Bool
  | [], str => str.isEmpty
  | p :: pat, [] => ((p :: pat).dropWhile (· = star)).isEmpty
  | p :: pat, c :: str =>
    if p = star then pat.isEmpty || anyFrom (strMatch pat) (c :: str)
    else p = c && strMatch pat str

/-- The strings of a pattern: a star stands for any string, every other byte for itself. -/
def globLanguage (pat : List UInt8) : Language UInt8 :=
  (pat.map fun p => if p = star then ⊤ else {[p]}).prod

section
variable {pat str : List UInt8} {p c : UInt8}

theorem mem_globLanguage_nil : str ∈ globLanguage [] ↔ str = [] := Iff.rfl

theorem mem_globLanguage_star :
    str ∈ globLanguage (star :: pat) ↔ ∃ v, v <:+ str ∧ v ∈ globLanguage pat := by
  simp only [globLanguage, map_cons, prod_cons, if_true, Language.mem_mul]
  constructor
  · rintro ⟨u, -, v, hv, rfl⟩
    exact ⟨v, suffix_append u v, hv⟩
  · rintro ⟨v, ⟨u, rfl⟩, hv⟩
    exact ⟨u, trivial, v, hv, rfl⟩

theorem mem_globLanguage_cons (hp : p ≠ star) :
    str ∈ globLanguage (p :: pat) ↔ ∃ v ∈ globLanguage pat, str = p :: v := by
  simp only [globLanguage, map_cons, prod_cons, if_neg hp, Language.mem_mul]
  constructor
  · rintro ⟨_, rfl, v, hv, rfl⟩
    exact ⟨v, hv, rfl⟩
  · rintro ⟨v, hv, rfl⟩
    exact ⟨[p], rfl, v, hv, rfl⟩

theorem nil_mem_globLanguage : [] ∈ globLanguage pat ↔ (pat.dropWhile (· = star)).isEmpty := by
  induction pat with
  | nil => simp [mem_globLanguage_nil]
  | cons p pat ih =>
    by_cases hp : p = star
    · simp [hp, mem_globLanguage_star, ih]
    · simp [hp, mem_globLanguage_cons hp]

/-- A pattern that has the empty string and is not empty has every string. -/
theorem mem_globLanguage_of_nil (h : [] ∈ globLanguage (p :: pat)) :
    str ∈ globLanguage (p :: pat) := by
  by_cases hp : p = star
  · rw [hp, mem_globLanguage_star] at h ⊢
    obtain ⟨v, hv, hmem⟩ := h
    exact ⟨v, hv.trans nil_suffix, hmem⟩
  · simp [mem_globLanguage_cons hp] at h

theorem anyFrom_iff {found : List UInt8 → Bool} :
    anyFrom found str ↔ ∃ v, v <:+ str ∧ v ≠ [] ∧ found v := by
  induction str with
  | nil => simp +contextual [anyFrom]
  | cons c str ih =>
    simp only [anyFrom, Bool.or_eq_true, ih, suffix_cons_iff, or_and_right, exists_or,
      exists_eq_left]
    simp

end

/-- `_str_match` accepts just the strings of the pattern. -/
theorem strMatch_iff (pat str : List UInt8) : strMatch pat str ↔ str ∈ globLanguage pat := by
  induction pat generalizing str with
  | nil => simp [strMatch, mem_globLanguage_nil]
  | cons p pat ih =>
    cases str with
    | nil => rw [strMatch, nil_mem_globLanguage]
    | cons c str =>
      by_cases hp : p = star
      · rw [strMatch, if_pos hp, hp, mem_globLanguage_star, Bool.or_eq_true, anyFrom_iff]
        simp only [ih]
        constructor
        · rintro (hpat | ⟨v, hv, -, hmem⟩)
          · rw [isEmpty_iff.mp hpat]
            exact ⟨[], nil_suffix, rfl⟩
          · exact ⟨v, hv, hmem⟩
        · rintro ⟨v, hv, hmem⟩
          cases v with
          | cons b v => exact .inr ⟨b :: v, hv, by simp, hmem⟩
          | nil =>
            cases pat with
            | nil => exact .inl rfl
            | cons q pat =>
              exact .inr ⟨c :: str, suffix_rfl, by simp, mem_globLanguage_of_nil hmem⟩
      · rw [strMatch, if_neg hp, mem_globLanguage_cons hp, Bool.and_eq_true, ih]
        aesop

end Exploidus.Shell
