import Mathlib.Tactic

/-! Singly linked lists threaded through one `next` pointer per element. -/
namespace Linked
open Function List
variable {ι : Type*}

/-- Following `next` from `head` visits the elements of the list and ends. -/
def Chain (next : ι → Option ι) : Option ι → List ι → Prop
  | head, [] => head = none
  | head, a :: l => head = some a ∧ Chain next (next a) l

section
variable {next next' : ι → Option ι} {head : Option ι} {l l' pre post : List ι} {a p z : ι}

theorem Chain.unique (h : Chain next head l) (h' : Chain next head l') : l = l' := by
  induction l generalizing head l' with
  | nil =>
    cases l' with
    | nil => rfl
    | cons a l' =>
      obtain rfl : head = none := h
      cases h'.1
  | cons a l ih =>
    cases l' with
    | nil =>
      obtain rfl : head = none := h'
      cases h.1
    | cons b l' =>
      obtain rfl : a = b := Option.some.inj (h.1.symm.trans h'.1)
      rw [ih h.2 h'.2]

theorem Chain.split (h : Chain next head (pre ++ post)) : ∃ head', Chain next head' post := by
  induction pre generalizing head with
  | nil => exact ⟨head, h⟩
  | cons a pre ih => exact ih h.2

theorem Chain.after (h : Chain next head (pre ++ a :: post)) : Chain next (next a) post := by
  obtain ⟨_, h'⟩ := h.split
  exact h'.2

/-- A list that ends visits no element twice. -/
theorem Chain.nodup (h : Chain next head l) : l.Nodup := by
  induction l generalizing head with
  | nil => exact nodup_nil
  | cons a l ih =>
    refine nodup_cons.mpr ⟨fun hmem => ?_, ih h.2⟩
    obtain ⟨pre, post, rfl⟩ := append_of_mem hmem
    have hpost : Chain next (next a) post := h.2.after
    have := congrArg length (h.2.unique hpost)
    simp at this
    omega

theorem Chain.congr (h : Chain next head l) (hn : ∀ a ∈ l, next' a = next a) :
    Chain next' head l := by
  induction l generalizing head with
  | nil => exact h
  | cons a l ih =>
    refine ⟨h.1, ?_⟩
    rw [hn a (by simp)]
    exact ih h.2 fun b hb => hn b (by simp [hb])

theorem Chain.head_eq (h : Chain next head l) : head = l.head? := by
  cases l with
  | nil => exact h
  | cons a l => exact h.1

variable [DecidableEq ι]

theorem Chain.update (h : Chain next head l) (ha : a ∉ l) (v : Option ι) :
    Chain (update next a v) head l :=
  h.congr fun b hb => update_of_ne (by rintro rfl; exact ha hb) _ _

/-- Hanging an element on the last one appends it. -/
theorem Chain.snoc (h : Chain next head (l ++ [z])) (hp : p ∉ l ++ [z]) (hnil : next p = none) :
    Chain (Function.update next z (some p)) head (l ++ [z] ++ [p]) := by
  have hnodup := h.nodup
  induction l generalizing head with
  | nil =>
    have hpz : p ≠ z := by
      rintro rfl
      simp at hp
    refine ⟨h.1, ?_, ?_⟩
    · rw [update_self]
    rwa [update_of_ne hpz]
  | cons a l ih =>
    have haz : a ≠ z := by
      rintro rfl
      simp at hnodup
    refine ⟨h.1, ?_⟩
    rw [update_of_ne haz]
    exact ih h.2 (fun hm => hp (mem_cons_of_mem _ hm)) h.2.nodup

/-- Making the element before one point past it removes it. -/
theorem Chain.unlink (h : Chain next head (pre ++ z :: p :: post)) :
    Chain (Function.update (Function.update next z (next p)) p none) head (pre ++ z :: post) := by
  have hnodup := h.nodup
  induction pre generalizing head with
  | nil =>
    have hnd : z ≠ p ∧ z ∉ post ∧ p ∉ post := by
      simp only [nil_append, nodup_cons, mem_cons, not_or] at hnodup
      exact ⟨hnodup.1.1, hnodup.1.2, hnodup.2.1⟩
    refine ⟨h.1, ?_⟩
    rw [update_of_ne hnd.1, update_self]
    exact (h.2.2.update hnd.2.1 _).update hnd.2.2 _
  | cons a pre ih =>
    have hap : a ≠ p ∧ a ≠ z := by
      simp only [cons_append, nodup_cons, mem_append, mem_cons, not_or] at hnodup
      exact ⟨hnodup.1.2.2.1, hnodup.1.2.1⟩
    refine ⟨h.1, ?_⟩
    rw [update_of_ne hap.1, update_of_ne hap.2]
    exact ih h.2 h.2.nodup

end
end Linked
