import Mathlib.Tactic

/-! A whole cut into consecutive pieces, and what is known from the sizes of some of them. -/
namespace Pieces
open Finset

variable (len : ℕ → ℕ)

/-- Where piece `i` starts. -/
def offset (i : ℕ) : ℕ := ∑ j ∈ range i, len j

variable {len} {n i j x : ℕ}

@[simp] theorem offset_zero : offset len 0 = 0 := rfl

theorem offset_succ (i : ℕ) : offset len (i + 1) = offset len i + len i := sum_range_succ len i

theorem offset_mono : Monotone (offset len) :=
  monotone_nat_of_le_succ fun i => by rw [offset_succ]; exact Nat.le_add_right _ _

/-- Pieces that are not empty start at different places. -/
theorem offset_injOn (hpos : ∀ i < n, 0 < len i) (hi : i < n) (hj : j < n)
    (h : offset len i = offset len j) : i = j := by
  by_contra hne
  rcases Nat.lt_or_gt_of_ne hne with hlt | hlt
  · have hle : offset len (i + 1) ≤ offset len j := offset_mono hlt
    rw [offset_succ] at hle
    have := hpos i hi
    omega
  · have hle : offset len (j + 1) ≤ offset len i := offset_mono hlt
    rw [offset_succ] at hle
    have := hpos j hj
    omega

/-- Every place of the whole lies in a piece. -/
theorem exists_piece (h : x < offset len n) :
    ∃ i < n, offset len i ≤ x ∧ x < offset len i + len i := by
  induction n with
  | zero => simp at h
  | succ n ih =>
    by_cases hx : x < offset len n
    · obtain ⟨i, hi, hin⟩ := ih hx
      exact ⟨i, Nat.lt_succ_of_lt hi, hin⟩
    · rw [offset_succ] at h
      exact ⟨n, Nat.lt_succ_self n, Nat.le_of_not_lt hx, h⟩

theorem end_le (h : i < n) : offset len i + len i ≤ offset len n := by
  rw [← offset_succ]
  exact offset_mono (Nat.succ_le_of_lt h)

theorem sum_le_offset {s : Finset ℕ} (hs : s ⊆ range n) : ∑ i ∈ s, len i ≤ offset len n :=
  sum_le_sum_of_subset hs

/-- Some of the pieces add up to the whole only if they are all of them. -/
theorem offset_le_sum_iff {s : Finset ℕ} (hs : s ⊆ range n) (hpos : ∀ i < n, 0 < len i) :
    offset len n ≤ ∑ i ∈ s, len i ↔ s = range n := by
  constructor
  · intro hle
    by_contra hne
    obtain ⟨i, hi, his⟩ := exists_of_ssubset (hs.ssubset_of_ne hne)
    have hlt : ∑ i ∈ s, len i < ∑ i ∈ range n, len i :=
      sum_lt_sum_of_subset hs hi his (hpos i (mem_range.mp hi)) fun _ _ _ => Nat.zero_le _
    exact Nat.not_lt.mpr hle hlt
  · rintro rfl
    rfl

end Pieces
