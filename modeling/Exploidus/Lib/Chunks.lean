import Mathlib.Tactic

/-! A buffer handed over, or taken, in pieces whose sizes the other side chooses. -/
namespace Chunks
open List
variable {α : Type*} {limit : ℕ} {count : ℕ → ℕ}

/-- Hand over a buffer. Call `k` offers at most `limit` elements, of which `count k` are taken;
none taken is a failure. The result is what was taken in all, and whether it is everything. -/
def push (limit : ℕ) (count : ℕ → ℕ) : ℕ → ℕ → List α → List α × Bool
  | 0, _, buf => ([], buf.isEmpty)
  | fuel + 1, k, buf =>
    if buf = [] then ([], true)
    else
      let n := min (count k) (min limit buf.length)
      if n = 0 then ([], false)
      else
        let r := push limit count fuel (k + 1) (buf.drop n)
        (buf.take n ++ r.1, r.2)

/-- Take `n` elements from a source, in calls that ask for at most `limit` and get `count k`. The
result is the elements, what is left of the source and the number of the next call. -/
def pull (limit : ℕ) (count : ℕ → ℕ) : ℕ → ℕ → ℕ → List α → Option (List α) × List α × ℕ
  | 0, k, n, src => (if n = 0 then some [] else none, src, k)
  | fuel + 1, k, n, src =>
    if n = 0 then (some [], src, k)
    else
      let m := min (min (count k) (min limit n)) src.length
      if m = 0 then (none, src, k + 1)
      else
        let r := pull limit count fuel (k + 1) (n - m) (src.drop m)
        (r.1.map (src.take m ++ ·), r.2)

theorem push_append (limit : ℕ) (count : ℕ → ℕ) (fuel k : ℕ) (buf : List α) :
    ∃ rest, (push limit count fuel k buf).1 ++ rest = buf ∧
      ((push limit count fuel k buf).2 → rest = []) := by
  induction fuel generalizing k buf with
  | zero => exact ⟨buf, rfl, by simp [push]⟩
  | succ fuel ih =>
    rw [push]
    split
    · exact ⟨[], by simp [*], by simp⟩
    dsimp only
    split
    · exact ⟨buf, rfl, by simp⟩
    obtain ⟨rest, hrest, hok⟩ := ih (k + 1)
      (buf.drop (min (count k) (min limit buf.length)))
    refine ⟨rest, ?_, hok⟩
    rw [append_assoc, hrest, take_append_drop]

/-- A buffer of which every call takes something is handed over. -/
theorem push_eq (hlimit : 0 < limit) (hcount : ∀ k, 0 < count k) {fuel : ℕ} (k : ℕ)
    {buf : List α} (hfuel : buf.length ≤ fuel) : push limit count fuel k buf = (buf, true) := by
  have hok : (push limit count fuel k buf).2 := by
    induction fuel generalizing k buf with
    | zero => simpa [push] using hfuel
    | succ fuel ih =>
      rw [push]
      split
      · rfl
      rename_i hne
      have hpos := length_pos_iff.mpr hne
      have hk := hcount k
      dsimp only
      rw [if_neg (by omega)]
      apply ih
      rw [length_drop]
      omega
  obtain ⟨rest, hrest, hall⟩ := push_append limit count fuel k buf
  rw [hall hok, append_nil] at hrest
  exact Prod.ext hrest hok

/-- What is taken is the front of the source. -/
theorem pull_some {fuel n k k' : ℕ} {src bs rest : List α}
    (h : pull limit count fuel k n src = (some bs, rest, k')) :
    n ≤ src.length ∧ bs = src.take n ∧ rest = src.drop n := by
  induction fuel generalizing k k' n src bs rest with
  | zero =>
    rw [pull] at h
    by_cases hn : n = 0
    · subst hn
      simp only [if_true, Prod.mk.injEq, Option.some.injEq] at h
      simp [← h.1, h.2.1]
    · rw [if_neg hn] at h
      cases h
  | succ fuel ih =>
    rw [pull] at h
    by_cases hn : n = 0
    · subst hn
      simp only [if_true, Prod.mk.injEq, Option.some.injEq] at h
      simp [← h.1, h.2.1]
    rw [if_neg hn] at h
    generalize hm : min (min (count k) (min limit n)) src.length = m at h
    dsimp only at h
    by_cases h0 : m = 0
    · rw [if_pos h0] at h
      cases h
    rw [if_neg h0] at h
    rcases hr : pull limit count fuel (k + 1) (n - m) (src.drop m) with ⟨_ | bs', rest', k''⟩ <;>
      rw [hr] at h
    · cases h
    obtain ⟨h1, h2, h3⟩ := ih hr
    simp only [Option.map_some, Prod.mk.injEq, Option.some.injEq] at h
    rw [length_drop] at h1
    have hmn : m + (n - m) = n := by omega
    refine ⟨by omega, ?_, ?_⟩
    · rw [← h.1, h2, ← take_add, hmn]
    · rw [← h.2.1, h3, drop_drop, hmn]

/-- What is there is taken, whatever the sizes of the pieces. -/
theorem pull_eq (hlimit : 0 < limit) (hcount : ∀ k, 0 < count k) {fuel n : ℕ} (k : ℕ)
    {src : List α} (hfuel : n ≤ fuel) (hsrc : n ≤ src.length) :
    ∃ k', pull limit count fuel k n src = (some (src.take n), src.drop n, k') := by
  induction fuel generalizing k n src with
  | zero =>
    obtain rfl : n = 0 := by omega
    exact ⟨k, by simp [pull]⟩
  | succ fuel ih =>
    rw [pull]
    by_cases hn : n = 0
    · exact ⟨k, by simp [hn]⟩
    rw [if_neg hn]
    have hk := hcount k
    generalize hm : min (min (count k) (min limit n)) src.length = m
    have hrest : n - m ≤ (src.drop m).length := by
      rw [length_drop]
      omega
    obtain ⟨k', hk'⟩ := ih (k + 1) (by omega) hrest
    refine ⟨k', ?_⟩
    dsimp only
    rw [if_neg (by omega), hk']
    have hmn : m + (n - m) = n := by omega
    rw [Option.map_some, drop_drop, ← take_add, hmn]

end Chunks
