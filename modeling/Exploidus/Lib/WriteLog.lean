import Mathlib.Tactic

/-! Block stores with a log of completed writes: what a prefix of the log leaves on the
store is what a stop between two writes leaves behind. -/
namespace WriteLog
open Function List
variable {α : Type*}

/-- The store after the given writes, oldest first. -/
def applyWrites (d : ℕ → α) (ws : List (ℕ × α)) : ℕ → α :=
  ws.foldl (fun d w => update d w.1 w.2) d

@[simp] theorem applyWrites_nil (d : ℕ → α) : applyWrites d [] = d := rfl

@[simp] theorem applyWrites_cons (d : ℕ → α) (w : ℕ × α) (ws : List (ℕ × α)) :
    applyWrites d (w :: ws) = applyWrites (update d w.1 w.2) ws := rfl

theorem applyWrites_append (d : ℕ → α) (ws vs : List (ℕ × α)) :
    applyWrites d (ws ++ vs) = applyWrites (applyWrites d ws) vs :=
  foldl_append

/-- A block that no write names keeps its content. -/
theorem applyWrites_of_forall_ne {d : ℕ → α} {ws : List (ℕ × α)} {x : ℕ}
    (h : ∀ w ∈ ws, w.1 ≠ x) : applyWrites d ws x = d x := by
  induction ws generalizing d with
  | nil => rfl
  | cons w ws ih =>
    rw [applyWrites_cons, ih (fun v hv => h v (mem_cons_of_mem _ hv)),
      update_of_ne (h w mem_cons_self).symm]

/-- With distinct targets every written block ends with the content written to it. -/
theorem applyWrites_of_mem {d : ℕ → α} {ws : List (ℕ × α)} (hn : (ws.map Prod.fst).Nodup)
    {w : ℕ × α} (hw : w ∈ ws) : applyWrites d ws w.1 = w.2 := by
  induction ws generalizing d with
  | nil => simp at hw
  | cons v vs ih =>
    rw [map_cons, nodup_cons] at hn
    rcases mem_cons.mp hw with rfl | hv
    · have hne : ∀ u ∈ vs, u.1 ≠ w.1 := fun u hu he =>
        hn.1 (he ▸ mem_map_of_mem hu)
      rw [applyWrites_cons, applyWrites_of_forall_ne hne, update_self]
    · exact ih hn.2 hv

/-- Writing `n` consecutive blocks. -/
theorem applyWrites_map_range (d : ℕ → α) (base n : ℕ) (f : ℕ → α) (x : ℕ) :
    applyWrites d ((range n).map fun b => (base + b, f b)) x =
      if base ≤ x ∧ x < base + n then f (x - base) else d x := by
  induction n with
  | zero => rw [if_neg (by omega)]; rfl
  | succ n ih =>
    rw [range_succ, map_append, applyWrites_append, map_singleton,
      applyWrites_cons, applyWrites_nil]
    by_cases hx : x = base + n
    · rw [if_pos (by omega), hx, update_self, Nat.add_sub_cancel_left]
    rw [update_of_ne hx, ih]
    by_cases hin : base ≤ x ∧ x < base + n
    · rw [if_pos hin, if_pos (by omega)]
    · rw [if_neg hin, if_neg (by omega)]

/-- Two stores that agree off the written blocks agree everywhere after the writes. -/
theorem applyWrites_congr {d e : ℕ → α} {ws : List (ℕ × α)} {x : ℕ}
    (h : (∀ w ∈ ws, w.1 ≠ x) → d x = e x) : applyWrites d ws x = applyWrites e ws x := by
  induction ws generalizing d e with
  | nil => exact h (by simp)
  | cons w ws ih =>
    rw [applyWrites_cons, applyWrites_cons]
    apply ih
    intro hws
    by_cases hx : x = w.1
    · subst hx; simp
    rw [update_of_ne hx, update_of_ne hx]
    apply h
    intro v hv
    rcases mem_cons.mp hv with rfl | hv
    · exact Ne.symm hx
    · exact hws v hv

section Crash
variable (P : (ℕ → α) → Prop)

/-- Every store a stop during the writes can leave behind satisfies `P`. -/
def AllPrefixes (d : ℕ → α) (ws : List (ℕ × α)) : Prop :=
  ∀ k, P (applyWrites d (ws.take k))

variable {P}

theorem allPrefixes_nil {d : ℕ → α} (h : P d) : AllPrefixes P d [] := by
  intro k
  simpa using h

theorem allPrefixes_append {d : ℕ → α} {ws vs : List (ℕ × α)} (h : AllPrefixes P d ws)
    (h' : AllPrefixes P (applyWrites d ws) vs) : AllPrefixes P d (ws ++ vs) := by
  intro k
  rw [take_append]
  by_cases hk : k ≤ ws.length
  · rw [Nat.sub_eq_zero_of_le hk, take_zero, append_nil]
    exact h k
  · rw [take_of_length_le (by omega), applyWrites_append]
    exact h' _

theorem allPrefixes_cons {d : ℕ → α} {w : ℕ × α} {ws : List (ℕ × α)} (h : P d)
    (h' : AllPrefixes P (update d w.1 w.2) ws) : AllPrefixes P d (w :: ws) := by
  intro k
  cases k with
  | zero => simpa using h
  | succ k => simpa using h' k

end Crash

end WriteLog
