import Mathlib.Tactic

/-! Ring buffers of a fixed number of slots: the queue that one holds, and the last elements that
one keeps when it overwrites the oldest. -/
namespace RingBuffer
open Function List Nat
variable {n : ℕ} {α : Type*}

/-- A ring of `n` slots. The slots outside the queue hold what was last in them. -/
structure Ring (n : ℕ) (α : Type*) where
  slots : ℕ → α
  head : ℕ
  tail : ℕ
  count : ℕ
  head_lt : head < n
  count_le : count ≤ n
  tail_eq : tail = (head + count) % n

namespace Ring

/-- The queue, oldest element first. -/
def toList (r : Ring n α) : List α := (range r.count).map fun i => r.slots ((r.head + i) % n)

/-- The ring after its slots are cleared. -/
def empty (h : 0 < n) (a : α) : Ring n α := ⟨fun _ => a, 0, 0, 0, h, zero_le _, rfl⟩

def push (r : Ring n α) (v : α) (h : r.count < n) : Ring n α where
  slots := update r.slots r.tail v
  head := r.head
  tail := (r.tail + 1) % n
  count := r.count + 1
  head_lt := r.head_lt
  count_le := h
  tail_eq := by rw [r.tail_eq, mod_add_mod, add_assoc]

def pop (r : Ring n α) (h : 0 < r.count) : Ring n α where
  slots := r.slots
  head := (r.head + 1) % n
  tail := r.tail
  count := r.count - 1
  head_lt := mod_lt _ (zero_lt_of_lt r.head_lt)
  count_le := (sub_le _ _).trans r.count_le
  tail_eq := by
    rw [mod_add_mod, r.tail_eq]
    congr 1
    omega

@[simp] theorem length_toList (r : Ring n α) : r.toList.length = r.count := by simp [toList]

theorem slot_ne {a i j : ℕ} (hi : i < j) (hj : j < n) : (a + i) % n ≠ (a + j) % n := by
  intro h
  have hmod : i % n = j % n := Nat.ModEq.add_left_cancel' a h
  rw [mod_eq_of_lt (hi.trans hj), mod_eq_of_lt hj] at hmod
  exact hi.ne hmod

theorem toList_push (r : Ring n α) (v : α) (h : r.count < n) :
    (r.push v h).toList = r.toList ++ [v] := by
  unfold toList push
  dsimp only
  rw [range_succ, map_append, map_singleton]
  congr 1
  · refine map_congr_left fun i hi => update_of_ne ?_ _ _
    rw [r.tail_eq]
    exact slot_ne (mem_range.mp hi) h
  · rw [r.tail_eq, update_self]

theorem toList_pop (r : Ring n α) (h : 0 < r.count) :
    r.toList = r.slots r.head :: (r.pop h).toList := by
  obtain ⟨k, hk⟩ : ∃ k, r.count = k + 1 := ⟨r.count - 1, by omega⟩
  unfold toList pop
  dsimp only
  rw [hk, range_succ_eq_map, map_cons, map_map, add_zero,
    Nat.mod_eq_of_lt r.head_lt, Nat.add_sub_cancel]
  congr 1
  refine map_congr_left fun i _ => ?_
  rw [mod_add_mod, add_assoc, add_comm 1 i]
  rfl

end Ring

/-- A ring that overwrites its oldest element. Until it has been filled once, the slots are used
from the first one on. -/
structure Recent (n : ℕ) (α : Type*) where
  slots : ℕ → α
  head : ℕ
  count : ℕ
  head_lt : head < n
  count_le : count ≤ n
  head_eq : count < n → head = count

namespace Recent

/-- A ring with nothing in it. -/
def empty (h : 0 < n) (a : α) : Recent n α := ⟨fun _ => a, 0, 0, h, zero_le n, fun _ => rfl⟩

def push (r : Recent n α) (v : α) : Recent n α where
  slots := update r.slots r.head v
  head := (r.head + 1) % n
  count := if r.count < n then r.count + 1 else r.count
  head_lt := mod_lt _ (zero_lt_of_lt r.head_lt)
  count_le := by
    have := r.count_le
    split <;> omega
  head_eq := by
    intro h
    have hlt : r.count < n := by
      split at h <;> omega
    rw [if_pos hlt] at h ⊢
    rw [r.head_eq hlt, mod_eq_of_lt h]

/-- The elements in the order of their slots. -/
def stored (r : Recent n α) : List α := (range r.count).map r.slots

/-- The slot of the element that was pushed `j` elements before the last one. -/
def place (r : Recent n α) (j : ℕ) : ℕ :=
  if j < r.head then r.head - 1 - j else r.head + n - 1 - j

def newest (r : Recent n α) : List α := (range r.count).map fun j => r.slots (r.place j)

theorem newest_push (r : Recent n α) (v : α) : (r.push v).newest = (v :: r.newest).take n := by
  have hhead := r.head_lt
  have hle := r.count_le
  have hnext : (r.head + 1) % n = if r.head + 1 < n then r.head + 1 else 0 := by
    split
    · exact mod_eq_of_lt (by assumption)
    · rw [show r.head + 1 = n by omega, mod_self]
  have hcount : (r.push v).count = min (r.count + 1) n := by
    change (if r.count < n then r.count + 1 else r.count) = _
    split <;> omega
  -- the new element stands at the head, the others where they stood
  have hfirst : (r.push v).place 0 = r.head := by
    simp only [place, push, hnext]
    split_ifs <;> omega
  have hlater : ∀ j, j + 1 < n → (r.push v).place (j + 1) = r.place j ∧ r.place j ≠ r.head := by
    intro j hj
    simp only [place, push, hnext]
    split_ifs <;> omega
  apply ext_getElem
  · simp [newest, hcount]
    omega
  intro j hj hj'
  rw [getElem_take]
  simp only [newest, length_map, length_range, hcount] at hj
  cases j with
  | zero =>
    simp only [newest, getElem_map, getElem_range, getElem_cons_zero, hfirst]
    exact update_self _ _ _
  | succ j =>
    obtain ⟨hplace, hne⟩ := hlater j (by omega)
    simp only [newest, getElem_map, getElem_range, getElem_cons_succ, hplace]
    exact update_of_ne hne _ _

/-- The slots hold the newest elements in some order. -/
theorem stored_perm (r : Recent n α) : r.stored.Perm r.newest := by
  have hhead := r.head_lt
  have hle := r.count_le
  have heq := r.head_eq
  have hplaces : ((range r.count).map r.place).Perm (range r.count) := by
    have hnodup : ((range r.count).map r.place).Nodup := by
      apply List.Nodup.map_on _ nodup_range
      intro i hi j hj hij
      simp only [mem_range] at hi hj
      simp only [place] at hij
      split_ifs at hij <;> omega
    apply (hnodup.subperm _).perm_of_length_le
    · simp
    intro x hx
    obtain ⟨j, hj, rfl⟩ := mem_map.mp hx
    simp only [mem_range] at hj ⊢
    simp only [place]
    split_ifs <;> omega
  have hmap := hplaces.symm.map r.slots
  rwa [map_map] at hmap

end Recent
end RingBuffer
