import Mathlib.Tactic

/-! A write-through cache of a fixed number of slots in front of a store. A key that is not in the
cache takes the next slot in turn. -/
namespace SlotCache
open Function
variable {n : ℕ} {K V : Type*}

/-- `n + 1` slots, each empty or with a key and its value, and the slot to take next. -/
structure Cache (n : ℕ) (K V : Type*) where
  slots : Fin (n + 1) → Option (K × V)
  next : Fin (n + 1)

namespace Cache

/-- The cache with nothing in it. -/
def empty : Cache n K V := ⟨fun _ => none, ⟨0, n.succ_pos⟩⟩

/-- Slot `i` holds the key `k`. -/
def Holds (c : Cache n K V) (i : Fin (n + 1)) (k : K) : Prop := ∃ v, c.slots i = some (k, v)

/-- The key is in some slot. -/
def Cached (c : Cache n K V) (k : K) : Prop := ∃ i, c.Holds i k

/-- A slot is given a key and a value. -/
def put (c : Cache n K V) (i : Fin (n + 1)) (k : K) (v : V) : Cache n K V :=
  { c with slots := update c.slots i (some (k, v)) }

/-- The next slot is taken. -/
def insert (c : Cache n K V) (k : K) (v : V) : Cache n K V :=
  { c.put c.next k v with next := ⟨(c.next.val + 1) % (n + 1), Nat.mod_lt _ n.succ_pos⟩ }

structure Coherent (c : Cache n K V) (m : K → V) : Prop where
  held : ∀ i k v, c.slots i = some (k, v) → m k = v
  unique : ∀ i j k, c.Holds i k → c.Holds j k → i = j

theorem coherent_empty (m : K → V) : Coherent (empty : Cache n K V) m :=
  ⟨fun _ _ _ h => (by cases h), fun _ _ _ ⟨_, h⟩ => by cases h⟩

/-- Only the values of the cached keys matter. -/
theorem Coherent.congr {c : Cache n K V} {m m' : K → V} (h : c.Coherent m)
    (hm : ∀ k, c.Cached k → m k = m' k) : c.Coherent m' :=
  ⟨fun i k v hi => (hm k ⟨i, v, hi⟩).symm.trans (h.held i k v hi), h.unique⟩

section Put
variable {c : Cache n K V} {m : K → V} {i : Fin (n + 1)} {k : K} {v : V}

theorem slots_put_self : (c.put i k v).slots i = some (k, v) := update_self _ _ _

theorem slots_put_of_ne {j : Fin (n + 1)} (h : j ≠ i) : (c.put i k v).slots j = c.slots j :=
  update_of_ne h _ _

theorem slots_put_eq_some {j : Fin (n + 1)} {k' : K} {v' : V}
    (h : (c.put i k v).slots j = some (k', v')) :
    j = i ∧ k' = k ∧ v' = v ∨ j ≠ i ∧ c.slots j = some (k', v') := by
  by_cases hj : j = i
  · subst hj
    rw [slots_put_self] at h
    cases h
    exact .inl ⟨rfl, rfl, rfl⟩
  · rw [slots_put_of_ne hj] at h
    exact .inr ⟨hj, h⟩

/-- A slot takes the value of a key that no other slot holds, in a store that the other slots
agree with. -/
theorem Coherent.put (h : c.Coherent m) {m' : K → V} (hv : m' k = v)
    (hold : ∀ j k' w, j ≠ i → c.slots j = some (k', w) → m' k' = w)
    (hk : ∀ j ≠ i, ¬ c.Holds j k) : (c.put i k v).Coherent m' := by
  refine ⟨fun j k' w hj => ?_, ?_⟩
  · obtain ⟨-, rfl, rfl⟩ | ⟨hne, hj⟩ := slots_put_eq_some hj
    · exact hv
    · exact hold j k' w hne hj
  rintro j j' k' ⟨w, hw⟩ ⟨w', hw'⟩
  obtain ⟨rfl, rfl, -⟩ | ⟨hne, hj⟩ := slots_put_eq_some hw <;>
    obtain ⟨rfl, hk', -⟩ | ⟨hne', hj'⟩ := slots_put_eq_some hw'
  · rfl
  · exact absurd ⟨w', hj'⟩ (hk j' hne')
  · subst hk'
    exact absurd ⟨w, hj⟩ (hk j hne)
  · exact h.unique j j' k' ⟨w, hj⟩ ⟨w', hj'⟩

/-- Nothing is cached but the key that was put and what was there before. -/
theorem cached_put {k' : K} (h : (c.put i k v).Cached k') : k' = k ∨ c.Cached k' := by
  obtain ⟨j, w, hw⟩ := h
  obtain ⟨-, rfl, -⟩ | ⟨-, hj⟩ := slots_put_eq_some hw
  · exact .inl rfl
  · exact .inr ⟨j, w, hj⟩

/-- A miss fills the next slot. -/
theorem Coherent.insert (h : c.Coherent m) (hv : m k = v) (hk : ¬ c.Cached k) :
    (c.insert k v).Coherent m :=
  have hput : (c.put c.next k v).Coherent m :=
    h.put hv (fun j k' w _ => h.held j k' w) fun j _ hj => hk ⟨j, hj⟩
  ⟨hput.held, hput.unique⟩

end Put

variable [DecidableEq K]

/-- The first slot that holds `k`. -/
def find (c : Cache n K V) (k : K) : Option (Fin (n + 1)) :=
  (List.finRange (n + 1)).find? fun i => (c.slots i).any fun e => e.1 = k

def lookup (c : Cache n K V) (k : K) : Option V :=
  (c.find k).bind fun i => (c.slots i).map Prod.snd

/-- Write-through: the slot of `k`, or the next one, takes the new value. -/
def store (c : Cache n K V) (k : K) (v : V) : Cache n K V :=
  match c.find k with
  | some i => c.put i k v
  | none => c.insert k v

variable {c : Cache n K V} {m : K → V} {k : K} {v : V}

theorem find_eq_some {i : Fin (n + 1)} (h : c.find k = some i) : c.Holds i k := by
  have hi := List.find?_some h
  rcases hs : c.slots i with _ | e
  · simp [hs] at hi
  rw [hs, Option.any_some, decide_eq_true_eq] at hi
  exact ⟨e.2, by rw [hs, ← hi]⟩

theorem cached_store {k' : K} (h : (c.store k v).Cached k') : k' = k ∨ c.Cached k' := by
  unfold store at h
  rcases hf : c.find k with _ | i <;> rw [hf] at h
  · exact cached_put (i := c.next) h
  · exact cached_put h

theorem find_eq_none : c.find k = none ↔ ¬ c.Cached k := by
  rw [find, List.find?_eq_none]
  constructor
  · rintro h ⟨i, v, hi⟩
    exact h i (List.mem_finRange i) (by simp [hi])
  intro h i _ hi
  rcases hs : c.slots i with _ | e
  · simp [hs] at hi
  rw [hs, Option.any_some, decide_eq_true_eq] at hi
  exact h ⟨i, e.2, by rw [hs, ← hi]⟩

theorem lookup_eq_none : c.lookup k = none ↔ ¬ c.Cached k := by
  rw [← find_eq_none, lookup]
  rcases hf : c.find k with _ | i
  · simp
  obtain ⟨v, hv⟩ := find_eq_some hf
  simp [hv]

/-- A hit is what the store holds. -/
theorem Coherent.lookup_eq (h : c.Coherent m) (hv : c.lookup k = some v) : m k = v := by
  rcases hf : c.find k with _ | i
  · simp [lookup, hf] at hv
  obtain ⟨w, hw⟩ := find_eq_some hf
  rw [lookup, hf, Option.bind_some, hw, Option.map_some, Option.some.injEq] at hv
  subst hv
  exact h.held i k w hw

/-- Writing through the cache and into the store. -/
theorem Coherent.store (h : c.Coherent m) (v : V) : (c.store k v).Coherent (update m k v) := by
  have hput : ∀ i, (∀ j ≠ i, ¬ c.Holds j k) → (c.put i k v).Coherent (update m k v) := by
    intro i hi
    refine h.put (update_self ..) (fun j k' w hne hj => ?_) hi
    have hk : k' ≠ k := fun he => hi j hne ⟨w, he ▸ hj⟩
    rw [update_of_ne hk, h.held j k' w hj]
  unfold Cache.store
  rcases hf : c.find k with _ | i
  · have hnext := hput c.next fun j _ hj => find_eq_none.mp hf ⟨j, hj⟩
    exact ⟨hnext.held, hnext.unique⟩
  · exact hput i fun j hj hold => hj (h.unique j i k hold (find_eq_some hf))

/-- A store that changes behind the cache. -/
theorem Coherent.update_iff (h : c.Coherent m) (v : V) :
    c.Coherent (update m k v) ↔ (c.Cached k → m k = v) := by
  constructor
  · rintro h' ⟨i, w, hw⟩
    rw [h.held i k w hw, ← h'.held i k w hw, update_self]
  intro hk
  refine ⟨fun i k' w hw => ?_, h.unique⟩
  by_cases he : k' = k
  · subst he
    rw [update_self, ← hk ⟨i, w, hw⟩, h.held i k' w hw]
  · rw [update_of_ne he, h.held i k' w hw]

end Cache

end SlotCache
