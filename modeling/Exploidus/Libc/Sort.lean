import Mathlib.Tactic

/-! `qsort` and `bsearch`. An array is the list of its elements. -/
namespace Exploidus.Libc
open List
variable {α : Type*}

/-- The inner loop of `qsort` from index `j` on: larger elements move up until `tmp` fits. -/
def shift (cmp : α → α → ℤ) (tmp : α) : ℕ → List α → List α
  | 0, b => b.set 0 tmp
  | j + 1, b =>
    match b[j]? with
    | none => b
    | some c => if cmp c tmp > 0 then shift cmp tmp j (b.set (j + 1) c) else b.set (j + 1) tmp

def insertAt (cmp : α → α → ℤ) (b : List α) (i : ℕ) : List α :=
  match b[i]? with
  | none => b
  | some tmp => shift cmp tmp i b

/-- `qsort`, when `malloc` succeeds. -/
def qsort (cmp : α → α → ℤ) (b : List α) : List α :=
  (range' 1 (b.length - 1)).foldl (insertAt cmp) b

/-- The loop of `bsearch`: the index it returns, and the number of comparisons. -/
def bsearchLoop (cmp : α → α → ℤ) (key : α) (b : List α) (lo hi : ℕ) : Option ℕ × ℕ :=
  if lo < hi then
    let mid := lo + (hi - lo) / 2
    match b[mid]? with
    | none => (none, 0)
    | some c =>
      if cmp key c = 0 then (some mid, 1)
      else if cmp key c < 0 then (bsearchLoop cmp key b lo mid).map id (· + 1)
      else (bsearchLoop cmp key b (mid + 1) hi).map id (· + 1)
  else (none, 0)
termination_by hi - lo
decreasing_by all_goals omega

/-- `bsearch`. -/
def bsearch (cmp : α → α → ℤ) (key : α) (b : List α) : Option ℕ × ℕ :=
  bsearchLoop cmp key b 0 b.length

/-- A comparison that orders by a total preorder. -/
structure TotalPreorder (cmp : α → α → ℤ) : Prop where
  swap : ∀ a b, 0 < cmp a b ↔ cmp b a < 0
  trans : ∀ a b c, cmp a b ≤ 0 → cmp b c ≤ 0 → cmp a c ≤ 0

/-- The sorted arrays. -/
def Sorted (cmp : α → α → ℤ) (b : List α) : Prop := b.Pairwise fun x y => cmp x y ≤ 0

/-- Elements that compare equal keep their order. -/
def StableFor (cmp : α → α → ℤ) (b b' : List α) : Prop :=
  ∀ x, b'.filter (fun y => cmp x y = 0) = b.filter fun y => cmp x y = 0

/-- Before `lo` the elements are below the key, and from `hi` on above it. -/
structure Window (cmp : α → α → ℤ) (key : α) (b : List α) (lo hi : ℕ) : Prop where
  le : hi ≤ b.length
  low : ∀ i < lo, ∀ c, b[i]? = some c → 0 < cmp key c
  high : ∀ i, hi ≤ i → ∀ c, b[i]? = some c → cmp key c < 0

section
variable {cmp : α → α → ℤ} {b : List α} {c key : α} {lo hi mid : ℕ}

theorem shift_spec (cmp : α → α → ℤ) (tmp : α) (u w : List α) (c : α) : ∃ v v', u = v ++ v' ∧
    shift cmp tmp u.length (u ++ c :: w) = v ++ tmp :: (v' ++ w) ∧
    (∀ y ∈ v', 0 < cmp y tmp) ∧ ∀ y ∈ v.getLast?, cmp y tmp ≤ 0 := by
  induction u using reverseRecOn generalizing c w with
  | nil => exact ⟨[], [], rfl, rfl, by simp, by simp⟩
  | append_singleton u d ih =>
    have hget : (u ++ [d] ++ c :: w)[u.length]? = some d := by simp
    rw [length_append, length_singleton, shift, hget]
    dsimp only
    split_ifs with hd
    · obtain ⟨v, v', hu, hshift, hlarge, hsmall⟩ := ih (d :: w) d
      refine ⟨v, v' ++ [d], by simp [hu], ?_, ?_, hsmall⟩
      · have hset : (u ++ [d] ++ c :: w).set (u.length + 1) d = u ++ d :: d :: w := by simp
        rw [hset, hshift]
        simp
      · simpa [or_imp, forall_and] using ⟨hlarge, hd⟩
    · exact ⟨u ++ [d], [], by simp, by simp, by simp, by simpa using hd⟩

variable (hc : TotalPreorder cmp)
include hc

theorem insertAt_spec {s : List α} (hs : Sorted cmp s) (x : α) (rest : List α) :
    ∃ s', insertAt cmp (s ++ x :: rest) s.length = s' ++ rest ∧ s'.Perm (s ++ [x]) ∧
      Sorted cmp s' ∧ StableFor cmp (s ++ [x]) s' := by
  obtain ⟨v, v', rfl, hshift, hlarge, hlast⟩ := shift_spec cmp x s rest x
  obtain ⟨hv, hv', hcross⟩ := pairwise_append.mp hs
  have hsmall : ∀ y ∈ v, cmp y x ≤ 0 := by
    intro y hy
    obtain rfl | ⟨v, l, rfl⟩ := v.eq_nil_or_concat'
    · cases hy
    have hl : cmp l x ≤ 0 := hlast l (by simp)
    rcases mem_append.mp hy with hy | hy
    · exact hc.trans y l x ((pairwise_append.mp hv).2.2 y hy l (by simp)) hl
    · rwa [mem_singleton.mp hy]
  have hget : (v ++ v' ++ x :: rest)[(v ++ v').length]? = some x := by simp
  refine ⟨v ++ x :: v', by rw [insertAt, hget]; simpa using hshift,
    perm_middle.trans (perm_append_singleton x _).symm, ?_, fun z => ?_⟩
  · refine pairwise_append.mpr ⟨hv, pairwise_cons.mpr ⟨fun y hy => ?_, hv'⟩, ?_⟩
    · exact ((hc.swap y x).mp (hlarge y hy)).le
    · intro y hy z hz
      rcases mem_cons.mp hz with rfl | hz
      · exact hsmall y hy
      · exact hcross y hy z hz
  · -- the elements that `x` passes do not compare equal to it
    by_cases hz : cmp z x = 0
    · have hnone : v'.filter (fun y => cmp z y = 0) = [] := by
        rw [filter_eq_nil_iff]
        intro y hy h
        have hswap := hc.swap y z
        have := hc.trans y z x (by simp at h; omega) hz.le
        have := hlarge y hy
        omega
      simp [hz, hnone]
    · simp [hz]

theorem foldl_insertAt {s : List α} (hs : Sorted cmp s) (rest : List α) {b : List α}
    (hb : b = (range' s.length rest.length).foldl (insertAt cmp) (s ++ rest)) :
    b.Perm (s ++ rest) ∧ Sorted cmp b ∧ StableFor cmp (s ++ rest) b := by
  induction rest generalizing s with
  | nil =>
    rw [hb]
    simpa [StableFor] using hs
  | cons x rest ih =>
    obtain ⟨s', hins, hperm, hs', hstable⟩ := insertAt_spec hc hs x rest
    have hlen : s'.length = s.length + 1 := by simpa using hperm.length_eq
    rw [length_cons, range'_succ, foldl_cons, hins, ← hlen] at hb
    obtain ⟨hperm', hsorted, hstable'⟩ := ih hs' hb
    refine ⟨hperm'.trans ?_, hsorted, fun z => ?_⟩
    · simpa using hperm.append_right rest
    · rw [hstable' z, filter_append, hstable z, ← filter_append, append_assoc]
      rfl

omit hc in
theorem Sorted.getElem? (hs : Sorted cmp b) {i j : ℕ} {d : α} (hij : i < j) (hi : b[i]? = some c)
    (hj : b[j]? = some d) : cmp c d ≤ 0 := by
  obtain ⟨hi', rfl⟩ := List.getElem?_eq_some_iff.mp hi
  obtain ⟨hj', rfl⟩ := List.getElem?_eq_some_iff.mp hj
  exact List.pairwise_iff_getElem.mp hs i j hi' hj' hij

omit hc in
theorem Window.not_mem (h : Window cmp key b lo hi) (hle : hi ≤ lo) : ∀ c ∈ b, cmp key c ≠ 0 := by
  intro c hmem
  obtain ⟨i, hi⟩ := mem_iff_getElem?.mp hmem
  rcases lt_or_ge i lo with hlow | hlow
  · exact (h.low i hlow c hi).ne'
  · exact (h.high i (by omega) c hi).ne

theorem Window.left (h : Window cmp key b lo hi) (hs : Sorted cmp b)
    (hle : mid ≤ hi) (hmid : b[mid]? = some c) (hless : cmp key c < 0) :
    Window cmp key b lo mid := by
  refine ⟨hle.trans h.le, h.low, fun i hi d hd => ?_⟩
  rcases hi.eq_or_lt with rfl | hlt
  · rwa [← Option.some.inj (hmid.symm.trans hd)]
  · have := hc.trans c d key (hs.getElem? hlt hmid hd)
    have := hc.swap c key
    have := hc.swap d key
    omega

theorem Window.right (h : Window cmp key b lo hi) (hs : Sorted cmp b)
    (hmid : b[mid]? = some c) (hmore : 0 < cmp key c) : Window cmp key b (mid + 1) hi := by
  refine ⟨h.le, fun i hi d hd => ?_, h.high⟩
  rcases (Nat.le_of_lt_succ hi).eq_or_lt with rfl | hlt
  · rwa [← Option.some.inj (hmid.symm.trans hd)]
  · have := hc.trans key d c
    have := hs.getElem? hlt hd hmid
    omega

theorem bsearchLoop_spec (hs : Sorted cmp b) {k : ℕ} (h : Window cmp key b lo hi)
    (hk : hi - lo < 2 ^ k) {r : Option ℕ × ℕ} (hr : r = bsearchLoop cmp key b lo hi) :
    (∀ i, r.1 = some i → ∃ c, b[i]? = some c ∧ cmp key c = 0) ∧
      (r.1 = none → ∀ c ∈ b, cmp key c ≠ 0) ∧ r.2 ≤ k := by
  induction k generalizing lo hi r with
  | zero =>
    have hle : hi ≤ lo := by simpa [Nat.sub_eq_zero_iff_le] using hk
    rw [bsearchLoop, if_neg (by omega)] at hr
    subst hr
    exact ⟨by simp, fun _ => h.not_mem hle, le_rfl⟩
  | succ k ih =>
    rw [bsearchLoop] at hr
    split_ifs at hr with hlt
    · have hlen := h.le
      dsimp only at hr
      obtain ⟨mid, hm⟩ : ∃ mid, mid = lo + (hi - lo) / 2 := ⟨_, rfl⟩
      obtain ⟨c, hmid⟩ : ∃ c, b[mid]? = some c := ⟨_, getElem?_eq_getElem (by omega)⟩
      rw [← hm, hmid] at hr
      dsimp only at hr
      split_ifs at hr with heq hless
      · subst hr
        exact ⟨by rintro i ⟨⟩; exact ⟨c, hmid, heq⟩, by simp, by simp⟩
      · obtain ⟨hfound, hnone, hcount⟩ := ih (h.left hc hs (by omega) hmid hless) (by omega) rfl
        subst hr
        exact ⟨hfound, hnone, Nat.succ_le_succ hcount⟩
      · obtain ⟨hfound, hnone, hcount⟩ :=
          ih (h.right hc hs hmid (by omega)) (by omega) rfl
        subst hr
        exact ⟨hfound, hnone, Nat.succ_le_succ hcount⟩
    · subst hr
      exact ⟨by simp, fun _ => h.not_mem (by omega), Nat.zero_le _⟩

end

end Exploidus.Libc
