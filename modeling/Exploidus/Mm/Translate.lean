import Exploidus.Mm.Vmm

/-! Translation as a walk over the entries of the tree, and what mapping and unmapping a page do to
it. -/
namespace Exploidus.Mm
open RadixTree List

/-! ### Bits of entries -/

theorem present_or_one (x : Word) : present (x ||| vmmPresent) := by
  have h : (x ||| vmmPresent) &&& vmmPresent = vmmPresent := by
    rw [BitVec.and_or_distrib_right]
    ext i
    simp only [BitVec.getElem_or, BitVec.getElem_and]
    cases x[i] <;> cases vmmPresent[i] <;> rfl
  rw [present, h]
  decide

theorem present_zero : present 0 = false := by decide

section
variable {p phys flags : Word}

theorem IsFrame.and_eq_zero (h : IsFrame p) {x : Word} (hx : addrMask &&& x = 0) : p &&& x = 0 := by
  rw [← h, BitVec.and_assoc, hx]
  simp

def tableEntry (p : Word) : Word := (p &&& addrMask) ||| vmmPresent ||| vmmWrite ||| vmmUser

theorem tableEntry_eq (p : Word) : tableEntry p = (p &&& addrMask) ||| 7 := by
  rw [tableEntry, BitVec.or_assoc, BitVec.or_assoc]
  rfl

theorem present_tableEntry (p : Word) : present (tableEntry p) := by
  have h : tableEntry p = ((p &&& addrMask) ||| (vmmWrite ||| vmmUser)) ||| vmmPresent := by
    rw [tableEntry_eq, BitVec.or_assoc]
    rfl
  rw [h]
  exact present_or_one _

theorem huge_tableEntry (p : Word) : huge (tableEntry p) = false := by
  have h : tableEntry p &&& vmmHuge = 0 := by
    rw [tableEntry_eq, BitVec.and_or_distrib_right, BitVec.and_assoc]
    have h1 : addrMask &&& vmmHuge = 0 := by decide
    have h2 : (7 : Word) &&& vmmHuge = 0 := by decide
    rw [h1, h2]
    simp
  rw [huge, h]
  rfl

theorem addr_tableEntry (h : IsFrame p) : tableEntry p &&& addrMask = p := by
  rw [tableEntry_eq, BitVec.and_or_distrib_right, BitVec.and_assoc]
  have h1 : addrMask &&& addrMask = addrMask := BitVec.and_self
  have h2 : (7 : Word) &&& addrMask = 0 := by decide
  rw [h1, h2, h]
  simp

def pageEntry (phys flags : Word) : Word := (phys &&& ~~~0xFFF) ||| flags ||| vmmPresent

theorem present_pageEntry (phys flags : Word) : present (pageEntry phys flags) :=
  present_or_one _

theorem addr_pageEntry (h : IsFrame phys) (hf : flags &&& addrMask = 0) :
    pageEntry phys flags &&& addrMask = phys := by
  have h1 : ~~~(0xFFF : Word) &&& addrMask = addrMask := by decide
  have h2 : vmmPresent &&& addrMask = 0 := by decide
  rw [pageEntry, BitVec.and_or_distrib_right, BitVec.and_or_distrib_right, BitVec.and_assoc, h1, h2,
    hf, h]
  simp

end

/-! ### The walk -/

def path (virt : Word) : List (BitVec 9) := [pml4Idx virt, pdptIdx virt, pdIdx virt, ptIdx virt]

def walk (E : List (BitVec 9) → Option Word) : List (BitVec 9) → List (BitVec 9) → Option (ℕ × Word)
  | _, [] => none
  | p, i :: is =>
    match E (i :: p) with
    | none => none
    | some e =>
      if present e = false then none
      else if is = [] ∨ p ≠ [] ∧ huge e = true then some (p.length, e)
      else walk E (i :: p) is

def physOf (virt : Word) : ℕ × Word → Word
  | (1, e) => (e &&& addrMask &&& ~~~0x3FFFFFFF) ||| (virt &&& 0x3FFFFFFF)
  | (2, e) => (e &&& addrMask &&& ~~~0x1FFFFF) ||| (virt &&& 0x1FFFFF)
  | (_, e) => (e &&& addrMask) ||| (virt &&& 0xFFF)

/-- The entries of the page-table tree at `pml4`. -/
def entries (mem : PhysMem) (pml4 : Word) : List (BitVec 9) → Option Word :=
  RadixTree.entry nextTable mem pml4

section
variable {mem mem' : PhysMem} {pml4 virt e t f : Word} {p q is : List (BitVec 9)} {i : BitVec 9}
  {E E' : List (BitVec 9) → Option Word}

theorem nextTable_of {d : ℕ} (hd : d < 3) (hp : present e) (hh : d = 0 ∨ huge e = false) :
    nextTable d e = some (e &&& addrMask) := if_pos ⟨hd, hp, hh⟩

theorem nextTable_absent {d : ℕ} (hp : present e = false) : nextTable d e = none :=
  if_neg fun h => by simp [hp] at h

theorem nextTable_zero (d : ℕ) : nextTable d 0 = none := nextTable_absent present_zero

theorem getPhys_eq_walk (h : pml4 ≠ 0) : vmmGetPhysInto mem pml4 virt =
    ((walk (entries mem pml4) [] (path virt)).map (physOf virt)).getD 0 := by
  have t4 : tab nextTable mem pml4 [] = some pml4 := rfl
  have e4 : entries mem pml4 [pml4Idx virt] = some (mem pml4 (pml4Idx virt)) := entry_of t4
  unfold vmmGetPhysInto path
  rw [if_neg h, walk, e4]
  dsimp only
  generalize hx4 : mem pml4 (pml4Idx virt) = x4 at *
  cases hp4 : present x4 with
  | false => simp
  | true =>
    have t3 : tab nextTable mem pml4 [pml4Idx virt] = some (x4 &&& addrMask) := by
      rw [tab_cons_of t4, hx4]
      exact nextTable_of (by decide) hp4 (.inl rfl)
    have e3 : entries mem pml4 [pdptIdx virt, pml4Idx virt] =
        some (mem (x4 &&& addrMask) (pdptIdx virt)) := entry_of t3
    simp only [Bool.not_true, Bool.false_eq_true, if_false, reduceCtorEq, ne_eq,
      not_true_eq_false, false_and, or_self]
    rw [walk, e3]
    dsimp only
    generalize hx3 : mem (x4 &&& addrMask) (pdptIdx virt) = x3 at *
    cases hp3 : present x3 with
    | false => simp
    | true =>
      cases hh3 : huge x3 with
      | true => simp [physOf]
      | false =>
        have t2 : tab nextTable mem pml4 [pdptIdx virt, pml4Idx virt] = some (x3 &&& addrMask) := by
          rw [tab_cons_of t3, hx3]
          exact nextTable_of (by simp) hp3 (.inr hh3)
        have e2 : entries mem pml4 [pdIdx virt, pdptIdx virt, pml4Idx virt] =
            some (mem (x3 &&& addrMask) (pdIdx virt)) := entry_of t2
        simp only [Bool.not_true, Bool.false_eq_true, if_false, reduceCtorEq, ne_eq,
          and_false, or_self]
        rw [walk, e2]
        dsimp only
        generalize hx2 : mem (x3 &&& addrMask) (pdIdx virt) = x2 at *
        cases hp2 : present x2 with
        | false => simp
        | true =>
          cases hh2 : huge x2 with
          | true => simp [physOf]
          | false =>
            have t1 : tab nextTable mem pml4 [pdIdx virt, pdptIdx virt, pml4Idx virt] =
                some (x2 &&& addrMask) := by
              rw [tab_cons_of t2, hx2]
              exact nextTable_of (by simp) hp2 (.inr hh2)
            have e1 : entries mem pml4 [ptIdx virt, pdIdx virt, pdptIdx virt, pml4Idx virt] =
                some (mem (x2 &&& addrMask) (ptIdx virt)) := entry_of t1
            simp only [Bool.not_true, Bool.false_eq_true, if_false, reduceCtorEq, ne_eq,
              and_false, or_self]
            rw [walk, e1]
            dsimp only
            cases hp1 : present (mem (x2 &&& addrMask) (ptIdx virt)) with
            | false => simp
            | true => simp [physOf]

theorem walk_append (h : tab nextTable mem pml4 p = some t) (his : is ≠ []) :
    walk (entries mem pml4) [] (p.reverse ++ is) = walk (entries mem pml4) p is := by
  induction p generalizing t is with
  | nil => rfl
  | cons i p ih =>
    rw [tab_cons] at h
    obtain ⟨u, hu, hnext⟩ := Option.bind_eq_some_iff.mp h
    have hc : p.length < 3 ∧ present (mem u i) ∧ (p.length = 0 ∨ huge (mem u i) = false) := by
      by_contra hc
      rw [nextTable, if_neg hc] at hnext
      cases hnext
    obtain ⟨-, hp, hh⟩ := hc
    have hgo : ¬ (is = [] ∨ p ≠ [] ∧ huge (mem u i)) := by
      rintro (h0 | ⟨h1, h2⟩)
      · exact his h0
      rcases hh with hh | hh
      · exact h1 (length_eq_zero_iff.mp hh)
      rw [h2] at hh
      cases hh
    have hE : entries mem pml4 (i :: p) = some (mem u i) := entry_of hu
    rw [reverse_cons, append_assoc, singleton_append, ih hu (by simp), walk, hE]
    simp only [hp, Bool.true_eq_false, if_false, if_neg hgo]

theorem walk_update (hE : ∀ q, E' q = if q = i :: p then some e else E q)
    (hlen : q.length + is.length = (i :: p).length) (hne : is.reverse ++ q ≠ i :: p) :
    walk E' q is = walk E q is := by
  induction is generalizing q with
  | nil => rfl
  | cons j is ih =>
    have hj : j :: q ≠ i :: p := by
      intro heq
      have hnil : is = [] := by
        have := congrArg length heq
        simp only [length_cons] at this hlen
        exact length_eq_zero_iff.mp (by omega)
      subst hnil
      exact hne (by simpa using heq)
    rw [walk, walk, hE, if_neg hj]
    have hrec := ih (q := j :: q) (by simp only [length_cons] at hlen ⊢; omega)
      (by simpa using hne)
    rw [hrec]

theorem walk_link (hE : ∀ q, E' q = if q = i :: p then some e
      else if q.tail = i :: p then some 0 else E q)
    {e0 : Word} (h0 : E (i :: p) = some e0) (habs : present e0 = false)
    (hbelow : ∀ j, E (j :: i :: p) = none) (hhuge : huge e = false) (hp : p.length < 3)
    (hlen : q.length + is.length = 4) : walk E' q is = walk E q is := by
  induction is generalizing q with
  | nil => rfl
  | cons j is ih =>
    have hrec := ih (q := j :: q) (by simp only [length_cons] at hlen ⊢; omega)
    rw [walk, walk, hE, tail_cons]
    by_cases hj : j :: q = i :: p
    · obtain ⟨rfl, rfl⟩ := cons.inj hj
      rw [if_pos rfl, h0]
      simp only [habs, if_true]
      cases is with
      | nil => simp only [length_cons, length_nil] at hlen; omega
      | cons k is =>
        cases present e with
        | false => rfl
        | true =>
          have hk : ¬ k :: j :: q = j :: q := fun heq => by
            have := congrArg length heq
            simp at this
          simp only [hhuge, Bool.true_eq_false, reduceCtorEq, Bool.false_eq_true, and_false,
            or_self, if_false]
          rw [walk, hE, if_neg hk, tail_cons, if_pos rfl]
          rfl
    · rw [if_neg hj]
      by_cases hq : q = i :: p
      · subst hq
        rw [if_pos rfl, hbelow j]
        rfl
      · rw [if_neg hq, hrec]

/-! ### Pages and paths -/

theorem path_eq_iff {v w : Word} : path v = path w ↔ pageOf v = pageOf w := by
  constructor
  · intro h
    simp only [path, cons.injEq, and_true, pml4Idx, pdptIdx, pdIdx, ptIdx] at h
    obtain ⟨h4, h3, h2, h1⟩ := h
    ext k hk
    have hbit : ∀ (s : ℕ), v.extractLsb' s 9 = w.extractLsb' s 9 → ∀ n, s ≤ n → n < s + 9 →
        v.getLsbD n = w.getLsbD n := fun s hs n hn1 hn2 => by
      have := congrArg (fun x => x.getLsbD (n - s)) hs
      simp only [BitVec.getLsbD_extractLsb'] at this
      have hlt : n - s < 9 := by omega
      simpa [hlt, Nat.add_sub_cancel' hn1] using this
    simp only [pageOf, BitVec.getElem_extractLsb']
    rcases (by omega : k < 9 ∨ 9 ≤ k ∧ k < 18 ∨ 18 ≤ k ∧ k < 27 ∨ 27 ≤ k) with h | h | h | h
    · exact hbit 12 h1 _ (by omega) (by omega)
    · exact hbit 21 h2 _ (by omega) (by omega)
    · exact hbit 30 h3 _ (by omega) (by omega)
    · exact hbit 39 h4 _ (by omega) (by omega)
  · intro h
    have hidx : ∀ s, 12 ≤ s → s + 9 ≤ 48 → v.extractLsb' s 9 = w.extractLsb' s 9 := by
      intro s hs1 hs2
      ext k hk
      have := congrArg (fun x => x.getLsbD (s - 12 + k)) h
      simp only [pageOf, BitVec.getLsbD_extractLsb'] at this
      have hlt : s - 12 + k < 36 := by omega
      have hsum : 12 + (s - 12 + k) = s + k := by omega
      simp only [BitVec.getElem_extractLsb']
      simpa [hlt, hsum] using this
    simp only [path, pml4Idx, pdptIdx, pdIdx, ptIdx, hidx 39 (by omega) (by omega),
      hidx 30 (by omega) (by omega), hidx 21 (by omega) (by omega), hidx 12 (by omega) (by omega)]

end
end Exploidus.Mm
