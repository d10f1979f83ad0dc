import Exploidus.Mm.Translate

/-! What `vmm_map_into` and `vmm_unmap_into` do to the translation of every page. -/
namespace Exploidus.Mm
open RadixTree

/-- A tree of page tables in which no table is shared between two entries. -/
structure PageTree (mem : PhysMem) (pml4 : Word) : Prop where
  frame : IsFrame pml4
  unshared : Unshared nextTable mem pml4

def NoHuge (mem : PhysMem) (pml4 virt : Word) : Prop :=
  ∀ e, entries mem pml4 [pdptIdx virt, pml4Idx virt] = some e ∨
      entries mem pml4 [pdIdx virt, pdptIdx virt, pml4Idx virt] = some e →
    present e = true → huge e = false

section
variable {σ : Type*} {A : FrameSource σ} {m m' m'' : Vm σ} {pml4 virt t e : Word}
  {p : List (BitVec 9)} {i : BitVec 9}

structure Extends (A : FrameSource σ) (pml4 : Word) (m m' : Vm σ) : Prop where
  unshared : Unshared nextTable m'.mem pml4
  avoids : A.Avoids m'.frames (tables nextTable m'.mem pml4)
  walk : ∀ v, walk (entries m'.mem pml4) [] (path v) = walk (entries m.mem pml4) [] (path v)
  tab : ∀ {q t}, tab nextTable m.mem pml4 q = some t → tab nextTable m'.mem pml4 q = some t
  huge : ∀ {q e}, entries m'.mem pml4 q = some e → present e = true → huge e = true →
    entries m.mem pml4 q = some e

theorem Extends.refl (hs : Unshared nextTable m.mem pml4)
    (ha : A.Avoids m.frames (tables nextTable m.mem pml4)) : Extends A pml4 m m :=
  ⟨hs, ha, fun _ => rfl, fun h => h, fun h _ _ => h⟩

theorem Extends.trans (h : Extends A pml4 m m') (h' : Extends A pml4 m' m'') :
    Extends A pml4 m m'' :=
  ⟨h'.unshared, h'.avoids, fun v => (h'.walk v).trans (h.walk v), fun hq => h'.tab (h.tab hq),
    fun hq hp hh => h.huge (h'.huge hq hp hh) hp hh⟩

theorem Extends.getPhys (h : Extends A pml4 m m') (v : Word) :
    vmmGetPhysInto m'.mem pml4 v = vmmGetPhysInto m.mem pml4 v := by
  by_cases h0 : pml4 = 0
  · rw [vmmGetPhysInto, vmmGetPhysInto, if_pos h0, if_pos h0]
  · rw [getPhys_eq_walk h0, getPhys_eq_walk h0, h.walk v]

theorem Extends.noHuge (h : Extends A pml4 m m') (hn : NoHuge m.mem pml4 virt) :
    NoHuge m'.mem pml4 virt := by
  intro e he hp
  by_contra hh
  have hh' : Mm.huge e := by simpa using hh
  have hold := he.imp (fun h3 => h.huge h3 hp hh') fun h2 => h.huge h2 hp hh'
  exact hh (hn e hold hp)

theorem allocTable_extends (hs : Unshared nextTable m.mem pml4)
    (ha : A.Avoids m.frames (tables nextTable m.mem pml4))
    (hp : tab nextTable m.mem pml4 p = some t) (hlen : p.length < 3)
    (hh : p.length = 0 ∨ (present (m.mem t i) → huge (m.mem t i) = false)) :
    Extends A pml4 m (allocTable A m t i).1 ∧ ((allocTable A m t i).2 ≠ 0 →
        tab nextTable (allocTable A m t i).1.mem pml4 (i :: p) = some (allocTable A m t i).2) := by
  unfold allocTable
  cases hpres : present (m.mem t i) with
  | true =>
    rw [if_pos rfl]
    refine ⟨Extends.refl hs ha, fun _ => ?_⟩
    rw [tab_cons_of hp]
    exact nextTable_of hlen hpres (hh.imp id fun h => h hpres)
  | false =>
    rw [if_neg (by simp)]
    dsimp only
    rcases A.alloc_avoids (z := .green) ha with ⟨h0, hav⟩ | ⟨h0, hframe, hfresh, hav⟩
    · rw [if_pos h0]
      exact ⟨⟨hs, hav, fun _ => rfl, fun h => h, fun h _ _ => h⟩, fun h => absurd rfl h⟩
    rw [if_neg h0]
    generalize A.alloc .green m.frames = r at *
    have hent : (r.2 &&& addrMask) ||| vmmPresent ||| vmmWrite ||| vmmUser = tableEntry r.2 := rfl
    have hnone : nextTable p.length (m.mem t i) = none := nextTable_absent hpres
    have hnext : nextTable p.length (tableEntry r.2) = some r.2 := by
      rw [nextTable_of hlen (present_tableEntry _) (.inr (huge_tableEntry _)),
        addr_tableEntry hframe]
    have htab := hs.tab_link hp hfresh hnone hnext nextTable_zero
    have hentry := hs.entry_link hp hfresh hnone hnext nextTable_zero
    rw [hent]
    refine ⟨⟨hs.link hp hfresh hnone hnext nextTable_zero, ?_, fun v => ?_, fun {q u} hq => ?_,
      fun {q e} hq hpe hhe => ?_⟩, fun _ => ?_⟩
    · rwa [hs.tables_link hp hfresh hnone hnext nextTable_zero]
    · refine walk_link hentry (entry_of hp) hpres (fun j => ?_) (huge_tableEntry _) hlen rfl
      exact entry_of_none (by rw [tab_cons_of hp, hnone])
    · rw [htab q, if_neg, hq]
      rintro rfl
      rw [tab_cons_of hp, hnone] at hq
      cases hq
    · have hq' := (hentry q).symm.trans hq
      split at hq'
      · obtain rfl := Option.some.inj hq'
        rw [huge_tableEntry] at hhe
        cases hhe
      split at hq'
      · obtain rfl := Option.some.inj hq'
        rw [present_zero] at hpe
        cases hpe
      · exact hq'
    · rw [htab, if_pos rfl]

/-- The outcome of `vmm_map_into`: no table could be made, or the page table of the address is
there and its entry is set. -/
theorem vmmMapInto_cases (phys flags : Word) (hs : Unshared nextTable m.mem pml4)
    (ha : A.Avoids m.frames (tables nextTable m.mem pml4)) (hn : NoHuge m.mem pml4 virt) :
    ((vmmMapInto A m pml4 phys virt flags).2 = false ∧
      Extends A pml4 m (vmmMapInto A m pml4 phys virt flags).1) ∨
    pml4 ≠ 0 ∧ ∃ m' t, Extends A pml4 m m' ∧
      tab nextTable m'.mem pml4 [pdIdx virt, pdptIdx virt, pml4Idx virt] = some t ∧
      vmmMapInto A m pml4 phys virt flags =
        (⟨m'.frames, set m'.mem t (ptIdx virt) (pageEntry phys flags)⟩, true) := by
  unfold vmmMapInto
  by_cases h0 : pml4 = 0
  · rw [if_pos h0]
    exact .inl ⟨rfl, Extends.refl hs ha⟩
  rw [if_neg h0]
  dsimp only
  obtain ⟨x4, t4⟩ := allocTable_extends (i := pml4Idx virt) hs ha (p := []) rfl (by simp) (.inl rfl)
  generalize allocTable A m pml4 (pml4Idx virt) = r4 at *
  by_cases h4 : r4.2 = 0
  · rw [if_pos h4]
    exact .inl ⟨rfl, x4⟩
  rw [if_neg h4]
  have hh3 := fun he => x4.noHuge hn (r4.1.mem r4.2 (pdptIdx virt)) (.inl (entry_of (t4 h4))) he
  obtain ⟨x3, t3⟩ := allocTable_extends x4.unshared x4.avoids (t4 h4) (by simp) (.inr hh3)
  generalize allocTable A r4.1 r4.2 (pdptIdx virt) = r3 at *
  replace x3 := x4.trans x3
  by_cases h3 : r3.2 = 0
  · rw [if_pos h3]
    exact .inl ⟨rfl, x3⟩
  rw [if_neg h3]
  have hh2 := fun he => x3.noHuge hn (r3.1.mem r3.2 (pdIdx virt)) (.inr (entry_of (t3 h3))) he
  obtain ⟨x2, t2⟩ := allocTable_extends x3.unshared x3.avoids (t3 h3) (by simp) (.inr hh2)
  generalize allocTable A r3.1 r3.2 (pdIdx virt) = r2 at *
  replace x2 := x3.trans x2
  by_cases h2 : r2.2 = 0
  · rw [if_pos h2]
    exact .inl ⟨rfl, x2⟩
  rw [if_neg h2]
  exact .inr ⟨h0, r2.1, r2.2, x2, t2 h2, rfl⟩

end

/-! ### Setting the entry of a page -/

section
variable {mem : PhysMem} {pml4 virt v t e : Word}

theorem path_split (virt : Word) : path virt =
    [pdIdx virt, pdptIdx virt, pml4Idx virt].reverse ++ [ptIdx virt] := rfl

theorem walk_page (ht : tab nextTable mem pml4 [pdIdx v, pdptIdx v, pml4Idx v] = some t) :
    walk (entries mem pml4) [] (path v) =
      if present (mem t (ptIdx v)) then some (3, mem t (ptIdx v)) else none := by
  have he : entries mem pml4 [ptIdx v, pdIdx v, pdptIdx v, pml4Idx v] = some (mem t (ptIdx v)) :=
    entry_of ht
  rw [path_split, walk_append ht (by simp), walk, he]
  cases h : present (mem t (ptIdx v)) <;> simp [h]

theorem walk_set_page (hs : Unshared nextTable mem pml4)
    (ht : tab nextTable mem pml4 [pdIdx virt, pdptIdx virt, pml4Idx virt] = some t)
    (h : pageOf v = pageOf virt) :
    walk (entries (set mem t (ptIdx virt) e) pml4) [] (path v) =
      if present e then some (3, e) else none := by
  have hpath := path_eq_iff.mpr h
  have ht' := (hs.tab_set (e := e) (i := ptIdx virt) ht (by rfl) _).trans ht
  rw [hpath, walk_page ht', set_self]

theorem walk_set_other (hs : Unshared nextTable mem pml4)
    (ht : tab nextTable mem pml4 [pdIdx virt, pdptIdx virt, pml4Idx virt] = some t)
    (h : pageOf v ≠ pageOf virt) :
    walk (entries (set mem t (ptIdx virt) e) pml4) [] (path v) =
      walk (entries mem pml4) [] (path v) := by
  refine walk_update (hs.entry_set ht (by rfl)) rfl fun hpath => h (path_eq_iff.mp ?_)
  have := congrArg List.reverse hpath
  simpa [path] using this

theorem getPhys_of_walk_none (h : walk (entries mem pml4) [] (path v) = none) :
    vmmGetPhysInto mem pml4 v = 0 := by
  by_cases h0 : pml4 = 0
  · exact if_pos h0
  rw [getPhys_eq_walk h0, h]
  rfl

theorem vmmUnmapInto_cases (hn : NoHuge mem pml4 virt) : (vmmUnmapInto mem pml4 virt = mem ∧
      ∀ v, pageOf v = pageOf virt → vmmGetPhysInto mem pml4 v = 0) ∨
    pml4 ≠ 0 ∧ ∃ t, tab nextTable mem pml4 [pdIdx virt, pdptIdx virt, pml4Idx virt] = some t ∧
      vmmUnmapInto mem pml4 virt = set mem t (ptIdx virt) 0 := by
  by_cases h0 : pml4 = 0
  · exact .inl ⟨if_pos h0, fun v _ => if_pos h0⟩
  have t4 : tab nextTable mem pml4 [] = some pml4 := rfl
  have hnone : ∀ v, pageOf v = pageOf virt →
      walk (entries mem pml4) [] (path virt) = none → vmmGetPhysInto mem pml4 v = 0 := by
    intro v hv hw
    rw [← path_eq_iff.mpr hv] at hw
    exact getPhys_of_walk_none hw
  unfold vmmUnmapInto
  rw [if_neg h0]
  dsimp only
  cases hp4 : present (mem pml4 (pml4Idx virt)) with
  | false =>
    refine .inl ⟨rfl, fun v hv => hnone v hv ?_⟩
    have he : entries mem pml4 [pml4Idx virt] = some (mem pml4 (pml4Idx virt)) := entry_of t4
    rw [path, walk, he]
    simp [hp4]
  | true =>
    have t3 : tab nextTable mem pml4 [pml4Idx virt] = some (mem pml4 (pml4Idx virt) &&& addrMask) :=
      (tab_cons_of t4).trans (nextTable_of (by simp) hp4 (.inl rfl))
    generalize mem pml4 (pml4Idx virt) &&& addrMask = p3 at *
    simp only [Bool.not_true, Bool.false_eq_true, if_false]
    have he3 : entries mem pml4 [pdptIdx virt, pml4Idx virt] = some (mem p3 (pdptIdx virt)) :=
      entry_of t3
    cases hp3 : present (mem p3 (pdptIdx virt)) with
    | false =>
      refine .inl ⟨rfl, fun v hv => hnone v hv ?_⟩
      have hw : walk (entries mem pml4) [] (path virt) = walk (entries mem pml4) [pml4Idx virt]
          [pdptIdx virt, pdIdx virt, ptIdx virt] := walk_append t3 (by simp)
      refine hw.trans ?_
      rw [walk, he3]
      simp [hp3]
    | true =>
      have hh3 := hn _ (.inl he3) hp3
      have t2 : tab nextTable mem pml4 [pdptIdx virt, pml4Idx virt] =
          some (mem p3 (pdptIdx virt) &&& addrMask) :=
        (tab_cons_of t3).trans (nextTable_of (by simp) hp3 (.inr hh3))
      rw [hh3]
      generalize mem p3 (pdptIdx virt) &&& addrMask = p2 at *
      simp only [Bool.not_true, Bool.false_eq_true, if_false]
      have he2 : entries mem pml4 [pdIdx virt, pdptIdx virt, pml4Idx virt] =
          some (mem p2 (pdIdx virt)) := entry_of t2
      cases hp2 : present (mem p2 (pdIdx virt)) with
      | false =>
        refine .inl ⟨rfl, fun v hv => hnone v hv ?_⟩
        have hw : walk (entries mem pml4) [] (path virt) = walk (entries mem pml4)
            [pdptIdx virt, pml4Idx virt] [pdIdx virt, ptIdx virt] := walk_append t2 (by simp)
        refine hw.trans ?_
        rw [walk, he2]
        simp [hp2]
      | true =>
        have hh2 := hn _ (.inr he2) hp2
        have t1 : tab nextTable mem pml4 [pdIdx virt, pdptIdx virt, pml4Idx virt] =
            some (mem p2 (pdIdx virt) &&& addrMask) :=
          (tab_cons_of t2).trans (nextTable_of (by simp) hp2 (.inr hh2))
        refine .inr ⟨h0, _, t1, ?_⟩
        rw [hh2]
        simp

end

/-- Mapping a page whose walk meets no huge page translates every address of it and changes no
other translation, whatever frames the allocator returns outside the tree; a call that fails
changes none; unmapping the page leaves it untranslated and changes no other translation. -/
theorem map_unmap_translate {σ : Type*} (A : FrameSource σ) {m : Vm σ}
    (pml4 phys virt flags : Word) (ht : PageTree m.mem pml4)
    (hfree : A.Avoids m.frames (tables nextTable m.mem pml4)) (hphys : phys ≠ 0)
    (hframe : IsFrame phys) (hflags : flags &&& addrMask = 0) (hhuge : NoHuge m.mem pml4 virt)
    {r : Vm σ × Bool} (hr : r = vmmMapInto A m pml4 phys virt flags) :
    (r.2 = true → (∀ v, pageOf v = pageOf virt →
        vmmGetPhysInto r.1.mem pml4 v = phys + (v &&& 0xFFF) ∧ vmmGetPhysInto r.1.mem pml4 v ≠ 0) ∧
      ∀ v, pageOf v ≠ pageOf virt → vmmGetPhysInto r.1.mem pml4 v = vmmGetPhysInto m.mem pml4 v) ∧
    (r.2 = false → ∀ v, vmmGetPhysInto r.1.mem pml4 v = vmmGetPhysInto m.mem pml4 v) ∧
    (∀ v, pageOf v = pageOf virt → vmmGetPhysInto (vmmUnmapInto m.mem pml4 virt) pml4 v = 0) ∧
    ∀ v, pageOf v ≠ pageOf virt →
      vmmGetPhysInto (vmmUnmapInto m.mem pml4 virt) pml4 v = vmmGetPhysInto m.mem pml4 v := by
  subst hr
  have hs := ht.unshared
  refine ⟨fun hok => ?_, fun hfail v => ?_, fun v hv => ?_, fun v hv => ?_⟩
  · rcases vmmMapInto_cases phys flags hs hfree hhuge with
      ⟨hf, -⟩ | ⟨h0, m', t, hx, ht1, heq⟩
    · rw [hf] at hok
      cases hok
    rw [heq]
    refine ⟨fun v hv => ?_, fun v hv => ?_⟩
    · have hphysOf : vmmGetPhysInto (set m'.mem t (ptIdx virt) (pageEntry phys flags)) pml4 v =
          phys ||| (v &&& 0xFFF) := by
        rw [getPhys_eq_walk h0, walk_set_page hx.unshared ht1 hv, present_pageEntry]
        simp only [if_true, Option.map_some, Option.getD_some, physOf, addr_pageEntry hframe hflags]
      have hdisj : phys &&& (v &&& 0xFFF) = 0 := by
        rw [BitVec.and_comm v, ← BitVec.and_assoc, hframe.and_eq_zero (x := 0xFFF) (by decide)]
        simp
      refine ⟨by rw [hphysOf, BitVec.add_eq_or_of_and_eq_zero _ _ hdisj], ?_⟩
      rw [hphysOf]
      intro hz
      exact hphys (BitVec.or_eq_zero_iff.mp hz).1
    · rw [getPhys_eq_walk h0, walk_set_other hx.unshared ht1 hv, ← getPhys_eq_walk h0]
      exact hx.getPhys v
  · rcases vmmMapInto_cases phys flags hs hfree hhuge with
      ⟨-, hx⟩ | ⟨-, m', t, -, -, heq⟩
    · exact hx.getPhys v
    rw [heq] at hfail
    cases hfail
  · rcases vmmUnmapInto_cases hhuge with ⟨heq, hz⟩ | ⟨h0, t, ht1, heq⟩
    · rw [heq]
      exact hz v hv
    rw [heq]
    refine getPhys_of_walk_none ?_
    rw [walk_set_page hs ht1 hv, present_zero]
    rfl
  · rcases vmmUnmapInto_cases hhuge with ⟨heq, -⟩ | ⟨h0, t, ht1, heq⟩
    · rw [heq]
    · rw [heq, getPhys_eq_walk h0, walk_set_other hs ht1 hv, ← getPhys_eq_walk h0]

/-- A source that returns the frames of a list, one after the other. -/
def listSource : FrameSource (List Word) where
  alloc _ s := (s.tail, s.headD 0)
  Avoids s U := s.Nodup ∧ ∀ p ∈ s, p ≠ 0 ∧ IsFrame p ∧ p ∉ U
  alloc_avoids := by
    rintro (_ | ⟨p, ps⟩) z U ⟨hn, hs⟩
    · exact .inl ⟨rfl, List.nodup_nil, by simp⟩
    obtain ⟨h0, hf, hU⟩ := hs p (by simp)
    obtain ⟨hp, hps⟩ := List.nodup_cons.mp hn
    refine .inr ⟨h0, hf, hU, hps, fun q hq => ?_⟩
    obtain ⟨h1, h2, h3⟩ := hs q (List.mem_cons_of_mem _ hq)
    refine ⟨h1, h2, fun hmem => ?_⟩
    rcases Set.mem_insert_iff.mp hmem with rfl | hmem
    · exact hp hq
    · exact h3 hmem

theorem tab_zero (r : Word) (p : List (BitVec 9)) (hp : p ≠ []) :
    tab nextTable (fun _ _ => 0) r p = none := by
  cases p with
  | nil => exact absurd rfl hp
  | cons i p =>
    rw [tab_cons]
    cases tab nextTable (fun _ _ => 0) r p with
    | none => rfl
    | some t => exact nextTable_zero _

theorem pageTree_zero {r : Word} (h : IsFrame r) : PageTree (fun _ _ => 0) r := by
  refine ⟨h, fun p q t hp hq => ?_⟩
  by_cases h1 : p = []
  · by_cases h2 : q = []
    · rw [h1, h2]
    rw [tab_zero r q h2] at hq
    cases hq
  · rw [tab_zero r p h1] at hp
    cases hp

theorem tables_zero (r : Word) : tables nextTable (fun _ (_ : BitVec 9) => 0) r = {r} := by
  ext t
  constructor
  · rintro ⟨p, hp⟩
    by_cases h : p = []
    · subst h
      exact (Option.some.inj hp).symm
    · rw [tab_zero r p h] at hp
      cases hp
  · rintro rfl
    exact root_mem_tables

theorem noHuge_zero (r virt : Word) : NoHuge (fun _ _ => 0) r virt := by
  intro e he _
  rcases he with he | he
  · rw [entries, entry_of_none (tab_zero r _ (by simp))] at he
    cases he
  · rw [entries, entry_of_none (tab_zero r _ (by simp))] at he
    cases he

def sampleVm : Vm (List Word) := ⟨[0x2000, 0x3000, 0x4000], fun _ _ => 0⟩

theorem sampleVm_map : (vmmMapInto listSource sampleVm 0x1000 0x5000 0x400000 7).2 = true ∧
    vmmGetPhysInto (vmmMapInto listSource sampleVm 0x1000 0x5000 0x400000 7).1.mem 0x1000 0x400123 =
      0x5123 ∧
    vmmGetPhysInto (vmmUnmapInto sampleVm.mem 0x1000 0x400000) 0x1000 0x400123 = 0 := by
  have havoid : listSource.Avoids sampleVm.frames (tables nextTable sampleVm.mem 0x1000) := by
    refine ⟨by decide, fun p hp => ?_⟩
    have hp' : p = 0x2000 ∨ p = 0x3000 ∨ p = 0x4000 := by simpa [sampleVm] using hp
    obtain ⟨h1, h2, h3⟩ : p ≠ 0 ∧ IsFrame p ∧ p ≠ 0x1000 := by
      rcases hp' with rfl | rfl | rfl <;> decide
    refine ⟨h1, h2, fun hmem => h3 ?_⟩
    have htab : tables nextTable sampleVm.mem 0x1000 = {0x1000} := tables_zero 0x1000
    rw [htab] at hmem
    exact hmem
  obtain ⟨hmap, -, hunmap, -⟩ := map_unmap_translate listSource 0x1000 0x5000 0x400000 7
    (pageTree_zero (by decide)) havoid (by decide) (by decide) (by decide) (noHuge_zero _ _) rfl
  have hok : (vmmMapInto listSource sampleVm 0x1000 0x5000 0x400000 7).2 = true := by
    decide
  exact ⟨hok, ((hmap hok).1 0x400123 (by decide)).1, hunmap 0x400123 (by decide)⟩

end Exploidus.Mm
