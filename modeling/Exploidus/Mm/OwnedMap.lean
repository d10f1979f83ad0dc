import Exploidus.Mm.Owned

/-! Mapping, unmapping and translating a user page: the tables on the way belong to the tree. -/
namespace Exploidus.Mm
open RadixTree Function

/-- The index at which the way to an address leaves the table at a depth. -/
def idxAt (v : Word) : ℕ → BitVec 9
  | 0 => pml4Idx v
  | 1 => pdptIdx v
  | _ => pdIdx v

/-- The tables on the way to a user address, by their depth. -/
def OnWay (v : Word) : ℕ → Kind → Prop
  | 0, κ => κ = .root
  | 1, κ => ∃ low, κ = .pdpt low ∧ (low = true → pml4Idx v = 0)
  | 2, κ => κ = .pd none
  | _, κ => κ = .pt

/-- The kind of a table that is made for an entry at a depth. -/
def below : ℕ → Kind
  | 0 => .pdpt false
  | 1 => .pd none
  | _ => .pt

/-- A step that leaves every frame alone that nothing refers to. -/
structure Grow {σ : Type*} (A : FramePool σ) (K : Kern) (S : Set Word) (r : Word)
    (m : Vm σ) (own : Owner) (m' : Vm σ) (own' : Owner) : Prop where
  step : Step A K S r m own m' own'
  loose : ∀ {f}, Loose A K S m.frames own f → Loose A K S m'.frames own' f

section
variable {σ : Type*} {A : FramePool σ} {K : Kern} {S : Set Word} {r t f e v : Word}
  {m m' m'' : Vm σ} {own own' own'' : Owner} {κ : Kind} {i l : BitVec 9} {d : ℕ} {z : Zone}

theorem StateOk.grow_refl (h : StateOk A K S m own) : Grow A K S r m own m own :=
  ⟨h.step_refl, id⟩

theorem Grow.trans (h : Grow A K S r m own m' own') (h' : Grow A K S r m' own' m'' own'') :
    Grow A K S r m own m'' own'' :=
  ⟨h.step.trans h'.step, fun hf => h'.loose (h.loose hf)⟩

/-- An entry on the way to a user address leads to a table of the same tree. -/
theorem entryOk_iff (hd : d < 3) (hv : K.UserAddr v) (hw : OnWay v d κ) :
    EntryOk K S own r κ (idxAt v d) e ↔ (present e → (d = 0 ∨ huge e = false) ∧
      ∃ κ', own (e &&& addrMask) = some (r, κ') ∧ OnWay v (d + 1) κ') := by
  interval_cases d
  · obtain rfl := hw
    have hi : ¬ 256 ≤ (idxAt v 0).toNat := not_le.mpr hv.1
    rw [EntryOk, if_neg hi]
    refine ⟨fun h hp => ⟨.inl rfl, ?_⟩, fun h hp => ?_⟩
    · obtain ⟨low, ho, hl⟩ := h hp
      exact ⟨_, ho, low, rfl, hl⟩
    · obtain ⟨-, _, ho, low, rfl, hl⟩ := h hp
      exact ⟨low, ho, hl⟩
  · obtain ⟨low, rfl, hl⟩ := hw
    rw [EntryOk, if_neg fun hc => hv.2 ⟨hl hc.1, hc.2⟩]
    refine ⟨fun h hp => ⟨.inr (h hp).1, _, (h hp).2, rfl⟩, fun h hp => ?_⟩
    obtain ⟨hh, _, ho, rfl⟩ := h hp
    exact ⟨hh.resolve_left one_ne_zero, ho⟩
  · obtain rfl := hw
    refine ⟨fun h hp => ⟨.inr (h hp).1, _, (h hp).2, rfl⟩, fun h hp => ?_⟩
    obtain ⟨hh, _, ho, rfl⟩ := h hp
    exact ⟨hh.resolve_left two_ne_zero, ho⟩

theorem onWay_below (hd : d < 3) : OnWay v (d + 1) (below d) := by
  interval_cases d
  · exact ⟨false, rfl, nofun⟩
  · rfl
  · rfl

theorem entryOk_zero (d : ℕ) : EntryOk K S own r (below d) i 0 := by
  have h0 : ¬ present (0 : Word) := by decide
  rcases d with _ | _ | d
  · rw [below, EntryOk, if_neg fun hc => absurd hc.1 Bool.false_ne_true]
    exact fun hp => absurd hp h0
  · exact fun hp => absurd hp h0
  · exact fun hp => absurd hp h0

theorem or_and_of_disjoint {c x : Word} (h : c &&& x = 0) : (e ||| c) &&& x = e &&& x := by
  rw [BitVec.and_or_distrib_right, h]
  simp

/-! ### One level -/

section
variable (h : StateOk A K S m own) (ht : own t = some (r, κ)) (hd : d < 3) (hv : K.UserAddr v)
  (hw : OnWay v d κ)
include h ht hd hv hw

omit ht hd hv hw in
theorem StateOk.grow_fail (h0 : (A.alloc z m.frames).2 = 0) :
    Grow A K S r m own ⟨(A.alloc z m.frames).1, m.mem⟩ own := by
  refine ⟨h.alloc_fail h0, fun hf => ⟨hf.own, hf.shared, hf.kernel, ?_⟩⟩
  obtain ⟨-, ⟨-, -, ht⟩ | ⟨hmem, -, -⟩⟩ := A.alloc_spec z h.valid
  · exact ht ▸ hf.taken
  · exact absurd h0 (A.frame h.valid (.inl hmem)).2

theorem StateOk.new_table (h0 : (A.alloc z m.frames).2 ≠ 0) (hh : huge e = false)
    (he : e &&& addrMask = (A.alloc z m.frames).2) :
    ∃ own', Grow A K S r m own
        ⟨(A.alloc z m.frames).1, link m.mem t (idxAt v d) e (A.alloc z m.frames).2 0⟩ own' ∧
      own' (A.alloc z m.frames).2 = some (r, below d) := by
  have h1 := h.alloc_label h0 (fun _ => 0) (.inl (h.root ht)) fun i => entryOk_zero d
  obtain ⟨-, hl, hother⟩ := h.alloc h0
  generalize A.alloc z m.frames = a at *
  have hself : update own a.2 (some (r, below d)) a.2 = some (r, below d) := update_self ..
  have h2 := h1.ok.set (h1.keeps ht)
    ((entryOk_iff hd hv hw).mpr fun _ => ⟨.inr hh, _, he ▸ hself, onWay_below hd⟩)
  refine ⟨_, ⟨h1.trans h2, fun {f} hf => ?_⟩, hself⟩
  obtain ⟨htaken, hne⟩ := hother hf.taken
  exact ⟨(update_of_ne hne _ _).trans hf.own, hf.shared, hf.kernel, htaken⟩

theorem StateOk.allocTable (hi : i = idxAt v d) :
    ∃ own', Grow A K S r m own (allocTable A.source m t i).1 own' ∧
      ((allocTable A.source m t i).2 ≠ 0 →
        ∃ κ', own' (allocTable A.source m t i).2 = some (r, κ') ∧ OnWay v (d + 1) κ') := by
  subst hi
  unfold Mm.allocTable
  cases hp : present (m.mem t (idxAt v d)) with
  | true => exact ⟨own, h.grow_refl, fun _ => ((entryOk_iff hd hv hw).mp (h.entry ht _) hp).2⟩
  | false =>
    rw [if_neg Bool.false_ne_true]
    dsimp only
    by_cases h0 : (A.alloc .green m.frames).2 = 0
    · have h0' : (A.source.alloc .green m.frames).2 = 0 := h0
      rw [if_pos h0']
      exact ⟨own, h.grow_fail h0, fun hne => absurd rfl hne⟩
    have h0' : ¬ (A.source.alloc .green m.frames).2 = 0 := h0
    rw [if_neg h0']
    have hframe := ((h.alloc h0).1.isFrame (h.alloc h0).2.1.taken).1
    obtain ⟨own', hg, ho⟩ := h.new_table ht hd hv hw h0 (huge_tableEntry _) (addr_tableEntry hframe)
    exact ⟨own', hg, fun _ => ⟨_, ho, onWay_below hd⟩⟩

theorem StateOk.set_user (hp : present (m.mem t (idxAt v d))) : Grow A K S r m own
      ⟨m.frames, RadixTree.set m.mem t (idxAt v d) (m.mem t (idxAt v d) ||| vmmUser)⟩ own := by
  obtain ⟨hh, hnext⟩ := (entryOk_iff hd hv hw).mp (h.entry ht _) hp
  refine ⟨h.set ht ((entryOk_iff hd hv hw).mpr fun _ => ?_), id⟩
  rw [huge, or_and_of_disjoint (by decide), or_and_of_disjoint (by decide)]
  exact ⟨hh, hnext⟩

end

/-! ### `vmm_map_into` -/

theorem pageEntry_addr {phys flags : Word} (h : IsFrame phys) (hf : flags &&& addrMask = 0) :
    present (pageEntry phys flags) ∧ pageEntry phys flags &&& addrMask = phys :=
  ⟨present_pageEntry _ _, addr_pageEntry h hf⟩

/-- A frame that a tree may map: one that nothing refers to, or a shared one. -/
def Mappable (A : FramePool σ) (K : Kern) (S : Set Word) (s : σ) (own : Owner) (f : Word) : Prop :=
  Loose A K S s own f ∨ f ∈ S

theorem Grow.mappable (h : Grow A K S r m own m' own') (hf : Mappable A K S m.frames own f) :
    Mappable A K S m'.frames own' f :=
  hf.imp h.loose id

section
variable (h : StateOk A K S m own) {phys flags : Word} (hflags : flags &&& addrMask = 0)
  (hphys : Mappable A K S m.frames own phys)
include h hflags hphys

theorem StateOk.place (ht : own t = some (r, .pt)) :
    ∃ own', Step A K S r m own ⟨m.frames, RadixTree.set m.mem t l (pageEntry phys flags)⟩ own' := by
  rcases hphys with hf | hS
  · obtain ⟨-, haddr⟩ := pageEntry_addr (h.isFrame hf.taken).1 hflags
    have hr : update own phys (some (r, .page)) r = some (r, .root) :=
      (update_of_ne (ne_of_label (h.root ht) hf.own) _ _).trans (h.root ht)
    have h1 := h.label (κ := .page) hf hr fun _ => trivial
    refine ⟨_, h1.trans (h1.ok.set (h1.keeps ht) fun _ => .inl ?_)⟩
    rw [haddr, update_self]
  · obtain ⟨-, haddr⟩ := pageEntry_addr (h.isFrame (h.shared phys hS).2.2).1 hflags
    exact ⟨own, h.set ht fun _ => .inr (haddr.symm ▸ hS)⟩

/-- `vmm_map_into` of a user page. -/
theorem StateOk.mapInto (hr : own r = some (r, .root)) (hv : K.UserAddr v) :
    ∃ own', Step A K S r m own (vmmMapInto A.source m r phys v flags).1 own' ∧
      ((vmmMapInto A.source m r phys v flags).2 = false →
        Grow A K S r m own (vmmMapInto A.source m r phys v flags).1 own') := by
  unfold vmmMapInto
  rw [if_neg (h.isFrame (h.taken hr)).2]
  dsimp only
  obtain ⟨own4, g4, t4⟩ := h.allocTable hr (d := 0) (by decide) hv rfl (i := pml4Idx v) rfl
  generalize Mm.allocTable A.source m r (pml4Idx v) = r4 at *
  by_cases h4 : r4.2 = 0
  · rw [if_pos h4]
    exact ⟨own4, g4.step, fun _ => g4⟩
  rw [if_neg h4]
  obtain ⟨κ3, o3, w3⟩ := t4 h4
  obtain ⟨own3, g3, t3⟩ := g4.step.ok.allocTable o3 (by decide) hv w3 (i := pdptIdx v) rfl
  generalize Mm.allocTable A.source r4.1 r4.2 (pdptIdx v) = r3 at *
  replace g3 := g4.trans g3
  by_cases h3 : r3.2 = 0
  · rw [if_pos h3]
    exact ⟨own3, g3.step, fun _ => g3⟩
  rw [if_neg h3]
  obtain ⟨κ2, o2, w2⟩ := t3 h3
  obtain ⟨own2, g2, t2⟩ := g3.step.ok.allocTable o2 (by decide) hv w2 (i := pdIdx v) rfl
  generalize Mm.allocTable A.source r3.1 r3.2 (pdIdx v) = r2 at *
  replace g2 := g3.trans g2
  by_cases h2 : r2.2 = 0
  · rw [if_pos h2]
    exact ⟨own2, g2.step, fun _ => g2⟩
  rw [if_neg h2]
  obtain ⟨_, o1, rfl⟩ := t2 h2
  obtain ⟨own', hs⟩ := g2.step.ok.place (l := ptIdx v) hflags (g2.mappable hphys) o1
  exact ⟨own', g2.step.trans hs, nofun⟩

end

/-! ### Unmapping and translating -/

section
variable (h : StateOk A K S m own) (hr : own r = some (r, .root)) (hv : K.UserAddr v)
include h hr hv

theorem StateOk.walk_user :
    (∃ t, own t = some (r, .pt) ∧ vmmUnmapInto m.mem r v = RadixTree.set m.mem t (ptIdx v) 0 ∧
      vmmGetPhysInto m.mem r v = if present (m.mem t (ptIdx v)) then
        (m.mem t (ptIdx v) &&& addrMask) ||| (v &&& 0xFFF) else 0) ∨
    vmmUnmapInto m.mem r v = m.mem ∧ vmmGetPhysInto m.mem r v = 0 := by
  have h0 := (h.isFrame (h.taken hr)).2
  unfold vmmUnmapInto vmmGetPhysInto
  rw [if_neg h0, if_neg h0]
  dsimp only
  cases hp4 : present (m.mem r (pml4Idx v)) with
  | false => exact .inr ⟨rfl, rfl⟩
  | true =>
    obtain ⟨-, κ3, o3, w3⟩ := (entryOk_iff (d := 0) (by decide) hv rfl).mp (h.entry hr _) hp4
    simp only [Bool.not_true, Bool.false_eq_true, if_false]
    replace o3 : own (m.mem r (pml4Idx v) &&& addrMask) = some (r, κ3) := o3
    generalize m.mem r (pml4Idx v) &&& addrMask = p3 at *
    cases hp3 : present (m.mem p3 (pdptIdx v)) with
    | false => exact .inr ⟨rfl, rfl⟩
    | true =>
      obtain ⟨hh2, κ2, o2, w2⟩ := (entryOk_iff (by decide) hv w3).mp (h.entry o3 _) hp3
      replace hh2 : huge (m.mem p3 (pdptIdx v)) = false := hh2.resolve_left one_ne_zero
      replace o2 : own (m.mem p3 (pdptIdx v) &&& addrMask) = some (r, κ2) := o2
      rw [hh2]
      simp only [Bool.not_true, Bool.false_eq_true, if_false]
      generalize m.mem p3 (pdptIdx v) &&& addrMask = p2 at *
      cases hp2 : present (m.mem p2 (pdIdx v)) with
      | false => exact .inr ⟨rfl, rfl⟩
      | true =>
        obtain ⟨hh1, _, o1, rfl⟩ := (entryOk_iff (by decide) hv w2).mp (h.entry o2 _) hp2
        replace hh1 : huge (m.mem p2 (pdIdx v)) = false := hh1.resolve_left two_ne_zero
        rw [hh1]
        simp only [Bool.not_true, Bool.false_eq_true, if_false]
        refine .inl ⟨m.mem p2 (pdIdx v) &&& addrMask, o1, rfl, ?_⟩
        cases present (m.mem (m.mem p2 (pdIdx v) &&& addrMask) (ptIdx v)) <;> rfl

/-- `vmm_unmap_into` of a user page. -/
theorem StateOk.unmapInto : Step A K S r m own ⟨m.frames, vmmUnmapInto m.mem r v⟩ own := by
  rcases h.walk_user hr hv with ⟨t, ht, hun, -⟩ | ⟨hun, -⟩
  · rw [hun]
    exact h.set ht fun hp => absurd hp (by decide)
  · rw [hun]
    exact h.step_refl

/-- `vmm_get_phys_into` of a user page. -/
theorem StateOk.getPhys : vmmGetPhysInto m.mem r v = 0 ∨
    ∃ f, (own f = some (r, .page) ∨ f ∈ S) ∧ IsFrame f ∧
      vmmGetPhysInto m.mem r v = f ||| (v &&& 0xFFF) := by
  rcases h.walk_user hr hv with ⟨t, ht, -, hget⟩ | ⟨-, hget⟩
  · rw [hget]
    cases hp : present (m.mem t (ptIdx v)) with
    | false => exact .inl rfl
    | true =>
      have he : own _ = some (r, .page) ∨ _ ∈ S := h.entry ht (ptIdx v) hp
      refine .inr ⟨_, he, ?_, rfl⟩
      exact (h.isFrame (he.elim h.taken fun hS => (h.shared _ hS).2.2)).1
  · exact .inl hget

end

end
end Exploidus.Mm
