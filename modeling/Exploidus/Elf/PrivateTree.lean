import Exploidus.Elf.Loader
import Exploidus.Mm.OwnedMap

/-! The private tree of page tables that the loader makes, and the pages it maps in it, in terms of
the labels of the frames. -/
namespace Exploidus.Elf
open RadixTree Mm Function

variable {σ : Type*} {A : FramePool σ} {K : Kern} {S : Set Word} {r t f v : Word}
  {m m' : Vm σ} {own own' : Owner} {κ : Kind} {i j : BitVec 9} {d : ℕ}

/-! ### One page -/

theorem newEntry (hf : IsFrame f) : huge (f ||| 7) = false ∧ (f ||| 7) &&& addrMask = f := by
  have heq : f ||| 7 = tableEntry f := by
    rw [tableEntry_eq, hf]
  rw [heq]
  exact ⟨huge_tableEntry f, addr_tableEntry hf⟩

theorem tableAt_grow (h : StateOk A K S m own) (ht : own t = some (r, κ)) (hd : d < 3)
    (hv : K.UserAddr v) (hw : OnWay v d κ) (hi : i = idxAt v d) (isUser : Bool) :
    ∃ own', Grow A K S r m own (tableAt A m t i isUser).1 own' ∧
      ∀ t', (tableAt A m t i isUser).2 = some t' →
        ∃ κ', own' t' = some (r, κ') ∧ OnWay v (d + 1) κ' := by
  subst hi
  unfold tableAt
  dsimp only
  cases hp : present (m.mem t (idxAt v d)) with
  | false =>
    rw [if_pos (by simp)]
    by_cases h0 : (A.alloc .green m.frames).2 = 0
    · rw [if_pos h0]
      exact ⟨own, h.grow_fail h0, nofun⟩
    rw [if_neg h0]
    obtain ⟨h1, hl, -⟩ := h.alloc h0
    obtain ⟨hh, haddr⟩ := newEntry (h1.isFrame hl.taken).1
    obtain ⟨own', hg, ho⟩ := h.new_table ht hd hv hw h0 hh haddr
    refine ⟨own', hg, fun t' ht' => ?_⟩
    rw [← Option.some.inj ht', haddr]
    exact ⟨_, ho, onWay_below hd⟩
  | true =>
    rw [if_neg (by simp)]
    have hnext := ((entryOk_iff hd hv hw).mp (h.entry ht _) hp).2
    cases isUser with
    | false =>
      refine ⟨own, h.grow_refl, fun t' ht' => ?_⟩
      rwa [← Option.some.inj ht']
    | true =>
      refine ⟨own, h.set_user ht hd hv hw hp, fun t' ht' => ?_⟩
      rwa [← Option.some.inj ht', or_and_of_disjoint (by decide)]

theorem mapPage_step {phys flags : Word} (h : StateOk A K S m own) (hr : own r = some (r, .root))
    (hv : K.UserAddr v) (hflags : flags &&& addrMask = 0)
    (hphys : Mappable A K S m.frames own phys) :
    ∃ own', Step A K S r m own (mapPage A m r v phys flags).1 own' := by
  unfold mapPage
  dsimp only
  generalize (flags &&& vmmUser != 0) = isUser
  obtain ⟨own4, g4, t4⟩ := tableAt_grow h hr (d := 0) (by decide) hv rfl (i := pml4Idx v) rfl isUser
  generalize tableAt A m r (pml4Idx v) isUser = r4 at *
  obtain ⟨m4, _ | pdpt⟩ := r4
  · exact ⟨own4, g4.step⟩
  dsimp only at *
  obtain ⟨κ3, o3, w3⟩ := t4 _ rfl
  obtain ⟨own3, g3, t3⟩ := tableAt_grow g4.step.ok o3 (by decide) hv w3 (i := pdptIdx v) rfl isUser
  generalize tableAt A m4 pdpt (pdptIdx v) isUser = r3 at *
  replace g3 := g4.trans g3
  obtain ⟨m3, _ | pd⟩ := r3
  · exact ⟨own3, g3.step⟩
  dsimp only at *
  by_cases hh : (present (m3.mem pd (pdIdx v)) && huge (m3.mem pd (pdIdx v)))
  · rw [if_pos hh]
    exact ⟨own3, g3.step⟩
  rw [if_neg hh]
  obtain ⟨κ2, o2, w2⟩ := t3 _ rfl
  obtain ⟨own2, g2, t2⟩ := tableAt_grow g3.step.ok o2 (by decide) hv w2 (i := pdIdx v) rfl isUser
  generalize tableAt A m3 pd (pdIdx v) isUser = r2 at *
  replace g2 := g3.trans g2
  obtain ⟨m2, _ | pt⟩ := r2
  · exact ⟨own2, g2.step⟩
  dsimp only at *
  obtain ⟨_, o1, rfl⟩ := t2 _ rfl
  obtain ⟨own', hs⟩ := g2.step.ok.place (l := ptIdx v) hflags (g2.mappable hphys) o1
  exact ⟨own', g2.step.trans hs⟩

/-! ### The page loops -/

/-- Pages `j` to `j + n - 1` from `v` on are user pages. -/
def UserPages (K : Kern) (v : Word) (j n : ℕ) : Prop :=
  ∀ k ∈ List.range' j n, K.UserAddr (v + BitVec.ofNat 64 (k * pageSize))
  deriving Decidable

theorem placePages_step {flags : Word} (hflags : flags &&& addrMask = 0)
    (content : ℕ → BitVec 9 → Word) {n j : ℕ} (h : StateOk A K S m own)
    (hr : own r = some (r, .root)) (hv : UserPages K v j n) :
    ∃ own', Step A K S r m own (placePages A r v flags content n j m).1 own' := by
  induction n generalizing j m own with
  | zero => exact ⟨own, h.step_refl⟩
  | succ n ih =>
    rw [placePages]
    dsimp only
    by_cases h0 : (A.alloc .red m.frames).2 = 0
    · rw [if_pos h0]
      exact ⟨own, h.alloc_fail h0⟩
    rw [if_neg h0]
    obtain ⟨h1, hl, -⟩ := h.alloc h0
    have hs1 := h1.fill (r := r) hl.own hl.kernel (content j)
    obtain ⟨own1, hs2⟩ := mapPage_step hs1.ok hr (hv j (by simp)) hflags (.inl hl)
    have hs : Step A K S r m own _ own1 := ⟨hs2.ok, hs2.keeps, fun ho hx =>
      (hs2.mem ho hx).trans (hs1.mem ho hx)⟩
    generalize mapPage A _ _ _ _ _ = res at *
    cases res.2 with
    | false => exact ⟨own1, hs⟩
    | true =>
      obtain ⟨own2, hs'⟩ := ih (j := j + 1) hs.ok (hs.keeps hr)
        fun k hk => hv k (List.mem_cons_of_mem _ hk)
      exact ⟨own2, hs.trans hs'⟩

/-! ### The private tree -/

theorem copyEntry {k : Word} (hf : IsFrame f) :
    huge (f ||| (k &&& 0xFFF)) = huge k ∧ (f ||| (k &&& 0xFFF)) &&& addrMask = f := by
  constructor
  · have hlow : ∀ {x : Word}, addrMask &&& x = 0 → 0xFFF &&& x = x →
        (f ||| (k &&& 0xFFF)) &&& x = k &&& x := by
      intro x h1 h2
      rw [BitVec.and_or_distrib_right, ← hf, BitVec.and_assoc, h1, BitVec.and_assoc, h2]
      simp
    unfold huge
    rw [hlow (by decide) (by decide)]
  · have h0 : (0xFFF : Word) &&& addrMask = 0 := by decide
    rw [BitVec.and_or_distrib_right, BitVec.and_assoc, h0, hf]
    simp

theorem copyPd_step {pdpt : Word} (h : StateOk A K S m own)
    (hpdpt : own pdpt = some (r, .pdpt true)) (hlow : present (K.mem K.pml4 0)) :
    ∃ own', Step A K S r m own (copyPd A K.pdpt pdpt j m).1 own' := by
  unfold copyPd
  dsimp only
  rw [(h.kernel _ ⟨[0], Kern.tab_low hlow⟩).1]
  cases hp : present (K.mem K.pdpt j) with
  | false => exact ⟨own, h.step_refl⟩
  | true =>
    rw [if_pos rfl]
    by_cases h0 : (A.alloc .green m.frames).2 = 0
    · rw [if_pos h0]
      exact ⟨own, h.alloc_fail h0⟩
    rw [if_neg h0]
    have h1 := h.alloc_label (κ := .pd (some j)) h0 (m.mem (K.pd j)) (.inl (h.root hpdpt))
      fun i hh => by rw [(h.kernel _ ⟨_, Kern.tab_pd ⟨hlow, hp⟩ hh⟩).1]
    generalize A.alloc .green m.frames = a at *
    have hself : update own a.2 (some (r, .pd (some j))) a.2 = some (r, .pd (some j)) :=
      update_self ..
    obtain ⟨hh, haddr⟩ := copyEntry (k := K.mem K.pdpt j) (h1.ok.isFrame (h1.ok.taken hself)).1
    have h2 := h1.ok.set (i := j) (e := a.2 ||| (K.mem K.pdpt j &&& 0xFFF)) (h1.keeps hpdpt) (by
      rw [EntryOk, if_pos ⟨rfl, hlow, hp⟩, haddr]
      exact .inr ⟨hh, hself⟩)
    exact ⟨_, h1.trans h2⟩

theorem giveUp_pdpt {pdpt : Word} (hs : Step A K S r m own m' own') (h : StateOk A K S m own)
    (hr : own r = none) (hr' : own' r = some (r, .root))
    (hp : own' pdpt = some (r, .pdpt true)) :
    Step A K S r m own ⟨A.release r (A.release pdpt m'.frames), m'.mem⟩ (disown own' r) := by
  have hne : r ≠ pdpt := by
    rintro rfl
    rw [hr'] at hp
    cases hp
  have hd := hs.ok.disown r
  have hlr := hs.ok.disown_loose hr'
  have hlp := hs.ok.disown_loose hp
  exact hs.giveUp h hr ((hd.release hlp).release (hd.release_loose hlp.taken hne hlr))

theorem makeIsolatedPml4_step (h : StateOk A K S m own) :
    ∃ r own', own r = none ∧ Step A K S r m own (makeIsolatedPml4 A K.pml4 m).1 own' ∧
      ((makeIsolatedPml4 A K.pml4 m).2 ≠ 0 →
        (makeIsolatedPml4 A K.pml4 m).2 = r ∧ own' r = some (r, .root)) := by
  unfold makeIsolatedPml4
  dsimp only
  by_cases h0 : (A.alloc .green m.frames).2 = 0
  · rw [if_pos h0]
    refine ⟨0, own, ?_, h.alloc_fail h0, fun hne => absurd rfl hne⟩
    by_contra hc
    obtain ⟨x, hx⟩ := Option.ne_none_iff_exists'.mp hc
    exact (h.isFrame (h.taken hx)).2 rfl
  rw [if_neg h0, (h.kernel _ root_mem_tables).1]
  have hs := h.alloc_label (κ := .root) h0 (fun i => if i.toNat < 256 then 0 else K.mem K.pml4 i)
    (.inr ⟨rfl, rfl⟩) fun i => by
      rw [EntryOk]
      split_ifs with hu hi
      · omega
      · rfl
      · exact fun hp => absurd hp (by decide)
      · omega
  have hnone := (h.alloc h0).2.1.own
  generalize A.alloc .green m.frames = a at *
  obtain ⟨s1, r⟩ := a
  dsimp only at *
  have hr : update own r (some (r, .root)) r = some (r, .root) := update_self ..
  generalize update own r (some (r, .root)) = own1 at *
  generalize update m.mem r _ = mem1 at *
  have hk : mem1 K.pml4 = K.mem K.pml4 := (hs.ok.kernel _ root_mem_tables).1
  have hkpdpt : K.mem K.pml4 0 &&& addrMask = K.pdpt := rfl
  simp only [hk, hkpdpt]
  refine ⟨r, ?_⟩
  cases hlow : present (K.mem K.pml4 0) with
  | false => exact ⟨own1, hnone, hs, fun _ => ⟨rfl, hr⟩⟩
  | true =>
    rw [if_neg (by simp)]
    by_cases h1 : (A.alloc .green s1).2 = 0
    · rw [if_pos h1]
      have hs' := hs.trans (hs.ok.alloc_fail h1)
      have hd := (hs'.ok.disown r).release (hs'.ok.disown_loose hr)
      exact ⟨_, hnone, hs'.giveUp h hnone hd, fun hne => absurd rfl hne⟩
    rw [if_neg h1]
    have hkp : mem1 K.pdpt = K.mem K.pdpt := (hs.ok.kernel _ ⟨_, Kern.tab_low hlow⟩).1
    have hs1 := hs.ok.alloc_label (κ := .pdpt true) h1 (mem1 K.pdpt) (.inl hr) fun j => by
      rw [hkp, EntryOk]
      split_ifs with hc
      · exact .inl rfl
      · exact fun hp => absurd ⟨rfl, hlow, hp⟩ hc
    dsimp only at hs1
    generalize A.alloc .green s1 = b at *
    obtain ⟨s2, pdpt⟩ := b
    dsimp only at *
    have hp2 : update own1 pdpt (some (r, .pdpt true)) pdpt = some (r, .pdpt true) :=
      update_self ..
    have hr2 := hs1.keeps hr
    replace hs1 := hs.trans hs1
    generalize update own1 pdpt (some (r, .pdpt true)) = own2 at *
    obtain ⟨own3, hs3⟩ := copyPd_step (j := 0) hs1.ok hp2 hlow
    replace hs1 := hs1.trans hs3
    have hr3 := hs3.keeps hr2
    have hp3 := hs3.keeps hp2
    generalize copyPd A K.pdpt pdpt 0 _ = c at *
    cases c.2 with
    | false => exact ⟨_, hnone, giveUp_pdpt hs1 h hnone hr3 hp3, fun hne => absurd rfl hne⟩
    | true =>
      obtain ⟨own4, hs4⟩ := copyPd_step (j := 1) hs1.ok hp3 hlow
      replace hs1 := hs1.trans hs4
      have hr4 := hs4.keeps hr3
      have hp4 := hs4.keeps hp3
      rw [if_neg (by simp)]
      generalize copyPd A K.pdpt pdpt 1 _ = c at *
      cases c.2 with
      | false => exact ⟨_, hnone, giveUp_pdpt hs1 h hnone hr4 hp4, fun hne => absurd rfl hne⟩
      | true =>
        obtain ⟨-, haddr⟩ := copyEntry (k := K.mem K.pml4 0) (hs1.ok.isFrame (hs1.ok.taken hp4)).1
        refine ⟨own4, hnone, hs1.trans (hs1.ok.set hr4 ?_), fun _ => ⟨rfl, hr4⟩⟩
        rw [EntryOk, if_neg (by decide), haddr]
        exact fun _ => ⟨true, hp4, fun _ => rfl⟩

end Exploidus.Elf
