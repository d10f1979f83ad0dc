import Exploidus.Mm.FramePool

/-! Ownership of frames. Every frame that an address space uses is labelled with the root of its
tree and with what the tree uses it for; what an entry may contain follows from the label of its
table alone. -/
namespace Exploidus.Mm
open RadixTree Function Option

/-- The kernel's own page tables, as they are when the first process is made. -/
structure Kern where
  pml4 : Word
  mem : PhysMem

namespace Kern
variable (K : Kern)

def tables : Set Word := RadixTree.tables nextTable K.mem K.pml4

/-- The table behind the first entry of the PML4. -/
def pdpt : Word := K.mem K.pml4 0 &&& addrMask

/-- The kernel maps something in the `j`-th gigabyte. -/
def Low (j : BitVec 9) : Prop :=
  present (K.mem K.pml4 0) = true ∧ present (K.mem K.pdpt j) = true
  deriving Decidable

def pd (j : BitVec 9) : Word := K.mem K.pdpt j &&& addrMask

/-- The first two indices of an address in the lower half where the kernel maps nothing. -/
def User (i j : BitVec 9) : Prop := i.toNat < 256 ∧ ¬ (i = 0 ∧ K.Low j)
  deriving Decidable

/-- An address of the lower half where the kernel maps nothing. -/
def UserAddr (v : Word) : Prop := K.User (pml4Idx v) (pdptIdx v)
  deriving Decidable

end Kern

/-- What a tree uses a frame for. A `low` PDPT began as a copy of the kernel's first one, a page
directory may be a copy of the kernel's for a gigabyte. -/
inductive Kind where
  | root
  | pdpt (low : Bool)
  | pd (copy : Option (BitVec 9))
  | pt
  | page

abbrev Label := Word × Kind

abbrev Owner := Word → Option Label

section
variable (K : Kern) (S : Set Word) (own : Owner)

/-- What entry `i` of a frame of the tree `r` may hold. `S` are the frames that several trees may
map. -/
def EntryOk (r : Word) : Kind → BitVec 9 → Word → Prop
  | .root, i, e =>
    if 256 ≤ i.toNat then e = K.mem K.pml4 i
    else present e = true → ∃ low, own (e &&& addrMask) = some (r, .pdpt low) ∧ (low = true → i = 0)
  | .pdpt low, j, e =>
    if low = true ∧ K.Low j then e = K.mem K.pdpt j ∨
      huge e = huge (K.mem K.pdpt j) ∧ own (e &&& addrMask) = some (r, .pd (some j))
    else present e = true → huge e = false ∧ own (e &&& addrMask) = some (r, .pd none)
  | .pd (some j), k, e => huge (K.mem K.pdpt j) = false → e = K.mem (K.pd j) k
  | .pd none, _, e => present e = true → huge e = false ∧ own (e &&& addrMask) = some (r, .pt)
  | .pt, _, e => present e = true → own (e &&& addrMask) = some (r, .page) ∨ e &&& addrMask ∈ S
  | .page, _, _ => True

end

structure StateOk {σ : Type*} (A : FramePool σ) (K : Kern) (S : Set Word) (m : Vm σ)
    (own : Owner) : Prop where
  valid : A.Valid m.frames
  kernel : ∀ t ∈ K.tables, m.mem t = K.mem t ∧ own t = none ∧ t ∉ A.Free m.frames
  shared : ∀ f ∈ S, own f = none ∧ f ∉ K.tables ∧ f ∈ A.Taken m.frames
  taken : ∀ {t x}, own t = some x → t ∈ A.Taken m.frames
  root : ∀ {t x}, own t = some x → own x.1 = some (x.1, .root)
  entry : ∀ {t x}, own t = some x → ∀ i, EntryOk K S own x.1 x.2 i (m.mem t i)

/-- A frame that was taken and that nothing refers to. -/
structure Loose {σ : Type*} (A : FramePool σ) (K : Kern) (S : Set Word) (s : σ) (own : Owner)
    (f : Word) : Prop where
  own : own f = none
  shared : f ∉ S
  kernel : f ∉ K.tables
  taken : f ∈ A.Taken s

/-- Nothing but the tree `r` changes, and what was labelled is labelled as before. -/
structure Step {σ : Type*} (A : FramePool σ) (K : Kern) (S : Set Word) (r : Word)
    (m : Vm σ) (own : Owner) (m' : Vm σ) (own' : Owner) : Prop where
  ok : StateOk A K S m' own'
  keeps : ∀ {t x}, own t = some x → own' t = some x
  mem : ∀ {t x}, own t = some x → x.1 ≠ r → m'.mem t = m.mem t

section
variable {σ : Type*} {A : FramePool σ} {K : Kern} {S S' : Set Word} {r t f e : Word}
  {m m' m'' : Vm σ} {own own' own'' : Owner} {κ : Kind} {q : List (BitVec 9)} {i : BitVec 9}
  {z : Zone}

theorem StateOk.step_refl (h : StateOk A K S m own) : Step A K S r m own m own :=
  ⟨h, id, fun _ _ => rfl⟩

theorem Step.trans (h : Step A K S r m own m' own') (h' : Step A K S r m' own' m'' own'') :
    Step A K S r m own m'' own'' :=
  ⟨h'.ok, fun ho => h'.keeps (h.keeps ho),
    fun ho hr => (h'.mem (h.keeps ho) hr).trans (h.mem ho hr)⟩

theorem ne_of_label {x : Label} (ht : own t = some x) (hf : own f = none) : t ≠ f := by
  rintro rfl
  rw [hf] at ht
  cases ht

theorem EntryOk.mono (h : EntryOk K S own r κ i e)
    (hown : ∀ {κ'}, own (e &&& addrMask) = some (r, κ') → own' (e &&& addrMask) = some (r, κ'))
    (hS : e &&& addrMask ∈ S → e &&& addrMask ∈ S') : EntryOk K S' own' r κ i e := by
  rcases κ with _ | low | (_ | j) | _ | _
  · rw [EntryOk] at h ⊢
    split_ifs at h ⊢
    · exact h
    · exact fun hp => (h hp).imp fun _ hl => ⟨hown hl.1, hl.2⟩
  · rw [EntryOk] at h ⊢
    split_ifs at h ⊢
    · exact h.imp id fun hc => ⟨hc.1, hown hc.2⟩
    · exact fun hp => ⟨(h hp).1, hown (h hp).2⟩
  · exact fun hp => ⟨(h hp).1, hown (h hp).2⟩
  · exact h
  · exact fun hp => (h hp).imp hown hS
  · trivial

/-! ### The primitives -/

section
variable (h : StateOk A K S m own)
include h

theorem StateOk.isFrame (hf : f ∈ A.Taken m.frames) : IsFrame f ∧ f ≠ 0 :=
  A.frame h.valid (.inr hf)

theorem StateOk.of_free (hf : f ∈ A.Free m.frames) : own f = none ∧ f ∉ S ∧ f ∉ K.tables := by
  have hnt := A.apart h.valid hf
  refine ⟨?_, fun hS => hnt (h.shared f hS).2.2, fun hk => (h.kernel f hk).2.2 hf⟩
  cases ho : own f with
  | none => rfl
  | some x => exact absurd (h.taken ho) hnt

theorem StateOk.alloc_fail (h0 : (A.alloc z m.frames).2 = 0) :
    Step A K S r m own ⟨(A.alloc z m.frames).1, m.mem⟩ own := by
  obtain ⟨hv, ⟨-, hf, ht⟩ | ⟨hmem, -, -⟩⟩ := A.alloc_spec z h.valid
  · refine ⟨⟨hv, ?_, ?_, fun ho => ?_, h.root, h.entry⟩, id, fun _ _ => rfl⟩
    · rw [hf]
      exact h.kernel
    · rw [ht]
      exact h.shared
    · rw [ht]
      exact h.taken ho
  · exact absurd h0 (A.frame h.valid (.inl hmem)).2

theorem StateOk.alloc (h0 : (A.alloc z m.frames).2 ≠ 0) :
    StateOk A K S ⟨(A.alloc z m.frames).1, m.mem⟩ own ∧
      Loose A K S (A.alloc z m.frames).1 own (A.alloc z m.frames).2 ∧
      ∀ {g}, g ∈ A.Taken m.frames → g ∈ A.Taken (A.alloc z m.frames).1 ∧
        g ≠ (A.alloc z m.frames).2 := by
  obtain ⟨hv, ⟨h0', -, -⟩ | ⟨hmem, hf, ht⟩⟩ := A.alloc_spec z h.valid
  · exact absurd h0' h0
  generalize A.alloc z m.frames = a at *
  obtain ⟨hown, hS, hK⟩ := h.of_free hmem
  rw [ht]
  refine ⟨⟨hv, fun t hk => ?_, fun g hg => ?_, fun ho => ?_, h.root, h.entry⟩,
    ⟨hown, hS, hK, ?_⟩, fun hg => ⟨.inr hg, ?_⟩⟩
  · obtain ⟨h1, h2, h3⟩ := h.kernel t hk
    rw [hf]
    exact ⟨h1, h2, fun hm => h3 hm.1⟩
  · obtain ⟨h1, h2, h3⟩ := h.shared g hg
    rw [ht]
    exact ⟨h1, h2, .inr h3⟩
  · rw [ht]
    exact .inr (h.taken ho)
  · rw [ht]
    exact .inl rfl
  · rintro rfl
    exact A.apart h.valid hmem hg

theorem StateOk.rewrite {mem' : PhysMem} (hk : ∀ t ∈ K.tables, mem' t = m.mem t)
    (hentry : ∀ {t x}, own t = some x → ∀ i, EntryOk K S own x.1 x.2 i (mem' t i))
    (hmem : ∀ {t x}, own t = some x → x.1 ≠ r → mem' t = m.mem t) :
    Step A K S r m own ⟨m.frames, mem'⟩ own :=
  ⟨⟨h.valid, fun t ht => ⟨(hk t ht).trans (h.kernel t ht).1, (h.kernel t ht).2⟩, h.shared, h.taken,
    h.root, hentry⟩, id, hmem⟩

/-- A frame that nothing refers to, or that several trees may map, is written. -/
theorem StateOk.fill (hown : own f = none) (hK : f ∉ K.tables) (row : BitVec 9 → Word) :
    Step A K S r m own ⟨m.frames, update m.mem f row⟩ own := by
  have hmem : ∀ {t x}, own t = some x → update m.mem f row t = m.mem t := fun ho =>
    update_of_ne (ne_of_label ho hown) _ _
  refine h.rewrite (fun t hk => update_of_ne ?_ _ _) (fun ho i => ?_) fun ho _ => hmem ho
  · rintro rfl
    exact hK hk
  · rw [hmem ho]
    exact h.entry ho i

/-- A frame that nothing refers to becomes part of a tree. -/
theorem StateOk.label (hf : Loose A K S m.frames own f)
    (hr : update own f (some (r, κ)) r = some (r, .root))
    (hrow : ∀ i, EntryOk K S (update own f (some (r, κ))) r κ i (m.mem f i)) :
    Step A K S r m own m (update own f (some (r, κ))) := by
  have hself : update own f (some (r, κ)) f = some (r, κ) := update_self ..
  have hkeep : ∀ {t x}, own t = some x → update own f (some (r, κ)) t = some x := fun ho =>
    (update_of_ne (ne_of_label ho hf.own) _ _).trans ho
  have hcases : ∀ {t x}, update own f (some (r, κ)) t = some x →
      t = f ∧ x = (r, κ) ∨ own t = some x := by
    intro t x ho
    by_cases ht : t = f
    · rw [ht, hself] at ho
      exact .inl ⟨ht, (some.inj ho).symm⟩
    · rw [update_of_ne ht] at ho
      exact .inr ho
  refine ⟨⟨h.valid, fun t hk => ?_, fun g hg => ?_, fun ho => ?_, fun ho => ?_, fun ho i => ?_⟩,
    hkeep, fun _ _ => rfl⟩
  · have hne : t ≠ f := by
      rintro rfl
      exact hf.kernel hk
    rw [update_of_ne hne]
    exact h.kernel t hk
  · have hne : g ≠ f := by
      rintro rfl
      exact hf.shared hg
    rw [update_of_ne hne]
    exact h.shared g hg
  · rcases hcases ho with ⟨rfl, -⟩ | ho
    · exact hf.taken
    · exact h.taken ho
  · rcases hcases ho with ⟨-, rfl⟩ | ho
    · exact hr
    · exact hkeep (h.root ho)
  · rcases hcases ho with ⟨rfl, rfl⟩ | ho
    · exact hrow i
    · exact (h.entry ho i).mono hkeep id

theorem StateOk.set (ht : own t = some (r, κ)) (he : EntryOk K S own r κ i e) :
    Step A K S r m own ⟨m.frames, set m.mem t i e⟩ own := by
  refine h.rewrite (fun u hk => set_table_ne (ne_of_label ht (h.kernel u hk).2.1).symm)
    (fun {u x} ho j => ?_) fun {u x} ho hx => set_table_ne ?_
  · by_cases hc : u = t ∧ j = i
    · obtain ⟨rfl, rfl⟩ := hc
      obtain rfl := some.inj (ht.symm.trans ho)
      rwa [set_self]
    · rw [set_of_ne (not_and_or.mp hc)]
      exact h.entry ho j
  · rintro rfl
    exact hx (congrArg Prod.fst (some.inj (ho.symm.trans ht)))

theorem StateOk.write (hf : own f = some (r, .page) ∨ f ∈ S) (i : BitVec 9) (e : Word) :
    Step A K S r m own ⟨m.frames, RadixTree.set m.mem f i e⟩ own := by
  rcases hf with hf | hf
  · exact h.set hf trivial
  · obtain ⟨hown, hK, -⟩ := h.shared f hf
    exact h.fill hown hK _

theorem StateOk.release (hf : Loose A K S m.frames own f) :
    StateOk A K S ⟨A.release f m.frames, m.mem⟩ own := by
  obtain ⟨hv, hfree, htaken⟩ := A.release_taken h.valid hf.taken
  refine ⟨hv, fun t hk => ?_, fun g hg => ?_, fun ho => ?_, h.root, h.entry⟩
  · obtain ⟨h1, h2, h3⟩ := h.kernel t hk
    rw [hfree]
    refine ⟨h1, h2, ?_⟩
    rintro (rfl | hm)
    · exact hf.kernel hk
    · exact h3 hm
  · obtain ⟨h1, h2, h3⟩ := h.shared g hg
    rw [htaken]
    refine ⟨h1, h2, h3, ?_⟩
    rintro rfl
    exact hf.shared hg
  · rw [htaken]
    exact ⟨h.taken ho, ne_of_label ho hf.own⟩

theorem StateOk.release_loose (hf : f ∈ A.Taken m.frames) {g : Word} (hne : g ≠ f)
    (hg : Loose A K S m.frames own g) : Loose A K S (A.release f m.frames) own g := by
  obtain ⟨-, -, htaken⟩ := A.release_taken h.valid hf
  refine ⟨hg.own, hg.shared, hg.kernel, ?_⟩
  rw [htaken]
  exact ⟨hg.taken, hne⟩

end

/-- A new frame becomes part of a tree. -/
theorem StateOk.alloc_label (h : StateOk A K S m own) (h0 : (A.alloc z m.frames).2 ≠ 0)
    (row : BitVec 9 → Word)
    (hr : own r = some (r, .root) ∨ r = (A.alloc z m.frames).2 ∧ κ = .root)
    (hrow : ∀ i, EntryOk K S (update own (A.alloc z m.frames).2 (some (r, κ))) r κ i (row i)) :
    Step A K S r m own ⟨(A.alloc z m.frames).1, update m.mem (A.alloc z m.frames).2 row⟩
      (update own (A.alloc z m.frames).2 (some (r, κ))) := by
  obtain ⟨h1, hl, -⟩ := h.alloc h0
  generalize A.alloc z m.frames = a at *
  have h2 := h1.fill (r := r) hl.own hl.kernel row
  have hr' : update own a.2 (some (r, κ)) r = some (r, .root) := by
    rcases hr with hr | ⟨rfl, rfl⟩
    · exact (update_of_ne (ne_of_label hr hl.own) _ _).trans hr
    · exact update_self ..
  have h3 := h2.ok.label hl hr' fun i => by
    dsimp only
    rw [update_self]
    exact hrow i
  exact ⟨h3.ok, h3.keeps, fun ho hx => h2.mem ho hx⟩

/-- The labels without those of the tree `r`. -/
def disown (own : Owner) (r : Word) : Owner := fun g => (own g).filter fun x => x.1 ≠ r

theorem disown_eq_some {x : Label} : disown own r t = some x ↔ own t = some x ∧ x.1 ≠ r := by
  simp [disown, filter_eq_some_iff]

theorem StateOk.disown (h : StateOk A K S m own) (r : Word) : StateOk A K S m (disown own r) := by
  have hnone : ∀ {g}, own g = none → Mm.disown own r g = none := fun hg => by
    rw [Mm.disown, hg]
    rfl
  refine ⟨h.valid, fun t hk => ?_, fun f hf => ?_, fun ho => h.taken (disown_eq_some.mp ho).1,
    fun ho => ?_, fun ho i => ?_⟩
  · obtain ⟨h1, h2, h3⟩ := h.kernel t hk
    exact ⟨h1, hnone h2, h3⟩
  · obtain ⟨h1, h2, h3⟩ := h.shared f hf
    exact ⟨hnone h1, h2, h3⟩
  · obtain ⟨ho, hr⟩ := disown_eq_some.mp ho
    exact disown_eq_some.mpr ⟨h.root ho, hr⟩
  · obtain ⟨ho, hr⟩ := disown_eq_some.mp ho
    exact (h.entry ho i).mono (fun hx => disown_eq_some.mpr ⟨hx, hr⟩) id

/-- The frames of a tree that was given up are nowhere referred to. -/
theorem StateOk.disown_loose (h : StateOk A K S m own) (ht : own t = some (r, κ)) :
    Loose A K S m.frames (Mm.disown own r) t := by
  refine ⟨?_, fun hS => ?_, fun hk => ?_, h.taken ht⟩
  · rw [Mm.disown, ht]
    simp
  · exact ne_of_label ht (h.shared t hS).1 rfl
  · exact ne_of_label ht (h.kernel t hk).2.1 rfl

/-- A new tree is given up. -/
theorem Step.giveUp (hs : Step A K S r m own m' own') (h : StateOk A K S m own) (hr : own r = none)
    {s : σ} (hok : StateOk A K S ⟨s, m'.mem⟩ (disown own' r)) :
    Step A K S r m own ⟨s, m'.mem⟩ (disown own' r) :=
  ⟨hok, fun ho => disown_eq_some.mpr ⟨hs.keeps ho, ne_of_label (h.root ho) hr⟩, hs.mem⟩

/-! ### The trees -/

theorem Kern.tab_low (hp : present (K.mem K.pml4 0)) :
    tab nextTable K.mem K.pml4 [0] = some K.pdpt :=
  nextTable_of (by decide) hp (.inl rfl)

theorem Kern.tab_pd {j : BitVec 9} (hlow : K.Low j) (hh : huge (K.mem K.pdpt j) = false) :
    tab nextTable K.mem K.pml4 [j, 0] = some (K.pd j) :=
  (tab_cons_of (Kern.tab_low hlow.1)).trans (nextTable_of (by decide) hlow.2 (.inr hh))

theorem nextTable_some {d : ℕ} (h : nextTable d e = some t) :
    d < 3 ∧ present e ∧ (d = 0 ∨ huge e = false) ∧ t = e &&& addrMask := by
  unfold nextTable at h
  by_cases hc : d < 3 ∧ present e ∧ (d = 0 ∨ huge e = false)
  · rw [if_pos hc] at h
    exact ⟨hc.1, hc.2.1, hc.2.2, (some.inj h).symm⟩
  · rw [if_neg hc] at h
    cases h

/-- Where in a tree a table of this kind is found. -/
def Kind.At (K : Kern) : Kind → List (BitVec 9) → Prop
  | .root, q => q = []
  | .pdpt low, q => q.length = 1 ∧ (low = true → q = [0])
  | .pd (some j), q => q = [j, 0] ∧ K.Low j ∧ huge (K.mem K.pdpt j) = false
  | .pd none, q => q.length = 2
  | .pt, q => q.length = 3
  | .page, _ => False

/-- A table on a path of a tree belongs to the tree, or is the kernel's on the same path. -/
theorem StateOk.tab (h : StateOk A K S m own) (hr : own r = some (r, .root))
    (ht : tab nextTable m.mem r q = some t) :
    (∃ κ, own t = some (r, κ) ∧ κ.At K q) ∨ tab nextTable K.mem K.pml4 q = some t := by
  induction q generalizing t with
  | nil =>
    obtain rfl := some.inj ht
    exact .inl ⟨_, hr, rfl⟩
  | cons i q ih =>
    rw [tab_cons] at ht
    obtain ⟨u, hu, hnext⟩ := bind_eq_some_iff.mp ht
    obtain ⟨hlen, hp, hh, rfl⟩ := nextTable_some hnext
    rcases ih hu with ⟨κ, ho, hat⟩ | hk
    · have he := h.entry ho i
      dsimp only at he
      rcases κ with _ | low | (_ | j) | _ | _
      · obtain rfl := hat
        rw [EntryOk] at he
        split_ifs at he with hi
        · rw [he] at hnext ⊢
          exact .inr hnext
        · obtain ⟨low, ho', hl⟩ := he hp
          exact .inl ⟨_, ho', rfl, fun hlow => by rw [hl hlow]⟩
      · rw [EntryOk] at he
        split_ifs at he with hc
        · obtain rfl := hat.2 hc.1
          rcases he with he | ⟨hhuge, ho'⟩
          · rw [he] at hnext ⊢
            exact .inr ((tab_cons_of (Kern.tab_low hc.2.1)).trans hnext)
          · exact .inl ⟨_, ho', rfl, hc.2, hhuge ▸ hh.resolve_left (by simp)⟩
        · exact .inl ⟨_, (he hp).2, congrArg (· + 1) hat.1⟩
      · exact .inl ⟨_, (he hp).2, congrArg (· + 1) hat⟩
      · obtain ⟨rfl, hlow, hsmall⟩ := hat
        rw [he hsmall] at hnext ⊢
        exact .inr ((tab_cons_of (Kern.tab_pd hlow hsmall)).trans hnext)
      · exact absurd hat hlen.ne
      · exact hat.elim
    · rw [(h.kernel u ⟨_, hk⟩).1] at hnext ⊢
      exact .inr ((tab_cons_of hk).trans hnext)

theorem Step.entries_other (hs : Step A K S r m own m' own') (h : StateOk A K S m own)
    {r' : Word} (hr' : own r' = some (r', .root)) (hne : r' ≠ r) (q : List (BitVec 9)) :
    entries m'.mem r' q = entries m.mem r' q := by
  refine RadixTree.entry_congr (fun t ⟨p, ht⟩ => ?_) q
  rcases h.tab hr' ht with ⟨κ, ho, -⟩ | hk
  · exact hs.mem ho hne
  · rw [(h.kernel t ⟨p, hk⟩).1, (hs.ok.kernel t ⟨p, hk⟩).1]

theorem StateOk.entries_kernel (h : StateOk A K S m own) (q : List (BitVec 9)) :
    entries m.mem K.pml4 q = entries K.mem K.pml4 q :=
  RadixTree.entry_congr (fun t ht => (h.kernel t ht).1) q

theorem StateOk.entries_upper (h : StateOk A K S m own) (hr : own r = some (r, .root))
    (hi : 256 ≤ i.toNat) (q : List (BitVec 9)) :
    entries m.mem r (q ++ [i]) = entries K.mem K.pml4 (q ++ [i]) := by
  have hroot : m.mem r i = K.mem K.pml4 i := by
    have he := h.entry hr i
    rwa [EntryOk, if_pos hi] at he
  have htab : ∀ q, RadixTree.tab nextTable m.mem r (q ++ [i]) =
      RadixTree.tab nextTable K.mem K.pml4 (q ++ [i]) := by
    intro q
    induction q with
    | nil => exact congrArg (nextTable 0) hroot
    | cons j q ih =>
      rw [List.cons_append, tab_cons, tab_cons, ih]
      cases hk : RadixTree.tab nextTable K.mem K.pml4 (q ++ [i]) with
      | none => rfl
      | some u => rw [bind_some, bind_some, (h.kernel u ⟨_, hk⟩).1]
  cases q with
  | nil => exact congrArg some hroot
  | cons j q =>
    rw [List.cons_append, entries, entries, RadixTree.entry, RadixTree.entry, htab]
    cases hk : RadixTree.tab nextTable K.mem K.pml4 (q ++ [i]) with
    | none => rfl
    | some u => rw [map_some, map_some, (h.kernel u ⟨_, hk⟩).1]

end
end Exploidus.Mm
