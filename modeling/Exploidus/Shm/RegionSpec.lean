import Exploidus.Proc.SpaceSpec
import Exploidus.Shm.Region

/-! Shared memory in terms of the labels of the frames: the frames of the valid regions are the
frames that several trees may map. -/
namespace Exploidus.Shm
open Mm Proc List Table

def Table.frames (t : Table) : Set Word :=
  {f | ∃ k, (t.regions k).valid = true ∧ f ∈ (t.regions k).pages}

variable {σ : Type*} {A : FramePool σ} {K : Kern} {S : Set Word} {r virt : Word} {m : Vm σ}
  {own : Owner}

/-! ### Mapping and unmapping -/

theorem unmapPages_step {is : List ℕ} (h : StateOk A K S m own) (hr : own r = some (r, .root))
    (hv : ∀ i ∈ is, K.UserAddr (pageAt virt i)) :
    Step A K S r m own
      ⟨m.frames, is.foldl (fun mem i => vmmUnmapInto mem r (pageAt virt i)) m.mem⟩ own := by
  induction is generalizing m with
  | nil => exact h.step_refl
  | cons i is ih =>
    have hs := h.unmapInto hr (hv i (by simp))
    exact hs.trans (ih hs.ok fun k hk => hv k (mem_cons_of_mem _ hk))

/-- The mapping loop of `shm_map`, which unmaps the first pages after a failure. -/
theorem mapPages_step {fs : List Word} {j : ℕ} (h : StateOk A K S m own)
    (hr : own r = some (r, .root)) (hS : ∀ f ∈ fs, f ∈ S)
    (hv : ∀ i < j + fs.length, K.UserAddr (pageAt virt i)) :
    ∃ own', Step A K S r m own (mapPages A r virt fs j m).1 own' := by
  induction fs generalizing j m own with
  | nil => exact ⟨own, h.step_refl⟩
  | cons f fs ih =>
    rw [mapPages]
    obtain ⟨own1, hs, -⟩ := h.mapInto mmapFlags_addr (.inr (hS f (by simp))) hr (hv j (by simp))
    generalize vmmMapInto A.source m r f (pageAt virt j) mmapFlags = res at *
    cases res.2 with
    | false =>
      refine ⟨own1, hs.trans (unmapPages_step hs.ok (hs.keeps hr) fun i hi => hv i ?_)⟩
      rw [mem_range] at hi
      omega
    | true =>
      have hv' : ∀ i < j + 1 + fs.length, K.UserAddr (pageAt virt i) := fun i hi => hv i (by
        rw [length_cons]
        omega)
      obtain ⟨own2, hs2⟩ := ih hs.ok (hs.keeps hr)
        (fun g hg => hS g (mem_cons_of_mem _ hg)) hv'
      exact ⟨own2, hs.trans hs2⟩

/-! ### Taking and releasing the frames of a region -/

section
variable {fs : List Word} (h : StateOk A K S m own) (hl : ∀ f ∈ fs, Loose A K S m.frames own f)
include h hl

theorem releaseAll_ok (hnd : fs.Nodup) : StateOk A K S ⟨releaseAll A fs m.frames, m.mem⟩ own := by
  induction fs generalizing m with
  | nil => exact h
  | cons f fs ih =>
    obtain ⟨hf, hnd⟩ := nodup_cons.mp hnd
    have hlf := hl f (by simp)
    refine ih (h.release hlf) (fun g hg => ?_) hnd
    exact h.release_loose hlf.taken (ne_of_mem_of_not_mem hg hf) (hl g (mem_cons_of_mem _ hg))

theorem share : StateOk A K (S ∪ {f | f ∈ fs}) m own := by
  refine ⟨h.valid, h.kernel, ?_, h.taken, h.root, fun ho i => (h.entry ho i).mono id .inl⟩
  rintro f (hf | hf)
  · exact h.shared f hf
  · exact ⟨(hl f hf).own, (hl f hf).kernel, (hl f hf).taken⟩

/-- The allocation loop of `shm_create`. -/
theorem takePages_ok {n : ℕ} (hnd : fs.Nodup) : match takePages A n fs m.frames with
    | (s, none) => StateOk A K S ⟨s, m.mem⟩ own
    | (s, some gs) => StateOk A K (S ∪ {f | f ∈ gs}) ⟨s, m.mem⟩ own := by
  induction n generalizing fs m with
  | zero => exact share h hl
  | succ n ih =>
    rw [takePages]
    by_cases h0 : (A.alloc .red m.frames).2 = 0
    · rw [if_pos h0]
      have hg := h.grow_fail (r := 0) h0
      exact releaseAll_ok hg.step.ok (fun f hf => hg.loose (hl f hf)) hnd
    rw [if_neg h0]
    obtain ⟨h1, hnew, hold⟩ := h.alloc h0
    generalize A.alloc .red m.frames = a at *
    refine ih h1 (fun f hf => ?_) ?_
    · rcases mem_append.mp hf with hf | hf
      · have hlf := hl f hf
        exact ⟨hlf.own, hlf.shared, hlf.kernel, (hold hlf.taken).1⟩
      · rwa [mem_singleton.mp hf]
    · refine nodup_append'.mpr ⟨hnd, nodup_singleton _, ?_⟩
      rw [disjoint_singleton]
      exact fun hmem => (hold (hl _ hmem).taken).2 rfl

end

/-! ### The calls -/

section
variable {t : Table} {p : Space} {id : BitVec 32} {k : Fin 32}

theorem Table.setRegion_self (reg : Region) : (t.setRegion k reg).regions k = reg :=
  Function.update_self _ _ _

theorem Table.setRegion_of_ne {j : Fin 32} (reg : Region) (hj : j ≠ k) :
    (t.setRegion k reg).regions j = t.regions j := Function.update_of_ne hj _ _

theorem Table.frames_setRegion {reg : Region} (hv : reg.valid = (t.regions k).valid)
    (hp : reg.pages = (t.regions k).pages) : (t.setRegion k reg).frames = t.frames := by
  have hsame : ∀ j, ((t.setRegion k reg).regions j).valid = (t.regions j).valid ∧
      ((t.setRegion k reg).regions j).pages = (t.regions j).pages := by
    intro j
    by_cases hj : j = k
    · subst hj
      rw [setRegion_self]
      exact ⟨hv, hp⟩
    · rw [setRegion_of_ne reg hj]
      exact ⟨rfl, rfl⟩
  ext f
  refine exists_congr fun j => ?_
  rw [(hsame j).1, (hsame j).2]

theorem Table.shmGet_valid (hk : t.shmGet id = some k) : (t.regions k).valid := by
  unfold shmGet at hk
  split at hk
  · cases hk
  have := find?_some hk
  rw [Bool.and_eq_true] at this
  exact this.1

theorem Table.findFreeSlot_invalid (hk : t.findFreeSlot = some k) :
    (t.regions k).valid = false := by
  have := find?_some hk
  rwa [Bool.not_eq_true'] at this

/-- `n` pages from an address on, if there is room, are user pages. -/
def UserRegion (K : Kern) (n : ℕ) : Option Word → Prop
  | none => True
  | some virt => ∀ j ∈ range n, K.UserAddr (pageAt virt j)

instance (n : ℕ) : (virt : Option Word) → Decidable (UserRegion K n virt)
  | none => inferInstanceAs (Decidable True)
  | some _ => inferInstanceAs (Decidable (∀ j ∈ range n, _))

/-- `shm_map` of the region in a slot, if there is one, maps user pages. -/
def UserSlot (K : Kern) (t : Table) (p : Space) : Option (Fin 32) → Prop
  | none => True
  | some k => UserRegion K (t.regions k).pages.length (p.below (t.regions k).size)

instance (k : Option (Fin 32)) : Decidable (UserSlot K t p k) := by
  cases k <;> unfold UserSlot <;> infer_instance

/-- `shm_map` maps user pages. -/
def UserShmMap (K : Kern) (id : BitVec 32) (t : Table) (p : Space) : Prop :=
  UserSlot K t p (t.shmGet id)
  deriving Decidable

theorem mapRegion_step (h : StateOk A K t.frames m own) (hr : own p.cr3 = some (p.cr3, .root))
    (hk : (t.regions k).valid)
    (hv : ∀ j ∈ range (t.regions k).pages.length, K.UserAddr (pageAt virt j)) :
    ∃ own', Step A K t.frames p.cr3 m own (mapRegion A k virt t p m).1 own' := by
  have hv' : ∀ j < 0 + (t.regions k).pages.length, K.UserAddr (pageAt virt j) := fun j hj =>
    hv j (mem_range.mpr (by omega))
  obtain ⟨own', hs⟩ := mapPages_step h hr (fun f hf => ⟨k, hk, hf⟩) hv'
  refine ⟨own', ?_⟩
  unfold mapRegion
  dsimp only
  split
  · exact hs
  · exact hs

theorem shmMap_step (h : StateOk A K t.frames m own) (hr : own p.cr3 = some (p.cr3, .root))
    (hu : UserShmMap K id t p) :
    ∃ own', Step A K t.frames p.cr3 m own (shmMap A id t p m).1 own' := by
  unfold UserShmMap at hu
  unfold shmMap
  cases hk : t.shmGet id with
  | none => exact ⟨own, h.step_refl⟩
  | some k =>
    rw [hk] at hu
    dsimp only [UserSlot] at hu ⊢
    cases hb : p.below (t.regions k).size with
    | none => exact ⟨own, h.step_refl⟩
    | some virt =>
      rw [hb] at hu
      exact mapRegion_step h hr (shmGet_valid hk) hu

theorem shmMap_frames (id : BitVec 32) (t : Table) (p : Space) (m : Vm σ) :
    (shmMap A id t p m).2.1.frames = t.frames := by
  unfold shmMap
  split
  · rfl
  split
  · rfl
  unfold mapRegion
  dsimp only
  split
  · exact frames_setRegion rfl rfl
  · rfl

theorem shmMap_cr3 (id : BitVec 32) (t : Table) (p : Space) (m : Vm σ) :
    (shmMap A id t p m).2.2.cr3 = p.cr3 := by
  unfold shmMap
  split
  · rfl
  split
  · rfl
  unfold mapRegion
  dsimp only
  split
  · rfl
  · rfl

theorem Table.frames_add {reg : Region} {n : BitVec 32} (hk : (t.regions k).valid = false)
    (hv : reg.valid) :
    frames { t.setRegion k reg with nextId := n } = t.frames ∪ {f | f ∈ reg.pages} := by
  ext f
  constructor
  · rintro ⟨j, hj, hf⟩
    by_cases hjk : j = k
    · subst hjk
      dsimp only at hf
      rw [setRegion_self] at hf
      exact .inr hf
    · dsimp only at hj hf
      rw [setRegion_of_ne reg hjk] at hj hf
      exact .inl ⟨j, hj, hf⟩
  rintro (⟨j, hj, hf⟩ | hf)
  · have hjk : j ≠ k := by
      rintro rfl
      rw [hk] at hj
      cases hj
    refine ⟨j, ?_⟩
    dsimp only
    rw [setRegion_of_ne reg hjk]
    exact ⟨hj, hf⟩
  · refine ⟨k, ?_⟩
    dsimp only
    rw [setRegion_self]
    exact ⟨hv, hf⟩

theorem shmCreate_ok {owner : ℕ} {size : Word} (h : StateOk A K t.frames m own) :
    StateOk A K (shmCreate A owner size t m.frames).2.frames
      ⟨(shmCreate A owner size t m.frames).1, m.mem⟩ own := by
  unfold shmCreate
  split
  · exact h
  dsimp only
  split
  · exact h
  cases hk : t.findFreeSlot with
  | none => exact h
  | some k =>
    dsimp only
    have hl : ∀ f ∈ ([] : List Word), Loose A K t.frames m.frames own f := nofun
    have htake := takePages_ok (n := ((size + 4095) / 4096).toNat) h hl nodup_nil
    generalize takePages A ((size + 4095) / 4096).toNat [] m.frames = res at *
    obtain ⟨s, _ | fs⟩ := res
    · exact htake
    dsimp only
    rwa [frames_add (findFreeSlot_invalid hk) rfl]

end

end Exploidus.Shm
