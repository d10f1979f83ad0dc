import Exploidus.Elf.LoaderSpec
import Exploidus.Proc.AddressSpace

/-! `mmap` and `munmap` at user addresses, in terms of the labels of the frames. -/
namespace Exploidus.Proc
open Mm Elf

variable {σ : Type*} {A : FramePool σ} {K : Kern} {S : Set Word} {r virt : Word} {m : Vm σ}
  {own : Owner} {n pg : ℕ}

theorem mmapFlags_addr : mmapFlags &&& addrMask = 0 := by decide

theorem mmapPages_step (h : StateOk A K S m own) (hr : own r = some (r, .root))
    (hv : UserPages K virt pg n) :
    ∃ own', Step A K S r m own (mmapPages A r virt n pg m).1 own' := by
  induction n generalizing pg m own with
  | zero => exact ⟨own, h.step_refl⟩
  | succ n ih =>
    rw [mmapPages]
    dsimp only [pageAt]
    by_cases h0 : (A.alloc .red m.frames).2 = 0
    · rw [if_pos h0]
      exact ⟨own, h.alloc_fail h0⟩
    rw [if_neg h0]
    obtain ⟨h1, hl, -⟩ := h.alloc h0
    obtain ⟨own1, hs, hfail⟩ := h1.mapInto mmapFlags_addr (.inl hl) hr (hv pg (by simp))
    replace hs : Step A K S r m own _ own1 := ⟨hs.ok, hs.keeps, hs.mem⟩
    generalize vmmMapInto A.source _ r _ _ mmapFlags = res at *
    cases hok : res.2 with
    | false => exact ⟨own1, hs.ok.release ((hfail hok).loose hl), hs.keeps, hs.mem⟩
    | true =>
      have hv' : UserPages K virt (pg + 1) n := fun k hk => hv k (List.mem_cons_of_mem _ hk)
      obtain ⟨own2, hs2⟩ := ih hs.ok (hs.keeps hr) hv'
      exact ⟨own2, hs.trans hs2⟩

/-- `sys_mmap` maps user pages. -/
def UserMmap (K : Kern) (len : Word) (p : Space) : Prop :=
  ∀ x ∈ mmapRange len p, UserPages K x.1 0 x.2
  deriving Decidable

theorem sysMmap_step {p : Space} {len : Word} (h : StateOk A K S m own)
    (hr : own p.cr3 = some (p.cr3, .root)) (hv : UserMmap K len p) :
    ∃ own', Step A K S p.cr3 m own (sysMmap A len p m).1 own' := by
  unfold sysMmap
  cases hx : mmapRange len p with
  | none => exact ⟨own, h.step_refl⟩
  | some x => exact mmapPages_step h hr (hv x hx)

theorem sysMmap_cr3 (len : Word) (p : Space) (m : Vm σ) : (sysMmap A len p m).2.cr3 = p.cr3 := by
  unfold sysMmap
  cases mmapRange len p with
  | none => rfl
  | some x =>
    dsimp only
    split
    · rfl
    · rfl

end Exploidus.Proc
