import Exploidus.Lib.RadixTree
import Exploidus.Mm.Pmm

/-! Page tables: mapping, unmapping and translating a page through four levels of tables in
physical memory. -/
namespace Exploidus.Mm
open RadixTree

abbrev Word := BitVec 64

/-- Physical memory: the 512 words of the frame at each page-aligned address. -/
abbrev PhysMem := Word → BitVec 9 → Word

/-- `VMM_ADDR_MASK`: bits 12 to 51. -/
def addrMask : Word := 0x000FFFFFFFFFF000

def vmmPresent : Word := 1
def vmmWrite : Word := 2
def vmmUser : Word := 4
def vmmHuge : Word := 0x80
def vmmNx : Word := 0x8000000000000000

/-- `e & VMM_PRESENT`. -/
def present (e : Word) : Bool := e &&& vmmPresent != 0

/-- `e & VMM_HUGE`. -/
def huge (e : Word) : Bool := e &&& vmmHuge != 0

def pml4Idx (virt : Word) : BitVec 9 := virt.extractLsb' 39 9
def pdptIdx (virt : Word) : BitVec 9 := virt.extractLsb' 30 9
def pdIdx (virt : Word) : BitVec 9 := virt.extractLsb' 21 9
def ptIdx (virt : Word) : BitVec 9 := virt.extractLsb' 12 9

/-- The virtual page of an address: its four indices. -/
def pageOf (virt : Word) : BitVec 36 := virt.extractLsb' 12 36

/-- An address of a page frame: aligned, and inside `VMM_ADDR_MASK`. -/
def IsFrame (p : Word) : Prop := p &&& addrMask = p
  deriving Decidable

/-- An allocator of frames, and the frames it will not return: an allocation fails, or returns a
frame that is not among them and adds it to them. -/
structure FrameSource (σ : Type*) where
  alloc : Zone → σ → σ × Word
  Avoids : σ → Set Word → Prop
  alloc_avoids : ∀ {s z U}, Avoids s U → (alloc z s).2 = 0 ∧ Avoids (alloc z s).1 U ∨
    (alloc z s).2 ≠ 0 ∧ IsFrame (alloc z s).2 ∧ (alloc z s).2 ∉ U ∧
      Avoids (alloc z s).1 (insert (alloc z s).2 U)

structure Vm (σ : Type*) where
  frames : σ
  mem : PhysMem

/-- The table an entry points to: `depth` is 0 in the PML4, where the huge bit means nothing, and
3 in a page table, whose entries point to pages. -/
def nextTable (depth : ℕ) (e : Word) : Option Word :=
  if depth < 3 ∧ present e = true ∧ (depth = 0 ∨ huge e = false) then some (e &&& addrMask)
  else none

section
variable {σ : Type*} (A : FrameSource σ)

/-- `alloc_table` on entry `i` of table `t`. -/
def allocTable (m : Vm σ) (t : Word) (i : BitVec 9) : Vm σ × Word :=
  if present (m.mem t i) then (m, m.mem t i &&& addrMask)
  else
    let r := A.alloc .green m.frames
    if r.2 = 0 then (⟨r.1, m.mem⟩, 0)
    else
      let e := (r.2 &&& addrMask) ||| vmmPresent ||| vmmWrite ||| vmmUser
      (⟨r.1, link m.mem t i e r.2 0⟩, r.2)

/-- `vmm_map_into`. -/
def vmmMapInto (m : Vm σ) (pml4 phys virt flags : Word) : Vm σ × Bool :=
  if pml4 = 0 then (m, false)
  else
    let r4 := allocTable A m pml4 (pml4Idx virt)
    if r4.2 = 0 then (r4.1, false)
    else
      let r3 := allocTable A r4.1 r4.2 (pdptIdx virt)
      if r3.2 = 0 then (r3.1, false)
      else
        let r2 := allocTable A r3.1 r3.2 (pdIdx virt)
        if r2.2 = 0 then (r2.1, false)
        else
          let e := (phys &&& ~~~0xFFF) ||| flags ||| vmmPresent
          (⟨r2.1.frames, set r2.1.mem r2.2 (ptIdx virt) e⟩, true)

end

/-- `vmm_unmap_into`. -/
def vmmUnmapInto (mem : PhysMem) (pml4 virt : Word) : PhysMem :=
  if pml4 = 0 then mem
  else
    let e4 := mem pml4 (pml4Idx virt)
    if !present e4 then mem
    else
      let e3 := mem (e4 &&& addrMask) (pdptIdx virt)
      if !present e3 then mem
      else if huge e3 then mem
      else
        let e2 := mem (e3 &&& addrMask) (pdIdx virt)
        if !present e2 then mem
        else if huge e2 then mem
        else set mem (e2 &&& addrMask) (ptIdx virt) 0

/-- `vmm_get_phys_into`. -/
def vmmGetPhysInto (mem : PhysMem) (pml4 virt : Word) : Word :=
  if pml4 = 0 then 0
  else
    let e4 := mem pml4 (pml4Idx virt)
    if !present e4 then 0
    else
      let e3 := mem (e4 &&& addrMask) (pdptIdx virt)
      if !present e3 then 0
      else if huge e3 then (e3 &&& addrMask &&& ~~~0x3FFFFFFF) ||| (virt &&& 0x3FFFFFFF)
      else
        let e2 := mem (e3 &&& addrMask) (pdIdx virt)
        if !present e2 then 0
        else if huge e2 then (e2 &&& addrMask &&& ~~~0x1FFFFF) ||| (virt &&& 0x1FFFFF)
        else
          let pte := mem (e2 &&& addrMask) (ptIdx virt)
          if !present pte then 0 else (pte &&& addrMask) ||| (virt &&& 0xFFF)

end Exploidus.Mm
