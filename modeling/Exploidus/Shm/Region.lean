import Exploidus.Proc.AddressSpace

/-! Shared memory: the table of regions, and mapping them into address spaces. -/
namespace Exploidus.Shm
open Mm Proc

/-- `shm_region_t`; `pages` are the first `page_count` entries of `phys_pages`. -/
structure Region where
  id : BitVec 32
  owner : ℕ
  size : Word
  pages : List Word
  mapCount : BitVec 8
  valid : Bool
  deriving DecidableEq

/-- `SHM_MAX_PAGES`. -/
def maxPages : ℕ := 256

/-- The region table, of `SHM_MAX_REGIONS` entries, and the next identifier. -/
structure Table where
  regions : Fin 32 → Region
  nextId : BitVec 32

namespace Table
variable (t : Table)

def setRegion (k : Fin 32) (r : Region) : Table :=
  { t with regions := Function.update t.regions k r }

/-- `find_free_slot`. -/
def findFreeSlot : Option (Fin 32) := (List.finRange 32).find? fun k => !(t.regions k).valid

/-- `shm_get`. -/
def shmGet (id : BitVec 32) : Option (Fin 32) :=
  if id = 0 then none
  else (List.finRange 32).find? fun k => (t.regions k).valid && (t.regions k).id == id

end Table

section
variable {σ : Type*} (A : FramePool σ)

/-- The allocation loop of `shm_create`, with the frames taken so far. -/
def takePages : ℕ → List Word → σ → σ × Option (List Word)
  | 0, fs, s => (s, some fs)
  | n + 1, fs, s =>
    let r := A.alloc .red s
    if r.2 = 0 then (releaseAll A fs r.1, none) else takePages n (fs ++ [r.2]) r.1

def shmCreate (owner : ℕ) (size : Word) (t : Table) (s : σ) : σ × Table :=
  if size = 0 then (s, t)
  else
    let pages := ((size + 4095) / 4096).toNat
    if maxPages < pages then (s, t)
    else
      match t.findFreeSlot with
      | none => (s, t)
      | some k =>
        match takePages A pages [] s with
        | (s', none) => (s', t)
        | (s', some fs) =>
          (s', { t.setRegion k ⟨t.nextId, owner, BitVec.ofNat 64 (pages * pageSize), fs, 0, true⟩ with
            nextId := t.nextId + 1 })

/-- The mapping loop of `shm_map`. -/
def mapPages (cr3 virt : Word) : List Word → ℕ → Vm σ → Vm σ × Bool
  | [], _, m => (m, true)
  | f :: fs, j, m =>
    let r := vmmMapInto A.source m cr3 f (pageAt virt j) mmapFlags
    if r.2 then mapPages cr3 virt fs (j + 1) r.1
    else (⟨r.1.frames, (List.range j).foldl (fun mem i => vmmUnmapInto mem cr3 (pageAt virt i))
      r.1.mem⟩, false)

/-- `shm_map` for the region in slot `k`. -/
def mapRegion (k : Fin 32) (virt : Word) (t : Table) (p : Space) (m : Vm σ) :
    Vm σ × Table × Space :=
  let r := t.regions k
  let res := mapPages A p.cr3 virt r.pages 0 m
  if res.2 then
    (res.1, t.setRegion k { r with mapCount := r.mapCount + 1 }, { p with mmapTop := virt })
  else (res.1, t, p)

def shmMap (id : BitVec 32) (t : Table) (p : Space) (m : Vm σ) : Vm σ × Table × Space :=
  match t.shmGet id with
  | none => (m, t, p)
  | some k =>
    match p.below (t.regions k).size with
    | none => (m, t, p)
    | some virt => mapRegion A k virt t p m

def unmapCount (va size : Word) : ℕ :=
  if va = 0 ∨ size = 0 then 0 else ((size + 4095) / 4096).toNat

/-- The region whose counter `shm_unmap` decrements: the first one of this size that is mapped. -/
def countedRegion (t : Table) (size : Word) : Option (Fin 32) :=
  (List.finRange 32).find? fun k =>
    (t.regions k).valid && (t.regions k).size == size && (t.regions k).mapCount != 0

def shmUnmap (va size : Word) (t : Table) (p : Space) (mem : PhysMem) : PhysMem × Table :=
  if va = 0 ∨ size = 0 then (mem, t)
  else
    let pages := (size + 4095) / 4096
    let mem := (List.range pages.toNat).foldl (fun mem i => vmmUnmapInto mem p.cr3 (pageAt va i)) mem
    match countedRegion t (pages * 4096) with
    | none => (mem, t)
    | some k => (mem, t.setRegion k
        { t.regions k with mapCount := (t.regions k).mapCount - 1 })

/-- `shm_destroy` with its result. -/
def shmDestroy (id : BitVec 32) (caller : ℕ) (t : Table) (s : σ) : σ × Table × Bool :=
  match t.shmGet id with
  | none => (s, t, false)
  | some k =>
    let r := t.regions k
    if r.owner ≠ caller ∨ r.mapCount ≠ 0 then (s, t, false)
    else (releaseAll A r.pages s, t.setRegion k { r with valid := false, id := 0 }, true)

end

end Exploidus.Shm
