import Exploidus.Elf.Loader

/-! The calls that change a process's address space: `mmap`, `munmap`, the copy made by `fork`, and
the teardown. -/
namespace Exploidus.Proc
open RadixTree Mm Function

/-- The fields of `process_t` that describe its address space, and whether it has exited. -/
structure Space where
  pid : ℕ
  cr3 : Word
  mmapTop : Word
  zombie : Bool
  deriving DecidableEq

/-- The first value of `mmap_top`. -/
def mmapStart : Word := 0x00007FF000000000

/-- `MMAP_MAX_BYTES`. -/
def mmapMaxBytes : Word := 0x10000000

/-- `USER_ADDR_MAX`. -/
def userAddrMax : Word := 0x00007FFFFFFFFFFF

/-- The flags of pages made by `mmap` and of shared pages. -/
def mmapFlags : Word := vmmWrite ||| vmmUser ||| vmmNx

def roundPage (len : Word) : Word := (len + 4095) &&& ~~~4095

/-- Page `pg` from an address on. -/
def pageAt (virt : Word) (pg : ℕ) : Word := virt + BitVec.ofNat 64 (pg * pageSize)

/-- The address of `size` new bytes below `mmap_top`, if there is room. -/
def Space.below (p : Space) (size : Word) : Option Word :=
  let virt := p.mmapTop - size
  if p.mmapTop ≤ virt then none
  else if virt < 0x1000 then none
  else some virt

section
variable {σ : Type*} (A : FramePool σ)

/-! ### `sys_mmap` -/

def mmapPages (cr3 virt : Word) : ℕ → ℕ → Vm σ → Vm σ × Bool
  | 0, _, m => (m, true)
  | n + 1, pg, m =>
    let r := A.alloc .red m.frames
    if r.2 = 0 then (⟨r.1, m.mem⟩, false)
    else
      let r1 := vmmMapInto A.source ⟨r.1, m.mem⟩ cr3 r.2 (pageAt virt pg) mmapFlags
      if r1.2 then mmapPages cr3 virt n (pg + 1) r1.1
      else (⟨A.release r.2 r1.1.frames, r1.1.mem⟩, false)

/-- The address and the number of pages that `sys_mmap` tries to map. -/
def mmapRange (len : Word) (p : Space) : Option (Word × ℕ) :=
  if len = 0 ∨ mmapMaxBytes < len then none
  else (p.below (roundPage len)).map fun virt => (virt, (roundPage len / 4096).toNat)

def sysMmap (len : Word) (p : Space) (m : Vm σ) : Vm σ × Space :=
  match mmapRange len p with
  | none => (m, p)
  | some (virt, pages) =>
    let r := mmapPages A p.cr3 virt pages 0 m
    (r.1, if r.2 then { p with mmapTop := virt } else p)

/-! ### `sys_munmap` -/

def munmapPages (cr3 addr : Word) : ℕ → ℕ → Vm σ → Vm σ
  | 0, _, m => m
  | n + 1, pg, m =>
    let phys := vmmGetPhysInto m.mem cr3 (pageAt addr pg)
    let mem := vmmUnmapInto m.mem cr3 (pageAt addr pg)
    munmapPages cr3 addr n (pg + 1) ⟨if phys = 0 then m.frames else A.release phys m.frames, mem⟩

/-- `uptr_ok`. -/
def uptrOk (addr len : Word) : Bool :=
  addr != 0 && addr ≤ userAddrMax &&
    (len == 0 || len ≤ userAddrMax && len - 1 ≤ userAddrMax - addr)

/-- The number of pages that `sys_munmap` unmaps from `addr` on. -/
def munmapCount (addr len : Word) : ℕ :=
  if addr = 0 ∨ len = 0 ∨ addr &&& 4095 ≠ 0 ∨ uptrOk addr len = false then 0
  else (roundPage len / 4096).toNat

def sysMunmap (addr len : Word) (p : Space) (m : Vm σ) : Vm σ :=
  munmapPages A p.cr3 addr (munmapCount addr len) 0 m

/-! ### `free_user_address_space` -/

def indices : List (BitVec 9) := (List.range 512).map (BitVec.ofNat 9)

/-- The indices of the lower half of a PML4. -/
def lowerIndices : List (BitVec 9) := (List.range 256).map (BitVec.ofNat 9)

/-- The frames that are freed for a table at a depth of the tree, in their order: those behind its
entries that are there and no huge pages, then its own. -/
def subtreeFrames (mem : PhysMem) : ℕ → Word → List Word
  | 0, page => [page]
  | n + 1, t =>
    indices.flatMap (fun i =>
      if present (mem t i) = false ∨ n ≠ 0 ∧ huge (mem t i) = true then []
      else subtreeFrames mem n (mem t i &&& addrMask)) ++ [t]

/-- The frames that `free_user_address_space` frees, in their order. -/
def userFrames (mem : PhysMem) (kpml4 pml4 : Word) : List Word :=
  lowerIndices.flatMap (fun i =>
    if present (mem pml4 i) = false ∨ mem pml4 i = mem kpml4 i then []
    else subtreeFrames mem 3 (mem pml4 i &&& addrMask)) ++ [pml4]

def releaseAll (fs : List Word) (s : σ) : σ := fs.foldl (fun s f => A.release f s) s

def freeUserAddressSpace (kpml4 pml4 : Word) (m : Vm σ) : Vm σ :=
  if pml4 = 0 then m else ⟨releaseAll A (userFrames m.mem kpml4 pml4) m.frames, m.mem⟩

/-! ### The copy of `sys_fork_impl` -/

/-- The loop over a page table: every page is copied to a new frame. -/
def forkPt (src dst : Word) : List (BitVec 9) → Vm σ → Vm σ × Bool
  | [], m => (m, true)
  | i :: is, m =>
    let e := m.mem src i
    if present e = false then forkPt src dst is m
    else
      let r := A.alloc .red m.frames
      if r.2 = 0 then (⟨r.1, m.mem⟩, false)
      else
        let mem := update m.mem r.2 (m.mem (e &&& addrMask))
        forkPt src dst is ⟨r.1, set mem dst i (r.2 ||| (e &&& 0xFFF))⟩

/-- The loops over the tables above: an entry for which `asIs` holds is taken over, every other one
gets a new table that `below` fills. -/
def forkTable (asIs : BitVec 9 → Word → Bool) (below : Word → Word → Vm σ → Vm σ × Bool)
    (src dst : Word) : List (BitVec 9) → Vm σ → Vm σ × Bool
  | [], m => (m, true)
  | i :: is, m =>
    let e := m.mem src i
    if present e = false then forkTable asIs below src dst is m
    else if asIs i e then forkTable asIs below src dst is ⟨m.frames, set m.mem dst i e⟩
    else
      let r := A.alloc .green m.frames
      if r.2 = 0 then (⟨r.1, m.mem⟩, false)
      else
        let mem := update m.mem r.2 fun _ => 0
        let r1 := below (e &&& addrMask) r.2 ⟨r.1, set mem dst i (r.2 ||| (e &&& 0xFFF))⟩
        if r1.2 then forkTable asIs below src dst is r1.1 else (r1.1, false)

def forkPd (src dst : Word) (m : Vm σ) : Vm σ × Bool :=
  forkTable A (fun _ e => huge e) (fun s d => forkPt A s d indices) src dst indices m

def forkPdpt (src dst : Word) (m : Vm σ) : Vm σ × Bool :=
  forkTable A (fun _ e => huge e) (forkPd A) src dst indices m

/-- The loop over the PML4. The entries that the source skips are equal to the kernel's, which the
child's PML4 has already. -/
def forkPml4 (kpml4 src dst : Word) (m : Vm σ) : Vm σ × Bool :=
  forkTable A (fun i e => e == m.mem kpml4 i) (forkPdpt A) src dst lowerIndices m

/-- The outcome of the copy: no frame for the PML4, or none for the rest, or the child's PML4. -/
inductive ForkResult where
  | noPml4
  | oom
  | ok (pml4 : Word)
  deriving DecidableEq

def forkSpace (kpml4 parent : Word) (m : Vm σ) : Vm σ × ForkResult :=
  let r := A.alloc .green m.frames
  if r.2 = 0 then (⟨r.1, m.mem⟩, .noPml4)
  else
    let r1 := forkPml4 A kpml4 parent r.2 ⟨r.1, update m.mem r.2 (m.mem kpml4)⟩
    if r1.2 then (r1.1, .ok r.2) else (freeUserAddressSpace A kpml4 r.2 r1.1, .oom)

end

end Exploidus.Proc
