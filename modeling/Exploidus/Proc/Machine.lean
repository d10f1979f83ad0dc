import Exploidus.Proc.Scheduler
import Exploidus.Shm.Region

/-! The machine: the frame allocator and the memory, the address spaces of the processes, and the
shared regions, with every call that changes them. -/
namespace Exploidus.Proc
open Mm Elf Shm

structure Machine (σ : Type*) where
  vm : Vm σ
  spaces : Slot → Space
  table : Table

/-- The calls, by the slot of the process that makes them. `spawn` and `fork` name the slot and the
pid that `proc_create` gave the child; `reap` is the end of `waitpid` for the process. -/
inductive SpaceCall where
  | spawn (i : Slot) (pid : ℕ) (a : LoadArgs)
  | exec (i : Slot) (a : LoadArgs)
  | execve (i : Slot) (a : LoadArgs)
  | mmap (i : Slot) (len : Word)
  | munmap (i : Slot) (addr len : Word)
  | fork (i child : Slot) (pid : ℕ)
  | exit (i : Slot)
  | reap (i : Slot)
  | shmCreate (i : Slot) (size : Word)
  | shmMap (i : Slot) (id : BitVec 32)
  | shmUnmap (i : Slot) (va size : Word)
  | shmDestroy (i : Slot) (id : BitVec 32)

def Space.empty : Space := ⟨0, 0, 0, false⟩

def Space.Alive (p : Space) : Prop := p.pid ≠ 0 ∧ p.zombie = false
  deriving Decidable

namespace Machine
variable {σ : Type*} (A : FramePool σ) (kpml4 : Word) (s : Machine σ)

def setSpace (i : Slot) (p : Space) (vm : Vm σ) : Machine σ :=
  { s with vm := vm, spaces := Function.update s.spaces i p }

/-- `sys_spawn` from its call of `elf_load` on; a child whose image fails to load has exited, with
the kernel's page tables. -/
def spawn (i : Slot) (pid : ℕ) (a : LoadArgs) : Machine σ :=
  let r := elfLoad A kpml4 a s.vm
  match r.2 with
  | some l => s.setSpace i ⟨pid, l.pml4, mmapStart, false⟩ r.1
  | none => s.setSpace i ⟨pid, kpml4, mmapStart, true⟩ r.1

/-- `sys_exec_impl`. -/
def exec (i : Slot) (a : LoadArgs) : Machine σ :=
  let r := elfLoad A kpml4 a s.vm
  match r.2 with
  | some l => s.setSpace i { s.spaces i with cr3 := l.pml4 } r.1
  | none => { s with vm := r.1 }

/-- `sys_execve_impl` from its call of `elf_load` on. -/
def execve (i : Slot) (a : LoadArgs) : Machine σ :=
  let r := elfLoad A kpml4 a s.vm
  match r.2 with
  | some l => s.setSpace i { s.spaces i with cr3 := l.pml4 }
      (freeUserAddressSpace A kpml4 (s.spaces i).cr3 r.1)
  | none => { s with vm := r.1 }

/-- `sys_fork_impl` from its first allocation on. The child was made with the page tables of its
parent; if the copy fails it exits. -/
def fork (i child : Slot) (pid : ℕ) : Machine σ :=
  let r := forkSpace A kpml4 (s.spaces i).cr3 s.vm
  match r.2 with
  | .noPml4 => s.setSpace child ⟨pid, (s.spaces i).cr3, mmapStart, true⟩ r.1
  | .oom => s.setSpace child ⟨pid, 0, mmapStart, true⟩ r.1
  | .ok pml4 => s.setSpace child ⟨pid, pml4, mmapStart, false⟩ r.1

/-- The end of `sys_waitpid_impl`. -/
def reap (i : Slot) : Machine σ :=
  s.setSpace i Space.empty (freeUserAddressSpace A kpml4 (s.spaces i).cr3 s.vm)

/-! ### The calls of the process in slot `i` -/

def mmap (i : Slot) (len : Word) : Machine σ :=
  let r := sysMmap A len (s.spaces i) s.vm
  s.setSpace i r.2 r.1

def munmap (i : Slot) (addr len : Word) : Machine σ :=
  { s with vm := sysMunmap A addr len (s.spaces i) s.vm }

def exit (i : Slot) : Machine σ := s.setSpace i { s.spaces i with zombie := true } s.vm

def shmCreate (i : Slot) (size : Word) : Machine σ :=
  let r := Shm.shmCreate A (s.spaces i).pid size s.table s.vm.frames
  { s with vm := ⟨r.1, s.vm.mem⟩, table := r.2 }

def shmMap (i : Slot) (id : BitVec 32) : Machine σ :=
  let r := Shm.shmMap A id s.table (s.spaces i) s.vm
  { vm := r.1, spaces := Function.update s.spaces i r.2.2, table := r.2.1 }

def shmUnmap (i : Slot) (va size : Word) : Machine σ :=
  let r := Shm.shmUnmap va size s.table (s.spaces i) s.vm.mem
  { s with vm := ⟨s.vm.frames, r.1⟩, table := r.2 }

def shmDestroy (i : Slot) (id : BitVec 32) : Machine σ :=
  let r := Shm.shmDestroy A id (s.spaces i).pid s.table s.vm.frames
  { s with vm := ⟨r.1, s.vm.mem⟩, table := r.2.1 }

/-- A call of the process in slot `i`, if there is one that can make calls. -/
def callBy (i : Slot) (f : Machine σ) : Machine σ := if (s.spaces i).Alive then f else s

/-- A call that makes a process in slot `i`. -/
def into (i : Slot) (pid : ℕ) (f : Machine σ) : Machine σ :=
  if (s.spaces i).pid = 0 ∧ pid ≠ 0 then f else s

def step : SpaceCall → Machine σ
  | .spawn i pid a => s.into i pid (s.spawn A kpml4 i pid a)
  | .exec i a => s.callBy i (s.exec A kpml4 i a)
  | .execve i a => s.callBy i (s.execve A kpml4 i a)
  | .mmap i len => s.callBy i (s.mmap A i len)
  | .munmap i addr len => s.callBy i (s.munmap A i addr len)
  | .fork i child pid => s.callBy i (s.into child pid (s.fork A kpml4 i child pid))
  | .exit i => s.callBy i (s.exit i)
  | .reap i => if (s.spaces i).pid ≠ 0 ∧ (s.spaces i).zombie then s.reap A kpml4 i else s
  | .shmCreate i size => s.callBy i (s.shmCreate A i size)
  | .shmMap i id => s.callBy i (s.shmMap A i id)
  | .shmUnmap i va size => s.callBy i (s.shmUnmap i va size)
  | .shmDestroy i id => s.callBy i (s.shmDestroy A i id)

def run (cs : List SpaceCall) : Machine σ := cs.foldl (step A kpml4) s

end Machine

def bootMachine {σ : Type*} (vm : Vm σ) : Machine σ where
  vm := vm
  spaces _ := Space.empty
  table := ⟨fun _ => ⟨0, 0, 0, [], 0, false⟩, 1⟩

end Exploidus.Proc
