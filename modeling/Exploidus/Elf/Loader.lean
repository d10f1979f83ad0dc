import Exploidus.Mm.FramePool

/-! The ELF loader: validation, a private tree of page tables, the segments, the relocations and
the initial stack. -/
namespace Exploidus.Elf
open RadixTree Mm Function

abbrev Byte := BitVec 8

/-- The file in memory: the bytes from its start on, and its size. -/
structure Image where
  data : ℕ → Byte
  size : Word

structure Phdr where
  type : ℕ
  flags : ℕ
  offset : Word
  vaddr : Word
  filesz : Word
  memsz : Word

namespace Image
variable (im : Image)

def u16 (off : ℕ) : ℕ := (im.data off).toNat + 256 * (im.data (off + 1)).toNat
def u32 (off : ℕ) : ℕ := im.u16 off + 65536 * im.u16 (off + 2)
def u64 (off : ℕ) : Word := BitVec.ofNat 64 (im.u32 off + 2 ^ 32 * im.u32 (off + 4))

/-! ### Fields of the header -/

def type : ℕ := im.u16 16
def entry : Word := im.u64 24
def phoff : Word := im.u64 32
def phentsize : ℕ := im.u16 54
def phnum : ℕ := im.u16 56

/-- `ELF_TYPE_DYN`. -/
def isDyn : Bool := im.type == 3

def phdrOff (i : ℕ) : Word := im.phoff + BitVec.ofNat 64 (i * im.phentsize)

def phdr (off : Word) : Phdr where
  type := im.u32 off.toNat
  flags := im.u32 (off.toNat + 4)
  offset := im.u64 (off.toNat + 8)
  vaddr := im.u64 (off.toNat + 16)
  filesz := im.u64 (off.toNat + 32)
  memsz := im.u64 (off.toNat + 40)

/-- `n` bytes at `off` are outside the file. -/
def outside (off n : Word) : Bool := im.size < off || im.size - off < n

end Image

/-- `elf_validate`. -/
def elfValidate (im : Image) : Bool :=
  64 ≤ im.size && im.u32 0 == 0x464C457F && im.data 4 == 2 && im.data 5 == 1 &&
    (im.type == 2 || im.type == 3) && im.u16 18 == 0x3E && im.phnum != 0

/-! ### Page tables -/

section
variable {σ : Type*} (A : FramePool σ)

/-- A private copy of the page directory that entry `j` of the kernel's PDPT points to, put in
`pdpt`; no result without a frame. -/
def copyPd (kpdpt pdpt : Word) (j : BitVec 9) (m : Vm σ) : Vm σ × Bool :=
  let k := m.mem kpdpt j
  if present k then
    let r := A.alloc .green m.frames
    if r.2 = 0 then (⟨r.1, m.mem⟩, false)
    else
      let mem := update m.mem r.2 (m.mem (k &&& addrMask))
      (⟨r.1, set mem pdpt j (r.2 ||| (k &&& 0xFFF))⟩, true)
  else (m, true)

/-- `make_isolated_pml4`. -/
def makeIsolatedPml4 (kpml4 : Word) (m : Vm σ) : Vm σ × Word :=
  let r := A.alloc .green m.frames
  if r.2 = 0 then (⟨r.1, m.mem⟩, 0)
  else
    let pml4 := r.2
    let m1 : Vm σ := ⟨r.1, update m.mem pml4
      fun i => if i.toNat < 256 then 0 else m.mem kpml4 i⟩
    let k0 := m1.mem kpml4 0
    if !present k0 then (m1, pml4)
    else
      let kpdpt := k0 &&& addrMask
      let r := A.alloc .green m1.frames
      if r.2 = 0 then (⟨A.release pml4 r.1, m1.mem⟩, 0)
      else
        let pdpt := r.2
        let fail (m : Vm σ) : Vm σ × Word := (⟨A.release pml4 (A.release pdpt m.frames), m.mem⟩, 0)
        let m2 : Vm σ := ⟨r.1, update m1.mem pdpt (m1.mem kpdpt)⟩
        let r0 := copyPd A kpdpt pdpt 0 m2
        if r0.2 = false then fail r0.1
        else
          let r1 := copyPd A kpdpt pdpt 1 r0.1
          if r1.2 = false then fail r1.1
          else (⟨r1.1.frames, set r1.1.mem pml4 0 (pdpt ||| (k0 &&& 0xFFF))⟩, pml4)

/-- One level of `map_page`: the table that entry `i` of `t` points to, made if it is missing. -/
def tableAt (m : Vm σ) (t : Word) (i : BitVec 9) (isUser : Bool) : Vm σ × Option Word :=
  let e := m.mem t i
  if !present e then
    let r := A.alloc .green m.frames
    if r.2 = 0 then (⟨r.1, m.mem⟩, none)
    else (⟨r.1, link m.mem t i (r.2 ||| 7) r.2 0⟩, some ((r.2 ||| 7) &&& addrMask))
  else if isUser then
    (⟨m.frames, set m.mem t i (e ||| vmmUser)⟩, some ((e ||| vmmUser) &&& addrMask))
  else (m, some (e &&& addrMask))

/-- `map_page`. -/
def mapPage (m : Vm σ) (pml4 vaddr paddr flags : Word) : Vm σ × Bool :=
  let isUser := flags &&& vmmUser != 0
  match tableAt A m pml4 (pml4Idx vaddr) isUser with
  | (m4, none) => (m4, false)
  | (m4, some pdpt) =>
    match tableAt A m4 pdpt (pdptIdx vaddr) isUser with
    | (m3, none) => (m3, false)
    | (m3, some pd) =>
      if present (m3.mem pd (pdIdx vaddr)) && huge (m3.mem pd (pdIdx vaddr)) then (m3, false)
      else
        match tableAt A m3 pd (pdIdx vaddr) isUser with
        | (m2, none) => (m2, false)
        | (m2, some pt) =>
          (⟨m2.frames, set m2.mem pt (ptIdx vaddr) ((paddr &&& ~~~0xFFF) ||| flags ||| vmmPresent)⟩,
            true)

/-- The page loops of `elf_load`: new frames with the given contents, mapped one after the other
from `vaddr` on. -/
def placePages (pml4 vaddr flags : Word) (content : ℕ → BitVec 9 → Word) :
    ℕ → ℕ → Vm σ → Vm σ × Bool
  | 0, _, m => (m, true)
  | n + 1, j, m =>
    let r := A.alloc .red m.frames
    if r.2 = 0 then (⟨r.1, m.mem⟩, false)
    else
      let r1 := mapPage A ⟨r.1, update m.mem r.2 (content j)⟩ pml4
        (vaddr + BitVec.ofNat 64 (j * pageSize)) r.2 flags
      if r1.2 then placePages pml4 vaddr flags content n (j + 1) r1.1 else (r1.1, false)

/-! ### Segments -/

/-- The word whose bytes, lowest first, are `b 0` to `b 7`. -/
def wordOf (b : ℕ → Byte) : Word :=
  BitVec.ofNat 64 ((List.range 8).foldr (fun k n => (b k).toNat + 256 * n) 0)

/-- Page `j` of a segment: the bytes of the file, then zeros. -/
def segmentPage (im : Image) (ph : Phdr) (j : ℕ) : BitVec 9 → Word := fun k =>
  wordOf fun b =>
    let n := j * pageSize + 8 * k.toNat + b
    if n < ph.filesz.toNat then im.data (ph.offset.toNat + n) else 0

def segmentFlags (ph : Phdr) : Word :=
  vmmUser ||| (if ph.flags.testBit 1 then vmmWrite else 0) |||
    (if ph.flags.testBit 0 then 0 else vmmNx)

def segmentPages (ph : Phdr) : ℕ := ((ph.memsz + 4095) / 4096).toNat

/-- The segment loop of `elf_load` over the program headers with the given numbers: offset and size
of the dynamic section if there is one, or no result if the file is refused. -/
def loadPhdrs (im : Image) (base pml4 : Word) :
    List ℕ → Option (Word × Word) → Vm σ → Vm σ × Option (Option (Word × Word))
  | [], dyn, m => (m, some dyn)
  | i :: is, dyn, m =>
    if im.outside (im.phdrOff i) (BitVec.ofNat 64 im.phentsize) then (m, none)
    else
      let ph := im.phdr (im.phdrOff i)
      let dyn := if ph.type = 2 then some (ph.offset, ph.filesz) else dyn
      if ph.type ≠ 1 ∨ ph.memsz = 0 then loadPhdrs im base pml4 is dyn m
      else if ph.memsz < ph.filesz ∨ im.outside ph.offset ph.filesz then (m, none)
      else
        let r := placePages A pml4 (ph.vaddr + base) (segmentFlags ph) (segmentPage im ph)
          (segmentPages ph) 0 m
        if r.2 then loadPhdrs im base pml4 is dyn r.1 else (r.1, none)

end

/-! ### Writing through page tables -/

def writeByte (mem : PhysMem) (phys : Word) (b : Byte) : PhysMem :=
  let shift := 8 * (phys.toNat % 8)
  let i : BitVec 9 := phys.extractLsb' 3 9
  let old := mem (phys &&& ~~~0xFFF) i
  set mem (phys &&& ~~~0xFFF) i
    ((old &&& ~~~((0xFF : Word) <<< shift)) ||| (b.setWidth 64 <<< shift))

/-- Bytes written from a virtual address on; the write ends at a byte that is not mapped. -/
def putBytes (pml4 : Word) : Word → List Byte → PhysMem → PhysMem × Bool
  | _, [], mem => (mem, true)
  | v, b :: bs, mem =>
    let phys := vmmGetPhysInto mem pml4 v
    if phys = 0 then (mem, false) else putBytes pml4 (v + 1) bs (writeByte mem phys b)

def leBytes (w : Word) : List Byte := (List.range 8).map fun k => (w >>> (8 * k)).setWidth 8

/-! ### Relocations -/

/-- `vaddr_to_file_offset`. -/
def vaddrToFileOffset (im : Image) (vaddr : Word) : Option Word :=
  (List.range im.phnum).findSome? fun i =>
    if im.outside (im.phdrOff i) (BitVec.ofNat 64 im.phentsize) then none
    else
      let ph := im.phdr (im.phdrOff i)
      if ph.type = 1 ∧ ph.vaddr ≤ vaddr ∧ vaddr < ph.vaddr + ph.filesz then
        some (ph.offset + (vaddr - ph.vaddr))
      else none

/-- Address, size and entry size of the relocation table. -/
structure Rela where
  vaddr : Word
  size : Word
  entsize : Word

/-- The loop of `apply_relocations` over the dynamic section. -/
def scanDynamic (im : Image) (dynOff : Word) : ℕ → ℕ → Rela → Rela
  | 0, _, r => r
  | n + 1, i, r =>
    let off := dynOff + BitVec.ofNat 64 (i * 16)
    if im.outside off 16 then r
    else
      let tag := im.u64 off.toNat
      let val := im.u64 (off.toNat + 8)
      if tag = 0 then r
      else
        let r := if tag = 7 then { r with vaddr := val } else r
        let r := if tag = 8 then { r with size := val } else r
        let r := if tag = 9 ∧ val ≠ 0 then { r with entsize := val } else r
        scanDynamic im dynOff n (i + 1) r

/-- The relocation loop of `apply_relocations`. -/
def relocate (im : Image) (pml4 base off entsize : Word) : ℕ → ℕ → PhysMem → PhysMem × Bool
  | 0, _, mem => (mem, true)
  | n + 1, i, mem =>
    let off' := off + BitVec.ofNat 64 i * entsize
    if im.outside off' 24 then (mem, false)
    else if im.u32 (off'.toNat + 8) ≠ 8 then relocate im pml4 base off entsize n (i + 1) mem
    else
      let r := putBytes pml4 (im.u64 off'.toNat + base) (leBytes (base + im.u64 (off'.toNat + 16))) mem
      if r.2 then relocate im pml4 base off entsize n (i + 1) r.1 else (r.1, false)

/-- `apply_relocations` for the dynamic section at `dyn`. -/
def applyRelocations (im : Image) (pml4 base : Word) (dyn : Word × Word) (mem : PhysMem) :
    PhysMem × Bool :=
  let r := scanDynamic im dyn.1 (dyn.2 / 16).toNat 0 ⟨0, 0, 24⟩
  if r.size = 0 then (mem, true)
  else
    match vaddrToFileOffset im r.vaddr with
    | none => (mem, false)
    | some off => relocate im pml4 base off r.entsize (r.size / r.entsize).toNat 0 mem

/-! ### The initial stack -/

/-- `USER_STACK_TOP`. -/
def userStackTop : Word := 0x00007FFFFFFFE000

/-- `USER_STACK_PAGES`. -/
def userStackPages : ℕ := 64

/-- The strings one after the other in the buffer of 2048 bytes, and their addresses. -/
def packStrings (cursor : Word) : List (List Byte) → List Byte → List Word × List Byte
  | [], buf => ([], buf)
  | s :: ss, buf =>
    let r := packStrings cursor ss (buf ++ s.take (2046 - buf.length) ++ [0])
    ((cursor + BitVec.ofNat 64 buf.length) :: r.1, r.2)

def stringBytes (ss : List (List Byte)) : ℕ := (ss.map fun s => s.length + 1).sum

/-- The name that a program gets when it is given no arguments. -/
def defaultArgv : List (List Byte) := [[0x65, 0x78, 0x70, 0x6C, 0x6F, 0x69, 0x64, 0x75, 0x73]]

/-- The end of `elf_load`: strings and pointers below `top`, written with the new tables active;
the stack pointer, or nothing if a write faults. -/
def pushArgs (pml4 top : Word) (argv envp : List (List Byte)) (mem : PhysMem) :
    PhysMem × Option Word :=
  let argv := if argv.isEmpty then defaultArgv else argv
  let bytes := stringBytes argv + stringBytes envp
  let total := (bytes + (argv.length + envp.length + 3) * 8 + 15) / 16 * 16
  let sp := top - BitVec.ofNat 64 total
  let cursor := top - BitVec.ofNat 64 bytes
  let argv := argv.take 15
  let envp := envp.take 31
  let p := packStrings cursor (argv ++ envp) []
  let words := BitVec.ofNat 64 argv.length :: p.1.take argv.length ++ 0 :: p.1.drop argv.length ++ [0]
  let r := putBytes pml4 cursor p.2 mem
  if r.2 then
    let r := putBytes pml4 sp (words.flatMap leBytes) r.1
    (r.1, if r.2 then some sp else none)
  else (r.1, none)

/-! ### Loading -/

/-- What `elf_load` returns. -/
structure Loaded where
  pml4 : Word
  entry : Word
  stack : Word

/-- The base of a position-independent program for a random number. -/
def aslrBase (im : Image) (rand : Word) : Word :=
  if im.isDyn then (rand &&& 0x0000003FFFE00000 &&& ~~~0x1FFFFF) + 0x0000000100000000 else 0

def stackTop (rand : Word) : Word := userStackTop - (rand &&& 0x00000000001FF000)

/-- The relocations of `elf_load`, made for position-independent programs. -/
def relocations (im : Image) (pml4 base : Word) (dyn : Option (Word × Word)) (mem : PhysMem) :
    PhysMem × Bool :=
  match dyn with
  | some d => if im.isDyn then applyRelocations im pml4 base d mem else (mem, true)
  | none => (mem, true)

/-- What the caller of `elf_load` gives: the file, the arguments, and the two random numbers. -/
structure LoadArgs where
  image : Image
  argv : List (List Byte)
  envp : List (List Byte)
  rand : Word
  stackRand : Word

/-- `elf_load`; without a result the tables made so far are left behind. -/
def elfLoad {σ : Type*} (A : FramePool σ) (kpml4 : Word) (a : LoadArgs) (m : Vm σ) :
    Vm σ × Option Loaded :=
  let im := a.image
  if !elfValidate im then (m, none)
  else
    let r0 := makeIsolatedPml4 A kpml4 m
    if r0.2 = 0 then (r0.1, none)
    else
      let pml4 := r0.2
      let base := aslrBase im a.rand
      match loadPhdrs A im base pml4 (List.range im.phnum) none r0.1 with
      | (m1, none) => (m1, none)
      | (m1, some dyn) =>
        let r := relocations im pml4 base dyn m1.mem
        if r.2 = false then (⟨m1.frames, r.1⟩, none)
        else
          let top := stackTop a.stackRand
          let r1 := placePages A pml4 (top - BitVec.ofNat 64 (userStackPages * pageSize))
            (vmmUser ||| vmmWrite ||| vmmNx) (fun _ _ => 0) userStackPages 0 ⟨m1.frames, r.1⟩
          if r1.2 = false then (r1.1, none)
          else
            let r2 := pushArgs pml4 top a.argv a.envp r1.1.mem
            (⟨r1.1.frames, r2.1⟩, r2.2.map fun sp => ⟨pml4, im.entry + base, sp⟩)

end Exploidus.Elf
