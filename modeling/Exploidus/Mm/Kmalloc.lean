import Exploidus.Lib.FirstFit

/-! The kernel heap: `kmalloc` and `kfree` over the headers kept in the heap's own memory, and
what its users do to that memory. -/
namespace Exploidus.Mm

/-- `HEAP_MAGIC`. -/
def heapMagic : ℕ := 0xE7F00D1DEADBEEF

/-- `HEADER_SIZE`. -/
def headerSize : ℕ := 32

/-- `MIN_ALLOC`. -/
def minAlloc : ℕ := 16

/-- The globals of the allocator and the memory it manages, one 64-bit word per address. A header
takes four words: magic, size, the word whose low byte is the `free` flag, and next. -/
structure Heap where
  head : ℕ
  start : ℕ
  stop : ℕ
  mem : ℕ → ℕ

namespace Heap
variable (h : Heap)

def magicOf (p : ℕ) : ℕ := h.mem p
def sizeOf (p : ℕ) : ℕ := h.mem (p + 8)
def isFree (p : ℕ) : Bool := h.mem (p + 16) % 256 != 0
def nextOf (p : ℕ) : ℕ := h.mem (p + 24)

def set (a v : ℕ) : Heap := { h with mem := Function.update h.mem a v }
def setMagic (p v : ℕ) : Heap := h.set p v
def setSize (p v : ℕ) : Heap := h.set (p + 8) v
/-- A store to the flag byte; the padding in the word stays. -/
def setFree (p v : ℕ) : Heap := h.set (p + 16) (h.mem (p + 16) / 256 * 256 + v)
def setNext (p v : ℕ) : Heap := h.set (p + 24) v

/-- `in_heap`. -/
def inHeap (p : ℕ) : Bool := decide (h.start ≤ p ∧ p < h.stop)

/-- `valid_hdr`. -/
def validHdr (p : ℕ) : Bool :=
  p != 0 && h.inHeap p && h.magicOf p == heapMagic && decide (0 < h.sizeOf p)

/-- The body of the `kmalloc` scan at a block that fits: split if a header and `MIN_ALLOC` bytes
remain, mark in use. -/
def takeBlock (cur size : ℕ) : Heap × ℕ :=
  let remaining := h.sizeOf cur - size
  if headerSize + minAlloc ≤ remaining then
    let split := (cur + headerSize + size) % 2 ^ 64
    if h.inHeap split then
      let h1 := (h.setMagic split heapMagic).setSize split (remaining - headerSize)
      let h2 := h1.setFree split 1
      let h3 := h2.setNext split (h2.nextOf cur)
      let h4 := (h3.setNext cur split).setSize cur size
      (h4.setFree cur 0, cur + headerSize)
    else (h, 0)
  else (h.setFree cur 0, cur + headerSize)

/-- The scan of `kmalloc` from `cur`, for at most as many headers as the first argument says. -/
def scan (size : ℕ) : ℕ → ℕ → Heap × ℕ
  | 0, _ => (h, 0)
  | fuel + 1, cur =>
    if cur = 0 then (h, 0)
    else if !h.validHdr cur then (h, 0)
    else if h.isFree cur && decide (size ≤ h.sizeOf cur) then h.takeBlock cur size
    else scan size fuel (h.nextOf cur)

/-- `ALIGN_UP(x, 16)` on 64 bits. -/
def alignUp (x : ℕ) : ℕ := (x + 15) % 2 ^ 64 / 16 * 16

def kmalloc (size : ℕ) : Heap × ℕ :=
  if size = 0 ∨ h.head = 0 then (h, 0)
  else if (h.stop + 2 ^ 64 - h.start) % 2 ^ 64 < size then (h, 0)
  else
    let size := alignUp size
    h.scan (if size < minAlloc then minAlloc else size) (h.stop - h.start) h.head

end Heap

/-- The joining loop of `kfree` from `cur`, for at most as many turns as the first argument. -/
def Heap.joinFree : ℕ → Heap → ℕ → Heap
  | 0, h, _ => h
  | fuel + 1, h, cur =>
    if cur = 0 ∨ h.nextOf cur = 0 then h
    else if !h.validHdr cur || !h.validHdr (h.nextOf cur) then h
    else if h.isFree cur && h.isFree (h.nextOf cur) then
      let h1 := h.setSize cur ((h.sizeOf cur + (headerSize + h.sizeOf (h.nextOf cur))) % 2 ^ 64)
      joinFree fuel (h1.setNext cur (h1.nextOf (h1.nextOf cur))) cur
    else joinFree fuel h (h.nextOf cur)

def Heap.kfree (h : Heap) (ptr : ℕ) : Heap :=
  if ptr = 0 then h
  else if !h.inHeap ptr then h
  else
    let hdr := (ptr + 2 ^ 64 - headerSize) % 2 ^ 64
    if !h.validHdr hdr then h
    else if h.isFree hdr then h
    else Heap.joinFree (h.stop - h.start) (h.setFree hdr 1) h.head

/-- `kmalloc_init` on memory with arbitrary contents. -/
def kmallocInit (mem : ℕ → ℕ) (heapStart heapSize : ℕ) : Heap :=
  let h : Heap := ⟨heapStart, heapStart, (heapStart + heapSize) % 2 ^ 64, mem⟩
  let h1 := h.setMagic heapStart heapMagic
  let h2 := h1.setSize heapStart ((heapSize + 2 ^ 64 - headerSize) % 2 ^ 64)
  (h2.setFree heapStart 1).setNext heapStart 0

/-- The heap and its users: the live allocations with the sizes asked for, and every pointer that
`kmalloc` has returned. -/
structure HeapSys where
  heap : Heap
  live : List (ℕ × ℕ)
  given : List ℕ

/-- What the kernel does with the heap: allocate, free, and store a word. -/
inductive HeapCall where
  | kmalloc (size : ℕ)
  | kfree (ptr : ℕ)
  | store (addr value : ℕ)

def HeapSys.exec (s : HeapSys) : HeapCall → HeapSys
  | .kmalloc size =>
    let r := s.heap.kmalloc size
    if r.2 = 0 then { s with heap := r.1 } else ⟨r.1, (r.2, size) :: s.live, r.2 :: s.given⟩
  | .kfree ptr => { s with
      heap := s.heap.kfree ptr, live := s.live.filter fun x => x.1 ≠ ptr }
  | .store addr value => { s with heap := s.heap.set addr value }

def HeapSys.run (s : HeapSys) (cs : List HeapCall) : HeapSys := cs.foldl HeapSys.exec s

/-- The calls a client may make: sizes and pointers are 64-bit; `kfree` takes NULL, an address
outside the heap, or a pointer that `kmalloc` returned earlier, live or freed; stores go to live
allocations. -/
def HeapSys.Legal (s : HeapSys) : HeapCall → Prop
  | .kmalloc size => size < 2 ^ 64
  | .kfree ptr => ptr < 2 ^ 64 ∧ (ptr = 0 ∨ s.heap.inHeap ptr = false ∨ ptr ∈ s.given)
  | .store addr _ =>
    ∃ x ∈ s.live, x.1 ≤ addr ∧ addr < x.1 + x.2 ∧ (addr - s.heap.start) % 8 = 0

instance (s : HeapSys) : DecidablePred s.Legal := fun c => by
  cases c <;> unfold HeapSys.Legal <;> infer_instance

def HeapSys.LegalAll (s : HeapSys) : List HeapCall → Prop
  | [] => True
  | c :: cs => s.Legal c ∧ (s.exec c).LegalAll cs

instance HeapSys.decidableLegalAll : (s : HeapSys) → (cs : List HeapCall) →
    Decidable (s.LegalAll cs)
  | _, [] => isTrue trivial
  | s, c :: cs => @instDecidableAnd _ _ _ (decidableLegalAll (s.exec c) cs)

end Exploidus.Mm
