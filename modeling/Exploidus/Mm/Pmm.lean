import Mathlib.Tactic

/-! The physical frame allocator: zones, reference counts and the circular scan. -/
namespace Exploidus.Mm
open Function

def pageSize : ℕ := 4096

/-- `sizeof(page_frame_t)`. -/
def frameEntrySize : ℕ := 12

/-- `mem_zone_t`. -/
inductive Zone where
  | green
  | yellow
  | red
  deriving DecidableEq, Repr

/-- The zones below `ZONE_COUNT`. -/
def Zone.ofIndex : ℕ → Option Zone
  | 0 => some .green
  | 1 => some .yellow
  | 2 => some .red
  | _ => none

/-- `page_frame_t`: a 32-bit count, the zone, and the flags `PF_FREE` and `PF_LOCKED`. -/
structure Frame where
  refCount : ℕ
  zone : Zone
  free : Bool
  locked : Bool
  deriving DecidableEq, Repr

structure Pmm where
  frames : ℕ → Frame
  base : ℕ
  count : ℕ
  allocStart : ℕ
  cursor : Zone → ℕ
  zoneFree : Zone → ℕ

/-- Pages taken by the frame database at the start of the memory. -/
def dbPages (memSize : ℕ) : ℕ :=
  (memSize / pageSize * frameEntrySize + pageSize - 1) / pageSize

def zoneSize (memSize : ℕ) : ℕ := (memSize / pageSize - dbPages memSize) / 3

def initFrame (memSize i : ℕ) : Frame :=
  if i < dbPages memSize then ⟨1, .green, false, true⟩
  else
    let rel := i - dbPages memSize
    let zone : Zone := if rel < zoneSize memSize then .green
      else if rel < zoneSize memSize * 2 then .yellow else .red
    ⟨0, zone, true, false⟩

/-- `pmm_init`. -/
def pmmInit (memBase memSize : ℕ) : Pmm where
  frames := initFrame memSize
  base := memBase
  count := memSize / pageSize
  allocStart := dbPages memSize
  cursor
    | .green => dbPages memSize
    | .yellow => dbPages memSize + zoneSize memSize
    | .red => dbPages memSize + zoneSize memSize * 2
  zoneFree
    | .green => zoneSize memSize
    | .yellow => zoneSize memSize
    | .red => memSize / pageSize - dbPages memSize - zoneSize memSize * 2

namespace Pmm
variable (p : Pmm)

def physToIdx (phys : ℕ) : ℕ := (phys + 2 ^ 64 - p.base) % 2 ^ 64 / pageSize

def idxToPhys (idx : ℕ) : ℕ := (p.base + idx * pageSize) % 2 ^ 64

def setFrame (i : ℕ) (f : Frame) : Pmm := { p with frames := update p.frames i f }

def usable (zone : Zone) (i : ℕ) : Bool :=
  (p.frames i).zone == zone && (p.frames i).free && !(p.frames i).locked &&
    (p.frames i).refCount == 0

/-- The `do … while (i != start)` loop of `pmm_alloc`: the frame found, or no frame; no result if
the loop has not ended after as many turns as the first argument says. -/
def scan (zone : Zone) (start : ℕ) : ℕ → ℕ → Option (Option ℕ)
  | 0, _ => none
  | turns + 1, i =>
    let i := if p.count ≤ i then p.allocStart else i
    if p.usable zone i then some (some i)
    else if i + 1 = start then some none
    else scan zone start turns (i + 1)

/-- Hand out frame `i`. -/
def take (zone : Zone) (i : ℕ) : Pmm :=
  let q := p.setFrame i { p.frames i with free := false, refCount := 1 }
  { q with
    cursor := update p.cursor zone (if p.count ≤ i + 1 then p.allocStart else i + 1)
    zoneFree := update p.zoneFree zone (p.zoneFree zone - 1) }

/-- `pmm_alloc`; no result if its loop runs past every frame. -/
def alloc (zone : ℕ) : Option (Pmm × ℕ) :=
  match Zone.ofIndex zone with
  | none => some (p, 0)
  | some z =>
    if p.zoneFree z = 0 then some (p, 0)
    else
      (p.scan z (p.cursor z) (p.count + 1) (p.cursor z)).map fun r =>
        match r with
        | none => (p, 0)
        | some i => (p.take z i, p.idxToPhys i)

/-- `pmm_free`. -/
def free (phys : ℕ) : Pmm :=
  if phys = 0 then p
  else
    let idx := p.physToIdx phys
    if p.count ≤ idx then p
    else if (p.frames idx).locked then p
    else
      let f := p.frames idx
      let f := if 0 < f.refCount then { f with refCount := f.refCount - 1 } else f
      if f.refCount = 0 then
        { p.setFrame idx { f with free := true } with
          zoneFree := update p.zoneFree f.zone (p.zoneFree f.zone + 1) }
      else p.setFrame idx f

/-- `pmm_ref`. -/
def ref (phys : ℕ) : Pmm :=
  let idx := p.physToIdx phys
  if idx < p.count then
    p.setFrame idx { p.frames idx with refCount := ((p.frames idx).refCount + 1) % 2 ^ 32 }
  else p

def freeFrames (zone : Zone) : Finset ℕ :=
  (Finset.range p.count).filter fun i => (p.frames i).zone = zone ∧ (p.frames i).free = true

end Pmm

/-- The allocator and the references its users hold on each frame. -/
structure PmmSys where
  pmm : Pmm
  refs : ℕ → ℕ

inductive PmmCall where
  | alloc (zone : ℕ)
  | ref (phys : ℕ)
  | free (phys : ℕ)

/-- A call; an `alloc` that returns a frame gives its caller one reference. -/
def PmmSys.exec (s : PmmSys) : PmmCall → PmmSys
  | .alloc zone =>
    match s.pmm.alloc zone with
    | none => s
    | some (p, phys) =>
      if phys = 0 then { s with pmm := p }
      else ⟨p, update s.refs (s.pmm.physToIdx phys) 1⟩
  | .ref phys =>
    let i := s.pmm.physToIdx phys
    ⟨s.pmm.ref phys, update s.refs i (s.refs i + 1)⟩
  | .free phys =>
    let i := s.pmm.physToIdx phys
    ⟨s.pmm.free phys, update s.refs i (s.refs i - 1)⟩

def PmmSys.run (s : PmmSys) (cs : List PmmCall) : PmmSys := cs.foldl PmmSys.exec s

/-- References are added to and dropped from frames that have one. -/
def PmmSys.Legal (s : PmmSys) : PmmCall → Prop
  | .alloc _ => True
  | .ref phys | .free phys =>
    s.pmm.physToIdx phys < s.pmm.count ∧ 0 < s.refs (s.pmm.physToIdx phys)

def PmmSys.LegalAll (s : PmmSys) : List PmmCall → Prop
  | [] => True
  | c :: cs => s.Legal c ∧ (s.exec c).LegalAll cs

/-- No frame gets more references than its 32-bit count holds. -/
def PmmSys.Counted (s : PmmSys) : PmmCall → Prop
  | .ref phys => s.refs (s.pmm.physToIdx phys) < 2 ^ 32 - 1
  | _ => True

def PmmSys.CountedAll (s : PmmSys) : List PmmCall → Prop
  | [] => True
  | c :: cs => s.Counted c ∧ (s.exec c).CountedAll cs

/-- After `pmm_init`: the database holds one reference on each of its own frames. -/
def pmmStart (memBase memSize : ℕ) : PmmSys :=
  ⟨pmmInit memBase memSize, fun i => if i < dbPages memSize then 1 else 0⟩

end Exploidus.Mm
