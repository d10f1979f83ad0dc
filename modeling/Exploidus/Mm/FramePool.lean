import Exploidus.Mm.PmmRun
import Exploidus.Mm.MapSpec

/-! Frame allocators seen through the frames that are free and the frames that are taken, and the
physical frame allocator as one of them. -/
namespace Exploidus.Mm
open Function Pmm

/-- An allocator of frames with its free and its taken frames. An allocation fails or takes a free
frame; releasing a taken frame frees it, and releasing a frame that is neither does nothing. -/
structure FramePool (σ : Type*) where
  alloc : Zone → σ → σ × Word
  release : Word → σ → σ
  Valid : σ → Prop
  Free : σ → Set Word
  Taken : σ → Set Word
  frame : ∀ {s f}, Valid s → f ∈ Free s ∨ f ∈ Taken s → IsFrame f ∧ f ≠ 0
  apart : ∀ {s f}, Valid s → f ∈ Free s → f ∉ Taken s
  alloc_spec : ∀ {s} z, Valid s → Valid (alloc z s).1 ∧
    ((alloc z s).2 = 0 ∧ Free (alloc z s).1 = Free s ∧ Taken (alloc z s).1 = Taken s ∨
      (alloc z s).2 ∈ Free s ∧ Free (alloc z s).1 = Free s \ {(alloc z s).2} ∧
        Taken (alloc z s).1 = insert (alloc z s).2 (Taken s))
  release_taken : ∀ {s f}, Valid s → f ∈ Taken s → Valid (release f s) ∧
    Free (release f s) = insert f (Free s) ∧ Taken (release f s) = Taken s \ {f}
  release_other : ∀ {s f}, Valid s → IsFrame f → f ∉ Free s → f ∉ Taken s → release f s = s

/-- The allocator as a source of frames: it returns none of the frames that are not free. -/
def FramePool.source {σ : Type*} (A : FramePool σ) : FrameSource σ where
  alloc := A.alloc
  Avoids s U := A.Valid s ∧ ∀ f ∈ A.Free s, f ∉ U
  alloc_avoids := by
    rintro s z U ⟨hv, hU⟩
    obtain ⟨hv', ⟨h0, hf, -⟩ | ⟨hmem, hf, -⟩⟩ := A.alloc_spec z hv
    · refine .inl ⟨h0, hv', ?_⟩
      rw [hf]
      exact hU
    obtain ⟨hframe, hne⟩ := A.frame hv (.inl hmem)
    refine .inr ⟨hne, hframe, hU _ hmem, hv', fun f hf' => ?_⟩
    rw [hf] at hf'
    exact fun hins => (Set.mem_insert_iff.mp hins).elim hf'.2 (hU f hf'.1)

/-! ### The frame allocator of the kernel -/

/-- `mem_zone_t` as a number. -/
def Zone.index : Zone → ℕ
  | .green => 0
  | .yellow => 1
  | .red => 2

/-- The address of frame `i`. -/
def Pmm.addr (p : Pmm) (i : ℕ) : Word := BitVec.ofNat 64 (p.base + i * pageSize)

/-- The allocator manages page frames below 2⁵² and every frame outside the database has one
reference or none. -/
structure Pmm.Sound (p : Pmm) (memBase memSize : ℕ) (refs : ℕ → ℕ) : Prop where
  range : MemRange memBase memSize
  aligned : memBase % pageSize = 0
  high : memBase + memSize ≤ 2 ^ 52
  ok : PmmOk memBase memSize ⟨p, refs⟩
  single : ∀ i, refs i ≤ 1

section
variable {p : Pmm} {memBase memSize i j : ℕ} {refs : ℕ → ℕ} {f : Word}

theorem isFrame_ofNat {n : ℕ} (h : n % 4096 = 0) (hn : n < 2 ^ 52) :
    IsFrame (BitVec.ofNat 64 n) := by
  have hmask : addrMask = BitVec.ofNat 64 ((2 ^ 40 - 1) <<< 12) := by decide
  unfold IsFrame
  rw [hmask]
  refine BitVec.eq_of_getLsbD_eq fun k hk => ?_
  rw [BitVec.getLsbD_and, BitVec.getLsbD_ofNat, BitVec.getLsbD_ofNat, Nat.testBit_shiftLeft,
    Nat.testBit_two_pow_sub_one]
  by_cases h12 : 12 ≤ k
  · by_cases h52 : k < 52
    · simp [hk, h12, show k - 12 < 40 by omega]
    have hz : n.testBit k = false :=
      Nat.testBit_lt_two_pow (lt_of_lt_of_le hn (Nat.pow_le_pow_right (by omega) (by omega)))
    simp [hz]
  have hz : n.testBit k = false := by
    have h2 : n.testBit k = (n % 2 ^ 12).testBit k := by
      rw [Nat.testBit_mod_two_pow]
      simp [show k < 12 by omega]
    rw [h2, show n % 2 ^ 12 = 0 from h, Nat.zero_testBit]
  simp [hz]

theorem isFrame_mod (h : IsFrame f) : f.toNat % pageSize = 0 := by
  have hlow : f &&& 0xFFF = 0 := h.and_eq_zero (by decide)
  have hnat := congrArg BitVec.toNat hlow
  rw [BitVec.toNat_and] at hnat
  have h12 : (0xFFF : Word).toNat = 2 ^ 12 - 1 := by decide
  rwa [h12, Nat.and_two_pow_sub_one_eq_mod] at hnat

section
variable (h : p.Sound memBase memSize refs)
include h

section
variable (hi : i < memSize / pageSize)
include hi

theorem Pmm.Sound.lt : memBase + i * pageSize < 2 ^ 52 := by
  have := h.high
  unfold pageSize at *
  omega

theorem Pmm.Sound.addr_toNat : (p.addr i).toNat = memBase + i * pageSize := by
  have := h.lt hi
  unfold addr
  rw [BitVec.toNat_ofNat, h.ok.base, Nat.mod_eq_of_lt (by omega)]

theorem Pmm.Sound.addr_inj
    (hj : j < memSize / pageSize) (he : p.addr i = p.addr j) : i = j := by
  have hn := congrArg BitVec.toNat he
  rw [h.addr_toNat hi, h.addr_toNat hj] at hn
  unfold pageSize at hn
  omega

theorem Pmm.Sound.isFrame
    (hdb : dbPages memSize ≤ i) : IsFrame (p.addr i) ∧ p.addr i ≠ 0 := by
  have hlt := h.lt hi
  have hpos := h.range.dbPages_pos
  have hal := h.aligned
  refine ⟨?_, fun h0 => ?_⟩
  · unfold addr
    rw [h.ok.base]
    exact isFrame_ofNat (by unfold pageSize at *; omega) hlt
  have := congrArg BitVec.toNat h0
  rw [h.addr_toNat hi] at this
  unfold pageSize at this
  simp at this
  omega

end

end

/-! ### What is free and what is taken -/

/-- The frames that `pmm_alloc` may return. -/
def Pmm.freeSet (p : Pmm) : Set Word :=
  {f | ∃ i, i < p.count ∧ (p.frames i).free = true ∧ f = p.addr i}

def Pmm.takenSet (p : Pmm) : Set Word :=
  {f | ∃ i, i < p.count ∧ (p.frames i).locked = false ∧ (p.frames i).free = false ∧ f = p.addr i}

/-- The frames outside the database with `n` references. -/
def Pmm.referenced (p : Pmm) (memSize : ℕ) (refs : ℕ → ℕ) (n : ℕ) : Set Word :=
  {f | ∃ i, dbPages memSize ≤ i ∧ i < memSize / pageSize ∧ refs i = n ∧ f = p.addr i}

theorem Pmm.addr_congr {q : Pmm} (h : q.base = p.base) (i : ℕ) : q.addr i = p.addr i := by
  rw [addr, addr, h]

section
variable (h : p.Sound memBase memSize refs)
include h

theorem Pmm.Sound.sets :
    p.freeSet = p.referenced memSize refs 0 ∧ p.takenSet = p.referenced memSize refs 1 := by
  have hframe : ∀ i, i < memSize / pageSize →
      ((p.frames i).free ↔ dbPages memSize ≤ i ∧ refs i = 0) ∧
      ((p.frames i).locked = false ∧ (p.frames i).free = false ↔
        dbPages memSize ≤ i ∧ refs i = 1) := by
    intro i hi
    have hf : FrameOk memSize i (p.frames i) (refs i) := h.ok.frame i hi
    have hone := h.single i
    unfold FrameOk at hf
    split_ifs at hf with hdb
    · simp [hf, hdb]
    · have hfree : (p.frames i).free = false ↔ refs i = 1 := by
        rw [← Bool.not_eq_true, hf.2.2]
        omega
      simp [hf.1, hf.2.2, hfree, not_lt.mp hdb]
  constructor <;> ext f <;> refine exists_congr fun i => ?_ <;> rw [h.ok.count] <;>
    by_cases hi : i < memSize / pageSize
  · simp [hi, (hframe i hi).1, and_assoc]
  · simp [hi]
  · simp [hi, ← and_assoc, (hframe i hi).2]
  · simp [hi]

theorem Pmm.Sound.mem_freeSet : f ∈ p.freeSet ↔ ∃ i, dbPages memSize ≤ i ∧
    i < memSize / pageSize ∧ refs i = 0 ∧ f = p.addr i := by
  rw [h.sets.1]
  rfl

theorem Pmm.Sound.mem_takenSet : f ∈ p.takenSet ↔ ∃ i, dbPages memSize ≤ i ∧
    i < memSize / pageSize ∧ refs i = 1 ∧ f = p.addr i := by
  rw [h.sets.2]
  rfl

theorem Pmm.Sound.referenced_update {q : Pmm} (hq : q.base = p.base) (n v : ℕ)
    (hi : i < memSize / pageSize) (hdb : dbPages memSize ≤ i) :
    q.referenced memSize (update refs i n) v = if n = v then
      insert (p.addr i) (p.referenced memSize refs v) else p.referenced memSize refs v \ {p.addr i} := by
  have hset : ∀ f, f ∈ q.referenced memSize (update refs i n) v ↔
      n = v ∧ f = p.addr i ∨ f ∈ p.referenced memSize refs v ∧ f ≠ p.addr i := by
    intro f
    constructor
    · rintro ⟨j, h1, h2, h3, rfl⟩
      rw [addr_congr hq]
      by_cases hj : j = i
      · subst hj
        rw [update_self] at h3
        exact .inl ⟨h3, rfl⟩
      · rw [update_of_ne hj] at h3
        exact .inr ⟨⟨j, h1, h2, h3, rfl⟩, fun he => hj (h.addr_inj h2 hi he)⟩
    · rintro (⟨rfl, rfl⟩ | ⟨⟨j, h1, h2, h3, rfl⟩, hne⟩)
      · exact ⟨i, hdb, hi, update_self _ _ _, (addr_congr hq i).symm⟩
      have hj : j ≠ i := by
        rintro rfl
        exact hne rfl
      exact ⟨j, h1, h2, by rw [update_of_ne hj]; exact h3, (addr_congr hq j).symm⟩
  ext f
  rw [hset]
  by_cases hf : f = p.addr i <;> split_ifs with hv <;> simp [hf, hv]

theorem Pmm.Sound.update {q : Pmm} {n : ℕ}
    (hq : q.Sound memBase memSize (update refs i n)) (hi : i < memSize / pageSize)
    (hdb : dbPages memSize ≤ i) :
    (n = 1 → q.freeSet = p.freeSet \ {p.addr i} ∧ q.takenSet = insert (p.addr i) p.takenSet) ∧
    (n = 0 → q.freeSet = insert (p.addr i) p.freeSet ∧ q.takenSet = p.takenSet \ {p.addr i}) := by
  have hbase := hq.ok.base.trans h.ok.base.symm
  rw [hq.sets.1, hq.sets.2, h.sets.1, h.sets.2, h.referenced_update hbase n 0 hi hdb,
    h.referenced_update hbase n 1 hi hdb]
  constructor <;> rintro rfl <;> simp

/-! ### The pool -/

theorem Pmm.Sound.alloc (z : Zone) : p.alloc z.index = some (p, 0) ∨
    ∃ q j, p.alloc z.index = some (q, memBase + j * pageSize) ∧ dbPages memSize ≤ j ∧
      j < memSize / pageSize ∧ refs j = 0 ∧ q.Sound memBase memSize (Function.update refs j 1) := by
  rcases h.ok.alloc_cases h.range z.index with ⟨heq, -⟩ | ⟨z', j, -, hj, hlo, hhi, h0, heq⟩
  · exact .inl heq
  refine .inr ⟨_, j, heq, hlo, hhi, h0, h.range, h.aligned, h.high, h.ok.take h.range hj hlo hhi,
    fun i => ?_⟩
  by_cases hi : i = j
  · subst hi
    rw [update_self]
  · rw [update_of_ne hi]
    exact h.single i

theorem Pmm.Sound.free (hlo : dbPages memSize ≤ i) (hi : i < memSize / pageSize) (h1 : refs i = 1) :
    (p.free (memBase + i * pageSize)).Sound memBase memSize (Function.update refs i 0) := by
  have hidx := physToIdx_frame h.range h.ok.base hi
  have hlegal : PmmSys.Legal ⟨p, refs⟩ (.free (memBase + i * pageSize)) :=
    ⟨by rw [hidx, h.ok.count]; exact hi, by rw [hidx]; dsimp only; omega⟩
  have hok := h.ok.free h.range hlegal
  simp only [PmmSys.exec, hidx, h1] at hok
  refine ⟨h.range, h.aligned, h.high, hok, fun j => ?_⟩
  by_cases hj : j = i
  · subst hj
    rw [update_self]
    omega
  · rw [update_of_ne hj]
    exact h.single j

theorem Pmm.Sound.free_other {n : ℕ} (hn : n % pageSize = 0)
    (hlt : n < 2 ^ 64) (hnot : ∀ i, dbPages memSize ≤ i → i < memSize / pageSize →
      n ≠ memBase + i * pageSize) : p.free n = p := by
  unfold Pmm.free
  by_cases h0 : n = 0
  · rw [if_pos h0]
  rw [if_neg h0]
  dsimp only
  by_cases hc : p.count ≤ p.physToIdx n
  · rw [if_pos hc]
  rw [if_neg hc]
  rw [h.ok.count] at hc
  have hal := h.aligned
  have hhigh := h.high
  have hn' : n = memBase + p.physToIdx n * pageSize := by
    unfold physToIdx at *
    rw [h.ok.base] at *
    unfold pageSize at *
    omega
  have hdb : p.physToIdx n < dbPages memSize := by
    by_contra hlo
    exact hnot _ (not_lt.mp hlo) (not_le.mp hc) hn'
  have hf := h.ok.frame _ (not_le.mp hc)
  rw [FrameOk, if_pos hdb] at hf
  rw [if_pos hf.1]

end

end

/-- The frame allocator as a pool; its loops end because its state is sound. -/
def pmmPool : FramePool Pmm where
  alloc z p := match p.alloc z.index with
    | some r => (r.1, BitVec.ofNat 64 r.2)
    | none => (p, 0)
  release f p := p.free f.toNat
  Valid p := ∃ memBase memSize refs, p.Sound memBase memSize refs
  Free := freeSet
  Taken := takenSet
  frame := by
    rintro p f ⟨memBase, memSize, refs, h⟩ hf
    rcases hf with hf | hf
    · obtain ⟨i, hlo, hi, -, rfl⟩ := h.mem_freeSet.mp hf
      exact h.isFrame hi hlo
    · obtain ⟨i, hlo, hi, -, rfl⟩ := h.mem_takenSet.mp hf
      exact h.isFrame hi hlo
  apart := by
    rintro p f ⟨memBase, memSize, refs, h⟩ hf ht
    obtain ⟨i, -, hi, h0, rfl⟩ := h.mem_freeSet.mp hf
    obtain ⟨j, -, hj, h1, heq⟩ := h.mem_takenSet.mp ht
    obtain rfl := h.addr_inj hi hj heq
    omega
  alloc_spec := by
    rintro p z ⟨memBase, memSize, refs, h⟩
    rcases h.alloc z with heq | ⟨q, j, heq, hlo, hj, h0, hq⟩
    · rw [heq]
      exact ⟨⟨memBase, memSize, refs, h⟩, .inl ⟨rfl, rfl, rfl⟩⟩
    have haddr : BitVec.ofNat 64 (memBase + j * pageSize) = p.addr j := by
      rw [addr, h.ok.base]
    rw [heq]
    dsimp only
    rw [haddr]
    refine ⟨⟨memBase, memSize, _, hq⟩, .inr ⟨h.mem_freeSet.mpr ⟨j, hlo, hj, h0, rfl⟩, ?_⟩⟩
    exact (h.update hq hj hlo).1 rfl
  release_taken := by
    rintro p f ⟨memBase, memSize, refs, h⟩ hf
    obtain ⟨i, hlo, hi, h1, rfl⟩ := h.mem_takenSet.mp hf
    have hq := h.free hlo hi h1
    rw [h.addr_toNat hi]
    exact ⟨⟨memBase, memSize, _, hq⟩, (h.update hq hi hlo).2 rfl⟩
  release_other := by
    rintro p f ⟨memBase, memSize, refs, h⟩ hframe hf ht
    refine h.free_other (isFrame_mod hframe) f.isLt fun i hlo hi heq => ?_
    have hfi : f = p.addr i := BitVec.eq_of_toNat_eq (by rw [heq, h.addr_toNat hi])
    have h01 : refs i = 0 ∨ refs i = 1 := by
      have := h.single i
      omega
    rcases h01 with h0 | h1
    · exact hf (h.mem_freeSet.mpr ⟨i, hlo, hi, h0, hfi⟩)
    · exact ht (h.mem_takenSet.mpr ⟨i, hlo, hi, h1, hfi⟩)

theorem pmmInit_valid {memBase memSize : ℕ} (hr : MemRange memBase memSize)
    (hal : memBase % pageSize = 0) (hhigh : memBase + memSize ≤ 2 ^ 52) :
    pmmPool.Valid (pmmInit memBase memSize) := by
  refine ⟨memBase, memSize, (pmmStart memBase memSize).refs, hr, hal, hhigh, pmmStart_ok hr,
    fun i => ?_⟩
  dsimp only [pmmStart]
  split
  · exact le_rfl
  · exact Nat.zero_le 1

theorem pmmPool_below {p : Pmm} {f : Word} (hv : pmmPool.Valid p) (hf : f.toNat < p.base) :
    f ∉ pmmPool.Free p ∧ f ∉ pmmPool.Taken p := by
  obtain ⟨memBase, memSize, refs, h⟩ := hv
  rw [h.ok.base] at hf
  have hne : ∀ {i}, i < memSize / pageSize → f ≠ p.addr i := by
    rintro i hi rfl
    rw [h.addr_toNat hi] at hf
    omega
  constructor
  · intro hmem
    obtain ⟨i, -, hi, -, heq⟩ := h.mem_freeSet.mp hmem
    exact hne hi heq
  · intro hmem
    obtain ⟨i, -, hi, -, heq⟩ := h.mem_takenSet.mp hmem
    exact hne hi heq

end Exploidus.Mm
