import Exploidus.Mm.Pmm

/-! Frame accounting over whole runs of the frame allocator. -/
namespace Exploidus.Mm
open Function Pmm PmmSys Finset

/-- Memory that `pmm_init` can manage: a frame is left after the database, and the last address
is 64 bits wide. -/
structure MemRange (memBase memSize : ℕ) : Prop where
  usable : dbPages memSize < memSize / pageSize
  high : memBase + memSize ≤ 2 ^ 64

/-- A frame with `n` references: one of the database is locked, and any other counts them. -/
def FrameOk (memSize i : ℕ) (f : Frame) (n : ℕ) : Prop :=
  if i < dbPages memSize then f.locked = true ∧ f.free = false
  else f.locked = false ∧ f.refCount = n ∧ (f.free = true ↔ n = 0)

structure PmmOk (memBase memSize : ℕ) (s : PmmSys) : Prop where
  base : s.pmm.base = memBase
  count : s.pmm.count = memSize / pageSize
  allocStart : s.pmm.allocStart = dbPages memSize
  cursor : ∀ z, dbPages memSize ≤ s.pmm.cursor z ∧ s.pmm.cursor z < memSize / pageSize
  frame : ∀ i < memSize / pageSize, FrameOk memSize i (s.pmm.frames i) (s.refs i)
  zoneFree : ∀ z, s.pmm.zoneFree z = (s.pmm.freeFrames z).card

section
variable {memBase memSize i t : ℕ} {p : Pmm} {z : Zone} {s : PmmSys}

theorem MemRange.dbPages_pos (h : MemRange memBase memSize) : 0 < dbPages memSize := by
  have hu := h.usable
  unfold dbPages pageSize frameEntrySize at *
  omega

/-! ### Addresses and frames -/

section
variable (hr : MemRange memBase memSize)
include hr

theorem Pmm.idxToPhys_eq (hb : p.base = memBase)
    (hi : i < memSize / pageSize) : p.idxToPhys i = memBase + i * pageSize := by
  have hhigh := hr.high
  unfold idxToPhys
  rw [hb, Nat.mod_eq_of_lt]
  unfold pageSize at *
  omega

theorem Pmm.physToIdx_frame (hb : p.base = memBase)
    (hi : i < memSize / pageSize) : p.physToIdx (memBase + i * pageSize) = i := by
  have hhigh := hr.high
  unfold physToIdx
  rw [hb]
  unfold pageSize at *
  omega

theorem Pmm.physToIdx_zero (hb : p.base = memBase)
    (hi : p.physToIdx 0 < memSize / pageSize) : p.physToIdx 0 = 0 := by
  have hhigh := hr.high
  unfold physToIdx at *
  rw [hb] at *
  unfold pageSize at *
  omega

end

theorem Pmm.mem_freeFrames : i ∈ p.freeFrames z ↔
    i < p.count ∧ (p.frames i).zone = z ∧ (p.frames i).free := by
  simp [freeFrames]

theorem Pmm.freeFrames_setFrame (p : Pmm) (i : ℕ) (f : Frame) (z : Zone) :
    (p.setFrame i f).freeFrames z =
      if i < p.count ∧ f.zone = z ∧ f.free then insert i (p.freeFrames z)
      else (p.freeFrames z).erase i := by
  ext j
  have hmem : j ∈ (p.setFrame i f).freeFrames z ↔ j < p.count ∧ (update p.frames i f j).zone = z ∧
        (update p.frames i f j).free := mem_freeFrames
  rw [hmem]
  by_cases hj : j = i
  · subst hj
    rw [update_self]
    split <;> simp_all
  · rw [update_of_ne hj]
    split <;> simp [hj, mem_freeFrames]

/-! ### The scan -/

theorem Pmm.scan_reaches (turns start : ℕ) (ht : p.usable z t) (hlo : p.allocStart ≤ t)
    (htc : t < p.count) (hi : p.allocStart ≤ i) (hic : i ≤ p.count)
    (hway : i ≤ t ∧ (start ≤ i ∨ t < start) ∨ t < start ∧ start ≤ i)
    (hturns : (if i ≤ t then t - i else p.count - i + (t - p.allocStart)) < turns) :
    ∃ j, p.allocStart ≤ j ∧ j < p.count ∧ p.usable z j ∧
      p.scan z start turns i = some (some j) := by
  induction turns generalizing i with
  | zero => exact absurd hturns (Nat.not_lt_zero _)
  | succ turns ih =>
    obtain ⟨i', hi', hlo', hc', hway', hturns'⟩ : ∃ i',
        (if p.count ≤ i then p.allocStart else i) = i' ∧ p.allocStart ≤ i' ∧ i' < p.count ∧
        (i' ≤ t ∧ (start ≤ i' ∨ t < start) ∨ t < start ∧ start ≤ i') ∧
        (if i' ≤ t then t - i' else p.count - i' + (t - p.allocStart)) < turns + 1 := by
      refine ⟨_, rfl, ?_⟩
      split_ifs at hturns ⊢ <;> omega
    simp only [scan, hi']
    by_cases hu : p.usable z i'
    · exact ⟨i', hlo', hc', hu, if_pos hu⟩
    have hne : i' ≠ t := by
      rintro rfl
      exact hu ht
    rw [if_neg hu, if_neg (by omega)]
    exact ih (by omega) (by omega) (by omega) (by split_ifs at hturns' ⊢ <;> omega)

theorem FrameOk.usable_iff {f : Frame} {n : ℕ} (h : FrameOk memSize i f n) (hp : p.frames i = f) :
    p.usable z i ↔ dbPages memSize ≤ i ∧ f.zone = z ∧ n = 0 := by
  unfold FrameOk at h
  split_ifs at h with hdb
  · simp [usable, hp, h.1, hdb]
  · simp [usable, hp, h.1, h.2.1, h.2.2, not_lt.mp hdb]

section
variable (h : PmmOk memBase memSize s)
include h

theorem PmmOk.mem_freeFrames_iff : i ∈ s.pmm.freeFrames z ↔
    dbPages memSize ≤ i ∧ i < memSize / pageSize ∧ (s.pmm.frames i).zone = z ∧ s.refs i = 0 := by
  rw [mem_freeFrames, h.count]
  by_cases hi : i < memSize / pageSize
  · have hf := h.frame i hi
    unfold FrameOk at hf
    split_ifs at hf with hdb
    · simp [hf.2, hdb]
    · simp [hf.2.2, hi, not_lt.mp hdb]
  · simp [hi]

theorem PmmOk.scan_eq (hne : s.pmm.zoneFree z ≠ 0) : ∃ j ∈ s.pmm.freeFrames z,
      s.pmm.scan z (s.pmm.cursor z) (s.pmm.count + 1) (s.pmm.cursor z) = some (some j) := by
  rw [h.zoneFree z] at hne
  obtain ⟨t, ht⟩ := card_ne_zero.mp hne
  have husable : ∀ j < memSize / pageSize, (s.pmm.usable z j ↔ j ∈ s.pmm.freeFrames z) :=
    fun j hj => by rw [(h.frame j hj).usable_iff rfl, h.mem_freeFrames_iff]; simp [hj]
  obtain ⟨htlo, htc, -⟩ := h.mem_freeFrames_iff.mp ht
  obtain ⟨hc1, hc2⟩ := h.cursor z
  have hcount := h.count
  have hstart := h.allocStart
  obtain ⟨j, -, hj, hu, hscan⟩ := scan_reaches (p := s.pmm) (i := s.pmm.cursor z)
    (s.pmm.count + 1) (s.pmm.cursor z) ((husable t htc).mpr ht) (by omega) (by omega)
    (by omega) (by omega) (by omega) (by split_ifs <;> omega)
  exact ⟨j, (husable j (by omega)).mp hu, hscan⟩

/-- What `pmm_alloc` can do: nothing when the zone is full, or hand out a frame of the zone that
nobody references. -/
theorem PmmOk.alloc_cases (hr : MemRange memBase memSize) (zone : ℕ) :
    (s.pmm.alloc zone = some (s.pmm, 0) ∧ ∀ z, Zone.ofIndex zone = some z →
      s.pmm.freeFrames z = ∅) ∨
    ∃ z j, Zone.ofIndex zone = some z ∧ j ∈ s.pmm.freeFrames z ∧ dbPages memSize ≤ j ∧
      j < memSize / pageSize ∧ s.refs j = 0 ∧
      s.pmm.alloc zone = some (s.pmm.take z j, memBase + j * pageSize) := by
  unfold alloc
  cases hz : Zone.ofIndex zone with
  | none => exact .inl ⟨rfl, by simp⟩
  | some z =>
    by_cases h0 : s.pmm.zoneFree z = 0
    · refine .inl ⟨if_pos h0, fun z' hz' => ?_⟩
      obtain rfl : z = z' := by simpa using hz'
      rw [h.zoneFree z] at h0
      exact card_eq_zero.mp h0
    obtain ⟨j, hj, hscan⟩ := h.scan_eq h0
    obtain ⟨hlo, hhi, -, hrefs⟩ := h.mem_freeFrames_iff.mp hj
    refine .inr ⟨z, j, rfl, hj, hlo, hhi, hrefs, ?_⟩
    dsimp only
    rw [if_neg h0, hscan, ← idxToPhys_eq hr h.base hhi]
    rfl

/-! ### One call -/

/-- One frame and its references change. -/
theorem PmmOk.set {f : Frame} {n : ℕ} (hf : FrameOk memSize i f n) {cursor zoneFree : Zone → ℕ}
    (hcursor : ∀ z, dbPages memSize ≤ cursor z ∧ cursor z < memSize / pageSize)
    (hzone : ∀ z, zoneFree z = ((s.pmm.setFrame i f).freeFrames z).card) :
    PmmOk memBase memSize ⟨{ s.pmm.setFrame i f with cursor := cursor, zoneFree := zoneFree },
      update s.refs i n⟩ := by
  refine ⟨h.base, h.count, h.allocStart, hcursor, fun j hj => ?_, hzone⟩
  simp only [setFrame]
  by_cases hji : j = i
  · subst hji
    rwa [update_self, update_self]
  · rw [update_of_ne hji, update_of_ne hji]
    exact h.frame j hj

theorem PmmOk.take {j : ℕ} (hr : MemRange memBase memSize)
    (hj : j ∈ s.pmm.freeFrames z) (hlo : dbPages memSize ≤ j) (hhi : j < memSize / pageSize) :
    PmmOk memBase memSize ⟨s.pmm.take z j, update s.refs j 1⟩ := by
  have hf := h.frame j hhi
  rw [FrameOk, if_neg (not_lt.mpr hlo)] at hf
  refine h.set (f := { s.pmm.frames j with free := false, refCount := 1 }) ?_ (fun z' => ?_)
    fun z' => ?_
  · rw [FrameOk, if_neg (not_lt.mpr hlo)]
    exact ⟨hf.1, rfl, by simp⟩
  · have hu := hr.usable
    have hc := h.cursor z'
    rw [h.count, h.allocStart, update_apply]
    split_ifs <;> omega
  rw [freeFrames_setFrame, if_neg (by simp)]
  by_cases hzz : z' = z
  · subst hzz
    rw [update_self, card_erase_of_mem hj, h.zoneFree z']
  have hnot : j ∉ s.pmm.freeFrames z' := fun hm =>
    hzz ((mem_freeFrames.mp hm).2.1.symm.trans (mem_freeFrames.mp hj).2.1)
  rw [update_of_ne hzz, erase_eq_of_notMem hnot, h.zoneFree z']

theorem PmmOk.alloc (hr : MemRange memBase memSize) (zone : ℕ) :
    PmmOk memBase memSize (s.exec (.alloc zone)) := by
  rcases h.alloc_cases hr zone with ⟨heq, -⟩ | ⟨z, j, -, hj, hlo, hhi, -, heq⟩
  · simp only [exec, heq, if_true]
    exact h
  have hpos := hr.dbPages_pos
  have hne : memBase + j * pageSize ≠ 0 := by
    unfold pageSize
    omega
  simp only [exec, heq, if_neg hne, physToIdx_frame hr h.base hhi]
  exact h.take hr hj hlo hhi

/-- The references of a frame change, and whether it is free does not. -/
theorem PmmOk.setRefCount {c n : ℕ}
    (hf : FrameOk memSize i { s.pmm.frames i with refCount := c } n) :
    PmmOk memBase memSize
      ⟨s.pmm.setFrame i { s.pmm.frames i with refCount := c }, update s.refs i n⟩ := by
  refine h.set hf h.cursor fun z => (h.zoneFree z).trans (congrArg _ ?_)
  rw [freeFrames_setFrame]
  split
  · rename_i hc
    exact (insert_eq_self.mpr (mem_freeFrames.mpr hc)).symm
  · rename_i hc
    exact (erase_eq_of_notMem fun hm => hc (mem_freeFrames.mp hm)).symm

theorem PmmOk.ref {phys : ℕ} (hl : s.Legal (.ref phys)) (hc : s.Counted (.ref phys)) :
    PmmOk memBase memSize (s.exec (.ref phys)) := by
  obtain ⟨hi, hpos⟩ := hl
  simp only [PmmSys.Counted] at hc
  simp only [exec, Pmm.ref, if_pos hi]
  generalize s.pmm.physToIdx phys = i at hi hpos hc ⊢
  rw [h.count] at hi
  refine h.setRefCount ?_
  have hf := h.frame i hi
  unfold FrameOk at hf ⊢
  split_ifs at hf ⊢ with hdb
  · exact hf
  obtain ⟨h1, h2, h3⟩ := hf
  refine ⟨h1, ?_, fun hf => absurd (h3.mp hf) (by omega), False.elim⟩
  dsimp only
  rw [h2, Nat.mod_eq_of_lt (by omega)]

theorem PmmOk.free (hr : MemRange memBase memSize) {phys : ℕ} (hl : s.Legal (.free phys)) :
    PmmOk memBase memSize (s.exec (.free phys)) := by
  obtain ⟨hi, hpos⟩ := hl
  have hphys : phys = 0 → s.pmm.physToIdx phys < dbPages memSize := by
    rintro rfl
    rw [physToIdx_zero hr h.base (h.count ▸ hi)]
    exact hr.dbPages_pos
  simp only [exec, Pmm.free, if_neg (not_le.mpr hi)]
  generalize s.pmm.physToIdx phys = i at hi hpos hphys ⊢
  have hf := h.frame i (h.count ▸ hi)
  by_cases hdb : i < dbPages memSize
  · have hlock := hf
    rw [FrameOk, if_pos hdb] at hlock
    simp only [hlock.1, if_true, ite_self]
    have hsame := h.setRefCount (i := i) (c := (s.pmm.frames i).refCount) (n := s.refs i - 1)
      (by rw [FrameOk, if_pos hdb]; exact hlock)
    rwa [setFrame, update_eq_self] at hsame
  have hframe := hf
  rw [FrameOk, if_neg hdb] at hframe
  obtain ⟨h1, h2, h3⟩ := hframe
  have hnotfree : (s.pmm.frames i).free = false := by
    by_contra hf
    have := h3.mp (by simpa using hf)
    omega
  rw [if_neg (fun h0 => hdb (hphys h0)), if_neg (by simp [h1])]
  simp only [if_pos (show 0 < (s.pmm.frames i).refCount by omega)]
  split
  · rename_i h0
    refine h.set ?_ h.cursor fun z => ?_
    · rw [FrameOk, if_neg hdb, ← h2]
      exact ⟨h1, rfl, by simp [h0]⟩
    have hnot : ∀ z', i ∉ s.pmm.freeFrames z' := fun z' hm =>
      absurd ((mem_freeFrames.mp hm).2.2.symm.trans hnotfree) (by decide)
    rw [freeFrames_setFrame]
    by_cases hz : (s.pmm.frames i).zone = z
    · rw [if_pos ⟨hi, hz, rfl⟩, card_insert_of_notMem (hnot z), hz, update_self, h.zoneFree z]
    · rw [if_neg (fun hc => hz hc.2.1), erase_eq_of_notMem (hnot z),
        update_of_ne (Ne.symm hz), h.zoneFree z]
  · rename_i h0
    refine h.setRefCount ?_
    rw [FrameOk, if_neg hdb, ← h2]
    exact ⟨h1, rfl, by simp [hnotfree, h0]⟩

end

/-! ### Runs -/

theorem PmmOk.exec (h : PmmOk memBase memSize s) (hr : MemRange memBase memSize) {c : PmmCall}
    (hl : s.Legal c) (hc : s.Counted c) : PmmOk memBase memSize (s.exec c) := by
  cases c with
  | alloc zone => exact h.alloc hr zone
  | ref phys => exact h.ref hl hc
  | free phys => exact h.free hr hl

theorem PmmOk.run (h : PmmOk memBase memSize s) (hr : MemRange memBase memSize)
    {cs : List PmmCall} (hl : s.LegalAll cs) (hc : s.CountedAll cs) :
    PmmOk memBase memSize (s.run cs) := by
  induction cs generalizing s with
  | nil => exact h
  | cons c cs ih => exact ih (h.exec hr hl.1 hc.1) hl.2 hc.2

theorem pmmInit_freeFrames (hr : MemRange memBase memSize) (z : Zone) :
    (pmmInit memBase memSize).freeFrames z = Finset.Ico ((pmmInit memBase memSize).cursor z)
        ((pmmInit memBase memSize).cursor z + (pmmInit memBase memSize).zoneFree z) := by
  have hu := hr.usable
  have hz : zoneSize memSize * 3 ≤ memSize / pageSize - dbPages memSize := Nat.div_mul_le_self _ _
  ext i
  rw [mem_freeFrames, mem_Ico]
  have hfr : (pmmInit memBase memSize).frames i = initFrame memSize i := rfl
  have hcount : (pmmInit memBase memSize).count = memSize / pageSize := rfl
  rw [hfr, hcount]
  unfold initFrame
  by_cases hdb : i < dbPages memSize
  · rw [if_pos hdb]
    cases z <;> simp only [pmmInit, Bool.false_eq_true, and_false, false_iff] <;> omega
  · rw [if_neg hdb]
    cases z <;> simp only [pmmInit, and_true] <;> split_ifs <;> simp <;> omega

theorem pmmStart_ok (hr : MemRange memBase memSize) :
    PmmOk memBase memSize (pmmStart memBase memSize) := by
  have hu := hr.usable
  have hz : zoneSize memSize * 3 ≤ memSize / pageSize - dbPages memSize := Nat.div_mul_le_self _ _
  refine ⟨rfl, rfl, rfl, fun z => ?_, fun i _ => ?_, fun z => ?_⟩
  · cases z <;> simp only [pmmStart, pmmInit] <;> omega
  · unfold FrameOk
    split_ifs with hdb <;> simp [pmmStart, pmmInit, initFrame, hdb]
  have hset := pmmInit_freeFrames hr z
  simp only [pmmStart]
  rw [hset, Nat.card_Ico, Nat.add_sub_cancel_left]

end

/-- Every run in which no count overflows: the counters are the numbers of free frames, the free
frames are those outside the database without a reference, and `pmm_alloc` ends, returning 0
exactly when the zone has no free frame and otherwise a frame that nobody references. -/
theorem pmm_run {memBase memSize : ℕ} {cs : List PmmCall} {f : PmmSys}
    (hr : MemRange memBase memSize) (hl : (pmmStart memBase memSize).LegalAll cs)
    (hc : (pmmStart memBase memSize).CountedAll cs)
    (hf : f = (pmmStart memBase memSize).run cs) :
    (∀ z, f.pmm.zoneFree z = (f.pmm.freeFrames z).card) ∧
    (∀ z i, i ∈ f.pmm.freeFrames z ↔ dbPages memSize ≤ i ∧ i < memSize / pageSize ∧
      (f.pmm.frames i).zone = z ∧ f.refs i = 0) ∧
    (∀ z, ∀ i < memSize / pageSize, f.pmm.usable z i = true ↔ i ∈ f.pmm.freeFrames z) ∧
    ∀ zone, ∃ p phys, f.pmm.alloc zone = some (p, phys) ∧
      (phys = 0 ↔ ∀ z, Zone.ofIndex zone = some z → f.pmm.freeFrames z = ∅) ∧
      (phys ≠ 0 → ∃ i, phys = memBase + i * pageSize ∧ dbPages memSize ≤ i ∧
        i < memSize / pageSize ∧ f.refs i = 0) := by
  subst hf
  have h := (pmmStart_ok hr).run hr hl hc
  refine ⟨h.zoneFree, fun z i => h.mem_freeFrames_iff, fun z i hi => ?_, fun zone => ?_⟩
  · rw [h.mem_freeFrames_iff, (h.frame i hi).usable_iff rfl]
    simp [hi]
  rcases h.alloc_cases hr zone with ⟨heq, hnone⟩ | ⟨z, j, hz, hj, hlo, hhi, h0, heq⟩
  · exact ⟨_, 0, heq, ⟨fun _ => hnone, fun _ => rfl⟩, by simp⟩
  have hpos := hr.dbPages_pos
  have hne : memBase + j * pageSize ≠ 0 := by
    unfold pageSize
    omega
  refine ⟨_, _, heq, ⟨fun he => absurd he hne, fun hall => ?_⟩, fun _ => ⟨j, rfl, hlo, hhi, h0⟩⟩
  rw [hall z hz] at hj
  simp at hj

/-- Two red allocations of three frames, one shared and dropped twice. -/
def samplePmmCalls : List PmmCall :=
  [.alloc 2, .ref 0x101000, .free 0x101000, .alloc 0, .free 0x101000, .alloc 2]

instance (s : PmmSys) : DecidablePred s.Legal := fun c => by
  cases c <;> unfold Legal <;> infer_instance

instance (s : PmmSys) : DecidablePred s.Counted := fun c => by
  cases c <;> unfold Counted <;> infer_instance

instance PmmSys.decidableLegalAll : (s : PmmSys) → (cs : List PmmCall) → Decidable (s.LegalAll cs)
  | _, [] => isTrue trivial
  | s, c :: cs => @instDecidableAnd _ _ _ (decidableLegalAll (s.exec c) cs)

instance PmmSys.decidableCountedAll : (s : PmmSys) → (cs : List PmmCall) →
    Decidable (s.CountedAll cs)
  | _, [] => isTrue trivial
  | s, c :: cs => @instDecidableAnd _ _ _ (decidableCountedAll (s.exec c) cs)

theorem samplePmmCalls_run : (∀ z, ((pmmStart 0x100000 0x2000).run samplePmmCalls).pmm.zoneFree z =
      (((pmmStart 0x100000 0x2000).run samplePmmCalls).pmm.freeFrames z).card) ∧
    ∀ zone, ∃ r, ((pmmStart 0x100000 0x2000).run samplePmmCalls).pmm.alloc zone = some r := by
  have hr : MemRange 0x100000 0x2000 := ⟨by decide, by decide⟩
  have hl : (pmmStart 0x100000 0x2000).LegalAll samplePmmCalls := by decide +kernel
  have hc : (pmmStart 0x100000 0x2000).CountedAll samplePmmCalls := by decide
  obtain ⟨h1, -, -, h2⟩ := pmm_run hr hl hc rfl
  refine ⟨h1, fun zone => ?_⟩
  obtain ⟨p, phys, h3, -⟩ := h2 zone
  exact ⟨_, h3⟩

/-! ### The 32-bit count -/

theorem PmmSys.refs_append {s t : PmmSys} {phys i : ℕ} (hi : s.pmm.physToIdx phys = i)
    (hlt : i < s.pmm.count) (hrc : (s.pmm.frames i).refCount < 2 ^ 32) (hpos : 0 < s.refs i)
    (k : ℕ) (cs : List PmmCall) (ht : t = ⟨s.pmm.setFrame i
      { s.pmm.frames i with refCount := ((s.pmm.frames i).refCount + k) % 2 ^ 32 },
      update s.refs i (s.refs i + k)⟩) :
    s.run (List.replicate k (.ref phys) ++ cs) = t.run cs ∧
      (t.LegalAll cs → s.LegalAll (List.replicate k (.ref phys) ++ cs)) := by
  induction k generalizing s with
  | zero =>
    obtain rfl : t = s := by
      rw [ht]
      simp only [Nat.add_zero, Nat.mod_eq_of_lt hrc, setFrame, update_eq_self]
    exact ⟨rfl, id⟩
  | succ k ih =>
    have hexec : s.exec (.ref phys) = ⟨s.pmm.setFrame i
        { s.pmm.frames i with refCount := ((s.pmm.frames i).refCount + 1) % 2 ^ 32 },
        update s.refs i (s.refs i + 1)⟩ := by
      simp only [exec, ref, hi, if_pos hlt]
    obtain ⟨hrun, hlegal⟩ := @ih (s.exec (.ref phys)) (hexec ▸ hi) (hexec ▸ hlt)
      (by simp [hexec, setFrame, Nat.mod_lt]) (by simp [hexec])
      (by simp [ht, hexec, setFrame, Nat.add_assoc, Nat.add_comm 1 k])
    exact ⟨hrun, fun h => ⟨⟨hi.symm ▸ hlt, hi.symm ▸ hpos⟩, hlegal h⟩⟩

/-- One frame, referenced 2³² times and freed once. -/
def wrapCalls : List PmmCall :=
  [.alloc 2] ++ (List.replicate (2 ^ 32 - 1) (.ref 0x101000) ++ [.free 0x101000])

/-- The count of the frame wraps to 0: one free makes it allocatable with 2³² - 1 references
left, and the next call hands it out. -/
theorem wrapCalls_handed_out : MemRange 0x100000 0x2000 ∧
    (pmmStart 0x100000 0x2000).LegalAll wrapCalls ∧
    (((pmmStart 0x100000 0x2000).run wrapCalls).pmm.alloc 2).map Prod.snd = some 0x101000 ∧
    ((pmmStart 0x100000 0x2000).run wrapCalls).pmm.physToIdx 0x101000 = 1 ∧
    ((pmmStart 0x100000 0x2000).run wrapCalls).refs 1 = 2 ^ 32 - 1 := by
  have hidx : ((pmmStart 0x100000 0x2000).exec (.alloc 2)).pmm.physToIdx 0x101000 = 1 := by decide
  obtain ⟨hrefs, hlegal⟩ := refs_append hidx (by decide) (by decide) (by decide) (2 ^ 32 - 1)
    [.free 0x101000] rfl
  have hrun : ∀ (s : PmmSys) cs, s.run ([.alloc 2] ++ cs) = (s.exec (.alloc 2)).run cs :=
    fun _ _ => rfl
  refine ⟨⟨by decide, by decide⟩, ⟨trivial, hlegal (by decide)⟩, ?_, ?_, ?_⟩ <;>
    rw [wrapCalls, hrun, hrefs] <;> decide

end Exploidus.Mm
