import Exploidus.Elf.PrivateTree

/-! Loading a program whose addresses are user addresses: the loader works on frames of the new
tree only. -/
namespace Exploidus.Elf
open Mm BitVec List

variable {σ : Type*} {A : FramePool σ} {K : Kern} {S : Set Word} {r f v : Word}
  {m : Vm σ} {own : Owner} {im : Image} {base : Word}

/-! ### Segments -/

def Phdr.Loads (ph : Phdr) : Prop := ph.type = 1 ∧ ph.memsz ≠ 0
  deriving Decidable

def UserSegments (K : Kern) (im : Image) (base : Word) (is : List ℕ) : Prop :=
  ∀ i ∈ is, (im.phdr (im.phdrOff i)).Loads →
    UserPages K ((im.phdr (im.phdrOff i)).vaddr + base) 0 (segmentPages (im.phdr (im.phdrOff i)))
  deriving Decidable

theorem segmentFlags_addr (ph : Phdr) : segmentFlags ph &&& addrMask = 0 := by
  unfold segmentFlags
  cases ph.flags.testBit 1 <;> cases ph.flags.testBit 0 <;> decide

theorem loadPhdrs_step {is : List ℕ} (dyn : Option (Word × Word)) (h : StateOk A K S m own)
    (hr : own r = some (r, .root)) (hv : UserSegments K im base is) :
    ∃ own', Step A K S r m own (loadPhdrs A im base r is dyn m).1 own' := by
  induction is generalizing m own dyn with
  | nil => exact ⟨own, h.step_refl⟩
  | cons i is ih =>
    rw [loadPhdrs]
    dsimp only
    have hv' : UserSegments K im base is := fun k hk => hv k (mem_cons_of_mem _ hk)
    by_cases hout : im.outside (im.phdrOff i) (BitVec.ofNat 64 im.phentsize)
    · rw [if_pos hout]
      exact ⟨own, h.step_refl⟩
    rw [if_neg hout]
    by_cases hskip : (im.phdr (im.phdrOff i)).type ≠ 1 ∨ (im.phdr (im.phdrOff i)).memsz = 0
    · rw [if_pos hskip]
      exact ih _ h hr hv'
    rw [if_neg hskip]
    push Not at hskip
    by_cases hbad : (im.phdr (im.phdrOff i)).memsz < (im.phdr (im.phdrOff i)).filesz ∨
        im.outside (im.phdr (im.phdrOff i)).offset (im.phdr (im.phdrOff i)).filesz
    · rw [if_pos hbad]
      exact ⟨own, h.step_refl⟩
    rw [if_neg hbad]
    obtain ⟨own1, hs⟩ := placePages_step (segmentFlags_addr (im.phdr (im.phdrOff i)))
      (segmentPage im (im.phdr (im.phdrOff i))) h hr (hv i (by simp) hskip)
    generalize placePages A _ _ _ _ _ _ _ = res at *
    cases res.2 with
    | false => exact ⟨own1, hs⟩
    | true =>
      obtain ⟨own2, hs2⟩ := ih _ hs.ok (hs.keeps hr) hv'
      exact ⟨own2, hs.trans hs2⟩

def dynamicOf (im : Image) : List ℕ → Option (Word × Word) → Option (Word × Word)
  | [], dyn => dyn
  | i :: is, dyn =>
    let ph := im.phdr (im.phdrOff i)
    dynamicOf im is (if ph.type = 2 then some (ph.offset, ph.filesz) else dyn)

theorem loadPhdrs_dynamic {is : List ℕ} {dyn d : Option (Word × Word)}
    (hd : (loadPhdrs A im base r is dyn m).2 = some d) : d = dynamicOf im is dyn := by
  induction is generalizing m dyn with
  | nil => exact (Option.some.inj hd).symm
  | cons i is ih =>
    rw [loadPhdrs] at hd
    dsimp only at hd
    rw [dynamicOf]
    split at hd
    · cases hd
    split at hd
    · exact ih hd
    split at hd
    · cases hd
    split at hd
    · exact ih hd
    · cases hd

/-! ### Writing through the tables -/

def UserBytes (K : Kern) (v : Word) (n : ℕ) : Prop :=
  ∀ k ∈ range n, K.UserAddr (v + BitVec.ofNat 64 k)
  deriving Decidable

theorem UserBytes.tail {n : ℕ} (h : UserBytes K v (n + 1)) : UserBytes K (v + 1) n := by
  intro k hk
  have := h (k + 1) (by simpa using hk)
  rwa [Nat.add_comm k 1, BitVec.ofNat_add, ← BitVec.add_assoc] at this

theorem page_of_phys (hf : IsFrame f) : (f ||| (v &&& 0xFFF)) &&& ~~~0xFFF = f := by
  have h1 : addrMask &&& ~~~(0xFFF : Word) = addrMask := by decide
  have h2 : (0xFFF : Word) &&& ~~~0xFFF = 0 := by decide
  rw [BitVec.and_or_distrib_right, ← hf, BitVec.and_assoc, h1, BitVec.and_assoc, h2]
  simp

theorem putBytes_step {bs : List Byte} (h : StateOk A K S m own) (hr : own r = some (r, .root))
    (hv : UserBytes K v bs.length) :
    Step A K S r m own ⟨m.frames, (putBytes r v bs m.mem).1⟩ own := by
  induction bs generalizing v m with
  | nil => exact h.step_refl
  | cons b bs ih =>
    rw [putBytes]
    have hv0 : K.UserAddr v := by
      have := hv 0 (by simp)
      rwa [BitVec.add_zero] at this
    by_cases h0 : vmmGetPhysInto m.mem r v = 0
    · rw [if_pos h0]
      exact h.step_refl
    obtain ⟨f, hpage, hf, heq⟩ := (h.getPhys hr hv0).resolve_left h0
    rw [if_neg h0, heq, writeByte, page_of_phys hf]
    exact (h.write hpage _ _).trans (ih (h.write (r := r) hpage _ _).ok hv.tail)

@[simp] theorem leBytes_length (w : Word) : (leBytes w).length = 8 := by simp [leBytes]

/-! ### Relocations -/

def UserRelocs (K : Kern) (im : Image) (base off entsize : Word) (is : List ℕ) : Prop :=
  ∀ i ∈ is, im.u32 ((off + BitVec.ofNat 64 i * entsize).toNat + 8) = 8 →
    UserBytes K (im.u64 (off + BitVec.ofNat 64 i * entsize).toNat + base) 8
  deriving Decidable

theorem relocate_step {off entsize : Word} {n i : ℕ} (h : StateOk A K S m own)
    (hr : own r = some (r, .root)) (hv : UserRelocs K im base off entsize (range' i n)) :
    Step A K S r m own ⟨m.frames, (relocate im r base off entsize n i m.mem).1⟩ own := by
  induction n generalizing i m with
  | zero => exact h.step_refl
  | succ n ih =>
    rw [relocate]
    dsimp only
    have hv' : UserRelocs K im base off entsize (range' (i + 1) n) :=
      fun k hk => hv k (mem_cons_of_mem _ hk)
    split
    · exact h.step_refl
    split
    · exact ih h hv'
    rename_i h8
    have hbytes : UserBytes K (im.u64 (off + BitVec.ofNat 64 i * entsize).toNat + base) (leBytes
        (base + im.u64 ((off + BitVec.ofNat 64 i * entsize).toNat + 16))).length := by
      rw [leBytes_length]
      exact hv i (by simp) (not_not.mp h8)
    have hone := putBytes_step h hr hbytes
    split
    · exact hone.trans (ih hone.ok hv')
    · exact hone

def UserRela (K : Kern) (im : Image) (base : Word) (r : Rela) : Option Word → Prop
  | none => True
  | some off => r.size ≠ 0 →
      UserRelocs K im base off r.entsize (range' 0 (r.size / r.entsize).toNat)

instance (r : Rela) (off : Option Word) : Decidable (UserRela K im base r off) := by
  cases off <;> unfold UserRela <;> infer_instance

def UserDynamic (K : Kern) (im : Image) (base : Word) : Option (Word × Word) → Prop
  | none => True
  | some d =>
    let r := scanDynamic im d.1 (d.2 / 16).toNat 0 ⟨0, 0, 24⟩
    im.isDyn = true → UserRela K im base r (vaddrToFileOffset im r.vaddr)

instance (dyn : Option (Word × Word)) : Decidable (UserDynamic K im base dyn) := by
  cases dyn <;> unfold UserDynamic <;> infer_instance

theorem relocations_step {dyn : Option (Word × Word)} (h : StateOk A K S m own)
    (hr : own r = some (r, .root)) (hv : UserDynamic K im base dyn) :
    Step A K S r m own ⟨m.frames, (relocations im r base dyn m.mem).1⟩ own := by
  unfold relocations
  cases dyn with
  | none => exact h.step_refl
  | some d =>
    dsimp only
    by_cases hdyn : im.isDyn
    · rw [if_pos hdyn, applyRelocations]
      have hv' := hv hdyn
      generalize scanDynamic im d.1 (d.2 / 16).toNat 0 ⟨0, 0, 24⟩ = rela at *
      split
      · exact h.step_refl
      rename_i hsize
      cases hoff : vaddrToFileOffset im rela.vaddr with
      | none => exact h.step_refl
      | some off =>
        rw [hoff] at hv'
        exact relocate_step h hr (hv' hsize)
    · rw [if_neg hdyn]
      exact h.step_refl

/-! ### The stack -/

theorem userAddr_top {x : Word} (hlo : 0x7F8000000000 ≤ x.toNat) (hhi : x.toNat < 0x800000000000) :
    K.UserAddr x := by
  have hidx : pml4Idx x = 255 := by
    apply eq_of_toNat_eq
    have h255 : (255 : BitVec 9).toNat = 255 := rfl
    rw [pml4Idx, extractLsb'_toNat, Nat.shiftRight_eq_div_pow, h255]
    omega
  refine ⟨?_, fun hc => ?_⟩
  · rw [hidx]
    decide
  · rw [hidx] at hc
    exact absurd hc.1 (by decide)

theorem stackTop_bounds (rand : Word) :
    0x7FFFFFDFF000 ≤ (stackTop rand).toNat ∧ (stackTop rand).toNat ≤ 0x7FFFFFFFE000 := by
  have hand : (rand &&& 0x00000000001FF000).toNat ≤ 0x1FF000 := by
    rw [toNat_and]
    exact Nat.and_le_right
  have htop : (0x00007FFFFFFFE000 : Word).toNat = 0x7FFFFFFFE000 := rfl
  rw [stackTop, userStackTop, toNat_sub, htop]
  omega

theorem userAddr_below (rand : Word) {n k : ℕ} (hn : n ≤ 0x4000000000) (hk : k < n) :
    K.UserAddr (stackTop rand - BitVec.ofNat 64 n + BitVec.ofNat 64 k) := by
  obtain ⟨hlo, hhi⟩ := stackTop_bounds rand
  have heq : (stackTop rand - BitVec.ofNat 64 n + BitVec.ofNat 64 k).toNat =
      (stackTop rand).toNat - n + k := by
    rw [toNat_add, toNat_sub, toNat_ofNat, toNat_ofNat]
    omega
  apply userAddr_top
  · rw [heq]
    omega
  · rw [heq]
    omega

theorem stack_userPages (rand : Word) :
    UserPages K (stackTop rand - BitVec.ofNat 64 (userStackPages * pageSize)) 0 userStackPages := by
  intro k hk
  have hk' : k < 64 := by simpa [userStackPages] using hk
  refine userAddr_below rand (by decide) ?_
  rw [userStackPages, pageSize]
  omega

theorem packStrings_length (cursor : Word) (ss : List (List Byte)) (buf : List Byte) :
    (packStrings cursor ss buf).1.length = ss.length ∧
      (packStrings cursor ss buf).2.length ≤ buf.length + stringBytes ss := by
  induction ss generalizing buf with
  | nil => exact ⟨rfl, by simp [packStrings]⟩
  | cons s ss ih =>
    obtain ⟨h1, h2⟩ := ih (buf ++ s.take (2046 - buf.length) ++ [0])
    simp only [packStrings, length_cons, h1, true_and]
    simp only [stringBytes, length_append, length_take, map_cons, sum_cons,
      length_singleton] at h2 ⊢
    omega

theorem stringBytes_append (ss ts : List (List Byte)) :
    stringBytes (ss ++ ts) = stringBytes ss + stringBytes ts := by
  simp [stringBytes]

theorem stringBytes_take (n : ℕ) (ss : List (List Byte)) :
    stringBytes (ss.take n) ≤ stringBytes ss := by
  conv_rhs => rw [← take_append_drop n ss]
  rw [stringBytes_append]
  omega

def argBytes (argv envp : List (List Byte)) : ℕ :=
  let argv := if argv.isEmpty then defaultArgv else argv
  (stringBytes argv + stringBytes envp + (argv.length + envp.length + 3) * 8 + 15) / 16 * 16

theorem length_flatMap_leBytes (ws : List Word) : (ws.flatMap leBytes).length = 8 * ws.length := by
  induction ws with
  | nil => rfl
  | cons w ws ih =>
    rw [flatMap_cons, length_append, ih, leBytes_length, length_cons]
    omega

theorem pushArgs_step {argv envp : List (List Byte)} (rand : Word) (h : StateOk A K S m own)
    (hr : own r = some (r, .root)) (hfit : argBytes argv envp ≤ 0x4000000000) :
    Step A K S r m own ⟨m.frames, (pushArgs r (stackTop rand) argv envp m.mem).1⟩ own := by
  unfold pushArgs
  unfold argBytes at hfit
  dsimp only at hfit ⊢
  generalize (if argv.isEmpty then defaultArgv else argv) = argv at *
  generalize hcur : stackTop rand - BitVec.ofNat 64 (stringBytes argv + stringBytes envp) = cursor
  obtain ⟨hlen, hbuf⟩ := packStrings_length cursor (argv.take 15 ++ envp.take 31) []
  generalize packStrings cursor (argv.take 15 ++ envp.take 31) [] = p at *
  have h1 := stringBytes_take 15 argv
  have h2 := stringBytes_take 31 envp
  rw [stringBytes_append] at hbuf
  have hbytes : UserBytes K cursor p.2.length := fun k hk => by
    rw [← hcur]
    refine userAddr_below rand (by omega) ?_
    simp only [length_nil, mem_range] at hk hbuf
    omega
  have hone := putBytes_step h hr hbytes
  generalize putBytes r cursor p.2 m.mem = r1 at *
  split
  · refine hone.trans (putBytes_step hone.ok hr fun k hk => ?_)
    refine userAddr_below rand hfit ?_
    rw [mem_range, length_flatMap_leBytes] at hk
    simp only [length_cons, length_append, length_take, length_drop, hlen, length_nil] at hk
    omega
  · exact hone

/-! ### The whole load -/

/-- The program is at user addresses, and its relocations and arguments are written there. -/
structure UserLoad (K : Kern) (a : LoadArgs) : Prop where
  segments : UserSegments K a.image (aslrBase a.image a.rand) (range a.image.phnum)
  dynamic : UserDynamic K a.image (aslrBase a.image a.rand)
    (dynamicOf a.image (range a.image.phnum) none)
  args : argBytes a.argv a.envp ≤ 0x4000000000

theorem elfLoad_step {a : LoadArgs} (h : StateOk A K S m own) (hu : UserLoad K a) :
    ∃ r own', own r = none ∧ Step A K S r m own (elfLoad A K.pml4 a m).1 own' ∧
      ∀ l, (elfLoad A K.pml4 a m).2 = some l → l.pml4 = r ∧ own' r = some (r, .root) := by
  obtain ⟨r, own1, hnone, hs1, hroot⟩ := makeIsolatedPml4_step h
  refine ⟨r, ?_⟩
  unfold elfLoad
  dsimp only
  by_cases hval : (!elfValidate a.image)
  · rw [if_pos hval]
    exact ⟨own, hnone, h.step_refl, nofun⟩
  rw [if_neg hval]
  generalize makeIsolatedPml4 A K.pml4 m = res at *
  by_cases h0 : res.2 = 0
  · rw [if_pos h0]
    exact ⟨own1, hnone, hs1, nofun⟩
  obtain ⟨hres, hr1⟩ := hroot h0
  rw [if_neg h0, hres]
  obtain ⟨own2, hs2⟩ := loadPhdrs_step none hs1.ok hr1 hu.segments
  have hdyn : ∀ {d}, (loadPhdrs A a.image (aslrBase a.image a.rand) r (range a.image.phnum)
      none res.1).2 = some d → d = dynamicOf a.image (range a.image.phnum) none :=
    fun hd => loadPhdrs_dynamic hd
  generalize loadPhdrs A a.image _ r _ none res.1 = seg at *
  replace hs1 := hs1.trans hs2
  have hr2 := hs2.keeps hr1
  obtain ⟨m2, _ | d⟩ := seg
  · exact ⟨own2, hnone, hs1, nofun⟩
  dsimp only at *
  have hs3 := hs1.trans (relocations_step hs1.ok hr2 ((hdyn rfl).symm ▸ hu.dynamic))
  generalize relocations a.image r _ d m2.mem = rel at *
  by_cases hrel : rel.2 = false
  · rw [if_pos hrel]
    exact ⟨own2, hnone, hs3, nofun⟩
  rw [if_neg hrel]
  have hflags : (vmmUser ||| vmmWrite ||| vmmNx) &&& addrMask = 0 := by decide
  obtain ⟨own3, hs4⟩ := placePages_step hflags (fun _ _ => 0) hs3.ok hr2
    (stack_userPages a.stackRand)
  generalize placePages A r _ _ _ _ _ _ = st at *
  replace hs3 := hs3.trans hs4
  by_cases hst : st.2 = false
  · rw [if_pos hst]
    exact ⟨own3, hnone, hs3, nofun⟩
  rw [if_neg hst]
  have hr3 := hs4.keeps hr2
  refine ⟨own3, hnone, hs3.trans (pushArgs_step a.stackRand hs3.ok hr3 hu.args), fun l hl => ?_⟩
  obtain ⟨sp, -, rfl⟩ := Option.map_eq_some_iff.mp hl
  exact ⟨rfl, hr3⟩

end Exploidus.Elf
