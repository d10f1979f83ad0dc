import Exploidus.Proc.Machine
import Exploidus.Shm.RegionSpec

/-! Isolation of address spaces: loading a program, `mmap` and `shm_map` work on the tree of one
process as long as the addresses are user addresses. -/
namespace Exploidus.Proc
open RadixTree Mm Elf Shm Function Machine

structure MachineOk {σ : Type*} (A : FramePool σ) (K : Kern) (s : Machine σ) (own : Owner) :
    Prop where
  state : StateOk A K s.table.frames s.vm own
  root : ∀ {i}, (s.spaces i).Alive → own (s.spaces i).cr3 = some ((s.spaces i).cr3, .root)
  inj : ∀ {i j}, (s.spaces i).Alive → (s.spaces j).Alive → (s.spaces i).cr3 = (s.spaces j).cr3 →
    i = j

section
variable {σ : Type*} {A : FramePool σ} {K : Kern} {s s' : Machine σ} {own own' : Owner} {i : Slot}
  {r : Word}

structure Private (K : Kern) (i : Slot) (s s' : Machine σ) : Prop where
  kernel : ∀ q, entries s'.vm.mem K.pml4 q = entries s.vm.mem K.pml4 q
  others : ∀ {j}, (s.spaces j).Alive → j ≠ i → s'.spaces j = s.spaces j ∧
    ∀ q, entries s'.vm.mem (s.spaces j).cr3 q = entries s.vm.mem (s.spaces j).cr3 q

theorem MachineOk.private_refl (_h : MachineOk A K s own) : Private K i s s :=
  ⟨fun _ => rfl, fun _ _ => ⟨rfl, fun _ => rfl⟩⟩

section
variable (h : MachineOk A K s own)
include h

/-- The tree `r`, of no process but the one in slot `i`, changes. -/
theorem MachineOk.change (hs : Step A K s.table.frames r s.vm own s'.vm own')
    (hr : ∀ {j}, (s.spaces j).Alive → j ≠ i → (s.spaces j).cr3 ≠ r)
    (hframes : s'.table.frames = s.table.frames)
    (hself : (s'.spaces i).Alive → own' (s'.spaces i).cr3 = some ((s'.spaces i).cr3, .root) ∧
      ∀ {j}, (s.spaces j).Alive → j ≠ i → (s.spaces j).cr3 ≠ (s'.spaces i).cr3)
    (hother : ∀ {j}, j ≠ i → s'.spaces j = s.spaces j) :
    MachineOk A K s' own' ∧ Private K i s s' := by
  have halive : ∀ {j}, (s'.spaces j).Alive → j ≠ i → (s.spaces j).Alive := fun ha hj =>
    hother hj ▸ ha
  refine ⟨⟨?_, fun {j} ha => ?_, fun {j k} hj hk heq => ?_⟩, fun q => ?_,
    fun {j} ha hj => ⟨hother hj, hs.entries_other h.state (h.root ha) (hr ha hj)⟩⟩
  · rw [hframes]
    exact hs.ok
  · by_cases hj : j = i
    · subst hj
      exact (hself ha).1
    · rw [hother hj]
      exact hs.keeps (h.root (halive ha hj))
  · by_cases hji : j = i
    · subst hji
      by_contra hki
      rw [hother (Ne.symm hki)] at heq
      exact (hself hj).2 (halive hk (Ne.symm hki)) (Ne.symm hki) heq.symm
    by_cases hki : k = i
    · subst hki
      rw [hother hji] at heq
      exact absurd heq ((hself hk).2 (halive hj hji) hji)
    · rw [hother hji, hother hki] at heq
      exact h.inj (halive hj hji) (halive hk hki) heq
  · rw [hs.ok.entries_kernel, h.state.entries_kernel]

/-- The tree of the process in slot `i` changes. -/
theorem MachineOk.of_step (hi : (s.spaces i).Alive)
    (hs : Step A K s.table.frames (s.spaces i).cr3 s.vm own s'.vm own')
    (hframes : s'.table.frames = s.table.frames)
    (hself : (s'.spaces i).cr3 = (s.spaces i).cr3)
    (hother : ∀ {j}, j ≠ i → s'.spaces j = s.spaces j) :
    MachineOk A K s' own' ∧ Private K i s s' := by
  have hne : ∀ {j}, (s.spaces j).Alive → j ≠ i → (s.spaces j).cr3 ≠ (s.spaces i).cr3 :=
    fun ha hj heq => hj (h.inj ha hi heq)
  refine h.change hs hne hframes (fun _ => ?_) hother
  rw [hself]
  exact ⟨hs.keeps (h.root hi), hne⟩

theorem MachineOk.cr3_ne (hr : own r = none) {j : Slot} (ha : (s.spaces j).Alive) :
    (s.spaces j).cr3 ≠ r := ne_of_label (h.root ha) hr

end

/-! ### The calls -/

theorem setSpace_self {p : Space} {vm : Vm σ} : (s.setSpace i p vm).spaces i = p :=
  update_self _ _ _

theorem setSpace_of_ne {p : Space} {vm : Vm σ} {j : Slot} (hj : j ≠ i) :
    (s.setSpace i p vm).spaces j = s.spaces j := update_of_ne hj _ _

section
variable (h : MachineOk A K s own)
include h

theorem MachineOk.spawn {pid : ℕ} {a : LoadArgs} (hu : UserLoad K a) :
    ∃ own', MachineOk A K (s.spawn A K.pml4 i pid a) own' ∧
      Private K i s (s.spawn A K.pml4 i pid a) := by
  obtain ⟨r, own', hnone, hs, hl⟩ := elfLoad_step h.state hu
  refine ⟨own', ?_⟩
  unfold Machine.spawn
  dsimp only
  generalize elfLoad A K.pml4 a s.vm = res at *
  obtain ⟨vm', _ | l⟩ := res
  · refine h.change hs (fun ha _ => h.cr3_ne hnone ha) rfl (fun ha => ?_) setSpace_of_ne
    rw [setSpace_self] at ha
    cases ha.2
  · obtain ⟨hpml4, hroot⟩ := hl l rfl
    refine h.change hs (fun ha _ => h.cr3_ne hnone ha) rfl (fun _ => ?_) setSpace_of_ne
    rw [setSpace_self, hpml4]
    exact ⟨hroot, fun ha _ => h.cr3_ne hnone ha⟩

theorem MachineOk.exec {a : LoadArgs} (hi : (s.spaces i).Alive) (hu : UserLoad K a) :
    ∃ own', MachineOk A K (s.exec A K.pml4 i a) own' ∧ Private K i s (s.exec A K.pml4 i a) := by
  obtain ⟨r, own', hnone, hs, hl⟩ := elfLoad_step h.state hu
  refine ⟨own', ?_⟩
  unfold Machine.exec
  dsimp only
  generalize elfLoad A K.pml4 a s.vm = res at *
  obtain ⟨vm', _ | l⟩ := res
  · refine h.change hs (fun ha _ => h.cr3_ne hnone ha) rfl (fun _ => ?_) fun _ => rfl
    exact ⟨hs.keeps (h.root hi), fun ha hj heq => hj (h.inj ha hi heq)⟩
  · obtain ⟨hpml4, hroot⟩ := hl l rfl
    refine h.change hs (fun ha _ => h.cr3_ne hnone ha) rfl (fun _ => ?_) setSpace_of_ne
    rw [setSpace_self, hpml4]
    exact ⟨hroot, fun ha _ => h.cr3_ne hnone ha⟩

theorem MachineOk.mmap {len : Word} (hi : (s.spaces i).Alive) (hu : UserMmap K len (s.spaces i)) :
    ∃ own', MachineOk A K (s.mmap A i len) own' ∧ Private K i s (s.mmap A i len) := by
  obtain ⟨own', hs⟩ := sysMmap_step h.state (h.root hi) hu
  refine ⟨own', h.of_step hi hs rfl ?_ setSpace_of_ne⟩
  unfold Machine.mmap
  rw [setSpace_self]
  exact sysMmap_cr3 len (s.spaces i) s.vm

theorem MachineOk.of_table
    (hstate : StateOk A K s'.table.frames s'.vm own) (hmem : s'.vm.mem = s.vm.mem)
    (hsame : s'.spaces = s.spaces) : MachineOk A K s' own ∧ Private K i s s' := by
  refine ⟨⟨hstate, ?_, ?_⟩, fun q => ?_, fun {j} _ _ => ⟨?_, fun q => ?_⟩⟩
  · rw [hsame]
    exact h.root
  · rw [hsame]
    exact h.inj
  · rw [hmem]
  · rw [hsame]
  · rw [hmem]

theorem MachineOk.shmCreate (size : Word) :
    MachineOk A K (s.shmCreate A i size) own ∧ Private K i s (s.shmCreate A i size) :=
  h.of_table (shmCreate_ok h.state) rfl rfl

theorem MachineOk.shmMap {id : BitVec 32} (hi : (s.spaces i).Alive)
    (hu : UserShmMap K id s.table (s.spaces i)) :
    ∃ own', MachineOk A K (s.shmMap A i id) own' ∧ Private K i s (s.shmMap A i id) := by
  obtain ⟨own', hs⟩ := shmMap_step h.state (h.root hi) hu
  refine ⟨own', h.of_step hi hs ?_ ?_ fun hj => update_of_ne hj _ _⟩
  · exact shmMap_frames id s.table (s.spaces i) s.vm
  have hself : (s.shmMap A i id).spaces i = (Shm.shmMap A id s.table (s.spaces i) s.vm).2.2 :=
    update_self _ _ _
  rw [hself]
  exact shmMap_cr3 id s.table (s.spaces i) s.vm

end

/-! ### Runs -/

/-- The call makes or extends the address space of the process in slot `i`, at user addresses. -/
def Machine.Builds (K : Kern) (s : Machine σ) : SpaceCall → Prop
  | .spawn _ _ a => UserLoad K a
  | .exec _ a => UserLoad K a
  | .mmap i len => UserMmap K len (s.spaces i)
  | .shmCreate _ _ => True
  | .shmMap i id => UserShmMap K id s.table (s.spaces i)
  | _ => False

/-- Every call of the run builds in the state it is made in. -/
def Machine.BuildsAll (A : FramePool σ) (K : Kern) (s : Machine σ) : List SpaceCall → Prop
  | [] => True
  | c :: cs => s.Builds K c ∧ (s.step A K.pml4 c).BuildsAll A K cs

/-- The slot of the process that makes the call or that it makes. -/
def SpaceCall.slot : SpaceCall → Slot
  | .spawn i _ _ | .exec i _ | .execve i _ | .mmap i _ | .munmap i _ _ | .exit i | .reap i
  | .shmCreate i _ | .shmMap i _ | .shmUnmap i _ _ | .shmDestroy i _ | .fork _ i _ => i

theorem MachineOk.callBy (h : MachineOk A K s own) {f : Machine σ}
    (hf : (s.spaces i).Alive → ∃ own', MachineOk A K f own' ∧ Private K i s f) :
    ∃ own', MachineOk A K (s.callBy i f) own' ∧ Private K i s (s.callBy i f) := by
  unfold Machine.callBy
  split
  · exact hf ‹_›
  · exact ⟨own, h, h.private_refl⟩

theorem MachineOk.builds (h : MachineOk A K s own) {c : SpaceCall} (hc : s.Builds K c) :
    ∃ own', MachineOk A K (s.step A K.pml4 c) own' ∧ Private K c.slot s (s.step A K.pml4 c) := by
  cases c with
  | spawn i pid a =>
    rw [step, into]
    split
    · exact h.spawn hc
    · exact ⟨own, h, h.private_refl⟩
  | exec i a => exact h.callBy fun hi => h.exec hi hc
  | mmap i len => exact h.callBy fun hi => h.mmap hi hc
  | shmCreate i size => exact h.callBy fun _ => ⟨own, h.shmCreate size⟩
  | shmMap i id => exact h.callBy fun hi => h.shmMap hi hc
  | execve i a => exact hc.elim
  | munmap i addr len => exact hc.elim
  | fork i child pid => exact hc.elim
  | exit i => exact hc.elim
  | reap i => exact hc.elim
  | shmUnmap i va size => exact hc.elim
  | shmDestroy i id => exact hc.elim

theorem MachineOk.builds_run (h : MachineOk A K s own) {cs : List SpaceCall}
    (hc : s.BuildsAll A K cs) : ∃ own', MachineOk A K (s.run A K.pml4 cs) own' := by
  induction cs generalizing s own with
  | nil => exact ⟨own, h⟩
  | cons c cs ih =>
    obtain ⟨own', h', -⟩ := h.builds hc.1
    exact ih h' hc.2

theorem Machine.buildsAll_append {cs ds : List SpaceCall} : s.BuildsAll A K (cs ++ ds) ↔
      s.BuildsAll A K cs ∧ (s.run A K.pml4 cs).BuildsAll A K ds := by
  induction cs generalizing s with
  | nil => exact ⟨fun h => ⟨trivial, h⟩, fun h => h.2⟩
  | cons c cs ih =>
    rw [List.cons_append, Machine.BuildsAll, Machine.BuildsAll, ih, and_assoc]
    rfl

theorem bootMachine_ok {vm : Vm σ} {kpml4 : Word} (hv : A.Valid vm.frames)
    (hk : ∀ t ∈ (Kern.mk kpml4 vm.mem).tables, t ∉ A.Free vm.frames) :
    MachineOk A ⟨kpml4, vm.mem⟩ (bootMachine vm) fun _ => none := by
  have hframes : (bootMachine vm).table.frames = ∅ := by
    rw [Set.eq_empty_iff_forall_notMem]
    rintro f ⟨k, hk, -⟩
    cases hk
  refine ⟨?_, fun ha => absurd rfl ha.1, fun ha => absurd rfl ha.1⟩
  rw [hframes]
  exact ⟨hv, fun t ht => ⟨rfl, rfl, hk t ht⟩, nofun, nofun, nofun, nofun⟩

/-- The process in slot `i` has the frame `f` at a user address. -/
def Reaches (K : Kern) (s : Machine σ) (i : Slot) (f : Word) : Prop :=
  (s.spaces i).Alive ∧ ∃ v, K.UserAddr v ∧ vmmGetPhysInto s.vm.mem (s.spaces i).cr3 v ≠ 0 ∧
    vmmGetPhysInto s.vm.mem (s.spaces i).cr3 v &&& addrMask = f

theorem MachineOk.reaches (h : MachineOk A K s own) {f : Word} (hf : Reaches K s i f) :
    own f = some ((s.spaces i).cr3, .page) ∨ f ∈ s.table.frames := by
  obtain ⟨hi, v, hv, h0, rfl⟩ := hf
  obtain ⟨f, hown, hframe, hget⟩ := (h.state.getPhys (h.root hi) hv).resolve_left h0
  have hoff : v &&& 0xFFF &&& addrMask = 0 := (BitVec.and_assoc ..).trans BitVec.and_zero
  rwa [hget, or_and_of_disjoint hoff, hframe]

/-- In a run of such calls a process reaches no free frame and no page table, the kernel's or of a
process, and two processes reach the same frame in shared memory regions only. -/
theorem reaches_run {p : σ} (hv : A.Valid p) (hk : ∀ t ∈ K.tables, t ∉ A.Free p)
    {cs : List SpaceCall} (hc : (bootMachine ⟨p, K.mem⟩).BuildsAll A K cs)
    (hs : s = (bootMachine ⟨p, K.mem⟩).run A K.pml4 cs) :
    (∀ i f, Reaches K s i f → f ∈ A.Taken s.vm.frames ∧ f ∉ K.tables ∧
      ∀ j, (s.spaces j).Alive → f ∉ tables nextTable s.vm.mem (s.spaces j).cr3) ∧
    ∀ i j f, Reaches K s i f → Reaches K s j f → i ≠ j → f ∈ s.table.frames := by
  have hboot := @bootMachine_ok σ A ⟨p, K.mem⟩ K.pml4 hv hk
  obtain ⟨own, h⟩ : ∃ own, MachineOk A K s own := hs ▸ hboot.builds_run hc
  refine ⟨fun i f hf => ?_, fun i j f hi hj hij => ?_⟩
  · have hown := h.reaches hf
    have hkern : f ∉ K.tables := fun ht => hown.elim
      (fun ho => ne_of_label ho (h.state.kernel f ht).2.1 rfl)
      fun hS => (h.state.shared f hS).2.1 ht
    refine ⟨hown.elim h.state.taken fun hS => (h.state.shared f hS).2.2, hkern, ?_⟩
    rintro j hj ⟨q, hq⟩
    -- a table of the tree of `j` has a label, and not a page's
    obtain ⟨κ, ho, hat⟩ := (h.state.tab (h.root hj) hq).resolve_right fun hq => hkern ⟨q, hq⟩
    rcases hown with hpage | hS
    · obtain ⟨-, rfl⟩ := Prod.mk.inj (Option.some.inj (hpage.symm.trans ho))
      exact hat
    · cases (h.state.shared f hS).1.symm.trans ho
  · refine (h.reaches hi).elim (fun ho => ?_) id
    refine (h.reaches hj).resolve_left fun ho' => hij (h.inj hi.1 hj.1 ?_)
    exact congrArg Prod.fst (Option.some.inj (ho.symm.trans ho'))

/-! ### Addresses above the user's -/

/-- Bits 47 to 63 are equal: the processor translates no other address. -/
def canonical (v : Word) : Bool := v.extractLsb' 47 17 == 0 || v.extractLsb' 47 17 == 0x1FFFF

/-- Every entry on the way, from `p` on, is there and has the user bit. -/
def userAt (E : List (BitVec 9) → Option Word) : List (BitVec 9) → List (BitVec 9) → Bool
  | _, [] => true
  | p, i :: is =>
    match E (i :: p) with
    | none => false
    | some e => present e && e &&& vmmUser != 0 &&
        (is.isEmpty || !p.isEmpty && huge e || userAt E (i :: p) is)

def userAccessible (mem : PhysMem) (pml4 v : Word) : Bool :=
  canonical v && userAt (entries mem pml4) [] (path v)

theorem userAt_congr {E E' : List (BitVec 9) → Option Word} {k : BitVec 9}
    (h : ∀ q, E (q ++ [k]) = E' (q ++ [k])) (is : List (BitVec 9)) (q : List (BitVec 9)) :
    userAt E (q ++ [k]) is = userAt E' (q ++ [k]) is := by
  induction is generalizing q with
  | nil => rfl
  | cons i is ih =>
    have hq := ih (i :: q)
    rw [List.cons_append] at hq
    rw [userAt, userAt, hq, ← List.cons_append, h]

theorem userAt_congr_root {E E' : List (BitVec 9) → Option Word} {k : BitVec 9}
    (h : ∀ q, E (q ++ [k]) = E' (q ++ [k])) (is : List (BitVec 9)) :
    userAt E [] (k :: is) = userAt E' [] (k :: is) := by
  have h0 := h []
  have hrest := userAt_congr h is []
  rw [List.nil_append] at h0 hrest
  rw [userAt, userAt, h0, hrest]

theorem pml4Idx_of_canonical {v : Word} (hc : canonical v) (hv : userAddrMax < v) :
    256 ≤ (pml4Idx v).toNat := by
  have hmax : (0x00007FFFFFFFFFFF : Word).toNat = 0x7FFFFFFFFFFF := rfl
  have hlt : 0x7FFFFFFFFFFF < v.toNat := hmax ▸ BitVec.lt_def.mp hv
  have hidx : (pml4Idx v).toNat = v.toNat / 2 ^ 39 % 2 ^ 9 := by
    rw [pml4Idx, BitVec.extractLsb'_toNat, Nat.shiftRight_eq_div_pow]
  have hhigh : (v.extractLsb' 47 17).toNat = v.toNat / 2 ^ 47 % 2 ^ 17 := by
    rw [BitVec.extractLsb'_toNat, Nat.shiftRight_eq_div_pow]
  have hcases : (v.extractLsb' 47 17).toNat = 0 ∨ (v.extractLsb' 47 17).toNat = 0x1FFFF := by
    unfold canonical at hc
    rw [Bool.or_eq_true, beq_iff_eq, beq_iff_eq] at hc
    rcases hc with hc | hc
    · rw [hc]
      exact .inl rfl
    · rw [hc]
      exact .inr rfl
  have hbound := v.isLt
  omega

theorem MachineOk.userAccessible_above (h : MachineOk A K s own) (hi : (s.spaces i).Alive)
    {v : Word} (hv : userAddrMax < v) :
    userAccessible s.vm.mem (s.spaces i).cr3 v = userAccessible K.mem K.pml4 v := by
  unfold userAccessible
  cases hc : canonical v with
  | false => rfl
  | true =>
    have hidx := pml4Idx_of_canonical hc hv
    rw [path, userAt_congr_root (h.state.entries_upper (h.root hi) hidx)]

end

/-- In a run of loads, `mmap`, `shm_create` and `shm_map` at user addresses, each call changes no
entry of the kernel's page tables and of those of the other processes, and gives user mode no
access above the user's addresses that the kernel's tables do not give. -/
theorem isolation_run {σ : Type*} {A : FramePool σ} {vm : Vm σ} {kpml4 : Word}
    (hv : A.Valid vm.frames) (hk : ∀ t ∈ (Kern.mk kpml4 vm.mem).tables, t ∉ A.Free vm.frames)
    {cs : List SpaceCall} {c : SpaceCall}
    (hc : (bootMachine vm).BuildsAll A ⟨kpml4, vm.mem⟩ (cs ++ [c])) {s s' : Machine σ}
    (hs : s = (bootMachine vm).run A kpml4 cs) (hs' : s' = s.step A kpml4 c) :
    (∀ q, entries s'.vm.mem kpml4 q = entries s.vm.mem kpml4 q) ∧
    (∀ j, (s.spaces j).Alive → j ≠ c.slot → s'.spaces j = s.spaces j ∧
      ∀ q, entries s'.vm.mem (s.spaces j).cr3 q = entries s.vm.mem (s.spaces j).cr3 q) ∧
    (∀ v, userAddrMax < v → userAccessible s'.vm.mem kpml4 v = userAccessible vm.mem kpml4 v ∧
      ∀ j, (s'.spaces j).Alive →
        userAccessible s'.vm.mem (s'.spaces j).cr3 v = userAccessible vm.mem kpml4 v) := by
  subst hs hs'
  obtain ⟨hcs, hlast⟩ := buildsAll_append.mp hc
  obtain ⟨own, h⟩ := (bootMachine_ok hv hk).builds_run hcs
  obtain ⟨own', h', hp⟩ := h.builds hlast.1
  refine ⟨hp.kernel, fun j ha hj => hp.others ha hj, fun v hlt => ⟨?_, fun j ha => ?_⟩⟩
  · have hE : entries ((bootMachine vm).run A kpml4 cs |>.step A kpml4 c).vm.mem kpml4 =
        entries vm.mem kpml4 := funext h'.state.entries_kernel
    unfold userAccessible
    rw [hE]
  · exact h'.userAccessible_above ha hlt

/-- The bytes of a file with one segment, of one page at `vaddr`. -/
def sampleBytes (vaddr : Word) : List Byte :=
  [0x7F, 0x45, 0x4C, 0x46, 2, 1, 1, 0, 0, 0, 0, 0, 0, 0, 0, 0, 2, 0, 0x3E, 0, 1, 0, 0, 0] ++
    leBytes vaddr ++ leBytes 64 ++ leBytes 0 ++ [0, 0, 0, 0, 64, 0, 56, 0, 1, 0, 0, 0, 0, 0, 0, 0] ++
    [1, 0, 0, 0, 7, 0, 0, 0] ++ leBytes 0 ++ leBytes vaddr ++ leBytes 0 ++ leBytes 0 ++
    leBytes 4096 ++ leBytes 4096

def sampleLoad (vaddr : Word) : LoadArgs where
  image := ⟨fun n => (sampleBytes vaddr).getD n 0, 120⟩
  argv := []
  envp := []
  rand := 0
  stackRand := 0

theorem spawn_mmapTop {σ : Type*} {A : FramePool σ} {s : Machine σ} {kpml4 : Word} {i : Slot}
    {pid : ℕ} {a : LoadArgs} (hi : (s.spaces i).pid = 0) (h0 : pid ≠ 0) :
    ((s.step A kpml4 (.spawn i pid a)).spaces i).mmapTop = mmapStart := by
  rw [step, into, if_pos ⟨hi, h0⟩]
  unfold spawn
  dsimp only
  cases (elfLoad A kpml4 a s.vm).2 with
  | none => rw [setSpace_self]
  | some l => rw [setSpace_self]

/-- 4 MB of memory and a kernel whose tables are empty. -/
def sampleMemory : Vm Pmm := ⟨pmmInit 0x200000 0x400000, fun _ _ => 0⟩

/-- A program at 4 GB that maps two pages. -/
theorem sampleBuild_run : entries (((bootMachine sampleMemory).run pmmPool 0x1000
      [.spawn 0 1 (sampleLoad 0x100000000)]).step pmmPool 0x1000 (.mmap 0 8192)).vm.mem 0x1000 =
    entries ((bootMachine sampleMemory).run pmmPool 0x1000
      [.spawn 0 1 (sampleLoad 0x100000000)]).vm.mem 0x1000 := by
  have hv : pmmPool.Valid (pmmInit 0x200000 0x400000) :=
    pmmInit_valid ⟨by decide, by decide⟩ (by decide) (by decide)
  have hk : ∀ t ∈ (Kern.mk 0x1000 fun _ _ => 0).tables, t ∉ pmmPool.Free
      (pmmInit 0x200000 0x400000) := by
    intro t ht
    have htab : (Kern.mk 0x1000 fun _ _ => 0).tables = {0x1000} := tables_zero 0x1000
    rw [htab] at ht
    rw [Set.mem_singleton_iff.mp ht]
    exact (pmmPool_below hv (by decide)).1
  have hload : UserLoad (Kern.mk 0x1000 fun _ _ => 0) (sampleLoad 0x100000000) :=
    ⟨by decide, by decide, by decide⟩
  have hmmap : ∀ p : Space, p.mmapTop = mmapStart →
      UserMmap (Kern.mk 0x1000 fun _ _ => 0) 8192 p := by
    intro p hp x hx
    have hr : mmapRange 8192 p = some (mmapStart - 8192, 2) := by
      unfold mmapRange Space.below
      rw [hp]
      decide
    rw [hr, Option.mem_some_iff] at hx
    subst hx
    decide
  have hc : (bootMachine sampleMemory).BuildsAll pmmPool ⟨0x1000, sampleMemory.mem⟩
      ([.spawn 0 1 (sampleLoad 0x100000000)] ++ [.mmap 0 8192]) := by
    exact ⟨hload, hmmap _ (spawn_mmapTop rfl (by decide)), trivial⟩
  exact funext (isolation_run hv hk hc rfl rfl).1

/-- The second of two programs does not reach the kernel's PML4. -/
theorem samplePrograms_reach : ¬ Reaches ⟨0x1000, sampleMemory.mem⟩
    ((bootMachine sampleMemory).run pmmPool 0x1000 [.spawn 0 1 (sampleLoad 0x100000000),
      .spawn 1 2 (sampleLoad 0x100000000)]) 1 0x1000 := by
  have hv : pmmPool.Valid sampleMemory.frames :=
    pmmInit_valid ⟨by decide, by decide⟩ (by decide) (by decide)
  have hk : ∀ t ∈ Kern.tables ⟨0x1000, sampleMemory.mem⟩,
      t ∉ pmmPool.Free sampleMemory.frames := by
    intro t ht
    obtain rfl : t = 0x1000 := (tables_zero 0x1000).subset ht
    exact (pmmPool_below hv (by decide)).1
  have hload : UserLoad ⟨0x1000, sampleMemory.mem⟩ (sampleLoad 0x100000000) :=
    ⟨by decide, by decide, by decide⟩
  refine fun hf => ((reaches_run hv hk ?_ rfl).1 1 _ hf).2.1 ⟨[], rfl⟩
  exact ⟨hload, hload, trivial⟩

/-- A kernel that has a PDPT for the first entry of the upper half. -/
def upperKernel : PhysMem := set (fun _ _ => 0) 0x1000 256 0x2003

/-- A program whose segment is in the upper half gets its page directory linked in the kernel's own
PDPT. -/
theorem load_changes_kernel : elfValidate (sampleLoad 0xFFFF800000000000).image = true ∧
    entries ((bootMachine ⟨pmmInit 0x100000 0x10000, upperKernel⟩).step pmmPool 0x1000
      (.spawn 0 1 (sampleLoad 0xFFFF800000000000))).vm.mem 0x1000 [0, 256] ≠
    entries (bootMachine ⟨pmmInit 0x100000 0x10000, upperKernel⟩).vm.mem 0x1000 [0, 256] := by
  decide

end Exploidus.Proc
