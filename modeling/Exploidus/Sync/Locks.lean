import Exploidus.Sync.Effects

/-! Mutual exclusion, the counts of semaphores, and that nobody sleeps through a release. -/
namespace Exploidus.Sync
open Proc

/-- The largest `int`. -/
def intMax : ℤ := 2 ^ 31 - 1

def MutexOk (x : Mutex) (holders : List Slot) : Prop :=
  x.locked = false ∧ x.waiters = [] ∧ holders = [] ∨ x.locked = true ∧ ∃ c, holders = [c]

structure SemOk (initial : ℤ) (x : Semaphore) (posts waits : ℕ) : Prop where
  count : x.count = initial + posts - waits
  lower : min initial 0 ≤ x.count
  upper : x.count ≤ intMax
  waiters : 0 < x.count → x.waiters = []

/-- The process that makes the call unlocks only what it holds. -/
def Honest (s : System) : Call → Prop
  | .unlock m => match s.caller with
    | none => True
    | some c => c ∈ holders m s.log
  | _ => True

/-- No semaphore is posted whose count is the largest `int`. -/
def Fits (s : System) : Call → Prop
  | .semPost k => s.caller = none ∨ (s.sems k).count ≠ intMax
  | _ => True

/-- The condition on a step: no process leaves the table, a process unlocks only what it holds, and
no count overflows. -/
def Meets (s : System) (call : Call) : Prop := call.Staying ∧ Honest s call ∧ Fits s call

theorem toInt_eq {x : ℤ} (h1 : -2 ^ 31 ≤ x) (h2 : x ≤ intMax) : toInt x = x := by
  unfold toInt
  unfold intMax at h2
  exact Int.bmod_eq_of_le (by norm_num; omega) (by norm_num; omega)

section
variable {x : Semaphore} {initial : ℤ} {posts waits : ℕ}

section
variable (h : SemOk initial x posts waits)
include h

theorem SemOk.take (hpos : 0 < x.count) :
    SemOk initial { x with count := toInt (x.count - 1) } posts (waits + 1) := by
  have hup := h.upper
  have hcount := h.count
  have hval : toInt (x.count - 1) = x.count - 1 := toInt_eq (by omega) (by omega)
  rw [hval]
  refine ⟨?_, ?_, ?_, fun _ => h.waiters hpos⟩ <;> dsimp only
  · push_cast
    omega
  · omega
  · omega

theorem SemOk.queue (hpos : ¬ 0 < x.count) (pids : List ℕ) :
    SemOk initial { x with waiters := pids } posts waits :=
  ⟨h.count, h.lower, h.upper, fun hp => absurd hp hpos⟩

theorem SemOk.post (hi : -2 ^ 31 ≤ initial)
    (hne : x.count ≠ intMax) : SemOk initial ⟨toInt (x.count + 1), []⟩ (posts + 1) waits := by
  have hlow := h.lower
  have hup := h.upper
  have hcount := h.count
  have hval : toInt (x.count + 1) = x.count + 1 := toInt_eq (by omega) (by omega)
  rw [hval]
  refine ⟨?_, ?_, ?_, fun _ => rfl⟩ <;> dsimp only
  · push_cast
    omega
  · omega
  · omega

end

end

section
variable {s : System} {call : Call} {d : Data} {m k : ℕ}

theorem mutexOk_step (h : MutexOk (s.mutexes m) (holders m s.log)) (hm : Meets s call)
    (he : Effect s call d) : MutexOk (d.mutexes m) (holders m d.log) := by
  cases he with
  | none => exact h
  | acquire m' c hl =>
    by_cases hmm : m = m'
    · subst hmm
      have hh : holders m s.log = [] := by
        rcases h with ⟨-, -, hh⟩ | ⟨hr, -⟩
        · exact hh
        rw [hl] at hr
        cases hr
      simp [MutexOk, holders, hh]
    · simpa [holders, hmm, Ne.symm hmm] using h
  | lockQueue m' pid hl =>
    by_cases hmm : m = m'
    · subst hmm
      have hr := h.resolve_left fun hf => hl hf.1
      exact .inr (by simpa [System.data] using hr)
    · simpa [System.data, hmm] using h
  | release m' c hcall hc =>
    by_cases hmm : m = m'
    · subst hmm
      -- the caller holds the mutex, and it is the only holder
      have hin : c ∈ holders m s.log := by
        have := hm.2.1
        rw [hcall] at this
        simpa only [Honest, hc] using this
      rcases h with ⟨-, -, hh⟩ | ⟨-, c', hh⟩
      · rw [hh] at hin
        cases hin
      rw [hh] at hin
      obtain rfl := List.mem_singleton.mp hin
      simp [MutexOk, holders, hh]
    · simpa [holders, hmm, Ne.symm hmm] using h
  | take k hk => exact h
  | semQueue k pid hk => exact h
  | post k _ _ => exact h
  | send i c b msg hlt hb => exact h
  | receive c b hlt hb => exact h
  | recvWait c b hlt hb => exact h

theorem semOk_step {initial : ℤ}
    (h : SemOk initial (s.sems k) (s.log.count (.posted k)) (s.log.count (.waited k)))
    (hi : -2 ^ 31 ≤ initial) (hm : Meets s call) (he : Effect s call d) :
    SemOk initial (d.sems k) (d.log.count (.posted k)) (d.log.count (.waited k)) := by
  cases he with
  | none => exact h
  | acquire m c hl => simpa [System.data] using h
  | lockQueue m pid hl => exact h
  | release m c _ _ => simpa [System.data] using h
  | take k' hk =>
    by_cases hkk : k = k'
    · subst hkk
      simpa using h.take hk
    · simpa [hkk, Ne.symm hkk] using h
  | semQueue k' pid hk =>
    by_cases hkk : k = k'
    · subst hkk
      simpa [System.data] using h.queue hk _
    · simpa [System.data, hkk] using h
  | post k' hcall hc =>
    by_cases hkk : k = k'
    · subst hkk
      have hne : (s.sems k).count ≠ intMax := by
        have hfits := hm.2.2
        rw [hcall] at hfits
        exact hfits.resolve_left hc
      simpa using h.post hi hne
    · simpa [hkk, Ne.symm hkk] using h
  | send i c b msg hlt hb => simpa [System.data] using h
  | receive c b hlt hb => simpa [System.data] using h
  | recvWait c b hlt hb => exact h

structure Safe (initial : ℕ → ℤ) (s : System) : Prop where
  coherent : Coherent s
  mutex : ∀ m, MutexOk (s.mutexes m) (holders m s.log)
  sem : ∀ k, SemOk (initial k) (s.sems k) (s.log.count (.posted k)) (s.log.count (.waited k))

theorem safe_run {initial : ℕ → ℤ} {alloc : Slot → Bool} {cs : List Call}
    (hi : ∀ k, -2 ^ 31 ≤ initial k ∧ initial k ≤ intMax)
    (hcs : Along Meets (boot initial alloc) cs) : Safe initial ((boot initial alloc).run cs) := by
  refine hcs.invariant ⟨boot_coherent initial alloc, fun m => ?_, fun k => ?_⟩ fun s c hm h => ?_
  · exact .inl ⟨rfl, rfl, rfl⟩
  · exact ⟨by simp [boot], by simp [boot], (hi k).2, fun _ => rfl⟩
  have he := step_effect s c
  exact ⟨h.coherent.step hm.1, fun m => mutexOk_step (h.mutex m) hm he,
    fun k => semOk_step (h.sem k) (hi k).1 hm he⟩

/-- In every state that a run reaches whose steps meet the condition: a mutex has at most one holder;
a process that waits for a mutex that is not locked is not blocked, but runs or is ready in its
queue; the count of a semaphore is its initial value plus the posts minus the completed waits, and
not negative unless it was so from the start; and a process that waits for a semaphore with a
positive count is not blocked either. -/
theorem sync_run {initial : ℕ → ℤ} {alloc : Slot → Bool} {cs : List Call}
    (hi : ∀ k, -2 ^ 31 ≤ initial k ∧ initial k ≤ intMax)
    (hcs : Along Meets (boot initial alloc) cs) {f : System} (hf : f = (boot initial alloc).run cs) :
    (∀ m, (holders m f.log).length ≤ 1) ∧
    (∀ m i y, f.phases i = .locking m y → (f.mutexes m).locked = false →
      (f.sched.procs i).state ≠ .blocked ∧
        ((f.sched.procs i).state = .running ∧ f.sched.current = some i ∨
          (f.sched.procs i).state = .ready ∧ InQueue f.sched i)) ∧
    (∀ k, (f.sems k).count = initial k + f.log.count (.posted k) - f.log.count (.waited k) ∧
      (0 ≤ initial k → 0 ≤ (f.sems k).count)) ∧
    ∀ k i y, f.phases i = .waiting k y → 0 < (f.sems k).count → (f.sched.procs i).state ≠ .blocked ∧
        ((f.sched.procs i).state = .running ∧ f.sched.current = some i ∨
          (f.sched.procs i).state = .ready ∧ InQueue f.sched i) := by
  have h : Safe initial f := hf ▸ safe_run hi hcs
  refine ⟨fun m => ?_, fun m i y hp hl => ?_, fun k => ⟨(h.sem k).count, fun h0 => ?_⟩,
    fun k i y hp hpos => ?_⟩
  · rcases h.mutex m with ⟨-, -, hh⟩ | ⟨-, c, hh⟩ <;> simp [hh]
  · have hb : (f.sched.procs i).state ≠ .blocked := by
      intro hb
      have hr : (f.sched.procs i).pid ∈ (f.mutexes m).waiters :=
        h.coherent.registered (w := .mutex m) (by rw [hp]; rfl) hb
      rcases h.mutex m with ⟨-, hw, -⟩ | ⟨hl', -⟩
      · rw [hw] at hr
        cases hr
      · rw [hl] at hl'
        cases hl'
    exact ⟨hb, h.coherent.runnable (fun hfree => by rw [hp] at hfree; cases hfree) hb⟩
  · have := (h.sem k).lower
    omega
  · have hb : (f.sched.procs i).state ≠ .blocked := by
      intro hb
      have hr : (f.sched.procs i).pid ∈ (f.sems k).waiters :=
        h.coherent.registered (w := .sem k) (by rw [hp]; rfl) hb
      rw [(h.sem k).waiters hpos] at hr
      cases hr
    exact ⟨hb, h.coherent.runnable (fun hfree => by rw [hp] at hfree; cases hfree) hb⟩

end

/-! ### Runs -/

instance (s : System) (call : Call) : Decidable (Honest s call) := by
  unfold Honest
  split
  · split <;> infer_instance
  · infer_instance

instance (s : System) (call : Call) : Decidable (Fits s call) := by
  unfold Fits
  split <;> infer_instance

instance (s : System) (call : Call) : Decidable (Meets s call) :=
  inferInstanceAs (Decidable (_ ∧ _))

/-- A process and its child lock the same mutex: the child sleeps until the parent unlocks it. -/
def sampleLocking : List Call :=
  [.other (.spawn 3 true true), .lock 0, .semPost 0, .other .yield, .lock 0, .other .yield,
    .unlock 0, .other .yield, .resume, .semWait 0]

theorem sampleLocking_run : Along Meets (boot (fun _ => 0) fun _ => true) sampleLocking ∧
      (holders 0 ((boot (fun _ => 0) fun _ => true).run sampleLocking).log).length ≤ 1 := by
  have hcs : Along Meets (boot (fun _ => 0) fun _ => true) sampleLocking := by decide +kernel
  exact ⟨hcs, (sync_run (fun _ => by decide) hcs rfl).1 0⟩

/-- A post when the count is the largest `int` makes it negative. -/
theorem post_overflows :
    (((boot (fun _ => intMax) fun _ => true).run [.semPost 0]).sems 0).count = -2 ^ 31 ∧
      ((boot (fun _ => intMax) fun _ => true).run [.semPost 0]).log = [.posted 0] := by
  decide

end Exploidus.Sync
