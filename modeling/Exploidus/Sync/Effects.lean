import Exploidus.Sync.Steps

/-! What a step does to mutexes, semaphores, inboxes and the log, and where a process inside a call
can be. -/
namespace Exploidus.Sync
open Proc Function

structure Data where
  mutexes : ℕ → Mutex
  sems : ℕ → Semaphore
  inboxes : Slot → Option Inbox
  log : List Event

def System.data (s : System) : Data := ⟨s.mutexes, s.sems, s.inboxes, s.log⟩

inductive Effect (s : System) (call : Call) : Data → Prop
  | none : Effect s call s.data
  | acquire (m : ℕ) (c : Slot) (h : (s.mutexes m).locked = false) : Effect s call
      { s.data with
        mutexes := update s.mutexes m
          { s.mutexes m with locked := true, owner := (s.sched.procs c).pid }
        log := .acquired m c :: s.log }
  | lockQueue (m pid : ℕ) (h : (s.mutexes m).locked ≠ false) : Effect s call
      { s.data with
        mutexes := update s.mutexes m
          { s.mutexes m with waiters := (s.mutexes m).waiters ++ [pid] } }
  | release (m : ℕ) (c : Slot) (hcall : call = .unlock m) (hc : s.caller = some c) : Effect s call
      { s.data with
        mutexes := update s.mutexes m ⟨false, 0, []⟩
        log := .released m c :: s.log }
  | take (k : ℕ) (h : 0 < (s.sems k).count) : Effect s call
      { s.data with
        sems := update s.sems k { s.sems k with count := toInt ((s.sems k).count - 1) }
        log := .waited k :: s.log }
  | semQueue (k pid : ℕ) (h : ¬ 0 < (s.sems k).count) : Effect s call
      { s.data with
        sems := update s.sems k
          { s.sems k with waiters := (s.sems k).waiters ++ [pid] } }
  | post (k : ℕ) (hcall : call = .semPost k) (hc : s.caller ≠ Option.none) : Effect s call
      { s.data with
        sems := update s.sems k ⟨toInt ((s.sems k).count + 1), []⟩
        log := .posted k :: s.log }
  | send (i c : Slot) (b : Inbox) (msg : Msg) (h : b.ring.count < queueDepth)
      (hb : s.inboxes i = some b) : Effect s call
      { s.data with
        inboxes := update s.inboxes i (some ⟨b.ring.push ((b.ring.slots b.ring.tail).copyOver
          (msg.fromUser (s.sched.procs c).pid)) h, false⟩)
        log := .sent i (msg.fromUser (s.sched.procs c).pid).content :: s.log }
  | receive (c : Slot) (b : Inbox) (h : 0 < b.ring.count) (hb : s.inboxes c = some b) :
      Effect s call
      { s.data with
        inboxes := update s.inboxes c (some { b with ring := b.ring.pop h })
        log := .received c (b.ring.slots b.ring.head).content :: s.log }
  | recvWait (c : Slot) (b : Inbox) (h : ¬ 0 < b.ring.count) (hb : s.inboxes c = some b) :
      Effect s call
      { s.data with inboxes := update s.inboxes c (some { b with waiting := true }) }

section
variable {s : System} {call : Call} {c i : Slot}

theorem lockTurn_effect (c : Slot) (m : ℕ) : Effect s call (s.lockTurn c m).data := by
  unfold System.lockTurn
  dsimp only
  split
  · exact .acquire m c ‹_›
  split
  · exact .lockQueue m _ ‹_›
  · exact .none

theorem waitTurn_effect (c : Slot) (k : ℕ) : Effect s call (s.waitTurn c k).data := by
  unfold System.waitTurn
  dsimp only
  split
  · exact .take k ‹_›
  split
  · exact .semQueue k _ ‹_›
  · exact .none

theorem recvTurn_effect (c : Slot) : Effect s call (s.recvTurn c).data := by
  unfold System.recvTurn
  cases hb : s.inboxes c with
  | none => exact .none
  | some b =>
    dsimp only
    split
    · exact .receive c b ‹_› hb
    · exact .recvWait c b ‹_› hb

theorem ipcSend_effect (c : Slot) (dst : ℕ) (msg : Msg) :
    Effect s call (s.ipcSend c dst msg).data := by
  unfold System.ipcSend
  cases s.sched.procGet dst with
  | none => exact .none
  | some i =>
    dsimp only
    split
    · exact .none
    cases hb : s.inboxes i with
    | none => exact .none
    | some b =>
      dsimp only
      split
      · split
        · exact .send i c b msg ‹_› hb
        · exact .send i c b msg ‹_› hb
      · exact .none

theorem byCaller_effect {f : Slot → System}
    (hf : ∀ c, s.caller = some c → Effect s call (f c).data) :
    Effect s call (s.byCaller f).data := by
  unfold System.byCaller
  cases hc : s.caller with
  | none => exact .none
  | some c => exact hf c hc

theorem step_effect (s : System) (call : Call) : Effect s call (s.step call).data := by
  cases call with
  | lock m => exact byCaller_effect fun c _ => lockTurn_effect c m
  | trylock m =>
    refine byCaller_effect fun c _ => ?_
    unfold System.mutexTrylock
    split
    · exact .acquire m c ‹_›
    · exact .none
  | unlock m => exact byCaller_effect fun c hc => .release m c rfl hc
  | semWait k => exact byCaller_effect fun c _ => waitTurn_effect c k
  | semPost k => exact byCaller_effect fun c hc => .post k rfl (by rw [hc]; exact nofun)
  | send dst msg => exact byCaller_effect fun c _ => ipcSend_effect c dst msg
  | recv => exact byCaller_effect fun c _ => recvTurn_effect c
  | recvNb =>
    refine byCaller_effect fun c _ => ?_
    unfold System.ipcRecvNb
    cases hb : s.inboxes c with
    | none => exact .none
    | some b =>
      dsimp only
      split
      · exact .receive c b ‹_› hb
      · exact .none
  | resume =>
    unfold System.step System.resume
    cases s.sched.current with
    | none => exact .none
    | some c =>
      dsimp only
      split
      · split
        · exact lockTurn_effect c _
        · exact waitTurn_effect c _
        · exact recvTurn_effect c
        · exact .none
      · exact .none
  | other call =>
    by_cases hy : call = .yield
    · subst hy
      exact .none
    rw [step_other hy]
    split
    · exact .none
    · exact byCaller_effect fun _ _ => .none

/-! ### Runs -/

/-- Every step of the run satisfies `P` in the state it is taken in. -/
def Along (P : System → Call → Prop) : System → List Call → Prop
  | _, [] => True
  | s, c :: cs => P s c ∧ Along P (s.step c) cs

instance decidableAlong {P : System → Call → Prop} [∀ s c, Decidable (P s c)] :
    (s : System) → (cs : List Call) → Decidable (Along P s cs)
  | _, [] => inferInstanceAs (Decidable True)
  | s, c :: cs => @instDecidableAnd _ _ _ (decidableAlong (s.step c) cs)

theorem Along.of_forall {P : Call → Prop} {cs : List Call} (h : ∀ c ∈ cs, P c) :
    Along (fun _ c => P c) s cs := by
  induction cs generalizing s with
  | nil => trivial
  | cons c cs ih =>
    exact ⟨h c List.mem_cons_self, ih fun c hc => h c (List.mem_cons_of_mem _ hc)⟩

theorem Along.invariant {P : System → Call → Prop} {Q : System → Prop} {cs : List Call}
    (hcs : Along P s cs) (hs : Q s) (hstep : ∀ s c, P s c → Q s → Q (s.step c)) :
    Q (s.run cs) := by
  induction cs generalizing s with
  | nil => exact hs
  | cons c cs ih => exact ih hcs.2 (hstep s c hcs.1 hs)

theorem schedBoot_kept : Kept (fun _ => False) schedBoot := by
  have hinit : Kept (fun _ => False) schedInit := by
    have hu : ∀ i, (schedInit.cores i).state = .unused := fun _ => rfl
    refine ⟨⟨fun {i} h => ?_, ⟨fun {i} h => absurd (hu i) h, fun {i _} h => absurd (hu i) h⟩, ?_⟩,
      ⟨∅, ⟨fun _ => [], fun _ => rfl, fun _ _ => by simp⟩, nofun, nofun⟩, nofun⟩
    · cases (hu i).symm.trans h
    · simp [hu]
      rfl
  obtain ⟨h1, h2⟩ := hinit.procCreate .interactive true
  have hnew := (h2 0 (by decide)).2
  have hcur : (schedInit.procCreate .interactive true).1.current = none := by decide
  unfold schedBoot
  dsimp only
  have hk := h1.kept
  generalize (schedInit.procCreate .interactive true).1 = s at *
  obtain ⟨R, hl, hu, -⟩ := hk.lined
  obtain ⟨hr1, hl1⟩ := hl.enqueue 0
  obtain ⟨hr2, hl2⟩ := hl1.dequeue 0
  have hr := hr1.trans hr2
  have hk2 : Kept (fun _ => False) ((s.enqueue 0).dequeue 0) := by
    refine ⟨?_, ⟨_, hl2, fun i hi => ?_, nofun⟩, nofun⟩
    · rw [hr.cores, hr.current, hr.nextPid]
      exact hk.table
    · rw [hr.state]
      exact hu i (hi.1.resolve_left hi.2)
  exact (hk2.setRunning (hr.current.trans hcur) (by rw [hr.state]; exact hnew)).kept

theorem boot_coherent (initial : ℕ → ℤ) (alloc : Slot → Bool) : Coherent (boot initial alloc) :=
  ⟨schedBoot_kept.mono fun _ hi => absurd rfl hi, fun hw => by cases hw⟩

theorem Coherent.runnable (h : Coherent s) (hin : Inside s i)
    (hb : (s.sched.procs i).state ≠ .blocked) :
    (s.sched.procs i).state = .running ∧ s.sched.current = some i ∨
      (s.sched.procs i).state = .ready ∧ InQueue s.sched i := by
  obtain ⟨hu, hz⟩ := h.kept.alive hin
  cases hst : (s.sched.procs i).state with
  | running => exact .inl ⟨rfl, h.kept.table.running hst⟩
  | ready => exact .inr ⟨rfl, h.kept.served hin hst⟩
  | blocked => exact absurd hst hb
  | unused => exact absurd hst hu
  | zombie => exact absurd hst hz

end
end Exploidus.Sync
