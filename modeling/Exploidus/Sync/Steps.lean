import Exploidus.Proc.Wired
import Exploidus.Sync.System

/-! What every step of the system keeps: the queues are in order, and a process that is blocked
inside a call is registered where the wake-up will look for it. -/
namespace Exploidus.Sync
open Proc Function

inductive Wait where
  | mutex (m : ℕ)
  | sem (k : ℕ)
  | inbox

def Phase.on : Phase → Option Wait
  | .free => none
  | .locking m _ => some (.mutex m)
  | .waiting k _ => some (.sem k)
  | .receiving _ => some .inbox

theorem Phase.on_yield (p : Phase) : p.yield.on = p.on := by
  cases p <;> rfl

theorem Phase.on_eq_none {p : Phase} : p.on = none ↔ p = .free := by
  cases p <;> simp [Phase.on]

def Inside (s : System) (i : Slot) : Prop := s.phases i ≠ .free

def Registered (s : System) (i : Slot) : Wait → Prop
  | .mutex m => (s.sched.procs i).pid ∈ (s.mutexes m).waiters
  | .sem k => (s.sched.procs i).pid ∈ (s.sems k).waiters
  | .inbox => ∃ b, s.inboxes i = some b ∧ b.waiting = true

structure Coherent (s : System) : Prop where
  kept : Kept (Inside s) s.sched
  registered : ∀ {i w}, (s.phases i).on = some w → (s.sched.procs i).state = .blocked →
    Registered s i w

/-- A step after which no process leaves the table: no exit, no reaping, and a child that is made
loads. -/
def Call.Staying : Call → Prop
  | .other .exit => False
  | .other .reap => False
  | .other (.spawn _ stackOk loadOk) => stackOk = true → loadOk = true
  | .other (.fork stackOk copyOk) => stackOk = true → copyOk = true
  | .other (.execv stackOk loadOk) => stackOk = true → loadOk = true
  | _ => True

instance : DecidablePred Call.Staying := fun c => by
  unfold Call.Staying
  split <;> infer_instance

section
variable {W : Slot → Prop} {g : Sched} {s s' : System} {i c : Slot} {p : Phase} {m k : ℕ}

/-! ### Waking -/

theorem Kept.wakePid (h : Kept W g) (pid : ℕ) : Moves W g (wakePid g pid) := by
  unfold Sync.wakePid
  cases hg : g.procGet pid with
  | none => exact h.moves
  | some i =>
    dsimp only
    split
    · exact (h.makeReady (f := id) rfl rfl rfl (Sched.procGet_some hg).2).1
    · exact h.moves

theorem Kept.wakeAll (h : Kept W g) (pids : List ℕ) : Moves W g (wakeAll g pids) :=
  Moves.foldl (fun _ pid hs => Kept.wakePid hs pid) pids h

theorem Kept.procGet (h : Kept W g) (hu : (g.procs i).state ≠ .unused) :
    g.procGet (g.procs i).pid = some i := by
  cases hg : g.procGet (g.procs i).pid with
  | none => exact absurd rfl (Sched.procGet_none hg hu)
  | some j =>
    obtain ⟨hpid, hj⟩ := Sched.procGet_some hg
    exact congrArg some (h.table.pids.inj hj hu hpid)

theorem wakeAll_not_blocked {pids : List ℕ} (h : Kept W g) (hW : W i)
    (hi : (g.procs i).pid ∈ pids) : ((wakeAll g pids).procs i).state ≠ .blocked := by
  induction pids generalizing g with
  | nil => cases hi
  | cons pid pids ih =>
    have hm := Kept.wakePid h pid
    have hu := (h.alive hW).1
    rcases List.mem_cons.mp hi with rfl | hi
    · -- woken now, and blocked by none of the later turns
      intro hb
      have hb' := (Kept.wakeAll hm.kept pids).blocked hW hb
      unfold Sync.wakePid at hb'
      rw [Kept.procGet h hu] at hb'
      dsimp only at hb'
      split at hb'
      · rw [(h.makeReady (f := id) rfl rfl rfl hu).2.1] at hb'
        cases hb'
      · contradiction
    · exact ih hm.kept (by rw [(hm.used hu).2]; exact hi)

/-! ### Turns of the running process -/

theorem inside_of_on {w : Wait} (h : (s.phases i).on = some w) : Inside s i := fun hfree => by
  rw [hfree] at h
  cases h

theorem Coherent.move (h : Coherent s) (hm : Moves (Inside s) s.sched s'.sched)
    (hp : ∀ i, (s'.phases i).on = (s.phases i).on)
    (hreg : ∀ {i w}, (s.phases i).on = some w → (s'.sched.procs i).state = .blocked →
      (s'.sched.procs i).pid = (s.sched.procs i).pid → Registered s i w → Registered s' i w) :
    Coherent s' := by
  refine ⟨hm.kept.mono fun i hi => .inl ?_, fun {i w} hw hb => ?_⟩
  · intro hfree
    have hon := hp i
    rw [hfree] at hon
    exact hi (Phase.on_eq_none.mp hon)
  rw [hp i] at hw
  have hin := inside_of_on hw
  exact hreg hw hb (hm.used (h.kept.alive hin).1).2 (h.registered hw (hm.blocked hin hb))

/-- The scheduler and the phases are as they were, and nobody's registration is lost. -/
structure Grows (s s' : System) : Prop where
  sched : s'.sched = s.sched
  phases : s'.phases = s.phases
  registered : ∀ {i w}, Registered s i w → Registered s' i w

theorem Coherent.grow (h : Coherent s) (hg : Grows s s') : Coherent s' :=
  h.move (hg.sched ▸ h.kept.moves) (fun _ => by rw [hg.phases]) fun _ _ _ hr => hg.registered hr

theorem Registered.mono {w : Wait} (h : Registered s i w)
    (hm : ∀ m, w = .mutex m → (s.mutexes m).waiters ⊆ (s'.mutexes m).waiters)
    (hs : ∀ k, w = .sem k → (s.sems k).waiters ⊆ (s'.sems k).waiters)
    (hi : w = .inbox → s'.inboxes i = s.inboxes i)
    (hp : (s'.sched.procs i).pid = (s.sched.procs i).pid) : Registered s' i w := by
  cases w with
  | mutex m =>
    simp only [Registered] at h ⊢
    rw [hp]
    exact hm m rfl h
  | sem k =>
    simp only [Registered] at h ⊢
    rw [hp]
    exact hs k rfl h
  | inbox =>
    simp only [Registered] at h ⊢
    rwa [hi rfl]

theorem Registered.congr {w : Wait} (h : Registered s i w) (hm : s'.mutexes = s.mutexes)
    (hs : s'.sems = s.sems) (hi : s'.inboxes = s.inboxes)
    (hp : (s'.sched.procs i).pid = (s.sched.procs i).pid) : Registered s' i w :=
  h.mono (fun _ _ => by rw [hm]; exact List.Subset.refl _)
    (fun _ _ => by rw [hs]; exact List.Subset.refl _) (fun _ => by rw [hi]) hp

theorem subset_update {α : Type*} {f : ℕ → α} {waiters : α → List ℕ} {x : α} {n n' : ℕ}
    (h : n' = n → waiters (f n) ⊆ waiters x) :
    waiters (f n') ⊆ waiters (update f n x n') := by
  by_cases hn : n' = n
  · subst hn
    rw [update_self]
    exact h rfl
  · rw [update_of_ne hn]
    exact List.Subset.refl _

theorem Grows.setMutex {x : Mutex} (hx : (s.mutexes m).waiters ⊆ x.waiters) :
    Grows s (s.setMutex m x) where
  sched := rfl
  phases := rfl
  registered hr := hr.mono (fun _ _ => subset_update fun _ => hx)
    (fun _ _ => List.Subset.refl _) (fun _ => rfl) rfl

theorem Grows.setSem {x : Semaphore} (hx : (s.sems k).waiters ⊆ x.waiters) :
    Grows s (s.setSem k x) where
  sched := rfl
  phases := rfl
  registered hr := hr.mono (fun _ _ => List.Subset.refl _)
    (fun _ _ => subset_update fun _ => hx) (fun _ => rfl) rfl

theorem registered_setInbox {b : Inbox} (hi : i ≠ c) {w : Wait} (h : Registered s i w) :
    Registered (s.setInbox c b) i w :=
  h.mono (fun _ _ => List.Subset.refl _) (fun _ _ => List.Subset.refl _)
    (fun _ => update_of_ne hi _ _) rfl

theorem Grows.setInbox {b b' : Inbox} (hb : s.inboxes c = some b)
    (hw : b.waiting → b'.waiting) : Grows s (s.setInbox c b') where
  sched := rfl
  phases := rfl
  registered {i w} hr := by
    by_cases hi : i = c
    · subst hi
      cases w with
      | mutex m => exact hr
      | sem k => exact hr
      | inbox =>
        obtain ⟨b1, hb1, hw1⟩ := hr
        cases hb.symm.trans hb1
        exact ⟨b', update_self _ _ _, hw hw1⟩
    · exact registered_setInbox hi hr

theorem Coherent.note (h : Coherent s) (e : Event) : Coherent (s.note e) :=
  h.grow ⟨rfl, rfl, fun hr => hr.congr rfl rfl rfl rfl⟩

theorem setPhase_of_ne (hi : i ≠ c) : (s.setPhase c p).phases i = s.phases i :=
  update_of_ne hi _ _

theorem Coherent.setPhase (h : Coherent s) (hrun : (s.sched.procs c).state = .running)
    (p : Phase) : Coherent (s.setPhase c p) := by
  refine ⟨h.kept.mono fun i hi => ?_, fun {i w} hw hb => ?_⟩
  · by_cases hic : i = c
    · exact .inr (.inl (hic ▸ hrun))
    · exact .inl fun hfree => hi ((setPhase_of_ne hic).trans hfree)
  have hic : i ≠ c := by
    rintro rfl
    cases hrun.symm.trans hb
  rw [setPhase_of_ne hic] at hw
  exact (h.registered hw hb).congr rfl rfl rfl rfl

/-- The caller is registered as a waiter and blocks. -/
theorem Coherent.park (h : Coherent s) (hrun : (s.sched.procs c).state = .running) {w : Wait}
    (hp : p.on = some w) (hself : Registered s c w) : Coherent ((s.block c).setPhase c p) := by
  have h0 : Kept (fun i => Inside s i ∧ i ≠ c) s.sched := h.kept.mono fun i hi => .inl hi.1
  have hu : (s.sched.procs c).state ≠ .unused := by rw [hrun]; exact ProcState.noConfusion
  have hblock := h0.blockOther (f := fun p => { p with state := .blocked }) hu
    (fun hw => hw.2 rfl) rfl rfl rfl (.inl rfl)
  have hpid : ∀ i, ((s.block c).sched.procs i).pid = (s.sched.procs i).pid := fun i => by
    unfold System.block Sched.setState
    by_cases hi : i = c
    · subst hi
      rw [Sched.update_self]
    · rw [Sched.update_of_ne hi]
  refine ⟨hblock.kept.mono fun i hi => ?_, fun {i w'} hw hb => ?_⟩
  · by_cases hic : i = c
    · exact .inr (.inr (hic ▸ congrArg Process.state (Sched.update_self _ _ _)))
    · exact .inl ⟨fun hfree => hi ((setPhase_of_ne hic).trans hfree), hic⟩
  by_cases hic : i = c
  · subst hic
    have hself' : ((s.block i).setPhase i p).phases i = p := update_self _ _ _
    rw [hself'] at hw
    cases hp.symm.trans hw
    exact hself.congr rfl rfl rfl (hpid i)
  · rw [setPhase_of_ne hic] at hw
    exact (h.registered hw (hblock.blocked ⟨inside_of_on hw, hic⟩ hb)).congr rfl rfl rfl (hpid i)

theorem setMutex_self (s : System) (m : ℕ) (x : Mutex) : (s.setMutex m x).mutexes m = x :=
  update_self _ _ _

theorem setSem_self (s : System) (k : ℕ) (x : Semaphore) : (s.setSem k x).sems k = x :=
  update_self _ _ _

section
variable (h : Coherent s)
include h

theorem Coherent.acquire (c : Slot) (m : ℕ) : Coherent (s.acquire c m) := by
  refine Coherent.note (h.grow (Grows.setMutex ?_)) _
  exact List.Subset.refl _

theorem Coherent.lockTurn (hrun : (s.sched.procs c).state = .running) (m : ℕ) :
    Coherent (s.lockTurn c m) := by
  unfold System.lockTurn
  dsimp only
  split
  · exact (h.acquire c m).setPhase hrun _
  split
  · refine (h.grow (Grows.setMutex (List.subset_append_left _ _))).park hrun rfl ?_
    simp only [Registered]
    rw [setMutex_self]
    exact List.mem_append_right _ (List.mem_singleton_self _)
  · exact h.setPhase hrun _

theorem Coherent.waitTurn (hrun : (s.sched.procs c).state = .running) (k : ℕ) :
    Coherent (s.waitTurn c k) := by
  unfold System.waitTurn
  dsimp only
  split
  · refine Coherent.setPhase (Coherent.note (h.grow (Grows.setSem ?_)) _) hrun _
    exact List.Subset.refl _
  split
  · refine (h.grow (Grows.setSem (List.subset_append_left _ _))).park hrun rfl ?_
    simp only [Registered]
    rw [setSem_self]
    exact List.mem_append_right _ (List.mem_singleton_self _)
  · exact h.setPhase hrun _

theorem Coherent.takeMsg {b : Inbox} (hb : s.inboxes c = some b)
    (hn : 0 < b.ring.count) : Coherent (s.takeMsg c b hn) := by
  refine Coherent.note (h.grow (Grows.setInbox hb ?_)) _
  exact id

theorem Coherent.recvTurn (hrun : (s.sched.procs c).state = .running) :
    Coherent (s.recvTurn c) := by
  unfold System.recvTurn
  cases hb : s.inboxes c with
  | none => exact h.setPhase hrun _
  | some b =>
    dsimp only
    split
    · exact (h.takeMsg hb ‹_›).setPhase hrun _
    · exact (h.grow (Grows.setInbox hb fun _ => rfl)).park hrun rfl
        ⟨_, update_self _ _ _, rfl⟩

end

/-! ### Calls that wake others -/

section
variable (h : Coherent s)
include h

theorem Coherent.mutexTrylock (c : Slot) (m : ℕ) : Coherent (s.mutexTrylock c m) := by
  unfold System.mutexTrylock
  split
  · exact h.acquire c m
  · exact h

theorem Coherent.mutexUnlock (c : Slot) (m : ℕ) : Coherent (s.mutexUnlock c m) := by
  refine h.move (Kept.wakeAll h.kept _) (fun _ => rfl) fun {i w} hw hb hp hr => ?_
  refine hr.mono (fun m' hm => subset_update fun hmm => ?_) (fun _ _ => List.Subset.refl _)
    (fun _ => rfl) hp
  subst hm hmm
  exact absurd hb (wakeAll_not_blocked h.kept (inside_of_on hw) hr)

theorem Coherent.semPost (k : ℕ) : Coherent (s.semPost k) := by
  refine h.move (Kept.wakeAll h.kept _) (fun _ => rfl) fun {i w} hw hb hp hr => ?_
  refine hr.mono (fun _ _ => List.Subset.refl _) (fun k' hk => subset_update fun hkk => ?_)
    (fun _ => rfl) hp
  subst hk hkk
  exact absurd hb (wakeAll_not_blocked h.kept (inside_of_on hw) hr)

theorem Coherent.ipcSend (c : Slot) (dst : ℕ) (msg : Msg) : Coherent (s.ipcSend c dst msg) := by
  unfold System.ipcSend
  cases hg : s.sched.procGet dst with
  | none => exact h
  | some j =>
    dsimp only
    split
    · exact h
    cases hb : s.inboxes j with
    | none => exact h
    | some b =>
      dsimp only
      split
      · split
        · obtain ⟨hm, hready, -⟩ := h.kept.makeReady (i := j) (f := id) rfl rfl rfl
            (Sched.procGet_some hg).2
          refine h.move hm (fun _ => rfl) fun {i w} hw hbl hp hr => ?_
          have hij : i ≠ j := by
            rintro rfl
            exact absurd (hready.symm.trans hbl) ProcState.noConfusion
          exact (registered_setInbox hij hr).congr rfl rfl rfl hp
        · exact (h.grow (Grows.setInbox hb fun hwait => absurd hwait ‹_›)).note _
      · exact h

theorem Coherent.ipcRecvNb (c : Slot) : Coherent (s.ipcRecvNb c) := by
  unfold System.ipcRecvNb
  cases hb : s.inboxes c with
  | none => exact h
  | some b =>
    dsimp only
    split
    · exact h.takeMsg hb ‹_›
    · exact h

end

/-! ### Steps of the scheduler -/

theorem Coherent.yield (h : Coherent s) : Coherent s.yield := by
  refine h.move h.kept.schedYield (fun i => ?_) fun _ _ hp hr => hr.congr rfl rfl rfl hp
  unfold System.yield
  dsimp only
  cases s.sched.current with
  | none => rfl
  | some c =>
    dsimp only
    by_cases hi : i = c
    · subst hi
      rw [update_self, Phase.on_yield]
    · rw [update_of_ne hi]

theorem caller_eq (h : s.caller = some c) : s.sched.current = some c ∧
    (s.sched.procs c).state = .running ∧ (s.sched.procs c).reaping = none ∧ s.phases c = .free := by
  unfold System.caller at h
  cases hc : s.sched.current with
  | none =>
    rw [hc] at h
    cases h
  | some c' =>
    rw [hc] at h
    dsimp only at h
    split at h
    · cases h
      exact ⟨rfl, ‹_›⟩
    · cases h

theorem Coherent.byCaller (h : Coherent s) {f : Slot → System}
    (hf : ∀ c, s.caller = some c → Coherent (f c)) : Coherent (s.byCaller f) := by
  unfold System.byCaller
  cases hc : s.caller with
  | none => exact h
  | some c => exact hf c hc

theorem Coherent.resume (h : Coherent s) : Coherent s.resume := by
  unfold System.resume
  cases s.sched.current with
  | none => exact h
  | some c =>
    dsimp only
    by_cases hrun : (s.sched.procs c).state = .running
    · rw [if_pos hrun]
      split
      · exact h.lockTurn hrun _
      · exact h.waitTurn hrun _
      · exact h.recvTurn hrun
      · exact h
    · rwa [if_neg hrun]

theorem Coherent.exec (h : Coherent s) (hc : s.caller = some c) {call : SchedCall}
    (hstay : (Call.other call).Staying) (hyield : call ≠ .yield) (hback : background call = false) :
    Moves (Inside s) s.sched (s.sched.exec call) := by
  obtain ⟨hcur, hrun, hreap, hfree⟩ := caller_eq hc
  have hu : (s.sched.procs c).state ≠ .unused := by rw [hrun]; exact ProcState.noConfusion
  have hW : ¬ Inside s c := fun hin => hin hfree
  have hby : ∀ f : Slot → Sched, s.sched.byRunning f = f c := by
    intro f
    unfold Sched.byRunning
    rw [hcur]
    dsimp only
    rw [if_pos ⟨hrun, hreap⟩]
  cases call with
  | spawn intent stackOk loadOk =>
    simp only [Sched.exec]
    rw [hby]
    exact h.kept.start_child _ stackOk loadOk hstay
  | fork stackOk copyOk =>
    simp only [Sched.exec]
    rw [hby]
    exact h.kept.start_child _ stackOk copyOk hstay
  | execv stackOk loadOk =>
    simp only [Sched.exec]
    rw [hby]
    exact h.kept.sysExecv stackOk loadOk hstay
  | setIntent intent allowed =>
    simp only [Sched.exec]
    rw [hby]
    exact h.kept.sysSetIntent hu hW intent allowed
  | sleep ticks =>
    simp only [Sched.exec]
    rw [hby]
    unfold Sched.sysSleep
    split
    · exact h.kept.moves
    · exact h.kept.blockOther hu hW rfl rfl rfl (.inl rfl)
  | waitOn =>
    simp only [Sched.exec]
    rw [hby]
    have h1 := h.kept.blockOther (f := fun p => { p with state := .blocked }) hu hW rfl rfl rfl
      (.inl rfl)
    exact h1.trans (h1.kept.moves_congr rfl rfl rfl rfl)
  | waitpid pid =>
    simp only [Sched.exec]
    rw [hby]
    unfold Sched.sysWaitpid
    cases s.sched.procGet pid with
    | none => exact h.kept.moves
    | some i =>
      dsimp only
      split
      · exact h.kept.blockOther hu hW rfl rfl rfl (.inl rfl)
      · exact h.kept.blockOther hu hW rfl rfl rfl (.inr rfl)
  | reap => cases hstay
  | exit => cases hstay
  | yield => exact absurd rfl hyield
  | idle => cases hback
  | tick => cases hback
  | wake pid ipc => cases hback

theorem Coherent.background (h : Coherent s) {call : SchedCall} (hback : background call) :
    Moves (Inside s) s.sched (s.sched.exec call) := by
  cases call with
  | idle =>
    simp only [Sched.exec]
    split
    · exact h.kept.idleTurn ‹_›
    · exact h.kept.moves
  | tick => exact h.kept.tick
  | wake pid ipc => exact h.kept.wake pid ipc
  | spawn => cases hback
  | fork => cases hback
  | execv => cases hback
  | setIntent => cases hback
  | sleep => cases hback
  | waitOn => cases hback
  | waitpid => cases hback
  | reap => cases hback
  | exit => cases hback
  | yield => cases hback

theorem step_other {call : SchedCall} (h : call ≠ .yield) : s.step (.other call) =
    if background call then { s with sched := s.sched.exec call }
    else s.byCaller fun _ => { s with sched := s.sched.exec call } := by
  cases call <;> first | rfl | exact absurd rfl h

theorem Coherent.step (h : Coherent s) {call : Call} (hstay : call.Staying) :
    Coherent (s.step call) := by
  cases call with
  | lock m => exact h.byCaller fun c hc => h.lockTurn (caller_eq hc).2.1 m
  | trylock m => exact h.byCaller fun c _ => h.mutexTrylock c m
  | unlock m => exact h.byCaller fun c _ => h.mutexUnlock c m
  | semWait k => exact h.byCaller fun c hc => h.waitTurn (caller_eq hc).2.1 k
  | semPost k => exact h.byCaller fun _ _ => h.semPost k
  | send dst msg => exact h.byCaller fun c _ => h.ipcSend c dst msg
  | recv => exact h.byCaller fun c hc => h.recvTurn (caller_eq hc).2.1
  | recvNb => exact h.byCaller fun c _ => h.ipcRecvNb c
  | resume => exact h.resume
  | other call =>
    by_cases hy : call = .yield
    · subst hy
      exact h.yield
    rw [step_other hy]
    cases hb : Sync.background call with
    | true => exact h.move (h.background hb) (fun _ => rfl) fun _ _ hp hr => hr.congr rfl rfl rfl hp
    | false =>
      refine h.byCaller fun c hc => ?_
      exact h.move (h.exec hc hstay hy hb) (fun _ => rfl) fun _ _ hp hr => hr.congr rfl rfl rfl hp

end
end Exploidus.Sync
