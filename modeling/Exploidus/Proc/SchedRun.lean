import Exploidus.Proc.Wakeup

/-! The ready queues over whole runs of the system. -/
namespace Exploidus.Proc
open Linked Function ProcState List

/-! ### The process table -/

section
variable {P : Slot → Process} {current : Option Slot} {nextPid : ℕ} {waiters : List ℕ} {i c : Slot}

theorem pidBound_succ (hlt : nextPid < 2 ^ 32) (h0 : nextPid ≠ 0) :
    pidBound nextPid = nextPid ∧ pidBound ((nextPid + 1) % 2 ^ 32) = nextPid + 1 := by
  unfold pidBound
  rw [if_neg h0]
  refine ⟨rfl, ?_⟩
  split_ifs <;> omega

section
variable (h : Live P current nextPid waiters)
include h

theorem Live.idle : Live P none nextPid waiters :=
  { h with current := fun hc => by cases hc }

theorem Live.setCurrent (hc : (P c).state ≠ .unused) : Live P (some c) nextPid waiters :=
  { h with current := fun hc' => by cases hc'; exact hc }

theorem Live.create (h0 : nextPid ≠ 0) (intent : Intent) :
    Live (Function.update P i ⟨nextPid, .blocked, intent, 0, 0, none, none⟩) current
      ((nextPid + 1) % 2 ^ 32) waiters := by
  obtain ⟨hb, hb'⟩ := pidBound_succ h.nextPid_lt h0
  have hold : ∀ j, (P j).state ≠ .unused → (P j).pid ≠ nextPid := fun j hj =>
    ((h.pids.pid hj).2.trans_eq hb).ne
  refine h.set (Nat.mod_lt _ (by norm_num)) (by omega) (fun _ => ?_)
    (fun _ => noConfusion) ⟨fun _ => ⟨rfl, rfl⟩, fun _ hon => absurd rfl hon,
      fun _ _ => ⟨rfl, rfl, rfl, rfl⟩, nofun⟩
    (fun r hr _ _ hpr => ?_) nofun
  · rw [hb']
    exact ⟨h0, Nat.lt_succ_self _, fun j _ => hold j⟩
  · have hpr : nextPid = r := hpr
    omega

theorem Live.register (hb : (P i).state = .blocked)
    (h0 : (P i).blockedOn = 0) (h1 : (P i).wakeTick = 0) (hr : (P i).reaping = none)
    (hw : (P i).pid ∉ waiters) : Live P current nextPid (waiters ++ [(P i).pid]) := by
  have hu : (P i).state ≠ .unused := by rw [hb]; decide
  refine { h with entry := fun j => ?_, waiters_nodup := ?_, waiters_old := ?_ }
  · refine { h.entry j with waiter := fun hj hm => ?_ }
    rcases mem_append.mp hm with hm | hm
    · exact (h.entry j).waiter hj hm
    obtain rfl := h.pids.inj hj hu (mem_singleton.mp hm)
    exact ⟨hb, h0, h1, hr⟩
  · exact nodup_append.mpr ⟨h.waiters_nodup, nodup_singleton _, fun a ha b hb' hab =>
      hw (mem_singleton.mp hb' ▸ hab ▸ ha)⟩
  intro w hm
  rcases mem_append.mp hm with hm | hm
  · exact h.waiters_old w hm
  rw [mem_singleton.mp hm]
  exact (h.pids.pid hu).2

theorem Live.unregister (pid : ℕ) : Live P current nextPid (waiters.erase pid) :=
  { h with
    entry := fun j => { h.entry j with
      waiter := fun hj hm => (h.entry j).waiter hj (mem_of_mem_erase hm) }
    waiters_nodup := h.waiters_nodup.erase pid
    waiters_old := fun w hm => h.waiters_old w (mem_of_mem_erase hm) }

end

end

/-! ### Steps -/

section
variable {s : Sched} {i c : Slot}

theorem SchedOk.not_waiter (h : SchedOk s) (hu : (s.procs i).state ≠ .unused)
    (hb : (s.procs i).state ≠ .blocked) : (s.procs i).pid ∉ s.waiters := fun hm =>
  hb ((h.live.entry i).waiter hu hm).1

theorem SchedOk.unbound (h : SchedOk s) (hr : (s.procs c).state = .running)
    (hn : (s.procs c).reaping = none) : Unbound s c := by
  have hu : (s.procs c).state ≠ .unused := by rw [hr]; decide
  have hb : (s.procs c).state ≠ .blocked := by rw [hr]; decide
  obtain ⟨h0, h1⟩ := (h.live.entry c).awake hb
  exact ⟨hu, by rw [hr]; decide, by rw [hr]; decide, h0, h1, h.not_waiter hu hb, hn⟩

theorem Unbound.ready_enqueue (hi : Unbound s i) (h : SchedOk s) :
    SchedOk ((s.setState i .ready).enqueue i) := by
  have hst : (s.procs i).state = .blocked ∨ (s.procs i).state = .running := by
    cases hst : (s.procs i).state with
    | blocked => exact .inl rfl
    | running => exact .inr rfl
    | unused => exact absurd hst hi.unused
    | ready => exact absurd hst hi.ready
    | zombie => exact absurd hst hi.zombie
  exact (h.makeReady (f := id) rfl rfl rfl rfl hst hi.blockedOn hi.wakeTick hi.waiters
    fun r hr => by cases hi.reaping.symm.trans hr).1.ok

section
variable (h : SchedOk s)
include h

theorem SchedOk.procCreate (h0 : s.nextPid ≠ 0) (intent : Intent)
    (stackOk : Bool) : SchedOk (s.procCreate intent stackOk).1 ∧
      ∀ i, (s.procCreate intent stackOk).2 = some i →
        Unbound (s.procCreate intent stackOk).1 i := by
  unfold Sched.procCreate
  cases hf : (finRange 256).find? fun i => (s.procs i).state = .unused with
  | none => exact ⟨h, fun i hi => by cases hi⟩
  | some i =>
    have hi : (s.procs i).state = .unused := by simpa using find?_some hf
    have hnot : i ∉ readySlots s.cores := fun hr => by cases hi.symm.trans hr
    have hcores := Sched.cores_update s i
      fun _ => ⟨s.nextPid, .blocked, intent, 0, 0, none, none⟩
    have hlined : Lined { s.update i fun _ => ⟨s.nextPid, .blocked, intent, 0, 0, none, none⟩ with
        nextPid := (s.nextPid + 1) % 2 ^ 32 } (readySlots s.cores) :=
      h.lined.update (f := fun _ => ⟨s.nextPid, .blocked, intent, 0, 0, none, none⟩) (.inl hnot)
    have hready : readySlots (s.update i fun _ =>
        ⟨s.nextPid, .blocked, intent, 0, 0, none, none⟩).cores = readySlots s.cores := by
      rw [hcores, readySlots_sdiff noConfusion, Set.sdiff_singleton_eq_self hnot]
    refine ⟨⟨hready ▸ hlined, hcores ▸ h.live.create h0 intent⟩, fun j hj => ?_⟩
    dsimp only at hj ⊢
    obtain rfl : i = j := by
      cases stackOk with
      | true => exact Option.some.inj hj
      | false => cases hj
    have hp : (s.update i fun _ => ⟨s.nextPid, .blocked, intent, 0, 0, none, none⟩).procs i =
        ⟨s.nextPid, .blocked, intent, 0, 0, none, none⟩ := Sched.update_self _ _ _
    constructor <;> dsimp only <;> rw [hp]
    all_goals first | exact noConfusion | rfl | skip
    exact fun hm => ((h.live.waiters_old _ hm).trans_eq
      (pidBound_succ h.live.nextPid_lt h0).1).false

theorem SchedOk.start_child (h0 : s.nextPid ≠ 0) (intent : Intent)
    (stackOk ok : Bool) : SchedOk (match (s.procCreate intent stackOk).2 with
      | none => (s.procCreate intent stackOk).1
      | some i => if ok then ((s.procCreate intent stackOk).1.setState i .ready).enqueue i
          else (s.procCreate intent stackOk).1.procExit
            ((s.procCreate intent stackOk).1.procs i).pid) := by
  obtain ⟨h1, h2⟩ := h.procCreate h0 intent stackOk
  cases hr : (s.procCreate intent stackOk).2 with
  | none => exact h1
  | some i =>
    cases ok with
    | true => exact (h2 i hr).ready_enqueue h1
    | false => exact (h2 i hr).exit h1

theorem SchedOk.sysSleep (hc : Unbound s c) (ticks : ℕ) : SchedOk (s.sysSleep c ticks) := by
  unfold Sched.sysSleep
  by_cases ht : ticks = 0
  · rw [if_pos ht]
    exact h
  rw [if_neg ht]
  refine hc.update h rfl noConfusion noConfusion (fun hb => absurd rfl hb)
    (fun _ hon => absurd hc.blockedOn hon) fun r hr => ?_
  cases hc.reaping.symm.trans hr

theorem SchedOk.waitOn (hc : Unbound s c) : SchedOk (s.waitOn c) := by
  have h1 : SchedOk (s.setState c .blocked) := by
    refine hc.update h rfl noConfusion noConfusion (fun hb => absurd rfl hb)
      (fun _ hon => absurd hc.blockedOn hon) fun r hr => ?_
    cases hc.reaping.symm.trans hr
  have hcore : (s.setState c .blocked).cores c = ({ s.procs c with state := .blocked } :
      Process).core := congrArg Process.core (Sched.update_self _ _ _)
  have hreg := h1.live.register (i := c) (by rw [hcore]; rfl) (by rw [hcore]; exact hc.blockedOn)
    (by rw [hcore]; exact hc.wakeTick) (by rw [hcore]; exact hc.reaping)
    (by rw [hcore]; exact hc.waiters)
  rw [hcore] at hreg
  exact ⟨h1.lined, hreg⟩

theorem SchedOk.sysWaitpid (hc : Unbound s c)
    (hrun : (s.procs c).state = .running) (pid : ℕ) : SchedOk (s.sysWaitpid c pid) := by
  unfold Sched.sysWaitpid
  cases hg : s.procGet pid with
  | none => exact h
  | some i =>
    obtain ⟨rfl, hu⟩ := Sched.procGet_some hg
    have hpid := h.live.pids.pid (i := i) hu
    dsimp only
    by_cases hz : (s.procs i).state ≠ .zombie
    · rw [if_pos hz]
      refine hc.update h rfl noConfusion noConfusion (fun hb => absurd rfl hb)
        (fun _ _ => ⟨hc.wakeTick, rfl⟩) fun r hr => ?_
      obtain rfl := Option.some.inj hr
      exact ⟨hpid, .inl ⟨rfl, rfl⟩⟩
    rw [if_neg hz]
    refine hc.update h rfl hc.unused hc.ready (fun _ => ⟨hc.blockedOn, hc.wakeTick⟩)
      (fun hb => ?_) fun r hr => ?_
    · cases hrun.symm.trans hb
    obtain rfl := Option.some.inj hr
    exact ⟨hpid, .inr (h.gone_of_zombie (not_not.mp hz))⟩

theorem SchedOk.reap {pid : ℕ} (hc : s.current = some c)
    (hrun : (s.procs c).state = .running) (hr : (s.procs c).reaping = some pid) :
    SchedOk (s.reap c pid) := by
  have hu : (s.procs c).state ≠ .unused := by rw [hrun]; decide
  have hb : (s.procs c).state ≠ .blocked := by rw [hrun]; decide
  have hready : (s.procs c).state ≠ .ready := by rw [hrun]; decide
  have hgone : Gone s.cores pid := (h.live.gone c pid hu hr).resolve_left fun h3 => hb h3.1
  have h1 : SchedOk (s.update c fun p => { p with reaping := none }) :=
    h.update_idle hready hready (h.live.update rfl hu hu id
      ⟨fun _ => (h.live.entry c).awake hb, fun hb' => absurd hb' hb,
        fun _ hm => absurd hm (h.not_waiter hu hb), fun r _ hr => by cases hr⟩
      fun r hr => by cases hr)
  have hgone1 : Gone (s.update c fun p => { p with reaping := none }).cores pid := by
    rw [Sched.cores_update]
    exact hgone.set fun _ hp => hgone c hu hp
  have hc1 : (s.update c fun p => { p with reaping := none }).procs c =
      { s.procs c with reaping := none } := Sched.update_self _ _ _
  unfold Sched.reap
  dsimp only
  cases hg : (s.update c fun p => { p with reaping := none }).procGet pid with
  | none => exact h1
  | some i =>
    obtain ⟨hpi, hui⟩ := Sched.procGet_some hg
    have hz := hgone1 i hui hpi
    have hci : s.current ≠ some i := by
      rw [hc]
      rintro ⟨⟩
      have hrun1 := (congrArg Process.state hc1).trans hrun
      cases hz.symm.trans hrun1
    have hst : ((s.update c fun p => { p with reaping := none }).procs i).state ≠ .ready :=
      fun hr => by cases hz.symm.trans hr
    refine h1.update_idle hst noConfusion (h1.live.set h1.live.nextPid_lt le_rfl
      (fun hu => absurd rfl hu) (fun hc' => absurd hc' hci) ?_ (fun _ _ _ hu => absurd rfl hu)
      fun _ hu => absurd rfl hu)
    exact ⟨fun _ => (h1.live.entry i).awake fun hb => (by cases hz.symm.trans hb),
      fun hb => (by cases hb), fun hu => absurd rfl hu, fun _ hu => absurd rfl hu⟩

theorem SchedOk.wake (pid : ℕ) (ipc : Bool) : SchedOk (s.wake pid ipc) := by
  unfold Sched.wake
  split_ifs with hm
  · have h1 : SchedOk { s with waiters := s.waiters.erase pid } :=
      ⟨h.lined, h.live.unregister pid⟩
    dsimp only
    cases hg : { s with waiters := s.waiters.erase pid }.procGet pid with
    | none => exact h1
    | some i =>
      obtain ⟨hpid, hu⟩ := Sched.procGet_some hg
      obtain ⟨hb, h0, hw, hr⟩ := (h.live.entry i).waiter hu (by rw [← hpid] at hm; exact hm)
      dsimp only
      rw [if_pos (.inr hb)]
      refine (h1.makeReady (i := i) (f := id) rfl rfl rfl rfl (.inl hb) h0 hw ?_
        fun r hrr => ?_).1.ok
      · rw [hpid]
        exact h.live.waiters_nodup.not_mem_erase
      · cases hr.symm.trans hrr
  · exact h

theorem SchedOk.tick : SchedOk s.tick := by
  have h1 : SchedOk { s with uptime := s.uptime + 1 } := ⟨h.lined, h.live⟩
  exact h1.unblockSleepers.ok.unblockWaiters.ok

end

/-! ### Switching -/

/-- `g'` runs the head of the first queue of `QUEUE_ORDER` that is not empty in `g`, or, when all
are empty, is `g` with the processor idle. -/
def SwitchesToHead (g g' : Sched) : Prop :=
  (∃ before q after n, queueOrder = before ++ q :: after ∧ (∀ q' ∈ before, g.queues q' = none) ∧
    g.queues q = some n ∧ (g.procs n).state = .ready ∧ (g.procs n).intent = q ∧
    g'.current = some n ∧ (g'.procs n).state = .running) ∨
  (∀ q, g.queues q = none) ∧ g' = g ∧ g.current = none

section
variable (h : SchedOk s)
include h

theorem SchedOk.dispatch {n : Slot} (hn : s.schedNext = some n) :
    SchedOk (s.dispatch n) ∧ SwitchesToHead s (s.dispatch n) := by
  have hready : (s.procs n).state = .ready := h.lined.schedNext_some hn
  have hu : (s.procs n).state ≠ .unused := by rw [hready]; decide
  have hb : (s.procs n).state ≠ .blocked := by rw [hready]; decide
  obtain ⟨hr, hlined⟩ := h.lined.dequeue n
  have hcores : ((s.dequeue n).setState n .running).cores =
      update s.cores n { s.cores n with state := .running } := by
    rw [Sched.setState, Sched.cores_update, hr.cores]
    congr 1
    exact congrArg (fun p : Process => { p with state := .running }) (congrFun hr.cores n)
  have hrun : ((s.dispatch n).procs n).state = .running :=
    congrArg Process.state
      (Sched.update_self (s.dequeue n) n fun p => { p with state := .running })
  refine ⟨⟨?_, ?_⟩, .inl ?_⟩
  · have hset := hlined.update (f := fun p => { p with state := .running }) (i := n)
      (.inr ⟨rfl, rfl⟩)
    have hsdiff : readySlots (s.dispatch n).cores = readySlots s.cores \ {n} :=
      (congrArg readySlots hcores).trans (readySlots_sdiff noConfusion)
    exact hsdiff ▸ hset
  · have hlive : Live (update s.cores n { s.cores n with state := .running })
        s.current s.nextPid s.waiters := h.live.update rfl hu
      noConfusion (fun hz => by cases hready.symm.trans hz)
      ⟨fun _ => (h.live.entry n).awake hb, fun hb' => (by cases hb'),
        fun _ hm => absurd hm (h.not_waiter hu hb), fun r _ => (h.live.entry n).reaping r hu⟩
      fun r hr => .inr ((h.live.gone n r hu hr).resolve_left fun h3 => hb h3.1)
    have hcur := hlive.setCurrent (c := n)
      (by rw [update_self]; exact noConfusion)
    rw [← hcores, ← hr.nextPid, ← hr.waiters] at hcur
    exact hcur
  obtain ⟨before, q, after, horder, hq, hbefore⟩ := findSome?_eq_some_iff.mp hn
  obtain ⟨qs, hc, hm⟩ := h.lined
  have hmem : n ∈ qs q := mem_of_mem_head? (by rw [← (hc q).head_eq, hq]; rfl)
  exact ⟨before, q, after, n, horder, hbefore, hq, hready, ((hm q n).mp hmem).2, rfl, hrun⟩

theorem SchedOk.beforeSwitch {prev : Slot} (hp : s.current = some prev) :
    SchedOk (s.beforeSwitch prev) ∧ (s.beforeSwitch prev).current = none ∧
      ((s.procs prev).state = .running → ((s.beforeSwitch prev).procs prev).state = .ready) := by
  have hidle : ∀ {s : Sched}, SchedOk s → Woken { s with current := none }
      { s with current := none }.unblockWaiters := fun h =>
    SchedOk.unblockWaiters ⟨h.lined, h.live.idle⟩
  unfold Sched.beforeSwitch
  dsimp only
  split_ifs with hr
  · have hu : (s.procs prev).state ≠ .unused := h.live.current hp
    have hb : (s.procs prev).state ≠ .blocked := by rw [hr]; decide
    obtain ⟨h0, h1⟩ := (h.live.entry prev).awake hb
    obtain ⟨hw, hready⟩ := h.makeReady (i := prev) (f := id) rfl rfl rfl rfl (.inr hr) h0 h1
      (h.not_waiter hu hb) fun r hrr => (h.live.gone prev r hu hrr).resolve_left fun h3 => hb h3.1
    have hmake : (s.setState prev .ready).enqueue prev = s.makeReady prev id := rfl
    rw [hmake]
    have hwk := hidle hw.ok
    exact ⟨hwk.ok, hwk.current, fun _ => hwk.ready (j := prev) hready⟩
  · exact ⟨(hidle h).ok, (hidle h).current, fun hc => absurd hc hr⟩

theorem SchedOk.schedYield {prev : Slot} (hp : s.current = some prev) :
    SchedOk s.schedYield ∧ SwitchesToHead (s.beforeSwitch prev) s.schedYield := by
  obtain ⟨h1, hidle, hready⟩ := h.beforeSwitch hp
  unfold Sched.schedYield
  rw [hp]
  dsimp only
  cases hn : (s.beforeSwitch prev).schedNext with
  | some n => exact h1.dispatch hn
  | none =>
    -- a process that was running is in its queue by now
    have hr : (s.procs prev).state ≠ .running := fun hr =>
      h1.lined.schedNext_none hn (Sched.mem_readySlots.mpr (hready hr))
    dsimp only
    rw [if_neg hr]
    exact ⟨h1, .inr ⟨Sched.schedNext_none hn, rfl, hidle⟩⟩

theorem SchedOk.idlePoll : Woken s s.idlePoll :=
  h.unblockSleepers.trans h.unblockSleepers.ok.unblockWaiters

theorem SchedOk.idleSwitch (hc : s.current = none) :
    SchedOk s.idleSwitch ∧ SwitchesToHead s s.idleSwitch := by
  unfold Sched.idleSwitch
  cases hn : s.schedNext with
  | some n => exact h.dispatch hn
  | none => exact ⟨h, .inr ⟨Sched.schedNext_none hn, rfl, hc⟩⟩

theorem SchedOk.idleTurn (hc : s.current = none) :
    SchedOk s.idleTurn ∧ SwitchesToHead s.idlePoll s.idleTurn :=
  h.idlePoll.ok.idleSwitch (h.idlePoll.current.trans hc)

end

/-! ### Runs -/

/-- The condition on a step: no `execv` whose child starts, no `set_intent` that passes its checks,
and processes are made only as long as the pids have not wrapped round. -/
def Sched.Meets (s : Sched) : SchedCall → Prop
  | .spawn _ _ _ => s.nextPid ≠ 0
  | .fork _ _ => s.nextPid ≠ 0
  | .execv stackOk loadOk =>
    s.nextPid ≠ 0 ∧ (stackOk = false ∨ loadOk = false ∨ ∀ i, (s.procs i).state ≠ .unused)
  | .setIntent intent allowed =>
    Intent.ofIndex intent = none ∨ Intent.ofIndex intent = some .audit ∧ allowed = false
  | _ => True

instance (s : Sched) (c : SchedCall) : Decidable (s.Meets c) := by
  cases c <;> unfold Sched.Meets <;> infer_instance

/-- Every step of the run meets the condition in the state it is taken in. -/
def Sched.MeetsAll (s : Sched) : List SchedCall → Prop
  | [] => True
  | c :: cs => s.Meets c ∧ (s.exec c).MeetsAll cs

instance Sched.decidableMeetsAll : (s : Sched) → (cs : List SchedCall) → Decidable (s.MeetsAll cs)
  | _, [] => inferInstanceAs (Decidable True)
  | s, c :: cs => @instDecidableAnd _ _ _ (Sched.decidableMeetsAll (s.exec c) cs)

section
variable (h : SchedOk s)
include h

theorem SchedOk.byRunning {g : Slot → Sched}
    (hg : ∀ c, (s.procs c).state = .running → Unbound s c → SchedOk (g c)) :
    SchedOk (s.byRunning g) := by
  unfold Sched.byRunning
  cases s.current with
  | none => exact h
  | some c =>
    dsimp only
    by_cases hc : (s.procs c).state = .running ∧ (s.procs c).reaping = none
    · rw [if_pos hc]
      exact hg c hc.1 (h.unbound hc.1 hc.2)
    · rw [if_neg hc]
      exact h

theorem SchedOk.sysExecv {stackOk loadOk : Bool}
    (hm : s.Meets (.execv stackOk loadOk)) : SchedOk (s.sysExecv stackOk loadOk) := by
  obtain ⟨h0, hm⟩ := hm
  obtain ⟨h1, h2⟩ := h.procCreate h0 .interactive stackOk
  unfold Sched.sysExecv
  dsimp only
  cases hr : (s.procCreate .interactive stackOk).2 with
  | none => exact h1
  | some i =>
    dsimp only
    cases loadOk with
    | false => exact (h2 i hr).exit h1
    | true =>
      exfalso
      unfold Sched.procCreate at hr
      cases hf : (finRange 256).find? fun i => (s.procs i).state = .unused with
      | none =>
        rw [hf] at hr
        cases hr
      | some j =>
        rw [hf] at hr
        rcases hm with rfl | hm | hm
        · cases hr
        · cases hm
        · exact hm j (by simpa using find?_some hf)

theorem SchedOk.sysSetIntent {intent : ℕ} {allowed : Bool}
    (hm : s.Meets (.setIntent intent allowed)) (c : Slot) :
    SchedOk (s.sysSetIntent c intent allowed) := by
  unfold Sched.sysSetIntent
  rcases hm with hm | ⟨hm, ha⟩
  · rw [hm]
    exact h
  rw [hm]
  dsimp only
  rw [if_pos ⟨rfl, ha⟩]
  exact h

theorem SchedOk.exec (c : SchedCall) (hm : s.Meets c) : SchedOk (s.exec c) := by
  cases c with
  | spawn intent stackOk loadOk =>
    exact h.byRunning fun _ _ _ => h.start_child hm _ stackOk loadOk
  | fork stackOk copyOk => exact h.byRunning fun _ _ _ => h.start_child hm _ stackOk copyOk
  | execv stackOk loadOk => exact h.byRunning fun _ _ _ => h.sysExecv hm
  | setIntent intent allowed => exact h.byRunning fun c _ _ => h.sysSetIntent hm c
  | sleep ticks => exact h.byRunning fun _ _ hc => h.sysSleep hc ticks
  | waitOn => exact h.byRunning fun _ _ hc => h.waitOn hc
  | waitpid pid => exact h.byRunning fun _ hrun hc => h.sysWaitpid hc hrun pid
  | reap =>
    unfold Sched.exec
    cases hc : s.current with
    | none => exact h
    | some c =>
      dsimp only
      cases hr : (s.procs c).reaping with
      | none => exact h
      | some pid =>
        dsimp only
        by_cases hrun : (s.procs c).state = .running
        · rw [if_pos hrun]
          exact h.reap hc hrun hr
        · rw [if_neg hrun]
          exact h
  | exit => exact h.byRunning fun _ _ hc => hc.exit h
  | yield =>
    unfold Sched.exec
    cases hc : s.current with
    | none =>
      unfold Sched.schedYield
      rw [hc]
      exact h
    | some prev => exact (h.schedYield hc).1
  | idle =>
    unfold Sched.exec
    dsimp only
    by_cases hc : s.current = none
    · rw [if_pos hc]
      exact (h.idleTurn hc).1
    · rw [if_neg hc]
      exact h
  | tick => exact h.tick
  | wake pid ipc => exact h.wake pid ipc

theorem SchedOk.run (cs : List SchedCall) (hm : s.MeetsAll cs) : SchedOk (s.run cs) := by
  induction cs generalizing s with
  | nil => exact h
  | cons c cs ih => exact ih (h.exec c hm.1) hm.2

end

/-! ### The start -/

theorem schedInit_ok : SchedOk schedInit := by
  have hu : ∀ i, (schedInit.cores i).state = .unused := fun _ => rfl
  refine ⟨⟨fun _ => [], fun _ => rfl, fun q p => ?_⟩, by decide, ?_,
    fun h => absurd h (Option.some_ne_none _).symm, fun i => ?_, nodup_nil,
    fun _ h => absurd h not_mem_nil, fun i r h => absurd (hu i) h⟩
  · simp [readySlots, hu]
  · exact ⟨fun h => absurd (hu _) h, fun h => absurd (hu _) h⟩
  · exact ⟨fun _ => ⟨rfl, rfl⟩, fun h => noConfusion h,
      fun h => absurd (hu i) h, fun r h => absurd (hu i) h⟩

theorem Unbound.enqueue_dequeue (hi : Unbound s i) (h : SchedOk s) :
    SchedOk ((s.enqueue i).dequeue i) ∧ Unbound ((s.enqueue i).dequeue i) i := by
  obtain ⟨hr1, hl1⟩ := h.lined.enqueue i
  obtain ⟨hr2, hl2⟩ := hl1.dequeue i
  have hnot : i ∉ readySlots s.cores := hi.ready
  rw [Set.insert_sdiff_self_of_notMem hnot] at hl2
  have hr := hr1.trans hr2
  refine ⟨SchedOk.of_relinked h.live hr hl2, ?_⟩
  have hcore : ∀ {α : Type} (g : Process → α), g (((s.enqueue i).dequeue i).procs i).core =
      g (s.procs i).core := fun g => congrArg g (hr.core i)
  exact ⟨(hr.state i).symm ▸ hi.unused, (hr.state i).symm ▸ hi.ready,
    (hr.state i).symm ▸ hi.zombie, (hcore Process.blockedOn).trans hi.blockedOn,
    (hcore Process.wakeTick).trans hi.wakeTick, by rw [hr.pid, hr.waiters]; exact hi.waiters,
    (hcore Process.reaping).trans hi.reaping⟩

theorem schedBoot_ok : SchedOk schedBoot := by
  obtain ⟨h, hnew⟩ := schedInit_ok.procCreate (by decide) .interactive true
  have hi := hnew 0 (by decide)
  unfold schedBoot
  dsimp only
  generalize (schedInit.procCreate .interactive true).1 = s at *
  obtain ⟨h', hi'⟩ := hi.enqueue_dequeue h
  generalize (s.enqueue 0).dequeue 0 = s' at *
  have hrun : SchedOk (s'.setState 0 .running) := by
    refine hi'.update h' rfl noConfusion noConfusion
      (fun _ => ⟨hi'.blockedOn, hi'.wakeTick⟩) nofun fun r hr => ?_
    cases hi'.reaping.symm.trans hr
  refine ⟨hrun.lined, hrun.live.setCurrent ?_⟩
  rw [Sched.setState, Sched.cores_update, update_self]
  exact noConfusion

/-- In every state that a run reaches whose steps meet the condition, each queue is a list that
ends and visits nobody twice, it holds the ready processes of its intent and nobody else, and
`sched_yield` and the idle loop switch to the head of the first non-empty queue. -/
theorem sched_run {cs : List SchedCall} (hm : schedBoot.MeetsAll cs) {f : Sched}
    (hf : f = schedBoot.run cs) :
    (∀ q, ∃ l, Chain f.nextOf (f.queues q) l ∧ l.Nodup ∧
      ∀ p, p ∈ l ↔ (f.procs p).state = .ready ∧ (f.procs p).intent = q) ∧
    (∀ prev, f.current = some prev → SwitchesToHead (f.beforeSwitch prev) f.schedYield) ∧
    (f.current = none → SwitchesToHead f.idlePoll f.idleTurn) := by
  have h : SchedOk f := hf ▸ schedBoot_ok.run cs hm
  obtain ⟨qs, hc, hm⟩ := h.lined
  exact ⟨fun q => ⟨qs q, hc q, (hc q).nodup, hm q⟩,
    fun prev hp => (h.schedYield hp).2, fun hc => (h.idleTurn hc).2⟩

/-- Two children, of which one sleeps while the first process waits for the other. -/
def sampleSchedCalls : List SchedCall :=
  [.spawn 1 true true, .fork true true, .yield, .waitpid 2, .yield, .sleep 3, .yield, .tick]

theorem sampleSchedCalls_run : schedBoot.MeetsAll sampleSchedCalls ∧
    (∀ q, ∃ l, Chain (schedBoot.run sampleSchedCalls).nextOf
      ((schedBoot.run sampleSchedCalls).queues q) l ∧ l.Nodup ∧
      ∀ p, p ∈ l ↔ ((schedBoot.run sampleSchedCalls).procs p).state = .ready ∧
        ((schedBoot.run sampleSchedCalls).procs p).intent = q) :=
  have hm : schedBoot.MeetsAll sampleSchedCalls := by decide
  ⟨hm, (sched_run hm rfl).1⟩

/-- In such a state the pids of the processes are different, and a process inside `waitpid` is still
blocked on the one it waits for, unless that one has exited: only a zombie is reaped. -/
theorem waitpid_run {cs : List SchedCall} (hm : schedBoot.MeetsAll cs) {f : Sched}
    (hf : f = schedBoot.run cs) {i j : Slot} (hi : (f.procs i).state ≠ .unused)
    (hj : (f.procs j).state ≠ .unused) :
    ((f.procs i).pid = (f.procs j).pid → i = j) ∧
    ((f.procs i).reaping = some (f.procs j).pid → (f.procs j).state = .zombie ∨
      (f.procs i).state = .blocked ∧ (f.procs i).blockedOn = (f.procs j).pid) := by
  have h : SchedOk f := hf ▸ schedBoot_ok.run cs hm
  refine ⟨h.live.pids.inj hi hj, fun hr => ?_⟩
  rcases h.live.gone i _ hi hr with hb | hgone
  · exact .inr hb
  · exact .inl (hgone j hj rfl)

theorem spawn_waitpid : ∃ f, f = schedBoot.run [.spawn 1 true true, .waitpid 2] ∧
    ((f.procs 1).state = .zombie ∨
      (f.procs 0).state = .blocked ∧ (f.procs 0).blockedOn = (f.procs 1).pid) :=
  ⟨_, rfl, (waitpid_run (by decide) rfl (by decide) (by decide)).2 (by decide)⟩

/-- A child that `sys_execv` starts is ready but in no queue, and a process that changes its intent
is in a queue while it runs. -/
theorem execv_setIntent_queues : ((schedBoot.run [.execv true true]).procs 1).state = .ready ∧
      (schedBoot.run [.execv true true]).queues
        ((schedBoot.run [.execv true true]).procs 1).intent = none ∧
      ((schedBoot.run [.setIntent 0 true]).procs 0).state = .running ∧
      (schedBoot.run [.setIntent 0 true]).queues .compute = some 0 := by
  decide

end
end Exploidus.Proc
