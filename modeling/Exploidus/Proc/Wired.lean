import Exploidus.Proc.Wakeup

/-! What holds of the queues and the process table as long as no process leaves it, whatever the
processes do: who is ready inside a wait is in its queue, and nobody is blocked in passing. -/
namespace Exploidus.Proc
open Function ProcState Finset

structure PidTable (P : Slot → Process) (current : Option Slot) (nextPid : ℕ) : Prop where
  running : ∀ {i}, (P i).state = .running → current = some i
  pids : Pids P nextPid
  full : nextPid = (univ.filter fun i => (P i).state ≠ .unused).card + 1

structure Kept (W : Slot → Prop) (s : Sched) : Prop where
  table : PidTable s.cores s.current s.nextPid
  lined : ∃ R, Lined s R ∧ (∀ i ∈ R, (s.procs i).state ≠ .unused) ∧
    ∀ i, W i → (s.procs i).state = .ready → i ∈ R
  alive : ∀ {i}, W i → (s.procs i).state ≠ .unused ∧ (s.procs i).state ≠ .zombie

structure Moves (W : Slot → Prop) (s s' : Sched) : Prop where
  kept : Kept W s'
  used : ∀ {i}, (s.procs i).state ≠ .unused →
    (s'.procs i).state ≠ .unused ∧ (s'.procs i).pid = (s.procs i).pid
  blocked : ∀ {i}, W i → (s'.procs i).state = .blocked → (s.procs i).state = .blocked

section
variable {W W' : Slot → Prop} {s s' s'' : Sched} {R : Set Slot} {i c n : Slot} {p' : Process}
  {f : Process → Process}

theorem Kept.served (h : Kept W s) (hw : W i) (hr : (s.procs i).state = .ready) : InQueue s i := by
  obtain ⟨R, hl, -, hs⟩ := h.lined
  exact hl.inQueue_iff.mpr (hs i hw hr)

theorem Kept.moves (h : Kept W s) : Moves W s s := ⟨h, fun hu => ⟨hu, rfl⟩, fun _ => id⟩

theorem Moves.trans (h : Moves W s s') (h' : Moves W s' s'') : Moves W s s'' :=
  ⟨h'.kept, fun hu => ⟨(h'.used (h.used hu).1).1, (h'.used (h.used hu).1).2.trans (h.used hu).2⟩,
    fun hw hb => h.blocked hw (h'.blocked hw hb)⟩

theorem Moves.foldl {α : Type*} {g : Sched → α → Sched}
    (hg : ∀ s a, Kept W s → Moves W s (g s a)) (l : List α) (h : Kept W s) :
    Moves W s (l.foldl g s) := by
  induction l generalizing s with
  | nil => exact h.moves
  | cons a l ih => exact (hg s a h).trans (ih (hg s a h).kept)

/-- Fewer processes may be of `W`, and any that is not ready. -/
theorem Kept.mono (h : Kept W s)
    (hW : ∀ i, W' i → W i ∨ (s.procs i).state = .running ∨ (s.procs i).state = .blocked) :
    Kept W' s := by
  obtain ⟨R, hl, hu, hs⟩ := h.lined
  refine ⟨h.table, ⟨R, hl, hu, fun i hw hr => ?_⟩, fun {i} hw => ?_⟩
  · rcases hW i hw with hw | hst | hst
    · exact hs i hw hr
    · cases hst.symm.trans hr
    · cases hst.symm.trans hr
  · rcases hW i hw with hw | hst | hst
    · exact h.alive hw
    · rw [hst]
      exact ⟨noConfusion, noConfusion⟩
    · rw [hst]
      exact ⟨noConfusion, noConfusion⟩

theorem Kept.congr (h : Kept W s) (hp : s'.procs = s.procs) (hq : s'.queues = s.queues)
    (hc : s'.current = s.current) (hn : s'.nextPid = s.nextPid) : Kept W s' := by
  obtain ⟨procs, queues, current, nextPid, uptime, waiters⟩ := s'
  dsimp only at hp hq hc hn
  subst hp hq hc hn
  exact ⟨h.table, h.lined, h.alive⟩

theorem Kept.moves_congr (h : Kept W s) (hp : s'.procs = s.procs) (hq : s'.queues = s.queues)
    (hc : s'.current = s.current) (hn : s'.nextPid = s.nextPid) : Moves W s s' :=
  ⟨h.congr hp hq hc hn, fun hu => by rw [hp]; exact ⟨hu, rfl⟩, fun _ hb => by rwa [hp] at hb⟩

/-! ### Changes of one process -/

theorem PidTable.set {P : Slot → Process} {current current' : Option Slot} {nextPid : ℕ}
    (h : PidTable P current nextPid) (hu : (P i).state ≠ .unused) (hu' : p'.state ≠ .unused)
    (hp : p'.pid = (P i).pid) (hrun : p'.state = .running → current' = some i)
    (hcur : ∀ {j}, j ≠ i → current = some j → current' = some j) :
    PidTable (update P i p') current' nextPid := by
  refine ⟨fun {j} hj => ?_, h.pids.set le_rfl fun _ => ?_, ?_⟩
  · by_cases hji : j = i
    · subst hji
      rw [update_self] at hj
      exact hrun hj
    · rw [update_of_ne hji] at hj
      exact hcur hji (h.running hj)
  · rw [hp]
    exact ⟨(h.pids.pid hu).1, (h.pids.pid hu).2, fun j hj hju hjp => hj (h.pids.inj hju hu hjp)⟩
  · rw [h.full]
    congr 2
    refine filter_congr fun j _ => ?_
    by_cases hji : j = i
    · subst hji
      rw [update_self]
      exact iff_of_true hu hu'
    · rw [update_of_ne hji]

/-- The process at `i` changes, and the queues hold those of `R` as before, and `i` if it is ready
inside a wait. -/
theorem Kept.set (h : Kept W s) (hcores : s'.cores = update s.cores i p')
    (hn : s'.nextPid = s.nextPid)
    (hR : ∀ R, Lined s R → ∃ R', Lined s' R' ∧ (∀ j ≠ i, (j ∈ R' ↔ j ∈ R)) ∧
      (W i → p'.state = .ready → i ∈ R'))
    (hcur : ∀ {j}, j ≠ i → s.current = some j → s'.current = some j)
    (hu : (s.procs i).state ≠ .unused) (hu' : p'.state ≠ .unused) (hp : p'.pid = (s.procs i).pid)
    (hz : W i → p'.state ≠ .zombie) (hrun : p'.state = .running → s'.current = some i)
    (hb : W i → p'.state = .blocked → (s.procs i).state = .blocked) : Moves W s s' := by
  have hst : ∀ j, (s'.procs j).state = (update s.cores i p' j).state := fun j => by
    rw [← hcores]
    rfl
  have hpid : ∀ j, (s'.procs j).pid = (update s.cores i p' j).pid := fun j => by
    rw [← hcores]
    rfl
  obtain ⟨R, hl, hRu, hs⟩ := h.lined
  obtain ⟨R', hl', hR', hi'⟩ := hR R hl
  refine ⟨⟨?_, ⟨R', hl', fun j hj => ?_, fun j hj hr => ?_⟩, fun {j} hj => ?_⟩, fun {j} hj => ?_,
    fun {j} hj hjb => ?_⟩
  · rw [hcores, hn]
    exact h.table.set hu hu' hp hrun hcur
  all_goals by_cases hji : j = i
  · rwa [hst, hji, update_self]
  · rw [hst, update_of_ne hji]
    exact hRu j ((hR' j hji).mp hj)
  · subst hji
    rw [hst, update_self] at hr
    exact hi' hj hr
  · rw [hst, update_of_ne hji] at hr
    exact (hR' j hji).mpr (hs j hj hr)
  · subst hji
    rw [hst, update_self]
    exact ⟨hu', hz hj⟩
  · rw [hst, update_of_ne hji]
    exact h.alive hj
  · rw [hst, hpid, hji, update_self]
    exact ⟨hu', hp⟩
  · rw [hst, hpid, update_of_ne hji]
    exact ⟨hj, rfl⟩
  · subst hji
    rw [hst, update_self] at hjb
    exact hb hj hjb
  · rwa [hst, update_of_ne hji] at hjb

theorem Kept.update (h : Kept W s) (hn : (f (s.procs i)).next = (s.procs i).next)
    (hi : (f (s.procs i)).intent = (s.procs i).intent)
    (hp : (f (s.procs i)).pid = (s.procs i).pid) (hu : (s.procs i).state ≠ .unused)
    (hu' : (f (s.procs i)).state ≠ .unused)
    (hr : W i → (f (s.procs i)).state ≠ .ready ∧ (f (s.procs i)).state ≠ .zombie)
    (hrun : (f (s.procs i)).state = .running → s.current = some i)
    (hb : W i → (f (s.procs i)).state = .blocked → (s.procs i).state = .blocked) :
    Moves W s (s.update i f) :=
  h.set (s.cores_update i f) rfl (fun R hl => ⟨R, hl.update (.inr ⟨hn, hi⟩), fun _ _ => Iff.rfl,
      fun hw hready => absurd hready (hr hw).1⟩)
    (fun _ => id) hu hu' hp (fun hw => (hr hw).2) hrun hb

/-! ### Queue operations -/

theorem Kept.makeReady (h : Kept W s) (hn : (f (s.procs i)).next = (s.procs i).next)
    (hi : (f (s.procs i)).intent = (s.procs i).intent)
    (hp : (f (s.procs i)).pid = (s.procs i).pid) (hu : (s.procs i).state ≠ .unused) :
    Moves W s (s.makeReady i f) ∧ ((s.makeReady i f).procs i).state = .ready ∧
      ∀ j ≠ i, ((s.makeReady i f).procs j).state = (s.procs j).state := by
  have henq : ∀ R, Lined s R → Relinked (s.update i fun p => { f p with state := .ready })
      (s.makeReady i f) ∧ Lined (s.makeReady i f) (insert i R) := fun R hl =>
    (hl.update (f := fun p => { f p with state := .ready }) (.inr ⟨hn, hi⟩)).enqueue i
  obtain ⟨R, hl, -, -⟩ := h.lined
  have hr := (henq R hl).1
  refine ⟨h.set (Sched.cores_makeReady hr) hr.nextPid (fun R hl => ⟨_, (henq R hl).2,
      fun j hj => Set.mem_insert_iff.trans (or_iff_right hj), fun _ _ => Set.mem_insert i R⟩)
    (fun _ hc => hr.current.trans hc) hu noConfusion hp (fun _ => noConfusion)
    (fun hc => by cases hc) fun _ hb => (by cases hb), ?_, fun j hj => ?_⟩
  · exact (hr.state i).trans (congrArg Process.state (Sched.update_self ..))
  · exact (hr.state j).trans (by rw [Sched.update_of_ne hj])

theorem Kept.idle (h : Kept W s) (hno : ∀ j, (s.procs j).state ≠ .running) :
    Moves W s { s with current := none } :=
  ⟨⟨{ h.table with running := fun {j} hj => absurd hj (hno j) }, h.lined, h.alive⟩,
    fun hu => ⟨hu, rfl⟩, fun _ => id⟩

theorem Kept.dispatch (h : Kept W s) (hc : s.current = none) (hn : s.schedNext = some n) :
    Moves W s (s.dispatch n) := by
  obtain ⟨R, hl, hRu, -⟩ := h.lined
  have hr := (hl.dequeue n).1
  have hcores : (s.dispatch n).cores =
      Function.update s.cores n ({ (s.dequeue n).procs n with state := .running } : Process).core :=
    (Sched.cores_update (s.dequeue n) n fun p => { p with state := .running }).trans
      (by rw [hr.cores])
  refine h.set hcores hr.nextPid (fun R hl => ⟨R \ {n}, ?_, fun j hj => ?_,
      fun _ hc => by cases hc⟩)
    (fun _ hj => by cases hc.symm.trans hj) (hRu n (hl.schedNext_some hn)) noConfusion
    (hr.pid n) (fun _ => noConfusion) (fun _ => rfl) fun _ hb => by cases hb
  · exact (hl.dequeue n).2.update (f := fun p => { p with state := .running }) (.inr ⟨rfl, rfl⟩)
  · simp [hj]

/-! ### Waking and switching -/

theorem Kept.unblockWaiter (h : Kept W s) (i : Slot) : Moves W s (s.unblockWaiter i) := by
  rcases s.unblockWaiter_cases i with he | ⟨hb, -, -, he⟩ <;> rw [he]
  · exact h.moves
  · exact (h.makeReady rfl rfl rfl (by rw [hb]; exact noConfusion)).1

theorem Kept.unblockSleeper (h : Kept W s) (i : Slot) : Moves W s (s.unblockSleeper i) := by
  rcases s.unblockSleeper_cases i with he | ⟨hb, -, he⟩ <;> rw [he]
  · exact h.moves
  · exact (h.makeReady rfl rfl rfl (by rw [hb]; exact noConfusion)).1

theorem Kept.unblockWaiters (h : Kept W s) : Moves W s s.unblockWaiters :=
  Moves.foldl (fun _ i hs => hs.unblockWaiter i) _ h

theorem Kept.unblockSleepers (h : Kept W s) : Moves W s s.unblockSleepers :=
  Moves.foldl (fun _ i hs => hs.unblockSleeper i) _ h

theorem Kept.tick (h : Kept W s) : Moves W s s.tick := by
  have h1 : Moves W s { s with uptime := s.uptime + 1 } := h.moves_congr rfl rfl rfl rfl
  have h2 := h1.trans h1.kept.unblockSleepers
  exact h2.trans h2.kept.unblockWaiters

theorem Sched.enqueue_current (s : Sched) (i : Slot) : (s.enqueue i).current = s.current := by
  unfold Sched.enqueue
  dsimp only
  split
  · rfl
  · rfl
  split
  · rfl
  · split <;> rfl

theorem Sched.foldl_current {g : Sched → Slot → Sched}
    (hg : ∀ s i, g s i = s ∨ ∃ f, g s i = s.makeReady i f) (l : List Slot) (s : Sched) :
    (l.foldl g s).current = s.current := by
  induction l generalizing s with
  | nil => rfl
  | cons a l ih =>
    refine (ih _).trans ?_
    rcases hg s a with h | ⟨f, h⟩
    · rw [h]
    rw [h]
    exact Sched.enqueue_current _ _

theorem Sched.unblockWaiters_current (s : Sched) : s.unblockWaiters.current = s.current :=
  Sched.foldl_current (fun s i => (s.unblockWaiter_cases i).imp id fun h => ⟨_, h.2.2.2⟩) _ s

theorem Sched.unblockSleepers_current (s : Sched) : s.unblockSleepers.current = s.current :=
  Sched.foldl_current (fun s i => (s.unblockSleeper_cases i).imp id fun h => ⟨_, h.2.2⟩) _ s

theorem Kept.idlePoll (h : Kept W s) : Moves W s s.idlePoll := by
  unfold Sched.idlePoll
  exact h.unblockSleepers.trans h.unblockSleepers.kept.unblockWaiters

theorem Sched.idlePoll_current (s : Sched) : s.idlePoll.current = s.current := by
  unfold Sched.idlePoll
  rw [Sched.unblockWaiters_current, Sched.unblockSleepers_current]

theorem Kept.idleSwitch (h : Kept W s) (hc : s.current = none) : Moves W s s.idleSwitch := by
  unfold Sched.idleSwitch
  cases hn : s.schedNext with
  | none => exact h.moves
  | some n => exact h.dispatch hc hn

theorem Kept.idleTurn (h : Kept W s) (hc : s.current = none) : Moves W s s.idleTurn := by
  unfold Sched.idleTurn
  exact h.idlePoll.trans (h.idlePoll.kept.idleSwitch (s.idlePoll_current.trans hc))

theorem Kept.setRunning (h : Kept W s) (hc : s.current = none) (hu : (s.procs i).state ≠ .unused) :
    Moves W s { s.setState i .running with current := some i } :=
  h.set (s.cores_update i fun p => { p with state := .running }) rfl (fun R hl => ⟨R,
      hl.update (f := fun p => { p with state := .running }) (.inr ⟨rfl, rfl⟩), fun _ _ => Iff.rfl,
      fun _ hr => by cases hr⟩)
    (fun _ hj => by cases hc.symm.trans hj) hu noConfusion rfl
    (fun _ => noConfusion) (fun _ => rfl) fun _ hb => by cases hb

theorem Kept.schedYield (h : Kept W s) : Moves W s s.schedYield := by
  unfold Sched.schedYield
  cases hc : s.current with
  | none => exact h.moves
  | some prev =>
    have hrun : ∀ {j}, (s.procs j).state = .running → j = prev := fun hj =>
      Option.some.inj ((h.table.running hj).symm.trans hc)
    have h1 : Moves W s (s.beforeSwitch prev) ∧ (s.beforeSwitch prev).current = none := by
      unfold Sched.beforeSwitch
      dsimp only
      by_cases hr : (s.procs prev).state = .running
      · rw [if_pos hr]
        obtain ⟨hm, hready, hother⟩ := h.makeReady (i := prev) (f := id) rfl rfl rfl
          (by rw [hr]; exact noConfusion)
        have hidle := hm.kept.idle fun j hj => by
          by_cases hjp : j = prev
          · subst hjp
            rw [hready] at hj
            cases hj
          · rw [hother j hjp] at hj
            exact hjp (hrun hj)
        have h2 := hm.trans hidle
        exact ⟨h2.trans h2.kept.unblockWaiters, Sched.unblockWaiters_current _⟩
      · rw [if_neg hr]
        have hidle := h.idle fun j hj => hr (hrun hj ▸ hj)
        exact ⟨hidle.trans hidle.kept.unblockWaiters, Sched.unblockWaiters_current _⟩
    obtain ⟨h1, hidle⟩ := h1
    dsimp only
    cases hn : (s.beforeSwitch prev).schedNext with
    | some n => exact h1.trans (h1.kept.dispatch hidle hn)
    | none =>
      dsimp only
      by_cases hr : (s.procs prev).state = .running
      · rw [if_pos hr]
        exact h1.trans (h1.kept.setRunning hidle
          (h1.used (by rw [hr]; exact noConfusion)).1)
      · rwa [if_neg hr]

/-! ### New processes -/

theorem PidTable.create {P : Slot → Process} {current : Option Slot} {nextPid : ℕ}
    (h : PidTable P current nextPid) (hi : (P i).state = .unused) (intent : Intent) :
    PidTable (update P i ⟨nextPid, .blocked, intent, 0, 0, none, none⟩) current
      ((nextPid + 1) % 2 ^ 32) := by
  have hfull := h.full
  have hcard : (univ.filter fun j => (P j).state ≠ .unused).card ≤ 256 := by
    simpa using card_le_univ (univ.filter fun j => (P j).state ≠ .unused)
  rw [Nat.mod_eq_of_lt (by omega : nextPid + 1 < 2 ^ 32)]
  refine ⟨fun {j} hj => ?_, h.pids.set (Nat.le_succ _) fun _ => ⟨?_, Nat.lt_succ_self _,
    fun j _ hj => (h.pids.pid hj).2.ne⟩, ?_⟩
  · by_cases hji : j = i
    · subst hji
      rw [update_self] at hj
      cases hj
    · rw [update_of_ne hji] at hj
      exact h.running hj
  · dsimp only
    omega
  · have hins : (univ.filter fun j => (update P i
        ⟨nextPid, .blocked, intent, 0, 0, none, none⟩ j).state ≠ .unused) =
        insert i (univ.filter fun j => (P j).state ≠ .unused) := by
      ext j
      by_cases hji : j = i
      · subst hji
        simp
      · simp [hji]
    rw [hins, card_insert_of_notMem (by simp [hi]), ← hfull]

theorem Kept.procCreate (h : Kept W s) (intent : Intent) (stackOk : Bool) :
    Moves W s (s.procCreate intent stackOk).1 ∧ ∀ i, (s.procCreate intent stackOk).2 = some i →
        ¬ W i ∧ ((s.procCreate intent stackOk).1.procs i).state ≠ .unused := by
  unfold Sched.procCreate
  cases hf : (List.finRange 256).find? fun i => (s.procs i).state = .unused with
  | none => exact ⟨h.moves, fun i hi => by cases hi⟩
  | some i =>
    have hi : (s.procs i).state = .unused := by simpa using List.find?_some hf
    obtain ⟨R, hl, hRu, hs⟩ := h.lined
    have hself := Sched.update_self s i fun _ => ⟨s.nextPid, .blocked, intent, 0, 0, none, none⟩
    have hother : ∀ {j}, (s.procs j).state ≠ .unused →
        (s.update i fun _ => ⟨s.nextPid, .blocked, intent, 0, 0, none, none⟩).procs j = s.procs j :=
      fun hj => Sched.update_of_ne fun hji => hj (hji ▸ hi)
    have hcores := Sched.cores_update s i fun _ => ⟨s.nextPid, .blocked, intent, 0, 0, none, none⟩
    refine ⟨⟨⟨hcores ▸ h.table.create hi intent, ⟨R, ?_, fun j hj => ?_, fun j hj hr => ?_⟩,
      fun {j} hj => ?_⟩, fun {j} hj => ?_, fun {j} hj hb => ?_⟩, fun j hj => ?_⟩
    · exact hl.update (f := fun _ => ⟨s.nextPid, .blocked, intent, 0, 0, none, none⟩)
        (.inl fun hm => hRu i hm hi)
    all_goals dsimp only at *
    · rw [hother (hRu j hj)]
      exact hRu j hj
    · rw [hother (h.alive hj).1] at hr
      exact hs j hj hr
    · rw [hother (h.alive hj).1]
      exact h.alive hj
    · rw [hother hj]
      exact ⟨hj, rfl⟩
    · rwa [hother (h.alive hj).1] at hb
    obtain rfl : i = j := by
      cases stackOk with
      | true => exact Option.some.inj hj
      | false => cases hj
    exact ⟨fun hw => (h.alive hw).1 hi, by rw [hself]; exact noConfusion⟩

/-! ### Calls -/

/-- The start of a child by `sys_spawn` and `sys_fork_impl`, when its image loads. -/
theorem Kept.start_child (h : Kept W s) (intent : Intent) (stackOk ok : Bool)
    (hok : stackOk → ok) :
    Moves W s (match (s.procCreate intent stackOk).2 with
      | none => (s.procCreate intent stackOk).1
      | some i => if ok then ((s.procCreate intent stackOk).1.setState i .ready).enqueue i
          else (s.procCreate intent stackOk).1.procExit
            ((s.procCreate intent stackOk).1.procs i).pid) := by
  obtain ⟨h1, h2⟩ := h.procCreate intent stackOk
  cases hr : (s.procCreate intent stackOk).2 with
  | none => exact h1
  | some i =>
    have hst : stackOk := by
      cases stackOk with
      | true => rfl
      | false =>
        unfold Sched.procCreate at hr
        split at hr <;> cases hr
    dsimp only
    rw [if_pos (hok hst)]
    exact h1.trans (h1.kept.makeReady (f := id) rfl rfl rfl (h2 i hr).2).1

/-- `sys_execv` when the image loads: the child is ready but in no queue. -/
theorem Kept.sysExecv (h : Kept W s) (stackOk loadOk : Bool)
    (hok : stackOk → loadOk) : Moves W s (s.sysExecv stackOk loadOk) := by
  obtain ⟨h1, h2⟩ := h.procCreate .interactive stackOk
  unfold Sched.sysExecv
  dsimp only
  cases hr : (s.procCreate .interactive stackOk).2 with
  | none => exact h1
  | some i =>
    have hst : stackOk := by
      cases stackOk with
      | true => rfl
      | false =>
        unfold Sched.procCreate at hr
        split at hr <;> cases hr
    dsimp only
    rw [if_pos (hok hst)]
    exact h1.trans (h1.kept.update (f := fun p => { p with state := .ready }) rfl rfl rfl
      (h2 i hr).2 noConfusion (fun hw => absurd hw (h2 i hr).1) (fun hc => by cases hc)
      fun hw => absurd hw (h2 i hr).1)

theorem Kept.sysSetIntent (h : Kept W s) (hu : (s.procs c).state ≠ .unused) (hW : ¬ W c)
    (intent : ℕ) (allowed : Bool) : Moves W s (s.sysSetIntent c intent allowed) := by
  unfold Sched.sysSetIntent
  cases Intent.ofIndex intent with
  | none => exact h.moves
  | some q =>
    dsimp only
    split
    · exact h.moves
    -- the process is in no queue while its intent changes
    have hop : ∀ R, Lined s R → Relinked s (s.dequeue c) ∧ Relinked ((s.dequeue c).update c fun p =>
          { p with intent := q }) (((s.dequeue c).update c fun p => { p with intent := q }).enqueue c) ∧
        Lined (((s.dequeue c).update c fun p => { p with intent := q }).enqueue c)
          (insert c (R \ {c})) := fun R hl =>
      have hd := hl.dequeue c
      ⟨hd.1, (hd.2.update (f := fun p => { p with intent := q }) (.inl (by simp))).enqueue c⟩
    obtain ⟨R, hl, -, -⟩ := h.lined
    obtain ⟨hr, hr', -⟩ := hop R hl
    have hcores := (hr'.cores.trans (Sched.cores_update (s.dequeue c) c _)).trans (by rw [hr.cores])
    have hst : ((s.dequeue c).procs c).state = (s.procs c).state := hr.state c
    have hcur := hr'.current.trans hr.current
    refine h.set hcores (hr'.nextPid.trans hr.nextPid)
      (fun R hl => ⟨_, (hop R hl).2.2, fun j hj => by simp [hj], fun hw => absurd hw hW⟩)
      (fun _ hj => hcur.trans hj) hu (hst.trans_ne hu) (hr.pid c) (fun hw => absurd hw hW)
      (fun hrun => hcur.trans (h.table.running (hst.symm.trans hrun))) fun hw => absurd hw hW

/-- A process outside `W` blocks. -/
theorem Kept.blockOther (h : Kept W s) (hu : (s.procs c).state ≠ .unused) (hW : ¬ W c)
    (hn : (f (s.procs c)).next = (s.procs c).next)
    (hi : (f (s.procs c)).intent = (s.procs c).intent)
    (hp : (f (s.procs c)).pid = (s.procs c).pid)
    (hb : (f (s.procs c)).state = .blocked ∨ (f (s.procs c)).state = (s.procs c).state) :
    Moves W s (s.update c f) := by
  have hu' : (f (s.procs c)).state ≠ .unused := by
    rcases hb with hb | hb <;> rw [hb]
    · exact noConfusion
    · exact hu
  refine h.update hn hi hp hu hu' (fun hw => absurd hw hW) (fun hrun => ?_) fun hw => absurd hw hW
  rcases hb with hb | hb
  · rw [hb] at hrun
    cases hrun
  · exact h.table.running (hb ▸ hrun)

theorem Kept.wake (h : Kept W s) (pid : ℕ) (ipc : Bool) : Moves W s (s.wake pid ipc) := by
  unfold Sched.wake
  by_cases hm : pid ∈ s.waiters
  · rw [if_pos hm]
    have h1 : Moves W s { s with waiters := s.waiters.erase pid } := h.moves_congr rfl rfl rfl rfl
    dsimp only
    cases hg : { s with waiters := s.waiters.erase pid }.procGet pid with
    | none => exact h1
    | some i =>
      dsimp only
      split
      · exact h1.trans (h1.kept.makeReady (f := id) rfl rfl rfl (Sched.procGet_some hg).2).1
      · exact h1
  · rw [if_neg hm]
    exact h.moves

end
end Exploidus.Proc
