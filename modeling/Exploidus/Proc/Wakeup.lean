import Exploidus.Proc.Queues

/-! The invariant of the scheduler, and that every path that wakes a process keeps it. -/
namespace Exploidus.Proc
open Function

/-- The pids of the processes in the table are different, and were handed out before `bound`. -/
structure Pids (P : Slot → Process) (bound : ℕ) : Prop where
  pid : ∀ {i}, (P i).state ≠ .unused → (P i).pid ≠ 0 ∧ (P i).pid < bound
  inj : ∀ {i j}, (P i).state ≠ .unused → (P j).state ≠ .unused → (P i).pid = (P j).pid → i = j

/-- All pids handed out so far are less. -/
def pidBound (nextPid : ℕ) : ℕ := if nextPid = 0 then 2 ^ 32 else nextPid

/-- Whoever has pid `r` has exited. -/
def Gone (P : Slot → Process) (r : ℕ) : Prop :=
  ∀ j, (P j).state ≠ .unused → (P j).pid = r → (P j).state = .zombie

/-- What holds of one entry of the process table. -/
structure EntryOk (bound : ℕ) (waiters : List ℕ) (p : Process) : Prop where
  awake : p.state ≠ .blocked → p.blockedOn = 0 ∧ p.wakeTick = 0
  waiting : p.state = .blocked → p.blockedOn ≠ 0 → p.wakeTick = 0 ∧ p.reaping = some p.blockedOn
  waiter : p.state ≠ .unused → p.pid ∈ waiters →
    p.state = .blocked ∧ p.blockedOn = 0 ∧ p.wakeTick = 0 ∧ p.reaping = none
  reaping : ∀ r, p.state ≠ .unused → p.reaping = some r → r ≠ 0 ∧ r < bound

structure Live (P : Slot → Process) (current : Option Slot) (nextPid : ℕ) (waiters : List ℕ) :
    Prop where
  nextPid_lt : nextPid < 2 ^ 32
  pids : Pids P (pidBound nextPid)
  current : ∀ {c}, current = some c → (P c).state ≠ .unused
  entry : ∀ i, EntryOk (pidBound nextPid) waiters (P i)
  waiters_nodup : waiters.Nodup
  waiters_old : ∀ w ∈ waiters, w < pidBound nextPid
  gone : ∀ i r, (P i).state ≠ .unused → (P i).reaping = some r →
    (P i).state = .blocked ∧ (P i).blockedOn = r ∨ Gone P r

def readySlots (P : Slot → Process) : Set Slot := {i | (P i).state = .ready}

structure SchedOk (s : Sched) : Prop where
  lined : Lined s (readySlots s.cores)
  live : Live s.cores s.current s.nextPid s.waiters

section
variable {P : Slot → Process} {current : Option Slot} {nextPid n' b b' r : ℕ} {waiters : List ℕ}
  {i : Slot} {p' : Process}

theorem Pids.set (h : Pids P b) (hb : b ≤ b') (hp : p'.state ≠ .unused → p'.pid ≠ 0 ∧ p'.pid < b' ∧
    ∀ j ≠ i, (P j).state ≠ .unused → (P j).pid ≠ p'.pid) : Pids (update P i p') b' := by
  refine ⟨fun {j} hj => ?_, fun {j k} hj hk hjk => ?_⟩
  · by_cases hji : j = i
    · subst hji
      rw [update_self] at hj ⊢
      exact ⟨(hp hj).1, (hp hj).2.1⟩
    · rw [update_of_ne hji] at hj ⊢
      exact ⟨(h.pid hj).1, (h.pid hj).2.trans_le hb⟩
  by_cases hji : j = i
  · subst hji
    by_contra hkj
    rw [update_self] at hj hjk
    rw [update_of_ne (Ne.symm hkj)] at hk hjk
    exact (hp hj).2.2 k (Ne.symm hkj) hk hjk.symm
  rw [update_of_ne hji] at hj hjk
  by_cases hki : k = i
  · subst hki
    rw [update_self] at hk hjk
    exact absurd hjk ((hp hk).2.2 j hji hj)
  · rw [update_of_ne hki] at hk hjk
    exact h.inj hj hk hjk

theorem Gone.set (h : Gone P r) (hp : p'.state ≠ .unused → p'.pid = r → p'.state = .zombie) :
    Gone (update P i p') r :=
  (forall_update_iff P fun _ p => p.state ≠ .unused → p.pid = r → p.state = .zombie).mpr
    ⟨hp, fun j _ => h j⟩

theorem EntryOk.mono {p : Process} (h : EntryOk b waiters p) (hb : b ≤ b') : EntryOk b' waiters p :=
  ⟨h.awake, h.waiting, h.waiter, fun r hu hr => ⟨(h.reaping r hu hr).1,
    (h.reaping r hu hr).2.trans_le hb⟩⟩

/-- One entry changes, and pids may have been handed out. -/
theorem Live.set (h : Live P current nextPid waiters) (hlt : n' < 2 ^ 32)
    (hb : pidBound nextPid ≤ pidBound n')
    (hp : p'.state ≠ .unused → p'.pid ≠ 0 ∧ p'.pid < pidBound n' ∧
      ∀ j ≠ i, (P j).state ≠ .unused → (P j).pid ≠ p'.pid)
    (hc : current = some i → p'.state ≠ .unused) (he : EntryOk (pidBound n') waiters p')
    (hz : ∀ r < pidBound nextPid, Gone P r → p'.state ≠ .unused → p'.pid = r →
      p'.state = .zombie)
    (hr : ∀ r, p'.state ≠ .unused → p'.reaping = some r →
      p'.state = .blocked ∧ p'.blockedOn = r ∨ Gone (update P i p') r) :
    Live (update P i p') current n' waiters := by
  refine ⟨hlt, h.pids.set hb hp, fun {c} hc' => ?_,
    (forall_update_iff P fun _ => EntryOk (pidBound n') waiters).mpr
      ⟨he, fun j _ => (h.entry j).mono hb⟩,
    h.waiters_nodup, fun w hw => (h.waiters_old w hw).trans_le hb, fun j r hj hjr => ?_⟩
  · by_cases hci : c = i
    · subst hci
      rw [update_self]
      exact hc hc'
    · rw [update_of_ne hci]
      exact h.current hc'
  by_cases hji : j = i
  · subst hji
    rw [update_self] at hj hjr ⊢
    exact hr r hj hjr
  · rw [update_of_ne hji] at hj hjr ⊢
    exact (h.gone j r hj hjr).imp_right fun hg =>
      hg.set (hz r ((h.entry j).reaping r hj hjr).2 hg)

/-- A process changes, and keeps its pid. -/
theorem Live.update (h : Live P current nextPid waiters) (hpid : p'.pid = (P i).pid)
    (hlive : (P i).state ≠ .unused) (hst : p'.state ≠ .unused)
    (hzombie : (P i).state = .zombie → p'.state = .zombie)
    (he : EntryOk (pidBound nextPid) waiters p')
    (hr : ∀ r, p'.reaping = some r → p'.state = .blocked ∧ p'.blockedOn = r ∨ Gone P r) :
    Live (update P i p') current nextPid waiters := by
  have hz : ∀ r, Gone P r → p'.pid = r → p'.state = .zombie := fun r hg hpr =>
    hzombie (hg i hlive (hpid ▸ hpr))
  refine h.set h.nextPid_lt le_rfl (fun _ => ?_) (fun _ => hst) he (fun r _ hg _ => hz r hg)
    fun r _ hrr => (hr r hrr).imp_right fun hg => hg.set fun _ => hz r hg
  rw [hpid]
  exact ⟨(h.pids.pid hlive).1, (h.pids.pid hlive).2,
    fun j hj hu hjp => hj (h.pids.inj hu hlive hjp)⟩

theorem readySlots_insert (h : p'.state = .ready) :
    readySlots (update P i p') = insert i (readySlots P) := by
  ext j
  by_cases hj : j = i
  · subst hj
    simp [readySlots, h]
  · simp [readySlots, hj]

theorem readySlots_sdiff (h : p'.state ≠ .ready) :
    readySlots (update P i p') = readySlots P \ {i} := by
  ext j
  by_cases hj : j = i
  · subst hj
    simp [readySlots, h]
  · simp [readySlots, hj]

end

section
variable {s s' s'' : Sched} {i n : Slot} {f : Process → Process}

theorem Sched.mem_readySlots : i ∈ readySlots s.cores ↔ (s.procs i).state = .ready := Iff.rfl

theorem SchedOk.of_relinked (h : Live s.cores s.current s.nextPid s.waiters)
    (hr : Relinked s s') (hq : Lined s' (readySlots s.cores)) : SchedOk s' := by
  refine ⟨hr.cores ▸ hq, ?_⟩
  rwa [hr.cores, hr.current, hr.nextPid, hr.waiters]

/-- A process that is not ready changes into one that is not. -/
theorem SchedOk.update_idle (h : SchedOk s) (hold : (s.procs i).state ≠ .ready)
    (hnew : (f (s.procs i)).core.state ≠ .ready)
    (hl : Live (update s.cores i (f (s.procs i)).core) s.current s.nextPid s.waiters) :
    SchedOk (s.update i f) := by
  have hi : i ∉ readySlots s.cores := hold
  rw [← Sched.cores_update] at hl
  refine ⟨?_, hl⟩
  rw [Sched.cores_update, readySlots_sdiff hnew, Set.sdiff_singleton_eq_self hi]
  exact h.lined.update (.inl hi)

/-! ### Waking -/

theorem Sched.procGet_none {r : ℕ} (h : s.procGet r = none) {j : Slot}
    (hj : (s.procs j).state ≠ .unused) : (s.procs j).pid ≠ r := by
  intro hr
  have := List.find?_eq_none.mp h j (List.mem_finRange j)
  simp [hr, hj] at this

theorem Sched.procGet_some {r : ℕ} (h : s.procGet r = some i) :
    (s.procs i).pid = r ∧ (s.procs i).state ≠ .unused := by
  simpa using List.find?_some h

structure Woken (s s' : Sched) : Prop where
  ok : SchedOk s'
  current : s'.current = s.current
  ready : ∀ {j}, (s.procs j).state = .ready → (s'.procs j).state = .ready
  gone : ∀ {r}, Gone s.cores r → Gone s'.cores r

theorem SchedOk.woken (h : SchedOk s) : Woken s s := ⟨h, rfl, id, id⟩

theorem Woken.trans (h : Woken s s') (h' : Woken s' s'') : Woken s s'' :=
  ⟨h'.ok, h'.current.trans h.current, fun hj => h'.ready (h.ready hj),
    fun hr => h'.gone (h.gone hr)⟩

theorem Sched.cores_makeReady (hr : Relinked (s.update i fun p => { f p with state := .ready })
      (s.makeReady i f)) :
    (s.makeReady i f).cores =
      Function.update s.cores i ({ f (s.procs i) with state := .ready } : Process).core :=
  hr.cores.trans (s.cores_update i _)

theorem SchedOk.makeReady (h : SchedOk s) (hnext : (f (s.procs i)).next = (s.procs i).next)
    (hintent : (f (s.procs i)).intent = (s.procs i).intent)
    (hpid : (f (s.procs i)).pid = (s.procs i).pid)
    (hreap : (f (s.procs i)).reaping = (s.procs i).reaping)
    (hst : (s.procs i).state = .blocked ∨ (s.procs i).state = .running)
    (h0 : (f (s.procs i)).blockedOn = 0) (h1 : (f (s.procs i)).wakeTick = 0)
    (hw : (s.procs i).pid ∉ s.waiters)
    (hr : ∀ r, (s.procs i).reaping = some r → Gone s.cores r) :
    Woken s (s.makeReady i f) ∧ ((s.makeReady i f).procs i).state = .ready := by
  have hlive : (s.cores i).state ≠ .unused := by
    rcases hst with hst | hst <;> exact fun hu => by cases hst.symm.trans hu
  have hzombie : (s.cores i).state ≠ .zombie := by
    rcases hst with hst | hst <;> exact fun hu => by cases hst.symm.trans hu
  have hlined := h.lined.update (i := i) (f := fun p => { f p with state := .ready })
    (.inr ⟨hnext, hintent⟩)
  obtain ⟨hrel, hlined⟩ := hlined.enqueue i
  have hcores := Sched.cores_makeReady hrel
  have hready : readySlots (s.makeReady i f).cores = insert i (readySlots s.cores) := by
    rw [hcores, readySlots_insert rfl]
  have hself : ((s.makeReady i f).cores i).state = .ready := by rw [hcores, update_self]; rfl
  refine ⟨⟨⟨hready ▸ hlined, ?_⟩, hrel.current, fun {j} hj => ?_, fun {r} hg => ?_⟩, hself⟩
  · have hcur : (s.makeReady i f).current = s.current := hrel.current
    have hn : (s.makeReady i f).nextPid = s.nextPid := hrel.nextPid
    have hws : (s.makeReady i f).waiters = s.waiters := hrel.waiters
    rw [hcores, hcur, hn, hws]
    refine h.live.update hpid hlive ProcState.noConfusion (fun hz => absurd hz hzombie)
      ⟨fun _ => ⟨h0, h1⟩, fun hb => (by cases hb), fun _ hm => absurd (hpid ▸ hm) hw,
        fun r _ hrr => ?_⟩
      fun r hrr => .inr (hr r (hreap.symm.trans hrr))
    exact (h.live.entry i).reaping r hlive (hreap.symm.trans hrr)
  · have hmem : j ∈ readySlots (s.makeReady i f).cores := hready ▸ Set.mem_insert_of_mem i hj
    exact hmem
  · rw [hcores]
    exact hg.set fun _ hpr => absurd (hg i hlive (hpid.symm.trans hpr)) hzombie

theorem SchedOk.wake_waiter (h : SchedOk s) (hb : (s.procs i).state = .blocked)
    (hon : (s.procs i).blockedOn ≠ 0) (hgone : Gone s.cores (s.procs i).blockedOn) :
    Woken s (s.makeReady i fun p => { p with blockedOn := 0 }) := by
  obtain ⟨hwt, hreap⟩ := (h.live.entry i).waiting hb hon
  refine (h.makeReady (f := fun p => { p with blockedOn := 0 }) rfl rfl rfl rfl (.inl hb) rfl hwt
    (fun hm => ?_) fun r hr => ?_).1
  · exact hon ((h.live.entry i).waiter (hb ▸ ProcState.noConfusion) hm).2.1
  obtain rfl : (s.procs i).blockedOn = r := Option.some.inj (hreap.symm.trans hr)
  exact hgone

theorem SchedOk.gone_of_zombie (h : SchedOk s) {c : Slot} (hz : (s.procs c).state = .zombie) :
    Gone s.cores (s.procs c).pid := by
  intro j hj hjr
  obtain rfl := h.live.pids.inj (i := j) (j := c) hj (hz ▸ ProcState.noConfusion) hjr
  exact hz

theorem Sched.unblockWaiter_cases (s : Sched) (i : Slot) : s.unblockWaiter i = s ∨
    (s.procs i).state = .blocked ∧ (s.procs i).blockedOn ≠ 0 ∧
      (∀ c, s.procGet (s.procs i).blockedOn = some c → (s.procs c).state = .zombie) ∧
      s.unblockWaiter i = s.makeReady i fun p => { p with blockedOn := 0 } := by
  unfold Sched.unblockWaiter
  by_cases hc : (s.procs i).state ≠ .blocked ∨ (s.procs i).blockedOn = 0
  · exact .inl (if_pos hc)
  rw [if_neg hc]
  push Not at hc
  dsimp only
  split_ifs with hwake
  · refine .inr ⟨hc.1, hc.2, fun c hg => ?_, rfl⟩
    rw [hg] at hwake
    exact of_decide_eq_true hwake
  · exact .inl rfl

theorem Sched.unblockSleeper_cases (s : Sched) (i : Slot) : s.unblockSleeper i = s ∨
    (s.procs i).state = .blocked ∧ (s.procs i).wakeTick ≠ 0 ∧
      s.unblockSleeper i = s.makeReady i fun p => { p with wakeTick := 0 } := by
  unfold Sched.unblockSleeper
  by_cases hc : (s.procs i).state ≠ .blocked ∨ (s.procs i).wakeTick = 0
  · exact .inl (if_pos hc)
  rw [if_neg hc]
  push Not at hc
  split_ifs with hwake
  · exact .inr ⟨hc.1, hc.2, rfl⟩
  · exact .inl rfl

theorem SchedOk.unblockWaiter (h : SchedOk s) (i : Slot) : Woken s (s.unblockWaiter i) := by
  rcases s.unblockWaiter_cases i with he | ⟨hb, hon, hz, he⟩ <;> rw [he]
  · exact h.woken
  refine h.wake_waiter hb hon ?_
  cases hg : s.procGet (s.procs i).blockedOn with
  | none => exact fun j hj hjr => absurd hjr (Sched.procGet_none hg hj)
  | some c =>
    rw [← (Sched.procGet_some hg).1]
    exact h.gone_of_zombie (hz c hg)

theorem SchedOk.unblockSleeper (h : SchedOk s) (i : Slot) : Woken s (s.unblockSleeper i) := by
  rcases s.unblockSleeper_cases i with he | ⟨hb, ht, he⟩ <;> rw [he]
  · exact h.woken
  have hentry := h.live.entry i
  have hu : (s.cores i).state ≠ .unused := fun hu => by cases hb.symm.trans hu
  have hon : (s.procs i).blockedOn = 0 := by
    by_contra hne
    exact ht (hentry.waiting hb hne).1
  refine (h.makeReady (f := fun p => { p with wakeTick := 0 }) rfl rfl rfl rfl (.inl hb) hon rfl
    (fun hm => ht (hentry.waiter hu hm).2.2.1) fun r hr => ?_).1
  refine (h.live.gone i r hu hr).resolve_left fun h3 => ?_
  exact (hentry.reaping r hu hr).1 (h3.2.symm.trans hon)

theorem SchedOk.foldl {g : Sched → Slot → Sched} (I : Sched → Prop)
    (hI : ∀ s s', Woken s s' → I s → I s') (hg : ∀ s i, SchedOk s → I s → Woken s (g s i))
    (l : List Slot) (h : SchedOk s) (hs : I s) : Woken s (l.foldl g s) := by
  induction l generalizing s with
  | nil => exact h.woken
  | cons a l ih =>
    have h1 := hg s a h hs
    exact h1.trans (ih h1.ok (hI s _ h1 hs))

theorem SchedOk.unblockWaiters (h : SchedOk s) : Woken s s.unblockWaiters :=
  SchedOk.foldl (fun _ => True) (fun _ _ _ _ => trivial) (fun _ i hs _ => hs.unblockWaiter i) _ h
    trivial

theorem SchedOk.unblockSleepers (h : SchedOk s) : Woken s s.unblockSleepers :=
  SchedOk.foldl (fun _ => True) (fun _ _ _ _ => trivial) (fun _ i hs _ => hs.unblockSleeper i) _ h
    trivial

theorem SchedOk.exitWake {pid : ℕ} (h : SchedOk s) (h0 : pid ≠ 0) (hg : Gone s.cores pid)
    (i : Slot) : Woken s (s.exitWake pid i) := by
  unfold Sched.exitWake
  split_ifs with hc
  · obtain ⟨hb, rfl⟩ := hc
    exact h.wake_waiter hb h0 hg
  · exact h.woken

/-- A process that is in no queue and waits for nothing. -/
structure Unbound (s : Sched) (i : Slot) : Prop where
  unused : (s.procs i).state ≠ .unused
  ready : (s.procs i).state ≠ .ready
  zombie : (s.procs i).state ≠ .zombie
  blockedOn : (s.procs i).blockedOn = 0
  wakeTick : (s.procs i).wakeTick = 0
  waiters : (s.procs i).pid ∉ s.waiters
  reaping : (s.procs i).reaping = none

theorem Unbound.update (hi : Unbound s i) (h : SchedOk s)
    (hpid : (f (s.procs i)).pid = (s.procs i).pid) (hu : (f (s.procs i)).state ≠ .unused)
    (hr : (f (s.procs i)).state ≠ .ready)
    (hawake : (f (s.procs i)).state ≠ .blocked →
      (f (s.procs i)).blockedOn = 0 ∧ (f (s.procs i)).wakeTick = 0)
    (hwaiting : (f (s.procs i)).state = .blocked → (f (s.procs i)).blockedOn ≠ 0 →
      (f (s.procs i)).wakeTick = 0 ∧ (f (s.procs i)).reaping = some (f (s.procs i)).blockedOn)
    (hreaping : ∀ r, (f (s.procs i)).reaping = some r → (r ≠ 0 ∧ r < pidBound s.nextPid) ∧
      ((f (s.procs i)).state = .blocked ∧ (f (s.procs i)).blockedOn = r ∨ Gone s.cores r)) :
    SchedOk (s.update i f) :=
  h.update_idle hi.ready hr (h.live.update hpid hi.unused hu (fun hz => absurd hz hi.zombie)
    ⟨hawake, hwaiting, fun _ hm => absurd (hpid ▸ hm) hi.waiters, fun r _ hrr => (hreaping r hrr).1⟩
    fun r hrr => (hreaping r hrr).2)

theorem Unbound.exit (hi : Unbound s i) (h : SchedOk s) : SchedOk (s.procExit (s.procs i).pid) := by
  unfold Sched.procExit
  cases hg : s.procGet (s.procs i).pid with
  | none => exact absurd rfl (Sched.procGet_none hg hi.unused)
  | some j =>
    obtain ⟨hpj, hj⟩ := Sched.procGet_some hg
    obtain rfl : j = i := h.live.pids.inj hj hi.unused hpj
    have hok : SchedOk (s.setState j .zombie) :=
      hi.update h rfl ProcState.noConfusion ProcState.noConfusion
        (fun _ => ⟨hi.blockedOn, hi.wakeTick⟩) (fun hb => by cases hb)
        fun r hr => by cases hi.reaping.symm.trans hr
    have hp : (s.setState j .zombie).procs j = { s.procs j with state := .zombie } :=
      Sched.update_self _ _ _
    have hgone := hok.gone_of_zombie (c := j) (by rw [hp])
    rw [hp] at hgone
    exact (SchedOk.foldl (Gone ·.cores (s.procs j).pid) (fun _ _ hw hI => hw.gone hI)
      (fun _ k hs hI => hs.exitWake (h.live.pids.pid hi.unused).1 hI k) _ hok hgone).ok

end
end Exploidus.Proc
