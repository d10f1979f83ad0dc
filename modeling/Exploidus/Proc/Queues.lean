import Exploidus.Proc.Scheduler

/-! The ready queues as lists of slots, and what the queue operations do to them. -/
namespace Exploidus.Proc
open Linked Sched List

/-- The `sched_next` pointers. -/
def Sched.nextOf (s : Sched) : Slot → Option Slot := fun i => (s.procs i).next

def Process.core (p : Process) : Process := { p with next := none }

def Sched.cores (s : Sched) : Slot → Process := fun i => (s.procs i).core

/-- The queues are lists that end, and they hold the processes of `R`, each in the queue of its
intent. -/
def Lined (s : Sched) (R : Set Slot) : Prop :=
  ∃ qs : Intent → List Slot, (∀ q, Chain s.nextOf (s.queues q) (qs q)) ∧
    ∀ q p, p ∈ qs q ↔ p ∈ R ∧ (s.procs p).intent = q

def InQueue (s : Sched) (i : Slot) : Prop :=
  ∃ l, Chain s.nextOf (s.queues (s.procs i).intent) l ∧ i ∈ l

structure Relinked (s s' : Sched) : Prop where
  cores : s'.cores = s.cores
  current : s'.current = s.current
  nextPid : s'.nextPid = s.nextPid
  uptime : s'.uptime = s.uptime
  waiters : s'.waiters = s.waiters

section
variable {s s' s'' : Sched} {R : Set Slot} {q : Intent} {p z i : Slot} {l : List Slot}
  {f : Process → Process}

theorem Relinked.refl (s : Sched) : Relinked s s := ⟨rfl, rfl, rfl, rfl, rfl⟩

section
variable (h : Relinked s s')
include h

theorem Relinked.trans (h' : Relinked s' s'') : Relinked s s'' :=
  ⟨h'.cores.trans h.cores, h'.current.trans h.current, h'.nextPid.trans h.nextPid,
    h'.uptime.trans h.uptime, h'.waiters.trans h.waiters⟩

theorem Relinked.core (i : Slot) : (s'.procs i).core = (s.procs i).core :=
  congrFun h.cores i

theorem Relinked.state (i : Slot) : (s'.procs i).state = (s.procs i).state := by
  have := congrArg Process.state (h.core i)
  exact this

theorem Relinked.pid (i : Slot) : (s'.procs i).pid = (s.procs i).pid := by
  have := congrArg Process.pid (h.core i)
  exact this

theorem Relinked.intent (i : Slot) : (s'.procs i).intent = (s.procs i).intent := by
  have := congrArg Process.intent (h.core i)
  exact this

end

theorem Sched.cores_update (s : Sched) (i : Slot) (f : Process → Process) :
    (s.update i f).cores = Function.update s.cores i (f (s.procs i)).core := by
  funext j
  by_cases hj : j = i
  · subst hj
    simp [cores, update]
  · simp [cores, update, hj]

theorem Sched.nextOf_update (s : Sched) (i : Slot) (f : Process → Process) :
    (s.update i f).nextOf = Function.update s.nextOf i (f (s.procs i)).next := by
  funext j
  by_cases hj : j = i
  · subst hj
    simp [nextOf, update]
  · simp [nextOf, update, hj]

theorem Sched.nextOf_update_same (hf : (f (s.procs i)).next = (s.procs i).next) :
    (s.update i f).nextOf = s.nextOf := by
  have h : s.nextOf i = (s.procs i).next := rfl
  rw [nextOf_update, hf, ← h, Function.update_eq_self]

theorem Sched.relinked_setNext (s : Sched) (i : Slot) (n : Option Slot) :
    Relinked s (s.setNext i n) := by
  refine ⟨?_, rfl, rfl, rfl, rfl⟩
  have hcore : ({ s.procs i with next := n } : Process).core = s.cores i := rfl
  rw [setNext, cores_update, hcore, Function.update_eq_self]

theorem Sched.nextOf_setNext (s : Sched) (i : Slot) (n : Option Slot) :
    (s.setNext i n).nextOf = Function.update s.nextOf i n := nextOf_update s i _

theorem Sched.relinked_setQueue (s : Sched) (q : Intent) (h : Option Slot) :
    Relinked s (s.setQueue q h) := ⟨rfl, rfl, rfl, rfl, rfl⟩

theorem Sched.update_self (s : Sched) (i : Slot) (f : Process → Process) :
    (s.update i f).procs i = f (s.procs i) := Function.update_self _ _ _

theorem Sched.update_of_ne {j : Slot} (h : j ≠ i) : (s.update i f).procs j = s.procs j :=
  Function.update_of_ne h _ _

theorem Lined.inQueue_iff (h : Lined s R) : InQueue s i ↔ i ∈ R := by
  obtain ⟨qs, hc, hm⟩ := h
  constructor
  · rintro ⟨l, hl, hi⟩
    rw [hl.unique (hc _), hm] at hi
    exact hi.1
  · exact fun hi => ⟨_, hc _, (hm _ _).mpr ⟨hi, rfl⟩⟩

theorem Lined.update (h : Lined s R) (hf : i ∉ R ∨ (f (s.procs i)).next = (s.procs i).next ∧
    (f (s.procs i)).intent = (s.procs i).intent) : Lined (s.update i f) R := by
  obtain ⟨qs, hc, hm⟩ := h
  refine ⟨qs, fun q => ?_, fun q p => ?_⟩
  · rcases hf with hi | ⟨hn, -⟩
    · rw [nextOf_update]
      exact (hc q).update (fun hq => hi ((hm q i).mp hq).1) _
    · rw [nextOf_update_same hn]
      exact hc q
  · rw [hm]
    refine and_congr_right fun hp => ?_
    by_cases hpi : p = i
    · subst hpi
      rw [update_self, (hf.resolve_left fun hi => hi hp).2]
    · rw [update_of_ne hpi]

theorem length_le_slots (h : l.Nodup) : l.length ≤ maxProcesses := by
  have := h.length_le_card
  simpa [maxProcesses] using this

/-! ### Searching -/

theorem Sched.holds_eq {h : Option Slot} {guard : ℕ} (hc : Chain s.nextOf h l)
    (hlen : l.length < guard) : s.holds p guard h = some (decide (p ∈ l)) := by
  induction l generalizing h guard with
  | nil =>
    obtain rfl : h = none := hc
    cases guard <;> rfl
  | cons a l ih =>
    obtain ⟨rfl, hc⟩ := hc
    obtain ⟨guard, rfl⟩ : ∃ k, guard = k + 1 := ⟨guard - 1, by omega⟩
    rw [holds]
    by_cases ha : a = p
    · simp [ha]
    simp only [length_cons] at hlen
    have hpa : p ≠ a := fun h => ha h.symm
    have hnext : (s.procs a).next = s.nextOf a := rfl
    rw [if_neg ha, if_neg (by omega), hnext, ih hc (by omega)]
    simp [hpa]

theorem Sched.lastOf_eq {guard : ℕ} {h : Slot} (hc : Chain s.nextOf (some h) (l ++ [z]))
    (hlen : l.length ≤ guard) : s.lastOf guard h = some z := by
  induction l generalizing h guard with
  | nil =>
    obtain ⟨hz, hnil⟩ := hc
    obtain rfl := Option.some.inj hz
    have hnext : (s.procs h).next = none := hnil
    unfold lastOf
    rw [hnext]
  | cons a l ih =>
    obtain ⟨ha, hc⟩ := hc
    obtain rfl := Option.some.inj ha
    obtain ⟨guard, rfl⟩ : ∃ k, guard = k + 1 := ⟨guard - 1, by simp at hlen; omega⟩
    have hn : s.nextOf h = (l ++ [z]).head? := hc.head_eq
    obtain ⟨b, hb⟩ : ∃ b, s.nextOf h = some b := by
      cases l with
      | nil => exact ⟨z, hn⟩
      | cons b l => exact ⟨b, hn⟩
    have hnext : (s.procs h).next = some b := hb
    unfold lastOf
    rw [hnext]
    rw [hb] at hc
    exact ih hc (by simp at hlen; omega)

/-! ### Putting a process in its queue -/

/-- `sched_enqueue` puts a process in its queue, if it is not there. -/
theorem Lined.enqueue (h : Lined s R) (i : Slot) :
    Relinked s (s.enqueue i) ∧ Lined (s.enqueue i) (insert i R) := by
  obtain ⟨qs, hc, hm⟩ := h
  have hcq := hc (s.procs i).intent
  have hlen := length_le_slots hcq.nodup
  have hholds := holds_eq (p := i) hcq (Nat.lt_succ_of_le hlen)
  by_cases hi : i ∈ R
  · have heq : s.enqueue i = s := by
      unfold Sched.enqueue
      dsimp only
      rw [hholds, decide_eq_true ((hm _ _).mpr ⟨hi, rfl⟩)]
    rw [heq, Set.insert_eq_of_mem hi]
    exact ⟨.refl s, qs, hc, hm⟩
  have hnot : ∀ q, i ∉ qs q := fun q hq => hi ((hm q i).mp hq).1
  have hchain1 : ∀ q, Chain (s.setNext i none).nextOf (s.queues q) (qs q) := fun q => by
    rw [nextOf_setNext]
    exact (hc q).update (hnot q) none
  suffices hnew : Relinked s (s.enqueue i) ∧ ∀ q, Chain (s.enqueue i).nextOf
      ((s.enqueue i).queues q) (if q = (s.procs i).intent then qs q ++ [i] else qs q) by
    refine ⟨hnew.1, _, hnew.2, fun q p => ?_⟩
    rw [hnew.1.intent, Set.mem_insert_iff]
    split_ifs with hq
    · rw [mem_append, mem_singleton, hm]
      grind
    · rw [hm]
      grind
  unfold Sched.enqueue
  dsimp only
  rw [hholds, decide_eq_false (hnot _)]
  dsimp only
  have hqueues : (s.setNext i none).queues = s.queues := rfl
  rw [hqueues]
  generalize (s.procs i).intent = q at *
  rcases eq_nil_or_concat' (qs q) with hnil | ⟨l, z, hlz⟩
  · have hempty : s.queues q = none := by rw [hcq.head_eq, hnil]; rfl
    rw [hempty]
    refine ⟨(s.relinked_setNext i none).trans (relinked_setQueue _ _ _), fun q' => ?_⟩
    have hnext : ((s.setNext i none).setQueue q (some i)).nextOf = (s.setNext i none).nextOf := rfl
    rw [hnext]
    split_ifs with hqq
    · subst hqq
      have hhead : ((s.setNext i none).setQueue q' (some i)).queues q' = some i :=
        Function.update_self _ _ _
      rw [hnil, hhead]
      exact ⟨rfl, by rw [nextOf_setNext, Function.update_self]; rfl⟩
    · have hhead : ((s.setNext i none).setQueue q (some i)).queues q' = s.queues q' :=
        Function.update_of_ne hqq _ _
      rw [hhead]
      exact hchain1 q'
  obtain ⟨a, ha⟩ : ∃ a, s.queues q = some a := by
    rw [hcq.head_eq, hlz]
    cases l with
    | nil => exact ⟨z, rfl⟩
    | cons a l => exact ⟨a, rfl⟩
  have hcz : Chain (s.setNext i none).nextOf (some a) (l ++ [z]) := by
    rw [← ha, ← hlz]
    exact hchain1 q
  have hlast : (s.setNext i none).lastOf maxProcesses a = some z := by
    refine lastOf_eq hcz ?_
    rw [hlz, length_append, length_singleton] at hlen
    omega
  rw [ha]
  dsimp only
  rw [hlast]
  refine ⟨(s.relinked_setNext i none).trans (relinked_setNext _ _ _), fun q' => ?_⟩
  have hhead : ((s.setNext i none).setNext z (some i)).queues = s.queues := rfl
  rw [hhead, nextOf_setNext]
  split_ifs with hqq
  · rw [hqq, ha, hlz]
    refine hcz.snoc (hlz ▸ hnot q) ?_
    rw [nextOf_setNext, Function.update_self]
  have hzq : z ∈ qs q := by
    rw [hlz]
    simp
  refine (hchain1 q').update (fun hz => hqq ?_) _
  exact ((hm _ _).mp hz).2.symm.trans ((hm _ _).mp hzq).2

/-! ### Taking a process off its queue -/

theorem Sched.removeFrom_some (s : Sched) (q : Intent) (p cur : Slot) (fuel : ℕ)
    (prev : Option Slot) : s.removeFrom q p (fuel + 1) prev (some cur) = if cur = p then
        (match prev with
          | some z => s.setNext z (s.procs cur).next
          | none => s.setQueue q (s.procs cur).next).setNext cur none
      else s.removeFrom q p fuel (some cur) (s.procs cur).next := by
  cases prev <;> rfl

theorem Sched.removeFrom_eq {pre rest : List Slot} {fuel : ℕ}
    (hc : Chain s.nextOf (s.queues q) (pre ++ rest)) (hp : p ∉ pre) (hfuel : rest.length < fuel) :
    Relinked s (s.removeFrom q p fuel pre.getLast? rest.head?) ∧
      Chain (s.removeFrom q p fuel pre.getLast? rest.head?).nextOf
        ((s.removeFrom q p fuel pre.getLast? rest.head?).queues q) ((pre ++ rest).erase p) ∧
      (∀ q', q' ≠ q → (s.removeFrom q p fuel pre.getLast? rest.head?).queues q' = s.queues q') ∧
      ∀ i, i ∉ pre ++ rest →
        (s.removeFrom q p fuel pre.getLast? rest.head?).nextOf i = s.nextOf i := by
  obtain ⟨fuel, rfl⟩ : ∃ k, fuel = k + 1 := ⟨fuel - 1, by omega⟩
  induction rest generalizing pre fuel with
  | nil =>
    rw [append_nil, erase_of_not_mem hp]
    rw [append_nil] at hc
    exact ⟨.refl s, hc, fun _ _ => rfl, fun _ _ => rfl⟩
  | cons a rest ih =>
    have hnodup := hc.nodup
    rw [head?_cons, removeFrom_some]
    by_cases hap : a = p
    · subst hap
      have herase : (pre ++ a :: rest).erase a = pre ++ rest := by
        rw [erase_append_right _ hp, erase_cons_head]
      have hnext : (s.procs a).next = s.nextOf a := rfl
      rw [if_pos rfl, herase, hnext]
      rcases eq_nil_or_concat' pre with rfl | ⟨pre', z, rfl⟩
      · have hhead : ((s.setQueue q (s.nextOf a)).setNext a none).queues q = s.nextOf a :=
          Function.update_self _ _ _
        have hno : (s.setQueue q (s.nextOf a)).nextOf = s.nextOf := rfl
        simp only [getLast?_nil]
        refine ⟨(relinked_setQueue _ _ _).trans (relinked_setNext _ _ _), ?_,
          fun q' hq' => Function.update_of_ne hq' _ _, fun i hi => ?_⟩
        · rw [hhead, nextOf_setNext, hno]
          exact Chain.update hc.2 (nodup_cons.mp hnodup).1 none
        · have hia : i ≠ a := by
            rintro rfl
            simp at hi
          rw [nextOf_setNext, Function.update_of_ne hia, hno]
      · have hl : (pre' ++ [z]).getLast? = some z := by simp
        rw [hl]
        refine ⟨(relinked_setNext _ _ _).trans (relinked_setNext _ _ _), ?_,
          fun q' _ => rfl, fun i hi => ?_⟩
        · have hhead : ((s.setNext z (s.nextOf a)).setNext a none).queues q = s.queues q := rfl
          rw [hhead, nextOf_setNext, nextOf_setNext, append_assoc, singleton_append]
          rw [append_assoc, singleton_append] at hc
          exact hc.unlink
        have hia : i ≠ a := by
          rintro rfl
          simp at hi
        have hiz : i ≠ z := by
          rintro rfl
          simp at hi
        rw [nextOf_setNext, nextOf_setNext, Function.update_of_ne hia, Function.update_of_ne hiz]
    · rw [if_neg hap]
      have hhead : (s.procs a).next = rest.head? := by
        have : Chain s.nextOf (s.nextOf a) rest := hc.after
        exact this.head_eq
      have hlast : some a = (pre ++ [a]).getLast? := by simp
      have happ : pre ++ a :: rest = pre ++ [a] ++ rest := by simp
      obtain ⟨fuel, rfl⟩ : ∃ k, fuel = k + 1 := ⟨fuel - 1, by simp at hfuel; omega⟩
      rw [hhead, hlast, happ]
      rw [happ] at hc
      exact ih hc (by simp [hp, Ne.symm hap]) fuel (by simp at hfuel; omega)

/-- `sched_dequeue` takes a process off its queue, if it is there. -/
theorem Lined.dequeue (h : Lined s R) (i : Slot) :
    Relinked s (s.dequeue i) ∧ Lined (s.dequeue i) (R \ {i}) := by
  obtain ⟨qs, hc, hm⟩ := h
  have hcq := hc (s.procs i).intent
  obtain ⟨hr, hch, hother, hnext⟩ := @removeFrom_eq s (s.procs i).intent i [] _ _ hcq
    not_mem_nil (Nat.lt_succ_of_le (length_le_slots hcq.nodup))
  rw [← hcq.head_eq] at hr hch hother hnext
  refine ⟨hr, fun q => (qs q).erase i, fun q => ?_, fun q p => ?_⟩
  · by_cases hq : q = (s.procs i).intent
    · rwa [hq]
    have herase := erase_of_not_mem fun hi => hq ((hm q i).mp hi).2.symm
    have hhead : (s.dequeue i).queues q = s.queues q := hother q hq
    dsimp only
    rw [herase, hhead]
    exact (hc q).congr fun p hp => hnext p fun hp' =>
      hq (((hm _ _).mp hp).2.symm.trans ((hm _ _).mp hp').2)
  · have hintent : ((s.dequeue i).procs p).intent = (s.procs p).intent := hr.intent p
    rw [(hc q).nodup.mem_erase_iff, hm, hintent, Set.mem_sdiff, Set.mem_singleton_iff]
    tauto

theorem mem_queueOrder (q : Intent) : q ∈ queueOrder := by
  cases q <;> decide

theorem Lined.schedNext_some {n : Slot} (h : Lined s R) (hn : s.schedNext = some n) : n ∈ R := by
  obtain ⟨qs, hc, hm⟩ := h
  obtain ⟨-, q, -, -, hq, -⟩ := findSome?_eq_some_iff.mp hn
  refine ((hm q n).mp (mem_of_mem_head? ?_)).1
  rw [← (hc q).head_eq, hq]
  rfl

theorem Sched.schedNext_none (h : s.schedNext = none) (q : Intent) : s.queues q = none :=
  findSome?_eq_none_iff.mp h q (mem_queueOrder q)

theorem Lined.schedNext_none (h : Lined s R) (hn : s.schedNext = none) : i ∉ R := by
  obtain ⟨qs, hc, hm⟩ := h
  intro hi
  have hmem := (hm _ i).mpr ⟨hi, rfl⟩
  have hhead := (hc (s.procs i).intent).head_eq
  rw [Sched.schedNext_none hn] at hhead
  rw [head?_eq_none_iff.mp hhead.symm] at hmem
  cases hmem

end
end Exploidus.Proc
