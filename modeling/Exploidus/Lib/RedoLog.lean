import Exploidus.Lib.WriteLog

/-! A single-slot redo log on a block store: contents go to the log's slots, a header
write commits them, the home blocks are updated, the header is cleared. Recovery redoes
a committed transaction. The results are about every stop between two writes. -/
namespace RedoLog
open WriteLog Function List
variable {α : Type*}

structure Format (α : Type*) where
  /-- number of slots after the header block -/
  cap : ℕ
  /-- home block numbers stay below this bound -/
  bound : ℕ
  header : List ℕ → α
  clear : α
  parse : α → Option (List ℕ)
  parse_header : ∀ ts, ts.length ≤ cap → (∀ t ∈ ts, t < bound) → parse (header ts) = some ts
  parse_clear : parse clear = none

variable (F : Format α) (j : ℕ)

/-- The header block `j` and the slots behind it. -/
def InLog (x : ℕ) : Prop := j ≤ x ∧ x < j + 1 + F.cap
  deriving Decidable

/-- The contents of a transaction in the slots from number `i` on. -/
def slotWrites : ℕ → List (ℕ × α) → List (ℕ × α)
  | _, [] => []
  | i, p :: t => (j + 1 + i, p.2) :: slotWrites (i + 1) t

def commitWrites (t : List (ℕ × α)) : List (ℕ × α) :=
  slotWrites j 0 t ++ (j, F.header (t.map Prod.fst)) :: (t ++ [(j, F.clear)])

/-- The home writes of a recovery that finds the targets `ts`, from slot `i` on. Each slot
is read when its turn comes. -/
def redoWrites : (ℕ → α) → ℕ → List ℕ → List (ℕ × α)
  | _, _, [] => []
  | d, i, b :: ts =>
    (b, d (j + 1 + i)) :: redoWrites (update d b (d (j + 1 + i))) (i + 1) ts

def replayWrites (d : ℕ → α) : List (ℕ × α) :=
  match F.parse (d j) with
  | none => []
  | some ts => redoWrites j d 0 ts ++ [(j, F.clear)]

def recover (d : ℕ → α) : ℕ → α := applyWrites d (replayWrites F j d)

def Stopped (d d' : ℕ → α) : Prop := ∃ k, d' = applyWrites d ((replayWrites F j d).take k)

def AgreeHome (d e : ℕ → α) : Prop := ∀ x, ¬ InLog F j x → d x = e x

theorem AgreeHome.symm {d e : ℕ → α} (h : AgreeHome F j d e) : AgreeHome F j e d :=
  fun x hx => (h x hx).symm

structure Valid (t : List (ℕ × α)) : Prop where
  length_le : t.length ≤ F.cap
  nodup : (t.map Prod.fst).Nodup
  home : ∀ p ∈ t, ¬ InLog F j p.1
  lt_bound : ∀ p ∈ t, p.1 < F.bound

/-- Nothing is committed and the home blocks are those of `post`. -/
structure Settled (post d : ℕ → α) : Prop where
  clear : F.parse (d j) = none
  agree : AgreeHome F j d post

structure Committed (t : List (ℕ × α)) (d0 d : ℕ → α) : Prop where
  header : F.parse (d j) = some (t.map Prod.fst)
  slots : ∀ i (hi : i < t.length), d (j + 1 + i) = t[i].2
  frame : ∀ x, ¬ InLog F j x → (∀ p ∈ t, p.1 ≠ x) → d x = d0 x

theorem length_slotWrites (i : ℕ) (t : List (ℕ × α)) : (slotWrites j i t).length = t.length := by
  induction t generalizing i with
  | nil => rfl
  | cons p t ih => simp [slotWrites, ih]

theorem mem_slotWrites {i : ℕ} {t : List (ℕ × α)} {w : ℕ × α} (h : w ∈ slotWrites j i t) :
    j + 1 + i ≤ w.1 ∧ w.1 < j + 1 + i + t.length := by
  induction t generalizing i with
  | nil => simp [slotWrites] at h
  | cons p t ih =>
    rw [slotWrites, mem_cons] at h
    rcases h with rfl | h
    · simp
    have := ih h
    simp only [length_cons]
    omega

theorem applyWrites_slotWrites (d : ℕ → α) (i : ℕ) (t : List (ℕ × α)) (k : ℕ)
    (hk : k < t.length) : applyWrites d (slotWrites j i t) (j + 1 + (i + k)) = t[k].2 := by
  induction t generalizing d i k with
  | nil => simp at hk
  | cons p t ih =>
    rw [slotWrites, applyWrites_cons]
    cases k with
    | zero =>
      rw [applyWrites_of_forall_ne (fun w hw => by have := mem_slotWrites j hw; omega)]
      simp
    | succ k =>
      have h := ih (update d (j + 1 + i) p.2) (i + 1) k (by simpa using hk)
      rw [show i + (k + 1) = i + 1 + k by omega]
      simpa using h

theorem settled_of_slots {t : List (ℕ × α)} {d : ℕ → α} (hv : t.length ≤ F.cap)
    (hc : F.parse (d j) = none) (k : ℕ) :
    Settled F j d (applyWrites d ((slotWrites j 0 t).take k)) := by
  have hin : ∀ w ∈ (slotWrites j 0 t).take k, j < w.1 ∧ w.1 < j + 1 + F.cap := by
    intro w hw
    have := mem_slotWrites j (mem_of_mem_take hw)
    omega
  refine ⟨?_, fun x hx => ?_⟩
  · rwa [applyWrites_of_forall_ne (fun w hw => by have := hin w hw; omega)]
  apply applyWrites_of_forall_ne
  intro w hw he
  have := hin w hw
  exact hx ⟨by omega, by omega⟩

/-- Once the header is written the transaction is committed, whatever part of the home
writes has happened. -/
theorem committed_of_header {t : List (ℕ × α)} (d : ℕ → α) (hv : Valid F j t) (k : ℕ) :
    Committed F j t d (applyWrites (update (applyWrites d (slotWrites j 0 t)) j
      (F.header (t.map Prod.fst))) (t.take k)) := by
  have hhome : ∀ x, InLog F j x → ∀ w ∈ t.take k, w.1 ≠ x := by
    intro x hx w hw he
    exact hv.home w (mem_of_mem_take hw) (he ▸ hx)
  refine ⟨?_, fun i hi => ?_, fun x hx hne => ?_⟩
  · rw [applyWrites_of_forall_ne (hhome j ⟨le_rfl, by omega⟩), update_self]
    apply F.parse_header
    · simpa using hv.length_le
    intro b hb
    obtain ⟨p, hp, rfl⟩ := mem_map.mp hb
    exact hv.lt_bound p hp
  · have hlen := hv.length_le
    rw [applyWrites_of_forall_ne (hhome _ ⟨by omega, by omega⟩), update_of_ne (by omega)]
    simpa using applyWrites_slotWrites j d 0 t i hi
  rw [applyWrites_of_forall_ne (fun w hw => hne w (mem_of_mem_take hw)),
    update_of_ne (fun he => hx ⟨by omega, by omega⟩),
    applyWrites_of_forall_ne]
  intro w hw he
  have := mem_slotWrites j hw
  have := hv.length_le
  exact hx ⟨by omega, by omega⟩

section Replay
variable {F j} {t : List (ℕ × α)} {d0 d : ℕ → α}

theorem redoWrites_eq {i : ℕ} {d : ℕ → α} {t : List (ℕ × α)}
    (hcap : i + t.length ≤ F.cap) (hhome : ∀ p ∈ t, ¬ InLog F j p.1)
    (h : ∀ k (hk : k < t.length), d (j + 1 + (i + k)) = t[k].2) :
    redoWrites j d i (t.map Prod.fst) = t := by
  induction t generalizing i d with
  | nil => rfl
  | cons p t ih =>
    have h0 := h 0 (by simp)
    simp only [Nat.add_zero, getElem_cons_zero] at h0
    rw [length_cons] at hcap
    rw [map_cons, redoWrites, h0, ih (by omega)
      (fun q hq => hhome q (mem_cons_of_mem _ hq))]
    intro k hk
    have hne : j + 1 + (i + 1 + k) ≠ p.1 := fun he =>
      hhome p mem_cons_self ⟨by omega, by omega⟩
    have h' := h (k + 1) (by simpa using hk)
    rw [update_of_ne hne, show i + 1 + k = i + (k + 1) by omega]
    simpa using h'

theorem Committed.replayWrites_eq (hv : Valid F j t) (h : Committed F j t d0 d) :
    replayWrites F j d = t ++ [(j, F.clear)] := by
  simp only [replayWrites, h.header]
  rw [redoWrites_eq (by simpa using hv.length_le) hv.home
    (fun k hk => by simpa using h.slots k hk)]

variable {post d' : ℕ → α}

theorem Settled.replayWrites_eq (h : Settled F j post d) : replayWrites F j d = [] := by
  simp only [replayWrites, h.clear]

theorem Committed.applyWrites_take (hv : Valid F j t) (h : Committed F j t d0 d) (k : ℕ) :
    Committed F j t d0 (applyWrites d (t.take k)) := by
  have hhome : ∀ x, InLog F j x → ∀ w ∈ t.take k, w.1 ≠ x := by
    intro x hx w hw he
    exact hv.home w (mem_of_mem_take hw) (he ▸ hx)
  have hlen := hv.length_le
  refine ⟨?_, fun i hi => ?_, fun x hx hne => ?_⟩
  · rw [applyWrites_of_forall_ne (hhome j ⟨le_rfl, by omega⟩)]
    exact h.header
  · rw [applyWrites_of_forall_ne (hhome _ ⟨by omega, by omega⟩)]
    exact h.slots i hi
  · rw [applyWrites_of_forall_ne (fun w hw => hne w (mem_of_mem_take hw))]
    exact h.frame x hx hne

theorem Committed.settled (h : Committed F j t d0 d) :
    Settled F j (applyWrites d0 t) (applyWrites d (t ++ [(j, F.clear)])) := by
  rw [applyWrites_append]
  refine ⟨?_, fun x hx => ?_⟩
  · simp [F.parse_clear]
  have hj : x ≠ j := fun he => hx ⟨by omega, by omega⟩
  rw [applyWrites_cons, applyWrites_nil, update_of_ne hj]
  exact applyWrites_congr (h.frame x hx)

/-- Recovery of a committed transaction is idempotent under stops: it either stays
committed or is settled. -/
theorem Committed.stopped (hv : Valid F j t) (h : Committed F j t d0 d) (hs : Stopped F j d d') :
    Committed F j t d0 d' ∨ Settled F j (applyWrites d0 t) d' := by
  obtain ⟨k, rfl⟩ := hs
  rw [h.replayWrites_eq hv, take_append]
  by_cases hk : k ≤ t.length
  · rw [Nat.sub_eq_zero_of_le hk, take_zero, append_nil]
    exact .inl (h.applyWrites_take hv k)
  rw [take_of_length_le (by omega : t.length ≤ k),
    take_of_length_le (by simp only [length_singleton]; omega)]
  exact .inr h.settled

theorem Settled.stopped (h : Settled F j post d) (hs : Stopped F j d d') : Settled F j post d' := by
  obtain ⟨k, rfl⟩ := hs
  rw [h.replayWrites_eq]
  simpa using h

theorem Settled.recover (h : Settled F j post d) : RedoLog.recover F j d = d := by
  rw [RedoLog.recover, h.replayWrites_eq, applyWrites_nil]

theorem Committed.recover (hv : Valid F j t) (h : Committed F j t d0 d) :
    Settled F j (applyWrites d0 t) (RedoLog.recover F j d) := by
  rw [RedoLog.recover, h.replayWrites_eq hv]
  exact h.settled

abbrev StoppedMany (F : Format α) (j : ℕ) : (ℕ → α) → (ℕ → α) → Prop :=
  Relation.ReflTransGen (Stopped F j)

theorem Settled.stoppedMany (h : Settled F j post d) (hs : StoppedMany F j d d') :
    Settled F j post d' := by
  induction hs with
  | refl => exact h
  | tail _ hstep ih => exact ih.stopped hstep

theorem Committed.stoppedMany (hv : Valid F j t) (h : Committed F j t d0 d)
    (hs : StoppedMany F j d d') :
    Committed F j t d0 d' ∨ Settled F j (applyWrites d0 t) d' := by
  induction hs with
  | refl => exact .inl h
  | tail _ hstep ih =>
    rcases ih with hc | hc
    · exact hc.stopped hv hstep
    · exact .inr (hc.stopped hstep)

end Replay

section Atomicity
variable {F j} {t : List (ℕ × α)} {d : ℕ → α}

/-- Where a commit stopped after `k` writes stands: before its header write nothing has
happened, after it the transaction is committed or already settled. -/
theorem commit_prefix (hv : Valid F j t) (hc : F.parse (d j) = none) (k : ℕ) :
    let d' := applyWrites d ((commitWrites F j t).take k)
    (k ≤ t.length → Settled F j d d') ∧
      (t.length < k → Committed F j t d d' ∨ Settled F j (applyWrites d t) d') := by
  have hlen := length_slotWrites j 0 t
  constructor
  · intro hk
    have htake : (commitWrites F j t).take k = (slotWrites j 0 t).take k := by
      rw [commitWrites, take_append_of_le_length (by omega)]
    rw [htake]
    exact settled_of_slots F j hv.length_le hc k
  intro hk
  obtain ⟨m, rfl⟩ : ∃ m, k = t.length + 1 + m := ⟨k - (t.length + 1), by omega⟩
  have htake : (commitWrites F j t).take (t.length + 1 + m) =
      slotWrites j 0 t ++ (j, F.header (t.map Prod.fst)) :: (t ++ [(j, F.clear)]).take m := by
    rw [commitWrites, take_append, take_of_length_le (by omega), hlen,
      show t.length + 1 + m - t.length = m + 1 by omega, take_succ_cons]
  rw [htake, applyWrites_append, applyWrites_cons, take_append]
  by_cases hm : m ≤ t.length
  · rw [Nat.sub_eq_zero_of_le hm, take_zero, append_nil]
    exact .inl (committed_of_header F j d hv m)
  rw [take_of_length_le (by omega : t.length ≤ m),
    take_of_length_le (by simp only [length_singleton]; omega)]
  have h0 := committed_of_header F j d hv 0
  rw [take_zero, applyWrites_nil] at h0
  exact .inr h0.settled

/-- Redo-log atomicity: stop a commit after `k` writes, stop any number of recoveries
anywhere, and let one recovery finish. The home blocks are those before the transaction
when the header was not written, those after it otherwise. -/
theorem atomic (hv : Valid F j t) (hc : F.parse (d j) = none) (k : ℕ) {d' : ℕ → α}
    (hs : StoppedMany F j (applyWrites d ((commitWrites F j t).take k)) d') :
    (k ≤ t.length → Settled F j d (recover F j d')) ∧
      (t.length < k → Settled F j (applyWrites d t) (recover F j d')) := by
  obtain ⟨hbefore, hafter⟩ := commit_prefix hv hc k
  constructor
  · intro hk
    have h := (hbefore hk).stoppedMany hs
    rwa [h.recover]
  intro hk
  rcases hafter hk with h | h
  · rcases h.stoppedMany hv hs with h | h
    · exact h.recover hv
    · rwa [h.recover]
  · have h := h.stoppedMany hs
    rwa [h.recover]

/-- The whole commit, without a stop. -/
theorem commit_settled (hv : Valid F j t) (d : ℕ → α) :
    Settled F j (applyWrites d t) (applyWrites d (commitWrites F j t)) := by
  have h0 := committed_of_header F j d hv 0
  rw [take_zero, applyWrites_nil] at h0
  rw [commitWrites, applyWrites_append, applyWrites_cons]
  exact h0.settled

/-- A property of the home blocks that holds before and after a transaction holds after
recovery from a stop anywhere in its commit. -/
theorem commit_allPrefixes {P : (ℕ → α) → Prop} (hv : Valid F j t)
    (hc : F.parse (d j) = none) (hcongr : ∀ a b, AgreeHome F j a b → P a → P b)
    (hpre : P d) (hpost : P (applyWrites d t)) :
    AllPrefixes (fun e => P (recover F j e)) d (commitWrites F j t) := by
  intro k
  obtain ⟨hbefore, hafter⟩ := atomic hv hc k Relation.ReflTransGen.refl
  by_cases hk : k ≤ t.length
  · exact hcongr _ _ (hbefore hk).agree.symm hpre
  · exact hcongr _ _ (hafter (by omega)).agree.symm hpost

end Atomicity

end RedoLog
