import Mathlib

/-! The audit ring, and what a dump of it returns after any number of events. -/
namespace Exploidus.Audit
open Function List

/-- `audit_event_t`. -/
inductive Event where
  | capCreate | capDenied | capForgery | capRevoke | capDelegate | syscall | procFork | procExec
  | procExit | memAlloc | memFree | fileOpen | fileWrite | netSend | netRecv | cnslBlock
  | cnslUnblock
  deriving DecidableEq, Repr, Inhabited

/-- The arguments of a call of `audit_record`. -/
structure Record where
  event : Event
  pid : UInt32
  arg0 : UInt64
  arg1 : UInt64
  deriving DecidableEq, Repr, Inhabited

/-- `audit_entry_t`. -/
structure Entry extends Record where
  timestamp : ℕ
  deriving DecidableEq, Repr, Inhabited

/-- `AUDIT_RING_SIZE`. -/
def ringSize : ℕ := 4096
/-- `USER_ADDR_MAX`. -/
def userAddrMax : ℕ := 0x00007FFFFFFFFFFF
/-- The size of an `audit_entry_user_t`. -/
def entryBytes : ℕ := 32

/-- `g_ring`, `g_head`, `g_total` and `g_tick`. -/
structure State where
  ring : ℕ → Entry
  head : ℕ
  total : ℕ
  tick : ℕ

/-- `audit_init`. -/
def State.init : State := ⟨fun _ => default, 0, 0, 0⟩

/-- `audit_record`. -/
def State.record (s : State) (r : Record) : State where
  ring := update s.ring (s.head &&& (ringSize - 1)) ⟨r, s.tick⟩
  head := (s.head + 1) % 2 ^ 32
  total := (s.total + 1) % 2 ^ 64
  tick := (s.tick + 1) % 2 ^ 64

/-- The entries that `audit_read` says are filled. -/
def State.filled (s : State) : ℕ := if s.total < ringSize then s.total else ringSize

/-- `uptr_ok`. -/
def uptrOk (addr len : ℕ) : Bool :=
  addr ≠ 0 && addr ≤ userAddrMax && (len = 0 || len ≤ userAddrMax && len - 1 ≤ userAddrMax - addr)

/-- `sys_audit_dump`: the entries it copies, `none` if it fails. `granted` is what `broker_check`
says of the token. -/
def State.dump (s : State) (granted : Bool) (ubuf maxCount : ℕ) : Option (List Entry) :=
  if granted = false then none
  else if maxCount = 0 then some []
  else if userAddrMax / entryBytes < maxCount then none
  else if uptrOk ubuf (maxCount * entryBytes) = false then none
  else
    let limit := maxCount % 2 ^ 32
    some ((range (if s.filled < limit then s.filled else limit)).map s.ring)

/-- The state after the calls `rs` of `audit_record`. -/
def run (rs : List Record) : State := rs.foldl State.record State.init

/-- The events as they are recorded: each one with the tick at which it happened. -/
def history (rs : List Record) : List Entry := rs.mapIdx fun i r => ⟨r, i % 2 ^ 64⟩

/-- The events that a dump of `maxCount` entries asks for and that a ring can still hold. -/
def wanted (rs : List Record) (maxCount : ℕ) : ℕ := min maxCount (min rs.length ringSize)

/-- `out` is the last events, in the order in which they were recorded. -/
def Latest (rs : List Record) (maxCount : ℕ) (out : List Entry) : Prop :=
  out = (history rs).drop (rs.length - wanted rs maxCount) ∧
    out.Pairwise fun a b => a.timestamp < b.timestamp

instance (rs : List Record) (maxCount : ℕ) (out : List Entry) :
    Decidable (Latest rs maxCount out) := inferInstanceAs (Decidable (_ ∧ _))

/-- The ring holds every event that has fewer than `ringSize` events after it. -/
structure Holds (rs : List Record) (s : State) : Prop where
  head : s.head = rs.length % 2 ^ 32
  total : s.total = rs.length % 2 ^ 64
  tick : s.tick = rs.length % 2 ^ 64
  slot : ∀ e, rs.length ≤ e + ringSize → ∀ h : e < rs.length,
    s.ring (e % ringSize) = ⟨rs[e], e % 2 ^ 64⟩

theorem Holds.record {rs : List Record} {s : State} (h : Holds rs s) (r : Record) :
    Holds (rs ++ [r]) (s.record r) := by
  obtain ⟨hhead, htotal, htick, hslot⟩ := h
  have hidx : s.head &&& (ringSize - 1) = rs.length % ringSize := by
    rw [hhead, ringSize, Nat.and_two_pow_sub_one_eq_mod _ 12]
    omega
  refine ⟨?_, ?_, ?_, fun e hage he => ?_⟩
  · simp [State.record, hhead]
  · simp [State.record, htotal]
  · simp [State.record, htick]
  rw [length_append, length_singleton] at hage he
  change update s.ring _ _ _ = _
  rw [hidx]
  by_cases hnew : e = rs.length
  · subst hnew
    rw [update_self, getElem_concat_length rfl, htick]
  · have hne : e % ringSize ≠ rs.length % ringSize := by
      unfold ringSize at *
      omega
    rw [update_of_ne hne, hslot e (by omega) (by omega), getElem_append_left]

theorem holds_run (rs : List Record) : Holds rs (run rs) := by
  induction rs using reverseRecOn with
  | nil => exact ⟨rfl, rfl, rfl, fun e _ he => absurd he (Nat.not_lt_zero e)⟩
  | append_singleton rs r ih =>
    have hrun : run (rs ++ [r]) = (run rs).record r := foldl_concat ..
    rw [hrun]
    exact ih.record r

/-- The entries that a dump copies. -/
def copied (rs : List Record) (maxCount : ℕ) : ℕ :=
  min (min (rs.length % 2 ^ 64) ringSize) (maxCount % 2 ^ 32)

theorem State.dump_run {rs : List Record} {granted : Bool} {ubuf maxCount : ℕ} {out : List Entry}
    (h : (run rs).dump granted ubuf maxCount = some out) :
    out = if maxCount = 0 then [] else (range (copied rs maxCount)).map (run rs).ring := by
  unfold State.dump at h
  split_ifs at h ⊢
  · exact (Option.some.inj h).symm
  · have hfilled : (run rs).filled = min (rs.length % 2 ^ 64) ringSize := by
      unfold State.filled
      rw [(holds_run rs).total]
      split <;> omega
    rw [← Option.some.inj h, hfilled]
    congr 2
    unfold copied
    split <;> omega

/-- A dump that succeeds returns the latest events in order exactly if nothing is asked for or
there, or the number asked for is the number copied and reaches back to the event in the first
slot of the ring. -/
theorem dump_latest_iff {rs : List Record} {granted : Bool} {ubuf maxCount : ℕ} {out : List Entry}
    (h : (run rs).dump granted ubuf maxCount = some out) :
    Latest rs maxCount out ↔ maxCount = 0 ∨ rs.length = 0 ∨
      copied rs maxCount = wanted rs maxCount ∧
        wanted rs maxCount = (rs.length - 1) % ringSize + 1 := by
  obtain rfl := State.dump_run h
  by_cases hm : maxCount = 0
  · simp [hm, Latest, wanted, history]
  by_cases hn : rs.length = 0
  · simp [length_eq_zero_iff.mp hn, Latest, copied, history]
  simp only [hm, hn, if_false, false_or, Latest]
  have hslot := (holds_run rs).slot
  have hw : 0 < wanted rs maxCount := by
    unfold wanted ringSize
    omega
  have hwle : wanted rs maxCount ≤ rs.length ∧ wanted rs maxCount ≤ ringSize := by
    unfold wanted
    omega
  -- the event in the first slot
  have hfirst : (rs.length - 1) / ringSize * ringSize % ringSize = 0 := Nat.mul_mod_left ..
  constructor
  · rintro ⟨heq, -⟩
    have hlen : copied rs maxCount = wanted rs maxCount := by
      have := congrArg length heq
      simp only [length_map, length_range, length_drop, history, length_mapIdx] at this
      omega
    refine ⟨hlen, ?_⟩
    have hhead := congrArg (fun l => l[0]?.map Entry.timestamp) heq
    have hzero := hslot ((rs.length - 1) / ringSize * ringSize)
      (by unfold ringSize; omega) (by unfold ringSize; omega)
    rw [hfirst] at hzero
    simp only [hlen, hw, history, getElem?_map, getElem?_range, getElem?_drop,
      Option.map_some, getElem?_mapIdx, hzero, Nat.add_zero,
      getElem?_eq_getElem (show rs.length - wanted rs maxCount < rs.length by omega),
      Option.some.injEq] at hhead
    unfold ringSize at *
    omega
  · rintro ⟨hlen, hall⟩
    have hget : ∀ i < wanted rs maxCount, ∃ he : rs.length - wanted rs maxCount + i < rs.length,
        (run rs).ring i = ⟨rs[rs.length - wanted rs maxCount + i],
          (rs.length - wanted rs maxCount) % 2 ^ 64 + i⟩ := by
      intro i hi
      refine ⟨by omega, ?_⟩
      have := hslot (rs.length - wanted rs maxCount + i) (by omega) (by omega)
      unfold ringSize at *
      rw [show (rs.length - wanted rs maxCount + i) % 4096 = i by omega] at this
      rw [this]
      congr 1
      omega
    rw [hlen]
    refine ⟨?_, ?_⟩
    · apply ext_getElem
      · rw [length_map, length_range, length_drop, history, length_mapIdx]
        omega
      intro i hi hi'
      rw [length_map, length_range] at hi
      obtain ⟨he, hring⟩ := hget i hi
      simp only [history, getElem_map, getElem_range, getElem_drop,
        getElem_mapIdx, hring, Entry.mk.injEq, true_and]
      unfold ringSize at *
      omega
    · rw [pairwise_map]
      refine pairwise_lt_range.imp_of_mem fun hi hj hij => ?_
      obtain ⟨_, hri⟩ := hget _ (mem_range.mp hi)
      obtain ⟨_, hrj⟩ := hget _ (mem_range.mp hj)
      rw [hri, hrj]
      dsimp only
      omega

def sampleRecords : List Record := [⟨.procFork, 1, 2, 0⟩, ⟨.procExit, 2, 0, 0⟩]

theorem dump_latest_all : Latest sampleRecords 16 (history sampleRecords) :=
  (dump_latest_iff (show (run sampleRecords).dump true 4096 16 = some (history sampleRecords) by
    decide)).mpr (by decide)

/-- Of two events, a dump of one entry returns the older. -/
theorem dump_one_of_two : (run sampleRecords).dump true 4096 1 = some [⟨⟨.procFork, 1, 2, 0⟩, 0⟩] ∧
      ¬ Latest sampleRecords 1 [⟨⟨.procFork, 1, 2, 0⟩, 0⟩] := by
  decide

end Exploidus.Audit
