import Exploidus.Net.TcpStream

/-! Closing a connection, and what closing leaves of its slot in the table. -/
namespace Exploidus.Net
open TcpState Conn Finset

/-- `tcp_close`. -/
def Conn.tcpClose (c : Conn) (iface : Bool) (ticks : UInt64) (o : Outcome) : Conn × Log :=
  let fin (c : Conn) : Conn × Log :=
    let r := c.sendSegment ticks o (tcpFin ||| tcpAck) []
    if iface then (r.1, r.2.1) else (c, [])
  match c.state with
  | .closed => (c, [])
  | .established => fin { c with state := .finWait1 }
  | .closeWait => fin { c with state := .lastAck }
  | _ => ({ c with state := .closed }, [])

/-- The process closes, or a segment of the peer arrives. -/
inductive CloseEvent where
  | close (iface : Bool) (ticks : UInt64) (o : Outcome)
  | segment (ticks : UInt64) (o1 o2 : Outcome) (s : Segment)

/-- How far the close is: our FIN was sent, it was acknowledged, and the FIN of the peer came and
was acknowledged. -/
structure Closing where
  sent : Bool
  acked : Bool
  peer : Bool

def Closing.done (g : Closing) : Bool := g.acked && g.peer

def Conn.closeStep (c : Conn) (g : Closing) : CloseEvent → Conn × Closing
  | .close iface ticks o =>
    let r := c.tcpClose iface ticks o
    (r.1, { g with sent := g.sent || r.2.any fun e => e.2 })
  | .segment ticks o1 o2 s =>
    let r := c.input ticks o1 o2 s
    (r.1, { g with
      acked := g.acked || g.sent && s.flags &&& tcpAck != 0 && s.ack == c.sndNxt
      peer := g.peer || s.flags &&& tcpFin != 0 && r.2.any fun e => e.2 && e.1.ack == r.1.rcvNxt })

def Conn.closeRun (c : Conn) (evs : List CloseEvent) : Conn × Closing :=
  evs.foldl (fun r ev => r.1.closeStep r.2 ev) (c, ⟨false, false, false⟩)

/-- How far the close can be in a state. -/
def Closing.At (g : Closing) : TcpState → Prop
  | .established => g.sent = false ∧ g.acked = false ∧ g.peer = false
  | .closeWait => g.sent = false ∧ g.acked = false
  | .finWait1 => g.acked = false ∧ g.peer = false
  | .finWait2 => g.peer = false
  | .lastAck => g.acked = false
  | .timeWait | .closed => True
  | _ => False

section
variable {c : Conn} {g : Closing} {ev : CloseEvent} {ticks : UInt64} {o o1 o2 : Outcome}
  {s : Segment}

theorem Conn.sendSegment_state (c : Conn) (ticks : UInt64) (o : Outcome) (flags : UInt8)
    (data : List UInt8) : (c.sendSegment ticks o flags data).1.state = c.state := by
  obtain ⟨n, hn⟩ := c.sendSegment_fst ticks o flags data
  rw [hn]

theorem Conn.inputEstablished_state : (c.inputEstablished ticks o1 o2 s).1.state =
      if s.flags &&& tcpFin ≠ 0 then .closeWait else c.state := by
  unfold inputEstablished
  dsimp only
  split_ifs <;> simp only [sendSegment_state, (rxPush_sameLink _ _).state]

theorem Conn.tcpClose_state (c : Conn) (iface : Bool) (ticks : UInt64) (o : Outcome) :
    (c.tcpClose iface ticks o).1.state = match c.state with
      | .established => .finWait1
      | .closeWait => .lastAck
      | _ => .closed := by
  unfold tcpClose
  cases hst : c.state <;> cases iface <;> simp [hst, sendSegment_state]

theorem Closing.At.close (h : g.At c.state) (iface : Bool) (ticks : UInt64) (o : Outcome) :
    (c.closeStep g (.close iface ticks o)).2.At
      (c.closeStep g (.close iface ticks o)).1.state := by
  rw [closeStep]
  dsimp only
  rw [tcpClose_state]
  cases hst : c.state <;> rw [hst] at h
  case established => exact ⟨h.2.1, h.2.2⟩
  case closeWait => exact h.2
  all_goals trivial

/-- The state that a segment with these flags leads to. -/
def TcpState.afterSegment (fin ack : Bool) : TcpState → TcpState
  | .established => if fin then .closeWait else .established
  | .finWait1 => if fin then .timeWait else if ack then .finWait2 else .finWait1
  | .finWait2 => if fin then .timeWait else .finWait2
  | .lastAck => if ack then .closed else .lastAck
  | .timeWait => .closed
  | st => st

theorem Conn.input_closing (h : g.At c.state) (ticks : UInt64) (o1 o2 : Outcome) (s : Segment) :
    (c.input ticks o1 o2 s).1.state =
        c.state.afterSegment (s.flags &&& tcpFin != 0) (s.flags &&& tcpAck != 0) ∧
      (c.state ∈ [.closeWait, .lastAck, .timeWait, .closed] → (c.input ticks o1 o2 s).2 = []) := by
  unfold input
  dsimp only
  cases hst : c.state <;> rw [hst] at h
  case established =>
    simp only [afterSegment, bne_iff_ne]
    rw [inputEstablished_state]
    exact ⟨rfl, by simp⟩
  case finWait1 =>
    simp only [afterSegment, bne_iff_ne]
    refine ⟨?_, by simp⟩
    split_ifs <;> simp
  case finWait2 =>
    simp only [afterSegment, bne_iff_ne]
    refine ⟨?_, by simp⟩
    split_ifs <;> simp
  case lastAck =>
    simp only [afterSegment, bne_iff_ne]
    refine ⟨?_, fun _ => trivial⟩
    split_ifs <;> simp
  case closeWait => exact ⟨rfl, fun _ => rfl⟩
  case timeWait => exact ⟨rfl, fun _ => rfl⟩
  case closed => exact ⟨rfl, fun _ => rfl⟩
  all_goals exact h.elim

/-- A segment that completes the close is the acknowledgement of our FIN after the FIN of the
peer, which closes the connection, or it carries the FIN of the peer. -/
theorem Closing.At.segment (h : g.At c.state) (ticks : UInt64) (o1 o2 : Outcome) (s : Segment) :
    let r := c.closeStep g (.segment ticks o1 o2 s)
    r.2.At r.1.state ∧ (g.done = false → r.2.done →
      r.1.state = if g.peer then .closed else .timeWait) := by
  obtain ⟨hstate, hlog⟩ := input_closing h ticks o1 o2 s
  simp only [closeStep, Closing.done]
  rw [hstate]
  generalize c.input ticks o1 o2 s = r at *
  generalize (s.flags &&& tcpFin != 0) = fin
  generalize (s.flags &&& tcpAck != 0) = ack
  generalize (s.ack == c.sndNxt) = x
  obtain ⟨sent, acked, peer⟩ := g
  cases hst : c.state <;> rw [hst] at h
  case established =>
    obtain ⟨rfl, rfl, rfl⟩ := h
    cases fin <;> simp [afterSegment, At]
  case finWait1 =>
    obtain ⟨rfl, rfl⟩ := h
    cases fin <;> cases ack <;> simp [afterSegment, At]
  case finWait2 =>
    obtain rfl := h
    cases fin <;> simp [afterSegment, At]
  case closeWait =>
    obtain ⟨rfl, rfl⟩ := h
    simp [afterSegment, At]
  case lastAck =>
    obtain rfl := h
    rw [hlog (by simp [hst])]
    cases ack <;> cases peer <;> simp [afterSegment, At]
  case timeWait =>
    rw [hlog (by simp [hst])]
    cases peer <;> simp [afterSegment, At]
  case closed =>
    rw [hlog (by simp [hst])]
    cases peer <;> simp [afterSegment, At]
  all_goals exact h.elim

theorem Conn.closeRun_append (c : Conn) (evs : List CloseEvent) (ev : CloseEvent) :
    c.closeRun (evs ++ [ev]) = (c.closeRun evs).1.closeStep (c.closeRun evs).2 ev := by
  simp [closeRun]

theorem Conn.closeRun_at (hc : c.state = .established) (evs : List CloseEvent) :
    (c.closeRun evs).2.At (c.closeRun evs).1.state := by
  induction evs using List.reverseRecOn with
  | nil =>
    rw [closeRun, List.foldl_nil, hc]
    exact ⟨rfl, rfl, rfl⟩
  | append_singleton evs ev ih =>
    rw [closeRun_append]
    cases ev with
    | close iface ticks o => exact ih.close iface ticks o
    | segment ticks o1 o2 s => exact (ih.segment ticks o1 o2 s).1

theorem Conn.closeRun_done (hc : c.state = .established) {evs : List CloseEvent}
    (h0 : (c.closeRun evs).2.done = false) (h1 : (c.closeRun (evs ++ [ev])).2.done) :
    (c.closeRun (evs ++ [ev])).1.state =
      if (c.closeRun evs).2.peer then .closed else .timeWait := by
  rw [closeRun_append] at h1 ⊢
  cases ev with
  | close iface ticks o => exact absurd h1 (by rw [closeStep]; exact h0 ▸ nofun)
  | segment ticks o1 o2 s => exact ((closeRun_at hc evs).segment ticks o1 o2 s).2 h0 h1

end

/-! ### The table -/

/-- Connections are opened one after the other, and each goes through its events before the next
one is opened; no result if there is no slot. -/
def Stack.openCloses : List (Conn × List CloseEvent) → Stack → Option Stack
  | [], t => some t
  | x :: xs, t => t.connAlloc.bind fun i => openCloses xs (t.set i (x.1.closeRun x.2).1)

def Stack.free (t : Stack) : Finset ℕ :=
  (range 32).filter fun i => (t.conns i).state = .closed

section
variable {t : Stack} {c : Conn} {i : ℕ}

theorem Stack.connAlloc_some (h : t.connAlloc = some i) : i ∈ t.free := by
  have hm := List.mem_of_find?_eq_some h
  have hp := List.find?_some h
  exact mem_filter.mpr ⟨mem_range.mpr (List.mem_range.mp hm), by simpa using hp⟩

theorem Stack.connAlloc_isSome : t.connAlloc.isSome ↔ t.free.Nonempty := by
  constructor
  · intro h
    obtain ⟨i, hi⟩ := Option.isSome_iff_exists.mp h
    exact ⟨i, connAlloc_some hi⟩
  · rintro ⟨i, hi⟩
    obtain ⟨hi, hs⟩ := mem_filter.mp hi
    exact List.find?_isSome.mpr ⟨i, List.mem_range.mpr (mem_range.mp hi), by simpa using hs⟩

theorem Stack.free_set_closed (h : i ∈ t.free) (hc : c.state = .closed) :
    (t.set i c).free = t.free := by
  refine filter_congr fun j _ => ?_
  by_cases hj : j = i
  · subst hj
    simp [set, hc, (mem_filter.mp h).2]
  · simp [set, hj]

theorem Stack.free_set_open (hc : c.state ≠ .closed) : (t.set i c).free = t.free.erase i := by
  ext j
  simp only [free, mem_erase, mem_filter]
  by_cases hj : j = i
  · subst hj
    simp [set, hc]
  · simp [set, hj]

theorem Stack.openCloses_isSome {xs : List (Conn × List CloseEvent)} (h : t.free.Nonempty)
    (hx : ∀ x ∈ xs, (x.1.closeRun x.2).1.state = .closed) : (t.openCloses xs).isSome := by
  induction xs generalizing t with
  | nil => rfl
  | cons x xs ih =>
    obtain ⟨i, hi⟩ := Option.isSome_iff_exists.mp (connAlloc_isSome.mpr h)
    rw [openCloses, hi, Option.bind_some]
    refine ih ?_ fun y hy => hx y (List.mem_cons_of_mem _ hy)
    rwa [free_set_closed (connAlloc_some hi) (hx x (by simp))]

theorem Stack.openCloses_exhausted {x : Conn × List CloseEvent}
    (hx : (x.1.closeRun x.2).1.state ≠ .closed) {n : ℕ} (hn : t.free.card < n) :
    t.openCloses (List.replicate n x) = none := by
  induction n generalizing t with
  | zero => omega
  | succ n ih =>
    rw [List.replicate_succ, openCloses]
    cases hi : t.connAlloc with
    | none => rfl
    | some i =>
      refine ih ?_
      rw [free_set_open hx, card_erase_of_mem (connAlloc_some hi)]
      have := card_pos.mpr ⟨i, connAlloc_some hi⟩
      omega

end

/-- When both FINs have been exchanged and acknowledged, the slot is closed exactly if the FIN of
the peer had been acknowledged before, and the table is never exhausted by closes of some kind
exactly if all of them leave their slot closed. -/
theorem reclaimed_iff {c : Conn} (hc : c.state = .established) {evs : List CloseEvent}
    {ev : CloseEvent} (h0 : (c.closeRun evs).2.done = false)
    (h1 : (c.closeRun (evs ++ [ev])).2.done = true) {t : Stack} (ht : t.connAlloc.isSome)
    (P : Conn × List CloseEvent → Prop) :
    ((c.closeRun (evs ++ [ev])).1.state = .closed ↔ (c.closeRun evs).2.peer = true) ∧
      ((∀ xs, (∀ x ∈ xs, P x) → (t.openCloses xs).isSome) ↔
        ∀ x, P x → (x.1.closeRun x.2).1.state = .closed) := by
  refine ⟨?_, fun h x hx => ?_, fun h xs hxs => ?_⟩
  · rw [closeRun_done hc h0 h1]
    cases (c.closeRun evs).2.peer <;> simp
  · by_contra hne
    have := h (List.replicate (t.free.card + 1) x) fun y hy => List.eq_of_mem_replicate hy ▸ hx
    rw [Stack.openCloses_exhausted hne (Nat.lt_succ_self _)] at this
    cases this
  · exact Stack.openCloses_isSome (Stack.connAlloc_isSome.mp ht) fun x hx => h x (hxs x hx)

def closedStack : Stack := ⟨Function.const ℕ blank, 7⟩

/-- A connection that has sent nothing, so that its FIN has number 0. -/
def idleConn : Conn := { blank with state := .established }

def closeNow : CloseEvent := .close true 0 ⟨true, true⟩

/-- A segment of the peer of `idleConn`, with its acknowledgement number. -/
def peerSegment (flags : UInt8) (ack : UInt32) : CloseEvent :=
  .segment 0 ⟨true, true⟩ ⟨true, true⟩ ⟨0, 0, 0, ack, 0x50, flags, 0, 0, 0, [], []⟩

/-- The peer closes first. -/
theorem idleConn_reclaimed : (idleConn.closeRun ([peerSegment (tcpFin ||| tcpAck) 0, closeNow] ++
      [peerSegment tcpAck 1])).1.state = .closed :=
  (reclaimed_iff rfl (by decide) (by decide) (t := closedStack) (by decide) fun _ => False).1.mpr
    (by decide)

/-- The process closes first: the slot stays in `TCP_TIME_WAIT`, and 32 such connections use up
the table. -/
theorem idleConn_not_reclaimed :
    let evs := [closeNow, peerSegment tcpAck 1, peerSegment (tcpFin ||| tcpAck) 1]
    (idleConn.closeRun evs).2.done = true ∧ (idleConn.closeRun evs).1.state = .timeWait ∧
      closedStack.openCloses (List.replicate 33 (idleConn, evs)) = none := by
  refine ⟨by decide, by decide, Stack.openCloses_exhausted (by decide) ?_⟩
  exact (card_filter_le _ _).trans_lt (by decide)

end Exploidus.Net
