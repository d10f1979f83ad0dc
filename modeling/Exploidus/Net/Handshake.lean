import Exploidus.Net.Tcp

/-! The passive opening of a connection. Its SYN-ACK is sent at the first SYN if ARP knows the
peer, at a repeated SYN, and when an ARP packet of the peer arrives. -/
namespace Exploidus.Net
open Function

/-- The body of the loop of `tcp_flush_pending_synacks`. -/
def Conn.flushPendingSynack (c : Conn) (ticks : UInt64) (o : Outcome) (resolved : UInt32) :
    Conn × Log :=
  if c.state = .synRecv ∧ c.pendingSynack = true ∧ c.remoteIp = resolved then
    let r := { c with pendingSynack := false }.sendSegment ticks o (tcpSyn ||| tcpAck) []
    (r.1, r.2.1)
  else (c, [])

/-- A segment of the peer, or an ARP packet with its sender. -/
inductive OpenEvent where
  | segment (ticks : UInt64) (o1 o2 : Outcome) (s : Segment)
  | arp (ticks : UInt64) (o : Outcome) (sender : UInt32)

def Conn.openStep (c : Conn) : OpenEvent → Conn × Log
  | .segment ticks o1 o2 s => c.input ticks o1 o2 s
  | .arp ticks o sender => c.flushPendingSynack ticks o sender

/-- `ip4_output` has transmitted one of the segments. -/
def Log.Sent (log : Log) : Prop := ∃ e ∈ log, e.2 = true

/-- All SYN-ACKs that were sent have the sequence number `isn`, and the next one is `isn + 1`. -/
def Conn.SentWith (c : Conn) (isn : UInt32) (log : Log) : Prop :=
  (∀ e ∈ log, e.2 = true → e.1.seq = isn) ∧ (log.Sent → c.sndNxt = isn + 1)

/-- The event is a segment that acknowledges `n`. -/
def OpenEvent.Acks (n : UInt32) : OpenEvent → Prop
  | .segment _ _ _ s => s.flags &&& tcpAck ≠ 0 ∧ s.ack = n
  | .arp _ _ _ => False

/-- As long as the connection is in `TCP_SYN_RECV`, its SYN-ACKs have the sequence number `isn`
and only an acknowledgement of `isn + 1` establishes it. -/
def Conn.OneIsn (isn : UInt32) : Conn → Log → List OpenEvent → Prop
  | c, log, [] => c.SentWith isn log
  | c, log, ev :: evs => c.SentWith isn log ∧ (c.state = .synRecv →
      ((c.openStep ev).1.state = .established → ev.Acks (isn + 1)) ∧
      OneIsn isn (c.openStep ev).1 (log ++ (c.openStep ev).2) evs)

/-- An ARP packet makes the connection build its pending SYN-ACK. -/
def OpenEvent.Flushes (c : Conn) : OpenEvent → Prop
  | .segment _ _ _ _ => False
  | .arp _ o sender => c.pendingSynack = true ∧ c.remoteIp = sender ∧ o.alloc = true

/-- A pending SYN-ACK is built only if none has been sent. -/
def Conn.FlushFirst : Conn → Log → List OpenEvent → Prop
  | _, _, [] => True
  | c, log, ev :: evs => c.state = .synRecv → (ev.Flushes c → ¬ log.Sent) ∧
      FlushFirst (c.openStep ev).1 (log ++ (c.openStep ev).2) evs

section
variable {c : Conn} {s : Segment} {isn : UInt32} {log : Log} {ev : OpenEvent}
  {evs : List OpenEvent}

theorem Conn.sendSynack (c : Conn) (ticks : UInt64) (o : Outcome) :
    c.sendSegment ticks o (tcpSyn ||| tcpAck) [] =
      if o.alloc then ({ c with sndNxt := c.sndNxt + 1 },
        [(c.segment ticks (tcpSyn ||| tcpAck) [], o.output)], o.output)
      else (c, [], false) := by
  have hnum : c.sndNxt + 1 + UInt32.ofNat 0 = c.sndNxt + 1 := UInt32.add_zero _
  unfold sendSegment
  cases o.alloc with
  | false => rfl
  | true =>
    have hflags : (tcpSyn ||| tcpAck) &&& (tcpSyn ||| tcpFin) ≠ 0 := by decide
    simp only [Bool.not_true, Bool.false_eq_true, if_false, List.length_nil, not_lt_zero,
      hflags, ne_eq, not_false_eq_true, if_true]
    exact congrArg (fun n => ({ c with sndNxt := n }, _, _)) hnum

/-- A connection in `TCP_SYN_RECV` sends at most a SYN-ACK with the number before the next one, or
it builds the pending SYN-ACK. -/
theorem Conn.openStep_cases (h : c.state = .synRecv) (ev : OpenEvent) :
    ¬ ev.Flushes c ∧ ((c.openStep ev).1.state = .established → ev.Acks c.sndNxt) ∧
        (c.openStep ev).1.sndNxt = c.sndNxt ∧
        (c.pendingSynack = false → (c.openStep ev).1.pendingSynack = false) ∧
        (∀ e ∈ (c.openStep ev).2, e.1.seq + 1 = c.sndNxt) ∨
      ev.Flushes c ∧ (c.openStep ev).1.state ≠ .established ∧
        (c.openStep ev).1.sndNxt = c.sndNxt + 1 ∧ (c.openStep ev).1.pendingSynack = false ∧
        (∀ e ∈ (c.openStep ev).2, e.1.seq = c.sndNxt) := by
  have hsub : c.sndNxt - 1 + 1 = c.sndNxt := UInt32.sub_add_cancel _ _
  cases ev with
  | segment ticks o1 o2 s =>
    rw [openStep, input]
    simp only [h]
    refine .inl ⟨id, ?_⟩
    by_cases hack : s.flags &&& tcpAck ≠ 0 ∧ s.ack = c.sndNxt
    · rw [if_pos hack]
      exact ⟨fun _ => hack, rfl, id, nofun⟩
    rw [if_neg hack]
    by_cases hsyn : s.flags &&& tcpSyn ≠ 0
    · rw [if_pos hsyn, sendSynack]
      cases o1.alloc with
      | false => exact ⟨nofun, hsub, id, nofun⟩
      | true =>
        refine ⟨nofun, hsub, id, fun e he => ?_⟩
        rwa [List.mem_singleton.mp he]
    · rw [if_neg hsyn]
      exact ⟨nofun, rfl, id, nofun⟩
  | arp ticks o sender =>
    have hne : c.state ≠ .established := h ▸ nofun
    rw [openStep, flushPendingSynack]
    by_cases hp : c.state = .synRecv ∧ c.pendingSynack ∧ c.remoteIp = sender
    · rw [if_pos hp, sendSynack]
      cases ho : o.alloc with
      | false =>
        refine .inl ⟨fun hf => ?_, fun hs => absurd hs hne, rfl, fun _ => rfl, nofun⟩
        rw [hf.2.2] at ho
        cases ho
      | true =>
        refine .inr ⟨⟨hp.2.1, hp.2.2, ho⟩, hne, rfl, rfl, fun e he => ?_⟩
        rw [List.mem_singleton.mp he]
        rfl
    · rw [if_neg hp]
      exact .inl ⟨fun hf => hp ⟨h, hf.1, hf.2.1⟩, fun hs => absurd hs hne, rfl, id, nofun⟩

theorem OpenEvent.Flushes.pending (h : ev.Flushes c) : c.pendingSynack := by
  cases ev with
  | segment ticks o1 o2 s => exact h.elim
  | arp ticks o sender => exact h.1

/-- The SYN-ACKs that were sent have the number before the next one. -/
def Conn.Follows (c : Conn) (log : Log) : Prop :=
  ∀ e ∈ log, e.2 = true → e.1.seq + 1 = c.sndNxt

theorem Conn.Follows.sentWith (h : c.Follows log) (hnum : isn + 1 = c.sndNxt) :
    c.SentWith isn log := by
  refine ⟨fun e he hs => ?_, fun _ => hnum.symm⟩
  exact (UInt32.add_left_inj 1).mp ((h e he hs).trans hnum.symm)

theorem Conn.Follows.append {c' : Conn} {new : Log} (h : c.Follows log)
    (hn : c'.sndNxt = c.sndNxt) (hnew : ∀ e ∈ new, e.1.seq + 1 = c.sndNxt) :
    c'.Follows (log ++ new) := fun e he hs => by
  rw [hn]
  exact (List.mem_append.mp he).elim (fun he => h e he hs) (hnew e)

/-- Without a pending SYN-ACK the next sequence number stays what it is. -/
theorem Conn.Follows.oneIsn (h : c.Follows log) (hp : c.pendingSynack = false)
    (hnum : isn + 1 = c.sndNxt) (evs : List OpenEvent) : OneIsn isn c log evs := by
  induction evs generalizing c log with
  | nil => exact h.sentWith hnum
  | cons ev evs ih =>
    refine ⟨h.sentWith hnum, fun hs => ?_⟩
    rcases c.openStep_cases hs ev with ⟨-, hack, hn, hp', hl⟩ | ⟨hf, -⟩
    · exact ⟨fun he => hnum ▸ hack he, ih (h.append hn hl) (hp' hp) (hnum.trans hn.symm)⟩
    · rw [hf.pending] at hp
      cases hp

theorem Conn.OneIsn.sentWith (h : OneIsn isn c log evs) : c.SentWith isn log := by
  cases evs with
  | nil => exact h
  | cons ev evs => exact h.1

theorem Conn.SentWith.oneIsn (h : c.SentWith isn log) (hs : c.state ≠ .synRecv) :
    OneIsn isn c log evs := by
  cases evs with
  | nil => exact h
  | cons ev evs => exact ⟨h, fun h' => absurd h' hs⟩

theorem Conn.OneIsn.flushFirst (h : OneIsn isn c log evs) : FlushFirst c log evs := by
  induction evs generalizing c log with
  | nil => trivial
  | cons ev evs ih =>
    refine fun hs => ⟨fun hf hsent => ?_, ih (h.2 hs).2⟩
    rcases c.openStep_cases hs ev with ⟨hno, -⟩ | ⟨-, -, hn, -⟩
    · exact hno hf
    -- the flush moves the next number on
    obtain ⟨e, he, ht⟩ := hsent
    have hafter := (h.2 hs).2.sentWith.2 ⟨e, List.mem_append_left _ he, ht⟩
    rw [hn, h.1.2 ⟨e, he, ht⟩] at hafter
    simp at hafter

theorem Conn.Follows.oneIsn_of_flushFirst (h : c.Follows log) (hf : FlushFirst c log evs) :
    ∃ isn, OneIsn isn c log evs := by
  have hsub : c.sndNxt - 1 + 1 = c.sndNxt := UInt32.sub_add_cancel _ _
  induction evs generalizing c log with
  | nil => exact ⟨_, h.sentWith hsub⟩
  | cons ev evs ih =>
    by_cases hs : c.state = .synRecv
    · rcases c.openStep_cases hs ev with ⟨-, hack, hn, -, hl⟩ | ⟨hfl, hne, hn, hp, hl⟩
      · have h' := h.append hn hl
        by_cases hest : (c.openStep ev).1.state = .established
        · have hne : (c.openStep ev).1.state ≠ .synRecv := hest ▸ nofun
          exact ⟨_, h.sentWith hsub, fun _ => ⟨fun _ => hsub.symm ▸ hack hest,
            (h'.sentWith (hsub.trans hn.symm)).oneIsn hne⟩⟩
        obtain ⟨isn, hone⟩ := ih h' (hf hs).2 (UInt32.sub_add_cancel _ _)
        have hlog : ∀ e ∈ log, e.2 → e.1.seq = isn := fun e he =>
          hone.sentWith.1 e (List.mem_append_left _ he)
        refine ⟨isn, ⟨hlog, ?_⟩, fun _ => ⟨fun he => absurd he hest, hone⟩⟩
        rintro ⟨e, he, ht⟩
        rw [← h e he ht, hlog e he ht]
      · have hno := (hf hs).1 hfl
        have h' : (c.openStep ev).1.Follows (log ++ (c.openStep ev).2) := fun e he ht => by
          rw [hn]
          rcases List.mem_append.mp he with he | he
          · exact absurd ⟨e, he, ht⟩ hno
          · rw [hl e he]
        exact ⟨c.sndNxt, ⟨fun e he ht => absurd ⟨e, he, ht⟩ hno, fun hsent => absurd hsent hno⟩,
          fun _ => ⟨fun he => absurd he hne, h'.oneIsn hp hn.symm evs⟩⟩
    · exact ⟨_, (h.sentWith hsub).oneIsn hs⟩

theorem Stack.inputSyn_follows {t : Stack} {e : Env} {src dst : UInt32} {l i : ℕ}
    (hi : t.connAlloc = some i) :
    ((t.inputSyn e src dst l s).1.conns i).Follows (t.inputSyn e src dst l s).2 := by
  unfold inputSyn
  rw [hi]
  dsimp only
  split
  · rw [Conn.sendSynack]
    cases e.o1.alloc with
    | false => exact nofun
    | true =>
      intro x hx _
      rw [List.mem_singleton.mp hx]
      simp only [set, update_self]
      rfl
  · exact nofun

end

/-- The SYN-ACKs of a passive connection, from the first SYN on, carry one initial sequence number
exactly if a pending SYN-ACK is built only while none has been sent. -/
theorem one_isn_iff {t : Stack} {e : Stack.Env} {src dst : UInt32} {l i : ℕ} {s : Segment}
    (hi : t.connAlloc = some i) (evs : List OpenEvent) :
    (∃ isn, Conn.OneIsn isn ((t.inputSyn e src dst l s).1.conns i) (t.inputSyn e src dst l s).2
        evs) ↔
      Conn.FlushFirst ((t.inputSyn e src dst l s).1.conns i) (t.inputSyn e src dst l s).2 evs :=
  ⟨fun ⟨_, h⟩ => h.flushFirst, (Stack.inputSyn_follows hi).oneIsn_of_flushFirst⟩

/-- A listener in slot 0, and a SYN to it. -/
def listenStack : Stack :=
  ⟨update (const ℕ Conn.blank) 0 { Conn.blank with state := .listen }, 7⟩

def sampleSyn : Segment := ⟨1000, 0, 100, 0, 0x50, tcpSyn, 0, 0, 0, [], []⟩

/-- The SYN is repeated after its SYN-ACK was sent. -/
theorem listenStack_one_isn :
    let r := listenStack.inputSyn ⟨0, true, ⟨true, true⟩, ⟨true, true⟩⟩ 2 1 0 sampleSyn
    ∃ isn, Conn.OneIsn isn (r.1.conns 1) r.2 [.segment 0 ⟨true, true⟩ ⟨true, true⟩ sampleSyn] :=
  (one_isn_iff (by decide) _).mpr fun _ => ⟨False.elim, trivial⟩

/-- ARP does not know the peer, which is behind the gateway. The repeated SYN is answered with the
number before the initial one, an ARP packet of the peer with the initial one. -/
theorem listenStack_two_isns :
    let r := listenStack.inputSyn ⟨0, false, ⟨true, true⟩, ⟨true, true⟩⟩ 2 1 0 sampleSyn
    ¬ ∃ isn, Conn.OneIsn isn (r.1.conns 1) r.2
      [.segment 0 ⟨true, true⟩ ⟨true, true⟩ sampleSyn, .arp 0 ⟨true, true⟩ 2] := by
  rintro r ⟨isn, h⟩
  exact ((h.flushFirst rfl).2 rfl).1 ⟨rfl, rfl, rfl⟩ ⟨_, List.mem_singleton_self _, rfl⟩

end Exploidus.Net
