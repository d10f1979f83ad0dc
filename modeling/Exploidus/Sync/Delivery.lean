import Exploidus.Sync.Effects

/-! Messages arrive once, in order and unchanged, and no receiver sleeps while it has one. -/
namespace Exploidus.Sync
open Proc RingBuffer

def pending : Option Inbox → List Content
  | none => []
  | some b => b.ring.toList.map Msg.content

structure InboxOk (b : Option Inbox) (sent received : List Content) : Prop where
  delivered : sent = received ++ pending b
  waiting : ∀ {x}, b = some x → x.waiting = true → x.ring.count = 0

section
variable {s : System} {call : Call} {d : Data} {i : Slot} {b : Inbox} {sent received : List Content}

theorem content_copyOver (old msg : Msg) (pid : ℕ) :
    (old.copyOver (msg.fromUser pid)).content = (msg.fromUser pid).content := by
  have hlen : (msg.fromUser pid).len ≤ payloadSize := by
    unfold Msg.fromUser
    dsimp only
    split
    · exact Nat.le_of_lt ‹_›
    · exact Nat.le_refl _
  unfold Msg.content Msg.copyOver
  dsimp only
  rw [Nat.min_eq_left hlen]
  congr 1
  exact List.map_congr_left fun i hi => if_pos (List.mem_range.mp hi)

section
variable (h : InboxOk (some b) sent received)
include h

theorem InboxOk.push (v : Msg) (hlt : b.ring.count < queueDepth) :
    InboxOk (some ⟨b.ring.push v hlt, false⟩) (sent ++ [v.content]) received := by
  refine ⟨?_, fun hx hw => ?_⟩
  · rw [h.delivered, pending, pending, Ring.toList_push, List.map_append, List.append_assoc]
    rfl
  · cases hx
    cases hw

theorem InboxOk.pop (hpos : 0 < b.ring.count) :
    InboxOk (some { b with ring := b.ring.pop hpos }) sent
      (received ++ [(b.ring.slots b.ring.head).content]) := by
  refine ⟨?_, fun hx hw => ?_⟩
  · rw [h.delivered, pending, pending, Ring.toList_pop _ hpos, List.map_cons, List.append_assoc]
    rfl
  · cases hx
    exact absurd (h.waiting rfl hw) hpos.ne'

theorem InboxOk.wait (hpos : ¬ 0 < b.ring.count) :
    InboxOk (some { b with waiting := true }) sent received :=
  ⟨h.delivered, fun hx _ => by cases hx; exact Nat.eq_zero_of_not_pos hpos⟩

end

theorem inboxOk_step (h : InboxOk (s.inboxes i) (sentTo i s.log) (receivedBy i s.log))
    (he : Effect s call d) : InboxOk (d.inboxes i) (sentTo i d.log) (receivedBy i d.log) := by
  cases he with
  | none => exact h
  | acquire m c hl => exact h
  | lockQueue m pid hl => exact h
  | release m c _ _ => exact h
  | take k hk => exact h
  | semQueue k pid hk => exact h
  | post k _ _ => exact h
  | send j c b msg hlt hb =>
    by_cases hij : i = j
    · subst hij
      rw [hb] at h
      have hpush := h.push ((b.ring.slots b.ring.tail).copyOver
        (msg.fromUser (s.sched.procs c).pid)) hlt
      rw [content_copyOver] at hpush
      simpa [sentTo, receivedBy] using hpush
    · simpa [sentTo, receivedBy, hij, Ne.symm hij] using h
  | receive j b hlt hb =>
    by_cases hij : i = j
    · subst hij
      rw [hb] at h
      simpa [sentTo, receivedBy] using h.pop hlt
    · simpa [sentTo, receivedBy, hij, Ne.symm hij] using h
  | recvWait j b hlt hb =>
    by_cases hij : i = j
    · subst hij
      rw [hb] at h
      simpa [System.data] using h.wait hlt
    · simpa [System.data, hij] using h

/-- In every state that a run reaches in which no process leaves the table: the messages for which a
send to a process succeeded are, in this order, those it received and then those in its inbox; and
a process inside `ipc_recv` with a message in its inbox is not blocked, but runs or is ready in its
queue. -/
theorem ipc_run (initial : ℕ → ℤ) (alloc : Slot → Bool) {cs : List Call}
    (hcs : ∀ c ∈ cs, c.Staying) {f : System} (hf : f = (boot initial alloc).run cs) (i : Slot) :
    sentTo i f.log = receivedBy i f.log ++ pending (f.inboxes i) ∧
      ∀ y, f.phases i = .receiving y → pending (f.inboxes i) ≠ [] →
        (f.sched.procs i).state ≠ .blocked ∧
          ((f.sched.procs i).state = .running ∧ f.sched.current = some i ∨
            (f.sched.procs i).state = .ready ∧ InQueue f.sched i) := by
  obtain ⟨hco, hin⟩ : Coherent f ∧ InboxOk (f.inboxes i) (sentTo i f.log) (receivedBy i f.log) := by
    rw [hf]
    refine (Along.of_forall (s := boot initial alloc) hcs).invariant
      (Q := fun s => Coherent s ∧ InboxOk (s.inboxes i) (sentTo i s.log) (receivedBy i s.log))
      ⟨boot_coherent initial alloc, ?_⟩
      fun s c hc h => ⟨h.1.step hc, inboxOk_step h.2 (step_effect s c)⟩
    unfold boot
    dsimp only
    cases alloc i with
    | false => exact ⟨rfl, fun hx => by cases hx⟩
    | true => exact ⟨rfl, fun hx hw => by cases hx; cases hw⟩
  refine ⟨hin.delivered, fun y hp hne => ?_⟩
  have hb : (f.sched.procs i).state ≠ .blocked := by
    intro hb
    obtain ⟨b, hbox, hw⟩ := hco.registered (w := .inbox) (by rw [hp]; rfl) hb
    rw [hbox] at hne
    have hzero := hin.waiting hbox hw
    refine hne ?_
    rw [pending, List.length_eq_zero_iff.mp ((Ring.length_toList _).trans hzero), List.map_nil]
  exact ⟨hb, hco.runnable (fun hfree => by rw [hp] at hfree; cases hfree) hb⟩

end

/-- A child sends two messages to its parent, which sleeps in `ipc_recv`. -/
def sampleMessages : List Call :=
  [.other (.spawn 3 true true), .recv, .other .yield, .send 1 ⟨0, 7, fun _ => 5, 2⟩,
    .send 1 ⟨0, 8, fun _ => 6, 300⟩, .other .yield, .resume]

theorem sampleMessages_run :
    receivedBy 0 ((boot (fun _ => 0) fun _ => true).run sampleMessages).log = [⟨2, 7, [5, 5]⟩] ∧
      sentTo 0 ((boot (fun _ => 0) fun _ => true).run sampleMessages).log =
        receivedBy 0 ((boot (fun _ => 0) fun _ => true).run sampleMessages).log ++
          pending (((boot (fun _ => 0) fun _ => true).run sampleMessages).inboxes 0) := by
  have hcs : ∀ c ∈ sampleMessages, c.Staying := by decide
  exact ⟨by decide +kernel, (ipc_run (fun _ => 0) (fun _ => true) hcs rfl 0).1⟩

end Exploidus.Sync
