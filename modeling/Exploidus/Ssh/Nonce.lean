import Exploidus.Ssh.Packet

/-! Sequence numbers as nonces: which packets leave the machine under one of them. -/
namespace Exploidus.Ssh

/-- A call of `ssh_send` on an encrypted transport: the key, the sequence number and the packet
before encryption, the bytes that reached the wire, and the result. -/
structure Record where
  key : Key
  seq : UInt32
  plain : List UInt8
  wire : List UInt8
  ok : Bool

namespace Transport
variable (prims : Primitives)

def record (t : Transport) (e : SendEnv) (payload : List UInt8) : Record where
  key := t.keySend
  seq := t.seqSend
  plain := packet payload (padding (1 + payload.length)) e.random
  wire := (t.sshSend prims e payload).2.1
  ok := (t.sshSend prims e payload).2.2

def records : Transport → List (SendEnv × List UInt8) → List Record
  | _, [] => []
  | t, (e, payload) :: sends =>
    t.record prims e payload :: records (t.sshSend prims e payload).1 sends

/-- No earlier call has failed after some of its bytes had left, and fewer than 2³² calls have
succeeded. -/
def MaySend (earlier : List Record) : Prop :=
  (∀ r ∈ earlier, r.wire ≠ [] → r.ok = true) ∧ earlier.countP (·.ok) < 2 ^ 32

def MaySendAll : Transport → List Record → List (SendEnv × List UInt8) → Prop
  | _, _, [] => True
  | t, earlier, (e, payload) :: sends => MaySend earlier ∧
    MaySendAll (t.sshSend prims e payload).1 (earlier ++ [t.record prims e payload]) sends

end Transport

/-- Different packets are not on the wire under one key and one sequence number. -/
def Record.Apart (a b : Record) : Prop :=
  a.wire ≠ [] → b.wire ≠ [] → a.key = b.key → a.seq = b.seq → a.plain = b.plain

structure Numbered (first : UInt32) (earlier : List Record) (t : Transport) : Prop where
  seq : t.seqSend = first + UInt32.ofNat (earlier.countP (·.ok))
  used : ∀ r ∈ earlier, r.ok = true → ∃ j < earlier.countP (·.ok), r.seq = first + UInt32.ofNat j

namespace Transport
variable {prims : Primitives} {t : Transport} {first : UInt32} {earlier : List Record}

theorem numbered_step (h : Numbered first earlier t) (e : SendEnv) (payload : List UInt8) :
    Numbered first (earlier ++ [t.record prims e payload]) (t.sshSend prims e payload).1 := by
  have hseq : (t.sshSend prims e payload).1.seqSend =
      t.seqSend + if (t.record prims e payload).ok then 1 else 0 := by
    cases hok : (t.record prims e payload).ok with
    | true =>
      have hr : (if t.encSend then Ssh.encSend prims t.keySend t.seqSend e payload
        else plainSend e payload).2 := hok
      simp [sshSend, hr]
    | false =>
      have hr : (if t.encSend then Ssh.encSend prims t.keySend t.seqSend e payload
        else plainSend e payload).2 = false := hok
      simp [sshSend, hr]
  have hcount : (earlier ++ [t.record prims e payload]).countP (·.ok) =
      earlier.countP (·.ok) + if (t.record prims e payload).ok then 1 else 0 := by
    simp [List.countP_append, List.countP_cons]
  constructor
  · rw [hseq, hcount, h.seq]
    cases (t.record prims e payload).ok <;> simp [UInt32.add_assoc]
  intro r hr hok
  rw [hcount]
  rcases List.mem_append.mp hr with hr | hr
  · obtain ⟨j, hj, hrseq⟩ := h.used r hr hok
    exact ⟨j, by omega, hrseq⟩
  · obtain rfl : r = t.record prims e payload := by simpa using hr
    exact ⟨earlier.countP Record.ok, by simp [hok], h.seq⟩

theorem apart_of_maySend (h : Numbered first earlier t) (hmay : MaySend earlier) (e : SendEnv)
    (payload : List UInt8) : ∀ r ∈ earlier, r.Apart (t.record prims e payload) := by
  intro r hr hwire _ _ hseq
  obtain ⟨j, hj, hrseq⟩ := h.used r hr (hmay.1 r hr hwire)
  have heq : first + UInt32.ofNat j = first + UInt32.ofNat (earlier.countP (·.ok)) := by
    rw [← hrseq, hseq, ← h.seq]
    rfl
  have hnat := congrArg UInt32.toNat ((UInt32.add_right_inj first).mp heq)
  rw [UInt32.toNat_ofNat', UInt32.toNat_ofNat'] at hnat
  have := hmay.2
  omega

theorem apart_of_maySendAll {sends : List (SendEnv × List UInt8)} (h : Numbered first earlier t)
    (hearlier : earlier.Pairwise Record.Apart) (hmay : MaySendAll prims t earlier sends) :
    (earlier ++ records prims t sends).Pairwise Record.Apart := by
  induction sends generalizing t earlier with
  | nil => simpa [records] using hearlier
  | cons s sends ih =>
    obtain ⟨e, payload⟩ := s
    obtain ⟨hnow, hrest⟩ := hmay
    have happart : (earlier ++ [t.record prims e payload]).Pairwise Record.Apart := by
      rw [List.pairwise_append]
      refine ⟨hearlier, List.pairwise_singleton _ _, fun r hr r' hr' => ?_⟩
      obtain rfl : r' = t.record prims e payload := by simpa using hr'
      exact apart_of_maySend h hnow e payload r hr
    simpa [records] using ih (numbered_step h e payload) happart hrest

/-- In every run after a key is installed in which nothing is sent after a call that failed half
way, no two packets leave under one nonce. -/
theorem nonces_run (prims : Primitives) (t : Transport) (key : Key)
    (sends : List (SendEnv × List UInt8))
    (hmay : MaySendAll prims (t.startSendCrypto key) [] sends) :
    (records prims (t.startSendCrypto key) sends).Pairwise Record.Apart := by
  have hstart : Numbered (t.startSendCrypto key).seqSend [] (t.startSendCrypto key) :=
    ⟨by simp, by simp⟩
  simpa using apart_of_maySendAll hstart List.Pairwise.nil hmay

/-- A send of one byte of which the socket takes everything, or one byte of the packet before it
fails. -/
def sampleSend (full : Bool) (b : UInt8) : SendEnv × List UInt8 :=
  (⟨fun k => if full then 64 else if k = 0 then 1 else 0, fun _ => 0, true⟩, [b])

theorem sampleSend_nonces : (records zeroPrims (init.startSendCrypto (Function.const _ 7))
      [sampleSend true 1, sampleSend false 2]).Pairwise Record.Apart := by
  apply nonces_run
  refine ⟨⟨by simp, by simp⟩, ⟨?_, ?_⟩, trivial⟩
  · intro r hr _
    obtain rfl := List.mem_singleton.mp hr
    decide
  · exact Nat.lt_of_le_of_lt List.countP_le_length (by decide)

/-- One byte of a packet leaves before the send fails; the next packet has the same nonce. -/
theorem sampleSend_reuse : ¬ (records zeroPrims (init.startSendCrypto (Function.const _ 7))
      [sampleSend false 1, sampleSend true 2]).Pairwise Record.Apart := by
  intro h
  have hapart := (List.pairwise_cons.mp h).1 _ List.mem_cons_self
  refine absurd (hapart ?_ ?_ rfl ?_) ?_
  · decide
  · decide
  · decide
  · decide

end Transport

end Exploidus.Ssh
