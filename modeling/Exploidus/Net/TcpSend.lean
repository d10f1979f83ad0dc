import Exploidus.Net.Tcp

/-! What `tcp_send` puts on the wire, and what it reports. -/
namespace Exploidus.Net
open Function
namespace Conn
variable {c : Conn} {ticks : UInt64} {outcomes : ℕ → Outcome} {data : List UInt8}

theorem sendSegment_data {o : Outcome} (ha : o.alloc) (hlen : data.length ≤ netbufPayload) :
    c.sendSegment ticks o (tcpPsh ||| tcpAck) data =
      ({ c with sndNxt := c.sndNxt + UInt32.ofNat data.length },
        [(c.segment ticks (tcpPsh ||| tcpAck) data, o.output)], o.output) := by
  have hflags : ¬ (tcpPsh ||| tcpAck) &&& (tcpSyn ||| tcpFin) ≠ 0 := by decide
  simp [sendSegment, ha, hlen, hflags]

theorem sendSegment_refused {o : Outcome} {flags : UInt8}
    (h : o.alloc = false ∨ netbufPayload < data.length) :
    c.sendSegment ticks o flags data = (c, [], false) := by
  rcases h with h | h <;> simp [sendSegment, h]

theorem sendLoop_refused {fuel : ℕ} (hfuel : fuel ≠ 0) (h0 : data ≠ [])
    (h : (outcomes 0).alloc = false ∨ netbufPayload < data.length) :
    c.sendLoop ticks outcomes data fuel 0 0 [] = (c, 0, []) := by
  obtain ⟨fuel, rfl⟩ := Nat.exists_eq_succ_of_ne_zero hfuel
  have hrefused : (outcomes 0).alloc = false ∨ netbufPayload < ((data.drop 0).take 1460).length := by
    apply h.imp_right
    intro hlen
    simp [netbufPayload] at hlen ⊢
    omega
  simp only [sendLoop, sendSegment_refused hrefused]
  simp [h0]

theorem sendLoop_one {fuel : ℕ} (hfuel : fuel ≠ 0) (h0 : data ≠ [])
    (hlen : data.length ≤ netbufPayload) (ha : (outcomes 0).alloc) :
    c.sendLoop ticks outcomes data fuel 0 0 [] =
      ({ c with sndNxt := c.sndNxt + UInt32.ofNat data.length },
        if (outcomes 0).output then data.length else 0,
        [(c.segment ticks (tcpPsh ||| tcpAck) data, (outcomes 0).output)]) := by
  obtain ⟨fuel, rfl⟩ := Nat.exists_eq_succ_of_ne_zero hfuel
  have htake : (data.drop 0).take 1460 = data := by
    simp [netbufPayload] at hlen ⊢
    omega
  simp only [sendLoop, htake, sendSegment_data ha hlen]
  rw [if_neg (by simpa using h0)]
  cases hout : (outcomes 0).output with
  | false => simp
  | true =>
    -- the loop is done after one turn
    cases fuel <;> simp [sendLoop]

end Conn

def Consecutive : UInt32 → List Segment → Prop
  | _, [] => True
  | seq, s :: ss => s.seq = seq ∧ Consecutive (seq + UInt32.ofNat s.payload.length) ss

def Log.successful (log : Log) : List Segment := (log.filter fun e => e.2).map Prod.fst

/-- The contract of `tcp_send`: a result of at least 0 counts the bytes that have been sent, in
order and at consecutive sequence numbers, and `snd_nxt` has advanced by it; all data are sent if
every `ip4_output` succeeds. -/
structure SendOk (c c' : Conn) (data : List UInt8) (log : Log) (n : ℤ) : Prop where
  payload : 0 ≤ n → (log.successful.map Segment.payload).flatten = data.take n.toNat
  consecutive : 0 ≤ n → Consecutive c.sndNxt log.successful
  sndNxt : 0 ≤ n → c'.sndNxt = c.sndNxt + UInt32.ofNat n.toNat
  whole : (∀ e ∈ log, e.2 = true) → n = data.length

section
variable {s : Stack} {i : ℕ} {data : List UInt8} {ticks : UInt64} {outcomes : ℕ → Outcome}

theorem toInt16_of_lt {n : ℕ} (h : n < 32768) : toInt16 n = n := by
  rw [toInt16, Nat.mod_eq_of_lt (by omega), if_pos h]

theorem add_length_ne (seq : UInt32) {n : ℕ} (h0 : n ≠ 0) (hn : n < 2 ^ 32) :
    seq + UInt32.ofNat n ≠ seq := by
  intro h
  have hz : UInt32.ofNat n = 0 := by simpa using h
  have hnat := congrArg UInt32.toNat hz
  rw [UInt32.toNat_ofNat_of_lt' hn] at hnat
  exact h0 hnat

theorem Stack.tcpSend_some (hstate : (s.conns i).state = .established)
    (hpartner : (s.conns i).partner = none) (h0 : data ≠ []) :
    s.tcpSend true ticks outcomes i data =
      let r := (s.conns i).sendLoop ticks outcomes data data.length 0 0 []
      (s.set i r.1, r.2.2, toInt16 r.2.1) := by
  simp [tcpSend, hstate, hpartner, h0]

/-- For every established connection without a loopback partner, all data of 1 to 65535 bytes and
every outcome of the attempts to send: `tcp_send` meets its contract exactly when the data fit one
packet buffer and that segment is sent. -/
theorem tcpSend_ok_iff (hstate : (s.conns i).state = .established)
    (hpartner : (s.conns i).partner = none) (h0 : data ≠ []) (hlen : data.length < 65536)
    (iface : Bool) (ticks : UInt64) (outcomes : ℕ → Outcome) :
    SendOk (s.conns i) ((s.tcpSend iface ticks outcomes i data).1.conns i) data
        (s.tcpSend iface ticks outcomes i data).2.1 (s.tcpSend iface ticks outcomes i data).2.2 ↔
      iface = true ∧ data.length ≤ netbufPayload ∧ (outcomes 0).alloc = true ∧
        (outcomes 0).output = true := by
  have hpos : data.length ≠ 0 := by simpa using h0
  cases iface with
  | false =>
    have hres : s.tcpSend false ticks outcomes i data = (s, [], -1) := by
      simp [Stack.tcpSend, hstate, hpartner, h0]
    simp only [hres, Bool.false_eq_true, false_and, iff_false]
    intro hok
    have := hok.whole (by simp)
    omega
  | true =>
    rw [Stack.tcpSend_some hstate hpartner h0]
    by_cases hfit : (outcomes 0).alloc = true ∧ data.length ≤ netbufPayload
    · obtain ⟨ha, hfit⟩ := hfit
      rw [Conn.sendLoop_one hpos h0 hfit ha]
      cases hout : (outcomes 0).output with
      | false =>
        -- nothing has been sent, but `snd_nxt` has advanced
        simp only [Bool.false_eq_true, and_false, iff_false]
        intro hok
        have hzero : toInt16 0 = 0 := rfl
        have hsnd := hok.sndNxt (by simp [hzero])
        simp only [Stack.set, update_self, if_false, hzero, Int.toNat_zero] at hsnd
        exact add_length_ne (s.conns i).sndNxt hpos (by omega) (by simpa using hsnd)
      | true =>
        have h16 : toInt16 data.length = data.length :=
          toInt16_of_lt (by simp [netbufPayload] at hfit; omega)
        simp only [hfit, ha, and_self, iff_true, if_true, h16]
        constructor
        · intro _
          simp [Log.successful, Conn.segment]
        · intro _
          simp [Log.successful, Conn.segment, Consecutive]
        · intro _
          simp [Stack.set]
        · intro _
          rfl
    · have hrefused : (outcomes 0).alloc = false ∨ netbufPayload < data.length := by
        rw [not_and_or] at hfit
        exact hfit.imp (by simp) (by simp)
      rw [Conn.sendLoop_refused hpos h0 hrefused]
      constructor
      · intro hok
        have := hok.whole (by simp)
        simp [toInt16] at this
        omega
      · rintro ⟨-, hfit', ha, -⟩
        exact absurd ⟨ha, hfit'⟩ hfit

end

/-- An established connection with nothing sent or received. -/
def sampleConn : Conn := { Conn.blank with state := .established }

def sampleStack : Stack := ⟨update (const ℕ Conn.blank) 0 sampleConn, 7⟩

theorem sampleStack_send_ok :
    SendOk sampleConn ((sampleStack.tcpSend true 0 (const ℕ ⟨true, true⟩) 0 [1, 2]).1.conns 0)
      [1, 2] (sampleStack.tcpSend true 0 (const ℕ ⟨true, true⟩) 0 [1, 2]).2.1
      (sampleStack.tcpSend true 0 (const ℕ ⟨true, true⟩) 0 [1, 2]).2.2 :=
  (tcpSend_ok_iff (s := sampleStack) (i := 0) rfl rfl (by decide) (by decide) true 0
    (const ℕ ⟨true, true⟩)).mpr (by decide)

/-- With 1281 bytes nothing is sent though nothing fails below; and when `ip4_output` fails for one
byte, the result is 0 but `snd_nxt` has advanced. -/
theorem sampleStack_send_fails :
    ((sampleStack.tcpSend true 0 (const ℕ ⟨true, true⟩) 0 (List.replicate 1281 0)).2.1 = [] ∧
      (sampleStack.tcpSend true 0 (const ℕ ⟨true, true⟩) 0
        (List.replicate 1281 0)).2.2 = 0) ∧
    (sampleStack.tcpSend true 0 (const ℕ ⟨true, false⟩) 0 [1]).2.2 = 0 ∧
    ((sampleStack.tcpSend true 0 (const ℕ ⟨true, false⟩) 0 [1]).1.conns 0).sndNxt =
      sampleConn.sndNxt + 1 := by
  have hlen : (List.replicate 1281 (0 : UInt8)).length = 1281 := List.length_replicate
  have h0 : List.replicate 1281 (0 : UInt8) ≠ [] :=
    List.ne_nil_of_length_pos (by rw [hlen]; decide)
  constructor
  · rw [Stack.tcpSend_some rfl rfl h0,
      Conn.sendLoop_refused (by rw [hlen]; decide) h0 (.inr (by rw [hlen]; decide))]
    exact ⟨rfl, rfl⟩
  · decide

end Exploidus.Net
