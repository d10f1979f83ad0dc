import Exploidus.Net.Tcp

/-! The receive side of a connection as a byte stream. -/
namespace Exploidus.Net
open Function Conn Nat List

/-- The `n` bytes of a stream from position `a` on. -/
def slice (f : ℕ → UInt8) (a n : ℕ) : List UInt8 := (range n).map fun k => f (a + k)

@[simp] theorem length_slice (f : ℕ → UInt8) (a n : ℕ) : (slice f a n).length = n := by
  simp [slice]

theorem slice_append (f : ℕ → UInt8) (a m n : ℕ) :
    slice f a m ++ slice f (a + m) n = slice f a (m + n) := by
  simp [slice, range_add, add_assoc]

theorem slice_succ (f : ℕ → UInt8) (a n : ℕ) : slice f a (n + 1) = f a :: slice f (a + 1) n := by
  simp [slice, range_succ_eq_map, comp_def, add_comm, add_left_comm]

structure Conn.Rings (c : Conn) (f : ℕ → UInt8) (read got : ℕ) : Prop where
  le : read ≤ got
  lt : got - read < tcpBufSize
  head : c.rxHead.toNat % tcpBufSize = (c.rxTail.toNat + (got - read)) % tcpBufSize
  bytes : ∀ k < got - read, c.rxBuf ((c.rxTail.toNat + k) % tcpBufSize) = f (read + k)

namespace Conn
variable {c : Conn} {f : ℕ → UInt8} {read got : ℕ}

theorem and_size (n : UInt16) : (n &&& 32767).toNat = n.toNat % tcpBufSize := by
  rw [UInt16.toNat_and]
  exact and_two_pow_sub_one_eq_mod n.toNat 15

theorem slot_toNat (t : UInt16) (i : ℕ) :
    ((t + UInt16.ofNat i) &&& 32767).toNat = (t.toNat + i) % tcpBufSize := by
  rw [and_size, UInt16.toNat_add, UInt16.toNat_ofNat']
  unfold tcpBufSize
  omega

/-- The loopback path never finds a ring full. -/
theorem space_ne_zero (c : Conn) : ¬ 32768 - c.rxAvailable = 0 := by
  intro h
  have hmod : c.rxAvailable.toNat = _ := and_size (c.rxHead - c.rxTail)
  have hlt := mod_lt (c.rxHead - c.rxTail).toNat (show 0 < tcpBufSize by decide)
  have hfull : 32768 - c.rxAvailable = 32768 - 32768 := h.trans (by decide)
  rw [← hmod, (UInt16.sub_right_inj 32768).mp hfull] at hlt
  exact absurd hlt (by decide)

section
variable (h : c.Rings f read got)
include h

theorem Rings.rxAvailable : c.rxAvailable.toNat = got - read := by
  have hhead := h.head
  have hlt := h.lt
  have ht := c.rxTail.toNat_lt
  have hh := c.rxHead.toNat_lt
  rw [Conn.rxAvailable, and_size, UInt16.toNat_sub]
  unfold tcpBufSize at *
  omega

theorem Rings.rxPut (hroom : got + 1 - read < tcpBufSize) :
    (c.rxPut (f got)).Rings f read (got + 1) := by
  have hle := h.le
  have hhead := h.head
  have hh := c.rxHead.toNat_lt
  constructor
  · omega
  · exact hroom
  · simp only [Conn.rxPut, UInt16.toNat_add, UInt16.reduceToNat]
    unfold tcpBufSize at *
    omega
  intro k hk
  simp only [Conn.rxPut, and_size, hhead]
  by_cases hlast : k = got - read
  · rw [hlast, update_self]
    congr 1
    omega
  rw [update_of_ne]
  · exact h.bytes k (by omega)
  unfold tcpBufSize at *
  omega

theorem Rings.foldl (n : ℕ) (hroom : got + n - read < tcpBufSize) :
    ((slice f got n).foldl Conn.rxPut c).Rings f read (got + n) := by
  induction n generalizing c got with
  | zero => exact h
  | succ n ih =>
    rw [slice_succ, foldl_cons, show got + (n + 1) = got + 1 + n by omega]
    exact ih (h.rxPut (by omega)) (by omega)

theorem Rings.congr {c' : Conn} (hbuf : c'.rxBuf = c.rxBuf)
    (hhead : c'.rxHead = c.rxHead) (htail : c'.rxTail = c.rxTail) : c'.Rings f read got := by
  constructor
  · exact h.le
  · exact h.lt
  · rw [hhead, htail]
    exact h.head
  · rw [hbuf, htail]
    exact h.bytes

theorem Rings.rxPush {n : ℕ} (hroom : c.rxAvailable.toNat + n < tcpBufSize) :
    (c.rxPush (slice f got n)).Rings f read (got + n) := by
  have hle := h.le
  rw [h.rxAvailable] at hroom
  have htake : (slice f got n).take (tcpBufSize - c.rxAvailable.toNat) = slice f got n := by
    apply take_of_length_le
    rw [length_slice, h.rxAvailable]
    omega
  unfold Conn.rxPush
  rw [htake]
  exact (h.foldl n (by omega)).congr rfl rfl rfl

theorem Rings.loopPut {n : ℕ} (written : ℕ) (hroom : c.rxAvailable.toNat + n < tcpBufSize) :
    (loopPut (slice f got n) c written).1.Rings f read (got + n) ∧
      (loopPut (slice f got n) c written).2 = written + n := by
  induction n generalizing c got written with
  | zero => exact ⟨h, rfl⟩
  | succ n ih =>
    have hle := h.le
    have havail := h.rxAvailable
    rw [havail] at hroom
    rw [slice_succ, loopPut, if_neg c.space_ne_zero, show got + (n + 1) = got + 1 + n by omega,
      show written + (n + 1) = written + 1 + n by omega]
    have hput := h.rxPut (by omega)
    apply ih hput
    rw [hput.rxAvailable]
    omega

theorem Rings.recv_bytes (len : UInt16) :
    (c.tcpRecv len).2.1 = slice f read (min len.toNat (got - read)) := by
  have hn : (min c.rxAvailable len).toNat = min len.toNat (got - read) := by
    rw [UInt16.toNat_min, h.rxAvailable, min_comm]
  simp only [tcpRecv, hn, slice]
  apply map_congr_left
  intro k hk
  rw [slot_toNat]
  exact h.bytes k (by simp at hk; omega)

theorem Rings.recv (len : UInt16) :
    (c.tcpRecv len).1.Rings f (read + min len.toNat (got - read)) got := by
  have hle := h.le
  have hlt := h.lt
  have hhead := h.head
  have hn : (min c.rxAvailable len).toNat = min len.toNat (got - read) := by
    rw [UInt16.toNat_min, h.rxAvailable, min_comm]
  have htail : (c.tcpRecv len).1.rxTail.toNat % tcpBufSize =
      (c.rxTail.toNat + min len.toNat (got - read)) % tcpBufSize := by
    simp only [tcpRecv, UInt16.toNat_add, hn]
    unfold tcpBufSize
    omega
  constructor
  · omega
  · omega
  · change c.rxHead.toNat % tcpBufSize = _
    rw [add_mod, htail, ← add_mod, hhead]
    congr 1
    omega
  · intro k hk
    change c.rxBuf _ = _
    rw [add_mod, htail, ← add_mod, add_assoc, h.bytes _ (by omega), add_assoc]

end

theorem sendSegment_fst (c : Conn) (ticks : UInt64) (o : Outcome) (flags : UInt8)
    (data : List UInt8) : ∃ n, (c.sendSegment ticks o flags data).1 = { c with sndNxt := n } := by
  unfold sendSegment
  split
  · exact ⟨c.sndNxt, rfl⟩
  split
  · exact ⟨c.sndNxt, rfl⟩
  · exact ⟨_, rfl⟩

theorem sendSegment_ack {ticks : UInt64} {o : Outcome} {data : List UInt8} {e : Segment × Bool}
    (he : e ∈ (c.sendSegment ticks o tcpAck data).2.1) : e.1.ack = c.rcvNxt := by
  unfold sendSegment at he
  split at he
  · simp at he
  split at he
  · simp at he
  simp only [mem_singleton] at he
  subst he
  rfl

end Conn

/-! Runs of the receive side. -/

/-- What happens to an established connection: a segment comes in that carries the bytes of the
peer's stream from some position on, the partner on the same machine sends, or a process reads. -/
inductive RxEvent where
  | segment (s : Segment) (pos : ℕ) (ticks : UInt64) (o1 o2 : Outcome)
  | loopback (data : List UInt8)
  | recv (len : UInt16)

/-- The connection, the bytes that a read returns and the segments sent. -/
def Conn.rxStep (c : Conn) : RxEvent → Conn × List UInt8 × Log
  | .segment s _ ticks o1 o2 => ((c.input ticks o1 o2 s).1, [], (c.input ticks o1 o2 s).2)
  | .loopback data => ((loopPut data c 0).1, [], [])
  | .recv len => ((c.tcpRecv len).1, (c.tcpRecv len).2.1, [])

/-- Whether a segment is the next one of an established connection. -/
def Conn.Accepts (c : Conn) (s : Segment) : Prop :=
  c.state = .established ∧ s.payload ≠ [] ∧ s.seq = c.rcvNxt
  deriving Decidable

/-- The length of the stream that the kernel has taken over. -/
def Conn.accepted (c : Conn) (got : ℕ) : RxEvent → ℕ
  | .segment s _ _ _ _ => if c.Accepts s then got + s.payload.length else got
  | .loopback data => got + data.length
  | .recv _ => got

/-- The bytes of an event are those of the peer's stream, whose first byte has the sequence number
`irs`. The peer is on the wire, or it is the partner. -/
def Conn.Carries (c : Conn) (f : ℕ → UInt8) (irs : UInt32) (got : ℕ) : RxEvent → Prop
  | .segment s pos _ _ _ =>
    c.partner = none ∧ s.seq = irs + UInt32.ofNat pos ∧ s.payload = slice f pos s.payload.length
  | .loopback data => c.partner ≠ none ∧ data = slice f got data.length
  | .recv _ => True

/-- The bytes taken over fit in the ring and leave one byte of it free, a sequence number does not
stand for a position 2³² bytes away, and a FIN comes in order. -/
def Conn.Fits (c : Conn) (got : ℕ) : RxEvent → Prop
  | .segment s pos _ _ _ =>
    (c.Accepts s → pos = got ∧ c.rxAvailable.toNat + s.payload.length < tcpBufSize) ∧
      (c.state = .established → s.flags &&& tcpFin ≠ 0 → s.seq = c.rcvNxt)
  | .loopback data => c.rxAvailable.toNat + data.length < tcpBufSize
  | .recv _ => True

/-- The events of a run, each of them with the bytes of the stream. -/
def CarriesAll (f : ℕ → UInt8) (irs : UInt32) : Conn → ℕ → List RxEvent → Prop
  | _, _, [] => True
  | c, got, ev :: evs =>
    c.Carries f irs got ev ∧ CarriesAll f irs (c.rxStep ev).1 (c.accepted got ev) evs

def FitsAll : Conn → ℕ → List RxEvent → Prop
  | _, _, [] => True
  | c, got, ev :: evs => c.Fits got ev ∧ FitsAll (c.rxStep ev).1 (c.accepted got ev) evs

/-- The bytes returned so far are the first ones of the stream, and what the next read returns
goes on from there: nothing that was taken over is lost. -/
structure Conn.StreamOk (c : Conn) (f : ℕ → UInt8) (returned : List UInt8) (got : ℕ) : Prop where
  returned_eq : returned = slice f 0 returned.length
  le : returned.length ≤ got
  unread : ∀ len : UInt16, (c.tcpRecv len).2.1 =
    slice f returned.length (min len.toNat (got - returned.length))
  available : c.rxAvailable.toNat = got - returned.length

def RxEvent.Ends : RxEvent → Prop
  | .segment s _ _ _ _ => s.flags &&& tcpFin ≠ 0
  | .loopback _ | .recv _ => False

/-- An acknowledgement covers the bytes taken over, and at most the FIN behind them. -/
def AcksOk (irs : UInt32) (got : ℕ) (ev : RxEvent) (log : Log) : Prop :=
  ∀ e ∈ log, e.1.ack = irs + UInt32.ofNat got ∨ ev.Ends ∧ e.1.ack = irs + UInt32.ofNat got + 1

/-- The stream is kept in every state of a run, and no acknowledgement goes beyond it. -/
def StreamAlong (f : ℕ → UInt8) (irs : UInt32) : Conn → List UInt8 → ℕ → List RxEvent → Prop
  | c, returned, got, [] => c.StreamOk f returned got
  | c, returned, got, ev :: evs =>
    c.StreamOk f returned got ∧ AcksOk irs (c.accepted got ev) ev (c.rxStep ev).2.2 ∧
      StreamAlong f irs (c.rxStep ev).1 (returned ++ (c.rxStep ev).2.1) (c.accepted got ev) evs

structure Conn.Streams (c : Conn) (f : ℕ → UInt8) (irs : UInt32) (returned : List UInt8)
    (got : ℕ) : Prop where
  returned_eq : returned = slice f 0 returned.length
  rings : c.Rings f returned.length got
  state : c.state = .established ∨ c.state = .closeWait
  rcvNxt : c.state = .established → c.partner = none → c.rcvNxt = irs + UInt32.ofNat got

namespace Conn
variable {c : Conn} {f : ℕ → UInt8} {irs : UInt32} {returned : List UInt8} {got : ℕ}

theorem Streams.streamOk (h : c.Streams f irs returned got) : c.StreamOk f returned got := by
  constructor
  · exact h.returned_eq
  · exact h.rings.le
  · exact h.rings.recv_bytes
  · exact h.rings.rxAvailable

def inputData (c : Conn) (ticks : UInt64) (o : Outcome) (s : Segment) : Conn × Log × Bool :=
  if s.payload = [] then (c, [], true)
  else if s.seq = c.rcvNxt then
    { c.rxPush s.payload with
      rcvNxt := (c.rxPush s.payload).rcvNxt + UInt32.ofNat s.payload.length }.sendSegment ticks o
        tcpAck []
  else c.sendSegment ticks o tcpAck []

structure SameLink (c c' : Conn) : Prop where
  rcvNxt : c'.rcvNxt = c.rcvNxt
  state : c'.state = c.state
  partner : c'.partner = c.partner

theorem foldl_rxPut_sameLink (data : List UInt8) (c : Conn) : c.SameLink (data.foldl rxPut c) := by
  induction data generalizing c with
  | nil => exact ⟨rfl, rfl, rfl⟩
  | cons b data ih =>
    obtain ⟨hnxt, hstate, hpartner⟩ := ih (c.rxPut b)
    exact ⟨hnxt, hstate, hpartner⟩

theorem rxPush_sameLink (data : List UInt8) (c : Conn) : c.SameLink (c.rxPush data) := by
  obtain ⟨hnxt, hstate, hpartner⟩ :=
    foldl_rxPut_sameLink (data.take (tcpBufSize - c.rxAvailable.toNat)) c
  constructor <;> simp only [rxPush, hnxt, hstate, hpartner]

theorem loopPut_sameLink (data : List UInt8) (c : Conn) (written : ℕ) :
    c.SameLink (loopPut data c written).1 := by
  induction data generalizing c written with
  | nil => exact ⟨rfl, rfl, rfl⟩
  | cons b data ih =>
    rw [loopPut]
    split
    · exact ⟨rfl, rfl, rfl⟩
    obtain ⟨hnxt, hstate, hpartner⟩ := ih (c.rxPut b) (written + 1)
    exact ⟨hnxt, hstate, hpartner⟩

theorem ofNat_add32 (m n : ℕ) : UInt32.ofNat (m + n) = UInt32.ofNat m + UInt32.ofNat n := by
  simp

section
variable (h : c.Streams f irs returned got)
include h

theorem Streams.sendSegment (ticks : UInt64) (o : Outcome) (flags : UInt8) (data : List UInt8) :
    (c.sendSegment ticks o flags data).1.Streams f irs returned got := by
  obtain ⟨n, hn⟩ := c.sendSegment_fst ticks o flags data
  rw [hn]
  exact ⟨h.returned_eq, h.rings.congr rfl rfl rfl, h.state, h.rcvNxt⟩

theorem Streams.push {n : ℕ} (hroom : c.rxAvailable.toNat + n < tcpBufSize) :
    { c.rxPush (slice f got n) with
      rcvNxt := (c.rxPush (slice f got n)).rcvNxt + UInt32.ofNat n }.Streams f irs returned
        (got + n) := by
  have hlink := rxPush_sameLink (slice f got n) c
  have hrings := h.rings.rxPush hroom
  generalize c.rxPush (slice f got n) = c' at *
  constructor
  · exact h.returned_eq
  · exact hrings.congr rfl rfl rfl
  · simpa only [hlink.state] using h.state
  intro hest hwire
  simp only [hlink.state] at hest
  simp only [hlink.partner] at hwire
  simp only [hlink.rcvNxt, h.rcvNxt hest hwire, ofNat_add32, UInt32.add_assoc]

theorem Streams.inputData (hest : c.state = .established)
    (ticks : UInt64) (o : Outcome) {s : Segment} {pos : ℕ} {o2 : Outcome}
    (hcarries : c.Carries f irs got (.segment s pos ticks o o2))
    (hfits : c.Fits got (.segment s pos ticks o o2)) :
    let got' := c.accepted got (.segment s pos ticks o o2)
    (c.inputData ticks o s).1.Streams f irs returned got' ∧
      c.SameLink { (c.inputData ticks o s).1 with rcvNxt := c.rcvNxt } ∧
      ∀ e ∈ (c.inputData ticks o s).2.1, e.1.ack = irs + UInt32.ofNat got' := by
  intro got'
  obtain ⟨hwire, -, hpay⟩ := hcarries
  unfold Conn.inputData
  by_cases hacc : c.Accepts s
  · have hgot : got' = got + s.payload.length := if_pos hacc
    obtain ⟨-, hne, hseq⟩ := hacc
    obtain ⟨hpos, hroom⟩ := hfits.1 ⟨hest, hne, hseq⟩
    rw [hpos] at hpay
    have hpush := h.push hroom
    have hlink := rxPush_sameLink s.payload c
    rw [← hpay, ← hgot] at hpush
    rw [if_neg hne, if_pos hseq]
    generalize c.rxPush s.payload = c' at *
    refine ⟨hpush.sendSegment ticks o tcpAck [], ?_, ?_⟩
    · obtain ⟨n, hn⟩ := sendSegment_fst
        { c' with rcvNxt := c'.rcvNxt + UInt32.ofNat s.payload.length } ticks o tcpAck []
      rw [hn]
      exact ⟨rfl, hlink.state, hlink.partner⟩
    · intro e he
      rw [sendSegment_ack he]
      exact hpush.rcvNxt (hlink.state.trans hest) (hlink.partner.trans hwire)
  · have hgot : got' = got := if_neg hacc
    rw [hgot]
    by_cases hempty : s.payload = []
    · rw [if_pos hempty]
      exact ⟨h, ⟨rfl, rfl, rfl⟩, by simp⟩
    rw [if_neg hempty, if_neg fun hseq => hacc ⟨hest, hempty, hseq⟩]
    refine ⟨h.sendSegment ticks o tcpAck [], ?_, ?_⟩
    · obtain ⟨n, hn⟩ := c.sendSegment_fst ticks o tcpAck []
      rw [hn]
      exact ⟨rfl, rfl, rfl⟩
    · intro e he
      rw [sendSegment_ack he, h.rcvNxt hest hwire]

theorem Streams.inputEstablished
    (hest : c.state = .established) {s : Segment} {pos : ℕ} {ticks : UInt64} {o1 o2 : Outcome}
    (hcarries : c.Carries f irs got (.segment s pos ticks o1 o2))
    (hfits : c.Fits got (.segment s pos ticks o1 o2)) :
    let got' := c.accepted got (.segment s pos ticks o1 o2)
    (c.inputEstablished ticks o1 o2 s).1.Streams f irs returned got' ∧
      AcksOk irs got' (.segment s pos ticks o1 o2) (c.inputEstablished ticks o1 o2 s).2 := by
  intro got'
  obtain ⟨hdata, hlink, hacks⟩ := h.inputData hest ticks o1 hcarries hfits
  have heq : c.inputEstablished ticks o1 o2 s =
      let r := c.inputData ticks o1 s
      let c := if s.flags &&& tcpAck ≠ 0 then { r.1 with sndUna := s.ack } else r.1
      if s.flags &&& tcpFin ≠ 0 then
        let r' :=
          { c with rcvNxt := c.rcvNxt + 1, state := .closeWait }.sendSegment ticks o2 tcpAck []
        (r'.1, r.2.1 ++ r'.2.1)
      else (c, r.2.1) := rfl
  rw [heq]
  generalize c.inputData ticks o1 s = r at *
  have hack : ∃ n, (if s.flags &&& tcpAck ≠ 0 then { r.1 with sndUna := s.ack } else r.1) =
      { r.1 with sndUna := n } := by
    split
    · exact ⟨s.ack, rfl⟩
    · exact ⟨r.1.sndUna, rfl⟩
  obtain ⟨una, huna⟩ := hack
  simp only [huna]
  by_cases hfin : s.flags &&& tcpFin ≠ 0
  · rw [if_pos hfin]
    constructor
    · apply Streams.sendSegment
      exact ⟨hdata.returned_eq, hdata.rings.congr rfl rfl rfl, .inr rfl, fun hc => by cases hc⟩
    intro e he
    rcases mem_append.mp he with he | he
    · exact .inl (hacks e he)
    right
    refine ⟨hfin, ?_⟩
    rw [sendSegment_ack he, hdata.rcvNxt (hlink.state.trans hest)
      (hlink.partner.trans hcarries.1)]
  · rw [if_neg hfin]
    constructor
    · exact ⟨hdata.returned_eq, hdata.rings.congr rfl rfl rfl, hdata.state, hdata.rcvNxt⟩
    · exact fun e he => .inl (hacks e he)

theorem Streams.step {ev : RxEvent} (hcarries : c.Carries f irs got ev) (hfits : c.Fits got ev) :
    (c.rxStep ev).1.Streams f irs (returned ++ (c.rxStep ev).2.1) (c.accepted got ev) ∧
      AcksOk irs (c.accepted got ev) ev (c.rxStep ev).2.2 := by
  cases ev with
  | segment s pos ticks o1 o2 =>
    simp only [rxStep, append_nil]
    rcases h.state with hest | hwait
    · have hinput : c.input ticks o1 o2 s =
          { c with sndWnd := s.window }.inputEstablished ticks o1 o2 s := by
        simp only [input, hest]
      rw [hinput]
      have h' : { c with sndWnd := s.window }.Streams f irs returned got :=
        ⟨h.returned_eq, h.rings.congr rfl rfl rfl, h.state, h.rcvNxt⟩
      exact h'.inputEstablished hest hcarries hfits
    have hinput : c.input ticks o1 o2 s = ({ c with sndWnd := s.window }, []) := by
      simp only [input, hwait]
    have hgot : c.accepted got (.segment s pos ticks o1 o2) = got := by
      simp [accepted, Accepts, hwait]
    rw [hinput, hgot]
    constructor
    · exact ⟨h.returned_eq, h.rings.congr rfl rfl rfl, h.state, h.rcvNxt⟩
    · simp [AcksOk]
  | loopback data =>
    obtain ⟨hpartner, hdata⟩ := hcarries
    have hlink := loopPut_sameLink data c 0
    have hput : (loopPut data c 0).1.Rings f returned.length (got + data.length) := by
      rw [hdata]
      simpa using (h.rings.loopPut 0 hfits).1
    simp only [rxStep, accepted, append_nil]
    generalize (loopPut data c 0).1 = c' at *
    constructor
    · constructor
      · exact h.returned_eq
      · exact hput
      · simpa only [hlink.state] using h.state
      · exact fun _ hwire => absurd (hlink.partner ▸ hwire) hpartner
    · simp [AcksOk]
  | recv len =>
    simp only [rxStep, accepted, h.rings.recv_bytes len]
    constructor
    · constructor
      · rw [length_append, length_slice, ← slice_append, ← h.returned_eq, zero_add]
      · simpa using h.rings.recv len
      · exact h.state
      · exact h.rcvNxt
    · simp [AcksOk]

end

theorem rings_of_recv (hbytes : (c.tcpRecv 65535).2.1 = slice f 0 c.rxAvailable.toNat) :
    c.Rings f 0 c.rxAvailable.toNat := by
  have ht := c.rxTail.toNat_lt
  have hh := c.rxHead.toNat_lt
  have havail : c.rxAvailable.toNat = (c.rxHead - c.rxTail).toNat % tcpBufSize := and_size _
  have hn : (min c.rxAvailable 65535).toNat = c.rxAvailable.toNat := by
    have hlt := c.rxAvailable.toNat_lt
    simp only [UInt16.toNat_min, UInt16.reduceToNat]
    omega
  constructor
  · exact zero_le _
  · rw [havail]
    exact mod_lt _ (by simp [tcpBufSize])
  · rw [Nat.sub_zero, havail, UInt16.toNat_sub]
    unfold tcpBufSize
    omega
  intro k hk
  simp only [tcpRecv, hn, slice, map_inj_left, mem_range] at hbytes
  rw [← slot_toNat]
  exact hbytes k hk

/-- In every run of an established connection whose events meet the condition, the bytes read are
the first ones of the peer's stream, all that was acknowledged is there to be read, and no
acknowledgement goes beyond what was stored. -/
theorem stream_run (c : Conn) (f : ℕ → UInt8) (irs : UInt32) (evs : List RxEvent)
    (hest : c.state = .established)
    (hbytes : (c.tcpRecv 65535).2.1 = slice f 0 c.rxAvailable.toNat)
    (hnxt : c.partner = none → c.rcvNxt = irs + UInt32.ofNat c.rxAvailable.toNat)
    (hcarries : CarriesAll f irs c c.rxAvailable.toNat evs)
    (hfits : FitsAll c c.rxAvailable.toNat evs) :
    StreamAlong f irs c [] c.rxAvailable.toNat evs := by
  have hstart : c.Streams f irs [] c.rxAvailable.toNat :=
    ⟨rfl, rings_of_recv hbytes, .inl hest, fun _ => hnxt⟩
  generalize c.rxAvailable.toNat = got at *
  generalize ([] : List UInt8) = returned at *
  clear hest hbytes hnxt
  induction evs generalizing c returned got with
  | nil => exact hstart.streamOk
  | cons ev evs ih =>
    obtain ⟨hnext, hacks⟩ := hstart.step hcarries.1 hfits.1
    exact ⟨hstart.streamOk, hacks, ih _ _ hcarries.2 hfits.2 _ hnext⟩

end Conn

/-- An established connection with `n` unread bytes, all of them zero. -/
def openConn (n : ℕ) : Conn :=
  { blank with
    state := .established, rxHead := UInt16.ofNat n, rcvNxt := UInt32.ofNat n }

/-- A segment with one zero byte at a position of the stream that starts at sequence number 0. -/
def zeroByte (pos : ℕ) : RxEvent :=
  .segment
    { srcPort := 0, dstPort := 0, seq := UInt32.ofNat pos, ack := 0, dataOffset := 80
      flags := tcpAck, window := 32768, checksum := 0, urgent := 0, options := [], payload := [0] }
    pos 0 ⟨true, true⟩ ⟨true, true⟩

theorem openConn_rings {n : ℕ} (hn : n < tcpBufSize) : (openConn n).Rings (const ℕ 0) 0 n := by
  constructor
  · exact zero_le n
  · exact hn
  · simp only [openConn, blank, UInt16.toNat_ofNat', UInt16.reduceToNat]
    unfold tcpBufSize at *
    omega
  · intro k hk
    rfl

theorem openConn_recv {n : ℕ} (hn : n < tcpBufSize) :
    ((openConn n).tcpRecv 65535).2.1 = slice (const ℕ 0) 0 n := by
  rw [(openConn_rings hn).recv_bytes]
  unfold tcpBufSize at hn
  simp only [UInt16.reduceToNat, show min 65535 (n - 0) = n by omega]

theorem zeroByte_carries (n : ℕ) : CarriesAll (const ℕ 0) 0 (openConn n) n [zeroByte n] := by
  simp [CarriesAll, Conn.Carries, zeroByte, openConn, blank, slice]

theorem zeroByte_accepted (n : ℕ) : (openConn n).accepted n (zeroByte n) = n + 1 := by
  simp [accepted, Conn.Accepts, zeroByte, openConn]

theorem zeroByte_full {n : ℕ} (hn : n + 1 = tcpBufSize) :
    ¬ StreamAlong (const ℕ 0) 0 (openConn n) [] n [zeroByte n] := by
  rintro ⟨-, -, hlast⟩
  have havail := hlast.available
  rw [zeroByte_accepted, rxAvailable, and_size] at havail
  have hlt := mod_lt
    (((openConn n).rxStep (zeroByte n)).1.rxHead -
      ((openConn n).rxStep (zeroByte n)).1.rxTail).toNat (show 0 < tcpBufSize by simp [tcpBufSize])
  rw [havail] at hlt
  simp [rxStep, zeroByte] at hlt
  omega

theorem openConn_stream : (openConn 0).state = .established ∧
      StreamAlong (const ℕ 0) 0 (openConn 0) [] (openConn 0).rxAvailable.toNat
        [zeroByte 0, .recv 4] := by
  refine ⟨rfl, stream_run (openConn 0) (const ℕ 0) 0 [zeroByte 0, .recv 4] rfl ?_ ?_
    ?_ ?_⟩
  · exact openConn_recv (by simp [tcpBufSize])
  · exact fun _ => rfl
  · exact ⟨(zeroByte_carries 0).1, trivial, trivial⟩
  refine ⟨⟨fun _ => ⟨rfl, ?_⟩, fun _ hfin => absurd (by decide) hfin⟩, trivial, trivial⟩
  simp [(openConn_rings (n := 0) (by simp [tcpBufSize])).rxAvailable, tcpBufSize]

/-- One byte into a ring with one byte of room is acknowledged, and the ring is empty. -/
theorem openConn_full_lost : (openConn 32767).state = .established ∧
      ((openConn 32767).tcpRecv 65535).2.1 = slice (const ℕ 0) 0 32767 ∧
      CarriesAll (const ℕ 0) 0 (openConn 32767) 32767 [zeroByte 32767] ∧
      ¬ StreamAlong (const ℕ 0) 0 (openConn 32767) [] 32767 [zeroByte 32767] :=
  ⟨rfl, openConn_recv (by simp [tcpBufSize]), zeroByte_carries 32767,
    zeroByte_full (by simp [tcpBufSize])⟩

end Exploidus.Net
