import Mathlib.Tactic

/-! TCP connections: the receive ring, outgoing segments and incoming ones.

Numbers of the wire are in host order. Below TCP there are packet buffers, which may run out, and
`ip4_output`, which may fail; what happens to an attempt is an input of the model. -/
namespace Exploidus.Net

def tcpFin : UInt8 := 0x01
def tcpSyn : UInt8 := 0x02
def tcpPsh : UInt8 := 0x08
def tcpAck : UInt8 := 0x10

/-- `TCP_BUF_SIZE`. -/
def tcpBufSize : ℕ := 32768

/-- `NETBUF_CAP - NETBUF_HEADROOM`. -/
def netbufPayload : ℕ := 1536 - 256

inductive TcpState where
  | closed | listen | synSent | synRecv | established | finWait1 | finWait2 | closeWait | closing
  | lastAck | timeWait
  deriving DecidableEq

/-- `tcp_conn_t` without the send buffer, which nothing uses; pointers to connections are indices
into the table. -/
structure Conn where
  state : TcpState
  localIp : UInt32
  remoteIp : UInt32
  localPort : UInt16
  remotePort : UInt16
  sndNxt : UInt32
  sndUna : UInt32
  rcvNxt : UInt32
  rcvWnd : UInt16
  sndWnd : UInt16
  rxBuf : ℕ → UInt8
  rxHead : UInt16
  rxTail : UInt16
  next : Option ℕ
  pendingSynack : Bool
  tsRecent : UInt32
  partner : Option ℕ

/-- What `memset` and `conn_alloc` leave in a slot. -/
def Conn.blank : Conn where
  state := .closed
  localIp := 0
  remoteIp := 0
  localPort := 0
  remotePort := 0
  sndNxt := 0
  sndUna := 0
  rcvNxt := 0
  rcvWnd := 32768
  sndWnd := 0
  rxBuf := fun _ => 0
  rxHead := 0
  rxTail := 0
  next := none
  pendingSynack := false
  tsRecent := 0
  partner := none

/-! The checksum. -/

/-- The sum of the 16-bit big-endian words of a byte string. -/
def addWords : UInt32 → List UInt8 → UInt32
  | sum, a :: b :: rest => addWords (sum + (a.toUInt32 <<< 8 ||| b.toUInt32)) rest
  | sum, [a] => sum + a.toUInt32 <<< 8
  | sum, [] => sum

def foldSum (sum : UInt32) : UInt32 := (sum &&& (0xFFFF : UInt32)) + (sum >>> 16)

/-- `inet_cksum_pseudo`; after two turns of its last loop nothing is above 16 bits. -/
def inetCksumPseudo (src dst : UInt32) (proto : UInt8) (segLen : UInt16) (data : List UInt8) :
    UInt16 :=
  let low : UInt32 := 0xFFFF
  let sum := (src >>> 16) + (src &&& low) + (dst >>> 16) + (dst &&& low) + proto.toUInt32 +
    segLen.toUInt32
  (~~~foldSum (foldSum (addWords sum data))).toUInt16

/-! Segments. -/

/-- A TCP segment: the header, the options and the payload. -/
structure Segment where
  srcPort : UInt16
  dstPort : UInt16
  seq : UInt32
  ack : UInt32
  dataOffset : UInt8
  flags : UInt8
  window : UInt16
  checksum : UInt16
  urgent : UInt16
  options : List UInt8
  payload : List UInt8

def be16 (n : UInt16) : List UInt8 := [(n >>> 8).toUInt8, n.toUInt8]

def be32 (n : UInt32) : List UInt8 :=
  [(n >>> 24).toUInt8, (n >>> 16).toUInt8, (n >>> 8).toUInt8, n.toUInt8]

def Segment.bytes (s : Segment) : List UInt8 :=
  be16 s.srcPort ++ be16 s.dstPort ++ be32 s.seq ++ be32 s.ack ++ [s.dataOffset, s.flags] ++
    be16 s.window ++ be16 s.checksum ++ be16 s.urgent ++ s.options ++ s.payload

/-- What happens to an attempt to send a segment: whether there is a packet buffer, and what
`ip4_output` returns. -/
structure Outcome where
  alloc : Bool
  output : Bool

/-- The segments handed to `ip4_output`, oldest first, with its result. -/
abbrev Log := List (Segment × Bool)

/-- The options of a SYN: MSS, two NOPs and the timestamps. -/
def synOptions (ticks : UInt64) (tsRecent : UInt32) : List UInt8 :=
  [2, 4, 5, 180, 1, 1, 8, 10] ++ be32 ticks.toUInt32 ++ be32 tsRecent

namespace Conn

/-- The segment that `tcp_send_segment` builds. The headroom of a packet buffer takes the options
and the headers of all layers. -/
def segment (c : Conn) (ticks : UInt64) (flags : UInt8) (data : List UInt8) : Segment :=
  let options := if flags &&& tcpSyn ≠ 0 then synOptions ticks c.tsRecent else []
  let s : Segment :=
    { srcPort := c.localPort, dstPort := c.remotePort, seq := c.sndNxt
      ack := if flags &&& tcpAck ≠ 0 then c.rcvNxt else 0
      dataOffset := UInt8.ofNat ((20 + options.length) / 4) <<< 4
      flags := flags, window := c.rcvWnd, checksum := 0, urgent := 0
      options := options, payload := data }
  { s with checksum :=
      inetCksumPseudo c.localIp c.remoteIp 6 (UInt16.ofNat s.bytes.length) s.bytes }

/-- `tcp_send_segment`: the connection, the segment handed to `ip4_output` and the result. -/
def sendSegment (c : Conn) (ticks : UInt64) (o : Outcome) (flags : UInt8) (data : List UInt8) :
    Conn × Log × Bool :=
  if !o.alloc then (c, [], false)
  else if netbufPayload < data.length then (c, [], false)
  else
    let c' := { c with
      sndNxt := c.sndNxt + (if flags &&& (tcpSyn ||| tcpFin) ≠ 0 then 1 else 0) +
        UInt32.ofNat data.length }
    (c', [(c.segment ticks flags data, o.output)], o.output)

/-! The receive ring. -/

/-- `rx_available`. -/
def rxAvailable (c : Conn) : UInt16 := (c.rxHead - c.rxTail) &&& 32767

def rxPut (c : Conn) (b : UInt8) : Conn :=
  { c with
    rxBuf := Function.update c.rxBuf (c.rxHead &&& 32767).toNat b
    rxHead := c.rxHead + 1 }

/-- `rx_push`. -/
def rxPush (c : Conn) (data : List UInt8) : Conn :=
  let c' := (data.take (tcpBufSize - c.rxAvailable.toNat)).foldl rxPut c
  { c' with rcvWnd := 32768 - c'.rxAvailable }

/-- `tcp_recv`: the connection, the bytes and the result. -/
def tcpRecv (c : Conn) (len : UInt16) : Conn × List UInt8 × ℤ :=
  let n := min c.rxAvailable len
  let bytes := (List.range n.toNat).map fun i => c.rxBuf ((c.rxTail + UInt16.ofNat i) &&& 32767).toNat
  ({ c with rxTail := c.rxTail + n }, bytes, n.toNat)

/-- The loop of the loopback path of `tcp_send` over the receive ring of the partner, with the
number of bytes written so far. -/
def loopPut : List UInt8 → Conn → ℕ → Conn × ℕ
  | [], p, written => (p, written)
  | b :: data, p, written =>
    if 32768 - p.rxAvailable = 0 then (p, written) else loopPut data (p.rxPut b) (written + 1)

/-! Incoming segments. -/

/-- `tcp_input` on an established connection. -/
def inputEstablished (c : Conn) (ticks : UInt64) (o1 o2 : Outcome) (s : Segment) : Conn × Log :=
  -- in order, or out of order and answered by a duplicate acknowledgement
  let r :=
    if s.payload = [] then (c, [], true)
    else if s.seq = c.rcvNxt then
      let c := c.rxPush s.payload
      let c := { c with rcvNxt := c.rcvNxt + UInt32.ofNat s.payload.length }
      c.sendSegment ticks o1 tcpAck []
    else c.sendSegment ticks o1 tcpAck []
  let c := if s.flags &&& tcpAck ≠ 0 then { r.1 with sndUna := s.ack } else r.1
  if s.flags &&& tcpFin ≠ 0 then
    let r' := { c with rcvNxt := c.rcvNxt + 1, state := .closeWait }.sendSegment ticks o2 tcpAck []
    (r'.1, r.2.1 ++ r'.2.1)
  else (c, r.2.1)

/-- `tcp_input` once the connection of a segment has been found. -/
def input (c : Conn) (ticks : UInt64) (o1 o2 : Outcome) (s : Segment) : Conn × Log :=
  let c := { c with sndWnd := s.window }
  match c.state with
  | .synRecv =>
    if s.flags &&& tcpAck ≠ 0 ∧ s.ack = c.sndNxt then ({ c with state := .established }, [])
    else if s.flags &&& tcpSyn ≠ 0 then
      -- the SYN again: the SYN-ACK is sent again with its sequence number
      let first := c.sndNxt - 1
      let r := { c with rcvNxt := s.seq + 1, sndNxt := first }.sendSegment ticks o1
        (tcpSyn ||| tcpAck) []
      ({ r.1 with sndNxt := first + 1 }, r.2.1)
    else (c, [])
  | .synSent =>
    if s.flags &&& (tcpSyn ||| tcpAck) = tcpSyn ||| tcpAck then
      let r := { c with rcvNxt := s.seq + 1, sndUna := s.ack, state := .established }.sendSegment
        ticks o1 tcpAck []
      (r.1, r.2.1)
    else (c, [])
  | .established => c.inputEstablished ticks o1 o2 s
  | .finWait1 =>
    let c := if s.flags &&& tcpAck ≠ 0 then { c with state := .finWait2 } else c
    if s.flags &&& tcpFin ≠ 0 then
      let r := { c with rcvNxt := c.rcvNxt + 1 }.sendSegment ticks o1 tcpAck []
      ({ r.1 with state := .timeWait }, r.2.1)
    else (c, [])
  | .finWait2 =>
    if s.flags &&& tcpFin ≠ 0 then
      let r := { c with rcvNxt := c.rcvNxt + 1 }.sendSegment ticks o1 tcpAck []
      ({ r.1 with state := .timeWait }, r.2.1)
    else (c, [])
  | .lastAck => (if s.flags &&& tcpAck ≠ 0 then { c with state := .closed } else c, [])
  | .timeWait => ({ c with state := .closed }, [])
  | .closed | .listen | .closeWait | .closing => (c, [])

end Conn

/-! The table of connections. -/

/-- `g_conns`, of which the first 32 entries count, and `g_iss`. -/
structure Stack where
  conns : ℕ → Conn
  iss : UInt32

def peerTs : ℕ → List UInt8 → UInt32 → UInt32
  | 0, _, ts => ts
  | _, [], ts => ts
  | fuel + 1, kind :: rest, ts =>
    if kind = 0 then ts
    else if kind = 1 then peerTs fuel rest ts
    else match rest with
      | [] => ts
      | len :: body =>
        if len < 2 ∨ body.length + 2 < len.toNat then ts
        else
          let ts := if kind = 8 ∧ len = 10 then
              (body.take 4).foldl (fun (n : UInt32) b => n <<< 8 ||| b.toUInt32) 0
            else ts
          peerTs fuel (body.drop (len.toNat - 2)) ts

def honeypotPorts : List UInt16 := [23, 3389, 6379, 27017, 5900, 445]

namespace Stack

def slot (s : Stack) (p : Conn → Bool) : Option ℕ := (List.range 32).find? fun i => p (s.conns i)

def set (s : Stack) (i : ℕ) (c : Conn) : Stack :=
  { s with conns := Function.update s.conns i c }

def connFind (s : Stack) (remoteIp : UInt32) (remotePort localPort : UInt16) : Option ℕ :=
  s.slot fun c => c.state ≠ .closed ∧ c.localPort = localPort ∧ c.remotePort = remotePort ∧
    c.remoteIp = remoteIp

def listenerFind (s : Stack) (localPort : UInt16) : Option ℕ :=
  s.slot fun c => c.state = .listen ∧ c.localPort = localPort

def connAlloc (s : Stack) : Option ℕ := s.slot fun c => c.state = .closed

structure Env where
  ticks : UInt64
  arpKnown : Bool
  o1 : Outcome
  o2 : Outcome

def inputSyn (s : Stack) (e : Env) (src dst : UInt32) (listener : ℕ) (seg : Segment) :
    Stack × Log :=
  match s.connAlloc with
  | none => (s, [])
  | some i =>
    let c := { Conn.blank with
      state := .synRecv, localIp := dst, remoteIp := src, localPort := seg.dstPort
      remotePort := seg.srcPort, sndNxt := s.iss, rcvNxt := seg.seq + 1, sndWnd := seg.window
      tsRecent := peerTs seg.options.length seg.options 0, next := (s.conns listener).next }
    let s := { s with iss := s.iss + 1 }.set listener { s.conns listener with next := some i }
    if e.arpKnown then
      let r := c.sendSegment e.ticks e.o1 (tcpSyn ||| tcpAck) []
      (s.set i r.1, r.2.1)
    else (s.set i { c with pendingSynack := true }, [])

/-- `tcp_input` of a segment whose header length fits it, which `tcp_input` checks; the last
component says whether a SYN to a honeypot port is reported. -/
def tcpInput (s : Stack) (e : Env) (src dst : UInt32) (seg : Segment) : Stack × Log × Bool :=
  let honeypot := decide (seg.flags &&& tcpSyn ≠ 0 ∧ seg.dstPort ∈ honeypotPorts)
  match s.connFind src seg.srcPort seg.dstPort with
  | some i =>
    let r := (s.conns i).input e.ticks e.o1 e.o2 seg
    (s.set i r.1, r.2, honeypot)
  | none =>
    match s.listenerFind seg.dstPort with
    | none => (s, [], honeypot)
    | some listener =>
      if seg.flags &&& tcpSyn = 0 then (s, [], honeypot)
      else
        let r := s.inputSyn e src dst listener seg
        (r.1, r.2, honeypot)

end Stack

/-! Sending. -/

/-- A count returned as `int16_t`. -/
def toInt16 (n : ℕ) : ℤ := if n % 65536 < 32768 then (n % 65536 : ℕ) else (n % 65536 : ℕ) - 65536

/-- The loop of `tcp_send`, with `sent` bytes sent so far; a turn sends at least one byte. -/
def Conn.sendLoop (ticks : UInt64) (outcomes : ℕ → Outcome) (data : List UInt8) :
    ℕ → Conn → ℕ → ℕ → Log → Conn × ℕ × Log
  | 0, c, _, sent, log => (c, sent, log)
  | fuel + 1, c, k, sent, log =>
    if data.length ≤ sent then (c, sent, log)
    else
      let chunk := (data.drop sent).take 1460
      let r := c.sendSegment ticks (outcomes k) (tcpPsh ||| tcpAck) chunk
      if r.2.2 then sendLoop ticks outcomes data fuel r.1 (k + 1) (sent + chunk.length) (log ++ r.2.1)
      else (r.1, sent, log ++ r.2.1)

/-- `tcp_send` of fewer than 65536 bytes: the table, the segments and the result. -/
def Stack.tcpSend (s : Stack) (iface : Bool) (ticks : UInt64) (outcomes : ℕ → Outcome) (i : ℕ)
    (data : List UInt8) : Stack × Log × ℤ :=
  let c := s.conns i
  if c.state ≠ .established then (s, [], -1)
  else if data = [] then (s, [], 0)
  else match c.partner with
    | some j =>
      let r := Conn.loopPut data (s.conns j) 0
      (s.set j r.1, [], toInt16 r.2)
    | none =>
      if !iface then (s, [], -1)
      else
        let r := c.sendLoop ticks outcomes data data.length 0 0 []
        (s.set i r.1, r.2.2, toInt16 r.2.1)

end Exploidus.Net
