import Exploidus.Lib.Chunks

/-! The SSH packet layer: plaintext framing, `chacha20-poly1305@openssh.com`, and the transport
that switches from one to the other.

ChaCha20 and Poly1305 are parameters. What a socket takes or gives in one call is an input. -/
namespace Exploidus.Ssh

/-- `SSH_PACKET_MAX`. -/
def sshPacketMax : ℕ := 35000

/-- 64 bytes: the main key and the header key. -/
abbrev Key := Fin 64 → UInt8

def Key.main (k : Key) : Fin 32 → UInt8 := fun i => k (i.castLE (by decide))

def Key.header (k : Key) : Fin 32 → UInt8 := fun i => k (i.natAdd 32)

/-- `chacha20_block` and `poly1305_auth`. -/
structure Primitives where
  block : (Fin 32 → UInt8) → UInt32 → List UInt8 → Fin 64 → UInt8
  poly1305 : (Fin 32 → UInt8) → List UInt8 → Fin 16 → UInt8

def zeroPrims : Primitives := ⟨fun _ _ _ _ => 0, fun _ _ _ => 0⟩

def putU32 (v : UInt32) : List UInt8 :=
  [(v >>> 24).toUInt8, (v >>> 16).toUInt8, (v >>> 8).toUInt8, v.toUInt8]

def getU32 (p : List UInt8) : UInt32 :=
  (p.getD 0 0).toUInt32 <<< 24 ||| (p.getD 1 0).toUInt32 <<< 16 ||| (p.getD 2 0).toUInt32 <<< 8 |||
    (p.getD 3 0).toUInt32

def chachaNonce (seq : UInt32) : List UInt8 := List.replicate 8 0 ++ putU32 seq

namespace Primitives
variable (prims : Primitives)

/-- `chacha20_xor`. -/
def xor (key : Fin 32 → UInt8) (counter : UInt32) (nonce data : List UInt8) : List UInt8 :=
  data.mapIdx fun i b => b ^^^ prims.block key (counter + UInt32.ofNat (i / 64)) nonce
    ⟨i % 64, Nat.mod_lt i (by decide)⟩

/-- The Poly1305 tag of a packet, under the first half of block 0. -/
def tag (key : Key) (seq : UInt32) (data : List UInt8) : List UInt8 :=
  List.ofFn (prims.poly1305
    (fun i => prims.block key.main 0 (chachaNonce seq) (i.castLE (by decide))) data)

end Primitives

/-- `send_all`: the bytes the socket takes, and whether it takes all. -/
def sendAll (xsend : ℕ → ℕ) (buf : List UInt8) : List UInt8 × Bool :=
  Chunks.push 4096 xsend buf.length 0 buf

/-- `recv_exact` from call `k` of `xrecv` on. -/
def recvExact (xrecv : ℕ → ℕ) (k len : ℕ) (wire : List UInt8) :
    Option (List UInt8) × List UInt8 × ℕ :=
  Chunks.pull 4096 xrecv len k len wire

/-- The padding after `base` bytes: at least four, up to a multiple of eight. -/
def padding (base : ℕ) : ℕ :=
  let pad := 8 - base % 8
  if pad < 4 then pad + 8 else pad

/-- What a send reads from outside: how much `xsend` takes, what `getrandom` writes, and whether
it succeeds. -/
structure SendEnv where
  xsend : ℕ → ℕ
  random : ℕ → UInt8
  getrandom : Bool

/-- The length of the padding, the payload and the padding. -/
def body (payload : List UInt8) (pad : ℕ) (random : ℕ → UInt8) : List UInt8 :=
  UInt8.ofNat pad :: payload ++ (List.range pad).map random

/-- A packet before it is encrypted, with `pad` bytes of padding. -/
def packet (payload : List UInt8) (pad : ℕ) (random : ℕ → UInt8) : List UInt8 :=
  putU32 (UInt32.ofNat (1 + payload.length + pad)) ++ body payload pad random

/-- `plain_send`. -/
def plainSend (e : SendEnv) (payload : List UInt8) : List UInt8 × Bool :=
  if sshPacketMax < payload.length then ([], false)
  else
    let pad := padding (4 + 1 + payload.length)
    if sshPacketMax + 64 < 4 + (1 + payload.length + pad) then ([], false)
    else sendAll e.xsend (packet payload pad e.random)

/-- `plain_recv`: the payload and what is left on the wire. -/
def plainRecv (xrecv : ℕ → ℕ) (wire : List UInt8) : Option (List UInt8) × List UInt8 :=
  match recvExact xrecv 0 4 wire with
  | (none, rest, _) => (none, rest)
  | (some lenbuf, rest, k) =>
    let packetLength := (getU32 lenbuf).toNat
    if packetLength < 5 ∨ sshPacketMax < packetLength then (none, rest)
    else
      match recvExact xrecv k packetLength rest with
      | (none, rest, _) => (none, rest)
      | (some buf, rest, _) =>
        let pad := (buf.getD 0 0).toNat
        if packetLength < pad + 1 then (none, rest)
        else (some ((buf.drop 1).take (packetLength - pad - 1)), rest)

def sealPacket (prims : Primitives) (key : Key) (seq : UInt32) (payload : List UInt8) (pad : ℕ)
    (random : ℕ → UInt8) : List UInt8 :=
  let nonce := chachaNonce seq
  let head := prims.xor key.header 0 nonce (putU32 (UInt32.ofNat (1 + payload.length + pad)))
  let data := head ++ prims.xor key.main 1 nonce (body payload pad random)
  data ++ prims.tag key seq data

/-- `enc_send`. -/
def encSend (prims : Primitives) (key : Key) (seq : UInt32) (e : SendEnv) (payload : List UInt8) :
    List UInt8 × Bool :=
  let pad := padding (1 + payload.length)
  if sshPacketMax < payload.length ∨ sshPacketMax < 1 + payload.length + pad then ([], false)
  else if !e.getrandom then ([], false)
  else sendAll e.xsend (sealPacket prims key seq payload pad e.random)

/-- `enc_recv`. -/
def encRecv (prims : Primitives) (key : Key) (seq : UInt32) (xrecv : ℕ → ℕ) (wire : List UInt8) :
    Option (List UInt8) × List UInt8 :=
  let nonce := chachaNonce seq
  match recvExact xrecv 0 4 wire with
  | (none, rest, _) => (none, rest)
  | (some head, rest, k) =>
    let packetLength := (getU32 (prims.xor key.header 0 nonce head)).toNat
    if packetLength < 8 ∨ sshPacketMax < packetLength ∨ packetLength % 8 ≠ 0 then (none, rest)
    else
      match recvExact xrecv k (packetLength + 16) rest with
      | (none, rest, _) => (none, rest)
      | (some buf, rest, _) =>
        let sealed := buf.take packetLength
        if prims.tag key seq (head ++ sealed) ≠ buf.drop packetLength then (none, rest)
        else
          let plain := prims.xor key.main 1 nonce sealed
          let pad := (plain.getD 0 0).toNat
          if pad < 4 ∨ packetLength ≤ pad + 1 then (none, rest)
          else (some ((plain.drop 1).take (packetLength - pad - 1)), rest)

/-- `ssh_transport_t` without the socket. -/
structure Transport where
  seqSend : UInt32
  seqRecv : UInt32
  strict : Bool
  encSend : Bool
  encRecv : Bool
  keySend : Key
  keyRecv : Key

namespace Transport
variable (prims : Primitives)

/-- `ssh_transport_init`. -/
def init : Transport := ⟨0, 0, false, false, false, fun _ => 0, fun _ => 0⟩

/-- `ssh_send`: the transport, the bytes put on the wire and the result. -/
def sshSend (t : Transport) (e : SendEnv) (payload : List UInt8) : Transport × List UInt8 × Bool :=
  let r := if t.encSend then Ssh.encSend prims t.keySend t.seqSend e payload
    else plainSend e payload
  (if r.2 then { t with seqSend := t.seqSend + 1 } else t, r)

/-- `ssh_recv`: the transport, the payload and what is left on the wire. -/
def sshRecv (t : Transport) (xrecv : ℕ → ℕ) (wire : List UInt8) :
    Transport × Option (List UInt8) × List UInt8 :=
  let r := if t.encRecv then Ssh.encRecv prims t.keyRecv t.seqRecv xrecv wire
    else plainRecv xrecv wire
  (if r.1.isSome then { t with seqRecv := t.seqRecv + 1 } else t, r)

/-- `ssh_transport_start_send_crypto`. -/
def startSendCrypto (t : Transport) (key : Key) : Transport :=
  { t with keySend := key, encSend := true, seqSend := if t.strict then 0 else t.seqSend }

/-- `ssh_transport_start_recv_crypto`. -/
def startRecvCrypto (t : Transport) (key : Key) : Transport :=
  { t with keyRecv := key, encRecv := true, seqRecv := if t.strict then 0 else t.seqRecv }

end Transport

end Exploidus.Ssh
