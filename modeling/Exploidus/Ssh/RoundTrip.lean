import Exploidus.Ssh.Packet

/-! What one transport sends, the other receives. -/
namespace Exploidus.Ssh
open Chunks Primitives List

/-! One packet. -/

theorem or_shift (a : ℕ) {b i : ℕ} (h : b < 2 ^ i) : a * 2 ^ i ||| b = a * 2 ^ i + b := by
  rw [Nat.mul_comm, Nat.two_pow_add_eq_or_of_lt h]

theorem getU32_toNat (a b c d : UInt8) : (getU32 [a, b, c, d]).toNat =
    ((a.toNat * 2 ^ 8 + b.toNat) * 2 ^ 8 + c.toNat) * 2 ^ 8 + d.toNat := by
  have ha := a.toNat_lt
  have hb := b.toNat_lt
  have hc := c.toNat_lt
  have hd := d.toNat_lt
  have h24 : (a.toUInt32 <<< 24).toNat = a.toNat * 2 ^ 24 := by
    simp [Nat.shiftLeft_eq]
    omega
  have h16 : (b.toUInt32 <<< 16).toNat = b.toNat * 2 ^ 16 := by
    simp [Nat.shiftLeft_eq]
    omega
  have h8 : (c.toUInt32 <<< 8).toNat = c.toNat * 2 ^ 8 := by
    simp [Nat.shiftLeft_eq]
    omega
  simp only [getU32, getD_cons_zero, getD_cons_succ, UInt32.toNat_or,
    UInt8.toNat_toUInt32, h24, h16, h8]
  rw [or_shift _ (by omega),
    show a.toNat * 2 ^ 24 + b.toNat * 2 ^ 16 = (a.toNat * 2 ^ 8 + b.toNat) * 2 ^ 16 by omega,
    or_shift _ (by omega), show (a.toNat * 2 ^ 8 + b.toNat) * 2 ^ 16 + c.toNat * 2 ^ 8 =
      ((a.toNat * 2 ^ 8 + b.toNat) * 2 ^ 8 + c.toNat) * 2 ^ 8 by omega,
    or_shift _ (by omega)]

theorem getU32_putU32 (v : UInt32) : getU32 (putU32 v) = v := by
  apply UInt32.toNat.inj
  have hv := v.toNat_lt
  rw [putU32, getU32_toNat]
  simp [Nat.shiftRight_eq_div_pow]
  omega

@[simp] theorem length_putU32 (v : UInt32) : (putU32 v).length = 4 := rfl

@[simp] theorem Primitives.length_xor (prims : Primitives) (key : Fin 32 → UInt8)
    (counter : UInt32) (nonce data : List UInt8) :
    (prims.xor key counter nonce data).length = data.length := by
  simp [Primitives.xor]

@[simp] theorem Primitives.xor_xor (prims : Primitives) (key : Fin 32 → UInt8) (counter : UInt32)
    (nonce data : List UInt8) :
    prims.xor key counter nonce (prims.xor key counter nonce data) = data := by
  apply ext_getElem
  · simp [Primitives.xor]
  · simp [Primitives.xor, UInt8.xor_assoc]

@[simp] theorem Primitives.length_tag (prims : Primitives) (key : Key) (seq : UInt32)
    (data : List UInt8) : (prims.tag key seq data).length = 16 := by
  simp [tag]

theorem padding_bounds (base : ℕ) :
    4 ≤ padding base ∧ padding base ≤ 11 ∧ (base + padding base) % 8 = 0 := by
  unfold padding
  dsimp only
  split <;> omega

@[simp] theorem length_body (payload : List UInt8) (pad : ℕ) (random : ℕ → UInt8) :
    (body payload pad random).length = 1 + payload.length + pad := by
  simp [body]
  omega

theorem payload_of_body (payload : List UInt8) {pad : ℕ} (random : ℕ → UInt8) (hpad : pad < 256) :
    ((body payload pad random).getD 0 0).toNat = pad ∧
      ((body payload pad random).drop 1).take (1 + payload.length + pad - pad - 1) = payload := by
  constructor
  · simp [body, Nat.mod_eq_of_lt hpad]
  rw [show 1 + payload.length + pad - pad - 1 = payload.length by omega]
  simp [body]

variable {xrecv : ℕ → ℕ} (hrecv : ∀ k, 0 < xrecv k)
include hrecv

theorem recvExact_append (k : ℕ) (data rest : List UInt8) :
    ∃ k', recvExact xrecv k data.length (data ++ rest) = (some data, rest, k') := by
  obtain ⟨k', hk'⟩ := pull_eq (show 0 < 4096 by decide) hrecv k (le_refl data.length)
    (show data.length ≤ (data ++ rest).length by simp)
  exact ⟨k', by rw [recvExact, hk', take_left, drop_left]⟩

theorem plainRecv_packet {payload : List UInt8} (hlen : payload.length ≤ sshPacketMax - 12)
    (random : ℕ → UInt8) (rest : List UInt8) :
    plainRecv xrecv (packet payload (padding (4 + 1 + payload.length)) random ++ rest) =
      (some payload, rest) := by
  obtain ⟨hlow, hhigh, -⟩ := padding_bounds (4 + 1 + payload.length)
  generalize padding (4 + 1 + payload.length) = pad at *
  unfold sshPacketMax at hlen
  obtain ⟨hpad, hpayload⟩ := payload_of_body payload random (show pad < 256 by omega)
  have hnum : (UInt32.ofNat (1 + payload.length + pad)).toNat = 1 + payload.length + pad := by
    rw [UInt32.toNat_ofNat']
    omega
  obtain ⟨k, hk⟩ := recvExact_append hrecv 0 (putU32 (UInt32.ofNat (1 + payload.length + pad)))
    (body payload pad random ++ rest)
  obtain ⟨k', hk'⟩ := recvExact_append hrecv k (body payload pad random) rest
  rw [length_putU32] at hk
  rw [length_body] at hk'
  rw [plainRecv, packet, append_assoc, hk]
  simp only [getU32_putU32, hnum]
  rw [if_neg (by unfold sshPacketMax; omega), hk']
  simp only [hpad, hpayload]
  rw [if_neg (by omega)]

theorem encRecv_sealPacket (prims : Primitives) (key : Key) (seq : UInt32) {payload : List UInt8}
    (hpos : payload ≠ []) (hlen : payload.length ≤ sshPacketMax - 12) (random : ℕ → UInt8)
    (rest : List UInt8) :
    encRecv prims key seq xrecv
      (sealPacket prims key seq payload (padding (1 + payload.length)) random ++ rest) =
      (some payload, rest) := by
  obtain ⟨hlow, hhigh, hmod⟩ := padding_bounds (1 + payload.length)
  have hne := length_pos_iff.mpr hpos
  generalize padding (1 + payload.length) = pad at *
  unfold sshPacketMax at hlen
  obtain ⟨hpad, hpayload⟩ := payload_of_body payload random (show pad < 256 by omega)
  have hnum : (UInt32.ofNat (1 + payload.length + pad)).toNat = 1 + payload.length + pad := by
    rw [UInt32.toNat_ofNat']
    omega
  -- the encrypted length, the encrypted body and the tag
  generalize hhead : prims.xor key.header 0 (chachaNonce seq)
    (putU32 (UInt32.ofNat (1 + payload.length + pad))) = head
  generalize hdata : prims.xor key.main 1 (chachaNonce seq) (body payload pad random) = data
  have hheadlen : head.length = 4 := by rw [← hhead, length_xor, length_putU32]
  have hdatalen : data.length = 1 + payload.length + pad := by
    rw [← hdata, length_xor, length_body]
  obtain ⟨k, hk⟩ := recvExact_append hrecv 0 head
    (data ++ prims.tag key seq (head ++ data) ++ rest)
  obtain ⟨k', hk'⟩ := recvExact_append hrecv k (data ++ prims.tag key seq (head ++ data)) rest
  rw [hheadlen] at hk
  rw [length_append, hdatalen, length_tag] at hk'
  have hwire : sealPacket prims key seq payload pad random ++ rest =
      head ++ (data ++ prims.tag key seq (head ++ data) ++ rest) := by
    simp only [sealPacket, hhead, hdata, append_assoc]
  have hlength : prims.xor key.header 0 (chachaNonce seq) head =
      putU32 (UInt32.ofNat (1 + payload.length + pad)) := by
    rw [← hhead, xor_xor]
  have hplain : prims.xor key.main 1 (chachaNonce seq) data = body payload pad random := by
    rw [← hdata, xor_xor]
  rw [encRecv, hwire]
  simp only [hk, hlength, getU32_putU32, hnum]
  rw [if_neg (by unfold sshPacketMax; omega), hk']
  simp only [← hdatalen, take_left, drop_left]
  simp only [hdatalen, hplain, hpad, hpayload]
  rw [if_neg (by simp), if_neg (by omega)]

omit hrecv

/-! One direction of a transport. -/

structure Half where
  seq : UInt32
  enc : Bool
  key : Key
  strict : Bool

namespace Half

def packet (prims : Primitives) (h : Half) (payload : List UInt8) (random : ℕ → UInt8) :
    List UInt8 :=
  if h.enc then sealPacket prims h.key h.seq payload (padding (1 + payload.length)) random
  else Ssh.packet payload (padding (4 + 1 + payload.length)) random

def next (h : Half) : Half := { h with seq := h.seq + 1 }

def rekey (h : Half) (key : Key) : Half :=
  { h with key := key, enc := true, seq := if h.strict then 0 else h.seq }

end Half

namespace Transport
variable (prims : Primitives) (t : Transport)

def sendHalf : Half := ⟨t.seqSend, t.encSend, t.keySend, t.strict⟩

def recvHalf : Half := ⟨t.seqRecv, t.encRecv, t.keyRecv, t.strict⟩

theorem sshSend_eq {e : SendEnv} {payload : List UInt8} (hsend : ∀ k, 0 < e.xsend k)
    (hlen : payload.length ≤ sshPacketMax - 12) (hrandom : t.encSend → e.getrandom) :
    t.sshSend prims e payload =
      ({ t with seqSend := t.seqSend + 1 }, t.sendHalf.packet prims payload e.random, true) := by
  have hall : ∀ buf, sendAll e.xsend buf = (buf, true) :=
    fun buf => push_eq (by decide) hsend 0 (le_refl buf.length)
  unfold sshPacketMax at hlen
  cases henc : t.encSend with
  | true =>
    obtain ⟨-, hhigh, -⟩ := padding_bounds (1 + payload.length)
    have hr : Ssh.encSend prims t.keySend t.seqSend e payload =
        (t.sendHalf.packet prims payload e.random, true) := by
      simp only [Ssh.encSend, hrandom henc, hall, sendHalf, Half.packet, henc]
      rw [if_neg (by unfold sshPacketMax; omega)]
      rfl
    simp [sshSend, henc, hr]
  | false =>
    obtain ⟨-, hhigh, -⟩ := padding_bounds (4 + 1 + payload.length)
    have hr : plainSend e payload = (t.sendHalf.packet prims payload e.random, true) := by
      simp only [plainSend, hall, sendHalf, Half.packet, henc]
      rw [if_neg (by unfold sshPacketMax; omega), if_neg (by unfold sshPacketMax; omega)]
      rfl
    simp [sshSend, henc, hr]

theorem sshSend_refused {e : SendEnv} (payload : List UInt8) (henc : t.encSend)
    (hrandom : e.getrandom = false) : t.sshSend prims e payload = (t, [], false) := by
  have hr : Ssh.encSend prims t.keySend t.seqSend e payload = ([], false) := by
    simp [Ssh.encSend, hrandom]
  simp [sshSend, henc, hr]

theorem sshRecv_packet (hrecv : ∀ k, 0 < xrecv k) {payload : List UInt8} (hpos : payload ≠ [])
    (hlen : payload.length ≤ sshPacketMax - 12) (random : ℕ → UInt8) (rest : List UInt8) :
    t.sshRecv prims xrecv (t.recvHalf.packet prims payload random ++ rest) =
      ({ t with seqRecv := t.seqRecv + 1 }, some payload, rest) := by
  cases henc : t.encRecv with
  | true =>
    have hr := encRecv_sealPacket hrecv prims t.keyRecv t.seqRecv hpos hlen random rest
    simp [sshRecv, recvHalf, Half.packet, henc, hr]
  | false =>
    have hr := plainRecv_packet hrecv hlen random rest
    simp [sshRecv, recvHalf, Half.packet, henc, hr]

end Transport

/-! A sender, a receiver and the bytes between them. -/

/-- What the receiver has not seen yet: a packet with its padding, or a new key. -/
inductive Item where
  | payload (data : List UInt8) (random : ℕ → UInt8)
  | rekey (key : Key)

def payloads (items : List Item) : List (List UInt8) :=
  items.filterMap fun
    | .payload data _ => some data
    | .rekey _ => none

/-- Two transports and the wire. The sent and the received payloads, and the items in between, are
there to state what is received. -/
structure Link where
  sender : Transport
  receiver : Transport
  wire : List UInt8
  pending : List Item
  sent : List (List UInt8)
  got : List (List UInt8)

inductive Action where
  | send (e : SendEnv) (payload : List UInt8)
  | rekey (key : Key)
  | recv (xrecv : ℕ → ℕ)

def follow : Transport → List Item → Transport × List Item
  | t, .rekey key :: items => follow (t.startRecvCrypto key) items
  | t, items => (t, items)

namespace Link
variable (prims : Primitives)

/-- One call on either side; a failed `ssh_send` is not one of the sent payloads. -/
def step (l : Link) : Action → Link
  | .send e payload =>
    let r := l.sender.sshSend prims e payload
    { l with
      sender := r.1
      wire := l.wire ++ r.2.1
      pending := if r.2.2 then l.pending ++ [.payload payload e.random] else l.pending
      sent := if r.2.2 then l.sent ++ [payload] else l.sent }
  | .rekey key =>
    { l with sender := l.sender.startSendCrypto key, pending := l.pending ++ [.rekey key] }
  | .recv xrecv =>
    let f := follow l.receiver l.pending
    let r := f.1.sshRecv prims xrecv l.wire
    match r.2.1 with
    | none => { l with receiver := r.1, pending := f.2, wire := r.2.2 }
    | some data =>
      { l with receiver := r.1, pending := f.2.tail, wire := r.2.2, got := l.got ++ [data] }

def run (l : Link) (acts : List Action) : Link := acts.foldl (step prims) l

def start (sender receiver : Transport) : Link := ⟨sender, receiver, [], [], [], []⟩

end Link

/-- Payloads of 1 to `SSH_PACKET_MAX - 12` bytes, and a stream that moves in every call. -/
def Action.Ok : Action → Prop
  | .send e payload =>
    payload ≠ [] ∧ payload.length ≤ sshPacketMax - 12 ∧ ∀ k, 0 < e.xsend k
  | .rekey _ => True
  | .recv xrecv => ∀ k, 0 < xrecv k

/-- The received payloads are the first of the sent ones, the next `ssh_recv` returns the next of
them, an `ssh_send` is refused only without randomness, and the sequence numbers are equal when
everything has been received. -/
structure Link.InStep (prims : Primitives) (l : Link) : Prop where
  received : l.got = l.sent.take l.got.length
  next : ∀ xrecv, (Action.recv xrecv).Ok → l.got.length < l.sent.length →
    (l.step prims (.recv xrecv)).got = l.got ++ [l.sent.getD l.got.length []]
  accepted : ∀ e payload, (Action.send e payload).Ok → e.getrandom = true →
    (l.step prims (.send e payload)).sent = l.sent ++ [payload]
  seq : l.got.length = l.sent.length → (follow l.receiver l.pending).1.seqRecv = l.sender.seqSend

def encodeAll (prims : Primitives) : Half → List Item → List UInt8
  | _, [] => []
  | h, .payload data random :: items => h.packet prims data random ++ encodeAll prims h.next items
  | h, .rekey key :: items => encodeAll prims (h.rekey key) items

def Half.after (h : Half) : List Item → Half
  | [] => h
  | .payload _ _ :: items => h.next.after items
  | .rekey key :: items => (h.rekey key).after items

theorem encodeAll_append (prims : Primitives) (h : Half) (items items' : List Item) :
    encodeAll prims h (items ++ items') =
      encodeAll prims h items ++ encodeAll prims (h.after items) items' := by
  induction items generalizing h with
  | nil => rfl
  | cons item items ih => cases item <;> simp [encodeAll, Half.after, ih]

theorem Half.after_append (h : Half) (items items' : List Item) :
    h.after (items ++ items') = (h.after items).after items' := by
  induction items generalizing h with
  | nil => rfl
  | cons item items ih => cases item <;> simp [Half.after, ih]

theorem follow_spec (prims : Primitives) (t : Transport) (items : List Item) :
    let f := follow t items
    encodeAll prims f.1.recvHalf f.2 = encodeAll prims t.recvHalf items ∧
      f.1.recvHalf.after f.2 = t.recvHalf.after items ∧ payloads f.2 = payloads items ∧
      ∀ key rest, f.2 ≠ .rekey key :: rest := by
  induction items generalizing t with
  | nil => exact ⟨rfl, rfl, rfl, by simp [follow]⟩
  | cons item items ih =>
    cases item with
    | payload data random => exact ⟨rfl, rfl, rfl, by simp [follow]⟩
    | rekey key => exact ih (t.startRecvCrypto key)

structure Link.Ok (prims : Primitives) (l : Link) : Prop where
  wire : l.wire = encodeAll prims l.receiver.recvHalf l.pending
  half : l.receiver.recvHalf.after l.pending = l.sender.sendHalf
  order : l.got ++ payloads l.pending = l.sent
  bounds : ∀ data ∈ payloads l.pending, data ≠ [] ∧ data.length ≤ sshPacketMax - 12

namespace Link
variable {prims : Primitives} {l : Link}

theorem Ok.send (h : l.Ok prims) {e : SendEnv} {payload : List UInt8}
    (ha : (Action.send e payload).Ok) : (l.step prims (.send e payload)).Ok prims := by
  obtain ⟨hpos, hlen, hsend⟩ := ha
  by_cases hrandom : l.sender.encSend → e.getrandom
  · have hout := l.sender.sshSend_eq prims hsend hlen hrandom
    constructor
    · simp only [step, hout, h.wire, if_true, encodeAll_append, h.half]
      simp [encodeAll]
    · simp only [step, hout, if_true, Half.after_append, h.half]
      rfl
    · simp only [step, hout, if_true, ← h.order]
      simp [payloads]
    simp only [step, hout, if_true]
    intro data hdata
    simp only [payloads, filterMap_append, mem_append] at hdata
    rcases hdata with hdata | hdata
    · exact h.bounds data hdata
    obtain rfl : data = payload := by simpa using hdata
    exact ⟨hpos, hlen⟩
  · rw [Classical.not_imp] at hrandom
    have hout := l.sender.sshSend_refused prims payload hrandom.1
      (Bool.eq_false_iff.mpr hrandom.2)
    have hstep : l.step prims (.send e payload) = l := by simp [step, hout]
    rwa [hstep]

theorem Ok.rekey (h : l.Ok prims) (key : Key) : (l.step prims (.rekey key)).Ok prims := by
  constructor
  · simp [step, h.wire, encodeAll_append, encodeAll]
  · simp only [step, Half.after_append, h.half]
    rfl
  · simp [step, ← h.order, payloads]
  · intro data hdata
    exact h.bounds data (by simpa [step, payloads] using hdata)

theorem recvExact_nil (xrecv : ℕ → ℕ) : recvExact xrecv 0 4 [] = (none, [], 1) := by
  simp [recvExact, Chunks.pull]

theorem sshRecv_nil (t : Transport) (xrecv : ℕ → ℕ) : t.sshRecv prims xrecv [] = (t, none, []) := by
  cases henc : t.encRecv <;>
    simp [Transport.sshRecv, henc, plainRecv, encRecv, recvExact_nil]

theorem Ok.recv_cases (h : l.Ok prims) {xrecv : ℕ → ℕ} (hrecv : ∀ k, 0 < xrecv k) :
    (payloads l.pending = [] ∧ (l.step prims (.recv xrecv)).got = l.got ∧
        (l.step prims (.recv xrecv)).Ok prims) ∨
      ∃ data rest, payloads l.pending = data :: rest ∧
        (l.step prims (.recv xrecv)).got = l.got ++ [data] ∧
        (l.step prims (.recv xrecv)).Ok prims := by
  obtain ⟨hbytes, hhalf, hpay, hkey⟩ := follow_spec prims l.receiver l.pending
  have hwire := h.wire
  have hbounds := h.bounds
  have horder := h.order
  rw [← hbytes] at hwire
  rw [← hpay] at hbounds horder
  rw [h.half] at hhalf
  rw [← hpay]
  generalize hf : follow l.receiver l.pending = f at *
  obtain ⟨t, items⟩ := f
  cases items with
  | nil =>
    left
    have hout : t.sshRecv prims xrecv l.wire = (t, none, []) := by
      rw [hwire]
      exact sshRecv_nil t xrecv
    have hstep : l.step prims (.recv xrecv) = { l with receiver := t, pending := [], wire := [] } := by
      simp [step, hf, hout]
    rw [hstep]
    exact ⟨rfl, rfl, rfl, hhalf, horder, hbounds⟩
  | cons item items =>
    cases item with
    | rekey key => exact absurd rfl (hkey key items)
    | payload data random =>
      right
      obtain ⟨hpos, hlen⟩ := hbounds data (by simp [payloads])
      have hout := t.sshRecv_packet prims hrecv hpos hlen random
        (encodeAll prims t.recvHalf.next items)
      have hstep : l.step prims (.recv xrecv) = { l with
          receiver := { t with seqRecv := t.seqRecv + 1 }
          pending := items
          wire := encodeAll prims t.recvHalf.next items
          got := l.got ++ [data] } := by
        rw [encodeAll] at hwire
        simp [step, hf, hwire, hout]
      rw [hstep]
      refine ⟨data, payloads items, by simp [payloads], rfl, rfl, hhalf, ?_, ?_⟩
      · rw [← horder]
        simp [payloads]
      intro x hx
      apply hbounds
      rw [payloads, filterMap_cons]
      exact mem_cons_of_mem data hx

theorem Ok.step (h : l.Ok prims) {a : Action} (ha : a.Ok) : (l.step prims a).Ok prims := by
  cases a with
  | send e payload => exact h.send ha
  | rekey key => exact h.rekey key
  | recv xrecv =>
    rcases h.recv_cases ha with ⟨-, -, hok⟩ | ⟨data, rest, -, -, hok⟩
    · exact hok
    · exact hok

theorem Ok.inStep (h : l.Ok prims) : l.InStep prims := by
  constructor
  · rw [← h.order, take_left]
  · intro xrecv hrecv hlt
    rcases h.recv_cases hrecv with ⟨hnil, -, -⟩ | ⟨data, rest, hpay, hgot, -⟩
    · rw [← h.order, hnil] at hlt
      simp at hlt
    · rw [hgot, ← h.order, hpay]
      simp
  · rintro e payload ⟨-, hlen, hsend⟩ hrandom
    have hout := l.sender.sshSend_eq prims hsend hlen fun _ => hrandom
    simp [Link.step, hout]
  intro hlen
  obtain ⟨-, hhalf, hpay, hkey⟩ := follow_spec prims l.receiver l.pending
  have hnil : payloads l.pending = [] := by
    rw [← h.order, length_append] at hlen
    exact eq_nil_of_length_eq_zero (by omega)
  generalize follow l.receiver l.pending = f at *
  obtain ⟨t, items⟩ := f
  cases items with
  | nil => exact congrArg Half.seq (hhalf.trans h.half)
  | cons item items =>
    cases item with
    | rekey key => exact absurd rfl (hkey key items)
    | payload data random =>
      rw [hnil] at hpay
      simp [payloads] at hpay

end Link

/-- Every interleaving of sends, receives and changes of the key, in plaintext and encrypted, with
any chunks: the `k`-th received payload is the `k`-th sent one. -/
theorem roundTrip_run (prims : Primitives) (sender receiver : Transport) (acts : List Action)
    (hmatch : receiver.recvHalf = sender.sendHalf) (hacts : ∀ a ∈ acts, a.Ok) :
    ((Link.start sender receiver).run prims acts).InStep prims := by
  have hstart : (Link.start sender receiver).Ok prims :=
    ⟨rfl, hmatch, rfl, by simp [Link.start, payloads]⟩
  apply Link.Ok.inStep
  generalize Link.start sender receiver = l at *
  induction acts generalizing l with
  | nil => exact hstart
  | cons a acts ih =>
    exact ih (fun b hb => hacts b (mem_cons_of_mem a hb)) _
      (hstart.step (hacts a mem_cons_self))

/-- Three bytes in plaintext and two under a key, received one byte in each call. -/
def sampleActions : List Action :=
  [.send ⟨fun _ => 5, fun _ => 0, true⟩ [1, 2, 3], .rekey fun _ => 7,
    .send ⟨fun _ => 1, fun _ => 0, true⟩ [4, 5], .recv fun _ => 1, .recv fun _ => 1]

theorem sampleActions_inStep :
    ((Link.start Transport.init Transport.init).run zeroPrims sampleActions).InStep zeroPrims := by
  apply roundTrip_run zeroPrims Transport.init Transport.init sampleActions rfl
  simp [sampleActions, Action.Ok, sshPacketMax]

end Exploidus.Ssh
