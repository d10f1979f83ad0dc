import Exploidus.Lib.Bytes
import Exploidus.Net.Tcp

/-! Incoming IPv4 packets and the reassembly of fragments. -/
namespace Exploidus.Net
open ByteLayout

/-- `FRAG_MAX_PAYLOAD`. -/
def fragMaxPayload : ℕ := 65535

structure FragKey where
  src : UInt32
  dst : UInt32
  proto : UInt8
  ipId : UInt16
  deriving DecidableEq

/-- `frag_slot_t`. -/
structure FragSlot where
  key : FragKey
  buf : Option (Buf fragMaxPayload)
  totalLen : UInt16
  filled : UInt16
  haveLast : Bool
  active : Bool
  age : UInt32

/-- A fragment is counted; the last one tells the length of the datagram. -/
def FragSlot.count (t : FragSlot) (more : Bool) (offset : UInt16) (len : ℕ) : FragSlot :=
  let t := { t with filled := t.filled + UInt16.ofNat len }
  if more then t else { t with totalLen := offset + UInt16.ofNat len, haveLast := true }

/-- `g_frags`, of which the first four entries count, and `g_frag_age`. -/
structure Frags where
  slots : ℕ → FragSlot
  age : UInt32

namespace Frags

def set (s : Frags) (i : ℕ) (slot : FragSlot) : Frags :=
  { s with slots := Function.update s.slots i slot }

def slot (s : Frags) (p : FragSlot → Bool) : Option ℕ :=
  (List.range 4).find? fun i => p (s.slots i)

/-- `frag_find`. -/
def fragFind (s : Frags) (key : FragKey) : Option ℕ :=
  s.slot fun t => t.active && decide (t.key = key)

/-- The slot that `frag_alloc` evicts when none is free: the one used longest ago. -/
def oldest (s : Frags) : ℕ :=
  [1, 2, 3].foldl (fun o i => if (s.slots i).age < (s.slots o).age then i else o) 0

/-- The slot of a new datagram; `alloc` is whether `kzalloc` succeeds. -/
def occupy (s : Frags) (key : FragKey) (alloc : Bool) (i : ℕ) : Frags × Option ℕ :=
  let slot : FragSlot :=
    { key := key, buf := if alloc then some Buf.zero else none, totalLen := 0, filled := 0
      haveLast := false, active := true, age := s.age }
  ({ s with age := s.age + 1 }.set i slot, if alloc then some i else none)

/-- `frag_alloc`. -/
def fragAlloc (s : Frags) (key : FragKey) (alloc : Bool) : Frags × Option ℕ :=
  match s.slot fun t => !t.active with
  | some i => s.occupy key alloc i
  | none => s.occupy key alloc s.oldest

/-- `frag_free`. -/
def fragFree (s : Frags) (i : ℕ) : Frags :=
  s.set i { s.slots i with buf := none, active := false }

/-- The part of `ip4_frag_input` that has a slot: the fragment is copied and counted, and the
datagram is handed over once enough bytes have been counted. A slot without a buffer is left by a
failed allocation; `memcpy` to it is undefined, which is `none`. -/
def deposit (s : Frags) (i : ℕ) (more : Bool) (offset : UInt16) (payload : List UInt8) :
    Option (Frags × Option (List UInt8)) :=
  match (s.slots i).buf with
  | none => none
  | some buf =>
    let buf := buf.patch offset.toNat payload.length fun k => payload.getD k 0
    let t := { s.slots i with age := s.age, buf := some buf }.count more offset payload.length
    let s := { s with age := s.age + 1 }.set i t
    if t.haveLast ∧ t.totalLen ≤ t.filled then
      some (s.fragFree i, some ((List.range t.totalLen.toNat).map buf.byte))
    else some (s, none)

/-- `ip4_frag_input`. -/
def ip4FragInput (s : Frags) (alloc : Bool) (key : FragKey) (fragFlags : UInt16)
    (payload : List UInt8) : Option (Frags × Option (List UInt8)) :=
  let more := decide (fragFlags &&& 0x2000 ≠ 0)
  let offset := (fragFlags &&& 0x1FFF) * 8
  if fragMaxPayload < offset.toNat + payload.length then some (s, none)
  else
    match s.fragFind key with
    | some i => s.deposit i more offset payload
    | none =>
      match s.fragAlloc key alloc with
      | (s, some i) => s.deposit i more offset payload
      | (s, none) => some (s, none)

end Frags

/-- A packet in its buffer: the length of the buffer, the fields of the header, and the bytes from
the header on. -/
structure Packet where
  len : UInt16
  versionIhl : UInt8
  totalLen : UInt16
  id : UInt16
  flagsOffset : UInt16
  proto : UInt8
  src : UInt32
  dst : UInt32
  bytes : ℕ → UInt8

namespace Packet

def ihl (p : Packet) : UInt8 := (p.versionIhl &&& 0x0F) * 4

def key (p : Packet) : FragKey := ⟨p.src, p.dst, p.proto, p.id⟩

def isFragment (p : Packet) : Bool :=
  decide (p.flagsOffset &&& 0x2000 ≠ 0 ∨ p.flagsOffset &&& 0x1FFF ≠ 0)

/-- The payload after `netbuf_pull`, which does nothing when the header is longer than the
buffer. -/
def payload (p : Packet) : List UInt8 :=
  let start := if p.ihl.toUInt16 ≤ p.len then p.ihl.toNat else 0
  (List.range (p.totalLen - p.ihl.toUInt16).toNat).map fun k => p.bytes (start + k)

end Packet

/-- What `ip4_input` reads from outside: the address of the interface, the blocked addresses, and
whether `kzalloc` and `netbuf_alloc` succeed. -/
structure Host where
  ip : UInt32
  blocked : UInt32 → Bool
  alloc : Bool
  netbuf : Bool

structure Delivery where
  key : FragKey
  payload : List UInt8
  deriving DecidableEq

/-- ICMP, TCP and UDP take their packets; others are dropped. -/
def dispatch (key : FragKey) (payload : List UInt8) : Option Delivery :=
  if key.proto = 1 ∨ key.proto = 6 ∨ key.proto = 17 then some ⟨key, payload⟩ else none

/-- The checks of `ip4_input` before the payload. -/
def Host.Takes (h : Host) (p : Packet) : Prop :=
  20 ≤ p.len ∧ p.versionIhl >>> 4 = 4 ∧ 20 ≤ p.ihl ∧ p.totalLen ≤ p.len ∧
    (p.dst = h.ip ∨ p.dst = 0xFFFFFFFF ∨ p.dst = 0x7F000001) ∧ h.blocked p.src = false
  deriving Decidable

/-- `ip4_input`. -/
def ip4Input (s : Frags) (h : Host) (p : Packet) : Option (Frags × Option Delivery) :=
  if h.Takes p then
    if p.isFragment then
      match s.ip4FragInput h.alloc p.key p.flagsOffset p.payload with
      | none => none
      | some (s, none) => some (s, none)
      | some (s, some full) =>
        if h.netbuf then some (s, dispatch p.key (full.take netbufPayload)) else some (s, none)
    else some (s, dispatch p.key p.payload)
  else some (s, none)

end Exploidus.Net
