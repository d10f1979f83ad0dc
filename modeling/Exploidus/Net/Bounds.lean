import Exploidus.Net.Ip

/-! The parts of a received packet that the layers hand on, as regions of its buffer. -/
namespace Exploidus.Net

/-- `len` bytes from `start` on. -/
structure Region where
  start : ℕ
  len : ℕ
  deriving DecidableEq

def Region.Inside (r s : Region) : Prop := s.start ≤ r.start ∧ r.start + r.len ≤ s.start + s.len

theorem Region.Inside.trans {q r s : Region} (h : q.Inside r) (h' : r.Inside s) : q.Inside s :=
  ⟨h'.1.trans h.1, h.2.trans h'.2⟩

/-- What `ip4_input` hands on: `buf->data` and `buf->len` after `netbuf_pull`, which does nothing
when the header is longer than the buffer, and after the length was set. -/
def Packet.region (p : Packet) : Region where
  start := if p.ihl.toUInt16 ≤ p.len then p.ihl.toNat else 0
  len := (p.totalLen - p.ihl.toUInt16).toNat

/-- The bytes from the end of the header to the total length, all of them received. -/
structure Packet.Exact (p : Packet) : Prop where
  start : p.region.start = p.ihl.toNat
  stop : p.region.start + p.region.len = p.totalLen.toNat
  received : p.region.Inside ⟨0, p.len.toNat⟩

section
variable (b : ℕ → UInt8) (r : Region)

/-- The payload in `udp_input`. -/
def udpPayload : Option Region :=
  let len := (b (r.start + 4)).toNat * 256 + (b (r.start + 5)).toNat
  if r.len < 8 then none else if len < 8 ∨ r.len < len then none else some ⟨r.start + 8, len - 8⟩

/-- `hdr_len` in `tcp_input`. -/
def tcpHdrLen : UInt8 := (b (r.start + 12) >>> 4) * 4

/-- The options and the payload in `tcp_input`. -/
def tcpParts : Option (Region × Region) :=
  let n := (tcpHdrLen b r).toNat
  if r.len < 20 then none
  else if n < 20 ∨ r.len < n then none
  else some (⟨r.start + 20, n - 20⟩, ⟨r.start + n, r.len - n⟩)

/-- The options that the loop of `tcp_input` reads from `op` on, up to `stop`; each turn consumes
at least a byte. -/
def tcpOptions (stop : ℕ) : ℕ → ℕ → List Region
  | 0, _ => []
  | fuel + 1, op =>
    if stop ≤ op then []
    else if b op = 0 then []
    else if b op = 1 then tcpOptions stop fuel (op + 1)
    else if stop ≤ op + 1 then []
    else
      let len := (b (op + 1)).toNat
      if len < 2 ∨ stop < op + len then []
      else ⟨op, len⟩ :: tcpOptions stop fuel (op + len)

/-- Every region that a transport layer derives from the one it is given. -/
inductive Derived : Region → Prop
  | icmp : Derived r
  | udp {s} (h : udpPayload b r = some s) : Derived s
  | tcpOption {o p s} (h : tcpParts b r = some (o, p))
      (hs : s ∈ tcpOptions b (o.start + o.len) o.len o.start) : Derived s
  | tcpPayload {o p} (h : tcpParts b r = some (o, p)) : Derived p

variable {b r}

theorem tcpOptions_inside {stop fuel op : ℕ} {s : Region} (h : s ∈ tcpOptions b stop fuel op) :
    op ≤ s.start ∧ s.start + s.len ≤ stop := by
  induction fuel generalizing op with
  | zero => cases h
  | succ fuel ih =>
    rw [tcpOptions] at h
    dsimp only at h
    split_ifs at h with h1 h2 h3 h4 h5
    · cases h
    · cases h
    · have := ih h
      omega
    · cases h
    · cases h
    · rcases List.mem_cons.mp h with rfl | h
      · exact ⟨le_rfl, by dsimp only; omega⟩
      · have := ih h
        omega

theorem tcpParts_inside {o p : Region} (h : tcpParts b r = some (o, p)) :
    o.Inside r ∧ p.Inside r := by
  unfold tcpParts at h
  dsimp only at h
  split_ifs at h with h1 h2
  cases h
  constructor <;> constructor <;> dsimp only <;> omega

theorem Derived.inside {s : Region} (h : Derived b r s) : s.Inside r := by
  cases h with
  | icmp => exact ⟨le_rfl, le_rfl⟩
  | udp h =>
    unfold udpPayload at h
    dsimp only at h
    split_ifs at h with h1 h2
    cases h
    constructor <;> dsimp only <;> omega
  | tcpOption h hs =>
    have := tcpOptions_inside hs
    exact Region.Inside.trans ⟨this.1, this.2⟩ (tcpParts_inside h).1
  | tcpPayload h => exact (tcpParts_inside h).2

end

/-- A packet that is taken is handed on exactly if its total length reaches the end of its header;
what the transport layers derive lies inside what they are given. -/
theorem handed_on_iff {h : Host} {p : Packet} (ht : h.Takes p) :
    (p.Exact ↔ p.ihl.toNat ≤ p.totalLen.toNat) ∧
      p.payload = (List.range p.region.len).map (fun k => p.bytes (p.region.start + k)) ∧
      ∀ (b : ℕ → UInt8) (r s : Region), Derived b r s → s.Inside r := by
  refine ⟨⟨fun he => ?_, fun hle => ?_⟩, rfl, fun _ _ _ => Derived.inside⟩
  · have h1 := he.start
    have h2 := he.stop
    omega
  · have htot : p.totalLen.toNat ≤ p.len.toNat := UInt16.le_iff_toNat_le.mp ht.2.2.2.1
    have hihl : p.ihl.toUInt16.toNat = p.ihl.toNat := UInt8.toNat_toUInt16 _
    have hstart : p.region.start = p.ihl.toNat := by
      refine if_pos (UInt16.le_iff_toNat_le.mpr ?_)
      omega
    have hlen : p.region.len = p.totalLen.toNat - p.ihl.toNat := by
      rw [← hihl]
      exact UInt16.toNat_sub_of_le _ _ (UInt16.le_iff_toNat_le.mpr (by omega))
    refine ⟨hstart, by omega, ?_, ?_⟩
    · exact Nat.zero_le _
    · dsimp only
      omega

/-- A packet for `10.0.2.15` with a header of 20 bytes in a buffer of 60. -/
def boundsPacket (total : UInt16) : Packet where
  len := 60
  versionIhl := 0x45
  totalLen := total
  id := 0
  flagsOffset := 0
  proto := 17
  src := 0x0A000202
  dst := 0x0A00020F
  bytes := fun _ => 0

def boundsHost : Host := ⟨0x0A00020F, fun _ => false, true, true⟩

theorem boundsPacket_exact : (boundsPacket 40).Exact :=
  (handed_on_iff (h := boundsHost) (by decide)).1.mpr (by decide)

/-- A total length of 0 hands on 65516 bytes. -/
theorem boundsPacket_wraps :
    boundsHost.Takes (boundsPacket 0) ∧ (boundsPacket 0).region = ⟨20, 65516⟩ ∧
      ¬ (boundsPacket 0).Exact :=
  ⟨by decide, by decide, fun h => absurd h.received.2 (by decide)⟩

end Exploidus.Net
