import Exploidus.Net.Tcp

/-! Internet checksums: the packets that the stack emits, and the sum that a receiver makes. -/
namespace Exploidus.Net
open List

/-! ### The sum of RFC 1071 -/

/-- Addition of 16-bit words with the carry added at the end. -/
def onesAdd (a b : ℕ) : ℕ := if a + b < 65536 then a + b else a + b - 65535

/-- The 16-bit big-endian words of a byte string, padded with a zero. -/
def words : List UInt8 → List ℕ
  | a :: b :: rest => (a.toNat * 256 + b.toNat) :: words rest
  | [a] => [a.toNat * 256]
  | [] => []

def Verifies (ws : List ℕ) : Prop := ws.foldl onesAdd 0 = 0xFFFF
  deriving Decidable

/-- The words of the pseudo-header. -/
def pseudo (src dst : UInt32) (proto : UInt8) (len : ℕ) : List ℕ :=
  [src.toNat / 65536, src.toNat % 65536, dst.toNat / 65536, dst.toNat % 65536, proto.toNat, len]

/-! ### The packets -/

/-- `inet_cksum`. -/
def inetCksum (data : List UInt8) : UInt16 := (~~~foldSum (foldSum (addWords 0 data))).toUInt16

/-- A 16-bit number stored as the processor stores it. -/
def le16 (n : UInt16) : List UInt8 := [n.toUInt8, (n >>> 8).toUInt8]

/-- The header that `ip4_output` puts before a packet, which then has `total` bytes. -/
def ip4Header (src dst : UInt32) (proto : UInt8) (id total : UInt16) : List UInt8 :=
  let front := [0x45, 0] ++ be16 total ++ be16 id ++ be16 0x4000 ++ [64, proto]
  let back := be32 src ++ be32 dst
  front ++ be16 (inetCksum (front ++ [0, 0] ++ back)) ++ back

/-- The datagram of `udp_send`. -/
def udpDatagram (src dst : UInt32) (srcPort dstPort : UInt16) (data : List UInt8) : List UInt8 :=
  let data := data.take (netbufPayload - 20 - 14 - 8)
  let len := UInt16.ofNat (8 + data.length)
  let front := be16 srcPort ++ be16 dstPort ++ be16 len
  front ++ le16 (inetCksumPseudo src dst 17 len (front ++ [0, 0] ++ data)) ++ data

/-- The message that `icmp_input` answers to an echo request. -/
def icmpReply : List UInt8 → Option (List UInt8)
  | type :: code :: c0 :: c1 :: rest =>
    if rest.length < 4 ∨ type ≠ 8 then none
    else if le16 (inetCksum (type :: code :: 0 :: 0 :: rest)) ≠ [c0, c1] then none
    else if netbufPayload - 20 - 14 < rest.length + 4 then none
    else some ([0, code] ++ le16 (inetCksum (0 :: code :: 0 :: 0 :: rest)) ++ rest)
  | _ => none

/-- The message of `icmp_send_echo`. -/
def icmpEcho (seq : UInt16) : List UInt8 :=
  let rest := be16 0x1337 ++ be16 seq ++ (range 32).map UInt8.ofNat
  [8, 0] ++ le16 (inetCksum ([8, 0, 0, 0] ++ rest)) ++ rest

/-! ### Sums -/

/-- The 16-bit word that the words of a sum add up to. -/
def onesOf (n : ℕ) : ℕ := if n = 0 then 0 else (n - 1) % 65535 + 1

theorem foldl_onesAdd {ws : List ℕ} (h : ∀ w ∈ ws, w < 65536) (n : ℕ) :
    ws.foldl onesAdd (onesOf n) = onesOf (n + ws.sum) := by
  induction ws generalizing n with
  | nil => rfl
  | cons w ws ih =>
    have hw := h w (by simp)
    have hstep : onesAdd (onesOf n) w = onesOf (n + w) := by
      unfold onesAdd onesOf
      split_ifs <;> omega
    rw [foldl_cons, hstep, ih fun x hx => h x (mem_cons_of_mem _ hx), sum_cons, Nat.add_assoc]

theorem words_lt (bs : List UInt8) : ∀ w ∈ words bs, w < 65536 := by
  induction bs using words.induct with
  | case1 a b rest ih =>
    have ha := a.toNat_lt
    have hb := b.toNat_lt
    intro w hw
    rcases mem_cons.mp hw with rfl | hw
    · omega
    · exact ih w hw
  | case2 a =>
    have ha := a.toNat_lt
    intro w hw
    rw [mem_singleton.mp hw]
    omega
  | case3 => exact nofun

theorem words_append {xs : List UInt8} (h : xs.length % 2 = 0) (ys : List UInt8) :
    words (xs ++ ys) = words xs ++ words ys := by
  induction xs using words.induct with
  | case1 a b rest ih =>
    simp only [length_cons] at h
    simp only [cons_append, words]
    rw [ih (by omega)]
  | case2 a => simp at h
  | case3 => rfl

theorem verifies_iff {ws : List ℕ} (h : ∀ w ∈ ws, w < 65536) :
    Verifies ws ↔ ws.sum ≠ 0 ∧ ws.sum % 65535 = 0 := by
  have hsum : ws.foldl onesAdd 0 = onesOf (0 + ws.sum) := foldl_onesAdd h 0
  unfold Verifies
  rw [hsum, Nat.zero_add, onesOf]
  by_cases h0 : ws.sum = 0
  · simp [h0]
  · rw [if_neg h0]
    omega

theorem sum_words_le (bs : List UInt8) : (words bs).sum ≤ 65535 * bs.length := by
  induction bs using words.induct with
  | case1 a b rest ih =>
    have ha := a.toNat_lt
    have hb := b.toNat_lt
    simp only [words, sum_cons, length_cons]
    omega
  | case2 a =>
    have ha := a.toNat_lt
    simp only [words, sum_singleton, length_singleton]
    omega
  | case3 => rfl

theorem toNat_word (a b : UInt8) :
    (a.toUInt32 <<< 8 ||| b.toUInt32).toNat = a.toNat * 256 + b.toNat := by
  have ha := a.toNat_lt
  have hb := b.toNat_lt
  have hs : a.toNat <<< 8 = a.toNat * 256 := Nat.shiftLeft_eq _ _
  rw [UInt32.toNat_or, UInt32.toNat_shiftLeft, UInt8.toNat_toUInt32, UInt8.toNat_toUInt32]
  have hmod : a.toNat <<< ((8 : UInt32).toNat % 32) % 2 ^ 32 = a.toNat <<< 8 := by
    change a.toNat <<< 8 % 2 ^ 32 = a.toNat <<< 8
    omega
  rw [hmod, ← Nat.shiftLeft_add_eq_or_of_lt hb, hs]

theorem toNat_addWords (sum : UInt32) (bs : List UInt8) (h : sum.toNat + (words bs).sum < 2 ^ 32) :
    (addWords sum bs).toNat = sum.toNat + (words bs).sum := by
  induction bs using words.induct generalizing sum with
  | case1 a b rest ih =>
    rw [words, sum_cons] at h ⊢
    have hlt : sum.toNat + (a.toNat * 256 + b.toNat) < 2 ^ 32 :=
      (Nat.add_le_add_left (Nat.le_add_right _ _) _).trans_lt h
    have hadd : (sum + (a.toUInt32 <<< 8 ||| b.toUInt32)).toNat =
        sum.toNat + (a.toNat * 256 + b.toNat) := by
      rw [UInt32.toNat_add, toNat_word, Nat.mod_eq_of_lt hlt]
    rw [addWords, ih, hadd, Nat.add_assoc]
    rw [hadd, Nat.add_assoc]
    exact h
  | case2 a =>
    have hzero : a.toUInt32 <<< 8 ||| (0 : UInt8).toUInt32 = a.toUInt32 <<< 8 := UInt32.or_zero
    rw [words, sum_singleton] at h ⊢
    have h0 : UInt8.toNat 0 = 0 := rfl
    rw [addWords, ← hzero, UInt32.toNat_add, toNat_word, h0, Nat.add_zero, Nat.mod_eq_of_lt h]
  | case3 => rfl

theorem toNat_foldSum (x : UInt32) : (foldSum x).toNat = x.toNat % 65536 + x.toNat / 65536 := by
  have hx := x.toNat_lt
  have hlow : (x &&& (0xFFFF : UInt32)).toNat = x.toNat % 65536 :=
    Nat.and_two_pow_sub_one_eq_mod x.toNat 16
  have hhigh : (x >>> 16).toNat = x.toNat / 65536 := Nat.shiftRight_eq_div_pow x.toNat 16
  rw [foldSum, UInt32.toNat_add, hlow, hhigh, Nat.mod_eq_of_lt (by omega)]

/-- The last steps of both checksum functions. -/
theorem toNat_folded (x : UInt32) :
    (~~~foldSum (foldSum x)).toUInt16.toNat = 65535 - onesOf x.toNat := by
  have hx := x.toNat_lt
  have hfold : (foldSum (foldSum x)).toNat = onesOf x.toNat := by
    rw [toNat_foldSum, toNat_foldSum, onesOf]
    split_ifs <;> omega
  have hle : onesOf x.toNat ≤ 65535 := by
    rw [onesOf]
    split_ifs <;> omega
  rw [UInt32.toNat_toUInt16, UInt32.toNat_not, hfold]
  simp only [UInt32.size]
  omega

theorem toNat_inetCksum {bs : List UInt8} (h : bs.length < 65536) :
    (inetCksum bs).toNat = 65535 - onesOf (words bs).sum := by
  have hle := sum_words_le bs
  rw [inetCksum, toNat_folded, toNat_addWords, UInt32.toNat_zero, Nat.zero_add]
  rw [UInt32.toNat_zero]
  omega

theorem toNat_pseudoSum (src dst : UInt32) (proto : UInt8) (len : UInt16) :
    ((src >>> 16) + (src &&& (0xFFFF : UInt32)) + (dst >>> 16) + (dst &&& (0xFFFF : UInt32)) +
      proto.toUInt32 + len.toUInt32).toNat = (pseudo src dst proto len.toNat).sum := by
  have hlow : ∀ x : UInt32, (x &&& (0xFFFF : UInt32)).toNat = x.toNat % 65536 := fun x =>
    Nat.and_two_pow_sub_one_eq_mod x.toNat 16
  have hhigh : ∀ x : UInt32, (x >>> 16).toNat = x.toNat / 65536 := fun x =>
    Nat.shiftRight_eq_div_pow x.toNat 16
  have h1 := src.toNat_lt
  have h2 := dst.toNat_lt
  have h3 := proto.toNat_lt
  have h4 := len.toNat_lt
  simp only [UInt32.toNat_add, hlow, hhigh, UInt8.toNat_toUInt32, UInt16.toNat_toUInt32, pseudo,
    sum_cons, sum_nil]
  omega

theorem toNat_inetCksumPseudo {src dst : UInt32} {proto : UInt8} {len : UInt16} {bs : List UInt8}
    (h : bs.length < 60000) : (inetCksumPseudo src dst proto len bs).toNat =
      65535 - onesOf ((pseudo src dst proto len.toNat).sum + (words bs).sum) := by
  have hle := sum_words_le bs
  have hps : (pseudo src dst proto len.toNat).sum < 400000 := by
    have h1 := src.toNat_lt
    have h2 := dst.toNat_lt
    have h3 := proto.toNat_lt
    have h4 := len.toNat_lt
    simp only [pseudo, sum_cons, sum_nil]
    omega
  unfold inetCksumPseudo
  dsimp only
  rw [toNat_folded, toNat_addWords, toNat_pseudoSum]
  rw [toNat_pseudoSum]
  omega

/-! ### A checksum in its packet -/

theorem pseudo_lt (src dst : UInt32) (proto : UInt8) {len : ℕ} (h : len < 65536) :
    ∀ w ∈ pseudo src dst proto len, w < 65536 := by
  have h1 := src.toNat_lt
  have h2 := dst.toNat_lt
  have h3 := proto.toNat_lt
  simp only [pseudo, forall_mem_cons, not_mem_nil, false_implies, forall_const, and_true]
  omega

section
variable {p : List ℕ} {a b : List UInt8} {n : ℕ} {c : UInt16}

/-- The sum of a packet with the checksum field `x`, `y`. -/
theorem verifies_field (hp : ∀ w ∈ p, w < 65536) (hf : a.length % 2 = 0) (x y : UInt8) :
    Verifies (p ++ words (a ++ [x, y] ++ b)) ↔
      p.sum + (words (a ++ [0, 0] ++ b)).sum + (x.toNat * 256 + y.toNat) ≠ 0 ∧
      (p.sum + (words (a ++ [0, 0] ++ b)).sum + (x.toNat * 256 + y.toNat)) % 65535 = 0 := by
  have hsum : ∀ x y : UInt8, (words (a ++ [x, y] ++ b)).sum =
      (words a).sum + (x.toNat * 256 + y.toNat + (words b).sum) := fun x y => by
    rw [append_assoc, words_append hf, sum_append]
    rfl
  rw [verifies_iff fun w hw => (mem_append.mp hw).elim (hp w) (words_lt _ w), sum_append,
    hsum, hsum 0 0]
  have h0 : UInt8.toNat 0 = 0 := rfl
  rw [h0]
  omega

theorem toNat_low (c : UInt16) : c.toUInt8.toNat = c.toNat % 256 := rfl

theorem toNat_high (c : UInt16) : ((c >>> 8).toUInt8).toNat = c.toNat / 256 := by
  have hc := c.toNat_lt
  have hs : (c >>> 8).toNat = c.toNat / 256 := Nat.shiftRight_eq_div_pow c.toNat 8
  rw [toNat_low, hs]
  omega

variable (hp : ∀ w ∈ p, w < 65536) (hf : a.length % 2 = 0)
  (hc : c.toNat = 65535 - onesOf n)
include hp hf hc

/-- A checksum in network order is right exactly if it was made over the sum of the packet. -/
theorem verifies_be16 (h0 : p.sum + (words (a ++ [0, 0] ++ b)).sum = 0 → n = 0) :
    Verifies (p ++ words (a ++ be16 c ++ b)) ↔
      (p.sum + (words (a ++ [0, 0] ++ b)).sum) % 65535 = n % 65535 := by
  rw [be16, verifies_field hp hf, toNat_high, toNat_low]
  unfold onesOf at hc
  split_ifs at hc <;> omega

/-- A checksum in the order of the processor is right exactly if both orders are the same. -/
theorem verifies_le16 (hn : n = p.sum + (words (a ++ [0, 0] ++ b)).sum) :
    Verifies (p ++ words (a ++ le16 c ++ b)) ↔ c.toUInt8 = (c >>> 8).toUInt8 := by
  rw [le16, verifies_field hp hf, ← UInt8.toNat_inj, toNat_high, toNat_low, ← hn]
  have hlt := c.toNat_lt
  unfold onesOf at hc
  split_ifs at hc <;> omega

end

/-! ### The senders -/

theorem ip4Header_verifies (src dst : UInt32) (proto : UInt8) (id total : UInt16) :
    Verifies (words (ip4Header src dst proto id total)) := by
  unfold ip4Header
  dsimp only
  have ha : ([0x45, 0] ++ be16 total ++ be16 id ++ be16 0x4000 ++ [64, proto]).length = 10 := rfl
  have hb : (be32 src ++ be32 dst).length = 8 := rfl
  generalize [0x45, 0] ++ be16 total ++ be16 id ++ be16 0x4000 ++ [64, proto] = a at *
  generalize be32 src ++ be32 dst = b at *
  have hlen : (a ++ [0, 0] ++ b).length < 65536 := by
    simp only [length_append, ha, hb]
    decide
  refine (verifies_be16 (p := []) nofun (by rw [ha]) (toNat_inetCksum hlen) ?_).mpr ?_
  · rw [sum_nil, Nat.zero_add]
    exact fun h => h
  · rw [sum_nil, Nat.zero_add]

theorem icmp_verifies_iff (type code : UInt8) {rest : List UInt8} (h : rest.length < 60000) :
    let m := [type, code] ++ le16 (inetCksum (type :: code :: 0 :: 0 :: rest)) ++ rest
    Verifies (words m) ↔ m[2]? = m[3]? := by
  have hlen : (type :: code :: 0 :: 0 :: rest).length < 65536 := by
    simp only [length_cons]
    omega
  refine (verifies_le16 (p := []) (a := [type, code]) nofun (by simp)
    (toNat_inetCksum hlen) ?_).trans ?_
  · rw [sum_nil, Nat.zero_add]
    rfl
  · simp [le16]

theorem udpDatagram_verifies_iff (src dst : UInt32) (srcPort dstPort : UInt16)
    (data : List UInt8) :
    let d := udpDatagram src dst srcPort dstPort data
    Verifies (pseudo src dst 17 d.length ++ words d) ↔ d[6]? = d[7]? := by
  have hlen : (data.take (netbufPayload - 20 - 14 - 8)).length < 2000 := by
    rw [length_take, netbufPayload]
    omega
  unfold udpDatagram
  dsimp only
  generalize data.take (netbufPayload - 20 - 14 - 8) = data at *
  have hn : (UInt16.ofNat (8 + data.length)).toNat = 8 + data.length :=
    UInt16.toNat_ofNat_of_lt (by rw [UInt16.size]; omega)
  generalize UInt16.ofNat (8 + data.length) = len at *
  have ha : (be16 srcPort ++ be16 dstPort ++ be16 len).length = 6 := rfl
  generalize be16 srcPort ++ be16 dstPort ++ be16 len = a at *
  have hd : ∀ x y : UInt8, (a ++ [x, y] ++ data).length = len.toNat := fun x y => by
    simp only [length_append, ha, hn, length_cons, length_nil]
  rw [le16, hd, ← le16]
  refine (verifies_le16 (pseudo_lt _ _ _ len.toNat_lt) (by rw [ha])
    (toNat_inetCksumPseudo (by rw [hd, hn]; omega)) rfl).trans ?_
  simp [getElem?_append, ha, le16]

theorem tcpSegment_verifies_iff (c : Conn) (ticks : UInt64) (flags : UInt8) {data : List UInt8}
    (h : data.length ≤ netbufPayload) (iface : UInt32) :
    let d := (c.segment ticks flags data).bytes
    Verifies (pseudo iface c.remoteIp 6 d.length ++ words d) ↔
      iface.toNat % 65535 = c.localIp.toNat % 65535 := by
  unfold Conn.segment
  dsimp only
  have hopt : (if flags &&& tcpSyn ≠ 0 then synOptions ticks c.tsRecent else []).length ≤ 16 := by
    split_ifs
    · exact le_rfl
    · exact Nat.zero_le _
  generalize (if flags &&& tcpSyn ≠ 0 then synOptions ticks c.tsRecent else []) = options at *
  generalize (if flags &&& tcpAck ≠ 0 then c.rcvNxt else 0) = ack
  generalize UInt8.ofNat ((20 + options.length) / 4) <<< 4 = offset
  -- the bytes before and after the checksum
  obtain ⟨a, ha, b, hb, hbytes⟩ : ∃ a : List UInt8, a.length = 16 ∧ ∃ b : List UInt8,
      b.length < 2000 ∧ ∀ k, Segment.bytes ⟨c.localPort, c.remotePort, c.sndNxt, ack, offset, flags,
        c.rcvWnd, k, 0, options, data⟩ = a ++ be16 k ++ b := by
    refine ⟨be16 c.localPort ++ be16 c.remotePort ++ be32 c.sndNxt ++ be32 ack ++
      [offset, flags] ++ be16 c.rcvWnd, rfl, be16 0 ++ options ++ data, ?_, fun k => ?_⟩
    · unfold netbufPayload at h
      simp only [length_append, be16, length_cons, length_nil]
      omega
    · simp only [Segment.bytes, append_assoc]
  have hlen : ∀ k, (a ++ be16 k ++ b).length = 18 + b.length := fun k => by
    simp only [length_append, ha, be16, length_cons, length_nil]
  have hn : (UInt16.ofNat (18 + b.length)).toNat = 18 + b.length :=
    UInt16.toNat_ofNat_of_lt (by rw [UInt16.size]; omega)
  rw [hbytes, hbytes, hlen, hlen]
  generalize UInt16.ofNat (18 + b.length) = len at *
  rw [← hn]
  refine (verifies_be16 (pseudo_lt _ _ _ (UInt16.toNat_lt _)) (by rw [ha])
    (toNat_inetCksumPseudo (by rw [hlen]; omega)) fun hz => ?_).trans ?_
  · simp only [pseudo, sum_cons, sum_nil] at hz
    have h6 : UInt8.toNat 6 = 6 := rfl
    omega
  · have h0 : be16 0 = [0, 0] := by decide
    simp only [pseudo, sum_cons, sum_nil, h0]
    omega

/-- Which packets verify: every IP header; the ICMP messages and UDP datagrams whose checksum has
two equal bytes; and the TCP segments of connections whose local address sums up like that of the
interface, here `src`. -/
theorem emitted_verify_iff (src dst : UInt32) (data : List UInt8) :
    (∀ proto id total, Verifies (words (ip4Header src dst proto id total))) ∧
    (∀ reply, icmpReply data = some reply → (Verifies (words reply) ↔ reply[2]? = reply[3]?)) ∧
    (∀ seq, Verifies (words (icmpEcho seq)) ↔ (icmpEcho seq)[2]? = (icmpEcho seq)[3]?) ∧
    (∀ srcPort dstPort, let d := udpDatagram src dst srcPort dstPort data
      Verifies (pseudo src dst 17 d.length ++ words d) ↔ d[6]? = d[7]?) ∧
    ∀ (c : Conn) ticks flags, data.length ≤ netbufPayload →
      let d := (c.segment ticks flags data).bytes
      (Verifies (pseudo src c.remoteIp 6 d.length ++ words d) ↔
        src.toNat % 65535 = c.localIp.toNat % 65535) := by
  refine ⟨ip4Header_verifies src dst, fun reply h => ?_, fun seq => ?_,
    fun srcPort dstPort => udpDatagram_verifies_iff src dst srcPort dstPort data,
    fun c ticks flags h => tcpSegment_verifies_iff c ticks flags h src⟩
  · unfold icmpReply at h
    split at h
    · split_ifs at h with h1 h2 h3
      obtain rfl := Option.some.inj h
      refine icmp_verifies_iff _ _ ?_
      unfold netbufPayload at h3
      omega
    · cases h
  · exact icmp_verifies_iff 8 0 (by simp [be16])

/-- A datagram of one byte whose checksum a receiver rejects. -/
theorem udpDatagram_not_verifies :
    let d := udpDatagram 0x0A00020F 0x0A000203 5353 53 [1]
    ¬ Verifies (pseudo 0x0A00020F 0x0A000203 17 d.length ++ words d) := by
  decide

theorem idle_segment_verifies :
    let d := (Conn.blank.segment 0 tcpAck []).bytes
    Verifies (pseudo 0 0 6 d.length ++ words d) :=
  ((emitted_verify_iff 0 0 []).2.2.2.2 Conn.blank 0 tcpAck (by decide)).mpr rfl

end Exploidus.Net
