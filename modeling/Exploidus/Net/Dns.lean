import Mathlib.Tactic

/-! The resolver's callback for a datagram, and the framing of a response in RFC 1035. A read
outside of the datagram and a loop that does not end have no result. -/
namespace Exploidus.Net
open Option

variable (d : List UInt8)

def be16At (off : ℕ) : Option ℕ := do
  let a ← d[off]?
  let b ← d[off + 1]?
  some (a.toNat * 256 + b.toNat)

def be32At (off : ℕ) : Option ℕ := do
  let a ← be16At d off
  let b ← be16At d (off + 2)
  some (a * 65536 + b)

/-- The loops of `dns_recv_cb` over a name; offsets have 16 bits. -/
def skipName : ℕ → ℕ → Option ℕ
  | 0, _ => none
  | fuel + 1, off =>
    if d.length ≤ off then some off
    else do
      let l ← d[off]?
      if l = 0 then some ((off + 1) % 65536)
      else if l &&& 0xC0 = 0xC0 then some ((off + 2) % 65536)
      else skipName fuel ((off + (1 + l.toNat)) % 65536)

/-- The loop of `dns_recv_cb` over the answers: the address of the first A record. -/
def walkAnswers : ℕ → ℕ → Option (Option ℕ)
  | 0, _ => some none
  | n + 1, off =>
    if d.length ≤ off then some none
    else do
      let off ← skipName d (d.length + 1) off
      if d.length < off + 10 then some none
      else do
        let type ← be16At d off
        let cls ← be16At d (off + 2)
        let len ← be16At d (off + 8)
        if type = 1 ∧ cls = 1 ∧ len = 4 ∧ off + 10 + 4 ≤ d.length then
          let ip ← be32At d (off + 10)
          some (some ip)
        else walkAnswers n ((off + 10 + len) % 65536)

/-- The resolver: the identifier of its query, `g_dns_result` once it is set, and `g_dns_done`. -/
structure Resolver where
  txid : ℕ
  result : Option ℕ
  done : Bool

/-- `dns_recv_cb`. -/
def dnsRecvCb (s : Resolver) : Option Resolver :=
  if d.length < 12 then some s
  else do
    let txid ← be16At d 0
    if txid ≠ s.txid then some s
    else do
      let flags ← d[2]?
      let rcode ← d[3]?
      if flags &&& 0x80 = 0 then some s
      else if rcode &&& 0x0F ≠ 0 then some { s with done := true }
      else do
        let ancount ← be16At d 6
        if ancount = 0 then some { s with done := true }
        else do
          let off ← skipName d (d.length + 1) 12
          match ← walkAnswers d ancount ((off + 4) % 65536) with
          | some ip => some { s with result := some ip, done := true }
          | none => some { s with done := true }

/-! ### The framing of RFC 1035 -/

/-- The end of the name at an offset: labels of at most 63 bytes, then a zero or a pointer. -/
def rfcName : ℕ → ℕ → Option ℕ
  | 0, _ => none
  | fuel + 1, off => do
    let l ← d[off]?
    if l = 0 then some (off + 1)
    else if 192 ≤ l.toNat then if off + 2 ≤ d.length then some (off + 2) else none
    else if l.toNat < 64 then rfcName fuel (off + (1 + l.toNat))
    else none

/-- The end of `n` questions. -/
def rfcQuestions : ℕ → ℕ → Option ℕ
  | 0, off => some off
  | n + 1, off => do
    let off ← rfcName d (d.length + 1) off
    if off + 4 ≤ d.length then rfcQuestions n (off + 4) else none

/-- The data of the first A record of class IN and length 4 among `n` records, or no result if the
records up to it are not framed in the datagram. -/
def rfcRecords : ℕ → ℕ → Option (Option ℕ)
  | 0, _ => some none
  | n + 1, off => do
    let off ← rfcName d (d.length + 1) off
    let type ← be16At d off
    let cls ← be16At d (off + 2)
    let len ← be16At d (off + 8)
    if d.length < off + 10 + len then none
    else if type = 1 ∧ cls = 1 ∧ len = 4 then some (be32At d (off + 10))
    else rfcRecords n (off + 10 + len)

def rfcAnswer : Option (Option ℕ) := do
  let off ← rfcQuestions d (← be16At d 4) 12
  rfcRecords d (← be16At d 6) off

variable {d} (hd : d.length ≤ 1280)

theorem byte_some {i : ℕ} (h : i < d.length) : ∃ a, d[i]? = some a :=
  ⟨_, List.getElem?_eq_getElem h⟩

theorem be16At_some {i : ℕ} (h : i + 1 < d.length) : ∃ w, be16At d i = some w := by
  obtain ⟨a, ha⟩ := byte_some (Nat.lt_of_succ_lt h)
  obtain ⟨b, hb⟩ := byte_some h
  exact ⟨_, by rw [be16At, ha, hb]; rfl⟩

theorem be32At_some {i : ℕ} (h : i + 3 < d.length) : ∃ w, be32At d i = some w := by
  obtain ⟨a, ha⟩ := be16At_some (d := d) (i := i) (by omega)
  obtain ⟨b, hb⟩ := be16At_some (d := d) (i := i + 2) h
  exact ⟨_, by rw [be32At, ha, hb]; rfl⟩

theorem pointer_iff (l : UInt8) : l &&& 0xC0 = 0xC0 ↔ 192 ≤ l.toNat := by
  have h : ∀ n < 256, (n &&& 192 = 192 ↔ 192 ≤ n) := by decide +kernel
  rw [← UInt8.toNat_inj, UInt8.toNat_and]
  exact h _ l.toNat_lt

include hd

theorem skipName_some {fuel i : ℕ} (h0 : fuel ≠ 0) (hf : d.length < i + fuel) :
    ∃ e, skipName d fuel i = some e := by
  induction fuel generalizing i with
  | zero => exact absurd rfl h0
  | succ fuel ih =>
    rw [skipName]
    by_cases hoff : d.length ≤ i
    · exact ⟨i, if_pos hoff⟩
    rw [if_neg hoff]
    obtain ⟨l, hl⟩ := byte_some (not_le.mp hoff)
    have hlt := l.toNat_lt
    rw [hl, bind_eq_bind, bind_some]
    split_ifs
    · exact ⟨_, rfl⟩
    · exact ⟨_, rfl⟩
    · exact ih (by omega) (by omega)

theorem walkAnswers_some (n off : ℕ) : ∃ r, walkAnswers d n off = some r := by
  induction n generalizing off with
  | zero => exact ⟨none, rfl⟩
  | succ n ih =>
    rw [walkAnswers]
    by_cases hoff : d.length ≤ off
    · exact ⟨none, if_pos hoff⟩
    rw [if_neg hoff]
    obtain ⟨e, he⟩ := skipName_some hd (i := off) (Nat.succ_ne_zero d.length) (by omega)
    rw [he, bind_eq_bind, bind_some]
    by_cases hend : d.length < e + 10
    · exact ⟨none, if_pos hend⟩
    rw [if_neg hend]
    obtain ⟨t, ht⟩ := be16At_some (d := d) (i := e) (by omega)
    obtain ⟨c, hc⟩ := be16At_some (d := d) (i := e + 2) (by omega)
    obtain ⟨l, hl⟩ := be16At_some (d := d) (i := e + 8) (by omega)
    simp only [ht, hc, hl, bind_some]
    split_ifs with hA
    · obtain ⟨ip, hip⟩ := be32At_some (d := d) (i := e + 10) (by omega)
      exact ⟨some ip, by rw [hip]; rfl⟩
    · exact ih _

/-! ### The callback and the framing -/

theorem rfcName_skip {fuel off e : ℕ} (h : rfcName d fuel off = some e) :
    e ≤ d.length ∧ skipName d fuel off = some e := by
  induction fuel generalizing off with
  | zero => cases h
  | succ fuel ih =>
    rw [rfcName] at h
    obtain ⟨l, hl, h⟩ := bind_eq_some_iff.mp h
    obtain ⟨hoff, -⟩ := List.getElem?_eq_some_iff.mp hl
    have hlt := l.toNat_lt
    rw [skipName, if_neg (not_le.mpr hoff), hl, bind_eq_bind, bind_some]
    simp only [pointer_iff]
    split_ifs at h ⊢
    · cases h
      exact ⟨hoff, congrArg some (Nat.mod_eq_of_lt (by omega))⟩
    · cases h
      exact ⟨by omega, congrArg some (Nat.mod_eq_of_lt (by omega))⟩
    · rw [Nat.mod_eq_of_lt (by omega)]
      exact ih h

theorem rfcRecords_walk {n off : ℕ} {r : Option ℕ} (h : rfcRecords d n off = some r) :
    walkAnswers d n off = some r := by
  induction n generalizing off with
  | zero => exact h
  | succ n ih =>
    rw [rfcRecords] at h
    simp only [bind_eq_bind, bind_eq_some_iff] at h
    obtain ⟨e, he, t, ht, c, hc, l, hl, h⟩ := h
    obtain ⟨hle, hskip⟩ := rfcName_skip hd he
    have hoff : off < d.length := by
      rw [rfcName] at he
      obtain ⟨l, hl, -⟩ := bind_eq_some_iff.mp he
      exact (List.getElem?_eq_some_iff.mp hl).1
    rw [walkAnswers, if_neg (not_le.mpr hoff)]
    split_ifs at h with hend hA
    · simp only [hskip, ht, hc, hl, bind_eq_bind, bind_some]
      obtain ⟨ip, hip⟩ := be32At_some (d := d) (i := e + 10) (by omega)
      rw [if_neg (by omega), if_pos ⟨hA.1, hA.2.1, hA.2.2, by omega⟩, hip]
      rwa [hip] at h
    · simp only [hskip, ht, hc, hl, bind_eq_bind, bind_some]
      rw [if_neg (by omega), if_neg fun hc => hA ⟨hc.1, hc.2.1, hc.2.2.1⟩,
        Nat.mod_eq_of_lt (by omega)]
      exact ih h

/-- The callback always ends without reading outside of the datagram, and the address that it takes
from a response to one question is the one of the framing exactly if the response is framed. -/
theorem dns_recv_iff {s : Resolver} (hs : s.result = none) :
    ∃ s', dnsRecvCb d s = some s' ∧ ∀ ip, s'.result = some ip → be16At d 4 = some 1 →
      (rfcAnswer d = some (some ip) ↔ rfcAnswer d ≠ none) := by
  have hno : ∀ {s' : Resolver} {P : ℕ → Prop}, s'.result = none → ∀ ip, s'.result = some ip → P ip :=
    fun h ip hip => by cases h.symm.trans hip
  unfold dnsRecvCb
  by_cases hlen : d.length < 12
  · exact ⟨s, if_pos hlen, hno hs⟩
  rw [if_neg hlen]
  obtain ⟨txid, ht⟩ := be16At_some (d := d) (i := 0) (by omega)
  obtain ⟨flags, hf⟩ := byte_some (d := d) (i := 2) (by omega)
  obtain ⟨rcode, hr⟩ := byte_some (d := d) (i := 3) (by omega)
  obtain ⟨ancount, ha⟩ := be16At_some (d := d) (i := 6) (by omega)
  obtain ⟨e, he⟩ := skipName_some hd (i := 12) (Nat.succ_ne_zero d.length) (by omega)
  obtain ⟨r, hw⟩ := walkAnswers_some hd ancount ((e + 4) % 65536)
  simp only [ht, hf, hr, ha, he, hw, bind_eq_bind, bind_some]
  split_ifs
  · exact ⟨s, rfl, hno hs⟩
  · exact ⟨s, rfl, hno hs⟩
  · exact ⟨_, rfl, hno hs⟩
  · exact ⟨_, rfl, hno hs⟩
  · cases r with
    | none => exact ⟨_, rfl, hno hs⟩
    | some v =>
      refine ⟨_, rfl, fun ip hip hq => ⟨fun h => by rw [h]; nofun, fun h => ?_⟩⟩
      obtain rfl := some.inj hip
      obtain ⟨x, hx⟩ := ne_none_iff_exists'.mp h
      rw [hx]
      simp only [rfcAnswer, hq, ha, rfcQuestions, bind_eq_bind, bind_some, bind_eq_some_iff] at hx
      obtain ⟨off, ⟨e', he', hoff⟩, hx⟩ := hx
      obtain ⟨-, hskip⟩ := rfcName_skip hd he'
      obtain rfl := some.inj (he.symm.trans hskip)
      split_ifs at hoff
      obtain rfl := some.inj hoff
      rw [Nat.mod_eq_of_lt (by omega), rfcRecords_walk hd hx] at hw
      exact hw

/-- A response to one question, for the root, with `ancount` answers. -/
def sampleResponse (ancount : UInt8) (answers : List UInt8) : List UInt8 :=
  [0, 7, 0x80, 0, 0, 1, 0, ancount, 0, 0, 0, 0] ++ [0, 0, 1, 0, 1] ++ answers

omit hd in
theorem sampleResponse_framed :
    let d := sampleResponse 1 [0, 0, 1, 0, 1, 0, 0, 0, 0, 0, 4, 10, 0, 2, 15]
    ∃ s', dnsRecvCb d ⟨7, none, false⟩ = some s' ∧ ∀ ip, s'.result = some ip →
      be16At d 4 = some 1 → (rfcAnswer d = some (some ip) ↔ rfcAnswer d ≠ none) :=
  dns_recv_iff (by decide) rfl

omit hd in
/-- A record of type TXT whose length passes the end takes the offset back, and an A record is found
in its data. -/
theorem sampleResponse_wraps :
    let d := sampleResponse 2 ([0, 0, 16, 0, 1, 0, 0, 0, 0, 0xFF, 0xFF] ++
      [0, 0, 1, 0, 1, 0, 0, 0, 0, 0, 4, 6, 6, 6, 6])
    be16At d 4 = some 1 ∧
      (dnsRecvCb d ⟨7, none, false⟩).map Resolver.result = some (some 0x06060606) ∧
      rfcAnswer d = none := by
  decide

end Exploidus.Net
