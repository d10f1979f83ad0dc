import Exploidus.Lib.Bytes
import Exploidus.Ssh.RoundTrip

/-! The AEAD of the kernel. ChaCha20 and Poly1305 are parameters, as in the SSH packet layer. -/
namespace Exploidus.Aead
open Ssh ByteLayout

/-- `MAC_DATA_MAX`. -/
def macDataMax : ℕ := 40 * 1024

/-- What lies in an array of the 48-bit address space. -/
abbrev Input := { bytes : List UInt8 // bytes.length < 2 ^ 48 }

/-- `pad16_len`. -/
def pad16Len (len : ℕ) : ℕ := if len % 16 = 0 then 0 else 16 - len % 16

/-- A write into the buffer at the position, which moves past it. -/
def put (s : List UInt8 × ℕ) (bytes : List UInt8) : List UInt8 × ℕ :=
  (s.1.take s.2 ++ bytes ++ s.1.drop (s.2 + bytes.length), s.2 + bytes.length)

/-- The six pieces of the Poly1305 input. -/
def pieces (aad ct : List UInt8) : List (List UInt8) :=
  [aad, List.replicate (pad16Len aad.length) 0, ct, List.replicate (pad16Len ct.length) 0,
    (List.range 8).map (leByte aad.length), (List.range 8).map (leByte ct.length)]

/-- `build_mac_data`: `g_mac_data` and the length. A `size_t` has 64 bits. -/
def buildMacData (g aad ct : List UInt8) : List UInt8 × ℕ :=
  let total := (aad.length + pad16Len aad.length + ct.length + pad16Len ct.length + 8 + 8) % 2 ^ 64
  if macDataMax < total then (g, 0) else (pieces aad ct).foldl put (g, 0)

/-- `tags_equal`. -/
def tagsEqual (a b : Fin 16 → UInt8) : Bool :=
  (List.finRange 16).foldl (fun diff i => diff ||| (a i ^^^ b i)) 0 == 0

section
variable (prims : Primitives) (key : Fin 32 → UInt8) (nonce : List UInt8)

theorem key_le_block : 32 ≤ 64 := by decide

/-- `poly1305_key_gen`. -/
def poly1305KeyGen : Fin 32 → UInt8 := fun i => prims.block key 0 nonce (i.castLE key_le_block)

/-- `chacha20poly1305_encrypt`: the ciphertext, the tag and `g_mac_data`. -/
def encrypt (g plaintext aad : List UInt8) : List UInt8 × (Fin 16 → UInt8) × List UInt8 :=
  let otk := poly1305KeyGen prims key nonce
  let out := prims.xor key 1 nonce plaintext
  let (g, macLen) := buildMacData g aad out
  if macLen = 0 then (out, fun _ => 0, g) else (out, prims.poly1305 otk (g.take macLen), g)

/-- `chacha20poly1305_decrypt`: the result, `out` and `g_mac_data`. -/
def decrypt (g out ciphertext aad : List UInt8) (tag : Fin 16 → UInt8) :
    Bool × List UInt8 × List UInt8 :=
  let otk := poly1305KeyGen prims key nonce
  let (g, macLen) := buildMacData g aad ciphertext
  if macLen = 0 then (false, out, g)
  else
    let computed := prims.poly1305 otk (g.take macLen)
    if !tagsEqual computed tag then (false, out, g)
    else (true, prims.xor key 1 nonce ciphertext ++ out.drop ciphertext.length, g)

end

/-- The Poly1305 input of RFC 8439. -/
def macData (aad ct : List UInt8) : List UInt8 := (pieces aad ct).flatten

def Fits (aad ct : List UInt8) : Prop := (macData aad ct).length ≤ macDataMax

theorem length_macData (aad ct : List UInt8) : (macData aad ct).length =
    aad.length + pad16Len aad.length + ct.length + pad16Len ct.length + 8 + 8 := by
  simp [macData, pieces]
  omega

theorem foldl_put (ws : List (List UInt8)) {s : List UInt8 × ℕ} (hs : s.2 ≤ s.1.length) :
    (ws.foldl put s).2 = s.2 + ws.flatten.length ∧
      (ws.foldl put s).1.take (ws.foldl put s).2 = s.1.take s.2 ++ ws.flatten := by
  induction ws generalizing s with
  | nil => simp
  | cons w ws ih =>
    have hlen : (s.1.take s.2 ++ w).length = s.2 + w.length := by simp [hs]
    obtain ⟨hpos, hbytes⟩ := @ih (put s w) (by simp [put, hs])
    refine ⟨?_, ?_⟩
    · rw [List.foldl_cons, hpos]
      simp [put, Nat.add_assoc]
    · rw [List.foldl_cons, hbytes]
      rw [put, ← hlen, List.take_left, List.flatten_cons, List.append_assoc]

/-- What is built is the Poly1305 input, if it fits; otherwise the length is zero. -/
theorem buildMacData_spec (g : List UInt8) (aad ct : Input) :
    (Fits aad.1 ct.1 → (buildMacData g aad.1 ct.1).2 ≠ 0 ∧
      (buildMacData g aad.1 ct.1).1.take (buildMacData g aad.1 ct.1).2 = macData aad.1 ct.1) ∧
    (¬ Fits aad.1 ct.1 → (buildMacData g aad.1 ct.1).2 = 0) := by
  have haad := aad.2
  have hct := ct.2
  have hpad (n : ℕ) : pad16Len n < 16 := by unfold pad16Len; split_ifs <;> omega
  have h1 := hpad aad.1.length
  have h2 := hpad ct.1.length
  have htotal : (macData aad.1 ct.1).length % 2 ^ 64 = (macData aad.1 ct.1).length := by
    rw [length_macData]
    omega
  rw [buildMacData, ← length_macData, htotal]
  refine ⟨fun hfits => ?_, fun hfits => by rw [if_pos (not_le.mp hfits)]⟩
  rw [if_neg (not_lt.mpr hfits)]
  obtain ⟨hpos, hbytes⟩ := foldl_put (pieces aad.1 ct.1) (s := (g, 0)) (Nat.zero_le _)
  refine ⟨?_, by simpa [macData] using hbytes⟩
  rw [hpos, ← macData, length_macData]
  omega

theorem leBytes_inj {m n : ℕ} (hm : m < 2 ^ 48) (hn : n < 2 ^ 48)
    (h : (List.range 8).map (leByte m) = (List.range 8).map (leByte n)) : m = n := by
  have hle : le 8 (leByte m) = le 8 (leByte n) := by
    apply le_congr
    intro i hi
    exact List.map_inj_left.mp h i (List.mem_range.mpr hi)
  rw [le_leByte, le_leByte] at hle
  omega

theorem macData_inj {aad aad' ct ct' : Input} (h : macData aad.1 ct.1 = macData aad'.1 ct'.1) :
    aad = aad' ∧ ct = ct' := by
  simp only [macData, pieces, List.flatten_cons, List.flatten_nil, List.append_nil,
    ← List.append_assoc] at h
  -- the lengths stand at the end
  obtain ⟨h, hct⟩ := List.append_inj' h (by simp)
  obtain ⟨h, haad⟩ := List.append_inj' h (by simp)
  have hct := leBytes_inj ct.2 ct'.2 hct
  have haad := leBytes_inj aad.2 aad'.2 haad
  obtain ⟨h, -⟩ := List.append_inj' h (by simp [hct])
  obtain ⟨h, hct⟩ := List.append_inj' h hct
  obtain ⟨haad, -⟩ := List.append_inj h haad
  exact ⟨Subtype.ext haad, Subtype.ext hct⟩

theorem foldl_or_eq_zero {α : Type} (f : α → UInt8) (l : List α) (d : UInt8) :
    l.foldl (fun diff i => diff ||| f i) d = 0 ↔ d = 0 ∧ ∀ i ∈ l, f i = 0 := by
  induction l generalizing d with
  | nil => simp
  | cons i l ih => simp [ih, and_assoc]

theorem tagsEqual_iff (a b : Fin 16 → UInt8) : tagsEqual a b ↔ a = b := by
  simp [tagsEqual, foldl_or_eq_zero, funext_iff]

section
variable (prims : Primitives) (key : Fin 32 → UInt8) (nonce : List UInt8)

/-- The tag that the two sides compute. -/
def mac (aad ct : List UInt8) : Fin 16 → UInt8 :=
  prims.poly1305 (poly1305KeyGen prims key nonce) (macData aad ct)

/-- The ciphertext as an input of its own. -/
def sealed (plaintext : Input) : Input :=
  ⟨prims.xor key 1 nonce plaintext.1, (prims.length_xor ..).trans_lt plaintext.2⟩

theorem fits_sealed {plaintext aad : Input} (h : Fits aad.1 plaintext.1) :
    Fits aad.1 (sealed prims key nonce plaintext).1 := by
  rwa [Fits, length_macData, sealed, prims.length_xor, ← length_macData]

theorem encrypt_eq (g : List UInt8) {plaintext aad : Input} (h : Fits aad.1 plaintext.1) :
    (encrypt prims key nonce g plaintext.1 aad.1).1 = (sealed prims key nonce plaintext).1 ∧
      (encrypt prims key nonce g plaintext.1 aad.1).2.1 =
        mac prims key nonce aad.1 (sealed prims key nonce plaintext).1 := by
  obtain ⟨hne, hbytes⟩ := (buildMacData_spec g aad _).1 (fits_sealed prims key nonce h)
  have hct : prims.xor key 1 nonce plaintext.1 = (sealed prims key nonce plaintext).1 := rfl
  simp only [encrypt, hct]
  rw [if_neg hne, hbytes]
  exact ⟨rfl, rfl⟩

theorem decrypt_true_iff (g out : List UInt8) (ct aad : Input) (tag : Fin 16 → UInt8) :
    (decrypt prims key nonce g out ct.1 aad.1 tag).1 ↔
      Fits aad.1 ct.1 ∧ tag = mac prims key nonce aad.1 ct.1 := by
  by_cases hfits : Fits aad.1 ct.1
  · obtain ⟨hne, hbytes⟩ := (buildMacData_spec g aad ct).1 hfits
    simp only [decrypt]
    rw [if_neg hne, hbytes, ← mac, and_iff_right hfits, @eq_comm _ tag, ← tagsEqual_iff]
    cases tagsEqual (mac prims key nonce aad.1 ct.1) tag <;> simp
  · simp [decrypt, (buildMacData_spec g aad ct).2 hfits, hfits]

theorem decrypt_out (g out ct aad : List UInt8) (tag : Fin 16 → UInt8) :
    (decrypt prims key nonce g out ct aad tag).2.1 =
      if (decrypt prims key nonce g out ct aad tag).1 then
        prims.xor key 1 nonce ct ++ out.drop ct.length else out := by
  simp only [decrypt]
  split_ifs <;> simp_all

/-- Decryption gives back what was encrypted; the Poly1305 input determines the associated data and
the ciphertext; and only a matching tag on an input that fits is accepted. -/
theorem aead_glue : (∀ (plaintext aad : Input) (g g' out : List UInt8), Fits aad.1 plaintext.1 →
      let sent := encrypt prims key nonce g plaintext.1 aad.1
      let r := decrypt prims key nonce g' out sent.1 aad.1 sent.2.1
      r.1 = true ∧ r.2.1 = plaintext.1 ++ out.drop plaintext.1.length) ∧
    (∀ (aad aad' ct ct' : Input) (g g' : List UInt8), Fits aad.1 ct.1 → Fits aad'.1 ct'.1 →
      let m := buildMacData g aad.1 ct.1
      let m' := buildMacData g' aad'.1 ct'.1
      m.1.take m.2 = m'.1.take m'.2 → aad = aad' ∧ ct = ct') ∧
    ∀ (ct aad : Input) (g out : List UInt8) (tag : Fin 16 → UInt8),
      let m := buildMacData g aad.1 ct.1
      let r := decrypt prims key nonce g out ct.1 aad.1 tag
      (r.1 = true → tag = prims.poly1305 (poly1305KeyGen prims key nonce) (m.1.take m.2)) ∧
      (r.1 = false → r.2.1 = out) ∧ (¬ Fits aad.1 ct.1 → r.1 = false) := by
  refine ⟨fun plaintext aad g g' out hfits => ?_, fun aad aad' ct ct' g g' hfits hfits' => ?_,
    fun ct aad g out tag => ?_⟩
  · obtain ⟨hct, htag⟩ := encrypt_eq prims key nonce g hfits
    have hyes := (decrypt_true_iff prims key nonce g' out (sealed prims key nonce plaintext) aad
      _).mpr ⟨fits_sealed prims key nonce hfits, htag⟩
    dsimp only
    rw [decrypt_out, hct, if_pos hyes]
    exact ⟨hyes, by simp [sealed]⟩
  · intro m m' h
    rw [((buildMacData_spec g aad ct).1 hfits).2, ((buildMacData_spec g' aad' ct').1 hfits').2] at h
    exact macData_inj h
  · have hiff := decrypt_true_iff prims key nonce g out ct aad tag
    dsimp only
    refine ⟨fun hr => ?_, fun hr => ?_, fun hfits => ?_⟩
    · obtain ⟨hfits, htag⟩ := hiff.mp hr
      rw [((buildMacData_spec g aad ct).1 hfits).2]
      exact htag
    · rw [decrypt_out, if_neg (by simp [hr])]
    · exact Bool.eq_false_iff.mpr fun hr => hfits (hiff.mp hr).1

end

end Exploidus.Aead
