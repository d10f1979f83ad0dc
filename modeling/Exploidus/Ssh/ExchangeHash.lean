import Exploidus.Ssh.RoundTrip

/-! The exchange hash: the bytes that are fed to SHA-256, and the encoding of the shared secret; and
the keys derived from it. -/
namespace Exploidus.Ssh

/-- The bytes that a pointer and a `uint32_t` length give. -/
abbrev Str := { bytes : List UInt8 // bytes.length < 2 ^ 32 }

/-- `put_string`. -/
def putString (data : List UInt8) : List UInt8 := putU32 (UInt32.ofNat data.length) ++ data

/-- `mpint_from_be32`. -/
def mpintFromBe32 (k : Vector UInt8 32) : List UInt8 :=
  let i := k.toList.findIdx fun b => !(b == 0)
  let n := 32 - i
  let pad := if 0 < n ∧ k.toList.getD i 0 &&& 0x80 ≠ 0 then 1 else 0
  putU32 (UInt32.ofNat (n + pad)) ++ List.replicate pad 0 ++ (k.toList.drop i).take n

/-- `h_string`, on a context that is the bytes fed to it. -/
def hString (c data : List UInt8) : List UInt8 := c ++ putU32 (UInt32.ofNat data.length) ++ data

/-- `HOSTKEY_ALG`: ssh-ed25519. -/
def hostkeyAlg : List UInt8 := [0x73, 0x73, 0x68, 0x2d, 0x65, 0x64, 0x32, 0x35, 0x35, 0x31, 0x39]

/-- `ssh_hostkey_blob`. -/
def sshHostkeyBlob (publicKey : Vector UInt8 32) : List UInt8 :=
  putString hostkeyAlg ++ putString publicKey.toList

/-- What the two sides exchanged: the identification strings, the KEXINIT payloads, the host key,
the ephemeral keys and the secret. -/
structure Exchange where
  vC : Str
  vS : Str
  iC : Str
  iS : Str
  hostKey : Vector UInt8 32
  qC : Vector UInt8 32
  qS : Vector UInt8 32
  k : Vector UInt8 32

/-- The bytes that `ssh_kex_ecdh_server` hashes. -/
def Exchange.hashed (e : Exchange) : List UInt8 :=
  let c := hString (hString (hString (hString [] e.vC.1) e.vS.1) e.iC.1) e.iS.1
  let c := hString (hString (hString c (sshHostkeyBlob e.hostKey)) e.qC.toList) e.qS.toList
  c ++ mpintFromBe32 e.k

theorem putString_append_inj {a b r s : List UInt8} (ha : a.length < 2 ^ 32)
    (hb : b.length < 2 ^ 32) (h : putString a ++ r = putString b ++ s) : a = b ∧ r = s := by
  simp only [putString, List.append_assoc] at h
  obtain ⟨hlen, hrest⟩ := List.append_inj h (by simp)
  apply List.append_inj hrest
  have h32 := congrArg UInt32.toNat (congrArg getU32 hlen)
  simp only [getU32_putU32, UInt32.toNat_ofNat'] at h32
  omega

theorem putString_inj {a b : List UInt8} (ha : a.length < 2 ^ 32) (hb : b.length < 2 ^ 32)
    (h : putString a = putString b) : a = b :=
  (putString_append_inj (r := []) (s := []) ha hb (by simpa using h)).1

/-! The secret. -/

/-- The number that big-endian bytes stand for. -/
def beValue (bs : List UInt8) : ℕ := bs.foldl (fun v b => 256 * v + b.toNat) 0

/-- The shortest two's complement form of a number that is not negative: the sign bit is clear, and
a zero byte comes first only where the next byte has the top bit. -/
def Canonical : List UInt8 → Prop
  | [] => True
  | b :: bs => b &&& 0x80 = 0 ∧ (b = 0 → ∃ c cs, bs = c :: cs ∧ c &&& 0x80 ≠ 0)

/-- The bytes after the length, where `bs` has no leading zero. -/
def signed (bs : List UInt8) : List UInt8 := if bs.headD 0 &&& 0x80 ≠ 0 then 0 :: bs else bs

theorem exists_zeros (bs : List UInt8) :
    ∃ z m, bs = List.replicate z 0 ++ m ∧ m.head? ≠ some 0 := by
  induction bs with
  | nil => exact ⟨0, [], by simp⟩
  | cons b bs ih =>
    by_cases hb : b = 0
    · obtain ⟨z, m, rfl, hm⟩ := ih
      exact ⟨z + 1, m, by simp [hb, List.replicate_succ], hm⟩
    · exact ⟨0, b :: bs, by simp, by simp [hb]⟩

theorem findIdx_zeros (z : ℕ) {m : List UInt8} (hm : m.head? ≠ some 0) :
    (List.replicate z 0 ++ m).findIdx (fun b => !(b == 0)) = z := by
  induction z with
  | zero =>
    cases m with
    | nil => rfl
    | cons b m =>
      have hb : (b == 0) = false := by simpa using hm
      simp [List.findIdx_cons, hb]
  | succ z ih => simp [List.replicate_succ, List.findIdx_cons, ih]

theorem beValue_zeros (n : ℕ) (bs : List UInt8) :
    beValue (List.replicate n 0 ++ bs) = beValue bs := by
  induction n with
  | zero => rfl
  | succ n ih => exact ih

theorem mpintFromBe32_spec (k : Vector UInt8 32) : ∃ z m, k.toList = List.replicate z 0 ++ m ∧
    m.head? ≠ some 0 ∧ mpintFromBe32 k = putString (signed m) := by
  obtain ⟨z, m, hk, hm⟩ := exists_zeros k.toList
  have hlen : z + m.length = 32 := by simpa using (congrArg List.length hk).symm
  refine ⟨z, m, hk, hm, ?_⟩
  have hn : 32 - z = m.length := by omega
  simp only [mpintFromBe32, hk, findIdx_zeros z hm, hn]
  cases m with
  | nil => simp [signed, putString]
  | cons b m =>
    by_cases hb : b &&& 0x80 = 0
    · simp [signed, putString, hb]
    · simp [signed, putString, hb]

theorem signed_inj {m m' : List UInt8} (hm : m.head? ≠ some 0) (hm' : m'.head? ≠ some 0)
    (h : signed m = signed m') : m = m' := by
  unfold signed at h
  split_ifs at h with h1 h2 h2
  · exact List.tail_eq_of_cons_eq h
  · exact absurd (by rw [← h]; rfl) hm'
  · exact absurd (by rw [h]; rfl) hm
  · exact h

theorem canonical_signed {m : List UInt8} (hm : m.head? ≠ some 0) : Canonical (signed m) := by
  cases m with
  | nil => simp [signed, Canonical]
  | cons b m =>
    have hb : b ≠ 0 := by simpa using hm
    by_cases h : b &&& 0x80 = 0
    · simp [signed, Canonical, h, hb]
    · simp [signed, Canonical, h]

theorem beValue_signed (m : List UInt8) : beValue (signed m) = beValue m := by
  unfold signed
  split_ifs
  · exact beValue_zeros 1 m
  · rfl

theorem length_signed_le (m : List UInt8) : (signed m).length ≤ m.length + 1 := by
  unfold signed
  split_ifs <;> simp

theorem mpintFromBe32_injective : Function.Injective mpintFromBe32 := by
  intro k k' h
  obtain ⟨z, m, hk, hm, he⟩ := mpintFromBe32_spec k
  obtain ⟨z', m', hk', hm', he'⟩ := mpintFromBe32_spec k'
  have hlen : z + m.length = 32 := by simpa using (congrArg List.length hk).symm
  have hlen' : z' + m'.length = 32 := by simpa using (congrArg List.length hk').symm
  have hs := length_signed_le m
  have hs' := length_signed_le m'
  rw [he, he'] at h
  obtain rfl := signed_inj hm hm' (putString_inj (by omega) (by omega) h)
  obtain rfl : z = z' := by omega
  exact Vector.toList_inj.mp (hk.trans hk'.symm)

theorem hString_eq (c data : List UInt8) : hString c data = c ++ putString data := by
  simp [hString, putString]

theorem hashed_injective : Function.Injective Exchange.hashed := by
  intro e e' h
  have h32 (v : Vector UInt8 32) : v.toList.length < 2 ^ 32 := by simp
  have hblob (v : Vector UInt8 32) : (sshHostkeyBlob v).length < 2 ^ 32 := by
    simp [sshHostkeyBlob, putString, hostkeyAlg, List.length_append]
  simp only [Exchange.hashed, hString_eq, List.nil_append, List.append_assoc] at h
  obtain ⟨hvC, h⟩ := putString_append_inj e.vC.2 e'.vC.2 h
  obtain ⟨hvS, h⟩ := putString_append_inj e.vS.2 e'.vS.2 h
  obtain ⟨hiC, h⟩ := putString_append_inj e.iC.2 e'.iC.2 h
  obtain ⟨hiS, h⟩ := putString_append_inj e.iS.2 e'.iS.2 h
  obtain ⟨hks, h⟩ := putString_append_inj (hblob _) (hblob _) h
  obtain ⟨hqC, h⟩ := putString_append_inj (h32 _) (h32 _) h
  obtain ⟨hqS, h⟩ := putString_append_inj (h32 _) (h32 _) h
  have hkey := putString_inj (h32 _) (h32 _) (List.append_cancel_left hks)
  cases e
  cases e'
  simp only [Exchange.mk.injEq]
  exact ⟨Subtype.ext hvC, Subtype.ext hvS, Subtype.ext hiC, Subtype.ext hiS,
    Vector.toList_inj.mp hkey, Vector.toList_inj.mp hqC, Vector.toList_inj.mp hqS,
    mpintFromBe32_injective h⟩

/-- Different exchanges are hashed as different byte strings, and the secret is in them as the
canonical `mpint` of its big-endian number. -/
theorem exchangeHash_binds : Function.Injective Exchange.hashed ∧ ∀ k : Vector UInt8 32,
    ∃ body, mpintFromBe32 k = putString body ∧ beValue body = beValue k.toList ∧
      Canonical body := by
  refine ⟨hashed_injective, fun k => ?_⟩
  obtain ⟨z, m, hk, hm, he⟩ := mpintFromBe32_spec k
  refine ⟨signed m, he, ?_, canonical_signed hm⟩
  rw [beValue_signed, hk, beValue_zeros]

/-! ### Key derivation -/

section
variable (hash : List UInt8 → Vector UInt8 32) (kmp : List UInt8) (h : Vector UInt8 32)
  (letter : UInt8) (sessionId : Vector UInt8 32)

/-- The loop of `derive_key`, from the bytes written so far. -/
def deriveLoop (outlen : ℕ) (out : List UInt8) : List UInt8 :=
  if out.length < outlen then
    let blk := (hash (kmp ++ h.toList ++ out)).toList
    let take := if outlen - out.length < 32 then outlen - out.length else 32
    deriveLoop outlen (out ++ blk.take take)
  else out
termination_by outlen - out.length
decreasing_by
  simp only [List.length_append, List.length_take, Vector.length_toList]
  split_ifs <;> omega

/-- What `derive_key` writes; SHA-256 is a function of the bytes that are fed to it. -/
def deriveKey (outlen : ℕ) : List UInt8 :=
  let blk := (hash (kmp ++ h.toList ++ [letter] ++ sessionId.toList)).toList
  deriveLoop hash kmp h outlen (blk.take (if outlen < 32 then outlen else 32))

/-- `K1 || … || Kn` of RFC 4253. -/
def keyBlocks : ℕ → List UInt8
  | 0 => []
  | 1 => (hash (kmp ++ h.toList ++ [letter] ++ sessionId.toList)).toList
  | n + 2 => keyBlocks (n + 1) ++ (hash (kmp ++ h.toList ++ keyBlocks (n + 1))).toList

theorem take_block (blk : Vector UInt8 32) (m : ℕ) :
    blk.toList.take (if m < 32 then m else 32) = blk.toList.take m := by
  split_ifs with hlt
  · rfl
  · rw [List.take_of_length_le (by simp), List.take_of_length_le (by simpa using hlt)]

theorem length_keyBlocks (n : ℕ) : (keyBlocks hash kmp h letter sessionId n).length = 32 * n := by
  induction n with
  | zero => rfl
  | succ n ih => cases n <;> simp_all [keyBlocks, Nat.mul_add]

theorem deriveLoop_keyBlocks {outlen k n : ℕ} (hn : n + k = outlen / 32) :
    deriveLoop hash kmp h outlen
        ((keyBlocks hash kmp h letter sessionId (n + 1)).take outlen) =
      (keyBlocks hash kmp h letter sessionId (outlen / 32 + 1)).take outlen := by
  have hlen := length_keyBlocks hash kmp h letter sessionId (n + 1)
  induction k generalizing n with
  | zero =>
    rw [deriveLoop, if_neg, ← hn, Nat.add_zero]
    rw [List.length_take, hlen]
    omega
  | succ k ih =>
    -- the loop does the next block, of which it may want nothing
    have hnext := @ih (n + 1) (by omega) (length_keyBlocks ..)
    rw [← hnext, keyBlocks, List.take_append, List.take_of_length_le (by omega)]
    by_cases hlt : (keyBlocks hash kmp h letter sessionId (n + 1)).length < outlen
    · rw [deriveLoop, if_pos hlt]
      simp only [take_block]
    · rw [Nat.sub_eq_zero_of_le (by omega), List.take_zero, List.append_nil]

/-- `derive_key` writes the first bytes of the blocks. -/
theorem deriveKey_eq (outlen : ℕ) : deriveKey hash kmp h letter sessionId outlen =
        (keyBlocks hash kmp h letter sessionId (outlen / 32 + 1)).take outlen ∧
      (deriveKey hash kmp h letter sessionId outlen).length = outlen := by
  have hkey : deriveKey hash kmp h letter sessionId outlen =
      (keyBlocks hash kmp h letter sessionId (outlen / 32 + 1)).take outlen := by
    rw [← deriveLoop_keyBlocks hash kmp h letter sessionId (Nat.zero_add (outlen / 32))]
    simp only [deriveKey, keyBlocks, take_block]
  refine ⟨hkey, ?_⟩
  rw [hkey, List.length_take, length_keyBlocks]
  omega

end

end Exploidus.Ssh
