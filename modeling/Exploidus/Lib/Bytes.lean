import Mathlib.Tactic

/-! Fixed-size byte buffers, copies into them, and packed little-endian records. -/
namespace ByteLayout

/-- A buffer of exactly `n` bytes. -/
def Buf (n : ℕ) := Fin n → UInt8

variable {n : ℕ}

namespace Buf

/-- The byte at offset `i`; reading past the end gives zero. -/
def byte (b : Buf n) (i : ℕ) : UInt8 := if h : i < n then b ⟨i, h⟩ else 0

/-- The buffer after `memset(b, 0, n)`. -/
def zero : Buf n := fun _ => 0

/-- `memcpy(b + off, src, len)`. -/
def patch (b : Buf n) (off len : ℕ) (src : ℕ → UInt8) : Buf n :=
  fun i => if off ≤ i.val ∧ i.val < off + len then src (i.val - off) else b i

@[ext] theorem ext {a b : Buf n} (h : ∀ i < n, a.byte i = b.byte i) : a = b := by
  funext i
  have hi := h i i.isLt
  simpa only [byte, i.isLt, dif_pos, Fin.eta] using hi

@[simp] theorem byte_zero (i : ℕ) : (zero : Buf n).byte i = 0 := by
  unfold byte zero
  split <;> rfl

theorem byte_of_le (b : Buf n) {i : ℕ} (h : n ≤ i) : b.byte i = 0 := by
  simp [byte, Nat.not_lt.mpr h]

theorem byte_patch (b : Buf n) (off len : ℕ) (src : ℕ → UInt8) (i : ℕ) :
    (b.patch off len src).byte i =
      if off ≤ i ∧ i < off + len ∧ i < n then src (i - off) else b.byte i := by
  by_cases hi : i < n
  · by_cases hw : off ≤ i ∧ i < off + len
    · simp [byte, patch, hi, hw]
    have hw' : ¬ (off ≤ i ∧ i < off + len ∧ i < n) := fun h => hw ⟨h.1, h.2.1⟩
    rw [if_neg hw']
    simp only [byte, patch, hi, dif_pos, if_neg hw]
  · simp [byte, hi]

theorem byte_patch_of_lt (b : Buf n) {off len i : ℕ} (src : ℕ → UInt8) (h : i < off) :
    (b.patch off len src).byte i = b.byte i := by
  rw [byte_patch, if_neg (by omega)]

theorem byte_patch_of_ge (b : Buf n) {off len i : ℕ} (src : ℕ → UInt8) (h : off + len ≤ i) :
    (b.patch off len src).byte i = b.byte i := by
  rw [byte_patch, if_neg (by omega)]

theorem byte_patch_inside (b : Buf n) {off len i : ℕ} (src : ℕ → UInt8)
    (h : i < len) (hn : off + i < n) : (b.patch off len src).byte (off + i) = src i := by
  rw [byte_patch, if_pos (by omega), Nat.add_sub_cancel_left]

end Buf

/-- The little-endian value of the bytes `f 0, …, f (k - 1)`. -/
def le : ℕ → (ℕ → UInt8) → ℕ
  | 0, _ => 0
  | k + 1, f => (f 0).toNat + 256 * le k (fun i => f (i + 1))

/-- Byte `i` of the little-endian encoding of `v`. -/
def leByte (v i : ℕ) : UInt8 := UInt8.ofNat (v / 256 ^ i)

theorem le_lt (k : ℕ) (f : ℕ → UInt8) : le k f < 256 ^ k := by
  induction k generalizing f with
  | zero => simp [le]
  | succ k ih =>
    have h0 : (f 0).toNat < 256 := (f 0).toNat_lt
    have hk := ih (fun i => f (i + 1))
    rw [le, pow_succ]
    omega

theorem le_congr {k : ℕ} {f g : ℕ → UInt8} (h : ∀ i < k, f i = g i) : le k f = le k g := by
  induction k generalizing f g with
  | zero => rfl
  | succ k ih =>
    rw [le, le, h 0 (by omega), ih (fun i hi => h (i + 1) (by omega))]

@[simp] theorem le_zero (k : ℕ) : le k (fun _ => 0) = 0 := by
  induction k with
  | zero => rfl
  | succ k ih => simp [le, ih]

theorem le_leByte (k v : ℕ) : le k (leByte v) = v % 256 ^ k := by
  induction k generalizing v with
  | zero => simp [le, Nat.mod_one]
  | succ k ih =>
    have hshift : (fun i => leByte v (i + 1)) = leByte (v / 256) := by
      funext i
      simp only [leByte]
      rw [pow_succ', Nat.div_div_eq_div_mul]
    have h0 : (leByte v 0).toNat = v % 256 := by simp [leByte]
    rw [le, hshift, ih, h0, pow_succ', Nat.mod_mul]

/-- The `k`-byte little-endian number at offset `off`. -/
def Buf.get (b : Buf n) (off k : ℕ) : ℕ := le k (fun i => b.byte (off + i))

theorem Buf.get_lt (b : Buf n) (off k : ℕ) : b.get off k < 256 ^ k := le_lt k _

@[simp] theorem Buf.get_zero (off k : ℕ) : (Buf.zero : Buf n).get off k = 0 := by
  simp [Buf.get]

theorem Buf.get_of_le (b : Buf n) {off : ℕ} (k : ℕ) (h : n ≤ off) : b.get off k = 0 := by
  have hb : (fun i => b.byte (off + i)) = fun _ => 0 :=
    funext fun i => b.byte_of_le (by omega)
  rw [Buf.get, hb, le_zero]

theorem Buf.get_patch_disjoint (b : Buf n) {off len off' k : ℕ} (src : ℕ → UInt8)
    (h : off' + k ≤ off ∨ off + len ≤ off') :
    (b.patch off len src).get off' k = b.get off' k := by
  apply le_congr
  intro i hi
  rw [Buf.byte_patch, if_neg (by omega)]

theorem Buf.get_patch_inside (b : Buf n) {off len d k : ℕ} (src : ℕ → UInt8)
    (h : d + k ≤ len) (hn : off + len ≤ n) :
    (b.patch off len src).get (off + d) k = le k (fun i => src (d + i)) := by
  apply le_congr
  intro i hi
  rw [Nat.add_assoc, Buf.byte_patch_inside _ _ (by omega) (by omega)]

/-- The bytes of a packed record given by its fields' widths and values. -/
def packed : List (ℕ × ℕ) → ℕ → UInt8
  | [], _ => 0
  | (w, v) :: fs, j => if j < w then leByte v j else packed fs (j - w)

/-- The `k`-byte number at offset `off` of a packed record. -/
def field (fs : List (ℕ × ℕ)) (off k : ℕ) : ℕ := le k (fun i => packed fs (off + i))

theorem field_head (w v : ℕ) (fs : List (ℕ × ℕ)) : field ((w, v) :: fs) 0 w = v % 256 ^ w := by
  rw [← le_leByte]
  apply le_congr
  intro i hi
  simp [packed, hi]

theorem field_tail {w off : ℕ} (v k : ℕ) (fs : List (ℕ × ℕ)) (h : w ≤ off) :
    field ((w, v) :: fs) off k = field fs (off - w) k := by
  apply le_congr
  intro i _
  have hlt : ¬ off + i < w := by omega
  rw [packed, if_neg hlt]
  congr 1
  omega

theorem field_map {w : ℕ} (vs : List ℕ) (fs : List (ℕ × ℕ)) {j : ℕ} (h : j < vs.length) :
    field (vs.map (fun v => (w, v)) ++ fs) (w * j) w = vs[j] % 256 ^ w := by
  induction vs generalizing j with
  | nil => simp at h
  | cons v vs ih =>
    cases j with
    | zero => simpa using field_head w v (vs.map (fun v => (w, v)) ++ fs)
    | succ j =>
      have hw : w ≤ w * (j + 1) := Nat.le_mul_of_pos_right w (by omega)
      rw [List.map_cons, List.cons_append, field_tail _ _ _ hw, Nat.mul_succ, Nat.add_sub_cancel]
      simpa using ih (by simpa using h)

theorem field_skip {w : ℕ} (vs : List ℕ) (fs : List (ℕ × ℕ)) {off : ℕ} (k : ℕ)
    (h : w * vs.length ≤ off) :
    field (vs.map (fun v => (w, v)) ++ fs) off k = field fs (off - w * vs.length) k := by
  induction vs generalizing off with
  | nil => simp
  | cons v vs ih =>
    simp only [List.length_cons, Nat.mul_succ] at h
    rw [List.map_cons, List.cons_append, field_tail _ _ _ (by omega), ih (by omega)]
    simp only [List.length_cons, Nat.mul_succ]
    congr 1
    omega

end ByteLayout
