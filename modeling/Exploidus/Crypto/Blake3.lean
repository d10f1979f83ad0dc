import Mathlib.Tactic

/-! The kernel's single-chunk BLAKE3 variant (`kernel/crypto/blake3.c`), with its
incremental interface, and the hash of `tools/gen_index.py` on Python's unbounded integers. -/
namespace Exploidus.Blake3

def iv : Vector UInt32 8 :=
  #v[0x6A09E667, 0xBB67AE85, 0x3C6EF372, 0xA54FF53A, 0x510E527F, 0x9B05688C, 0x1F83D9AB, 0x5BE0CD19]

def msgPermutation : Vector (Fin 16) 16 :=
  #v[2, 6, 3, 10, 7, 0, 4, 13, 1, 11, 12, 5, 9, 14, 15, 8]

def chunkStart : UInt32 := 1
def chunkEnd : UInt32 := 2
def root : UInt32 := 8

def rotr32 (x n : UInt32) : UInt32 := (x >>> n) ||| (x <<< (32 - n))

def gFunction (state : Vector UInt32 16) (a b c d : Fin 16) (mx my : UInt32) : Vector UInt32 16 :=
  let state := state.set a (state[a] + state[b] + mx)
  let state := state.set d (rotr32 (state[d] ^^^ state[a]) 16)
  let state := state.set c (state[c] + state[d])
  let state := state.set b (rotr32 (state[b] ^^^ state[c]) 12)
  let state := state.set a (state[a] + state[b] + my)
  let state := state.set d (rotr32 (state[d] ^^^ state[a]) 8)
  let state := state.set c (state[c] + state[d])
  state.set b (rotr32 (state[b] ^^^ state[c]) 7)

def roundFn (state m : Vector UInt32 16) : Vector UInt32 16 :=
  let state := gFunction state 0 4 8 12 m[0] m[1]
  let state := gFunction state 1 5 9 13 m[2] m[3]
  let state := gFunction state 2 6 10 14 m[4] m[5]
  let state := gFunction state 3 7 11 15 m[6] m[7]
  let state := gFunction state 0 5 10 15 m[8] m[9]
  let state := gFunction state 1 6 11 12 m[10] m[11]
  let state := gFunction state 2 7 8 13 m[12] m[13]
  gFunction state 3 4 9 14 m[14] m[15]

def permute (m : Vector UInt32 16) : Vector UInt32 16 := msgPermutation.map fun i => m[i]

/-- `rounds` applications of `round_fn` then `permute`. -/
def runRounds : ℕ → Vector UInt32 16 → Vector UInt32 16 → Vector UInt32 16
  | 0, state, _ => state
  | r + 1, state, block => runRounds r (roundFn state block) (permute block)

def compress (chaining : Vector UInt32 8) (block : Vector UInt32 16) (counter : UInt64)
    (blockLen flags : UInt32) : Vector UInt32 16 :=
  let state : Vector UInt32 16 := chaining ++
    #v[iv[0], iv[1], iv[2], iv[3], counter.toUInt32, (counter >>> 32).toUInt32, blockLen, flags]
  let state := runRounds 7 state block
  Vector.ofFn fun i : Fin 16 =>
    if h : i.val < 8 then state[i] ^^^ state[i.val + 8] else state[i] ^^^ chaining[i.val - 8]

/-- `blake3_ctx_t`. -/
structure Ctx where
  chaining : Vector UInt32 8
  pending : List UInt8
  started : Bool

def init : Ctx := ⟨iv, [], false⟩

/-- The zero-padded pending block as sixteen little-endian words. -/
def blockWords (pending : List UInt8) : Vector UInt32 16 := Vector.ofFn fun i =>
  (pending.getD (i * 4) 0).toUInt32 ||| ((pending.getD (i * 4 + 1) 0).toUInt32 <<< 8) |||
    ((pending.getD (i * 4 + 2) 0).toUInt32 <<< 16) |||
    ((pending.getD (i * 4 + 3) 0).toUInt32 <<< 24)

def compressIntermediate (ctx : Ctx) : Ctx :=
  let flags := if ctx.started then 0 else chunkStart
  let out := compress ctx.chaining (blockWords ctx.pending) 0
    (UInt32.ofNat ctx.pending.length) flags
  ⟨Vector.ofFn fun i : Fin 8 => out[i.val], [], true⟩

/-- The loop of `blake3_update`; every turn consumes a byte, so `data.length` turns suffice. -/
def updateLoop : ℕ → Ctx → List UInt8 → Ctx
  | 0, ctx, _ => ctx
  | fuel + 1, ctx, data =>
    if data = [] then ctx
    else
      let ctx := if ctx.pending.length = 64 then compressIntermediate ctx else ctx
      let take := min data.length (64 - ctx.pending.length)
      updateLoop fuel { ctx with pending := ctx.pending ++ data.take take } (data.drop take)

def update (ctx : Ctx) (data : List UInt8) : Ctx := updateLoop data.length ctx data

def final (ctx : Ctx) : List UInt8 :=
  let flags := if ctx.started then chunkEnd ||| root else chunkEnd ||| root ||| chunkStart
  let out := compress ctx.chaining (blockWords ctx.pending) 0
    (UInt32.ofNat ctx.pending.length) flags
  (List.finRange 8).flatMap fun i =>
    let w := out.get (i.castLE (by decide))
    [w.toUInt8, (w >>> 8).toUInt8, (w >>> 16).toUInt8, (w >>> 24).toUInt8]

def hash (input : List UInt8) : List UInt8 := final (update init input)

end Exploidus.Blake3

namespace Exploidus.GenIndex
open Blake3

def pyIv : Vector ℕ 8 :=
  #v[0x6A09E667, 0xBB67AE85, 0x3C6EF372, 0xA54FF53A, 0x510E527F, 0x9B05688C, 0x1F83D9AB, 0x5BE0CD19]

def mask32 : ℕ := 0xFFFFFFFF

/-- `_rotr32`. -/
def pyRotr32 (x n : ℕ) : ℕ :=
  let x := x &&& mask32
  (x >>> n ||| x <<< (32 - n)) &&& mask32

/-- `_g`. -/
def pyG (state : Vector ℕ 16) (a b c d : Fin 16) (mx my : ℕ) : Vector ℕ 16 :=
  let state := state.set a ((state[a] + state[b] + mx) &&& mask32)
  let state := state.set d (pyRotr32 (state[d] ^^^ state[a]) 16)
  let state := state.set c ((state[c] + state[d]) &&& mask32)
  let state := state.set b (pyRotr32 (state[b] ^^^ state[c]) 12)
  let state := state.set a ((state[a] + state[b] + my) &&& mask32)
  let state := state.set d (pyRotr32 (state[d] ^^^ state[a]) 8)
  let state := state.set c ((state[c] + state[d]) &&& mask32)
  state.set b (pyRotr32 (state[b] ^^^ state[c]) 7)

/-- `_round`. -/
def pyRound (state m : Vector ℕ 16) : Vector ℕ 16 :=
  let state := pyG state 0 4 8 12 m[0] m[1]
  let state := pyG state 1 5 9 13 m[2] m[3]
  let state := pyG state 2 6 10 14 m[4] m[5]
  let state := pyG state 3 7 11 15 m[6] m[7]
  let state := pyG state 0 5 10 15 m[8] m[9]
  let state := pyG state 1 6 11 12 m[10] m[11]
  let state := pyG state 2 7 8 13 m[12] m[13]
  pyG state 3 4 9 14 m[14] m[15]

/-- `_permute`. -/
def pyPermute (m : Vector ℕ 16) : Vector ℕ 16 := msgPermutation.map fun i => m[i]

def pyRounds : ℕ → Vector ℕ 16 → Vector ℕ 16 → Vector ℕ 16
  | 0, state, _ => state
  | r + 1, state, block => pyRounds r (pyRound state block) (pyPermute block)

/-- `_compress`. -/
def pyCompress (chaining : Vector ℕ 8) (block : Vector ℕ 16) (counter blockLen flags : ℕ) :
    Vector ℕ 16 :=
  let state : Vector ℕ 16 := chaining ++ #v[pyIv[0], pyIv[1], pyIv[2], pyIv[3],
    counter &&& mask32, (counter >>> 32) &&& mask32, blockLen, flags]
  let state := pyRounds 7 state block
  Vector.ofFn fun i : Fin 16 =>
    if h : i.val < 8 then (state[i] ^^^ state[i.val + 8]) &&& mask32
    else (state[i] ^^^ chaining[i.val - 8]) &&& mask32

/-- The words of a block that is padded with zeros. -/
def pyBlockWords (chunk : List UInt8) : Vector ℕ 16 := Vector.ofFn fun i =>
  (chunk.getD (i * 4) 0).toNat ||| (chunk.getD (i * 4 + 1) 0).toNat <<< 8 |||
    (chunk.getD (i * 4 + 2) 0).toNat <<< 16 ||| (chunk.getD (i * 4 + 3) 0).toNat <<< 24

/-- The first half of what a compression gives. -/
def front {α : Type} (out : Vector α 16) : Vector α 8 := Vector.ofFn fun i => out[i.val]

/-- The loop of `kernel_blake3`; every turn but the last takes 64 bytes. -/
def pyBlocks (data : List UInt8) : ℕ → Vector ℕ 8 → ℕ → Vector ℕ 16
  | fuel, chaining, offset =>
    let thisBlock := min (data.length - offset) 64
    let isLast := data.length ≤ offset + thisBlock
    let flags := (if offset = 0 then 1 else 0) ||| if isLast then 2 ||| 8 else 0
    let out := pyCompress chaining (pyBlockWords ((data.drop offset).take thisBlock)) 0 thisBlock
      flags
    if isLast then out
    else
      match fuel with
      | 0 => out
      | fuel + 1 => pyBlocks data fuel (front out) (offset + thisBlock)

/-- `kernel_blake3`. -/
def kernelBlake3 (data : List UInt8) : List UInt8 :=
  let out := pyBlocks data data.length pyIv 0
  (List.finRange 8).flatMap fun i =>
    let v := out.get (i.castLE (by decide))
    [UInt8.ofNat (v &&& 0xFF), UInt8.ofNat (v >>> 8 &&& 0xFF), UInt8.ofNat (v >>> 16 &&& 0xFF),
      UInt8.ofNat (v >>> 24 &&& 0xFF)]

/-! The integers are those of the kernel's words. -/

/-- The integers of a vector of words. -/
def ints {n : ℕ} (v : Vector UInt32 n) : Vector ℕ n := v.map UInt32.toNat

theorem and_mask32 (x : ℕ) : x &&& mask32 = x % 2 ^ 32 := Nat.and_two_pow_sub_one_eq_mod x 32

theorem pyRotr32_toNat (x : UInt32) {n : ℕ} (hn : 0 < n ∧ n < 32) :
    pyRotr32 x.toNat n = (rotr32 x (UInt32.ofNat n)).toNat := by
  have hx : x.toNat % 2 ^ 32 = x.toNat := Nat.mod_eq_of_lt x.toNat_lt
  have hr : x.toNat >>> n % 2 ^ 32 = x.toNat >>> n :=
    Nat.mod_eq_of_lt ((Nat.shiftRight_le _ _).trans_lt x.toNat_lt)
  have hl : (32 - UInt32.ofNat n).toNat = 32 - n := by
    rw [UInt32.toNat_sub_of_le] <;> simp [UInt32.le_iff_toNat_le] <;> omega
  simp only [pyRotr32, and_mask32, hx, Nat.or_mod_two_pow, hr]
  simp [rotr32, hl, Nat.mod_eq_of_lt, hn, show n % 4294967296 = n by omega,
    show (32 - n) % 32 = 32 - n by omega]

section
variable (s : Vector UInt32 16) (a b : Fin 16)

theorem ints_add (m : UInt32) : (ints s).set a (((ints s)[a] + (ints s)[b] + m.toNat) &&& mask32) =
      ints (s.set a (s[a] + s[b] + m)) := by
  simp [ints, and_mask32, Nat.add_mod]

theorem ints_sum :
    (ints s).set a (((ints s)[a] + (ints s)[b]) &&& mask32) = ints (s.set a (s[a] + s[b])) := by
  simp [ints, and_mask32]

theorem ints_rotate {n : ℕ} (hn : 0 < n ∧ n < 32) :
    (ints s).set a (pyRotr32 ((ints s)[a] ^^^ (ints s)[b]) n) =
      ints (s.set a (rotr32 (s[a] ^^^ s[b]) (UInt32.ofNat n))) := by
  simp [ints, ← pyRotr32_toNat _ hn]

end

theorem pyG_ints (s : Vector UInt32 16) (a b c d : Fin 16) (mx my : UInt32) :
    pyG (ints s) a b c d mx.toNat my.toNat = ints (gFunction s a b c d mx my) := by
  simp only [pyG, gFunction]
  rw [ints_add, ints_rotate _ _ _ (by decide), ints_sum, ints_rotate _ _ _ (by decide), ints_add,
    ints_rotate _ _ _ (by decide), ints_sum,
    ints_rotate _ _ _ (by decide)]
  rfl

theorem pyRound_ints (s m : Vector UInt32 16) : pyRound (ints s) (ints m) = ints (roundFn s m) := by
  have hget : ∀ i (hi : i < 16), (ints m)[i] = m[i].toNat := fun i hi => by simp [ints]
  simp only [pyRound, roundFn, hget, pyG_ints]

theorem pyPermute_ints (m : Vector UInt32 16) : pyPermute (ints m) = ints (permute m) := by
  simp [pyPermute, permute, ints]

theorem pyRounds_ints (r : ℕ) (s m : Vector UInt32 16) :
    pyRounds r (ints s) (ints m) = ints (runRounds r s m) := by
  induction r generalizing s m with
  | zero => rfl
  | succ r ih => rw [pyRounds, pyRound_ints, pyPermute_ints, ih, runRounds]

theorem pyCompress_ints (chaining : Vector UInt32 8) (block : Vector UInt32 16)
    (blockLen flags : UInt32) :
    pyCompress (ints chaining) (ints block) 0 blockLen.toNat flags.toNat =
      ints (compress chaining block 0 blockLen flags) := by
  have hstate : ints chaining ++ #v[pyIv[0], pyIv[1], pyIv[2], pyIv[3], 0 &&& mask32,
      (0 >>> 32) &&& mask32, blockLen.toNat, flags.toNat] =
      ints (chaining ++ #v[iv[0], iv[1], iv[2], iv[3], (0 : UInt64).toUInt32,
        ((0 : UInt64) >>> 32).toUInt32, blockLen, flags]) := by
    refine (congrArg (ints chaining ++ ·) ?_).trans Vector.map_append.symm
    simp [pyIv, iv]
  have hlt : ∀ x y : UInt32, (x.toNat ^^^ y.toNat) &&& mask32 = (x ^^^ y).toNat := by
    intro x y
    rw [and_mask32, ← UInt32.toNat_xor, Nat.mod_eq_of_lt (UInt32.toNat_lt _)]
  simp only [pyCompress, compress]
  rw [hstate, pyRounds_ints]
  ext i hi
  simp only [ints, Vector.getElem_ofFn, Vector.getElem_map, Fin.getElem_fin, hlt]
  split_ifs <;> rfl

theorem pyBlockWords_ints (chunk : List UInt8) : pyBlockWords chunk = ints (blockWords chunk) := by
  have hshift : ∀ (b : UInt8) (n : ℕ), n ≤ 24 →
      b.toNat <<< n = (b.toUInt32 <<< UInt32.ofNat n).toNat := by
    intro b n hn
    have hb : b.toNat * 2 ^ n < 2 ^ 8 * 2 ^ 24 := Nat.mul_lt_mul_of_lt_of_le b.toNat_lt
      (Nat.pow_le_pow_right (by norm_num) hn) (by norm_num)
    simp [Nat.shiftLeft_eq, show n % 4294967296 % 32 = n by omega]
    omega
  ext i hi
  simp only [pyBlockWords, blockWords, ints, Vector.getElem_ofFn, Vector.getElem_map,
    UInt32.toNat_or, UInt8.toNat_toUInt32, hshift _ 8 (by norm_num), hshift _ 16 (by norm_num),
    hshift _ 24 (by norm_num)]
  rfl

theorem front_ints (v : Vector UInt32 16) : front (ints v) = ints (front v) := by
  simp [front, ints, Vector.map_ofFn]
  rfl

theorem pyCompress_block (chaining : Vector UInt32 8) (chunk : List UInt8) {n : ℕ} (hn : n ≤ 64)
    (flags : UInt32) :
    pyCompress (ints chaining) (pyBlockWords chunk) 0 n flags.toNat =
      ints (compress chaining (blockWords chunk) 0 (UInt32.ofNat n) flags) := by
  rw [← pyCompress_ints, pyBlockWords_ints, UInt32.toNat_ofNat_of_lt' (hn.trans_lt (by decide))]

/-- The last compression, of what is left when the blocks before it are compressed. -/
def lastBlock (chaining : Vector UInt32 8) (started : Bool) (bs : List UInt8) : Vector UInt32 16 :=
  if bs.length ≤ 64 then
    compress chaining (blockWords bs) 0 (UInt32.ofNat bs.length)
      (if started then chunkEnd ||| root else chunkEnd ||| root ||| chunkStart)
  else
    lastBlock (front (compress chaining (blockWords (bs.take 64)) 0 64
      (if started then 0 else chunkStart))) true (bs.drop 64)
termination_by bs.length

section
variable (data : List UInt8) (chaining : Vector UInt32 8) {fuel offset : ℕ}

theorem pyBlocks_last (hlast : data.length ≤ offset + 64) :
    pyBlocks data fuel (ints chaining) offset =
      ints (lastBlock chaining (decide (offset ≠ 0)) (data.drop offset)) := by
  have hmin : min (data.length - offset) 64 = data.length - offset := by omega
  have hflags : (if offset = 0 then 1 else 0) ||| (2 ||| 8) =
      (if decide (offset ≠ 0) then chunkEnd ||| root
        else chunkEnd ||| root ||| chunkStart).toNat := by
    by_cases h0 : offset = 0 <;> simp [h0, chunkStart, chunkEnd, root]
  rw [pyBlocks.eq_def, lastBlock, if_pos (by simp; omega)]
  simp only [hmin, show data.length ≤ offset + (data.length - offset) by omega, if_true, hflags]
  rw [pyCompress_block _ _ (by omega), List.take_of_length_le (by simp), List.length_drop]

/-- The loop of `kernel_blake3` from an offset on. -/
theorem pyBlocks_eq (hfuel : data.length ≤ offset + 64 * (fuel + 1)) :
    pyBlocks data fuel (ints chaining) offset =
      ints (lastBlock chaining (decide (offset ≠ 0)) (data.drop offset)) := by
  induction fuel generalizing chaining offset with
  | zero => exact pyBlocks_last data chaining hfuel
  | succ fuel ih =>
    by_cases hlast : data.length ≤ offset + 64
    · exact pyBlocks_last data chaining hlast
    have hmin : min (data.length - offset) 64 = 64 := by omega
    have hflags : (if offset = 0 then 1 else 0) ||| 0 =
        (if decide (offset ≠ 0) then 0 else chunkStart).toNat := by
      by_cases h0 : offset = 0 <;> simp [h0, chunkStart]
    rw [pyBlocks]
    simp only [hmin, hlast, if_false, hflags]
    rw [pyCompress_block _ _ le_rfl, front_ints, ih _ (by omega)]
    conv_rhs => rw [lastBlock, if_neg (by simp; omega), List.drop_drop]
    simp

end

/-- What an update takes is compressed as if it were still to come. -/
theorem lastBlock_updateLoop {fuel : ℕ} {ctx : Ctx} {data : List UInt8} (rest : List UInt8)
    (hfuel : data.length ≤ fuel) (hp : ctx.pending.length ≤ 64) :
    (updateLoop fuel ctx data).pending.length ≤ 64 ∧
      lastBlock (updateLoop fuel ctx data).chaining (updateLoop fuel ctx data).started
        ((updateLoop fuel ctx data).pending ++ rest) =
      lastBlock ctx.chaining ctx.started (ctx.pending ++ (data ++ rest)) := by
  induction fuel generalizing ctx data with
  | zero =>
    obtain rfl : data = [] := List.eq_nil_of_length_eq_zero (Nat.le_zero.mp hfuel)
    exact ⟨hp, rfl⟩
  | succ fuel ih =>
    rw [updateLoop]
    by_cases hnil : data = []
    · rw [if_pos hnil, hnil]
      exact ⟨hp, rfl⟩
    rw [if_neg hnil]
    have hpos : 0 < data.length := List.length_pos_iff.mpr hnil
    -- a full block is not the last one, since there is more
    have hfull : lastBlock ctx.chaining ctx.started (ctx.pending ++ (data ++ rest)) =
        let ctx := if ctx.pending.length = 64 then compressIntermediate ctx else ctx
        lastBlock ctx.chaining ctx.started (ctx.pending ++ (data ++ rest)) := by
      split_ifs with h64
      · rw [lastBlock, if_neg (by simp; omega), List.take_left' h64, List.drop_left' h64]
        simp [compressIntermediate, h64, front]
      · rfl
    have hroom : (if ctx.pending.length = 64 then compressIntermediate ctx
        else ctx).pending.length < 64 := by
      split_ifs with h64
      · simp [compressIntermediate]
      · omega
    rw [hfull]
    generalize (if ctx.pending.length = 64 then compressIntermediate ctx else ctx) = ctx' at *
    dsimp only
    generalize hn : min data.length (64 - ctx'.pending.length) = n
    obtain ⟨hlen, heq⟩ := @ih { ctx' with pending := ctx'.pending ++ data.take n }
      (data.drop n) (by simp; omega) (by simp; omega)
    refine ⟨hlen, heq.trans ?_⟩
    rw [List.append_assoc, ← List.append_assoc (data.take n), List.take_append_drop]

theorem lastBlock_updates (cuts : List (List UInt8)) {ctx : Ctx} (hp : ctx.pending.length ≤ 64) :
    (cuts.foldl update ctx).pending.length ≤ 64 ∧
      lastBlock (cuts.foldl update ctx).chaining (cuts.foldl update ctx).started
        (cuts.foldl update ctx).pending =
      lastBlock ctx.chaining ctx.started (ctx.pending ++ cuts.flatten) := by
  induction cuts generalizing ctx with
  | nil => exact ⟨hp, by simp⟩
  | cons data cuts ih =>
    obtain ⟨hlen, heq⟩ := lastBlock_updateLoop cuts.flatten le_rfl hp
    obtain ⟨hlen', heq'⟩ := ih hlen
    exact ⟨hlen', heq'.trans heq⟩

theorem ofNat_and_255 (w : UInt32) {n : ℕ} (hn : n < 32) :
    UInt8.ofNat (w.toNat >>> n &&& 0xFF) = (w >>> UInt32.ofNat n).toUInt8 := by
  apply UInt8.toNat.inj
  rw [show 0xFF = 2 ^ 8 - 1 by norm_num, Nat.and_two_pow_sub_one_eq_mod]
  simp [show n % 4294967296 % 32 = n by omega]

theorem bytes_ints (out : Vector UInt32 16) (i : Fin 16) :
    let v := (ints out).get i
    [UInt8.ofNat (v &&& 0xFF), UInt8.ofNat (v >>> 8 &&& 0xFF), UInt8.ofNat (v >>> 16 &&& 0xFF),
      UInt8.ofNat (v >>> 24 &&& 0xFF)] =
    [(out.get i).toUInt8, (out.get i >>> 8).toUInt8, (out.get i >>> 16).toUInt8,
      (out.get i >>> 24).toUInt8] := by
  have hget : (ints out).get i = (out.get i).toNat := Vector.getElem_map ..
  have h0 := ofNat_and_255 (out.get i) (n := 0) (by norm_num)
  simp only [hget, ofNat_and_255 _ (show 8 < 32 by norm_num),
    ofNat_and_255 _ (show 16 < 32 by norm_num), ofNat_and_255 _ (show 24 < 32 by norm_num)]
  rw [Nat.shiftRight_zero] at h0
  rw [h0]
  simp

/-- However the bytes are cut into calls of `blake3_update`, `blake3_final` gives the digest of
`kernel_blake3`. -/
theorem final_eq_kernelBlake3 (cuts : List (List UInt8)) :
    final (cuts.foldl update init) = kernelBlake3 cuts.flatten := by
  obtain ⟨hlen, heq⟩ := lastBlock_updates cuts (show init.pending.length ≤ 64 from Nat.zero_le _)
  have hiv : pyIv = ints iv := by simp [ints, pyIv, iv]
  rw [kernelBlake3, hiv, pyBlocks_eq _ _ (by omega)]
  simp only [bytes_ints]
  rw [final]
  rw [lastBlock, if_pos hlen] at heq
  rw [heq]
  rfl

end Exploidus.GenIndex
