import Mathlib.Tactic

/-! First-fit allocation in a row of blocks, each preceded by a header of `H` bytes: taking a
block (split when the rest holds a header and `M` bytes), releasing one, and joining free
neighbours. -/
namespace FirstFit

/-- A block of the row: the bytes after its header, and whether they are free. -/
structure Block where
  size : ℕ
  free : Bool
  deriving DecidableEq, Repr

variable (H M : ℕ)

/-- Bytes taken by a row, headers included. -/
def span : List Block → ℕ
  | [] => 0
  | b :: bs => H + b.size + span bs

/-- The blocks that replace a free block of which `n` bytes are taken. -/
def carve (n : ℕ) (b : Block) : List Block :=
  if H + M ≤ b.size - n then [⟨n, false⟩, ⟨b.size - n - H, true⟩] else [⟨b.size, false⟩]

/-- First fit for `n` bytes in a row that starts at `a`: the header position of the block taken,
and the row left. -/
def alloc (n : ℕ) : ℕ → List Block → Option (ℕ × List Block)
  | _, [] => none
  | a, b :: bs =>
    if b.free = true ∧ n ≤ b.size then some (a, carve H M n b ++ bs)
    else (alloc n (a + H + b.size) bs).map fun r => (r.1, b :: r.2)

/-- Mark the block whose header is at `p` free, in a row that starts at `a`. -/
def release (p : ℕ) : ℕ → List Block → List Block
  | _, [] => []
  | a, b :: bs =>
    if a = p then ⟨b.size, true⟩ :: bs else b :: release p (a + H + b.size) bs

def push (b : Block) : List Block → List Block
  | [] => [b]
  | c :: bs => if b.free && c.free then ⟨b.size + H + c.size, true⟩ :: bs else b :: c :: bs

def coalesce : List Block → List Block
  | [] => []
  | b :: bs => push H b (coalesce bs)

/-- No two neighbours are both free. -/
def Apart : List Block → Prop
  | [] => True
  | b :: bs => (b.free = true → ∀ c ∈ bs.head?, c.free = false) ∧ Apart bs

variable {H M} {a n p : ℕ} {b c : Block} {bs bs' : List Block}

theorem size_le_span (h : b ∈ bs) : H + b.size ≤ span H bs := by
  induction bs with
  | nil => simp at h
  | cons c bs ih =>
    rw [span]
    rcases List.mem_cons.mp h with rfl | h
    · omega
    have := ih h
    omega

/-! ### Taking a block -/

theorem span_carve (hn : n ≤ b.size) : span H (carve H M n b) = H + b.size := by
  unfold carve
  split
  · simp only [span]
    omega
  · simp [span]

/-- First fit fails exactly when no free block is large enough. -/
theorem alloc_eq_none : alloc H M n a bs = none ↔ ∀ b ∈ bs, b.free → b.size < n := by
  induction bs generalizing a with
  | nil => simp [alloc]
  | cons b bs ih =>
    unfold alloc
    split
    · rename_i h
      simp only [reduceCtorEq, List.mem_cons, forall_eq_or_imp, false_iff, not_and]
      exact fun hb => absurd (hb h.1) (not_lt.mpr h.2)
    · rename_i h
      simp only [Option.map_eq_none_iff, ih, List.mem_cons, forall_eq_or_imp, iff_and_self]
      exact fun _ hf => lt_of_not_ge fun hle => h ⟨hf, hle⟩

/-- First fit splits the row at the block taken. -/
theorem alloc_split (h : alloc H M n a bs = some (p, bs')) : ∃ pre b post, bs = pre ++ b :: post ∧
    bs' = pre ++ (carve H M n b ++ post) ∧ p = a + span H pre ∧ b.free ∧ n ≤ b.size := by
  induction bs generalizing a bs' with
  | nil => simp [alloc] at h
  | cons b bs ih =>
    unfold alloc at h
    split at h
    · rename_i hb
      obtain ⟨rfl, rfl⟩ : a = p ∧ carve H M n b ++ bs = bs' := by simpa using h
      exact ⟨[], b, bs, by simp, by simp, by simp [span], hb.1, hb.2⟩
    obtain ⟨⟨q, cs⟩, hr, hq⟩ := Option.map_eq_some_iff.mp h
    obtain ⟨rfl, rfl⟩ : q = p ∧ b :: cs = bs' := by simpa using hq
    obtain ⟨pre, d, post, h1, h2, h3, h4, h5⟩ := ih hr
    refine ⟨b :: pre, d, post, by simp [h1], by simp [h2], ?_, h4, h5⟩
    rw [h3, span]
    omega

theorem apart_append {cs : List Block} (h : Apart (bs ++ cs)) : Apart cs := by
  induction bs with
  | nil => exact h
  | cons b bs ih => exact ih h.2

/-- A row stays apart when its end is replaced by one that is apart and does not start with a
new free block. -/
theorem Apart.replace {cs cs' : List Block} (h : Apart (bs ++ cs)) (h' : Apart cs')
    (hhead : ∀ c ∈ cs'.head?, c.free → ∃ d ∈ cs.head?, d.free) :
    Apart (bs ++ cs') := by
  induction bs with
  | nil => exact h'
  | cons b bs ih =>
    refine ⟨fun hb c hc => ?_, ih h.2⟩
    cases bs with
    | cons d bs => exact h.1 hb c hc
    | nil =>
      by_contra hf
      obtain ⟨d, hd, hdf⟩ := hhead c hc (by simpa using hf)
      exact absurd hdf (by simp [h.1 hb d hd])

theorem Apart.alloc (hap : Apart bs) (h : alloc H M n a bs = some (p, bs')) : Apart bs' := by
  obtain ⟨pre, b, post, rfl, rfl, -, hb, -⟩ := alloc_split h
  have hpost : Apart (b :: post) := apart_append hap
  refine hap.replace ?_ ?_
  · unfold carve
    split
    · exact ⟨by simp, fun _ => hpost.1 hb, hpost.2⟩
    · exact ⟨by simp, hpost.2⟩
  · unfold carve
    split <;> simp

/-! ### Releasing a block -/

/-! ### Joining -/

theorem push_cons : push H b (c :: bs) =
    if b.free && c.free then ⟨b.size + H + c.size, true⟩ :: bs else b :: c :: bs := rfl

theorem push_eq_cons (h : b.free → ∀ c ∈ bs.head?, c.free = false) :
    push H b bs = b :: bs := by
  cases bs with
  | nil => rfl
  | cons c bs =>
    refine if_neg fun hf => ?_
    obtain ⟨hb, hc⟩ : b.free ∧ c.free := by simpa using hf
    exact absurd hc (by simp [h hb c rfl])

/-- The row starts as it did: free after a free block, in use after one in use. -/
theorem push_head (H : ℕ) (b : Block) (bs : List Block) :
    ∃ c cs, push H b bs = c :: cs ∧ c.free = b.free := by
  cases bs with
  | nil => exact ⟨b, [], rfl, rfl⟩
  | cons c bs =>
    rw [push_cons]
    split
    · rename_i hf
      exact ⟨_, bs, rfl, by simp_all⟩
    · exact ⟨b, c :: bs, rfl, rfl⟩

/-- Two free blocks joined before the row are joined with it as one. -/
theorem push_push (hb : b.free) (hc : c.free) (bs : List Block) :
    push H b (push H c bs) = push H ⟨b.size + H + c.size, true⟩ bs := by
  cases bs with
  | nil => simp [push, hb, hc]
  | cons d bs =>
    cases hd : d.free with
    | true => simp only [push, hb, hc, hd, Bool.and_self, if_true]; congr 2; omega
    | false => simp [push, hb, hc, hd]

theorem Apart.push (h : Apart bs) (b : Block) : Apart (push H b bs) := by
  cases bs with
  | nil => exact ⟨by simp, trivial⟩
  | cons c bs =>
    rw [push_cons]
    split
    · rename_i hf
      obtain ⟨-, hc⟩ : b.free ∧ c.free := by simpa using hf
      exact ⟨fun _ => h.1 hc, h.2⟩
    rename_i hf
    refine ⟨fun hb d hd => ?_, h⟩
    obtain rfl : c = d := by simpa using hd
    simpa [hb] using hf

theorem apart_coalesce (bs : List Block) : Apart (coalesce H bs) := by
  induction bs with
  | nil => trivial
  | cons b bs ih => exact ih.push b

/-- A row of free blocks with no free neighbours is one block. -/
theorem Apart.single (h : Apart bs) (hfree : ∀ b ∈ bs, b.free) (hne : bs ≠ []) :
    bs = [⟨span H bs - H, true⟩] := by
  match bs, hne with
  | [⟨size, free⟩], _ => simpa [span] using hfree
  | b :: c :: bs, _ => exact absurd (hfree c (by simp)) (by simp [h.1 (hfree b (by simp)) c rfl])

end FirstFit
