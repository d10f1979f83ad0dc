import Mathlib.Tactic

/-! Drawing operations that act on every place of a canvas on its own. -/
namespace Painter
variable {ι γ : Type*}

/-- What an operation makes of the colour at a place. -/
abbrev Op (ι γ : Type*) := ι → γ → γ

/-- The operations one after the other, at one place. -/
def drawn (ops : List (Op ι γ)) (n : ι) (c : γ) : γ := ops.foldl (fun c op => op n c) c

/-- A canvas after the operations. -/
def paint (ops : List (Op ι γ)) (canvas : ι → γ) : ι → γ := fun n => drawn ops n (canvas n)

def Skips (op : Op ι γ) (n : ι) : Prop := ∀ c, op n c = c

def Covers (op : Op ι γ) (n : ι) : Prop := ∀ c c', op n c = op n c'

/-- Change the colour on a region only. -/
def mask (p : ι → Prop) [DecidablePred p] (f : Op ι γ) : Op ι γ := fun n c => if p n then f n c else c

variable {ops ops1 ops2 : List (Op ι γ)} {op : Op ι γ} {n : ι} {c : γ}

@[simp]
theorem drawn_nil : drawn ([] : List (Op ι γ)) n c = c := rfl

@[simp]
theorem drawn_cons : drawn (op :: ops) n c = drawn ops n (op n c) := rfl

@[simp]
theorem drawn_append : drawn (ops1 ++ ops2) n c = drawn ops2 n (drawn ops1 n c) := by
  simp [drawn, List.foldl_append]

theorem paint_apply (canvas : ι → γ) : paint ops canvas n = drawn ops n (canvas n) := rfl

theorem drawn_of_skips (h : ∀ op ∈ ops, Skips op n) : drawn ops n c = c := by
  induction ops generalizing c with
  | nil => rfl
  | cons op ops ih =>
    rw [drawn_cons, h op (List.mem_cons_self ..)]
    exact ih fun op' hop => h op' (List.mem_cons_of_mem _ hop)

/-- Operations that each leave a place alone or cover it do so together. -/
theorem skips_or_covers (h : ∀ op ∈ ops, Skips op n ∨ Covers op n) :
    Skips (drawn ops) n ∨ Covers (drawn ops) n := by
  induction ops with
  | nil => exact .inl fun _ => rfl
  | cons op ops ih =>
    have hops := ih fun op' hop => h op' (List.mem_cons_of_mem _ hop)
    rcases h op (List.mem_cons_self ..) with hop | hop
    · rcases hops with hs | hc
      · exact .inl fun c => by rw [drawn_cons, hop c, hs c]
      · exact .inr fun c c' => by rw [drawn_cons, drawn_cons, hc]
    · exact .inr fun c c' => by rw [drawn_cons, drawn_cons, hop c c']

theorem mask_skips {p : ι → Prop} [DecidablePred p] {f : Op ι γ} (h : ¬ p n) :
    Skips (mask p f) n := fun _ => if_neg h

theorem mask_covers {p : ι → Prop} [DecidablePred p] {f : Op ι γ} (h : p n)
    (hf : ∀ c c', f n c = f n c') : Covers (mask p f) n := by
  intro c c'
  rw [mask, mask, if_pos h, if_pos h, hf c c']

/-- A region that gets a colour of its own. -/
theorem mask_skips_or_covers {p : ι → Prop} [DecidablePred p] {f : Op ι γ}
    (hf : ∀ c c', f n c = f n c') : Skips (mask p f) n ∨ Covers (mask p f) n := by
  by_cases h : p n
  · exact .inr (mask_covers h hf)
  · exact .inl (mask_skips h)

end Painter
