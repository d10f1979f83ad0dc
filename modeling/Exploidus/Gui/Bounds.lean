import Exploidus.Gui.Paint

/-! The part of the screen that each operation can change. -/
namespace Exploidus.Gui
open Painter List

theorem wrap32_of_mem {z : ℤ} (h : -2 ^ 31 ≤ z) (h' : z < 2 ^ 31) : wrap32 z = z := by
  unfold wrap32
  omega

theorem toU32_toNat (z : ℤ) : ((toU32 z).toNat : ℤ) = z % 2 ^ 32 := by
  have h0 : 0 ≤ z % 2 ^ 32 := Int.emod_nonneg _ (by norm_num)
  have h1 : z % 2 ^ 32 < 2 ^ 32 := Int.emod_lt_of_pos _ (by norm_num)
  rw [toU32, UInt32.toNat_ofNat']
  omega

theorem ofU32_of_lt {u : UInt32} (h : u.toNat < 2 ^ 31) : ofU32 u = u.toNat :=
  wrap32_of_mem (by omega) (by omega)

namespace Fb
variable {fb : Fb} {n : ℕ}

theorem w_lt : fb.scr.w < 2 ^ 25 := by
  have hd := fb.scr.dock_le
  have h1 : fb.scr.w * 56 ≤ fb.stride * fb.scr.h := Nat.mul_le_mul fb.le_stride hd
  have := fb.fits
  omega

theorem stride_pos : 0 < fb.stride := lt_of_lt_of_le fb.w_pos fb.le_stride

theorem h_lt : fb.scr.h < 2 ^ 30 := by
  have h1 : 1 * fb.scr.h ≤ fb.stride * fb.scr.h := Nat.mul_le_mul_right _ fb.stride_pos
  have := fb.fits
  omega

theorem lt_of_onScreen (hn : fb.OnScreen n) : n < fb.stride * fb.scr.h := by
  have h := hn.2
  rw [row, Nat.div_lt_iff_lt_mul fb.stride_pos] at h
  rwa [Nat.mul_comm]

end Fb

structure Box where
  x0 : ℤ
  y0 : ℤ
  x1 : ℤ
  y1 : ℤ
  deriving DecidableEq

namespace Box

def Has (fb : Fb) (b : Box) (n : ℕ) : Prop :=
  b.x0 ≤ fb.col n ∧ fb.col n < b.x1 ∧ b.y0 ≤ fb.row n ∧ fb.row n < b.y1

def Apart (a b : Box) : Prop := a.x1 ≤ b.x0 ∨ b.x1 ≤ a.x0 ∨ a.y1 ≤ b.y0 ∨ b.y1 ≤ a.y0
  deriving Decidable

theorem Apart.not_has {fb : Fb} {a b : Box} {n : ℕ} (h : a.Apart b) (ha : a.Has fb n) :
    ¬ b.Has fb n := by
  unfold Apart at h
  unfold Has at *
  omega

end Box

def Within (fb : Fb) (ops : List Draw) (b : Box) : Prop :=
  ∀ op ∈ ops, ∀ n, ¬ b.Has fb n → Skips op n

section
variable {fb : Fb} {ops ops' : List Draw} {op : Draw} {b b' : Box} {font : Font}

theorem Within.nil : Within fb [] b := fun _ h => absurd h not_mem_nil

theorem Within.cons (h : ∀ n, ¬ b.Has fb n → Skips op n) (h' : Within fb ops b) :
    Within fb (op :: ops) b := by
  intro op' hop
  rcases mem_cons.mp hop with rfl | hop
  · exact h
  · exact h' op' hop

theorem Within.append (h : Within fb ops b) (h' : Within fb ops' b) : Within fb (ops ++ ops') b := by
  intro op hop
  rcases mem_append.mp hop with hop | hop
  · exact h op hop
  · exact h' op hop

theorem Within.flatMap {α : Type*} {l : List α} {f : α → List Draw}
    (h : ∀ a ∈ l, Within fb (f a) b) : Within fb (l.flatMap f) b := by
  intro op hop
  obtain ⟨a, ha, hop⟩ := mem_flatMap.mp hop
  exact h a ha op hop

variable {n : ℕ} {w x h y : ℤ} {color : UInt32}

theorem Within.drawn_eq {c : UInt32} (h : Within fb ops b) (hn : ¬ b.Has fb n) :
    drawn ops n c = c :=
  drawn_of_skips fun op hop => h op hop n hn

theorem mask_within {p : ℕ → Prop} [DecidablePred p] {f : Draw} (h : ∀ n, p n → b.Has fb n) :
    ∀ n, ¬ b.Has fb n → Skips (mask p f) n :=
  fun n hn => mask_skips fun hp => hn (h n hp)

/-! One lemma for each primitive. -/

abbrev Small (z : ℤ) : Prop := -2 ^ 30 ≤ z ∧ z ≤ 2 ^ 30

theorem clipExtent_le (limit : ℕ) (hx : Small x) (hx0 : 0 ≤ x) (hw : Small w) (hw0 : 0 ≤ w) :
    (clipExtent limit (toU32 x) (toU32 w) : ℤ) ≤ w := by
  have ex := toU32_toNat x
  have ew := toU32_toNat w
  unfold clipExtent
  split_ifs with h
  · rw [UInt32.toNat_add] at h
    omega
  · omega

structure Inside (x y w h : ℤ) (b : Box) : Prop where
  x_small : Small x
  y_small : Small y
  w_small : Small w
  h_small : Small h
  w_nonneg : 0 ≤ w
  h_nonneg : 0 ≤ h
  left : b.x0 ≤ x
  right : x + w ≤ b.x1
  upper : b.y0 ≤ y
  lower : y + h ≤ b.y1

theorem inRect_bounds (hx : Small x) (hy : Small y) (hw : Small w) (hw0 : 0 ≤ w) (hh : Small h)
    (hh0 : 0 ≤ h) (hn : InRect fb (toU32 x) (toU32 y) (toU32 w) (toU32 h) n) :
    x ≤ fb.col n ∧ fb.col n < x + w ∧ y ≤ fb.row n ∧ fb.row n < y + h := by
  obtain ⟨hs, hxw, hyh, h1, h2, h3, h4⟩ := hn
  have hW := fb.w_lt
  have hH := fb.h_lt
  have ex := toU32_toNat x
  have ey := toU32_toNat y
  -- a negative coordinate is cast to a number beyond the screen
  have hx0 : 0 ≤ x := by omega
  have hy0 : 0 ≤ y := by omega
  have cx := clipExtent_le fb.scr.w hx hx0 hw hw0
  have cy := clipExtent_le fb.scr.h hy hy0 hh hh0
  omega

theorem inRect_has (hb : Inside x y w h b) (n : ℕ)
    (hn : InRect fb (toU32 x) (toU32 y) (toU32 w) (toU32 h) n) : b.Has fb n := by
  obtain ⟨hx, hy, hw, hh, hw0, hh0, h0, h1, h2, h3⟩ := hb
  have := inRect_bounds hx hy hw hw0 hh hh0 hn
  unfold Box.Has
  omega

theorem drawRect_skips (hb : Inside x y w h b) :
    ∀ n, ¬ b.Has fb n → Skips (drawRect fb x y w h color) n :=
  mask_within (inRect_has hb)

theorem fbFillCircle_skips {cx cy r : ℤ} (hx : Small cx) (hy : Small cy) (h0 : b.x0 ≤ cx - r)
    (h1 : cx + r < b.x1) (h2 : b.y0 ≤ cy - r) (h3 : cy + r < b.y1) :
    ∀ n, ¬ b.Has fb n → Skips (fbFillCircle fb cx cy r color) n := by
  apply mask_within
  rintro n ⟨hs, h4, h5, h6, h7, -⟩
  have hW := fb.w_lt
  have hH := fb.h_lt
  have hcol := hs.1
  have hrow := hs.2
  rw [wrap32_of_mem (by omega) (by omega)] at h4 h5
  rw [wrap32_of_mem (by omega) (by omega)] at h6 h7
  unfold Box.Has
  omega

theorem fontDrawStr_skips {s : List UInt8} {fg bg : UInt32} (hx : Small x) (hy : Small y)
    (hs : s.length ≤ 47) (h0 : b.x0 ≤ x) (h1 : x + 8 * s.length ≤ b.x1) (h2 : b.y0 ≤ y)
    (h3 : y + 16 ≤ b.y1) : ∀ n, ¬ b.Has fb n → Skips (fontDrawStr fb font x y s fg bg) n := by
  apply mask_within
  rintro n ⟨hn, h4, h5⟩
  have hW := fb.w_lt
  have hH := fb.h_lt
  have hcol := hn.1
  have hrow := hn.2
  have ec := toU32_toNat (fb.col n - x)
  have er := toU32_toNat (fb.row n - y)
  unfold Box.Has
  omega

theorem inCorners_bounds {r : ℤ} (hx : Small x) (hy : Small y) (hw : Small w) (hh : Small h)
    (hr : 0 < r) (hrw : 2 * r ≤ w) (hrh : 2 * r ≤ h) (hn : InCorners fb x y w h r n) :
    x ≤ fb.col n ∧ fb.col n < x + w ∧ y ≤ fb.row n ∧ fb.row n < y + h := by
  obtain ⟨hs, cx, hcx, cy, hcy, h0, h1, h2, h3, -⟩ := hn
  have hW := fb.w_lt
  have hH := fb.h_lt
  have hcol := hs.1
  have hrow := hs.2
  rw [mem_pair, wrap32_of_mem (by omega) (by omega), wrap32_of_mem (by omega) (by omega)] at hcx hcy
  omega

theorem fbFillRoundedRect_within {r : ℤ} (hb : Inside x y w h b) (hx1 : Small (x + w))
    (hy1 : Small (y + h)) :
    Within fb (fbFillRoundedRect fb x y w h r color) b := by
  unfold fbFillRoundedRect
  split_ifs with hr
  · exact Within.nil.cons (drawRect_skips hb)
  obtain ⟨hx, hy, hw, hh, hw0, hh0, h0, h1, h2, h3⟩ := hb
  rw [Int.tdiv_eq_ediv_of_nonneg hw0, Int.tdiv_eq_ediv_of_nonneg hh0] at hr
  have hr0 : 0 < r := by omega
  have hrw : 2 * r ≤ w := by omega
  have hrh : 2 * r ≤ h := by omega
  have corners : ∀ n, ¬ b.Has fb n → Skips (mask (InCorners fb x y w h r) fun _ _ => color) n := by
    apply mask_within
    intro n hn
    have := inCorners_bounds hx hy hw hh hr0 hrw hrh hn
    unfold Box.Has
    omega
  have middle : Inside (x + r) y (w - 2 * r) h b := by constructor <;> omega
  have left : Inside x (y + r) r (h - 2 * r) b := by constructor <;> omega
  have right : Inside (x + w - r) (y + r) r (h - 2 * r) b := by constructor <;> omega
  exact (((Within.nil.cons corners).cons (drawRect_skips right)).cons (drawRect_skips left)).cons
    (drawRect_skips middle)

theorem inBlit_bounds {w h : UInt32} (hx : Small x) (hy : Small y) (hw : w.toNat ≤ 2 ^ 29)
    (hh : h.toNat ≤ 2 ^ 29) (hn : InBlit fb x y w h n) :
    x ≤ fb.col n ∧ fb.col n < x + w.toNat ∧ y ≤ fb.row n ∧ fb.row n < y + h.toNat := by
  obtain ⟨hs, h4, h5⟩ := hn
  have hW := fb.w_lt
  have hH := fb.h_lt
  have hcol := hs.1
  have hrow := hs.2
  have ec := toU32_toNat (fb.col n - x)
  have er := toU32_toNat (fb.row n - y)
  rw [UInt32.lt_iff_toNat_lt] at h4 h5
  omega

/-! The parts of the scene. -/

structure Win.Sane (w : Win) : Prop where
  x_ge : -2 ^ 27 ≤ w.x
  x_le : w.x ≤ 2 ^ 27
  y_ge : -2 ^ 27 ≤ w.y
  y_le : w.y ≤ 2 ^ 27
  w_le : w.w.toNat ≤ 2 ^ 27
  h_le : w.h.toNat ≤ 2 ^ 27
  title_le : w.title.length ≤ 47

def Win.box (w : Win) : Box :=
  ⟨w.x - 6, w.y - 34, w.x + max (w.w.toNat + 6) 436, w.y + max (w.h.toNat + 7) 9⟩

theorem Win.box_eq (w : Win) :
    w.box.x0 = w.x - 6 ∧ w.box.y0 = w.y - 34 ∧ w.box.x1 = w.x + max (w.w.toNat + 6) 436 ∧
      w.box.y1 = w.y + max (w.h.toNat + 7) 9 :=
  ⟨rfl, rfl, by simp [Win.box], by simp [Win.box]⟩

theorem tdiv_two_bounds (z : ℤ) : z - 1 ≤ 2 * z.tdiv 2 ∧ 2 * z.tdiv 2 ≤ z + 1 := by
  rcases le_total 0 z with hz | hz
  · rw [Int.tdiv_eq_ediv_of_nonneg hz]
    omega
  have h : (-z).tdiv 2 = -z / 2 := Int.tdiv_eq_ediv_of_nonneg (by omega)
  rw [Int.neg_tdiv] at h
  omega

theorem Win.Sane.titleX_bounds {w : Win} (hw : w.Sane) :
    w.x + 60 ≤ w.titleX ∧ w.titleX + 8 * w.title.length ≤ w.x + max (w.w.toNat + 6) 436 := by
  obtain ⟨h0, h1, h2, h3, h4, h5, h6⟩ := hw
  have hd := tdiv_two_bounds ((w.w.toNat : ℤ) - w.title.length * 8)
  unfold Win.titleX
  rw [ofU32_of_lt (by omega)]
  rw [wrap32_of_mem (z := (w.w.toNat : ℤ) - w.title.length * 8) (by omega) (by omega)]
  rw [wrap32_of_mem (z := w.x + 60) (by omega) (by omega), wrap32_of_mem (by omega) (by omega)]
  dsimp only
  split_ifs <;> omega

theorem drawShadow_within {w : Win} (hw : w.Sane) {i : ℕ} (hi : i ≤ 6) :
    Within fb (drawShadow fb w i) w.box := by
  obtain ⟨h0, h1, h2, h3, h4, h5, h6⟩ := hw
  have hb := w.box_eq
  unfold drawShadow
  rw [ofU32_of_lt (by omega), ofU32_of_lt (by omega), titlebarH,
    wrap32_of_mem (by omega) (by omega), wrap32_of_mem (by omega) (by omega)]
  apply fbFillRoundedRect_within
  · constructor <;> omega
  · omega
  · omega

theorem drawWindowChrome_within {w : Win} (hw : w.Sane) :
    Within fb (drawWindowChrome fb font w) w.box := by
  have ht := hw.titleX_bounds
  have hb := w.box_eq
  have shadow : Within fb ([6, 5, 4, 3, 2, 1].flatMap (drawShadow fb w)) w.box := by
    apply Within.flatMap
    intro i hi
    apply drawShadow_within hw
    simp only [mem_cons, not_mem_nil, or_false] at hi
    omega
  obtain ⟨h0, h1, h2, h3, h4, h5, h6⟩ := hw
  unfold drawWindowChrome
  rw [ofU32_of_lt (by omega), ofU32_of_lt (by omega), titlebarH]
  refine (shadow.append ?_).append ?_
  · apply fbFillRoundedRect_within
    · constructor <;> omega
    · omega
    · omega
  refine Within.cons (drawRect_skips ?_) <| Within.cons (fbFillCircle_skips ?_ ?_ ?_ ?_ ?_ ?_) <|
    Within.cons (fbFillCircle_skips ?_ ?_ ?_ ?_ ?_ ?_) <|
    Within.cons (fbFillCircle_skips ?_ ?_ ?_ ?_ ?_ ?_) <|
    Within.cons (fontDrawStr_skips ?_ ?_ h6 ?_ ?_ ?_ ?_) <| Within.cons (drawRect_skips ?_) <|
    Within.cons (drawRect_skips ?_) <| Within.cons (drawRect_skips ?_) Within.nil
  all_goals first | omega | (constructor <;> omega)

theorem clippedH_bounds (fb : Fb) {w : Win} (hw : w.Sane) :
    ((clippedH fb.scr w).toNat = 0 ∨ w.y + (clippedH fb.scr w).toNat ≤ fb.scr.h - dockH) ∧
      (clippedH fb.scr w).toNat ≤ w.h.toNat := by
  obtain ⟨h0, h1, h2, h3, h4, h5, h6⟩ := hw
  have hH := fb.h_lt
  have e := toU32_toNat (fb.scr.h - dockH - w.y)
  unfold clippedH
  rw [ofU32_of_lt (by omega)]
  unfold dockH at *
  dsimp only
  rw [wrap32_of_mem (by omega) (by omega), wrap32_of_mem (by omega) (by omega)]
  split_ifs
  · omega
  · exact ⟨.inl rfl, Nat.zero_le _⟩
  · omega

def InClient (fb : Fb) (w : Win) (n : ℕ) : Prop := InBlit fb w.x w.y w.w (clippedH fb.scr w) n
  deriving Decidable

theorem inClient_bounds {w : Win} (hw : w.Sane) (hn : InClient fb w n) :
    w.x ≤ fb.col n ∧ fb.col n < w.x + w.w.toNat ∧ w.y ≤ fb.row n ∧ fb.row n < w.y + w.h.toNat ∧
      fb.row n < fb.scr.h - dockH := by
  have hc := clippedH_bounds fb hw
  obtain ⟨h0, h1, h2, h3, h4, h5, h6⟩ := hw
  have := inBlit_bounds (by omega) (by omega) (by omega) (by omega) hn
  omega

def Win.shows (fb : Fb) (w : Win) : Bool :=
  match blitWindow fb.scr w with
  | none => false
  | some b => decide (b.w ≠ 0) && uptrOk b.src.addr (b.w.toNat * b.h.toNat * 4)

theorem drawBlit_eq (fb : Fb) (w : Win) (src : ℕ → UInt32) : drawBlit fb w src =
      if w.shows fb then [fbBlit fb w.x w.y w.w (clippedH fb.scr w) src colDesktop] else [] := by
  unfold drawBlit Win.shows blitWindow
  rcases w.pixels with _ | m
  · rfl
  dsimp only
  by_cases hh : clippedH fb.scr w = 0 <;> simp [hh]

theorem drawBlit_within {w : Win} (hw : w.Sane) (src : ℕ → UInt32) :
    Within fb (drawBlit fb w src) w.box := by
  have hb := w.box_eq
  rw [drawBlit_eq]
  split_ifs
  · apply Within.nil.cons
    apply mask_within
    intro n hn
    have := inClient_bounds hw hn
    unfold Box.Has
    omega
  · exact Within.nil

theorem drawWindow_within {w : Win} (hw : w.Sane) (hf : w.fadeAlpha = 0) (src : ℕ → UInt32) :
    Within fb (drawWindow fb font w src) w.box := by
  unfold drawWindow drawFadeVeil
  rw [if_pos hf]
  refine (Within.append ?_ (drawBlit_within hw src)).append Within.nil
  split_ifs
  · exact drawWindowChrome_within hw
  · exact Within.nil

def menuBox : Box := ⟨-2 ^ 31, 0, 2 ^ 31, 24⟩

def dockBox (fb : Fb) : Box := ⟨-2 ^ 31, fb.scr.h - 50, 2 ^ 31, fb.scr.h⟩

def glowBox (cx cy r : ℤ) : Box := ⟨cx - r, cy - r, cx + r + 1, cy + r + 1⟩

theorem menuBox_eq : menuBox.x0 = -2 ^ 31 ∧ menuBox.y0 = 0 ∧ menuBox.x1 = 2 ^ 31 ∧ menuBox.y1 = 24 :=
  ⟨rfl, rfl, rfl, rfl⟩

theorem dockBox_eq (fb : Fb) :
    (dockBox fb).x0 = -2 ^ 31 ∧ (dockBox fb).y0 = fb.scr.h - 50 ∧ (dockBox fb).x1 = 2 ^ 31 ∧
      (dockBox fb).y1 = fb.scr.h :=
  ⟨rfl, rfl, rfl, rfl⟩

theorem fbBlendRect_skips {alpha : UInt8} (hb : Inside x y w h b) : ∀ n, ¬ b.Has fb n →
      Skips (fbBlendRect fb (toU32 x) (toU32 y) (toU32 w) (toU32 h) color alpha) n :=
  mask_within (inRect_has hb)

theorem glow_within {cx cy : ℤ} {count : ℕ} {strength : ℕ → ℕ} {accent : UInt32} (hx : Small cx)
    (hy : Small cy) :
    Within fb (glow fb cx cy count strength accent) (glowBox cx cy (8 * (count - 1))) := by
  intro op hop
  obtain ⟨r, hr, rfl⟩ := mem_map.mp hop
  obtain ⟨k, hk, rfl⟩ := mem_map.mp ((takeWhile_sublist _).subset hr)
  rw [mem_range] at hk
  apply fbFillCircle_skips hx hy <;> simp only [glowBox] <;> push_cast <;> omega

theorem menuTitle_within {c : Comp} (hc : ∀ i, c.focusedWin = some i → (c.wins i).Sane) :
    Within fb (menuTitle fb font c) menuBox := by
  have hW := fb.w_lt
  have hb := menuBox_eq
  unfold menuTitle
  rcases hf : c.focusedWin with _ | i
  · exact Within.nil
  have ht := (hc i hf).title_le
  have hd := tdiv_two_bounds ((fb.scr.w : ℤ) - (c.wins i).title.length * 8)
  apply Within.nil.cons
  apply fontDrawStr_skips _ _ ht <;> omega

theorem drawMenubar_within {c : Comp} (hc : ∀ i, c.focusedWin = some i → (c.wins i).Sane) :
    Within fb (drawMenubar fb font c) menuBox := by
  have hW := fb.w_lt
  have hb := menuBox_eq
  have brand : brandText.length = 9 := rfl
  have slogan : sloganText.length = 11 := rfl
  have status : statusText.length = 15 := rfl
  refine Within.cons (fbBlendRect_skips ?_) <|
    Within.cons (fontDrawStr_skips ?_ ?_ (by decide) ?_ ?_ ?_ ?_) <|
    Within.cons (fontDrawStr_skips ?_ ?_ (by decide) ?_ ?_ ?_ ?_) <|
    (menuTitle_within hc).append <|
    Within.cons (fontDrawStr_skips ?_ ?_ (by decide) ?_ ?_ ?_ ?_) <|
    Within.cons (drawRect_skips ?_) Within.nil
  all_goals first | omega | (constructor <;> omega)

theorem drawIcon_within {i : ℕ} (hi : i < 4) (item : UInt8 × UInt32) :
    Within fb (drawIcon fb font i item) (dockBox fb) := by
  have hW := fb.w_lt
  have hH := fb.h_lt
  have hb := dockBox_eq fb
  have hd := tdiv_two_bounds ((fb.scr.w : ℤ) - 250)
  unfold drawIcon dockH dockIconSz
  apply Within.append
  · apply fbFillRoundedRect_within
    · constructor <;> omega
    · omega
    · omega
  · have one : [item.1].length = 1 := rfl
    apply Within.nil.cons
    apply fontDrawStr_skips <;> omega

theorem drawDock_within : Within fb (drawDock fb font) (dockBox fb) := by
  have hW := fb.w_lt
  have hH := fb.h_lt
  have hb := dockBox_eq fb
  have hd := tdiv_two_bounds ((fb.scr.w : ℤ) - 250)
  unfold drawDock dockH
  apply Within.cons
  · apply fbBlendRect_skips
    constructor <;> omega
  apply Within.flatMap
  rintro ⟨item, i⟩ hi
  apply drawIcon_within
  have := snd_lt_of_mem_zipIdx hi
  simpa [dockItems] using this

/-! The cursor. -/

def cursorBox (x y : ℤ) : Box := ⟨x, y, x + 10, y + 10⟩

theorem cursorBox_eq (x y : ℤ) :
    (cursorBox x y).x0 = x ∧ (cursorBox x y).y0 = y ∧ (cursorBox x y).x1 = x + 10 ∧
      (cursorBox x y).y1 = y + 10 :=
  ⟨rfl, rfl, rfl, rfl⟩

theorem drawCursor_within (hx0 : 0 ≤ x) (hx : x < fb.scr.w) (hy0 : 0 ≤ y) (hy : y < fb.scr.h) :
    Within fb (drawCursor fb x y) (cursorBox x y) := by
  have hW := fb.w_lt
  have hH := fb.h_lt
  have hb := cursorBox_eq x y
  refine Within.cons (drawRect_skips ?_) <| Within.cons (drawRect_skips ?_) <|
    Within.cons (drawRect_skips ?_) <| Within.cons (drawRect_skips ?_) Within.nil
  all_goals constructor <;> omega

theorem drawCursor_skips_or_covers (fb : Fb) (x y : ℤ) (n : ℕ) :
    Skips (drawn (drawCursor fb x y)) n ∨ Covers (drawn (drawCursor fb x y)) n := by
  apply skips_or_covers
  intro op hop
  have solid : ∀ x y w h color, Skips (drawRect fb x y w h color) n ∨
      Covers (drawRect fb x y w h color) n :=
    fun x y w h color => mask_skips_or_covers fun _ _ => rfl
  simp only [drawCursor, mem_cons, not_mem_nil, or_false] at hop
  rcases hop with rfl | rfl | rfl | rfl <;> exact solid ..

/-! The flip of a rectangle. -/

@[simp]
theorem fbFlipRect_back (x y : ℤ) (w h : UInt32) (d : Display) :
    (fbFlipRect fb x y w h d).back = d.back := by
  unfold fbFlipRect
  dsimp only
  split_ifs <;> rfl

theorem fbFlipRect_front (x y : ℤ) (w h : UInt32) (d : Display) (n : ℕ) :
    (fbFlipRect fb x y w h d).front n = d.back n ∨ (fbFlipRect fb x y w h d).front n = d.front n := by
  unfold fbFlipRect
  dsimp only
  split_ifs with h1
  · exact .inr rfl
  dsimp only
  split_ifs
  · exact .inl rfl
  · exact .inr rfl

theorem le_clipExtent {limit pos : ℕ} {x w : UInt32} (h1 : pos < limit)
    (h2 : pos < x.toNat + w.toNat) : pos < x.toNat + clipExtent limit x w := by
  unfold clipExtent
  split_ifs <;> omega

theorem cutNegative_bounds {w : UInt32} (hx : Small x) (hw : w.toNat < 2 ^ 31)
    (h0 : 0 < x + w.toNat) :
    0 ≤ (cutNegative x w).1 ∧ (cutNegative x w).1 = max x 0 ∧
      (cutNegative x w).1 + (cutNegative x w).2.toNat = x + w.toNat ∧
      (cutNegative x w).2.toNat < 2 ^ 31 := by
  have e := toU32_toNat (w.toNat + x)
  unfold cutNegative
  split_ifs
  · rw [ofU32_of_lt (by omega)]
    dsimp only
    omega
  · dsimp only
    omega

theorem fbFlipRect_front_of_has {w h : UInt32} (d : Display) (hx : Small x) (hy : Small y)
    (hw : w.toNat < 2 ^ 31) (hh : h.toNat < 2 ^ 31) (hn : fb.OnScreen n)
    (hb : Box.Has fb ⟨x, y, x + w.toNat, y + h.toNat⟩ n) :
    (fbFlipRect fb x y w h d).front n = d.back n := by
  obtain ⟨b0, b1, b2, b3⟩ := hb
  dsimp only at b0 b1 b2 b3
  have hcol := hn.1
  have hrow := hn.2
  have hW := fb.w_lt
  have hH := fb.h_lt
  obtain ⟨c0, c1, c2, c3⟩ := cutNegative_bounds hx hw (by omega)
  obtain ⟨d0, d1, d2, d3⟩ := cutNegative_bounds hy hh (by omega)
  unfold fbFlipRect
  generalize cutNegative x w = p at *
  generalize cutNegative y h = q at *
  have ex := toU32_toNat p.1
  have ey := toU32_toNat q.1
  dsimp only
  rw [if_neg]
  · have : InRect fb (toU32 p.1) (toU32 q.1) p.2 q.2 n :=
      ⟨hn, by omega, by omega, by omega, le_clipExtent hcol (by omega), by omega,
        le_clipExtent hrow (by omega)⟩
    exact if_pos this
  · rw [ofU32_of_lt (by omega), ofU32_of_lt (by omega)]
    omega

end

end Exploidus.Gui
