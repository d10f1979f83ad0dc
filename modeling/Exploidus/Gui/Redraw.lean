import Exploidus.Gui.Bounds

/-! The redraw paths of the event loop, and when a partial redraw leaves the picture of a full one. -/
namespace Exploidus.Gui
open Painter Function List

def Comp.anyWindowFading (c : Comp) : Bool :=
  (finRange 16).any fun i => (c.wins i).valid && decide (0 < (c.wins i).fadeAlpha)

/-- The composite, the cursor on it, and the whole screen flipped. -/
def fullRedraw (fb : Fb) (font : Font) (c : Comp) (pix : Pixels) (cx cy : ℤ) (d : Display) :
    Display :=
  fbFlip fb { d with back := paint (compositeFrame fb font c pix ++ drawCursor fb cx cy) d.back }

/-- A coordinate and an extent of the window's rectangle, made to hold the cursor too. -/
def withCursor (f : ℤ) (extent : UInt32) (cur : ℤ) : ℤ × UInt32 :=
  let (f, extent) := if cur < f then (cur, extent + toU32 (f - cur)) else (f, extent)
  if wrap32 (f + ofU32 extent) < wrap32 (cur + 11) then (f, toU32 (cur + 11 - f)) else (f, extent)

/-- The fast path: one window and the cursor. -/
def fastRedraw (fb : Fb) (w : Win) (src : ℕ → UInt32) (cx cy : ℤ) (d : Display) : Display :=
  let (fx, fw) := withCursor w.x w.w cx
  let (fy, fh) := withCursor w.top (if w.decorated then w.h + 28 else w.h) cy
  fbFlipRect fb fx fy fw fh
    { d with back := paint (drawBlit fb w src ++ drawFadeVeil fb w ++ drawCursor fb cx cy) d.back }

def Win.under (w : Win) (x y : ℤ) : Bool :=
  decide (w.x ≤ x ∧ x < w.right ∧ w.top ≤ y ∧ y < w.bottom)

/-- `touches_window`. -/
def touchesWindow (fb : Fb) (c : Comp) (cx cy dx dy : ℤ) : Bool :=
  ((finRange 16).any fun i =>
      (c.wins i).valid && ((c.wins i).under cx cy || (c.wins i).under dx dy)) ||
    decide (cy < 22 ∨ dy < 22 ∨ (fb.scr.h : ℤ) - dockH ≤ cy ∨ (fb.scr.h : ℤ) - dockH ≤ dy) ||
    (match c.dirtyWin with | .one _ => true | _ => false)

/-- The cursor path: a patch over the old cursor, the windows if the cursor is near one, and the new
cursor. -/
def cursorRedraw (fb : Fb) (font : Font) (c : Comp) (pix : Pixels) (cx cy dx dy : ℤ) (d : Display) :
    Display :=
  let patch := drawRect fb (dx - 1) (dy - 1) 12 12 colDesktop
  if touchesWindow fb c cx cy dx dy then
    fbFlip fb { d with
      back := paint (patch :: (compositeFrameLight fb font c pix ++ drawCursor fb cx cy)) d.back }
  else
    fbFlipRect fb (min dx cx - 1) (min dy cy - 1) (toU32 (max dx cx + 11 - min dx cx + 2))
      (toU32 (max dy cy + 11 - min dy cy + 2))
      { d with back := paint (patch :: drawCursor fb cx cy) d.back }

/-- What an iteration of the event loop finds: the windows after the messages and the input were
handled, what their regions hold, the mouse, whether a window is dragged, whether a message or a
button asks for a full redraw, and whether a frame is due. -/
structure Input (fb : Fb) where
  comp : Comp
  pix : Pixels
  mx : ℤ
  my : ℤ
  dragging : Bool
  full : Bool
  due : Bool
  mx_nonneg : 0 ≤ mx
  mx_lt : mx < fb.scr.w
  my_nonneg : 0 ≤ my
  my_lt : my < fb.scr.h

/-- The variables of the event loop. `shown` is the windows and contents of the last frame. -/
structure Loop where
  prevX : ℤ
  prevY : ℤ
  curX : ℤ
  curY : ℤ
  drawnX : ℤ
  drawnY : ℤ
  needsFull : Bool
  needsCursor : Bool
  shown : Option (Comp × Pixels)
  disp : Display

def Loop.start (d : Display) : Loop := ⟨0, 0, 0, 0, 0, 0, true, false, none, d⟩

inductive Path where
  | idle
  | full
  | fast (i : Fin 16)
  | cursor
  deriving DecidableEq

namespace Loop
variable {fb : Fb}

def poll (l : Loop) (t : Input fb) : Loop :=
  let moved := decide (t.mx ≠ l.prevX ∨ t.my ≠ l.prevY)
  { l with
    prevX := t.mx
    prevY := t.my
    curX := if moved then t.mx else l.curX
    curY := if moved then t.my else l.curY
    needsFull := l.needsFull || t.full || (moved && t.dragging) || t.comp.anyWindowFading
    needsCursor := l.needsCursor || (moved && !t.dragging) }

def path (l : Loop) (t : Input fb) : Path :=
  if l.needsFull && t.due then .full
  else
    let other := if l.needsCursor && t.due then Path.cursor else Path.idle
    match t.comp.dirtyWin with
    | .one i =>
      if t.comp.focused = some i ∧ (t.comp.wins i).valid ∧ l.needsCursor = false ∧ t.due then
        .fast i
      else other
    | _ => other

def painted (l : Loop) (t : Input fb) (d : Display) : Loop :=
  { l with
    drawnX := l.curX, drawnY := l.curY, needsCursor := false
    shown := some (t.comp, t.pix), disp := d }

def redraw (font : Font) (l : Loop) (t : Input fb) : Loop :=
  match l.path t with
  | .idle => l
  | .full =>
    { l.painted t (fullRedraw fb font t.comp t.pix l.curX l.curY l.disp) with needsFull := false }
  | .fast i => l.painted t (fastRedraw fb (t.comp.wins i) (t.pix i) l.curX l.curY l.disp)
  | .cursor =>
    l.painted t
      (cursorRedraw fb font t.comp t.pix l.curX l.curY l.drawnX l.drawnY l.disp)

def step (font : Font) (l : Loop) (t : Input fb) : Loop := (l.poll t).redraw font t

def run (font : Font) (l : Loop) (ts : List (Input fb)) : Loop := ts.foldl (step font) l

end Loop

/-! The picture of a full redraw. -/

def picture (fb : Fb) (font : Font) (c : Comp) (pix : Pixels) (cx cy : ℤ) (n : ℕ) : UInt32 :=
  drawn (compositeFrame fb font c pix ++ drawCursor fb cx cy) n 0

def Shows (fb : Fb) (font : Font) (c : Comp) (pix : Pixels) (cx cy : ℤ) (d : Display) : Prop :=
  ∀ n, fb.OnScreen n → d.back n = picture fb font c pix cx cy n ∧
    d.front n = picture fb font c pix cx cy n

def SameVisible (fb : Fb) (d d' : Display) : Prop := ∀ n, fb.OnScreen n → d.front n = d'.front n

section
variable {fb : Fb} {font : Font} {c c' : Comp} {pix pix' : Pixels} {cx cy dx dy : ℤ} {d : Display}
  {n : ℕ} {i : Fin 16}

theorem drawn_compositeFrame (hn : fb.OnScreen n) (ops : List Draw) (u v : UInt32) :
    drawn (compositeFrame fb font c pix ++ ops) n u =
      drawn (compositeFrame fb font c pix ++ ops) n v := by
  simp only [compositeFrame, drawWallpaper, cons_append, drawn_cons, fbClear, mask, if_pos hn]

theorem fullRedraw_shows (d : Display) :
    Shows fb font c pix cx cy (fullRedraw fb font c pix cx cy d) := by
  intro n hn
  have hb : (fullRedraw fb font c pix cx cy d).back n = picture fb font c pix cx cy n :=
    drawn_compositeFrame hn _ _ _
  refine ⟨hb, ?_⟩
  rw [← hb]
  exact if_pos (Fb.lt_of_onScreen hn)

theorem Shows.sameVisible {d' : Display} (h : Shows fb font c pix cx cy d)
    (h' : Shows fb font c pix cx cy d') : SameVisible fb d d' :=
  fun n hn => (h n hn).2.trans (h' n hn).2.symm

def Win.look (w : Win) : Win := { w with shmId := 0, ownerPid := 0, dirty := false }

def Comp.look (c : Comp) : Comp :=
  { Comp.init with wins := fun i => (c.wins i).look, focused := c.focused }

theorem picture_look : picture fb font c.look pix cx cy n = picture fb font c pix cx cy n := rfl

/-! The fast path. -/

theorem drawn_drawBlit (w : Win) (src : ℕ → UInt32) (u : UInt32) : drawn (drawBlit fb w src) n u =
      if w.shows fb ∧ InClient fb w n then
        shade colDesktop (src (blitIndex fb w.x w.y w.w n)) u
      else u := by
  rw [drawBlit_eq]
  by_cases hs : w.shows fb
  · rw [if_pos hs]
    exact if_congr (by simp [hs, InClient]) rfl rfl
  · rw [if_neg hs, if_neg fun h => hs h.1]
    rfl

theorem focusedWin_valid (hf : c.focusedWin = some i) :
    c.focused = some i ∧ (c.wins i).valid := by
  unfold Comp.focusedWin at hf
  split at hf
  · cases hf
  rename_i j hj
  split_ifs at hf with hv
  cases hf
  exact ⟨hj, hv⟩

def beneath (fb : Fb) (font : Font) (c : Comp) (pix : Pixels) (i : Fin 16) (n : ℕ) : UInt32 :=
  drawn (drawWallpaper fb ++ drawMenubar fb font c ++ drawBackground fb font c pix ++
    if (c.wins i).decorated then drawWindowChrome fb font (c.wins i) else []) n 0

theorem beneath_congr (hf : c.focused = some i) (hp : ∀ j ≠ i, pix j = pix' j) :
    beneath fb font c pix i n = beneath fb font c pix' i n := by
  have hb : drawBackground fb font c pix = drawBackground fb font c pix' := by
    unfold drawBackground
    apply flatMap_congr
    intro j _
    by_cases hj : j = i
    · subst hj
      rw [if_neg fun h => h.2.1 hf, if_neg fun h => h.2.1 hf]
    · rw [hp j hj]
  rw [beneath, beneath, hb]

theorem picture_focused (hf : c.focusedWin = some i) (ha : (c.wins i).fadeAlpha = 0) :
    picture fb font c pix cx cy n = drawn (drawCursor fb cx cy) n (drawn (drawDock fb font) n
        (drawn (drawBlit fb (c.wins i) (pix i)) n (beneath fb font c pix i n))) := by
  simp only [picture, compositeFrame, compositeFrameLight, drawFocused, hf, drawWindow, drawFadeVeil,
    if_pos ha, beneath, drawn_append, drawn_nil]

theorem withCursor_bounds (f : ℤ) (extent : UInt32) {cur : ℤ} (hf : -2 ^ 28 ≤ f) (hf' : f ≤ 2 ^ 28)
    (he : extent.toNat ≤ 2 ^ 28) (hc : 0 ≤ cur) (hc' : cur < 2 ^ 30) :
    Small (withCursor f extent cur).1 ∧ (withCursor f extent cur).2.toNat < 2 ^ 31 ∧
      (withCursor f extent cur).1 ≤ f ∧ (withCursor f extent cur).1 ≤ cur ∧
      f + extent.toNat ≤ (withCursor f extent cur).1 + (withCursor f extent cur).2.toNat ∧
      cur + 10 ≤ (withCursor f extent cur).1 + (withCursor f extent cur).2.toNat := by
  obtain ⟨p, hp, h1, h2, h3, h4⟩ : ∃ p : ℤ × UInt32,
      (if cur < f then (cur, extent + toU32 (f - cur)) else (f, extent)) = p ∧
        p.1 ≤ f ∧ p.1 ≤ cur ∧ -2 ^ 28 ≤ p.1 ∧ p.1 + p.2.toNat = f + extent.toNat := by
    refine ⟨_, rfl, ?_⟩
    have e := toU32_toNat (f - cur)
    split_ifs
    · dsimp only
      rw [UInt32.toNat_add]
      omega
    · dsimp only
      omega
  have hw := ofU32_of_lt (u := p.2) (by omega)
  have e := toU32_toNat (cur + 11 - p.1)
  unfold withCursor
  rw [hp]
  dsimp only
  rw [hw, wrap32_of_mem (by omega) (by omega), wrap32_of_mem (by omega) (by omega)]
  split_ifs <;> dsimp only <;> omega

theorem Win.Sane.top_bounds {w : Win} (hw : w.Sane) : w.top ≤ w.y ∧ w.y ≤ w.top + 28 ∧
      w.top + (if w.decorated then w.h + 28 else w.h).toNat = w.y + w.h.toNat := by
  obtain ⟨h0, h1, h2, h3, h4, h5, h6⟩ := hw
  unfold Win.top titlebarH
  split_ifs
  · rw [wrap32_of_mem (by omega) (by omega), UInt32.toNat_add]
    have : (28 : UInt32).toNat = 28 := rfl
    omega
  · omega

theorem shade_shade {bg p q u : UInt32} (h : alphaOf p = 0 → alphaOf q = 0) :
    shade bg p (shade bg q u) = shade bg p u := by
  by_cases hp : alphaOf p = 0
  · simp only [shade, hp, h hp, if_true]
  · simp only [shade, hp, if_false]

theorem drawn_fast (hf : c.focusedWin = some i) (hw : (c.wins i).Sane)
    (ha : (c.wins i).fadeAlpha = 0) (hp : ∀ j ≠ i, pix j = pix' j)
    (ht : ∀ n, InClient fb (c.wins i) n →
      alphaOf (pix' i (blitIndex fb (c.wins i).x (c.wins i).y (c.wins i).w n)) = 0 →
      alphaOf (pix i (blitIndex fb (c.wins i).x (c.wins i).y (c.wins i).w n)) = 0) :
    drawn (drawCursor fb cx cy) n (drawn (drawBlit fb (c.wins i) (pix' i)) n
      (picture fb font c pix cx cy n)) = picture fb font c pix' cx cy n := by
  rw [picture_focused hf ha, picture_focused hf ha, ← beneath_congr (focusedWin_valid hf).1 hp]
  generalize beneath fb font c pix i n = u
  rcases drawCursor_skips_or_covers fb cx cy n with hc | hc
  · rw [hc, hc, hc, drawn_drawBlit, drawn_drawBlit, drawn_drawBlit]
    split_ifs with hin
    · -- the dock is drawn below the contents
      have hb := inClient_bounds hw hin.2
      have hd : ∀ v, drawn (drawDock fb font) n v = v := fun v =>
        drawDock_within.drawn_eq fun h => by
          have := dockBox_eq fb
          unfold Box.Has at h
          unfold dockH at hb
          omega
      rw [hd, hd, shade_shade (ht n hin.2)]
    · rfl
  · exact hc _ _

theorem fastRedraw_shows (hs : Shows fb font c pix cx cy d) (hf : c.focusedWin = some i)
    (hw : (c.wins i).Sane) (ha : (c.wins i).fadeAlpha = 0) (hp : ∀ j ≠ i, pix j = pix' j)
    (ht : ∀ n, InClient fb (c.wins i) n →
      alphaOf (pix' i (blitIndex fb (c.wins i).x (c.wins i).y (c.wins i).w n)) = 0 →
      alphaOf (pix i (blitIndex fb (c.wins i).x (c.wins i).y (c.wins i).w n)) = 0)
    (hx0 : 0 ≤ cx) (hx : cx < fb.scr.w) (hy0 : 0 ≤ cy) (hy : cy < fb.scr.h) :
    Shows fb font c pix' cx cy (fastRedraw fb (c.wins i) (pix' i) cx cy d) := by
  intro n hn
  have hW := fb.w_lt
  have hH := fb.h_lt
  have hback : (fastRedraw fb (c.wins i) (pix' i) cx cy d).back n =
      picture fb font c pix' cx cy n := by
    simp only [fastRedraw, fbFlipRect_back, paint_apply, drawFadeVeil, if_pos ha, drawn_append,
      drawn_nil, (hs n hn).1, drawn_fast hf hw ha hp ht]
  refine ⟨hback, ?_⟩
  have htop := hw.top_bounds
  obtain ⟨h0, h1, h2, h3, h4, h5, h6⟩ := id hw
  obtain ⟨a0, a1, a2, a3, a4, a5⟩ :=
    withCursor_bounds (c.wins i).x (c.wins i).w (by omega) (by omega) (by omega) hx0 (by omega)
  obtain ⟨b0, b1, b2, b3, b4, b5⟩ :=
    withCursor_bounds (c.wins i).top (if (c.wins i).decorated then (c.wins i).h + 28 else (c.wins i).h)
      (by omega) (by omega) (by omega) hy0 (by omega)
  rw [← hback]
  unfold fastRedraw at hback ⊢
  generalize withCursor (c.wins i).x (c.wins i).w cx = p at *
  generalize withCursor (c.wins i).top
    (if (c.wins i).decorated then (c.wins i).h + 28 else (c.wins i).h) cy = q at *
  dsimp only at hback ⊢
  by_cases hin : Box.Has fb ⟨p.1, q.1, p.1 + p.2.toNat, q.1 + q.2.toNat⟩ n
  · rw [fbFlipRect_front_of_has _ a0 b0 a1 b1 hn hin, fbFlipRect_back]
  -- outside the flipped rectangle the picture has not changed
  rcases fbFlipRect_front p.1 q.1 p.2 q.2 _ n with hfr | hfr
  · rw [hfr, fbFlipRect_back]
  rw [hfr, hback, ← drawn_fast hf hw ha hp ht, drawn_drawBlit, if_neg,
    (drawCursor_within hx0 hx hy0 hy).drawn_eq]
  · exact (hs n hn).2
  · intro hc
    have := cursorBox_eq cx cy
    unfold Box.Has at hin hc
    dsimp only at hin
    omega
  · rintro ⟨-, hc⟩
    have := inClient_bounds hw hc
    unfold Box.Has at hin
    dsimp only at hin
    omega

/-! The cursor path. -/

def patchBox (x y : ℤ) : Box := ⟨x - 1, y - 1, x + 11, y + 11⟩

theorem patchBox_eq (x y : ℤ) :
    (patchBox x y).x0 = x - 1 ∧ (patchBox x y).y0 = y - 1 ∧ (patchBox x y).x1 = x + 11 ∧
      (patchBox x y).y1 = y + 11 :=
  ⟨rfl, rfl, rfl, rfl⟩

def purpleBox (fb : Fb) : Box :=
  glowBox ((fb.scr.w / 3 / 2 : ℕ) : ℤ) ((fb.scr.h / 3 / 2 : ℕ) : ℤ) 112

def blueBox (fb : Fb) : Box := glowBox (fb.scr.w - 120) (fb.scr.h - 80) 152

structure PlainUnder (fb : Fb) (c : Comp) (x y : ℤ) : Prop where
  left : 1 ≤ x
  menu : (patchBox x y).Apart menuBox
  dock : (patchBox x y).Apart (dockBox fb)
  purple : (patchBox x y).Apart (purpleBox fb)
  blue : (patchBox x y).Apart (blueBox fb)
  wins : ∀ i, (c.wins i).valid = true → (patchBox x y).Apart (c.wins i).box

structure Settled (c : Comp) : Prop where
  sane : ∀ i, (c.wins i).valid = true → (c.wins i).Sane
  fade : ∀ i, (c.wins i).valid = true → (c.wins i).fadeAlpha = 0

theorem drawBackground_skips (hc : Settled c)
    (hn : ∀ i, (c.wins i).valid → ¬ (c.wins i).box.Has fb n) :
    ∀ op ∈ drawBackground fb font c pix, Skips op n := by
  intro op hop
  obtain ⟨i, -, hop⟩ := mem_flatMap.mp hop
  split_ifs at hop with hi
  · exact drawWindow_within (hc.sane i hi.1) (hc.fade i hi.1) _ op hop n (hn i hi.1)
  · exact absurd hop not_mem_nil

theorem drawFocused_skips (hc : Settled c)
    (hn : ∀ i, (c.wins i).valid → ¬ (c.wins i).box.Has fb n) :
    ∀ op ∈ drawFocused fb font c pix, Skips op n := by
  intro op hop
  unfold drawFocused at hop
  rcases hf : c.focusedWin with _ | i <;> rw [hf] at hop
  · exact absurd hop not_mem_nil
  have hi := (focusedWin_valid hf).2
  exact drawWindow_within (hc.sane i hi) (hc.fade i hi) _ op hop n (hn i hi)

theorem drawn_plain (hc : Settled c) (hp : PlainUnder fb c dx dy) (hn : fb.OnScreen n)
    (hb : (patchBox dx dy).Has fb n) (u : UInt32) :
    drawn (compositeFrame fb font c pix) n u = colDesktop := by
  have hW := fb.w_lt
  have hH := fb.h_lt
  have hwin := fun i hi => (hp.wins i hi).not_has hb
  have purple : Within fb (glow fb ((fb.scr.w / 3 / 2 : ℕ) : ℤ) ((fb.scr.h / 3 / 2 : ℕ) : ℤ) 15
      (fun r => 30 - r / 4) colAccentPur) (purpleBox fb) := glow_within (by omega) (by omega)
  have blue : Within fb (glow fb (fb.scr.w - 120) (fb.scr.h - 80) 20 (fun r => 25 - r / 7)
      colAccentBlu) (blueBox fb) := glow_within (by omega) (by omega)
  have menu : Within fb (drawMenubar fb font c) menuBox :=
    drawMenubar_within fun i hi => hc.sane i (focusedWin_valid hi).2
  simp only [compositeFrame, compositeFrameLight, drawWallpaper, cons_append, drawn_cons,
    drawn_append, purple.drawn_eq (hp.purple.not_has hb), blue.drawn_eq (hp.blue.not_has hb),
    menu.drawn_eq (hp.menu.not_has hb), drawDock_within.drawn_eq (hp.dock.not_has hb),
    drawn_of_skips (drawBackground_skips hc hwin), drawn_of_skips (drawFocused_skips hc hwin)]
  exact if_pos hn

theorem picture_eq_cursor : picture fb font c pix cx cy n =
      drawn (drawCursor fb cx cy) n (drawn (compositeFrame fb font c pix) n 0) := drawn_append

theorem drawn_patch (hn : fb.OnScreen n) (hx : 1 ≤ dx) (hx' : dx < fb.scr.w) (hy : 1 ≤ dy)
    (hy' : dy < fb.scr.h) (hb : (patchBox dx dy).Has fb n) (u : UInt32) :
    drawRect fb (dx - 1) (dy - 1) 12 12 colDesktop n u = colDesktop := by
  have hW := fb.w_lt
  have hH := fb.h_lt
  have ex := toU32_toNat (dx - 1)
  have ey := toU32_toNat (dy - 1)
  have e12 : (toU32 12).toNat = 12 := rfl
  have hcol := hn.1
  have hrow := hn.2
  have hbox := patchBox_eq dx dy
  unfold Box.Has at hb
  exact if_pos ⟨hn, by omega, by omega, by omega, le_clipExtent hcol (by omega), by omega,
    le_clipExtent hrow (by omega)⟩

theorem drawn_cursor (hc : Settled c) (hp : PlainUnder fb c dx dy) (hn : fb.OnScreen n)
    (hx : dx < fb.scr.w) (hy : 0 ≤ dy) (hy' : dy < fb.scr.h) :
    drawn (drawCursor fb cx cy) n
        (drawRect fb (dx - 1) (dy - 1) 12 12 colDesktop n (picture fb font c pix dx dy n)) =
      picture fb font c pix cx cy n := by
  have hW := fb.w_lt
  have hH := fb.h_lt
  have hbox := patchBox_eq dx dy
  have hcur := cursorBox_eq dx dy
  have hx0 := hp.left
  have hy0 : 1 ≤ dy := by
    have := menuBox_eq
    have hm := hp.menu
    unfold Box.Apart at hm
    omega
  by_cases hb : (patchBox dx dy).Has fb n
  · rw [drawn_patch hn hx0 hx hy0 hy' hb, picture_eq_cursor, drawn_plain hc hp hn hb]
  have hpatch : Skips (drawRect fb (dx - 1) (dy - 1) 12 12 colDesktop) n := by
    apply drawRect_skips _ n hb
    constructor <;> omega
  have hold : ¬ (cursorBox dx dy).Has fb n := by
    unfold Box.Has at *
    omega
  rw [hpatch, picture_eq_cursor, (drawCursor_within (by omega) hx hy hy').drawn_eq hold,
    ← picture_eq_cursor]

theorem cursorRedraw_shows (hs : Shows fb font c pix dx dy d) (hc : Settled c)
    (hp : PlainUnder fb c dx dy) (ht : touchesWindow fb c cx cy dx dy = false) (hx0 : 0 ≤ cx)
    (hx : cx < fb.scr.w) (hy0 : 0 ≤ cy) (hy : cy < fb.scr.h) (hdx : dx < fb.scr.w) (hdy0 : 0 ≤ dy)
    (hdy : dy < fb.scr.h) :
    Shows fb font c pix cx cy (cursorRedraw fb font c pix cx cy dx dy d) := by
  intro n hn
  have hW := fb.w_lt
  have hH := fb.h_lt
  have hdx0 := hp.left
  have hback : (cursorRedraw fb font c pix cx cy dx dy d).back n =
      picture fb font c pix cx cy n := by
    simp only [cursorRedraw, ht, Bool.false_eq_true, if_false, fbFlipRect_back, paint_apply,
      drawn_cons, (hs n hn).1, drawn_cursor hc hp hn hdx hdy0 hdy]
  refine ⟨hback, ?_⟩
  have ew := toU32_toNat (max dx cx + 11 - min dx cx + 2)
  have eh := toU32_toNat (max dy cy + 11 - min dy cy + 2)
  simp only [cursorRedraw, ht, Bool.false_eq_true, if_false, fbFlipRect_back] at hback ⊢
  by_cases hin : Box.Has fb ⟨min dx cx - 1, min dy cy - 1,
      min dx cx - 1 + (toU32 (max dx cx + 11 - min dx cx + 2)).toNat,
      min dy cy - 1 + (toU32 (max dy cy + 11 - min dy cy + 2)).toNat⟩ n
  · rwa [fbFlipRect_front_of_has _ (by omega) (by omega) (by omega) (by omega) hn hin]
  -- neither cursor reaches outside the flipped rectangle
  unfold Box.Has at hin
  dsimp only at hin
  have hold := cursorBox_eq dx dy
  have hnew := cursorBox_eq cx cy
  rcases fbFlipRect_front (min dx cx - 1) (min dy cy - 1) _ _ _ n with hfr | hfr
  · rwa [hfr]
  rw [hfr, picture_eq_cursor, (drawCursor_within hx0 hx hy0 hy).drawn_eq,
    (hs n hn).2, picture_eq_cursor, (drawCursor_within (by omega) hdx hdy0 hdy).drawn_eq]
  · unfold Box.Has
    omega
  · unfold Box.Has
    omega

end

/-! The loop. -/

/-- What makes the fast path right: the last frame painted the windows as they are now, with the same
focus and the same contents of the others, and no pixel of the focused window has become
transparent. -/
structure FastOk (fb : Fb) (s : Comp × Pixels) (c : Comp) (pix : Pixels) (i : Fin 16) : Prop where
  look : s.1.look = c.look
  sane : ∀ j, (c.wins j).valid = true → (c.wins j).Sane
  others : ∀ j, j ≠ i → s.2 j = pix j
  clear : ∀ n, InClient fb (c.wins i) n →
    alphaOf (pix i (blitIndex fb (c.wins i).x (c.wins i).y (c.wins i).w n)) = 0 →
    alphaOf (s.2 i (blitIndex fb (c.wins i).x (c.wins i).y (c.wins i).w n)) = 0

/-- What makes the cursor path right: the last frame painted the windows and contents as they are
now, the cursor is and was off the windows, and it was on the plain part of the wallpaper. -/
structure CursorOk (fb : Fb) (s : Comp × Pixels) (c : Comp) (pix : Pixels) (cx cy dx dy : ℤ) :
    Prop where
  look : s.1.look = c.look
  sane : ∀ j, (c.wins j).valid = true → (c.wins j).Sane
  contents : s.2 = pix
  off : touchesWindow fb c cx cy dx dy = false
  plain : PlainUnder fb c dx dy

namespace Loop
variable {fb : Fb} {font : Font} {l : Loop} {t : Input fb} {i : Fin 16}

def Allows (l : Loop) (t : Input fb) : Prop :=
  let l := l.poll t
  match l.path t with
  | .idle => True
  | .full => True
  | .fast i => ∀ s ∈ l.shown, FastOk fb s t.comp t.pix i
  | .cursor => ∀ s ∈ l.shown, CursorOk fb s t.comp t.pix l.curX l.curY l.drawnX l.drawnY

def AllowsAlong (font : Font) : Loop → List (Input fb) → Prop
  | _, [] => True
  | l, t :: ts => l.Allows t ∧ AllowsAlong font (l.step font t) ts

def Point (fb : Fb) (x y : ℤ) : Prop := 0 ≤ x ∧ x < fb.scr.w ∧ 0 ≤ y ∧ y < fb.scr.h
  deriving Decidable

structure Ok (fb : Fb) (font : Font) (l : Loop) : Prop where
  shows : ∀ s ∈ l.shown, Shows fb font s.1 s.2 l.drawnX l.drawnY l.disp
  first : l.shown = none → l.needsFull = true
  still : l.needsFull = false → l.needsCursor = false → l.curX = l.drawnX ∧ l.curY = l.drawnY
  cur : Point fb l.curX l.curY
  drawn : Point fb l.drawnX l.drawnY

theorem start_ok (d : Display) : Ok fb font (start d) := by
  have origin : Point fb 0 0 := by
    have hw := fb.w_pos
    have hd := fb.scr.dock_le
    unfold Point
    omega
  refine ⟨fun s hs => ?_, fun _ => rfl, fun h => ?_, origin, origin⟩
  · cases hs
  · cases h

theorem Ok.poll (h : Ok fb font l) (t : Input fb) : Ok fb font (l.poll t) := by
  obtain ⟨shows, first, still, cur, drawn⟩ := h
  have := t.mx_nonneg
  have := t.mx_lt
  have := t.my_nonneg
  have := t.my_lt
  refine ⟨shows, fun hs => ?_, fun hf hc => ?_, ?_, drawn⟩
  · simp [Loop.poll, first hs]
  · simp only [Loop.poll, Bool.or_eq_false_iff] at hf hc ⊢
    have hm : decide (t.mx ≠ l.prevX ∨ t.my ≠ l.prevY) = false := by
      cases hd : t.dragging <;> simp_all
    rw [hm]
    exact still hf.1.1.1 hc.1
  unfold Point at *
  unfold Loop.poll
  dsimp only
  split_ifs
  · omega
  · exact cur

theorem not_fading (h : (l.poll t).needsFull = false) (hi : (t.comp.wins i).valid) :
    (t.comp.wins i).fadeAlpha = 0 := by
  simp only [Loop.poll, Bool.or_eq_false_iff, Comp.anyWindowFading, any_eq_false] at h
  have := h.2 i (mem_finRange i)
  simpa [hi] using this

theorem path_cases (l : Loop) (t : Input fb) : l.path t = .full ∨ l.path t = .idle ∨
      (l.path t = .cursor ∧ l.needsFull = false) ∨
      ∃ i, l.path t = .fast i ∧ t.comp.focusedWin = some i ∧ l.needsFull = false ∧
        l.needsCursor = false := by
  unfold path
  dsimp only
  by_cases hfull : (l.needsFull && t.due)
  · exact .inl (if_pos hfull)
  rw [if_neg hfull]
  have other : (if (l.needsCursor && t.due) then Path.cursor else Path.idle) = .idle ∨
      ((if (l.needsCursor && t.due) then Path.cursor else Path.idle) = .cursor ∧
        l.needsFull = false) := by
    split_ifs with hcur
    · simp_all
    · exact .inl rfl
  rcases t.comp.dirtyWin with _ | i | _ <;> dsimp only
  · tauto
  · split_ifs with hi hcur
    · simp_all [Comp.focusedWin]
    · simp_all
    · simp
  · tauto

theorem Ok.painted {d : Display} (h : Ok fb font l)
    (hd : Shows fb font t.comp t.pix l.curX l.curY d) : Ok fb font (l.painted t d) := by
  refine ⟨fun s hs => ?_, fun hs => ?_, fun _ _ => ⟨rfl, rfl⟩, h.cur, h.cur⟩
  · cases hs
    exact hd
  · cases hs

theorem Ok.exists_shown (h : Ok fb font l) (hf : l.needsFull = false) :
    ∃ s ∈ l.shown, Shows fb font s.1 s.2 l.drawnX l.drawnY l.disp := by
  rcases hs : l.shown with _ | s
  · rw [h.first hs] at hf
    cases hf
  · exact ⟨s, rfl, h.shows s hs⟩

theorem shows_of_look {c c' : Comp} {pix : Pixels} {cx cy : ℤ} {d : Display} (h : c.look = c'.look)
    (hs : Shows fb font c pix cx cy d) : Shows fb font c' pix cx cy d := by
  intro n hn
  have := hs n hn
  rwa [← picture_look, h, picture_look] at this

theorem Ok.fast (h : Ok fb font l) (ha : ∀ s ∈ l.shown, FastOk fb s t.comp t.pix i)
    (hfoc : t.comp.focusedWin = some i) (hf : l.needsFull = false) (hc : l.needsCursor = false)
    (hfade : (t.comp.wins i).fadeAlpha = 0) :
    Shows fb font t.comp t.pix l.curX l.curY
      (fastRedraw fb (t.comp.wins i) (t.pix i) l.curX l.curY l.disp) := by
  obtain ⟨s, hs, hshow⟩ := h.exists_shown hf
  obtain ⟨look, sane, others, clear⟩ := ha s hs
  rw [← (h.still hf hc).1, ← (h.still hf hc).2] at hshow
  obtain ⟨h0, h1, h2, h3⟩ := h.cur
  exact fastRedraw_shows (shows_of_look look hshow) hfoc (sane i (focusedWin_valid hfoc).2) hfade
    others clear h0 h1 h2 h3

theorem Ok.cursor (h : Ok fb font l)
    (ha : ∀ s ∈ l.shown, CursorOk fb s t.comp t.pix l.curX l.curY l.drawnX l.drawnY)
    (hf : l.needsFull = false)
    (hfade : ∀ i, (t.comp.wins i).valid → (t.comp.wins i).fadeAlpha = 0) :
    Shows fb font t.comp t.pix l.curX l.curY
      (cursorRedraw fb font t.comp t.pix l.curX l.curY l.drawnX l.drawnY l.disp) := by
  obtain ⟨s, hs, hshow⟩ := h.exists_shown hf
  obtain ⟨look, sane, contents, off, plain⟩ := ha s hs
  rw [contents] at hshow
  obtain ⟨h0, h1, h2, h3⟩ := h.cur
  obtain ⟨-, d1, d2, d3⟩ := h.drawn
  exact cursorRedraw_shows (shows_of_look look hshow) ⟨sane, hfade⟩ plain off h0 h1 h2 h3 d1 d2 d3

theorem Ok.step (h : Ok fb font l) (ha : l.Allows t) : Ok fb font (l.step font t) := by
  have hp := h.poll t
  unfold Loop.step Loop.redraw
  unfold Allows at ha
  dsimp only at ha
  rcases (l.poll t).path_cases t with hb | hb | ⟨hb, hf⟩ | ⟨i, hb, hfoc, hf, hc⟩ <;> rw [hb] at ha ⊢ <;>
    dsimp only at ha ⊢
  · exact ⟨(hp.painted (fullRedraw_shows _)).shows, (fun hs => nomatch hs),
      fun _ _ => ⟨rfl, rfl⟩, hp.cur, hp.cur⟩
  · exact hp
  · exact hp.painted (hp.cursor ha hf fun i hi => not_fading hf hi)
  · exact hp.painted (hp.fast ha hfoc hf hc (not_fading hf (focusedWin_valid hfoc).2))

theorem Ok.run {ts : List (Input fb)} (h : Ok fb font l) (ha : AllowsAlong font l ts) :
    Ok fb font (l.run font ts) := by
  induction ts generalizing l with
  | nil => exact h
  | cons t ts ih => exact ih (h.step ha.1) ha.2

theorem allowsAlong_append {ts us : List (Input fb)} (h : AllowsAlong font l (ts ++ us)) :
    AllowsAlong font l ts ∧ AllowsAlong font (l.run font ts) us := by
  induction ts generalizing l with
  | nil => exact ⟨trivial, h⟩
  | cons t ts ih =>
    obtain ⟨h1, h2⟩ := ih h.2
    exact ⟨⟨h.1, h1⟩, h2⟩

theorem step_shown (font : Font) (hp : (l.poll t).path t ≠ .idle) :
    (l.step font t).shown = some (t.comp, t.pix) ∧
      (l.step font t).drawnX = (l.poll t).curX ∧ (l.step font t).drawnY = (l.poll t).curY := by
  unfold Loop.step Loop.redraw
  rcases hb : (l.poll t).path t with _ | _ | i | _
  · exact absurd hb hp
  · exact ⟨rfl, rfl, rfl⟩
  · exact ⟨rfl, rfl, rfl⟩
  · exact ⟨rfl, rfl, rfl⟩

/-- In a run whose partial redraws meet their conditions, every frame looks as the full redraw would
have made it. -/
theorem redraw_run (fb : Fb) (font : Font) (d : Display) (ts : List (Input fb)) (t : Input fb)
    (ha : AllowsAlong font (start d) (ts ++ [t]))
    (hp : (((start d).run font ts).poll t).path t ≠ .idle) :
    SameVisible fb (((start d).run font ts).step font t).disp
      (fullRedraw fb font t.comp t.pix (((start d).run font ts).poll t).curX
        (((start d).run font ts).poll t).curY ((start d).run font ts).disp) := by
  obtain ⟨hts, ht⟩ := allowsAlong_append ha
  have hok := ((start_ok d).run hts).step ht.1
  obtain ⟨hs, hx, hy⟩ := step_shown font hp
  have hshow := hok.shows _ hs
  rw [hx, hy] at hshow
  exact hshow.sameVisible (fullRedraw_shows _)

/-! A screen with one window, and the cursor on the plain wallpaper. -/

def sampleFb : Fb where
  scr := ⟨640, 480, by decide, by decide, by decide⟩
  stride := 640
  w_pos := by decide
  le_stride := by decide
  fits := by decide

def sampleWin : Win where
  shmId := 7
  pixels := some ⟨0x1000000, 10000⟩
  x := 100
  y := 250
  w := 50
  h := 50
  flags := 1
  title := [65]
  ownerPid := 3
  dirty := false
  valid := true
  fadeAlpha := 0

attribute [local instance] neZero_slots

def sampleComp (dirtyWin : Dirty) : Comp :=
  { Comp.init with
    wins := update Comp.init.wins 0 sampleWin, focused := some 0, dirtyWin := dirtyWin }

def sampleInput (dirtyWin : Dirty) (word : UInt32) (mx my : ℤ)
    (h : Point sampleFb mx my) : Input sampleFb where
  comp := sampleComp dirtyWin
  pix := update (const _ (const _ 0)) 0 (const _ word)
  mx := mx
  my := my
  dragging := false
  full := false
  due := true
  mx_nonneg := h.1
  mx_lt := h.2.1
  my_nonneg := h.2.2.1
  my_lt := h.2.2.2

def sampleDisplay : Display := ⟨const _ 0, const _ 0⟩
def sampleFont : Font := const _ (const _ 0)

def sampleFirst : Input sampleFb := sampleInput .clean 0xFF112233 300 100 (by decide)

def samplePaint : Input sampleFb := sampleInput (.one 0) 0xFF445566 300 100 (by decide)

def sampleMove : Input sampleFb := sampleInput .clean 0xFF445566 310 120 (by decide)

def sampleClear : Input sampleFb := sampleInput (.one 0) 0 300 100 (by decide)

theorem sampleComp_valid {dirtyWin : Dirty} {j : Fin 16}
    (h : ((sampleComp dirtyWin).wins j).valid) : (sampleComp dirtyWin).wins j = sampleWin := by
  by_cases hj : j = 0
  · subst hj
    rfl
  · simp [sampleComp, update_of_ne hj, Comp.init, Win.blank] at h

theorem sampleComp_sane {dirtyWin : Dirty} (j : Fin 16)
    (h : ((sampleComp dirtyWin).wins j).valid) : ((sampleComp dirtyWin).wins j).Sane := by
  rw [sampleComp_valid h]
  constructor <;> decide

theorem sampleFast_ok : FastOk sampleFb (sampleFirst.comp, sampleFirst.pix) samplePaint.comp
    samplePaint.pix 0 where
  look := rfl
  sane := sampleComp_sane
  others := fun j hj => by
    simp [sampleFirst, samplePaint, sampleInput, update_of_ne hj]
  clear := fun n _ h => absurd (show alphaOf 0xFF445566 = 0 from h) (by decide)

theorem sampleCursor_ok : CursorOk sampleFb (samplePaint.comp, samplePaint.pix) sampleMove.comp
    sampleMove.pix 310 120 300 100 where
  look := rfl
  sane := sampleComp_sane
  contents := rfl
  off := by decide
  plain :=
    ⟨by decide, by decide, by decide, by decide, by decide, fun i hi => by
      rw [sampleMove, sampleInput, sampleComp_valid hi]
      decide⟩

theorem sampleRun_allows :
    AllowsAlong sampleFont (start sampleDisplay) ([sampleFirst, samplePaint] ++ [sampleMove]) := by
  refine ⟨trivial, ?_, ?_, trivial⟩
  · rintro _ ⟨⟩
    exact sampleFast_ok
  · rintro _ ⟨⟩
    exact sampleCursor_ok

/-- A fast frame and a cursor frame, each as the full redraw would have made it. -/
theorem sampleMove_visible : SameVisible sampleFb
      (((start sampleDisplay).run sampleFont [sampleFirst, samplePaint]).step sampleFont
        sampleMove).disp
      (fullRedraw sampleFb sampleFont sampleMove.comp sampleMove.pix
        (((start sampleDisplay).run sampleFont [sampleFirst, samplePaint]).poll sampleMove).curX
        (((start sampleDisplay).run sampleFont [sampleFirst, samplePaint]).poll sampleMove).curY
        ((start sampleDisplay).run sampleFont [sampleFirst, samplePaint]).disp) :=
  redraw_run sampleFb sampleFont sampleDisplay [sampleFirst, samplePaint] sampleMove sampleRun_allows
    (by decide)

/-- The focused window becomes transparent and is damaged: the fast path leaves its old colour on the
screen. -/
theorem sampleClear_stale :
    (((start sampleDisplay).run sampleFont [sampleFirst]).poll sampleClear).path sampleClear =
        .fast 0 ∧
      ¬ SameVisible sampleFb
        (((start sampleDisplay).run sampleFont [sampleFirst]).step sampleFont sampleClear).disp
        (fullRedraw sampleFb sampleFont sampleClear.comp sampleClear.pix 300 100
          ((start sampleDisplay).run sampleFont [sampleFirst]).disp) := by
  refine ⟨by decide, fun h => ?_⟩
  have hpixel := h 172920 (by decide)
  revert hpixel
  decide

end Loop

end Exploidus.Gui
