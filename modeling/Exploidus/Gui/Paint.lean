import Exploidus.Gui.Windows
import Exploidus.Lib.Painter

/-! The frame buffer, and the scene that the compositor paints into it.

A rectangle is drawn as the source does when its right and lower edges stay below `2 ^ 32`. -/
namespace Exploidus.Gui
open Painter

/-- `g_fb` with a back buffer; a row has `stride` pixels, and a byte offset fits 32 bits. -/
structure Fb where
  scr : Screen
  stride : ℕ
  w_pos : 0 < scr.w
  le_stride : scr.w ≤ stride
  fits : stride * scr.h < 2 ^ 30

structure Display where
  back : ℕ → UInt32
  front : ℕ → UInt32

abbrev Draw := Op ℕ UInt32

/-- `g_font`: the rows of a glyph. -/
abbrev Font := ℕ → ℕ → UInt8

namespace Fb
variable (fb : Fb)

def col (n : ℕ) : ℕ := n % fb.stride
def row (n : ℕ) : ℕ := n / fb.stride

def OnScreen (n : ℕ) : Prop := fb.col n < fb.scr.w ∧ fb.row n < fb.scr.h
  deriving Decidable

end Fb

/-! Colours. -/

/-- `fb_rgb`. -/
def fbRgb (r g b : UInt8) : UInt32 := (r.toUInt32 <<< 16) ||| (g.toUInt32 <<< 8) ||| b.toUInt32

def red (c : UInt32) : UInt8 := (c >>> 16).toUInt8
def green (c : UInt32) : UInt8 := (c >>> 8).toUInt8
def blue (c : UInt32) : UInt8 := c.toUInt8
def alphaOf (c : UInt32) : UInt8 := (c >>> 24).toUInt8

/-- One channel of a blend that divides by 255. -/
def blendChannel (a f b : UInt8) : UInt8 :=
  UInt8.ofNat ((f.toNat * a.toNat + b.toNat * (255 - a.toNat)) / 255)

/-- `blend`. -/
def blend (bg fg : UInt32) (a : UInt8) : UInt32 :=
  fbRgb (blendChannel a (red fg) (red bg)) (blendChannel a (green fg) (green bg))
    (blendChannel a (blue fg) (blue bg))

/-- One channel of `fb_blend_rect`, which shifts by 8. -/
def mixChannel (a s b : UInt8) : UInt8 :=
  UInt8.ofNat ((s.toNat * a.toNat + b.toNat * (255 - a.toNat)) >>> 8)

def mix (bg fg : UInt32) (a : UInt8) : UInt32 :=
  fbRgb (mixChannel a (red fg) (red bg)) (mixChannel a (green fg) (green bg))
    (mixChannel a (blue fg) (blue bg))

def colDesktop : UInt32 := 0x0B0F17
def colElevated : UInt32 := 0x1E293B
def colBorder : UInt32 := 0x334155
def colTextPri : UInt32 := 0xE2E8F0
def colTextSec : UInt32 := 0x94A3B8
def colAccentPur : UInt32 := 0xA78BFA
def colAccentBlu : UInt32 := 0x38BDF8
def colAccentGrn : UInt32 := 0x34D399
def colBtnClose : UInt32 := 0xF43F5E
def colBtnMin : UInt32 := 0xF59E0B
def colBtnMax : UInt32 := 0x10B981

/-! The primitives of the frame buffer. -/

/-- The extent of a rectangle up to the edge of the screen. -/
def clipExtent (limit : ℕ) (x w : UInt32) : ℕ :=
  if limit < (x + w).toNat then limit - x.toNat else w.toNat

/-- The pixels that `fb_fill_rect` and `fb_blend_rect` write. -/
def InRect (fb : Fb) (x y w h : UInt32) (n : ℕ) : Prop :=
  fb.OnScreen n ∧ x.toNat < fb.scr.w ∧ y.toNat < fb.scr.h ∧
    x.toNat ≤ fb.col n ∧ fb.col n < x.toNat + clipExtent fb.scr.w x w ∧
    y.toNat ≤ fb.row n ∧ fb.row n < y.toNat + clipExtent fb.scr.h y h
  deriving Decidable

/-- `fb_fill_rect`. -/
def fbFillRect (fb : Fb) (x y w h : UInt32) (color : UInt32) : Draw :=
  mask (InRect fb x y w h) fun _ _ => color

/-- `fb_clear`. -/
def fbClear (fb : Fb) (color : UInt32) : Draw := mask fb.OnScreen fun _ _ => color

/-- `fb_blend_rect`. -/
def fbBlendRect (fb : Fb) (x y w h : UInt32) (color : UInt32) (alpha : UInt8) : Draw :=
  mask (InRect fb x y w h) fun _ c =>
    if alpha = 255 then color else if alpha = 0 then c else mix c color alpha

/-- The pixels of `fb_fill_circle`. -/
def InCircle (fb : Fb) (cx cy r : ℤ) (n : ℕ) : Prop :=
  let dx := wrap32 (fb.col n - cx)
  let dy := wrap32 (fb.row n - cy)
  fb.OnScreen n ∧ -r ≤ dx ∧ dx ≤ r ∧ -r ≤ dy ∧ dy ≤ r ∧ dx * dx + dy * dy ≤ r * r
  deriving Decidable

/-- `fb_fill_circle`. -/
def fbFillCircle (fb : Fb) (cx cy r : ℤ) (color : UInt32) : Draw :=
  mask (InCircle fb cx cy r) fun _ _ => color

/-- The pixels of the four corners of `fb_fill_rounded_rect`. -/
def InCorners (fb : Fb) (x y w h r : ℤ) (n : ℕ) : Prop :=
  let cxs := [wrap32 (x + r - fb.col n), wrap32 (fb.col n - (x + w - r - 1))]
  let cys := [wrap32 (y + r - fb.row n), wrap32 (fb.row n - (y + h - r - 1))]
  fb.OnScreen n ∧ ∃ cx ∈ cxs, ∃ cy ∈ cys,
    0 ≤ cx ∧ cx ≤ r ∧ 0 ≤ cy ∧ cy ≤ r ∧ cx * cx + cy * cy ≤ r * r
  deriving Decidable

/-- `draw_rect`. -/
def drawRect (fb : Fb) (x y w h : ℤ) (color : UInt32) : Draw :=
  fbFillRect fb (toU32 x) (toU32 y) (toU32 w) (toU32 h) color

/-- `fb_fill_rounded_rect`. -/
def fbFillRoundedRect (fb : Fb) (x y w h r : ℤ) (color : UInt32) : List Draw :=
  if r ≤ 0 ∨ w.tdiv 2 < r ∨ h.tdiv 2 < r then [drawRect fb x y w h color]
  else
    [drawRect fb (x + r) y (w - 2 * r) h color, drawRect fb x (y + r) r (h - 2 * r) color,
      drawRect fb (x + w - r) (y + r) r (h - 2 * r) color,
      mask (InCorners fb x y w h r) fun _ _ => color]

/-- The pixels of the cells of `font_draw_str`. -/
def InText (fb : Fb) (x y : ℤ) (len : ℕ) (n : ℕ) : Prop :=
  fb.OnScreen n ∧ (toU32 (fb.col n - x)).toNat < 8 * len ∧ (toU32 (fb.row n - y)).toNat < 16
  deriving Decidable

/-- The bits of row `r` of a character. -/
def glyphRow (font : Font) (ch : UInt8) (r : ℕ) : UInt8 :=
  let ch := if ch < 32 ∨ 127 < ch then 0x3F else ch
  font (ch.toNat - 32) r

/-- `font_draw_str`. -/
def fontDrawStr (fb : Fb) (font : Font) (x y : ℤ) (s : List UInt8) (fg bg : UInt32) : Draw :=
  mask (InText fb x y s.length) fun n _ =>
    let k := (toU32 (fb.col n - x)).toNat
    let r := (toU32 (fb.row n - y)).toNat
    if (glyphRow font (s.getD (k / 8) 0) r).toNat.testBit (7 - k % 8) then fg else bg

/-- The pixels of `fb_blit`; the source row and column of a pixel are determined modulo `2 ^ 32`. -/
def InBlit (fb : Fb) (dstX dstY : ℤ) (w h : UInt32) (n : ℕ) : Prop :=
  fb.OnScreen n ∧ toU32 (fb.col n - dstX) < w ∧ toU32 (fb.row n - dstY) < h
  deriving Decidable

/-- The word of the source that `fb_blit` puts at a pixel. -/
def blitIndex (fb : Fb) (dstX dstY : ℤ) (w : UInt32) (n : ℕ) : ℕ :=
  (toU32 (fb.row n - dstY)).toNat * w.toNat + (toU32 (fb.col n - dstX)).toNat

/-- What a word of the source makes of a pixel: nothing, a copy, or a blend with the constant
background. -/
def shade (bgColor pix c : UInt32) : UInt32 :=
  if alphaOf pix = 0 then c
  else if alphaOf pix = 0xFF then pix
  else blend bgColor (pix &&& 0x00FFFFFF) (alphaOf pix)

/-- `fb_blit`. -/
def fbBlit (fb : Fb) (dstX dstY : ℤ) (w h : UInt32) (src : ℕ → UInt32) (bgColor : UInt32) : Draw :=
  mask (InBlit fb dstX dstY w h) fun n c => shade bgColor (src (blitIndex fb dstX dstY w n)) c

/-- `fb_flip`. -/
def fbFlip (fb : Fb) (d : Display) : Display :=
  { d with front := fun n => if n < fb.stride * fb.scr.h then d.back n else d.front n }

/-- A coordinate and an extent of `fb_flip_rect` after the part left of, or above, the screen is cut
off. -/
def cutNegative (x : ℤ) (w : UInt32) : ℤ × UInt32 :=
  if x < 0 then (0, toU32 (ofU32 w + x)) else (x, w)

/-- `fb_flip_rect`. -/
def fbFlipRect (fb : Fb) (x y : ℤ) (w h : UInt32) (d : Display) : Display :=
  let (x, w) := cutNegative x w
  let (y, h) := cutNegative y h
  if (fb.scr.w : ℤ) ≤ x ∨ (fb.scr.h : ℤ) ≤ y ∨ ofU32 w ≤ 0 ∨ ofU32 h ≤ 0 then d
  else { d with front := fun n => if InRect fb (toU32 x) (toU32 y) w h n then d.back n else d.front n }

/-! The parts of the scene. -/

/-- The circles of a glow, of radius 0, 8 and so on, up to one that has no strength left. -/
def glow (fb : Fb) (cx cy : ℤ) (count : ℕ) (strength : ℕ → ℕ) (accent : UInt32) : List Draw :=
  (((List.range count).map (8 * ·)).takeWhile (strength · ≠ 0)).map fun r : ℕ =>
    fbFillCircle fb cx cy r (blend colDesktop accent (UInt8.ofNat (strength r)))

/-- `draw_wallpaper`. -/
def drawWallpaper (fb : Fb) : List Draw :=
  fbClear fb colDesktop ::
    (glow fb ((fb.scr.w / 3 / 2 : ℕ) : ℤ) ((fb.scr.h / 3 / 2 : ℕ) : ℤ) 15 (fun r => 30 - r / 4)
        colAccentPur ++
      glow fb (fb.scr.w - 120) (fb.scr.h - 80) 20 (fun r => 25 - r / 7) colAccentBlu)

/-- "Exploidus". -/
def brandText : List UInt8 := [69, 120, 112, 108, 111, 105, 100, 117, 115]

/-- "Reactive OS". -/
def sloganText : List UInt8 := [82, 101, 97, 99, 116, 105, 118, 101, 32, 79, 83]

/-- "Live RAM * CNSL". -/
def statusText : List UInt8 := [76, 105, 118, 101, 32, 82, 65, 77, 32, 42, 32, 67, 78, 83, 76]

def Comp.focusedWin (c : Comp) : Option (Fin 16) :=
  match c.focused with
  | none => none
  | some i => if (c.wins i).valid then some i else none

def menuTitle (fb : Fb) (font : Font) (c : Comp) : List Draw :=
  match c.focusedWin with
  | none => []
  | some i =>
    let t := (c.wins i).title
    let tx := ((fb.scr.w : ℤ) - t.length * 8).tdiv 2
    [fontDrawStr fb font (if tx < 200 then 200 else tx) 5 t colTextPri 0x0F172A]

/-- `draw_menubar`. -/
def drawMenubar (fb : Fb) (font : Font) (c : Comp) : List Draw :=
  fbBlendRect fb (toU32 0) (toU32 0) (toU32 fb.scr.w) (toU32 24) 0x0F172A 220 ::
    fontDrawStr fb font 12 5 brandText colAccentBlu 0x0F172A ::
    fontDrawStr fb font 92 5 sloganText colTextSec 0x0F172A ::
    (menuTitle fb font c ++
      [fontDrawStr fb font (fb.scr.w - 170) 5 statusText colAccentGrn 0x0F172A,
        drawRect fb 0 23 fb.scr.w 1 colBorder])

/-- The icons of the dock: a letter and a colour. -/
def dockItems : List (UInt8 × UInt32) :=
  [(84, colAccentBlu), (83, colAccentPur), (82, colAccentGrn), (69, colAccentBlu)]

def drawIcon (fb : Fb) (font : Font) (i : ℕ) (item : UInt8 × UInt32) : List Draw :=
  let ix := ((fb.scr.w : ℤ) - 250).tdiv 2 + 50 * (i + 1) - 20
  let iy := (fb.scr.h : ℤ) - dockH + 8
  fbFillRoundedRect fb ix iy dockIconSz dockIconSz 8 item.2 ++
    [fontDrawStr fb font (ix + 14) (iy + 12) [item.1] colTextPri item.2]

/-- `draw_dock`. -/
def drawDock (fb : Fb) (font : Font) : List Draw :=
  fbBlendRect fb (toU32 (((fb.scr.w : ℤ) - 250).tdiv 2)) (toU32 (fb.scr.h - dockH + 6)) (toU32 250)
      (toU32 48) 0x1F2937 215 ::
    (dockItems.zipIdx.flatMap fun p => drawIcon fb font p.2 p.1)

/-- `w->flags & WIN_FLAG_DECORATED`. -/
def Win.decorated (w : Win) : Bool := w.flags &&& winFlagDecorated != 0

def drawShadow (fb : Fb) (w : Win) (i : ℕ) : List Draw :=
  fbFillRoundedRect fb (w.x - i) (w.y - titlebarH - i) (wrap32 (ofU32 w.w + i * 2))
    (wrap32 (ofU32 w.h + titlebarH + i * 2)) (8 + i)
    (blend colDesktop 0 (UInt8.ofNat (12 * (6 - i + 1) / 6)))

def Win.titleX (w : Win) : ℤ :=
  let tx := wrap32 (w.x + (wrap32 (ofU32 w.w - w.title.length * 8)).tdiv 2)
  if tx < wrap32 (w.x + 60) then wrap32 (w.x + 60) else tx

/-- `draw_window_chrome`. -/
def drawWindowChrome (fb : Fb) (font : Font) (w : Win) : List Draw :=
  let wy := w.y - titlebarH
  let ww := ofU32 w.w
  let wh := ofU32 w.h
  [6, 5, 4, 3, 2, 1].flatMap (drawShadow fb w) ++
    fbFillRoundedRect fb w.x wy ww (titlebarH + 8) 8 colElevated ++
    [drawRect fb w.x (wy + titlebarH - 8) ww 8 colElevated,
      fbFillCircle fb (w.x + 14) (wy + 14) 5 colBtnClose,
      fbFillCircle fb (w.x + 30) (wy + 14) 5 colBtnMin,
      fbFillCircle fb (w.x + 46) (wy + 14) 5 colBtnMax,
      fontDrawStr fb font w.titleX (wy + 10) w.title colTextPri colElevated,
      drawRect fb w.x (wy + titlebarH) 1 wh colBorder,
      drawRect fb (w.x + ww - 1) (wy + titlebarH) 1 wh colBorder,
      drawRect fb w.x (wy + titlebarH + wh) ww 1 colBorder]

/-- `uptr_ok`. -/
def uptrOk (addr len : ℕ) : Bool :=
  addr != 0 && addr ≤ 0x00007FFFFFFFFFFF && (len == 0 || (len ≤ 0x00007FFFFFFFFFFF &&
    len - 1 ≤ 0x00007FFFFFFFFFFF - addr))

/-- `blit_window` with the system call: what it draws, from the words of the window's region. -/
def drawBlit (fb : Fb) (w : Win) (src : ℕ → UInt32) : List Draw :=
  match blitWindow fb.scr w with
  | none => []
  | some b =>
    if b.w ≠ 0 ∧ uptrOk b.src.addr (b.w.toNat * b.h.toNat * 4) then
      [fbBlit fb b.dstX b.dstY b.w b.h src colDesktop]
    else []

/-- `draw_fade_veil`. -/
def drawFadeVeil (fb : Fb) (w : Win) : List Draw :=
  if w.fadeAlpha = 0 then []
  else
    let vy := if w.decorated then w.y - titlebarH else w.y
    let vh := if w.decorated then w.h + 28 else w.h
    [fbBlendRect fb (toU32 w.x) (toU32 vy) w.w vh colDesktop w.fadeAlpha]

def drawWindow (fb : Fb) (font : Font) (w : Win) (src : ℕ → UInt32) : List Draw :=
  (if w.decorated then drawWindowChrome fb font w else []) ++ drawBlit fb w src ++ drawFadeVeil fb w

def Win.top (w : Win) : ℤ := if w.decorated then wrap32 (w.y - titlebarH) else w.y

def Win.bottom (w : Win) : ℤ :=
  wrap32 (w.top + ofU32 w.h + if w.decorated then titlebarH else 0)

def Win.right (w : Win) : ℤ := wrap32 (w.x + ofU32 w.w)

/-- `fully_occluded_by_focused`. -/
def fullyOccludedByFocused (c : Comp) (i : Fin 16) : Bool :=
  match c.focusedWin with
  | none => false
  | some f =>
    let fw := c.wins f
    let w := c.wins i
    decide (f ≠ i ∧ fw.x ≤ w.x ∧ fw.top ≤ w.top ∧ w.right ≤ fw.right ∧ w.bottom ≤ fw.bottom)

abbrev Pixels := Fin 16 → ℕ → UInt32

def drawBackground (fb : Fb) (font : Font) (c : Comp) (pix : Pixels) : List Draw :=
  (List.finRange 16).flatMap fun i =>
    if (c.wins i).valid ∧ c.focused ≠ some i ∧ fullyOccludedByFocused c i = false then
      drawWindow fb font (c.wins i) (pix i)
    else []

def drawFocused (fb : Fb) (font : Font) (c : Comp) (pix : Pixels) : List Draw :=
  match c.focusedWin with
  | none => []
  | some i => drawWindow fb font (c.wins i) (pix i)

/-- `composite_frame_light`. -/
def compositeFrameLight (fb : Fb) (font : Font) (c : Comp) (pix : Pixels) : List Draw :=
  drawBackground fb font c pix ++ drawFocused fb font c pix ++ drawDock fb font

/-- `composite_frame`. -/
def compositeFrame (fb : Fb) (font : Font) (c : Comp) (pix : Pixels) : List Draw :=
  drawWallpaper fb ++ drawMenubar fb font c ++ compositeFrameLight fb font c pix

def drawCursor (fb : Fb) (x y : ℤ) : List Draw :=
  [drawRect fb x y 2 10 colTextPri, drawRect fb x y 10 2 colTextPri,
    drawRect fb (x + 1) (y + 1) 1 8 0, drawRect fb (x + 1) (y + 1) 8 1 0]

end Exploidus.Gui
