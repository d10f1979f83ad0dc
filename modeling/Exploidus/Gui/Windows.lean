import Mathlib.Tactic

/-! The window table of the compositor: messages of clients, the mouse and the keyboard. -/
namespace Exploidus.Gui

theorem neZero_slots : NeZero 16 := ⟨by decide⟩

attribute [local instance] neZero_slots

/-- An integer as `int32_t`. -/
def wrap32 (z : ℤ) : ℤ := (z + 2 ^ 31) % 2 ^ 32 - 2 ^ 31

/-- `(uint32_t)z`. -/
def toU32 (z : ℤ) : UInt32 := UInt32.ofNat (z % 2 ^ 32).toNat

/-- `(int32_t)u`. -/
def ofU32 (u : UInt32) : ℤ := wrap32 u.toNat

def titlebarH : ℤ := 28
def dockH : ℤ := 56
def dockIconSz : ℤ := 40

/-- `WIN_FLAG_DECORATED`. -/
def winFlagDecorated : UInt32 := 1

structure Screen where
  w : ℕ
  h : ℕ
  w_lt : w < 2 ^ 31
  h_lt : h < 2 ^ 31
  dock_le : 56 ≤ h

/-- A shared region as it is mapped: its address and its size in bytes. -/
structure Mapping where
  addr : ℕ
  size : ℕ
  deriving DecidableEq

/-- `window_t`. -/
structure Win where
  shmId : UInt32
  pixels : Option Mapping
  x : ℤ
  y : ℤ
  w : UInt32
  h : UInt32
  flags : UInt32
  title : List UInt8
  ownerPid : UInt32
  dirty : Bool
  valid : Bool
  fadeAlpha : UInt8
  deriving DecidableEq

def Win.blank : Win := ⟨0, none, 0, 0, 0, 0, 0, [], 0, false, false, 0⟩

/-- `g_dirty_win`: no damage, damage inside one window, or more than that. -/
inductive Dirty where
  | clean
  | one (i : Fin 16)
  | many
  deriving DecidableEq

/-- The state of the compositor; an index that is -1 is `none`. -/
structure Comp where
  wins : Fin 16 → Win
  winCount : ℤ
  focused : Option (Fin 16)
  cascadeX : ℤ
  cascadeY : ℤ
  dragWin : Option (Fin 16)
  dragOffX : ℤ
  dragOffY : ℤ
  dirtyWin : Dirty
  dirtyX : ℤ
  dirtyY : ℤ
  dirtyW : UInt32
  dirtyH : UInt32

def Comp.init : Comp where
  wins := fun _ => Win.blank
  winCount := 0
  focused := none
  cascadeX := 40
  cascadeY := 50
  dragWin := none
  dragOffX := 0
  dragOffY := 0
  dirtyWin := .clean
  dirtyX := 0
  dirtyY := 0
  dirtyW := 0
  dirtyH := 0

inductive Msg where
  | winCreate (shmId : UInt32) (x y : ℤ) (w h flags : UInt32) (title : List UInt8)
  | winDestroy (shmId : UInt32)
  | damage (shmId : UInt32) (dx dy : ℤ) (dw dh : UInt32)
  | winMove (shmId : UInt32) (newX newY : ℤ)
  | ping
  | other

/-- What the compositor does to others: messages, unmapping and new processes. -/
inductive Out where
  | winBlur (pid : UInt32)
  | winFocus (pid : UInt32)
  | mouseBtn (pid : UInt32) (x y : ℤ) (button pressed : ℕ)
  | keyDown (pid : UInt32) (ascii : UInt8)
  | pong (pid : UInt32)
  | shmUnmap (m : Mapping) (size : UInt32)
  | spawn (path : String)
  deriving DecidableEq

namespace Comp
variable (c : Comp)

def slot (p : Win → Bool) : Option (Fin 16) := (List.finRange 16).find? fun i => p (c.wins i)

/-- `find_win`. -/
def findWin (shmId : UInt32) : Option (Fin 16) :=
  c.slot fun w => w.valid && decide (w.shmId = shmId)

/-- `alloc_win`. -/
def allocWin : Option (Fin 16) := c.slot fun w => !w.valid

def setWin (i : Fin 16) (w : Win) : Comp := { c with wins := Function.update c.wins i w }

/-- `free_win`. -/
def freeWin (i : Fin 16) : Comp × List Out :=
  let w := c.wins i
  (c.setWin i Win.blank, match w.pixels with
    | none => []
    | some m => [.shmUnmap m (w.w * w.h * 4)])

/-- The position of a new window, and the next place of the cascade. -/
def place (scr : Screen) (x y : ℤ) : Comp × ℤ × ℤ :=
  if x = 0 ∧ y = 0 then
    let cx := wrap32 (c.cascadeX + 30)
    let cy := wrap32 (c.cascadeY + 30)
    ({ c with
      cascadeX := if (scr.w : ℤ) - 200 < cx then 40 else cx
      cascadeY := if (scr.h : ℤ) - 200 < cy then 50 else cy },
      c.cascadeX, wrap32 (c.cascadeY + titlebarH))
  else (c, x, wrap32 (y + titlebarH))

def newWin (m : Mapping) (fromPid shmId : UInt32) (x y : ℤ) (w h flags : UInt32)
    (title : List UInt8) : Win where
  shmId := shmId
  pixels := some m
  x := x
  y := y
  w := w
  h := h
  flags := flags ||| winFlagDecorated
  title := (title.takeWhile (· ≠ 0)).take 47
  ownerPid := fromPid
  dirty := true
  valid := true
  fadeAlpha := 220

/-- `handle_win_create`; `map` is what `shm_map` gives. -/
def handleWinCreate (scr : Screen) (map : Option Mapping) (fromPid shmId : UInt32) (x y : ℤ)
    (w h flags : UInt32) (title : List UInt8) : Comp :=
  match c.findWin shmId with
  | some _ => c
  | none =>
    match c.allocWin with
    | none => c
    | some i =>
      let (c, x, y) := c.place scr x y
      match map with
      | none => c.setWin i Win.blank
      | some m =>
        { c.setWin i (newWin m fromPid shmId x y w h flags title) with
          focused := some i, winCount := c.winCount + 1 }

/-- The focus when a window goes away: the first other window, if it had the focus. -/
def refocus (i : Fin 16) : Option (Fin 16) :=
  if c.focused = some i then (List.finRange 16).find? fun j => (c.wins j).valid && decide (j ≠ i)
  else c.focused

/-- `handle_win_destroy`. -/
def handleWinDestroy (shmId : UInt32) : Comp × List Out :=
  match c.findWin shmId with
  | none => (c, [])
  | some i =>
    let r := c.freeWin i
    ({ r.1 with focused := c.refocus i, winCount := c.winCount - 1 }, r.2)

/-- `handle_win_destroy_by_idx`. -/
def handleWinDestroyByIdx (i : Fin 16) : Comp × List Out :=
  if (c.wins i).valid then
    let r := c.freeWin i
    ({ r.1 with
      focused := c.refocus i, winCount := c.winCount - 1
      dragWin := if c.dragWin = some i then none else c.dragWin }, r.2)
  else (c, [])

/-- `handle_damage`. -/
def handleDamage (shmId : UInt32) (dx dy : ℤ) (dw dh : UInt32) : Comp :=
  match c.findWin shmId with
  | none => c
  | some i =>
    let w := c.wins i
    let nx := wrap32 (w.x + dx)
    let ny := wrap32 (w.y + dy)
    let c := c.setWin i { w with dirty := true }
    match c.dirtyWin with
    | .clean => { c with dirtyWin := .one i, dirtyX := nx, dirtyY := ny, dirtyW := dw, dirtyH := dh }
    | .one j =>
      if j = i then
        let x0 := min c.dirtyX nx
        let y0 := min c.dirtyY ny
        let x1 := max (wrap32 (c.dirtyX + ofU32 c.dirtyW)) (wrap32 (nx + ofU32 dw))
        let y1 := max (wrap32 (c.dirtyY + ofU32 c.dirtyH)) (wrap32 (ny + ofU32 dh))
        { c with dirtyX := x0, dirtyY := y0, dirtyW := toU32 (x1 - x0), dirtyH := toU32 (y1 - y0) }
      else { c with dirtyWin := .many }
    | .many => { c with dirtyWin := .many }

/-- `handle_win_move`. -/
def handleWinMove (shmId : UInt32) (newX newY : ℤ) : Comp :=
  match c.findWin shmId with
  | none => c
  | some i =>
    c.setWin i { c.wins i with x := newX, y := wrap32 (newY + titlebarH), dirty := true }

def handle (scr : Screen) (map : Option Mapping) (fromPid : UInt32) : Msg → Comp × List Out
  | .winCreate shmId x y w h flags title =>
    (c.handleWinCreate scr map fromPid shmId x y w h flags title, [])
  | .winDestroy shmId => c.handleWinDestroy shmId
  | .damage shmId dx dy dw dh => (c.handleDamage shmId dx dy dw dh, [])
  | .winMove shmId newX newY => (c.handleWinMove shmId newX newY, [])
  | .ping => (c, [.pong fromPid])
  | .other => (c, [])

/-! The mouse and the keyboard. -/

def dockPaths : List String := ["/bin/terminal", "/bin/gui_demo", "/bin/rahu", "/bin/exploish"]

/-- `dock_hit`, with the geometry that `draw_dock` saves. -/
def dockHit (scr : Screen) (mx my : ℤ) : Option ℕ :=
  let dy := (scr.h : ℤ) - dockH
  let dx := Int.tdiv (scr.w - 250) 2
  let spacing : ℤ := 250 / 5
  let iy := dy + (dockH - dockIconSz) / 2
  if my < iy ∨ iy + dockIconSz ≤ my then none
  else (List.range 4).find? fun i =>
    let ix := dx + spacing * (i + 1) - dockIconSz / 2
    decide (ix ≤ mx ∧ mx < ix + dockIconSz)

/-- A window that is dragged follows the mouse and stays on the screen. -/
def dragTo (scr : Screen) (mx my : ℤ) (w : Win) : Win :=
  let x := wrap32 (mx - c.dragOffX)
  let y := wrap32 (my - c.dragOffY)
  let x := if x < 0 then 0 else x
  let y := if y < titlebarH + 22 then titlebarH + 22 else y
  let x := if (scr.w : ℤ) < wrap32 (x + ofU32 w.w) then wrap32 (scr.w - ofU32 w.w) else x
  let y := if (scr.h : ℤ) - dockH < wrap32 (y + ofU32 w.h) then
      wrap32 (scr.h - dockH - ofU32 w.h) else y
  { w with x := x, y := y }

/-- The window under the mouse; the slots are tried from the last one down. -/
def hit (mx my : ℤ) : Option (Fin 16) :=
  (List.finRange 16).reverse.find? fun i =>
    let w := c.wins i
    w.valid && decide (w.x ≤ mx ∧ mx < wrap32 (w.x + ofU32 w.w) ∧
      wrap32 (w.y - titlebarH) ≤ my ∧ my < wrap32 (w.y + ofU32 w.h))

def press (i : Fin 16) (mx my : ℤ) : Comp × List Out :=
  let c := { c with focused := some i }
  let w := c.wins i
  let tby := wrap32 (w.y - titlebarH)
  let dx := wrap32 (mx - wrap32 (w.x + 14))
  let dy := wrap32 (my - wrap32 (tby + 14))
  if wrap32 (wrap32 (dx * dx) + wrap32 (dy * dy)) ≤ 25 then
    let r := c.handleWinDestroyByIdx i
    (r.1, .winBlur w.ownerPid :: r.2)
  else if tby ≤ my ∧ my < w.y then
    ({ c with dragWin := some i, dragOffX := wrap32 (mx - w.x), dragOffY := wrap32 (my - tby) }, [])
  else (c, [.mouseBtn w.ownerPid (wrap32 (mx - w.x)) (wrap32 (my - w.y)) 1 1])

/-- The part of `route_mouse` that is not about dragging: a click on the dock, or a button event for
a window. -/
def click (scr : Screen) (mx my : ℤ) (held before : Bool) : Comp × List Out :=
  let down := held && !before
  match if down then dockHit scr mx my else none with
  | some k => (c, [.spawn (dockPaths.getD k "")])
  | none =>
    match c.hit mx my with
    | none => (c, [])
    | some i =>
      if down then c.press i mx my
      else if !held && before then
        match c.focused with
        | none => (c, [])
        | some j =>
          let w := c.wins j
          if w.valid then
            (c, [.mouseBtn w.ownerPid (wrap32 (mx - w.x)) (wrap32 (my - w.y)) 1 0])
          else (c, [])
      else (c, [])

/-- `route_mouse`; `held` and `before` are the left button now and before. -/
def routeMouse (scr : Screen) (mx my : ℤ) (held before : Bool) : Comp × List Out :=
  match c.dragWin with
  | some i =>
    if held then
      if (c.wins i).valid then (c.setWin i (c.dragTo scr mx my (c.wins i)), []) else (c, [])
    else if before then ({ c with dragWin := none }, [])
    else c.click scr mx my held before
  | none => c.click scr mx my held before

def nextWin (start : ℕ) : Option (Fin 16) :=
  ((List.range 16).map fun k => (Fin.ofNat 16 (start + k))).find? fun i => (c.wins i).valid

/-- `route_key`. -/
def routeKey (ascii : UInt8) : Comp × List Out :=
  if ascii = 9 then
    if 1 < c.winCount then
      match c.nextWin (match c.focused with | none => 0 | some i => i.val + 1) with
      | none => (c, [])
      | some i =>
        let blur := match c.focused with
          | none => []
          | some j => if (c.wins j).valid then [Out.winBlur (c.wins j).ownerPid] else []
        ({ c with focused := some i }, blur ++ [.winFocus (c.wins i).ownerPid])
    else (c, [])
  else
    match c.focused with
    | none => (c, [])
    | some i => if (c.wins i).valid then (c, [.keyDown (c.wins i).ownerPid ascii]) else (c, [])

end Comp

/-! What is drawn of a window. -/

/-- The arguments of a call of `fb_blit`. -/
structure Blit where
  dstX : ℤ
  dstY : ℤ
  w : UInt32
  h : UInt32
  src : Mapping
  deriving DecidableEq

def clippedH (scr : Screen) (w : Win) : UInt32 :=
  let maxY : ℤ := scr.h - dockH
  if maxY < wrap32 (w.y + ofU32 w.h) then
    let clipped := wrap32 (maxY - w.y)
    if 0 < clipped then toU32 clipped else 0
  else w.h

/-- `blit_window`. -/
def blitWindow (scr : Screen) (w : Win) : Option Blit :=
  match w.pixels with
  | none => none
  | some m => if clippedH scr w = 0 then none else some ⟨w.x, w.y, w.w, clippedH scr w, m⟩

/-- The bytes of its source that a blit reads at a place of the window. -/
def Blit.lastByte (b : Blit) (row col : ℕ) : ℕ := 4 * (row * b.w.toNat + col) + 4

end Exploidus.Gui
