import Exploidus.Gui.Windows

/-! Which processes change which windows, and what is read of their regions. -/
namespace Exploidus.Gui
open Function

/-- A message from a process, with what `shm_map` gives for it, or user input. -/
inductive Event where
  | message (fromPid : UInt32) (map : Option Mapping) (msg : Msg)
  | mouse (mx my : ℤ) (held before : Bool)
  | key (ascii : UInt8)

def Comp.step (scr : Screen) (c : Comp) : Event → Comp × List Out
  | .message fromPid map msg => c.handle scr map fromPid msg
  | .mouse mx my held before => c.routeMouse scr mx my held before
  | .key ascii => c.routeKey ascii

/-- Everything of a window but whether it has to be painted and how far it has faded in. -/
structure Win.Same (w w' : Win) : Prop where
  shmId : w'.shmId = w.shmId
  pixels : w'.pixels = w.pixels
  x : w'.x = w.x
  y : w'.y = w.y
  width : w'.w = w.w
  height : w'.h = w.h
  flags : w'.flags = w.flags
  title : w'.title = w.title
  ownerPid : w'.ownerPid = w.ownerPid
  valid : w'.valid = w.valid

def Comp.Guards (scr : Screen) (c : Comp) : Event → Prop
  | .message fromPid map msg => ∀ i, (c.wins i).valid = true → (c.wins i).ownerPid ≠ fromPid →
    (c.wins i).Same ((c.handle scr map fromPid msg).1.wins i)
  | .mouse _ _ _ _ | .key _ => True

/-- Every pixel of a window that is passed to `fb_blit` lies inside its region. -/
def Comp.BlitsInside (scr : Screen) (c : Comp) : Prop :=
  ∀ i, (c.wins i).valid = true → ∀ b, blitWindow scr (c.wins i) = some b →
    (c.wins i).pixels = some b.src ∧
      ∀ row < b.h.toNat, ∀ col < b.w.toNat, b.lastByte row col ≤ b.src.size

/-- Windows are destroyed and moved by their owners, and a region is as large as its window. -/
def Comp.Allows (c : Comp) : Event → Prop
  | .message fromPid map msg =>
    match msg with
    | .winDestroy shmId | .winMove shmId _ _ =>
      ∀ i, c.findWin shmId = some i → (c.wins i).ownerPid = fromPid
    | .winCreate _ _ _ w h _ _ => ∀ m, map = some m → w.toNat * h.toNat * 4 ≤ m.size
    | .damage _ _ _ _ _ | .ping | .other => True
  | .mouse _ _ _ _ | .key _ => True

def GuardedAlong (scr : Screen) : Comp → List Event → Prop
  | c, [] => c.BlitsInside scr
  | c, ev :: evs =>
    c.BlitsInside scr ∧ c.Guards scr ev ∧ GuardedAlong scr (c.step scr ev).1 evs

def AllowsAll (scr : Screen) : Comp → List Event → Prop
  | _, [] => True
  | c, ev :: evs => c.Allows ev ∧ AllowsAll scr (c.step scr ev).1 evs

/-! Regions. -/

theorem clippedH_le (scr : Screen) (w : Win) : (clippedH scr w).toNat ≤ w.h.toNat := by
  unfold clippedH
  dsimp only
  split
  · rename_i hcut
    split
    · rename_i hpos
      have hscr := scr.dock_le
      have hlt := scr.h_lt
      have hh := w.h.toNat_lt
      unfold ofU32 at hcut
      unfold toU32
      rw [UInt32.toNat_ofNat']
      unfold wrap32 dockH at *
      omega
    · simp
  · exact le_rfl

theorem blitWindow_le {scr : Screen} {w : Win} {b : Blit} (h : blitWindow scr w = some b) :
    w.pixels = some b.src ∧ b.w = w.w ∧ b.h.toNat ≤ w.h.toNat := by
  unfold blitWindow at h
  split at h
  · simp at h
  rename_i m hpix
  split at h
  · simp at h
  obtain rfl := Option.some.inj h
  exact ⟨hpix, rfl, clippedH_le scr w⟩

def Win.Backed (w : Win) : Prop :=
  w.valid = true → ∃ m, w.pixels = some m ∧ w.w.toNat * w.h.toNat * 4 ≤ m.size

theorem lastByte_le {b : Blit} {row col n : ℕ} (hrow : row < b.h.toNat) (hcol : col < b.w.toNat)
    (hn : b.w.toNat * b.h.toNat * 4 ≤ n) : b.lastByte row col ≤ n := by
  have hle : (row + 1) * b.w.toNat ≤ b.h.toNat * b.w.toNat := Nat.mul_le_mul_right _ hrow
  unfold Blit.lastByte
  rw [Nat.add_mul, Nat.one_mul, Nat.mul_comm b.h.toNat] at hle
  omega

theorem blitsInside_of_backed {scr : Screen} {c : Comp} (h : ∀ i, (c.wins i).Backed) :
    c.BlitsInside scr := by
  intro i hvalid b hb
  obtain ⟨hpix, hw, hh⟩ := blitWindow_le hb
  obtain ⟨m, hm, hsize⟩ := h i hvalid
  obtain rfl : m = b.src := Option.some.inj (hm.symm.trans hpix)
  refine ⟨hpix, fun row hrow col hcol => lastByte_le hrow hcol ?_⟩
  rw [hw]
  exact (Nat.mul_le_mul_right 4 (Nat.mul_le_mul_left _ hh)).trans hsize

/-! The messages, each of which changes at most one slot. -/

theorem Win.Same.refl (w : Win) : w.Same w := ⟨rfl, rfl, rfl, rfl, rfl, rfl, rfl, rfl, rfl, rfl⟩

theorem backed_blank : Win.blank.Backed := by simp [Win.Backed, Win.blank]

namespace Comp
variable {scr : Screen} {c c' : Comp} {fromPid : UInt32} {i : Fin 16} {w : Win}

theorem slot_some {p : Win → Bool} (h : c.slot p = some i) : p (c.wins i) :=
  List.find?_some (p := fun i => p (c.wins i)) h

theorem allocWin_some (h : c.allocWin = some i) : (c.wins i).valid = false := by
  simpa using slot_some h

/-- What a message makes of the one slot that it changes. -/
inductive Changed (c : Comp) (map : Option Mapping) (pid : UInt32) : Msg → Fin 16 → Win → Prop
  | unmapped {i shmId x y w h flags title} (hfree : (c.wins i).valid = false) :
    Changed c map pid (.winCreate shmId x y w h flags title) i Win.blank
  | created {i shmId x y w h flags title m} (px py : ℤ) (hfree : (c.wins i).valid = false)
      (hmap : map = some m) : Changed c map pid (.winCreate shmId x y w h flags title) i
        (newWin m pid shmId px py w h flags title)
  | destroyed {i shmId} (hi : c.findWin shmId = some i) :
    Changed c map pid (.winDestroy shmId) i Win.blank
  | moved {i shmId newX newY} (hi : c.findWin shmId = some i) :
    Changed c map pid (.winMove shmId newX newY) i
      { c.wins i with x := newX, y := wrap32 (newY + titlebarH), dirty := true }
  | damaged {i shmId dx dy dw dh} :
    Changed c map pid (.damage shmId dx dy dw dh) i { c.wins i with dirty := true }

/-- The variables of a drag. -/
def drag (c : Comp) : Option (Fin 16) × ℤ × ℤ := (c.dragWin, c.dragOffX, c.dragOffY)

theorem handle_cases (c : Comp) (scr : Screen) (map : Option Mapping) (pid : UInt32) (msg : Msg) :
    (c.handle scr map pid msg).1.drag = c.drag ∧ ((c.handle scr map pid msg).1.wins = c.wins ∨
      ∃ i new, Changed c map pid msg i new ∧
        (c.handle scr map pid msg).1.wins = update c.wins i new) := by
  cases msg with
  | winCreate shmId x y w h flags title =>
    have hplace : (c.place scr x y).1.drag = c.drag ∧ (c.place scr x y).1.wins = c.wins := by
      unfold place
      split <;> exact ⟨rfl, rfl⟩
    simp only [handle, handleWinCreate]
    split
    · exact ⟨rfl, .inl rfl⟩
    split
    · exact ⟨rfl, .inl rfl⟩
    next i hi =>
      generalize c.place scr x y = r at hplace ⊢
      obtain ⟨hdrag, hwins⟩ := hplace
      cases map with
      | none => exact ⟨hdrag, .inr ⟨i, _, .unmapped (allocWin_some hi), by rw [← hwins]; rfl⟩⟩
      | some m =>
        exact ⟨hdrag, .inr ⟨i, _, .created r.2.1 r.2.2 (allocWin_some hi) rfl, by rw [← hwins]; rfl⟩⟩
  | winDestroy shmId =>
    simp only [handle, handleWinDestroy]
    split
    · exact ⟨rfl, .inl rfl⟩
    next i hi => exact ⟨rfl, .inr ⟨i, _, .destroyed hi, rfl⟩⟩
  | winMove shmId newX newY =>
    simp only [handle, handleWinMove]
    split
    · exact ⟨rfl, .inl rfl⟩
    next i hi => exact ⟨rfl, .inr ⟨i, _, .moved hi, rfl⟩⟩
  | damage shmId dx dy dw dh =>
    simp only [handle, handleDamage]
    split
    · exact ⟨rfl, .inl rfl⟩
    next i _ =>
      split
      · exact ⟨rfl, .inr ⟨i, _, .damaged, rfl⟩⟩
      · split <;> exact ⟨rfl, .inr ⟨i, _, .damaged, rfl⟩⟩
      · exact ⟨rfl, .inr ⟨i, _, .damaged, rfl⟩⟩
  | ping => exact ⟨rfl, .inl rfl⟩
  | other => exact ⟨rfl, .inl rfl⟩

theorem same_update {new : Win} (hwins : c'.wins = update c.wins i new)
    (hi : (c.wins i).valid → (c.wins i).ownerPid ≠ fromPid → (c.wins i).Same new) :
    ∀ j, (c.wins j).valid → (c.wins j).ownerPid ≠ fromPid → (c.wins j).Same (c'.wins j) := by
  intro j hvalid howner
  rw [hwins]
  by_cases hij : j = i
  · subst hij
    rw [update_self]
    exact hi hvalid howner
  · rw [update_of_ne hij]
    exact Win.Same.refl _

theorem same_of_eq (hwins : c'.wins = c.wins) (i : Fin 16) : (c.wins i).Same (c'.wins i) := by
  rw [hwins]
  exact Win.Same.refl _

theorem guards_of_allows {ev : Event} (h : c.Allows ev) : c.Guards scr ev := by
  cases ev with
  | mouse mx my held before => trivial
  | key ascii => trivial
  | message fromPid map msg =>
    rcases (c.handle_cases scr map fromPid msg).2 with hwins | ⟨i, new, hnew, hwins⟩
    · exact fun i _ _ => same_of_eq hwins i
    refine same_update hwins fun hvalid hne => ?_
    cases hnew with
    | unmapped hfree | created _ _ hfree => exact absurd (hfree.symm.trans hvalid) (by decide)
    | destroyed hi | moved hi => exact absurd (h i hi) hne
    | damaged => exact ⟨rfl, rfl, rfl, rfl, rfl, rfl, rfl, rfl, rfl, rfl⟩

/-! User input. -/

/-- What the mouse makes of the compositor. -/
inductive Routed (scr : Screen) (mx my : ℤ) (c : Comp) : Comp → Prop
  | idle : Routed scr mx my c c
  | dragged {i : Fin 16} (hi : c.dragWin = some i) (hvalid : (c.wins i).valid) :
    Routed scr mx my c (c.setWin i (c.dragTo scr mx my (c.wins i)))
  | released : Routed scr mx my c { c with dragWin := none }
  | closed {i : Fin 16} : Routed scr mx my c (({ c with focused := some i }).handleWinDestroyByIdx i).1
  | grabbed {i : Fin 16} (hi : c.hit mx my = some i) : Routed scr mx my c
      { c with
        focused := some i, dragWin := some i, dragOffX := wrap32 (mx - (c.wins i).x)
        dragOffY := wrap32 (my - wrap32 ((c.wins i).y - titlebarH)) }
  | clicked {i : Fin 16} : Routed scr mx my c { c with focused := some i }

theorem click_cases (c : Comp) (scr : Screen) (mx my : ℤ) (held before : Bool) :
    Routed scr mx my c (c.click scr mx my held before).1 := by
  simp only [click]
  split
  · exact .idle
  split
  · exact .idle
  next i hi =>
    split
    · simp only [press]
      split
      · exact .closed
      · split
        · exact .grabbed hi
        · exact .clicked
    split
    · split
      · exact .idle
      · split <;> exact .idle
    · exact .idle

theorem routeMouse_cases (c : Comp) (scr : Screen) (mx my : ℤ) (held before : Bool) :
    Routed scr mx my c (c.routeMouse scr mx my held before).1 := by
  unfold routeMouse
  split
  next i hi =>
    split
    · split
      next hvalid => exact .dragged hi hvalid
      · exact .idle
    · split
      · exact .released
      · exact c.click_cases scr mx my held before
  · exact c.click_cases scr mx my held before

theorem routeKey_wins (c : Comp) (ascii : UInt8) : (c.routeKey ascii).1.wins = c.wins := by
  unfold routeKey
  split
  · split
    · split <;> rfl
    · rfl
  · split
    · rfl
    · split <;> rfl

/-! Runs. -/

/-- What holds of the empty slot and of new windows, and does not depend on where a window is, holds
of every window after a step. -/
theorem step_forall {Q : Win → Prop} {ev : Event} (hblank : Q Win.blank)
    (hmoved : ∀ {w : Win} (x y : ℤ) (dirty : Bool), Q w →
      Q { w with x := x, y := y, dirty := dirty })
    (hnew : ∀ pid m shmId x y w h flags title px py,
      ev = .message pid (some m) (.winCreate shmId x y w h flags title) →
        Q (newWin m pid shmId px py w h flags title))
    (h : ∀ i, Q (c.wins i)) : ∀ i, Q ((c.step scr ev).1.wins i) := by
  have hsame : ∀ {c' : Comp}, c'.wins = c.wins → ∀ i, Q (c'.wins i) := by
    intro c' hwins
    rwa [hwins]
  have hupdate : ∀ {c' : Comp} {i : Fin 16} {new : Win}, c'.wins = update c.wins i new → Q new →
      ∀ j, Q (c'.wins j) := by
    intro c' i new hwins hq j
    rw [hwins]
    by_cases hij : j = i
    · rwa [hij, update_self]
    · rw [update_of_ne hij]
      exact h j
  cases ev with
  | mouse mx my held before =>
    have hroute := c.routeMouse_cases scr mx my held before
    change ∀ i, Q ((c.routeMouse scr mx my held before).1.wins i)
    generalize (c.routeMouse scr mx my held before).1 = c' at hroute ⊢
    cases hroute with
    | idle | released | grabbed | clicked => exact hsame rfl
    | dragged => exact hupdate rfl (hmoved _ _ _ (h _))
    | closed =>
      unfold handleWinDestroyByIdx
      split
      · exact hupdate rfl hblank
      · exact hsame rfl
  | key ascii => exact hsame (routeKey_wins c ascii)
  | message fromPid map msg =>
    rcases (c.handle_cases scr map fromPid msg).2 with hwins | ⟨i, new, hnew, hwins⟩
    · exact hsame hwins
    refine hupdate hwins ?_
    cases hnew with
    | unmapped | destroyed => exact hblank
    | created px py _ hmap =>
      cases hmap
      exact hnew _ _ _ _ _ _ _ _ _ _ _ rfl
    | moved | damaged => exact hmoved _ _ _ (h i)

theorem backed_step (h : ∀ i, (c.wins i).Backed) {ev : Event} (hev : c.Allows ev) :
    ∀ i, ((c.step scr ev).1.wins i).Backed := by
  refine step_forall backed_blank (fun _ _ _ hw => hw) ?_ h
  rintro pid m shmId x y w h flags title px py rfl -
  exact ⟨m, rfl, hev m rfl⟩

theorem guardedAlong_of_backed {evs : List Event} (h : ∀ i, (c.wins i).Backed)
    (hevs : AllowsAll scr c evs) : GuardedAlong scr c evs := by
  induction evs generalizing c with
  | nil => exact blitsInside_of_backed h
  | cons ev evs ih =>
    exact ⟨blitsInside_of_backed h, guards_of_allows hevs.1, ih (backed_step h hevs.1) hevs.2⟩

end Comp

/-- In every run in which windows are destroyed and moved by their owners and regions are as large
as their windows, no message changes a window of another process, and all that is passed to
`fb_blit` lies inside the region of its window. -/
theorem protection_run (scr : Screen) (evs : List Event) (h : AllowsAll scr Comp.init evs) :
    GuardedAlong scr Comp.init evs :=
  Comp.guardedAlong_of_backed (fun _ => backed_blank) h

def sampleScreen : Screen := ⟨1024, 768, by decide, by decide, by decide⟩

/-- Process 5 creates a window of the given size over a region of one page. -/
def sampleCreate (w h : UInt32) : Event :=
  .message 5 (some ⟨4096, 4096⟩) (.winCreate 1 100 100 w h 0 [65])

theorem sampleCreate_guarded : GuardedAlong sampleScreen Comp.init
      [sampleCreate 16 16, .message 6 none (.damage 1 0 0 4 4), .mouse 110 110 true false] := by
  apply protection_run
  refine ⟨?_, trivial, trivial, trivial⟩
  rintro m ⟨⟩
  decide

/-- Process 6 moves the window of process 5, and a window of 64 by 64 pixels is read from a region
of 4096 bytes. -/
theorem sampleCreate_unguarded : ¬ GuardedAlong sampleScreen Comp.init
        [sampleCreate 16 16, .message 6 none (.winMove 1 300 300)] ∧
      ¬ GuardedAlong sampleScreen Comp.init [sampleCreate 64 64] := by
  constructor
  · rintro ⟨-, -, -, hguards, -⟩
    have hsame := hguards 0 (by decide) (by decide)
    exact absurd hsame.x (by decide)
  rintro ⟨-, -, hinside⟩
  have hblit : blitWindow sampleScreen
      ((Comp.init.step sampleScreen (sampleCreate 64 64)).1.wins 0) =
        some ⟨100, 128, 64, 64, ⟨4096, 4096⟩⟩ := by
    decide
  have hlast := (hinside 0 (by decide) _ hblit).2 63 (by decide) 63 (by decide)
  exact absurd hlast (by decide)

end Exploidus.Gui
