import Exploidus.Gui.Protection
import Exploidus.Gui.Redraw

/-! The mouse: which window a press chooses, and what a drag does to the windows. -/
namespace Exploidus.Gui
open Function List

/-! ### The window under the mouse -/

namespace Comp

/-- The compositor after a sequence of messages and user input. -/
def run (scr : Screen) (c : Comp) (evs : List Event) : Comp :=
  evs.foldl (fun c ev => (c.step scr ev).1) c

/-- The windows that `composite_frame` draws, from the back to the front. -/
def order (c : Comp) : List (Fin 16) :=
  (finRange 16).filter (fun i => (c.wins i).valid ∧ c.focused ≠ some i ∧
    fullyOccludedByFocused c i = false) ++ c.focusedWin.toList

/-- The window that `composite_frame` draws last over a point. -/
def topmost (c : Comp) (mx my : ℤ) : Option (Fin 16) :=
  (c.order.filter fun i => (c.wins i).under mx my).getLast?

theorem compositeFrameLight_eq (fb : Fb) (font : Font) (c : Comp) (pix : Pixels) :
    compositeFrameLight fb font c pix =
      (c.order.flatMap fun i => drawWindow fb font (c.wins i) (pix i)) ++ drawDock fb font := by
  have hfilter : ∀ (p : Fin 16 → Prop) [DecidablePred p] (f : Fin 16 → List Draw) (l : List _),
      (l.flatMap fun i => if p i then f i else []) = (l.filter p).flatMap f := by
    intro p _ f l
    induction l with
    | nil => rfl
    | cons i l ih => by_cases h : p i <;> simp [h, ih]
  unfold compositeFrameLight drawBackground drawFocused order
  rw [hfilter, flatMap_append]
  cases c.focusedWin <;> simp

variable {c : Comp} {mx my : ℤ} {f : Fin 16}

theorem hit_eq (hdec : ∀ i, (c.wins i).valid → (c.wins i).decorated) : c.hit mx my =
      ((finRange 16).filter fun i => (c.wins i).valid && (c.wins i).under mx my).getLast? := by
  rw [← head?_reverse, ← filter_reverse, head?_filter]
  refine congrArg (fun p => (finRange 16).reverse.find? p) (funext fun i => ?_)
  cases hv : (c.wins i).valid with
  | false => simp [hv]
  | true =>
    have hbottom : (c.wins i).bottom = wrap32 ((c.wins i).y + ofU32 (c.wins i).h) := by
      simp only [Win.bottom, Win.top, hdec i hv, if_true, wrap32]
      omega
    simp [Win.under, Win.right, hbottom, Win.top, hdec i hv, hv]

theorem decorated_run (scr : Screen) (evs : List Event) (i : Fin 16) :
    ((init.run scr evs).wins i).valid → ((init.run scr evs).wins i).decorated := by
  induction evs using reverseRecOn generalizing i with
  | nil => exact fun h => by cases h
  | append_singleton evs ev ih =>
    unfold run at ih ⊢
    rw [foldl_concat]
    refine step_forall (Q := fun w => w.valid → w.decorated) (by decide) (fun _ _ _ h => h) ?_ ih i
    intro pid m shmId x y w h flags title px py _ _
    have hbit : (flags ||| 1) &&& 1 = 1 := by
      apply UInt32.eq_of_toBitVec_eq
      ext i hi
      simp +contextual
    simp [newWin, Win.decorated, winFlagDecorated, hbit]

theorem getLast?_finRange_filter {p : Fin 16 → Bool} (hf : p f) :
    ((finRange 16).filter p).getLast? = some f ↔ ∀ i, p i → i ≤ f := by
  have hsorted : ((finRange 16).filter p).Pairwise (· < ·) :=
    (pairwise_lt_finRange 16).filter _
  have hmem : ∀ i, i ∈ (finRange 16).filter p ↔ p i := by simp
  generalize (finRange 16).filter p = l at hsorted hmem
  obtain rfl | ⟨l, a, rfl⟩ := l.eq_nil_or_concat'
  · exact absurd ((hmem f).mpr hf) not_mem_nil
  have hlast : ∀ i, p i → i ≤ a := by
    intro i hi
    rcases mem_append.mp ((hmem i).mpr hi) with h | h
    · exact ((pairwise_append.mp hsorted).2.2 i h a (mem_singleton_self a)).le
    · exact (mem_singleton.mp h).le
  have ha : p a := (hmem a).mp (by simp)
  rw [getLast?_concat, Option.some.injEq]
  exact ⟨fun h => h ▸ hlast, fun h => le_antisymm (h a ha) (hlast f hf)⟩

theorem focusedWin_valid (h : c.focusedWin = some f) : c.focused = some f ∧ (c.wins f).valid := by
  unfold focusedWin at h
  split at h
  · cases h
  next i hi =>
    split_ifs at h with hv
    cases h
    exact ⟨hi, hv⟩

end Comp

/-- The press chooses the topmost window at a point if and only if the focused window is not there
or no window of a higher slot is. -/
theorem hit_eq_topmost_iff (scr : Screen) (evs : List Event) (mx my : ℤ) :
    let c := Comp.init.run scr evs
    c.hit mx my = c.topmost mx my ↔ ∀ f, c.focusedWin = some f → (c.wins f).under mx my →
      ∀ i, (c.wins i).valid → (c.wins i).under mx my → i ≤ f := by
  intro c
  rw [Comp.hit_eq (c := c) (Comp.decorated_run scr evs)]
  unfold Comp.topmost Comp.order
  rw [filter_append, filter_filter]
  by_cases h : ∃ f, c.focusedWin = some f ∧ (c.wins f).under mx my
  · obtain ⟨f, hf, hunder⟩ := h
    have hlast := Comp.getLast?_finRange_filter
      (p := fun i => (c.wins i).valid && (c.wins i).under mx my) (f := f)
      (by simp [(Comp.focusedWin_valid hf).2, hunder])
    rw [hf, Option.toList_some, filter_singleton, hunder, cond_true, getLast?_concat, hlast]
    simp [hunder]
  · -- the focused window is elsewhere, so it hides none of the windows at the point
    have hnone : c.focusedWin.toList.filter (fun i => (c.wins i).under mx my) = [] := by
      simpa using h
    refine iff_of_true ?_ fun f hf hunder => absurd ⟨f, hf, hunder⟩ h
    rw [hnone, append_nil]
    refine congrArg getLast? (filter_congr fun i _ => ?_)
    by_cases hi : (c.wins i).valid ∧ (c.wins i).under mx my
    · have hfocus : c.focused ≠ some i := fun hfoc =>
        h ⟨i, by simp [Comp.focusedWin, hfoc, hi.1], hi.2⟩
      have hshown : fullyOccludedByFocused c i = false := by
        unfold fullyOccludedByFocused
        split
        · rfl
        next f hf =>
          simp only [decide_eq_false_iff_not]
          intro hocc
          refine h ⟨f, hf, ?_⟩
          simp only [Win.under, decide_eq_true_eq] at hi ⊢
          omega
      simp [hi, hfocus, hshown]
    · by_cases hv : (c.wins i).valid <;> simp_all

/-- Two windows that overlap, the first of which gets the focus back. -/
def sampleOverlap : List Event :=
  [sampleCreate 64 64, .message 6 (some ⟨8192, 4096⟩) (.winCreate 2 120 120 64 64 0 [66]), .key 9]

theorem sampleOverlap_hit :
    let c := Comp.init.run sampleScreen sampleOverlap
    c.hit 130 140 = some 1 ∧ c.topmost 130 140 = some 0 := by
  decide

/-! ### Dragging -/

/-- A press on a title bar: the window, its place and that of the mouse, and whether the window
still exists. -/
structure Grip where
  slot : Fin 16
  x : ℤ
  y : ℤ
  mx : ℤ
  my : ℤ
  live : Bool
  deriving DecidableEq

/-- What the mouse holds after an event. When the button goes down no drag is in progress, since its
release has ended the last one. -/
def Grip.next (scr : Screen) (c : Comp) (g : Option Grip) : Event → Option Grip
  | .mouse mx my held before =>
    if held = false then none
    else match g, c.dragWin, (c.routeMouse scr mx my held before).1.dragWin with
      | some p, _, _ => some p
      | none, none, some i => some ⟨i, (c.wins i).x, (c.wins i).y, mx, my, true⟩
      | _, _, _ => none
  | ev => g.map fun p => { p with live := p.live && ((c.step scr ev).1.wins p.slot).valid }

/-- The place of the window when the mouse has moved: as far from where it was as the mouse, and
inside the screen area. -/
def Grip.place (scr : Screen) (p : Grip) (w : Win) (mx my : ℤ) : ℤ × ℤ :=
  (min (max (p.x + (mx - p.mx)) 0) (scr.w - w.w.toNat),
    min (max (p.y + (my - p.my)) (titlebarH + 22)) (scr.h - dockH - w.h.toNat))

/-- The held mouse moves its window and no other; when its window is gone it moves none. -/
def DragOk (scr : Screen) (c : Comp) (g : Option Grip) : Event → Prop
  | .mouse mx my true before => ∀ p ∈ g, (c.routeMouse scr mx my true before).1.wins =
      if p.live then
        let (x, y) := p.place scr (c.wins p.slot) mx my
        update c.wins p.slot { c.wins p.slot with x := x, y := y }
      else c.wins
  | _ => True

/-- The window that is dragged is not destroyed by a message; and where the mouse is moved to, the
edge of the screen area hides that the window jumps up by the height of its title bar. -/
def DragMeets (scr : Screen) (c : Comp) (g : Option Grip) : Event → Prop
  | .message _ _ (.winDestroy shmId) => ∀ p ∈ g, c.findWin shmId ≠ some p.slot
  | .mouse mx my true _ => ∀ p ∈ g, |p.x + (mx - p.mx)| < 2 ^ 30 ∧ |p.y + (my - p.my)| < 2 ^ 30 ∧
      (c.wins p.slot).w.toNat < 2 ^ 30 ∧ (c.wins p.slot).h.toNat < 2 ^ 30 ∧
      (p.y + (my - p.my) ≤ titlebarH + 22 ∨
        scr.h - dockH + titlebarH ≤ p.y + (my - p.my) + (c.wins p.slot).h.toNat)
  | _ => True

/-- `P` holds at every event of a run. -/
def AlongDrag (P : Comp → Option Grip → Event → Prop) (scr : Screen) :
    Comp → Option Grip → List Event → Prop
  | _, _, [] => True
  | c, g, ev :: evs => P c g ev ∧ AlongDrag P scr (c.step scr ev).1 (Grip.next scr c g ev) evs

/-- The compositor drags the window that the mouse holds. -/
structure Holds (c : Comp) (p : Grip) : Prop where
  dragWin : c.dragWin = some p.slot
  offX : c.dragOffX = wrap32 (p.mx - p.x)
  offY : c.dragOffY = wrap32 (p.my - wrap32 (p.y - titlebarH))
  valid : (c.wins p.slot).valid
  live : p.live

section
variable {scr : Screen} {c : Comp} {g : Option Grip} {p : Grip}

theorem Holds.dragTo (h : Holds c p) {mx my : ℤ} {before : Bool}
    (hm : DragMeets scr c (some p) (.mouse mx my true before)) :
    c.dragTo scr mx my (c.wins p.slot) =
      { c.wins p.slot with
        x := (p.place scr (c.wins p.slot) mx my).1
        y := (p.place scr (c.wins p.slot) mx my).2 } := by
  obtain ⟨hx, hy, hw, hh, hedge⟩ := hm p rfl
  rw [abs_lt] at hx hy
  have hW := scr.w_lt
  have hH := scr.h_lt
  have hdock := scr.dock_le
  have hx' : wrap32 (mx - c.dragOffX) = p.x + (mx - p.mx) := by
    rw [h.offX]
    unfold wrap32
    omega
  have hy' : wrap32 (my - c.dragOffY) = p.y + (my - p.my) - titlebarH := by
    rw [h.offY]
    unfold wrap32 titlebarH
    omega
  unfold Comp.dragTo Grip.place
  simp only [hx', hy', ofU32_of_lt (hw.trans (by decide)), ofU32_of_lt (hh.trans (by decide))]
  unfold wrap32 titlebarH dockH
  unfold titlebarH dockH at hedge
  congr 1 <;> split_ifs <;> omega

theorem routeKey_drag (c : Comp) (ascii : UInt8) : (c.routeKey ascii).1.drag = c.drag := by
  unfold Comp.routeKey
  repeat' split
  all_goals rfl

theorem handle_valid {map : Option Mapping} {pid : UInt32} {msg : Msg} {i : Fin 16}
    (hi : (c.wins i).valid) (hm : ∀ shmId, msg = .winDestroy shmId → c.findWin shmId ≠ some i) :
    ((c.handle scr map pid msg).1.wins i).valid := by
  rcases (c.handle_cases scr map pid msg).2 with hwins | ⟨j, new, hnew, hwins⟩ <;> rw [hwins]
  · exact hi
  by_cases hij : i = j
  · subst hij
    rw [update_self]
    cases hnew with
    | unmapped hfree => exact absurd (hfree.symm.trans hi) (by decide)
    | created | moved | damaged => first | rfl | exact hi
    | destroyed hfound => exact absurd hfound (hm _ rfl)
  · rwa [update_of_ne hij]

theorem Holds.of_drag {c' : Comp} (hg : ∀ p ∈ g, Holds c p) (hdrag : c'.drag = c.drag)
    (hv : ∀ p ∈ g, (c'.wins p.slot).valid) :
    ∀ p ∈ g.map fun p => { p with live := p.live && (c'.wins p.slot).valid }, Holds c' p := by
  simp only [Comp.drag, Prod.mk.injEq] at hdrag
  obtain ⟨hwin, hx, hy⟩ := hdrag
  simp only [Option.mem_map, forall_exists_index, and_imp, forall_apply_eq_imp_iff₂]
  intro p hp
  have h := hg p hp
  exact ⟨hwin.trans h.dragWin, hx.trans h.offX, hy.trans h.offY, hv p hp, by simp [h.live, hv p hp]⟩

/-- A press after which a window is dragged. -/
theorem Holds.press {c' : Comp} {mx my : ℤ} {i : Fin 16} (hr : Comp.Routed scr mx my c c')
    (hnone : c.dragWin = none) (h : c'.dragWin = some i) :
    Holds c' ⟨i, (c.wins i).x, (c.wins i).y, mx, my, true⟩ := by
  cases hr with
  | idle | clicked | dragged => cases hnone.symm.trans h
  | released => cases h
  | closed =>
    simp only [Comp.handleWinDestroyByIdx, hnone] at h
    split at h <;> simp_all
  | grabbed hi =>
    cases h
    have hvalid := List.find?_some hi
    simp only [Bool.and_eq_true] at hvalid
    exact ⟨rfl, rfl, rfl, hvalid.1, rfl⟩

theorem Holds.step {ev : Event} (hg : ∀ p ∈ g, Holds c p) (hm : DragMeets scr c g ev) :
    DragOk scr c g ev ∧ ∀ p ∈ Grip.next scr c g ev, Holds (c.step scr ev).1 p := by
  cases ev with
  | message pid map msg =>
    refine ⟨trivial, .of_drag hg (c.handle_cases scr map pid msg).1 fun p hp => ?_⟩
    refine handle_valid (hg p hp).valid ?_
    rintro shmId rfl
    exact hm p hp
  | key ascii =>
    refine ⟨trivial, .of_drag hg (routeKey_drag c ascii) fun p hp => ?_⟩
    exact (congrFun (c.routeKey_wins ascii) p.slot).symm ▸ (hg p hp).valid
  | mouse mx my held before =>
    cases held with
    | false => exact ⟨trivial, fun p hp => by cases hp⟩
    | true =>
      cases g with
      | none =>
        refine ⟨fun p hp => (by cases hp), fun p hp => ?_⟩
        simp only [Grip.next, Bool.true_eq_false, if_false] at hp
        split at hp
        next heq => cases heq
        next hnone hi =>
          cases hp
          exact .press (c.routeMouse_cases scr mx my true before) hnone hi
        · cases hp
      | some p =>
        have h := hg p rfl
        have hroute : (c.routeMouse scr mx my true before).1 =
            c.setWin p.slot (c.dragTo scr mx my (c.wins p.slot)) := by
          simp [Comp.routeMouse, h.dragWin, h.valid]
        rw [h.dragTo hm] at hroute
        constructor
        · rintro q ⟨⟩
          rw [hroute, if_pos h.live]
          rfl
        · rintro q ⟨⟩
          change Holds (c.routeMouse scr mx my true before).1 p
          rw [hroute]
          exact ⟨h.dragWin, h.offX, h.offY, by simp [Comp.setWin, h.valid], h.live⟩

end

end Exploidus.Gui
