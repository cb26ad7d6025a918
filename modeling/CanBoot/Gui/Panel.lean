import Mathlib.Algebra.Order.Ring.Rat

/-!
# Panels (`modules/gui/gui.cdo`)

Numbers are rationals: what an `f64` rounds is left out, and so are the hooks of a panel. A panel that was found in a
tree comes with the panels above it, its parent first, which is where its `parent` links lead.
-/

namespace CanBoot.Gui

/-- What hit-test and painting read of a panel. Only a scroll panel has a `scroll`. -/
structure Face where
  id : Nat
  x : Rat
  y : Rat
  w : Rat
  h : Rat
  zpos : Rat
  visible : Bool
  mouseInput : Bool
  enabled : Bool
  scroll : Option Rat

structure Panel where
  face : Face
  children : List Panel

namespace Panel

/-- `_sortedKids`. -/
def sortedKids (p : Panel) : List Panel :=
  p.children.mergeSort fun p q =>
    (if p.face.zpos ≠ q.face.zpos then p.face.zpos - q.face.zpos else (p.face.id : Rat) - q.face.id) ≤ 0

theorem sizeOf_sortedKids {p c : Panel} (kid : c ∈ p.sortedKids) : sizeOf c < sizeOf p := by
  obtain ⟨face, children⟩ := p
  have := List.sizeOf_lt_of_mem (List.mem_mergeSort.mp kid : c ∈ children)
  rw [mk.sizeOf_spec]
  omega

end Panel

/-- `_childOriginY`. -/
def Face.childOriginY (p : Face) : Rat := p.scroll.elim 0 fun scroll => -scroll

/-- A clip rectangle. -/
structure Clip where
  x : Rat
  y : Rat
  w : Rat
  h : Rat

/-- A panel's own clip rectangle in `_paintTree`, at its origin. -/
def Clip.meet (c : Clip) (p : Face) (ax ay : Rat) : Clip :=
  let nlx := max c.x ax
  let nly := max c.y ay
  ⟨nlx, nly, min (c.x + c.w) (ax + p.w) - nlx, min (c.y + c.h) (ay + p.h) - nly⟩

/-- A panel as it is painted: its origin and its clip rectangle. -/
structure Painted where
  face : Face
  above : List Face
  ox : Rat
  oy : Rat
  clip : Clip

namespace Panel

/-- `_hitTest`. -/
def hitTest (p : Panel) (above : List Face) (px py x y : Rat) : Option (Face × List Face) :=
  if !p.face.visible then none
  else
    let ax := px + p.face.x
    let ay := py + p.face.y
    if x < ax ∨ y < ay ∨ ax + p.face.w ≤ x ∨ ay + p.face.h ≤ y then none
    else
      let hit := p.sortedKids.attach.reverse.findSome? fun c =>
        c.1.hitTest (p.face :: above) ax (ay + p.face.childOriginY) x y
      hit.or (if p.face.mouseInput && p.face.enabled then some (p.face, above) else none)
termination_by sizeOf p
decreasing_by exact sizeOf_sortedKids c.2

/-- `_paintTree`: the panels it paints, in their order. -/
def paintTree (p : Panel) (above : List Face) (px py : Rat) (clip : Clip) : List Painted :=
  if !p.face.visible then []
  else
    let ax := px + p.face.x
    let ay := py + p.face.y
    let clip := clip.meet p.face ax ay
    if clip.w ≤ 0 ∨ clip.h ≤ 0 then []
    else
      ⟨p.face, above, ax, ay, clip⟩ :: p.sortedKids.attach.flatMap fun c =>
        c.1.paintTree (p.face :: above) ax (ay + p.face.childOriginY) clip
termination_by sizeOf p
decreasing_by exact sizeOf_sortedKids c.2

end Panel

/-- `ScreenToLocal` of a panel below others. -/
def screenToLocal (p : Face) (above : List Face) (x y : Rat) : Rat × Rat :=
  (x - (p :: above).foldl (· + ·.x) 0, y - (p :: above).foldl (· + ·.y) 0)

/-- `LocalToScreen`. -/
def localToScreen (p : Face) (above : List Face) (x y : Rat) : Rat × Rat :=
  ((p :: above).foldl (· + ·.x) x, (p :: above).foldl (· + ·.y) y)

end CanBoot.Gui
