import CanBoot.Lib.Signed
import CanBoot.Lib.Words

/-!
# The framebuffer (`hal/display/display.c`)

The state is the framebuffer's memory, byte by byte from `g_fb->addr` on; `g_fb` itself is a parameter, none where it
is `NULL`. Coordinates are `int32_t`, so every sum that C computes in them is checked (`Prog.int32`).
-/

namespace CanBoot.Display

open Lib

/-- The fields of `struct canboot_fb` that the primitives read. -/
structure Fb where
  width : UInt32
  height : UInt32
  pitch : UInt32
  redMaskShift : UInt8
  greenMaskShift : UInt8
  blueMaskShift : UInt8
  deriving DecidableEq, Repr

/-- `hal_display_width`. -/
def halDisplayWidth (gFb : Option Fb) : Int := gFb.elim 0 fun fb => toInt32 fb.width.toNat

/-- `hal_display_height`. -/
def halDisplayHeight (gFb : Option Fb) : Int := gFb.elim 0 fun fb => toInt32 fb.height.toNat

/-- `encode_pixel`. C has no shift by 32 or more; here such a shift drops the channel. -/
def encodePixel (fb : Fb) (rgb : UInt32) : Nat :=
  let r := (rgb.toNat >>> 16) &&& 0xFF
  let g := (rgb.toNat >>> 8) &&& 0xFF
  let b := rgb.toNat &&& 0xFF
  u32 (r <<< fb.redMaskShift.toNat) ||| u32 (g <<< fb.greenMaskShift.toNat) ||| u32 (b <<< fb.blueMaskShift.toNat)

/-- `fb_row`, as an offset from `g_fb->addr`. -/
def fbRow (fb : Fb) (y : Int) : Nat := y.toNat * fb.pitch.toNat

/-- The test before a pixel is touched. -/
def onScreen (fb : Fb) (x y : Int) : Bool :=
  0 ≤ x && 0 ≤ y && x < toInt32 fb.width.toNat && y < toInt32 fb.height.toNat

/-- `fb_row(y)[x] = raw`. -/
def putPixel (fb : Fb) (raw : Nat) (b : Buf) (x y : Int) : Buf := putLe32 b (fbRow fb y + 4 * x.toNat) raw

/-! ## `hal_display_line` -/

/-- The variables of the loop of `hal_display_line`, and the points it has come by, which the code does not keep. -/
structure LineVars where
  x0 : Int
  y0 : Int
  err : Int
  visited : List (Int × Int)

/-- What the loop does not change. -/
structure LineConsts where
  x1 : Int
  y1 : Int
  dx : Int
  dy : Int
  sx : Int
  sy : Int
  raw : Nat

/-- `if (c) v += d;` -/
def addIf (c : Bool) (v d : Int) : Prog Buf Int := if c then Prog.int32 (v + d) else pure v

/-- `(a > b) ? (a - b) : (b - a)`. -/
def gap (a b : Int) : Prog Buf Int := if a > b then Prog.int32 (a - b) else Prog.int32 (b - a)

/-- A turn of the loop of `hal_display_line`. -/
def lineTurn (fb : Fb) : LineConsts → LineVars → Prog Buf (LineVars ⊕ List (Int × Int))
  | ⟨x1, y1, dx, dy, sx, sy, raw⟩, ⟨x0, y0, err, visited⟩ => do
    Prog.modify fun b => if onScreen fb x0 y0 then putPixel fb raw b x0 y0 else b
    if x0 = x1 ∧ y0 = y1 then return .inr (visited ++ [(x0, y0)])
    else
      let e2 ← Prog.int32 (2 * err)
      let errX ← addIf (e2 ≥ dy) err dy
      let xNext ← addIf (e2 ≥ dy) x0 sx
      let errY ← addIf (e2 ≤ dx) errX dx
      let yNext ← addIf (e2 ≤ dx) y0 sy
      return .inl ⟨xNext, yNext, errY, visited ++ [(x0, y0)]⟩

/-- `hal_display_line`, with the points it visits. -/
def halDisplayLine (gFb : Option Fb) (x0 y0 x1 y1 : Int) (color : UInt32) : Prog Buf (List (Int × Int)) :=
  match gFb with
  | none => pure []
  | some fb => do
    let dx ← gap x1 x0
    let dist ← gap y1 y0
    let dy ← Prog.int32 (-dist)
    let sx := if x0 < x1 then 1 else -1
    let sy := if y0 < y1 then 1 else -1
    let err ← Prog.int32 (dx + dy)
    Prog.loop (lineTurn fb ⟨x1, y1, dx, dy, sx, sy, encodePixel fb color⟩) ⟨x0, y0, err, []⟩

/-! ## `hal_display_copy_rect` -/

/-- `forward ? k : (n - 1 - k)`. -/
def direct (forward : Bool) (n : Int) (k : Nat) : Prog Buf Int := if forward then pure (k : Int) else Prog.int32 (n - 1 - k)

/-- A round of the inner loop of `hal_display_copy_rect`. -/
def copyCol (fb : Fb) (sx dx w : Int) (srow drow : Nat) (col : Nat) (_ : Unit) : Prog Buf Unit := do
  let leftToRight := decide (dx ≤ sx)
  let c ← direct leftToRight w col
  let sxc ← Prog.int32 (sx + c)
  let dxc ← Prog.int32 (dx + c)
  if sxc < 0 ∨ sxc ≥ toInt32 fb.width.toNat then pure ()
  else if dxc < 0 ∨ dxc ≥ toInt32 fb.width.toNat then pure ()
  else Prog.modify fun b => putLe32 b (drow + 4 * dxc.toNat) (le32 b (srow + 4 * sxc.toNat))

/-- A round of the outer loop. -/
def copyRow (fb : Fb) (sx sy dx dy w h : Int) (row : Nat) (_ : Unit) : Prog Buf Unit := do
  let topDown := decide (dy ≤ sy)
  let r ← direct topDown h row
  let syR ← Prog.int32 (sy + r)
  let dyR ← Prog.int32 (dy + r)
  if syR < 0 ∨ syR ≥ toInt32 fb.height.toNat then pure ()
  else if dyR < 0 ∨ dyR ≥ toInt32 fb.height.toNat then pure ()
  else Prog.forAcc (copyCol fb sx dx w (fbRow fb syR) (fbRow fb dyR)) (List.range w.toNat) ()

/-- `hal_display_copy_rect`. -/
def halDisplayCopyRect (gFb : Option Fb) (sx sy dx dy w h : Int) : Prog Buf Unit :=
  match gFb with
  | none => pure ()
  | some fb =>
    if w ≤ 0 ∨ h ≤ 0 then pure ()
    else Prog.forAcc (copyRow fb sx sy dx dy w h) (List.range h.toNat) ()

end CanBoot.Display
