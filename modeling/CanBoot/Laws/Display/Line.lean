import CanBoot.Laws.Display.Blit
import CanBoot.Lib.Raster
import Mathlib.Data.List.Chain
import Mathlib.Tactic.FieldSimp
import Mathlib.Tactic.Ring

/-!
# Lines

The loop of `hal_display_line` ends only when it hits the end point exactly. It is the walk of `Lib.Raster`, turned
into the right quadrant: `err` is the distance of the point from the line, so the walk's laws give the number of
turns, the end point, and the bounds within which no sum overflows (`line_exact`).
-/

namespace CanBoot.Display

open Lib Lib.Raster Lib.Prog List

/-- The points of `hal_display_line` are where they should be: from one end to the other, with one point for each unit
of the longer axis, in steps towards the end, and at most half a pixel off the ideal line along the shorter axis. -/
structure Traced (x0 y0 x1 y1 : Int) (points : List (Int × Int)) : Prop where
  count : points.length = (max |x1 - x0| |y1 - y0|).toNat + 1
  first : points.head? = some (x0, y0)
  last : points.getLast? = some (x1, y1)
  steps : points.IsChain fun p q =>
    (q.1 = p.1 ∨ q.1 = p.1 + (x1 - p.1).sign) ∧ (q.2 = p.2 ∨ q.2 = p.2 + (y1 - p.2).sign)
  near : ∀ p ∈ points, if |y1 - y0| ≤ |x1 - x0| then |(p.2 : ℚ) - (y0 + (p.1 - x0) * ((y1 - y0) / (x1 - x0)))| ≤ 1 / 2
    else |(p.1 : ℚ) - (x0 + (p.2 - y0) * ((x1 - x0) / (y1 - y0)))| ≤ 1 / 2

/-- The direction of a line along an axis. -/
def heading (from_ to_ : Int) : Int := if from_ < to_ then 1 else -1

theorem heading_eq (m n : Int) : heading m n = 1 ∨ heading m n = -1 := by
  unfold heading
  split
  · exact .inl rfl
  · exact .inr rfl

/-- The end, from the start. -/
theorem heading_mul (m n : Int) : m + heading m n * |n - m| = n := by
  unfold heading
  split
  next up => rw [abs_of_pos (by omega)]; omega
  next down => rw [abs_of_nonpos (by omega)]; omega

theorem heading_mul_inj {s i j : Int} (sign : s = 1 ∨ s = -1) : s * i = s * j ↔ i = j := by
  rcases sign with rfl | rfl <;> omega

/-- The grid point of the walk's point `p`. -/
def place (x0 y0 sx sy : Int) (p : Int × Int) : Int × Int := (x0 + sx * p.1, y0 + sy * p.2)

/-- What the loop draws at a point. -/
def paint (fb : Fb) (raw : Nat) (b : Buf) (p : Int × Int) : Buf :=
  if onScreen fb p.1 p.2 then putPixel fb raw b p.1 p.2 else b

theorem run_addIf {c : Bool} {v d : Int} {fuel : Nat} {b : Buf} (inside : c = true → InInt32 (v + d)) :
    (addIf c v d).run fuel b = .ok (v + if c then d else 0) b := by
  cases c with
  | true => exact run_int32 (inside rfl) fuel b
  | false =>
    show Outcome.ok v b = _
    simp

section Loop

variable {fb : Fb} {x0 y0 sx sy a b : Int} {raw fuel : Nat} {m : Buf} {visited : List (Int × Int)}

/-- The constants of the loop for a line of `a` by `b` points. -/
def consts (x0 y0 sx sy a b : Int) (raw : Nat) : LineConsts := ⟨x0 + sx * a, y0 + sy * b, a, -b, sx, sy, raw⟩

/-- The variables of the loop at a point of the walk. -/
def vars (x0 y0 sx sy a b : Int) (visited : List (Int × Int)) (p : Int × Int) : LineVars :=
  ⟨x0 + sx * p.1, y0 + sy * p.2, offLine a b p.1 p.2 + a - b, visited⟩

/-- Bounds within which no sum overflows. -/
structure Bounded (x0 y0 sx sy a b : Int) : Prop where
  signX : sx = 1 ∨ sx = -1
  signY : sy = 1 ∨ sy = -1
  x : |x0| ≤ 2 ^ 27
  y : |y0| ≤ 2 ^ 27
  endX : |x0 + sx * a| ≤ 2 ^ 27
  endY : |y0 + sy * b| ≤ 2 ^ 27
  startA : 0 ≤ a
  startB : 0 ≤ b

theorem Bounded.axes (bounded : Bounded x0 y0 sx sy a b) : a ≤ 2 ^ 28 ∧ b ≤ 2 ^ 28 := by
  obtain ⟨signX, signY, x, y, endX, endY, -, -⟩ := bounded
  rw [abs_le] at x y endX endY
  constructor
  · rcases signX with rfl | rfl <;> omega
  · rcases signY with rfl | rfl <;> omega

/-- A turn that goes on. -/
theorem run_lineTurn_next (bounded : Bounded x0 y0 sx sy a b) {p : Int × Int} (near : Near a b p.1 p.2)
    (going : p ≠ (a, b)) : (lineTurn fb (consts x0 y0 sx sy a b raw) (vars x0 y0 sx sy a b visited p)).run fuel m =
      .ok (.inl (vars x0 y0 sx sy a b (visited ++ [place x0 y0 sx sy p]) (step a b p)))
        (paint fb raw m (place x0 y0 sx sy p)) := by
  obtain ⟨longX, longY⟩ := bounded.axes
  obtain ⟨signX, signY, x, y, endX, endY, startA, startB⟩ := bounded
  obtain ⟨low, high, low', high', above, below⟩ := near
  rw [abs_le] at x y endX endY
  have unfinished : ¬ (x0 + sx * p.1 = x0 + sx * a ∧ y0 + sy * p.2 = y0 + sy * b) := by
    rintro ⟨hx, hy⟩
    have sameX : p.1 = a := (heading_mul_inj signX).1 (by omega)
    have sameY : p.2 = b := (heading_mul_inj signY).1 (by omega)
    exact going (Prod.ext sameX sameY)
  have double : InInt32 (2 * (offLine a b p.1 p.2 + a - b)) := by unfold InInt32; omega
  have turnX : InInt32 (offLine a b p.1 p.2 + a - b + -b) := by unfold InInt32; omega
  have moveX : InInt32 (x0 + sx * p.1 + sx) := by
    unfold InInt32
    rcases signX with rfl | rfl <;> omega
  have turnY : InInt32 (offLine a b p.1 p.2 + a - b + (if movesX a b p.1 p.2 then -b else 0) + a) := by
    unfold InInt32
    split <;> omega
  have moveY : InInt32 (y0 + sy * p.2 + sy) := by
    unfold InInt32
    rcases signY with rfl | rfl <;> omega
  have testX : decide (2 * (offLine a b p.1 p.2 + a - b) ≥ -b) = movesX a b p.1 p.2 := rfl
  have testY : decide (2 * (offLine a b p.1 p.2 + a - b) ≤ a) = movesY a b p.1 p.2 := rfl
  rw [vars, consts, lineTurn, run_bind_ok (run_modify _ _ _), if_neg unfinished,
    run_bind_ok (run_int32 double _ _), testX, testY, run_bind_ok (run_addIf fun _ => turnX),
    run_bind_ok (run_addIf fun _ => moveX), run_bind_ok (run_addIf fun _ => turnY),
    run_bind_ok (run_addIf fun _ => moveY), run_pure]
  have forward : ∀ (c : Bool) (s i : Int), s * i + (if c then s else 0) = s * if c then i + 1 else i := by
    intro c s i
    cases c <;> simp [mul_add]
  have nextX : x0 + sx * p.1 + (if movesX a b p.1 p.2 then sx else 0) = x0 + sx * (step a b p).1 := by
    rw [add_assoc, forward]
    rfl
  have nextY : y0 + sy * p.2 + (if movesY a b p.1 p.2 then sy else 0) = y0 + sy * (step a b p).2 := by
    rw [add_assoc, forward]
    rfl
  have err := offLine_step a b p
  have nextErr : offLine a b p.1 p.2 + a - b + (if movesX a b p.1 p.2 then -b else 0) +
      (if movesY a b p.1 p.2 then a else 0) = offLine a b (step a b p).1 (step a b p).2 + a - b := by omega
  rw [nextX, nextY, nextErr]
  rfl

/-- The last turn. -/
theorem run_lineTurn_last :
    (lineTurn fb (consts x0 y0 sx sy a b raw) (vars x0 y0 sx sy a b visited (a, b))).run fuel m =
      .ok (.inr (visited ++ [place x0 y0 sx sy (a, b)])) (paint fb raw m (place x0 y0 sx sy (a, b))) := by
  rw [vars, consts, lineTurn, run_bind_ok (run_modify _ _ _), if_pos ⟨rfl, rfl⟩]
  rfl

/-- **The loop follows the walk** to its end. -/
theorem run_lineLoop (bounded : Bounded x0 y0 sx sy a b) : ∀ {n more : Nat} {p : Int × Int} (visited : List (Int × Int))
    (m : Buf), Left a b n p → Near a b p.1 p.2 →
    (Prog.loopN (lineTurn fb (consts x0 y0 sx sy a b raw)) (n + 1 + more) (vars x0 y0 sx sy a b visited p)).run fuel m =
      .ok (visited ++ (track a b n p).map (place x0 y0 sx sy))
        (((track a b n p).map (place x0 y0 sx sy)).foldl (paint fb raw) m)
  | 0, more, p, visited, m, left, near => by
    have arrived : p = (a, b) := near.at_end (by unfold Left at left; omega)
    rw [arrived, Nat.add_comm (0 + 1) more]
    exact run_loopN_exit run_lineTurn_last more
  | n + 1, more, p, visited, m, left, near => by
    obtain ⟨left', near'⟩ := left.step near
    have going : p ≠ (a, b) := by
      rintro rfl
      unfold Left along at left
      by_cases wide : b ≤ a
      · rw [if_pos wide, max_eq_left wide] at left
        omega
      · rw [if_neg wide, max_eq_right (by omega)] at left
        omega
    rw [show n + 1 + 1 + more = n + 1 + more + 1 by omega, run_loopN_next (run_lineTurn_next bounded near going),
      run_lineLoop bounded _ _ left' near', track, map_cons, append_assoc]
    rfl

end Loop

section Geometry

variable {x0 y0 x1 y1 : Int}

/-- The line as the walk of its two lengths. -/
def linePoints (x0 y0 x1 y1 : Int) : List (Int × Int) :=
  (track |x1 - x0| |y1 - y0| (max |x1 - x0| |y1 - y0|).toNat (0, 0)).map (place x0 y0 (heading x0 x1) (heading y0 y1))

theorem left_start {a b : Int} (hx : 0 ≤ a) : Left a b (max a b).toNat (0, 0) := by
  unfold Left along
  have : 0 ≤ max a b := le_max_of_le_left hx
  split <;> simp [this]

/-- A coordinate that moves goes towards its end. -/
theorem toward_end {m n i j : Int} (next : j = i ∨ j = i + 1) (within : j ≤ |n - m|) :
    m + heading m n * j = m + heading m n * i ∨
      m + heading m n * j = m + heading m n * i + (n - (m + heading m n * i)).sign := by
  rcases next with rfl | rfl
  · exact .inl rfl
  · right
    have ends := heading_mul m n
    have gap : n - (m + heading m n * i) = heading m n * (|n - m| - i) := by
      rw [mul_sub]
      omega
    have sign : (heading m n * (|n - m| - i)).sign = heading m n := by
      rw [Int.sign_mul, Int.sign_eq_one_of_pos (by omega : 0 < |n - m| - i), mul_one]
      rcases heading_eq m n with up | down
      · rw [up]; rfl
      · rw [down]; rfl
    rw [gap, sign, mul_add, mul_one]
    omega

theorem cast_heading (m n : Int) : ((n : ℚ) - m) = (heading m n * |n - m| : Int) := by
  have ends := heading_mul m n
  have : n - m = heading m n * |n - m| := by omega
  exact_mod_cast this

/-- Half a unit off the walk's line is half a pixel off the ideal one. -/
theorem half_pixel {m n m' n' i j : Int} (wide : |n' - m'| ≤ |n - m|) (near : Near |n - m| |n' - m'| i j) :
    |((m' + heading m' n' * j : Int) : ℚ) - (m' + (((m + heading m n * i : Int) : ℚ) - m) * ((n' - m') / (n - m)))| ≤
      1 / 2 := by
  rw [cast_heading m n, cast_heading m' n']
  generalize |n - m| = a at *
  generalize |n' - m'| = b at *
  obtain ⟨startX, endX, startY, endY, above, below⟩ := near
  rw [max_eq_left wide] at above below
  have above' : (-a : ℚ) ≤ 2 * offLine a b i j := by exact_mod_cast above
  have below' : (2 * offLine a b i j : ℚ) ≤ a := by exact_mod_cast below
  rcases eq_or_ne a 0 with none | some
  · have hj : j = 0 := by omega
    have hi : i = 0 := by omega
    simp [hi, hj]
  · have pos : (0 : ℚ) < a := by
      have : 0 < a := by omega
      exact_mod_cast this
    -- both signs drop out, and what is left is the walk's own distance
    have distance : ((m' + heading m' n' * j : Int) : ℚ) -
        (m' + (((m + heading m n * i : Int) : ℚ) - m) * ((heading m' n' * b : Int) / (heading m n * a : Int))) =
        heading m' n' * (offLine a b i j / a) := by
      rcases heading_eq m n with up | down
      · rw [up]
        unfold offLine
        push_cast
        field_simp
        ring
      · rw [down]
        unfold offLine
        push_cast
        field_simp
        ring
    have half : |(offLine a b i j / a : ℚ)| ≤ 1 / 2 := by
      rw [abs_le, le_div_iff₀ pos, div_le_iff₀ pos]
      constructor <;> linarith
    rw [distance]
    rcases heading_eq m' n' with up | down
    · rw [up]
      simpa using half
    · rw [down]
      simpa using half

theorem traced_linePoints (x0 y0 x1 y1 : Int) : Traced x0 y0 x1 y1 (linePoints x0 y0 x1 y1) := by
  have left := left_start (b := |y1 - y0|) (abs_nonneg (x1 - x0))
  have near := near_start (abs_nonneg (x1 - x0)) (abs_nonneg (y1 - y0))
  refine ⟨?_, ?_, ?_, ?_, ?_⟩
  · rw [linePoints, length_map, length_track]
  · rw [linePoints, head?_map, head_track]
    simp only [Option.map_some, place, mul_zero, add_zero]
  · rw [linePoints, getLast?_map, getLast_track left near]
    simp only [Option.map_some, place, heading_mul]
  · rw [linePoints, isChain_map]
    refine (chain_track left near).imp fun p q step => ?_
    obtain ⟨rfl, -, there⟩ := step
    exact ⟨toward_end (by simp only [step]; split <;> simp) there.endX,
      toward_end (by simp only [step]; split <;> simp) there.endY⟩
  · intro p mem
    rw [linePoints, mem_map] at mem
    obtain ⟨q, mem, rfl⟩ := mem
    have close := near_track left near q mem
    split
    next wide => exact half_pixel wide close
    next tall => exact half_pixel (by omega) close.swap

end Geometry

theorem run_gap {m n : Int} {fuel : Nat} {b : Buf} (inside : InInt32 |n - m|) : (gap n m).run fuel b = .ok |n - m| b := by
  rw [gap]
  split
  next up =>
    rw [abs_of_pos (by omega)] at *
    exact run_int32 inside fuel b
  next down =>
    rw [abs_of_nonpos (by omega), neg_sub] at *
    exact run_int32 inside fuel b

theorem bounded_line {x0 y0 x1 y1 : Int} (hx0 : |x0| ≤ 2 ^ 27) (hy0 : |y0| ≤ 2 ^ 27) (hx1 : |x1| ≤ 2 ^ 27)
    (hy1 : |y1| ≤ 2 ^ 27) : Bounded x0 y0 (heading x0 x1) (heading y0 y1) |x1 - x0| |y1 - y0| where
  signX := heading_eq x0 x1
  signY := heading_eq y0 y1
  x := hx0
  y := hy0
  endX := by rw [heading_mul]; exact hx1
  endY := by rw [heading_mul]; exact hy1
  startA := abs_nonneg _
  startB := abs_nonneg _

/-- **Lines end, and are exact at both ends.** For all end points with coordinates of absolute value at most `2^27`,
every framebuffer and every content: the loop ends after `max |x1 - x0| |y1 - y0| + 1` turns, without an overflow, and
visits the points of a digital line from `(x0, y0)` to `(x1, y1)`; it paints exactly those of them that are on the
screen. -/
theorem line_exact (fb : Fb) (x0 y0 x1 y1 : Int) (color : UInt32) (before : Buf) (hx0 : |x0| ≤ 2 ^ 27)
    (hy0 : |y0| ≤ 2 ^ 27) (hx1 : |x1| ≤ 2 ^ 27) (hy1 : |y1| ≤ 2 ^ 27) :
    ∃ points, Traced x0 y0 x1 y1 points ∧ ∀ fuel, (max |x1 - x0| |y1 - y0|).toNat + 1 ≤ fuel →
      (halDisplayLine (some fb) x0 y0 x1 y1 color).run fuel before =
        .ok points ((points.filter fun p => OnScreen fb p.1 p.2).foldl
          (fun b p => putPixel fb (encodePixel fb color) b p.1 p.2) before) := by
  refine ⟨_, traced_linePoints x0 y0 x1 y1, fun fuel enough => ?_⟩
  have bounded := bounded_line hx0 hy0 hx1 hy1
  obtain ⟨longX, longY⟩ := bounded.axes
  have lowX := abs_nonneg (x1 - x0)
  have lowY := abs_nonneg (y1 - y0)
  have spanX : InInt32 |x1 - x0| := by unfold InInt32; omega
  have spanY : InInt32 |y1 - y0| := by unfold InInt32; omega
  have negated : InInt32 (-|y1 - y0|) := by unfold InInt32; omega
  have sum : InInt32 (|x1 - x0| + -|y1 - y0|) := by unfold InInt32; omega
  obtain ⟨more, turns⟩ := Nat.exists_eq_add_of_le enough
  have start : vars x0 y0 (heading x0 x1) (heading y0 y1) |x1 - x0| |y1 - y0| [] (0, 0) =
      ⟨x0, y0, |x1 - x0| + -|y1 - y0|, []⟩ := by
    simp only [vars, offLine, mul_zero, add_zero, zero_mul, sub_self, zero_add, ← sub_eq_add_neg]
  have follows : (Prog.loopN (lineTurn fb (consts x0 y0 (heading x0 x1) (heading y0 y1) |x1 - x0| |y1 - y0|
      (encodePixel fb color))) ((max |x1 - x0| |y1 - y0|).toNat + 1 + more) (vars x0 y0 _ _ _ _ [] (0, 0))).run fuel before =
        .ok _ _ := run_lineLoop bounded [] before (left_start lowX) (near_start lowX lowY)
  rw [start, consts, heading_mul, heading_mul, ← turns] at follows
  rw [halDisplayLine, run_bind_ok (run_gap spanX), run_bind_ok (run_gap spanY),
    run_bind_ok (run_int32 negated _ _), run_bind_ok (run_int32 sum _ _), run_loop]
  refine follows.trans ?_
  rw [nil_append, foldl_filter]
  congr 2
  funext b p
  simp only [paint, onScreen_eq]

/-- A line of three points. -/
theorem line_exact_short : ∃ points, Traced 0 0 2 1 points ∧ ∀ fuel, (max |2 - 0| |1 - 0| : Int).toNat + 1 ≤ fuel →
    (halDisplayLine (some ⟨4, 4, 16, 16, 8, 0⟩) 0 0 2 1 0xFFFFFF).run fuel (fun _ => 0) =
      .ok points ((points.filter fun p => OnScreen ⟨4, 4, 16, 16, 8, 0⟩ p.1 p.2).foldl
        (fun b p => putPixel ⟨4, 4, 16, 16, 8, 0⟩ (encodePixel ⟨4, 4, 16, 16, 8, 0⟩ 0xFFFFFF) b p.1 p.2) fun _ => 0) :=
  line_exact _ 0 0 2 1 _ _ (by decide) (by decide) (by decide) (by decide)

end CanBoot.Display
