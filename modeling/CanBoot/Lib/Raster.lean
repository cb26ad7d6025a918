import Mathlib.Tactic.Linarith

/-!
# A digital line, step by step

The line from `(0, 0)` to `(a, b)`, with `a` and `b` not negative, is followed on the integer grid by a walk that at
every point looks only at how far off the ideal line the point is (`offLine`, the distance times the length of the
longer axis). `Near` says that a point is at most half a unit off along the shorter axis. A step of the walk keeps near
the line and takes one unit along the longer axis (`Near.step`), so after `max a b` steps the walk is at `(a, b)`
(`getLast_track`).
-/

namespace CanBoot.Lib.Raster

open List

/-- How far `(i, j)` is off the line to `(a, b)`. -/
def offLine (a b i j : Int) : Int := j * a - i * b

/-- Whether the walk moves along either axis. -/
def movesX (a b i j : Int) : Bool := -b ≤ 2 * (offLine a b i j + a - b)

def movesY (a b i j : Int) : Bool := 2 * (offLine a b i j + a - b) ≤ a

/-- A step of the walk. -/
def step (a b : Int) (p : Int × Int) : Int × Int :=
  (if movesX a b p.1 p.2 then p.1 + 1 else p.1, if movesY a b p.1 p.2 then p.2 + 1 else p.2)

/-- The point of the walk and the next `n` ones. -/
def track (a b : Int) : Nat → Int × Int → List (Int × Int)
  | 0, p => [p]
  | n + 1, p => p :: track a b n (step a b p)

/-- A point between the ends and at most half a unit off the line. -/
structure Near (a b i j : Int) : Prop where
  startX : 0 ≤ i
  endX : i ≤ a
  startY : 0 ≤ j
  endY : j ≤ b
  above : -max a b ≤ 2 * offLine a b i j
  below : 2 * offLine a b i j ≤ max a b

variable {a b i j : Int}

theorem near_start (hx : 0 ≤ a) (hy : 0 ≤ b) : Near a b 0 0 := by
  refine ⟨le_refl 0, hx, le_refl 0, hy, ?_, ?_⟩ <;> simp [offLine, hx]

theorem offLine_swap (a b i j : Int) : offLine b a j i = -offLine a b i j := by
  unfold offLine
  omega

theorem Near.swap (near : Near a b i j) : Near b a j i := by
  obtain ⟨startX, endX, startY, endY, above, below⟩ := near
  refine ⟨startY, endY, startX, endX, ?_, ?_⟩ <;> rw [offLine_swap, max_comm] <;> omega

/-- The two axes are alike. -/
theorem movesX_swap (a b i j : Int) : movesX b a j i = movesY a b i j := by
  simp only [movesX, movesY, offLine_swap a b i j, decide_eq_decide]
  omega

theorem movesY_swap (a b i j : Int) : movesY b a j i = movesX a b i j := (movesX_swap b a j i).symm

theorem step_swap (a b : Int) (p : Int × Int) : step b a p.swap = (step a b p).swap := by
  show (if movesX b a p.2 p.1 then _ else _, if movesY b a p.2 p.1 then _ else _) = _
  rw [movesX_swap a b p.1 p.2, movesY_swap a b p.1 p.2]
  rfl

theorem offLine_diagonal (a b i j : Int) : offLine a b (i + 1) (j + 1) = offLine a b i j + a - b := by
  unfold offLine
  linarith

theorem offLine_along (a b i j : Int) : offLine a b (i + 1) j = offLine a b i j - b := by
  unfold offLine
  linarith

/-- A point past the last row would be more than half a unit off. -/
theorem row_le (pos : 0 < a) (hy : 0 ≤ b) (hi : i ≤ a) (below : 2 * offLine a b i j ≤ a) : j ≤ b := by
  by_contra past
  have rows : (b + 1) * a ≤ j * a := Int.mul_le_mul_of_nonneg_right (by omega) pos.le
  have cols : i * b ≤ a * b := Int.mul_le_mul_of_nonneg_right hi hy
  unfold offLine at below
  linarith

/-- **A step where the first axis is the longer one** takes a unit along it and stays near the line. -/
theorem Near.step_wide (near : Near a b i j) (wide : b ≤ a) (going : i < a) :
    movesX a b i j = true ∧ Near a b (i + 1) (step a b (i, j)).2 := by
  obtain ⟨startX, endX, startY, endY, above, below⟩ := near
  rw [max_eq_left wide] at above below
  refine ⟨decide_eq_true (by omega), ?_⟩
  have pos : 0 < a := by omega
  have hy : 0 ≤ b := startY.trans endY
  by_cases down : movesY a b i j = true
  · have turn := of_decide_eq_true down
    simp only [step, down, if_true]
    have closer : 2 * offLine a b (i + 1) (j + 1) ≤ a := by rw [offLine_diagonal]; omega
    refine ⟨by omega, by omega, by omega, row_le pos hy (by omega) closer, ?_, ?_⟩ <;>
      rw [max_eq_left wide, offLine_diagonal] <;> omega
  · have turn := of_decide_eq_false (Bool.eq_false_iff.2 down)
    simp only [step, down, Bool.false_eq_true, if_false]
    refine ⟨by omega, by omega, startY, endY, ?_, ?_⟩ <;> rw [max_eq_left wide, offLine_along] <;> omega

/-- How far the walk has come along the longer axis. -/
def along (a b : Int) (p : Int × Int) : Int := if b ≤ a then p.1 else p.2

/-- **A step of the walk** takes a unit along the longer axis and stays near the line. -/
theorem Near.step {p : Int × Int} (near : Near a b p.1 p.2) (going : along a b p < max a b) :
    along a b (step a b p) = along a b p + 1 ∧ Near a b (step a b p).1 (step a b p).2 := by
  unfold along at *
  by_cases wide : b ≤ a
  · rw [max_eq_left wide, if_pos wide] at going
    obtain ⟨moves, stays⟩ := near.step_wide wide going
    have first : (Raster.step a b p).1 = p.1 + 1 := if_pos moves
    rw [if_pos wide, if_pos wide, first]
    exact ⟨rfl, stays⟩
  · rw [max_eq_right (by omega), if_neg wide] at going
    obtain ⟨moves, stays⟩ := near.swap.step_wide (by omega) going
    have second : (Raster.step a b p).2 = p.2 + 1 := if_pos (by rw [← movesX_swap]; exact moves)
    rw [if_neg wide, if_neg wide, second]
    refine ⟨rfl, ?_⟩
    have mirrored := congrArg Prod.snd (step_swap a b p)
    exact (mirrored ▸ stays).swap

/-- Half a unit is too little to miss the end. -/
theorem Near.at_end {p : Int × Int} (near : Near a b p.1 p.2) (arrived : along a b p = max a b) : p = (a, b) := by
  have last : ∀ {a b j : Int}, b ≤ a → Near a b a j → j = b := by
    intro a b j wide near
    obtain ⟨startX, -, startY, endY, above, -⟩ := near
    rw [max_eq_left wide] at above
    by_contra short
    have rows : (j + 1) * a ≤ b * a := Int.mul_le_mul_of_nonneg_right (by omega) startX
    unfold offLine at above
    by_cases none : a = 0
    · omega
    · have : 0 < a := by omega
      linarith
  unfold along at arrived
  by_cases wide : b ≤ a
  · rw [if_pos wide, max_eq_left wide] at arrived
    exact Prod.ext arrived (last wide (arrived ▸ near))
  · rw [if_neg wide, max_eq_right (by omega)] at arrived
    exact Prod.ext (last (by omega) (arrived ▸ near.swap)) arrived

/-! ## The whole walk -/

theorem length_track (a b : Int) : ∀ (n : Nat) (p : Int × Int), (track a b n p).length = n + 1
  | 0, _ => rfl
  | n + 1, p => by rw [track, length_cons, length_track]

theorem head_track (a b : Int) (n : Nat) (p : Int × Int) : (track a b n p).head? = some p := by
  cases n <;> rfl

/-- The steps left from `p` on. -/
def Left (a b : Int) (n : Nat) (p : Int × Int) : Prop := along a b p + n = max a b

theorem Left.step {n : Nat} {p : Int × Int} (left : Left a b (n + 1) p) (near : Near a b p.1 p.2) :
    Left a b n (step a b p) ∧ Near a b (Raster.step a b p).1 (Raster.step a b p).2 := by
  unfold Left at *
  obtain ⟨further, stays⟩ := near.step (by omega)
  exact ⟨by omega, stays⟩

/-- **The walk stays near the line.** -/
theorem near_track : ∀ {n : Nat} {p : Int × Int}, Left a b n p → Near a b p.1 p.2 →
    ∀ q ∈ track a b n p, Near a b q.1 q.2
  | 0, p, _, near, q, mem => by
    rw [track, mem_singleton] at mem
    exact mem ▸ near
  | n + 1, p, left, near, q, mem => by
    rw [track, mem_cons] at mem
    rcases mem with rfl | mem
    · exact near
    · exact near_track (left.step near).1 (left.step near).2 q mem

/-- **The walk ends at the end of the line.** -/
theorem getLast_track : ∀ {n : Nat} {p : Int × Int}, Left a b n p → Near a b p.1 p.2 →
    (track a b n p).getLast? = some (a, b)
  | 0, p, left, near => by
    rw [track, near.at_end (by unfold Left at left; omega)]
    rfl
  | n + 1, p, left, near => by
    have rest := getLast_track (left.step near).1 (left.step near).2
    rw [track, getLast?_cons, rest]
    rfl

/-- Every point of the walk is a step from the one before it. -/
theorem chain_track : ∀ {n : Nat} {p : Int × Int}, Left a b n p → Near a b p.1 p.2 →
    (track a b n p).IsChain fun p q => q = step a b p ∧ Near a b p.1 p.2 ∧ Near a b q.1 q.2
  | 0, _, _, _ => .singleton _
  | n + 1, p, left, near => by
    obtain ⟨left', near'⟩ := left.step near
    have rest := chain_track left' near'
    rw [track]
    cases n with
    | zero | succ n => exact .cons_cons ⟨rfl, near, near'⟩ rest

/-- What a step does to the distance from the line. -/
theorem offLine_step (a b : Int) (p : Int × Int) : offLine a b (step a b p).1 (step a b p).2 =
      offLine a b p.1 p.2 + (if movesX a b p.1 p.2 then -b else 0) + if movesY a b p.1 p.2 then a else 0 := by
  simp only [step, offLine]
  split_ifs <;> linarith

end CanBoot.Lib.Raster
