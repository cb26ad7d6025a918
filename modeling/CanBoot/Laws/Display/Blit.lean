import CanBoot.Hal.Display
import CanBoot.Lib.Moves

/-!
# Block moves within the framebuffer

`hal_display_copy_rect` moves its pixels one by one, in place. The two directions it chooses put the moves in an order
in which none of them writes where a later one reads (`outOfWay_blitMove`), so the block arrives as it was before the
call, however source and target overlap (`copyRect_copies`).
-/

namespace CanBoot.Display

open Lib Lib.Prog List

/-- The offset of the pixel at `(x, y)`. -/
def cell (fb : Fb) (x y : Int) : Nat := fbRow fb y + 4 * x.toNat

/-- The pixel at `(x, y)` is on the screen, as `hal_display_width` and `hal_display_height` give it. -/
def OnScreen (fb : Fb) (x y : Int) : Prop :=
  0 ≤ x ∧ x < halDisplayWidth (some fb) ∧ 0 ≤ y ∧ y < halDisplayHeight (some fb)

instance (fb : Fb) (x y : Int) : Decidable (OnScreen fb x y) := inferInstanceAs (Decidable (_ ∧ _))

theorem onScreen_eq (fb : Fb) (x y : Int) : onScreen fb x y = decide (OnScreen fb x y) := by
  rw [Bool.eq_iff_iff, decide_eq_true_eq]
  simp only [onScreen, OnScreen, halDisplayWidth, halDisplayHeight, Option.elim, Bool.and_eq_true, decide_eq_true_eq]
  omega

theorem toInt32_le (n : Nat) : toInt32 n ≤ n := by
  unfold toInt32
  split <;> omega

variable {fb : Fb}

/-- Different pixels have no byte in common. -/
theorem cell_apart (pitch : 4 * fb.width.toNat ≤ fb.pitch.toNat) {x y x' y' : Int} (here : OnScreen fb x y)
    (there : OnScreen fb x' y') (differ : x ≠ x' ∨ y ≠ y') : WordsApart (cell fb x y) (cell fb x' y') := by
  obtain ⟨left, right, top, -⟩ := here
  obtain ⟨left', right', top', -⟩ := there
  have width := toInt32_le fb.width.toNat
  simp only [halDisplayWidth, Option.elim] at right right'
  have inRow : 4 * x.toNat + 4 ≤ fb.pitch.toNat := by omega
  have inRow' : 4 * x'.toNat + 4 ≤ fb.pitch.toNat := by omega
  unfold WordsApart cell fbRow
  rcases Nat.lt_trichotomy y.toNat y'.toNat with above | same | below
  · have rows := Nat.mul_le_mul_right fb.pitch.toNat (Nat.succ_le_of_lt above)
    rw [Nat.succ_mul] at rows
    omega
  · rw [same]
    omega
  · have rows := Nat.mul_le_mul_right fb.pitch.toNat (Nat.succ_le_of_lt below)
    rw [Nat.succ_mul] at rows
    omega

/-! ## The order of the moves -/

/-- The `k`-th of `0 … n - 1`, from either end. -/
def turned (forward : Bool) (n : Int) (k : Nat) : Int := if forward then k else n - 1 - k

/-- `a` comes before `b` in that direction. -/
def Ahead (forward : Bool) (a b : Int) : Prop := if forward then a < b else b < a

theorem turned_ahead (forward : Bool) (n : Int) {k l : Nat} (less : k < l) :
    Ahead forward (turned forward n k) (turned forward n l) := by
  cases forward with
  | true => exact Int.ofNat_lt.2 less
  | false =>
    show n - 1 - (l : Int) < n - 1 - k
    omega

theorem turned_mem {forward : Bool} {n a : Int} : a ∈ (range n.toNat).map (turned forward n) ↔ 0 ≤ a ∧ a < n := by
  rw [mem_map]
  constructor
  · rintro ⟨k, mem, rfl⟩
    have := mem_range.1 mem
    cases forward with
    | true => exact ⟨Int.natCast_nonneg k, by show (k : Int) < n; omega⟩
    | false => exact ⟨by show 0 ≤ n - 1 - (k : Int); omega, by show n - 1 - (k : Int) < n; omega⟩
  · rintro ⟨low, high⟩
    cases forward with
    | true => exact ⟨a.toNat, mem_range.2 (by omega), Int.toNat_of_nonneg low⟩
    | false => exact ⟨(n - 1 - a).toNat, mem_range.2 (by omega), by show n - 1 - ((n - 1 - a).toNat : Int) = a; omega⟩

section Blit

variable (fb : Fb) (sx sy dx dy w h : Int)

/-- The places of the block, row and column, in the order the loops come to them. -/
def blitOrder : List (Int × Int) :=
  ((List.range h.toNat).map (turned (dy ≤ sy) h)).flatMap fun r =>
    ((List.range w.toNat).map (turned (dx ≤ sx) w)).map fun c => (r, c)

/-- The place is on the screen at both ends. -/
def InBoth (p : Int × Int) : Prop := OnScreen fb (sx + p.2) (sy + p.1) ∧ OnScreen fb (dx + p.2) (dy + p.1)

instance (p : Int × Int) : Decidable (InBoth fb sx sy dx dy p) := inferInstanceAs (Decidable (_ ∧ _))

def blitMove (p : Int × Int) : Nat × Nat := (cell fb (sx + p.2) (sy + p.1), cell fb (dx + p.2) (dy + p.1))

/-- The moves that are made. -/
def blitMoves : List (Nat × Nat) :=
  ((blitOrder sx sy dx dy w h).filter fun p => InBoth fb sx sy dx dy p).map (blitMove fb sx sy dx dy)

variable {fb sx sy dx dy w h}

theorem mem_blitOrder {p : Int × Int} : p ∈ blitOrder sx sy dx dy w h ↔ (0 ≤ p.1 ∧ p.1 < h) ∧ 0 ≤ p.2 ∧ p.2 < w := by
  rw [blitOrder, mem_flatMap]
  constructor
  · rintro ⟨r, row, mem⟩
    obtain ⟨c, col, rfl⟩ := mem_map.1 mem
    exact ⟨turned_mem.1 row, turned_mem.1 col⟩
  · rintro ⟨row, col⟩
    exact ⟨p.1, turned_mem.2 row, mem_map.2 ⟨p.2, turned_mem.2 col, rfl⟩⟩

/-- The order in which two places are come to. -/
def Earlier (sx sy dx dy : Int) (p q : Int × Int) : Prop :=
  Ahead (dy ≤ sy) p.1 q.1 ∨ p.1 = q.1 ∧ Ahead (dx ≤ sx) p.2 q.2

theorem pairwise_turned (forward : Bool) (n : Int) :
    ((range n.toNat).map (turned forward n)).Pairwise (Ahead forward) :=
  pairwise_map.2 (pairwise_lt_range.imp fun less => turned_ahead forward n less)

theorem pairwise_blitOrder : (blitOrder sx sy dx dy w h).Pairwise (Earlier sx sy dx dy) := by
  rw [blitOrder, pairwise_flatMap]
  constructor
  · intro r _
    exact pairwise_map.2 ((pairwise_turned _ w).imp fun ahead => .inr ⟨rfl, ahead⟩)
  · refine (pairwise_turned _ h).imp fun {r r'} ahead p mem q mem' => ?_
    obtain ⟨c, -, rfl⟩ := mem_map.1 mem
    obtain ⟨c', -, rfl⟩ := mem_map.1 mem'
    exact .inl ahead

/-- No move is in the way of a later one: the directions see to it. -/
theorem outOfWay_blitMove (pitch : 4 * fb.width.toNat ≤ fb.pitch.toNat) {p q : Int × Int}
    (earlier : Earlier sx sy dx dy p q) (here : InBoth fb sx sy dx dy p) (there : InBoth fb sx sy dx dy q) :
    OutOfWay (blitMove fb sx sy dx dy p) (blitMove fb sx sy dx dy q) := by
  unfold Earlier Ahead at earlier
  simp only [decide_eq_true_eq] at earlier
  constructor
  · refine cell_apart pitch here.2 there.1 ?_
    -- a row that is written and read later lies against the direction of the rows, or is the row itself
    by_cases down : dy ≤ sy <;> by_cases right : dx ≤ sx <;> simp only [down, right, if_true, if_false] at earlier <;> omega
  · refine cell_apart pitch here.2 there.2 ?_
    by_cases down : dy ≤ sy <;> by_cases right : dx ≤ sx <;> simp only [down, right, if_true, if_false] at earlier <;> omega

theorem pairwise_blitMoves (pitch : 4 * fb.width.toNat ≤ fb.pitch.toNat) :
    (blitMoves fb sx sy dx dy w h).Pairwise OutOfWay := by
  rw [blitMoves, pairwise_map, pairwise_filter]
  refine pairwise_blitOrder.imp fun earlier here there => ?_
  exact outOfWay_blitMove pitch earlier (of_decide_eq_true here) (of_decide_eq_true there)

/-! ## The loops -/

/-- What the loops do at one place. -/
def blitStep (fb : Fb) (sx sy dx dy : Int) (b : Buf) (p : Int × Int) : Buf :=
  if InBoth fb sx sy dx dy p then moveWord b (blitMove fb sx sy dx dy p) else b

theorem moves_blitMoves (b : Buf) :
    moves (blitMoves fb sx sy dx dy w h) b = (blitOrder sx sy dx dy w h).foldl (blitStep fb sx sy dx dy) b := by
  rw [moves, blitMoves, foldl_map, foldl_filter]
  congr 1
  funext b p
  simp only [decide_eq_true_eq, blitStep]

theorem run_direct {forward : Bool} {n : Int} {k fuel : Nat} {b : Buf} (size : InInt32 n) (mem : k ∈ range n.toNat) :
    (direct forward n k).run fuel b = .ok (turned forward n k) b := by
  have := mem_range.1 mem
  cases forward with
  | true => rfl
  | false => exact run_int32 (by unfold InInt32 at *; omega) fuel b

theorem run_copyCol {r : Int} {col fuel : Nat} {b : Buf} (width : InInt32 w)
    (sums : ∀ c, 0 ≤ c → c < w → InInt32 (sx + c) ∧ InInt32 (dx + c))
    (rows : (0 ≤ sy + r ∧ sy + r < toInt32 fb.height.toNat) ∧ 0 ≤ dy + r ∧ dy + r < toInt32 fb.height.toNat)
    (mem : col ∈ range w.toNat) : (copyCol fb sx dx w (fbRow fb (sy + r)) (fbRow fb (dy + r)) col ()).run fuel b =
      .ok () (blitStep fb sx sy dx dy b (r, turned (dx ≤ sx) w col)) := by
  have inside := turned_mem.1 (mem_map_of_mem (f := turned (dx ≤ sx) w) mem)
  obtain ⟨source, target⟩ := sums _ inside.1 inside.2
  rw [copyCol, run_bind_ok (run_direct width mem), run_bind_ok (run_int32 source _ _),
    run_bind_ok (run_int32 target _ _), blitStep]
  by_cases both : InBoth fb sx sy dx dy (r, turned (decide (dx ≤ sx)) w col)
  · rw [if_pos both]
    obtain ⟨⟨left, right, -, -⟩, left', right', -, -⟩ := both
    simp only [halDisplayWidth, Option.elim] at left right left' right'
    rw [if_neg (by omega), if_neg (by omega)]
    rfl
  · rw [if_neg both]
    by_cases out : sx + turned (decide (dx ≤ sx)) w col < 0 ∨ sx + turned (decide (dx ≤ sx)) w col ≥ toInt32 fb.width.toNat
    · rw [if_pos out]
      rfl
    · rw [if_neg out, if_pos]
      · rfl
      · by_contra inside'
        refine both ⟨⟨?_, ?_, rows.1⟩, ?_, ?_, rows.2⟩ <;> simp only [halDisplayWidth, Option.elim] <;> omega

section

variable (width : InInt32 w) (height : InInt32 h) (cols : ∀ c, 0 ≤ c → c < w → InInt32 (sx + c) ∧ InInt32 (dx + c)) (rows : ∀ r, 0 ≤ r → r < h → InInt32 (sy + r) ∧ InInt32 (dy + r))

include width height cols rows

theorem run_copyRow {row fuel : Nat} {b : Buf} (mem : row ∈ range h.toNat) :
    (copyRow fb sx sy dx dy w h row ()).run fuel b =
      .ok () (((range w.toNat).map fun col => (turned (dy ≤ sy) h row, turned (dx ≤ sx) w col)).foldl
        (blitStep fb sx sy dx dy) b) := by
  have inside := turned_mem.1 (mem_map_of_mem (f := turned (dy ≤ sy) h) mem)
  obtain ⟨source, target⟩ := rows _ inside.1 inside.2
  rw [copyRow, run_bind_ok (run_direct height mem), run_bind_ok (run_int32 source _ _),
    run_bind_ok (run_int32 target _ _), foldl_map]
  -- a row that is off the screen at either end is left alone, and so are its places
  have skipped : ∀ off : ¬ ((0 ≤ sy + turned (dy ≤ sy) h row ∧ sy + turned (dy ≤ sy) h row < toInt32 fb.height.toNat) ∧
      0 ≤ dy + turned (dy ≤ sy) h row ∧ dy + turned (dy ≤ sy) h row < toInt32 fb.height.toNat),
      (range w.toNat).foldl
        (fun b col => blitStep fb sx sy dx dy b (turned (dy ≤ sy) h row, turned (dx ≤ sx) w col)) b = b := by
    intro off
    refine foldl_fixed' (fun col => if_neg fun both => off ⟨?_, ?_⟩) _
    · exact both.1.2.2
    · exact both.2.2.2
  split
  next out => rw [skipped (by omega), run_pure]
  next sourceIn =>
    split
    next out => rw [skipped (by omega), run_pure]
    next targetIn =>
      exact run_forAcc_foldl b fun col mem b => run_copyCol width cols (by omega) mem

/-- The program makes the moves. -/
theorem run_copyRect {fuel : Nat} {b : Buf} :
    (halDisplayCopyRect (some fb) sx sy dx dy w h).run fuel b = .ok () (moves (blitMoves fb sx sy dx dy w h) b) := by
  rw [halDisplayCopyRect, moves_blitMoves, blitOrder]
  simp only [map_map, foldl_flatMap, foldl_map]
  by_cases empty : w ≤ 0 ∨ h ≤ 0
  · rw [if_pos empty, run_pure]
    congr 1
    rcases empty with none | none
    · rw [Int.toNat_of_nonpos none]
      exact (foldl_fixed' (fun _ => rfl) _).symm
    · rw [Int.toNat_of_nonpos none]
      rfl
  · rw [if_neg empty]
    refine run_forAcc_foldl b fun row mem b => (run_copyRow width height cols rows mem).trans ?_
    rw [foldl_map]
    rfl

end

end Blit

/-- **Overlapping blits are correct.** On every framebuffer whose rows do not overlap, for every content and all
arguments whose sums stay in `int32_t`: each place of the block that is on the screen at both ends receives the pixel
that was at its source before the call, and no other byte of the framebuffer changes. -/
theorem copyRect_copies (fb : Fb) (sx sy dx dy w h : Int) (before : Buf) (fuel : Nat)
    (pitch : 4 * fb.width.toNat ≤ fb.pitch.toNat) (width : InInt32 w) (height : InInt32 h)
    (cols : ∀ c, 0 ≤ c → c < w → InInt32 (sx + c) ∧ InInt32 (dx + c))
    (rows : ∀ r, 0 ≤ r → r < h → InInt32 (sy + r) ∧ InInt32 (dy + r)) :
    ∃ after, (halDisplayCopyRect (some fb) sx sy dx dy w h).run fuel before = .ok () after ∧
      (∀ c r, 0 ≤ c → c < w → 0 ≤ r → r < h → OnScreen fb (sx + c) (sy + r) → OnScreen fb (dx + c) (dy + r) →
        le32 after (cell fb (dx + c) (dy + r)) = le32 before (cell fb (sx + c) (sy + r))) ∧
      ∀ i, (∀ c r, 0 ≤ c → c < w → 0 ≤ r → r < h → OnScreen fb (sx + c) (sy + r) → OnScreen fb (dx + c) (dy + r) →
        i < cell fb (dx + c) (dy + r) ∨ cell fb (dx + c) (dy + r) + 4 ≤ i) → after i = before i := by
  refine ⟨_, run_copyRect width height cols rows, ?_, ?_⟩
  · intro c r left right top bottom source target
    have mem : blitMove fb sx sy dx dy (r, c) ∈ blitMoves fb sx sy dx dy w h :=
      mem_map_of_mem (mem_filter.2
        ⟨mem_blitOrder.2 ⟨⟨top, bottom⟩, left, right⟩, decide_eq_true ⟨source, target⟩⟩)
    have arrives := le32_moves before (pairwise_blitMoves pitch) _ mem
    exact arrives
  · intro i out
    refine moves_of_out before fun m mem => ?_
    obtain ⟨p, place, rfl⟩ := mem_map.1 mem
    obtain ⟨order, both⟩ := mem_filter.1 place
    obtain ⟨⟨top, bottom⟩, left, right⟩ := mem_blitOrder.1 order
    obtain ⟨source, target⟩ := of_decide_eq_true both
    exact out p.2 p.1 left right top bottom source target

/-- Three pixels of a row, moved by one to the right. -/
theorem copyRect_copies_shift : ∃ after,
    (halDisplayCopyRect (some ⟨4, 1, 16, 16, 8, 0⟩) 0 0 1 0 3 1).run 0 (fun i => UInt8.ofNat i) = .ok () after ∧
    le32 after (cell ⟨4, 1, 16, 16, 8, 0⟩ (1 + 2) (0 + 0)) =
      le32 (fun i => UInt8.ofNat i) (cell ⟨4, 1, 16, 16, 8, 0⟩ (0 + 2) (0 + 0)) := by
  have cols : ∀ c : Int, 0 ≤ c → c < 3 → InInt32 (0 + c) ∧ InInt32 (1 + c) := by
    intro c _ _
    unfold InInt32
    omega
  have rows : ∀ r : Int, 0 ≤ r → r < 1 → InInt32 (0 + r) ∧ InInt32 (0 + r) := by
    intro r _ _
    unfold InInt32
    omega
  obtain ⟨after, run, copies, -⟩ := copyRect_copies ⟨4, 1, 16, 16, 8, 0⟩ 0 0 1 0 3 1 (fun i => UInt8.ofNat i) 0
    (by decide) (by decide) (by decide) cols rows
  exact ⟨after, run, copies 2 0 (by decide) (by decide) (by decide) (by decide) (by decide) (by decide)⟩

end CanBoot.Display
