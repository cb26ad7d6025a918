import Mathlib.Data.Nat.ModEq

/-!
# Rings written in laps

A ring of `n` slots is written round and round, and each slot carries a bit that the writer turns over from lap to lap.
A reader that knows its own lap can tell from the bit alone whether a slot was written in this lap. `Laps n bit p` is
what makes that sound: with `p` slots written so far, every slot's bit is the one of the lap before its next write.
-/

namespace CanBoot.Lib

open Nat

/-- The bit written in a lap: set in the first. -/
def lapBit (lap : Nat) : Bool := lap % 2 == 0

@[simp] theorem lapBit_succ (lap : Nat) : lapBit (lap + 1) = !lapBit lap := by
  rcases mod_two_eq_zero_or_one lap with even | odd
  · rw [lapBit, lapBit, add_mod, even]
    rfl
  · rw [lapBit, lapBit, add_mod, odd]
    rfl

/-- Writes less than a lap apart go to different slots. -/
theorem mod_ne_mod {n i j : Nat} (before : i < j) (near : j < i + n) : j % n ≠ i % n := by
  intro same
  have whole := sub_mod_eq_zero_of_mod_eq same
  rw [mod_eq_of_lt (by omega)] at whole
  omega

/-- Behind the last slot of a lap comes the first of the next. -/
theorem succ_of_last {n p : Nat} (last : p % n + 1 = n) : (p + 1) % n = 0 ∧ (p + 1) / n = p / n + 1 := by
  have whole := div_add_mod p n
  refine And.symm ((Nat.div_mod_unique (by omega)).2 ⟨?_, by omega⟩)
  rw [mul_succ]
  omega

theorem succ_of_not_last {n p : Nat} (positive : 0 < n) (inside : p % n + 1 ≠ n) :
    (p + 1) % n = p % n + 1 ∧ (p + 1) / n = p / n := by
  have whole := div_add_mod p n
  have low := mod_lt p positive
  exact And.symm ((Nat.div_mod_unique positive).2 ⟨by omega, by omega⟩)

/-- The bits of a ring into which `p` slots have been written. -/
def Laps (n : Nat) (bit : Nat → Bool) (p : Nat) : Prop := ∀ j, p ≤ j → j < p + n → bit (j % n) = !lapBit (j / n)

namespace Laps

variable {n p : Nat} {bit bit' : Nat → Bool}

theorem start (clear : ∀ i < n, bit i = false) : Laps n bit 0 := by
  intro j _ low
  rw [Nat.zero_add] at low
  rw [mod_eq_of_lt low, div_eq_of_lt low, clear j low]
  rfl

theorem congr (positive : 0 < n) (laps : Laps n bit p) (same : ∀ i < n, bit' i = bit i) : Laps n bit' p :=
  fun j behind near => (same _ (mod_lt j positive)).trans (laps j behind near)

/-- A write to the next slot, with the bit of the lap. -/
theorem write (positive : 0 < n) (laps : Laps n bit p) (new : bit' (p % n) = lapBit (p / n))
    (others : ∀ i < n, i ≠ p % n → bit' i = bit i) : Laps n bit' (p + 1) := by
  intro j behind near
  by_cases same : j = p + n
  · rw [same, add_mod_right, new, add_div_right p positive, lapBit_succ, Bool.not_not]
  · have other := mod_ne_mod (show p < j by omega) (show j < p + n by omega)
    rw [others _ (mod_lt j positive) other]
    exact laps j (by omega) (by omega)

/-- The next slot to be written does not show its lap. -/
theorem stale (positive : 0 < n) (laps : Laps n bit p) : bit (p % n) = !lapBit (p / n) :=
  laps p (Nat.le_refl p) (by omega)

end Laps

end CanBoot.Lib
