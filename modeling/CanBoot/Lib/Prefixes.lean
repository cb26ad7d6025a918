import Mathlib.Data.List.Basic

/-!
# The first prefix with a property

A scanner that looks at what it has read so far stops at the first prefix of its input with some property.
`firstPrefix p s` is the length of that prefix, none if no prefix of `s` has it. It does not depend on what comes later
(`firstPrefix_append`), so it can be found an element at a time (`firstPrefix_concat`).
-/

namespace CanBoot.Lib

open List

variable {α : Type} {p : List α → Bool} {s t : List α} {n m : Nat}

/-- The length of the first prefix that satisfies `p`. -/
def firstPrefix (p : List α → Bool) (s : List α) : Option Nat := (List.range (s.length + 1)).find? fun n => p (s.take n)

theorem firstPrefix_eq_some : firstPrefix p s = some n ↔
    n ≤ s.length ∧ p (s.take n) = true ∧ ∀ k < n, p (s.take k) = false := by
  rw [firstPrefix, find?_range_eq_some, mem_range]
  simp only [Bool.not_eq_true']
  constructor
  · rintro ⟨here, inside, before⟩
    exact ⟨by omega, here, before⟩
  · rintro ⟨inside, here, before⟩
    exact ⟨here, by omega, before⟩

theorem firstPrefix_eq_none : firstPrefix p s = none ↔ ∀ k ≤ s.length, p (s.take k) = false := by
  rw [firstPrefix, find?_range_eq_none]
  simp only [Bool.not_eq_true', Nat.lt_succ_iff]

/-- What comes later does not matter. -/
theorem firstPrefix_append (found : firstPrefix p s = some n) (t : List α) : firstPrefix p (s ++ t) = some n := by
  obtain ⟨inside, here, before⟩ := firstPrefix_eq_some.1 found
  refine firstPrefix_eq_some.2 ⟨by rw [length_append]; omega, ?_, fun k less => ?_⟩
  · rw [take_append_of_le_length inside]
    exact here
  · rw [take_append_of_le_length (by omega)]
    exact before k less

/-- One more element. -/
theorem firstPrefix_concat (none : firstPrefix p s = none) (x : α) :
    firstPrefix p (s ++ [x]) = if p (s ++ [x]) then some (s.length + 1) else .none := by
  have before : ∀ k ≤ s.length, p ((s ++ [x]).take k) = false := by
    intro k inside
    rw [take_append_of_le_length inside]
    exact firstPrefix_eq_none.1 none k inside
  have whole : (s ++ [x]).take (s.length + 1) = s ++ [x] := take_of_length_le (by simp)
  split
  next here =>
    refine firstPrefix_eq_some.2 ⟨by simp, ?_, fun k less => before k (by omega)⟩
    rw [whole]
    exact here
  next here =>
    refine firstPrefix_eq_none.2 fun k inside => ?_
    rw [length_append, length_singleton] at inside
    rcases Nat.lt_or_ge s.length k with last | earlier
    · obtain rfl : k = s.length + 1 := by omega
      rw [whole]
      exact Bool.eq_false_iff.2 here
    · exact before k earlier

theorem firstPrefix_take_of_le (found : firstPrefix p s = some n) (inside : n ≤ m) :
    firstPrefix p (s.take m) = some n := by
  obtain ⟨bound, here, before⟩ := firstPrefix_eq_some.1 found
  refine firstPrefix_eq_some.2 ⟨by rw [length_take]; omega, ?_, fun k less => ?_⟩
  · rw [take_take, Nat.min_eq_left inside]
    exact here
  · rw [take_take, Nat.min_eq_left (by omega)]
    exact before k less

theorem firstPrefix_take_of_lt (found : firstPrefix p s = some n) (outside : m < n) :
    firstPrefix p (s.take m) = none := by
  obtain ⟨bound, -, before⟩ := firstPrefix_eq_some.1 found
  refine firstPrefix_eq_none.2 fun k inside => ?_
  rw [length_take] at inside
  rw [take_take, Nat.min_eq_left (by omega)]
  exact before k (by omega)

theorem firstPrefix_take_none (none : firstPrefix p s = none) (m : Nat) : firstPrefix p (s.take m) = .none := by
  refine firstPrefix_eq_none.2 fun k inside => ?_
  rw [length_take] at inside
  rw [take_take, Nat.min_eq_left (by omega)]
  exact firstPrefix_eq_none.1 none k (by omega)

end CanBoot.Lib
