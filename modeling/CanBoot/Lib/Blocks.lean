import Mathlib.Data.Nat.Basic

/-!
# Blocks laid end to end

A medium of blocks of `size` symbols is an array of symbols (`flat`). Whole blocks written to the medium are a stretch
written to the array. A stretch of the array is the rest of a block, whole blocks and the start of a block; the
arithmetic of walking along it is here.
-/

namespace CanBoot.Lib

open Nat

variable {β : Type} {size : Nat}

/-- The symbol at an address of the array. -/
def flat (size : Nat) (m : Nat → Nat → β) (a : Nat) : β := m (a / size) (a % size)

/-- The whole blocks of a stretch of `r` symbols from address `a` on. -/
def wholeBlocks (size a r : Nat) : Nat := (r - (size - a % size) % size) / size

theorem flat_block (m : Nat → Nat → β) {l o : Nat} (inside : o < size) : flat size m (l * size + o) = m l o := by
  rw [flat, Nat.mul_comm, mul_add_div (by omega), div_eq_of_lt inside, Nat.add_zero, mul_add_mod,
    mod_eq_of_lt inside]

/-- The symbols of a block, by their addresses. -/
theorem flat_add (m : Nat → Nat → β) {a i : Nat} (inside : a % size + i < size) :
    flat size m (a + i) = m (a / size) (a % size + i) := by
  rw [← flat_block m inside, ← Nat.add_assoc, div_add_mod']

/-- Blocks `lba` to `lba + n` written from a buffer. -/
theorem flat_write (pos : 0 < size) (m : Nat → Nat → β) (lba n : Nat) (buf : Nat → β) (a : Nat) :
    flat size (fun l o => if lba ≤ l ∧ l < lba + n ∧ o < size then buf ((l - lba) * size + o) else m l o) a =
      if lba * size ≤ a ∧ a < (lba + n) * size then buf (a - lba * size) else flat size m a := by
  have low : lba ≤ a / size ↔ lba * size ≤ a := Nat.le_div_iff_mul_le pos
  have high : a / size < lba + n ↔ a < (lba + n) * size := Nat.div_lt_iff_lt_mul pos
  have inside := mod_lt a pos
  simp only [flat, low, high, inside, and_true]
  by_cases within : lba * size ≤ a ∧ a < (lba + n) * size
  · have same : (a / size - lba) * size + a % size = a - lba * size := by
      have whole := div_add_mod' a size
      have reach := Nat.mul_le_mul_right size (low.2 within.1)
      rw [Nat.sub_mul]
      omega
    rw [if_pos within, if_pos within, same]
  · rw [if_neg within, if_neg within]

/-! ## Walking along a stretch -/

theorem wholeBlocks_of_aligned {a : Nat} (aligned : a % size = 0) (r : Nat) : wholeBlocks size a r = r / size := by
  rw [wholeBlocks, aligned, Nat.sub_zero, mod_self, Nat.sub_zero]

/-- Whole blocks later the stretch has as many fewer. -/
theorem walk_blocks {a r k : Nat} (aligned : a % size = 0) (fits : k ≤ r / size) :
    k * size ≤ r ∧ (a + k * size) % size = 0 ∧ (r - k * size) / size = r / size - k ∧
      (r - k * size) % size = r % size := by
  have inside : k * size ≤ r := Nat.le_trans (Nat.mul_le_mul_right size fits) (div_mul_le_self r size)
  refine ⟨inside, ?_, ?_, ?_⟩
  · rw [add_mul_mod_self_right, aligned]
  · rw [Nat.mul_comm, sub_mul_div]
  · rw [Nat.mul_comm, sub_mul_mod (Nat.mul_comm size k ▸ inside)]

/-- Behind the rest of its block a stretch starts on the next one. -/
theorem walk_head (pos : 0 < size) (a : Nat) : (a + (size - a % size)) % size = 0 ∧
    (a + (size - a % size)) / size = a / size + 1 := by
  have inside := mod_lt a pos
  have next : a + (size - a % size) = (a / size + 1) * size := by
    have whole := div_add_mod' a size
    rw [succ_mul]
    omega
  rw [next]
  exact ⟨mul_mod_left _ _, Nat.mul_div_cancel _ pos⟩

theorem wholeBlocks_of_head (pos : 0 < size) {a : Nat} (unaligned : a % size ≠ 0) (r : Nat) :
    wholeBlocks size a r = (r - (size - a % size)) / size := by
  rw [wholeBlocks, mod_eq_of_lt (by omega : size - a % size < size)]

/-- A part of a block later there are as many whole blocks. -/
theorem wholeBlocks_part (pos : 0 < size) {a r : Nat} (part : ¬ (a % size = 0 ∧ size ≤ r)) :
    wholeBlocks size (a + min (size - a % size) r) (r - min (size - a % size) r) = wholeBlocks size a r := by
  have inside := mod_lt a pos
  by_cases done : r ≤ size - a % size
  · have none_left : r - min (size - a % size) r = 0 := by omega
    rw [none_left, wholeBlocks, Nat.zero_sub, Nat.zero_div]
    by_cases aligned : a % size = 0
    · rw [wholeBlocks_of_aligned aligned, div_eq_of_lt (by omega)]
    · rw [wholeBlocks_of_head pos aligned, Nat.sub_eq_zero_of_le done, Nat.zero_div]
  · have unaligned : a % size ≠ 0 := by omega
    rw [Nat.min_eq_left (by omega), wholeBlocks_of_aligned (walk_head pos a).1, wholeBlocks_of_head pos unaligned]

end CanBoot.Lib
