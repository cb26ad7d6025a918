import CanBoot.Lib.Prog

/-!
# Signed 32-bit arithmetic

The sums and products of C's `int` are integers here, and undefined where they leave its range: `int32` hands on a
result that is in range and traps on any other.
-/

namespace CanBoot.Lib

/-- The integers of `int32_t`. -/
def InInt32 (n : Int) : Prop := -2147483648 ≤ n ∧ n ≤ 2147483647

instance (n : Int) : Decidable (InInt32 n) := inferInstanceAs (Decidable (_ ∧ _))

namespace Prog

variable {σ : Type}

/-- The result of a signed operation. -/
def int32 (n : Int) : Prog σ Int := do
  defined (decide (InInt32 n))
  pure n

theorem run_int32 {n : Int} (inside : InInt32 n) (fuel : Nat) (s : σ) : (int32 n).run fuel s = .ok n s := by
  rw [int32, bind_defined_true (decide_eq_true inside), run_pure]

theorem run_int32_out {n : Int} (outside : ¬ InInt32 n) (fuel : Nat) (s : σ) : (int32 n).run fuel s = .trap := by
  rw [int32, bind_defined_false (decide_eq_false outside)]

end Prog

end CanBoot.Lib
