import CanBoot.Cando.Clock

/-!
# How long the clocks are exact

Both clocks multiply the counter before they divide it. They are exact until the product of the microseconds leaves
64 bits, and `time.us` is wrong from then on (`clocks_exact_iff`): at 3 GHz after less than two hours.
-/

namespace CanBoot.Cando.Clock

open Lib Nat

/-- **The clocks are exact at a time**, and against every time before it: `time.us` has not gone back, and the
difference of two `sys_now` less than 2^31 ms apart is the time between them, within a millisecond. -/
structure Exact (hz now : Nat) : Prop where
  us : tUs hz now = now * 1000000 / hz
  ms : sysNow hz now = now * 1000 / hz % 4294967296
  monotone : ∀ t ≤ now, tUs hz t ≤ tUs hz now
  elapsed : ∀ t ≤ now, (now - t) * 1000 < 2147483648 * hz →
    (now - t) * 1000 ≤ (sub32 (sysNow hz now) (sysNow hz t) + 1) * hz ∧
      sub32 (sysNow hz now) (sysNow hz t) * hz ≤ (now - t) * 1000 + hz

theorem f64_of_lt {n : Nat} (small : n < 9007199254740992) : f64 n = n := by
  have ulp : n.log2 - 52 = 0 := by
    by_cases zero : n = 0
    · rw [zero]
      rfl
    · have := (log2_lt zero).mpr (show n < 2 ^ 53 from small)
      omega
  simp [f64, ulp, mod_one]

variable {hz now : Nat}

/-- Any product of 64 bits gives microseconds that an `f64` holds. -/
theorem tUs_eq (low : 1000000 ≤ hz) (now : Nat) : tUs hz now = u64 (now * 1000000) / hz := by
  have word : u64 (now * 1000000) < 18446744073709551616 := mod_lt _ (by decide)
  have few := div_le_div_left low (by decide) (a := u64 (now * 1000000))
  rw [tUs, if_pos (by omega), f64_of_lt]
  omega

theorem tUs_exact (low : 1000000 ≤ hz) (fits : now * 1000000 < 18446744073709551616) :
    tUs hz now = now * 1000000 / hz := by
  rw [tUs_eq low, u64_of_lt fits]

theorem sysNow_exact (fits : now * 1000000 < 18446744073709551616) : sysNow hz now = now * 1000 / hz % 4294967296 := by
  have fits := Nat.lt_of_le_of_lt (Nat.mul_le_mul_left now (show 1000 ≤ 1000000 by decide)) fits
  rw [sysNow, u64_of_lt fits, u32]

/-- A product that left 64 bits has lost more than a microsecond's share. -/
theorem tUs_wrapped (low : 1000000 ≤ hz) (high : hz ≤ 10000000000)
    (wide : 18446744073709551616 ≤ now * 1000000) : tUs hz now ≠ now * 1000000 / hz := by
  have pos : 0 < hz := by omega
  have lost : u64 (now * 1000000) + hz ≤ now * 1000000 := by
    rw [u64]
    omega
  have less := Nat.div_le_div_right (c := hz) lost
  rw [add_div_right _ pos] at less
  rw [tUs_eq low]
  omega

/-- Whole parts are apart by the difference, within one. -/
theorem elapsed_of_div {a b : Nat} (pos : 0 < hz) (before : a ≤ b) (near : b - a < 2147483648 * hz) :
    b - a ≤ (sub32 (b / hz % 4294967296) (a / hz % 4294967296) + 1) * hz ∧
      sub32 (b / hz % 4294967296) (a / hz % 4294967296) * hz ≤ b - a + hz := by
  obtain ⟨x, r, rfl, small⟩ : ∃ x r, a = hz * x + r ∧ r < hz := ⟨_, _, (div_add_mod a hz).symm, mod_lt a pos⟩
  obtain ⟨y, q, rfl, small'⟩ : ∃ y q, b = hz * y + q ∧ q < hz := ⟨_, _, (div_add_mod b hz).symm, mod_lt b pos⟩
  have wholes : ∀ {n k : Nat}, k < hz → (hz * n + k) / hz = n := fun less => by
    rw [mul_add_div pos, div_eq_of_lt less, Nat.add_zero]
  rw [wholes small, wholes small']
  have order : x ≤ y := by
    by_contra less
    have : hz * (y + 1) ≤ hz * x := Nat.mul_le_mul_left hz (by omega)
    rw [Nat.mul_add] at this
    omega
  obtain ⟨d, rfl⟩ := Nat.exists_eq_add_of_le order
  have dist : hz * (x + d) = hz * x + hz * d := Nat.mul_add ..
  have short : d < 4294967296 := by
    by_contra long
    have : hz * 4294967296 ≤ hz * d := Nat.mul_le_mul_left hz (by omega)
    omega
  have same : sub32 ((x + d) % 4294967296) (x % 4294967296) = d := by
    unfold sub32 u32
    omega
  rw [same, Nat.add_mul, Nat.mul_comm d hz]
  omega

/-- **The clocks are exact exactly while the counter times a million fits in 64 bits.** -/
theorem clocks_exact_iff (low : 1000000 ≤ hz) (high : hz ≤ 10000000000) :
    Exact hz now ↔ now * 1000000 < 18446744073709551616 := by
  constructor
  · intro exact
    by_contra wide
    exact tUs_wrapped low high (by omega) exact.us
  · intro fits
    have earlier : ∀ {t}, t ≤ now → t * 1000000 < 18446744073709551616 :=
      fun before => Nat.lt_of_le_of_lt (Nat.mul_le_mul_right _ before) fits
    refine ⟨tUs_exact low fits, sysNow_exact fits, fun t before => ?_, fun t before near => ?_⟩
    · rw [tUs_exact low fits, tUs_exact low (earlier before)]
      exact Nat.div_le_div_right (by omega)
    · rw [sysNow_exact fits, sysNow_exact (earlier before), Nat.sub_mul]
      exact elapsed_of_div (by omega) (by omega) (by omega)

theorem clocks_exact_hour : Exact 3000000000 10800000000000 :=
  (clocks_exact_iff (by decide) (by decide)).mpr (by decide)

/-- Less than two hours at 3 GHz: `time.us` is back at zero. -/
theorem us_wraps : ¬ Exact 3000000000 18446744073710 := by
  intro exact
  have wrong := exact.us
  revert wrong
  decide +kernel

end CanBoot.Cando.Clock
