import Mathlib.Algebra.GroupWithZero.Nat
import Mathlib.Data.List.Basic

/-!
# Little-endian numbers as lists of bytes
-/

namespace CanBoot.Lib

/-- The number that the bytes stand for, the lowest first. -/
def fromLe : List UInt8 → Nat
  | [] => 0
  | b :: bs => b.toNat + 256 * fromLe bs

/-- The lowest `n` bytes of a number. -/
def toLe : Nat → Nat → List UInt8
  | 0, _ => []
  | n + 1, w => UInt8.ofNat w :: toLe n (w / 256)

theorem length_toLe (n w : Nat) : (toLe n w).length = n := by
  induction n generalizing w with
  | zero => rfl
  | succ n ih => rw [toLe, List.length_cons, ih]

theorem fromLe_toLe (n w : Nat) : fromLe (toLe n w) = w % 256 ^ n := by
  induction n generalizing w with
  | zero => rw [toLe, fromLe, Nat.pow_zero, Nat.mod_one]
  | succ n ih =>
    have split : w % 256 ^ (n + 1) = w % 256 + 256 * (w / 256 % 256 ^ n) := by rw [Nat.pow_succ', Nat.mod_mul]
    rw [toLe, fromLe, ih, UInt8.toNat_ofNat', split]

theorem fromLe_lt (bs : List UInt8) : fromLe bs < 256 ^ bs.length := by
  induction bs with
  | nil => exact Nat.one_pos
  | cons b bs ih =>
    have := b.toNat_lt
    rw [fromLe, List.length_cons, Nat.pow_succ']
    omega

end CanBoot.Lib
