import Mathlib.Algebra.GroupWithZero.Nat
import CanBoot.Lib.Words

/-!
# The clocks (`cando_port/lib/time.c`, `net/lwip_port/sys_arch.c`)

`hz` is what `canboot_tsc_hz` returns and `now` what `arch_now` reads.
-/

namespace CanBoot.Cando.Clock

open Lib

/-- A whole number as an `f64`: 53 bits of it, rounded to the nearest, ties to even. -/
def f64 (n : Nat) : Nat :=
  let ulp := 2 ^ (n.log2 - 52)
  let down := n / ulp
  if ulp < 2 * (n % ulp) ∨ ulp = 2 * (n % ulp) ∧ down % 2 = 1 then (down + 1) * ulp else down * ulp

/-- `t_us`. -/
def tUs (hz now : Nat) : Nat := f64 (if hz ≠ 0 then u64 (now * 1000000) / hz else 0)

/-- `sys_now`, for a frequency other than zero. -/
def sysNow (hz now : Nat) : Nat := u32 (u64 (now * 1000) / hz)

end CanBoot.Cando.Clock
