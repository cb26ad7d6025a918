import CanBoot.Fs.Partition
import Mathlib.Algebra.GroupWithZero.Nat

/-!
# The checksum is CRC-32

`crc32_buf` goes byte by byte through a table it builds on its first call. A shift of the register is linear in
exclusive or, so a step through the table is eight shifts of the whole register (`crcTable_eq`), and the table is the
same whatever was called before (`crc32BufFrom_eq`).
-/

namespace CanBoot

open Lib List

/-- CRC-32, bit by bit: every byte is added to a register of ones, which is then shifted down eight times, and the
polynomial 0xEDB88320 is added where a one falls out. -/
def crc32Bitwise (bytes : List UInt8) : UInt32 :=
  let shift (c : UInt32) : UInt32 := if c &&& 1 = 1 then (c >>> 1) ^^^ 0xEDB88320 else c >>> 1
  bytes.foldl (fun c p => shift (shift (shift (shift (shift (shift (shift (shift (c ^^^ p.toUInt32)))))))))
    0xFFFFFFFF ^^^ 0xFFFFFFFF

/-! ## A step through the table -/

theorem crcShift_xor (a b : UInt32) : crcShift (a ^^^ b) = crcShift a ^^^ crcShift b := by
  have low : ∀ c : UInt32, c &&& 1 = 0 ∨ c &&& 1 = 1 := fun c => by
    rw [← UInt32.toNat_inj, ← UInt32.toNat_inj, UInt32.toNat_and]
    exact (Nat.mod_two_eq_zero_or_one c.toNat).imp (Nat.and_one_is_mod _).trans (Nat.and_one_is_mod _).trans
  have shift : (a ^^^ b) >>> 1 = a >>> 1 ^^^ b >>> 1 := UInt32.shiftRight_xor
  have bit : (a ^^^ b) &&& 1 = (a &&& 1) ^^^ (b &&& 1) := by
    rw [← UInt32.toNat_inj]
    simp only [UInt32.toNat_and, UInt32.toNat_xor, Nat.and_xor_distrib_right]
  have twice : ∀ x y z : UInt32, x ^^^ y = (z ^^^ x) ^^^ (z ^^^ y) := fun x y z => by
    rw [UInt32.xor_comm z x, UInt32.xor_assoc, ← UInt32.xor_assoc z, UInt32.xor_self, UInt32.zero_xor]
  rw [crcShift, crcShift, crcShift, shift, bit]
  rcases low a with ha | ha <;> rcases low b with hb | hb <;> rw [ha, hb]
  · rfl
  · simp [UInt32.xor_comm (0xEDB88320 : UInt32), UInt32.xor_assoc]
  · simp [UInt32.xor_assoc]
  · simpa using twice _ _ _

/-- Shifts of a word whose low bits are clear only move it down. -/
theorem toNat_shifts : ∀ (k : Nat) (c : UInt32), c.toNat % 2 ^ k = 0 →
    ((replicate k ()).foldl (fun c _ => crcShift c) c).toNat = c.toNat / 2 ^ k
  | 0, c, _ => by simp
  | k + 1, c, clear => by
    have even : c.toNat % 2 = 0 := by
      rw [← Nat.mod_mod_of_dvd _ (show 2 ∣ 2 ^ (k + 1) from ⟨2 ^ k, Nat.pow_succ'⟩), clear]
    have half : (crcShift c).toNat = c.toNat / 2 := by
      rw [crcShift, if_neg fun one => ?_, UInt32.toNat_shiftRight]
      · rfl
      · have := congrArg UInt32.toNat one
        rw [UInt32.toNat_and, show (1 : UInt32).toNat = 1 from rfl, Nat.and_one_is_mod] at this
        omega
    rw [replicate_succ, foldl_cons, toNat_shifts k, half, Nat.div_div_eq_div_mul, Nat.pow_succ']
    rw [half]
    rw [Nat.pow_succ'] at clear
    obtain ⟨d, whole⟩ := Nat.dvd_of_mod_eq_zero clear
    rw [whole, Nat.mul_assoc, Nat.mul_div_cancel_left _ (by decide), Nat.mul_mod_right]

theorem crcTable_eq (x : UInt32) : crcTable (x &&& 0xFF) ^^^ (x >>> 8) = crcTable x := by
  have split : x = (x &&& (0xFF : UInt32)) ^^^ (x >>> 8 <<< 8) := by
    have mask : ∀ i (inside : i < 32), (255#32)[i] = decide (i < 8) := by decide
    rw [← UInt32.toBitVec_inj]
    ext i inside
    by_cases low : i < 8
    · simp [mask, low]
    · simp [mask, low, show 8 + (i - 8) = i by omega, BitVec.getLsbD_eq_getElem inside]
  have xor : ∀ a b, crcTable (a ^^^ b) = crcTable a ^^^ crcTable b := fun a b => by
    simp only [crcTable, replicate, foldl_cons, foldl_nil, crcShift_xor]
  have high : crcTable (x >>> 8 <<< 8) = x >>> 8 := by
    have low : (x >>> 8 <<< 8).toNat = x.toNat / 256 * 256 := by
      rw [UInt32.toNat_shiftLeft, UInt32.toNat_shiftRight]
      have := x.toNat_lt
      simp [Nat.shiftLeft_eq, Nat.shiftRight_eq_div_pow]
      omega
    rw [← UInt32.toNat_inj, crcTable, toNat_shifts 8 _ (by omega), low, UInt32.toNat_shiftRight]
    simp [Nat.shiftRight_eq_div_pow]
  conv_rhs => rw [split, xor, high]

theorem crcStep_eq (c : UInt32) (p : UInt8) : crcStep c p = crcTable (c ^^^ p.toUInt32) := by
  have small : p.toUInt32 >>> 8 = 0 := by
    have := p.toNat_lt
    rw [← UInt32.toNat_inj, UInt32.toNat_shiftRight]
    simp [Nat.shiftRight_eq_div_pow]
    omega
  rw [← crcTable_eq, UInt32.shiftRight_xor, small, UInt32.xor_zero, crcStep]

/-! ## The static table -/

/-- A table that was built is right. -/
def CrcStatics.Right (s : CrcStatics) : Prop :=
  s.built = true → ∀ i, i < 256 → s.table i = crcTable (UInt32.ofNat i)

theorem CrcStatics.Right.build {s : CrcStatics} (right : s.Right) {i : Nat} (small : i < 256) :
    s.build.table i = crcTable (UInt32.ofNat i) := by
  have fill : ∀ n (t : Nat → UInt32), (range n).foldl (fun t i j => if j = i then crcTable (UInt32.ofNat i) else t j) t =
      fun j => if j < n then crcTable (UInt32.ofNat j) else t j := by
    intro n t
    induction n with
    | zero => simp
    | succ n ih =>
      rw [range_succ, foldl_concat, ih]
      funext j
      grind
  rw [CrcStatics.build]
  split
  · next built => exact right built i small
  · rw [fill]
    exact if_pos small

theorem CrcStatics.right_after (calls : List (Buf × Nat)) : (CrcStatics.after calls).Right := by
  have keeps : ∀ s : CrcStatics, s.Right → (calls.foldl (fun s call => (crc32BufFrom s call.1 call.2).2) s).Right := by
    induction calls with
    | nil => exact fun s right => right
    | cons call calls ih => exact fun s right => ih _ fun _ i small => right.build small
  exact keeps _ nofun

theorem crc32BufFrom_eq {s : CrcStatics} (right : s.Right) (b : Buf) (n : Nat) :
    (crc32BufFrom s b n).1 = (bytesAt b 0 n).foldl crcStep 0xFFFFFFFF ^^^ 0xFFFFFFFF := by
  simp only [crc32BufFrom]
  congr 2
  funext c p
  have small : ((c ^^^ p.toUInt32) &&& 0xFF).toNat < 256 := by
    rw [UInt32.toNat_and]
    exact Nat.lt_succ_of_le Nat.and_le_right
  rw [right.build small, UInt32.ofNat_toNat, crcStep]

/-- **`crc32_buf` is CRC-32**, whatever was summed before: the sum that the calls on the partition tables use is that of
the bits, one by one. -/
theorem crc32_bitwise (calls : List (Buf × Nat)) (b : Buf) (n : Nat) :
    (crc32BufFrom (.after calls) b n).1 = crc32Bitwise (bytesAt b 0 n) ∧
      crc32Buf b n = (crc32Bitwise (bytesAt b 0 n)).toNat := by
  have sum : (bytesAt b 0 n).foldl crcStep 0xFFFFFFFF ^^^ 0xFFFFFFFF = crc32Bitwise (bytesAt b 0 n) := by
    rw [crc32Bitwise]
    congr 2
    funext c p
    rw [crcStep_eq, crcTable]
    simp only [replicate, foldl_cons, foldl_nil, crcShift, UInt32.xor_comm (0xEDB88320 : UInt32)]
  exact ⟨(crc32BufFrom_eq (CrcStatics.right_after calls) b n).trans sum, congrArg UInt32.toNat sum⟩

end CanBoot
