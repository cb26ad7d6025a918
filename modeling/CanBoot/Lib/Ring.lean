import CanBoot.Lib.Words
import Mathlib.Data.List.GetD

/-!
# Byte rings with free-running counters

The head and the tail of a ring are 32-bit counters that are never reduced: they count the bytes taken out and put
in since the start, and wrap. What is in the ring is the difference, and a byte's place is its counter modulo the
capacity. That is sound when the capacity divides the range of the counters.

A ring is described by its history: all bytes put in so far, and how many of them were taken out (`Ring.Holds`).
-/

namespace CanBoot.Lib

open Nat List

structure Ring where
  buf : Buf
  head : Nat
  tail : Nat

namespace Ring

/-- How many bytes are in the ring. -/
def used (r : Ring) : Nat := sub32 r.tail r.head

/-- Bytes are put in where the tail points, up to the end of the buffer at most. -/
def put (cap : Nat) (r : Ring) (bytes : List UInt8) : Ring :=
  ⟨putBytes r.buf (r.tail % cap) bytes, r.head, u32 (r.tail + bytes.length)⟩

/-- The first `n` bytes, in one piece or two. -/
def front (cap : Nat) (r : Ring) (n : Nat) : List UInt8 :=
  let chunk := min n (cap - r.head % cap)
  bytesAt r.buf (r.head % cap) chunk ++ bytesAt r.buf 0 (n - chunk)

def drop (r : Ring) (n : Nat) : Ring := { r with head := u32 (r.head + n) }

/-- A ring after its history: `kept` was put in, and the first `taken` bytes of it were taken out. -/
structure Holds (cap : Nat) (r : Ring) (kept : List UInt8) (taken : Nat) : Prop where
  head : r.head = u32 taken
  tail : r.tail = u32 kept.length
  order : taken ≤ kept.length
  room : kept.length ≤ taken + cap
  bytes : ∀ i, taken ≤ i → i < kept.length → r.buf (i % cap) = kept.getD i 0

theorem holds_empty (cap : Nat) (buf : Buf) : Holds cap ⟨buf, 0, 0⟩ [] 0 :=
  ⟨rfl, rfl, Nat.le_refl 0, Nat.zero_le _, fun _ _ none => nomatch none⟩

section

variable {cap : Nat} (positive : 0 < cap) (small : cap < 4294967296) (divides : cap ∣ 4294967296)
  {r : Ring} {kept : List UInt8} {taken : Nat} (holds : Holds cap r kept taken)

include holds

include small in
theorem Holds.used_eq : r.used = kept.length - taken := by
  have order := holds.order
  have room := holds.room
  rw [used, holds.head, holds.tail, sub32]
  simp only [u32]
  omega

include divides in
theorem Holds.tail_mod : r.tail % cap = kept.length % cap := by
  rw [holds.tail, u32, mod_mod_of_dvd _ divides]

include divides in
theorem Holds.head_mod : r.head % cap = taken % cap := by
  rw [holds.head, u32, mod_mod_of_dvd _ divides]

include positive divides in
/-- **Putting bytes in extends the history.** -/
theorem Holds.put {bytes : List UInt8} (fits : kept.length + bytes.length ≤ taken + cap)
    (unbroken : r.tail % cap + bytes.length ≤ cap) : Holds cap (r.put cap bytes) (kept ++ bytes) taken := by
  have order := holds.order
  rw [holds.tail_mod divides] at unbroken
  refine ⟨holds.head, ?_, ?_, ?_, fun i low high => ?_⟩
  · show u32 (r.tail + bytes.length) = _
    rw [holds.tail, length_append]
    simp only [u32]
    omega
  · rw [length_append]
    omega
  · rw [length_append]
    omega
  · show putBytes r.buf (r.tail % cap) bytes (i % cap) = _
    rw [holds.tail_mod divides]
    rw [length_append] at high
    by_cases old : i < kept.length
    · rw [getD_append _ _ _ _ old, putBytes_of_out, holds.bytes i low old]
      by_contra inside
      -- two counters less than `cap` apart have different places
      obtain ⟨j, place⟩ : ∃ j, i % cap = kept.length % cap + j := ⟨i % cap - kept.length % cap, by omega⟩
      have same : i % cap = (kept.length + j) % cap := by
        rw [add_mod, mod_eq_of_lt (a := j) (by omega), ← place, mod_mod]
      have apart := sub_mod_eq_zero_of_mod_eq same.symm
      rw [mod_eq_of_lt (by omega)] at apart
      omega
    · obtain ⟨j, rfl⟩ : ∃ j, i = kept.length + j := ⟨i - kept.length, by omega⟩
      have place : (kept.length + j) % cap = kept.length % cap + j := by
        rw [add_mod, mod_eq_of_lt (a := j) (by omega), mod_eq_of_lt (by omega)]
      rw [place, putBytes_of_in _ _ (by omega), getD_append_right _ _ _ _ (by omega), Nat.add_sub_cancel_left]

include positive divides in
/-- **The front is the oldest part of the history** that was not taken. -/
theorem Holds.front_eq {n : Nat} (fits : taken + n ≤ kept.length) : r.front cap n = (kept.drop taken).take n := by
  have room := holds.room
  have start := mod_lt taken positive
  apply ext_getElem?
  intro i
  by_cases inside : i < n
  · have expected : ((kept.drop taken).take n)[i]? = some (kept.getD (taken + i) 0) := by
      rw [getElem?_take_of_lt inside, getElem?_drop, getD_eq_getElem?_getD,
        getElem?_eq_getElem (by omega), Option.getD_some]
    rw [expected, ← holds.bytes (taken + i) (by omega) (by omega), front, holds.head_mod divides]
    by_cases first : i < min n (cap - taken % cap)
    · have place : (taken + i) % cap = taken % cap + i := by
        rw [add_mod, mod_eq_of_lt (a := i) (by omega), mod_eq_of_lt (by omega)]
      rw [getElem?_append_left (by rwa [length_bytesAt]), getElem?_bytesAt _ _ first, place]
    · rw [getElem?_append_right (by rw [length_bytesAt]; exact Nat.le_of_not_lt first), length_bytesAt, getElem?_bytesAt _ _ (by omega)]
      have place : (taken + i) % cap = i - min n (cap - taken % cap) := by
        rw [add_mod, mod_eq_of_lt (a := i) (by omega)]
        rw [mod_eq_sub_mod (by omega), mod_eq_of_lt (by omega)]
        omega
      rw [place, Nat.zero_add]
  · rw [getElem?_eq_none, getElem?_eq_none]
    · simp only [length_take]
      omega
    · simp only [front, length_append, length_bytesAt]
      omega

theorem Holds.drop {n : Nat} (fits : taken + n ≤ kept.length) : Holds cap (r.drop n) kept (taken + n) := by
  refine ⟨?_, holds.tail, fits, ?_, fun i low high => holds.bytes i (by omega) high⟩
  · show u32 (r.head + n) = _
    rw [holds.head]
    simp only [u32]
    omega
  · have room := holds.room
    omega

end

end Ring

end CanBoot.Lib
