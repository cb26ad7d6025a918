import Mathlib.Data.List.Basic

/-!
# Byte buffers and little-endian words

A buffer is a total function from offsets to bytes: the code's bounds are stated where they
matter, and a partial copy is an update on a range. Words are natural numbers; a store truncates
to the word's width, as a C cast does, and a load assembles the bytes low end first.
-/

namespace CanBoot.Lib

open List

/-- The bytes of a C buffer, by offset. -/
abbrev Buf := Nat → UInt8

abbrev Bytes := List UInt8

/-- Truncation to `uint32_t`. -/
def u32 (n : Nat) : Nat := n % 4294967296

/-- `uint32_t` subtraction, which wraps below zero. -/
def sub32 (a b : Nat) : Nat := u32 (a + (4294967296 - u32 b))

/-- Truncation to `uint64_t`. -/
def u64 (n : Nat) : Nat := n % 18446744073709551616

/-- `uint64_t` subtraction, which wraps below zero. -/
def sub64 (a b : Nat) : Nat := u64 (a + (18446744073709551616 - u64 b))

/-- The `int` a `uint32_t` casts to. -/
def toInt32 (n : Nat) : Int := if n < 2147483648 then n else (n : Int) - 4294967296

/-- A `uint16_t` load. -/
def le16 (b : Buf) (off : Nat) : Nat := (b off).toNat + 256 * (b (off + 1)).toNat

/-- A `uint32_t` load. -/
def le32 (b : Buf) (off : Nat) : Nat := le16 b off + 65536 * le16 b (off + 2)

/-- A `uint64_t` load. -/
def le64 (b : Buf) (off : Nat) : Nat := le32 b off + 4294967296 * le32 b (off + 4)

/-- A byte store. -/
def putByte (b : Buf) (off : Nat) (x : UInt8) : Buf := fun i => if i = off then x else b i

/-- A `uint16_t` store. -/
def putLe16 (b : Buf) (off w : Nat) : Buf :=
  putByte (putByte b off (UInt8.ofNat w)) (off + 1) (UInt8.ofNat (w / 256))

/-- A `uint32_t` store. -/
def putLe32 (b : Buf) (off w : Nat) : Buf :=
  putLe16 (putLe16 b off w) (off + 2) (w / 65536)

/-- A `uint64_t` store. -/
def putLe64 (b : Buf) (off w : Nat) : Buf :=
  putLe32 (putLe32 b off w) (off + 4) (w / 4294967296)

/-- `memcpy(b + off, src, len)` with the source bytes as a list. -/
def putBytes (b : Buf) (off : Nat) (src : List UInt8) : Buf := fun i =>
  if off ≤ i ∧ i < off + src.length then src.getD (i - off) 0 else b i

/-- The `len` bytes from `off` on. -/
def bytesAt (b : Buf) (off len : Nat) : List UInt8 := (List.range len).map fun i => b (off + i)

/-! ## Truncation -/

variable {n : Nat}

@[simp] theorem u32_of_lt (h : n < 4294967296) : u32 n = n := Nat.mod_eq_of_lt h

theorem u64_of_lt (h : n < 18446744073709551616) : u64 n = n := Nat.mod_eq_of_lt h

variable {a : Nat}

theorem sub32_of_le {b : Nat} (ha : a < 4294967296) (h : b ≤ a) : sub32 a b = a - b := by
  unfold sub32 u32
  omega

theorem sub64_of_le {b : Nat} (ha : a < 18446744073709551616) (h : b ≤ a) : sub64 a b = a - b := by
  unfold sub64 u64
  omega

theorem u64_of_ge (past : 18446744073709551616 ≤ n) (h : n < 2 * 18446744073709551616) :
    u64 n = n - 18446744073709551616 := by
  unfold u64
  omega

theorem sub64_of_lt {b : Nat} (hb : b < 18446744073709551616) (h : a < b) :
    sub64 a b = a + (18446744073709551616 - b) := by
  unfold sub64 u64
  omega

theorem u32_lt (n : Nat) : u32 n < 4294967296 := Nat.mod_lt _ (by decide)

/-! ## Loads after stores -/

theorem putByte_same (b : Buf) (off : Nat) (x : UInt8) : putByte b off x off = x := if_pos rfl

variable {off i : Nat}

theorem putByte_of_ne (b : Buf) (x : UInt8) (h : i ≠ off) :
    putByte b off x i = b i := if_neg h

variable {b' b : Buf}

theorem putByte_congr {x : UInt8} (h : b i = b' i) : putByte b off x i = putByte b' off x i := by
  rw [putByte, putByte, h]

theorem putLe16_of_out (b : Buf) (w : Nat) (h : i < off ∨ off + 2 ≤ i) : putLe16 b off w i = b i := by
  rw [putLe16, putByte_of_ne _ _ (by omega), putByte_of_ne _ _ (by omega)]

theorem putLe32_of_out (b : Buf) (w : Nat) (h : i < off ∨ off + 4 ≤ i) : putLe32 b off w i = b i := by
  rw [putLe32, putLe16_of_out _ _ (by omega), putLe16_of_out _ _ (by omega)]

theorem putLe64_of_out (b : Buf) (w : Nat) (h : i < off ∨ off + 8 ≤ i) : putLe64 b off w i = b i := by
  rw [putLe64, putLe32_of_out _ _ (by omega), putLe32_of_out _ _ (by omega)]

/-- A store over a store at the same place. -/
theorem putLe32_putLe32 (b : Buf) (off v w : Nat) : putLe32 (putLe32 b off v) off w = putLe32 b off w := by
  funext i
  simp only [putLe32, putLe16, putByte]
  split_ifs <;> rfl

theorem putLe32_congr {w : Nat} (h : i < off ∨ off + 4 ≤ i → b i = b' i) : putLe32 b off w i = putLe32 b' off w i := by
  by_cases out : i < off ∨ off + 4 ≤ i
  · rw [putLe32_of_out _ _ out, putLe32_of_out _ _ out, h out]
  · simp only [putLe32, putLe16, putByte]
    split_ifs <;> first | rfl | omega

theorem putLe64_congr {w : Nat} (h : b i = b' i) : putLe64 b off w i = putLe64 b' off w i :=
  putLe32_congr fun _ => putLe32_congr fun _ => h

theorem le16_congr (h0 : b off = b' off) (h1 : b (off + 1) = b' (off + 1)) : le16 b off = le16 b' off := by
  rw [le16, le16, h0, h1]

theorem le32_congr (h : ∀ i, off ≤ i → i < off + 4 → b i = b' i) : le32 b off = le32 b' off := by
  rw [le32, le32, le16_congr (h _ (by omega) (by omega)) (h _ (by omega) (by omega)),
    le16_congr (h _ (by omega) (by omega)) (h _ (by omega) (by omega))]

theorem le64_congr (h : ∀ i, off ≤ i → i < off + 8 → b i = b' i) : le64 b off = le64 b' off := by
  rw [le64, le64, le32_congr fun i _ _ => h i (by omega) (by omega),
    le32_congr fun i _ _ => h i (by omega) (by omega)]

theorem le16_putLe16 (b : Buf) (off w : Nat) : le16 (putLe16 b off w) off = w % 65536 := by
  rw [le16, putLe16, putByte_same, putByte_of_ne _ _ (by omega), putByte_same,
    UInt8.toNat_ofNat', UInt8.toNat_ofNat']
  omega

variable {at' : Nat}

theorem le16_putLe16_of_ne (b : Buf) (w : Nat) (h : at' + 2 ≤ off ∨ off + 2 ≤ at') :
    le16 (putLe16 b off w) at' = le16 b at' :=
  le16_congr (putLe16_of_out b w (by omega)) (putLe16_of_out b w (by omega))

theorem le32_putLe32 (b : Buf) (off w : Nat) : le32 (putLe32 b off w) off = w % 4294967296 := by
  rw [le32, putLe32, le16_putLe16_of_ne _ _ (by omega), le16_putLe16, le16_putLe16]
  omega

theorem le32_putLe32_of_ne (b : Buf) (w : Nat) (h : at' + 4 ≤ off ∨ off + 4 ≤ at') :
    le32 (putLe32 b off w) at' = le32 b at' :=
  le32_congr fun _ _ _ => putLe32_of_out b w (by omega)

theorem le32_putLe64_of_ne (b : Buf) (w : Nat) (h : at' + 4 ≤ off ∨ off + 8 ≤ at') :
    le32 (putLe64 b off w) at' = le32 b at' :=
  le32_congr fun _ _ _ => putLe64_of_out b w (by omega)

theorem le64_putLe64 (b : Buf) (off w : Nat) : le64 (putLe64 b off w) off = w % 18446744073709551616 := by
  rw [le64, putLe64, le32_putLe32_of_ne _ _ (by omega), le32_putLe32, le32_putLe32]
  omega

theorem le64_putLe64_of_ne (b : Buf) (w : Nat) (h : at' + 8 ≤ off ∨ off + 8 ≤ at') :
    le64 (putLe64 b off w) at' = le64 b at' :=
  le64_congr fun _ _ _ => putLe64_of_out b w (by omega)

theorem le64_putLe32_of_ne (b : Buf) (w : Nat) (h : at' + 8 ≤ off ∨ off + 4 ≤ at') :
    le64 (putLe32 b off w) at' = le64 b at' :=
  le64_congr fun _ _ _ => putLe32_of_out b w (by omega)

/-- A load from a stretch of a buffer. -/
theorem le32_shift (b : Buf) (s off : Nat) : le32 (fun i => b (s + i)) off = le32 b (s + off) := by
  simp only [le32, le16, Nat.add_assoc]

/-- A store to a stretch of a buffer. -/
theorem putLe32_shift (b : Buf) (s off w i : Nat) :
    putLe32 (fun j => b (s + j)) off w i = putLe32 b (s + off) w (s + i) := by
  simp only [putLe32, putLe16, putByte, Nat.add_assoc, Nat.add_right_inj]

theorem le16_lt (b : Buf) (off : Nat) : le16 b off < 65536 := by
  have h0 := (b off).toNat_lt
  have h1 := (b (off + 1)).toNat_lt
  unfold le16
  omega

theorem le32_lt (b : Buf) (off : Nat) : le32 b off < 4294967296 := by
  have h0 := le16_lt b off
  have h1 := le16_lt b (off + 2)
  unfold le32
  omega

theorem le64_lt (b : Buf) (off : Nat) : le64 b off < 18446744073709551616 := by
  have h0 := le32_lt b off
  have h1 := le32_lt b (off + 4)
  unfold le64
  omega

/-! ## Byte ranges -/

@[simp] theorem length_bytesAt (b : Buf) (off len : Nat) : (bytesAt b off len).length = len := by
  simp only [bytesAt, length_map, length_range]

theorem getElem?_bytesAt (b : Buf) (off : Nat) {len : Nat} (h : i < len) :
    (bytesAt b off len)[i]? = some (b (off + i)) := by
  simp only [bytesAt, getElem?_map, getElem?_range h, Option.map_some]

theorem bytesAt_congr {off' len : Nat}
    (h : ∀ i, i < len → b (off + i) = b' (off' + i)) : bytesAt b off len = bytesAt b' off' len := by
  apply map_congr_left
  intro i hi
  exact h i (mem_range.mp hi)

theorem bytesAt_add (b : Buf) (off m n : Nat) : bytesAt b off (m + n) = bytesAt b off m ++ bytesAt b (off + m) n := by
  simp only [bytesAt, range_add, map_append, map_map, Function.comp_def, Nat.add_assoc]

theorem putBytes_of_out (b : Buf) (src : List UInt8) (h : i < off ∨ off + src.length ≤ i)
    : putBytes b off src i = b i := by
  rw [putBytes, if_neg (by omega)]

theorem putBytes_congr (src : List UInt8) (h : b i = b' i) : putBytes b off src i = putBytes b' off src i := by
  rw [putBytes, putBytes, h]

theorem putBytes_of_in (b : Buf) (src : List UInt8) (h : i < src.length) :
    putBytes b off src (off + i) = src.getD i 0 := by
  rw [putBytes, if_pos (by omega), Nat.add_sub_cancel_left]

theorem putBytes_nil (b : Buf) (off : Nat) : putBytes b off [] = b := by
  funext i
  rw [putBytes_of_out _ _ (by simp; omega)]

theorem putBytes_putBytes (b : Buf) (off : Nat) (xs ys : List UInt8) :
    putBytes (putBytes b off xs) (off + xs.length) ys = putBytes b off (xs ++ ys) := by
  funext i
  by_cases h1 : i < off
  · rw [putBytes_of_out _ _ (by omega), putBytes_of_out _ _ (by omega),
      putBytes_of_out _ _ (Or.inl h1)]
  · obtain ⟨k, rfl⟩ : ∃ k, i = off + k := ⟨i - off, by omega⟩
    by_cases h2 : k < xs.length
    · rw [putBytes_of_out _ _ (by omega), putBytes_of_in _ _ h2,
        putBytes_of_in _ _ (by rw [length_append]; omega), getD_eq_getElem?_getD,
        getD_eq_getElem?_getD, getElem?_append_left h2]
    · by_cases h3 : k < xs.length + ys.length
      · obtain ⟨j, rfl⟩ : ∃ j, k = xs.length + j := ⟨k - xs.length, by omega⟩
        rw [← Nat.add_assoc, putBytes_of_in _ _ (by omega), Nat.add_assoc,
          putBytes_of_in _ _ (by rw [length_append]; omega),
          getD_eq_getElem?_getD, getD_eq_getElem?_getD,
          getElem?_append_right (by omega), Nat.add_sub_cancel_left]
      · rw [putBytes_of_out _ _ (by omega), putBytes_of_out _ _ (by omega),
          putBytes_of_out _ _ (by rw [length_append]; omega)]

theorem getD_take (src : List UInt8) (h : i < n) : (src.take n).getD i 0 = src.getD i 0 := by
  rw [getD_eq_getElem?_getD, getElem?_take_of_lt h, getD_eq_getElem?_getD]

/-- What was copied in reads back. -/
theorem bytesAt_putBytes (b : Buf) (off : Nat) (src : List UInt8) :
    bytesAt (putBytes b off src) off src.length = src := by
  apply ext_getElem?
  intro i
  by_cases h : i < src.length
  · rw [getElem?_bytesAt _ _ h, putBytes_of_in _ _ h, getD_eq_getElem?_getD,
      getElem?_eq_getElem h, Option.getD_some]
  · rw [getElem?_eq_none (by simpa using h), getElem?_eq_none (by omega)]

end CanBoot.Lib
