import Mathlib.Data.List.DropRight
import Mathlib.Data.Nat.Bitwise

/-!
# Base 64

Three bytes are a word of twenty-four bits and four digits. A last group of one or two bytes is completed with
zero bits and marked by padding. An alphabet is a choice of digits that can be read back; everything else about
the encoding is the same for every alphabet (`Alphabet.decode_encode`).
-/

namespace CanBoot.Lib.Base64

open List Nat

/-- The padding character `=`. -/
def pad : UInt8 := 61

/-- Three bytes as one word. -/
def join (x y z : UInt8) : Nat := x.toNat <<< 16 ||| y.toNat <<< 8 ||| z.toNat

/-- Four digits as one word. -/
def rejoin (a b c d : Nat) : Nat := a <<< 18 ||| b <<< 12 ||| c <<< 6 ||| d

/-- The digit of a word at a bit. -/
def sextet (v at_ : Nat) : Nat := (v >>> at_) &&& 0x3F

/-- The byte of a word at a bit. -/
def octet (v at_ : Nat) : UInt8 := UInt8.ofNat ((v >>> at_) &&& 0xFF)

theorem quads_tail {p q r s : UInt8} {rest : List UInt8} (whole : (p :: q :: r :: s :: rest).length % 4 = 0) :
    rest.length % 4 = 0 := by
  simp only [length_cons] at whole
  omega

/-- Induction over a text four characters at a time. -/
theorem quads_induction {motive : (src : List UInt8) → src.length % 4 = 0 → Prop} (nil : motive [] rfl)
    (quad : ∀ p q r s rest (whole : (p :: q :: r :: s :: rest).length % 4 = 0),
      motive rest (quads_tail whole) → motive (p :: q :: r :: s :: rest) whole) :
    ∀ (src : List UInt8) (whole : src.length % 4 = 0), motive src whole
  | [], _ => nil
  | p :: q :: r :: s :: rest, whole =>
    quad p q r s rest whole (quads_induction nil quad rest (quads_tail whole))
  | [_], odd | [_, _], odd | [_, _, _], odd => nomatch odd

/-! ## Words -/

variable (v at_ : Nat)

theorem sextet_eq : sextet v at_ = v / 2 ^ at_ % 64 := by
  rw [sextet, shiftRight_eq_div_pow]
  exact and_two_pow_sub_one_eq_mod _ 6

theorem sextet_lt : sextet v at_ < 64 := by
  rw [sextet_eq]
  exact mod_lt _ (by decide)

theorem octet_eq : octet v at_ = UInt8.ofNat (v / 2 ^ at_ % 256) := by
  rw [octet, shiftRight_eq_div_pow]
  exact congrArg UInt8.ofNat (and_two_pow_sub_one_eq_mod _ 8)

variable (x y z : UInt8)

theorem join_eq : join x y z = x.toNat * 65536 + y.toNat * 256 + z.toNat := by
  have hy := y.toNat_lt
  have hz := z.toNat_lt
  have low : y.toNat <<< 8 ||| z.toNat = y.toNat * 256 + z.toNat := by
    rw [← shiftLeft_add_eq_or_of_lt hz, shiftLeft_eq]
  rw [join, Nat.or_assoc, low, ← shiftLeft_add_eq_or_of_lt (by omega), shiftLeft_eq]
  omega

theorem rejoin_eq {a b c d : Nat} (hb : b < 64) (hc : c < 64) (hd : d < 64) :
    rejoin a b c d = a * 262144 + b * 4096 + c * 64 + d := by
  have low : c <<< 6 ||| d = c * 64 + d := by
    rw [← shiftLeft_add_eq_or_of_lt hd, shiftLeft_eq]
  have mid : b <<< 12 ||| (c * 64 + d) = b * 4096 + (c * 64 + d) := by
    rw [← shiftLeft_add_eq_or_of_lt (by omega), shiftLeft_eq]
  rw [rejoin, Nat.or_assoc, Nat.or_assoc, low, mid, ← shiftLeft_add_eq_or_of_lt (by omega), shiftLeft_eq]
  omega

/-- **A word is its digits.** -/
theorem rejoin_sextets :
    rejoin (sextet (join x y z) 18) (sextet (join x y z) 12) (sextet (join x y z) 6) (sextet (join x y z) 0) =
      join x y z := by
  have hx := x.toNat_lt
  have hy := y.toNat_lt
  have hz := z.toNat_lt
  rw [rejoin_eq (sextet_lt ..) (sextet_lt ..) (sextet_lt ..)]
  simp only [sextet_eq]
  rw [join_eq]
  omega

/-- The digits of a word whose last byte, or last two bytes, are zero. -/
theorem sextet_one : sextet (join x 0 0) 6 = 0 ∧ sextet (join x 0 0) 0 = 0 := by
  simp only [sextet_eq, join_eq]
  constructor <;> simp <;> omega

theorem sextet_two : sextet (join x y 0) 0 = 0 := by
  simp only [sextet_eq, join_eq]
  simp
  omega

theorem octets_join : octet (join x y z) 16 = x ∧ octet (join x y z) 8 = y ∧ octet (join x y z) 0 = z := by
  have hx := x.toNat_lt
  have hy := y.toNat_lt
  have hz := z.toNat_lt
  simp only [octet_eq, join_eq]
  refine ⟨?_, ?_, ?_⟩
  · rw [show (x.toNat * 65536 + y.toNat * 256 + z.toNat) / 2 ^ 16 % 256 = x.toNat by omega, UInt8.ofNat_toNat]
  · rw [show (x.toNat * 65536 + y.toNat * 256 + z.toNat) / 2 ^ 8 % 256 = y.toNat by omega, UInt8.ofNat_toNat]
  · rw [show (x.toNat * 65536 + y.toNat * 256 + z.toNat) / 2 ^ 0 % 256 = z.toNat by omega, UInt8.ofNat_toNat]

/-! ## Alphabets -/

/-- A choice of sixty-four digits, none of them zero or padding, and their values. -/
structure Alphabet where
  digit : Nat → UInt8
  value : UInt8 → Int
  value_digit : ∀ n, n < 64 → value (digit n) = n
  digit_ne_pad : ∀ n, n < 64 → digit n ≠ pad
  digit_ne_zero : ∀ n, n < 64 → digit n ≠ 0

namespace Alphabet

variable (al : Alphabet)

/-- The four digits of a word. -/
def digits (v : Nat) : List UInt8 :=
  [al.digit (sextet v 18), al.digit (sextet v 12), al.digit (sextet v 6), al.digit (sextet v 0)]

def encode : List UInt8 → List UInt8
  | x :: y :: z :: rest => al.digits (join x y z) ++ encode rest
  | [x, y] => (al.digits (join x y 0)).take 3 ++ [pad]
  | [x] => (al.digits (join x 0 0)).take 2 ++ [pad, pad]
  | [] => []

/-- The value of a digit, with padding told apart from what is no digit. -/
def valueOrPad (p : UInt8) : Int := if p = pad then -2 else al.value p

/-- The bytes of four characters. -/
def quad (p q r s : UInt8) : Option (List UInt8) :=
  let a := al.value p
  let b := al.value q
  let c := al.valueOrPad r
  let d := al.valueOrPad s
  if a < 0 ∨ b < 0 ∨ c = -1 ∨ d = -1 then none
  else
    let v := rejoin a.toNat b.toNat (if c < 0 then 0 else c.toNat) (if d < 0 then 0 else d.toNat)
    some (octet v 16 :: (if 0 ≤ c then [octet v 8] else []) ++ if 0 ≤ d then [octet v 0] else [])

def decode : List UInt8 → Option (List UInt8)
  | p :: q :: r :: s :: rest => do return (← al.quad p q r s) ++ (← decode rest)
  | [] => some []
  | _ => none

variable {al}

theorem value_sextet : al.value (al.digit (sextet v at_)) = sextet v at_ :=
  al.value_digit _ (sextet_lt v at_)

theorem valueOrPad_sextet : al.valueOrPad (al.digit (sextet v at_)) = sextet v at_ := by
  rw [valueOrPad, if_neg (al.digit_ne_pad _ (sextet_lt v at_)), value_sextet]

theorem valueOrPad_pad : al.valueOrPad pad = -2 := if_pos rfl

theorem quad_three : al.quad (al.digit (sextet (join x y z) 18)) (al.digit (sextet (join x y z) 12))
      (al.digit (sextet (join x y z) 6)) (al.digit (sextet (join x y z) 0)) = some [x, y, z] := by
  obtain ⟨hx, hy, hz⟩ := octets_join x y z
  simp only [quad, value_sextet, valueOrPad_sextet, Int.toNat_natCast]
  rw [if_neg (by omega), if_neg (by omega), if_neg (by omega), if_pos (by omega), if_pos (by omega),
    rejoin_sextets, hx, hy, hz]
  rfl

theorem quad_two : al.quad (al.digit (sextet (join x y 0) 18)) (al.digit (sextet (join x y 0) 12))
      (al.digit (sextet (join x y 0) 6)) pad = some [x, y] := by
  obtain ⟨hx, hy, _⟩ := octets_join x y 0
  have word := rejoin_sextets x y 0
  rw [sextet_two] at word
  simp only [quad, value_sextet, valueOrPad_sextet, valueOrPad_pad, Int.toNat_natCast]
  rw [if_neg (by omega), if_neg (by omega), if_pos (by omega), if_pos (by omega), if_neg (by omega), word, hx, hy]
  rfl

theorem quad_one :
    al.quad (al.digit (sextet (join x 0 0) 18)) (al.digit (sextet (join x 0 0) 12)) pad pad = some [x] := by
  obtain ⟨hx, _, _⟩ := octets_join x 0 0
  have word := rejoin_sextets x 0 0
  rw [(sextet_one x).1, (sextet_one x).2] at word
  simp only [quad, value_sextet, valueOrPad_pad, Int.toNat_natCast]
  rw [if_neg (by omega), if_pos (by omega), if_neg (by omega), word, hx]
  rfl

theorem length_quad_le {p q r s : UInt8} {bytes : List UInt8} (read : al.quad p q r s = some bytes) :
    bytes.length ≤ 3 := by
  have atMost : ∀ (c : Prop) [Decidable c] (b : UInt8), (if c then [b] else []).length ≤ 1 := by
    intro c _ b
    split <;> simp
  simp only [quad] at read
  split at read
  · exact nomatch read
  · cases read
    rw [length_append, length_cons]
    exact Nat.add_le_add (succ_le_succ (atMost _ _)) (atMost _ _)

variable (s : List UInt8)

/-- **Decoding inverts encoding**, for every alphabet. -/
theorem decode_encode : al.decode (al.encode s) = some s := by
  induction s using encode.induct with
  | case1 x y z rest ih =>
    show (do return (← al.quad _ _ _ _) ++ (← al.decode (al.encode rest))) = _
    rw [quad_three, ih]
    rfl
  | case2 x y =>
    show (do return (← al.quad _ _ _ _) ++ (← al.decode [])) = _
    rw [quad_two]
    rfl
  | case3 x =>
    show (do return (← al.quad _ _ _ _) ++ (← al.decode [])) = _
    rw [quad_one]
    rfl
  | case4 => rfl

theorem length_encode : (al.encode s).length = (s.length + 2) / 3 * 4 := by
  induction s using encode.induct with
  | case1 x y z rest ih =>
    rw [encode, length_append, ih]
    simp only [digits, length_cons, length_nil]
    omega
  | case2 x y | case3 x => simp [encode, digits]
  | case4 => rfl

theorem digits_ne_zero : (0 : UInt8) ∉ al.digits v := by
  intro on
  simp only [digits, mem_cons, not_mem_nil, or_false] at on
  rcases on with h | h | h | h <;> exact al.digit_ne_zero _ (sextet_lt ..) h.symm

theorem encode_ne_zero : (0 : UInt8) ∉ al.encode s := by
  induction s using encode.induct with
  | case1 x y z rest ih =>
    rw [encode, mem_append]
    exact fun on => on.elim (digits_ne_zero _) ih
  | case2 x y | case3 x =>
    rw [encode, mem_append]
    exact fun on => on.elim (fun on => digits_ne_zero _ (mem_of_mem_take on)) (by simp [pad])
  | case4 => simp [encode]

theorem digits_ne_pad : pad ∉ al.digits v := by
  intro on
  simp only [digits, mem_cons, not_mem_nil, or_false] at on
  rcases on with h | h | h | h <;> exact al.digit_ne_pad _ (sextet_lt ..) h.symm

/-- An encoding is digits, then padding. -/
theorem encode_body : ∃ body k, al.encode s = body ++ replicate k pad ∧ pad ∉ body ∧ k < 4 := by
  induction s using encode.induct with
  | case1 x y z rest ih =>
    obtain ⟨body, k, split, clean, few⟩ := ih
    refine ⟨al.digits (join x y z) ++ body, k, by rw [encode, split, append_assoc], fun on => ?_, few⟩
    exact (mem_append.mp on).elim (digits_ne_pad _) clean
  | case2 x y => exact ⟨_, 1, rfl, fun on => digits_ne_pad _ (mem_of_mem_take on), by decide⟩
  | case3 x => exact ⟨_, 2, rfl, fun on => digits_ne_pad _ (mem_of_mem_take on), by decide⟩
  | case4 => exact ⟨[], 0, rfl, by simp, by decide⟩

end Alphabet

/-- Text without its trailing padding. -/
def strip (s : List UInt8) : List UInt8 := s.rdropWhile (· == pad)

theorem strip_body {body : List UInt8} (clean : pad ∉ body) (k : Nat) :
    strip (body ++ replicate k pad) = body := by
  induction k with
  | zero =>
    rw [replicate_zero, append_nil, strip, rdropWhile_eq_self_iff]
    intro some last
    exact clean (eq_of_beq last ▸ getLast_mem some)
  | succ k ih =>
    rw [replicate_succ', ← append_assoc, strip, rdropWhile_concat_pos _ _ _ (by simp)]
    exact ih

end CanBoot.Lib.Base64
