import CanBoot.Cando.Crypto
import CanBoot.Laws.Cando.Codec
import Mathlib.Data.Vector.Defs

/-!
# hex and generated bytes in `crypto`

`hex_encode` writes a terminating zero behind the digits. `push_digest` counts it; `crypto.hex.encode` does not, and
writes behind its array for inputs of exactly 4096 bytes (`crypto_hex_in_bounds_iff`). The array of `push_digest` has
room for 64 bytes in hex, and the calls that generate up to 4096 or 256 bytes throw away what does not fit
(`admitted_lengths_iff`).
-/

namespace CanBoot.Cando

open Option
open List hiding Vector

theorem hexDecodeNibble_eq (c : UInt8) : hexDecodeNibble c = unhexNibble c := by
  unfold hexDecodeNibble unhexNibble
  split_ifs <;> omega

/-! ## `hex_encode` and `hex_decode` -/

variable {size : Nat} {s : List UInt8}

theorem hexEncode_eq (fits : s.length * 2 + 1 ≤ size) : hexEncode size s = some (s.flatMap hexPair ++ [0]) := by
  have room : ([] : List UInt8).length + (s.flatMap hexPair).length ≤ size := by
    rw [length_nil, length_pairs]
    omega
  show (putAll size [] (s.flatMap hexPair)).bind _ = _
  rw [putAll_eq room, nil_append, bind_some, put, if_pos (by rw [length_pairs]; omega)]

/-- Digits that fill the array leave no room for the zero. -/
theorem hexEncode_full (full : s.length * 2 = size) : hexEncode size s = none := by
  have room : ([] : List UInt8).length + (s.flatMap hexPair).length ≤ size := by
    rw [length_nil, length_pairs]
    omega
  show (putAll size [] (s.flatMap hexPair)).bind _ = _
  rw [putAll_eq room, nil_append, bind_some, put, if_neg (by rw [length_pairs]; omega)]

theorem hexDecodeLoop_pairs : ∀ {s out : List UInt8}, out.length + s.length ≤ size →
    hexDecodeLoop size (s.flatMap hexPair) out = some (some (out ++ s))
  | [], out, _ => by simp [hexDecodeLoop]
  | b :: s, out, fits => by
    rw [length_cons] at fits
    obtain ⟨high, low, whole⟩ := nibbles b
    have rest : hexDecodeLoop size (s.flatMap hexPair) (out ++ [b]) = some (some (out ++ [b] ++ s)) :=
      hexDecodeLoop_pairs (by rw [length_append, length_singleton]; omega)
    rw [flatMap_cons, hexPair]
    simp only [cons_append, nil_append, hexDecodeLoop, hexDecodeNibble_eq, (hexDigits_reads _ high).1,
      (hexDigits_reads _ low).1, Int.toNat_natCast, whole]
    rw [if_neg (by omega), put, if_pos (by omega)]
    show hexDecodeLoop size (s.flatMap hexPair) (out ++ [b]) = _
    rw [rest, append_assoc, singleton_append]

/-- Half as many bytes as characters are written. -/
theorem hexDecodeLoop_ne_none {src out : List UInt8} (fits : out.length + src.length / 2 ≤ size) :
    hexDecodeLoop size src out ≠ none := by
  fun_induction hexDecodeLoop size src out with
  | case1 => simp
  | case2 p q rest out hi lo valid ih =>
    rw [put, if_pos (by simp only [length_cons] at fits; omega)]
    refine ih _ ?_
    simp only [length_cons, length_append, length_nil] at fits ⊢
    omega
  | case3 => simp

theorem cHexDecode_ne_none (admitted : s.length / 2 ≤ 4096) : cHexDecode [.string s] ≠ none := by
  simp only [cHexDecode, argStr, getElem?_cons_zero]
  rw [if_neg (by omega), hexDecode]
  split_ifs
  · simp
  · simp
  · have runs : hexDecodeLoop 4096 s [] ≠ none := hexDecodeLoop_ne_none (by rw [length_nil]; omega)
    cases read : hexDecodeLoop 4096 s [] with
    | none => exact absurd read runs
    | some r => cases r <;> simp

theorem cHexDecode_pairs (fits : s.length ≤ 4096) :
    cHexDecode [.string (s.flatMap hexPair)] = some (.value (.string s)) := by
  have even : (s.flatMap hexPair).length &&& 1 = 0 := by
    rw [length_pairs, Nat.and_one_is_mod]
    omega
  simp only [cHexDecode, argStr, getElem?_cons_zero]
  rw [length_pairs, if_neg (by omega), hexDecode, if_neg (not_not_intro even), length_pairs, if_neg (by omega),
    hexDecodeLoop_pairs (by rw [length_nil]; omega)]
  rfl

theorem take_pairs (s : List UInt8) : (s.flatMap hexPair ++ [0]).take (s.length * 2) = s.flatMap hexPair := by
  rw [← length_pairs, take_left']
  rfl

theorem cHexEncode_eq (fits : s.length < 4096) :
    cHexEncode [.string s] = some (.value (.string (s.flatMap hexPair))) := by
  simp only [cHexEncode, argStr, getElem?_cons_zero]
  rw [if_neg (by omega), hexEncode_eq (by omega)]
  show some (Reply.value (.string _)) = _
  rw [take_pairs]

theorem cHexEncode_full (full : s.length = 4096) : cHexEncode [.string s] = none := by
  simp only [cHexEncode, argStr, getElem?_cons_zero]
  rw [if_neg (by omega), hexEncode_full (by omega)]
  rfl

theorem pushDigest_hex (forCall : String) (fits : s.length ≤ 64) :
    pushDigest s .hex forCall = some (.value (.string (s.flatMap hexPair))) := by
  simp only [pushDigest]
  rw [if_neg (by omega), hexEncode_eq (by omega)]
  show some (Reply.value (.string _)) = _
  rw [take_pairs]

theorem pushDigest_large (forCall : String) (large : 64 < s.length) :
    pushDigest s .hex forCall = some (.throw "ENOMEM" (forCall ++ ": digest too large for hex buffer")) := by
  simp only [pushDigest]
  rw [if_pos (by omega)]

theorem pushDigest_ne_none (s : List UInt8) (enc : CryptoEnc) (forCall : String) : pushDigest s enc forCall ≠ none := by
  cases enc with
  | bad | bytes => simp [pushDigest]
  | hex =>
    by_cases fits : s.length ≤ 64
    · rw [pushDigest_hex forCall fits]
      simp
    · rw [pushDigest_large forCall (Nat.lt_of_not_le fits)]
      simp

/-- The calls keep to their arrays on `s`, as bytes to encode, as text to decode and as a digest, and `s` survives the
round trip. -/
structure HexInBounds (s : List UInt8) : Prop where
  encode : s.length * 2 ≤ 8192 → ∃ text, cHexEncode [.string s] = some (.value (.string text)) ∧
    cHexDecode [.string text] = some (.value (.string s))
  decode : s.length / 2 ≤ 4096 → cHexDecode [.string s] ≠ none
  digest : ∀ enc forCall, pushDigest s enc forCall ≠ none

/-- **Hex conversion stays in bounds for every argument but those of exactly 4096 bytes**, whose terminating zero
`crypto.hex.encode` writes behind its array. -/
theorem crypto_hex_in_bounds_iff (s : List UInt8) : HexInBounds s ↔ s.length ≠ 4096 := by
  constructor
  · intro holds full
    obtain ⟨text, encodes, -⟩ := holds.encode (by omega)
    rw [cHexEncode_full full] at encodes
    cases encodes
  · intro short
    refine ⟨fun admitted => ?_, cHexDecode_ne_none, pushDigest_ne_none s⟩
    exact ⟨_, cHexEncode_eq (by omega), cHexDecode_pairs (by omega)⟩

/-- 4096 zero bytes pass the size check and are written one byte too far. -/
theorem hex_encode_overruns : (List.replicate 4096 (0 : UInt8)).length * 2 ≤ 8192 ∧
    cHexEncode [.string (List.replicate 4096 0)] = none :=
  ⟨by rw [length_replicate], cHexEncode_full length_replicate⟩

/-! ## Generated bytes -/

/-- The reply is a string that stands for `bytes` in the encoding. -/
def Delivers (enc : CryptoEnc) (bytes : List UInt8) (reply : Option Reply) : Prop :=
  ∃ text, reply = some (.value (.string text)) ∧ match enc with
    | .hex => cHexDecode [.string text] = some (.value (.string bytes))
    | _ => text = bytes

theorem pushDigest_delivers_iff {bytes : List UInt8} {enc : CryptoEnc} (forCall : String) (known : enc ≠ .bad)
    (short : bytes.length ≤ 4096) :
    Delivers enc bytes (pushDigest bytes enc forCall) ↔ enc = .bytes ∨ bytes.length ≤ 64 := by
  cases enc with
  | bad => exact absurd rfl known
  | bytes => exact ⟨fun _ => .inl rfl, fun _ => ⟨bytes, rfl, rfl⟩⟩
  | hex =>
    constructor
    · rintro ⟨text, replies, -⟩
      by_contra large
      rw [pushDigest_large forCall (by omega)] at replies
      cases replies
    · intro fits
      have few : bytes.length ≤ 64 := fits.resolve_left (by simp)
      exact ⟨_, pushDigest_hex forCall few, cHexDecode_pairs short⟩

section Mbed

variable {σ : Type} (m : Mbed σ)

theorem length_rngDrawLoop {n : Nat} {g g' : Rng σ} {out buf : List UInt8}
    (draws : rngDrawLoop m n g out = some (buf, g')) : buf.length = out.length + n := by
  fun_induction rngDrawLoop m n g out with
  | case1 g out => cases draws; rfl
  | case2 => cases draws
  | case3 n g out some chunk bytes d read ih =>
    rw [ih draws, length_append, Vector.length_toList]
    have : chunk ≤ n := by
      show (if n > 1024 then 1024 else n) ≤ n
      split <;> omega
    omega

theorem length_rngDraw {n : Nat} {g g' : Rng σ} {buf : List UInt8} (draws : rngDraw m n g = some (buf, g')) :
    buf.length = n := by
  obtain ⟨start, -, loop⟩ := bind_eq_some_iff.1 draws
  rw [length_rngDrawLoop m loop, length_nil, Nat.zero_add]

/-- The calls that generate bytes. -/
inductive Generator (σ : Type) where
  | randomBytes (g : Rng σ)
  | pbkdf2
  | hkdf

/-- What the script gets. -/
def Generator.reply : Generator σ → List Value → Option Reply
  | .randomBytes g => cRandomBytes m g
  | .pbkdf2 => cPbkdf2 m
  | .hkdf => cHkdf m

/-- Where the encoding stands among the arguments. -/
def Generator.encArg : Generator σ → Nat
  | .randomBytes _ => 1
  | .pbkdf2 => 5
  | .hkdf => 5

/-- The arguments are admitted, Mbed TLS succeeds, and these are the bytes it generates. -/
inductive Generator.Generates : Generator σ → List Value → List UInt8 → Prop
  | randomBytes {g g' : Rng σ} {args : List Value} {n : Nat} {buf : List UInt8} (length : argNum args 0 16 = n)
    (range : n ≤ 4096) (draws : rngDraw m n g = some (buf, g')) : Generates (.randomBytes g) args buf
  | pbkdf2 {args : List Value} {password salt : List UInt8} {iter klen : Nat} {md : Md} {out : Vector UInt8 klen}
    (secret : argStr args 0 = some password) (salted : argStr args 1 = some salt)
    (count : argNum args 2 1 = iter) (counted : 1 ≤ iter ∧ iter ≤ 10000000)
    (length : argNum args 3 32 = klen) (range : 1 ≤ klen ∧ klen ≤ 256)
    (digest : kdfDigest args 4 "crypto.pbkdf2" = .ok md)
    (derives : m.pkcs5Pbkdf2HmacExt md password salt iter klen = .ok out) : Generates .pbkdf2 args out.toList
  | hkdf {args : List Value} {ikm : List UInt8} {len : Nat} {md : Md} {out : Vector UInt8 len}
    (secret : argStr args 0 = some ikm) (length : argNum args 3 32 = len) (range : 1 ≤ len ∧ len ≤ 256)
    (digest : kdfDigest args 4 "crypto.hkdf" = .ok md) (available : m.mdInfoFromType md = true)
    (derives : m.hkdf md (argStr args 1) ikm (argStr args 2) len = .ok out) : Generates .hkdf args out.toList

/-- What was generated goes to `push_digest`. -/
theorem Generator.Generates.reply_eq {call : Generator σ} {args : List Value} {bytes : List UInt8}
    (generates : call.Generates m args bytes) :
    bytes.length ≤ 4096 ∧ ∃ forCall, call.reply m args = pushDigest bytes (encFromArg args call.encArg) forCall := by
  cases generates with
  | randomBytes length range draws =>
    refine ⟨(length_rngDraw m draws).trans_le range, "crypto.randomBytes", ?_⟩
    simp only [Generator.reply, cRandomBytes, length]
    rw [if_neg (by omega), Int.toNat_natCast, draws]
    rfl
  | @pbkdf2 _ _ _ _ klen _ _ secret salted count counted length range digest derives =>
    refine ⟨by rw [Vector.length_toList]; omega, "crypto.pbkdf2", ?_⟩
    -- the key's length is in its type, so it is replaced as a variable
    obtain rfl : klen = (argNum args 3 32).toNat := by omega
    simp only [Generator.reply, cPbkdf2, secret, salted, count]
    rw [if_neg (by omega), if_neg (by omega), digest]
    simp only [Int.toNat_natCast, derives]
    rfl
  | @hkdf _ _ len _ _ secret length range digest available derives =>
    refine ⟨by rw [Vector.length_toList]; omega, "crypto.hkdf", ?_⟩
    obtain rfl : len = (argNum args 3 32).toNat := by omega
    simp only [Generator.reply, cHkdf, secret]
    rw [if_neg (by omega), digest]
    simp only [available, Bool.not_true, Bool.false_eq_true, if_false, derives]
    rfl

/-- **Admitted lengths succeed exactly as bytes, or up to 64 bytes in hex.** For every length `crypto.randomBytes`,
`crypto.pbkdf2` and `crypto.hkdf` admit, where Mbed TLS succeeds and the encoding is known: the call returns the
generated bytes in that encoding if and only if it is `bytes` or there are at most 64 of them. -/
theorem admitted_lengths_iff {call : Generator σ} {args : List Value} {bytes : List UInt8}
    (generates : call.Generates m args bytes) (known : encFromArg args call.encArg ≠ .bad) :
    Delivers (encFromArg args call.encArg) bytes (call.reply m args) ↔
      encFromArg args call.encArg = .bytes ∨ bytes.length ≤ 64 := by
  obtain ⟨short, forCall, replies⟩ := generates.reply_eq
  rw [replies]
  exact pushDigest_delivers_iff forCall known short

end Mbed

/-- A generator that yields zeros. -/
def zeros : Mbed Unit where
  ctrDrbgSeed := fun _ => .ok ()
  ctrDrbgRandom := fun n _ => .ok (Vector.replicate n 0, ())
  mdInfoFromType := fun _ => true
  pkcs5Pbkdf2HmacExt := fun _ _ _ _ n => .ok (Vector.replicate n 0)
  hkdf := fun _ _ _ _ n => .ok (Vector.replicate n 0)

theorem zeros_generates (klen : Nat) (range : 1 ≤ klen ∧ klen ≤ 256) :
    Generator.pbkdf2.Generates zeros [.string [1], .string [2], .number 1, .number klen] (replicate klen 0) := by
  have out : (Vector.replicate klen (0 : UInt8)).toList = replicate klen 0 := by simp
  rw [← out]
  exact .pbkdf2 rfl rfl rfl (by decide : 1 ≤ 1 ∧ 1 ≤ 10000000) rfl range rfl rfl

/-- 32 bytes in hex, the default, are delivered. -/
theorem admitted_lengths_default : Delivers .hex (List.replicate 32 0)
      (Generator.pbkdf2.reply zeros [.string [1], .string [2], .number 1, .number (32 : Nat)]) :=
  (admitted_lengths_iff zeros (zeros_generates 32 (by omega)) (by decide)).2 (.inr (by decide))

/-- 65 bytes in hex, the default, are not: the call throws. -/
theorem pbkdf2_too_large_for_hex :
    Generator.pbkdf2.reply zeros [.string [1], .string [2], .number 1, .number (65 : Nat)] =
      some (.throw "ENOMEM" "crypto.pbkdf2: digest too large for hex buffer") := by
  decide +kernel

end CanBoot.Cando
