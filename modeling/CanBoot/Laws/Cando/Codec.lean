import CanBoot.Cando.Codec
import CanBoot.Lib.Base64

/-!
# What the codecs give back

The codecs of `encoding.c` round-trip what they see, which is the text before the first zero byte
(`codecs_binary_safe_iff`). Those of `crypto.c` see the whole string and round-trip it, and their writes stay in
their buffers (`crypto_base64_inverts`).
-/

namespace CanBoot.Cando

open Lib.Base64 Nat List

/-! ## hex -/

theorem hexDigits_reads : ∀ n, n < 16 → unhexNibble (hexDigits.getD n 0) = n ∧ hexDigits.getD n 0 ≠ 0 := by
  decide +kernel

/-- The digits of a byte. -/
def hexPair (b : UInt8) : List UInt8 :=
  [hexDigits.getD (b.toNat >>> 4) 0, hexDigits.getD (b.toNat &&& 0xF) 0]

theorem nibbles (b : UInt8) : b.toNat >>> 4 < 16 ∧ b.toNat &&& 0xF < 16 ∧
    UInt8.ofNat ((b.toNat >>> 4) <<< 4 ||| (b.toNat &&& 0xF)) = b := by
  have small := b.toNat_lt
  have low : b.toNat &&& 0xF = b.toNat % 16 := and_two_pow_sub_one_eq_mod b.toNat 4
  rw [low, shiftRight_eq_div_pow, ← shiftLeft_add_eq_or_of_lt (by omega), shiftLeft_eq]
  refine ⟨by omega, by omega, ?_⟩
  rw [show b.toNat / 2 ^ 4 * 2 ^ 4 + b.toNat % 16 = b.toNat by omega, UInt8.ofNat_toNat]

theorem hDecodeLoop_pairs (src : List UInt8) : hDecodeLoop (src.flatMap hexPair) = some src := by
  induction src with
  | nil => rfl
  | cons b src ih =>
    obtain ⟨high, low, whole⟩ := nibbles b
    rw [flatMap_cons, hexPair]
    simp only [cons_append, nil_append, hDecodeLoop, (hexDigits_reads _ high).1,
      (hexDigits_reads _ low).1, ih, Int.toNat_natCast, whole]
    rw [if_neg (by omega)]
    rfl

theorem hexPair_ne_zero (src : List UInt8) : (0 : UInt8) ∉ src.flatMap hexPair := by
  intro on
  obtain ⟨b, _, zero⟩ := mem_flatMap.mp on
  obtain ⟨high, low, _⟩ := nibbles b
  simp only [hexPair, mem_cons, not_mem_nil, or_false] at zero
  rcases zero with h | h
  · exact (hexDigits_reads _ high).2 h.symm
  · exact (hexDigits_reads _ low).2 h.symm

theorem length_pairs (src : List UInt8) : (src.flatMap hexPair).length = src.length * 2 := by
  simp [hexPair, length_flatMap]

/-- hex gives back the text before the first zero byte. -/
theorem hDecode_hEncode {s : List UInt8} (fits : s.length ≤ 8191) : hDecode [hEncode [.string s]] = .string (cstr s) := by
  have short := length_cstr_le s
  have encoded : hEncode [.string s] = .string ((cstr s).flatMap hexPair) := by
    show Value.string _ = _
    rw [if_neg (by omega), take_length]
    rfl
  have sees : cstr ((cstr s).flatMap hexPair) = (cstr s).flatMap hexPair := cstr_eq_self.mpr (hexPair_ne_zero _)
  rw [encoded, hDecode]
  simp only [argCstr, argStr, getElem?_cons_zero, Option.map_some, sees, length_pairs]
  rw [if_neg (by omega), if_neg (by omega), show (cstr s).length * 2 / 2 * 2 = (cstr s).length * 2 by omega,
    ← length_pairs, take_length, hDecodeLoop_pairs]

/-! ## Alphabets -/

def std : Alphabet where
  digit n := b64Std.getD n 0
  value := b64ValueStd
  value_digit := by decide +kernel
  digit_ne_pad := by decide +kernel
  digit_ne_zero := by decide +kernel

def url : Alphabet where
  digit n := b64Url.getD n 0
  value := b64ValueUrl
  value_digit := by decide +kernel
  digit_ne_pad := by decide +kernel
  digit_ne_zero := by decide +kernel

/-- The digits and values of an alphabet, as the source passes them. -/
structure Serves (al : Alphabet) (alphabet : List UInt8) (valFn : UInt8 → Int) : Prop where
  digit : ∀ n, al.digit n = alphabet.getD n 0
  value : al.value = valFn

theorem serves_std : Serves std b64Std b64ValueStd := ⟨fun _ => rfl, rfl⟩

theorem serves_url : Serves url b64Url b64ValueUrl := ⟨fun _ => rfl, rfl⟩

namespace Serves

variable {al : Alphabet} {alphabet : List UInt8} {valFn : UInt8 → Int} (serves : Serves al alphabet valFn)

include serves

theorem digits_eq (v : Nat) : digits alphabet v = al.digits v := by
  simp only [digits, Alphabet.digits, serves.digit]
  rfl

theorem lastDigits_one (x : UInt8) : lastDigits alphabet [x] = al.encode [x] := by
  have word : x.toNat <<< 16 = join x 0 0 := by simp [join]
  rw [lastDigits, Alphabet.encode, word, serves.digits_eq]
  rfl

theorem lastDigits_two (x y : UInt8) : lastDigits alphabet [x, y] = al.encode [x, y] := by
  have word : x.toNat <<< 16 ||| y.toNat <<< 8 = join x y 0 := by simp [join]
  rw [lastDigits, Alphabet.encode, word, serves.digits_eq]
  rfl

theorem quadBytes_eq (p q r s : UInt8) : quadBytes valFn p q r s = al.quad p q r s := by
  rw [← serves.value]
  rfl

end Serves

/-! ## base64 -/

section Base64

variable {al : Alphabet} {alphabet : List UInt8} {valFn : UInt8 → Int} (serves : Serves al alphabet valFn)

include serves

/-- The loop of `b_encode` and the last digits after it, in a buffer that is large enough. -/
theorem bEncodeLoop_eq {cap : Nat} {src out : List UInt8} (fits : out.length + (src.length + 2) / 3 * 4 ≤ cap) :
    ∃ rest out', bEncodeLoop alphabet cap src out = (rest, out') ∧
      out' ++ lastDigits alphabet rest = out ++ al.encode src := by
  induction src using Alphabet.encode.induct generalizing out with
  | case1 x y z rest ih =>
    simp only [length_cons] at fits
    obtain ⟨left, out', loop, whole⟩ := @ih (out ++ digits alphabet _) (by
      simp only [digits, length_append, length_cons, length_nil]
      omega)
    refine ⟨left, out', ?_, ?_⟩
    · rw [bEncodeLoop, if_pos (by omega)]
      exact loop
    · rw [whole, serves.digits_eq, append_assoc]
      rfl
  | case2 x y => exact ⟨_, out, rfl, by rw [serves.lastDigits_two]⟩
  | case3 x => exact ⟨_, out, rfl, by rw [serves.lastDigits_one]⟩
  | case4 => exact ⟨_, out, rfl, rfl⟩

omit serves in
theorem foldl_pushBelow {size : Nat} {out bytes : List UInt8} (fits : out.length + bytes.length ≤ size) :
    bytes.foldl (pushBelow size) out = out ++ bytes := by
  induction bytes generalizing out with
  | nil => simp
  | cons b bytes ih =>
    simp only [length_cons] at fits
    rw [foldl_cons, pushBelow, if_pos (by omega), ih (by simp only [length_append, length_singleton]; omega),
      append_assoc]
    rfl

omit serves in
theorem putAll_eq {size : Nat} {out bytes : List UInt8} (fits : out.length + bytes.length ≤ size) :
    putAll size out bytes = some (out ++ bytes) := by
  induction bytes generalizing out with
  | nil => simp [putAll]
  | cons b bytes ih =>
    simp only [length_cons] at fits
    rw [putAll, foldlM_cons, put, if_pos (by omega)]
    show putAll size (out ++ [b]) bytes = _
    rw [ih (by simp only [length_append, length_singleton]; omega), append_assoc]
    rfl

/-- The loop of `b_decode`, in a buffer that is large enough. -/
theorem bDecodeLoop_eq {size : Nat} {src out : List UInt8} (whole : src.length % 4 = 0)
    (fits : out.length + src.length / 4 * 3 ≤ size) :
    bDecodeLoop valFn size src out = (al.decode src).map (out ++ ·) := by
  induction src, whole using quads_induction generalizing out with
  | quad p q r s rest left ih =>
    simp only [length_cons] at fits
    rw [bDecodeLoop, serves.quadBytes_eq, Alphabet.decode]
    cases read : al.quad p q r s with
    | none => rfl
    | some bytes =>
      have few := Alphabet.length_quad_le read
      simp only
      rw [foldl_pushBelow (by omega), ih (by rw [length_append]; omega)]
      cases al.decode rest <;> simp
  | nil => simp [bDecodeLoop, Alphabet.decode]

/-- The loop of `do_b64_decode`, in a buffer that is large enough. -/
theorem decodeLoop_eq {size : Nat} {src out : List UInt8} (whole : src.length % 4 = 0)
    (fits : out.length + src.length / 4 * 3 ≤ size) :
    decodeLoop valFn size src out = some ((al.decode src).map (out ++ ·)) := by
  induction src, whole using quads_induction generalizing out with
  | quad p q r s rest left ih =>
    simp only [length_cons] at fits
    rw [decodeLoop, serves.quadBytes_eq, Alphabet.decode]
    cases read : al.quad p q r s with
    | none => rfl
    | some bytes =>
      have few := Alphabet.length_quad_le read
      simp only
      rw [putAll_eq (by omega), Option.bind_eq_bind, Option.bind_some, ih (by rw [length_append]; omega)]
      cases al.decode rest <;> simp
  | nil => simp [decodeLoop, Alphabet.decode]

omit serves in
/-- The loop of `do_b64_encode` is that of `b_encode`, in a buffer that is large enough. -/
theorem encodeLoop_eq {size : Nat} {src out : List UInt8} (fits : out.length + (src.length + 2) / 3 * 4 ≤ size) :
    encodeLoop alphabet size src out = some (bEncodeLoop alphabet size src out) := by
  induction src using Alphabet.encode.induct generalizing out with
  | case1 x y z rest ih =>
    simp only [length_cons] at fits
    rw [encodeLoop, bEncodeLoop, if_pos (by omega), putAll_eq (by simp only [digits, length_cons, length_nil]; omega)]
    exact ih (by simp only [digits, length_append, length_cons, length_nil]; omega)
  | _ => rfl

end Base64

theorem length_lastDigits (alphabet rest : List UInt8) :
    lastDigits alphabet rest = [] ∨ (lastDigits alphabet rest).length = 4 := by
  rcases rest with _ | ⟨x, _ | ⟨y, _ | ⟨z, rest⟩⟩⟩
  · exact .inl rfl
  · exact .inr rfl
  · exact .inr rfl
  · exact .inl rfl

theorem bEncode_eq {s : List UInt8} (fits : s.length ≤ 12285) : bEncode [.string s] = .string (std.encode (cstr s)) := by
  have short := length_cstr_le s
  have room : ([] : List UInt8).length + ((cstr s).length + 2) / 3 * 4 ≤ 16383 := by
    rw [length_nil]
    omega
  obtain ⟨rest, out, loop, whole⟩ := bEncodeLoop_eq serves_std room
  have size : (std.encode (cstr s)).length = _ := Alphabet.length_encode (cstr s)
  rw [nil_append] at whole
  rw [← whole, length_append] at size
  simp only [bEncode, argCstr, argStr, getElem?_cons_zero, Option.map_some, loop]
  rw [← whole]
  -- what is left after the loop is written only if four more digits fit, and then they do
  split
  · rfl
  · rename_i full
    rcases length_lastDigits b64Std rest with none | four
    · rw [none, append_nil]
    · omega

theorem bDecode_bEncode {s : List UInt8} (fits : s.length ≤ 12285) : bDecode [bEncode [.string s]] = .string (cstr s) := by
  have short := length_cstr_le s
  have sees : cstr (std.encode (cstr s)) = std.encode (cstr s) := cstr_eq_self.mpr (Alphabet.encode_ne_zero _)
  have size : (std.encode (cstr s)).length = _ := Alphabet.length_encode (cstr s)
  rw [bEncode_eq fits, bDecode]
  simp only [argCstr, argStr, getElem?_cons_zero, Option.map_some, sees]
  rw [if_neg (by omega), bDecodeLoop_eq serves_std (by omega) (by rw [length_nil]; omega), Alphabet.decode_encode]
  rfl

/-- **The codecs of `encoding.c` give back exactly the strings without a zero byte.** -/
theorem codecs_binary_safe_iff (s : List UInt8) :
    (s.length ≤ 8191 → (hDecode [hEncode [.string s]] = .string s ↔ 0 ∉ s)) ∧
      (s.length ≤ 12285 → (bDecode [bEncode [.string s]] = .string s ↔ 0 ∉ s)) := by
  refine ⟨fun fits => ?_, fun fits => ?_⟩
  · rw [hDecode_hEncode fits, Value.string.injEq, cstr_eq_self]
  · rw [bDecode_bEncode fits, Value.string.injEq, cstr_eq_self]

theorem codecs_binary_safe_text :
    (hDecode [hEncode [.string [65, 66]]] = .string [65, 66] ↔ 0 ∉ ([65, 66] : List UInt8)) ∧
      (bDecode [bEncode [.string [65, 66]]] = .string [65, 66] ↔ 0 ∉ ([65, 66] : List UInt8)) :=
  ⟨(codecs_binary_safe_iff [65, 66]).1 (by decide), (codecs_binary_safe_iff [65, 66]).2 (by decide)⟩

/-- A zero byte is lost, with all that follows it. -/
theorem codecs_lose_zero : hDecode [hEncode [.string [65, 0, 66]]] = .string [65] ∧
    bDecode [bEncode [.string [65, 0, 66]]] = .string [65] := by
  decide +kernel

/-! ## crypto.base64 -/

section Crypto

variable {al : Alphabet} {alphabet : List UInt8} {valFn : UInt8 → Int} (serves : Serves al alphabet valFn)

include serves

theorem doB64Encode_eq (forCall : String) {s : List UInt8} (fits : s.length ≤ 6144) :
    doB64Encode alphabet forCall [.string s] = some (.value (.string (al.encode s))) := by
  have room : ([] : List UInt8).length + (s.length + 2) / 3 * 4 ≤ 8192 := by
    rw [length_nil]
    omega
  obtain ⟨rest, out, loop, whole⟩ := bEncodeLoop_eq serves room
  have size : (al.encode s).length = _ := Alphabet.length_encode s
  rw [nil_append] at whole
  rw [← whole, length_append] at size
  simp only [doB64Encode, argStr, getElem?_cons_zero]
  rw [if_neg (by omega), encodeLoop_eq room, loop, ← whole]
  show (putAll 8192 out (lastDigits alphabet rest)).bind _ = _
  rw [putAll_eq (by omega)]
  rfl

theorem doB64Decode_eq (tolerateUnpadded : Bool) (forCall : String) {src text : List UInt8}
    (whole : src.length % 4 = 0) (fits : src.length ≤ 8192) (read : al.decode src = some text) :
    doB64Decode valFn tolerateUnpadded forCall [.string src] = some (.value (.string text)) := by
  simp only [doB64Decode, argStr, getElem?_cons_zero]
  have full : (src.length % 4 != 0) = false := by simp [whole]
  simp only [full, Bool.and_false, Bool.false_eq_true, false_and, if_false]
  rw [if_neg (by omega), if_neg (by omega), decodeLoop_eq serves whole (by rw [length_nil]; omega), read]
  rfl

/-- Text whose trailing padding was removed is read like the whole. -/
theorem doB64Decode_strip (forCall : String) {s : List UInt8} (fits : s.length ≤ 6144) :
    doB64Decode valFn true forCall [.string (strip (al.encode s))] = some (.value (.string s)) := by
  obtain ⟨body, k, split, clean, few⟩ := @Alphabet.encode_body al s
  have size : (al.encode s).length = _ := Alphabet.length_encode s
  rw [split, strip_body clean]
  rw [split, length_append, length_replicate] at size
  by_cases padded : body.length % 4 = 0
  · have none : k = 0 := by omega
    subst none
    have text : al.decode body = some s := by
      rw [← @Alphabet.decode_encode al s, split, replicate_zero, append_nil]
    exact doB64Decode_eq serves true forCall padded (by omega) text
  · have missing : 4 - body.length % 4 = k := by omega
    have short : (true && body.length % 4 != 0) = true := by simpa using padded
    simp only [doB64Decode, argStr, getElem?_cons_zero, short, missing, true_and, if_true]
    have whole : body ++ replicate k 61 = al.encode s := split.symm
    have length : (al.encode s).length = body.length + k := by
      rw [split, length_append, length_replicate]
    rw [if_neg (by omega), whole, if_neg (by omega), if_neg (by omega),
      decodeLoop_eq serves (by omega) (by rw [length_nil]; omega), Alphabet.decode_encode]
    rfl

end Crypto

/-- **`crypto.base64` and `crypto.base64url` invert**: no call throws, no write leaves its buffer, and the url
decoder does without the padding. -/
theorem crypto_base64_inverts {s : List UInt8} (fits : s.length ≤ 6144) :
    ∃ e u, cB64Encode [.string s] = some (.value (.string e)) ∧ cB64Decode [.string e] = some (.value (.string s)) ∧
      cB64urlEncode [.string s] = some (.value (.string u)) ∧ cB64urlDecode [.string u] = some (.value (.string s)) ∧
      cB64urlDecode [.string (strip u)] = some (.value (.string s)) := by
  have size : ∀ al : Alphabet, (al.encode s).length % 4 = 0 ∧ (al.encode s).length ≤ 8192 := by
    intro al
    rw [Alphabet.length_encode]
    omega
  exact ⟨std.encode s, url.encode s, doB64Encode_eq serves_std _ fits,
    doB64Decode_eq serves_std _ _ (size std).1 (size std).2 (Alphabet.decode_encode s),
    doB64Encode_eq serves_url _ fits,
    doB64Decode_eq serves_url _ _ (size url).1 (size url).2 (Alphabet.decode_encode s),
    doB64Decode_strip serves_url _ fits⟩

theorem crypto_base64_inverts_byte : ∃ e u, cB64Encode [.string [0]] = some (.value (.string e)) ∧
    cB64Decode [.string e] = some (.value (.string [0])) ∧ cB64urlEncode [.string [0]] = some (.value (.string u)) ∧
    cB64urlDecode [.string u] = some (.value (.string [0])) ∧
    cB64urlDecode [.string (strip u)] = some (.value (.string [0])) :=
  crypto_base64_inverts (by decide)

end CanBoot.Cando
