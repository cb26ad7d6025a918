import CanBoot.Cando.Codec

/-!
# hex, random bytes and key derivation (`cando_port/lib/crypto.c`)

A call that writes outside its array has no reply, as in `CanBoot.Cando.Codec`. What Mbed TLS does is a parameter
(`Mbed`): it fills its output with as many bytes as it is asked for, or fails with an error number. The generator's
state is passed along.
-/

namespace CanBoot.Cando

/-- `(int)libutil_arg_num_at`, for the whole numbers scripts pass here. -/
def argNum (args : List Value) (i : Nat) (default_ : Int) : Int :=
  match args[i]? with
  | some (.number n) => n
  | _ => default_

/-! ## hex -/

/-- `hex_encode` into an array of `size` bytes: what the array holds then, the terminating zero with it. -/
def hexEncode (size : Nat) (input : List UInt8) : Option (List UInt8) := do
  let out ← putAll size [] (input.flatMap fun b =>
    [hexDigits.getD (b.toNat >>> 4) 0, hexDigits.getD (b.toNat &&& 0xF) 0])
  put size out 0

/-- `hex_decode_nibble`. -/
def hexDecodeNibble (c : UInt8) : Int :=
  if 48 ≤ c ∧ c ≤ 57 then (c.toNat : Int) - 48
  else if 97 ≤ c ∧ c ≤ 102 then (c.toNat : Int) - 97 + 10
  else if 65 ≤ c ∧ c ≤ 70 then (c.toNat : Int) - 65 + 10
  else -1

/-- The loop of `hex_decode`; inside, none for malformed input. -/
def hexDecodeLoop (size : Nat) : List UInt8 → List UInt8 → Option (Option (List UInt8))
  | p :: q :: rest, out =>
    let hi := hexDecodeNibble p
    let lo := hexDecodeNibble q
    if hi < 0 ∨ lo < 0 then some none
    else do
      let out ← put size out (UInt8.ofNat (hi.toNat <<< 4 ||| lo.toNat))
      hexDecodeLoop size rest out
  | _, out => some (some out)

/-- `hex_decode` into an array of `size` bytes, called with the capacity `cap`. -/
def hexDecode (size cap : Nat) (input : List UInt8) : Option (Option (List UInt8)) :=
  if input.length &&& 1 ≠ 0 then some none
  else if input.length / 2 > cap then some none
  else hexDecodeLoop size input []

/-- `crypto.hex.encode`. -/
def cHexEncode (args : List Value) : Option Reply :=
  match argStr args 0 with
  | none => some (.throw "EINVAL" "crypto.hex.encode: bytes argument required")
  | some s =>
    if s.length * 2 > 8192 then some (.throw "ENOMEM" "crypto.hex.encode: input too large (max 4096 bytes)")
    else do
      let out ← hexEncode 8192 s
      return .value (.string (out.take (s.length * 2)))

/-- `crypto.hex.decode`. -/
def cHexDecode (args : List Value) : Option Reply :=
  match argStr args 0 with
  | none => some (.throw "EINVAL" "crypto.hex.decode: hex string argument required")
  | some s =>
    if s.length / 2 > 4096 then some (.throw "ENOMEM" "crypto.hex.decode: input too large (max 8192 chars)")
    else
      match hexDecode 4096 4096 s with
      | none => none
      | some none => some (.throw "EINVAL" "crypto.hex.decode: malformed hex input")
      | some (some out) => some (.value (.string out))

/-! ## Encodings and digests -/

/-- `CryptoEnc`. -/
inductive CryptoEnc where
  | hex
  | bytes
  | bad
deriving DecidableEq, Repr

/-- `enc_from_arg`. -/
def encFromArg (args : List Value) (i : Nat) : CryptoEnc :=
  match argCstr args i with
  | none => .hex
  | some s =>
    if s = ascii "hex" then .hex
    else if s = ascii "bytes" then .bytes
    else if s = ascii "binary" then .bytes
    else .bad

/-- `push_digest`. -/
def pushDigest (digest : List UInt8) (enc : CryptoEnc) (forCall : String) : Option Reply :=
  match enc with
  | .bad => some (.throw "EINVAL" (forCall ++ ": unsupported encoding (use 'hex' or 'bytes')"))
  | .bytes => some (.value (.string digest))
  | .hex =>
    if digest.length * 2 + 1 > 129 then some (.throw "ENOMEM" (forCall ++ ": digest too large for hex buffer"))
    else do
      let out ← hexEncode 129 digest
      return .value (.string (out.take (digest.length * 2)))

/-- The digests of `mbedtls_md_type_t` that have a name. -/
inductive Md where
  | md5
  | sha1
  | sha224
  | sha256
  | sha384
  | sha512
deriving DecidableEq, Repr

/-- `resolve_md`. -/
def resolveMd (name : List UInt8) : Option Md :=
  if name = ascii "md5" then some .md5
  else if name = ascii "sha1" then some .sha1
  else if name = ascii "sha224" then some .sha224
  else if name = ascii "sha256" then some .sha256
  else if name = ascii "sha384" then some .sha384
  else if name = ascii "sha512" then some .sha512
  else none

/-- What is used of Mbed TLS. A function that returns an error number has not filled its output. -/
structure Mbed (σ : Type) where
  ctrDrbgSeed : σ → Except Int σ
  ctrDrbgRandom : (n : Nat) → σ → Except Int (Vector UInt8 n × σ)
  mdInfoFromType : Md → Bool
  pkcs5Pbkdf2HmacExt : (md : Md) → (password salt : List UInt8) → (iterations keyLength : Nat) →
    Except Int (Vector UInt8 keyLength)
  hkdf : (md : Md) → (salt : Option (List UInt8)) → (ikm : List UInt8) → (info : Option (List UInt8)) → (okmLen : Nat) →
    Except Int (Vector UInt8 okmLen)

/-! ## `crypto.randomBytes` -/

/-- `g_rng_drbg` and `g_rng_seeded`. -/
structure Rng (σ : Type) where
  drbg : σ
  seeded : Bool

variable {σ : Type} (m : Mbed σ)

/-- `rng_seed`. -/
def rngSeed (g : Rng σ) : Option (Rng σ) :=
  if g.seeded then some g
  else
    match m.ctrDrbgSeed g.drbg with
    | .error _ => none
    | .ok d => some ⟨d, true⟩

/-- The loop of `rng_draw`, in requests of at most `MBEDTLS_CTR_DRBG_MAX_REQUEST` bytes. -/
def rngDrawLoop (n : Nat) (g : Rng σ) (out : List UInt8) : Option (List UInt8 × Rng σ) :=
  if n = 0 then some (out, g)
  else
    let chunk := if n > 1024 then 1024 else n
    match m.ctrDrbgRandom chunk g.drbg with
    | .error _ => none
    | .ok (bytes, d) => rngDrawLoop (n - chunk) { g with drbg := d } (out ++ bytes.toList)
termination_by n
decreasing_by split <;> omega

/-- `rng_draw`. -/
def rngDraw (n : Nat) (g : Rng σ) : Option (List UInt8 × Rng σ) :=
  (rngSeed m g).bind fun g => rngDrawLoop m n g []

/-- `crypto.randomBytes`, from the generator's state. -/
def cRandomBytes (g : Rng σ) (args : List Value) : Option Reply :=
  let n := argNum args 0 16
  if n < 0 ∨ n > 4096 then some (.throw "EINVAL" "crypto.randomBytes: size must be 0..4096")
  else
    match rngDraw m n.toNat g with
    | none => some (.throw "EIO" "crypto.randomBytes: DRBG generation failed")
    | some (buf, _) => pushDigest buf (encFromArg args 1) "crypto.randomBytes"

/-! ## `crypto.pbkdf2` and `crypto.hkdf` -/

/-- `kdf_digest`: the digest, or the error it throws. -/
def kdfDigest (args : List Value) (i : Nat) (forCall : String) : Except Reply Md :=
  match argCstr args i with
  | none => .ok .sha256
  | some name =>
    if name = [] then .ok .sha256
    else
      match resolveMd name with
      | none => .error (.throw "EINVAL"
          (forCall ++ ": unsupported digest '" ++ String.ofList (name.map fun b => Char.ofNat b.toNat) ++ "'"))
      | some md => .ok md

/-- `crypto.pbkdf2`. -/
def cPbkdf2 (args : List Value) : Option Reply :=
  match argStr args 0, argStr args 1 with
  | some ps, some ss =>
    let iter := argNum args 2 1
    let klen := argNum args 3 32
    if iter < 1 ∨ iter > 10000000 then some (.throw "EINVAL" "crypto.pbkdf2: iterations must be 1..10000000")
    else if klen < 1 ∨ klen > 256 then some (.throw "EINVAL" "crypto.pbkdf2: keylen must be 1..256")
    else
      match kdfDigest args 4 "crypto.pbkdf2" with
      | .error thrown => some thrown
      | .ok md =>
        match m.pkcs5Pbkdf2HmacExt md ps ss iter.toNat klen.toNat with
        | .error rc => some (.throw "EIO" ("crypto.pbkdf2: mbedtls failed (rc=" ++ toString rc ++ ")"))
        | .ok out => pushDigest out.toList (encFromArg args 5) "crypto.pbkdf2"
  | _, _ => some (.throw "EINVAL" "crypto.pbkdf2: password and salt required")

/-- `crypto.hkdf`. -/
def cHkdf (args : List Value) : Option Reply :=
  match argStr args 0 with
  | none => some (.throw "EINVAL" "crypto.hkdf: secret (input keying material) required")
  | some secret =>
    let len := argNum args 3 32
    if len < 1 ∨ len > 256 then some (.throw "EINVAL" "crypto.hkdf: length must be 1..256")
    else
      match kdfDigest args 4 "crypto.hkdf" with
      | .error thrown => some thrown
      | .ok md =>
        if !m.mdInfoFromType md then some (.throw "EINVAL" "crypto.hkdf: digest not available in this build")
        else
          match m.hkdf md (argStr args 1) secret (argStr args 2) len.toNat with
          | .error rc => some (.throw "EIO" ("crypto.hkdf: mbedtls failed (rc=" ++ toString rc ++ ")"))
          | .ok out => pushDigest out.toList (encFromArg args 5) "crypto.hkdf"

end CanBoot.Cando
