import CanBoot.Cando.Value

/-!
# hex and base64 (`cando_port/lib/encoding.c`, and the base64 part of `cando_port/lib/crypto.c`)

The loops run over what is left of the source, with the output written so far. The codecs of `encoding.c` take C
strings, stop when their static buffer is full and answer null to what they cannot read. Those of `crypto.c` take
CanDo strings, check sizes first and then write without a test, so a write outside the buffer is modelled as no
result (`put`).
-/

namespace CanBoot.Cando

/-! ## hex -/

def hexDigits : List UInt8 := ascii "0123456789abcdef"

/-- `unhex_nibble`. -/
def unhexNibble (c : UInt8) : Int :=
  if 48 ≤ c ∧ c ≤ 57 then (c.toNat : Int) - 48
  else if 97 ≤ c ∧ c ≤ 102 then 10 + ((c.toNat : Int) - 97)
  else if 65 ≤ c ∧ c ≤ 70 then 10 + ((c.toNat : Int) - 65)
  else -1

/-- `hex.encode`. -/
def hEncode (args : List Value) : Value :=
  match argCstr args 0 with
  | none => .null
  | some src =>
    let n := if src.length * 2 > 16384 - 1 then (16384 - 1) / 2 else src.length
    .string ((src.take n).flatMap fun b =>
      [hexDigits.getD (b.toNat >>> 4) 0, hexDigits.getD (b.toNat &&& 0xF) 0])

/-- The loop of `h_decode`, over the digits it reads. -/
def hDecodeLoop : List UInt8 → Option (List UInt8)
  | p :: q :: rest =>
    let hi := unhexNibble p
    let lo := unhexNibble q
    if hi < 0 ∨ lo < 0 then none
    else (hDecodeLoop rest).map (UInt8.ofNat (hi.toNat <<< 4 ||| lo.toNat) :: ·)
  | _ => some []

/-- `hex.decode`. -/
def hDecode (args : List Value) : Value :=
  match argCstr args 0 with
  | none => .null
  | some src =>
    if src.length % 2 ≠ 0 then .null
    else
      let outN := if src.length / 2 > 8192 then 8192 else src.length / 2
      match hDecodeLoop (src.take (outN * 2)) with
      | none => .null
      | some out => .string out

/-! ## base64 digits -/

def b64Std : List UInt8 := ascii "ABCDEFGHIJKLMNOPQRSTUVWXYZabcdefghijklmnopqrstuvwxyz0123456789+/"

def b64Url : List UInt8 := ascii "ABCDEFGHIJKLMNOPQRSTUVWXYZabcdefghijklmnopqrstuvwxyz0123456789-_"

/-- `b64_value`, `b64_value_std` and `b64_value_url`, which differ in the last two digits. -/
def b64Value (plus slash c : UInt8) : Int :=
  if 65 ≤ c ∧ c ≤ 90 then (c.toNat : Int) - 65
  else if 97 ≤ c ∧ c ≤ 122 then 26 + ((c.toNat : Int) - 97)
  else if 48 ≤ c ∧ c ≤ 57 then 52 + ((c.toNat : Int) - 48)
  else if c = plus then 62
  else if c = slash then 63
  else -1

/-- `b64_value`. -/
def b64ValueStd : UInt8 → Int := b64Value 43 47

/-- `b64_value_url`. -/
def b64ValueUrl : UInt8 → Int := b64Value 45 95

/-- The four digits of `v`. -/
def digits (alphabet : List UInt8) (v : Nat) : List UInt8 :=
  [alphabet.getD ((v >>> 18) &&& 0x3F) 0, alphabet.getD ((v >>> 12) &&& 0x3F) 0,
    alphabet.getD ((v >>> 6) &&& 0x3F) 0, alphabet.getD (v &&& 0x3F) 0]

/-- The digits written for the last one or two bytes. -/
def lastDigits (alphabet : List UInt8) : List UInt8 → List UInt8
  | [x] => (digits alphabet (x.toNat <<< 16)).take 2 ++ [61, 61]
  | [x, y] => (digits alphabet (x.toNat <<< 16 ||| y.toNat <<< 8)).take 3 ++ [61]
  | _ => []

/-- The bytes the decoders write for four characters, none for malformed ones. -/
def quadBytes (valFn : UInt8 → Int) (p q r s : UInt8) : Option (List UInt8) :=
  let a := valFn p
  let b := valFn q
  let c := if r = 61 then -2 else valFn r
  let d := if s = 61 then -2 else valFn s
  if a < 0 ∨ b < 0 ∨ c = -1 ∨ d = -1 then none
  else
    let v := a.toNat <<< 18 ||| b.toNat <<< 12 ||| (if c < 0 then 0 else c.toNat) <<< 6 |||
      (if d < 0 then 0 else d.toNat)
    some (UInt8.ofNat ((v >>> 16) &&& 0xFF) :: (if 0 ≤ c then [UInt8.ofNat ((v >>> 8) &&& 0xFF)] else []) ++
      if 0 ≤ d then [UInt8.ofNat (v &&& 0xFF)] else [])

/-! ## `base64.encode` and `base64.decode` -/

/-- The loop of `b_encode`: what is left of the source, and the output. -/
def bEncodeLoop (alphabet : List UInt8) (cap : Nat) : List UInt8 → List UInt8 → List UInt8 × List UInt8
  | x :: y :: z :: rest, out =>
    if out.length + 4 ≤ cap then
      bEncodeLoop alphabet cap rest
        (out ++ digits alphabet (x.toNat <<< 16 ||| y.toNat <<< 8 ||| z.toNat))
    else (x :: y :: z :: rest, out)
  | rest, out => (rest, out)

/-- `base64.encode`. -/
def bEncode (args : List Value) : Value :=
  match argCstr args 0 with
  | none => .null
  | some src =>
    let cap := 16384 - 1
    let (rest, out) := bEncodeLoop b64Std cap src []
    .string (if out.length + 4 ≤ cap then out ++ lastDigits b64Std rest else out)

/-- `if (out_n < sizeof(out)) out[out_n++] = b`. -/
def pushBelow (size : Nat) (out : List UInt8) (b : UInt8) : List UInt8 :=
  if out.length < size then out ++ [b] else out

/-- The loop of `b_decode`. -/
def bDecodeLoop (valFn : UInt8 → Int) (size : Nat) : List UInt8 → List UInt8 → Option (List UInt8)
  | p :: q :: r :: s :: rest, out =>
    match quadBytes valFn p q r s with
    | none => none
    | some bytes => bDecodeLoop valFn size rest (bytes.foldl (pushBelow size) out)
  | _, out => some out

/-- `base64.decode`. -/
def bDecode (args : List Value) : Value :=
  match argCstr args 0 with
  | none => .null
  | some src =>
    if src.length % 4 ≠ 0 then .null
    else
      match bDecodeLoop b64ValueStd 12288 src [] with
      | none => .null
      | some out => .string out

/-! ## `crypto.base64` and `crypto.base64url` -/

/-- `out[out_n++] = b` in a buffer of `size` bytes; a write outside it has no result. -/
def put (size : Nat) (out : List UInt8) (b : UInt8) : Option (List UInt8) :=
  if out.length < size then some (out ++ [b]) else none

def putAll (size : Nat) (out bytes : List UInt8) : Option (List UInt8) := bytes.foldlM (put size) out

/-- The loop of `do_b64_encode`. -/
def encodeLoop (alphabet : List UInt8) (size : Nat) : List UInt8 → List UInt8 → Option (List UInt8 × List UInt8)
  | x :: y :: z :: rest, out => do
    let out ← putAll size out (digits alphabet (x.toNat <<< 16 ||| y.toNat <<< 8 ||| z.toNat))
    encodeLoop alphabet size rest out
  | rest, out => some (rest, out)

/-- `do_b64_encode`. -/
def doB64Encode (alphabet : List UInt8) (forCall : String) (args : List Value) : Option Reply :=
  match argStr args 0 with
  | none => some (.throw "EINVAL" (forCall ++ ": bytes argument required"))
  | some s =>
    if s.length > 6144 then some (.throw "ENOMEM" (forCall ++ ": input too large (max 6144 bytes)"))
    else do
      let (rest, out) ← encodeLoop alphabet 8192 s []
      let out ← putAll 8192 out (lastDigits alphabet rest)
      return .value (.string out)

/-- The loop of `do_b64_decode`; inside, none for malformed input. -/
def decodeLoop (valFn : UInt8 → Int) (size : Nat) : List UInt8 → List UInt8 → Option (Option (List UInt8))
  | p :: q :: r :: s :: rest, out =>
    match quadBytes valFn p q r s with
    | none => some none
    | some bytes => do
      let out ← putAll size out bytes
      decodeLoop valFn size rest out
  | _, out => some (some out)

/-- `do_b64_decode`. -/
def doB64Decode (valFn : UInt8 → Int) (tolerateUnpadded : Bool) (forCall : String) (args : List Value) : Option Reply :=
  match argStr args 0 with
  | none => some (.throw "EINVAL" (forCall ++ ": string argument required"))
  | some s =>
    let short := tolerateUnpadded && s.length % 4 != 0
    let pad := 4 - s.length % 4
    if short ∧ s.length + pad > 8192 then
      some (.throw "ENOMEM" (forCall ++ ": input too large (max 8188 chars)"))
    else
      let src := if short then s ++ List.replicate pad 61 else s
      if src.length % 4 ≠ 0 then some (.throw "EINVAL" (forCall ++ ": length not a multiple of 4"))
      else if src.length / 4 * 3 > 6144 then
        some (.throw "ENOMEM" (forCall ++ ": input too large for output buffer"))
      else
        match decodeLoop valFn 6144 src [] with
        | none => none
        | some none => some (.throw "EINVAL" (forCall ++ ": malformed input"))
        | some (some out) => some (.value (.string out))

/-- `crypto.base64.encode`. -/
def cB64Encode : List Value → Option Reply := doB64Encode b64Std "crypto.base64.encode"

/-- `crypto.base64.decode`. -/
def cB64Decode : List Value → Option Reply := doB64Decode b64ValueStd false "crypto.base64.decode"

/-- `crypto.base64url.encode`. -/
def cB64urlEncode : List Value → Option Reply := doB64Encode b64Url "crypto.base64url.encode"

/-- `crypto.base64url.decode`. -/
def cB64urlDecode : List Value → Option Reply := doB64Decode b64ValueUrl true "crypto.base64url.decode"

end CanBoot.Cando
