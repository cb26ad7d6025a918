import CanBoot.Cando.Value
import CanBoot.Lib.Signed

/-!
# URLs (`cando_port/lib/url.c`)

A C string is the list of its bytes before the terminating zero, and a pointer into it what is left of the list. The
port is summed up in an `int`, so its digits may overflow.
-/

namespace CanBoot.Cando

open Lib

/-- `struct url_parts`, with each pointer and length as the bytes it stands for. -/
structure UrlParts where
  scheme : List UInt8
  host : List UInt8
  port : Int
  path : List UInt8
deriving DecidableEq, Repr

/-- `strstr`: what stands before the first occurrence, and the text from there on. -/
def strstr (needle : List UInt8) : List UInt8 → Option (List UInt8 × List UInt8)
  | [] => if needle = [] then some ([], []) else none
  | c :: s =>
    if needle.isPrefixOf (c :: s) then some ([], c :: s)
    else (strstr needle s).map fun found => (c :: found.1, found.2)

/-- `*s && *s != ':' && *s != '/'`. -/
def inHost (c : UInt8) : Bool := c ≠ 58 && c ≠ 47

def isDigit (c : UInt8) : Bool := 48 ≤ c && c ≤ 57

/-- The loop over the digits of the port. -/
def scanPort : Int → List UInt8 → Prog Unit (Int × List UInt8)
  | n, [] => pure (n, [])
  | n, c :: s =>
    if isDigit c then do
      let tens ← Prog.int32 (n * 10)
      let n ← Prog.int32 (tens + ((c.toNat : Int) - 48))
      scanPort n s
    else pure (n, c :: s)

/-- The port after the host, zero if there is none. -/
def takePort (s : List UInt8) : Prog Unit (Int × List UInt8) :=
  match s with
  | 58 :: s => scanPort 0 s
  | s => pure (0, s)

/-- A port of zero is the scheme's default. -/
def defaultPort (scheme : List UInt8) (port : Int) : Int :=
  if port = 0 then if scheme.length = 5 ∧ scheme = ascii "https" then 443 else 80
  else port

/-- `parse`. -/
def parse (url : List UInt8) : Prog Unit UrlParts :=
  match strstr (ascii "://") url with
  | none => Prog.fail
  | some (scheme, colon) => do
    let s := colon.drop 3
    let host := s.takeWhile inHost
    let (port, s) ← takePort (s.dropWhile inHost)
    let path := if s = [] ∨ s.head? = some 47 then if s ≠ [] then s else [47] else [47]
    return ⟨scheme, host, defaultPort scheme port, path⟩

end CanBoot.Cando
