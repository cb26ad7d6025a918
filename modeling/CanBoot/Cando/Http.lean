import CanBoot.Cando.Url

/-!
# The HTTP client (`cando_port/lib/http.c`, and the receive callback of `cando_port/lib/net.c`)

The client's statics after some calls of its receive callback. A `pbuf` is its bytes; its length is a `uint16_t`.
`char` is signed on one of the two machines and unsigned on the other, so that is a parameter of the status.
-/

namespace CanBoot.Cando

open Lib

/-! ## `parse_url` -/

/-- The loop over the host, into an array with room for `room` more characters. -/
def takeHost : Nat → List UInt8 → List UInt8 × List UInt8
  | 0, s => ([], s)
  | _ + 1, [] => ([], [])
  | room + 1, c :: s =>
    if inHost c then
      let (host, rest) := takeHost room s
      (c :: host, rest)
    else ([], c :: s)

/-- `parse_url`. -/
def parseUrl (url : List UInt8) : Prog Unit UrlParts :=
  match strstr (ascii "://") url with
  | none => Prog.fail
  | some (scheme, colon) => do
    let (host, s) := takeHost 63 (colon.drop 3)
    let (port, s) ← takePort s
    let path := if s.head? = some 47 then s else [47]
    return ⟨scheme, host, defaultPort scheme port, path⟩

/-! ## Receiving -/

namespace Http

/-- A `struct pbuf` chain. -/
structure Pbuf where
  payload : List UInt8
  totLen : payload.length < 65536

/-- The `g_tcp_*` statics; an array and its count are the bytes stored. -/
structure Tcp where
  done : Bool
  fail : Bool
  status : Int
  hdrDone : Bool
  hdr : List UInt8
  body : List UInt8
deriving DecidableEq, Repr

/-- The statics when a request is sent. -/
def Tcp.start : Tcp := ⟨false, false, 0, false, [], []⟩

/-- A `char` as an `int`. -/
def charInt (signed : Bool) (c : UInt8) : Int := if signed then c.toInt8.toInt else c.toNat

/-- `(hdr[9] - '0') * 100 + (hdr[10] - '0') * 10 + (hdr[11] - '0')`. -/
def statusOf (signed : Bool) (hdr : List UInt8) : Int :=
  (charInt signed (hdr.getD 9 0) - 48) * 100 + (charInt signed (hdr.getD 10 0) - 48) * 10 +
    (charInt signed (hdr.getD 11 0) - 48)

/-- A round of the loop of `tcp_recv_cb`. -/
def recvByte (signed : Bool) (g : Tcp) (b : UInt8) : Tcp :=
  if !g.hdrDone then
    let hdr := if g.hdr.length < 512 - 1 then g.hdr ++ [b] else g.hdr
    let n := hdr.length
    if n ≥ 4 ∧ hdr.getD (n - 4) 0 = 13 ∧ hdr.getD (n - 3) 0 = 10 ∧ hdr.getD (n - 2) 0 = 13 ∧ hdr.getD (n - 1) 0 = 10 then
      { g with hdr, hdrDone := true, status := if n ≥ 12 then statusOf signed hdr else g.status }
    else { g with hdr }
  else if g.body.length < 4096 - 1 then { g with body := g.body ++ [b] }
  else g

/-- `tcp_recv_cb`: an error, the end of the connection (`NULL`), or data, of which at most 512 bytes are copied. -/
def tcpRecvCb (signed : Bool) (g : Tcp) (errOk : Bool) (p : Option Pbuf) : Tcp :=
  if !errOk then { g with fail := true, done := true }
  else
    match p with
    | none => { g with done := true }
    | some p => (p.payload.take 512).foldl (recvByte signed) g

/-- The rest of `http_get`, once the connection is made and `g` is what the callbacks leave when the wait ends: the
status and the body for a caller with room for `outCap` bytes. -/
def httpGet (g : Tcp) (outCap : Nat) : Option (Int × List UInt8) :=
  if !g.done || g.fail then none
  else some (g.status, g.body.take (if g.body.length < outCap - 1 then g.body.length else outCap - 1))

/-- `http.get`. -/
def hGet (g : Tcp) : Value :=
  match httpGet g 4096 with
  | none => .null
  | some (status, body) => if status ≠ 200 then .null else .string body

/-- `http.status`. -/
def hStatus (g : Tcp) : Value :=
  match httpGet g 4096 with
  | none => .number 0
  | some (status, _) => .number status

/-- `net.httpGet`, whose receive callback is the same. -/
def nHttpGet (g : Tcp) : Value :=
  if !g.done || g.fail || g.status ≠ 200 then .null else .string g.body

end Http

end CanBoot.Cando
