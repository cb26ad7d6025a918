import CanBoot.Cando.Sockets

/-!
# The transport under TLS (`net/mbedtls_port/lwip_bio.c`)

lwIP hands the payload of in-order segments to `recv_cb`, which copies it into a ring of 16384 bytes; Mbed TLS takes
bytes out with `canboot_lwip_bio_recv`. The stack runs in one thread: callbacks come from a pump, and the receive
function pumps once when it finds the ring empty. The counters are 64 bits wide and never reduced.

`Stream` adds to the adapter the bytes delivered, the bytes returned, and how many were acknowledged with
`tcp_recved`.
-/

namespace CanBoot.Net

open Lib
open Cando (Pbuf)

/-- `CANBOOT_LWIP_BIO_RX_SIZE`. -/
def rxSize : Nat := 16384

/-- The fields of `struct canboot_lwip_bio` that the receive path reads and writes. -/
structure LwipBio where
  rxBuf : Buf
  rxHead : Nat
  rxTail : Nat
  closed : Bool
  lastErr : Int

namespace LwipBio

/-- The loop of `recv_cb`, and how much it has copied. -/
def copyLoop (payload : List UInt8) (toCopy : Nat) : Nat → Nat → LwipBio → Option (LwipBio × Nat)
  | 0, _, _ => none
  | fuel + 1, copied, b =>
    if copied < toCopy then
      let headPos := u64 (b.rxHead + copied) % rxSize
      let contig := rxSize - headPos
      let chunk := toCopy - copied
      let chunk := if chunk > contig then contig else chunk
      copyLoop payload toCopy fuel (copied + chunk)
        { b with rxBuf := putBytes b.rxBuf headPos ((payload.drop copied).take chunk) }
    else some (b, copied)

/-- `recv_cb`, with the length it passes to `tcp_recved`. Every turn of the loop takes at least one byte. -/
def recvCb (b : LwipBio) (err : Int) (p : Option Pbuf) : Option (LwipBio × Nat) :=
  if err ≠ 0 then some ({ b with closed := true, lastErr := err }, 0)
  else
    match p with
    | none => some ({ b with closed := true }, 0)
    | some p =>
      let avail := sub64 rxSize (sub64 b.rxHead b.rxTail)
      let toCopy := p.bytes.length
      let toCopy := if toCopy > avail then avail else toCopy
      (copyLoop p.bytes toCopy (toCopy + 1) 0 b).map fun r =>
        ({ r.1 with rxHead := u64 (r.1.rxHead + r.2) }, p.bytes.length)

/-- `err_cb`. -/
def errCb (b : LwipBio) (err : Int) : LwipBio := { b with closed := true, lastErr := err }

/-- What `canboot_lwip_bio_recv` returns. -/
inductive Got where
  | bytes (bs : List UInt8)
  | connEof
  | wantRead
deriving DecidableEq, Repr

/-- `canboot_lwip_bio_recv` behind its pump. -/
def recv (b : LwipBio) (len : Nat) : Got × LwipBio :=
  if b.rxHead = b.rxTail then (if b.closed then .connEof else .wantRead, b)
  else
    let avail := sub64 b.rxHead b.rxTail
    let toCopy := if avail < len then avail else len
    let tailPos := b.rxTail % rxSize
    let bytes :=
      if tailPos + toCopy ≤ rxSize then bytesAt b.rxBuf tailPos toCopy
      else
        let first := rxSize - tailPos
        bytesAt b.rxBuf tailPos first ++ bytesAt b.rxBuf 0 (toCopy - first)
    (.bytes bytes, { b with rxTail := u64 (b.rxTail + toCopy) })

end LwipBio

/-! ## Runs -/

/-- What lwIP calls back with. The error code of `recv_cb` is always `ERR_OK`. -/
inductive Callback where
  | payload (p : Pbuf)
  | fin
  | error (err : Int)

/-- What happens next: a callback, or a receive call of some length with what its pump brings. -/
inductive BioEvent where
  | callback (cb : Callback)
  | recv (len : Nat) (pump : List Callback)

/-- The adapter and its history. -/
structure Stream where
  bio : LwipBio
  delivered : List UInt8
  returned : List UInt8
  acked : Nat

namespace Stream

/-- After `canboot_lwip_bio_init`. -/
def start : Stream := ⟨⟨fun _ => 0, 0, 0, false, 0⟩, [], [], 0⟩

def callback (s : Stream) : Callback → Option Stream
  | .payload p =>
    (s.bio.recvCb 0 (some p)).map fun r =>
      { s with bio := r.1, delivered := s.delivered ++ p.bytes, acked := s.acked + r.2 }
  | .fin => (s.bio.recvCb 0 none).map fun r => { s with bio := r.1, acked := s.acked + r.2 }
  | .error err => some { s with bio := s.bio.errCb err }

def callbacks (s : Stream) (cbs : List Callback) : Option Stream := cbs.foldlM callback s

/-- The bytes a receive call returned. -/
def taken : LwipBio.Got → List UInt8
  | .bytes bs => bs
  | _ => []

def take (s : Stream) (len : Nat) : Stream :=
  let r := s.bio.recv len
  { s with bio := r.2, returned := s.returned ++ taken r.1 }

def step (s : Stream) : BioEvent → Option Stream
  | .callback cb => s.callback cb
  | .recv len pump =>
    if s.bio.rxHead = s.bio.rxTail then (s.callbacks pump).map fun s => s.take len
    else some (s.take len)

def run (s : Stream) (events : List BioEvent) : Option Stream := events.foldlM step s

end Stream

end CanBoot.Net
