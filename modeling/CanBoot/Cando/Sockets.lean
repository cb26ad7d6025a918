import CanBoot.Lib.Words

/-!
# The receive side of a socket (`cando_port/net_posix/sockets.c`)

lwIP hands the payload of in-order segments to `recv_cb`, which copies it into the socket's ring and tells lwIP how
much it took; `recv` copies bytes out of the ring. Both run under the netcore lock, so a run is a sequence of
whole callbacks and whole turns of the loop in `recv`. The pump and the clock are the environment's: they decide
which event comes next and whether a turn finds its time over.

`Net` adds to the socket what lwIP keeps of the connection, the receive window, and the two streams.
-/

namespace CanBoot.Cando

open Lib

/-- A chain of packet buffers, whose `tot_len` is 16 bits wide. -/
structure Pbuf where
  bytes : List UInt8
  small : bytes.length < 65536

/-- `RXCAP`. -/
def rxcap : Nat := 32768

/-- `TCP_MSS` and `TCP_WND` of `lwipopts.h`. -/
def tcpMss : Nat := 1460

def tcpWnd : Nat := 4 * tcpMss

/-- The fields of `struct nsock` that the receive path reads and writes. -/
structure NSock where
  rx : Buf
  rxh : Nat
  rxt : Nat
  eof : Bool
  err : Int
  nonblock : Bool

/-- The loop of `recv_cb`: the socket, and how much of the payload it holds. -/
def copyLoop (payload : List UInt8) : Nat → Nat → NSock → Option (NSock × Nat)
  | 0, _, _ => none
  | fuel + 1, off, s =>
    if off < payload.length then
      let used := sub32 s.rxt s.rxh
      let space := sub32 rxcap used
      if space = 0 then some (s, off)
      else
        let widx := s.rxt % rxcap
        let chunk := rxcap - widx
        let chunk := if chunk > space then space else chunk
        let want := payload.length - off
        let chunk := if chunk > want then want else chunk
        copyLoop payload fuel (off + chunk)
          { s with rx := putBytes s.rx widx ((payload.drop off).take chunk), rxt := u32 (s.rxt + chunk) }
    else some (s, off)

/-- `recv_cb`, with the length it passes to `tcp_recved`. Every turn of the loop takes at least one byte. -/
def recvCb (s : NSock) (e : Int) : Option Pbuf → Option (NSock × Nat)
  | p =>
    if e ≠ 0 then some ({ s with err := e }, 0)
    else
      match p with
      | none => some ({ s with eof := true }, 0)
      | some p => copyLoop p.bytes (p.bytes.length + 1) 0 s

/-- How a turn of the loop in `recv` ends: with bytes, at the end of the stream, with an error, or with another
turn after a pump. -/
inductive Got where
  | bytes (bs : List UInt8)
  | eof
  | reset
  | again
  | pump
deriving DecidableEq, Repr

/-- A turn of the loop in `recv`. -/
def recvTurn (s : NSock) (len : Nat) (timedOut : Bool) : Got × NSock :=
  let avail := sub32 s.rxt s.rxh
  if avail > 0 then
    let n := if avail < len then avail else u32 len
    let ridx := s.rxh % rxcap
    let chunk := rxcap - ridx
    let chunk := if chunk > n then n else chunk
    (.bytes (bytesAt s.rx ridx chunk ++ if chunk < n then bytesAt s.rx 0 (n - chunk) else []),
      { s with rxh := u32 (s.rxh + n) })
  else if s.eof then (.eof, s)
  else if s.err ≠ 0 then (.reset, s)
  else if s.nonblock ∨ timedOut then (.again, s)
  else (.pump, s)

/-! ## Runs -/

/-- What can happen next to a connected socket. -/
inductive Event where
  | segment (p : Pbuf)
  | fin
  | recv (len : Nat) (timedOut : Bool)

/-- A socket and its connection: the receive window, what lwIP delivered and what `recv` returned. -/
structure Net where
  sock : NSock
  wnd : Nat
  delivered : List UInt8
  received : List UInt8

/-- A socket after `socket` and `connect`, or after `accept_cb`. -/
def Net.start (rx : Buf) (nonblock : Bool) : Net := ⟨⟨rx, 0, 0, false, 0, nonblock⟩, tcpWnd, [], []⟩

def Got.taken : Got → List UInt8
  | .bytes bs => bs
  | _ => []

def Net.step (n : Net) : Event → Option Net
  | .segment p =>
    (recvCb n.sock 0 (some p)).map fun (sock, acked) =>
      { n with
        sock := sock
        wnd := min tcpWnd (n.wnd - p.bytes.length + acked)
        delivered := n.delivered ++ p.bytes }
  | .fin => (recvCb n.sock 0 none).map fun (sock, _) => { n with sock := sock }
  | .recv len timedOut =>
    let (got, sock) := recvTurn n.sock len timedOut
    some { n with sock := sock, received := n.received ++ got.taken }

def Net.run (n : Net) (events : List Event) : Option Net := events.foldlM Net.step n

/-- The next `recv` finds nothing in the ring. -/
def NSock.drained (s : NSock) : Prop := sub32 s.rxt s.rxh = 0

end CanBoot.Cando
