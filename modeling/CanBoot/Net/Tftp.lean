import CanBoot.Lib.Words

/-!
# The TFTP client (`net/tftp.c`)

One transfer at a time: its state is the static `g_x`. lwIP calls `rx_cb` for every datagram that reaches the client's
port, whoever sent it. What the callback sends is returned beside the new state.
-/

namespace CanBoot.Net

open Lib

/-- An address and a port. -/
structure Host where
  addr : UInt32
  port : UInt16
deriving DecidableEq, Repr

/-- A datagram as `rx_cb` gets it: the source and the payload, whose `tot_len` is 16 bits wide. -/
structure Datagram where
  source : Host
  bytes : List UInt8
  small : bytes.length < 65536

/-- A packet handed to `udp_sendto`. -/
structure Packet where
  dest : Host
  bytes : List UInt8
deriving DecidableEq, Repr

/-- A 16-bit field, high byte first. -/
def be16 (bytes : List UInt8) (i : Nat) : Nat := 256 * (bytes.getD i 0).toNat + (bytes.getD (i + 1) 0).toNat

/-- `op`. -/
def Datagram.op (d : Datagram) : Nat := be16 d.bytes 0

/-- `blk`. -/
def Datagram.blk (d : Datagram) : UInt16 := UInt16.ofNat (be16 d.bytes 2)

/-- `dlen`. -/
def Datagram.dlen (d : Datagram) : Nat := if d.bytes.length > 4 then d.bytes.length - 4 else 0

namespace Tftp

/-- `TFTP_BLOCK`. -/
def tftpBlock : Nat := 512

/-- `TFTP_OP_DATA`. -/
def opData : Nat := 3

/-- `TFTP_OP_ACK`. -/
def opAck : Nat := 4

/-- `TFTP_OP_ERROR`. -/
def opError : Nat := 5

/-- `g_x`. -/
structure Xfer where
  out : Buf
  cap : Nat
  len : Nat
  block : UInt16
  srvPort : UInt16
  haveTid : Bool
  progress : Bool
  done : Bool
  error : Bool

/-- `memset(&g_x, 0, sizeof g_x)` and the two fields set after it. -/
def Xfer.start (out : Buf) (cap : Nat) : Xfer := ⟨out, cap, 0, 0, 0, false, false, false, false⟩

/-- `send_ack`; `alloc` says whether `pbuf_alloc` had a buffer. -/
def sendAck (alloc : Bool) (dest : Host) (block : UInt16) : List Packet :=
  if alloc then [⟨dest, [0, UInt8.ofNat opAck, (block >>> 8).toUInt8, block.toUInt8]⟩] else []

/-- The payload of an expected block into `out`, as far as there is room. -/
def store (x : Xfer) (d : Datagram) : Xfer :=
  let dlen := d.dlen
  if dlen ≠ 0 then
    let space := if x.cap > x.len then x.cap - x.len else 0
    let take := if dlen ≤ space then dlen else space % 65536
    let x := { x with
      out := if take ≠ 0 then putBytes x.out x.len ((d.bytes.drop 4).take take) else x.out
      len := u32 (x.len + take) }
    if take < dlen then { x with error := true, done := true } else x
  else x

/-- `rx_cb` past the transfer-ID: the block that was expected, or another. -/
def rxData (alloc : Bool) (x : Xfer) (d : Datagram) : Xfer × List Packet :=
  let expect := x.block + 1
  if d.blk = expect then
    let x := { store x d with block := expect, progress := true }
    let x := if !x.error && d.dlen < tftpBlock then { x with done := true } else x
    (x, sendAck alloc d.source expect)
  else (x, sendAck alloc d.source x.block)

/-- `rx_cb`: the transfer after a datagram, and what was sent. -/
def rxCb (alloc : Bool) (x : Xfer) (d : Datagram) : Xfer × List Packet :=
  if d.bytes.length < 4 then (x, [])
  else if d.op = opError then ({ x with error := true, done := true }, [])
  else if d.op ≠ opData then (x, [])
  else if !x.haveTid then rxData alloc { x with srvPort := d.source.port, haveTid := true } d
  else if d.source.port ≠ x.srvPort then (x, [])
  else rxData alloc x d

end Tftp

end CanBoot.Net
