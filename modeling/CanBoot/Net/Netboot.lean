import Mathlib.Data.List.Basic

/-!
# The TFTP server of a netboot (`net/lwip_port/netboot.c`)

An address in network byte order is its four bytes as they stand in memory. `data` is what the packet holds from the
option's offset on. lwIP hands in the message and the packet with every call.
-/

namespace CanBoot.Net.Netboot

structure Addr where
  a : UInt8
  b : UInt8
  c : UInt8
  d : UInt8
deriving DecidableEq

def Addr.zero : Addr := ⟨0, 0, 0, 0⟩

/-- `SRC_NONE` to `SRC_OPT150`. -/
inductive Src where
  | none | siaddr | opt66 | opt150
deriving DecidableEq

def Src.rank : Src → Nat
  | none => 0
  | siaddr => 1
  | opt66 => 2
  | opt150 => 3

/-- `g_addr` and `g_src`. -/
structure State where
  addr : Addr
  src : Src

def State.boot : State := ⟨.zero, .none⟩

def State.consider (s : State) (addr : Addr) (src : Src) : State :=
  if addr = .zero then s else if src.rank < s.src.rank then s else ⟨addr, src⟩

/-- The end of `parse_dotted_quad`. -/
def quad : List Nat → Option Nat → Option Addr
  | [a, b, c], some d => some ⟨.ofNat a, .ofNat b, .ofNat c, .ofNat d⟩
  | _, _ => none

/-- The loop of `parse_dotted_quad`, with the parts so far; `cur` is `none` for -1. -/
def parseDottedQuad : List UInt8 → List Nat → Option Nat → Option Addr
  | [], parts, cur => quad parts cur
  | c :: cs, parts, cur =>
    if 48 ≤ c ∧ c ≤ 57 then
      let cur := cur.getD 0 * 10 + (c.toNat - 48)
      if cur > 255 then none else parseDottedQuad cs parts (some cur)
    else if c = 46 then cur.bind fun v => if parts.length ≥ 3 then none else parseDottedQuad cs (parts ++ [v]) none
    else if c = 0 then quad parts cur
    else none

/-- A call for an option of a reply. -/
structure Call where
  msgType : UInt8
  option : UInt8
  len : UInt8
  data : List UInt8

/-- What an option hints at: the two branches of `canboot_dhcp_parse_option`. -/
def Call.hint (c : Call) : Option (Addr × Src) :=
  if c.option = 150 ∧ 4 ≤ c.len then
    match c.data.take 4 with
    | [x, y, z, w] => some (⟨x, y, z, w⟩, .opt150)
    | _ => none
  else if c.option = 66 ∧ 0 < c.len then
    let n := min c.len.toNat 63
    if (c.data.take n).length = n then (parseDottedQuad (c.data.take n) [] none).map (·, .opt66) else none
  else none

/-- `canboot_dhcp_parse_option`. -/
def State.parseOption (siaddr : Addr) (s : State) (c : Call) : State :=
  if c.msgType ≠ 0 ∧ c.msgType ≠ 2 ∧ c.msgType ≠ 5 then s
  else c.hint.elim (s.consider siaddr .siaddr) fun h => (s.consider siaddr .siaddr).consider h.1 h.2

/-- `canboot_netboot_tftp_server`. -/
def State.tftpServer (s : State) : Option Addr := if s.src = .none ∨ s.addr = .zero then none else some s.addr

end CanBoot.Net.Netboot
