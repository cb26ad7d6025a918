import CanBoot.Lib.Words

/-!
# Input events (`hal/include/hal/input.h`)
-/

namespace CanBoot.Input

inductive EventType where
  | keyDown
  | keyUp
deriving DecidableEq, Repr

inductive EventSource where
  | ps2
  | usbHid
deriving DecidableEq, Repr

/-- `struct canboot_event`, as far as keys fill it. -/
structure Event where
  type : EventType
  source : EventSource
  code : Nat
  raw : Nat
  value : Int
deriving DecidableEq, Repr

/-! ## `CANBOOT_KEY_*` -/

def keyEsc : Nat := 0x101
def keyEnter : Nat := 0x102
def keyBacksp : Nat := 0x103
def keyTab : Nat := 0x104
def keyLshift : Nat := 0x110
def keyRshift : Nat := 0x111
def keyLctrl : Nat := 0x112
def keyRctrl : Nat := 0x113
def keyLalt : Nat := 0x114
def keyRalt : Nat := 0x115
def keyCaps : Nat := 0x116
def keyUp : Nat := 0x120
def keyDown : Nat := 0x121
def keyLeft : Nat := 0x122
def keyRight : Nat := 0x123

/-- The codes of the characters of a text. -/
def chars (s : String) : List Nat := s.toList.map Char.toNat

end CanBoot.Input
