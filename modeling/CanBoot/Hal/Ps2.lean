import CanBoot.Hal.Input

/-!
# The PS/2 keyboard (`hal/input/ps2.c`)

The state is `g_shift`, `g_extended` and the events pushed so far.
-/

namespace CanBoot.Ps2

open Input

structure State where
  shift : Bool
  extended : Bool
  events : List Event
deriving DecidableEq, Repr

/-- The driver at the start. -/
def State.start : State := ⟨false, false, []⟩

/-- `base_map`. -/
def baseMap : List Nat :=
  [0, keyEsc] ++ chars "1234567890-=" ++ [keyBacksp, keyTab] ++ chars "qwertyuiop[]" ++ [keyEnter, keyLctrl] ++
    chars "asdfghjkl;'`" ++ [keyLshift] ++ chars "\\zxcvbnm,./" ++ [keyRshift, 0, keyLalt, 0x20, keyCaps]

/-- `shift_map`. -/
def shiftMap (code : Nat) : Nat :=
  (List.lookup code ((chars "1234567890-=[];'`\\,./").zip (chars "!@#$%^&*()_+\x7b\x7d:\"~|<>?"))).getD 0

/-- `apply_shift`. -/
def applyShift (shift : Bool) (code : Nat) : Nat :=
  if 0x61 ≤ code ∧ code ≤ 0x7A then if shift then code - 0x61 + 0x41 else code
  else if shift ∧ code < 128 ∧ shiftMap code ≠ 0 then shiftMap code
  else code

/-- `emit`. -/
def emit (code raw : Nat) (isRelease : Bool) (st : State) : State :=
  { st with
    events := st.events ++ [⟨if isRelease then .keyUp else .keyDown, .ps2, code, raw, if isRelease then 0 else 1⟩] }

/-- The extended keys that are handled. -/
def extendedMap (make : Nat) : Nat :=
  if make = 0x48 then keyUp
  else if make = 0x50 then keyDown
  else if make = 0x4B then keyLeft
  else if make = 0x4D then keyRight
  else if make = 0x1D then keyRctrl
  else if make = 0x38 then keyRalt
  else if make = 0x1C then keyEnter
  else 0

/-- `process_scancode` for a byte behind the prefix `0xE0`. -/
def processExtended (make : Nat) (isRelease : Bool) (st : State) : State :=
  let st := if extendedMap make ≠ 0 then emit (extendedMap make) (0xE000 ||| make) isRelease st else st
  { st with extended := false }

/-- `process_scancode` for a byte on its own, with its entry in `base_map`. -/
def processKey (code make : Nat) (isRelease : Bool) (st : State) : State :=
  if code = 0 then st
  else if code = keyLshift ∨ code = keyRshift then emit code make isRelease { st with shift := !isRelease }
  else emit (applyShift st.shift code) make isRelease st

def processPlain (make : Nat) (isRelease : Bool) (st : State) : State :=
  processKey (baseMap.getD make 0) make isRelease st

/-- `process_scancode`. -/
def processScancode (st : State) (sc : UInt8) : State :=
  if sc = 0xE0 then { st with extended := true }
  else
    let isRelease := sc &&& 0x80 ≠ 0
    let make := (sc &&& 0x7F).toNat
    if st.extended then processExtended make isRelease st else processPlain make isRelease st

end CanBoot.Ps2
