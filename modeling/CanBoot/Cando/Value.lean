import Mathlib.Data.List.TakeWhile

/-!
# Values of the script language, as native functions see them

A CanDo string carries its length, so any bytes may be in it; a native that asks for a C string sees it up to its
first zero byte (`cstr`). A native leaves a value or throws an error with a code and a text.
-/

namespace CanBoot.Cando

inductive Value where
  | null
  | bool (b : Bool)
  | number (n : Int)
  | string (s : List UInt8)
  | object
deriving DecidableEq, Repr

/-- How a native call ends. -/
inductive Reply where
  | value (v : Value)
  | throw (code message : String)
deriving DecidableEq, Repr

/-- The bytes C code finds before the terminating zero: `strlen` of them. -/
def cstr (s : List UInt8) : List UInt8 := s.takeWhile (· ≠ 0)

/-- `libutil_arg_str_at`. -/
def argStr (args : List Value) (i : Nat) : Option (List UInt8) :=
  match args[i]? with
  | some (.string s) => some s
  | _ => none

/-- `libutil_arg_cstr_at`. -/
def argCstr (args : List Value) (i : Nat) : Option (List UInt8) := (argStr args i).map cstr

/-- The bytes of a text in the source. -/
def ascii (s : String) : List UInt8 := s.toList.map fun c => UInt8.ofNat c.toNat

theorem cstr_eq_self {s : List UInt8} : cstr s = s ↔ 0 ∉ s := by
  rw [cstr, List.takeWhile_eq_self_iff]
  constructor
  · intro all on
    simpa using all 0 on
  · intro none x on
    simp only [ne_eq, decide_eq_true_eq]
    rintro rfl
    exact none on

theorem length_cstr_le (s : List UInt8) : (cstr s).length ≤ s.length :=
  (List.takeWhile_sublist _).length_le

end CanBoot.Cando
