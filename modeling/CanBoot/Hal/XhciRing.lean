import Mathlib.Logic.Function.Basic
import Mathlib.Logic.Relation
import Mathlib.Tactic.SplitIfs

/-!
# xHCI transfer rings (`ring_link` and `push_trb` in `hal/usb/xhci.c`)

A ring is sixteen request blocks (TRBs) in memory that the controller reads while the driver writes them: fifteen for
work and a last one that links back to the first. The second half of the module is the machine of the two: the driver
takes `push_trb` one store at a time, and the controller takes a step between any two stores.
-/

namespace CanBoot.Xhci

open Function

/-- `struct trb`. -/
structure Trb where
  param : BitVec 64
  status : BitVec 32
  control : BitVec 32
deriving DecidableEq, Repr

def Trb.zero : Trb := ⟨0, 0, 0⟩

/-- `TRB_TYPE`. -/
def trbType (t : BitVec 32) : BitVec 32 := (t &&& 0x3F) <<< 10

/-- `TRB_GET_TYPE`. -/
def trbGetType (control : BitVec 32) : BitVec 32 := (control >>> 10) &&& 0x3F

def trbCycle : BitVec 32 := 1
def trbLinkTc : BitVec 32 := 1 <<< 1
def trbIoc : BitVec 32 := 1 <<< 5
def trbIdt : BitVec 32 := 1 <<< 6

def trbNormal : BitVec 32 := 1
def trbSetup : BitVec 32 := 2
def trbData : BitVec 32 := 3
def trbStatus : BitVec 32 := 4
def trbLink : BitVec 32 := 6

def ringSz : Nat := 16

/-- The memory of a ring. -/
abbrev Trbs := Nat → Trb

/-- `cycle ? TRB_CYCLE : 0`. -/
def cycleFlag (cycle : Bool) : BitVec 32 := if cycle then trbCycle else 0

/-- `ring_link`, for a ring at address `base`. -/
def ringLink (base : BitVec 64) (ring : Trbs) (cycle : Bool) : Trbs :=
  update ring (ringSz - 1) ⟨base, 0, trbType trbLink ||| trbLinkTc ||| cycleFlag cycle⟩

/-- Where the driver writes next: `*idx` and `*cycle`. -/
structure Producer where
  idx : Nat
  cycle : Bool
deriving DecidableEq, Repr

/-! ## The stores of `push_trb` -/

def storeParam (ring : Trbs) (p : Producer) (param : BitVec 64) : Trbs :=
  update ring p.idx { ring p.idx with param := param }

def storeStatus (ring : Trbs) (p : Producer) (status : BitVec 32) : Trbs :=
  update ring p.idx { ring p.idx with status := status }

def storeControl (ring : Trbs) (p : Producer) (control : BitVec 32) : Trbs :=
  update ring p.idx { ring p.idx with control := control ||| cycleFlag p.cycle }

def storeLink (ring : Trbs) (p : Producer) : Trbs :=
  update ring (ringSz - 1)
    { ring (ringSz - 1) with control := (ring (ringSz - 1)).control &&& ~~~trbCycle ||| cycleFlag p.cycle }

/-- What a caller hands to `push_trb`. The cycle bit is left to `push_trb`, and only `ring_link` writes links. -/
structure Request where
  param : BitVec 64
  status : BitVec 32
  control : BitVec 32
  clear : control.getLsbD 0 = false
  work : trbGetType control ≠ trbLink
deriving DecidableEq, Repr

/-- `push_trb`. -/
def pushTrb (ring : Trbs) (p : Producer) (r : Request) : Trbs × Producer :=
  let ring := storeParam ring p r.param
  let ring := storeStatus ring p r.status
  let ring := storeControl ring p r.control
  if p.idx + 1 = ringSz - 1 then (storeLink ring p, ⟨0, !p.cycle⟩) else (ring, ⟨p.idx + 1, p.cycle⟩)

/-! ## The callers' requests -/

/-- The setup stage of `control_xfer`; `trt` is 0, 2 or 3. -/
def setupStage (setup : BitVec 64) (length : Nat) (inward : Bool) : Request where
  param := setup
  status := 8
  control := trbType trbSetup ||| trbIdt ||| (if length = 0 then 0 else if inward then 3 else 2 : BitVec 32) <<< 16
  clear := by split_ifs <;> decide
  work := by split_ifs <;> decide

def dataStage (data : BitVec 64) (length : BitVec 32) (inward : Bool) : Request where
  param := data
  status := length
  control := trbType trbData ||| (if inward then 1 <<< 16 else 0 : BitVec 32)
  clear := by split_ifs <;> decide
  work := by split_ifs <;> decide

def statusStage (length : Nat) (inward : Bool) : Request where
  param := 0
  status := 0
  control := trbType trbStatus ||| (if length ≠ 0 ∧ inward then 0 else 1 <<< 16 : BitVec 32) ||| trbIoc
  clear := by split_ifs <;> decide
  work := by split_ifs <;> decide

/-- The transfer of `queue_report` and `canboot_xhci_bulk`. -/
def normal (buf : BitVec 64) (length : BitVec 32) : Request where
  param := buf
  status := length
  control := trbType trbNormal ||| trbIoc
  clear := by decide
  work := by decide

/-! ## The driver and the controller -/

/-- How far `push_trb` has come. -/
inductive Stage where
  | idle
  | param (r : Request)
  | status (r : Request)
  | link
deriving DecidableEq, Repr

/-- The ring, the driver, the controller (its dequeue index and cycle state), and what happened so far. -/
structure Sys where
  ring : Trbs
  producer : Producer
  stage : Stage
  dequeue : Nat
  state : Bool
  pushed : List Request
  consumed : List Trb

/-- A ring just linked, with the driver and the controller at its base in cycle state 1. -/
def Sys.start (base : BitVec 64) (ring : Trbs) : Sys :=
  ⟨ringLink base ring true, ⟨0, true⟩, .idle, 0, true, [], []⟩

def Trb.cycle (t : Trb) : Bool := t.control.getLsbD 0

/-- One step of the controller: it takes the block at its index if the cycle bit is its state; a link sends it to the
block that the link names, and turns the state over if the link says so. -/
def Sys.consume (base : BitVec 64) (s : Sys) : Sys :=
  let t := s.ring s.dequeue
  if t.cycle ≠ s.state then s
  else if trbGetType t.control = trbLink then
    { s with
      dequeue := ((t.param - base) / 16).toNat
      state := if t.control &&& trbLinkTc ≠ 0 then !s.state else s.state }
  else { s with dequeue := s.dequeue + 1, consumed := s.consumed ++ [t] }

/-- A step of the driver or of the controller. A push begins when at most `RING_SZ - 2` blocks will be unconsumed with
it. -/
inductive Step (base : BitVec 64) : Sys → Sys → Prop
  | param (s : Sys) (r : Request) (idle : s.stage = .idle) (room : s.pushed.length < s.consumed.length + (ringSz - 2)) :
    Step base s { s with ring := storeParam s.ring s.producer r.param, stage := .param r }
  | status (s : Sys) (r : Request) (there : s.stage = .param r) :
    Step base s { s with ring := storeStatus s.ring s.producer r.status, stage := .status r }
  | control (s : Sys) (r : Request) (there : s.stage = .status r) : Step base s
      { s with
        ring := storeControl s.ring s.producer r.control
        producer := ⟨s.producer.idx + 1, s.producer.cycle⟩
        stage := if s.producer.idx + 1 = ringSz - 1 then .link else .idle
        pushed := s.pushed ++ [r] }
  | link (s : Sys) (there : s.stage = .link) :
    Step base s { s with ring := storeLink s.ring s.producer, producer := ⟨0, !s.producer.cycle⟩, stage := .idle }
  | consume (s : Sys) : Step base s (s.consume base)

/-- The states of a ring whose memory was zero when it was linked. -/
def Reachable (base : BitVec 64) : Sys → Prop := Relation.ReflTransGen (Step base) (.start base fun _ => .zero)

end CanBoot.Xhci
