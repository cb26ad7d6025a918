import CanBoot.Lib.Words

/-!
# Deferred preemption (`rt/sched/sched.c`)

Two fields of `struct canboot_cpu`: how many sections that must not be preempted the CPU is in, and whether a timer tick
wanted a switch meanwhile. Each function below changes them with interrupts masked, so a run of one CPU is a sequence
of whole calls and ticks. `canboot_sched_yield`, which `canboot_preempt_enable` calls with interrupts back on, reads
and writes neither field: it does not matter what comes between the test and the yield.
-/

namespace CanBoot.Preempt

open Lib

/-- The fields of `struct canboot_cpu` that preemption reads and writes. -/
structure CpuFlags where
  preemptCount : Nat
  needResched : Bool
deriving DecidableEq, Repr

/-- `canboot_preempt_disable`. -/
def canbootPreemptDisable (c : CpuFlags) : CpuFlags := { c with preemptCount := u32 (c.preemptCount + 1) }

/-- `canboot_preempt_enable`, and whether it yields. -/
def canbootPreemptEnable (c : CpuFlags) : CpuFlags × Bool :=
  let c := if c.preemptCount ≠ 0 then { c with preemptCount := c.preemptCount - 1 } else c
  (c, c.preemptCount = 0 && c.needResched)

/-- `canboot_sched_preempt`, and whether it switches: the run queue is the scheduler's. -/
def canbootSchedPreempt (runnable : Bool) (c : CpuFlags) : CpuFlags × Bool := ({ c with needResched := false }, runnable)

/-- What can happen on a CPU: a tick, with whether a thread waits in the run queue, a call of one of the two functions, or
a voluntary yield. -/
inductive Event where
  | tick (runnable : Bool)
  | disable
  | enable
  | yield
deriving DecidableEq, Repr

/-- What an event came to: a tick was deferred or handled at once, an enable left the count positive or at zero, and
there yielded or did not. -/
inductive Note where
  | deferred
  | direct (switched : Bool)
  | disabled
  | nested
  | closed (yields : Bool)
  | yielded
deriving DecidableEq, Repr

/-- `canboot_sched_on_tick`, with preemption enabled. -/
def canbootSchedOnTick (runnable : Bool) (c : CpuFlags) : CpuFlags × Note :=
  if c.preemptCount ≠ 0 then ({ c with needResched := true }, .deferred)
  else
    let r := canbootSchedPreempt runnable c
    (r.1, .direct r.2)

def step (c : CpuFlags) : Event → CpuFlags × Note
  | .tick runnable => canbootSchedOnTick runnable c
  | .disable => (canbootPreemptDisable c, .disabled)
  | .enable =>
    let r := canbootPreemptEnable c
    (r.1, if r.1.preemptCount = 0 then .closed r.2 else .nested)
  | .yield => (c, .yielded)

/-- A CPU at boot. -/
def start : CpuFlags := ⟨0, false⟩

/-- A run from boot: the flags after it and what its events came to. -/
def run (events : List Event) : CpuFlags × List Note :=
  events.foldl (fun r e => ((step r.1 e).1, r.2 ++ [(step r.1 e).2])) (start, [])

end CanBoot.Preempt
