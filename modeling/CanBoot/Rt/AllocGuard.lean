import CanBoot.Lib.Ticket
import CanBoot.Rt.Preempt
import Mathlib.Data.Fin.Basic

/-!
# The allocator's guard (`rt/picolibc_port/syscalls.c`)

`malloc`, `free`, `calloc` and `realloc` each run between `alloc_guard_enter` and `alloc_guard_leave`, and the
allocator's own work may call them again. A run interleaves the single accesses of threads on any number of CPUs, the
timer's ticks and the switches of the scheduler. A tick switches a thread away only if the count of its CPU is zero
(`Preempt.canbootSchedOnTick`); no interrupt handler allocates. Outside its calls a thread may yield, and other code
may open and close sections of its own.
-/

namespace CanBoot.Alloc

open Lib Preempt Function

/-- The next access of a thread. -/
inductive Pc where
  /-- Not in a call. -/
  | outside
  /-- Preemption is disabled; `alloc_owner` is read next. -/
  | entered
  /-- A ticket is drawn next. -/
  | locking
  /-- The ticket served is compared with the thread's. -/
  | spinning (ticket : Nat)
  /-- `alloc_owner` is stored next. -/
  | locked
  /-- `alloc_depth` becomes 1 next. -/
  | owning
  /-- In the allocator's own work. -/
  | inside
  /-- `alloc_depth` is decremented next. -/
  | leaving
  /-- `alloc_owner` becomes -1 next. -/
  | freeing
  /-- The next ticket is served next. -/
  | unlocking
  /-- Preemption is enabled next. -/
  | left
  /-- `canboot_preempt_enable` found that it has to yield. -/
  | yielding
deriving DecidableEq, Repr

variable {n : Nat}

/-- A thread: its next access, and its open calls, the innermost first, each with its CPU and the count it found. -/
structure Thread (n : Nat) where
  pc : Pc
  calls : List (Fin n × Nat)
deriving DecidableEq

/-- The machine: which thread each CPU runs, the CPUs' flags, the threads, and the guard's lock, owner and depth. -/
structure State (n : Nat) where
  current : Fin n → Nat
  flags : Fin n → CpuFlags
  threads : Nat → Thread n
  lock : Ticket
  owner : Int
  depth : Nat

/-- How deep sections of other code and calls nest at most: 256 KiB of stack end before. -/
def nestMax : Nat := 2147483648

/-- Every CPU runs a thread of its own, and no call is open. -/
def State.start (n : Nat) : State n :=
  ⟨fun c => c, fun _ => ⟨0, false⟩, fun _ => ⟨.outside, []⟩, ⟨0, 0⟩, -1, 0⟩

/-- What happens next: a thread of a CPU begins a call, ends one or makes its next access; the timer ticks, and the
thread `b` waits to run; a thread yields to `b`; other code leaves the count of a CPU at `k`. -/
inductive Event (n : Nat) where
  | call (c : Fin n)
  | leave (c : Fin n)
  | go (c : Fin n)
  | tick (c : Fin n) (b : Nat)
  | yield (c : Fin n) (b : Nat)
  | sections (c : Fin n) (k : Nat)
deriving DecidableEq

namespace State

variable (s : State n) (c : Fin n)

/-- The thread that a CPU runs. -/
def here : Thread n := s.threads (s.current c)

/-- The thread that a CPU runs becomes `th`. -/
def put (th : Thread n) : State n := { s with threads := update s.threads (s.current c) th }

/-- The thread that a CPU runs goes on to `pc`. -/
def goto (pc : Pc) : State n := s.put c { s.here c with pc := pc }

/-- A CPU switches to a thread. -/
def switch (b : Nat) : State n := { s with current := update s.current c b }

/-- A thread that no CPU runs. -/
def Waits (b : Nat) : Prop := ∀ c, s.current c ≠ b

instance (b : Nat) : Decidable (s.Waits b) := inferInstanceAs (Decidable (∀ _, _))

/-- Where a thread goes on after a call: in the work of the call around it, if there is one. -/
def back (calls : List (Fin n × Nat)) : Pc := if calls.isEmpty then .outside else .inside

/-- `alloc_guard_enter` begins, with `canboot_preempt_disable`. -/
def call : Option (State n) :=
  let th := s.here c
  if (th.pc = .outside ∨ th.pc = .inside) ∧ th.calls.length < nestMax then
    some { s.put c ⟨.entered, (c, (s.flags c).preemptCount) :: th.calls⟩ with
      flags := update s.flags c (canbootPreemptDisable (s.flags c)) }
  else none

/-- The next access of a thread in `alloc_guard_enter`, `spin_lock`, `alloc_guard_leave` or `spin_unlock`. -/
def go : Option (State n) :=
  let th := s.here c
  match th.pc with
  | .outside | .inside => none
  | .entered =>
    if s.owner = toInt32 c then some { s.goto c .inside with depth := u32 (s.depth + 1) } else some (s.goto c .locking)
  | .locking => some { s.goto c (.spinning s.lock.draw.1) with lock := s.lock.draw.2 }
  | .spinning ticket => some (if s.lock.serves ticket then s.goto c .locked else s)
  | .locked => some { s.goto c .owning with owner := toInt32 c }
  | .owning => some { s.goto c .inside with depth := 1 }
  | .leaving =>
    let depth := sub32 s.depth 1
    some { s.goto c (if depth = 0 then .freeing else .left) with depth := depth }
  | .freeing => some { s.goto c .unlocking with owner := -1 }
  | .unlocking => some { s.goto c .left with lock := s.lock.advance }
  | .left =>
    let r := canbootPreemptEnable (s.flags c)
    some { s.put c ⟨if r.2 then .yielding else back th.calls.tail, th.calls.tail⟩ with
      flags := update s.flags c r.1 }
  | .yielding => some (s.goto c (back th.calls))

def step : Event n → Option (State n)
  | .call c => s.call c
  | .leave c => if (s.here c).pc = .inside then some (s.goto c .leaving) else none
  | .go c => s.go c
  | .tick c b =>
    let r := canbootSchedOnTick (decide (s.Waits b)) (s.flags c)
    let s' := { s with flags := update s.flags c r.1 }
    some (if r.2 = .direct true then s'.switch c b else s')
  | .yield c b =>
    if ((s.here c).pc = .outside ∨ (s.here c).pc = .yielding) ∧ s.Waits b then some (s.switch c b) else none
  | .sections c k =>
    if (s.here c).pc = .outside ∧ k < nestMax then
      some { s with flags := update s.flags c { s.flags c with preemptCount := k } }
    else none

/-- The state after a run, if all of it can happen. -/
def run (s : State n) (events : List (Event n)) : Option (State n) := events.foldlM step s

end State

end CanBoot.Alloc
