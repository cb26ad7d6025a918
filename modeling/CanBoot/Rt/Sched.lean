import CanBoot.Lib.Links

/-!
# The scheduler (`rt/sched/sched.c`)

All scheduler state is serialised by one lock, `g_sched`. A step of the system is what one CPU does while
it holds the lock: from `canboot_sched_lock`, or from the point where a context switch resumed a thread
with the lock handed over, to the `canboot_sched_unlock` or to the next context switch. Between steps
anything may happen on another CPU.

A context switch keeps the lock: `reschedule` leaves it with the CPU, and what the resumed thread does
first says who releases it. That point is the thread's `Resume`: the trampoline and `reschedule`'s callers
release the lock at once, a blocking loop tests its condition again with the lock held, and an exited
thread is never resumed.

A thread's program is what is left of the call it is in (`Rt.Pthread` says which sections a call has).
Between calls its code is the client's, and the client may make any call.

The queues are a parameter of the world. In the source they are chained through one link field
(`Lib.Links`); the laws also run the same sections over plain lists.

`Hist` records what happened and is read by no section.
-/

namespace CanBoot.Sched

open CanBoot.Lib
open Function (update)

abbrev Cpu := Nat

/-- A slot of the thread pool, or a CPU's idle thread. -/
inductive Tid where
  | pool (i : Nat)
  | idle (c : Cpu)
deriving DecidableEq, Repr

/-- `t->id`. -/
def Tid.id : Tid → Int
  | .pool i => i
  | .idle c => -1 - c

inductive ThState where
  | free | new | runnable | running | blocked | exited
deriving DecidableEq, Repr

/-- The run queue, and the wait queues of the GIL, of a thread's joiners, of a mutex, of a condition
variable and of a once control. -/
inductive QueueId where
  | run | gil
  | join (i : Nat)
  | mutex (m : Nat)
  | cond (c : Nat)
  | once (o : Nat)
deriving DecidableEq, Repr

/-- `t->entry`: an entry given to `canboot_thread_create`, or `gil_thread_entry` around a start routine. The
boot thread has none. -/
inductive Entry where
  | thread | pthread
deriving DecidableEq, Repr

inductive Errno where
  | ok | esrch | eagain | ebusy
deriving DecidableEq, Repr

/-- How `canboot_thread_exit` was reached: by a call, or by the return of the thread's entry. -/
inductive ExitBy where
  | call | entry
deriving DecidableEq, Repr

/-- The calls a thread can make. -/
inductive Call where
  | threadCreate | threadExit (v : Nat) | threadJoin (i : Nat) | threadDetach (i : Nat)
  | pthreadCreate | pthreadExit (v : Nat) | pthreadJoin (i : Nat) | pthreadDetach (i : Nat)
  | entryReturn (v : Nat)
  | yield
  | mutexLock (m : Nat) | mutexTrylock (m : Nat) | mutexUnlock (m : Nat)
  | condWait (c m : Nat) | condSignal (c : Nat) | condBroadcast (c : Nat)
  | once (o : Nat) | onceInitReturn (o : Nat)
  | pump
deriving DecidableEq, Repr

/-- The sections of calls. A join carries the number of threads its slot has had so far, and `ret` ends a
call, with whether the caller owned the GIL when it made it: neither is read by any section. -/
inductive Instr where
  | gilOwned | gilReleaseIf | gilAcquireIf | gilAcquire | gilRelease
  | mutexLock (m : Nat) | mutexTrylock (m : Nat) | mutexUnlock (m : Nat)
  | condPark (c m : Nat) | condSignal (c : Nat) | condBroadcast (c : Nat)
  | onceEnter (o : Nat) | onceWait (o : Nat) | onceDone (o : Nat)
  | threadCreate (e : Entry) | threadJoin (i g : Nat) | threadDetach (i : Nat)
  | threadExit (v : Nat) (via : ExitBy)
  | yield
  | ret (k : Call) (owned : Bool)
deriving DecidableEq, Repr

/-- Where a thread goes on: it runs without the lock, it was switched out and releases the lock when it is
resumed, it was switched out in a loop that tests its condition again, or it never goes on. -/
inductive Resume where
  | running | unlock | retest | gone
deriving DecidableEq, Repr

/-- `pthread_once_t.state`. -/
inductive OnceState where
  | fresh | running | done
deriving DecidableEq, Repr

/-- A thread, as opposed to the slot it lives in: the slot and how many threads the slot had before. -/
abbrev Inst := Tid × Nat

instance : LawfulBEq Inst := inferInstance

/-- What happened so far. -/
structure Hist where
  /-- how many threads a slot has had -/
  gen : Tid → Nat
  /-- who is between a successful lock of a mutex and its release -/
  holders : Nat → List Inst
  /-- which thread's acquire made the GIL owned -/
  gilBy : Option Inst
  /-- how many join calls on the slot were made, or still under way, in a thread's time -/
  joins : Inst → Nat
  detached : Inst → Bool
  /-- the thread's slot was given back -/
  reaped : Inst → Bool
  exitVal : Inst → Option Nat

structure Core where
  state : Tid → ThState
  retval : Tid → Nat
  detached : Tid → Bool
  entry : Tid → Option Entry
  current : Cpu → Option Tid
  /-- `g_sched`, and which CPU holds it -/
  lock : Option Cpu
  gilLocked : Bool
  gilOwner : Option Tid
  mutexLocked : Nat → Bool
  mutexOwner : Nat → Int
  generation : Nat → Nat
  onceState : Nat → OnceState
  /-- the sections left of the call a thread is in -/
  code : Tid → List Instr
  resume : Tid → Resume
  /-- the local `had_gil` -/
  hadGil : Tid → Bool
  /-- the once controls whose `init` the thread is in -/
  initing : Tid → List Nat
  /-- the return code of the last call, the value its join stored, the thread its create returned -/
  rc : Tid → Errno
  got : Tid → Nat
  made : Tid → Option Nat
  hist : Hist

/-- The operations on queues. -/
class QueueStore (Q : Type) where
  empty : Q
  push : Q → QueueId → Tid → Q
  pop : Q → QueueId → Option Tid × Q
  clear : Q → QueueId → Tid → Q
  nonempty : Q → QueueId → Bool

/-- The source's queues: `rq_push`, `rq_pop`, `wq_push` and `wq_pop` over the one field `q_next`. -/
instance : QueueStore (Links Tid QueueId) where
  empty := ⟨fun _ => none, fun _ => none, fun _ => none⟩
  push := Links.push
  pop := Links.pop
  clear := Links.clear
  nonempty l k := (l.head k).isSome

structure World (Q : Type) where
  q : Q
  core : Core

variable {Q : Type} [QueueStore Q]

namespace Core

/-- The thread in a slot. -/
def inst (s : Core) (t : Tid) : Inst := (t, s.hist.gen t)

def ownsGil (s : Core) (t : Tid) : Bool := s.gilLocked && s.gilOwner == some t

@[simp]
def setState (s : Core) (t : Tid) (st : ThState) : Core := { s with state := update s.state t st }

@[simp]
def setResume (s : Core) (t : Tid) (r : Resume) : Core := { s with resume := update s.resume t r }

@[simp]
def setCode (s : Core) (t : Tid) (code : List Instr) : Core := { s with code := update s.code t code }

/-- `canboot_sched_unlock`, at the end of a section. -/
@[simp]
def leave (s : Core) (t : Tid) (rest : List Instr) : Core :=
  { s with lock := none, resume := update s.resume t .running, code := update s.code t rest }

end Core

namespace World

@[simp]
def mod (w : World Q) (f : Core → Core) : World Q := ⟨w.q, f w.core⟩

@[simp]
def push (w : World Q) (k : QueueId) (t : Tid) : World Q := ⟨QueueStore.push w.q k t, w.core⟩

@[simp]
def leave (w : World Q) (t : Tid) (rest : List Instr) : World Q := w.mod fun s => s.leave t rest

end World

/-! ## Switching, blocking and waking -/

/-- `reschedule`: the first runnable thread, or the CPU's idle thread, becomes current. -/
def reschedule (c : Cpu) (w : World Q) : World Q :=
  let popped := QueueStore.pop w.q .run
  let next : Tid := popped.1.getD (.idle c)
  let core : Core := { w.core with lock := some c }
  if core.current c = some next then
    ⟨popped.2, core.setState next .running⟩
  else
    ⟨popped.2, { core.setState next .running with current := update core.current c (some next) }⟩

/-- `canboot_sched_block_on`. -/
@[simp]
def canbootSchedBlockOn (c : Cpu) (self : Tid) (k : QueueId) (w : World Q) : World Q :=
  reschedule c ((w.mod fun s => s.setState self .blocked).push k self)

/-- A blocking loop whose condition did not hold: when the thread is resumed, it tests it again. -/
@[simp]
def park (c : Cpu) (self : Tid) (k : QueueId) (w : World Q) : World Q :=
  canbootSchedBlockOn c self k (w.mod fun s => s.setResume self .retest)

/-- `canboot_sched_wake_one`. -/
def canbootSchedWakeOne (k : QueueId) (w : World Q) : World Q :=
  match QueueStore.pop w.q k with
  | (none, q) => ⟨q, w.core⟩
  | (some t, q) => World.push ⟨q, w.core.setState t .runnable⟩ .run t

/-- `canboot_sched_wake_all`. -/
def canbootSchedWakeAll (k : QueueId) : Nat → World Q → Option (World Q)
  | 0, _ => none
  | fuel + 1, w =>
    match QueueStore.pop w.q k with
    | (none, q) => some ⟨q, w.core⟩
    | (some t, q) => canbootSchedWakeAll k fuel (World.push ⟨q, w.core.setState t .runnable⟩ .run t)

/-! ## The VM lock -/

@[simp]
def Core.takeGil (s : Core) (t : Tid) : Core :=
  { s with
    gilLocked := true
    gilOwner := some t
    hist := { s.hist with gilBy := some (s.inst t) } }

@[simp]
def Core.freeGil (s : Core) : Core := { s with gilLocked := false, gilOwner := none }

@[simp]
def Core.noteGil (s : Core) (t : Tid) : Core := { s with hadGil := update s.hadGil t (s.ownsGil t) }

/-- `canboot_gil_acquire`. -/
def canbootGilAcquire (c : Cpu) (self : Tid) (rest : List Instr) (w : World Q) : World Q :=
  if w.core.gilLocked = true ∧ w.core.gilOwner ≠ some self then
    park c self .gil w
  else
    (w.mod fun s => s.takeGil self).leave self rest

/-- `canboot_gil_release`: it does not ask who owns the lock. -/
def canbootGilRelease (self : Tid) (rest : List Instr) (w : World Q) : World Q :=
  (canbootSchedWakeOne .gil (w.mod Core.freeGil)).leave self rest

/-- `canboot_gil_owned_by_current`, into `had_gil`. -/
def canbootGilOwnedByCurrent (self : Tid) (rest : List Instr) (w : World Q) : World Q :=
  (w.mod fun s => s.noteGil self).leave self rest

/-! ## Giving up the CPU -/

/-- `canboot_sched_yield`. -/
def canbootSchedYield (c : Cpu) (self : Tid) (w : World Q) : World Q :=
  let w := w.mod fun s => s.setResume self .unlock
  if w.core.state self = .running then
    reschedule c ((w.mod fun s => s.setState self .runnable).push .run self)
  else
    reschedule c w

/-- `canboot_sched_preempt`, from the timer interrupt. -/
def canbootSchedPreempt (c : Cpu) (self : Tid) (w : World Q) : World Q :=
  if QueueStore.nonempty w.q .run then
    let w := w.mod fun s => s.setResume self .unlock
    if w.core.state self = .running ∧ self ≠ .idle c then
      reschedule c ((w.mod fun s => s.setState self .runnable).push .run self)
    else
      reschedule c w
  else
    w

/-- One turn of `idle_entry`'s loop. -/
def idleTurn (c : Cpu) (w : World Q) : World Q :=
  reschedule c (w.mod fun s => s.setResume (.idle c) .unlock)

/-! ## Threads -/

/-- The first free slot after the boot thread's. -/
def Core.freeSlot (s : Core) : Option Nat :=
  (List.range' 1 15).find? fun i => s.state (.pool i) = .free

/-- Whether a section is a join of a slot. -/
def Instr.joins (i : Nat) : Instr → Bool
  | .threadJoin j _ => j == i
  | _ => false

/-- How many threads are inside a join of a slot. -/
def Core.joining (s : Core) (i : Nat) : Nat :=
  (List.range 16).countP fun j => (s.code (.pool j)).any (Instr.joins i)

/-- What a new thread runs before the code of its client. -/
def Entry.code : Entry → List Instr
  | .pthread => [.gilAcquire]
  | .thread => []

/-- A slot's thread structure zeroed and filled in; its context starts at the trampoline. -/
@[simp]
def Core.initSlot (s : Core) (i : Nat) (e : Entry) : Core :=
  let t := Tid.pool i
  let gen := s.hist.gen t + 1
  { s with
    state := update s.state t .runnable
    retval := update s.retval t 0
    detached := update s.detached t false
    entry := update s.entry t (some e)
    code := update s.code t e.code
    resume := update s.resume t .unlock
    hadGil := update s.hadGil t false
    initing := update s.initing t []
    rc := update s.rc t .ok
    got := update s.got t 0
    made := update s.made t none
    hist := { s.hist with
      gen := update s.hist.gen t gen
      joins := update s.hist.joins (t, gen) (s.joining i) } }

/-- No slot was free. -/
@[simp]
def Core.noSlot (s : Core) (self : Tid) : Core :=
  { s with made := update s.made self none, rc := update s.rc self .eagain }

@[simp]
def Core.setMade (s : Core) (self : Tid) (i : Nat) : Core := { s with made := update s.made self (some i) }

/-- `canboot_thread_create`. -/
def canbootThreadCreate (e : Entry) (self : Tid) (rest : List Instr) (w : World Q) : World Q :=
  match w.core.freeSlot with
  | none =>
    (w.mod fun s => s.noSlot self).leave self rest
  | some i =>
    ((World.push ⟨QueueStore.clear w.q (.join i) (.pool i), w.core.initSlot i e⟩ .run (.pool i)).mod fun s =>
      s.setMade self i).leave self rest

/-- A slot is given back. -/
@[simp]
def Core.reap (s : Core) (i : Nat) : Core :=
  { s with
    state := update s.state (.pool i) .free
    hist := { s.hist with reaped := update s.hist.reaped (s.inst (.pool i)) true } }

/-- `t->detached = 1`. -/
@[simp]
def Core.detach (s : Core) (i : Nat) : Core :=
  { s with detached := update s.detached (.pool i) true }

@[simp]
def Core.noteDetach (s : Core) (i : Nat) : Core :=
  { s with hist := { s.hist with detached := update s.hist.detached (s.inst (.pool i)) true } }

/-- `canboot_thread_detach`. -/
def canbootThreadDetach (i : Nat) (self : Tid) (rest : List Instr) (w : World Q) : World Q :=
  if w.core.state (.pool i) = .exited then
    (w.mod fun s => (s.noteDetach i).reap i).leave self rest
  else
    (w.mod fun s => (s.noteDetach i).detach i).leave self rest

/-- A thread's return value. -/
@[simp]
def Core.setRetval (s : Core) (i v : Nat) : Core :=
  { s with
    retval := update s.retval (.pool i) v
    hist := { s.hist with exitVal := update s.hist.exitVal (s.inst (.pool i)) (some v) } }

/-- A thread that will not be resumed. -/
@[simp]
def Core.end_ (s : Core) (t : Tid) : Core :=
  { s with resume := update s.resume t .gone, code := update s.code t [] }

/-- The rest of `canboot_thread_exit`, after the joiners were woken: the thread is switched out for good.
A pool thread's id is never negative. -/
def exitSwitch (c : Cpu) (i : Nat) (w : World Q) : World Q :=
  if w.core.detached (.pool i) then
    reschedule c (w.mod fun s => (s.end_ (.pool i)).reap i)
  else
    reschedule c (w.mod fun s => (s.end_ (.pool i)).setState (.pool i) .exited)

/-- `canboot_thread_exit`. -/
def canbootThreadExit (fuel : Nat) (c : Cpu) (i v : Nat) (w : World Q) : Option (World Q) :=
  (canbootSchedWakeAll (.join i) fuel (w.mod fun s => s.setRetval i v)).map (exitSwitch c i)

@[simp]
def Core.setGot (s : Core) (self : Tid) (v : Nat) : Core := { s with got := update s.got self v }

/-- `canboot_thread_join`. -/
def canbootThreadJoin (c : Cpu) (i : Nat) (self : Tid) (rest : List Instr) (w : World Q) : World Q :=
  if w.core.state (.pool i) ≠ .exited ∧ w.core.state (.pool i) ≠ .free then
    park c self (.join i) w
  else
    (w.mod fun s => (s.setGot self (s.retval (.pool i))).reap i).leave self rest

/-- `canboot_sched_ap_online`: a CPU adopts its startup context as its idle thread. -/
def canbootSchedApOnline (c : Cpu) (w : World Q) : World Q :=
  w.mod fun s => { s.setState (.idle c) .running with current := update s.current c (some (.idle c)) }

/-- `canboot_sched_init`: the boot thread runs on CPU 0 and owns the VM lock, and CPU 0's idle thread
starts at the trampoline. -/
def canbootSchedInit : World Q where
  q := QueueStore.empty
  core :=
    { state := fun t => if t = .pool 0 then .running else if t = .idle 0 then .runnable else .free
      retval := fun _ => 0
      detached := fun _ => false
      entry := fun _ => none
      current := fun c => if c = 0 then some (.pool 0) else none
      lock := none
      gilLocked := true
      gilOwner := some (.pool 0)
      mutexLocked := fun _ => false
      mutexOwner := fun _ => -1
      generation := fun _ => 0
      onceState := fun _ => .fresh
      code := fun _ => []
      resume := fun
        | .pool i => if i = 0 then .running else .gone
        | .idle c => if c = 0 then .unlock else .running
      hadGil := fun _ => false
      initing := fun _ => []
      rc := fun _ => .ok
      got := fun _ => 0
      made := fun _ => none
      hist :=
        { gen := fun _ => 0
          holders := fun _ => []
          gilBy := some (.pool 0, 0)
          joins := fun _ => 0
          detached := fun _ => false
          reaped := fun _ => false
          exitVal := fun _ => none } }

end CanBoot.Sched
