import CanBoot.Rt.Sched

/-!
# POSIX threads over the scheduler (`rt/pthread_stub/pthread.c`)

Each call is a list of sections, one for each time it takes `g_sched`. The VM lock is dropped around
`pthread_join`, `pthread_cond_wait` and the socket pump (`pump_yield` in `cando_port/net_posix/sockets.c`),
and a thread made by `pthread_create` holds it from its first section to the return of its start routine.

`exec` is one step of the system. A client is whatever a `Policy` lets its threads call.
-/

namespace CanBoot.Sched

open CanBoot.Lib
open Function (update)

variable {Q : Type} [QueueStore Q]

/-! ## Mutexes -/

/-- A mutex taken by a thread. -/
@[simp]
def Core.take (s : Core) (m : Nat) (t : Tid) : Core :=
  { s with
    mutexLocked := update s.mutexLocked m true
    mutexOwner := update s.mutexOwner m t.id
    hist := { s.hist with holders := update s.hist.holders m (s.inst t :: s.hist.holders m) } }

/-- A mutex given up by a thread. The source does not ask who owns it. -/
@[simp]
def Core.drop (s : Core) (m : Nat) (t : Tid) : Core :=
  { s with
    mutexLocked := update s.mutexLocked m false
    mutexOwner := update s.mutexOwner m (-1)
    hist := { s.hist with holders := update s.hist.holders m ((s.hist.holders m).erase (s.inst t)) } }

@[simp]
def Core.busy (s : Core) (self : Tid) : Core := { s with rc := update s.rc self .ebusy }

/-- `pthread_mutex_lock`. -/
def pthreadMutexLock (c : Cpu) (m : Nat) (self : Tid) (rest : List Instr) (w : World Q) : World Q :=
  if w.core.mutexLocked m then
    park c self (.mutex m) w
  else
    (w.mod fun s => s.take m self).leave self rest

/-- `pthread_mutex_trylock`. -/
def pthreadMutexTrylock (m : Nat) (self : Tid) (rest : List Instr) (w : World Q) : World Q :=
  if w.core.mutexLocked m then
    (w.mod fun s => s.busy self).leave self rest
  else
    (w.mod fun s => s.take m self).leave self rest

/-- `pthread_mutex_unlock`. -/
def pthreadMutexUnlock (m : Nat) (self : Tid) (rest : List Instr) (w : World Q) : World Q :=
  (canbootSchedWakeOne (.mutex m) (w.mod fun s => s.drop m self)).leave self rest

/-! ## Condition variables -/

/-- The middle section of `pthread_cond_wait`: the mutex is released and the thread parked under one hold
of the lock. When it is resumed it releases the lock and goes on. -/
def pthreadCondPark (c : Cpu) (cv m : Nat) (self : Tid) (rest : List Instr) (w : World Q) : World Q :=
  canbootSchedBlockOn c self (.cond cv)
    ((canbootSchedWakeOne (.mutex m) (w.mod fun s => s.drop m self)).mod fun s =>
      (s.setResume self .unlock).setCode self rest)

/-- `c->generation++`. -/
@[simp]
def Core.bump (s : Core) (cv : Nat) : Core :=
  { s with generation := update s.generation cv (s.generation cv + 1) }

/-- `pthread_cond_signal`. -/
def pthreadCondSignal (cv : Nat) (self : Tid) (rest : List Instr) (w : World Q) : World Q :=
  (canbootSchedWakeOne (.cond cv) (w.mod fun s => s.bump cv)).leave self rest

/-- `pthread_cond_broadcast`. -/
def pthreadCondBroadcast (fuel cv : Nat) (self : Tid) (rest : List Instr) (w : World Q) : Option (World Q) :=
  (canbootSchedWakeAll (.cond cv) fuel (w.mod fun s => s.bump cv)).map fun w => w.leave self rest

/-! ## Once -/

@[simp]
def Core.startOnce (s : Core) (o : Nat) (self : Tid) : Core :=
  { s with
    onceState := update s.onceState o .running
    initing := update s.initing self (o :: s.initing self) }

@[simp]
def Core.finishOnce (s : Core) (o : Nat) (self : Tid) : Core :=
  { s with
    onceState := update s.onceState o .done
    initing := update s.initing self (s.initing self).tail }

/-- `pthread_once` up to the call of `init`, or to the loop that waits for another thread's. -/
def pthreadOnceEnter (c : Cpu) (o : Nat) (self : Tid) (rest : List Instr) (w : World Q) : World Q :=
  match w.core.onceState o with
  | .done => w.leave self rest
  | .running => park c self (.once o) (w.mod fun s => s.setCode self (.onceWait o :: rest))
  | .fresh => (w.mod fun s => s.startOnce o self).leave self rest

/-- The loop of `pthread_once`. -/
def pthreadOnceWait (c : Cpu) (o : Nat) (self : Tid) (rest : List Instr) (w : World Q) : World Q :=
  if w.core.onceState o ≠ .done then park c self (.once o) w else w.leave self rest

/-- `pthread_once` after `init` returned. -/
def pthreadOnceDone (fuel o : Nat) (self : Tid) (rest : List Instr) (w : World Q) : Option (World Q) :=
  (canbootSchedWakeAll (.once o) fuel (w.mod fun s => s.finishOnce o self)).map fun w => w.leave self rest

/-! ## Calls -/

/-- The sections of a call, made by a thread with the given entry. -/
def Call.body (gen : Tid → Nat) (e : Option Entry) : Call → List Instr
  | .threadCreate => [.threadCreate .thread]
  | .threadExit v => [.threadExit v .call]
  | .threadJoin i => [.threadJoin i (gen (.pool i))]
  | .threadDetach i => [.threadDetach i]
  | .pthreadCreate => [.threadCreate .pthread]
  | .pthreadExit v => [.threadExit v .call]
  | .pthreadJoin i => [.gilOwned, .gilReleaseIf, .threadJoin i (gen (.pool i)), .gilAcquireIf]
  | .pthreadDetach i => [.threadDetach i]
  | .entryReturn v =>
    match e with
    | some .pthread => [.gilRelease, .threadExit v .entry]
    | _ => [.threadExit v .entry]
  | .yield => [.yield]
  | .mutexLock m => [.mutexLock m]
  | .mutexTrylock m => [.mutexTrylock m]
  | .mutexUnlock m => [.mutexUnlock m]
  | .condWait c m => [.gilOwned, .gilReleaseIf, .condPark c m, .gilAcquireIf, .mutexLock m]
  | .condSignal c => [.condSignal c]
  | .condBroadcast c => [.condBroadcast c]
  | .once o => [.onceEnter o]
  | .onceInitReturn o => [.onceDone o]
  | .pump => [.gilOwned, .gilReleaseIf, .yield, .gilAcquireIf]

/-- The slot a call names, if it names one. -/
def Call.target : Call → Option Nat
  | .threadJoin i | .threadDetach i | .pthreadJoin i | .pthreadDetach i => some i
  | _ => none

/-- `canboot_thread_by_id` finds no thread outside the pool. -/
def Call.known (k : Call) : Bool := k.target.all (· < 16)

/-- The slot a call joins. -/
def Call.joined : Call → Option Nat
  | .threadJoin i | .pthreadJoin i => if i < 16 then some i else none
  | _ => none

/-- The returns a thread can make: only an entry has a return, and `init` returns to the call that made it. -/
def Call.fits (s : Core) (t : Tid) : Call → Bool
  | .entryReturn _ => (s.entry t).isSome
  | .onceInitReturn o => (s.initing t).head? == some o
  | _ => true

/-- A join call is counted for the thread that has the slot. -/
def Hist.countJoin (h : Hist) (i : Nat) : Hist :=
  let t := (Tid.pool i, h.gen (.pool i))
  { h with joins := update h.joins t (h.joins t + 1) }

/-- A thread begins a call. -/
def Core.begin (s : Core) (t : Tid) (k : Call) : Core :=
  if k.known then
    { s with
      code := update s.code t (k.body s.hist.gen (s.entry t) ++ [.ret k (s.ownsGil t)])
      rc := update s.rc t .ok
      hist := k.joined.elim s.hist s.hist.countJoin }
  else
    { s with rc := update s.rc t .esrch }

/-! ## Steps -/

/-- The section at the head of a thread's code. -/
def lockedSection (fuel : Nat) (c : Cpu) (self : Tid) (i : Instr) (rest : List Instr) (w : World Q) :
    Option (World Q) :=
  match i with
  | .gilOwned => some (canbootGilOwnedByCurrent self rest w)
  | .gilReleaseIf | .gilRelease => some (canbootGilRelease self rest w)
  | .gilAcquireIf | .gilAcquire => some (canbootGilAcquire c self rest w)
  | .mutexLock m => some (pthreadMutexLock c m self rest w)
  | .mutexTrylock m => some (pthreadMutexTrylock m self rest w)
  | .mutexUnlock m => some (pthreadMutexUnlock m self rest w)
  | .condPark cv m => some (pthreadCondPark c cv m self rest w)
  | .condSignal cv => some (pthreadCondSignal cv self rest w)
  | .condBroadcast cv => pthreadCondBroadcast fuel cv self rest w
  | .onceEnter o => some (pthreadOnceEnter c o self rest w)
  | .onceWait o => some (pthreadOnceWait c o self rest w)
  | .onceDone o => pthreadOnceDone fuel o self rest w
  | .threadCreate e => some (canbootThreadCreate e self rest w)
  | .threadJoin i _ => some (canbootThreadJoin c i self rest w)
  | .threadDetach i => some (canbootThreadDetach i self rest w)
  | .threadExit v _ =>
    match self with
    | .pool i => canbootThreadExit fuel c i v w
    | .idle _ => none
  | .yield => some (canbootSchedYield c self (w.mod fun s => s.setCode self rest))
  | .ret _ _ => none

/-- The sections that take no lock: a call's return, and the VM lock's release and acquire when the caller
did not hold it. -/
def Instr.skips (hadGil : Bool) : Instr → Bool
  | .gilReleaseIf | .gilAcquireIf => !hadGil
  | .ret _ _ => true
  | _ => false

/-- What a CPU can do: its thread makes a call, or goes on; the timer fires, or the thread yields
(`canboot_preempt_enable`); the idle loop turns; the CPU comes online. -/
inductive Act where
  | call (c : Cpu) (k : Call)
  | run (c : Cpu)
  | preempt (c : Cpu)
  | yield (c : Cpu)
  | idle (c : Cpu)
  | online (c : Cpu)
deriving DecidableEq, Repr

def Act.cpu : Act → Cpu
  | .call c _ | .run c | .preempt c | .yield c | .idle c | .online c => c

/-- Which calls a client's threads make, and when. -/
abbrev Policy := Core → Tid → Call → Bool

/-- The current thread of a CPU goes on. -/
def goOn (fuel : Nat) (c : Cpu) (self : Tid) (w : World Q) : Option (World Q) :=
  match w.core.resume self, w.core.code self with
  | .running, i :: rest =>
    if i.skips (w.core.hadGil self) then
      some (w.mod fun s => s.setCode self rest)
    else if w.core.lock = none then
      lockedSection fuel c self i rest w
    else none
  | .retest, i :: rest => if w.core.lock = some c then lockedSection fuel c self i rest w else none
  | .unlock, code => if w.core.lock = some c then some (w.leave self code) else none
  | _, _ => none

/-- One step of the system, where the step is possible. -/
def exec (policy : Policy) (fuel : Nat) (a : Act) (w : World Q) : Option (World Q) :=
  match a with
  | .call c k => do
    let self ← w.core.current c
    if self ≠ .idle c ∧ w.core.resume self = .running ∧ w.core.code self = [] ∧
        k.fits w.core self = true ∧ policy w.core self k = true then
      return w.mod fun s => s.begin self k
    else none
  | .run c => do
    let self ← w.core.current c
    goOn fuel c self w
  | .preempt c => do
    let self ← w.core.current c
    if w.core.lock = none ∧ w.core.resume self = .running then return canbootSchedPreempt c self w else none
  | .yield c => do
    let self ← w.core.current c
    if w.core.lock = none ∧ w.core.resume self = .running ∧ self ≠ .idle c then
      return canbootSchedYield c self w
    else none
  | .idle c =>
    if w.core.current c = some (.idle c) ∧ w.core.lock = none ∧ w.core.resume (.idle c) = .running then
      some (idleTurn c w)
    else none
  | .online c =>
    if w.core.current c = none ∧ w.core.lock = none then some (canbootSchedApOnline c w) else none

/-- A schedule, from a world. -/
def runActs (policy : Policy) (fuel : Nat) : List Act → World Q → Option (World Q)
  | [], w => some w
  | a :: rest, w => exec policy fuel a w >>= runActs policy fuel rest

/-- The worlds some schedule reaches from `canboot_sched_init`. -/
inductive Reachable (policy : Policy) (fuel : Nat) : World Q → Prop
  | init : Reachable policy fuel canbootSchedInit
  | step {w w' : World Q} {a : Act} : Reachable policy fuel w → exec policy fuel a w = some w' →
      Reachable policy fuel w'

/-- Every call, at any time. -/
def anyClient : Policy := fun _ _ _ => true

end CanBoot.Sched
