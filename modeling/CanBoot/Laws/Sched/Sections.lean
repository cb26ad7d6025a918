import CanBoot.Laws.Sched.Lists

/-!
# What a section does

Over lists every section ends in one of the worlds of `Did`, each with the test that leads to it. A law about
every section is a case split on it, in which wake-ups are `World.woken` and a cleared join queue was empty.
-/

namespace CanBoot.Sched

open Function Option

/-- The sections that take the VM lock, and those that give it up. -/
def Instr.acquires : Instr → Bool
  | .gilAcquireIf | .gilAcquire => true
  | _ => false

def Instr.releases : Instr → Bool
  | .gilReleaseIf | .gilRelease => true
  | _ => false

@[simp]
theorem push_lists (q : Lists) (k : QueueId) (t : Tid) : QueueStore.push q k t = update q k (q k ++ [t]) := rfl

/-- The world after a section, by what it found. -/
inductive Did (a : World Lists) (c : Cpu) (self : Tid) (rest : List Instr) : Instr → World Lists → Prop
  | gilOwned : Did a c self rest .gilOwned ((a.mod fun s => s.noteGil self).leave self rest)
  | gilRelease {i : Instr} (which : i.releases = true) :
      Did a c self rest i (((a.mod Core.freeGil).woken .gil 1).leave self rest)
  | gilTake {i : Instr} (which : i.acquires = true)
      (free : ¬ (a.core.gilLocked = true ∧ a.core.gilOwner ≠ some self)) :
      Did a c self rest i ((a.mod fun s => s.takeGil self).leave self rest)
  | gilPark {i : Instr} (which : i.acquires = true) (locked : a.core.gilLocked = true)
      (other : a.core.gilOwner ≠ some self) : Did a c self rest i (park c self .gil a)
  | mutexTake {m : Nat} (free : a.core.mutexLocked m = false) :
      Did a c self rest (.mutexLock m) ((a.mod fun s => s.take m self).leave self rest)
  | mutexPark {m : Nat} (locked : a.core.mutexLocked m = true) :
      Did a c self rest (.mutexLock m) (park c self (.mutex m) a)
  | tryTake {m : Nat} (free : a.core.mutexLocked m = false) :
      Did a c self rest (.mutexTrylock m) ((a.mod fun s => s.take m self).leave self rest)
  | tryBusy {m : Nat} (locked : a.core.mutexLocked m = true) :
      Did a c self rest (.mutexTrylock m) ((a.mod fun s => s.busy self).leave self rest)
  | mutexUnlock {m : Nat} :
      Did a c self rest (.mutexUnlock m) (((a.mod fun s => s.drop m self).woken (.mutex m) 1).leave self rest)
  | condPark {cv m : Nat} : Did a c self rest (.condPark cv m) (canbootSchedBlockOn c self (.cond cv)
        (((a.mod fun s => s.drop m self).woken (.mutex m) 1).mod fun s =>
          (s.setResume self .unlock).setCode self rest))
  | condSignal {cv : Nat} :
      Did a c self rest (.condSignal cv) (((a.mod fun s => s.bump cv).woken (.cond cv) 1).leave self rest)
  | condBroadcast {cv : Nat} : Did a c self rest (.condBroadcast cv)
      (((a.mod fun s => s.bump cv).woken (.cond cv) (a.q (.cond cv)).length).leave self rest)
  | oncePast {o : Nat} {i : Instr} (which : i = .onceEnter o ∨ i = .onceWait o)
      (done : a.core.onceState o = .done) : Did a c self rest i (a.leave self rest)
  | onceStart {o : Nat} (fresh : a.core.onceState o = .fresh) :
      Did a c self rest (.onceEnter o) ((a.mod fun s => s.startOnce o self).leave self rest)
  | onceJoin {o : Nat} (running : a.core.onceState o = .running) : Did a c self rest (.onceEnter o)
      (park c self (.once o) (a.mod fun s => s.setCode self (.onceWait o :: rest)))
  | oncePark {o : Nat} (undone : a.core.onceState o ≠ .done) : Did a c self rest (.onceWait o) (park c self (.once o) a)
  | onceDone {o : Nat} : Did a c self rest (.onceDone o)
      (((a.mod fun s => s.finishOnce o self).woken (.once o) (a.q (.once o)).length).leave self rest)
  | noSlot {e : Entry} (full : a.core.freeSlot = none) :
      Did a c self rest (.threadCreate e) ((a.mod fun s => s.noSlot self).leave self rest)
  | create {e : Entry} {j : Nat} (slot : a.core.freeSlot = some j) (free : a.core.state (.pool j) = .free) :
      Did a c self rest (.threadCreate e)
        ((((a.mod fun s => s.initSlot j e).push .run (.pool j)).mod fun s => s.setMade self j).leave self rest)
  | joinPark {j g : Nat} (alive : a.core.state (.pool j) ≠ .exited ∧ a.core.state (.pool j) ≠ .free) :
      Did a c self rest (.threadJoin j g) (park c self (.join j) a)
  | joinReap {j g : Nat} (ended : a.core.state (.pool j) = .exited ∨ a.core.state (.pool j) = .free) :
      Did a c self rest (.threadJoin j g)
        ((a.mod fun s => (s.setGot self (s.retval (.pool j))).reap j).leave self rest)
  | detachReap {j : Nat} (exited : a.core.state (.pool j) = .exited) :
      Did a c self rest (.threadDetach j) ((a.mod fun s => (s.noteDetach j).reap j).leave self rest)
  | detach {j : Nat} (alive : a.core.state (.pool j) ≠ .exited) :
      Did a c self rest (.threadDetach j) ((a.mod fun s => (s.noteDetach j).detach j).leave self rest)
  | exit {j v : Nat} {via : ExitBy} (pool : self = .pool j) : Did a c self rest (.threadExit v via)
      (exitSwitch c j ((a.mod fun s => s.setRetval j v).woken (.join j) (a.q (.join j)).length))
  | yield : Did a c self rest .yield (canbootSchedYield c self (a.mod fun s => s.setCode self rest))

variable {a' a : World Lists} {c : Cpu} {self : Tid} {i : Instr} {rest : List Instr}

/-- **Every section over lists.** -/
theorem lockedSection_did {fuel : Nat} (ready : Ready a) (done : lockedSection fuel c self i rest a = some a') :
    Did a c self rest i a' := by
  cases i with
  | gilOwned =>
    cases done
    exact .gilOwned
  | gilReleaseIf | gilRelease =>
    cases done
    rw [canbootGilRelease, wakeOne_eq (by simp)]
    exact .gilRelease rfl
  | gilAcquireIf | gilAcquire =>
    cases done
    rw [canbootGilAcquire]
    split
    · rename_i held
      exact .gilPark rfl held.1 held.2
    · rename_i free
      exact .gilTake rfl free
  | mutexLock m =>
    cases done
    rw [pthreadMutexLock]
    split
    · rename_i locked
      exact .mutexPark locked
    · rename_i free
      exact .mutexTake (by simpa using free)
  | mutexTrylock m =>
    cases done
    rw [pthreadMutexTrylock]
    split
    · rename_i locked
      exact .tryBusy locked
    · rename_i free
      exact .tryTake (by simpa using free)
  | mutexUnlock m =>
    cases done
    rw [pthreadMutexUnlock, wakeOne_eq (by simp)]
    exact .mutexUnlock
  | condPark cv m =>
    cases done
    rw [pthreadCondPark, wakeOne_eq (by simp)]
    exact .condPark
  | condSignal cv =>
    cases done
    rw [pthreadCondSignal, wakeOne_eq (by simp)]
    exact .condSignal
  | condBroadcast cv =>
    obtain ⟨woken, all, rfl⟩ := map_eq_some_iff.mp done
    rw [wakeAll_some (by simp) all]
    exact .condBroadcast
  | onceEnter o =>
    cases done
    rw [pthreadOnceEnter]
    split
    · rename_i past
      exact .oncePast (.inl rfl) past
    · rename_i running
      exact .onceJoin running
    · rename_i fresh
      exact .onceStart fresh
  | onceWait o =>
    cases done
    rw [pthreadOnceWait]
    split
    · rename_i undone
      exact .oncePark undone
    · rename_i past
      exact .oncePast (.inr rfl) (by simpa using past)
  | onceDone o =>
    obtain ⟨woken, all, rfl⟩ := map_eq_some_iff.mp done
    rw [wakeAll_some (by simp) all]
    exact .onceDone
  | threadCreate e =>
    cases done
    rw [canbootThreadCreate]
    cases slot : a.core.freeSlot with
    | none => exact .noSlot slot
    | some j =>
      have free : a.core.state (.pool j) = .free := by simpa using List.find?_some slot
      have cleared : QueueStore.clear a.q (.join j) (.pool j) = a.q := by
        show update a.q (.join j) [] = a.q
        rw [← (ready.free free).1, Function.update_eq_self]
      simp only [cleared]
      exact .create slot free
  | threadJoin j g =>
    cases done
    rw [canbootThreadJoin]
    split
    · rename_i alive
      exact .joinPark alive
    · rename_i ended
      exact .joinReap (by tauto)
  | threadDetach j =>
    cases done
    rw [canbootThreadDetach]
    split
    · rename_i exited
      exact .detachReap exited
    · rename_i alive
      exact .detach alive
  | threadExit v via =>
    cases self with
    | idle c' => cases done
    | pool j =>
      obtain ⟨woken, all, rfl⟩ := map_eq_some_iff.mp done
      rw [wakeAll_some (by simp) all]
      exact .exit rfl
  | yield =>
    cases done
    exact .yield
  | ret k owned => cases done

/-! ## What a section leaves alone -/

/-- A thread's own part of the world is as it was. -/
structure Kept (s s' : Core) (t : Tid) : Prop where
  code : s'.code t = s.code t
  resume : s'.resume t = s.resume t
  hadGil : s'.hadGil t = s.hadGil t
  gen : s'.hist.gen t = s.hist.gen t
  entry : s'.entry t = s.entry t

/-- A thread starts in a free slot. -/
structure Born (s s' : Core) (t : Tid) (e : Entry) : Prop where
  pool : ∃ j, t = .pool j
  free : s.state t = .free
  alive : s'.state t = .runnable
  code : s'.code t = e.code
  resume : s'.resume t = .unlock
  hadGil : s'.hadGil t = false
  gen : s'.hist.gen t = s.hist.gen t + 1
  entry : s'.entry t = some e

/-- **A section leaves every other thread alone**, or starts it. -/
theorem Did.fate {t : Tid} (did : Did a c self rest i a') (ne : t ≠ self) :
    Kept a.core a'.core t ∨ ∃ e, i = .threadCreate e ∧ Born a.core a'.core t e := by
  cases did with
  | @create e j slot free =>
    by_cases new : t = .pool j
    · subst new
      refine .inr ⟨e, rfl, ⟨j, rfl⟩, free, ?_, ?_, ?_, ?_, ?_, ?_⟩ <;> simp [ne]
    · refine .inl ⟨?_, ?_, ?_, ?_, ?_⟩ <;> simp [ne, new]
  | yield =>
    refine .inl ?_
    rw [canbootSchedYield]
    split <;> constructor <;> simp [ne]
  | exit pool =>
    subst pool
    refine .inl ?_
    rw [exitSwitch]
    split <;> constructor <;> simp [ne]
  | _ => exact .inl (by constructor <;> simp [ne])

/-- A thread that was there is the same thread afterwards. -/
theorem Did.same {t : Tid} (did : Did a c self rest i a') (there : a.core.state t ≠ .free) :
    a'.core.hist.gen t = a.core.hist.gen t ∧ a'.core.entry t = a.core.entry t := by
  cases did with
  | @create e j slot free =>
    have ne : t ≠ .pool j := by
      rintro rfl
      exact there free
    constructor <;> simp [ne]
  | yield =>
    rw [canbootSchedYield]
    split <;> constructor <;> simp
  | exit =>
    rw [exitSwitch]
    split <;> constructor <;> simp
  | _ => constructor <;> simp

end CanBoot.Sched
