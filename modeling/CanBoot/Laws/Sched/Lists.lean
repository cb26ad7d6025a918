import CanBoot.Laws.Sched.Moves

/-!
# The scheduler over plain lists

The same sections, run over queues that are lists, are what the source's linked queues stand for: `Sim`
relates two worlds with one core, whose links represent the lists (`exec_sim`). A push is faithful only
when its thread is on no queue, and a slot's join queue is cleared only when it is empty; `Ready` says
that of a world, and the invariant of `Laws.Sched.Placed` gives it for every world a schedule reaches.

Over lists every switch and every wake-up has a closed form (`reschedule_core`, `wakeOne_eq`,
`wakeAll_eq`), and the later laws compute with these.
-/

namespace CanBoot.Sched

open CanBoot.Lib List Option
open Function (update update_eq_self update_eq_self_iff update_of_ne update_self)

/-- Queues as lists. -/
abbrev Lists := QueueId → List Tid

instance : QueueStore Lists where
  empty := fun _ => []
  push q k t := update q k (q k ++ [t])
  pop q k := ((q k).head?, update q k (q k).tail)
  clear q k _ := update q k []
  nonempty q k := !(q k).isEmpty

/-! ## Closed forms -/

section Closed

variable (a : World Lists)

/-- The thread `reschedule` switches to. -/
def World.next (a : World Lists) (c : Cpu) : Tid := (a.q .run).head?.getD (.idle c)

@[simp]
theorem reschedule_q (c : Cpu) : (reschedule c a).q = update a.q .run (a.q .run).tail := by
  rw [reschedule]
  split <;> rfl

@[simp]
theorem reschedule_core (c : Cpu) : (reschedule c a).core = { a.core with
    lock := some c
    state := update a.core.state (a.next c) .running
    current := update a.core.current c (some (a.next c)) } := by
  rw [reschedule]
  split
  · rename_i same
    have keep : update a.core.current c (some (a.next c)) = a.core.current := by
      rw [update_eq_self_iff]
      exact same.symm
    rw [keep]
    rfl
  · rfl

/-- A world after the first `n` threads of a wait queue were made runnable. -/
@[simp]
def World.woken (a : World Lists) (k : QueueId) (n : Nat) : World Lists where
  q := update (update a.q k ((a.q k).drop n)) .run (a.q .run ++ (a.q k).take n)
  core := { a.core with state := fun t => if t ∈ (a.q k).take n then .runnable else a.core.state t }

variable {a} {k : QueueId} (wait : k ≠ .run)

theorem pop_nil (empty : a.q k = []) : QueueStore.pop a.q k = (none, a.q) := by
  show ((a.q k).head?, update a.q k (a.q k).tail) = _
  rw [empty, head?_nil, tail_nil, ← empty, update_eq_self]

variable {ts : List Tid}

variable {t : Tid}

theorem pop_cons (full : a.q k = t :: ts) : QueueStore.pop a.q k = (some t, update a.q k ts) := by
  show ((a.q k).head?, update a.q k (a.q k).tail) = _
  rw [full]
  rfl

theorem World.woken_nil (empty : a.q k = []) (n : Nat) : a.woken k n = a := by
  have keep : update a.q k [] = a.q := by rw [← empty, update_eq_self]
  simp [World.woken, empty, keep]

include wait

theorem wake_first (full : a.q k = t :: ts) :
    World.push ⟨update a.q k ts, a.core.setState t .runnable⟩ .run t = a.woken k 1 := by
  have queues : update (update a.q k ts) .run (update a.q k ts .run ++ [t]) =
      update (update a.q k ((a.q k).drop 1)) .run (a.q .run ++ (a.q k).take 1) := by
    rw [update_of_ne wait.symm, full]
    rfl
  have states : update a.core.state t .runnable =
      fun u => if u ∈ (a.q k).take 1 then .runnable else a.core.state u := by
    funext u
    by_cases same : u = t <;> simp [full, same]
  exact congrArg₂ _ queues (congrArg (fun st => { a.core with state := st }) states)

theorem wakeOne_eq : canbootSchedWakeOne k a = a.woken k 1 := by
  rw [canbootSchedWakeOne]
  cases full : a.q k with
  | nil => rw [pop_nil full, World.woken_nil full]
  | cons t ts => rw [pop_cons full, ← wake_first wait full]

/-- Waking the first thread and then the next ones is waking them all. -/
theorem World.woken_succ (full : a.q k = t :: ts) (n : Nat) : (a.woken k 1).woken k n = a.woken k (n + 1) := by
  have rest : (a.woken k 1).q k = ts := by
    simp [World.woken, update_of_ne wait, full]
  have run : (a.woken k 1).q .run = a.q .run ++ [t] := by
    simp [World.woken, full]
  have queues : update (update (a.woken k 1).q k (((a.woken k 1).q k).drop n)) .run
        ((a.woken k 1).q .run ++ ((a.woken k 1).q k).take n) =
      update (update a.q k ((a.q k).drop (n + 1))) .run (a.q .run ++ (a.q k).take (n + 1)) := by
    rw [rest, run]
    funext k'
    by_cases atRun : k' = .run
    · subst atRun
      simp [full]
    · by_cases atWait : k' = k
      · subst atWait
        simp [update_of_ne atRun, full]
      · simp [World.woken, update_of_ne atRun, update_of_ne atWait]
  have states : (fun u => if u ∈ ((a.woken k 1).q k).take n then ThState.runnable
        else (a.woken k 1).core.state u) =
      fun u => if u ∈ (a.q k).take (n + 1) then .runnable else a.core.state u := by
    rw [rest, full]
    funext u
    by_cases later : u ∈ ts.take n <;> by_cases same : u = t <;>
      simp [World.woken, full, later, same]
  exact congrArg₂ World.mk queues (congrArg (fun st => { a.core with state := st }) states)

/-- `canboot_sched_wake_all` ends when the queue is empty, and has woken every thread of it. -/
theorem wakeAll_eq : ∀ (fuel : Nat) (a : World Lists), canbootSchedWakeAll k fuel a =
    if (a.q k).length < fuel then some (a.woken k (a.q k).length) else none
  | 0, _ => rfl
  | fuel + 1, a => by
    rw [canbootSchedWakeAll]
    cases full : a.q k with
    | nil =>
      rw [pop_nil full, World.woken_nil full]
      exact (if_pos (Nat.succ_pos _)).symm
    | cons t ts =>
      have left : ((a.woken k 1).q k).length = ts.length := by
        simp [World.woken, update_of_ne wait, full]
      rw [pop_cons full]
      show canbootSchedWakeAll k fuel (World.push ⟨update a.q k ts, a.core.setState t .runnable⟩ .run t) = _
      rw [wake_first wait full, wakeAll_eq fuel, left, World.woken_succ wait full]
      simp only [length_cons, Nat.add_lt_add_iff_right]

theorem wakeAll_some {fuel : Nat} {a' : World Lists} (done : canbootSchedWakeAll k fuel a = some a') :
    a' = a.woken k (a.q k).length := by
  rw [wakeAll_eq wait] at done
  split at done
  · exact (Option.some.inj done).symm
  · exact nomatch done

end Closed

/-! ## Who is on a queue after an operation -/

variable {a : World Lists} {k : QueueId}

theorem woken_all (wait : k ≠ .run) : (a.woken k (a.q k).length).q k = [] := by
  simp [World.woken, update_of_ne wait]

theorem mem_pushed {q : Lists} {k' : QueueId} {t u : Tid} (on : t ∈ update q k (q k ++ [u]) k') :
    t ∈ q k' ∨ t = u ∧ k' = k := by
  by_cases here : k' = k
  · subst here
    simpa using on
  · rw [update_of_ne here] at on
    exact .inl on

theorem mem_woken {k' : QueueId} {t : Tid} {n : Nat} (on : t ∈ (a.woken k n).q k') :
    t ∈ a.q k' ∨ k' = .run ∧ t ∈ (a.q k).take n := by
  by_cases atRun : k' = .run
  · subst atRun
    simp only [World.woken, update_self, mem_append] at on
    exact on.imp id fun taken => ⟨rfl, taken⟩
  · simp only [World.woken, update_of_ne atRun] at on
    by_cases atWait : k' = k
    · subst atWait
      rw [update_self] at on
      exact .inl (mem_of_mem_drop on)
    · rw [update_of_ne atWait] at on
      exact .inl on

theorem mem_dispatched {q : Lists} {t : Tid} (on : t ∈ update q .run (q .run).tail k) : t ∈ q k := by
  by_cases atRun : k = .run
  · subst atRun
    rw [update_self] at on
    exact mem_of_mem_tail on
  · rwa [update_of_ne atRun] at on

/-! ## The links stand for the lists -/

/-- The source's world: queues chained through `q_next`. -/
abbrev Linked := World (Links Tid QueueId)

/-- A world of linked queues and one of lists, at the same moment. -/
structure Sim (w : Linked) (a : World Lists) : Prop where
  core : w.core = a.core
  reps : Reps w.q a.q

/-- A thread is on no queue. -/
def World.Unqueued (a : World Lists) (t : Tid) : Prop := ∀ k, t ∉ a.q k

/-- What makes the next step's queue operations faithful: a CPU's thread is on no queue, and neither is a
free slot's thread, nor is anybody waiting for it. -/
structure Ready (a : World Lists) : Prop where
  current : ∀ {c t}, a.core.current c = some t → a.Unqueued t
  free : ∀ {i}, a.core.state (.pool i) = .free → a.q (.join i) = [] ∧ a.Unqueued (.pool i)

namespace Sim

variable {w : Linked} {a : World Lists} (sim : Sim w a)

theorem init : Sim canbootSchedInit canbootSchedInit where
  core := rfl
  reps := ⟨fun _ => rfl, fun _ => rfl, fun _ => nodup_nil, fun h => nomatch h⟩

include sim

theorem mod (f : Core → Core) : Sim (w.mod f) (a.mod f) := ⟨congrArg f sim.core, sim.reps⟩

theorem leave (t : Tid) (rest : List Instr) : Sim (w.leave t rest) (a.leave t rest) := sim.mod _

variable {t : Tid}

variable (k : QueueId)

theorem push (fresh : a.Unqueued t) : Sim (w.push k t) (a.push k t) :=
  ⟨sim.core, sim.reps.push k fresh⟩

theorem pop : (QueueStore.pop w.q k).1 = (QueueStore.pop a.q k).1 ∧
    Reps (QueueStore.pop w.q k).2 (QueueStore.pop a.q k).2 := by
  cases full : a.q k with
  | nil =>
    have linked : QueueStore.pop w.q k = (none, w.q) := sim.reps.pop_nil full
    rw [pop_nil full, linked]
    exact ⟨rfl, sim.reps⟩
  | cons t ts =>
    rw [pop_cons full]
    exact sim.reps.pop_cons full

theorem nonempty : QueueStore.nonempty w.q k = QueueStore.nonempty a.q k := by
  have chain := sim.reps.chain k
  show (w.q.head k).isSome = !(a.q k).isEmpty
  cases full : a.q k with
  | nil =>
    rw [full] at chain
    have none : w.q.head k = none := chain
    rw [none]
    rfl
  | cons t ts =>
    rw [full] at chain
    rw [chain.1]
    rfl

variable (c : Cpu)

theorem reschedule : Sim (reschedule c w) (reschedule c a) := by
  obtain ⟨first, rest⟩ := sim.pop .run
  simp only [Sched.reschedule, first, sim.core]
  split <;> exact ⟨rfl, rest⟩

theorem blockOn (k : QueueId) (fresh : a.Unqueued t) :
    Sim (canbootSchedBlockOn c t k w) (canbootSchedBlockOn c t k a) :=
  Sim.reschedule (Sim.push (sim.mod _) k fresh) c

theorem park (k : QueueId) (fresh : a.Unqueued t) : Sim (park c t k w) (park c t k a) :=
  Sim.blockOn (sim.mod _) c k fresh

theorem yield (fresh : a.Unqueued t) : Sim (canbootSchedYield c t w) (canbootSchedYield c t a) := by
  have noted := sim.mod fun s => s.setResume t .unlock
  simp only [canbootSchedYield, noted.core]
  split
  · exact Sim.reschedule (Sim.push (noted.mod _) .run fresh) c
  · exact Sim.reschedule noted c

theorem preempt (fresh : a.Unqueued t) : Sim (canbootSchedPreempt c t w) (canbootSchedPreempt c t a) := by
  have noted := sim.mod fun s => s.setResume t .unlock
  simp only [canbootSchedPreempt, sim.nonempty .run, noted.core]
  split
  · split
    · exact Sim.reschedule (Sim.push (noted.mod _) .run fresh) c
    · exact Sim.reschedule noted c
  · exact sim

/-- The thread a wake-up takes off its queue can be put on the run queue. -/
theorem wakeStep {ts : List Tid} (full : a.q k = t :: ts) : ∃ q, QueueStore.pop w.q k = (some t, q) ∧
      Sim (World.push ⟨q, w.core.setState t .runnable⟩ .run t)
        (World.push ⟨update a.q k ts, a.core.setState t .runnable⟩ .run t) := by
  obtain ⟨first, rest⟩ := sim.reps.pop_cons full
  refine ⟨(Links.pop w.q k).2, Prod.ext first rfl, ?_⟩
  refine Sim.push ⟨congrArg (fun s => s.setState t .runnable) sim.core, rest⟩ .run fun k' => ?_
  by_cases here : k' = k
  · subst here
    have once := sim.reps.nodup k'
    rw [full, nodup_cons] at once
    simpa using once.1
  · intro on
    have old : t ∈ a.q k' := by simpa [update_of_ne here] using on
    exact here (sim.reps.apart old (by rw [full]; exact mem_cons_self))

theorem wakeOne : Sim (canbootSchedWakeOne k w) (canbootSchedWakeOne k a) := by
  rw [canbootSchedWakeOne, canbootSchedWakeOne]
  cases full : a.q k with
  | nil =>
    have linked : QueueStore.pop w.q k = (none, w.q) := sim.reps.pop_nil full
    rw [linked, pop_nil full]
    exact ⟨sim.core, sim.reps⟩
  | cons t ts =>
    obtain ⟨q, popped, next⟩ := sim.wakeStep k full
    rw [popped, pop_cons full]
    exact next

end Sim

theorem Sim.wakeAll (k : QueueId) : ∀ {fuel : Nat} {w w' : Linked} {a : World Lists}, Sim w a →
    canbootSchedWakeAll k fuel w = some w' → ∃ a', canbootSchedWakeAll k fuel a = some a' ∧ Sim w' a'
  | 0, _, _, _, _, done => nomatch done
  | fuel + 1, w, w', a, sim, done => by
    rw [canbootSchedWakeAll] at done ⊢
    cases full : a.q k with
    | nil =>
      have linked : QueueStore.pop w.q k = (none, w.q) := sim.reps.pop_nil full
      rw [linked] at done
      rw [pop_nil full]
      cases done
      exact ⟨_, rfl, sim.core, sim.reps⟩
    | cons t ts =>
      obtain ⟨q, popped, next⟩ := sim.wakeStep k full
      rw [popped] at done
      rw [pop_cons full]
      exact Sim.wakeAll k next done

/-- A wake-up of a whole queue ends: its list is finite. -/
theorem Sim.wakeAll_ends (k : QueueId) : ∀ {fuel : Nat} {w : Linked} {a : World Lists}, Sim w a →
    k ≠ .run → (a.q k).length < fuel → (canbootSchedWakeAll k fuel w).isSome
  | 0, _, _, _, _, short => absurd short (Nat.not_lt_zero _)
  | fuel + 1, w, a, sim, wait, short => by
    rw [canbootSchedWakeAll]
    cases full : a.q k with
    | nil =>
      have linked : QueueStore.pop w.q k = (none, w.q) := sim.reps.pop_nil full
      rw [linked]
      rfl
    | cons t ts =>
      obtain ⟨q, popped, next⟩ := sim.wakeStep k full
      rw [popped]
      refine Sim.wakeAll_ends k next wait ?_
      rw [full] at short
      rw [wake_first wait full]
      simpa [update_of_ne wait, full] using short

theorem World.Unqueued.wakeOne {t : Tid} (fresh : a.Unqueued t) (wait : k ≠ .run)
    : (canbootSchedWakeOne k a).Unqueued t := by
  intro k' on
  rw [wakeOne_eq wait] at on
  exact (mem_woken on).elim (fresh _) fun taken => fresh _ (mem_of_mem_take taken.2)

/-! ## Sections and steps -/

section Step

variable {w w' : Linked} {a : World Lists} (sim : Sim w a) (ready : Ready a) {c : Cpu} {self : Tid}
  (here : a.core.current c = some self)

include sim ready here

theorem lockedSection_sim {fuel : Nat} {i : Instr} {rest : List Instr}
    (done : lockedSection fuel c self i rest w = some w') :
    ∃ a', lockedSection fuel c self i rest a = some a' ∧ Sim w' a' := by
  have fresh : a.Unqueued self := ready.current here
  cases i with
  | gilOwned =>
    cases done
    exact ⟨_, rfl, (sim.mod _).leave self rest⟩
  | gilReleaseIf | gilRelease =>
    cases done
    exact ⟨_, rfl, ((sim.mod _).wakeOne .gil).leave self rest⟩
  | gilAcquireIf | gilAcquire =>
    cases done
    refine ⟨_, rfl, ?_⟩
    rw [canbootGilAcquire, canbootGilAcquire, sim.core]
    split
    · exact sim.park c .gil fresh
    · exact (sim.mod _).leave self rest
  | mutexLock m =>
    cases done
    refine ⟨_, rfl, ?_⟩
    rw [pthreadMutexLock, pthreadMutexLock, sim.core]
    split
    · exact sim.park c (.mutex m) fresh
    · exact (sim.mod _).leave self rest
  | mutexTrylock m =>
    cases done
    refine ⟨_, rfl, ?_⟩
    rw [pthreadMutexTrylock, pthreadMutexTrylock, sim.core]
    split <;> exact (sim.mod _).leave self rest
  | mutexUnlock m =>
    cases done
    exact ⟨_, rfl, ((sim.mod _).wakeOne (.mutex m)).leave self rest⟩
  | condPark cv m =>
    cases done
    have unlocked : (a.mod fun s => s.drop m self).Unqueued self := fresh
    have still := unlocked.wakeOne (k := .mutex m) (by simp)
    exact ⟨_, rfl, (((sim.mod _).wakeOne (.mutex m)).mod _).blockOn c (.cond cv) still⟩
  | condSignal cv =>
    cases done
    exact ⟨_, rfl, ((sim.mod _).wakeOne (.cond cv)).leave self rest⟩
  | condBroadcast cv =>
    obtain ⟨woken, all, rfl⟩ := map_eq_some_iff.mp done
    obtain ⟨a', done', sim'⟩ := Sim.wakeAll (.cond cv) (sim.mod _) all
    exact ⟨_, map_eq_some_iff.mpr ⟨a', done', rfl⟩, sim'.leave self rest⟩
  | onceEnter o =>
    cases done
    refine ⟨_, rfl, ?_⟩
    rw [pthreadOnceEnter, pthreadOnceEnter, sim.core]
    split
    · exact sim.leave self rest
    · exact (sim.mod _).park c (.once o) fresh
    · exact (sim.mod _).leave self rest
  | onceWait o =>
    cases done
    refine ⟨_, rfl, ?_⟩
    rw [pthreadOnceWait, pthreadOnceWait, sim.core]
    split
    · exact sim.park c (.once o) fresh
    · exact sim.leave self rest
  | onceDone o =>
    obtain ⟨woken, all, rfl⟩ := map_eq_some_iff.mp done
    obtain ⟨a', done', sim'⟩ := Sim.wakeAll (.once o) (sim.mod _) all
    exact ⟨_, map_eq_some_iff.mpr ⟨a', done', rfl⟩, sim'.leave self rest⟩
  | threadCreate e =>
    cases done
    refine ⟨_, rfl, ?_⟩
    rw [canbootThreadCreate, canbootThreadCreate, sim.core]
    cases slot : a.core.freeSlot with
    | none => exact (sim.mod _).leave self rest
    | some i =>
      have free : a.core.state (.pool i) = .free := by
        have found := find?_some slot
        simpa using found
      obtain ⟨nobody, alone⟩ := ready.free free
      have cleared : update a.q (.join i) [] = a.q := by rw [← nobody, update_eq_self]
      have start : Sim ⟨QueueStore.clear w.q (.join i) (.pool i), a.core.initSlot i e⟩
          ⟨QueueStore.clear a.q (.join i) (.pool i), a.core.initSlot i e⟩ := by
        refine ⟨rfl, ?_⟩
        show Reps (w.q.clear (.join i) (.pool i)) (update a.q (.join i) [])
        rw [cleared]
        exact sim.reps.clear nobody alone
      refine ((start.push .run ?_).mod _).leave self rest
      show ∀ k, _ ∉ update a.q (.join i) [] k
      rw [cleared]
      exact alone
  | threadJoin i g =>
    cases done
    refine ⟨_, rfl, ?_⟩
    rw [canbootThreadJoin, canbootThreadJoin, sim.core]
    split
    · exact sim.park c (.join i) fresh
    · exact (sim.mod _).leave self rest
  | threadDetach i =>
    cases done
    refine ⟨_, rfl, ?_⟩
    simp only [canbootThreadDetach, sim.core]
    split <;> exact (sim.mod _).leave self rest
  | threadExit v via =>
    cases self with
    | idle c' => exact nomatch done
    | pool i =>
      obtain ⟨woken, all, rfl⟩ := map_eq_some_iff.mp done
      obtain ⟨a', done', sim'⟩ := Sim.wakeAll (.join i) (sim.mod _) all
      refine ⟨_, map_eq_some_iff.mpr ⟨a', done', rfl⟩, ?_⟩
      rw [exitSwitch, exitSwitch, sim'.core]
      split <;> exact (sim'.mod _).reschedule c
  | yield =>
    cases done
    exact ⟨_, rfl, (sim.mod _).yield c fresh⟩
  | ret k owned => exact nomatch done

end Step

/-- **The source's step is the step over lists.** -/
theorem exec_sim {policy : Policy} {fuel : Nat} {act : Act} {w w' : Linked} (sim : Sim w a) (ready : Ready a)
    (done : exec policy fuel act w = some w') : ∃ a', exec policy fuel act a = some a' ∧ Sim w' a' := by
  suffices moves : ∃ a', Moves policy fuel a act a' ∧ Sim w' a' by
    obtain ⟨a', moves, sim'⟩ := moves
    exact ⟨a', moves.exec_eq, sim'⟩
  have core := sim.core
  cases Moves.of_exec done with
  | call here user resume code fits allowed =>
    rw [core] at here resume code fits allowed
    exact ⟨_, .call here user resume code fits allowed, sim.mod _⟩
  | skip here resume code skips =>
    rw [core] at here resume code skips
    exact ⟨_, .skip here resume code skips, sim.mod _⟩
  | section_ here enters code done =>
    rw [World.Enters, core] at enters
    rw [core] at here code
    obtain ⟨a', done', sim'⟩ := lockedSection_sim sim ready here done
    exact ⟨a', .section_ here enters code done', sim'⟩
  | unlock here resume lock =>
    rw [core] at here resume lock
    refine ⟨_, .unlock here resume lock, ?_⟩
    rw [core]
    exact sim.leave _ _
  | preempt here lock resume =>
    rw [core] at here lock resume
    exact ⟨_, .preempt here lock resume, sim.preempt _ (ready.current here)⟩
  | yield here lock resume user =>
    rw [core] at here lock resume
    exact ⟨_, .yield here lock resume user, sim.yield _ (ready.current here)⟩
  | idle here lock resume =>
    rw [core] at here lock resume
    exact ⟨_, .idle here lock resume, Sim.reschedule (sim.mod _) _⟩
  | online off lock =>
    rw [core] at off lock
    exact ⟨_, .online off lock, sim.mod _⟩

end CanBoot.Sched
