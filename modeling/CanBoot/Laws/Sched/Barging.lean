import CanBoot.Laws.Sched.Mutex
import CanBoot.Laws.Sched.Queues
import Mathlib.Tactic.IntervalCases

/-!
# Mutexes: exclusion, woken waiters and barging

A mutex has at most one owner, and an unlocked mutex with waiters has a woken one on its way
(`mutex_exclusion`). That is all a waiter gets. `pthread_mutex_unlock` leaves the mutex open, and whoever comes
first takes it: a thread that unlocks a mutex and locks it again before the timer fires shuts a woken waiter
out, in every round of a fair run (`mutex_starves`).
-/

namespace CanBoot.Sched

open CanBoot.Lib Option
open Function (update)

/-- A woken waiter is on the run queue, or a CPU's thread. -/
theorem World.Woken.ready {a : World Lists} {m : Nat} {t : Tid} (woken : a.Woken m t) (inv : Inv a) :
    a.core.state t = .runnable ∨ a.core.state t = .running := by
  have head := woken.code
  cases t with
  | idle c =>
    rw [inv.idleCode c] at head
    exact nomatch head
  | pool i =>
    obtain ⟨loc, placed⟩ := inv.placed
    obtain ⟨place, there⟩ := ne_none_iff_exists'.mp (placed.alive.mp woken.alive)
    cases place with
    | cpu c => exact .inr ((placed.state_cases i).2.2.mpr ⟨c, there⟩)
    | queue k =>
      have on := placed.queue.mpr there
      have fits := inv.fits on
      rw [woken.resume] at fits
      -- the other wait queues hold threads that wait for something else
      cases k with
      | run => exact .inl ((placed.state_cases i).1.mpr there)
      | mutex m' =>
        cases head.symm.trans fits.2
        exact absurd on woken.off
      | gil =>
        rcases fits.2 with first | first
        · exact nomatch head.symm.trans first
        · exact nomatch head.symm.trans first
      | join j =>
        obtain ⟨_, g, first⟩ := fits
        exact nomatch head.symm.trans first
      | once o => exact nomatch head.symm.trans fits.2
      | cond cv => exact nomatch fits

/-- **A mutex has one owner, and no wake-up is lost.** -/
theorem mutex_exclusion {policy : Policy} {fuel : Nat} (owner : ∀ s t k, policy s t k = true → ownerClient s t k = true)
    {w : Linked} (reach : Reachable policy fuel w) (m : Nat) :
    (w.core.hist.holders m).length ≤ 1 ∧ (w.core.mutexLocked m = true ↔ w.core.hist.holders m ≠ []) ∧
      (w.core.mutexLocked m = false → w.q.head (.mutex m) ≠ none →
        ∃ t, (w.core.code t).head? = some (.mutexLock m) ∧ w.core.resume t = .retest ∧
          (∀ ts, Chain w.q.next (w.q.head (.mutex m)) ts → t ∉ ts) ∧
          (w.core.state t = .runnable ∨ w.core.state t = .running)) := by
  obtain ⟨a, reached, sim⟩ := reach.sim
  have mutexes := reached.mutexes owner
  have chain := sim.reps.chain (.mutex m)
  rw [sim.core]
  refine ⟨?_, ?_, fun free busy => ?_⟩
  · rcases mutexes.one m with ⟨none, _⟩ | ⟨x, one, _⟩
    · simp [none]
    · simp [one]
  · rcases mutexes.one m with ⟨none, free⟩ | ⟨x, one, locked⟩
    · simp [none, free]
    · simp [one, locked]
  · have waits : a.q (.mutex m) ≠ [] := by
      intro empty
      rw [empty] at chain
      exact busy chain
    obtain ⟨t, woken⟩ := mutexes.woken m free waits
    refine ⟨t, woken.code, woken.resume, fun ts same => ?_, ?_⟩
    · rw [same.unique chain]
      exact woken.off
    · exact woken.ready reached.inv

/-- Threads 1 and 2 wait for the boot thread's mutex, and the boot thread unlocks it. -/
def unlockSchedule : List Act :=
  [.call 0 .threadCreate, .run 0, .run 0, .call 0 .threadCreate, .run 0, .run 0, .call 0 (.mutexLock 7), .run 0,
    .run 0, .preempt 0, .run 0, .call 0 (.mutexLock 7), .run 0, .run 0, .call 0 (.mutexLock 7), .run 0, .run 0,
    .call 0 (.mutexUnlock 7), .run 0]

theorem mutex_exclusion_woken : ∃ w : Linked, w.core.mutexLocked 7 = false ∧ w.q.head (.mutex 7) ≠ none ∧
    ∃ t, (w.core.code t).head? = some (.mutexLock 7) ∧ w.core.resume t = .retest ∧
      (∀ ts, Chain w.q.next (w.q.head (.mutex 7)) ts → t ∉ ts) ∧
      (w.core.state t = .runnable ∨ w.core.state t = .running) := by
  have runs : ((runActs ownerClient 17 unlockSchedule (canbootSchedInit : Linked)).map fun w =>
      (w.core.mutexLocked 7, w.q.head (.mutex 7))) = some (false, some (.pool 2)) := by decide +kernel
  obtain ⟨w, done, facts⟩ := map_eq_some_iff.mp runs
  obtain ⟨free, head⟩ := Prod.mk.inj facts
  have busy : w.q.head (.mutex 7) ≠ none := by rw [head]; simp
  exact ⟨w, free, busy, (mutex_exclusion (fun _ _ _ legal => legal) (Reachable.init.run done) 7).2.2 free busy⟩

/-! ## A step changes only its CPU's thread -/

theorem Did.cpu {a a' : World Lists} {c c' : Cpu} {self : Tid} {i : Instr} {rest : List Instr}
    (did : Did a c self rest i a') (ne : c' ≠ c) : a'.core.current c' = a.core.current c' := by
  cases did with
  | yield =>
    rw [canbootSchedYield]
    split <;> simp [ne]
  | exit =>
    rw [exitSwitch]
    split <;> simp [ne]
  | _ => simp [ne]

theorem exec_cpu {policy : Policy} {fuel : Nat} {act : Act} {a a' : World Lists} (inv : Inv a)
    (done : exec policy fuel act a = some a') {c : Cpu} (ne : c ≠ act.cpu) : a'.core.current c = a.core.current c := by
  cases Moves.of_exec done with
  | @call c' k self =>
    obtain ⟨rc, joins, core⟩ := begin_eq a.core self k
    simp only [World.mod, core]
  | skip | unlock => rfl
  | section_ here enters code done => exact (lockedSection_did inv.ready done).cpu ne
  | preempt =>
    simp only [Act.cpu] at ne
    rw [canbootSchedPreempt]
    split
    · simp only
      split <;> simp [ne]
    · rfl
  | yield =>
    simp only [Act.cpu] at ne
    rw [canbootSchedYield]
    split <;> simp [ne]
  | idle =>
    simp only [Act.cpu] at ne
    simp [idleTurn, ne]
  | online => exact Function.update_of_ne ne _ _

theorem runActs_cpu {policy : Policy} {fuel : Nat} {acts : List Act} {c : Cpu} (others : ∀ act ∈ acts, c ≠ act.cpu) :
    ∀ {a a' : World Lists}, Reachable policy fuel a → runActs policy fuel acts a = some a' →
      a'.core.current c = a.core.current c := by
  induction acts with
  | nil =>
    intro a a' _ done
    cases done
    rfl
  | cons act rest ih =>
    intro a a' reach done
    obtain ⟨b, first, rest⟩ := bind_eq_some_iff.mp done
    rw [ih (fun act on => others act (List.mem_cons_of_mem _ on)) (reach.step first) rest]
    exact exec_cpu reach.inv first (others act List.mem_cons_self)

/-! ## A round -/

/-- A world in which the boot thread uses a mutex and thread 1 waits for it, on one CPU. -/
structure Duel where
  cur : Tid := .pool 0
  lock : Option Cpu := none
  boot : Resume := .running
  code : List Instr := []
  locked : Bool := true
  run : List Tid := []
  waiters : List Tid := []

@[mk_iff]
structure Duel.At (d : Duel) (a : World Lists) : Prop where
  current : a.core.current 0 = some d.cur
  lock : a.core.lock = d.lock
  resume : a.core.resume (.pool 0) = d.boot
  code : a.core.code (.pool 0) = d.code
  locked : a.core.mutexLocked 7 = d.locked
  holders : a.core.hist.holders 7 = if d.locked then [(.pool 0, 0)] else []
  gen : a.core.hist.gen (.pool 0) = 0
  gil : a.core.gilLocked = true ∧ a.core.gilOwner = some (.pool 0)
  run : a.q .run = d.run
  waiters : a.q (.mutex 7) = d.waiters
  other : a.core.resume (.pool 1) = .retest
  otherCode : a.core.code (.pool 1) = [.mutexLock 7, .ret (.mutexLock 7) false]

instance (d : Duel) (a : World Lists) : Decidable (d.At a) := decidable_of_iff' _ (Duel.at_iff d a)

/-- The round: the boot thread unlocks the mutex and locks it again, and only then is preempted. -/
def round : List (Duel × Act) :=
  [({ waiters := [.pool 1] }, .call 0 (.mutexUnlock 7)),
   ({ waiters := [.pool 1], code := [.mutexUnlock 7, .ret (.mutexUnlock 7) true] }, .run 0),
   ({ run := [.pool 1], locked := false, code := [.ret (.mutexUnlock 7) true] }, .run 0),
   ({ run := [.pool 1], locked := false }, .call 0 (.mutexLock 7)),
   ({ run := [.pool 1], locked := false, code := [.mutexLock 7, .ret (.mutexLock 7) true] }, .run 0),
   ({ run := [.pool 1], code := [.ret (.mutexLock 7) true] }, .run 0),
   ({ run := [.pool 1] }, .preempt 0),
   ({ cur := .pool 1, lock := some 0, boot := .unlock, run := [.pool 0] }, .run 0),
   ({ lock := some 0, boot := .unlock, waiters := [.pool 1] }, .run 0)]

/-- The round, again and again. -/
def turn (n : Nat) : Duel × Act := round.getD (n % 9) ({}, .run 0)

namespace Duel.At

variable {d : Duel} {a : World Lists} (at_ : d.At a)

include at_

theorem owns : a.core.ownsGil (.pool 0) = true := by
  simp [Core.ownsGil, at_.gil]

theorem call (k : Call) {code : List Instr} (body : a.core.callCode (.pool 0) k = code) :
    ({ d with code := code } : Duel).At (a.mod fun s => s.begin (.pool 0) k) := by
  obtain ⟨rc, joins, core⟩ := begin_eq a.core (.pool 0) k
  rw [body] at core
  cases at_
  constructor <;> simp only [World.mod, core] <;> first | assumption | simp

theorem skip (rest : List Instr) : ({ d with code := rest } : Duel).At (a.mod fun s => s.setCode (.pool 0) rest) := by
  cases at_
  constructor <;> first | assumption | simp

theorem unlock {rest : List Instr} (waits : d.waiters = [.pool 1]) (none : d.run = []) (free : d.locked = true) :
    ({ d with lock := .none, boot := .running, code := rest, locked := false, run := [.pool 1], waiters := [] } :
      Duel).At (pthreadMutexUnlock 7 (.pool 0) rest a) := by
  cases at_
  rw [pthreadMutexUnlock, wakeOne_eq (by simp)]
  constructor <;> simp [*, Core.inst]

theorem relock {rest : List Instr} (free : d.locked = false) :
    ({ d with lock := none, boot := .running, code := rest, locked := true } : Duel).At
      (pthreadMutexLock 0 7 (.pool 0) rest a) := by
  rw [pthreadMutexLock, at_.locked, free, if_neg (by simp)]
  cases at_
  constructor <;> simp [*, Core.inst]

theorem preempt (inv : Inv a) (mine : d.cur = .pool 0) (queued : d.run = [.pool 1]) :
    ({ d with cur := .pool 1, lock := some 0, boot := .unlock, run := [.pool 0] } : Duel).At
      (canbootSchedPreempt 0 (.pool 0) a) := by
  have running : a.core.state (.pool 0) = .running := by
    obtain ⟨loc, placed⟩ := inv.placed
    exact (placed.state_cases 0).2.2.mpr ⟨0, placed.cpu.mp (mine ▸ at_.current)⟩
  have nonempty : QueueStore.nonempty a.q .run = true := by
    show !(a.q .run).isEmpty
    simp [at_.run, queued]
  cases at_
  rw [canbootSchedPreempt, if_pos nonempty]
  simp only
  rw [if_pos (by simp [running])]
  constructor <;> simp [*, World.next]

theorem retest (queued : d.run = [.pool 0]) (taken : d.locked = true)
    (alone : d.waiters = []) :
    ({ d with cur := .pool 0, lock := some 0, run := [], waiters := [.pool 1] } : Duel).At
      (pthreadMutexLock 0 7 (.pool 1) [.ret (.mutexLock 7) false] a) := by
  rw [pthreadMutexLock, at_.locked, taken, if_pos rfl]
  cases at_
  constructor <;> simp [*, World.next]

theorem resumed :
    ({ d with lock := none, boot := .running } : Duel).At (a.leave (.pool 0) (a.core.code (.pool 0))) := by
  cases at_
  constructor <;> simp [*]

end Duel.At

/-- **A turn of the round**, from any such world. -/
theorem turn_at {n : Nat} {a : World Lists} (inv : Inv a) (at_ : (turn n).1.At a) :
    ∃ a', exec ownerClient 17 (turn n).2 a = some a' ∧ (turn (n + 1)).1.At a' := by
  have succ : turn (n + 1) = round.getD ((n % 9 + 1) % 9) ({}, .run 0) := by
    rw [turn, Nat.mod_add_mod]
  have small : n % 9 < 9 := Nat.mod_lt _ (by decide)
  rw [succ]
  rw [turn] at at_ ⊢
  generalize n % 9 = r at at_ small
  interval_cases r
  · have here : a.core.current 0 = some (.pool 0) := at_.current
    have holders : a.core.hist.holders 7 = [(.pool 0, 0)] := at_.holders
    refine ⟨_, Moves.exec_eq (.call here (by simp) at_.resume at_.code rfl ?_), at_.call _ ?_⟩
    · simp [ownerClient, holders, Core.inst, at_.gen]
    · simp [Core.callCode, Call.known, Call.target, Call.body, at_.owns]
  · exact ⟨_, Moves.exec_eq (.section_ at_.current (.inl ⟨at_.resume, at_.lock, rfl⟩) at_.code rfl),
      at_.unlock rfl rfl rfl⟩
  · exact ⟨_, Moves.exec_eq (.skip at_.current at_.resume at_.code rfl), at_.skip _⟩
  · have here : a.core.current 0 = some (.pool 0) := at_.current
    refine ⟨_, Moves.exec_eq (.call here (by simp) at_.resume at_.code rfl rfl), at_.call _ ?_⟩
    simp [Core.callCode, Call.known, Call.target, Call.body, at_.owns]
  · exact ⟨_, Moves.exec_eq (.section_ at_.current (.inl ⟨at_.resume, at_.lock, rfl⟩) at_.code rfl), at_.relock rfl⟩
  · exact ⟨_, Moves.exec_eq (.skip at_.current at_.resume at_.code rfl), at_.skip _⟩
  · exact ⟨_, Moves.exec_eq (.preempt at_.current at_.lock at_.resume), at_.preempt inv rfl rfl⟩
  · exact ⟨_, Moves.exec_eq (.section_ at_.current (.inr ⟨at_.other, at_.lock⟩) at_.otherCode rfl),
      at_.retest rfl rfl rfl⟩
  · exact ⟨_, Moves.exec_eq (.unlock at_.current at_.resume at_.lock), at_.resumed⟩

/-! ## Runs without an end -/

/-- An infinite run of the system. -/
structure Runs (policy : Policy) (fuel : Nat) (run : Nat → Linked) (acts : Nat → Act) : Prop where
  start : Reachable policy fuel (run 0)
  step : ∀ n, exec policy fuel (acts n) (run n) = some (run (n + 1))

/-- A thread that can go on does, sooner or later. -/
def Fair (run : Nat → Linked) (acts : Nat → Act) : Prop :=
  ∀ n i, (run n).core.state (.pool i) = .runnable ∨ (run n).core.state (.pool i) = .running →
    ∃ n', n ≤ n' ∧ ∃ c, acts n' = .run c ∧ (run n').core.current c = some (.pool i)

/-- A run, built step by step. -/
theorem exists_run {α : Type} (step : Nat → α → α → Prop) (good : Nat → α → Prop) {a : α} (start : good 0 a)
    (next : ∀ n a, good n a → ∃ b, step n a b ∧ good (n + 1) b) :
    ∃ run : Nat → α, run 0 = a ∧ ∀ n, good n (run n) ∧ step n (run n) (run (n + 1)) := by
  choose f taken using fun n (x : { a // good n a }) => next n x.1 x.2
  let run : (n : Nat) → { a // good n a } := fun n =>
    Nat.rec ⟨a, start⟩ (fun n x => ⟨f n x, (taken n x).2⟩) n
  exact ⟨fun n => (run n).1, rfl, fun n => ⟨(run n).2, (taken n (run n)).1⟩⟩

/-- A world of the round, behind the source's queues. -/
structure InRound (n : Nat) (w : Linked) (a : World Lists) : Prop where
  reached : Reachable ownerClient 17 a
  sim : Sim w a
  at_ : (turn n).1.At a
  alone : ∀ c, c ≠ 0 → a.core.current c = none

/-- What the turns have in common. -/
theorem turn_fits (n : Nat) : (turn n).2.cpu = 0 ∧ (turn n).1.cur ∈ [Tid.pool 0, .pool 1] ∧
    (turn n).1.run ⊆ [.pool 0, .pool 1] ∧ (turn n).1.waiters ⊆ [.pool 1] := by
  have small : n % 9 < 9 := Nat.mod_lt _ (by decide)
  rw [turn]
  generalize n % 9 = r at small
  interval_cases r <;> simp [round, Act.cpu]

/-- Only the boot thread and thread 1 can go on. -/
theorem InRound.can {n : Nat} {w : Linked} {a : World Lists} (here : InRound n w a) {i : Nat}
    (can : w.core.state (.pool i) = .runnable ∨ w.core.state (.pool i) = .running) : i = 0 ∨ i = 1 := by
  obtain ⟨loc, placed⟩ := here.reached.inv.placed
  rw [here.sim.core] at can
  have known : Tid.pool i ∈ [Tid.pool 0, .pool 1] := by
    rcases can with runnable | running
    · have queued := placed.queue.mpr ((placed.state_cases i).1.mp runnable)
      rw [here.at_.run] at queued
      exact (turn_fits n).2.2.1 queued
    · obtain ⟨c, on⟩ := (placed.state_cases i).2.2.mp running
      have current := placed.cpu.mpr on
      by_cases zero : c = 0
      · rw [zero, here.at_.current] at current
        rw [← Option.some.inj current]
        exact (turn_fits n).2.1
      · exact nomatch (here.alone c zero).symm.trans current
  simpa using known

theorem InRound.next {n : Nat} {w : Linked} {a : World Lists} (here : InRound n w a) :
    ∃ w', exec ownerClient 17 (turn n).2 w = some w' ∧ ∃ a', InRound (n + 1) w' a' := by
  obtain ⟨a', done, at_⟩ := turn_at here.reached.inv here.at_
  obtain ⟨w', done', sim⟩ := exec_ends (by decide) here.sim here.reached.inv done
  refine ⟨w', done', a', here.reached.step done, sim, at_, fun c ne => ?_⟩
  rw [exec_cpu here.reached.inv done (by rw [(turn_fits n).1]; exact ne)]
  exact here.alone c ne

/-- The boot thread makes a thread, which waits for the boot thread's mutex. -/
def roundStart : List Act :=
  [.call 0 .threadCreate, .run 0, .run 0, .call 0 (.mutexLock 7), .run 0, .run 0, .preempt 0, .run 0,
    .call 0 (.mutexLock 7), .run 0, .run 0]

theorem exists_inRound : ∃ w a, Reachable ownerClient 17 w ∧ InRound 0 w a := by
  have runs : ((runActs ownerClient 17 roundStart (canbootSchedInit : World Lists)).map fun a =>
      decide ((turn 0).1.At a)) = some true := by decide +kernel
  obtain ⟨a, done, at_⟩ := map_eq_some_iff.mp runs
  have reached : Reachable ownerClient 17 a := Reachable.init.run done
  obtain ⟨w, reach, sim⟩ := reached.linked (by decide)
  refine ⟨w, a, reach, reached, sim, of_decide_eq_true at_, fun c ne => ?_⟩
  have others : ∀ act ∈ roundStart, c ≠ act.cpu := by
    have zero : ∀ act ∈ roundStart, act.cpu = 0 := by decide
    intro act on
    rw [zero act on]
    exact ne
  rw [runActs_cpu others .init done]
  exact if_neg ne

/-- **A waiter can wait forever**: in a fair run in which the mutex is unlocked again and again, the only thread
that ever waits for it never gets it. -/
theorem mutex_starves : ∃ (run : Nat → Linked) (acts : Nat → Act), Runs ownerClient 17 run acts ∧ Fair run acts ∧
    (∀ n, ∃ n', n ≤ n' ∧ (run n').core.mutexLocked 7 = false) ∧ (run 0).q.head (.mutex 7) = some (.pool 1) ∧
    ∀ n, (∀ q, Agrees (run n) q → ∀ t ∈ q (.mutex 7), t = .pool 1) ∧
      (run n).core.code (.pool 1) = [.mutexLock 7, .ret (.mutexLock 7) false] ∧
      ∀ x ∈ (run n).core.hist.holders 7, x.1 ≠ .pool 1 := by
  obtain ⟨w, a, reach, start⟩ := exists_inRound
  obtain ⟨run, first, steps⟩ := exists_run (fun n w w' => exec ownerClient 17 (turn n).2 w = some w')
    (fun n w => ∃ a, InRound n w a) ⟨a, start⟩ fun n w here => here.elim fun a inRound => inRound.next
  have later : ∀ n r, r < 9 → ∃ n', n ≤ n' ∧ n' % 9 = r := fun n r small => ⟨9 * n + r, by omega, by omega⟩
  refine ⟨run, fun n => (turn n).2, ⟨first ▸ reach, fun n => (steps n).2⟩, fun n i can => ?_, fun n => ?_, ?_,
    fun n => ?_⟩
  · -- both threads that can go on have their turns in the round
    obtain ⟨a, inRound⟩ := (steps n).1
    have runs : ∀ r, r < 9 → (round.getD r ({}, .run 0)).2 = .run 0 →
        (round.getD r ({}, .run 0)).1.cur = .pool i → ∃ n', n ≤ n' ∧ ∃ c, (turn n').2 = .run c ∧
          (run n').core.current c = some (.pool i) := by
      intro r small act cur
      obtain ⟨n', after, same⟩ := later n r small
      obtain ⟨a', inRound'⟩ := (steps n').1
      refine ⟨n', after, 0, by rw [turn, same]; exact act, ?_⟩
      rw [inRound'.sim.core, inRound'.at_.current, turn, same, cur]
    rcases inRound.can can with rfl | rfl
    · exact runs 1 (by decide) rfl rfl
    · exact runs 7 (by decide) rfl rfl
  · obtain ⟨n', after, third⟩ := later n 2 (by decide)
    obtain ⟨a, inRound⟩ := (steps n').1
    have at_ := inRound.at_
    rw [turn, third] at at_
    refine ⟨n', after, ?_⟩
    rw [inRound.sim.core]
    exact at_.locked
  · rw [first]
    have chain := start.sim.reps.chain (.mutex 7)
    rw [start.at_.waiters] at chain
    exact chain.1
  · obtain ⟨a, inRound⟩ := (steps n).1
    refine ⟨fun q agrees t on => ?_, ?_, fun x held => ?_⟩
    · rw [(agrees.chain (.mutex 7)).unique (inRound.sim.reps.chain (.mutex 7)), inRound.at_.waiters] at on
      simpa using (turn_fits n).2.2.2 on
    · rw [inRound.sim.core]
      exact inRound.at_.otherCode
    · rw [inRound.sim.core, inRound.at_.holders] at held
      split at held
      · cases List.mem_singleton.mp held
        simp
      · exact nomatch held

end CanBoot.Sched
