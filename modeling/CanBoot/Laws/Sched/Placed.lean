import CanBoot.Laws.Sched.Sections

/-!
# Where every thread is

A pool thread is on one queue, on one CPU, or nowhere, and its state says which: `Placed` carries the place
of every thread and the queues and CPUs that agree with it. While a CPU holds the lock its thread may be
between places, so a section is followed in two halves: `Held`, from the start of the section to the point
where its thread gives the CPU up, and `Away`, from there to the switch. Every section is one of the moves
below, and `Inv` is what holds between them.
-/

namespace CanBoot.Sched

open List
open Function (update update_apply update_self)

/-- Where a thread can be. -/
inductive Place where
  | queue (k : QueueId)
  | cpu (c : Cpu)
deriving DecidableEq

/-- The state of a thread that is somewhere. -/
def Place.state : Place → ThState
  | .queue .run => .runnable
  | .queue _ => .blocked
  | .cpu _ => .running

/-- The queues, the CPUs and the states agree with where the threads are. A thread that is nowhere has
ended, or never was, and nobody waits for it. -/
structure Placed (loc : Nat → Option Place) (st : Tid → ThState) (q : Lists) (cur : Cpu → Option Tid) : Prop where
  queue : ∀ {i k}, .pool i ∈ q k ↔ loc i = some (.queue k)
  noIdle : ∀ {c k}, .idle c ∉ q k
  nodup : ∀ k, (q k).Nodup
  cpu : ∀ {i c}, cur c = some (.pool i) ↔ loc i = some (.cpu c)
  ownIdle : ∀ {c c'}, cur c = some (.idle c') → c' = c
  state : ∀ {i p}, loc i = some p → st (.pool i) = p.state
  off : ∀ {i}, loc i = none → st (.pool i) = .exited ∨ st (.pool i) = .free
  quiet : ∀ {i}, loc i = none → q (.join i) = []
  small : ∀ {i}, loc i ≠ none → i < 16

namespace Placed
variable {loc : Nat → Option Place} {st : Tid → ThState} {q : Lists} {cur : Cpu → Option Tid}
  (placed : Placed loc st q cur)
include placed

variable {c : Cpu}

theorem unqueued {t : Tid} (here : cur c = some t) (k : QueueId) : t ∉ q k := by
  cases t with
  | idle c' => exact placed.noIdle
  | pool i =>
    intro on
    exact nomatch (placed.cpu.mp here).symm.trans (placed.queue.mp on)

variable {i : Nat}

/-- A thread that has ended is nowhere. -/
theorem nowhere (ended : st (.pool i) = .exited ∨ st (.pool i) = .free) : loc i = none := by
  cases at_ : loc i with
  | none => rfl
  | some p =>
    have state := placed.state at_
    rcases p with k | c
    · cases k <;> rw [state] at ended <;> exact nomatch ended
    · rw [state] at ended
      exact nomatch ended

/-- A thread's state says where it is. -/
theorem state_cases (i : Nat) : (st (.pool i) = .runnable ↔ loc i = some (.queue .run)) ∧
    (st (.pool i) = .blocked ↔ ∃ k, k ≠ .run ∧ loc i = some (.queue k)) ∧
    (st (.pool i) = .running ↔ ∃ c, loc i = some (.cpu c)) := by
  cases at_ : loc i with
  | none => rcases placed.off at_ with ended | ended <;> simp [ended]
  | some p =>
    rw [placed.state at_]
    rcases p with k | c
    · cases k <;> simp [Place.state]
    · simp [Place.state]

theorem block {k : QueueId} (here : cur c = some (.pool i)) (wait : k ≠ .run)
    (awaited : ∀ {j}, k = .join j → loc j ≠ none) :
    Placed (update loc i (some (.queue k))) (update st (.pool i) .blocked) (update q k (q k ++ [.pool i]))
      (update cur c none) := by
  have out := placed.unqueued here
  have blocked : (Place.queue k).state = .blocked := by cases k <;> first | rfl | exact absurd rfl wait
  cases placed
  constructor
  case nodup => intro k'; by_cases h : k' = k <;> grind [update_apply, nodup_append]
  all_goals grind [update_apply]

theorem ready (here : cur c = some (.pool i)) :
    Placed (update loc i (some (.queue .run))) (update st (.pool i) .runnable)
      (update q .run (q .run ++ [.pool i])) (update cur c none) := by
  have out := placed.unqueued here
  have runnable : (Place.queue .run).state = .runnable := rfl
  cases placed
  constructor
  case nodup => intro k'; by_cases h : k' = .run <;> grind [update_apply, nodup_append]
  all_goals grind [update_apply]

theorem exit {s : ThState} (here : cur c = some (.pool i)) (nobody : q (.join i) = []) (ended : s = .exited ∨ s = .free) :
    Placed (update loc i none) (update st (.pool i) s) q (update cur c none) := by
  have out := placed.unqueued here
  cases placed
  constructor
  all_goals grind [update_apply]

theorem idleOut (here : cur c = some (.idle c)) : Placed loc st q (update cur c none) := by
  cases placed
  constructor
  all_goals grind [update_apply]

theorem dispatch {ts : List Tid} (free : cur c = none) (full : q .run = .pool i :: ts) :
    Placed (update loc i (some (.cpu c))) (update st (.pool i) .running) (update q .run ts)
      (update cur c (some (.pool i))) := by
  have running : (Place.cpu c).state = .running := rfl
  have first : loc i = some (.queue .run) := placed.queue.mp (by rw [full]; exact mem_cons_self)
  have once := placed.nodup .run
  rw [full, nodup_cons] at once
  cases placed
  constructor
  case nodup => intro k'; by_cases h : k' = .run <;> grind [update_apply, nodup_append]
  all_goals grind [update_apply]

theorem dispatchIdle (free : cur c = none) :
    Placed loc (update st (.idle c) .running) q (update cur c (some (.idle c))) := by
  cases placed
  constructor
  all_goals grind [update_apply]

theorem create (free : loc i = none) (inside : i < 16) :
    Placed (update loc i (some (.queue .run))) (update st (.pool i) .runnable)
      (update q .run (q .run ++ [.pool i])) cur := by
  have runnable : (Place.queue .run).state = .runnable := rfl
  cases placed
  constructor
  case nodup => intro k'; by_cases h : k' = .run <;> grind [update_apply, nodup_append]
  all_goals grind [update_apply]

theorem reap (ended : loc i = none) : Placed loc (update st (.pool i) .free) q cur := by
  cases placed
  constructor
  all_goals grind [update_apply]

theorem woken {k : QueueId} (wait : k ≠ .run) (n : Nat) :
    Placed (fun i => if .pool i ∈ (q k).take n then some (.queue .run) else loc i)
      (fun t => if t ∈ (q k).take n then .runnable else st t)
      (update (update q k ((q k).drop n)) .run (q .run ++ (q k).take n)) cur := by
  have split := take_append_drop n (q k)
  have once := placed.nodup k
  rw [← split] at once
  have mem : ∀ t, t ∈ q k ↔ t ∈ (q k).take n ∨ t ∈ (q k).drop n := by
    intro t; rw [← mem_append, split]
  have apart : ∀ t, t ∈ (q k).take n → t ∉ (q k).drop n := by
    intro t h h'
    exact (nodup_append.mp once).2.2 t h t h' rfl
  have runnable : (Place.queue .run).state = .runnable := rfl
  obtain ⟨queue, noIdle, nodup, cpu, ownIdle, state, off, quiet, small⟩ := placed
  constructor
  case nodup =>
    intro k'
    by_cases atRun : k' = .run
    · subst atRun
      rw [update_self, nodup_append]
      refine ⟨nodup _, (nodup_append.mp once).1, ?_⟩
      rintro (i | c) runs u taken rfl
      · exact wait.symm (by simpa [queue.mp runs] using queue.mp (mem_of_mem_take taken))
      · exact noIdle runs
    · grind [update_apply, nodup_append]
  all_goals grind [update_apply]

end Placed

end CanBoot.Sched
