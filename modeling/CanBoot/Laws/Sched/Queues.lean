import CanBoot.Laws.Sched.Steps
import Mathlib.Data.List.Perm.Subperm

/-!
# Queues and states agree

Between sections a pool thread is `RUNNABLE` exactly when it is on the run queue, `BLOCKED` exactly when it is
on one wait queue and `RUNNING` exactly when it is some CPU's thread, the queues are lists without a cycle,
and a step only takes threads from the front of a queue and adds them at its end (`queues_agree`).
-/

namespace CanBoot.Sched

open CanBoot.Lib List Option
open Function (update update_of_ne)

/-! ## First in, first out -/

/-- Every queue lost some threads at its front and got some at its end. -/
def Fifo (q q' : QueueId → List Tid) : Prop := ∀ k, ∃ n ts, q' k = (q k).drop n ++ ts

namespace Fifo

variable (q : Lists)

theorem refl : Fifo q q := fun k => ⟨0, [], by simp⟩

theorem trans {q q' q'' : Lists} (first : Fifo q q') (second : Fifo q' q'') : Fifo q q'' := by
  intro k
  obtain ⟨n, ts, front⟩ := first k
  obtain ⟨m, us, back⟩ := second k
  refine ⟨n + m, ts.drop (m - ((q k).drop n).length) ++ us, ?_⟩
  rw [back, front, drop_append, drop_drop, append_assoc]

theorem push (k : QueueId) (t : Tid) : Fifo q (update q k (q k ++ [t])) := by
  intro k'
  by_cases here : k' = k
  · subst here
    exact ⟨0, [t], by simp⟩
  · exact ⟨0, [], by simp [update_of_ne here]⟩

theorem dispatch : Fifo q (update q .run (q .run).tail) := by
  intro k
  by_cases here : k = .run
  · subst here
    exact ⟨1, [], by simp⟩
  · exact ⟨0, [], by simp [update_of_ne here]⟩

variable (a : World Lists)

theorem woken (k : QueueId) (n : Nat) : Fifo a.q (a.woken k n).q := by
  intro k'
  by_cases atRun : k' = .run
  · subst atRun
    exact ⟨0, (a.q k).take n, by simp⟩
  · by_cases atWait : k' = k
    · subst atWait
      exact ⟨n, [], by simp [update_of_ne atRun]⟩
    · exact ⟨0, [], by simp [update_of_ne atRun, update_of_ne atWait]⟩

variable (c : Cpu)

theorem reschedule : Fifo a.q (reschedule c a).q := by
  rw [reschedule_q]
  exact dispatch a.q

theorem parks (k : QueueId) (t : Tid) : Fifo a.q (park c t k a).q :=
  (push a.q k t).trans (reschedule _ c)

theorem yields (t : Tid) : Fifo a.q (canbootSchedYield c t a).q := by
  rw [canbootSchedYield]
  split
  · exact (push a.q .run t).trans (reschedule _ c)
  · exact reschedule _ c

end Fifo

variable {a a' : World Lists}

theorem Did.fifo {c : Cpu} {self : Tid} {i : Instr} {rest : List Instr}
    (did : Did a c self rest i a') : Fifo a.q a'.q := by
  cases did with
  | gilOwned | gilTake | mutexTake | tryTake | tryBusy | oncePast | onceStart | noSlot | joinReap
  | detachReap | detach => exact Fifo.refl a.q
  | gilRelease | mutexUnlock | condSignal | condBroadcast | onceDone => exact Fifo.woken (a.mod _) _ _
  | gilPark | mutexPark | oncePark | joinPark => exact Fifo.parks a c _ self
  | onceJoin => exact Fifo.parks (a.mod _) c _ self
  | @condPark cv m =>
    exact (Fifo.woken (a.mod fun s => s.drop m self) (.mutex m) 1).trans
      ((Fifo.push _ (.cond cv) self).trans (Fifo.reschedule _ c))
  | create => exact Fifo.push a.q .run _
  | @exit j v =>
    refine (Fifo.woken (a.mod fun s => s.setRetval j v) (.join j) (a.q (.join j)).length).trans ?_
    rw [exitSwitch]
    split <;> exact Fifo.reschedule (World.mod _ _) c
  | yield => exact Fifo.yields (a.mod _) c self

variable {policy : Policy} {fuel : Nat} {act : Act}

theorem exec_fifo (inv : Inv a) (done : exec policy fuel act a = some a') : Fifo a.q a'.q := by
  cases Moves.of_exec done with
  | call | skip | unlock | online => exact Fifo.refl a.q
  | section_ here enters code done => exact (lockedSection_did inv.ready done).fifo
  | @preempt c self =>
    rw [canbootSchedPreempt]
    split
    · simp only
      split
      · exact (Fifo.push a.q .run self).trans (Fifo.reschedule _ c)
      · exact Fifo.reschedule (World.mod _ _) c
    · exact Fifo.refl a.q
  | @yield c self => exact Fifo.yields a c self
  | @idle c => exact Fifo.reschedule (World.mod _ _) c

/-- A slot is only re-initialised while it is free. -/
theorem exec_same (inv : Inv a) (done : exec policy fuel act a = some a') {t : Tid} (there : a.core.state t ≠ .free) :
    a'.core.hist.gen t = a.core.hist.gen t ∧ a'.core.entry t = a.core.entry t := by
  cases Moves.of_exec done with
  | call =>
    simp only [World.mod, Core.begin]
    split
    · refine ⟨?_, rfl⟩
      cases Call.joined _ <;> rfl
    · exact ⟨rfl, rfl⟩
  | skip | unlock | online => exact ⟨rfl, rfl⟩
  | section_ here enters code done => exact (lockedSection_did inv.ready done).same there
  | preempt =>
    rw [canbootSchedPreempt]
    split
    · simp only
      split <;> constructor <;> simp
    · exact ⟨rfl, rfl⟩
  | yield =>
    rw [canbootSchedYield]
    split <;> constructor <;> simp
  | idle =>
    rw [idleTurn]
    constructor <;> simp

/-! ## The source's queues -/

/-- The lists that a world's queues stand for, and what the threads' states say of them. -/
structure Agrees (w : Linked) (q : QueueId → List Tid) : Prop where
  chain : ∀ k, Chain w.q.next (w.q.head k) (q k)
  acyclic : ∀ k, (q k).Nodup
  tail : ∀ k, w.q.tail k = (q k).getLast?
  runnable : ∀ i, w.core.state (.pool i) = .runnable ↔ (q .run).count (.pool i) = 1
  blocked : ∀ i, w.core.state (.pool i) = .blocked ↔
    ∃ k, k ≠ .run ∧ (q k).count (.pool i) = 1 ∧ ∀ k', k' ≠ k → .pool i ∉ q k'
  running : ∀ i, w.core.state (.pool i) = .running ↔ ∃! c, w.core.current c = some (.pool i)
  ended : ∀ i, w.core.state (.pool i) = .exited ∨ w.core.state (.pool i) = .free →
    (∀ k, .pool i ∉ q k) ∧ ∀ c, w.core.current c ≠ some (.pool i)
  idle : ∀ c k, .idle c ∉ q k

variable {w : Linked}

theorem Inv.agrees (inv : Inv a) (sim : Sim w a) : Agrees w a.q := by
  obtain ⟨loc, placed⟩ := inv.placed
  have once : ∀ {i k}, (a.q k).count (.pool i) = 1 ↔ .pool i ∈ a.q k := by
    intro i k
    refine ⟨fun one => count_pos_iff.mp (by omega), fun on => ?_⟩
    exact count_eq_one_of_mem (placed.nodup k) on
  have only : ∀ {i k k'}, .pool i ∈ a.q k → k' ≠ k → .pool i ∉ a.q k' := by
    intro i k k' on ne also
    exact ne (by simpa using (placed.queue.mp also).symm.trans (placed.queue.mp on))
  refine ⟨sim.reps.chain, placed.nodup, sim.reps.tail, fun i => ?_, fun i => ?_, fun i => ?_, fun i => ?_,
    fun _ _ => placed.noIdle⟩ <;> rw [sim.core]
  · rw [once, placed.queue]
    exact (placed.state_cases i).1
  · rw [(placed.state_cases i).2.1]
    refine exists_congr fun k => and_congr_right fun _ => ?_
    rw [once, ← placed.queue]
    exact ⟨fun on => ⟨on, fun k' => only on⟩, fun both => both.1⟩
  · rw [(placed.state_cases i).2.2]
    constructor
    · rintro ⟨c, at_⟩
      refine ⟨c, placed.cpu.mpr at_, fun c' on => ?_⟩
      simpa using (placed.cpu.mp on).symm.trans at_
    · rintro ⟨c, on, _⟩
      exact ⟨c, placed.cpu.mp on⟩
  · intro ended
    have off := placed.nowhere ended
    refine ⟨fun k on => ?_, fun c on => ?_⟩
    · exact nomatch off.symm.trans (placed.queue.mp on)
    · exact nomatch off.symm.trans (placed.cpu.mp on)

/-- **The scheduler's queues and states agree, in every interleaving.** Whatever the threads call and
however their sections interleave on any number of CPUs, the queues are lists that the threads' states
agree with; a step serves every queue in order, and puts a new thread only in a slot that no CPU runs. -/
theorem queues_agree {policy : Policy} {fuel : Nat} {w : Linked} (reach : Reachable policy fuel w) :
    ∃ q, Agrees w q ∧ ∀ act w', exec policy fuel act w = some w' → (∃ q', Agrees w' q' ∧ Fifo q q') ∧
      ∀ i, w'.core.hist.gen (.pool i) ≠ w.core.hist.gen (.pool i) → ∀ c, w.core.current c ≠ some (.pool i) := by
  obtain ⟨a, reached, sim⟩ := reach.sim
  have agrees := reached.inv.agrees sim
  refine ⟨a.q, agrees, fun act w' done => ?_⟩
  obtain ⟨a', done', sim'⟩ := exec_sim sim reached.inv.ready done
  refine ⟨⟨a'.q, (reached.step done').inv.agrees sim', exec_fifo reached.inv done'⟩, fun i new c => ?_⟩
  refine (agrees.ended i (.inr ?_)).2 c
  by_contra there
  rw [sim.core] at there
  rw [sim.core, sim'.core] at new
  exact new (exec_same reached.inv done' there).1

/-- The boot thread makes a thread and waits for it on CPU 0, while CPU 1 comes online. -/
def joinSchedule : List Act :=
  [.call 0 .pthreadCreate, .run 0, .run 0, .online 1, .call 0 (.pthreadJoin 1), .run 0, .run 0, .run 0]

theorem queues_agree_joining : ∃ w : Linked, w.core.state (.pool 0) = .blocked ∧
    w.core.current 0 = some (.pool 1) ∧ ∃ q, Agrees w q ∧ ∀ act w', exec anyClient 17 act w = some w' →
      (∃ q', Agrees w' q' ∧ Fifo q q') ∧
      ∀ i, w'.core.hist.gen (.pool i) ≠ w.core.hist.gen (.pool i) → ∀ c, w.core.current c ≠ some (.pool i) := by
  have runs : (runActs anyClient 17 joinSchedule (canbootSchedInit : Linked)).isSome = true := by decide +kernel
  obtain ⟨w, done⟩ := isSome_iff_exists.mp runs
  have facts : ((runActs anyClient 17 joinSchedule (canbootSchedInit : Linked)).map fun w =>
      (w.core.state (.pool 0), w.core.current 0)) = some (.blocked, some (.pool 1)) := by decide +kernel
  rw [done] at facts
  have both := Prod.mk.inj (Option.some.inj facts)
  exact ⟨w, both.1, both.2, queues_agree (Reachable.init.run done)⟩

/-! ## Sections end -/

theorem Inv.short (inv : Inv a) (k : QueueId) : (a.q k).length ≤ 16 := by
  obtain ⟨loc, placed⟩ := inv.placed
  have inside : a.q k ⊆ (range 16).map Tid.pool := by
    intro t on
    cases t with
    | idle c => exact absurd on placed.noIdle
    | pool i =>
      refine List.mem_map.mpr ⟨i, mem_range.mpr (placed.small ?_), rfl⟩
      rw [placed.queue.mp on]
      simp
  simpa using (subperm_of_subset (placed.nodup k) inside).length_le

/-- The source's queues let a section end whenever lists do. -/
theorem Sim.ends {c : Cpu} {self : Tid} {i : Instr} {rest : List Instr}
    (enough : 16 < fuel) (sim : Sim w a) (inv : Inv a) (code : a.core.code self = i :: rest)
    (call : i.isRet = false) : (lockedSection fuel c self i rest w).isSome := by
  have ends : ∀ k f, k ≠ .run → (canbootSchedWakeAll k fuel (w.mod f)).isSome := fun k f wait =>
    (sim.mod f).wakeAll_ends k wait (Nat.lt_of_le_of_lt (inv.short k) enough)
  cases i with
  | condBroadcast cv | onceDone o =>
    show (Option.map _ _).isSome = true
    rw [isSome_map]
    exact ends _ _ (by simp)
  | threadExit v via =>
    cases self with
    | idle c' => exact nomatch (inv.idleCode c').symm.trans code
    | pool j =>
      show (Option.map _ _).isSome = true
      rw [isSome_map]
      exact ends _ _ (by simp)
  | ret k owned => exact nomatch call
  | _ => rfl

/-- **The holder of `g_sched` can always go on**, in every interleaving. -/
theorem lock_holder_moves (enough : 16 < fuel) (reach : Reachable policy fuel w) {c : Cpu}
    (held : w.core.lock = some c) : ∃ w', exec policy fuel (.run c) w = some w' := by
  obtain ⟨a, reached, sim⟩ := reach.sim
  obtain ⟨t, here, parked⟩ := reached.inv.locked (sim.core ▸ held)
  rw [← sim.core] at here parked
  rcases parked with unlock | retest
  · exact ⟨_, (Moves.unlock here unlock held).exec_eq⟩
  · obtain ⟨i, head, loops⟩ := reached.loops t (sim.core ▸ retest)
    obtain ⟨rest, code⟩ := head?_eq_some_iff.mp head
    have call : i.isRet = false := by cases i <;> first | rfl | cases loops
    obtain ⟨w', ended⟩ := isSome_iff_exists.mp (sim.ends enough reached.inv code call)
    exact ⟨w', (Moves.section_ here (.inr ⟨retest, held⟩) (sim.core ▸ code) ended).exec_eq⟩

theorem lock_holder_moves_joining : ∃ w : Linked, w.core.lock = some 0 ∧ ∃ w', exec anyClient 17 (.run 0) w = some w' := by
  have facts : ((runActs anyClient 17 joinSchedule (canbootSchedInit : Linked)).map fun w => w.core.lock) =
      some (some 0) := by decide +kernel
  obtain ⟨w, done, held⟩ := map_eq_some_iff.mp facts
  exact ⟨w, held, lock_holder_moves (by decide) (Reachable.init.run done) held⟩

/-- **A step over lists is a step of the source's queues.** With `exec_sim`, the two runs are the same. -/
theorem exec_ends (enough : 16 < fuel) (sim : Sim w a) (inv : Inv a) (done : exec policy fuel act a = some a') :
    ∃ w', exec policy fuel act w = some w' ∧ Sim w' a' := by
  suffices steps : ∃ w', Moves policy fuel w act w' by
    obtain ⟨w', moves⟩ := steps
    obtain ⟨b, done', sim'⟩ := exec_sim sim inv.ready moves.exec_eq
    cases done.symm.trans done'
    exact ⟨w', moves.exec_eq, sim'⟩
  have core := sim.core
  cases Moves.of_exec done with
  | call here user resume code fits allowed =>
    exact ⟨_, .call (core ▸ here) user (core ▸ resume) (core ▸ code) (core ▸ fits) (core ▸ allowed)⟩
  | skip here resume code skips => exact ⟨_, .skip (core ▸ here) (core ▸ resume) (core ▸ code) (core ▸ skips)⟩
  | @section_ c self i rest _ here enters code done =>
    have call := (lockedSection_did inv.ready done).call
    obtain ⟨w', ended⟩ := isSome_iff_exists.mp (sim.ends (c := c) enough inv code call)
    have same : w.Enters c self i := by simpa only [World.Enters, core] using enters
    exact ⟨w', .section_ (core ▸ here) same (core ▸ code) ended⟩
  | unlock here resume lock => exact ⟨_, .unlock (core ▸ here) (core ▸ resume) (core ▸ lock)⟩
  | preempt here lock resume => exact ⟨_, .preempt (core ▸ here) (core ▸ lock) (core ▸ resume)⟩
  | yield here lock resume user => exact ⟨_, .yield (core ▸ here) (core ▸ lock) (core ▸ resume) user⟩
  | idle here lock resume => exact ⟨_, .idle (core ▸ here) (core ▸ lock) (core ▸ resume)⟩
  | online off lock => exact ⟨_, .online (core ▸ off) (core ▸ lock)⟩

/-- Every world over lists stands for one of the source's. -/
theorem Reachable.linked (enough : 16 < fuel)
    (reach : Reachable policy fuel a) : ∃ w : Linked, Reachable policy fuel w ∧ Sim w a := by
  induction reach with
  | init => exact ⟨canbootSchedInit, .init, Sim.init⟩
  | step reach done ih =>
    obtain ⟨w, reached, sim⟩ := ih
    obtain ⟨w', done', sim'⟩ := exec_ends enough sim reach.inv done
    exact ⟨w', reached.step done', sim'⟩

/-- **The linked queues are lists**: both schedulers reach the same worlds. -/
theorem linked_iff_lists (policy : Policy) (n : Nat) :
    (∀ w : Linked, Reachable policy (n + 17) w → ∃ a, Reachable policy (n + 17) a ∧ Sim w a) ∧
      ∀ a : World Lists, Reachable policy (n + 17) a → ∃ w, Reachable policy (n + 17) w ∧ Sim w a :=
  ⟨fun _ reach => reach.sim, fun _ reach => reach.linked (by omega)⟩

end CanBoot.Sched
