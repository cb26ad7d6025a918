import CanBoot.Laws.Sched.Gil
import CanBoot.Laws.Sched.Mutex
import CanBoot.Laws.Sched.Queues

/-!
# Condition variables

`pthread_cond_wait` takes the lock four times, and the VM lock is dropped before and taken after the section
that parks. What matters happens in single sections: the mutex is given up and the thread joins the waiters in
one, and threads leave the waiters only in the section of a signal or a broadcast (`cond_exact`).
-/

namespace CanBoot.Sched

open List
open Function (update update_of_ne update_self)

/-- `pthread_cond_wait` is called by the mutex's owner. -/
def condClient : Policy := fun s t k =>
  match k with
  | .condWait _ m => decide (s.inst t ∈ s.hist.holders m)
  | _ => true

/-- A step runs a section of a thread. -/
def World.Runs {Q : Type} (w : World Q) (act : Act) (t : Tid) (i : Instr) (rest : List Instr) : Prop :=
  ∃ c, act = .run c ∧ w.core.current c = some t ∧ w.Enters c t i ∧ w.core.code t = i :: rest

variable {policy : Policy} {fuel : Nat} {act : Act} {a a' : World Lists}

variable {i : Instr}

theorem World.Runs.did {t : Tid} {rest : List Instr} (runs : a.Runs act t i rest) (inv : Inv a)
    (done : exec policy fuel act a = some a') : ∃ c, a.core.current c = some t ∧ Did a c t rest i a' := by
  obtain ⟨c, rfl, here, enters, code⟩ := runs
  cases Moves.of_exec done with
  | skip here' resume code' skips =>
    cases here.symm.trans here'
    cases code.symm.trans code'
    rcases enters with ⟨_, _, no⟩ | ⟨retest, _⟩
    · exact nomatch no.symm.trans skips
    · exact nomatch retest.symm.trans resume
  | section_ here' enters' code' done =>
    cases here.symm.trans here'
    cases code.symm.trans code'
    exact ⟨c, here, lockedSection_did inv.ready done⟩
  | unlock here' resume lock =>
    cases here.symm.trans here'
    rcases enters with ⟨running, _⟩ | ⟨retest, _⟩
    · exact nomatch running.symm.trans resume
    · exact nomatch retest.symm.trans resume

/-- A step that changes a wait queue runs a section. -/
theorem exec_runs (inv : Inv a) (done : exec policy fuel act a = some a') :
    (∀ k, k ≠ .run → a'.q k = a.q k) ∨ ∃ t i rest, a.Runs act t i rest := by
  cases Moves.of_exec done with
  | section_ here enters code => exact .inr ⟨_, _, _, _, rfl, here, enters, code⟩
  | call | skip | unlock | online => exact .inl fun _ _ => rfl
  | preempt here lock resume => exact .inl (Calm.preempts inv here resume).waits
  | yield here lock resume => exact .inl (Calm.yields inv here resume).waits
  | idle => exact .inl fun k ne => by simp [idleTurn, update_of_ne ne]

/-! ## The waiters -/

/-- The condition variable whose waiters a section changes. -/
def Instr.waiters : Instr → Option Nat
  | .condPark cv _ | .condSignal cv | .condBroadcast cv => some cv
  | _ => none

/-- A section, seen from one condition variable. -/
inductive CondDid (a a' : World Lists) (self : Tid) (cv : Nat) : Instr → Prop
  | other {i : Instr} (same : a'.q (.cond cv) = a.q (.cond cv)) (away : i.waiters ≠ some cv) : CondDid a a' self cv i
  | park {m : Nat} (queue : a'.q (.cond cv) = a.q (.cond cv) ++ [self])
      (dropped : a'.core.mutexLocked m = false) : CondDid a a' self cv (.condPark cv m)
  | signal (queue : a'.q (.cond cv) = (a.q (.cond cv)).tail)
      (woken : a'.q .run = a.q .run ++ (a.q (.cond cv)).take 1) : CondDid a a' self cv (.condSignal cv)
  | broadcast (queue : a'.q (.cond cv) = []) (woken : a'.q .run = a.q .run ++ a.q (.cond cv)) :
      CondDid a a' self cv (.condBroadcast cv)

theorem Did.cond {c : Cpu} {self : Tid} {rest : List Instr} (did : Did a c self rest i a')
    (cv : Nat) : CondDid a a' self cv i := by
  cases did with
  | @condPark cv' m =>
    by_cases same : cv' = cv
    · subst same
      refine .park ?_ ?_ <;> simp
    · have ne : cv ≠ cv' := fun h => same h.symm
      refine .other ?_ ?_ <;> simp [ne, same, Instr.waiters]
  | @condSignal cv' =>
    by_cases same : cv' = cv
    · subst same
      refine .signal ?_ ?_ <;> simp
    · have ne : cv ≠ cv' := fun h => same h.symm
      refine .other ?_ ?_ <;> simp [ne, same, Instr.waiters]
  | @condBroadcast cv' =>
    by_cases same : cv' = cv
    · subst same
      refine .broadcast ?_ ?_ <;> simp
    · have ne : cv ≠ cv' := fun h => same h.symm
      refine .other ?_ ?_ <;> simp [ne, same, Instr.waiters]
  | gilRelease which | gilTake which | gilPark which =>
    refine .other (by simp) ?_
    cases i <;> simp [Instr.acquires, Instr.releases] at which <;> simp [Instr.waiters]
  | oncePast which => rcases which with rfl | rfl <;> refine .other ?_ ?_ <;> simp [Instr.waiters]
  | yield =>
    rw [canbootSchedYield]
    split <;> refine .other ?_ ?_ <;> simp [Instr.waiters]
  | exit =>
    rw [exitSwitch]
    split <;> refine .other ?_ ?_ <;> simp [Instr.waiters]
  | _ => refine .other ?_ ?_ <;> simp [Instr.waiters]

/-! ## Waiters own their mutex -/

variable {cv m : Nat}

theorem mem_dues {code : List Instr} (on : .condPark cv m ∈ code) : m ∈ dues code :=
  mem_filterMap.mpr ⟨_, on, rfl⟩

/-- Where a thread in `pthread_cond_wait` owns the mutex: up to the section that parks, and at the return. -/
def condOwns (cv m : Nat) (code : List Instr) : Prop :=
  .condPark cv m ∈ code ∨ ∃ owned, code = [.ret (.condWait cv m) owned]

def World.CondOwned (a : World Lists) : Prop :=
  ∀ {t cv m}, condOwns cv m (a.core.code t) → a.core.inst t ∈ a.core.hist.holders m

theorem not_condOwns_entry (e : Entry) : ¬ condOwns cv m e.code := by
  rintro (on | ⟨owned, ret⟩)
  · cases e <;> simp [Entry.code] at on
  · cases e <;> simp [Entry.code] at ret

variable {owned : Bool}

theorem condOwns_body {gen : Tid → Nat} {e : Option Entry} {k : Call}
    (owns : condOwns cv m (k.body gen e ++ [.ret k owned])) : k = .condWait cv m := by
  rcases owns with on | ⟨owned', ret⟩
  · cases k with
    | entryReturn v => rcases e with _ | _ | _ <;> simp [Call.body] at on
    | _ => simp_all [Call.body]
  · have last := congrArg getLast? ret
    simp at last
    exact last.1

/-- The section before the return of `pthread_cond_wait` is its `pthread_mutex_lock`. -/
theorem Shape.condReturn (shape : Shape [i, .ret (.condWait cv m) owned]) : i = .mutexLock m := by
  cases shape with
  | @call k gen e owned' _ left =>
    obtain ⟨before, all⟩ := left
    have last := congrArg getLast? all
    simp at last
    obtain ⟨rfl, rfl⟩ := last
    have prior := congrArg (fun l => l.dropLast.getLast?) all
    simpa [Call.body] using prior

theorem exec_condOwned (waits : ∀ s t k, policy s t k = true → condClient s t k = true) (inv : Inv a)
    (owed : a.Owed) (shape : ∀ t, Shape (a.core.code t)) (cond : a.CondOwned)
    (done : exec policy fuel act a = some a') : a'.CondOwned := by
  intro t cv m owns
  cases exec_step inv done with
  | @section_ c i rest j here enters code did =>
    have alive := inv.alive here
    by_cases me : t = .pool j
    · subst me
      have mine : a'.core.inst (.pool j) = a.core.inst (.pool j) := by
        rw [Core.inst, Core.inst, (did.same alive.2).1]
      rw [mine]
      rcases owns with on | ⟨owned, ret⟩
      · -- the mutex is still owed, so this section did not give it up
        have before : Instr.condPark cv m ∈ a.core.code (.pool j) := by
          rw [code]
          rcases did.own alive code with own | ⟨own, _⟩ | ⟨own | ⟨o, _, own⟩, _⟩ <;> rw [own] at on
          · exact mem_cons_of_mem _ on
          · cases on
          · exact on
          · exact mem_cons_of_mem _ (by simpa using on)
        refine did.holds (cond (.inl before)) (.inr fun due => ?_)
        have still := mem_dues on
        rw [(did.paid owed alive code due).2] at still
        cases still
      · -- the section before the return took the mutex
        have old := code ▸ shape (.pool j)
        rcases did.own alive code with own | ⟨own, _⟩ | ⟨own | ⟨o, _, own⟩, _⟩
        · cases own.symm.trans ret
          cases old.condReturn
          cases did.mutex m with
          | other _ _ _ _ waits => exact absurd rfl waits
          | take _ _ _ holders =>
            rw [holders]
            exact mem_cons_self
          | park _ _ _ stays =>
            rw [own, code] at stays
            cases stays
          | drop due => cases due
        · cases own.symm.trans ret
        · cases own.symm.trans ret
          cases did.call
        · cases own.symm.trans ret
    · rcases did.fate me with kept | ⟨e, _, born⟩
      · rw [kept.code] at owns
        have same : a'.core.inst t = a.core.inst t := by rw [Core.inst, Core.inst, kept.gen]
        rw [same]
        exact did.holds (cond owns) (.inl fun eq => me (congrArg Prod.fst eq))
      · rw [born.code] at owns
        exact absurd owns (not_condOwns_entry e)
  | call j k here running code fits allowed next =>
    obtain ⟨rc, joins, core⟩ := begin_eq a.core (.pool j) k
    have legal := waits _ _ _ allowed
    subst next
    simp only [World.mod, core] at owns ⊢
    by_cases me : t = .pool j
    · subst me
      rw [update_self, Core.callCode] at owns
      split at owns
      · have same := condOwns_body owns
        subst same
        exact of_decide_eq_true legal
      · exact cond owns
    · rw [update_of_ne me] at owns
      exact cond owns
  | @skip c i rest j here running code skips next =>
    subst next
    simp only [World.mod, Core.setCode] at owns ⊢
    by_cases me : t = .pool j
    · subst me
      rw [update_self] at owns
      rcases owns with on | ⟨owned, rfl⟩
      · exact cond (.inl (code ▸ mem_cons_of_mem _ on))
      · have last := (code ▸ shape (.pool j)).condReturn
        subst last
        cases skips
    · rw [update_of_ne me] at owns
      exact cond owns
  | calm calm =>
    obtain ⟨st, cur, lk, rs, core⟩ := calm.core
    rw [core] at owns ⊢
    exact cond owns

theorem Reachable.condOwned (waits : ∀ s t k, policy s t k = true → condClient s t k = true)
    (reach : Reachable policy fuel a) : a.CondOwned := by
  induction reach with
  | init =>
    rintro t cv m (on | ⟨owned, ret⟩)
    · exact nomatch on
    · exact nomatch ret
  | step reach done cond => exact exec_condOwned waits reach.inv reach.owed reach.shape cond done

/-! ## Signals -/

/-- A step, seen from the condition variables: `q` and `q'` are the queues before and after. -/
structure CondStep (w : Linked) (act : Act) (w' : Linked) (q q' : QueueId → List Tid) : Prop where
  joins : ∀ {t cv}, t ∉ q (.cond cv) → t ∈ q' (.cond cv) → ∃ m rest, w.Runs act t (.condPark cv m) rest
  parks : ∀ {t cv m rest}, w.Runs act t (.condPark cv m) rest →
    w.core.inst t ∈ w.core.hist.holders m ∧ w'.core.mutexLocked m = false ∧ q' (.cond cv) = q (.cond cv) ++ [t]
  leaves : ∀ {t cv}, t ∈ q (.cond cv) → t ∉ q' (.cond cv) →
    ∃ u rest, w.Runs act u (.condSignal cv) rest ∨ w.Runs act u (.condBroadcast cv) rest
  signals : ∀ {u cv rest}, w.Runs act u (.condSignal cv) rest →
    q' (.cond cv) = (q (.cond cv)).tail ∧ q' .run = q .run ++ (q (.cond cv)).take 1
  broadcasts : ∀ {u cv rest}, w.Runs act u (.condBroadcast cv) rest →
    q' (.cond cv) = [] ∧ q' .run = q .run ++ q (.cond cv)

theorem exec_condStep (waits : ∀ s t k, policy s t k = true → condClient s t k = true) {w w' : Linked}
    (reach : Reachable policy fuel a) (sim : Sim w a) (sim' : Sim w' a')
    (done : exec policy fuel act a = some a') : CondStep w act w' a.q a'.q := by
  have inv := reach.inv
  have runs : ∀ {t i rest}, w.Runs act t i rest ↔ a.Runs act t i rest := by
    intro t i rest
    simp only [World.Runs, World.Enters, sim.core]
  -- what the section of a step, if there is one, does to the waiters
  have ran : ∀ {t i rest} cv, a.Runs act t i rest → CondDid a a' t cv i := by
    intro t i rest cv runs
    obtain ⟨c, _, did⟩ := runs.did inv done
    exact did.cond cv
  have changes : ∀ {cv}, a'.q (.cond cv) ≠ a.q (.cond cv) → ∃ t i rest, w.Runs act t i rest ∧ CondDid a a' t cv i := by
    intro cv ne
    rcases exec_runs inv done with same | ⟨t, i, rest, done⟩
    · exact absurd (same _ (by simp)) ne
    · exact ⟨t, i, rest, runs.mpr done, ran cv done⟩
  refine ⟨fun {t cv} off on => ?_, fun {t cv m rest} park => ?_, fun {t cv} on off => ?_,
    fun {u cv rest} signal => ?_, fun {u cv rest} broadcast => ?_⟩
  · obtain ⟨u, i, rest, step, did⟩ := changes fun same => off (same ▸ on)
    cases did with
    | other same => exact absurd (same ▸ on) off
    | @park m queue =>
      rw [queue, mem_append, mem_singleton] at on
      cases on.resolve_left off
      exact ⟨m, rest, step⟩
    | signal queue => exact absurd (mem_of_mem_tail (queue ▸ on)) off
    | broadcast queue => cases queue ▸ on
  · cases ran cv (runs.mp park) with
    | other _ away => exact absurd rfl away
    | park queue dropped =>
      obtain ⟨c, rfl, here, enters, code⟩ := runs.mp park
      have on : Instr.condPark cv m ∈ a.core.code t := by
        rw [code]
        exact mem_cons_self
      rw [sim.core, sim'.core]
      exact ⟨reach.condOwned waits (.inl on), dropped, queue⟩
  · obtain ⟨u, i, rest, step, did⟩ := changes fun same => off (same.symm ▸ on)
    cases did with
    | other same => exact absurd (same.symm ▸ on) off
    | park queue => exact absurd (queue ▸ mem_append_left _ on) off
    | signal => exact ⟨u, rest, .inl step⟩
    | broadcast => exact ⟨u, rest, .inr step⟩
  · cases ran cv (runs.mp signal) with
    | other _ away => exact absurd rfl away
    | signal queue woken => exact ⟨queue, woken⟩
  · cases ran cv (runs.mp broadcast) with
    | other _ away => exact absurd rfl away
    | broadcast queue woken => exact ⟨queue, woken⟩

/-! ## Returns -/

/-- What a thread has when it returns from `pthread_cond_wait`: the mutex, and the VM lock if it had it at
the call. -/
structure CondReturn (w : Linked) (policy : Policy) (t : Tid) (m : Nat) (owned : Bool) : Prop where
  holds : w.core.inst t ∈ w.core.hist.holders m
  gil : owned = true → w.core.ownsGil t = true
  /-- where mutexes are only unlocked by their owners, nobody else has it -/
  only : (∀ s t k, policy s t k = true → ownerClient s t k = true) →
    w.core.mutexLocked m = true ∧ w.core.hist.holders m = [w.core.inst t]

theorem Reachable.condReturn (waits : ∀ s t k, policy s t k = true → condClient s t k = true) {w : Linked}
    (reach : Reachable policy fuel a) (sim : Sim w a) {t : Tid} (code : w.core.code t = [.ret (.condWait cv m) owned])
    : CondReturn w policy t m owned := by
  rw [sim.core] at code
  have holds : a.core.inst t ∈ a.core.hist.holders m := reach.condOwned waits (.inr ⟨owned, code⟩)
  constructor <;> rw [sim.core]
  · exact holds
  · intro had
    cases t with
    | idle c => cases (reach.inv.idleCode c).symm.trans code
    | pool j =>
      have ok := reach.gil.ok j (reach.resumes (by rw [code]; simp))
      rw [Core.GilOk, Core.claims, code] at ok
      cases ok with
      | user holds => exact holds had
  · intro owner
    rcases (reach.mutexes owner).one m with ⟨none, _⟩ | ⟨x, one, locked⟩
    · rw [none] at holds
      cases holds
    · rw [one, mem_singleton] at holds
      rw [holds]
      exact ⟨locked, one⟩

/-- **Condition variables lose no signal and invent none.** Whatever the client does, if it calls
`pthread_cond_wait` with mutexes it owns: the mutex is given up and the thread joins the waiters in one section,
waiters leave only in the section of a signal or a broadcast, and a thread returns with what it owned. -/
theorem cond_exact (waits : ∀ s t k, policy s t k = true → condClient s t k = true) {w : Linked}
    (reach : Reachable policy fuel w) :
    (∀ t cv m owned, w.core.code t = [.ret (.condWait cv m) owned] → CondReturn w policy t m owned) ∧
      ∀ act w', exec policy fuel act w = some w' →
        ∃ q q', Agrees w q ∧ Agrees w' q' ∧ Fifo q q' ∧ CondStep w act w' q q' := by
  obtain ⟨a, reached, sim⟩ := reach.sim
  refine ⟨fun t cv m owned code => reached.condReturn waits sim code, fun act w' done => ?_⟩
  obtain ⟨a', done', sim'⟩ := exec_sim sim reached.inv.ready done
  exact ⟨a.q, a'.q, reached.inv.agrees sim, (reached.step done').inv.agrees sim', exec_fifo reached.inv done',
    exec_condStep waits reached sim sim' done'⟩

/-- The boot thread waits on a condition variable, and the thread it made is about to signal it. -/
def waitSchedule : List Act :=
  [.call 0 .pthreadCreate, .run 0, .run 0, .call 0 (.mutexLock 7), .run 0, .run 0, .call 0 (.condWait 3 7),
    .run 0, .run 0, .run 0, .run 0, .run 0, .call 0 (.condSignal 3)]

theorem cond_exact_signal : ∃ w w' : Linked, w.q.head (.cond 3) = some (.pool 0) ∧
    exec condClient 17 (.run 0) w = some w' ∧
    ∃ q q', Agrees w q ∧ Agrees w' q' ∧ Fifo q q' ∧ CondStep w (.run 0) w' q q' := by
  have runs : ((runActs condClient 17 waitSchedule (canbootSchedInit : Linked)).bind fun w =>
      (exec condClient 17 (.run 0) w).map fun _ => w.q.head (.cond 3)) = some (some (.pool 0)) := by
    decide +kernel
  obtain ⟨w, done, rest⟩ := Option.bind_eq_some_iff.mp runs
  obtain ⟨w', step, head⟩ := Option.map_eq_some_iff.mp rest
  exact ⟨w, w', head, step, (cond_exact (fun _ _ _ legal => legal) (Reachable.init.run done)).2 (.run 0) w' step⟩

end CanBoot.Sched
