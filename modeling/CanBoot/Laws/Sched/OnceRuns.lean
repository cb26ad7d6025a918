import CanBoot.Laws.Sched.Once
import CanBoot.Laws.Sched.Barging

/-!
# `pthread_once` over whole runs

`OnceStep` is what one step can do to the controls. From it, by induction along a run: `init` is called once, and
a call returns after it has returned (`Trace.safe`). A thread keeps its place in `pthread_once` until a step of its
own, and the section that marks a control done empties its queue, so a fair scheduler brings every caller to its
return (`Trace.call_returns`).
-/

namespace CanBoot.Sched

open CanBoot.Lib List Nat
open Function (update update_of_ne update_self)

variable {policy : Policy} {fuel : Nat} {act : Act} {a a' : World Lists}

/-! ## Who can go on -/

variable {t : Tid} {i : Instr}

/-- A thread in `pthread_once` can go on, unless it waits for a control that is not done. -/
theorem Reachable.able (reach : Reachable policy fuel a) (head : (a.core.code t).head? = some i)
    (inside : i.once ≠ none) (ready : ∀ o, i = .onceWait o → a.core.onceState o = .done) :
    a.core.state t = .runnable ∨ a.core.state t = .running := by
  have inv := reach.inv
  cases t with
  | idle c =>
    rw [inv.idleCode c] at head
    cases head
  | pool l =>
    obtain ⟨loc, placed⟩ := inv.placed
    have alive : a.core.Alive (.pool l) := by
      by_contra dead
      rw [(reach.ended l dead).2] at head
      cases head
    obtain ⟨place, there⟩ := Option.ne_none_iff_exists'.mp (placed.alive.mp alive)
    cases place with
    | cpu c => exact .inr ((placed.state_cases l).2.2.mpr ⟨c, there⟩)
    | queue k =>
      have on := placed.queue.mpr there
      have fits := inv.fits on
      cases k with
      | run => exact .inl ((placed.state_cases l).1.mpr there)
      | gil =>
        rcases fits.2 with first | first <;> cases head.symm.trans first <;> exact absurd rfl inside
      | join j =>
        obtain ⟨_, g, first⟩ := fits
        cases head.symm.trans first
        exact absurd rfl inside
      | mutex m =>
        cases head.symm.trans fits.2
        exact absurd rfl inside
      | once o =>
        cases head.symm.trans fits.2
        cases (ready o rfl).symm.trans (reach.once.parked on)
      | cond cv =>
        cases head.symm.trans (reach.condCode on)
        exact absurd rfl inside

/-! ## One step -/

/-- **A step, seen from the controls.** -/
structure OnceStep (s : Core) (act : Act) (s' : Core) : Prop where
  stays : ∀ {t}, s.code t ≠ [] → ¬ s.GoesOn act t → s'.code t = s.code t
  inside : ∀ {t o}, o ∈ s'.initing t → o ∈ s.initing t ∨ s.StartsInit act t o
  starts : ∀ {t o}, s.StartsInit act t o → s'.onceState o = .running
  state : ∀ o, s'.onceState o = s.onceState o ∨ (∃ t, s.StartsInit act t o) ∨
    (∃ t, s.GoesOn act t ∧ (s.code t).head? = some (.onceDone o)) ∧ s'.onceState o = .done
  enters : ∀ {t o}, s.GoesOn act t → (s.code t).head? = some (.onceEnter o) → (s'.code t).head? = some (.onceWait o) ∨
      (s.StartsInit act t o ∨ s.onceState o = .done) ∧ ∃ owned, s'.code t = [.ret (.once o) owned]
  waits : ∀ {t o}, s.GoesOn act t → (s.code t).head? = some (.onceWait o) →
    s.onceState o ≠ .done ∧ s'.code t = s.code t ∨ s.onceState o = .done ∧ ∃ owned, s'.code t = [.ret (.once o) owned]
  finishes : ∀ {t o}, s.GoesOn act t → (s.code t).head? = some (.onceDone o) →
    s'.onceState o = .done ∧ ∃ owned, s'.code t = [.ret (.onceInitReturn o) owned]
  calls : ∀ {c t k}, act = .call c k → s.current c = some t → s'.code t = s.callCode t k ∧ k.fits s t = true
  called : ∀ {t o}, (s'.code t).head? = some (.onceDone o) → (s.code t).head? = some (.onceDone o) ∨ s.EndsInit act t o

namespace Turn

variable (turn : Turn a a' act)

include turn

theorem inside {o : Nat} (on : o ∈ a'.core.initing t) : o ∈ a.core.initing t ∨ a.core.StartsInit act t o := by
  cases turn with
  | section_ j run here goes code did =>
    rcases (did.once code).inside on with old | ⟨rfl, rfl, fresh⟩
    · exact .inl old
    · exact .inr ⟨⟨_, run, here, goes⟩, by rw [code]; rfl, fresh⟩
  | call j k called here code fits next =>
    obtain ⟨rc, joins, core⟩ := begin_eq a.core (.pool j) k
    subst next
    simp only [World.mod, core] at on
    exact .inl on
  | skip j run here goes code skips next =>
    subst next
    exact .inl on
  | calm quiet uncalled calm =>
    obtain ⟨st, cur, lk, rs, core⟩ := calm.core
    rw [core] at on
    exact .inl on

theorem state (o : Nat) : a'.core.onceState o = a.core.onceState o ∨ (∃ t, a.core.StartsInit act t o) ∨
    (∃ t, a.core.GoesOn act t ∧ (a.core.code t).head? = some (.onceDone o)) ∧ a'.core.onceState o = .done := by
  cases turn with
  | section_ j run here goes code did =>
    have head : ∀ {i rest}, a.core.code (.pool j) = i :: rest → (a.core.code (.pool j)).head? = some i := by
      intro i rest code
      rw [code]
      rfl
    cases did.once code with
    | other state | past _ _ state | park _ state => exact .inl (congrFun state o)
    | @start o' fresh state =>
      by_cases same : o = o'
      · subst same
        exact .inr (.inl ⟨_, ⟨_, run, here, goes⟩, head code, fresh⟩)
      · exact .inl (by rw [state, update_of_ne same])
    | @finish o' state =>
      by_cases same : o = o'
      · subst same
        exact .inr (.inr ⟨⟨_, ⟨_, run, here, goes⟩, head code⟩, by rw [state, update_self]⟩)
      · exact .inl (by rw [state, update_of_ne same])
  | call j k called here code fits next =>
    obtain ⟨rc, joins, core⟩ := begin_eq a.core (.pool j) k
    subst next
    simp only [World.mod, core]
    exact .inl trivial
  | skip j run here goes code skips next =>
    subst next
    exact .inl rfl
  | calm quiet uncalled calm =>
    obtain ⟨st, cur, lk, rs, core⟩ := calm.core
    rw [core]
    exact .inl rfl

theorem called (shape : ∀ t, Shape (a.core.code t)) (inv : Inv a) {o : Nat}
    (head : (a'.core.code t).head? = some (.onceDone o)) :
    (a.core.code t).head? = some (.onceDone o) ∨ a.core.EndsInit act t o := by
  -- no section leads to this one: it is the first of its call
  have first : ∀ {j i rest}, a.core.code (.pool j) = i :: rest → rest.head? ≠ some (.onceDone o) := by
    intro j i rest code head
    cases (code ▸ shape (.pool j)).onceCode with
    | other away => cases away _ (mem_cons_of_mem _ (mem_of_head? head))
    | enter | wait | finish | past | finished => cases head
  cases turn with
  | section_ j run here goes code did =>
    by_cases me : t = .pool j
    · subst me
      rcases did.own (inv.alive here) code with own | ⟨own, _⟩ | ⟨own | ⟨o', _, own⟩, _⟩ <;> rw [own] at head
      · exact absurd head (first code)
      · cases head
      · rw [code]
        exact .inl head
      · cases head
    · rcases did.fate me with kept | ⟨e, _, born⟩
      · rw [kept.code] at head
        exact .inl head
      · rw [born.code] at head
        cases e <;> cases head
  | call j k called here code fits next =>
    obtain ⟨rc, joins, core⟩ := begin_eq a.core (.pool j) k
    subst next
    simp only [World.mod, core] at head
    by_cases me : t = .pool j
    · subst me
      rw [update_self, Core.callCode] at head
      split at head
      · cases k with
        | onceInitReturn o' =>
          cases head
          exact .inr ⟨_, called, here⟩
        | entryReturn v => rcases e : a.core.entry (.pool j) with _ | _ | _ <;> rw [e] at head <;> cases head
        | _ => cases head
      · exact .inl head
    · rw [update_of_ne me] at head
      exact .inl head
  | skip j run here goes code skips next =>
    subst next
    by_cases me : t = .pool j
    · subst me
      simp only [World.mod, Core.setCode, update_self] at head
      exact absurd head (first code)
    · simp only [World.mod, Core.setCode, update_of_ne me] at head
      exact .inl head
  | calm quiet uncalled calm =>
    obtain ⟨st, cur, lk, rs, core⟩ := calm.core
    rw [core] at head
    exact .inl head

end Turn

theorem Reachable.onceStep (reach : Reachable policy fuel a) (done : exec policy fuel act a = some a') :
    OnceStep a.core act a'.core := by
  have turn := exec_turn reach.inv done
  have shaped : ∀ {t i rest}, a.core.code t = i :: rest → OnceCode (i :: rest) := by
    intro t i rest code
    rw [← code]
    exact (reach.shape t).onceCode
  refine ⟨turn.stays reach.ended, turn.inside, fun {t o} starts => ?_, turn.state, fun {t o} goes head => ?_,
    fun {t o} goes head => ?_, fun {t o} goes head => ?_, turn.calls, turn.called reach.shape reach.inv⟩
  · obtain ⟨goes, head, fresh⟩ := starts
    obtain ⟨c, rest, code, did⟩ := turn.went goes head fun _ => rfl
    cases did with
    | oncePast which done =>
      rcases which with same | same <;> cases same
      cases fresh.symm.trans done
    | onceStart => simp
    | onceJoin running => cases fresh.symm.trans running
    | gilRelease which | gilTake which | gilPark which => cases which
  · obtain ⟨c, rest, code, did⟩ := turn.went goes head fun _ => rfl
    have rets : ∃ owned, rest = [.ret (.once o) owned] := (code ▸ reach.shape t).onceEnter
    cases did.once code with
    | other _ _ _ _ away => cases away
    | past which done _ _ _ own =>
      rcases which with same | same <;> cases same
      rw [own]
      exact .inr ⟨.inr done, rets⟩
    | start fresh _ _ _ own =>
      rw [own]
      exact .inr ⟨.inl ⟨goes, head, fresh⟩, rets⟩
    | park running _ _ _ _ own =>
      rw [own]
      rcases running with ⟨_, same⟩ | ⟨_, same⟩ <;> cases same
      exact .inl rfl
  · obtain ⟨c, rest, code, did⟩ := turn.went goes head fun _ => rfl
    cases did.once code with
    | other _ _ _ _ away => cases away
    | past which done _ _ _ own =>
      rcases which with same | same <;> cases same
      rw [own]
      cases shaped code with
      | other away => cases away _ mem_cons_self
      | wait => exact .inr ⟨done, _, rfl⟩
    | park running _ _ _ _ own =>
      rcases running with ⟨_, same⟩ | ⟨undone, same⟩ <;> cases same
      rw [own, code]
      exact .inl ⟨undone, rfl⟩
  · obtain ⟨c, rest, code, did⟩ := turn.went goes head fun _ => rfl
    cases did.once code with
    | other _ _ _ _ away => cases away
    | past which => rcases which with same | same <;> cases same
    | park running => rcases running with ⟨_, same⟩ | ⟨_, same⟩ <;> cases same
    | finish state _ _ _ own =>
      rw [own, state, update_self]
      cases shaped code with
      | other away => cases away _ mem_cons_self
      | finish => exact ⟨rfl, _, rfl⟩

theorem OnceStep.later {s s' : Core} (step : OnceStep s act s') : s.OnceLater s' := by
  intro o
  rcases step.state o with same | ⟨t, starts⟩ | ⟨_, done⟩
  · exact .inl same
  · exact .inr (.inl ⟨starts.2.2, step.starts starts⟩)
  · exact .inr (.inr done)

/-! ## Runs -/

/-- The first steps of a run from `canboot_sched_init`. -/
structure Trace (policy : Policy) (fuel : Nat) (run : Nat → Linked) (acts : Nat → Act) (len : Nat) : Prop where
  start : run 0 = canbootSchedInit
  step : ∀ n, n < len → exec policy fuel (acts n) (run n) = some (run (n + 1))

/-- **Exactly once.** -/
structure OnceSafe (run : Nat → Linked) (acts : Nat → Act) (len o : Nat) : Prop where
  /-- `init` is called at most once -/
  once : ∀ {n m t u}, n < len → m < len → (run n).core.StartsInit (acts n) t o →
    (run m).core.StartsInit (acts m) u o → n = m ∧ t = u
  /-- a call returns after that `init` was called and has returned -/
  after : ∀ {n t}, n < len → (run n).core.ReturnsOnce (acts n) t o → ∃ k m u, k < m ∧ m < n ∧
    (run k).core.StartsInit (acts k) u o ∧ (run m).core.EndsInit (acts m) u o
  /-- nobody waits for a control that is done -/
  drained : ∀ {n}, n ≤ len → (run n).core.onceState o = .done → (run n).q.head (.once o) = none

/-- A thread that can go on with a call does, sooner or later. -/
def FairCalls (run : Nat → Linked) (acts : Nat → Act) : Prop :=
  ∀ n t, (run n).core.state t = .runnable ∨ (run n).core.state t = .running → (run n).core.code t ≠ [] →
    ∃ n', n ≤ n' ∧ (run n').core.GoesOn (acts n') t

/-- `init` returns. -/
def InitEnds (run : Nat → Linked) (acts : Nat → Act) (o : Nat) : Prop :=
  ∀ n t, (run n).core.StartsInit (acts n) t o → ∃ n', n < n' ∧ (run n').core.EndsInit (acts n') t o

namespace Trace

variable {run : Nat → Linked} {acts : Nat → Act} {len o : Nat}

section Safety

variable (trace : Trace policy fuel run acts len)

include trace

theorem reach : ∀ {n}, n ≤ len → Reachable policy fuel (run n) := by
  intro n
  induction n with
  | zero =>
    intro _
    rw [trace.start]
    exact .init
  | succ n ih => exact fun short => (ih (by omega)).step (trace.step n short)

variable {n : Nat}

theorem onceStep (short : n < len) : OnceStep (run n).core (acts n) (run (n + 1)).core := by
  obtain ⟨a, reached, sim⟩ := (trace.reach (Nat.le_of_lt short)).sim
  obtain ⟨a', done, sim'⟩ := exec_sim sim reached.inv.ready (trace.step n short)
  rw [sim.core, sim'.core]
  exact reached.onceStep done

/-- A control that was not fresh never is again, and one that is done stays so. -/
theorem later {m : Nat} (before : n ≤ m) (short : m ≤ len) :
    ((run n).core.onceState o ≠ .fresh → (run m).core.onceState o ≠ .fresh) ∧
      ((run n).core.onceState o = .done → (run m).core.onceState o = .done) := by
  induction m, before using le_induction with
  | base => exact ⟨id, id⟩
  | succ m before ih =>
    obtain ⟨begun, done⟩ := ih (by omega)
    rcases (trace.onceStep short).later o with same | ⟨fresh, running⟩ | final
    · rw [same]
      exact ⟨begun, done⟩
    · refine ⟨fun was => absurd fresh (begun was), fun was => ?_⟩
      cases fresh.symm.trans (done was)
    · rw [final]
      exact ⟨fun _ => by simp, fun _ => rfl⟩

/-- Who is inside `init` has started it. -/
theorem started : ∀ {n}, n ≤ len → o ∈ (run n).core.initing t → ∃ m, m < n ∧ (run m).core.StartsInit (acts m) t o := by
  intro n
  induction n with
  | zero =>
    intro _ on
    rw [trace.start] at on
    cases on
  | succ n ih =>
    intro short on
    rcases (trace.onceStep short).inside on with old | starts
    · obtain ⟨m, before, starts⟩ := ih (by omega) old
      exact ⟨m, by omega, starts⟩
    · exact ⟨n, by omega, starts⟩

theorem knows (short : n ≤ len) (head : ((run n).core.code t).head? = some i) : i.Knows (run n).core t := by
  obtain ⟨a, reached, sim⟩ := (trace.reach short).sim
  rw [sim.core] at head ⊢
  exact reached.once.knows head

theorem busy (short : n ≤ len) (on : o ∈ (run n).core.initing t) : (run n).core.onceState o = .running := by
  obtain ⟨a, reached, sim⟩ := (trace.reach short).sim
  rw [sim.core] at on ⊢
  exact reached.once.busy on

/-- A control that is not fresh was started. -/
theorem begun : ∀ {n}, n ≤ len → (run n).core.onceState o ≠ .fresh →
    ∃ m t, m < n ∧ (run m).core.StartsInit (acts m) t o := by
  intro n
  induction n with
  | zero =>
    intro _ begun
    rw [trace.start] at begun
    exact absurd rfl begun
  | succ n ih =>
    intro short begun
    rcases (trace.onceStep short).state o with same | ⟨t, starts⟩ | ⟨⟨t, _, head⟩, _⟩
    · rw [same] at begun
      obtain ⟨m, t, before, starts⟩ := ih (by omega) begun
      exact ⟨m, t, by omega, starts⟩
    · exact ⟨n, t, by omega, starts⟩
    · have mine : ((run n).core.initing t).head? = some o := trace.knows (by omega) head
      obtain ⟨m, before, starts⟩ := trace.started (by omega) (mem_of_head? mine)
      exact ⟨m, t, by omega, starts⟩

/-- A thread about to mark a control done has come back from `init`. -/
theorem finishing : ∀ {n}, n ≤ len → ((run n).core.code t).head? = some (.onceDone o) →
    ∃ m, m < n ∧ (run m).core.EndsInit (acts m) t o := by
  intro n
  induction n with
  | zero =>
    intro _ head
    rw [trace.start] at head
    cases head
  | succ n ih =>
    intro short head
    rcases (trace.onceStep short).called head with old | ends
    · obtain ⟨m, before, ends⟩ := ih (by omega) old
      exact ⟨m, by omega, ends⟩
    · exact ⟨n, by omega, ends⟩

/-- A control is done after its `init` has returned. -/
theorem ended : ∀ {n}, n ≤ len → (run n).core.onceState o = .done →
    ∃ m t, m < n ∧ (run m).core.EndsInit (acts m) t o := by
  intro n
  induction n with
  | zero =>
    intro _ done
    rw [trace.start] at done
    cases done
  | succ n ih =>
    intro short done
    have step := trace.onceStep short
    rcases step.state o with same | ⟨t, starts⟩ | ⟨⟨t, _, head⟩, _⟩
    · obtain ⟨m, t, before, ends⟩ := ih (by omega) (same.symm.trans done)
      exact ⟨m, t, by omega, ends⟩
    · cases (step.starts starts).symm.trans done
    · obtain ⟨m, before, ends⟩ := trace.finishing (by omega) head
      exact ⟨m, t, by omega, ends⟩

theorem inside_of_ends (short : n < len) (ends : (run n).core.EndsInit (acts n) t o) : o ∈ (run n).core.initing t := by
  obtain ⟨c, called, here⟩ := ends
  exact mem_of_head? (eq_of_beq ((trace.onceStep short).calls called here).2)

/-- A step that returns from `pthread_once` finds the control done. -/
theorem done_of_returns (short : n ≤ len) (returns : (run n).core.ReturnsOnce (acts n) t o) :
    (run n).core.onceState o = .done := by
  obtain ⟨_, owned, ⟨head, outside⟩ | head⟩ := returns
  · have known : (run n).core.onceState o = .done ∨ o ∈ (run n).core.initing t := trace.knows short head
    exact known.resolve_right outside
  · exact trace.knows (i := .ret (.onceInitReturn o) owned) short head

theorem starts_once {m : Nat} {u : Tid} (short : m < len) (before : n ≤ m)
    (starts : (run n).core.StartsInit (acts n) t o) (again : (run m).core.StartsInit (acts m) u o) : n = m ∧ t = u := by
  rcases Nat.lt_or_eq_of_le before with less | rfl
  · have running := (trace.onceStep (by omega)).starts starts
    have begun := (trace.later (o := o) less (by omega)).1 (by rw [running]; simp)
    exact absurd again.2.2 begun
  · obtain ⟨⟨c, run, here, _⟩, _⟩ := starts
    obtain ⟨⟨c', run', here', _⟩, _⟩ := again
    cases run.symm.trans run'
    cases here.symm.trans here'
    exact ⟨rfl, rfl⟩

/-- **Every run is safe**, whatever its client does. -/
theorem safe (o : Nat) : OnceSafe run acts len o := by
  refine ⟨fun {n m t u} short short' starts again => ?_, fun {n t} short returns => ?_, fun {n} short done => ?_⟩
  · rcases Nat.le_total n m with before | before
    · exact trace.starts_once short' before starts again
    · obtain ⟨same, mine⟩ := trace.starts_once short before again starts
      exact ⟨same.symm, mine.symm⟩
  · have done := trace.done_of_returns (Nat.le_of_lt short) returns
    obtain ⟨m, u, before, ends⟩ := trace.ended (Nat.le_of_lt short) done
    obtain ⟨k, first, starts⟩ := trace.started (by omega) (trace.inside_of_ends (by omega) ends)
    exact ⟨k, m, u, first, before, starts, ends⟩
  · obtain ⟨a, reached, sim⟩ := (trace.reach short).sim
    have chain := sim.reps.chain (.once o)
    rw [sim.core] at done
    cases waiters : a.q (.once o) with
    | nil =>
      rw [waiters] at chain
      exact chain
    | cons t ts =>
      have running := reached.once.parked (t := t) (o := o) (by rw [waiters]; exact mem_cons_self)
      cases done.symm.trans running

end Safety

section Liveness

variable (trace : ∀ len, Trace policy fuel run acts len) (fair : FairCalls run acts)

include trace

theorem anyStep (n : Nat) : OnceStep (run n).core (acts n) (run (n + 1)).core :=
  (trace (n + 1)).onceStep (lt_succ_self n)

theorem done_later {n m : Nat} (before : n ≤ m) (done : (run n).core.onceState o = .done) :
    (run m).core.onceState o = .done :=
  ((trace m).later before (Nat.le_refl m)).2 done

include fair

/-- A thread that can go on with its code does, and has not lost any of it till then. -/
theorem goes {n : Nat} (head : ((run n).core.code t).head? = some i) (inside : i.once ≠ none)
    (ready : ∀ o, i = .onceWait o → (run n).core.onceState o = .done) :
    ∃ n', n ≤ n' ∧ (run n').core.GoesOn (acts n') t ∧ (run n').core.code t = (run n).core.code t := by
  classical
  have some : (run n).core.code t ≠ [] := by
    intro none
    rw [none] at head
    cases head
  have able : (run n).core.state t = .runnable ∨ (run n).core.state t = .running := by
    obtain ⟨a, reached, sim⟩ := ((trace n).reach (Nat.le_refl n)).sim
    rw [sim.core] at head ready ⊢
    exact reached.able head inside ready
  have sometime := fair n t able some
  obtain ⟨after, goes⟩ := Nat.find_spec sometime
  refine ⟨Nat.find sometime, after, goes, ?_⟩
  -- the first such step is the thread's first step at all
  have still : ∀ m, n ≤ m → m ≤ Nat.find sometime → (run m).core.code t = (run n).core.code t := by
    intro m before
    induction m, before using le_induction with
    | base => exact fun _ => rfl
    | succ m before ih =>
      intro short
      have same := ih (by omega)
      have rests : ¬ (run m).core.GoesOn (acts m) t := fun goes => Nat.find_min sometime short ⟨before, goes⟩
      rw [(anyStep trace m).stays (by rw [same]; exact some) rests, same]
  exact still _ after (Nat.le_refl _)

/-- A thread past a control that is done returns. -/
theorem past_returns {n : Nat} {owned : Bool} (done : (run n).core.onceState o = .done)
    (code : (run n).core.code t = [.ret (.once o) owned]) : ∃ n', n ≤ n' ∧ (run n').core.ReturnsOnce (acts n') t o := by
  obtain ⟨n', after, goes, same⟩ := goes trace fair (by rw [code]; rfl) (by simp [Instr.once]) (by simp)
  refine ⟨n', after, goes, owned, .inl ⟨by rw [same, code]; rfl, fun on => ?_⟩⟩
  cases ((trace n').busy (Nat.le_refl n') on).symm.trans (done_later trace after done)

/-- A thread whose `init` has returned marks the control done and returns. -/
theorem ends_returns {n : Nat} (ends : (run n).core.EndsInit (acts n) t o) :
    ∃ m n', n < m ∧ (run m).core.onceState o = .done ∧ m ≤ n' ∧ (run n').core.ReturnsOnce (acts n') t o := by
  obtain ⟨c, called, here⟩ := ends
  have code := ((anyStep trace n).calls called here).1
  have head : ((run (n + 1)).core.code t).head? = some (.onceDone o) := by
    rw [code]
    rfl
  obtain ⟨m, after, ran, same⟩ := goes trace fair head (by simp [Instr.once]) (by simp)
  obtain ⟨done, owned, left⟩ := (anyStep trace m).finishes ran (by rw [same]; exact head)
  obtain ⟨n', after', ran, same⟩ := goes trace fair (t := t) (n := m + 1) (by rw [left]; rfl) (by simp [Instr.once])
    (by simp)
  exact ⟨m + 1, n', by omega, done, after', ran, owned, .inr (by rw [same, left]; rfl)⟩

variable (terminates : InitEnds run acts o)

include terminates

/-- A control that was started is done in the end. -/
theorem done_finally {n : Nat} (begun : (run n).core.onceState o ≠ .fresh) :
    ∃ m, n ≤ m ∧ (run m).core.onceState o = .done := by
  obtain ⟨k, t, _, starts⟩ := (trace n).begun (Nat.le_refl n) begun
  obtain ⟨k', _, ends⟩ := terminates k t starts
  obtain ⟨m, _, _, done, _⟩ := ends_returns trace fair ends
  exact ⟨max n m, Nat.le_max_left _ _, done_later trace (Nat.le_max_right _ _) done⟩

/-- **A waiter returns.** -/
theorem waits_returns {n : Nat} (head : ((run n).core.code t).head? = some (.onceWait o)) :
    ∃ n', n ≤ n' ∧ (run n').core.ReturnsOnce (acts n') t o := by
  have begun : (run n).core.onceState o ≠ .fresh := (trace n).knows (Nat.le_refl n) head
  obtain ⟨m, later, done⟩ := done_finally trace fair terminates begun
  -- until then the waiter has left the loop, or is still in it
  have stays : ∀ m, n ≤ m → ((run m).core.code t).head? = some (.onceWait o) ∨ ∃ k owned, n ≤ k ∧
      (run k).core.onceState o = .done ∧ (run k).core.code t = [.ret (.once o) owned] := by
    intro m before
    induction m, before using le_induction with
    | base => exact .inl head
    | succ m before ih =>
      rcases ih with head | left
      · by_cases ran : (run m).core.GoesOn (acts m) t
        · rcases (anyStep trace m).waits ran head with ⟨_, same⟩ | ⟨done, owned, left⟩
          · exact .inl (by rw [same]; exact head)
          · exact .inr ⟨m + 1, owned, by omega, done_later trace (le_succ m) done, left⟩
        · refine .inl ?_
          rw [(anyStep trace m).stays (fun none => ?_) ran]
          · exact head
          · rw [none] at head
            cases head
      · exact .inr left
  have finish : ∃ k owned, n ≤ k ∧ (run k).core.onceState o = .done ∧ (run k).core.code t = [.ret (.once o) owned] := by
    rcases stays m later with head | left
    · obtain ⟨k, after, ran, same⟩ := goes trace fair head (by simp [Instr.once]) fun o' same => by
        cases same
        exact done
      have still := done_later trace after done
      rcases (anyStep trace k).waits ran (by rw [same]; exact head) with ⟨undone, _⟩ | ⟨_, owned, left⟩
      · exact absurd still undone
      · exact ⟨k + 1, owned, by omega, done_later trace (le_succ k) still, left⟩
    · exact left
  obtain ⟨k, owned, after, done, left⟩ := finish
  obtain ⟨n', after', returns⟩ := past_returns trace fair done left
  exact ⟨n', by omega, returns⟩

/-- **Every caller returns.** -/
theorem call_returns {n : Nat} {c : Cpu} (called : acts n = .call c (.once o))
    (here : (run n).core.current c = some t) : ∃ n', n < n' ∧ (run n').core.ReturnsOnce (acts n') t o := by
  have code := ((anyStep trace n).calls called here).1
  have head : ((run (n + 1)).core.code t).head? = some (.onceEnter o) := by
    rw [code]
    rfl
  obtain ⟨m, after, ran, same⟩ := goes trace fair head (by simp [Instr.once]) (by simp)
  rcases (anyStep trace m).enters ran (by rw [same]; exact head) with waits | ⟨starts | done, owned, left⟩
  · obtain ⟨n', after', returns⟩ := waits_returns trace fair terminates waits
    exact ⟨n', by omega, returns⟩
  · obtain ⟨k, after', ends⟩ := terminates m t starts
    obtain ⟨k', n', later, _, later', returns⟩ := ends_returns trace fair ends
    exact ⟨n', by omega, returns⟩
  · obtain ⟨n', after', returns⟩ := past_returns trace fair (done_later trace (le_succ m) done) left
    exact ⟨n', by omega, returns⟩

end Liveness

end Trace

/-- **`pthread_once` is exactly-once.** On any number of CPUs, for any client and any schedule: in every run `init`
is called at most once, every call returns after it has returned, and no waiter stays on the queue of a control
that is done; and in a fair run in which `init` returns, so does every caller. -/
theorem once_exactly (policy : Policy) (fuel : Nat) (run : Nat → Linked) (acts : Nat → Act) (o : Nat) :
    (∀ len, Trace policy fuel run acts len → OnceSafe run acts len o) ∧
      ((∀ len, Trace policy fuel run acts len) → FairCalls run acts → InitEnds run acts o →
        ∀ n c t, acts n = .call c (.once o) → (run n).core.current c = some t →
          ∃ n', n < n' ∧ (run n').core.ReturnsOnce (acts n') t o) :=
  ⟨fun _ trace => trace.safe o, fun trace fair terminates _ _ _ called here =>
    Trace.call_returns trace fair terminates called here⟩

/-! ## A run of the boot thread -/

/-- The boot thread alone with a control. -/
structure Solo where
  code : List Instr := []
  state : OnceState := .done
  initing : List Nat := []

structure Solo.At (d : Solo) (w : Linked) : Prop where
  current : w.core.current 0 = some (.pool 0)
  lock : w.core.lock = none
  resume : w.core.resume (.pool 0) = .running
  gil : w.core.gilLocked = true ∧ w.core.gilOwner = some (.pool 0)
  code : w.core.code (.pool 0) = d.code
  state : w.core.onceState 3 = d.state
  initing : w.core.initing (.pool 0) = d.initing
  waiters : w.q.head (.once 3) = none ∧ w.q.head .run = none
  others : ∀ t, t ≠ .pool 0 → w.core.code t = []

/-- The boot thread calls `pthread_once`, is called back and returns. -/
def soloRound : List (Solo × Act) :=
  [({ state := .fresh }, .call 0 (.once 3)), ({ state := .fresh, code := [.onceEnter 3, .ret (.once 3) true] }, .run 0),
   ({ state := .running, initing := [3], code := [.ret (.once 3) true] }, .run 0),
   ({ state := .running, initing := [3] }, .call 0 (.onceInitReturn 3)),
   ({ state := .running, initing := [3], code := [.onceDone 3, .ret (.onceInitReturn 3) true] }, .run 0),
   ({ code := [.ret (.onceInitReturn 3) true] }, .run 0)]

/-- And then the timer fires. -/
def solo (n : Nat) : Solo × Act := soloRound.getD n ({}, .preempt 0)

theorem solo_late {n : Nat} (late : ¬ n < 6) : solo n = ({}, .preempt 0) := by
  rw [solo, getD, getElem?_eq_none (Nat.le_of_not_lt late)]
  rfl

namespace Solo.At

variable {d : Solo} {w : Linked} (at_ : d.At w)

include at_

theorem call {k : Call} (code : d.code = []) (fits : k.fits w.core (.pool 0) = true) (known : k.known = true) :
    ∃ w', exec anyClient 17 (.call 0 k) w = some w' ∧
      ({ d with code := k.body w.core.hist.gen (w.core.entry (.pool 0)) ++ [.ret k true] } : Solo).At w' := by
  refine ⟨_, Moves.exec_eq (.call at_.current (by simp) at_.resume (at_.code.trans code) fits rfl), ?_⟩
  obtain ⟨rc, joins, core⟩ := begin_eq w.core (.pool 0) k
  have owns : w.core.ownsGil (.pool 0) = true := by simp [Core.ownsGil, at_.gil]
  rw [World.mod, core]
  refine ⟨at_.current, at_.lock, at_.resume, at_.gil, ?_, at_.state, at_.initing, at_.waiters, fun t ne => ?_⟩
  · show update w.core.code (.pool 0) (w.core.callCode (.pool 0) k) (.pool 0) = _
    rw [update_self, Core.callCode, if_pos known, owns]
  · exact (update_of_ne ne _ _).trans (at_.others t ne)

theorem ret {k : Call} {owned : Bool} (code : d.code = [.ret k owned]) :
    ∃ w', exec anyClient 17 (.run 0) w = some w' ∧ ({ d with code := [] } : Solo).At w' := by
  refine ⟨_, Moves.exec_eq (.skip at_.current at_.resume (at_.code.trans code) rfl), ?_⟩
  refine ⟨at_.current, at_.lock, at_.resume, at_.gil, ?_, at_.state, at_.initing, at_.waiters, fun t ne => ?_⟩
  · show update w.core.code (.pool 0) [] (.pool 0) = []
    rw [update_self]
  · exact (update_of_ne ne _ _).trans (at_.others t ne)

variable {rest : List Instr}

theorem leave {f : Core → Core} {state : OnceState} {initing : List Nat} (current : (f w.core).current = w.core.current)
    (gil : (f w.core).gilLocked = w.core.gilLocked ∧ (f w.core).gilOwner = w.core.gilOwner)
    (code : (f w.core).code = w.core.code) (control : (f w.core).onceState 3 = state)
    (inside : (f w.core).initing (.pool 0) = initing) :
    (⟨rest, state, initing⟩ : Solo).At ((w.mod f).leave (.pool 0) rest) := by
  refine ⟨?_, rfl, by simp, ?_, by simp, control, inside, at_.waiters, fun t ne => ?_⟩
  · show (f w.core).current 0 = _
    rw [current]
    exact at_.current
  · show (f w.core).gilLocked = true ∧ (f w.core).gilOwner = some (.pool 0)
    rw [gil.1, gil.2]
    exact at_.gil
  · show update (f w.core).code (.pool 0) rest t = []
    rw [update_of_ne ne, code]
    exact at_.others t ne

theorem enters (code : d.code = .onceEnter 3 :: rest) (fresh : d.state = .fresh) :
    ∃ w', exec anyClient 17 (.run 0) w = some w' ∧ (⟨rest, .running, 3 :: d.initing⟩ : Solo).At w' := by
  refine ⟨_, Moves.exec_eq (.section_ at_.current (.inl ⟨at_.resume, at_.lock, rfl⟩) (at_.code.trans code) rfl), ?_⟩
  rw [pthreadOnceEnter, at_.state, fresh]
  refine at_.leave rfl ⟨rfl, rfl⟩ rfl ?_ ?_
  · simp
  · simp [at_.initing]

theorem rests : ∃ w', exec anyClient 17 (.preempt 0) w = some w' ∧ d.At w' := by
  refine ⟨_, Moves.exec_eq (.preempt at_.current at_.lock at_.resume), ?_⟩
  have empty : QueueStore.nonempty w.q .run = false := by
    show (w.q.head .run).isSome = false
    rw [at_.waiters.2]
    rfl
  rw [canbootSchedPreempt, if_neg (by rw [empty]; decide)]
  exact at_

theorem finishes (code : d.code = .onceDone 3 :: rest) :
    ∃ w', exec anyClient 17 (.run 0) w = some w' ∧ (⟨rest, .done, d.initing.tail⟩ : Solo).At w' := by
  have none : QueueStore.pop w.q (.once 3) = (none, w.q) := by
    show w.q.pop (.once 3) = _
    rw [Links.pop, at_.waiters.1]
  have done : pthreadOnceDone 17 3 (.pool 0) rest w =
      some ((w.mod fun s => s.finishOnce 3 (.pool 0)).leave (.pool 0) rest) := by
    simp only [pthreadOnceDone, canbootSchedWakeAll, World.mod, none, Option.map_some]
  refine ⟨_, Moves.exec_eq (.section_ at_.current (.inl ⟨at_.resume, at_.lock, rfl⟩) (at_.code.trans code) done), ?_⟩
  refine at_.leave rfl ⟨rfl, rfl⟩ rfl ?_ ?_
  · simp
  · simp [at_.initing]

end Solo.At

/-- A turn of the boot thread's run. -/
theorem solo_next {n : Nat} {w : Linked} (at_ : (solo n).1.At w) :
    ∃ w', exec anyClient 17 (solo n).2 w = some w' ∧ (solo (n + 1)).1.At w' := by
  by_cases early : n < 6
  · interval_cases n
    · exact at_.call (k := .once 3) rfl rfl rfl
    · exact at_.enters rfl rfl
    · exact at_.ret rfl
    · exact at_.call (k := .onceInitReturn 3) rfl (by rw [Call.fits, at_.initing]; rfl) rfl
    · exact at_.finishes rfl
    · exact at_.ret rfl
  · rw [solo_late (by omega : ¬ n + 1 < 6)]
    rw [solo_late early] at at_ ⊢
    exact at_.rests

theorem once_exactly_solo : ∃ (run : Nat → Linked) (acts : Nat → Act), (∀ len, Trace anyClient 17 run acts len) ∧
    FairCalls run acts ∧ InitEnds run acts 3 ∧ acts 0 = .call 0 (.once 3) ∧ OnceSafe run acts 6 3 ∧
    ∃ n, 0 < n ∧ (run n).core.ReturnsOnce (acts n) (.pool 0) 3 := by
  have start : (solo 0).1.At canbootSchedInit := by
    exact ⟨rfl, rfl, rfl, ⟨rfl, rfl⟩, rfl, rfl, rfl, ⟨rfl, rfl⟩, fun _ _ => rfl⟩
  obtain ⟨run, first, steps⟩ := exists_run (fun n w w' => exec anyClient 17 (solo n).2 w = some w')
    (fun n w => (solo n).1.At w) start fun n w at_ => solo_next at_
  let acts : Nat → Act := fun n => (solo n).2
  have trace : ∀ len, Trace anyClient 17 run acts len := fun len => ⟨first, fun n _ => (steps n).2⟩
  have fair : FairCalls run acts := by
    intro n t _ code
    have boot : t = .pool 0 := by
      by_contra ne
      exact code ((steps n).1.others t ne)
    subst boot
    have own := (steps n).1.code
    rw [own] at code
    refine ⟨n, Nat.le_refl n, 0, ?_, (steps n).1.current, by rw [(steps n).1.resume]; simp⟩
    by_cases early : n < 6
    · interval_cases n <;> first | rfl | exact absurd rfl code
    · rw [solo_late early] at code
      exact absurd rfl code
  have terminates : InitEnds run acts 3 := by
    intro n t starts
    obtain ⟨⟨c, ran, here, _⟩, _, fresh⟩ := starts
    have early : n < 6 := by
      by_contra late
      have done := (steps n).1.state
      rw [solo_late late] at done
      cases fresh.symm.trans done
    have second : n = 1 := by
      have control := fresh.symm.trans (steps n).1.state
      interval_cases n
      · cases ran
      · rfl
      all_goals cases control
    subst second
    cases ran
    cases here.symm.trans (steps 1).1.current
    exact ⟨3, by omega, 0, rfl, (steps 3).1.current⟩
  have both := once_exactly anyClient 17 run acts 3
  exact ⟨run, acts, trace, fair, terminates, rfl, both.1 6 (trace 6),
    both.2 trace fair terminates 0 0 (.pool 0) rfl (steps 0).1.current⟩

end CanBoot.Sched
