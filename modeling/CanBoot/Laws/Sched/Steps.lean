import CanBoot.Laws.Sched.Invariant

/-!
# The steps of a run, by what they can change

A step is a section, the beginning of a call, a section skipped without the lock, or a switch (`Step`). Only
sections touch locks, wait queues and other threads, and a section says by `Did` what it did.
-/

namespace CanBoot.Sched

open Function (update update_apply update_eq_self update_of_ne update_self)

/-- A thread that has not ended. -/
def Core.Alive (s : Core) (t : Tid) : Prop := s.state t ≠ .exited ∧ s.state t ≠ .free

/-! ## Switches -/

/-- A step that only moves threads between the run queue and the CPUs. -/
structure Calm (a a' : World Lists) : Prop where
  waits : ∀ k, k ≠ .run → a'.q k = a.q k
  core : ∃ st cur lk rs, a'.core = { a.core with state := st, current := cur, lock := lk, resume := rs }
  resume : ∀ t, a'.core.resume t = a.core.resume t ∨ (a.core.resume t = .running ∨ a.core.resume t = .unlock) ∧
      (a'.core.resume t = .running ∨ a'.core.resume t = .unlock)
  alive : ∀ t, a.core.Alive t → a'.core.Alive t
  ended : ∀ i, ¬ a.core.Alive (.pool i) → a'.core.state (.pool i) = a.core.state (.pool i)

variable {a : World Lists}

theorem Placed.alive {loc : Nat → Option Place} (placed : Placed loc a.core.state a.q a.core.current) {i : Nat}
    : a.core.Alive (.pool i) ↔ loc i ≠ none := by
  constructor
  · intro alive off
    exact (placed.off off).elim alive.1 alive.2
  · intro there
    refine ⟨fun ended => there (placed.nowhere (.inl ended)), fun ended => there (placed.nowhere (.inr ended))⟩

variable {c : Cpu}

theorem Inv.alive (inv : Inv a) {i : Nat} (here : a.core.current c = some (.pool i)) : a.core.Alive (.pool i) := by
  obtain ⟨loc, placed⟩ := inv.placed
  rw [placed.alive, placed.cpu.mp here]
  simp

theorem Inv.alive_queued (inv : Inv a) {k : QueueId} {i : Nat} (on : .pool i ∈ a.q k) : a.core.Alive (.pool i) := by
  obtain ⟨loc, placed⟩ := inv.placed
  rw [placed.alive, placed.queue.mp on]
  simp

variable {self : Tid}

/-- A switch to the next thread, when the CPU's thread can be resumed and those on the run queue live. -/
theorem Calm.of_reschedule {b : World Lists} (runs : a.core.resume self = .running)
    (mine : ∀ i, self = .pool i → a.core.Alive (.pool i)) (queued : ∀ i, .pool i ∈ b.q .run → a.core.Alive (.pool i))
    (waits : ∀ k, k ≠ .run → b.q k = a.q k) (core : b.core = a.core.setResume self .unlock ∨
      b.core = (a.core.setResume self .unlock).setState self .runnable) : Calm a (reschedule c b) := by
  have state : ∀ t, (reschedule c b).core.state t = a.core.state t ∨
      ((reschedule c b).core.state t = .runnable ∧ t = self) ∨
      ((reschedule c b).core.state t = .running ∧ t = b.next c) := by
    intro t
    rw [reschedule_core]
    by_cases next : t = b.next c
    · exact .inr (.inr ⟨by rw [next]; exact update_self .., next⟩)
    · by_cases me : t = self
      · subst me
        rcases core with same | same
        · exact .inl (by simp [same, next])
        · exact .inr (.inl (by simp [same, next]))
      · refine .inl ?_
        rcases core with same | same <;> simp [same, next, me]
  refine ⟨fun k ne => ?_, ?_, fun t => ?_, fun t alive => ?_, fun i dead => ?_⟩
  · rw [reschedule_q, update_of_ne ne]
    exact waits k ne
  · rw [reschedule_core]
    rcases core with same | same <;> rw [same] <;> exact ⟨_, _, _, _, rfl⟩
  · have resume : (reschedule c b).core.resume = update a.core.resume self .unlock := by
      rw [reschedule_core]
      rcases core with same | same <;> rw [same] <;> rfl
    rw [resume]
    by_cases me : t = self
    · subst me
      exact .inr ⟨.inl runs, .inr (update_self ..)⟩
    · exact .inl (update_of_ne me _ _)
  · rcases state t with same | ⟨new, _⟩ | ⟨new, _⟩
    · rw [Core.Alive, same]
      exact alive
    · rw [Core.Alive, new]
      simp
    · rw [Core.Alive, new]
      simp
  · rcases state (.pool i) with same | ⟨_, me⟩ | ⟨_, next⟩
    · exact same
    · exact absurd (mine i me.symm) dead
    · refine absurd (queued i ?_) dead
      rw [World.next] at next
      cases full : b.q .run with
      | nil =>
        rw [full] at next
        cases next
      | cons u us =>
        rw [full] at next
        have first : Tid.pool i = u := next
        rw [first]
        exact List.mem_cons_self

theorem Calm.refl (a : World Lists) : Calm a a :=
  ⟨fun _ _ => rfl, ⟨_, _, _, _, rfl⟩, fun _ => .inl rfl, fun _ alive => alive, fun _ _ => rfl⟩

section Switches

variable {a : World Lists} (inv : Inv a) {c : Cpu} {self : Tid} (here : a.core.current c = some self)
  (runs : a.core.resume self = .running)

include inv here runs

/-- A switch away from a thread, which goes behind the run queue or not. -/
theorem Calm.switches (stays : Prop) [Decidable stays] : let w := a.mod fun s => s.setResume self .unlock
    Calm a (if stays then reschedule c ((w.mod fun s => s.setState self .runnable).push .run self)
      else reschedule c w) := by
  have mine : ∀ i, self = .pool i → a.core.Alive (.pool i) := fun i same => inv.alive (same ▸ here)
  split
  · refine Calm.of_reschedule runs mine (fun i on => ?_) (fun k ne => ?_) (.inr rfl)
    · have pushed : .pool i ∈ update a.q .run (a.q .run ++ [self]) .run := on
      rcases mem_pushed pushed with old | ⟨same, _⟩
      · exact inv.alive_queued old
      · exact mine i same.symm
    · exact update_of_ne ne _ _
  · exact Calm.of_reschedule runs mine (fun i on => inv.alive_queued on) (fun _ _ => rfl) (.inl rfl)

theorem Calm.yields : Calm a (canbootSchedYield c self a) := Calm.switches inv here runs _

theorem Calm.preempts : Calm a (canbootSchedPreempt c self a) := by
  rw [canbootSchedPreempt]
  split
  · exact Calm.switches inv here runs _
  · exact Calm.refl a

end Switches

/-- A thread that was switched in releases the lock. -/
theorem Calm.unlocks (resume : a.core.resume self = .unlock) : Calm a (a.leave self (a.core.code self)) := by
  refine ⟨fun _ _ => rfl, ⟨a.core.state, a.core.current, none, update a.core.resume self .running, ?_⟩,
    fun t => ?_, fun _ alive => alive, fun _ _ => rfl⟩
  · simp only [World.leave, World.mod, Core.leave, update_eq_self]
  · by_cases me : t = self
    · subst me
      exact .inr ⟨.inr resume, .inl (update_self ..)⟩
    · exact .inl (update_of_ne me _ _)

theorem Calm.idles (inv : Inv a) (resume : a.core.resume (.idle c) = .running) : Calm a (idleTurn c a) :=
  Calm.of_reschedule resume (fun _ same => nomatch same) (fun _ on => inv.alive_queued on) (fun _ _ => rfl) (.inl rfl)

theorem Calm.online (a : World Lists) (c : Cpu) : Calm a (canbootSchedApOnline c a) := by
  refine ⟨fun _ _ => rfl, ⟨_, _, _, _, rfl⟩, fun _ => .inl rfl, fun t alive => ?_, fun i _ => ?_⟩
  · by_cases me : t = .idle c
    · subst me
      constructor <;> simp [canbootSchedApOnline]
    · simpa [Core.Alive, canbootSchedApOnline, update_of_ne me] using alive
  · simp [canbootSchedApOnline]

/-! ## Sections and threads that live -/

variable {a' : World Lists} {i : Instr} {rest : List Instr}

theorem Did.alive {t : Tid} (did : Did a c self rest i a') (ne : t ≠ self) (alive : a.core.Alive t)
    : a'.core.Alive t := by
  obtain ⟨running, there⟩ := alive
  rw [Core.Alive]
  cases did with
  | yield =>
    rw [canbootSchedYield]
    split <;> simp [update_apply] <;> grind
  | exit pool =>
    subst pool
    rw [exitSwitch]
    split <;> simp [update_apply] <;> grind
  | _ => simp [update_apply]; grind

/-- A section's own thread goes on, or has ended for good. -/
theorem Did.goesOn (did : Did a c self rest i a') (alive : a.core.Alive self) :
    a'.core.Alive self ∨ (∃ v via, i = .threadExit v via) ∧ a'.core.code self = [] ∧ a'.core.resume self = .gone := by
  obtain ⟨running, there⟩ := alive
  cases did with
  | exit pool =>
    subst pool
    refine .inr ⟨⟨_, _, rfl⟩, ?_⟩
    rw [exitSwitch]
    split <;> simp
  | yield =>
    refine .inl ?_
    rw [Core.Alive, canbootSchedYield]
    split <;> simp [update_apply] <;> grind
  | _ => refine .inl ?_; rw [Core.Alive]; simp [update_apply]; grind

def Instr.isRet : Instr → Bool
  | .ret _ _ => true
  | _ => false

/-- What a section leaves of its own thread's code. -/
theorem Did.own (did : Did a c self rest i a') (alive : a.core.Alive self) (code : a.core.code self = i :: rest) :
    a'.core.code self = rest ∨ (a'.core.code self = [] ∧ a'.core.resume self = .gone) ∨
      (a'.core.code self = i :: rest ∨ ∃ o, i = .onceEnter o ∧ a'.core.code self = .onceWait o :: rest) ∧
        a'.core.resume self = .retest := by
  cases did with
  | create slot free =>
    simp
  | yield =>
    rw [canbootSchedYield]
    split <;> simp
  | exit pool =>
    subst pool
    rw [exitSwitch]
    split <;> simp
  | _ => simp [code]

/-- A section is no return of a call. -/
theorem Did.call (did : Did a c self rest i a') : i.isRet = false := by
  cases did with
  | gilRelease which | gilTake which | gilPark which =>
    cases i <;> simp [Instr.acquires, Instr.releases] at which <;> rfl
  | oncePast which => rcases which with rfl | rfl <;> rfl
  | _ => rfl

/-! ## Calls -/

/-- The code of a thread that begins a call. -/
def Core.callCode (s : Core) (t : Tid) (k : Call) : List Instr :=
  if k.known then k.body s.hist.gen (s.entry t) ++ [.ret k (s.ownsGil t)] else s.code t

/-- A call changes its caller's code, and what is counted and returned. -/
theorem begin_eq (s : Core) (t : Tid) (k : Call) : ∃ rc joins, s.begin t k = { s with
    code := update s.code t (s.callCode t k)
    rc := rc
    hist := { s.hist with joins := joins } } := by
  rw [Core.begin, Core.callCode]
  split
  · cases k.joined with
    | none => exact ⟨_, s.hist.joins, rfl⟩
    | some i => exact ⟨_, _, rfl⟩
  · rw [update_eq_self]
    exact ⟨_, s.hist.joins, rfl⟩

/-! ## Steps -/

/-- A step of a run. -/
inductive Step (policy : Policy) (a a' : World Lists) : Prop
  | section_ {c : Cpu} {i : Instr} {rest : List Instr} (j : Nat) (here : a.core.current c = some (.pool j))
      (enters : a.Enters c (.pool j) i) (code : a.core.code (.pool j) = i :: rest)
      (did : Did a c (.pool j) rest i a')
  | call {c : Cpu} (j : Nat) (k : Call) (here : a.core.current c = some (.pool j))
      (resume : a.core.resume (.pool j) = .running) (code : a.core.code (.pool j) = [])
      (fits : k.fits a.core (.pool j) = true) (allowed : policy a.core (.pool j) k = true)
      (next : a' = a.mod fun s => s.begin (.pool j) k)
  | skip {c : Cpu} {i : Instr} {rest : List Instr} (j : Nat) (here : a.core.current c = some (.pool j))
      (resume : a.core.resume (.pool j) = .running) (code : a.core.code (.pool j) = i :: rest)
      (skips : i.skips (a.core.hadGil (.pool j)) = true) (next : a' = a.mod fun s => s.setCode (.pool j) rest)
  | calm (calm : Calm a a')

variable {policy : Policy} {fuel : Nat} {act : Act}

theorem exec_step (inv : Inv a) (done : exec policy fuel act a = some a') : Step policy a a' := by
  cases Moves.of_exec done with
  | @call c k self here user resume code fits allowed =>
    cases self with
    | pool j => exact .call j k here resume code fits allowed rfl
    | idle c' =>
      obtain ⟨loc, placed⟩ := inv.placed
      exact absurd (by rw [placed.ownIdle here]) user
  | @skip c self i rest here resume code skips =>
    cases self with
    | pool j => exact .skip j here resume code skips rfl
    | idle c' => exact nomatch (inv.idleCode c').symm.trans code
  | @section_ c self i rest w' here enters code done =>
    cases self with
    | pool j => exact .section_ j here enters code (lockedSection_did inv.ready done)
    | idle c' => exact nomatch (inv.idleCode c').symm.trans code
  | unlock here resume => exact .calm (Calm.unlocks resume)
  | preempt here lock resume => exact .calm (Calm.preempts inv here resume)
  | yield here lock resume user => exact .calm (Calm.yields inv here resume)
  | idle here lock resume => exact .calm (Calm.idles inv resume)
  | online => exact .calm (Calm.online a _)

/-! ## Threads that have ended -/

theorem Inv.resumes (inv : Inv a) {i : Nat} (alive : a.core.Alive (.pool i)) : a.core.resume (.pool i) ≠ .gone := by
  obtain ⟨loc, placed⟩ := inv.placed
  obtain ⟨place, there⟩ := Option.ne_none_iff_exists'.mp (placed.alive.mp alive)
  have parked : ∀ {r : Resume}, r.Parked → r ≠ .gone := by
    rintro r (rfl | rfl) <;> simp
  cases place with
  | queue k => exact parked (inv.queued (placed.queue.mpr there))
  | cpu c =>
    have here := placed.cpu.mpr there
    by_cases mine : a.core.lock = some c
    · obtain ⟨t, on, resume⟩ := inv.locked mine
      cases on.symm.trans here
      exact parked resume
    · rw [inv.runs mine here]
      simp

/-- A slot without a live thread has no code. -/
def World.Ended (a : World Lists) : Prop :=
  ∀ i, ¬ a.core.Alive (.pool i) → a.core.resume (.pool i) = .gone ∧ a.core.code (.pool i) = []

theorem exec_ended (inv : Inv a) (ended : a.Ended) (done : exec policy fuel act a = some a') : a'.Ended := by
  intro l dead
  cases exec_step inv done with
  | section_ j here enters code did =>
    by_cases me : l = j
    · subst me
      rcases did.goesOn (inv.alive here) with alive | ⟨_, code, gone⟩
      · exact absurd alive dead
      · exact ⟨gone, code⟩
    · have ne : Tid.pool l ≠ .pool j := by simpa using me
      rcases did.fate ne with kept | ⟨e, _, born⟩
      · rw [kept.resume, kept.code]
        exact ended l fun alive => dead (did.alive ne alive)
      · refine absurd ?_ dead
        rw [Core.Alive, born.alive]
        simp
  | call j k here running code fits allowed next =>
    obtain ⟨rc, joins, core⟩ := begin_eq a.core (.pool j) k
    subst next
    have me : l ≠ j := by
      rintro rfl
      refine dead ?_
      simp only [World.mod, core]
      exact inv.alive here
    simp only [World.mod, core] at dead ⊢
    rw [update_of_ne (by simpa using me)]
    exact ended l dead
  | skip j here running code skips next =>
    subst next
    have me : l ≠ j := by
      rintro rfl
      exact dead (inv.alive here)
    simp only [World.mod, Core.setCode] at dead ⊢
    rw [update_of_ne (by simpa using me)]
    exact ended l dead
  | calm calm =>
    obtain ⟨gone, code⟩ := ended l fun alive => dead (calm.alive _ alive)
    obtain ⟨st, cur, lk, rs, core⟩ := calm.core
    refine ⟨?_, by rw [core]; exact code⟩
    rcases calm.resume (.pool l) with same | ⟨runs, _⟩
    · rw [same]
      exact gone
    · rw [gone] at runs
      exact nomatch runs

theorem Reachable.ended (reach : Reachable policy fuel a) : a.Ended := by
  induction reach with
  | init =>
    intro i dead
    refine ⟨if_neg ?_, rfl⟩
    rintro rfl
    exact dead ⟨by simp [canbootSchedInit], by simp [canbootSchedInit]⟩
  | step reach done ended => exact exec_ended reach.inv ended done

/-- A thread with code left goes on. -/
theorem Reachable.resumes (reach : Reachable policy fuel a)
    {i : Nat} (code : a.core.code (.pool i) ≠ []) : a.core.resume (.pool i) ≠ .gone := by
  refine reach.inv.resumes ?_
  by_contra dead
  exact code (reach.ended i dead).2

/-! ## Where a thread is -/

/-- The codes a thread can have: none, the start of a thread, what is left of a call, or the loop of
`pthread_once`. -/
inductive Shape : List Instr → Prop
  | user : Shape []
  | start : Shape [.gilAcquire]
  | call {k : Call} {gen : Tid → Nat} {e : Option Entry} {owned : Bool} {code : List Instr}
      (left : code <:+ k.body gen e ++ [.ret k owned]) : Shape code
  | once {o : Nat} {owned : Bool} : Shape [.onceWait o, .ret (.once o) owned]

namespace Shape

theorem tail (shape : Shape (i :: rest)) : Shape rest := by
  cases shape with
  | start => exact .user
  | call left => exact .call ((List.suffix_cons i rest).trans left)
  | @once o owned =>
    have left : [Instr.ret (.once o) owned] <:+ (Call.once o).body (fun _ => 0) none ++ [.ret (.once o) owned] :=
      List.suffix_cons _ _
    exact .call left

theorem onceEnter {o : Nat} (shape : Shape (.onceEnter o :: rest)) : ∃ owned, rest = [.ret (.once o) owned] := by
  cases shape with
  | @call k gen e owned _ left =>
    refine ⟨owned, ?_⟩
    cases k with
    | entryReturn v => rcases e with _ | _ | _ <;> simp [Call.body, List.suffix_cons_iff] at left
    | _ => simp_all [Call.body, List.suffix_cons_iff]

end Shape

theorem exec_shape (inv : Inv a) (shape : ∀ t, Shape (a.core.code t)) (done : exec policy fuel act a = some a')
    (t : Tid) : Shape (a'.core.code t) := by
  cases exec_step inv done with
  | section_ j here enters code did =>
    by_cases me : t = .pool j
    · subst me
      have old := code ▸ shape (.pool j)
      rcases did.own (inv.alive here) code with own | ⟨own, _⟩ | ⟨own | ⟨o, rfl, own⟩, _⟩
      · rw [own]
        exact old.tail
      · rw [own]
        exact .user
      · rw [own]
        exact old
      · obtain ⟨owned, rfl⟩ := old.onceEnter
        rw [own]
        exact .once
    · rcases did.fate me with kept | ⟨e, _, born⟩
      · rw [kept.code]
        exact shape t
      · rw [born.code]
        cases e with
        | thread => exact .user
        | pthread => exact .start
  | call j k here running code fits allowed next =>
    obtain ⟨rc, joins, core⟩ := begin_eq a.core (.pool j) k
    subst next
    simp only [World.mod, core]
    by_cases me : t = .pool j
    · subst me
      rw [update_self, Core.callCode]
      split
      · exact .call (List.suffix_refl _)
      · exact shape _
    · rw [update_of_ne me]
      exact shape t
  | @skip c i rest j here running code skips next =>
    subst next
    simp only [World.mod, Core.setCode]
    by_cases me : t = .pool j
    · subst me
      rw [update_self]
      exact (code ▸ shape (.pool j)).tail
    · rw [update_of_ne me]
      exact shape t
  | calm calm =>
    obtain ⟨st, cur, lk, rs, core⟩ := calm.core
    rw [core]
    exact shape t

theorem Reachable.shape (reach : Reachable policy fuel a) : ∀ t, Shape (a.core.code t) := by
  induction reach with
  | init => exact fun _ => .user
  | step reach done shape => exact exec_shape reach.inv shape done

/-! ## Loops -/

/-- The sections that block in a loop. -/
def Instr.loops : Instr → Bool
  | .gilAcquireIf | .gilAcquire | .mutexLock _ | .onceWait _ | .threadJoin _ _ => true
  | _ => false

/-- A thread that tests its condition again is in such a section. -/
def World.Loops (a : World Lists) : Prop :=
  ∀ t, a.core.resume t = .retest → ∃ i, (a.core.code t).head? = some i ∧ i.loops = true

theorem Did.loops (did : Did a c self rest i a') (alive : a.core.Alive self) (code : a.core.code self = i :: rest)
    (resume : a'.core.resume self = .retest) : ∃ i, (a'.core.code self).head? = some i ∧ i.loops = true := by
  cases did with
  | gilPark which =>
    refine ⟨i, by simp [code], ?_⟩
    cases i <;> simp [Instr.acquires] at which <;> rfl
  | mutexPark | oncePark | joinPark => exact ⟨_, by simp [code]; rfl, rfl⟩
  | onceJoin => exact ⟨_, by simp; rfl, rfl⟩
  | create slot free =>
    simp at resume
  | yield =>
    rw [canbootSchedYield] at resume
    split at resume <;> simp at resume
  | exit pool =>
    subst pool
    rw [exitSwitch] at resume
    split at resume <;> simp at resume
  | _ => simp at resume

theorem exec_loops (inv : Inv a) (loops : a.Loops) (done : exec policy fuel act a = some a') : a'.Loops := by
  intro t resume
  cases exec_step inv done with
  | section_ j here enters code did =>
    by_cases me : t = .pool j
    · subst me
      exact did.loops (inv.alive here) code resume
    · rcases did.fate me with kept | ⟨e, _, born⟩
      · rw [kept.code]
        exact loops t (kept.resume ▸ resume)
      · exact nomatch born.resume.symm.trans resume
  | call j k here running code fits allowed next =>
    obtain ⟨rc, joins, core⟩ := begin_eq a.core (.pool j) k
    subst next
    simp only [World.mod, core] at resume ⊢
    have me : t ≠ .pool j := by
      rintro rfl
      exact nomatch running.symm.trans resume
    rw [update_of_ne me]
    exact loops t resume
  | skip j here running code skips next =>
    subst next
    have me : t ≠ .pool j := by
      rintro rfl
      exact nomatch running.symm.trans resume
    have old := loops t resume
    simpa [update_of_ne me] using old
  | calm calm =>
    obtain ⟨st, cur, lk, rs, core⟩ := calm.core
    rcases calm.resume t with same | ⟨_, out⟩
    · rw [core]
      exact loops t (same ▸ resume)
    · rw [resume] at out
      exact nomatch out

theorem Reachable.loops (reach : Reachable policy fuel a) : a.Loops := by
  induction reach with
  | init =>
    intro t resume
    exfalso
    cases t <;> simp [canbootSchedInit] at resume <;> split at resume <;> cases resume
  | step reach done loops => exact exec_loops reach.inv loops done

end CanBoot.Sched
