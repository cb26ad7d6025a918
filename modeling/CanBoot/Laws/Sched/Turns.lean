import CanBoot.Laws.Sched.Cond

/-!
# Whose step it is

`Step` says what a step can do; `Turn` also says who takes it. A thread that has code left keeps it until a step
of its own (`Turn.stays`), so what it does next can be told from where it stands.
-/

namespace CanBoot.Sched

open List
open Function (update update_of_ne update_self)

/-- A step in which a thread goes on with its code. -/
def Core.GoesOn (s : Core) (act : Act) (t : Tid) : Prop :=
  ∃ c, act = .run c ∧ s.current c = some t ∧ s.resume t ≠ .unlock

variable {policy : Policy} {fuel : Nat} {act : Act} {a a' : World Lists}

/-- A step, and whose it is. -/
inductive Turn (a a' : World Lists) (act : Act) : Prop
  | section_ {c : Cpu} {i : Instr} {rest : List Instr} (j : Nat) (run : act = .run c)
      (here : a.core.current c = some (.pool j)) (goes : a.core.resume (.pool j) ≠ .unlock)
      (code : a.core.code (.pool j) = i :: rest) (did : Did a c (.pool j) rest i a')
  | call {c : Cpu} (j : Nat) (k : Call) (called : act = .call c k) (here : a.core.current c = some (.pool j))
      (code : a.core.code (.pool j) = []) (fits : k.fits a.core (.pool j) = true)
      (next : a' = a.mod fun s => s.begin (.pool j) k)
  | skip {c : Cpu} {i : Instr} {rest : List Instr} (j : Nat) (run : act = .run c)
      (here : a.core.current c = some (.pool j)) (goes : a.core.resume (.pool j) ≠ .unlock)
      (code : a.core.code (.pool j) = i :: rest)
      (skips : i.skips (a.core.hadGil (.pool j)) = true) (next : a' = a.mod fun s => s.setCode (.pool j) rest)
  | calm (quiet : ∀ t, ¬ a.core.GoesOn act t) (uncalled : ∀ c k, act ≠ .call c k) (calm : Calm a a')

theorem Turn.other (calm : Calm a a') (still : ∀ c, act ≠ .run c) (uncalled : ∀ c k, act ≠ .call c k) :
    Turn a a' act := by
  refine .calm (fun t goes => ?_) uncalled calm
  obtain ⟨c, same, _⟩ := goes
  exact still c same

theorem exec_turn (inv : Inv a) (done : exec policy fuel act a = some a') : Turn a a' act := by
  cases Moves.of_exec done with
  | @call c k self here user resume code fits allowed =>
    cases self with
    | pool j => exact .call j k rfl here code fits rfl
    | idle c' =>
      obtain ⟨loc, placed⟩ := inv.placed
      exact absurd (by rw [placed.ownIdle here]) user
  | @skip c self i rest here resume code skips =>
    cases self with
    | pool j => exact .skip j rfl here (by rw [resume]; simp) code skips rfl
    | idle c' => cases (inv.idleCode c').symm.trans code
  | @section_ c self i rest w' here enters code done =>
    cases self with
    | idle c' => cases (inv.idleCode c').symm.trans code
    | pool j =>
      refine .section_ j rfl here ?_ code (lockedSection_did inv.ready done)
      rcases enters with ⟨running, _⟩ | ⟨retest, _⟩
      · rw [running]
        simp
      · rw [retest]
        simp
  | @unlock c self here resume =>
    refine .calm (fun t goes => ?_) (by simp) (Calm.unlocks resume)
    obtain ⟨c', same, on, goes⟩ := goes
    cases same
    cases here.symm.trans on
    exact goes resume
  | preempt here lock resume => exact .other (Calm.preempts inv here resume) (by simp) (by simp)
  | yield here lock resume user => exact .other (Calm.yields inv here resume) (by simp) (by simp)
  | idle here lock resume => exact .other (Calm.idles inv resume) (by simp) (by simp)
  | online => exact .other (Calm.online a _) (by simp) (by simp)

/-- A thread with code left keeps it until it goes on itself. -/
theorem Turn.stays (turn : Turn a a' act) (ended : a.Ended) {t : Tid} (code : a.core.code t ≠ [])
    (rests : ¬ a.core.GoesOn act t) : a'.core.code t = a.core.code t := by
  cases turn with
  | section_ j run here goes mine did =>
    have me : t ≠ .pool j := by
      rintro rfl
      exact rests ⟨_, run, here, goes⟩
    rcases did.fate me with kept | ⟨e, _, born⟩
    · exact kept.code
    · obtain ⟨l, rfl⟩ := born.pool
      exact absurd (ended l fun alive => alive.2 born.free).2 code
  | call j k called here mine fits next =>
    have me : t ≠ .pool j := by
      rintro rfl
      exact code mine
    obtain ⟨rc, joins, core⟩ := begin_eq a.core (.pool j) k
    subst next
    simp only [World.mod, core]
    exact update_of_ne me _ _
  | skip j run here goes mine skips next =>
    have me : t ≠ .pool j := by
      rintro rfl
      exact rests ⟨_, run, here, goes⟩
    subst next
    exact update_of_ne me _ _
  | calm quiet uncalled calm =>
    obtain ⟨st, cur, lk, rs, core⟩ := calm.core
    rw [core]

/-- A thread that goes on with a section takes it. -/
theorem Turn.went (turn : Turn a a' act) {t : Tid} {i : Instr} (goes : a.core.GoesOn act t)
    (head : (a.core.code t).head? = some i) (locks : ∀ had, i.skips had = false) :
    ∃ c rest, a.core.code t = i :: rest ∧ Did a c t rest i a' := by
  obtain ⟨c, run, here, resume⟩ := goes
  cases turn with
  | section_ j run' here' _ code did =>
    cases run.symm.trans run'
    cases here.symm.trans here'
    rw [code] at head
    cases head
    exact ⟨c, _, code, did⟩
  | call j k called => cases run.symm.trans called
  | skip j run' here' _ code skips =>
    cases run.symm.trans run'
    cases here.symm.trans here'
    rw [code] at head
    cases head
    cases (locks _).symm.trans skips
  | calm quiet => exact absurd ⟨c, run, here, resume⟩ (quiet t)

/-- A call's code is that of its body. -/
theorem Turn.calls (turn : Turn a a' act) {c : Cpu} {t : Tid} {k : Call} (called : act = .call c k) (here : a.core.current c = some t) :
    a'.core.code t = a.core.callCode t k ∧ k.fits a.core t = true := by
  cases turn with
  | section_ j run | skip j run => cases called.symm.trans run
  | call j k' called' here' code fits next =>
    cases called.symm.trans called'
    cases here.symm.trans here'
    obtain ⟨rc, joins, core⟩ := begin_eq a.core (.pool j) k
    subst next
    simp only [World.mod, core, update_self]
    exact ⟨trivial, fits⟩
  | calm quiet uncalled => exact absurd called (uncalled c k)

/-! ## Waiting on a condition variable -/

/-- The section a thread that waits on a condition variable goes on with. -/
theorem Shape.condPark {cv m : Nat} {rest : List Instr} (shape : Shape (.condPark cv m :: rest)) :
    rest.head? = some .gilAcquireIf := by
  cases shape with
  | @call k gen e owned _ left =>
    cases k with
    | entryReturn v => rcases e with _ | _ | _ <;> simp [Call.body, List.suffix_cons_iff] at left
    | _ => simp_all [Call.body, List.suffix_cons_iff]

/-- A thread that waits on a condition variable takes the VM lock back first. -/
def World.CondCode (a : World Lists) : Prop :=
  ∀ {t cv}, t ∈ a.q (.cond cv) → (a.core.code t).head? = some .gilAcquireIf

theorem exec_condCode (inv : Inv a) (shape : ∀ t, Shape (a.core.code t)) (waits : a.CondCode)
    (done : exec policy fuel act a = some a') : a'.CondCode := by
  intro t cv on
  cases exec_turn inv done with
  | @section_ c i rest j run here goes code did =>
    have before : t ∈ a.q (.cond cv) ∨ t = .pool j ∧ ∃ m, i = .condPark cv m := by
      cases did.cond cv with
      | other same => exact .inl (same ▸ on)
      | park queue =>
        rw [queue, mem_append, mem_singleton] at on
        exact on.imp_right fun me => ⟨me, _, rfl⟩
      | signal queue => exact .inl (mem_of_mem_tail (queue ▸ on))
      | broadcast queue =>
        rw [queue] at on
        cases on
    rcases before with old | ⟨rfl, m, rfl⟩
    · have me : t ≠ .pool j := by
        rintro rfl
        exact inv.ready.current here _ old
      rcases did.fate me with kept | ⟨e, _, born⟩
      · rw [kept.code]
        exact waits old
      · obtain ⟨l, rfl⟩ := born.pool
        exact absurd born.free (inv.alive_queued old).2
    · have first := (code ▸ shape (.pool j)).condPark
      cases did with
      | gilRelease which | gilTake which | gilPark which => cases which
      | oncePast which => rcases which with same | same <;> cases same
      | condPark => simpa using first
  | call j k called here code fits next =>
    obtain ⟨rc, joins, core⟩ := begin_eq a.core (.pool j) k
    subst next
    have me : t ≠ .pool j := by
      rintro rfl
      exact inv.ready.current here _ on
    simp only [World.mod, core, update_of_ne me]
    exact waits on
  | skip j run here goes code skips next =>
    subst next
    have me : t ≠ .pool j := by
      rintro rfl
      exact inv.ready.current here _ on
    simp only [World.mod, Core.setCode, update_of_ne me]
    exact waits on
  | calm quiet uncalled calm =>
    obtain ⟨st, cur, lk, rs, core⟩ := calm.core
    rw [calm.waits _ (by simp)] at on
    rw [core]
    exact waits on

theorem Reachable.condCode (reach : Reachable policy fuel a) : a.CondCode := by
  induction reach with
  | init => exact fun on => absurd on not_mem_nil
  | step reach done waits => exact exec_condCode reach.inv reach.shape waits done

end CanBoot.Sched
