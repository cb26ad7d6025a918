import CanBoot.Laws.Sched.Steps

/-!
# Mutexes

A mutex is locked exactly while somebody is between taking it and giving it up, and at most one thread is
(`MutexInv.one`). An unlock wakes one waiter, which tests the mutex again when it runs; another thread may
take the mutex first. `MutexInv.woken` keeps what survives this: as long as the mutex is free and has
waiters, a woken thread is on its way to test it.
-/

namespace CanBoot.Sched

open List
open Function (update update_of_ne update_self)

/-- `pthread_mutex_unlock` and `pthread_cond_wait` are called by the mutex's owner. -/
def ownerClient : Policy := fun s t k =>
  match k with
  | .mutexUnlock m | .condWait _ m => decide (s.inst t ∈ s.hist.holders m)
  | _ => true

/-! ## What a section does to a mutex -/

/-- The mutex a section gives up. -/
def Instr.due : Instr → Option Nat
  | .mutexUnlock m | .condPark _ m => some m
  | _ => none

/-- The mutexes a thread's code gives up. -/
def dues (code : List Instr) : List Nat := code.filterMap Instr.due

/-- A section, seen from one mutex. -/
inductive MutexDid (a a' : World Lists) (self : Tid) (m : Nat) : Instr → Prop
  | other {i : Instr} (locked : a'.core.mutexLocked m = a.core.mutexLocked m)
      (holders : a'.core.hist.holders m = a.core.hist.holders m) (queue : a'.q (.mutex m) = a.q (.mutex m))
      (due : i.due ≠ some m) (waits : i = .mutexLock m → False) : MutexDid a a' self m i
  | take {i : Instr} (wants : i = .mutexLock m ∨ i = .mutexTrylock m) (free : a.core.mutexLocked m = false)
      (locked : a'.core.mutexLocked m = true)
      (holders : a'.core.hist.holders m = a.core.inst self :: a.core.hist.holders m) : MutexDid a a' self m i
  | park (locked : a.core.mutexLocked m = true) (still : a'.core.mutexLocked m = true)
      (holders : a'.core.hist.holders m = a.core.hist.holders m)
      (stays : a'.core.code self = a.core.code self) : MutexDid a a' self m (.mutexLock m)
  | busy (locked : a.core.mutexLocked m = true) (still : a'.core.mutexLocked m = true)
      (holders : a'.core.hist.holders m = a.core.hist.holders m) : MutexDid a a' self m (.mutexTrylock m)
  | drop {i : Instr} (due : i.due = some m) (locked : a'.core.mutexLocked m = false)
      (holders : a'.core.hist.holders m = (a.core.hist.holders m).erase (a.core.inst self))
      (queue : a'.q (.mutex m) = (a.q (.mutex m)).tail) : MutexDid a a' self m i

variable {a a' : World Lists} {c : Cpu} {self : Tid} {i : Instr} {rest : List Instr}

theorem Did.mutex (did : Did a c self rest i a') (m : Nat) : MutexDid a a' self m i := by
  cases did with
  | @mutexTake n free | @tryTake n free =>
    by_cases same : n = m
    · subst same
      refine .take (by simp) free ?_ ?_ <;> simp
    · have ne : m ≠ n := fun h => same h.symm
      refine .other ?_ ?_ ?_ ?_ ?_ <;> simp [ne, same, Instr.due]
  | @mutexPark n locked =>
    by_cases same : n = m
    · subst same
      refine .park locked ?_ ?_ ?_ <;> simp [locked]
    · have ne : m ≠ n := fun h => same h.symm
      refine .other ?_ ?_ ?_ ?_ ?_ <;> simp [ne, same, Instr.due]
  | @tryBusy n locked =>
    by_cases same : n = m
    · subst same
      refine .busy locked ?_ ?_ <;> simp [locked]
    · refine .other ?_ ?_ ?_ ?_ ?_ <;> simp [Instr.due]
  | @mutexUnlock n | @condPark _ n =>
    by_cases same : n = m
    · subst same
      refine .drop rfl ?_ ?_ ?_ <;> simp
    · have ne : m ≠ n := fun h => same h.symm
      refine .other ?_ ?_ ?_ ?_ ?_ <;> simp [ne, same, Instr.due]
  | yield =>
    rw [canbootSchedYield]
    split <;> refine .other ?_ ?_ ?_ ?_ ?_ <;> simp [Instr.due]
  | exit =>
    rw [exitSwitch]
    split <;> refine .other ?_ ?_ ?_ ?_ ?_ <;> simp [Instr.due]
  | gilRelease which | gilTake which | gilPark which =>
    refine .other ?_ ?_ ?_ ?_ ?_
    · simp
    · simp
    · simp
    all_goals cases i <;> simp [Instr.due, Instr.acquires, Instr.releases] at which ⊢
  | oncePast which =>
    rcases which with rfl | rfl <;> refine .other ?_ ?_ ?_ ?_ ?_ <;> simp [Instr.due]
  | _ => refine .other ?_ ?_ ?_ ?_ ?_ <;> simp [Instr.due]

variable {m : Nat}

/-- A mutex is taken from a thread only by a section of its own. -/
theorem Did.holds {x : Inst} (did : Did a c self rest i a') (held : x ∈ a.core.hist.holders m)
    (keeps : x ≠ a.core.inst self ∨ i.due ≠ some m) : x ∈ a'.core.hist.holders m := by
  cases did.mutex m with
  | other _ holders | park _ _ holders | busy _ _ holders =>
    rw [holders]
    exact held
  | take _ _ _ holders =>
    rw [holders]
    exact mem_cons_of_mem _ held
  | drop gives _ holders =>
    rw [holders]
    rcases keeps with other | keeps
    · exact (mem_erase_of_ne other).mpr held
    · exact absurd gives keeps

/-- The mutex a call gives up. -/
def Call.due : Call → Option Nat
  | .mutexUnlock m | .condWait _ m => some m
  | _ => none

theorem dues_body (gen : Tid → Nat) (e : Option Entry) (k : Call) (owned : Bool) :
    dues (k.body gen e ++ [.ret k owned]) = k.due.toList := by
  cases k with
  | entryReturn v => rcases e with _ | _ | _ <;> rfl
  | _ => rfl

theorem dues_cons (i : Instr) (rest : List Instr) : dues (i :: rest) = i.due.toList ++ dues rest := by
  cases due : i.due <;> simp [dues, due]

/-- What a section gives up, its thread no longer owes. -/
theorem Did.dues (did : Did a c self rest i a') (alive : a.core.Alive self) (code : a.core.code self = i :: rest) :
    Sublist (i.due.toList ++ dues (a'.core.code self)) (dues (a.core.code self)) := by
  have owes : i.due = none ∨ a'.core.code self = rest := by
    cases did with
    | mutexUnlock | condPark => exact .inr (by simp)
    | gilRelease which | gilTake which | gilPark which =>
      cases i <;> simp [Instr.acquires, Instr.releases] at which <;> exact .inl rfl
    | oncePast which => rcases which with rfl | rfl <;> exact .inl rfl
    | _ => exact .inl rfl
  rw [code, dues_cons]
  rcases owes with none | rest
  · rw [none]
    rcases did.own alive code with own | ⟨own, _⟩ | ⟨own | ⟨o, _, own⟩, _⟩
    · rw [own]
    · rw [own]
      exact nil_sublist _
    · rw [own, dues_cons, none]
      exact Sublist.refl _
    · rw [own, dues_cons]
      exact Sublist.refl _
  · rw [rest]

/-- A thread's code gives up at most one mutex. -/
def World.Owed (a : World Lists) : Prop := ∀ t, (dues (a.core.code t)).length ≤ 1

theorem dues_callCode {s : Core} {t : Tid} (k : Call) (code : s.code t = []) :
    dues (s.callCode t k) = [] ∨ dues (s.callCode t k) = k.due.toList := by
  rw [Core.callCode]
  split
  · exact .inr (dues_body ..)
  · rw [code]
    exact .inl rfl

variable {policy : Policy} {fuel : Nat}

theorem exec_owed {act : Act} (inv : Inv a) (owed : a.Owed) (done : exec policy fuel act a = some a') : a'.Owed := by
  intro t
  cases exec_step inv done with
  | section_ j here enters code did =>
    by_cases me : t = .pool j
    · subst me
      have owes := did.dues (inv.alive here) code
      exact Nat.le_trans ((sublist_append_right _ _).trans owes).length_le (owed _)
    · rcases did.fate me with kept | ⟨e, _, born⟩
      · rw [kept.code]
        exact owed t
      · rw [born.code]
        cases e <;> exact Nat.zero_le 1
  | call j k here resume code fits allowed next =>
    obtain ⟨rc, joins, core⟩ := begin_eq a.core (.pool j) k
    subst next
    simp only [World.mod, core]
    by_cases me : t = .pool j
    · subst me
      rw [update_self]
      rcases dues_callCode k code with none | one
      · rw [none]
        exact Nat.zero_le 1
      · rw [one]
        cases k.due <;> simp
    · rw [update_of_ne me]
      exact owed t
  | @skip c i rest j here resume code skips next =>
    subst next
    simp only [World.mod, Core.setCode]
    by_cases me : t = .pool j
    · subst me
      rw [update_self]
      have before := owed (.pool j)
      rw [code, dues_cons, length_append] at before
      omega
    · rw [update_of_ne me]
      exact owed t
  | calm calm =>
    obtain ⟨st, cur, lk, rs, core⟩ := calm.core
    rw [core]
    exact owed t

theorem Reachable.owed (reach : Reachable policy fuel a) : a.Owed := by
  induction reach with
  | init => exact fun _ => Nat.zero_le 1
  | step reach done owed => exact exec_owed reach.inv owed done

/-- A section that gives up a mutex leaves its thread owing nothing. -/
theorem Did.paid (did : Did a c self rest i a') (owed : a.Owed) (alive : a.core.Alive self)
    (code : a.core.code self = i :: rest) (due : i.due = some m) :
    m ∈ Sched.dues (a.core.code self) ∧ Sched.dues (a'.core.code self) = [] := by
  have owes := did.dues alive code
  rw [due] at owes
  refine ⟨owes.subset (by simp), ?_⟩
  have short := Nat.le_trans owes.length_le (owed _)
  simpa using short

/-! ## The invariant -/

/-- A thread was woken from a mutex's waiters and has not tested the mutex again. -/
structure World.Woken (a : World Lists) (m : Nat) (t : Tid) : Prop where
  code : (a.core.code t).head? = some (.mutexLock m)
  resume : a.core.resume t = .retest
  off : t ∉ a.q (.mutex m)
  alive : a.core.Alive t

structure MutexInv (a : World Lists) : Prop where
  one : ∀ m, a.core.hist.holders m = [] ∧ a.core.mutexLocked m = false ∨
    ∃ x, a.core.hist.holders m = [x] ∧ a.core.mutexLocked m = true
  owns : ∀ {t m}, m ∈ dues (a.core.code t) → a.core.inst t ∈ a.core.hist.holders m
  woken : ∀ m, a.core.mutexLocked m = false → a.q (.mutex m) ≠ [] → ∃ t, a.Woken m t

theorem mutexInv_init : MutexInv canbootSchedInit where
  one _ := .inl ⟨rfl, rfl⟩
  owns on := nomatch on
  woken _ _ some := absurd rfl some

namespace MutexInv

variable {a a' : World Lists} (mutexes : MutexInv a)

include mutexes

/-- The holder of a mutex that somebody owes is the one who owes it. -/
theorem holders_of_due {t : Tid} (due : m ∈ dues (a.core.code t)) : a.core.hist.holders m = [a.core.inst t] := by
  have held := mutexes.owns due
  rcases mutexes.one m with ⟨none, _⟩ | ⟨x, one, _⟩
  · rw [none] at held
    exact nomatch held
  · rw [one, mem_singleton] at held
    rw [one, held]

/-- Steps that leave mutexes, codes and wait queues alone. -/
theorem calm (calm : Calm a a') : MutexInv a' := by
  obtain ⟨st, cur, lk, rs, core⟩ := calm.core
  refine ⟨?_, ?_, ?_⟩
  · rw [core]
    exact mutexes.one
  · rw [core]
    exact mutexes.owns
  · intro m free some
    rw [calm.waits _ (by simp)] at some
    obtain ⟨t, woken⟩ := mutexes.woken m (by rw [core] at free; exact free) some
    refine ⟨t, by rw [core]; exact woken.code, ?_, ?_, calm.alive t woken.alive⟩
    · rcases calm.resume t with same | ⟨out, _⟩
      · rw [same]
        exact woken.resume
      · rw [woken.resume] at out
        exact nomatch out
    · rw [calm.waits _ (by simp)]
      exact woken.off

/-- A running thread's work on its own code. -/
theorem recode {j : Nat} (resume : a.core.resume (.pool j) = .running) (code : List Instr) {f : Core → Core}
    (locked : (f a.core).mutexLocked = a.core.mutexLocked) (holders : (f a.core).hist.holders = a.core.hist.holders)
    (gen : (f a.core).hist.gen = a.core.hist.gen) (state : (f a.core).state = a.core.state)
    (resumes : (f a.core).resume = a.core.resume) (codes : (f a.core).code = update a.core.code (.pool j) code)
    (owns : ∀ m ∈ dues code, a.core.inst (.pool j) ∈ a.core.hist.holders m) : MutexInv (a.mod f) := by
  have inst : ∀ t, (f a.core).inst t = a.core.inst t := fun t => by rw [Core.inst, gen]; rfl
  refine ⟨?_, fun {t m} due => ?_, fun m free busy => ?_⟩
  · intro m
    show (f a.core).hist.holders m = [] ∧ (f a.core).mutexLocked m = false ∨
      ∃ x, (f a.core).hist.holders m = [x] ∧ (f a.core).mutexLocked m = true
    rw [locked, holders]
    exact mutexes.one m
  · change m ∈ dues ((f a.core).code t) at due
    show (f a.core).inst t ∈ (f a.core).hist.holders m
    rw [codes] at due
    rw [inst, holders]
    by_cases me : t = .pool j
    · rw [me, update_self] at due
      rw [me]
      exact owns m due
    · rw [update_of_ne me] at due
      exact mutexes.owns due
  · change (f a.core).mutexLocked m = false at free
    rw [locked] at free
    obtain ⟨t, woken⟩ := mutexes.woken m free busy
    have me : t ≠ .pool j := by
      rintro rfl
      exact nomatch woken.resume.symm.trans resume
    refine ⟨t, ?_, ?_, woken.off, ?_⟩
    · show ((f a.core).code t).head? = _
      rw [codes, update_of_ne me]
      exact woken.code
    · show (f a.core).resume t = _
      rw [resumes]
      exact woken.resume
    · show (f a.core).Alive t
      rw [Core.Alive, state]
      exact woken.alive

/-- **Sections keep the invariant.** -/
theorem did (inv : Inv a) (owed : a.Owed) {j : Nat} (here : a.core.current c = some (.pool j))
    (code : a.core.code (.pool j) = i :: rest) (did : Did a c (.pool j) rest i a') : MutexInv a' := by
  have alive := inv.alive here
  have owes := did.dues alive code
  have same := (did.same alive.2).1
  have mine : a'.core.inst (.pool j) = a.core.inst (.pool j) := by rw [Core.inst, Core.inst, same]
  -- a mutex that this section gives up is its thread's, and its thread owes no other
  have due : ∀ {m}, i.due = some m →
      a.core.hist.holders m = [a.core.inst (.pool j)] ∧ dues (a'.core.code (.pool j)) = [] := by
    intro m gives
    obtain ⟨first, paid⟩ := did.paid owed alive code gives
    exact ⟨mutexes.holders_of_due first, paid⟩
  refine ⟨fun m => ?_, fun {t m} owed => ?_, fun m free busy => ?_⟩
  · cases did.mutex m with
    | other locked holders =>
      rw [locked, holders]
      exact mutexes.one m
    | take wants free locked holders =>
      rcases mutexes.one m with ⟨none, _⟩ | ⟨x, _, held⟩
      · rw [none] at holders
        exact .inr ⟨_, holders, locked⟩
      · exact nomatch free.symm.trans held
    | park locked still holders | busy locked still holders =>
      rcases mutexes.one m with ⟨_, free⟩ | ⟨x, one, _⟩
      · exact nomatch free.symm.trans locked
      · exact .inr ⟨x, holders.trans one, still⟩
    | drop gives locked holders =>
      refine .inl ⟨?_, locked⟩
      rw [holders, (due gives).1, erase_cons_head]
  · by_cases me : t = .pool j
    · subst me
      have old := ((sublist_append_right _ _).trans owes).subset owed
      rw [mine]
      cases did.mutex m with
      | other _ holders | park _ _ holders | busy _ _ holders =>
        rw [holders]
        exact mutexes.owns old
      | take _ _ _ holders =>
        rw [holders]
        exact mem_cons_self
      | drop gives =>
        rw [(due gives).2] at owed
        exact nomatch owed
    · rcases did.fate me with kept | ⟨e, _, born⟩
      · rw [kept.code] at owed
        have held := mutexes.owns owed
        have inst : a'.core.inst t = a.core.inst t := by rw [Core.inst, Core.inst, kept.gen]
        rw [inst]
        cases did.mutex m with
        | other _ holders | park _ _ holders | busy _ _ holders =>
          rw [holders]
          exact held
        | take _ _ _ holders =>
          rw [holders]
          exact mem_cons_of_mem _ held
        | drop gives =>
          rw [(due gives).1, mem_singleton] at held
          exact absurd (Prod.mk.inj held).1 me
      · rw [born.code] at owed
        cases e <;> exact nomatch owed
  · -- a thread that is not this one and was woken before is still on its way
    have others : ∀ {t}, t ≠ .pool j → (a.core.code t).head? = some (.mutexLock m) →
        a.core.resume t = .retest → t ∉ a'.q (.mutex m) → a.core.Alive t → ∃ t, a'.Woken m t := by
      intro t ne head resume off alive
      rcases did.fate ne with kept | ⟨e, _, born⟩
      · exact ⟨t, by rw [kept.code]; exact head, by rw [kept.resume]; exact resume, off, did.alive ne alive⟩
      · exact absurd born.free alive.2
    cases did.mutex m with
    | other locked holders queue _ waits =>
      rw [locked] at free
      rw [queue] at busy others
      obtain ⟨t, woken⟩ := mutexes.woken m free busy
      refine others ?_ woken.code woken.resume woken.off woken.alive
      rintro rfl
      have head := woken.code
      rw [code] at head
      exact waits (Option.some.inj head)
    | take _ _ locked => exact nomatch free.symm.trans locked
    | park _ still | busy _ still => exact nomatch free.symm.trans still
    | drop _ _ _ queue =>
      obtain ⟨loc, placed⟩ := inv.placed
      rw [queue] at busy others
      cases full : a.q (.mutex m) with
      | nil =>
        rw [full] at busy
        exact absurd rfl busy
      | cons t ts =>
        have first : t ∈ a.q (.mutex m) := by rw [full]; exact mem_cons_self
        have once := placed.nodup (.mutex m)
        rw [full, nodup_cons] at once
        obtain ⟨resume, head⟩ := inv.fits first
        obtain ⟨l, rfl⟩ : ∃ l, t = .pool l := by
          cases t with
          | pool l => exact ⟨l, rfl⟩
          | idle c' => exact absurd first placed.noIdle
        refine others (fun same => ?_) head resume ?_ (inv.alive_queued first)
        · exact inv.ready.current here _ (same ▸ first)
        · rw [full]
          exact once.1

end MutexInv

theorem exec_mutexInv {act : Act} (owner : ∀ s t k, policy s t k = true → ownerClient s t k = true) (inv : Inv a)
    (owed : a.Owed) (mutexes : MutexInv a) (done : exec policy fuel act a = some a') : MutexInv a' := by
  cases exec_step inv done with
  | section_ j here enters code did => exact mutexes.did inv owed here code did
  | call j k here resume code fits allowed next =>
    have own := owner _ _ _ allowed
    obtain ⟨rc, joins, core⟩ := begin_eq a.core (.pool j) k
    subst next
    refine mutexes.recode resume (a.core.callCode (.pool j) k) ?_ ?_ ?_ ?_ ?_ ?_ ?_
    iterate 6 rw [core]
    intro m due
    rcases dues_callCode k code with none | one
    · rw [none] at due
      exact nomatch due
    · rw [one] at due
      cases k <;> simp_all [Call.due, ownerClient]
  | @skip c i rest j here resume code skips next =>
    subst next
    have owes : Sublist (dues rest) (dues (a.core.code (.pool j))) := by
      rw [code, dues_cons]
      exact sublist_append_right _ _
    exact mutexes.recode resume rest rfl rfl rfl rfl rfl rfl fun m due => mutexes.owns (owes.subset due)
  | calm calm => exact mutexes.calm calm

theorem Reachable.mutexes (owner : ∀ s t k, policy s t k = true → ownerClient s t k = true)
    (reach : Reachable policy fuel a) : MutexInv a := by
  induction reach with
  | init => exact mutexInv_init
  | step reach done mutexes => exact exec_mutexInv owner reach.inv reach.owed mutexes done

end CanBoot.Sched
