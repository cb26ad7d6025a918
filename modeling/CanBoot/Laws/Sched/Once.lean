import CanBoot.Laws.Sched.Turns

/-!
# `pthread_once`, step by step

`init` runs with the lock dropped, so a control stays in state 1 while any number of threads come and park.
`OnceInv` is what holds between steps: only the thread inside `init` owns a running control, threads park on
running controls only, and where a thread stands in its code says what it knows of its control. `OnceStep` is
what one step can do, whoever takes it.
-/

namespace CanBoot.Sched

open List
open Function (update update_of_ne update_self)

/-! ## What a run does -/

/-- A step in which a thread finds a fresh control and is about to call `init`. -/
def Core.StartsInit (s : Core) (act : Act) (t : Tid) (o : Nat) : Prop :=
  s.GoesOn act t ∧ (s.code t).head? = some (.onceEnter o) ∧ s.onceState o = .fresh

/-- A step in which a thread's `init` returns. -/
def Core.EndsInit (s : Core) (act : Act) (t : Tid) (o : Nat) : Prop :=
  ∃ c, act = .call c (.onceInitReturn o) ∧ s.current c = some t

/-- A step in which a thread returns from `pthread_once`: past a control that is done, or after its own `init`.
A thread inside `init` has only left the first half of its call. -/
def Core.ReturnsOnce (s : Core) (act : Act) (t : Tid) (o : Nat) : Prop :=
  s.GoesOn act t ∧ ∃ owned, (s.code t).head? = some (.ret (.once o) owned) ∧ o ∉ s.initing t ∨
    (s.code t).head? = some (.ret (.onceInitReturn o) owned)

/-! ## The code of `pthread_once` -/

/-- The control that a section or a return is about. -/
def Instr.once : Instr → Option Nat
  | .onceEnter o | .onceWait o | .onceDone o | .ret (.once o) _ | .ret (.onceInitReturn o) _ => some o
  | _ => none

/-- The codes of a thread, as far as `pthread_once` goes. -/
inductive OnceCode : List Instr → Prop
  | other {code : List Instr} (away : ∀ i ∈ code, i.once = none) : OnceCode code
  | enter {o : Nat} {owned : Bool} : OnceCode [.onceEnter o, .ret (.once o) owned]
  | wait {o : Nat} {owned : Bool} : OnceCode [.onceWait o, .ret (.once o) owned]
  | past {o : Nat} {owned : Bool} : OnceCode [.ret (.once o) owned]
  | finish {o : Nat} {owned : Bool} : OnceCode [.onceDone o, .ret (.onceInitReturn o) owned]
  | finished {o : Nat} {owned : Bool} : OnceCode [.ret (.onceInitReturn o) owned]

theorem OnceCode.nil : OnceCode [] := .other fun _ on => absurd on not_mem_nil

theorem Shape.onceCode {code : List Instr} (shape : Shape code) : OnceCode code := by
  cases shape with
  | user => exact .nil
  | start => exact .other (by simp [Instr.once])
  | once => exact .wait
  | @call k gen e owned _ left =>
    cases k with
    | once o =>
      rcases List.suffix_cons_iff.mp left with rfl | left
      · exact .enter
      · rcases List.suffix_cons_iff.mp left with rfl | left
        · exact .past
        · rw [List.suffix_nil.mp left]
          exact .nil
    | onceInitReturn o =>
      rcases List.suffix_cons_iff.mp left with rfl | left
      · exact .finish
      · rcases List.suffix_cons_iff.mp left with rfl | left
        · exact .finished
        · rw [List.suffix_nil.mp left]
          exact .nil
    | entryReturn v =>
      refine .other fun i on => ?_
      have inside := left.subset on
      rcases e with _ | _ | _ <;> simp [Call.body] at inside <;> rcases inside with rfl | rfl | rfl <;> rfl
    | _ =>
      refine .other fun i on => ?_
      have inside := left.subset on
      simp only [Call.body, cons_append, nil_append, mem_cons, not_mem_nil, or_false] at inside
      rcases inside with rfl | rfl | rfl | rfl | rfl | rfl <;> rfl

variable {policy : Policy} {fuel : Nat} {act : Act} {a a' : World Lists}

/-! ## Sections, seen from the controls -/

/-- A section, seen from the controls. -/
inductive OnceDid (a a' : World Lists) (self : Tid) (rest : List Instr) : Instr → Prop
  | other {i : Instr} (state : a'.core.onceState = a.core.onceState) (queue : ∀ o, a'.q (.once o) = a.q (.once o))
      (initing : ∀ t, a.core.Alive t → a'.core.initing t = a.core.initing t)
      (fewer : ∀ t, a'.core.initing t = a.core.initing t ∨ a'.core.initing t = [])
      (away : i.once = none) : OnceDid a a' self rest i
  | past {o : Nat} {i : Instr} (which : i = .onceEnter o ∨ i = .onceWait o) (done : a.core.onceState o = .done)
      (state : a'.core.onceState = a.core.onceState) (queue : ∀ o, a'.q (.once o) = a.q (.once o))
      (initing : a'.core.initing = a.core.initing) (code : a'.core.code self = rest) : OnceDid a a' self rest i
  | start {o : Nat} (fresh : a.core.onceState o = .fresh)
      (state : a'.core.onceState = update a.core.onceState o .running)
      (queue : ∀ o, a'.q (.once o) = a.q (.once o))
      (initing : a'.core.initing = update a.core.initing self (o :: a.core.initing self))
      (code : a'.core.code self = rest) : OnceDid a a' self rest (.onceEnter o)
  | park {o : Nat} {i : Instr} (running : a.core.onceState o = .running ∧ i = .onceEnter o ∨
        a.core.onceState o ≠ .done ∧ i = .onceWait o)
      (state : a'.core.onceState = a.core.onceState)
      (joined : a'.q (.once o) = a.q (.once o) ++ [self])
      (queue : ∀ o', o' ≠ o → a'.q (.once o') = a.q (.once o'))
      (initing : a'.core.initing = a.core.initing) (code : a'.core.code self = .onceWait o :: rest) :
      OnceDid a a' self rest i
  | finish {o : Nat} (state : a'.core.onceState = update a.core.onceState o .done)
      (woken : a'.q (.once o) = []) (queue : ∀ o', o' ≠ o → a'.q (.once o') = a.q (.once o'))
      (initing : a'.core.initing = update a.core.initing self (a.core.initing self).tail)
      (code : a'.core.code self = rest) : OnceDid a a' self rest (.onceDone o)

variable {c : Cpu} {self : Tid} {i : Instr} {rest : List Instr}

theorem Did.once (did : Did a c self rest i a') (code : a.core.code self = i :: rest) : OnceDid a a' self rest i := by
  cases did with
  | oncePast which done => exact .past which done rfl (fun _ => rfl) rfl (by simp)
  | onceStart fresh => exact .start fresh (by simp) (fun _ => rfl) (by simp) (by simp)
  | onceJoin running =>
    refine .park (.inl ⟨running, rfl⟩) (by simp) (by simp) (fun o' ne => ?_) (by simp) (by simp)
    simp [ne]
  | oncePark undone =>
    refine .park (.inr ⟨undone, rfl⟩) (by simp) (by simp) (fun o' ne => ?_) (by simp) (by simp [code])
    simp [ne]
  | onceDone =>
    refine .finish (by simp) (by simp) (fun o' ne => ?_) (by simp) (by simp)
    simp [ne]
  | @create e j slot free =>
    refine .other (by simp) (by simp) (fun t alive => ?_) (fun t => ?_) rfl
    · have ne : t ≠ .pool j := fun same => alive.2 (same ▸ free)
      simp [ne]
    · by_cases new : t = .pool j
      · simp [new]
      · simp [new]
  | gilRelease which | gilTake which | gilPark which =>
    refine .other (by simp) (by simp) (by simp) (by simp) ?_
    cases i <;> simp [Instr.acquires, Instr.releases] at which <;> rfl
  | yield =>
    rw [canbootSchedYield]
    split <;> refine .other ?_ ?_ ?_ ?_ ?_ <;> simp [Instr.once]
  | exit =>
    rw [exitSwitch]
    split <;> refine .other ?_ ?_ ?_ ?_ ?_ <;> simp [Instr.once]
  | _ => refine .other ?_ ?_ ?_ ?_ ?_ <;> simp [Instr.once]

/-! ## The invariant -/

/-- What a thread knows of its control where it stands. -/
def Instr.Knows (s : Core) (t : Tid) : Instr → Prop
  | .onceWait o => s.onceState o ≠ .fresh
  | .onceDone o => (s.initing t).head? = some o
  | .ret (.once o) _ => s.onceState o = .done ∨ o ∈ s.initing t
  | .ret (.onceInitReturn o) _ => s.onceState o = .done
  | _ => True

variable {s : Core} {t : Tid}

theorem Instr.knows_of_away (away : i.once = none) : i.Knows s t := by
  cases i with
  | onceWait | onceDone => cases away
  | ret k owned =>
    cases k with
    | once | onceInitReturn => cases away
    | _ => trivial
  | _ => trivial

/-- A control only moves on. -/
def Core.OnceLater (s s' : Core) : Prop :=
  ∀ o, s'.onceState o = s.onceState o ∨ s.onceState o = .fresh ∧ s'.onceState o = .running ∨ s'.onceState o = .done

theorem OnceDid.later (did : OnceDid a a' self rest i) : a.core.OnceLater a'.core := by
  intro o'
  cases did with
  | other state | past _ _ state | park _ state => exact .inl (congrFun state o')
  | @start o fresh state =>
    by_cases same : o' = o
    · subst same
      exact .inr (.inl ⟨fresh, by rw [state, update_self]⟩)
    · exact .inl (by rw [state, update_of_ne same])
  | @finish o state =>
    by_cases same : o' = o
    · subst same
      exact .inr (.inr (by rw [state, update_self]))
    · exact .inl (by rw [state, update_of_ne same])

variable {o : Nat}

/-- Who is inside an `init` after a section was so before, or has just started it. -/
theorem OnceDid.inside (did : OnceDid a a' self rest i) (on : o ∈ a'.core.initing t) :
    o ∈ a.core.initing t ∨ t = self ∧ i = .onceEnter o ∧ a.core.onceState o = .fresh := by
  cases did with
  | other state queue initing fewer =>
    rcases fewer t with same | none
    · exact .inl (same ▸ on)
    · rw [none] at on
      cases on
  | past _ _ _ _ initing | park _ _ _ _ initing => exact .inl (congrFun initing t ▸ on)
  | @start o' fresh state queue initing =>
    rw [initing] at on
    by_cases me : t = self
    · subst me
      rw [update_self] at on
      rcases mem_cons.mp on with rfl | on
      · exact .inr ⟨rfl, rfl, fresh⟩
      · exact .inl on
    · rw [update_of_ne me] at on
      exact .inl on
  | @finish o' state woken queue initing =>
    rw [initing] at on
    by_cases me : t = self
    · subst me
      rw [update_self] at on
      exact .inl (mem_of_mem_tail on)
    · rw [update_of_ne me] at on
      exact .inl on

theorem Instr.Knows.later {s' : Core} (knows : i.Knows s t) (later : s.OnceLater s')
    (initing : s'.initing t = s.initing t) : i.Knows s' t := by
  have done : ∀ {o}, s.onceState o = .done → s'.onceState o = .done := by
    intro o was
    rcases later o with same | ⟨fresh, _⟩ | done
    · exact same.trans was
    · cases was.symm.trans fresh
    · exact done
  cases i with
  | onceWait o =>
    show s'.onceState o ≠ .fresh
    have was : s.onceState o ≠ .fresh := knows
    rcases later o with same | ⟨fresh, _⟩ | done
    · rwa [same]
    · exact absurd fresh was
    · rw [done]
      simp
  | onceDone o =>
    show (s'.initing t).head? = some o
    rw [initing]
    exact knows
  | ret k owned =>
    cases k with
    | once o =>
      show s'.onceState o = .done ∨ o ∈ s'.initing t
      rw [initing]
      exact Or.imp_left done knows
    | onceInitReturn o => exact done knows
    | _ => trivial
  | _ => trivial

/-- **What holds of the controls between steps.** -/
structure OnceInv (a : World Lists) : Prop where
  busy : ∀ {t o}, o ∈ a.core.initing t → a.core.onceState o = .running
  one : ∀ {t u o}, o ∈ a.core.initing t → o ∈ a.core.initing u → t = u
  nodup : ∀ t, (a.core.initing t).Nodup
  parked : ∀ {t o}, t ∈ a.q (.once o) → a.core.onceState o = .running
  knows : ∀ {t i}, (a.core.code t).head? = some i → i.Knows a.core t

namespace OnceInv

theorem init : OnceInv canbootSchedInit where
  busy on := absurd on not_mem_nil
  one on := absurd on not_mem_nil
  nodup _ := nodup_nil
  parked on := absurd on not_mem_nil
  knows head := by cases head

variable (once : OnceInv a)

include once

/-- Steps that leave the controls and their waiters alone. -/
theorem frame {q : Lists} (state : s.onceState = a.core.onceState)
    (initing : s.initing = a.core.initing) (queue : ∀ o, q (.once o) = a.q (.once o))
    (knows : ∀ {t i}, (s.code t).head? = some i → i.Knows a.core t) : OnceInv ⟨q, s⟩ := by
  refine ⟨fun {t o} on => ?_, fun {t u o} on also => ?_, fun t => ?_, fun {t o} on => ?_, fun {t i} head => ?_⟩
  · rw [state]
    exact once.busy (initing ▸ on)
  · exact once.one (initing ▸ on) (initing ▸ also)
  · rw [initing]
    exact once.nodup t
  · rw [state]
    have waits : t ∈ q (.once o) := on
    rw [queue] at waits
    exact once.parked waits
  · exact (knows head).later (fun o => .inl (congrFun state o)) (congrFun initing t)

/-- The control of a thread about to mark it done is its last one, and nobody else's. -/
theorem finishing (head : (a.core.initing t).head? = some o) :
    o ∉ (a.core.initing t).tail ∧ ∀ u, u ≠ t → o ∉ a.core.initing u := by
  have here : o ∈ a.core.initing t := mem_of_head? head
  refine ⟨fun again => ?_, fun u ne on => ne (once.one on here)⟩
  have nodup := once.nodup t
  cases all : a.core.initing t with
  | nil => rw [all] at head; cases head
  | cons x xs =>
    rw [all] at head again nodup
    cases head
    exact (nodup_cons.mp nodup).1 again

theorem did_busy (code : a.core.code self = i :: rest) (did : OnceDid a a' self rest i) {o' : Nat}
    (on : o' ∈ a'.core.initing t) : a'.core.onceState o' = .running := by
  cases did with
  | other state queue initing fewer =>
    rw [state]
    rcases fewer t with same | none
    · exact once.busy (same ▸ on)
    · rw [none] at on
      cases on
  | past _ _ state _ initing | park _ state _ _ initing =>
    rw [state]
    exact once.busy (congrFun initing t ▸ on)
  | @start o fresh state queue initing =>
    rw [state]
    by_cases same : o' = o
    · rw [same, update_self]
    · rw [update_of_ne same]
      rw [initing] at on
      by_cases me : t = self
      · subst me
        rw [update_self] at on
        exact once.busy ((mem_cons.mp on).resolve_left same)
      · rw [update_of_ne me] at on
        exact once.busy on
  | @finish o state woken queue initing =>
    have mine : (a.core.initing self).head? = some o :=
      once.knows (t := self) (i := .onceDone o) (by rw [code]; rfl)
    obtain ⟨last, only⟩ := once.finishing mine
    rw [initing] at on
    have other : o' ≠ o ∧ o' ∈ a.core.initing t := by
      by_cases me : t = self
      · subst me
        rw [update_self] at on
        exact ⟨fun same => last (same ▸ on), mem_of_mem_tail on⟩
      · rw [update_of_ne me] at on
        exact ⟨fun same => only t me (same ▸ on), on⟩
    rw [state, update_of_ne other.1]
    exact once.busy other.2

theorem did_one (did : OnceDid a a' self rest i) {u : Tid} (on : o ∈ a'.core.initing t) (also : o ∈ a'.core.initing u)
    : t = u := by
  rcases did.inside on with old | ⟨rfl, _, fresh⟩
  · rcases did.inside also with old' | ⟨rfl, _, fresh⟩
    · exact once.one old old'
    · cases fresh.symm.trans (once.busy old)
  · rcases did.inside also with old' | ⟨rfl, _, _⟩
    · cases fresh.symm.trans (once.busy old')
    · rfl

theorem did_nodup (did : OnceDid a a' self rest i) (t : Tid) : (a'.core.initing t).Nodup := by
  cases did with
  | other state queue initing fewer =>
    rcases fewer t with same | none
    · rw [same]
      exact once.nodup t
    · rw [none]
      exact nodup_nil
  | past _ _ _ _ initing | park _ _ _ _ initing =>
    rw [initing]
    exact once.nodup t
  | @start o fresh state queue initing =>
    rw [initing]
    by_cases me : t = self
    · subst me
      rw [update_self, nodup_cons]
      refine ⟨fun on => ?_, once.nodup t⟩
      cases fresh.symm.trans (once.busy on)
    · rw [update_of_ne me]
      exact once.nodup t
  | @finish o state woken queue initing =>
    rw [initing]
    by_cases me : t = self
    · subst me
      rw [update_self]
      exact (once.nodup t).tail
    · rw [update_of_ne me]
      exact once.nodup t

theorem did_parked (code : a.core.code self = i :: rest) (did : OnceDid a a' self rest i) {o' : Nat}
    (on : t ∈ a'.q (.once o')) : a'.core.onceState o' = .running := by
  cases did with
  | other state queue | past _ _ state queue =>
    rw [state]
    exact once.parked (queue o' ▸ on)
  | @start o fresh state queue =>
    rw [state]
    by_cases same : o' = o
    · rw [same, update_self]
    · rw [update_of_ne same]
      exact once.parked (queue o' ▸ on)
  | @park o _ running state joined queue =>
    rw [state]
    by_cases same : o' = o
    · rw [same]
      rcases running with ⟨running, _⟩ | ⟨undone, rfl⟩
      · exact running
      · -- a thread in the loop came when the control was running, and a control never becomes fresh again
        have begun : a.core.onceState o ≠ .fresh := once.knows (t := self) (i := .onceWait o) (by rw [code]; rfl)
        cases state : a.core.onceState o with
        | fresh => exact absurd state begun
        | running => rfl
        | done => exact absurd state undone
    · exact once.parked (queue o' same ▸ on)
  | @finish o state woken queue =>
    by_cases same : o' = o
    · rw [same, woken] at on
      cases on
    · rw [state, update_of_ne same]
      exact once.parked (queue o' same ▸ on)

/-- What a section's own thread knows afterwards. -/
theorem did_knows (shape : Shape (a.core.code self))
    (alive : a.core.Alive self) (code : a.core.code self = i :: rest) (did : Did a c self rest i a') {i' : Instr}
    (head : (a'.core.code self).head? = some i') : i'.Knows a'.core self := by
  have shaped := (code ▸ shape).onceCode
  have ran := did.once code
  cases ran with
  | other state queue initing fewer away =>
    rcases did.own alive code with own | ⟨own, _⟩ | ⟨own | ⟨o, rfl, own⟩, _⟩
    · refine Instr.knows_of_away ?_
      rw [own] at head
      cases shaped with
      | other away => exact away _ (mem_cons_of_mem _ (mem_of_head? head))
      | enter | wait | past | finish | finished => cases away
    · rw [own] at head
      cases head
    · rw [own] at head
      cases head
      exact Instr.knows_of_away away
    · cases away
  | past which done state queue initing own =>
    rw [own] at head
    rcases which with rfl | rfl
    · cases shaped with
      | other away => cases away _ mem_cons_self
      | enter =>
        cases head
        exact .inl (by rw [state]; exact done)
    · cases shaped with
      | other away => cases away _ mem_cons_self
      | wait =>
        cases head
        exact .inl (by rw [state]; exact done)
  | start fresh state queue initing own =>
    rw [own] at head
    cases shaped with
    | other away => cases away _ mem_cons_self
    | enter =>
      cases head
      refine .inr ?_
      rw [initing, update_self]
      exact mem_cons_self
  | @park o _ running state joined queue initing own =>
    rw [own] at head
    cases head
    show a'.core.onceState o ≠ .fresh
    rw [state]
    rcases running with ⟨running, _⟩ | ⟨_, rfl⟩
    · rw [running]
      simp
    · exact once.knows (t := self) (i := .onceWait o) (by rw [code]; rfl)
  | finish state woken queue initing own =>
    rw [own] at head
    cases shaped with
    | other away => cases away _ mem_cons_self
    | finish =>
      cases head
      show a'.core.onceState _ = .done
      rw [state, update_self]

/-- **Sections keep the invariant.** -/
theorem did {j : Nat} (inv : Inv a) (ended : a.Ended)
    (shape : Shape (a.core.code (.pool j))) (here : a.core.current c = some (.pool j))
    (code : a.core.code (.pool j) = i :: rest) (did : Did a c (.pool j) rest i a') : OnceInv a' := by
  have ran := did.once code
  refine ⟨once.did_busy code ran, once.did_one ran, once.did_nodup ran, once.did_parked code ran, fun {t i'} head => ?_⟩
  by_cases me : t = .pool j
  · subst me
    exact once.did_knows shape (inv.alive here) code did head
  · rcases did.fate me with kept | ⟨e, _, born⟩
    · rw [kept.code] at head
      have same : a'.core.initing t = a.core.initing t := by
        cases ran with
        | other state queue initing =>
          refine initing t ?_
          cases t with
          | pool l =>
            by_contra dead
            rw [(ended l dead).2] at head
            cases head
          | idle c' =>
            rw [inv.idleCode c'] at head
            cases head
        | past _ _ _ _ initing | park _ _ _ _ initing => exact congrFun initing t
        | start _ _ _ initing | finish _ _ _ initing => rw [initing, update_of_ne me]
      exact (once.knows head).later ran.later same
    · rw [born.code] at head
      refine Instr.knows_of_away ?_
      cases e with
      | thread => cases head
      | pthread =>
        cases head
        rfl

end OnceInv

theorem exec_onceInv (inv : Inv a) (ended : a.Ended) (shape : ∀ t, Shape (a.core.code t)) (once : OnceInv a)
    (done : exec policy fuel act a = some a') : OnceInv a' := by
  cases exec_turn inv done with
  | section_ j run here goes code did => exact once.did inv ended (shape _) here code did
  | call j k called here code fits next =>
    obtain ⟨rc, joins, core⟩ := begin_eq a.core (.pool j) k
    subst next
    rw [World.mod, core]
    refine once.frame rfl rfl (fun _ => rfl) fun {t i} head => ?_
    by_cases me : t = .pool j
    · subst me
      simp only [update_self, Core.callCode] at head
      split at head
      · cases k with
        | onceInitReturn o =>
          cases head
          exact eq_of_beq fits
        | entryReturn v =>
          refine Instr.knows_of_away ?_
          rcases e : a.core.entry (.pool j) with _ | _ | _ <;> rw [e] at head <;> cases head <;> rfl
        | _ =>
          cases head
          trivial
      · exact once.knows head
    · simp only [update_of_ne me] at head
      exact once.knows head
  | @skip c i rest j run here goes code skips next =>
    subst next
    refine once.frame rfl rfl (fun _ => rfl) fun {t i'} head => ?_
    by_cases me : t = .pool j
    · subst me
      simp only [Core.setCode, update_self] at head
      refine Instr.knows_of_away ?_
      cases (code ▸ shape (.pool j)).onceCode with
      | other away => exact away _ (mem_cons_of_mem _ (mem_of_head? head))
      | enter | wait | finish => cases skips
      | past | finished => cases head
    · simp only [Core.setCode, update_of_ne me] at head
      exact once.knows head
  | calm quiet uncalled calm =>
    obtain ⟨st, cur, lk, rs, core⟩ := calm.core
    obtain ⟨q, s⟩ := a'
    cases core
    exact once.frame rfl rfl (fun o => calm.waits _ (by simp)) fun head => once.knows head

theorem Reachable.once (reach : Reachable policy fuel a) : OnceInv a := by
  induction reach with
  | init => exact .init
  | step reach done once => exact exec_onceInv reach.inv reach.ended reach.shape once done

end CanBoot.Sched
