import CanBoot.Laws.Sched.Steps

/-!
# Who owns the VM lock

The sections of a call on the VM lock come in a fixed order: ask, drop, take again, or, at the end of a start
routine, drop for good. `GilOk` says for each point of that order whether the thread owns the lock, and
`GilInv` that every thread is at such a point. No thread changes whether another one owns the lock
(`GilInv.others`): a thread that drops it owned it.

The owner is a slot, not a thread. A thread that is not of the VM can find itself the owner, in the slot of a
dead one; the invariant says what holds then too.
-/

namespace CanBoot.Sched

open Function List

/-! ## A thread's place in the order -/

/-- The sections that take, drop or ask for the VM lock, and the end of an entry that has dropped it. -/
def Instr.isGil : Instr → Bool
  | .gilOwned | .gilReleaseIf | .gilAcquireIf | .gilAcquire | .gilRelease | .threadExit _ .entry => true
  | _ => false

def gilOps (code : List Instr) : List Instr := code.filter Instr.isGil

/-- Whether the call a thread is in was made by an owner of the VM lock. -/
def calledBy (code : List Instr) : Option Bool :=
  match code.getLast? with
  | some (.ret _ owned) => some owned
  | _ => none

/-- A thread of the VM: the boot thread, or one made by `pthread_create`. -/
def Core.vm (s : Core) (t : Tid) : Bool := s.entry t != some .thread

/-- Whether a thread is to own the VM lock outside the sections that drop it. -/
def Core.claims (s : Core) (t : Tid) : Bool := (calledBy (s.code t)).getD (s.vm t)

/-- Where a thread stands, and what it may assume there. -/
inductive GilOk (claims vm had owns : Bool) : List Instr → Prop
  | user (holds : claims = true → owns = true) : GilOk claims vm had owns []
  | ask (holds : owns = claims) : GilOk claims vm had owns [.gilOwned, .gilReleaseIf, .gilAcquireIf]
  | drop (holds : claims = true → owns = true) (noted : had = claims) :
      GilOk claims vm had owns [.gilReleaseIf, .gilAcquireIf]
  | away (noted : had = claims) : GilOk claims vm had owns [.gilAcquireIf]
  | start : GilOk claims vm had owns [.gilAcquire]
  | last {v : Nat} (holds : owns = true) : GilOk claims vm had owns [.gilRelease, .threadExit v .entry]
  | over {v : Nat} (free : vm = true → owns = false) : GilOk claims vm had owns [.threadExit v .entry]

def Core.GilOk (s : Core) (t : Tid) : Prop :=
  Sched.GilOk (s.claims t) (s.vm t) (s.hadGil t) (s.ownsGil t) (gilOps (s.code t))

/-- Every thread stands where the order says. -/
structure GilInv (a : World Lists) : Prop where
  ok : ∀ j, a.core.resume (.pool j) ≠ .gone → a.core.GilOk (.pool j)
  vm : ∀ j, a.core.resume (.pool j) ≠ .gone → a.core.vm (.pool j) = true → a.core.claims (.pool j) = true
  rets : ∀ j, (a.core.code (.pool j)).dropLast.any Instr.isRet = false

theorem gilInv_init : GilInv canbootSchedInit where
  ok j alive := by
    have boot : j = 0 := by
      by_contra ne
      exact alive (if_neg ne)
    subst boot
    exact .user fun _ => rfl
  vm _ _ vm := vm
  rets _ := rfl

/-! ## Codes -/

theorem gilOps_body (gen : Tid → Nat) (e : Option Entry) (k : Call) (owned : Bool) :
    gilOps (k.body gen e ++ [.ret k owned]) = [] ∨
      gilOps (k.body gen e ++ [.ret k owned]) = [.gilOwned, .gilReleaseIf, .gilAcquireIf] ∨
      (∃ v, k = .entryReturn v ∧ e = some .pthread ∧
        gilOps (k.body gen e ++ [.ret k owned]) = [.gilRelease, .threadExit v .entry]) ∨
      ∃ v, k = .entryReturn v ∧ e ≠ some .pthread ∧
        gilOps (k.body gen e ++ [.ret k owned]) = [.threadExit v .entry] := by
  cases k with
  | entryReturn v =>
    rcases e with _ | _ | _
    · exact .inr (.inr (.inr ⟨v, rfl, by simp, rfl⟩))
    · exact .inr (.inr (.inr ⟨v, rfl, by simp, rfl⟩))
    · exact .inr (.inr (.inl ⟨v, rfl, rfl, rfl⟩))
  | pthreadJoin | condWait | pump => exact .inr (.inl rfl)
  | _ => exact .inl rfl

theorem rets_body (gen : Tid → Nat) (e : Option Entry) (k : Call) (owned : Bool) :
    (k.body gen e ++ [Instr.ret k owned]).dropLast.any Instr.isRet = false := by
  rw [dropLast_concat]
  cases k with
  | entryReturn v => rcases e with _ | _ | _ <;> rfl
  | _ => rfl

theorem calledBy_body (body : List Instr) (k : Call) (owned : Bool) :
    calledBy (body ++ [Instr.ret k owned]) = some owned := by
  simp [calledBy]

variable {i : Instr}

theorem gilOps_gil (op : i.isGil = true) (rest : List Instr) : gilOps (i :: rest) = i :: gilOps rest := by
  simp [gilOps, op]

theorem gilOps_other (op : i.isGil = false) (rest : List Instr) : gilOps (i :: rest) = gilOps rest := by
  simp [gilOps, op]

/-- A section that is no return leaves the call it belongs to. -/
theorem calledBy_cons (call : i.isRet = false) (rest : List Instr) : calledBy (i :: rest) = calledBy rest := by
  cases rest with
  | nil => cases i <;> first | rfl | exact nomatch call
  | cons j rest => simp [calledBy, getLast?_cons_cons]

theorem rets_tail {l : List Instr} (none : (i :: l).dropLast.any Instr.isRet = false) :
    l.dropLast.any Instr.isRet = false := by
  cases l with
  | nil => rfl
  | cons x l =>
    rw [dropLast_cons_cons, any_cons, Bool.or_eq_false_iff] at none
    exact none.2

theorem rets_cons {l : List Instr} (call : i.isRet = false)
    (none : l.dropLast.any Instr.isRet = false) : (i :: l).dropLast.any Instr.isRet = false := by
  cases l with
  | nil => rfl
  | cons x l =>
    rw [dropLast_cons_cons, any_cons, Bool.or_eq_false_iff]
    exact ⟨call, none⟩

/-! ## What a section does to the VM lock -/

/-- A section, seen from the VM lock. -/
inductive GilDid (a a' : World Lists) (self : Tid) (rest : List Instr) : Instr → Prop
  | other {i : Instr} (locked : a'.core.gilLocked = a.core.gilLocked)
      (owner : a'.core.gilOwner = a.core.gilOwner) (had : a'.core.hadGil self = a.core.hadGil self)
      (op : i.isGil = false ∨ a'.core.resume self = .gone) : GilDid a a' self rest i
  | note (locked : a'.core.gilLocked = a.core.gilLocked) (owner : a'.core.gilOwner = a.core.gilOwner)
      (had : a'.core.hadGil self = a.core.ownsGil self) (code : a'.core.code self = rest) :
      GilDid a a' self rest .gilOwned
  | take {i : Instr} (which : i.acquires = true)
      (free : ¬ (a.core.gilLocked = true ∧ a.core.gilOwner ≠ some self))
      (locked : a'.core.gilLocked = true) (owner : a'.core.gilOwner = some self)
      (had : a'.core.hadGil self = a.core.hadGil self) (code : a'.core.code self = rest) :
      GilDid a a' self rest i
  | park {i : Instr} (which : i.acquires = true) (locked : a'.core.gilLocked = a.core.gilLocked)
      (owner : a'.core.gilOwner = a.core.gilOwner) (had : a'.core.hadGil self = a.core.hadGil self)
      (code : a'.core.code self = a.core.code self) : GilDid a a' self rest i
  | release {i : Instr} (which : i.releases = true) (locked : a'.core.gilLocked = false)
      (had : a'.core.hadGil self = a.core.hadGil self) (code : a'.core.code self = rest) :
      GilDid a a' self rest i

variable {a : World Lists}

theorem Did.gil {a' : World Lists} {c : Cpu} {self : Tid} {rest : List Instr}
    (did : Did a c self rest i a') (alive : a.core.Alive self) : GilDid a a' self rest i := by
  cases did with
  | gilOwned => refine .note ?_ ?_ ?_ ?_ <;> simp
  | gilRelease which => refine .release which ?_ ?_ ?_ <;> simp
  | gilTake which free => refine .take which free ?_ ?_ ?_ ?_ <;> simp
  | gilPark which => refine .park which ?_ ?_ ?_ ?_ <;> simp
  | create slot free =>
    have ne : self ≠ .pool _ := fun same => alive.2 (same ▸ free)
    refine .other ?_ ?_ ?_ (.inl rfl) <;> simp [ne]
  | exit pool =>
    subst pool
    rw [exitSwitch]
    split <;> refine .other ?_ ?_ ?_ (.inr ?_) <;> simp
  | yield =>
    rw [canbootSchedYield]
    split <;> refine .other ?_ ?_ ?_ (.inl rfl) <;> simp
  | oncePast which =>
    rcases which with rfl | rfl <;> refine .other ?_ ?_ ?_ (.inl rfl) <;> simp
  | _ => refine .other ?_ ?_ ?_ (.inl rfl) <;> simp

/-! ## The invariant -/

namespace GilInv

variable {a a' : World Lists} (gil : GilInv a) (inv : Inv a) (loops : a.Loops) {c : Cpu} {j : Nat} {i : Instr}
  {rest : List Instr} (here : a.core.current c = some (.pool j)) (enters : a.Enters c (.pool j) i)
  (code : a.core.code (.pool j) = i :: rest)

include gil

theorem calm (calm : Calm a a') : GilInv a' := by
  obtain ⟨st, cur, lk, rs, core⟩ := calm.core
  have alive : ∀ j, a'.core.resume (.pool j) ≠ .gone → a.core.resume (.pool j) ≠ .gone := by
    intro j alive
    rcases calm.resume (.pool j) with same | ⟨runs, _⟩
    · rw [← same]
      exact alive
    · rcases runs with runs | runs <;> rw [runs] <;> simp
  refine ⟨fun j live => ?_, fun j live => ?_, ?_⟩
  · have ok := gil.ok j (alive j live)
    rw [core]
    exact ok
  · have vm := gil.vm j (alive j live)
    rw [core]
    exact vm
  · rw [core]
    exact gil.rets

include loops enters code

/-- A thread that drops the VM lock owns it. -/
theorem owns_of_releases (which : i.releases = true) : a.core.ownsGil (.pool j) = true := by
  have ok := gil.ok j enters.alive
  rw [Core.GilOk, code] at ok
  cases i with
  | gilRelease =>
    rw [gilOps_gil rfl] at ok
    generalize gilOps rest = ops at ok
    cases ok with
    | last holds => exact holds
  | gilReleaseIf =>
    have had : a.core.hadGil (.pool j) = true := by
      rcases enters with ⟨_, _, skips⟩ | ⟨retest, _⟩
      · simpa [Instr.skips] using skips
      · obtain ⟨i, head, looping⟩ := loops _ retest
        rw [code] at head
        cases head
        exact nomatch looping
    rw [gilOps_gil rfl] at ok
    generalize gilOps rest = ops at ok
    cases ok with
    | drop holds noted => exact holds (noted ▸ had)
  | _ => exact nomatch which

include inv here

/-- **No thread changes whether another one owns the VM lock.** -/
theorem others (did : Did a c (.pool j) rest i a') {t : Tid} (ne : t ≠ .pool j) :
    a'.core.ownsGil t = a.core.ownsGil t := by
  simp only [Core.ownsGil]
  cases did.gil (inv.alive here) with
  | other locked owner | note locked owner | park _ locked owner => rw [locked, owner]
  | take _ free locked owner =>
    rw [locked, owner]
    have mine : (some (Tid.pool j) == some t) = false := by simpa using ne.symm
    rw [mine, Bool.and_false]
    by_contra holds
    have held : a.core.gilLocked = true ∧ a.core.gilOwner = some t := by simpa using Ne.symm holds
    refine free ⟨held.1, ?_⟩
    rw [held.2]
    simpa using ne
  | release which locked =>
    have holds := gil.owns_of_releases loops enters code which
    have held : a.core.gilLocked = true ∧ a.core.gilOwner = some (.pool j) := by
      simpa [Core.ownsGil] using holds
    have mine : (some (Tid.pool j) == some t) = false := by simpa using ne.symm
    rw [locked, held.1, held.2, mine]
    rfl

omit loops in
/-- A section's own thread stays in the order. -/
theorem own (did : Did a c (.pool j) rest i a') (live : a'.core.resume (.pool j) ≠ .gone) :
    a'.core.GilOk (.pool j) ∧ calledBy (a'.core.code (.pool j)) = calledBy (a.core.code (.pool j)) := by
  have lives := inv.alive here
  have ok := gil.ok j enters.alive
  have call := calledBy_cons did.call rest
  have vm : a'.core.vm (.pool j) = a.core.vm (.pool j) := by
    simp only [Core.vm, (did.same lives.2).2]
  -- the call is the same, whichever way the code went on
  have called : calledBy (a'.core.code (.pool j)) = calledBy (a.core.code (.pool j)) := by
    rw [code, call]
    rcases did.own lives code with own | ⟨_, gone⟩ | ⟨own | ⟨o, _, own⟩, _⟩
    · rw [own]
    · exact absurd gone live
    · rw [own, call]
    · rw [own]
      exact calledBy_cons rfl rest
  have claims : a'.core.claims (.pool j) = a.core.claims (.pool j) := by
    rw [Core.claims, Core.claims, called, vm]
  refine ⟨?_, called⟩
  rw [Core.GilOk, claims, vm]
  rw [Core.GilOk, code] at ok
  cases did.gil lives with
  | other locked owner had op =>
    have owns : a'.core.ownsGil (.pool j) = a.core.ownsGil (.pool j) := by
      rw [Core.ownsGil, Core.ownsGil, locked, owner]
    rw [had, owns]
    rcases op with op | gone
    · have ops : gilOps (a'.core.code (.pool j)) = gilOps (i :: rest) := by
        rw [gilOps_other op]
        rcases did.own lives code with own | ⟨_, gone⟩ | ⟨own | ⟨o, _, own⟩, _⟩
        · rw [own]
        · exact absurd gone live
        · rw [own, gilOps_other op]
        · rw [own]
          exact gilOps_other rfl rest
      rw [ops]
      exact ok
    · exact absurd gone live
  | note locked owner had next =>
    have owns : a'.core.ownsGil (.pool j) = a.core.ownsGil (.pool j) := by
      rw [Core.ownsGil, Core.ownsGil, locked, owner]
    rw [had, owns, next]
    rw [gilOps_gil rfl] at ok
    generalize gilOps rest = ops at ok
    cases ok with
    | ask holds => exact .drop (fun claims => holds.trans claims) holds
  | take which free locked owner had next =>
    have owns : a'.core.ownsGil (.pool j) = true := by
      rw [Core.ownsGil, locked, owner]
      simp
    rw [had, owns, next]
    cases i with
    | gilAcquireIf | gilAcquire =>
      rw [gilOps_gil rfl] at ok
      generalize gilOps rest = ops at ok
      cases ok
      exact .user fun _ => rfl
    | _ => exact nomatch which
  | park which locked owner had next =>
    have owns : a'.core.ownsGil (.pool j) = a.core.ownsGil (.pool j) := by
      rw [Core.ownsGil, Core.ownsGil, locked, owner]
    rw [had, owns, next, code]
    exact ok
  | release which locked had next =>
    have owns : a'.core.ownsGil (.pool j) = false := by
      rw [Core.ownsGil, locked]
      rfl
    rw [had, owns, next]
    cases i with
    | gilReleaseIf =>
      rw [gilOps_gil rfl] at ok
      generalize gilOps rest = ops at ok
      cases ok with
      | drop holds noted => exact .away noted
    | gilRelease =>
      rw [gilOps_gil rfl] at ok
      generalize gilOps rest = ops at ok
      cases ok with
      | last => exact .over fun _ => rfl
    | _ => exact nomatch which

/-- **Sections keep the order.** -/
theorem did (did : Did a c (.pool j) rest i a') : GilInv a' := by
  have lives := inv.alive here
  have vm : ∀ {t}, a.core.entry t = a'.core.entry t → a'.core.vm t = a.core.vm t := by
    intro t same
    simp only [Core.vm, same]
  have fate : ∀ l, l ≠ j → Kept a.core a'.core (.pool l) ∨ ∃ e, Born a.core a'.core (.pool l) e := by
    intro l ne
    rcases did.fate (t := .pool l) (by simpa using ne) with kept | ⟨e, _, born⟩
    · exact .inl kept
    · exact .inr ⟨e, born⟩
  have bornClaims : ∀ {t e}, Born a.core a'.core t e → a'.core.claims t = a'.core.vm t := by
    intro t e born
    rw [Core.claims, born.code]
    cases e <;> rfl
  refine ⟨fun l live => ?_, fun l live => ?_, fun l => ?_⟩
  · by_cases me : l = j
    · subst me
      exact (gil.own inv here enters code did live).1
    · rcases fate l me with kept | ⟨e, born⟩
      · have ok := gil.ok l (kept.resume ▸ live)
        have owns := gil.others inv loops here enters code did (t := .pool l) (by simpa using me)
        rw [Core.GilOk, Core.claims, vm kept.entry.symm, kept.code, kept.hadGil, owns]
        exact ok
      · rw [Core.GilOk, bornClaims born, born.code, Core.vm, born.entry]
        cases e with
        | thread => exact .user fun claims => nomatch claims
        | pthread => exact .start
  · by_cases me : l = j
    · subst me
      have called := (gil.own inv here enters code did live).2
      rw [Core.claims, called, vm (did.same lives.2).2.symm]
      exact gil.vm l enters.alive
    · rcases fate l me with kept | ⟨e, born⟩
      · rw [Core.claims, kept.code, vm kept.entry.symm]
        exact gil.vm l (kept.resume ▸ live)
      · rw [bornClaims born]
        exact id
  · by_cases me : l = j
    · subst me
      have rets := gil.rets l
      rw [code] at rets
      rcases did.own lives code with own | ⟨own, _⟩ | ⟨own | ⟨o, _, own⟩, _⟩
      · rw [own]
        exact rets_tail rets
      · rw [own]
        rfl
      · rw [own]
        exact rets
      · rw [own]
        exact rets_cons rfl (rets_tail rets)
    · rcases fate l me with kept | ⟨e, born⟩
      · rw [kept.code]
        exact gil.rets l
      · rw [born.code]
        cases e <;> rfl

end GilInv

/-- A running thread's work on its own code. -/
theorem GilInv.recode (gil : GilInv a) (j : Nat) (code : List Instr) {f : Core → Core}
    (codes : (f a.core).code = update a.core.code (.pool j) code) (resume : (f a.core).resume = a.core.resume)
    (had : (f a.core).hadGil = a.core.hadGil) (entry : (f a.core).entry = a.core.entry)
    (locked : (f a.core).gilLocked = a.core.gilLocked) (owner : (f a.core).gilOwner = a.core.gilOwner)
    (ok : GilOk ((calledBy code).getD (a.core.vm (.pool j))) (a.core.vm (.pool j)) (a.core.hadGil (.pool j))
      (a.core.ownsGil (.pool j)) (gilOps code))
    (vm : a.core.vm (.pool j) = true → (calledBy code).getD (a.core.vm (.pool j)) = true)
    (rets : code.dropLast.any Instr.isRet = false) : GilInv (a.mod f) := by
  have vms : ∀ t, (f a.core).vm t = a.core.vm t := fun t => by rw [Core.vm, Core.vm, entry]
  have owns : ∀ t, (f a.core).ownsGil t = a.core.ownsGil t := fun t => by
    rw [Core.ownsGil, Core.ownsGil, locked, owner]
  refine ⟨fun l live => ?_, fun l live => ?_, fun l => ?_⟩
  · change (f a.core).resume (.pool l) ≠ .gone at live
    rw [resume] at live
    show (f a.core).GilOk (.pool l)
    rw [Core.GilOk, Core.claims, vms, owns, had, codes]
    by_cases me : l = j
    · subst me
      rw [update_self]
      exact ok
    · rw [update_of_ne (by simpa using me)]
      exact gil.ok l live
  · change (f a.core).resume (.pool l) ≠ .gone at live
    rw [resume] at live
    show (f a.core).vm (.pool l) = true → (f a.core).claims (.pool l) = true
    rw [Core.claims, vms, codes]
    by_cases me : l = j
    · subst me
      rw [update_self]
      exact vm
    · rw [update_of_ne (by simpa using me)]
      exact gil.vm l live
  · show ((f a.core).code (.pool l)).dropLast.any Instr.isRet = false
    rw [codes]
    by_cases me : l = j
    · subst me
      rw [update_self]
      exact rets
    · rw [update_of_ne (by simpa using me)]
      exact gil.rets l

theorem exec_gilInv {policy : Policy} {fuel : Nat} {act : Act} {a' : World Lists} (inv : Inv a)
    (loops : a.Loops) (gil : GilInv a) (done : exec policy fuel act a = some a') : GilInv a' := by
  cases exec_step inv done with
  | section_ j here enters code did => exact gil.did inv loops here enters code did
  | call j k here resume code fits allowed next =>
    have live : a.core.resume (.pool j) ≠ .gone := by rw [resume]; simp
    have ok := gil.ok j live
    have vm := gil.vm j live
    -- between calls a thread that is to own the VM lock does
    have user : a.core.vm (.pool j) = true → a.core.ownsGil (.pool j) = true := by
      intro isVm
      have claims := vm isVm
      rw [Core.GilOk, code] at ok
      cases ok with
      | user holds => exact holds claims
    obtain ⟨rc, joins, core⟩ := begin_eq a.core (.pool j) k
    subst next
    refine gil.recode j (a.core.callCode (.pool j) k) ?_ ?_ ?_ ?_ ?_ ?_ ?_ ?_ ?_
    iterate 6 rw [core]
    · rw [Core.callCode]
      split
      · rw [calledBy_body]
        rcases gilOps_body a.core.hist.gen (a.core.entry (.pool j)) k (a.core.ownsGil (.pool j)) with
          ops | ops | ⟨v, rfl, e, ops⟩ | ⟨v, rfl, e, ops⟩
        · rw [ops]
          exact .user id
        · rw [ops]
          exact .ask rfl
        · rw [ops]
          exact .last (user (by rw [Core.vm, e]; rfl))
        · rw [ops]
          refine .over fun isVm => ?_
          -- an entry that is not of the VM, or none, which has no return
          have entry : (a.core.entry (.pool j)).isSome = true := fits
          have other : a.core.entry (.pool j) ≠ some .thread := by simpa [Core.vm] using isVm
          rcases made : a.core.entry (.pool j) with _ | _ | _ <;> simp [made] at entry other e
      · exact ok
    · rw [Core.callCode]
      split
      · rw [calledBy_body]
        exact user
      · exact vm
    · rw [Core.callCode]
      split
      · exact rets_body ..
      · exact gil.rets j
  | @skip c i rest j here resume code skips next =>
    have live : a.core.resume (.pool j) ≠ .gone := by rw [resume]; simp
    have ok := gil.ok j live
    have vm := gil.vm j live
    have rets := gil.rets j
    rw [Core.GilOk, Core.claims, code] at ok
    rw [Core.claims, code] at vm
    rw [code] at rets
    subst next
    refine gil.recode j rest rfl rfl rfl rfl rfl rfl ?_ ?_ (rets_tail rets)
    · cases i with
      | gilReleaseIf =>
        rw [gilOps_gil rfl, calledBy_cons rfl] at ok
        generalize gilOps rest = ops at ok
        cases ok with
        | drop holds noted => exact .away noted
      | gilAcquireIf =>
        have had : a.core.hadGil (.pool j) = false := by simpa [Instr.skips] using skips
        rw [gilOps_gil rfl, calledBy_cons rfl] at ok
        generalize gilOps rest = ops at ok
        cases ok with
        | away noted => exact .user fun claims => by cases (noted.trans claims).symm.trans had
      | ret k owned =>
        cases rest with
        | cons x rest => simp [Instr.isRet] at rets
        | nil =>
          rw [gilOps_other rfl] at ok
          cases ok with
          | user holds => exact .user fun isVm => holds (vm isVm)
      | _ => cases skips
    · intro isVm
      cases i with
      | gilReleaseIf | gilAcquireIf =>
        rw [calledBy_cons rfl] at vm
        exact vm isVm
      | ret k owned =>
        cases rest with
        | cons x rest => simp [Instr.isRet] at rets
        | nil => exact isVm
      | _ => cases skips
  | calm calm => exact gil.calm calm

theorem Reachable.gil {policy : Policy} {fuel : Nat} (reach : Reachable policy fuel a) : GilInv a := by
  induction reach with
  | init => exact gilInv_init
  | step reach done gil => exact exec_gilInv reach.inv reach.loops gil done

/-! ## Running VM code -/

/-- A thread of the VM runs its own code, in no call. -/
abbrev Core.InVm (s : Core) (t : Tid) : Prop := s.vm t = true ∧ s.code t = [] ∧ s.resume t ≠ .gone

/-- **VM code runs on one thread at a time**, in every interleaving: the thread that runs it owns the VM lock. -/
theorem vm_exclusive {policy : Policy} {fuel : Nat} {w : Linked} (reach : Reachable policy fuel w) {j : Nat}
    (runs : w.core.InVm (.pool j)) : w.core.ownsGil (.pool j) = true ∧ ∀ i, w.core.InVm (.pool i) → i = j := by
  obtain ⟨a, reached, sim⟩ := reach.sim
  have owns : ∀ {i}, w.core.InVm (.pool i) → w.core.ownsGil (.pool i) = true := by
    rw [sim.core]
    intro i ⟨vm, code, live⟩
    have ok := reached.gil.ok i live
    rw [Core.GilOk, code] at ok
    cases ok with
    | user holds => exact holds (reached.gil.vm i live vm)
  have one := owns runs
  refine ⟨one, fun i other => ?_⟩
  have two := owns other
  simp only [Core.ownsGil, Bool.and_eq_true, beq_iff_eq] at one two
  simpa using two.2.symm.trans one.2

/-- The boot thread still runs VM code when the thread it made has its CPU. -/
theorem vm_exclusive_preempted : ∃ w : Linked, w.core.current 0 = some (.pool 1) ∧ w.core.InVm (.pool 0) ∧
    ∀ i, w.core.InVm (.pool i) → i = 0 := by
  have facts : (runActs anyClient 17 [.call 0 .pthreadCreate, .run 0, .run 0, .preempt 0] (canbootSchedInit : Linked)).map
      (fun w => decide (w.core.current 0 = some (.pool 1) ∧ w.core.InVm (.pool 0))) = some true := by decide +kernel
  obtain ⟨w, done, both⟩ := Option.map_eq_some_iff.mp facts
  obtain ⟨here, runs⟩ := of_decide_eq_true both
  exact ⟨w, here, runs, (vm_exclusive (Reachable.init.run done) runs).2⟩

end CanBoot.Sched
