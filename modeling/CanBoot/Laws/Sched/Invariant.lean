import CanBoot.Laws.Sched.Placed

/-!
# What holds between sections

`Inv` is the scheduler's invariant: every thread is somewhere (`Placed`), a thread that is not on a CPU can
be resumed, and a blocked one stands in its code where its wait queue says. Every section keeps it
(`Held.did`), and so does every step (`exec_inv`).
-/

namespace CanBoot.Sched

open List
open Function (update update_eq_self update_idem update_of_ne update_self)

/-- Where a thread on a queue stands in its code. -/
def QueueId.Fits (code : List Instr) (resume : Resume) : QueueId → Prop
  | .run => True
  | .gil => resume = .retest ∧ (code.head? = some .gilAcquire ∨ code.head? = some .gilAcquireIf)
  | .join i => resume = .retest ∧ ∃ g, code.head? = some (.threadJoin i g)
  | .mutex m => resume = .retest ∧ code.head? = some (.mutexLock m)
  | .once o => resume = .retest ∧ code.head? = some (.onceWait o)
  | .cond _ => resume = .unlock

/-- A thread that was switched out can be resumed. -/
def Resume.Parked (r : Resume) : Prop := r = .unlock ∨ r = .retest

/-- The threads that are not on the CPU whose section it is. -/
structure Parts (a : World Lists) (c : Cpu) : Prop where
  others : ∀ {c' t}, c' ≠ c → a.core.current c' = some t → a.core.resume t = .running
  idles : ∀ {c' t}, c' ≠ c → a.core.current c' = some t → t ≠ .idle c' → a.core.resume (.idle c') = .unlock
  offline : ∀ {c'}, c' ≠ c → a.core.current c' = none → a.core.resume (.idle c') = .running
  queued : ∀ {k t}, t ∈ a.q k → (a.core.resume t).Parked
  fits : ∀ {k t}, t ∈ a.q k → k.Fits (a.core.code t) (a.core.resume t)
  idleCode : ∀ c', a.core.code (.idle c') = []

/-- A section under way: its thread is still the CPU's. -/
structure Held (a : World Lists) (c : Cpu) (me : Tid) : Prop extends Parts a c where
  placed : ∃ loc, Placed loc a.core.state a.q a.core.current
  here : a.core.current c = some me
  idle : me ≠ .idle c → a.core.resume (.idle c) = .unlock

/-- A section whose thread has given the CPU up. -/
structure Away (a : World Lists) (c : Cpu) : Prop extends Parts a c where
  placed : ∃ loc, Placed loc a.core.state a.q (update a.core.current c none)
  idle : a.core.resume (.idle c) = .unlock

/-- **What holds between sections.** The lock is free, or with a CPU whose thread was just switched in; the
threads of all other CPUs run. -/
structure Inv (a : World Lists) : Prop where
  placed : ∃ loc, Placed loc a.core.state a.q a.core.current
  locked : ∀ {c}, a.core.lock = some c → ∃ t, a.core.current c = some t ∧ (a.core.resume t).Parked
  runs : ∀ {c t}, a.core.lock ≠ some c → a.core.current c = some t → a.core.resume t = .running
  idles : ∀ {c t}, a.core.current c = some t → t ≠ .idle c → a.core.resume (.idle c) = .unlock
  offline : ∀ {c}, a.core.current c = none → a.core.resume (.idle c) = .running
  queued : ∀ {k t}, t ∈ a.q k → (a.core.resume t).Parked
  fits : ∀ {k t}, t ∈ a.q k → k.Fits (a.core.code t) (a.core.resume t)
  idleCode : ∀ c, a.core.code (.idle c) = []

theorem inv_init : Inv canbootSchedInit where
  placed := by
    refine ⟨fun i => if i = 0 then some (.cpu 0) else none, ?_⟩
    have queues : (canbootSchedInit : World Lists).q = fun _ => [] := rfl
    rw [queues]
    constructor
    case nodup => exact fun _ => nodup_nil
    case quiet => exact fun _ => rfl
    all_goals grind [canbootSchedInit, Place.state]
  locked := nofun
  runs := by grind [canbootSchedInit]
  idles := by grind [canbootSchedInit]
  offline := by grind [canbootSchedInit]
  queued := nofun
  fits := nofun
  idleCode _ := rfl

namespace Inv

variable {a : World Lists} (inv : Inv a)

include inv

theorem held {c : Cpu} {self : Tid} (here : a.core.current c = some self)
    (lock : a.core.lock = none ∨ a.core.lock = some c) : Held a c self where
  placed := inv.placed
  here := here
  others := by
    intro c' t ne on
    refine inv.runs ?_ on
    rcases lock with free | mine
    · rw [free]; simp
    · rw [mine]; simpa using ne.symm
  idles _ on ne := inv.idles on ne
  idle ne := inv.idles here ne
  offline _ := inv.offline
  queued := inv.queued
  fits := inv.fits
  idleCode := inv.idleCode

theorem ready : Ready a where
  current here := (inv.placed.choose_spec).unqueued here
  free := by
    intro i free
    obtain ⟨loc, placed⟩ := inv.placed
    have off := placed.nowhere (.inr free)
    refine ⟨placed.quiet off, fun k on => ?_⟩
    exact nomatch off.symm.trans (placed.queue.mp on)

end Inv

namespace Held

variable {a a' : World Lists} {c : Cpu} {self : Tid} (held : Held a c self)

include held

theorem unqueued : a.Unqueued self := by
  obtain ⟨loc, placed⟩ := held.placed
  exact placed.unqueued held.here

variable {c' : Cpu}

theorem alone (on : a.core.current c' = some self) : c' = c := by
  obtain ⟨loc, placed⟩ := held.placed
  cases self with
  | idle c'' => rw [← placed.ownIdle on, placed.ownIdle held.here]
  | pool i => simpa using (placed.cpu.mp on).symm.trans (placed.cpu.mp held.here)

theorem notIdle {t : Tid} (on : a.core.current c' = some t) (ne : t ≠ .idle c') : .idle c' ≠ self := by
  rintro rfl
  obtain ⟨loc, placed⟩ := held.placed
  have same := placed.ownIdle held.here
  subst same
  rw [held.here] at on
  exact ne (Option.some.inj on).symm

theorem offlineIdle (off : a.core.current c' = none) : .idle c' ≠ self := by
  rintro rfl
  obtain ⟨loc, placed⟩ := held.placed
  have same := placed.ownIdle held.here
  subst same
  exact nomatch off.symm.trans held.here

variable {f : Core → Core}

/-- A section's work on its own thread, on shared data, and on threads that are nowhere. -/
theorem work (placed : ∃ loc, Placed loc (f a.core).state a.q a.core.current)
    (current : (f a.core).current = a.core.current) (resume : ∀ t, t ≠ self → (f a.core).resume t = a.core.resume t)
    (code : ∀ t, t ≠ self → (f a.core).code t = a.core.code t) (idle : ∀ c', (f a.core).code (.idle c') = [])
    : Held (a.mod f) c self where
  placed := by
    show ∃ loc, Placed loc (f a.core).state a.q (f a.core).current
    rw [current]
    exact placed
  here := by
    show (f a.core).current c = _
    rw [current]
    exact held.here
  others := by
    intro c' t ne on
    change (f a.core).current c' = some t at on
    rw [current] at on
    show (f a.core).resume t = _
    rw [resume t fun same => ne (held.alone (same ▸ on))]
    exact held.others ne on
  idles := by
    intro c' t ne on idle
    change (f a.core).current c' = some t at on
    rw [current] at on
    show (f a.core).resume _ = _
    rw [resume _ (held.notIdle on idle)]
    exact held.idles ne on idle
  offline := by
    intro c' ne off
    change (f a.core).current c' = none at off
    rw [current] at off
    show (f a.core).resume _ = _
    rw [resume _ (held.offlineIdle off)]
    exact held.offline ne off
  idle ne := by
    show (f a.core).resume _ = _
    rw [resume _ ne.symm]
    exact held.idle ne
  queued := by
    intro k t on
    have ne : t ≠ self := fun same => held.unqueued k (same ▸ on)
    show ((f a.core).resume t).Parked
    rw [resume t ne]
    exact held.queued on
  fits := by
    intro k t on
    have ne : t ≠ self := fun same => held.unqueued k (same ▸ on)
    show k.Fits ((f a.core).code t) ((f a.core).resume t)
    rw [resume t ne, code t ne]
    exact held.fits on
  idleCode := idle

variable {i : Nat}

/-- Work of a pool thread that changes no thread's state. -/
theorem mod (pool : self = .pool i) (state : (f a.core).state = a.core.state)
    (current : (f a.core).current = a.core.current) (resume : ∀ t, t ≠ self → (f a.core).resume t = a.core.resume t)
    (code : ∀ t, t ≠ self → (f a.core).code t = a.core.code t) : Held (a.mod f) c self := by
  refine held.work (state ▸ held.placed) current resume code fun c' => ?_
  rw [code _ (by rw [pool]; simp)]
  exact held.idleCode c'

/-- A thread that is nowhere is given back. -/
theorem reap {j : Nat} (ended : a.core.state (.pool j) = .exited ∨ a.core.state (.pool j) = .free)
    (state : (f a.core).state = update a.core.state (.pool j) .free) (current : (f a.core).current = a.core.current)
    (resume : (f a.core).resume = a.core.resume) (code : (f a.core).code = a.core.code) : Held (a.mod f) c self := by
  obtain ⟨loc, placed⟩ := held.placed
  refine held.work ⟨loc, ?_⟩ current (fun t _ => congrFun resume t) (fun t _ => congrFun code t) fun c' => ?_
  · rw [state]
    exact placed.reap (placed.nowhere ended)
  · rw [code]
    exact held.idleCode c'

/-- A new thread in a free slot. -/
theorem create {j : Nat} (free : a.core.state (.pool j) = .free) (inside : j < 16)
    (state : (f a.core).state = update a.core.state (.pool j) .runnable) (current : (f a.core).current = a.core.current)
    (resume : (f a.core).resume = update a.core.resume (.pool j) .unlock)
    (code : ∀ t, t ≠ .pool j → (f a.core).code t = a.core.code t) : Held ((a.mod f).push .run (.pool j)) c self := by
  obtain ⟨loc, placed⟩ := held.placed
  have off := placed.nowhere (.inr free)
  have elsewhere : ∀ {c' t}, a.core.current c' = some t → t ≠ .pool j := by
    rintro c' t on rfl
    exact nomatch off.symm.trans (placed.cpu.mp on)
  have kept : ∀ t, t ≠ .pool j → (f a.core).resume t = a.core.resume t := by
    intro t ne
    rw [resume, update_of_ne ne]
  have queued : ∀ {k t}, t ∈ ((a.mod f).push .run (.pool j)).q k → t ∈ a.q k ∧ t ≠ .pool j ∨
      t = .pool j ∧ k = .run := by
    intro k t on
    rcases mem_pushed on with old | new
    · refine .inl ⟨old, ?_⟩
      rintro rfl
      exact nomatch off.symm.trans (placed.queue.mp old)
    · exact .inr new
  have here : (f a.core).current c = some self := by
    rw [current]
    exact held.here
  refine { others := ?_, idles := ?_, offline := ?_, queued := ?_, fits := ?_, idleCode := ?_,
           placed := ?_, here := here, idle := ?_ }
  · intro c' t ne on
    change (f a.core).current c' = some t at on
    rw [current] at on
    exact (kept t (elsewhere on)).trans (held.others ne on)
  · intro c' t ne on idle
    change (f a.core).current c' = some t at on
    rw [current] at on
    exact (kept _ (by simp)).trans (held.idles ne on idle)
  · intro c' ne off
    change (f a.core).current c' = none at off
    rw [current] at off
    exact (kept _ (by simp)).trans (held.offline ne off)
  · intro k t on
    show ((f a.core).resume t).Parked
    rcases queued on with ⟨old, ne⟩ | ⟨rfl, _⟩
    · rw [kept t ne]
      exact held.queued old
    · rw [resume, update_self]
      exact .inl rfl
  · intro k t on
    show k.Fits ((f a.core).code t) ((f a.core).resume t)
    rcases queued on with ⟨old, ne⟩ | ⟨_, rfl⟩
    · rw [kept t ne, code t ne]
      exact held.fits old
    · trivial
  · intro c'
    exact (code _ (by simp)).trans (held.idleCode c')
  · refine ⟨update loc j (some (.queue .run)), ?_⟩
    show Placed _ (f a.core).state (update a.q .run (a.q .run ++ [.pool j])) (f a.core).current
    rw [state, current]
    exact placed.create off inside
  · intro ne
    exact (kept _ (by simp)).trans (held.idle ne)

/-- The end of a section that did not switch. -/
theorem leave {rest : List Instr} (idle : ∀ c', self = .idle c' → rest = []) : Inv (a.leave self rest) := by
  have kept : Held (a.leave self rest) c self := by
    refine held.work held.placed rfl (fun _ ne => update_of_ne ne _ _)
      (fun _ ne => update_of_ne ne _ _) fun c' => ?_
    by_cases mine : .idle c' = self
    · rw [mine]
      exact (update_self ..).trans (idle c' mine.symm)
    · exact (update_of_ne mine _ _).trans (held.idleCode c')
  refine ⟨kept.placed, nofun, ?_, ?_, ?_, kept.queued, kept.fits, kept.idleCode⟩
  · intro c' t _ on
    by_cases mine : c' = c
    · subst mine
      cases on.symm.trans kept.here
      exact update_self ..
    · exact kept.others mine on
  · intro c' t on ne
    by_cases mine : c' = c
    · subst mine
      cases on.symm.trans kept.here
      exact kept.idle ne
    · exact kept.idles mine on ne
  · intro c' off
    by_cases mine : c' = c
    · subst mine
      exact nomatch off.symm.trans kept.here
    · exact kept.offline mine off

theorem woken {k : QueueId} (wait : k ≠ .run) (n : Nat) : Held (a.woken k n) c self where
  placed := by
    obtain ⟨loc, placed⟩ := held.placed
    exact ⟨_, placed.woken wait n⟩
  here := held.here
  others := held.others
  idles := held.idles
  offline := held.offline
  idle := held.idle
  idleCode := held.idleCode
  queued on := (mem_woken on).elim held.queued fun taken => held.queued (mem_of_mem_take taken.2)
  fits on := by
    rcases mem_woken on with old | ⟨rfl, _⟩
    · exact held.fits old
    · trivial

/-- The section's thread goes to a wait queue. -/
theorem block (pool : self = .pool i) {k : QueueId} (wait : k ≠ .run)
    (parked : (a.core.resume self).Parked) (fits : k.Fits (a.core.code self) (a.core.resume self))
    (awaited : ∀ {j}, k = .join j → a.core.state (.pool j) ≠ .exited ∧ a.core.state (.pool j) ≠ .free) :
    Away ((a.mod fun s => s.setState self .blocked).push k self) c where
  placed := by
    obtain ⟨loc, placed⟩ := held.placed
    subst pool
    refine ⟨_, placed.block held.here wait fun at_ off => ?_⟩
    exact (placed.off off).elim (awaited at_).1 (awaited at_).2
  others := held.others
  idles := held.idles
  offline := held.offline
  idle := held.idle (by rw [pool]; simp)
  idleCode := held.idleCode
  queued on := by
    rcases mem_pushed on with old | ⟨rfl, _⟩
    · exact held.queued old
    · exact parked
  fits on := by
    rcases mem_pushed on with old | ⟨rfl, rfl⟩
    · exact held.fits old
    · exact fits

/-- The section's thread goes to the run queue. -/
theorem ready (pool : self = .pool i) (parked : (a.core.resume self).Parked) :
    Away ((a.mod fun s => s.setState self .runnable).push .run self) c where
  placed := by
    obtain ⟨loc, placed⟩ := held.placed
    subst pool
    exact ⟨_, placed.ready held.here⟩
  others := held.others
  idles := held.idles
  offline := held.offline
  idle := held.idle (by rw [pool]; simp)
  idleCode := held.idleCode
  queued on := by
    rcases mem_pushed on with old | ⟨rfl, _⟩
    · exact held.queued old
    · exact parked
  fits on := by
    rcases mem_pushed on with old | ⟨_, rfl⟩
    · exact held.fits old
    · trivial

/-- The section's thread ends. -/
theorem exit (pool : self = .pool i) (nobody : a.q (.join i) = []) {st : ThState} (ended : st = .exited ∨ st = .free)
    (state : (f a.core).state = update a.core.state self st) (current : (f a.core).current = a.core.current)
    (resume : (f a.core).resume = a.core.resume) (code : (f a.core).code = a.core.code) : Away (a.mod f) c where
  placed := by
    obtain ⟨loc, placed⟩ := held.placed
    subst pool
    refine ⟨update loc i none, ?_⟩
    show Placed _ (f a.core).state a.q (update (f a.core).current c none)
    rw [state, current]
    exact placed.exit held.here nobody ended
  others ne on := by
    show (f a.core).resume _ = _
    rw [resume]
    exact held.others ne ((congrFun current _).symm.trans on)
  idles ne on := by
    show _ → (f a.core).resume _ = _
    rw [resume]
    exact held.idles ne ((congrFun current _).symm.trans on)
  offline ne off := by
    show (f a.core).resume _ = _
    rw [resume]
    exact held.offline ne ((congrFun current _).symm.trans off)
  idle := by
    show (f a.core).resume _ = _
    rw [resume]
    exact held.idle (by rw [pool]; simp)
  idleCode := by
    show ∀ c', (f a.core).code _ = _
    rw [code]
    exact held.idleCode
  queued on := by
    show ((f a.core).resume _).Parked
    rw [resume]
    exact held.queued on
  fits on := by
    show QueueId.Fits ((f a.core).code _) ((f a.core).resume _) _
    rw [resume, code]
    exact held.fits on

/-- The idle thread goes nowhere. -/
theorem idleOut (idle : self = .idle c) (parked : a.core.resume self = .unlock) : Away a c where
  placed := by
    obtain ⟨loc, placed⟩ := held.placed
    subst idle
    exact ⟨loc, placed.idleOut held.here⟩
  others := held.others
  idles := held.idles
  offline := held.offline
  idle := idle ▸ parked
  idleCode := held.idleCode
  queued := held.queued
  fits := held.fits

end Held

variable {a : World Lists}

/-- The switch. -/
theorem Away.reschedule {c : Cpu} (away : Away a c) : Inv (reschedule c a) := by
  have next : (∃ loc, Placed loc (update a.core.state (a.next c) .running) (update a.q .run (a.q .run).tail)
      (update a.core.current c (some (a.next c)))) ∧ (a.core.resume (a.next c)).Parked := by
    obtain ⟨loc, placed⟩ := away.placed
    have off : update a.core.current c none c = none := update_self ..
    cases full : a.q .run with
    | nil =>
      have keep : update a.q .run [] = a.q := by rw [← full, update_eq_self]
      have idle : a.next c = .idle c := by rw [World.next, full]; rfl
      rw [idle, tail_nil, keep]
      have switched := placed.dispatchIdle off
      rw [update_idem] at switched
      exact ⟨⟨loc, switched⟩, .inl away.idle⟩
    | cons t ts =>
      have first : t ∈ a.q .run := by rw [full]; exact mem_cons_self
      have head : a.next c = t := by rw [World.next, full]; rfl
      rw [head, tail_cons]
      cases t with
      | idle c' => exact absurd first placed.noIdle
      | pool i =>
        have switched := placed.dispatch off full
        rw [update_idem] at switched
        exact ⟨⟨_, switched⟩, away.queued first⟩
  refine ⟨?_, ?_, ?_, ?_, ?_, ?_, ?_, ?_⟩
  · rw [reschedule_core, reschedule_q]
    exact next.1
  · intro c' lock
    rw [reschedule_core] at lock ⊢
    cases lock
    exact ⟨_, update_self .., next.2⟩
  · intro c' t lock on
    simp only [reschedule_core] at lock on ⊢
    have ne : c' ≠ c := fun same => lock (by rw [same])
    rw [update_of_ne ne] at on
    exact away.others ne on
  · intro c' t on ne
    simp only [reschedule_core] at on ⊢
    by_cases mine : c' = c
    · rw [mine]
      exact away.idle
    · rw [update_of_ne mine] at on
      exact away.idles mine on ne
  · intro c' off
    simp only [reschedule_core] at off ⊢
    by_cases mine : c' = c
    · subst mine
      rw [update_self] at off
      exact nomatch off
    · rw [update_of_ne mine] at off
      exact away.offline mine off
  · intro k t on
    rw [reschedule_q] at on
    rw [reschedule_core]
    exact away.queued (mem_dispatched on)
  · intro k t on
    rw [reschedule_q] at on
    rw [reschedule_core]
    exact away.fits (mem_dispatched on)
  · rw [reschedule_core]
    exact away.idleCode

/-! ## Sections -/

namespace Held

variable {a a' : World Lists} {c : Cpu} {self : Tid} (held : Held a c self) {i : Nat} (pool : self = .pool i)

include held pool

theorem parks {k : QueueId} (wait : k ≠ .run) (fits : k.Fits (a.core.code self) .retest)
    (awaited : ∀ {j}, k = .join j → a.core.state (.pool j) ≠ .exited ∧ a.core.state (.pool j) ≠ .free) :
    Inv (park c self k a) := by
  have loops : Held (a.mod fun s => s.setResume self .retest) c self :=
    held.mod pool rfl rfl (fun _ ne => update_of_ne ne _ _) fun _ _ => rfl
  have retest : (a.mod fun s => s.setResume self .retest).core.resume self = .retest := update_self ..
  refine (loops.block pool wait (.inr retest) ?_ awaited).reschedule
  rw [retest]
  exact fits

theorem yields : Inv (canbootSchedYield c self a) := by
  have noted : Held (a.mod fun s => s.setResume self .unlock) c self :=
    held.mod pool rfl rfl (fun _ ne => update_of_ne ne _ _) fun _ _ => rfl
  have running : (a.mod fun s => s.setResume self .unlock).core.state self = .running := by
    obtain ⟨loc, placed⟩ := noted.placed
    subst pool
    exact placed.state (placed.cpu.mp noted.here)
  rw [canbootSchedYield]
  simp only [running, if_true]
  exact (noted.ready pool (.inl (update_self ..))).reschedule

theorem exits (nobody : a.q (.join i) = []) : Inv (exitSwitch c i a) := by
  subst pool
  have gone : Held (a.mod fun s => s.end_ (.pool i)) c (.pool i) :=
    held.mod rfl rfl rfl (fun _ ne => update_of_ne ne _ _) fun _ ne => update_of_ne ne _ _
  rw [exitSwitch]
  split
  · exact (gone.exit (f := fun s => s.reap i) rfl nobody (.inr rfl) rfl rfl rfl rfl).reschedule
  · exact (gone.exit (f := fun s => s.setState (.pool i) .exited) rfl nobody (.inl rfl) rfl rfl rfl rfl).reschedule

end Held

theorem Core.freeSlot_small {s : Core} {j : Nat} (slot : s.freeSlot = some j) : j < 16 := by
  have inside := mem_of_find?_eq_some slot
  rw [mem_range'_1] at inside
  omega

/-- **Every section keeps the invariant.** -/
theorem Held.did {a' : World Lists} {c : Cpu} {self : Tid} {i : Instr} {rest : List Instr}
    (held : Held a c self) (code : a.core.code self = i :: rest) (did : Did a c self rest i a') : Inv a' := by
  obtain ⟨j, pool⟩ : ∃ j, self = .pool j := by
    cases self with
    | pool j => exact ⟨j, rfl⟩
    | idle c' => exact nomatch (held.idleCode c').symm.trans code
  have user : ∀ c', self = .idle c' → rest = [] := fun c' same => nomatch pool.symm.trans same
  have head : (a.core.code self).head? = some i := by rw [code]; rfl
  -- work that leaves every thread's state, code and place alone
  have quiet : ∀ {f : Core → Core}, (f a.core).state = a.core.state → (f a.core).current = a.core.current →
      (f a.core).resume = a.core.resume → (f a.core).code = a.core.code → Held (a.mod f) c self :=
    fun state current resume code =>
      held.mod pool state current (fun t _ => congrFun resume t) fun t _ => congrFun code t
  cases did with
  | oncePast => exact held.leave user
  | gilOwned | gilTake | mutexTake | tryTake | tryBusy | onceStart | noSlot | detach =>
    exact (quiet rfl rfl rfl rfl).leave user
  | gilRelease | mutexUnlock | condSignal | condBroadcast | onceDone =>
    exact ((quiet rfl rfl rfl rfl).woken (by simp) _).leave user
  | gilPark which =>
    refine held.parks pool (by simp) ⟨rfl, ?_⟩ nofun
    rw [head]
    cases i <;> simp [Instr.acquires] at which ⊢
  | mutexPark | oncePark => exact held.parks pool (by simp) ⟨rfl, head⟩ nofun
  | @condPark cv m =>
    have woke := (quiet (f := fun s => s.drop m self) rfl rfl rfl rfl).woken (k := .mutex m) (by simp) 1
    have next := woke.mod pool (f := fun s => (s.setResume self .unlock).setCode self rest) rfl rfl
      (fun _ ne => update_of_ne ne _ _) fun _ ne => update_of_ne ne _ _
    have unlock : ∀ b : World Lists,
        (b.mod fun s => (s.setResume self .unlock).setCode self rest).core.resume self = .unlock :=
      fun _ => update_self ..
    exact (next.block pool (k := .cond cv) (by simp) (.inl (unlock _)) (unlock _) nofun).reschedule
  | @onceJoin o =>
    have loops := held.mod pool (f := fun s => s.setCode self (.onceWait o :: rest))
      rfl rfl (fun _ _ => rfl) fun _ ne => update_of_ne ne _ _
    have waits : (a.mod fun s => s.setCode self (.onceWait o :: rest)).core.code self = .onceWait o :: rest :=
      update_self ..
    exact loops.parks pool (by simp) ⟨rfl, by rw [waits]; rfl⟩ nofun
  | @create e k slot free =>
    have made := held.create free (Core.freeSlot_small slot) (f := fun s => s.initSlot k e) rfl rfl rfl
      fun _ ne => update_of_ne ne _ _
    exact (made.mod pool rfl rfl (fun _ _ => rfl) fun _ _ => rfl).leave user
  | @joinPark j g alive =>
    refine held.parks pool (by simp) ⟨rfl, g, head⟩ fun same => ?_
    cases same
    exact alive
  | joinReap ended => exact (held.reap ended rfl rfl rfl rfl).leave user
  | detachReap exited => exact (held.reap (.inl exited) rfl rfl rfl rfl).leave user
  | @exit j v via pool =>
    have noted : Held (a.mod fun s => s.setRetval j v) c self := quiet rfl rfl rfl rfl
    exact (noted.woken (k := .join j) (by simp) _).exits pool (woken_all (by simp))
  | yield =>
    have noted := held.mod pool (f := fun s => s.setCode self rest)
      rfl rfl (fun _ _ => rfl) fun _ ne => update_of_ne ne _ _
    exact noted.yields pool

/-! ## Steps -/

/-- A thread's work between sections, on its own code. -/
theorem Inv.tick (inv : Inv a) {c : Cpu} {i : Nat} (here : a.core.current c = some (.pool i)) {f : Core → Core}
    (state : (f a.core).state = a.core.state) (current : (f a.core).current = a.core.current)
    (lock : (f a.core).lock = a.core.lock) (resume : (f a.core).resume = a.core.resume)
    (code : ∀ t, t ≠ .pool i → (f a.core).code t = a.core.code t) : Inv (a.mod f) := by
  have out : a.Unqueued (.pool i) := inv.ready.current here
  refine ⟨?_, ?_, ?_, ?_, ?_, ?_, ?_, ?_⟩
  · show ∃ loc, Placed loc (f a.core).state a.q (f a.core).current
    rw [state, current]
    exact inv.placed
  · intro c' held
    change (f a.core).lock = _ at held
    show ∃ t, (f a.core).current c' = _ ∧ ((f a.core).resume t).Parked
    rw [lock] at held
    rw [current, resume]
    exact inv.locked held
  · intro c' t free on
    change (f a.core).lock ≠ _ at free
    change (f a.core).current c' = _ at on
    show (f a.core).resume t = _
    rw [lock] at free
    rw [current] at on
    rw [resume]
    exact inv.runs free on
  · intro c' t on
    change (f a.core).current c' = _ at on
    show _ → (f a.core).resume _ = _
    rw [current] at on
    rw [resume]
    exact inv.idles on
  · intro c' off
    change (f a.core).current c' = _ at off
    show (f a.core).resume _ = _
    rw [current] at off
    rw [resume]
    exact inv.offline off
  · intro k t on
    show ((f a.core).resume t).Parked
    rw [resume]
    exact inv.queued on
  · intro k t on
    show k.Fits ((f a.core).code t) ((f a.core).resume t)
    rw [resume, code t fun same => out k (same ▸ on)]
    exact inv.fits on
  · intro c'
    exact (code _ (by simp)).trans (inv.idleCode c')

theorem Inv.online (inv : Inv a) {c : Cpu} (off : a.core.current c = none)
    (lock : a.core.lock = none) : Inv (canbootSchedApOnline c a) := by
  have there : ∀ {c' t}, update a.core.current c (some (.idle c)) c' = some t →
      a.core.current c' = some t ∨ c' = c ∧ t = .idle c := by
    intro c' t on
    by_cases mine : c' = c
    · subst mine
      rw [update_self] at on
      exact .inr ⟨rfl, (Option.some.inj on).symm⟩
    · rw [update_of_ne mine] at on
      exact .inl on
  have free : ∀ {c'}, a.core.lock ≠ some c' := by
    intro c'
    rw [lock]
    simp
  refine ⟨?_, ?_, ?_, ?_, ?_, inv.queued, inv.fits, inv.idleCode⟩
  · obtain ⟨loc, placed⟩ := inv.placed
    exact ⟨loc, placed.dispatchIdle off⟩
  · intro c' held
    exact absurd held free
  · intro c' t _ on
    rcases there on with old | ⟨_, rfl⟩
    · exact inv.runs free old
    · exact inv.offline off
  · intro c' t on ne
    rcases there on with old | ⟨rfl, rfl⟩
    · exact inv.idles old ne
    · exact absurd rfl ne
  · intro c' none
    change update a.core.current c (some (.idle c)) c' = _ at none
    by_cases mine : c' = c
    · subst mine
      rw [update_self] at none
      exact nomatch none
    · rw [update_of_ne mine] at none
      exact inv.offline none

/-- The timer on a CPU: a pool thread goes to the run queue, the idle thread nowhere. -/
theorem Inv.preempt (inv : Inv a) {c : Cpu} {self : Tid}
    (here : a.core.current c = some self) (lock : a.core.lock = none) : Inv (canbootSchedPreempt c self a) := by
  have held := inv.held here (.inl lock)
  obtain ⟨loc, placed⟩ := inv.placed
  rw [canbootSchedPreempt]
  split
  · cases self with
    | pool i =>
      have noted : Held (a.mod fun s => s.setResume (.pool i) .unlock) c (.pool i) :=
        held.mod rfl rfl rfl (fun _ ne => update_of_ne ne _ _) fun _ _ => rfl
      have running : (a.mod fun s => s.setResume (.pool i) .unlock).core.state (.pool i) = .running :=
        placed.state (placed.cpu.mp here)
      simp only [running, ne_eq, reduceCtorEq, not_false_eq_true, and_self, if_true]
      exact (noted.ready rfl (.inl (update_self ..))).reschedule
    | idle c' =>
      cases placed.ownIdle here
      have noted : Held (a.mod fun s => s.setResume (.idle c) .unlock) c (.idle c) :=
        held.work held.placed rfl (fun _ ne => update_of_ne ne _ _) (fun _ _ => rfl) held.idleCode
      simp only [ne_eq, not_true_eq_false, and_false, if_false]
      exact (noted.idleOut rfl (update_self ..)).reschedule
  · exact inv

/-- **Every step keeps the invariant.** -/
theorem exec_inv {policy : Policy} {fuel : Nat} {act : Act} {a' : World Lists} (inv : Inv a)
    (done : exec policy fuel act a = some a') : Inv a' := by
  have pooled : ∀ {c self}, a.core.current c = some self → self ≠ .idle c → ∃ i, self = .pool i := by
    intro c self here user
    cases self with
    | pool i => exact ⟨i, rfl⟩
    | idle c' =>
      obtain ⟨loc, placed⟩ := inv.placed
      exact absurd (placed.ownIdle here ▸ rfl) user
  cases Moves.of_exec done with
  | @call c k self here user resume code fits allowed =>
    obtain ⟨i, rfl⟩ := pooled here user
    refine inv.tick here ?_ ?_ ?_ ?_ ?_ <;> rw [Core.begin] <;> split <;> first | rfl | intro t ne
    · exact update_of_ne ne _ _
    · rfl
  | @skip c self i rest here resume code skips =>
    cases self with
    | pool j => exact inv.tick here rfl rfl rfl rfl fun _ ne => update_of_ne ne _ _
    | idle c' => exact nomatch (inv.idleCode c').symm.trans code
  | section_ here enters code done =>
    exact (inv.held here enters.lock).did code (lockedSection_did inv.ready done)
  | unlock here resume lock =>
    refine (inv.held here (.inr lock)).leave fun c' same => ?_
    rw [same]
    exact inv.idleCode c'
  | preempt here lock resume => exact inv.preempt here lock
  | yield here lock resume user =>
    obtain ⟨i, rfl⟩ := pooled here user
    exact (inv.held here (.inl lock)).yields rfl
  | @idle c here lock resume =>
    have held := inv.held here (.inl lock)
    have noted : Held (a.mod fun s => s.setResume (.idle c) .unlock) c (.idle c) :=
      held.work held.placed rfl (fun _ ne => update_of_ne ne _ _) (fun _ _ => rfl) held.idleCode
    exact (noted.idleOut rfl (update_self ..)).reschedule
  | online off lock => exact inv.online off lock

/-! ## Whole runs -/

variable {policy : Policy} {fuel : Nat}

theorem Reachable.inv (reach : Reachable policy fuel a) : Inv a := by
  induction reach with
  | init => exact inv_init
  | step _ done inv => exact exec_inv inv done

theorem Reachable.run {Q : Type} [QueueStore Q] {acts : List Act} :
    ∀ {w w' : World Q}, Reachable policy fuel w → runActs policy fuel acts w = some w' → Reachable policy fuel w' := by
  induction acts with
  | nil =>
    intro w w' reach done
    cases done
    exact reach
  | cons act rest ih =>
    intro w w' reach done
    obtain ⟨next, first, later⟩ := Option.bind_eq_some_iff.mp done
    exact ih (reach.step first) later

/-- **Every world of the source is one of lists**, reached by the same schedule. -/
theorem Reachable.sim {w : Linked} (reach : Reachable policy fuel w) :
    ∃ a : World Lists, Reachable policy fuel a ∧ Sim w a := by
  induction reach with
  | init => exact ⟨canbootSchedInit, .init, Sim.init⟩
  | step _ done ih =>
    obtain ⟨a, reached, sim⟩ := ih
    obtain ⟨a', done', sim'⟩ := exec_sim sim reached.inv.ready done
    exact ⟨a', reached.step done', sim'⟩

end CanBoot.Sched
