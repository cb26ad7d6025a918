import CanBoot.Rt.Pthread

/-!
# What a step can do

`exec` asks whether a step is possible and takes it. `Moves` lists the ways: every law about all steps is a
case split on it.
-/

namespace CanBoot.Sched

open Option

variable {Q : Type} [QueueStore Q]

/-- Where a thread enters a section: at its head without the lock, or inside its loop with the lock handed
over by the switch. -/
def World.Enters (w : World Q) (c : Cpu) (self : Tid) (i : Instr) : Prop :=
  w.core.resume self = .running ∧ w.core.lock = none ∧ i.skips (w.core.hadGil self) = false ∨
    w.core.resume self = .retest ∧ w.core.lock = some c

omit [QueueStore Q] in
theorem World.Enters.lock {w : World Q} {c : Cpu} {self : Tid} {i : Instr} (enters : w.Enters c self i) :
    w.core.lock = none ∨ w.core.lock = some c :=
  enters.imp (fun start => start.2.1) fun loop => loop.2

omit [QueueStore Q] in
theorem World.Enters.alive {w : World Q} {c : Cpu} {self : Tid} {i : Instr} (enters : w.Enters c self i) :
    w.core.resume self ≠ .gone := by
  rcases enters with ⟨running, _, _⟩ | ⟨retest, _⟩
  · rw [running]
    simp
  · rw [retest]
    simp

/-- The steps from a world. -/
inductive Moves (policy : Policy) (fuel : Nat) (w : World Q) : Act → World Q → Prop
  | call {c : Cpu} {k : Call} {self : Tid} (here : w.core.current c = some self)
      (user : self ≠ .idle c) (resume : w.core.resume self = .running) (code : w.core.code self = [])
      (fits : k.fits w.core self = true) (allowed : policy w.core self k = true) :
      Moves policy fuel w (.call c k) (w.mod fun s => s.begin self k)
  | skip {c : Cpu} {self : Tid} {i : Instr} {rest : List Instr} (here : w.core.current c = some self)
      (resume : w.core.resume self = .running) (code : w.core.code self = i :: rest)
      (skips : i.skips (w.core.hadGil self) = true) :
      Moves policy fuel w (.run c) (w.mod fun s => s.setCode self rest)
  | section_ {c : Cpu} {self : Tid} {i : Instr} {rest : List Instr} {w' : World Q}
      (here : w.core.current c = some self) (enters : w.Enters c self i)
      (code : w.core.code self = i :: rest) (done : lockedSection fuel c self i rest w = some w') :
      Moves policy fuel w (.run c) w'
  | unlock {c : Cpu} {self : Tid} (here : w.core.current c = some self)
      (resume : w.core.resume self = .unlock) (lock : w.core.lock = some c) :
      Moves policy fuel w (.run c) (w.leave self (w.core.code self))
  | preempt {c : Cpu} {self : Tid} (here : w.core.current c = some self) (lock : w.core.lock = none)
      (resume : w.core.resume self = .running) : Moves policy fuel w (.preempt c) (canbootSchedPreempt c self w)
  | yield {c : Cpu} {self : Tid} (here : w.core.current c = some self) (lock : w.core.lock = none)
      (resume : w.core.resume self = .running) (user : self ≠ .idle c) :
      Moves policy fuel w (.yield c) (canbootSchedYield c self w)
  | idle {c : Cpu} (here : w.core.current c = some (.idle c)) (lock : w.core.lock = none)
      (resume : w.core.resume (.idle c) = .running) : Moves policy fuel w (.idle c) (idleTurn c w)
  | online {c : Cpu} (off : w.core.current c = none) (lock : w.core.lock = none) :
      Moves policy fuel w (.online c) (canbootSchedApOnline c w)

variable {policy : Policy} {fuel : Nat} {w w' : World Q}

theorem goOn_moves {c : Cpu} {self : Tid} (here : w.core.current c = some self)
    (done : goOn fuel c self w = some w') : Moves policy fuel w (.run c) w' := by
  rw [goOn] at done
  split at done
  · rename_i i rest resume code
    by_cases skips : i.skips (w.core.hadGil self) = true
    · rw [if_pos skips] at done
      cases done
      exact .skip here resume code skips
    · rw [if_neg skips] at done
      split at done
      · rename_i lock
        exact .section_ here (.inl ⟨resume, lock, by simpa using skips⟩) code done
      · exact nomatch done
  · rename_i i rest resume code
    split at done
    · rename_i lock
      exact .section_ here (.inr ⟨resume, lock⟩) code done
    · exact nomatch done
  · rename_i resume
    split at done
    · rename_i lock
      cases done
      exact .unlock here resume lock
    · exact nomatch done
  · exact nomatch done

theorem Moves.of_exec {act : Act} (done : exec policy fuel act w = some w') : Moves policy fuel w act w' := by
  cases act with
  | call c k =>
    obtain ⟨self, here, rest⟩ := bind_eq_some_iff.mp done
    split at rest
    · rename_i can
      cases rest
      exact .call here can.1 can.2.1 can.2.2.1 can.2.2.2.1 can.2.2.2.2
    · exact nomatch rest
  | run c =>
    obtain ⟨self, here, rest⟩ := bind_eq_some_iff.mp done
    exact goOn_moves here rest
  | preempt c =>
    obtain ⟨self, here, rest⟩ := bind_eq_some_iff.mp done
    split at rest
    · rename_i can
      cases rest
      exact .preempt here can.1 can.2
    · exact nomatch rest
  | yield c =>
    obtain ⟨self, here, rest⟩ := bind_eq_some_iff.mp done
    split at rest
    · rename_i can
      cases rest
      exact .yield here can.1 can.2.1 can.2.2
    · exact nomatch rest
  | idle c =>
    rw [exec] at done
    split at done
    · rename_i can
      cases done
      exact .idle can.1 can.2.1 can.2.2
    · exact nomatch done
  | online c =>
    rw [exec] at done
    split at done
    · rename_i can
      cases done
      exact .online can.1 can.2
    · exact nomatch done

theorem Moves.exec_eq {act : Act} (moves : Moves policy fuel w act w') : exec policy fuel act w = some w' := by
  cases moves with
  | call here user resume code fits allowed =>
    exact bind_eq_some_iff.mpr ⟨_, here, if_pos ⟨user, resume, code, fits, allowed⟩⟩
  | skip here resume code skips =>
    refine bind_eq_some_iff.mpr ⟨_, here, ?_⟩
    simp only [goOn, resume, code, skips, if_true]
  | section_ here enters code done =>
    refine bind_eq_some_iff.mpr ⟨_, here, ?_⟩
    rcases enters with ⟨resume, lock, skips⟩ | ⟨resume, lock⟩
    · simp only [goOn, resume, code, skips, lock, if_true, Bool.false_eq_true, if_false]
      exact done
    · simp only [goOn, resume, code, lock, if_true]
      exact done
  | unlock here resume lock =>
    refine bind_eq_some_iff.mpr ⟨_, here, ?_⟩
    simp only [goOn, resume, lock, if_true]
  | preempt here lock resume => exact bind_eq_some_iff.mpr ⟨_, here, if_pos ⟨lock, resume⟩⟩
  | yield here lock resume user => exact bind_eq_some_iff.mpr ⟨_, here, if_pos ⟨lock, resume, user⟩⟩
  | idle here lock resume => exact if_pos ⟨here, lock, resume⟩
  | online off lock => exact if_pos ⟨off, lock⟩

end CanBoot.Sched
