import CanBoot.Lib.Prog

/-!
# Two runs in lockstep

Two programs run in lockstep over a relation of states if from related states they answer alike: the same kind of
outcome, the same value, and related states. The rules follow the program text. A property of two runs, such as "the
answer does not depend on this part of the state", is a lockstep of a program with itself.
-/

namespace CanBoot.Lib

open Prog

variable {σ α β : Type}

/-- The answer without the state. -/
def Outcome.forget : Outcome σ α → Outcome Unit α
  | ok a _ => ok a ()
  | err _ => err ()
  | spin => spin
  | trap => trap

theorem Outcome.forget_of_value {o : Outcome σ α} {a : α} (h : o.value = some a) : o.forget = .ok a () := by
  cases o with
  | ok b t => exact congrArg (Outcome.ok · ()) (Option.some.inj h)
  | _ => cases h

/-- The same kind of answer, the same value, related states. -/
def Outcome.Alike (R : σ → σ → Prop) : Outcome σ α → Outcome σ α → Prop
  | ok a s, ok b t => a = b ∧ R s t
  | err s, err t => R s t
  | spin, spin => True
  | trap, trap => True
  | _, _ => False

theorem Outcome.Alike.forget {R : σ → σ → Prop} {o o' : Outcome σ α} (alike : Alike R o o') : o.forget = o'.forget := by
  cases o <;> cases o' <;> first | exact alike.elim | (cases alike.1; rfl) | rfl

/-- Two programs that answer alike from related states. -/
def Lockstep (R : σ → σ → Prop) (x y : Prog σ α) : Prop :=
  ∀ fuel s t, R s t → (x.run fuel s).Alike R (y.run fuel t)

namespace Lockstep

variable {R : σ → σ → Prop} {x y : Prog σ α}

theorem pure (a : α) : Lockstep R (Pure.pure a) (Pure.pure a) := fun _ _ _ here => ⟨rfl, here⟩

theorem fail : Lockstep R (Prog.fail : Prog σ α) Prog.fail := fun _ _ _ here => here

theorem require (b : Bool) : Lockstep R (Prog.require b) (Prog.require b) := by
  intro fuel s t here
  rw [run_require, run_require]
  split
  · exact ⟨rfl, here⟩
  · exact here

theorem bind {f g : α → Prog σ β} (first : Lockstep R x y) (later : ∀ a, Lockstep R (f a) (g a)) :
    Lockstep R (x >>= f) (y >>= g) := by
  intro fuel s t here
  rw [run_bind, run_bind]
  have both := first fuel s t here
  revert both
  cases x.run fuel s <;> cases y.run fuel t <;> intro both <;> first | exact both.elim | exact both | skip
  · obtain ⟨rfl, next⟩ := both
    exact later _ fuel _ _ next

/-- The rule for a read of the state. -/
theorem get {f g : σ → Prog σ α} (later : ∀ s t, R s t → ∀ fuel, ((f s).run fuel s).Alike R ((g t).run fuel t)) :
    Lockstep R (Prog.get >>= f) (Prog.get >>= g) := fun fuel s t here => later s t here fuel

theorem attempt (both : Lockstep R x y) : Lockstep R (Prog.attempt x) (Prog.attempt y) := by
  intro fuel s t here
  have alike := both fuel s t here
  revert alike
  simp only [Prog.attempt]
  cases x.run fuel s <;> cases y.run fuel t <;> intro alike <;> first | exact alike.elim | exact alike | skip
  · exact ⟨congrArg some alike.1, alike.2⟩
  · exact ⟨rfl, alike⟩

/-- A program on a part of the state on which related states agree, and that keeps them related. -/
theorem focus {τ : Type} {R : τ → τ → Prop} {view : τ → σ} {put : τ → σ → τ} (agree : ∀ s t, R s t → view s = view t)
    (keeps : ∀ s t b, R s t → R (put s b) (put t b)) (x : Prog σ α) :
    Lockstep R (Prog.focus view put x) (Prog.focus view put x) := by
  intro fuel s t here
  simp only [Prog.focus, agree s t here]
  cases x.run fuel (view t) with
  | ok a b => exact ⟨rfl, keeps s t b here⟩
  | err b => exact keeps s t b here
  | spin | trap => exact trivial

end Lockstep

end CanBoot.Lib
