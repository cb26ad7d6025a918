import CanBoot.Lib.Prog

/-!
# Programs that leave a part of the state alone

`Keeps view x` says that `x` leaves what `view` shows of the state as it was, whether it answers or fails.
-/

namespace CanBoot.Lib.Prog

variable {σ τ α β : Type} {view : σ → τ}

/-- The program leaves this view of the state as it was. -/
def Keeps (view : σ → τ) (x : Prog σ α) : Prop := ∀ fuel s, view ((x.run fuel s).after s) = view s

namespace Keeps

theorem pure (a : α) : Keeps view (Pure.pure a : Prog σ α) := fun _ _ => rfl

theorem fail : Keeps view (Prog.fail : Prog σ α) := fun _ _ => rfl

theorem require (b : Bool) : Keeps view (Prog.require b) := fun _ _ => by
  cases b <;> rfl

theorem defined (b : Bool) : Keeps view (Prog.defined b) := fun _ _ => by
  cases b <;> rfl

theorem divide (n k : Nat) : Keeps view (Prog.divide n k : Prog σ Nat) := fun _ _ => by
  rw [run_divide]
  split <;> rfl

theorem bind {x : Prog σ α} {f : α → Prog σ β} (first : Keeps view x) (later : ∀ a, Keeps view (f a)) :
    Keeps view (x >>= f) := by
  intro fuel s
  have here := first fuel s
  rw [run_bind]
  cases run : x.run fuel s with
  | err t =>
    rw [run] at here
    exact here
  | spin => rfl
  | trap => rfl
  | ok a t =>
    rw [run] at here
    have there := later a fuel t
    show view (((f a).run fuel t).after s) = view s
    cases rest : (f a).run fuel t with
    | ok b u | err u =>
      rw [rest] at there
      exact there.trans here
    | spin | trap => rfl

theorem attempt {x : Prog σ α} (keeps : Keeps view x) : Keeps view (Prog.attempt x) := by
  intro fuel s
  have here := keeps fuel s
  simp only [Prog.attempt]
  cases run : x.run fuel s with
  | ok a t | err t =>
    rw [run] at here
    exact here
  | spin => rfl
  | trap => rfl

/-- A program that keeps the whole state answers in it. -/
theorem ok {x : Prog σ α} (keeps : Keeps id x) {fuel : Nat} {s t : σ} {a : α} (run : x.run fuel s = .ok a t) :
    t = s := by
  have here := keeps fuel s
  rw [run] at here
  exact here

/-- And fails in it. -/
theorem err {x : Prog σ α} (keeps : Keeps id x) {fuel : Nat} {s t : σ} (run : x.run fuel s = .err t) : t = s := by
  have here := keeps fuel s
  rw [run] at here
  exact here

end Keeps

end CanBoot.Lib.Prog
