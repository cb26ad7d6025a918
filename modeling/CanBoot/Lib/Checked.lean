import CanBoot.Lib.Prog

/-!
# Programs with their accesses checked

A program that checks each of its accesses traps where an access leaves its buffer. `Checks x y` says that `x` is `y`
with such checks added: it does what `y` does, or traps. A run is `Safe` if it does not trap.
-/

namespace CanBoot.Lib.Prog

variable {σ α β : Type} {fuel : Nat} {s : σ}

/-- `x` is `y` with checks added. -/
def Checks (x y : Prog σ α) : Prop := ∀ fuel s, x.run fuel s = .trap ∨ x.run fuel s = y.run fuel s

theorem Checks.refl (x : Prog σ α) : Checks x x := fun _ _ => .inr rfl

variable {x y : Prog σ α} {f : α → Prog σ β}

theorem Checks.bind {g : α → Prog σ β} (first : Checks x y) (later : ∀ a, Checks (f a) (g a)) :
    Checks (x >>= f) (y >>= g) := by
  intro fuel s
  rcases first fuel s with trap | same
  · exact .inl (run_bind_trap trap f)
  · rw [run_bind, run_bind, same]
    cases y.run fuel s with
    | ok a t => exact later a fuel t
    | err t | spin | trap => exact .inr rfl

/-- A first part without checks. -/
theorem Checks.next {g : α → Prog σ β} (later : ∀ a, Checks (f a) (g a)) : Checks (x >>= f) (x >>= g) :=
  (refl x).bind later

/-- A first part that comes to a known value. -/
theorem Checks.pure_bind {a : α} {y : Prog σ β} (first : Checks x (pure a))
    (later : Checks (f a) y) : Checks (x >>= f) y := by
  intro fuel s
  rcases first fuel s with trap | same
  · exact .inl (run_bind_trap trap f)
  · rw [run_bind_ok same]
    exact later fuel s

/-- One more check. -/
theorem Checks.guard (b : Bool) (rest : Checks x y) : Checks (defined b >>= fun _ => x) y := by
  intro fuel s
  cases b with
  | true => exact rest fuel s
  | false => exact .inl rfl

theorem Checks.attempt (checks : Checks x y) : Checks (attempt x) (attempt y) := by
  intro fuel s
  rcases checks fuel s with trap | same
  · exact .inl (run_attempt_trap trap)
  · right
    simp only [Prog.attempt, same]

/-- The run does not trap. -/
def Safe (x : Prog σ α) (fuel : Nat) (s : σ) : Prop := x.run fuel s ≠ .trap

theorem Checks.run_eq (checks : Checks x y) (safe : x.Safe fuel s) : x.run fuel s = y.run fuel s :=
  (checks fuel s).resolve_left safe

theorem safe_of_ok {a : α} {t : σ} (run : x.run fuel s = .ok a t) : x.Safe fuel s := by
  rw [Safe, run]
  intro trap
  cases trap

theorem safe_of_err {t : σ} (run : x.run fuel s = .err t) : x.Safe fuel s := by
  rw [Safe, run]
  intro trap
  cases trap

theorem safe_of_spin (run : x.run fuel s = .spin) : x.Safe fuel s := by
  rw [Safe, run]
  intro trap
  cases trap

instance (x : Prog σ α) (fuel : Nat) (s : σ) : Decidable (x.Safe fuel s) :=
  match run : x.run fuel s with
  | .ok _ _ => .isTrue (safe_of_ok run)
  | .err _ => .isTrue (safe_of_err run)
  | .spin => .isTrue (safe_of_spin run)
  | .trap => .isFalse fun safe => safe run

theorem safe_pure (a : α) : (pure a : Prog σ α).Safe fuel s := safe_of_ok rfl

theorem safe_fail : (fail : Prog σ α).Safe fuel s := safe_of_err rfl

theorem safe_require (b : Bool) : (require b).Safe fuel s := by
  cases b with
  | true => exact safe_of_ok rfl
  | false => exact safe_of_err rfl

theorem safe_defined {b : Bool} (holds : b = true) : (defined b).Safe fuel s :=
  safe_of_ok (run_defined_true holds fuel s)

theorem Safe.bind (first : x.Safe fuel s)
    (later : ∀ a t, x.run fuel s = .ok a t → (f a).Safe fuel t) : (x >>= f).Safe fuel s := by
  rw [Safe, run_bind]
  cases run : x.run fuel s with
  | ok a t => exact later a t run
  | err t | spin => exact fun trap => by cases trap
  | trap => exact absurd run first

end CanBoot.Lib.Prog
