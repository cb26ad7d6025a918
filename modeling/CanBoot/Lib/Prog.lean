import Mathlib.Data.List.Basic

/-!
# Programs over a state, with failure, loops and traps

A C function that returns `-1` leaves behind whatever it had already written, so its failure
carries a state. A `while` loop may run forever, so a program is read at a fuel: the number of
rounds any one loop may take. And a division by zero has no result at all.

`Prog σ α` is the shallow embedding of such a function over the state `σ`. It is a function of the
fuel and of the state, and its answer (`Outcome`) is one of four: a value and a state, a failure
and a state, a loop that is still running, or undefined behaviour. A law that wants a result has
to produce it at a fuel it names; a law about a result holds at every fuel that yields one.
-/

namespace CanBoot.Lib

open List

/-- What a program answers: a value, a failure (the C code's `-1`), a loop still running when the
fuel is spent, or undefined behaviour. The first two carry the state they leave. -/
inductive Outcome (σ α : Type) where
  | ok (value : α) (state : σ)
  | err (state : σ)
  | spin
  | trap

/-- A search's answer as a program's: not found is a failure. -/
def Outcome.ofOption {σ α : Type} (s : σ) : Option α → Outcome σ α
  | some a => .ok a s
  | none => .err s

namespace Outcome

variable {σ α : Type}

def isOk : Outcome σ α → Bool
  | ok _ _ => true
  | _ => false

def isErr : Outcome σ α → Bool
  | err _ => true
  | _ => false

/-- The value of an answer. -/
def value : Outcome σ α → Option α
  | ok a _ => some a
  | _ => none

/-- The state an answer leaves, if there is an answer. -/
def after (start : σ) : Outcome σ α → σ
  | ok _ s => s
  | err s => s
  | _ => start

theorem eq_ok_of_isOk {o : Outcome σ Unit} (s : σ) (h : o.isOk = true) : o = .ok () (o.after s) := by
  cases o with
  | ok u t => rfl
  | _ => cases h

theorem eq_err_of_isErr {o : Outcome σ α} (s : σ) (h : o.isErr = true) : o = .err (o.after s) := by
  cases o with
  | err t => rfl
  | _ => cases h

end Outcome

/-- A program over `σ`: a function of the loop fuel and of the state. -/
structure Prog (σ α : Type) : Type where
  run : Nat → σ → Outcome σ α

namespace Prog

variable {σ α β γ : Type}

instance : Monad (Prog σ) where
  pure a := ⟨fun _ s => .ok a s⟩
  bind x f := ⟨fun fuel s =>
    match x.run fuel s with
    | .ok a t => (f a).run fuel t
    | .err t => .err t
    | .spin => .spin
    | .trap => .trap⟩

/-- Return `-1` here. -/
def fail : Prog σ α := ⟨fun _ s => .err s⟩

/-- The loop has outrun its fuel. -/
def spin : Prog σ α := ⟨fun _ _ => .spin⟩

/-- `if (!b) return -1;` -/
def require (b : Bool) : Prog σ Unit := ⟨fun _ s => if b then .ok () s else .err s⟩

/-- Undefined behaviour here unless `b`. -/
def defined (b : Bool) : Prog σ Unit := ⟨fun _ s => if b then .ok () s else .trap⟩

/-- Unsigned division, undefined for a zero divisor. -/
def divide (n k : Nat) : Prog σ Nat := ⟨fun _ s => if k = 0 then .trap else .ok (n / k) s⟩

/-- Run a program for its status: its value if it has one, `none` if it returned `-1`. The state
is the one it left either way. -/
def attempt (x : Prog σ α) : Prog σ (Option α) := ⟨fun fuel s =>
  match x.run fuel s with
  | .ok a t => .ok (some a) t
  | .err t => .ok none t
  | .spin => .spin
  | .trap => .trap⟩

/-- The state, read. -/
def get : Prog σ σ := ⟨fun _ s => .ok s s⟩

/-- The state, changed. -/
def modify (f : σ → σ) : Prog σ Unit := ⟨fun _ s => .ok () (f s)⟩

/-- A program over a part of the state. -/
def focus {τ : Type} (view : τ → σ) (put : τ → σ → τ) (x : Prog σ α) : Prog τ α := ⟨fun fuel t =>
  match x.run fuel (view t) with
  | .ok a s => .ok a (put t s)
  | .err s => .err (put t s)
  | .spin => .spin
  | .trap => .trap⟩

/-- The rounds of a loop, at most `n` of them: a round either goes on (`inl`) or leaves (`inr`). -/
def loopN (body : β → Prog σ (β ⊕ γ)) : Nat → β → Prog σ γ
  | 0, _ => spin
  | n + 1, b => do
    match ← body b with
    | .inl b' => loopN body n b'
    | .inr c => pure c

/-- A `while` loop with the loop state `β`: its rounds are bounded by the fuel alone. -/
def loop (body : β → Prog σ (β ⊕ γ)) (start : β) : Prog σ γ :=
  ⟨fun fuel s => (loopN body fuel start).run fuel s⟩

/-- A `for` loop over a list, with an accumulator. -/
def forAcc (body : α → β → Prog σ β) : List α → β → Prog σ β
  | [], b => pure b
  | a :: as, b => do
    let b' ← body a b
    forAcc body as b'

/-! ## The equations of the combinators -/

@[simp] theorem run_pure (a : α) (fuel : Nat) (s : σ) : (pure a : Prog σ α).run fuel s = .ok a s := rfl

theorem run_bind (x : Prog σ α) (f : α → Prog σ β) (fuel : Nat) (s : σ) : (x >>= f).run fuel s = match x.run fuel s with
      | .ok a t => (f a).run fuel t
      | .err t => .err t
      | .spin => .spin
      | .trap => .trap := rfl

variable {x : Prog σ α}

theorem ext_run {y : Prog σ α} (same : ∀ fuel s, x.run fuel s = y.run fuel s) : x = y := by
  show Prog.mk x.run = Prog.mk y.run
  congr 1
  funext fuel s
  exact same fuel s

theorem bind_assoc (x : Prog σ α) (f : α → Prog σ β) (g : β → Prog σ γ) :
    (x >>= f) >>= g = x >>= fun a => f a >>= g := by
  refine ext_run fun fuel s => ?_
  simp only [run_bind]
  cases x.run fuel s <;> rfl

theorem bind_unit (x : Prog σ Unit) : (x >>= fun _ => pure ()) = x := by
  refine ext_run fun fuel s => ?_
  rw [run_bind]
  cases x.run fuel s <;> rfl

@[simp] theorem run_fail (fuel : Nat) (s : σ) : (fail : Prog σ α).run fuel s = .err s := rfl

@[simp] theorem run_require (b : Bool) (fuel : Nat) (s : σ) :
    (require b : Prog σ Unit).run fuel s = if b then .ok () s else .err s := rfl

variable {b : Bool}

theorem run_require_true (h : b = true) (fuel : Nat) (s : σ) : (require b).run fuel s = .ok () s := by
  rw [run_require, if_pos h]

theorem run_require_false (h : b = false) (fuel : Nat) (s : σ) : (require b).run fuel s = .err s := by
  rw [run_require, h]
  rfl

theorem run_defined_true (h : b = true) (fuel : Nat) (s : σ) : (defined b).run fuel s = .ok () s := by
  rw [defined, h]
  rfl

theorem run_defined_false (h : b = false) (fuel : Nat) (s : σ) : (defined b).run fuel s = .trap := by
  rw [defined, h]
  rfl

@[simp] theorem run_divide (n k fuel : Nat) (s : σ) :
    (divide n k : Prog σ Nat).run fuel s = if k = 0 then .trap else .ok (n / k) s := rfl

theorem run_divide_pos {n k : Nat} (h : k ≠ 0) (fuel : Nat) (s : σ) : (divide n k).run fuel s = .ok (n / k) s := by
  rw [run_divide, if_neg h]

variable {fuel : Nat} {s t : σ} {a : α}

/-- A program that has answered hands its value and its state on. -/
theorem run_bind_ok (h : x.run fuel s = .ok a t) (f : α → Prog σ β) : (x >>= f).run fuel s = (f a).run fuel t := by
  rw [run_bind, h]

/-- A program that has failed skips the rest. -/
theorem run_bind_err (h : x.run fuel s = .err t) (f : α → Prog σ β) : (x >>= f).run fuel s = .err t := by
  rw [run_bind, h]

theorem run_bind_trap (h : x.run fuel s = .trap) (f : α → Prog σ β) : (x >>= f).run fuel s = .trap := by
  rw [run_bind, h]

/-! A test passes its state on, or ends the program. -/

variable {f : Unit → Prog σ β}

theorem bind_require_true (h : b = true) :
    (require b >>= f).run fuel s = (f ()).run fuel s := run_bind_ok (run_require_true h fuel s) f

theorem bind_require_false (h : b = false) :
    (require b >>= f).run fuel s = .err s := run_bind_err (run_require_false h fuel s) f

theorem bind_require_err (rest : b = true → (f ()).run fuel s = .err s) : (require b >>= f).run fuel s = .err s := by
  cases b with
  | true => exact rest rfl
  | false => rfl

theorem bind_defined_true (h : b = true) :
    (defined b >>= f).run fuel s = (f ()).run fuel s := run_bind_ok (run_defined_true h fuel s) f

theorem bind_defined_false (h : b = false) :
    (defined b >>= f).run fuel s = .trap := run_bind_trap (run_defined_false h fuel s) f

theorem run_attempt_ok (h : x.run fuel s = .ok a t) : (attempt x).run fuel s = .ok (some a) t := by
  simp only [attempt, h]

theorem run_attempt_err (h : x.run fuel s = .err t) : (attempt x).run fuel s = .ok none t := by
  simp only [attempt, h]

theorem run_attempt_trap (h : x.run fuel s = .trap) : (attempt x).run fuel s = .trap := by
  simp only [attempt, h]

@[simp] theorem run_get (fuel : Nat) (s : σ) : (get : Prog σ σ).run fuel s = .ok s s := rfl

@[simp] theorem run_modify (f : σ → σ) (fuel : Nat) (s : σ) : (modify f).run fuel s = .ok () (f s) := rfl

variable {τ : Type}

theorem run_focus_ok (view : τ → σ) (put : τ → σ → τ) {t : τ} (h : x.run fuel (view t) = .ok a s) :
    (focus view put x).run fuel t = .ok a (put t s) := by
  simp only [focus, h]

theorem run_focus_err (view : τ → σ) (put : τ → σ → τ) {t : τ} (h : x.run fuel (view t) = .err s)
    : (focus view put x).run fuel t = .err (put t s) := by
  simp only [focus, h]

theorem run_focus_trap (view : τ → σ) (put : τ → σ → τ) {t : τ}
    (h : x.run fuel (view t) = .trap) : (focus view put x).run fuel t = .trap := by
  simp only [focus, h]

theorem require_ok {u : Unit} (h : (require b).run fuel s = .ok u t) : b = true ∧ t = s := by
  rw [run_require] at h
  split at h
  · next hb =>
    cases h
    exact ⟨hb, rfl⟩
  · cases h

/-- A sequence answers only if both halves do: the bind, read backwards. -/
theorem run_bind_eq_ok {f : α → Prog σ β} {u : σ} {b : β} : (x >>= f).run fuel s = .ok b u ↔
      ∃ a t, x.run fuel s = .ok a t ∧ (f a).run fuel t = .ok b u := by
  rw [run_bind]
  cases x.run fuel s with
  | ok a t | err t | spin | trap => simp

theorem run_loop (body : β → Prog σ (β ⊕ γ)) (b : β) (fuel : Nat) (s : σ) :
    (loop body b).run fuel s = (loopN body fuel b).run fuel s := rfl

variable {body : β → Prog σ (β ⊕ γ)}

/-- A round that goes on. -/
theorem run_loopN_next {b b' : β} (h : (body b).run fuel s = .ok (.inl b') t) (n : Nat) :
    (loopN body (n + 1) b).run fuel s = (loopN body n b').run fuel t := by
  rw [loopN, run_bind_ok h]

/-- A round that leaves. -/
theorem run_loopN_exit {b : β} {c : γ} (h : (body b).run fuel s = .ok (.inr c) t) (n : Nat) :
    (loopN body (n + 1) b).run fuel s = .ok c t := by
  rw [loopN, run_bind_ok h, run_pure]

/-- A loop none of whose rounds leaves is still running at every fuel. -/
theorem run_loopN_spin {P : β → σ → Prop}
    (round : ∀ b s, P b s → ∃ b' t, (body b).run fuel s = .ok (.inl b') t ∧ P b' t) :
    ∀ n b s, P b s → (loopN body n b).run fuel s = .spin
  | 0, _, _, _ => rfl
  | n + 1, b, s, here => by
    obtain ⟨b', t, goesOn, there⟩ := round b s here
    rw [run_loopN_next goesOn]
    exact run_loopN_spin round n b' t there

theorem run_forAcc_trap {body : α → β → Prog σ β} {b : β} (h : (body a b).run fuel s = .trap) (as : List α)
    : (forAcc body (a :: as) b).run fuel s = .trap := by
  rw [forAcc, run_bind_trap h]

/-- A loop whose rounds all answer does what its rounds do, one after the other. -/
theorem run_forAcc_foldl {body : α → β → Prog σ β} {f : σ → α → σ} {b : β} :
    ∀ {xs : List α} (s : σ), (∀ x ∈ xs, ∀ s, (body x b).run fuel s = .ok b (f s x)) →
      (forAcc body xs b).run fuel s = .ok b (xs.foldl f s)
  | [], _, _ => rfl
  | x :: xs, s, rounds => by
    rw [forAcc, run_bind_ok (rounds x mem_cons_self s)]
    exact run_forAcc_foldl _ fun y mem => rounds y (mem_cons_of_mem _ mem)

/-- Rounds that agree on the elements of the list make the same loop. -/
theorem forAcc_congr {f g : α → β → Prog σ β} : ∀ {xs : List α} (b : β),
    (∀ x ∈ xs, ∀ b, f x b = g x b) → forAcc f xs b = forAcc g xs b
  | [], _, _ => rfl
  | x :: xs, b, same => by
    rw [forAcc, forAcc, same x mem_cons_self b]
    congr 1
    funext b'
    exact forAcc_congr b' fun y mem => same y (mem_cons_of_mem _ mem)

end Prog

end CanBoot.Lib
