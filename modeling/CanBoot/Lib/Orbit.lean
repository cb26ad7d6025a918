import Mathlib.Data.Finset.Card
import CanBoot.Lib.Prog

/-!
# Loops that return and loops that do not

A partial step `f` either moves on or stops. `orbit f n a` is the place after `n` steps from `a`, if the walk gets that
far, and the walk `Loops` if it comes back to a place it has passed. A walk that loops never stops
(`Loops.goes_on`). When the places that move on lie in a finite set, a walk longer than the set loops
(`orbit_eq_none_iff`): it stops within a bound or not at all.

A loop of a program that only looks at its state is such a walk (`Prog.Walks`): it answers where the walk stops.
-/

namespace CanBoot.Lib

open Nat Option

variable {α β γ σ : Type}

/-- The place after `n` steps. -/
def orbit (f : α → Option α) : Nat → α → Option α
  | 0, a => some a
  | n + 1, a => (f a).bind (orbit f n)

/-- The walk from `a` comes back to a place it has passed. -/
def Loops (f : α → Option α) (a : α) : Prop :=
  ∃ i k x, 0 < k ∧ orbit f i a = some x ∧ orbit f k x = some x

variable {f : α → Option α} {a : α}

theorem orbit_add (i j : Nat) (a : α) : orbit f (i + j) a = (orbit f i a).bind (orbit f j) := by
  induction i generalizing a with
  | zero => rw [Nat.zero_add, orbit, bind_some]
  | succ i ih =>
    rw [succ_add, orbit, orbit, Option.bind_assoc]
    congr 1
    funext b
    exact ih b

/-- A walk that has stopped stays so. -/
theorem orbit_eq_none_of_le {n n' : Nat} (stopped : orbit f n a = none) (le : n ≤ n') : orbit f n' a = none := by
  obtain ⟨k, rfl⟩ := Nat.exists_eq_add_of_le le
  rw [orbit_add, stopped, bind_none]

/-- **A walk that loops never stops.** -/
theorem Loops.goes_on (loops : Loops f a) (n : Nat) : orbit f n a ≠ none := by
  obtain ⟨i, k, x, positive, here, again⟩ := loops
  have round : ∀ j, orbit f (k * j) x = some x := by
    intro j
    induction j with
    | zero => rfl
    | succ j ih => rw [mul_succ, orbit_add, ih, bind_some, again]
  intro stopped
  have late := orbit_eq_none_of_le stopped (show n ≤ i + k * n from
    Nat.le_trans (Nat.le_mul_of_pos_left n positive) (Nat.le_add_left _ _))
  rw [orbit_add, here, bind_some, round n] at late
  cases late

/-- **A walk that is longer than the places it can move on from loops.** -/
theorem loops_of_orbit {S : Finset α} (inside : ∀ a b, f a = some b → a ∈ S)
    (far : orbit f (S.card + 1) a ≠ none) : Loops f a := by
  have reaches : ∀ i, i ≤ S.card + 1 → ∃ x, orbit f i a = some x := fun i le =>
    ne_none_iff_exists'.mp fun stopped => far (orbit_eq_none_of_le stopped le)
  have passes : ∀ i ∈ Finset.range (S.card + 1), (orbit f i a).getD a ∈ S := by
    intro i mem
    have below := Finset.mem_range.mp mem
    obtain ⟨x, here⟩ := reaches i (by omega)
    obtain ⟨y, next⟩ := reaches (i + 1) (by omega)
    rw [orbit_add, here, bind_some, orbit] at next
    obtain ⟨z, moves, -⟩ := bind_eq_some_iff.mp next
    rw [here, getD_some]
    exact inside x z moves
  obtain ⟨i, mi, j, mj, ne, same⟩ := Finset.exists_ne_map_eq_of_card_lt_of_maps_to
    (by rw [Finset.card_range]; exact lt_succ_self _) passes
  have twice : ∀ i j, i < j → i ∈ Finset.range (S.card + 1) → j ∈ Finset.range (S.card + 1) →
      (orbit f i a).getD a = (orbit f j a).getD a → Loops f a := by
    intro i j lt mi mj same
    obtain ⟨x, here⟩ := reaches i (Nat.le_of_lt (Finset.mem_range.mp mi))
    obtain ⟨y, there⟩ := reaches j (Nat.le_of_lt (Finset.mem_range.mp mj))
    rw [here, there, getD_some, getD_some] at same
    refine ⟨i, j - i, x, Nat.sub_pos_of_lt lt, here, ?_⟩
    have split := orbit_add (f := f) i (j - i) a
    rw [add_sub_of_le (Nat.le_of_lt lt), there, here, bind_some] at split
    rw [← split, same]
  rcases Nat.lt_or_gt_of_ne ne with lt | gt
  · exact twice i j lt mi mj same
  · exact twice j i gt mj mi same.symm

/-- With enough steps for every place, a walk has stopped exactly when it does not loop. -/
theorem orbit_eq_none_iff {S : Finset α} (inside : ∀ a b, f a = some b → a ∈ S) {n : Nat} (enough : S.card < n) :
    orbit f n a = none ↔ ¬ Loops f a := by
  constructor
  · intro stopped loops
    exact loops.goes_on n stopped
  · intro straight
    by_contra far
    exact straight (loops_of_orbit inside fun stopped => far (orbit_eq_none_of_le stopped enough))

/-- A walk whose steps are steps of another walk stops where that one does. -/
theorem orbit_eq_none_of_image {g : β → Option β} {p : α → β} (steps : ∀ a a', f a = some a' → g (p a) = some (p a')) :
    ∀ {n : Nat} {a : α}, orbit g n (p a) = none → orbit f n a = none
  | 0, _, stopped => by cases stopped
  | n + 1, a, stopped => by
    rw [orbit] at stopped ⊢
    cases here : f a with
    | none => rfl
    | some a' =>
      rw [steps a a' here, bind_some] at stopped
      rw [bind_some]
      exact orbit_eq_none_of_image steps stopped

/-- Where the other walk moves on, this one does: it stops no earlier. -/
theorem orbit_image_eq_none {g : β → Option β} {p : α → β}
    (steps : ∀ a b, g (p a) = some b → ∃ a', f a = some a' ∧ p a' = b) :
    ∀ {n : Nat} {a : α}, orbit f n a = none → orbit g n (p a) = none
  | 0, _, stopped => by cases stopped
  | n + 1, a, stopped => by
    rw [orbit] at stopped ⊢
    cases there : g (p a) with
    | none => rfl
    | some b =>
      obtain ⟨a', here, rfl⟩ := steps a b there
      rw [here, bind_some] at stopped
      rw [bind_some]
      exact orbit_image_eq_none steps stopped

/-! ## Programs -/

/-- The program has answered: with a value or with a failure. -/
def Outcome.Returns : Outcome σ α → Prop
  | ok _ _ => True
  | err _ => True
  | spin => False
  | trap => False

namespace Prog

variable {fuel : Nat} {s : σ}

/-- The program answers, and the state is as it was. -/
def Settles (x : Prog σ α) (fuel : Nat) (s : σ) : Prop :=
  (∃ a, x.run fuel s = .ok a s) ∨ x.run fuel s = .err s

variable {x : Prog σ α}

theorem Settles.returns (settles : x.Settles fuel s) : (x.run fuel s).Returns := by
  rcases settles with ⟨a, ok⟩ | err
  · rw [ok]; trivial
  · rw [err]; trivial

theorem settles_pure (a : α) : (pure a : Prog σ α).Settles fuel s := .inl ⟨a, rfl⟩

theorem settles_fail : (fail : Prog σ α).Settles fuel s := .inr rfl

theorem settles_require (b : Bool) : (require b).Settles fuel s := by
  cases b with
  | true => exact .inl ⟨(), rfl⟩
  | false => exact .inr rfl

theorem Settles.bind {f : α → Prog σ β} (first : x.Settles fuel s)
    (later : ∀ a, x.run fuel s = .ok a s → (f a).Settles fuel s) : (x >>= f).Settles fuel s := by
  rcases first with ⟨a, ok⟩ | err
  · rw [Settles, run_bind_ok ok]
    exact later a ok
  · exact .inr (run_bind_err err f)

theorem settles_forAcc {f : α → β → Prog σ β} (rounds : ∀ a b, (f a b).Settles fuel s) :
    ∀ (xs : List α) (b : β), (forAcc f xs b).Settles fuel s
  | [], b => settles_pure b
  | x :: xs, b => (rounds x b).bind fun b' _ => settles_forAcc rounds xs b'

theorem returns_bind {f : α → Prog σ β} (first : (x.run fuel s).Returns)
    (later : ∀ a t, x.run fuel s = .ok a t → ((f a).run fuel t).Returns) : ((x >>= f).run fuel s).Returns := by
  rw [run_bind]
  cases run : x.run fuel s with
  | ok a t => exact later a t run
  | err t => trivial
  | spin | trap => rw [run] at first; exact first

theorem returns_forAcc {f : α → β → Prog σ β} (rounds : ∀ a b t, ((f a b).run fuel t).Returns) :
    ∀ (xs : List α) (b : β) (s : σ), ((forAcc f xs b).run fuel s).Returns
  | [], _, _ => trivial
  | x :: xs, b, s => returns_bind (rounds x b s) fun b' t _ => returns_forAcc rounds xs b' t

/-- A sequence that answers has its first part answered. -/
theorem returns_of_bind {f : α → Prog σ β} (all : ((x >>= f).run fuel s).Returns) : (x.run fuel s).Returns := by
  rw [run_bind] at all
  cases run : x.run fuel s with
  | ok a t | err t => trivial
  | spin | trap => rw [run] at all; exact all

/-- The rounds of a loop that looks at its state only: `f` is a round that goes on. -/
structure Walks (body : β → Prog σ (β ⊕ γ)) (f : β → Option β) (fuel : Nat) (s : σ) : Prop where
  goes : ∀ b b', f b = some b' → (body b).run fuel s = .ok (.inl b') s
  stops : ∀ b, f b = none → (∃ c, (body b).run fuel s = .ok (.inr c) s) ∨ (body b).run fuel s = .err s

variable {body : β → Prog σ (β ⊕ γ)} {f : β → Option β}

theorem Walks.settles (walks : Walks body f fuel s) :
    ∀ {n : Nat} {b : β}, orbit f n b = none → (loopN body n b).Settles fuel s
  | 0, _, stopped => by cases stopped
  | n + 1, b, stopped => by
    rw [orbit] at stopped
    cases next : f b with
    | none =>
      rcases walks.stops b next with ⟨c, leaves⟩ | fails
      · exact .inl ⟨c, run_loopN_exit leaves n⟩
      · exact .inr (run_bind_err fails _)
    | some b' =>
      rw [next, bind_some] at stopped
      rw [Settles, run_loopN_next (walks.goes b b' next)]
      exact walks.settles stopped

theorem Walks.stopped (walks : Walks body f fuel s) :
    ∀ {n : Nat} {b : β}, ((loopN body n b).run fuel s).Returns → orbit f n b = none
  | 0, _, returns => returns.elim
  | n + 1, b, returns => by
    rw [orbit]
    cases next : f b with
    | none => rfl
    | some b' =>
      rw [run_loopN_next (walks.goes b b' next)] at returns
      rw [bind_some]
      exact walks.stopped returns

theorem Walks.settles_loop (walks : Walks body f fuel s) {b : β}
    (halts : orbit f fuel b = none) : (loop body b).Settles fuel s := by
  rw [Settles, run_loop]
  exact walks.settles halts

theorem Walks.stopped_loop (walks : Walks body f fuel s) {b : β}
    (returns : ((loop body b).run fuel s).Returns) : orbit f fuel b = none := by
  rw [run_loop] at returns
  exact walks.stopped returns

end Prog

end CanBoot.Lib
