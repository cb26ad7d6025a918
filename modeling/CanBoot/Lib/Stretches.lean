import Mathlib.Algebra.GroupWithZero.Nat
import Mathlib.Data.List.Basic

/-!
# Streams that are taken in stretches

A stream is offered in stretches, one behind the other, and of each stretch a first part is taken. The times that are
taken have no gap exactly if nothing is taken behind a stretch that was not taken whole.
-/

namespace CanBoot.Lib

open List

/-- So many items were offered, and so many of them taken. -/
structure Stretch where
  offered : Nat
  taken : Nat
  within : taken ≤ offered

/-- The times that are taken, from `t` on. -/
def times : Nat → List Stretch → List Nat
  | _, [] => []
  | t, s :: ss => List.range' t s.taken ++ times (t + s.offered) ss

/-- The time behind the last stretch. -/
def elapsed (ss : List Stretch) : Nat := (ss.map Stretch.offered).sum

theorem times_concat (ss : List Stretch) (s : Stretch) (t : Nat) :
    times t (ss ++ [s]) = times t ss ++ range' (t + elapsed ss) s.taken := by
  induction ss generalizing t with
  | nil => rw [nil_append, times, times, times, append_nil, nil_append]; rfl
  | cons r ss ih =>
    rw [cons_append, times, times, ih, append_assoc, elapsed, elapsed, map_cons, sum_cons,
      Nat.add_assoc]

theorem elapsed_concat (ss : List Stretch) (s : Stretch) : elapsed (ss ++ [s]) = elapsed ss + s.offered := by
  rw [elapsed, elapsed, map_append, sum_append, map_cons, map_nil, sum_singleton]

theorem le_of_mem_times : ∀ {ss : List Stretch} {t u : Nat}, u ∈ times t ss → t ≤ u
  | [], _, _, mem => absurd mem not_mem_nil
  | s :: ss, t, u, mem => by
    rcases mem_append.1 mem with here | later
    · exact (mem_range'_1.1 here).1
    · have := le_of_mem_times later
      omega

theorem times_eq_nil : ∀ {ss : List Stretch} {t : Nat}, times t ss = [] ↔ ∀ s ∈ ss, s.taken = 0
  | [], _ => iff_of_true rfl fun _ mem => absurd mem not_mem_nil
  | s :: ss, t => by
    rw [times, append_eq_nil_iff, range'_eq_nil_iff, times_eq_nil, forall_mem_cons]

/-- What follows the start of a range is the rest of it. -/
theorem eq_range'_of_append {xs : List Nat} {t k n : Nat} (same : range' t k ++ xs = range' t n) :
    xs = range' (t + k) (n - k) := by
  have parts : range' t n = range' t k ++ range' (t + k) (n - k) := by
    have sizes := congrArg List.length same
    rw [length_append, length_range', length_range'] at sizes
    rw [range'_append_1]
    congr 1
    omega
  rw [parts] at same
  exact append_cancel_left same

/-- **The times taken have no gap exactly if every stretch is taken whole up to one, and nothing behind that.** -/
theorem times_eq_range'_iff : ∀ {ss : List Stretch} {t : Nat}, (∃ n, times t ss = range' t n) ↔
    ss.Pairwise fun a b => a.taken = a.offered ∨ b.taken = 0
  | [], t => iff_of_true ⟨0, rfl⟩ .nil
  | s :: ss, t => by
    rw [pairwise_cons, ← @times_eq_range'_iff ss (t + s.offered), times]
    constructor
    · rintro ⟨n, same⟩
      have rest := eq_range'_of_append same
      by_cases whole : s.taken = s.offered
      · rw [whole] at rest
        exact ⟨fun _ _ => .inl whole, _, rest⟩
      · have none : times (t + s.offered) ss = [] := by
          rw [rest, range'_eq_nil_iff]
          by_contra more
          -- the next time would lie in the part of `s` that was not taken
          have next : t + s.taken ∈ times (t + s.offered) ss := by
            rw [rest, mem_range'_1]
            omega
          have := le_of_mem_times next
          have := s.within
          omega
        exact ⟨fun r mem => .inr (times_eq_nil.1 none r mem), 0, none⟩
    · rintro ⟨refused, n, rest⟩
      by_cases whole : s.taken = s.offered
      · refine ⟨s.offered + n, ?_⟩
        rw [rest, whole, range'_append_1]
      · have none : times (t + s.offered) ss = [] :=
          times_eq_nil.2 fun r mem => (refused r mem).resolve_left whole
        refine ⟨s.taken, ?_⟩
        rw [none, append_nil]

end CanBoot.Lib
