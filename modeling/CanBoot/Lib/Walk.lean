import Mathlib.Data.List.Induction

/-!
# Walks and path maps

Objects hold named children: `child o n` is the child of `o` called `n`, if there is one. A path is
a list of names, and `walk` follows it from a start object. Nothing is assumed of the graph: where
a tree is wanted, it is said of the paths (two paths meet in one object only when they are equal).

A map from paths that starts at the root and makes every step the graph makes is the walk
(`walk_unique`). So an update of the graph is understood by guessing the new map and checking one
step of it, and the guesses are built from three operations: the part below a path (`below`), a
part put in its place (`graft`), and the map with nothing left there (`prune`).
-/

namespace CanBoot.Lib

open List

variable {O N β : Type} {child : O → N → Option O}

/-- Follow a path of names from an object. -/
def walk (child : O → N → Option O) (o : O) (p : List N) : Option O := p.foldlM child o

theorem walk_snoc (o : O) (p : List N) (n : N) :
    walk child o (p ++ [n]) = (walk child o p).bind fun o' => child o' n := by
  simp only [walk, foldlM_append, foldlM_cons, foldlM_nil, Option.bind_eq_bind]
  cases p.foldlM child o with
  | none => rfl
  | some o' => cases h : child o' n <;> simp [h]

/-- **A map that starts like the walk and steps like the walk is the walk.** -/
theorem walk_unique {T : List N → Option O} {o : O} (start : T [] = some o)
    (step : ∀ p n, T (p ++ [n]) = (T p).bind fun o' => child o' n) : T = walk child o := by
  funext p
  induction p using reverseRecOn with
  | nil => exact start
  | append_singleton p n ih => rw [step, walk_snoc, ih]

/-- A path that does not run through another still does not after one more step, unless that step
completes it. -/
theorem not_prefix_snoc {p q : List N} {t n : N} (out : ¬ p ++ [t] <+: q)
    (step : ¬ (p = q ∧ t = n)) : ¬ p ++ [t] <+: q ++ [n] := by
  intro pre
  rcases List.prefix_concat_iff.mp pre with heq | pre
  · exact step ⟨append_inj_left' heq rfl, singleton_inj.mp (append_inj_right' heq rfl)⟩
  · exact out pre

theorem snoc_not_prefix_self (p : List N) (t : N) : ¬ p ++ [t] <+: p := by
  intro pre
  have := pre.length_le
  rw [length_append, length_singleton] at this
  omega

/-- The part of a path map below a path. -/
def below (p : List N) (T : List N → β) : List N → β := fun q => T (p ++ q)

variable [DecidableEq N]

/-- A path map with the part below a path replaced. -/
def graft (p : List N) (S T : List N → β) : List N → β := fun q =>
  if p <+: q then S (q.drop p.length) else T q

/-- A path map with nothing at or below a path. -/
def prune (p : List N) (T : List N → Option β) : List N → Option β := graft p (fun _ => none) T

theorem graft_append (p q : List N) (S T : List N → β) : graft p S T (p ++ q) = S q := by
  rw [graft, if_pos (List.prefix_append p q), drop_left]

theorem graft_self (p : List N) (S T : List N → β) : graft p S T p = S [] := by
  have := graft_append p [] S T
  rwa [append_nil] at this

theorem graft_outside {p q : List N} (S T : List N → β) (h : ¬ p <+: q) : graft p S T q = T q := if_neg h

theorem prune_eq_some {p q : List N} {T : List N → Option β} {b : β} :
    prune p T q = some b ↔ ¬ p <+: q ∧ T q = some b := by
  unfold prune graft
  split <;> simp_all

theorem prune_outside {p q : List N} (T : List N → Option β) (h : ¬ p <+: q) : prune p T q = T q := if_neg h

theorem prune_below {p q : List N} (T : List N → Option β) (h : p <+: q) : prune p T q = none := if_pos h

end CanBoot.Lib
