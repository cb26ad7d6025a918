import Mathlib.Order.Basic

/-!
# Gaps between excluded spans

A span is a stretch of addresses. Sweeping over a span from below, the next excluded stretch (`Cut`) splits what is left:
the gap before it avoids every excluded span, and whatever else avoids them lies in that gap or behind the cut
(`Cut.left_or_right`). Every cut uses up an excluded span (`Cut.fewer`), so a sweep ends.
-/

namespace CanBoot.Lib

open List

/-- The addresses from `start` up to `stop`, which is not one of them. -/
structure Span where
  start : Nat
  stop : Nat
deriving DecidableEq, Repr

namespace Span

def length (s : Span) : Nat := s.stop - s.start

def Has (s : Span) (x : Nat) : Prop := s.start ≤ x ∧ x < s.stop

/-- No address in common. -/
def Apart (s t : Span) : Prop := ∀ x, s.Has x → ¬ t.Has x

def Within (s t : Span) : Prop := t.start ≤ s.start ∧ s.stop ≤ t.stop

def Avoids (s : Span) (es : List Span) : Prop := ∀ e ∈ es, s.Apart e

theorem Within.has {s t : Span} (within : s.Within t) {x : Nat} (has : s.Has x) : t.Has x :=
  ⟨Nat.le_trans within.1 has.1, Nat.lt_of_lt_of_le has.2 within.2⟩

theorem Within.trans {s t u : Span} (first : s.Within t) (second : t.Within u) : s.Within u :=
  ⟨Nat.le_trans second.1 first.1, Nat.le_trans first.2 second.2⟩

theorem Within.apart {s t u : Span} (within : s.Within t) (apart : t.Apart u) : s.Apart u :=
  fun x has => apart x (within.has has)

theorem Within.avoids {s t : Span} (within : s.Within t) {es : List Span} (avoids : t.Avoids es) : s.Avoids es :=
  fun e mem => within.apart (avoids e mem)

theorem Within.length_le {s t : Span} (within : s.Within t) : s.length ≤ t.length := by
  have low := within.1
  have high := within.2
  rw [length, length]
  omega

/-- A span without addresses is apart from all others. -/
theorem apart_of_empty {s : Span} (empty : s.stop ≤ s.start) (t : Span) : t.Apart s := by
  intro x _ has
  have low := has.1
  have high := has.2
  omega

end Span

/-- The next excluded stretch in the span from `low` to `high`: nothing before it is excluded, and all of it belongs to
one excluded span, with whose end it ends. -/
structure Cut (es : List Span) (low high : Nat) (c : Span) : Prop where
  le : low ≤ c.start
  inside : c.start < high
  nonempty : c.start < c.stop
  clear : (Span.mk low c.start).Avoids es
  blocked : ∃ e ∈ es, e.start ≤ c.start ∧ e.stop = c.stop

section Cut

variable {es : List Span} {low high : Nat} {c s : Span}

/-- **What avoids the excluded spans lies before a cut or behind it.** -/
theorem Cut.left_or_right (cut : Cut es low high c) (some_ : s.start < s.stop) (avoids : s.Avoids es) :
    s.stop ≤ c.start ∨ c.stop ≤ s.start := by
  by_contra neither
  obtain ⟨e, mem, begins, ends⟩ := cut.blocked
  have nonempty := cut.nonempty
  -- the first address that both have
  refine avoids e mem (max s.start c.start) ⟨by omega, by omega⟩ ⟨by omega, by omega⟩

/-- **A cut uses up an excluded span**: fewer of them reach beyond its end than beyond the start of the sweep. -/
theorem Cut.fewer (cut : Cut es low high c) :
    es.countP (fun e => c.stop < e.stop) < es.countP fun e => low < e.stop := by
  obtain ⟨e, mem, -, ends⟩ := cut.blocked
  have le := cut.le
  have nonempty := cut.nonempty
  obtain ⟨front, back, rfl⟩ := append_of_mem mem
  have imp : ∀ e : Span, decide (c.stop < e.stop) = true → decide (low < e.stop) = true := by
    intro e beyond
    have := of_decide_eq_true beyond
    exact decide_eq_true (by omega)
  have frontLe := countP_mono_left (l := front) fun e _ => imp e
  have backLe := countP_mono_left (l := back) fun e _ => imp e
  rw [countP_append, countP_append, countP_cons, countP_cons,
    if_neg (by simp [ends]), if_pos (decide_eq_true (by omega))]
  omega

end Cut

end CanBoot.Lib
