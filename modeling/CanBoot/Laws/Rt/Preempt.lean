import CanBoot.Rt.Preempt
import Mathlib.Data.List.Infix

/-!
# A deferred tick and its yield

A tick that finds preemption disabled sets a flag, and the enable that ends the section sees it and yields. The flag is
cleared by `canboot_sched_preempt` alone: `canboot_sched_yield` leaves it. So the request is honoured once more at the
end of every later section, until a tick comes that is not deferred. Every deferred tick is served in time, and
`honoured_once_iff` says when it is served once.
-/

namespace CanBoot.Preempt

open Lib List

/-! ## What is claimed of a run -/

/-- The event rescheduled. -/
def Note.rescheduled : Note → Bool
  | .direct switched => switched
  | .closed yields => yields
  | .yielded => true
  | _ => false

/-- **Deferred preemption is honoured once**: a deferred tick is followed by a reschedule no later than the enable that
brings the count to zero, enables never yielded more often than ticks were deferred, and between two yields of enables
a tick was deferred. -/
structure HonouredOnce (notes : List Note) : Prop where
  served : ∀ before between after yields, notes = before ++ .deferred :: (between ++ .closed yields :: after) →
    (∀ y, Note.closed y ∉ between) → yields = true ∨ ∃ n ∈ between, n.rescheduled = true
  bounded : ∀ k, (notes.take k).count (.closed true) ≤ (notes.take k).count .deferred
  fresh : ∀ before between after, notes = before ++ .closed true :: (between ++ .closed true :: after) →
    Note.deferred ∈ between

/-! ## Sequences of events -/

/-- The depth after an event, if it has one: an enable needs a disable before it, and the counter has 32 bits. -/
def nest (depth : Nat) : Event → Option Nat
  | .disable => if depth + 1 < 4294967296 then some (depth + 1) else none
  | .enable => if 0 < depth then some (depth - 1) else none
  | _ => some depth

/-- The disables and enables are nested pairs, some of them still open. -/
def Nested (events : List Event) : Prop := (events.foldlM nest 0).isSome = true

instance (events : List Event) : Decidable (Nested events) := inferInstanceAs (Decidable (_ = true))

/-- What became of the last deferred tick: there is none since a tick was handled at once, it waits for the end of its
section, or an enable has yielded for it. -/
inductive Request where
  | none | waiting | honoured
deriving DecidableEq, Repr

/-- The depth and the request after an event, unless a section ends that has nothing new to honour. -/
def follow : Nat × Request → Event → Option (Nat × Request)
  | (depth, _), .tick _ => some (depth, if depth = 0 then .none else .waiting)
  | (depth, r), .disable => some (depth + 1, r)
  | (depth, r), .enable =>
    if depth = 1 then
      match r with
      | .none => some (0, .none)
      | .waiting => some (0, .honoured)
      | .honoured => none
    else some (depth - 1, r)
  | (depth, r), .yield => some (depth, r)

/-- **Every section that ends after an honoured request had a tick of its own**, or a tick came between the sections. -/
def Renewed (events : List Event) : Prop := (events.foldlM follow (0, .none)).isSome = true

instance (events : List Event) : Decidable (Renewed events) := inferInstanceAs (Decidable (_ = true))

/-! ## One event -/

theorem run_snoc (events : List Event) (e : Event) :
    run (events ++ [e]) = ((step (run events).1 e).1, (run events).2 ++ [(step (run events).1 e).2]) := by
  rw [run, foldl_append]
  rfl

/-- The flags of a CPU at a depth, with a request. -/
def flags (depth : Nat) (r : Request) : CpuFlags := ⟨depth, r ≠ .none⟩

theorem step_tick_zero (r : Request) (runnable : Bool) :
    step (flags 0 r) (.tick runnable) = (flags 0 .none, .direct runnable) := rfl

variable {depth : Nat}

theorem step_tick_pos (deep : 0 < depth) (r : Request) (runnable : Bool) :
    step (flags depth r) (.tick runnable) = (flags depth .waiting, .deferred) := by
  have positive : (flags depth r).preemptCount ≠ 0 := Nat.pos_iff_ne_zero.mp deep
  rw [step, canbootSchedOnTick, if_pos positive]
  rfl

theorem step_disable (fits : depth + 1 < 4294967296) (r : Request) :
    step (flags depth r) .disable = (flags (depth + 1) r, .disabled) := by
  rw [step, canbootPreemptDisable, show u32 ((flags depth r).preemptCount + 1) = depth + 1 from u32_of_lt fits]
  rfl

theorem step_enable_nested (deep : 1 < depth) (r : Request) :
    step (flags depth r) .enable = (flags (depth - 1) r, .nested) := by
  obtain ⟨k, rfl⟩ : ∃ k, depth = k + 2 := ⟨depth - 2, by omega⟩
  rfl

theorem step_enable_one (r : Request) : step (flags 1 r) .enable = (flags 0 r, .closed (r ≠ .none)) := by
  cases r <;> rfl

/-- What a history says of the request: `waiting` and `honoured` are backed by the notes. -/
structure Backed (notes : List Note) (depth : Nat) (r : Request) : Prop where
  served : ∀ before between, notes = before ++ .deferred :: between → (∀ y, Note.closed y ∉ between) →
    r ≠ .none ∧ 0 < depth
  bounded : notes.count (.closed true) + (if r = .waiting then 1 else 0) ≤ notes.count .deferred
  fresh : ∀ before between, notes = before ++ .closed true :: between → Note.deferred ∉ between → r ≠ .waiting
  honoured : r = .honoured → ∃ before between, notes = before ++ .closed true :: between ∧ Note.deferred ∉ between

/-- Where an entry of a list with one more at the end stands. -/
theorem snoc_split {α : Type} {l before between : List α} {x a : α} (split : l ++ [x] = before ++ a :: between) :
    (between = [] ∧ a = x ∧ before = l) ∨ ∃ shorter, between = shorter ++ [x] ∧ l = before ++ a :: shorter := by
  rcases eq_nil_or_concat between with rfl | ⟨shorter, last, rfl⟩
  · obtain ⟨front, back⟩ := append_inj' split rfl
    cases back
    exact .inl ⟨rfl, rfl, front.symm⟩
  · rw [concat_eq_append] at split ⊢
    rw [← cons_append, ← append_assoc] at split
    obtain ⟨front, back⟩ := append_inj' split rfl
    cases back
    exact .inr ⟨shorter, rfl, front⟩

section Snoc

variable {notes : List Note} {depth : Nat} {r : Request}

variable {x : Note}

theorem count_snoc_of_ne (notes : List Note) {n : Note} (ne : n ≠ x) : (notes ++ [x]).count n = notes.count n := by
  have none : [x].count n = 0 := count_eq_zero_of_not_mem fun mem => ne (mem_singleton.mp mem)
  rw [count_append, none, Nat.add_zero]

theorem count_snoc_self (notes : List Note) (x : Note) : (notes ++ [x]).count x = notes.count x + 1 := by
  rw [count_append, count_singleton_self]

/-- The claims are kept by an event that respects them. -/
theorem HonouredOnce.snoc (once : HonouredOnce notes)
    (served : ∀ y before between, x = .closed y → notes = before ++ .deferred :: between →
      (∀ y, Note.closed y ∉ between) → y = true)
    (bounded : x = .closed true → notes.count (.closed true) < notes.count .deferred)
    (fresh : ∀ before between, x = .closed true → notes = before ++ .closed true :: between → Note.deferred ∈ between)
    : HonouredOnce (notes ++ [x]) := by
  refine ⟨fun before between after yields split quiet => ?_, fun k => ?_, fun before between after split => ?_⟩
  · rw [← cons_append, ← append_assoc] at split
    rcases snoc_split split with ⟨-, rfl, whole⟩ | ⟨shorter, -, whole⟩
    · exact .inl (served yields before between rfl whole.symm quiet)
    · rw [append_assoc, cons_append] at whole
      exact once.served before between shorter yields whole quiet
  · rcases Nat.lt_or_ge notes.length k with long | short
    · have before := once.bounded notes.length
      rw [take_length] at before
      rw [take_of_length_le (by rw [length_append]; exact long)]
      by_cases yields : x = .closed true
      · have room := bounded yields
        subst yields
        rw [count_snoc_self, count_snoc_of_ne _ (by decide)]
        exact room
      · rw [count_snoc_of_ne _ (Ne.symm yields), count_append]
        omega
    · rw [take_append_of_le_length short]
      exact once.bounded k
  · rw [← cons_append, ← append_assoc] at split
    rcases snoc_split split with ⟨-, rfl, whole⟩ | ⟨shorter, -, whole⟩
    · exact fresh before between rfl whole.symm
    · rw [append_assoc, cons_append] at whole
      exact once.fresh before between shorter whole

theorem HonouredOnce.snoc_open (once : HonouredOnce notes) (open_ : ∀ y, x ≠ .closed y) : HonouredOnce (notes ++ [x]) :=
  once.snoc (fun y _ _ same => absurd same (open_ y)) (fun same => absurd same (open_ true))
    fun _ _ same => absurd same (open_ true)

/-- And were kept by the events before. -/
theorem HonouredOnce.of_append {more : List Note} (once : HonouredOnce (notes ++ more)) : HonouredOnce notes := by
  refine ⟨fun before between after yields split quiet => ?_, fun k => ?_, fun before between after split => ?_⟩
  · refine once.served before between (after ++ more) yields ?_ quiet
    rw [split]
    simp only [append_assoc, cons_append]
  · have bound := once.bounded (min k notes.length)
    rw [take_append_of_le_length (Nat.min_le_right _ _)] at bound
    rwa [take_eq_take_iff.mpr (show min k notes.length ⊓ notes.length = k ⊓ notes.length by omega)] at bound
  · refine once.fresh before between (after ++ more) ?_
    rw [split]
    simp only [append_assoc, cons_append]

/-- An event that is neither a deferred tick nor the end of a section leaves the request. -/
theorem Backed.neutral (backed : Backed notes depth r) (tick : x ≠ .deferred) (open_ : ∀ y, x ≠ .closed y)
    {depth' : Nat} (deep : 0 < depth → 0 < depth') : Backed (notes ++ [x]) depth' r := by
  refine ⟨fun before between split quiet => ?_, ?_, fun before between split none => ?_, fun honoured => ?_⟩
  · rcases snoc_split split with ⟨-, rfl, -⟩ | ⟨shorter, rfl, whole⟩
    · exact absurd rfl tick
    · obtain ⟨some, pos⟩ := backed.served before shorter whole fun y mem => quiet y (mem_append_left _ mem)
      exact ⟨some, deep pos⟩
  · rw [count_snoc_of_ne _ (Ne.symm (open_ true)), count_snoc_of_ne _ (Ne.symm tick)]
    exact backed.bounded
  · rcases snoc_split split with ⟨-, rfl, -⟩ | ⟨shorter, rfl, whole⟩
    · exact absurd rfl (open_ true)
    · exact backed.fresh before shorter whole fun mem => none (mem_append_left _ mem)
  · obtain ⟨before, between, whole, none⟩ := backed.honoured honoured
    refine ⟨before, between ++ [x], by rw [whole, append_assoc, cons_append], fun mem => ?_⟩
    rcases mem_append.mp mem with inside | last
    · exact none inside
    · exact tick (mem_singleton.mp last).symm

/-- A tick that is not deferred. -/
theorem Backed.direct (backed : Backed notes 0 r) (switched : Bool) : Backed (notes ++ [.direct switched]) 0 .none := by
  have quiet : Backed (notes ++ [.direct switched]) 0 r :=
    backed.neutral (fun same => by cases same) (fun y same => by cases same) id
  refine ⟨fun before between split none => ?_, ?_, fun _ _ _ _ => by decide, fun absurd_ => by cases absurd_⟩
  · exact absurd (quiet.served before between split none).2 (Nat.lt_irrefl 0)
  · have bound := quiet.bounded
    rw [if_neg (by decide)]
    omega

/-- A deferred tick. -/
theorem Backed.deferred (backed : Backed notes depth r) (deep : 0 < depth) :
    Backed (notes ++ [.deferred]) depth .waiting := by
  refine ⟨fun _ _ _ _ => ⟨by decide, deep⟩, ?_, fun before between split none => ?_, fun absurd_ => by cases absurd_⟩
  · have bound := backed.bounded
    rw [if_pos rfl, count_snoc_self, count_snoc_of_ne _ (by decide)]
    omega
  · rcases snoc_split split with ⟨-, same, -⟩ | ⟨shorter, rfl, -⟩
    · cases same
    · exact absurd (mem_append_right _ (mem_singleton_self _)) none

/-- The end of a section with nothing to honour. -/
theorem Backed.closed_quiet (backed : Backed notes 1 .none) : Backed (notes ++ [.closed false]) 0 .none := by
  refine ⟨fun before between split quiet => ?_, ?_, fun _ _ _ _ => by decide, fun absurd_ => by cases absurd_⟩
  · rcases snoc_split split with ⟨-, same, -⟩ | ⟨shorter, rfl, -⟩
    · cases same
    · exact absurd (mem_append_right _ (mem_singleton_self _)) (quiet false)
  · rw [count_snoc_of_ne _ (by decide), count_snoc_of_ne _ (by decide)]
    exact backed.bounded

/-- The end of a section that yields. -/
theorem Backed.closed_yields (backed : Backed notes 1 .waiting) : Backed (notes ++ [.closed true]) 0 .honoured := by
  refine ⟨fun before between split quiet => ?_, ?_, fun _ _ _ _ => by decide, fun _ => ⟨notes, [], rfl, by simp⟩⟩
  · rcases snoc_split split with ⟨-, same, -⟩ | ⟨shorter, rfl, -⟩
    · cases same
    · exact absurd (mem_append_right _ (mem_singleton_self _)) (quiet true)
  · have bound := backed.bounded
    rw [if_pos rfl] at bound
    rw [if_neg (by decide), count_snoc_self, count_snoc_of_ne _ (by decide)]
    omega

end Snoc

/-! ## A run -/

/-- Where a run stands that has kept to the condition. -/
structure Stands (events : List Event) (depth : Nat) (r : Request) : Prop where
  flags : (run events).1 = flags depth r
  backed : Backed (run events).2 depth r
  once : HonouredOnce (run events).2

theorem stands_nil : Stands [] 0 .none := by
  refine ⟨rfl, ⟨?_, ?_, ?_, ?_⟩, ⟨?_, ?_, ?_⟩⟩
  · intro before between split
    cases before <;> cases split
  · exact Nat.le_refl 0
  · intro before between split
    cases before <;> cases split
  · intro honoured
    cases honoured
  · intro before between after yields split
    cases before <;> cases split
  · intro k
    rw [show (run []).2 = [] from rfl, take_nil]
    exact Nat.le_refl 0
  · intro before between after split
    cases before <;> cases split

section Step

variable {events : List Event} {depth : Nat} {r : Request}

variable {e : Event} {depth' : Nat}

/-- The next event of a run that stands somewhere. -/
theorem Stands.next (stands : Stands events depth r) {r' : Request} {x : Note}
    (stepped : step (Preempt.flags depth r) e = (Preempt.flags depth' r', x))
    (backed : Backed ((run events).2 ++ [x]) depth' r') (once : HonouredOnce ((run events).2 ++ [x])) :
    Stands (events ++ [e]) depth' r' := by
  have snoc := run_snoc events e
  rw [stands.flags, stepped] at snoc
  refine ⟨?_, ?_, ?_⟩
  · rw [snoc]
  · rw [snoc]
    exact backed
  · rw [snoc]
    exact once

/-- A neutral event. -/
theorem Stands.neutral (stands : Stands events depth r) {x : Note}
    (stepped : step (Preempt.flags depth r) e = (Preempt.flags depth' r, x)) (tick : x ≠ .deferred)
    (open_ : ∀ y, x ≠ .closed y) (deep : 0 < depth → 0 < depth') : Stands (events ++ [e]) depth' r :=
  stands.next stepped (stands.backed.neutral tick open_ deep) (stands.once.snoc_open open_)

/-- **One event**: it keeps to the condition, or it ends a section with nothing new to honour and yields all the
same. -/
theorem Stands.step (stands : Stands events depth r) (nested : nest depth e = some depth') :
    (∃ r', follow (depth, r) e = some (depth', r') ∧ Stands (events ++ [e]) depth' r') ∨
      follow (depth, r) e = none ∧ ¬ HonouredOnce (run (events ++ [e])).2 := by
  cases e with
  | tick runnable =>
    cases nested
    left
    rcases Nat.eq_zero_or_pos depth with rfl | deep
    · exact ⟨.none, rfl, stands.next (step_tick_zero r runnable) (stands.backed.direct runnable)
        (stands.once.snoc_open fun y same => by cases same)⟩
    · exact ⟨.waiting, by rw [follow, if_neg (by omega)], stands.next (step_tick_pos deep r runnable)
        (stands.backed.deferred deep) (stands.once.snoc_open fun y same => by cases same)⟩
  | disable =>
    rw [nest] at nested
    split at nested
    · next fits =>
      cases nested
      exact .inl ⟨r, rfl, stands.neutral (step_disable fits r) (by decide) (fun y same => by cases same)
        fun _ => Nat.succ_pos _⟩
    · cases nested
  | enable =>
    rw [nest] at nested
    split at nested
    · next deep =>
      cases nested
      by_cases last : depth = 1
      · subst last
        have stepped := step_enable_one r
        cases r with
        | none =>
          refine .inl ⟨.none, rfl, stands.next stepped stands.backed.closed_quiet (stands.once.snoc ?_ ?_ ?_)⟩
          · intro y before between _ split quiet
            exact absurd rfl (stands.backed.served before between split quiet).1
          · intro same
            cases same
          · intro before between same
            cases same
        | waiting =>
          refine .inl ⟨.honoured, rfl, stands.next stepped stands.backed.closed_yields (stands.once.snoc ?_ ?_ ?_)⟩
          · intro y before between same _ _
            cases same
            rfl
          · intro _
            have bound := stands.backed.bounded
            rw [if_pos rfl] at bound
            exact bound
          · intro before between _ split
            by_contra none
            exact stands.backed.fresh before between split none rfl
        | honoured =>
          refine .inr ⟨rfl, fun once => ?_⟩
          have snoc := run_snoc events .enable
          rw [stands.flags, stepped] at snoc
          rw [snoc] at once
          obtain ⟨before, between, split, none⟩ := stands.backed.honoured rfl
          refine none (once.fresh before between [] ?_)
          rw [split, append_assoc, cons_append]
          rfl
      · exact .inl ⟨r, by simp only [follow, if_neg last], stands.neutral (step_enable_nested (by omega) r) (by decide)
          (fun y same => by cases same) fun _ => by omega⟩
    · cases nested
  | yield =>
    cases nested
    exact .inl ⟨r, rfl, stands.neutral rfl (by decide) (fun y same => by cases same) id⟩

end Step

/-- **A run** keeps to the condition and to the claims, or to neither. -/
theorem stands_or_breaks (events : List Event) (nested : events.foldlM nest 0 = some depth) :
    (∃ r, events.foldlM follow (0, .none) = some (depth, r) ∧ Stands events depth r) ∨
      events.foldlM follow (0, .none) = none ∧ ¬ HonouredOnce (run events).2 := by
  induction events using reverseRecOn generalizing depth with
  | nil =>
    cases nested
    exact .inl ⟨.none, rfl, stands_nil⟩
  | append_singleton events e ih =>
    rw [foldlM_append] at nested
    cases before : events.foldlM nest 0 with
    | none =>
      rw [before] at nested
      cases nested
    | some d =>
      rw [before] at nested
      have here : nest d e = some depth := by
        cases last : nest d e with
        | none =>
          simp [last] at nested
        | some k =>
          simpa [last] using nested
      rcases ih before with ⟨r, followed, stands⟩ | ⟨broken, not⟩
      · rw [foldlM_append, followed]
        rcases stands.step here with ⟨r', next, stands'⟩ | ⟨stop, not⟩
        · exact .inl ⟨r', by simp [next], stands'⟩
        · exact .inr ⟨by simp [stop], not⟩
      · refine .inr ⟨by rw [foldlM_append, broken]; rfl, fun once => not ?_⟩
        rw [run_snoc] at once
        exact once.of_append

/-- **Deferred preemption is honoured once exactly when every section that ends after an honoured request has a request
of its own.** -/
theorem honoured_once_iff (events : List Event) (nested : Nested events) :
    HonouredOnce (run events).2 ↔ Renewed events := by
  obtain ⟨depth, known⟩ := Option.isSome_iff_exists.mp nested
  rcases stands_or_breaks events known with ⟨r, followed, stands⟩ | ⟨broken, not⟩
  · rw [Renewed, followed]
    exact ⟨fun _ => rfl, fun _ => stands.once⟩
  · rw [Renewed, broken]
    exact ⟨fun once => absurd once not, fun h => by cases h⟩

/-- A section with a tick in it, a section without one after a tick that was handled at once. -/
theorem honoured_once_ticked :
    HonouredOnce (run [.disable, .disable, .tick true, .enable, .enable, .tick true, .disable, .enable]).2 :=
  (honoured_once_iff _ (by decide)).mpr (by decide)

/-- **A request is honoured twice**: one deferred tick, and the next section yields as well, without a tick. -/
theorem deferred_tick_yields_twice : Nested [.disable, .tick true, .enable, .disable, .enable] ∧
      (run [.disable, .tick true, .enable, .disable, .enable]).2 =
        [.disabled, .deferred, .closed true, .disabled, .closed true] ∧
      ¬ HonouredOnce (run [.disable, .tick true, .enable, .disable, .enable]).2 := by
  refine ⟨by decide, rfl, fun once => ?_⟩
  have renewed := once.fresh [.disabled, .deferred] [.disabled] [] rfl
  exact absurd renewed (by decide)

end CanBoot.Preempt
