import Mathlib.Data.Finset.Lattice.Fold
import Mathlib.Data.Fintype.Basic

/-!
# A ledger of slots

What a table of shared slots is for: a slot that is used is in somebody's hands, the program's or one queue's. A queue
belongs to a slot that is used, and slots pass from queues to the program. `Accounted` says that no slot is lost, and
`Ranked` that queues do not hold each other in a circle, so that without a slot in the program's hands none is used.
-/

namespace CanBoot.Spec

open Function List

/-- Which slots are used, which of them the program holds, and which wait in whose queue. -/
@[ext]
structure Ledger (ι : Type*) where
  used : ι → Bool
  held : ι → Bool
  queue : ι → List ι

variable {ι : Type*} [DecidableEq ι]

/-- A slot is in exactly one queue, once. -/
def Once (queue : ι → List ι) (i : ι) : Prop := ∃ l, (queue l).count i = 1 ∧ ∀ k, i ∈ queue k → k = l

variable {q : ι → List ι} {i : ι}

theorem Once.congr {r : ι → List ι} (same : ∀ l, (q l).count i = (r l).count i) : Once q i ↔ Once r i := by
  have mem : ∀ k, i ∈ q k ↔ i ∈ r k := fun k => by
    rw [← count_pos_iff, ← count_pos_iff, same]
  simp only [Once, same, mem]

theorem Once.mem (once : Once q i) : ∃ l, i ∈ q l := by
  obtain ⟨l, one, -⟩ := once
  exact ⟨l, count_pos_iff.mp (by omega)⟩

variable {l : ι}

/-- In two queues is not in one. -/
theorem not_once_of_two {k : ι} (first : i ∈ q l) (second : i ∈ q k) (ne : l ≠ k) : ¬ Once q i := by
  rintro ⟨m, -, only⟩
  exact ne ((only l first).trans (only k second).symm)

/-- A slot that joins a queue is in one queue exactly if it was in none. -/
theorem once_push_iff : Once (update q l (q l ++ [i])) i ↔ ∀ k, i ∉ q k := by
  have joined : i ∈ update q l (q l ++ [i]) l := by
    rw [update_self]
    exact mem_append_right _ (mem_singleton_self i)
  constructor
  · rintro ⟨m, one, only⟩ k mem
    obtain rfl := only l joined
    rw [update_self, count_append, count_singleton_self] at one
    by_cases here : k = l
    · subst here
      have some_ := count_pos_iff.mpr mem
      omega
    · exact here (only k (by rwa [update_of_ne here]))
  · intro absent
    refine ⟨l, ?_, fun k mem => ?_⟩
    · rw [update_self, count_append, count_singleton_self, count_eq_zero.mpr (absent l)]
    · by_contra away
      rw [update_of_ne away] at mem
      exact absent k mem

namespace Ledger

/-- **No slot is lost**: every slot that is used is held by the program or waits once, in one queue. -/
def Accounted (L : Ledger ι) : Prop := ∀ i, L.used i = true → L.held i = true ∨ Once L.queue i

/-- The slots of a queue that nobody but the queue has. -/
def Awaits (L : Ledger ι) (queue : List ι) (i : ι) : Prop := i ∈ queue ∧ L.used i = true ∧ L.held i = false

/-- Two ledgers agree about a slot. -/
def SameAt (L M : Ledger ι) (i : ι) : Prop :=
  M.used i = L.used i ∧ M.held i = L.held i ∧ ∀ l, (M.queue l).count i = (L.queue l).count i

theorem Accounted.sameAt {L M : Ledger ι} (accounted : L.Accounted) (same : SameAt L M i)
    (used : M.used i = true) : M.held i = true ∨ Once M.queue i := by
  obtain ⟨usedEq, heldEq, counts⟩ := same
  rw [heldEq, Once.congr counts]
  exact accounted i (usedEq ▸ used)

section Operations

variable (L : Ledger ι)

/-- The program takes a slot that is not used. -/
def take (i : ι) : Ledger ι := { L with used := update L.used i true, held := update L.held i true }

/-- A slot that is not used comes into use, and the queues become `queue`. -/
def enrol (i : ι) (queue : ι → List ι) : Ledger ι := { L with used := update L.used i true, queue := queue }

/-- The program gets a slot from the front of a queue. -/
def hand (l i : ι) : Ledger ι :=
  { L with held := update L.held i true, queue := update L.queue l (L.queue l).tail }

/-- The program gives up a slot that is not used. -/
def forget (i : ι) : Ledger ι := { L with held := update L.held i false }

/-- A queue closes. -/
def drop (l : ι) : Ledger ι := { L with queue := update L.queue l [] }

/-- A queue opens. -/
def reopen (l : ι) (queue : List ι) : Ledger ι := { L with queue := update L.queue l queue }

/-- A slot is freed, and its queue closes. -/
def free (i : ι) : Ledger ι :=
  ⟨update L.used i false, update L.held i false, update L.queue i []⟩

end Operations

variable {L : Ledger ι}

theorem Accounted.take (accounted : L.Accounted) (i : ι) : (L.take i).Accounted := by
  intro j used
  by_cases same : j = i
  · subst same
    exact .inl (update_self ..)
  · exact accounted.sameAt ⟨update_of_ne same .., update_of_ne same .., fun _ => rfl⟩ used

theorem Accounted.forget (accounted : L.Accounted) (unused : L.used i = false) : (L.forget i).Accounted := by
  intro j used
  have apart : j ≠ i := by
    rintro rfl
    exact Bool.noConfusion (unused.symm.trans used)
  exact accounted.sameAt ⟨rfl, update_of_ne apart .., fun _ => rfl⟩ used

variable {queue : ι → List ι}

theorem accounted_enrol_iff (accounted : L.Accounted)
    (others : ∀ j, j ≠ i → ∀ l, (queue l).count j = (L.queue l).count j) :
    (L.enrol i queue).Accounted ↔ L.held i = true ∨ Once queue i := by
  constructor
  · intro after
    exact after i (update_self ..)
  · intro here j used
    by_cases same : j = i
    · subst same
      exact here
    · exact accounted.sameAt ⟨update_of_ne same .., rfl, others j same⟩ used

/-- A queue that is replaced by one with as many of a slot. -/
theorem count_update {j : ι} {new : List ι} (same : new.count j = (queue l).count j) (k : ι) :
    (update queue l new k).count j = (queue k).count j :=
  (forall_update_iff queue fun k q => q.count j = (queue k).count j).mpr ⟨same, fun _ _ => rfl⟩ k

theorem Accounted.hand (accounted : L.Accounted) (front : L.queue l = [] ∨ ∃ rest, L.queue l = i :: rest) :
    (L.hand l i).Accounted := by
  intro j used
  by_cases same : j = i
  · subst same
    exact .inl (update_self ..)
  refine accounted.sameAt ⟨rfl, update_of_ne same .., count_update ?_⟩ used
  rcases front with empty | ⟨rest, front⟩
  · rw [empty, tail_nil]
  · rw [front, tail_cons, count_cons_of_ne fun eq => same eq.symm]

theorem count_update_nil {j : ι} (absent : j ∉ queue l) (k : ι) : (update queue l [] k).count j = (queue k).count j :=
  count_update (by rw [count_eq_zero.mpr absent, count_nil]) k

/-- A closed queue loses what only it had. -/
theorem accounted_drop_iff (accounted : L.Accounted) : (L.drop l).Accounted ↔ ∀ j, ¬ L.Awaits (L.queue l) j := by
  constructor
  · rintro after j ⟨mem, used, unheld⟩
    rcases accounted j used with held | ⟨m, one, only⟩
    · rw [unheld] at held
      cases held
    rcases after j used with held | once
    · exact Bool.noConfusion (held.symm.trans unheld)
    obtain ⟨k, there⟩ := once.mem
    have there : j ∈ update L.queue l [] k := there
    by_cases here : k = l
    · subst here
      rw [update_self] at there
      cases there
    · rw [update_of_ne here] at there
      exact here ((only k there).trans (only l mem).symm)
  · intro none j used
    cases held : L.held j with
    | true => exact .inl held
    | false =>
      refine accounted.sameAt (i := j) ⟨rfl, rfl, ?_⟩ used
      exact count_update_nil fun mem => none j ⟨mem, used, held⟩

/-- An opened queue makes a second place of what it has. -/
theorem accounted_reopen_iff (accounted : L.Accounted) {queue : List ι} (closed : L.queue l = []) :
    (L.reopen l queue).Accounted ↔ ∀ j, ¬ L.Awaits queue j := by
  constructor
  · rintro after j ⟨mem, used, unheld⟩
    rcases accounted j used with held | once
    · exact Bool.noConfusion (held.symm.trans unheld)
    obtain ⟨k, there⟩ := once.mem
    have away : k ≠ l := by
      rintro rfl
      rw [closed] at there
      cases there
    rcases after j used with held | once
    · exact Bool.noConfusion (held.symm.trans unheld)
    refine not_once_of_two (l := k) (k := l) ?_ ?_ away once
    · show j ∈ update L.queue l queue k
      rwa [update_of_ne away]
    · show j ∈ update L.queue l queue l
      rwa [update_self]
  · intro none j used
    cases held : L.held j with
    | true => exact .inl held
    | false =>
      refine accounted.sameAt (i := j) ⟨rfl, rfl, count_update ?_⟩ used
      rw [closed, count_eq_zero.mpr fun mem => none j ⟨mem, used, held⟩, count_nil]

/-- A freed slot leaves the ledger sound if its queue had nothing but itself. -/
theorem Accounted.free (accounted : L.Accounted) (alone : ∀ j ∈ L.queue i, L.used j = true → j = i) :
    (L.free i).Accounted := by
  intro j used
  have apart : j ≠ i := by
    rintro rfl
    exact Bool.noConfusion (used.symm.trans (update_self ..))
  have before : L.used j = true := (update_of_ne apart ..).symm.trans used
  exact accounted.sameAt ⟨update_of_ne apart .., update_of_ne apart .., count_update_nil fun mem => apart (alone j mem before)⟩ used

/-! ## Queues in a circle -/

/-- **Queues do not hold each other in a circle.** -/
def Ranked (L : Ledger ι) : Prop := ∃ rank : ι → Nat, ∀ l i, L.Awaits (L.queue l) i → rank l < rank i

/-- **With nothing held nothing is used**, if every queue with slots belongs to a slot that is used. -/
theorem unused_of_unheld (accounted : L.Accounted) (ranked : L.Ranked) (owned : ∀ l, L.queue l ≠ [] → L.used l = true)
    (unheld : ∀ i, L.held i = false) (i : ι) : L.used i = false := by
  obtain ⟨rank, lower⟩ := ranked
  suffices none : ∀ n i, rank i = n → ¬ L.used i = true from Bool.eq_false_iff.mpr (none _ i rfl)
  intro n
  induction n using Nat.strong_induction_on with
  | _ n ih =>
    rintro i rfl used
    rcases accounted i used with held | once
    · exact Bool.noConfusion (held.symm.trans (unheld i))
    obtain ⟨l, mem⟩ := once.mem
    exact ih _ (lower l i ⟨mem, used, unheld i⟩) l rfl (owned l (ne_nil_of_mem mem))

omit [DecidableEq ι] in
/-- A ledger whose queues await no more than before is ranked as before. -/
theorem Ranked.mono {M : Ledger ι} (ranked : L.Ranked)
    (fewer : ∀ l i, M.Awaits (M.queue l) i → L.Awaits (L.queue l) i) : M.Ranked := by
  obtain ⟨rank, lower⟩ := ranked
  exact ⟨rank, fun l i awaits => lower l i (fewer l i awaits)⟩

/-- A slot that comes into use with an empty queue is ranked above all. -/
theorem Ranked.enrol [Fintype ι] (ranked : L.Ranked) (empty : queue i = [])
    (others : ∀ j, j ≠ i → ∀ l, (queue l).count j = (L.queue l).count j) : (L.enrol i queue).Ranked := by
  obtain ⟨rank, lower⟩ := ranked
  refine ⟨update rank i (Finset.univ.sup rank + 1), ?_⟩
  rintro l j ⟨mem, used, unheld⟩
  have apart : l ≠ i := by
    rintro rfl
    rw [show (L.enrol l queue).queue l = [] from empty] at mem
    cases mem
  rw [update_of_ne apart]
  by_cases same : j = i
  · subst same
    rw [update_self]
    exact Nat.lt_succ_of_le (Finset.le_sup (Finset.mem_univ l))
  · rw [update_of_ne same]
    refine lower l j ⟨?_, ?_, unheld⟩
    · rw [← count_pos_iff, ← others j same l]
      exact count_pos_iff.mpr mem
    · rwa [show (L.enrol i queue).used j = L.used j from update_of_ne same ..] at used

/-- A slot in a queue that was replaced by a part of itself. -/
theorem mem_of_mem_update {l j k : ι} {new : List ι} (part : new ⊆ queue l) (mem : j ∈ update queue l new k) :
    j ∈ queue k :=
  (forall_update_iff queue fun k q => j ∈ q → j ∈ queue k).mpr ⟨fun mem => part mem, fun _ _ => id⟩ k mem

theorem Ranked.take (ranked : L.Ranked) (i : ι) : (L.take i).Ranked := by
  refine ranked.mono ?_
  rintro l j ⟨mem, used, unheld⟩
  have apart : j ≠ i := by
    rintro rfl
    exact Bool.noConfusion (unheld.symm.trans (update_self ..))
  exact ⟨mem, (update_of_ne apart ..).symm.trans used, (update_of_ne apart ..).symm.trans unheld⟩

theorem Ranked.forget (ranked : L.Ranked) (unused : L.used i = false) : (L.forget i).Ranked := by
  refine ranked.mono ?_
  rintro l j ⟨mem, used, unheld⟩
  have apart : j ≠ i := by
    rintro rfl
    exact Bool.noConfusion (unused.symm.trans used)
  exact ⟨mem, used, (update_of_ne apart ..).symm.trans unheld⟩

theorem Ranked.hand (ranked : L.Ranked) (l i : ι) : (L.hand l i).Ranked := by
  refine ranked.mono ?_
  rintro k j ⟨mem, used, unheld⟩
  have apart : j ≠ i := by
    rintro rfl
    exact Bool.noConfusion (unheld.symm.trans (update_self ..))
  exact ⟨mem_of_mem_update (tail_subset _) mem, used, (update_of_ne apart ..).symm.trans unheld⟩

/-- A queue that closes, or opens with nothing that it alone has, adds nothing. -/
theorem Ranked.reopen (ranked : L.Ranked) {queue : List ι} (none : ∀ j, ¬ L.Awaits queue j) :
    (L.reopen l queue).Ranked := by
  refine ranked.mono ?_
  rintro k j ⟨mem, used, unheld⟩
  have old := (forall_update_iff L.queue fun k q => j ∈ q → j ∈ L.queue k).mpr
    ⟨fun mem => absurd ⟨mem, used, unheld⟩ (none j), fun _ _ => id⟩ k mem
  exact ⟨old, used, unheld⟩

theorem Ranked.free (ranked : L.Ranked) (i : ι) : (L.free i).Ranked := by
  refine ranked.mono ?_
  rintro k j ⟨mem, used, unheld⟩
  have apart : j ≠ i := by
    rintro rfl
    exact Bool.noConfusion (used.symm.trans (update_self ..))
  exact ⟨mem_of_mem_update (nil_subset _) mem, (update_of_ne apart ..).symm.trans used,
    (update_of_ne apart ..).symm.trans unheld⟩

/-! ## Moves -/

/-- **What a step can do to a ledger**, and when no slot is lost by it. -/
inductive Move (L : Ledger ι) : Ledger ι → Prop → Prop
  | same : Move L L True
  | take (i : ι) : Move L (L.take i) True
  | forget {i : ι} (unused : L.used i = false) : Move L (L.forget i) True
  | hand {l i : ι} (front : L.queue l = [] ∨ ∃ rest, L.queue l = i :: rest) : Move L (L.hand l i) True
  | free {i : ι} (alone : ∀ j ∈ L.queue i, L.used j = true → j = i) : Move L (L.free i) True
  | enrol {i : ι} {queue : ι → List ι} (empty : queue i = [])
      (others : ∀ j, j ≠ i → ∀ l, (queue l).count j = (L.queue l).count j) :
      Move L (L.enrol i queue) (L.held i = true ∨ Once queue i)
  | drop (l : ι) : Move L (L.drop l) (∀ j, ¬ L.Awaits (L.queue l) j)
  | reopen {l : ι} {queue : List ι} (closed : L.queue l = []) : Move L (L.reopen l queue) (∀ j, ¬ L.Awaits queue j)

variable {M : Ledger ι} {safe : Prop}

theorem Move.accounted_iff (move : L.Move M safe) (accounted : L.Accounted) : M.Accounted ↔ safe := by
  cases move with
  | same => exact iff_true_intro accounted
  | take i => exact iff_true_intro (accounted.take i)
  | forget unused => exact iff_true_intro (accounted.forget unused)
  | hand front => exact iff_true_intro (accounted.hand front)
  | free alone => exact iff_true_intro (accounted.free alone)
  | enrol empty others => exact accounted_enrol_iff accounted others
  | drop l => exact accounted_drop_iff accounted
  | reopen closed => exact accounted_reopen_iff accounted closed

theorem Move.ranked [Fintype ι] (move : L.Move M safe) (holds : safe) (ranked : L.Ranked) : M.Ranked := by
  cases move with
  | same => exact ranked
  | take i => exact ranked.take i
  | forget unused => exact ranked.forget unused
  | hand front => exact ranked.hand _ _
  | free alone => exact ranked.free _
  | enrol empty others => exact ranked.enrol empty others
  | drop l => exact ranked.reopen fun _ awaits => absurd awaits.1 not_mem_nil
  | reopen closed => exact ranked.reopen holds

end Ledger

end CanBoot.Spec
