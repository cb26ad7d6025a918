import Mathlib.Data.List.Nodup

/-!
# Queues threaded through one link field

A family of queues, each a head and a tail pointer, whose elements are chained through a link field of
their own. The field is one for all queues, so an element can sit on one queue at a time: pushing it
while it is queued overwrites a link that some queue still needs.

`Reps` says which lists a family of queues stands for. The chain from a head is acyclic because it is a
list without repetition that ends in a null link, and the tail pointer is its last element.
-/

namespace CanBoot.Lib

open Function List

variable {T K : Type}

/-- The link field of every element, and the two pointers of every queue. -/
structure Links (T K : Type) where
  next : T → Option T
  head : K → Option T
  tail : K → Option T

/-- The chain from a pointer through the link field. -/
def Chain (next : T → Option T) : Option T → List T → Prop
  | h, [] => h = none
  | h, t :: ts => h = some t ∧ Chain next (next t) ts

/-- The lists a family of queues stands for. -/
structure Reps (l : Links T K) (q : K → List T) : Prop where
  chain : ∀ k, Chain l.next (l.head k) (q k)
  tail : ∀ k, l.tail k = (q k).getLast?
  nodup : ∀ k, (q k).Nodup
  apart : ∀ {k k' t}, t ∈ q k → t ∈ q k' → k = k'

namespace Links

variable [DecidableEq T] [DecidableEq K]

/-- Append an element to a queue. -/
def push (l : Links T K) (k : K) (t : T) : Links T K :=
  let next := update l.next t none
  match l.tail k with
  | some u =>
    { next := update next u (some t)
      head := l.head
      tail := update l.tail k (some t) }
  | none =>
    { next := next
      head := update l.head k (some t)
      tail := update l.tail k (some t) }

/-- Take the first element off a queue. -/
def pop (l : Links T K) (k : K) : Option T × Links T K :=
  match l.head k with
  | none => (none, l)
  | some t =>
    (some t,
      { next := update l.next t none
        head := update l.head k (l.next t)
        tail := if l.next t = none then update l.tail k none else l.tail })

/-- Clear a queue's pointers and an element's link, as a `memset` of the structure that holds them. -/
def clear (l : Links T K) (k : K) (t : T) : Links T K where
  next := update l.next t none
  head := update l.head k none
  tail := update l.tail k none

end Links

/-! ## Chains -/

theorem Chain.congr {next next' : T → Option T} :
    ∀ {h : Option T} {ts : List T}, (∀ t ∈ ts, next t = next' t) → Chain next h ts → Chain next' h ts
  | _, [], _, chain => chain
  | _, t :: _, same, chain => by
    refine ⟨chain.1, ?_⟩
    rw [← same t (mem_cons_self)]
    exact Chain.congr (fun u hu => same u (mem_cons_of_mem _ hu)) chain.2

/-- A chain determines its list. -/
theorem Chain.unique {next : T → Option T} :
    ∀ {h : Option T} {ts us : List T}, Chain next h ts → Chain next h us → ts = us
  | _, [], [], _, _ => rfl
  | _, [], _ :: _, ended, ⟨more, _⟩ => nomatch ended.symm.trans more
  | _, _ :: _, [], ⟨more, _⟩, ended => nomatch ended.symm.trans more
  | _, t :: ts, u :: us, first, second => by
    obtain ⟨rfl, first⟩ := first
    obtain ⟨same, second⟩ := second
    cases same
    rw [first.unique second]

/-- A chain with its last link set to a new element. -/
theorem Chain.snoc [DecidableEq T] {next : T → Option T} {u t : T} :
    ∀ {h : Option T} {ts : List T}, (ts ++ [u]).Nodup → t ∉ ts ++ [u] → Chain next h (ts ++ [u]) →
      Chain (update (update next t none) u (some t)) h ((ts ++ [u]) ++ [t])
  | h, [], _, fresh, chain => by
    have ne : t ≠ u := fun same => fresh (by simp [same])
    refine ⟨chain.1, ?_⟩
    rw [update_self]
    refine ⟨rfl, ?_⟩
    rw [update_of_ne ne, update_self]
    rfl
  | h, s :: ts, nodup, fresh, chain => by
    have neT : s ≠ t := fun same => fresh (by simp [same])
    have neU : s ≠ u := by
      intro same
      subst same
      simp at nodup
    refine ⟨chain.1, ?_⟩
    rw [update_of_ne neU, update_of_ne neT]
    exact Chain.snoc (nodup_cons.mp nodup).2 (fun hit => fresh (mem_cons_of_mem _ hit)) chain.2

/-! ## The operations -/

section Ops

variable [DecidableEq T] [DecidableEq K] {l : Links T K} {q : K → List T} (reps : Reps l q)

include reps

/-- Pushing an element that no queue holds appends it. -/
theorem Reps.push (k : K) {t : T} (fresh : ∀ k, t ∉ q k) : Reps (l.push k t) (update q k (q k ++ [t])) := by
  have others : ∀ {k'}, k' ≠ k → ∀ u, u ∈ q k → ∀ s ∈ q k',
      l.next s = update (update l.next t none) u (some t) s := by
    intro k' ne u hu s hs
    have neU : s ≠ u := by
      rintro rfl
      exact ne (reps.apart hs hu)
    have neT : s ≠ t := by
      rintro rfl
      exact fresh _ hs
    rw [update_of_ne neU, update_of_ne neT]
  have outside : ∀ k', ∀ s ∈ q k', l.next s = update l.next t none s := by
    intro k' s hs
    have ne : s ≠ t := by
      rintro rfl
      exact fresh _ hs
    rw [update_of_ne ne]
  refine ⟨fun k' => ?_, fun k' => ?_, fun k' => ?_, fun {k1 k2 s} h1 h2 => ?_⟩
  · rcases eq_nil_or_concat' (q k) with empty | ⟨ts, u, full⟩
    · have last : l.tail k = none := by rw [reps.tail k, empty]; rfl
      simp only [Links.push, last]
      by_cases here : k' = k
      · subst here
        rw [update_self, update_self, empty]
        refine ⟨rfl, ?_⟩
        rw [update_self]
        rfl
      · rw [update_of_ne here, update_of_ne here]
        exact (reps.chain k').congr (outside k')
    · have last : l.tail k = some u := by rw [reps.tail k, full]; simp
      simp only [Links.push, last]
      by_cases here : k' = k
      · subst here
        have nodup := reps.nodup k'
        have chain := reps.chain k'
        have new := fresh k'
        rw [full] at nodup chain new
        rw [update_self, full]
        exact chain.snoc nodup new
      · rw [update_of_ne here]
        exact (reps.chain k').congr (others here u (by rw [full]; simp))
  · by_cases here : k' = k
    · subst here
      rw [update_self, Links.push]
      split <;> simp
    · rw [update_of_ne here, Links.push]
      split <;> simp only [update_of_ne here] <;> exact reps.tail k'
  · by_cases here : k' = k
    · subst here
      rw [update_self, nodup_append]
      refine ⟨reps.nodup k', by simp, ?_⟩
      intro s hs u hu same
      rw [mem_singleton] at hu
      subst hu
      subst same
      exact fresh _ hs
    · rw [update_of_ne here]
      exact reps.nodup k'
  · have old : ∀ {k'}, s ∈ update q k (q k ++ [t]) k' → s ∈ q k' ∨ (k' = k ∧ s = t) := by
      intro k' hs
      by_cases here : k' = k
      · subst here
        rw [update_self, mem_append, mem_singleton] at hs
        exact hs.imp id fun same => ⟨rfl, same⟩
      · rw [update_of_ne here] at hs
        exact .inl hs
    rcases old h1 with in1 | ⟨at1, same1⟩ <;> rcases old h2 with in2 | ⟨at2, same2⟩
    · exact reps.apart in1 in2
    · exact absurd (same2 ▸ in1) (fresh _)
    · exact absurd (same1 ▸ in2) (fresh _)
    · rw [at1, at2]

theorem Reps.pop_nil {k : K} (empty : q k = []) : l.pop k = (none, l) := by
  have chain := reps.chain k
  rw [empty] at chain
  have none : l.head k = none := chain
  rw [Links.pop, none]

/-- Popping takes the first element, and leaves the rest in order. -/
theorem Reps.pop_cons {k : K} {t : T} {ts : List T} (full : q k = t :: ts) :
    (l.pop k).1 = some t ∧ Reps (l.pop k).2 (update q k ts) := by
  have chain := reps.chain k
  rw [full] at chain
  obtain ⟨first, rest⟩ := chain
  have nodup := reps.nodup k
  rw [full, nodup_cons] at nodup
  have within : ∀ {k' s}, s ∈ update q k ts k' → s ∈ q k' := by
    intro k' s hs
    by_cases here : k' = k
    · subst here
      rw [update_self] at hs
      rw [full]
      exact mem_cons_of_mem _ hs
    · rwa [update_of_ne here] at hs
  have gone : ∀ {k' s}, s ∈ update q k ts k' → s ≠ t := by
    intro k' s hs same
    subst same
    have here : k' = k := reps.apart (within hs) (by rw [full]; exact mem_cons_self)
    subst here
    rw [update_self] at hs
    exact nodup.1 hs
  rw [Links.pop, first]
  refine ⟨rfl, fun k' => ?_, fun k' => ?_, fun k' => ?_, fun h1 h2 => reps.apart (within h1) (within h2)⟩
  · simp only
    have kept : ∀ s ∈ update q k ts k', l.next s = update l.next t none s :=
      fun s hs => (update_of_ne (gone hs) _ _).symm
    by_cases here : k' = k
    · subst here
      rw [update_self] at kept ⊢
      rw [update_self]
      exact rest.congr kept
    · rw [update_of_ne here] at kept ⊢
      rw [update_of_ne here]
      exact (reps.chain k').congr kept
  · simp only
    by_cases here : k' = k
    · subst here
      rw [update_self]
      cases ts with
      | nil =>
        have ended : l.next t = none := rest
        rw [if_pos ended, update_self]
        rfl
      | cons u us =>
        have more : l.next t ≠ none := by rw [rest.1]; simp
        rw [if_neg more, reps.tail k', full]
        rfl
    · rw [update_of_ne here]
      split
      · rw [update_of_ne here, reps.tail k']
      · exact reps.tail k'
  · by_cases here : k' = k
    · subst here
      rw [update_self]
      exact nodup.2
    · rw [update_of_ne here]
      exact reps.nodup k'

/-- Clearing an empty queue and the link of an element that is not queued changes nothing. -/
theorem Reps.clear {k : K} {t : T} (empty : q k = []) (fresh : ∀ k, t ∉ q k) : Reps (l.clear k t) q := by
  refine ⟨fun k' => ?_, fun k' => ?_, reps.nodup, reps.apart⟩
  · have kept : Chain (update l.next t none) (l.head k') (q k') := by
      refine (reps.chain k').congr fun s hs => ?_
      have ne : s ≠ t := by
        rintro rfl
        exact fresh _ hs
      rw [update_of_ne ne]
    by_cases here : k' = k
    · subst here
      simp only [Links.clear, update_self, empty]
      rfl
    · simp only [Links.clear, update_of_ne here]
      exact kept
  · by_cases here : k' = k
    · subst here
      simp only [Links.clear, update_self, empty]
      rfl
    · simp only [Links.clear, update_of_ne here]
      exact reps.tail k'

end Ops

end CanBoot.Lib
