import CanBoot.Lib.Words

/-!
# Ticket locks

A lock of two 32-bit counters: whoever wants it draws the next ticket and waits until that ticket is served. As long as
fewer than 2^32 tickets are out, the lock is a queue: who drew first is served first, and one at a time.
-/

namespace CanBoot.Lib

open Function List

/-- The next ticket to hand out, and the one that is served. -/
structure Ticket where
  next : Nat
  owner : Nat
deriving DecidableEq, Repr

namespace Ticket

/-- A ticket is drawn. -/
def draw (l : Ticket) : Nat × Ticket := (l.next, { l with next := u32 (l.next + 1) })

/-- The ticket served is this one. -/
def serves (l : Ticket) (ticket : Nat) : Bool := l.owner = ticket

/-- The next ticket is served. -/
def advance (l : Ticket) : Ticket := { l with owner := u32 (l.owner + 1) }

variable {ι : Type*}

/-- **The lock is a queue** of parties, each with its ticket. -/
structure Queues (l : Ticket) (ticket : ι → Nat) (queue : List ι) : Prop where
  counters : ∃ served, l.owner = u32 served ∧ l.next = u32 (served + queue.length) ∧
    ∀ i a, queue[i]? = some a → ticket a = u32 (served + i)
  few : queue.length ≤ 4294967296

theorem queues_nil (ticket : ι → Nat) : Queues ⟨0, 0⟩ ticket [] :=
  ⟨⟨0, rfl, rfl, fun i a mem => by cases mem⟩, Nat.zero_le _⟩

variable {l : Ticket} {ticket : ι → Nat} {queue : List ι}

/-- A party joins the queue at its end. -/
theorem Queues.draw [DecidableEq ι] (queues : l.Queues ticket queue) {a : ι} (absent : a ∉ queue)
    (room : queue.length + 1 ≤ 4294967296) : l.draw.2.Queues (update ticket a l.draw.1) (queue ++ [a]) := by
  obtain ⟨served, owner, next, tickets⟩ := queues.counters
  refine ⟨⟨served, owner, ?_, fun i b mem => ?_⟩, ?_⟩
  · show u32 (l.next + 1) = _
    rw [next, length_append, length_singleton, u32, u32, u32]
    omega
  · rcases Nat.lt_or_ge i queue.length with before | last
    · rw [getElem?_append_left before] at mem
      have other : b ≠ a := by
        rintro rfl
        exact absent (mem_of_getElem? mem)
      rw [update_of_ne other]
      exact tickets i b mem
    · rw [getElem?_append_right last] at mem
      have small : i - queue.length < 1 := (List.getElem?_eq_some_iff.mp mem).1
      obtain rfl : i = queue.length := by omega
      rw [Nat.sub_self] at mem
      obtain rfl : a = b := Option.some.inj mem
      rw [update_self]
      exact next
  · rw [length_append]
    exact room

/-- The head of the queue is served, and nobody else. -/
theorem Queues.serves_iff (queues : l.Queues ticket queue) {a : ι} (mem : a ∈ queue) :
    l.serves (ticket a) = true ↔ queue.head? = some a := by
  obtain ⟨served, owner, -, tickets⟩ := queues.counters
  rw [serves, decide_eq_true_eq, owner, head?_eq_getElem?]
  constructor
  · intro same
    obtain ⟨i, place⟩ := getElem?_of_mem mem
    have small : i < 4294967296 := Nat.lt_of_lt_of_le (List.getElem?_eq_some_iff.mp place).1 queues.few
    have first : i = 0 := by
      rw [tickets i a place, u32, u32] at same
      omega
    rwa [first] at place
  · intro head
    rw [tickets 0 a head, Nat.add_zero]

/-- The head of the queue leaves it. -/
theorem Queues.advance {a : ι} (queues : l.Queues ticket (a :: queue)) : l.advance.Queues ticket queue := by
  obtain ⟨served, owner, next, tickets⟩ := queues.counters
  refine ⟨⟨served + 1, ?_, ?_, fun i b mem => ?_⟩, ?_⟩
  · show u32 (l.owner + 1) = _
    rw [owner, u32, u32, u32]
    omega
  · show l.next = _
    rw [next, length_cons, Nat.add_assoc, Nat.add_comm 1]
  · rw [tickets (i + 1) b mem, Nat.add_assoc, Nat.add_comm 1]
  · exact Nat.le_trans (Nat.le_succ _) queues.few

end Ticket

end CanBoot.Lib
