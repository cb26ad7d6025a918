import CanBoot.Lib.Words

/-!
# Words moved one after the other

A move copies the 32-bit word at one offset of a buffer to another offset. A list of moves, made in order on one
buffer, copies what was there before the first of them if no move writes where a later one reads or writes
(`le32_moves`); it changes nothing but its targets (`moves_of_out`).
-/

namespace CanBoot.Lib

open List

/-- Copy the word at `m.1` to `m.2`. -/
def moveWord (b : Buf) (m : Nat × Nat) : Buf := putLe32 b m.2 (le32 b m.1)

/-- The moves of a list, in order. -/
def moves (ms : List (Nat × Nat)) (b : Buf) : Buf := ms.foldl moveWord b

/-- The words at two offsets have no byte in common. -/
def WordsApart (p q : Nat) : Prop := p + 4 ≤ q ∨ q + 4 ≤ p

/-- The move `m` is out of the way of the later move `n`. -/
def OutOfWay (m n : Nat × Nat) : Prop := WordsApart m.2 n.1 ∧ WordsApart m.2 n.2

theorem le32_moveWord_of_apart (b : Buf) {m : Nat × Nat} {p : Nat} (apart : WordsApart m.2 p) :
    le32 (moveWord b m) p = le32 b p :=
  le32_congr fun i _ _ => putLe32_of_out _ _ (by unfold WordsApart at apart; omega)

theorem le32_moveWord (b : Buf) (m : Nat × Nat) : le32 (moveWord b m) m.2 = le32 b m.1 := by
  rw [moveWord, le32_putLe32, Nat.mod_eq_of_lt (le32_lt b m.1)]

theorem moves_of_out {i : Nat} : ∀ {ms : List (Nat × Nat)} (b : Buf), (∀ m ∈ ms, i < m.2 ∨ m.2 + 4 ≤ i) →
    moves ms b i = b i
  | [], _, _ => rfl
  | m :: ms, b, out => by
    show moves ms (moveWord b m) i = b i
    rw [moves_of_out _ fun n mem => out n (mem_cons_of_mem _ mem)]
    exact putLe32_of_out _ _ (out m mem_cons_self)

theorem le32_moves_of_apart {ms : List (Nat × Nat)} (b : Buf) {p : Nat} (apart : ∀ m ∈ ms, WordsApart p m.2) :
    le32 (moves ms b) p = le32 b p := by
  refine le32_congr fun i low high => moves_of_out b fun m mem => ?_
  have := apart m mem
  unfold WordsApart at this
  omega

/-- **Moves that do not come in each other's way copy the buffer as it was.** -/
theorem le32_moves : ∀ {ms : List (Nat × Nat)} (b : Buf), ms.Pairwise OutOfWay →
    ∀ m ∈ ms, le32 (moves ms b) m.2 = le32 b m.1
  | [], _, _, _, mem => absurd mem not_mem_nil
  | m :: ms, b, clear, n, mem => by
    obtain ⟨first, later⟩ := pairwise_cons.1 clear
    show le32 (moves ms (moveWord b m)) n.2 = le32 b n.1
    rcases mem_cons.1 mem with rfl | mem
    · rw [le32_moves_of_apart _ fun k mem => (first k mem).2, le32_moveWord]
    · rw [le32_moves _ later n mem, le32_moveWord_of_apart b (first n mem).1]

end CanBoot.Lib
