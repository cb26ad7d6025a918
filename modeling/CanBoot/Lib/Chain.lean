import Mathlib.Data.Finset.Card

/-!
# Chains through a link table

A link table `next` sends a cell to its successor. A cell is `live` when a walk visits it; the walk
stops at the first cell that is not. `IsChain` says that a list is the whole walk from a cell, and
`trace` computes the walk with a bound on its length.

A walk is determined by its first cell (`IsChain.unique`), so it never meets a cell twice
(`IsChain.nodup`): a repeat would send the walk round again. It depends on the table at its own
cells only (`IsChain.congr`), which is the frame rule of every table update below: cells can be
appended (`IsChain.snoc`) and a whole list can be linked at once (`isChain_relink`).
-/

namespace CanBoot.Lib

open List Option

variable {α : Type}

/-- The list is the walk from `a`: it starts at `a`, follows `next`, and stops exactly where a cell
is not live. -/
def IsChain (live : α → Bool) (next : α → α) : α → List α → Prop
  | a, [] => live a = false
  | a, x :: xs => x = a ∧ live a = true ∧ IsChain live next (next a) xs

/-- The first `n` cells of the walk from `a`. -/
def trace (live : α → Bool) (next : α → α) : Nat → α → List α
  | 0, _ => []
  | n + 1, a => if live a then a :: trace live next n (next a) else []

variable {live : α → Bool} {next next' : α → α}

/-- A cell has one walk. -/
theorem IsChain.unique : ∀ {a : α} {xs ys : List α}, IsChain live next a xs → IsChain live next a ys → xs = ys
  | _, [], [], _, _ => rfl
  | _, [], _ :: _, hx, hy => by rw [IsChain] at hx; rw [hy.2.1] at hx; cases hx
  | _, _ :: _, [], hx, hy => by rw [IsChain] at hy; rw [hx.2.1] at hy; cases hy
  | _, _ :: _, _ :: _, hx, hy => by
    rw [hx.1, hy.1, IsChain.unique hx.2.2 hy.2.2]

/-- With room for the whole walk, `trace` is the walk. -/
theorem trace_eq : ∀ {n : Nat} {a : α} {xs : List α}, IsChain live next a xs → xs.length ≤ n → trace live next n a = xs
  | 0, _, [], _, _ => rfl
  | 0, _, _ :: _, _, hn => absurd hn (by simp)
  | n + 1, a, [], h, _ => by rw [trace, if_neg (by rw [IsChain] at h; simp [h])]
  | n + 1, a, x :: xs, h, hn => by
    rw [trace, if_pos h.2.1, trace_eq h.2.2 (by simpa using hn), h.1]

/-- The walk reads the table at its own cells only. -/
theorem IsChain.congr : ∀ {a : α} {xs : List α}, IsChain live next a xs →
    (∀ x ∈ xs, next' x = next x) → IsChain live next' a xs
  | _, [], h, _ => h
  | a, x :: xs, h, agree => by
    refine ⟨h.1, h.2.1, ?_⟩
    rw [← h.1, agree x mem_cons_self, h.1]
    exact IsChain.congr h.2.2 fun y hy => agree y (mem_cons_of_mem _ hy)

theorem IsChain.live_of_mem : ∀ {a : α} {xs : List α}, IsChain live next a xs → ∀ {x : α}, x ∈ xs → live x = true
  | _, _ :: _, h, x, hx => by
    rcases mem_cons.mp hx with rfl | hx
    · rw [h.1]; exact h.2.1
    · exact IsChain.live_of_mem h.2.2 hx

/-- The walk from a cell of the walk is the rest of it. -/
theorem IsChain.drop : ∀ {pre : List α} {a x : α} {post : List α},
    IsChain live next a (pre ++ x :: post) → IsChain live next x (x :: post)
  | [], _, _, _, h => by rw [nil_append] at h; exact ⟨rfl, by rw [h.1]; exact h.2.1, by rw [h.1]; exact h.2.2⟩
  | _ :: _, _, _, _, h => IsChain.drop h.2.2

/-- A walk meets no cell twice. -/
theorem IsChain.nodup {a : α} {xs : List α} (h : IsChain live next a xs) : xs.Nodup := by
  induction xs generalizing a with
  | nil => exact nodup_nil
  | cons x xs ih =>
    refine nodup_cons.mpr ⟨?_, ih h.2.2⟩
    intro mem
    obtain ⟨pre, post, split⟩ := append_of_mem mem
    have tail := h.2.2
    rw [split] at tail
    -- the walk from the second `x` is shorter than the walk from the first
    have again := tail.drop
    have whole : IsChain live next x (x :: xs) := ⟨rfl, by rw [h.1]; exact h.2.1, by rw [h.1]; exact h.2.2⟩
    have same := whole.unique again
    rw [split] at same
    have len := congrArg List.length same
    simp only [length_cons, length_append] at len
    omega

/-- Each cell but the last links to a live cell. -/
theorem IsChain.live_next : ∀ {a : α} {xs : List α}, IsChain live next a xs →
    ∀ {x : α}, x ∈ xs → live (next x) = true ∨ xs.getLast? = some x
  | _, [y], h, x, hx => by
    rw [mem_singleton] at hx
    exact Or.inr (by rw [hx]; rfl)
  | _, y :: z :: xs, h, x, hx => by
    rcases mem_cons.mp hx with rfl | hx
    · exact Or.inl (by rw [h.1]; exact h.2.2.2.1)
    · rcases IsChain.live_next h.2.2 hx with alive | last
      · exact Or.inl alive
      · exact Or.inr (by rw [getLast?_cons_cons]; exact last)

/-- The cell of the walk after which a new live cell is linked becomes its last but one. -/
theorem IsChain.snoc : ∀ {a : α} {xs : List α} {l n : α}, IsChain live next a (xs ++ [l]) →
    (∀ x ∈ xs, next' x = next x) → next' l = n → live n = true → live (next' n) = false →
    IsChain live next' a (xs ++ [l] ++ [n])
  | a, [], l, n, h, _, hl, hn, he => by
    have hla : l = a := h.1
    subst hla
    exact ⟨rfl, h.2.1, by rw [hl]; exact ⟨rfl, hn, he⟩⟩
  | a, x :: xs, l, n, h, agree, hl, hn, he => by
    refine ⟨h.1, h.2.1, ?_⟩
    have := IsChain.snoc h.2.2 (fun y hy => agree y (mem_cons_of_mem _ hy)) hl hn he
    rw [← h.1, agree x mem_cons_self, h.1]
    exact this

/-! ## Linking a list -/

/-- The successor of `x` in a list that ends at `e`. -/
def succIn [DecidableEq α] (e : α) : List α → α → Option α
  | [], _ => none
  | [y], x => if x = y then some e else none
  | y :: z :: ys, x => if x = y then some z else succIn e (z :: ys) x

/-- The table with a list linked up, its last cell to `e`. -/
def relink [DecidableEq α] (next : α → α) (xs : List α) (e : α) : α → α :=
  fun x => (succIn e xs x).getD (next x)

theorem succIn_of_not_mem [DecidableEq α] (e : α) : ∀ {xs : List α} {x : α}, x ∉ xs → succIn e xs x = none
  | [], _, _ => rfl
  | [y], x, h => by rw [succIn, if_neg (by simpa using h)]
  | y :: z :: ys, x, h => by
    rw [succIn, if_neg (by simp only [mem_cons, not_or] at h; exact h.1)]
    exact succIn_of_not_mem e (fun hx => h (mem_cons_of_mem _ hx))

theorem succIn_of_mem [DecidableEq α] (e : α) : ∀ {xs : List α} {x : α}, x ∈ xs → ∃ y, succIn e xs x = some y
  | [y], x, h => ⟨e, by rw [succIn, if_pos (by simpa using h)]⟩
  | y :: z :: ys, x, h => by
    by_cases hx : x = y
    · exact ⟨z, by rw [succIn, if_pos hx]⟩
    · rw [succIn, if_neg hx]
      exact succIn_of_mem e ((mem_cons.mp h).resolve_left hx)

theorem relink_of_not_mem [DecidableEq α] {xs : List α} {e x : α} (h : x ∉ xs) : relink next xs e x = next x := by
  rw [relink, succIn_of_not_mem e h, getD_none]

/-- A duplicate-free list of live cells, linked up to a cell that is not live, is a walk. -/
theorem isChain_relink [DecidableEq α] {e : α} (he : live e = false) :
    ∀ {x : α} {xs : List α}, (x :: xs).Nodup → (∀ y ∈ x :: xs, live y = true) →
      IsChain live (relink next (x :: xs) e) x (x :: xs)
  | x, [], _, hl => by
    refine ⟨rfl, hl x mem_cons_self, ?_⟩
    simpa only [IsChain, relink, succIn, if_pos, getD_some] using he
  | x, y :: ys, hn, hl => by
    have hx : x ∉ y :: ys := (nodup_cons.mp hn).1
    refine ⟨rfl, hl x mem_cons_self, ?_⟩
    have step : relink next (x :: y :: ys) e x = y := by
      rw [relink, succIn, if_pos rfl, getD_some]
    rw [step]
    have rest := isChain_relink he (nodup_cons.mp hn).2
      (fun z hz => hl z (mem_cons_of_mem _ hz))
    refine rest.congr fun z hz => ?_
    have hzx : z ≠ x := fun h => hx (h ▸ hz)
    rw [relink, relink, succIn, if_neg hzx]

/-- The last cell of a linked list links to the end. -/
theorem relink_getLast [DecidableEq α] : ∀ {e : α} {xs : List α} {l : α}, xs.Nodup →
    xs.getLast? = some l → relink next xs e l = e
  | e, [x], l, _, h => by
    have hl : x = l := by simpa using h
    rw [relink, succIn, if_pos hl.symm, getD_some]
  | e, x :: y :: ys, l, hn, h => by
    rw [getLast?_cons_cons] at h
    have hl : l ≠ x := fun heq =>
      (nodup_cons.mp hn).1 (heq ▸ mem_of_getLast? h)
    have rest : relink next (y :: ys) e l = e := relink_getLast (nodup_cons.mp hn).2 h
    rw [relink] at rest ⊢
    rw [succIn, if_neg hl]
    exact rest

end CanBoot.Lib
