import Mathlib.Data.List.Basic
import Mathlib.Data.List.Pairwise

/-!
# Tables of slots

A table of `n` slots, some of them empty, and the list of those in use: the slots in order, each with
its number. Clearing a slot drops one element from the list and rewriting one changes it in place. A
position in the list is the number of a slot only when no slot before it is empty.
-/

namespace CanBoot.Lib

open Function List Option

variable {α : Type} {n : Nat} {f : Nat → Option α}

/-- The slots in use, with their numbers. -/
def reports (n : Nat) (f : Nat → Option α) : List (Nat × α) :=
  (List.range n).filterMap fun k => (f k).map fun a => (k, a)

theorem map_snd_reports (n : Nat) (f : Nat → Option α) : (reports n f).map Prod.snd = (range n).filterMap f := by
  rw [reports, map_filterMap]
  refine filterMap_congr fun k _ => ?_
  cases f k with
  | none => rfl
  | some a => rfl

variable {k : Nat} {a : α}

theorem mem_reports : (k, a) ∈ reports n f ↔ k < n ∧ f k = some a := by
  simp only [reports, mem_filterMap, mem_range, map_eq_some_iff, Prod.mk.injEq]
  constructor
  · rintro ⟨_, hk, _, used, rfl, rfl⟩
    exact ⟨hk, used⟩
  · rintro ⟨hk, used⟩
    exact ⟨k, hk, a, used, rfl, rfl⟩

theorem reports_increasing (n : Nat) (f : Nat → Option α) : ((reports n f).map Prod.fst).Pairwise (· < ·) := by
  rw [pairwise_map, reports, pairwise_filterMap]
  refine pairwise_lt_range.imp ?_
  intro i j lt x hx y hy
  obtain ⟨a, _, rfl⟩ := map_eq_some_iff.mp hx
  obtain ⟨b, _, rfl⟩ := map_eq_some_iff.mp hy
  exact lt

/-- A relation holds along the list of the slots in use iff it holds between any two of them. -/
theorem pairwise_filterMap_range {R : α → α → Prop} {n : Nat} {f : Nat → Option α} :
    ((range n).filterMap f).Pairwise R ↔ ∀ i j a b, i < j → j < n → f i = some a → f j = some b → R a b := by
  rw [pairwise_filterMap, pairwise_iff_getElem]
  simp only [length_range, getElem_range]
  constructor
  · intro related i j a b lt hj ha hb
    exact related i j (by omega) hj lt a ha b hb
  · intro related i j _ hj lt a ha b hb
    exact related i j a b lt hj ha hb

/-- Slots beyond the last in use add nothing. -/
theorem filterMap_range_of_none {a n : Nat} (le : a ≤ n) (beyond : ∀ k, a ≤ k → f k = none) :
    (range n).filterMap f = (range a).filterMap f := by
  obtain ⟨r, rfl⟩ := Nat.exists_eq_add_of_le le
  rw [range_add, filterMap_append, filterMap_map]
  have none : (range r).filterMap (f ∘ fun x => a + x) = [] :=
    filterMap_eq_nil_iff.mpr fun k _ => beyond _ (Nat.le_add_right a k)
  rw [none, append_nil]

/-- Filling an empty slot adds one element to the list. -/
theorem filterMap_update_perm (small : k < n) (free : f k = none) (a : α) :
    ((range n).filterMap (update f k (some a))).Perm (a :: (range n).filterMap f) := by
  obtain ⟨r, rfl⟩ := Nat.exists_eq_add_of_lt small
  have before : (range k).filterMap (update f k (some a)) = (range k).filterMap f :=
    filterMap_congr fun j mem => update_of_ne (Nat.ne_of_lt (mem_range.mp mem)) _ _
  have after : (range r).filterMap (update f k (some a) ∘ fun j => k + 1 + j) =
      (range r).filterMap (f ∘ fun j => k + 1 + j) :=
    filterMap_congr fun j _ => update_of_ne (by dsimp only; omega) _ _
  rw [show k + r + 1 = k + 1 + r by omega, range_add, range_succ, filterMap_append, filterMap_append,
    filterMap_append, filterMap_append, filterMap_map, filterMap_map, before, after,
    filterMap_cons_some (update_self ..), filterMap_cons_none free, filterMap_nil,
    filterMap_nil, append_nil, append_assoc, singleton_append]
  exact perm_middle

/-- Clearing a slot drops it from the list. -/
theorem reports_update_none (n : Nat) (f : Nat → Option α) (i : Nat) :
    reports n (update f i none) = (reports n f).filter fun x => x.1 ≠ i := by
  rw [reports, reports, filter_filterMap]
  refine filterMap_congr fun k _ => ?_
  by_cases hit : k = i
  · subst hit
    rw [update_self]
    cases f k with
    | none => rfl
    | some a => simp [Option.filter]
  · rw [update_of_ne hit]
    cases f k with
    | none => rfl
    | some a => simp [Option.filter, hit]

variable {i : Nat}

/-- Rewriting a slot in use changes it in place. -/
theorem reports_update_some (n : Nat) {f : Nat → Option α} (used : f i = some a)
    (b : α) :
    reports n (update f i (some b)) = (reports n f).map fun x => if x.1 = i then (i, b) else x := by
  rw [reports, reports, map_filterMap]
  refine filterMap_congr fun k _ => ?_
  by_cases hit : k = i
  · subst hit
    rw [update_self, used]
    simp
  · rw [update_of_ne hit]
    cases f k with
    | none => rfl
    | some a => simp [hit]

/-- A table with one slot in use. -/
theorem reports_single (hk : k < n) (a : α) : reports n (update (fun _ => none) k (some a)) = [(k, a)] := by
  have unused : ∀ j, j ≠ k → (update (fun _ => none) k (some a) j).map
      (fun b => (j, b)) = none := by
    intro j ne
    rw [update_of_ne ne]
    rfl
  rw [reports, filterMap_range_of_none hk fun j hj => unused j (by omega), range_succ,
    filterMap_append, filterMap_eq_nil_iff.mpr fun j hj => unused j ?_]
  · rw [filterMap_cons_some (b := (k, a)) (by rw [update_self]; rfl)]
    rfl
  · have := mem_range.mp hj
    omega

/-- As many increasing numbers as there are below a bound are all of them. -/
theorem eq_range_of_increasing : ∀ (n : Nat) (xs : List Nat), xs.Pairwise (· < ·) → xs.length = n → (∀ x ∈ xs, x < n) →
      xs = range n
  | 0, xs, _, len, _ => eq_nil_of_length_eq_zero len
  | n + 1, xs, increasing, len, bound => by
    obtain ⟨ys, z, rfl⟩ := (eq_nil_or_concat' xs).resolve_left (by rintro rfl; cases len)
    obtain ⟨front, _, below⟩ := pairwise_append.mp increasing
    have lastBound := bound z (by simp)
    have rest : ys = range n := by
      refine eq_range_of_increasing n ys front (by simpa using len) fun y hy => ?_
      have := below y hy z (mem_singleton.mpr rfl)
      omega
    have last : z = n := by
      cases n with
      | zero => omega
      | succ k =>
        have := below k (by rw [rest]; exact mem_range.mpr (by omega)) z
          (mem_singleton.mpr rfl)
        omega
    rw [rest, last, range_succ]

/-- A table whose list ends in slot `i` at position `i` uses the slots up to `i` and no others. -/
theorem keys_eq_range {xs : List Nat} (increasing : xs.Pairwise (· < ·)) (len : xs.length = i + 1)
    (last : xs[i]? = some i) : xs = range (i + 1) := by
  refine eq_range_of_increasing _ _ increasing len fun x hx => ?_
  obtain ⟨j, hj, rfl⟩ := getElem_of_mem hx
  have hi : i < xs.length := by omega
  rw [getElem?_eq_getElem hi, some_inj] at last
  rcases Nat.lt_or_ge j i with lt | ge
  · have := pairwise_iff_getElem.mp increasing j i hj hi lt
    omega
  · have same : j = i := by omega
    subst same
    omega

/-- A list that loses one element, with every other at its index, loses its last. -/
theorem length_of_erased {xs ys : List α} (hi : i < xs.length) (erased : ys = xs.eraseIdx i)
    (kept : ∀ j, j ≠ i → ys[j]? = xs[j]?) : xs.length = i + 1 := by
  by_contra more
  have short : ys.length = xs.length - 1 := by rw [erased, length_eraseIdx_of_lt hi]
  have same := kept (xs.length - 1) (by omega)
  rw [getElem?_eq_none (by omega), getElem?_eq_getElem (by omega)] at same
  cases same

/-- A list cut before its last element. -/
theorem eq_append_of_last {xs : List α} (len : xs.length = i + 1) (last : xs[i]? = some a) : xs = xs.take i ++ [a] := by
  obtain ⟨hi, rfl⟩ := List.getElem?_eq_some_iff.mp last
  rw [take_append_getElem hi, take_of_length_le (by omega)]

section Erased

variable {f' : Nat → Option α} {i k : Nat} {a : α} (len : (reports n f).length = i + 1)
  (last : (reports n f)[i]? = some (k, a)) (erased : reports n f' = (reports n f).eraseIdx i)

include len last erased

/-- What is left once the last report is gone. -/
theorem reports_erased : reports n f = reports n f' ++ [(k, a)] := by
  have cut := eq_append_of_last len last
  have front : (reports n f).eraseIdx i = (reports n f).take i := by
    rw [eraseIdx_eq_take_drop_succ, drop_of_length_le (by omega), append_nil]
  rwa [erased, front]

/-- The last slot in use is free now. -/
theorem slot_erased (hk : k < n) : f' k = none := by
  cases used : f' k with
  | none => rfl
  | some b =>
    have increasing := reports_increasing n f
    rw [reports_erased len last erased, map_append, pairwise_append] at increasing
    have below := increasing.2.2 k (List.mem_map.mpr ⟨(k, b), mem_reports.mpr ⟨hk, used⟩, rfl⟩) k
      (by simp)
    omega

/-- The other slots are as they were. -/
theorem slot_kept {j : Nat} (hj : j < n) {b : α} (ne : j ≠ k) (used : f j = some b) : f' j = some b := by
  have hit := mem_reports.mpr ⟨hj, used⟩
  rw [reports_erased len last erased, mem_append, mem_singleton] at hit
  rcases hit with front | back
  · exact (mem_reports.mp front).2
  · exact absurd (congrArg Prod.fst back) ne

end Erased

/-- Clearing the last slot in use drops the last report. -/
theorem reports_clear_last (keys : (reports n f).map Prod.fst = range (i + 1))
    (last : (reports n f)[i]? = some (i, a)) : reports n (update f i none) = (reports n f).eraseIdx i := by
  have len : (reports n f).length = i + 1 := by
    rw [← length_map Prod.fst, keys, length_range]
  have cut := eq_append_of_last len last
  have front : (reports n f).eraseIdx i = (reports n f).take i := by
    rw [eraseIdx_eq_take_drop_succ, drop_of_length_le (by omega), append_nil]
  have below : ∀ x ∈ (reports n f).take i, x.1 ≠ i := by
    intro x hx
    have increasing := reports_increasing n f
    rw [cut, map_append, pairwise_append] at increasing
    have lt := increasing.2.2 x.1 (List.mem_map_of_mem hx) i (by simp)
    omega
  rw [reports_update_none, front]
  nth_rewrite 1 [cut]
  rw [filter_append, filter_eq_self.mpr fun x hx => by simpa using below x hx]
  simp

/-- Rewriting the slot at its own position sets that report. -/
theorem reports_set (at' : (reports n f)[i]? = some (i, a)) (b : α) :
    reports n (update f i (some b)) = (reports n f).set i (i, b) := by
  have used := (mem_reports.mp (mem_of_getElem? at')).2
  have increasing := reports_increasing n f
  rw [pairwise_map, pairwise_iff_getElem] at increasing
  obtain ⟨hi, hit⟩ := List.getElem?_eq_some_iff.mp at'
  rw [reports_update_some n used]
  apply ext_getElem (by simp)
  intro j hj hj'
  have hj : j < (reports n f).length := by simpa using hj
  rw [getElem_map, getElem_set]
  by_cases here : i = j
  · subst here
    rw [if_pos rfl, hit, if_pos rfl]
  · rw [if_neg here, if_neg]
    intro same
    rcases Nat.lt_or_gt_of_ne here with lt | gt
    · have := increasing i j hi hj lt
      rw [hit] at this
      simp only at this
      omega
    · have := increasing j i hj hi gt
      rw [hit] at this
      simp only at this
      omega

end CanBoot.Lib
