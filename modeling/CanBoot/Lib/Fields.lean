import Mathlib.Data.List.TakeWhile
import Mathlib.Algebra.Order.BigOperators.Group.List
import Mathlib.Algebra.Order.Group.Nat
import Mathlib.Algebra.GroupWithZero.Nat
import Mathlib.Data.List.Infix

/-!
# Fields between separators, and names with a way up

Two things every path has. A text with separators is read as the list of its non-empty fields. A scanner with a
buffer of `cap` symbols reads the same fields as long as none of them is longer (`pieces_eq_fields`).

A list of names, one of which means "here" and one "up", settles to the stack of names it leads to. A stack that
takes at most `depth` names settles to the same as long as no part of the way is deeper (`settleIn_eq`).
-/

namespace CanBoot.Lib

open List

variable {α : Type} [DecidableEq α] (sep : α)

/-- The parts of a text between runs of separators. -/
def fields (l : List α) : List (List α) := (l.splitOnP (· = sep)).filter (· ≠ [])

/-- The parts a scanner reads that has room for `cap` symbols: `cur` is what it holds. A part ends at a separator,
at the end of the text, or when there is no more room. -/
def pieces (cap : Nat) : List α → List α → List (List α)
  | [], cur => if cur = [] then [] else [cur]
  | c :: p, cur =>
    if c = sep then
      if cur = [] then pieces cap p [] else cur :: pieces cap p []
    else if cur.length = cap then cur :: pieces cap p [c]
    else pieces cap p (cur ++ [c])

/-- The names of a list, each behind a separator; one separator alone for no names. -/
def rooted (names : List (List α)) : List α := sep :: List.intercalate [sep] names

variable {sep}

theorem fields_append (a b : List α) : fields sep (a ++ sep :: b) = fields sep a ++ fields sep b := by
  rw [fields, splitOnP_append_cons a b (by simp), filter_append]
  rfl

theorem fields_cons (l : List α) : fields sep (sep :: l) = fields sep l := fields_append [] l

theorem fields_of_free {l : List α} (free : ∀ c ∈ l, c ≠ sep) : fields sep l = if l = [] then [] else [l] := by
  rw [fields, splitOnP_eq_singleton fun c hc => by simpa using free c hc]
  by_cases empty : l = [] <;> simp [empty]

/-- A text splits after its first run of other symbols. -/
theorem exists_split (sep : α) (l : List α) : (∀ c ∈ l, c ≠ sep) ∨ ∃ a b, (∀ c ∈ a, c ≠ sep) ∧ l = a ++ sep :: b := by
  induction l with
  | nil => exact .inl nofun
  | cons c l ih =>
    by_cases here : c = sep
    · exact .inr ⟨[], l, nofun, by rw [here]; rfl⟩
    · rcases ih with free | ⟨a, b, free, rfl⟩
      · exact .inl (forall_mem_cons.2 ⟨here, free⟩)
      · exact .inr ⟨c :: a, b, forall_mem_cons.2 ⟨here, free⟩, rfl⟩

/-- A run of symbols without a separator is the start of one field. -/
theorem fields_free_append {w : List α} (some_ : w ≠ []) (free : ∀ c ∈ w, c ≠ sep) (p : List α) :
    ∃ u rest, fields sep (w ++ p) = (w ++ u) :: rest := by
  rcases exists_split sep p with more | ⟨a, b, more, rfl⟩
  · refine ⟨p, [], ?_⟩
    rw [fields_of_free (forall_mem_append.2 ⟨free, more⟩), if_neg (by simp [some_])]
  · refine ⟨a, fields sep b, ?_⟩
    rw [← append_assoc, fields_append, fields_of_free (forall_mem_append.2 ⟨free, more⟩),
      if_neg (by simp [some_])]
    rfl

/-- A field is not empty and has no separator in it. -/
theorem mem_fields {l f : List α} (mem : f ∈ fields sep l) : f ≠ [] ∧ sep ∉ f := by
  induction n : l.length using Nat.strong_induction_on generalizing l with
  | _ n ih =>
    rcases exists_split sep l with free | ⟨a, b, free, rfl⟩
    · rw [fields_of_free free] at mem
      split at mem
      · cases mem
      · next some_ => exact mem_singleton.1 mem ▸ ⟨some_, fun inside => free _ inside rfl⟩
    · rw [fields_append, mem_append, fields_of_free free] at mem
      rcases mem with mem | mem
      · split at mem
        · cases mem
        · next some_ => exact mem_singleton.1 mem ▸ ⟨some_, fun inside => free _ inside rfl⟩
      · exact ih b.length (by simp at n; omega) mem rfl

/-- The fields and a separator for each are no longer than the text with one more separator. -/
theorem sum_fields_le (sep : α) (l : List α) : ((fields sep l).map fun f => f.length + 1).sum ≤ l.length + 1 := by
  induction n : l.length using Nat.strong_induction_on generalizing l with
  | _ n ih =>
    have one : ∀ a : List α, (∀ c ∈ a, c ≠ sep) → ((fields sep a).map fun f => f.length + 1).sum ≤ a.length + 1 := by
      intro a free
      rw [fields_of_free free]
      split <;> simp
    rcases exists_split sep l with free | ⟨a, b, free, rfl⟩
    · exact n ▸ one l free
    · have first := one a free
      have later := ih b.length (by simp at n; omega) b rfl
      simp only [length_append, length_cons] at n
      rw [fields_append, map_append, sum_append]
      omega

/-- **A scanner with room for every field reads the fields.** -/
theorem pieces_eq_fields {cap : Nat} {l : List α} (fits : ∀ f ∈ fields sep l, f.length ≤ cap) :
    pieces sep cap l [] = fields sep l := by
  have scan : ∀ (p cur : List α), (∀ c ∈ cur, c ≠ sep) → (∀ f ∈ fields sep (cur ++ p), f.length ≤ cap) →
      pieces sep cap p cur = fields sep (cur ++ p) := by
    intro p
    induction p with
    | nil =>
      intro cur free _
      rw [pieces, append_nil, fields_of_free free]
    | cons c p ih =>
      intro cur free fits
      rw [pieces]
      by_cases here : c = sep
      · rw [if_pos here, here, fields_append, fields_of_free free]
        rw [here, fields_append] at fits
        have rest := ih [] nofun fun f hf => fits f (mem_append_right _ hf)
        by_cases empty : cur = []
        · rw [if_pos empty, if_pos empty, rest, nil_append, nil_append]
        · rw [if_neg empty, if_neg empty, rest, nil_append, singleton_append]
      · have free' : ∀ x ∈ cur ++ [c], x ≠ sep := forall_mem_append.2 ⟨free, forall_mem_singleton.2 here⟩
        have whole : cur ++ c :: p = cur ++ [c] ++ p := by simp
        rw [whole] at fits ⊢
        have room : cur.length ≠ cap := by
          obtain ⟨u, rest, split⟩ := fields_free_append (w := cur ++ [c]) (by simp) free' p
          have := fits _ (split ▸ mem_cons_self)
          simp only [length_append, length_cons, length_nil] at this
          omega
        rw [if_neg here, if_neg room]
        exact ih (cur ++ [c]) free' fits
  exact scan l [] nofun fits

omit [DecidableEq α] in
theorem length_rooted (names : List (List α)) :
    (rooted sep names).length = max 1 (names.map fun n => n.length + 1).sum := by
  induction names with
  | nil => rfl
  | cons n names ih =>
    cases names with
    | nil =>
      simp only [rooted, intercalate_singleton, length_cons, map_cons, map_nil, sum_cons,
        sum_nil]
      omega
    | cons m names =>
      simp only [rooted, length_cons, map_cons, sum_cons, intercalate_cons_cons,
        length_append, length_nil] at ih ⊢
      omega

omit [DecidableEq α] in

/-! ## Names with a way up -/

section Settle

variable {ν : Type} [DecidableEq ν] (here up : ν)

/-- One name on the way. -/
def settleStep (stack : List ν) (n : ν) : List ν :=
  if n = here then stack else if n = up then stack.dropLast else stack ++ [n]

/-- The stack that a list of names leads to. -/
def settle (names : List ν) : List ν := names.foldl (settleStep here up) []

/-- One name on the way, for a stack of at most `depth` names. -/
def settleInStep (depth : Nat) (stack : List ν) (n : ν) : List ν :=
  if n = here then stack
  else if n = up then stack.dropLast
  else if stack.length < depth then stack ++ [n]
  else stack

/-- The stack of at most `depth` names that a list of names leads to. -/
def settleIn (depth : Nat) (names : List ν) : List ν := names.foldl (settleInStep here up depth) []

variable {here up}

theorem settle_append_singleton (names : List ν) (n : ν) :
    settle here up (names ++ [n]) = settleStep here up (settle here up names) n := by
  rw [settle, foldl_append]
  rfl

theorem settle_sublist (names : List ν) : (settle here up names).Sublist names := by
  induction names using reverseRecOn with
  | nil => exact Sublist.refl _
  | append_singleton names n ih =>
    rw [settle_append_singleton, settleStep]
    split_ifs
    · exact ih.trans (sublist_append_left _ _)
    · exact ((dropLast_sublist _).trans ih).trans (sublist_append_left _ _)
    · exact ih.append (Sublist.refl _)

theorem mem_settle {names : List ν} {n : ν} (mem : n ∈ settle here up names) : n ≠ here ∧ n ≠ up := by
  induction names using reverseRecOn with
  | nil => cases mem
  | append_singleton names m ih =>
    rw [settle_append_singleton, settleStep] at mem
    split_ifs at mem with isHere isUp
    · exact ih mem
    · exact ih (mem_of_mem_dropLast mem)
    · rcases mem_append.1 mem with mem | mem
      · exact ih mem
      · exact mem_singleton.1 mem ▸ ⟨isHere, isUp⟩

/-- **A way that never leads deeper than the stack has room settles to the same.** -/
theorem settleIn_eq {depth : Nat} {names : List ν} (room : ∀ k, (settle here up (names.take k)).length ≤ depth) :
    settleIn here up depth names = settle here up names := by
  induction names using reverseRecOn with
  | nil => rfl
  | append_singleton names n ih =>
    have before : ∀ k, (settle here up (names.take k)).length ≤ depth := by
      intro k
      by_cases inside : k ≤ names.length
      · have part := room k
        rwa [take_append_of_le_length inside] at part
      · have all := room names.length
        rw [take_append_of_le_length le_rfl, take_length] at all
        rw [take_of_length_le (by omega)]
        exact all
    have whole := room (names ++ [n]).length
    rw [take_length, settle_append_singleton, settleStep] at whole
    rw [settleIn, foldl_append, ← settleIn, ih before, settle_append_singleton, settleStep]
    show settleInStep here up depth (settle here up names) n = _
    unfold settleInStep
    split_ifs at whole ⊢ with isHere isUp deep
    · rfl
    · rfl
    · rfl
    · rw [length_append, length_singleton] at whole
      omega

end Settle

/-- The fields a text settles to need no more room than the text behind a separator. -/
theorem length_rooted_settle_le (here up l : List α) :
    (rooted sep (settle here up (fields sep l))).length ≤ l.length + 1 := by
  have settled : (settle here up (fields sep l)).Sublist (fields sep l) := settle_sublist _
  have kept := (settled.map fun f => f.length + 1).sum_le_sum fun _ _ => Nat.zero_le _
  have all := sum_fields_le sep l
  rw [length_rooted]
  omega

end CanBoot.Lib
