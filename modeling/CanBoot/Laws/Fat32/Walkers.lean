import CanBoot.Lib.Chain
import CanBoot.Laws.Fat32.Slots

/-!
# Chains of a volume, and the walkers along them

`HasChain` says what a chain is: the walk from a first cluster, all of it in range, closed by an
end-of-chain mark. On such a chain every walker of the engine is a pure scan of the directory's
slots in order (`run_dirWalk`), and a walker that only looks for a deciding entry is a search in
the list of slots (`scanDir_decide`).

A directory ends at its first entry with a zero name byte. When nothing but such entries follow
(`Terminated`), the search of `dir_find` is a search among the live entries.
-/

namespace CanBoot

open Lib Lib.Prog List Option

/-- An entry `dir_find` can report: neither free nor a long-name or volume-label entry. -/
def Entry.live (e : Entry) : Bool :=
  !e.isEnd && !e.isDeleted && !e.isLfn && !e.isVolumeId

/-- The slots of a list of clusters, in the order the walkers visit them. -/
def Fat32.locs (fs : Fat32) (cs : List Nat) : List (Nat × Nat) :=
  cs.flatMap fun c => (List.range fs.entries).map fun i => (c, i)

namespace Vol

/-- The entry at a location. -/
def slotAt (v : Vol) (l : Nat × Nat) : Entry := v.slot l.1 l.2

/-- The chain from a first cluster, cut at the number of clusters of the volume. -/
def chain (fs : Fat32) (v : Vol) (c : Nat) : List Nat := trace isCluster v.fat fs.totalClusters c

/-- The chain from `c` is `cs`: it runs through clusters of the volume and ends in a mark. -/
structure HasChain (fs : Fat32) (v : Vol) (c : Nat) (cs : List Nat) : Prop where
  isChain : IsChain isCluster v.fat c cs
  inRange : ∀ x ∈ cs, fs.InRange x
  ends : ∀ x ∈ cs.getLast?, eoc ≤ v.fat x

/-- After an entry with a zero name byte, only such entries follow. -/
def Terminated (fs : Fat32) (v : Vol) (cs : List Nat) : Prop :=
  (fs.locs cs).Pairwise fun a b => (v.slotAt a).isEnd = true → (v.slotAt b).isEnd = true

end Vol

/-! ## Chains -/

namespace Vol.HasChain

variable {fs : Fat32} {v : Vol} {c : Nat} {cs : List Nat}

section

variable (h : HasChain fs v c cs)

include h

theorem nodup : cs.Nodup := h.isChain.nodup

theorem length_le : cs.length ≤ fs.totalClusters := by
  have sub : cs ⊆ range' 2 fs.totalClusters := by
    intro x hx
    have := h.inRange x hx
    exact mem_range'_1.mpr ⟨this.1, this.2⟩
  simpa using (subperm_of_subset h.nodup sub).length_le

theorem chain_eq : v.chain fs c = cs := trace_eq h.isChain h.length_le

theorem ne_zero {x : Nat} (hx : x ∈ cs) : v.fat x ≠ 0 := by
  intro zero
  rcases h.isChain.live_next hx with alive | last
  · rw [zero] at alive
    exact absurd alive (by decide)
  · have := h.ends x last
    rw [zero] at this
    exact absurd this (by decide)

theorem congr {v' : Vol} (agree : ∀ x ∈ cs, v'.fat x = v.fat x) : HasChain fs v' c cs where
  isChain := h.isChain.congr agree
  inRange := h.inRange
  ends x hx := by
    rw [agree x (mem_of_getLast? hx)]
    exact h.ends x hx

theorem head (hne : cs ≠ []) : c ∈ cs := by
  cases cs with
  | nil => exact absurd rfl hne
  | cons x xs =>
    have := h.isChain.1
    exact this ▸ mem_cons_self

/-- The root walkers test only `cluster < EOC`; on a chain with a mark at its end that is the same
walk. -/
theorem belowEoc (hne : cs ≠ []) : IsChain Fat32.belowEoc v.fat c cs := by
  have below : ∀ {a : Nat} {xs : List Nat}, xs ≠ [] → IsChain isCluster v.fat a xs →
      (∀ x ∈ xs.getLast?, eoc ≤ v.fat x) → IsChain Fat32.belowEoc v.fat a xs := by
    intro a xs
    induction xs generalizing a with
    | nil => intro hxs; exact absurd rfl hxs
    | cons x xs ih =>
      intro _ chain ends
      have small : Fat32.belowEoc a = true := by
        have := chain.2.1
        simp only [isCluster, Bool.and_eq_true, decide_eq_true_eq] at this
        simpa only [Fat32.belowEoc, decide_eq_true_eq] using this.2
      refine ⟨chain.1, small, ?_⟩
      cases xs with
      | nil =>
        have := ends x rfl
        rw [chain.1] at this
        simpa only [Lib.IsChain, Fat32.belowEoc, decide_eq_false_iff_not, not_lt] using this
      | cons y ys =>
        exact ih (by simp) chain.2.2 fun z hz => ends z (by rw [getLast?_cons_cons]; exact hz)
  exact below hne h.isChain h.ends

end

end Vol.HasChain

namespace Fat32

variable {fs : Fat32} {v : Vol} {c : Nat} {cs : List Nat}

theorem mem_locs {l : Nat × Nat} : l ∈ fs.locs cs ↔ l.1 ∈ cs ∧ l.2 < fs.entries := by
  obtain ⟨c, i⟩ := l
  simp only [locs, mem_flatMap, List.mem_map, mem_range, Prod.mk.injEq]
  constructor
  · rintro ⟨x, hx, j, hj, rfl, rfl⟩
    exact ⟨hx, hj⟩
  · rintro ⟨hc, hi⟩
    exact ⟨c, hc, i, hi, rfl, rfl⟩

theorem locs_append (cs ds : List Nat) : fs.locs (cs ++ ds) = fs.locs cs ++ fs.locs ds :=
  flatMap_append

theorem nodup_locs (h : cs.Nodup) : (fs.locs cs).Nodup := by
  apply nodup_flatMap.mpr
  constructor
  · intro c _
    exact nodup_range.map fun i j hij => (Prod.mk.inj hij).2
  · refine h.imp fun {a b} hab l ha hb => hab ?_
    obtain ⟨_, _, rfl⟩ := List.mem_map.mp ha
    obtain ⟨_, _, heq⟩ := List.mem_map.mp hb
    exact (Prod.mk.inj heq).1.symm

/-! ## The walk as a scan -/

/-- The walk over the slots of a list of clusters, as a pure function. -/
def scanDir {α β : Type} (visit : Nat → α → Nat → Entry → α ⊕ β) (leave : Nat → α → α) (v : Vol)
    (n : Nat) : List Nat → α → α ⊕ β
  | [], a => .inl a
  | c :: cs, a =>
    match scanEntries (visit c) (v.data c) (List.range n) a with
    | .inr b => .inr b
    | .inl a' => scanDir visit leave v n cs (leave c a')

/-- An entry's verdict, as a visit answers it. -/
def decided {α β : Type} (a : α) : Option β → α ⊕ β
  | some b => .inr b
  | none => .inl a

variable {α β : Type} {fuel : Nat} {m : Media}

theorem scanEntries_congr (visit : α → Nat → Entry → α ⊕ β) {b b' : Buf} (is : List Nat) (a : α)
    (h : ∀ i ∈ is, entryAt b i = entryAt b' i) : scanEntries visit b is a = scanEntries visit b' is a := by
  induction is generalizing a with
  | nil => rfl
  | cons i is ih =>
    rw [scanEntries, scanEntries, h i mem_cons_self]
    split
    · exact ih _ fun j hj => h j (mem_cons_of_mem _ hj)
    · rfl

/-- **A walk along a chain answers**, with the pure scan of its slots, and leaves the medium. -/
theorem run_dirWalk (g : fs.Geometry) {goesOn : Nat → Bool} (visit : Nat → α → Nat → Entry → α ⊕ β)
    (leave : Nat → α → α) (a : α) (chain : IsChain goesOn (fs.view m).fat c cs) (range : ∀ x ∈ cs, fs.InRange x)
    (enough : cs.length < fuel) :
    (fs.dirWalk goesOn visit leave c a).run fuel m = .ok (scanDir visit leave (fs.view m) fs.entries cs a) m := by
  rw [dirWalk, run_loop]
  -- the rounds follow the chain; the bound only has to outlast it
  generalize hn : fuel = n at enough
  nth_rewrite 2 [← hn]
  clear hn
  induction cs generalizing c a n with
  | nil =>
    rcases n with _ | k
    · simp at enough
    apply run_loopN_exit
    rw [if_neg (by simpa [Lib.IsChain] using chain)]
    rfl
  | cons x xs ih =>
    rcases n with _ | k
    · simp at enough
    have hx : x = c := chain.1
    subst hx
    have hr := range x mem_cons_self
    have scan : scanEntries (visit x) (fs.clusterBuf m x) (List.range fs.entries) a =
        scanEntries (visit x) ((fs.view m).data x) (List.range fs.entries) a :=
      scanEntries_congr _ _ _ fun i hi => slot_view g hr (mem_range.mp hi)
    rw [scanDir]
    cases hs : scanEntries (visit x) ((fs.view m).data x) (List.range fs.entries) a with
    | inr b =>
      apply run_loopN_exit
      simp only [chain.2.1, if_true]
      rw [run_bind_ok (run_readCluster g hr), scan, hs]
      rfl
    | inl a' =>
      refine (run_loopN_next (show _ = Outcome.ok (Sum.inl ((fs.view m).fat x, leave x a')) m from ?_) k).trans ?_
      · simp only [chain.2.1, if_true]
        rw [run_bind_ok (run_readCluster g hr), scan, hs]
        simp only
        rw [run_bind_ok (run_readFatEntry g hr)]
        rfl
      exact ih _ chain.2.2 (fun y hy => range y (mem_cons_of_mem _ hy)) k
        (by simp at enough; omega)

/-- A walk that only looks for a deciding entry is a search in the list of slots. -/
theorem scanDir_decide {visit : Nat → α → Nat → Entry → α ⊕ β} (leave : Nat → α → α)
    (decide : Nat × Nat → Entry → Option β) (hv : ∀ c a i e, visit c a i e = decided a (decide (c, i) e))
    (cs : List Nat) (a : α) : scanDir visit leave v fs.entries cs a = decided (cs.foldl (fun a c => leave c a) a)
        ((fs.locs cs).findSome? fun l => decide l (v.slotAt l)) := by
  have inside : ∀ (c : Nat) (is : List Nat) (a : α), scanEntries (visit c) (v.data c) is a =
        decided a ((is.map fun i => (c, i)).findSome? fun l => decide l (v.slotAt l)) := by
    intro c is
    induction is with
    | nil => intro a; rfl
    | cons i is ih =>
      intro a
      rw [scanEntries, hv, map_cons, findSome?_cons]
      have same : entryAt (v.data c) i = v.slotAt (c, i) := rfl
      rw [same]
      cases decide (c, i) (v.slotAt (c, i)) with
      | some b => rfl
      | none => exact ih a
  induction cs generalizing a with
  | nil => rfl
  | cons c cs ih =>
    rw [scanDir, inside, locs, flatMap_cons, findSome?_append]
    cases ((List.range fs.entries).map fun i => (c, i)).findSome? fun l =>
        decide l (v.slotAt l) with
    | some b => rfl
    | none => exact ih _

/-! ## Looking a name up -/

/-- The location of the live entry with this name, as `dir_find` would report it. -/
def lookup (fs : Fat32) (v : Vol) (cs : List Nat) (n : Name) : Option (Nat × Nat) :=
  (fs.locs cs).find? fun l => (v.slotAt l).live && decide ((v.slotAt l).name = n)

theorem not_live_of_isEnd {e : Entry} (h : e.isEnd = true) : e.live = false := by
  simp only [Entry.live, h, Bool.not_true, Bool.false_and]

/-- What `dir_find` decides at an entry. -/
def dirFindDecide (t : Name) (l : Nat × Nat) (e : Entry) : Option (Option (Entry × Nat × Nat)) :=
  if e.isEnd then some none
  else if e.live && decide (e.name = t) then some (some (e, l.1, l.2))
  else none

theorem dirFindVisit_eq (t : Name) (c : Nat) (a : Unit) (i : Nat) (e : Entry) :
    dirFindVisit t c a i e = decided a (dirFindDecide t (c, i) e) := by
  unfold dirFindVisit dirFindDecide Entry.live
  cases e.isEnd <;> cases e.isDeleted <;> cases e.isLfn <;> cases e.isVolumeId <;> by_cases e.name = t <;>
    simp [*, decided]

/-- What a search for a name among the entries that pass a filter decides at an entry. -/
def findDecide (keep : Entry → Bool) (t : Name) (l : Nat × Nat) (e : Entry) : Option (Option (Entry × Nat × Nat)) :=
  if e.isEnd then some none
  else if keep e && decide (e.name = t) then some (some (e, l.1, l.2))
  else none

/-- Such a search ends at the end of the directory, where nothing passes the filter any more. -/
theorem findSome?_findDecide {keep : Entry → Bool}
    (drops : ∀ {e : Entry}, e.isEnd = true → keep e = false) (t : Name) : ∀ (ls : List (Nat × Nat)),
    ls.Pairwise (fun a b => (v.slotAt a).isEnd = true → (v.slotAt b).isEnd = true) →
    (ls.findSome? fun l => findDecide keep t l (v.slotAt l)).getD none =
      (ls.find? fun l => keep (v.slotAt l) && decide ((v.slotAt l).name = t)).map
        fun l => (v.slotAt l, l.1, l.2)
  | [], _ => rfl
  | l :: ls, h => by
    obtain ⟨later, rest⟩ := pairwise_cons.mp h
    rw [findSome?_cons, find?_cons]
    by_cases hend : (v.slotAt l).isEnd = true
    · have none' : ls.find? (fun l => keep (v.slotAt l) && decide ((v.slotAt l).name = t)) = none := by
        apply find?_eq_none.mpr
        intro x hx
        simp only [drops (later x hx hend), Bool.false_and, Bool.false_eq_true, not_false_eq_true]
      simp only [findDecide, hend, if_true, drops hend, Bool.false_and, none', getD_some, map_none]
    · simp only [findDecide, hend, Bool.false_eq_true, if_false]
      by_cases hit : keep (v.slotAt l) = true ∧ (v.slotAt l).name = t
      · simp only [hit.1, hit.2, decide_true, Bool.and_self, if_true, getD_some, map_some]
      · have miss : (keep (v.slotAt l) && decide ((v.slotAt l).name = t)) = false := by
          simpa only [Bool.and_eq_false_iff, decide_eq_false_iff_not, not_and_or, Bool.not_eq_true] using hit
        simp only [miss, Bool.false_eq_true, if_false]
        exact findSome?_findDecide drops t ls rest

/-- **`dir_find` answers with the live entry of that name.** -/
theorem run_dirFind (g : fs.Geometry) (chain : Vol.HasChain fs (fs.view m) c cs) (term : (fs.view m).Terminated fs cs)
    (t : Name) (enough : cs.length < fuel) : (fs.dirFind c t).run fuel m =
      .ok ((fs.lookup (fs.view m) cs t).map fun l => ((fs.view m).slotAt l, l.1, l.2)) m := by
  rw [dirFind, run_bind_ok (run_fitsBuffer g), run_bind_ok (run_dirWalk g _ _ _ chain.isChain chain.inRange enough),
    scanDir_decide _ (dirFindDecide t) (dirFindVisit_eq t)]
  have found := findSome?_findDecide (v := fs.view m) not_live_of_isEnd t (fs.locs cs) term
  have same : dirFindDecide t = findDecide Entry.live t := rfl
  rw [lookup, ← found, same]
  cases (fs.locs cs).findSome? fun l => findDecide Entry.live t l ((fs.view m).slotAt l) with
  | none => rfl
  | some r => rfl

theorem lookup_eq_some (t : Name) {l : Nat × Nat} (h : fs.lookup v cs t = some l) :
    l ∈ fs.locs cs ∧ (v.slotAt l).live = true ∧ (v.slotAt l).name = t := by
  have hit := find?_some h
  rw [Bool.and_eq_true, decide_eq_true_eq] at hit
  exact ⟨mem_of_find?_eq_some h, hit⟩

end Fat32

end CanBoot
