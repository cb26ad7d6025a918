import CanBoot.Spec.FileTree
import CanBoot.Laws.Fat32.Resolve

/-!
# What a volume holds

The content of a volume is a tree of directories and byte strings (`tree`): what the path engine is
for, without clusters. `Tight` is what a volume written by the engine alone keeps on top of its
layout: no cluster is marked that no object owns, files have exactly the clusters they need, `..`
holds the parent, the copies of the table agree, and only links have the names of links.
-/

namespace CanBoot

open Lib Option

/-- The content of an object whose chain is known. -/
def Obj.node (fs : Fat32) (v : Vol) (cs : List Nat) : Obj → Node
  | dir _ => .dir
  | file _ size => .file ((v.chainBytes fs cs).take size)

/-- **The content of a volume**, path by path. -/
def Fat32.tree (fs : Fat32) (v : Vol) : FileTree Name := fun p =>
  (fs.objAt v p).map fun x => x.node fs v (v.chain fs x.first)

/-- The clusters a length takes up. -/
def Fat32.clustersFor (fs : Fat32) (n : Nat) : Nat :=
  (n + fs.bytesPerCluster - 1) / fs.bytesPerCluster

namespace Vol

/-- The whole volume is laid out. -/
abbrev Laid (fs : Fat32) (v : Vol) (T : List Name → Option Obj) (K : List Name → List Nat) : Prop :=
  v.Layout fs (.dir fs.rootCluster) T K

/-- The cluster a `..` entry holds for its parent: 0 for the root. -/
def parentCluster (fs : Fat32) (pc : Nat) : Nat := if pc = fs.rootCluster then 0 else pc

/-- No cluster is marked that no object owns. -/
abbrev Cover (fs : Fat32) (v : Vol) (T : List Name → Option Obj) (K : List Name → List Nat) : Prop :=
  ∀ c, fs.InRange c → v.fat c ≠ 0 → ∃ p x, T p = some x ∧ c ∈ K p

/-- Every marked cluster is on the chain of one object. -/
def Covered (fs : Fat32) (v : Vol) : Prop :=
  ∀ c, fs.InRange c → v.fat c ≠ 0 → ∃! p, c ∈ v.chainAt fs p

/-- Nothing is marked, sized or linked beyond what the tree needs. -/
structure Tight (fs : Fat32) (v : Vol) (T : List Name → Option Obj) (K : List Name → List Nat) : Prop where
  cover : v.Cover fs T K
  exact : ∀ {p c n}, T p = some (.file c n) → (K p).length = fs.clustersFor n ∧ (n = 0 → c = 0)
  dotdot : ∀ {p t pc dc}, T p = some (.dir pc) → T (p ++ [t]) = some (.dir dc) →
    (v.slot dc 1).firstCluster = parentCluster fs pc
  copies : ∀ k c, v.fats k c = v.fats 0 c
  plain : ∀ {p n x}, T (p ++ [n]) = some x → isDotName n = false

variable {fs : Fat32} {v v' : Vol} {T : Objs} {K : Chains}

/-- A path that has a cluster has an object. -/
theorem of_mem_chainAt {p : List Name} {c : Nat} (hc : c ∈ v.chainAt fs p) : ∃ x, fs.objAt v p = some x := by
  unfold chainAt at hc
  cases hp : fs.objAt v p with
  | none => rw [hp] at hc; cases hc
  | some x => exact ⟨x, rfl⟩

theorem Layout.mem_chainAt (h : v.Laid fs T K) {p : List Name} {c : Nat} :
    c ∈ v.chainAt fs p ↔ ∃ x, T p = some x ∧ c ∈ K p := by
  refine ⟨fun hc => ?_, fun ⟨x, hp, hc⟩ => by rwa [h.chainAt_eq hp]⟩
  obtain ⟨x, hx⟩ := of_mem_chainAt hc
  rw [h.objAt_eq] at hx
  exact ⟨x, hx, by rwa [h.chainAt_eq hx] at hc⟩

/-- Owners are unique in a layout. -/
theorem Layout.covered_iff (h : v.Laid fs T K) : v.Covered fs ↔ v.Cover fs T K := by
  refine forall_congr' fun c => imp_congr_right fun _ => imp_congr_right fun _ => ?_
  simp only [h.mem_chainAt]
  exact ⟨fun ⟨p, ⟨x, hp⟩, _⟩ => ⟨p, x, hp⟩, fun ⟨p, x, hp, hc⟩ =>
    ⟨p, ⟨x, hp, hc⟩, fun q ⟨y, hq, hc'⟩ => h.disjoint hq hp hc' hc⟩⟩

theorem Layout.tree_eq (h : v.Laid fs T K) (p : List Name) : fs.tree v p = (T p).map fun x => x.node fs v (K p) := by
  rw [Fat32.tree, h.objAt_eq]
  cases hp : T p with
  | none => rfl
  | some x =>
    rw [map_some, map_some, h.chain_eq hp]

/-- The content at a path stands when the file there does. -/
theorem Layout.tree_congr {T' : Objs} {K' : Chains} (h : v.Laid fs T K) (h' : v'.Laid fs T' K') {p : List Name}
    (same : T' p = T p) (bytes : ∀ {c n}, T p = some (.file c n) → v'.chainBytes fs (K' p) = v.chainBytes fs (K p))
    : fs.tree v' p = fs.tree v p := by
  rw [h.tree_eq, h'.tree_eq, same]
  cases hp : T p with
  | none => rfl
  | some x =>
    cases x with
    | dir dc => rfl
    | file c n =>
      rw [map_some, map_some, Obj.node, Obj.node, bytes hp]

/-! ## Updates that pass each other -/

theorem setSlot_setSlot (v : Vol) (c i : Nat) (e e' : Entry) : (v.setSlot c i e).setSlot c i e' = v.setSlot c i e' := by
  apply Vol.ext
  · rfl
  · funext x
    simp only [setSlot]
    by_cases hx : x = c
    · rw [if_pos hx, if_pos hx, if_pos trivial]
      funext o
      simp only [putEntry]
      split <;> rfl
    · rw [if_neg hx, if_neg hx, if_neg hx]
  · rfl

theorem setSlot_slot (v : Vol) (c i : Nat) : v.setSlot c i (v.slot c i) = v := by
  apply Vol.ext
  · rfl
  · funext x
    simp only [setSlot]
    by_cases hx : x = c
    · rw [if_pos hx, hx]
      funext o
      simp only [putEntry, slot, entryAt]
      split
      · next inside => congr 1; omega
      · rfl
    · rw [if_neg hx]
  · rfl

theorem setSlot_comm (v : Vol) {c i c' i' : Nat} (e e' : Entry) (hne : (c, i) ≠ (c', i')) :
    (v.setSlot c i e).setSlot c' i' e' = (v.setSlot c' i' e').setSlot c i e := by
  apply Vol.ext
  · rfl
  · funext x
    simp only [setSlot]
    by_cases hx : x = c <;> by_cases hx' : x = c'
    · subst hx
      subst hx'
      have hi : i ≠ i' := fun h => hne (by rw [h])
      simp only [if_true]
      funext o
      simp only [putEntry]
      split
      · rw [dif_neg (by omega)]
      · rfl
    · subst hx
      simp only [hx', if_true, if_false]
    · subst hx'
      simp only [hx, if_true, if_false]
    · simp only [hx, hx', if_false]
  · rfl

theorem setData_setSlot (v : Vol) {c c' i : Nat} (b : Buf) (e : Entry) (hne : c' ≠ c) :
    (v.setSlot c' i e).setData fs c b = (v.setData fs c b).setSlot c' i e := by
  apply Vol.ext
  · rfl
  · funext x o
    simp only [setSlot, setData]
    by_cases hx : x = c
    · subst hx
      simp only [if_true, if_neg hne.symm]
    · by_cases hx' : x = c'
      · rw [if_neg hx, if_pos hx', if_pos hx']
        congr 1
        funext o'
        rw [if_neg hne]
      · rw [if_neg hx, if_neg hx', if_neg hx', if_neg hx]
  · rfl

theorem stored_setSlot (fs : Fat32) : ∀ {cs : List Nat} (v : Vol) {c i : Nat} (e : Entry)
    (src : Bytes), c ∉ cs →
    (v.setSlot c i e).stored fs cs src = (v.stored fs cs src).setSlot c i e
  | [], _, _, _, _, _, _ => rfl
  | x :: xs, v, c, i, e, src, hc => by
    have hx : c ≠ x := fun h => hc (h ▸ List.mem_cons_self)
    rw [stored, stored, setData_setSlot v _ e hx, stored_setSlot fs _ e _ fun h => hc (List.mem_cons_of_mem _ h)]

/-! ## The smallest layouts -/

/-- One object and nothing below it. -/
def only (x : Obj) : List Name → Option Obj := fun p => if p = [] then some x else none

theorem only_eq_some {x y : Obj} {p : List Name} : only x p = some y ↔ p = [] ∧ x = y := by
  unfold only
  split <;> simp_all

/-- An object without children. -/
theorem layout_only {x : Obj} {cs : List Nat} (chain : v.HasChain fs x.first cs)
    (fits : x.Fits fs cs) (order : ∀ dc, x = .dir dc → v.DirOK fs dc cs)
    (empty : ∀ n, fs.childIn v x cs n = none) : v.Layout fs x (only x) fun _ => cs where
  start := rfl
  chain hp := by
    obtain ⟨_, rfl⟩ := only_eq_some.mp hp
    exact chain
  fits hp := by
    obtain ⟨_, rfl⟩ := only_eq_some.mp hp
    exact fits
  disjoint hp hq _ _ := by rw [(only_eq_some.mp hp).1, (only_eq_some.mp hq).1]
  dir {p dc} hp := by
    obtain ⟨_, rfl⟩ := only_eq_some.mp hp
    exact order dc rfl
  step n hp := by
    obtain ⟨_, rfl⟩ := only_eq_some.mp hp
    rw [empty, only, if_neg (by simp)]
  gap n _ := by rw [only, if_neg (by simp)]

end Vol

end CanBoot
