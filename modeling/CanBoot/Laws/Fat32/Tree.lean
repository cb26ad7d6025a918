import CanBoot.Lib.Walk
import CanBoot.Laws.Fat32.Data

/-!
# The tree on a volume

A directory entry denotes an object: a directory, or a file of some size, each by its first
cluster. `child` is the object a directory holds under a name, and `objAt` the object at a path of
names. The `.` and `..` of a directory other than the root are links, not children.

`Layout` is the invariant of a volume, as a relation between the volume and the tree on it: which
object stands at each path (`T`) and which clusters it owns (`K`). Every object's chain runs through
the volume and ends in a mark, a file's is long enough for its size, no two paths own a common
cluster, and the names in each directory are unique and stand before its end. Nothing is said of
long-name and volume-label entries, which no lookup reports. A layout determines its tree
(`Layout.objAt_eq`), so a volume is well formed in one way only.
-/

namespace CanBoot

open Lib List Option

/-- What an entry denotes. -/
inductive Obj where
  | dir (first : Nat)
  | file (first size : Nat)
  deriving DecidableEq

namespace Obj

def first : Obj → Nat
  | dir c => c
  | file c _ => c

/-- The chain is long enough: a directory has a cluster, a file has room for its size. -/
def Fits (fs : Fat32) (cs : List Nat) : Obj → Prop
  | dir _ => cs ≠ []
  | file _ size => size ≤ cs.length * fs.bytesPerCluster

end Obj

namespace Entry

def obj (e : Entry) : Obj := if e.isDir then .dir e.firstCluster else .file e.firstCluster e.size

/-- A `.` or `..` entry. -/
structure Link (e : Entry) (n : Name) : Prop where
  live : e.live = true
  isDir : e.isDir = true
  name : e.name = n

theorem obj_dir {e : Entry} (h : e.isDir = true) : e.obj = .dir e.firstCluster := if_pos h

theorem obj_file {e : Entry} (h : e.isDir = false) : e.obj = .file e.firstCluster e.size := by
  rw [obj, h]
  rfl

theorem first_obj (e : Entry) : e.obj.first = e.firstCluster := by
  unfold obj
  split <;> rfl

end Entry

namespace Fat32

/-- Is this the name of a link in the directory at this cluster? -/
def isLink (fs : Fat32) (dc : Nat) (n : Name) : Bool :=
  dc ≠ fs.rootCluster && (n = dotName || n = dotdotName)

/-- The child of an object under a name, when its chain is known. -/
def childIn (fs : Fat32) (v : Vol) (x : Obj) (cs : List Nat) (n : Name) : Option Obj :=
  match x with
  | .file _ _ => none
  | .dir dc => if fs.isLink dc n then none else (fs.lookup v cs n).map fun l => (v.slotAt l).obj

/-- The child of an object under a name. -/
def child (fs : Fat32) (v : Vol) (x : Obj) (n : Name) : Option Obj :=
  fs.childIn v x (v.chain fs x.first) n

/-- The object at a path of names. -/
def objAt (fs : Fat32) (v : Vol) (p : List Name) : Option Obj :=
  walk (fs.child v) (.dir fs.rootCluster) p

end Fat32

/-- The object at each path. -/
abbrev Objs := List Name → Option Obj

/-- The clusters each path owns. -/
abbrev Chains := List Name → List Nat

namespace Vol

/-- The slots of a directory are in order. -/
structure DirOK (fs : Fat32) (v : Vol) (dc : Nat) (cs : List Nat) : Prop where
  terminated : v.Terminated fs cs
  unique : ∀ l ∈ fs.locs cs, ∀ l' ∈ fs.locs cs, (v.slotAt l).live = true →
    (v.slotAt l').live = true → (v.slotAt l).name = (v.slotAt l').name → l = l'
  links : dc ≠ fs.rootCluster → (v.slot dc 0).Link dotName ∧ (v.slot dc 1).Link dotdotName

/-- The tree below an object: `T` gives the object at each path, `K` the clusters it owns. -/
structure Layout (fs : Fat32) (v : Vol) (top : Obj) (T : List Name → Option Obj)
    (K : List Name → List Nat) : Prop where
  start : T [] = some top
  chain : ∀ {p x}, T p = some x → v.HasChain fs x.first (K p)
  fits : ∀ {p x}, T p = some x → x.Fits fs (K p)
  disjoint : ∀ {p q x y c}, T p = some x → T q = some y → c ∈ K p → c ∈ K q → p = q
  dir : ∀ {p dc}, T p = some (.dir dc) → v.DirOK fs dc (K p)
  step : ∀ {p x} (n : Name), T p = some x → T (p ++ [n]) = fs.childIn v x (K p) n
  gap : ∀ {p} (n : Name), T p = none → T (p ++ [n]) = none

/-- The chain of the object at a path. -/
def chainAt (fs : Fat32) (v : Vol) (p : List Name) : List Nat :=
  match fs.objAt v p with
  | some x => v.chain fs x.first
  | none => []

/-- A well-formed volume: what stands at its paths is laid out in order. -/
def WellFormed (fs : Fat32) (v : Vol) : Prop :=
  v.Layout fs (.dir fs.rootCluster) (fs.objAt v) (v.chainAt fs)

end Vol

variable {fs : Fat32} {v v' : Vol} {cs : List Nat}

/-! ## Lookups in a directory -/

namespace Fat32

theorem lookup_eq_none {n : Name} :
    fs.lookup v cs n = none ↔ ∀ l ∈ fs.locs cs, (v.slotAt l).live = true → (v.slotAt l).name ≠ n := by
  simp only [lookup, find?_eq_none, Bool.and_eq_true, decide_eq_true_eq, not_and, ne_eq]

/-- A search reads the slots of its directory only. -/
theorem find?_congr (keep : Entry → Bool) {ls : List (Nat × Nat)} (agree : ∀ l ∈ ls, v'.slotAt l = v.slotAt l) :
    (ls.find? fun l => keep (v'.slotAt l)) = ls.find? fun l => keep (v.slotAt l) := by
  induction ls with
  | nil => rfl
  | cons l ls ih =>
    rw [find?_cons, find?_cons, agree l mem_cons_self,
      ih fun a ha => agree a (mem_cons_of_mem _ ha)]

theorem lookup_congr (agree : ∀ l ∈ fs.locs cs, v'.slotAt l = v.slotAt l) (n : Name) :
    fs.lookup v' cs n = fs.lookup v cs n :=
  find?_congr (fun e => e.live && decide (e.name = n)) agree

theorem childIn_congr (agree : ∀ l ∈ fs.locs cs, v'.slotAt l = v.slotAt l) (x : Obj) (n : Name) :
    fs.childIn v' x cs n = fs.childIn v x cs n := by
  cases x with
  | file first size => rfl
  | dir dc =>
    simp only [childIn, lookup_congr agree]
    split
    · rfl
    · cases h : fs.lookup v cs n with
      | none => rfl
      | some l => simp only [map_some, agree l (lookup_eq_some n h).1]

/-- Clusters whose bytes stand have slots that stand. -/
theorem slotAt_congr (agree : ∀ c ∈ cs, v'.data c = v.data c) {l : Nat × Nat}
    (hl : l ∈ fs.locs cs) : v'.slotAt l = v.slotAt l := by
  rw [Vol.slotAt, Vol.slot, agree _ (mem_locs.mp hl).1]
  rfl

end Fat32

namespace Vol.DirOK

open Fat32

variable {dc : Nat}

/-- Where names are unique, a lookup is decided by any live entry of the name. -/
theorem lookup_iff (h : v.DirOK fs dc cs) {n : Name} {l : Nat × Nat} : fs.lookup v cs n = some l ↔
      l ∈ fs.locs cs ∧ (v.slotAt l).live = true ∧ (v.slotAt l).name = n := by
  constructor
  · exact lookup_eq_some n
  · rintro ⟨hl, live, name⟩
    cases found : fs.lookup v cs n with
    | none => exact absurd name (lookup_eq_none.mp found l hl live)
    | some l' =>
      obtain ⟨hl', live', name'⟩ := lookup_eq_some n found
      rw [h.unique l' hl' l hl live' live (name'.trans name.symm)]

theorem childIn_iff (h : v.DirOK fs dc cs) {n : Name} {x : Obj} : fs.childIn v (.dir dc) cs n = some x ↔
      fs.isLink dc n = false ∧ ∃ l ∈ fs.locs cs, (v.slotAt l).live = true ∧
        (v.slotAt l).name = n ∧ (v.slotAt l).obj = x := by
  simp only [childIn]
  by_cases hlink : fs.isLink dc n = true
  · simp [hlink]
  · rw [if_neg hlink, map_eq_some_iff]
    rw [Bool.not_eq_true] at hlink
    constructor
    · rintro ⟨l, found, obj⟩
      obtain ⟨hl, live, name⟩ := h.lookup_iff.mp found
      exact ⟨hlink, l, hl, live, name, obj⟩
    · rintro ⟨_, l, hl, live, name, obj⟩
      exact ⟨l, h.lookup_iff.mpr ⟨hl, live, name⟩, obj⟩

theorem congr (h : v.DirOK fs dc cs) (mem : dc ∈ cs) (pos : 2 ≤ fs.entries)
    (agree : ∀ l ∈ fs.locs cs, v'.slotAt l = v.slotAt l) : v'.DirOK fs dc cs where
  terminated := List.Pairwise.imp_of_mem (fun {a b} ha hb hab => by
    rw [agree a ha, agree b hb]
    exact hab) h.terminated
  unique l hl l' hl' live live' name := by
    rw [agree l hl] at live name
    rw [agree l' hl'] at live' name
    exact h.unique l hl l' hl' live live' name
  links hdc := by
    have first : v'.slot dc 0 = v.slot dc 0 :=
      agree (dc, 0) (mem_locs.mpr ⟨mem, by show 0 < fs.entries; omega⟩)
    have second : v'.slot dc 1 = v.slot dc 1 :=
      agree (dc, 1) (mem_locs.mpr ⟨mem, by show 1 < fs.entries; omega⟩)
    rw [first, second]
    exact h.links hdc

end Vol.DirOK

/-! ## A layout determines its tree -/

namespace Vol.Layout

open Fat32

variable {top : Obj} {T : Objs} {K : Chains}

theorem chain_eq (h : v.Layout fs top T K) {p : List Name} {x : Obj} (hp : T p = some x) :
    v.chain fs x.first = K p := (h.chain hp).chain_eq

theorem eq_walk (h : v.Layout fs top T K) : T = walk (fs.child v) top := by
  refine walk_unique h.start fun p n => ?_
  cases hp : T p with
  | none => exact h.gap n hp
  | some x =>
    rw [h.step n hp, bind_some, child, h.chain_eq hp]

/-- **The tree of a layout is the tree on the volume.** -/
theorem objAt_eq (h : v.Layout fs (.dir fs.rootCluster) T K) : fs.objAt v = T := h.eq_walk.symm

theorem chainAt_eq (h : v.Layout fs (.dir fs.rootCluster) T K) {p : List Name} {x : Obj}
    (hp : T p = some x) : v.chainAt fs p = K p := by
  rw [chainAt, h.objAt_eq, hp]
  exact h.chain_eq hp

/-- The clusters of a layout matter only at the paths that have an object. -/
theorem congr_chains (h : v.Layout fs top T K) {K' : Chains}
    (agree : ∀ {p x}, T p = some x → K' p = K p) : v.Layout fs top T K' where
  start := h.start
  chain hp := by rw [agree hp]; exact h.chain hp
  fits hp := by rw [agree hp]; exact h.fits hp
  disjoint hp hq := by rw [agree hp, agree hq]; exact h.disjoint hp hq
  dir hp := by rw [agree hp]; exact h.dir hp
  step n hp := by rw [agree hp]; exact h.step n hp
  gap := h.gap

theorem wellFormed (h : v.Layout fs (.dir fs.rootCluster) T K) : v.WellFormed fs := by
  unfold WellFormed
  rw [h.objAt_eq]
  exact h.congr_chains fun hp => h.chainAt_eq hp

theorem mem_first (h : v.Layout fs top T K) {p : List Name} {dc : Nat}
    (hp : T p = some (.dir dc)) : dc ∈ K p := (h.chain hp).head (h.fits hp)

/-- Only the empty path leads to the root. -/
theorem not_root (h : v.Layout fs (.dir fs.rootCluster) T K) {p : List Name} {dc : Nat}
    (hp : T p = some (.dir dc)) (hne : p ≠ []) : dc ≠ fs.rootCluster := by
  rintro rfl
  exact hne (h.disjoint hp h.start (h.mem_first hp) (h.mem_first h.start))

/-- Every step along a path that has an object has one. -/
theorem of_append (h : v.Layout fs top T K) {p q : List Name} {x : Obj}
    (hq : T (p ++ q) = some x) : ∃ y, T p = some y := by
  induction q using reverseRecOn generalizing x with
  | nil => exact ⟨x, by rwa [append_nil] at hq⟩
  | append_singleton q n ih =>
    rw [← append_assoc] at hq
    cases hp : T (p ++ q) with
    | none => rw [h.gap n hp] at hq; cases hq
    | some y => exact ih hp

/-- Nothing stands below a path without an object. -/
theorem none_below (h : v.Layout fs top T K) {p q : List Name} (hp : T p = none) (pre : p <+: q) : T q = none := by
  obtain ⟨r, rfl⟩ := pre
  cases hq : T (p ++ r) with
  | none => rfl
  | some x =>
    obtain ⟨y, hy⟩ := h.of_append hq
    rw [hp] at hy
    cases hy

end Vol.Layout

end CanBoot
