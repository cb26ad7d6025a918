import CanBoot.Fs.Fat32.Path
import CanBoot.Laws.Fat32.Names
import CanBoot.Laws.Fat32.Entries
import CanBoot.Laws.Fat32.Moves

/-!
# Paths, resolved

On a volume that is laid out, `resolve_dir` walks the tree: it answers with the directory at the
packed names of the path, and fails where there is none (`run_resolveDir`). `resolve_entry` finds
the entry of the object there. Both leave the medium as it was, and both answer as soon as the
loops may run over all clusters of the volume.
-/

namespace CanBoot

open Lib Lib.Prog List Option

/-- The directory an object is, if it is one. -/
def Obj.asDir : Obj → Option Nat
  | dir c => some c
  | file _ _ => none

variable {fs : Fat32} {m : Media} {fuel : Nat} {T : Objs} {K : Chains} {top : Obj} {v : Vol}

theorem Fat32.isLink_to83 (fs : Fat32) (dc : Nat) (s : Bytes) : fs.isLink dc (to83 s) = false := by
  simp [isLink, to83_ne_dotName, to83_ne_dotdotName]

namespace Vol.Layout

open Fat32

variable {p : List Name} {dc : Nat}

/-- Below a directory the tree has what a lookup in it has. -/
theorem at_snoc (h : v.Layout fs top T K) {t : Name} (hp : T p = some (.dir dc)) (nolink : fs.isLink dc t = false) :
    T (p ++ [t]) = (fs.lookup v (K p) t).map fun l => (v.slotAt l).obj := by
  rw [h.step t hp]
  simp only [childIn, nolink, Bool.false_eq_true, if_false]

/-- A file has nothing below it. -/
theorem below_file (h : v.Layout fs top T K) {q : List Name} {c n : Nat}
    (hp : T p = some (.file c n)) (hq : q ≠ []) : T (p ++ q) = none := by
  cases q with
  | nil => exact absurd rfl hq
  | cons t q =>
    have child : T (p ++ [t]) = none := h.step t hp
    have split : p ++ t :: q = p ++ [t] ++ q := by simp
    rw [split]
    exact h.none_below child (List.prefix_append _ _)

theorem length_lt (h : v.Layout fs top T K) {x : Obj} (hp : T p = some x)
    (enough : fs.totalClusters < fuel) : (K p).length < fuel :=
  Nat.lt_of_le_of_lt (h.chain hp).length_le enough

section

variable (g : fs.Geometry)

include g

theorem run_dirFind (h : (fs.view m).Layout fs top T K) (hp : T p = some (.dir dc)) (enough : fs.totalClusters < fuel)
    (t : Name) : (fs.dirFind dc t).run fuel m =
      .ok ((fs.lookup (fs.view m) (K p) t).map fun l => ((fs.view m).slotAt l, l.1, l.2)) m :=
  Fat32.run_dirFind g (h.chain hp) (h.dir hp).terminated t (h.length_lt hp enough)

theorem run_resolveStep (h : (fs.view m).Layout fs top T K) (hp : T p = some (.dir dc))
    (enough : fs.totalClusters < fuel) (s : Bytes) :
    (fs.resolveStep s dc).run fuel m = .ofOption m ((T (p ++ [to83 s])).bind Obj.asDir) := by
  rw [resolveStep, run_bind_ok (h.run_dirFind g hp enough _)]
  have tree := h.at_snoc hp (isLink_to83 fs dc s)
  cases found : fs.lookup (fs.view m) (K p) (to83 s) with
  | none =>
    rw [found] at tree
    rw [tree]
    rfl
  | some l =>
    rw [found, map_some] at tree
    rw [tree]
    simp only [map_some]
    cases isDir : ((fs.view m).slotAt l).isDir with
    | false =>
      rw [bind_require_false rfl, Entry.obj_file isDir]
      rfl
    | true =>
      have obj := Entry.obj_dir isDir
      rw [obj] at tree
      -- a directory of the tree has a cluster, so its first cluster is not 0
      have first : isCluster ((fs.view m).slotAt l).firstCluster = true :=
        (h.chain tree).isChain.live_of_mem (h.mem_first tree)
      have nonzero : ((fs.view m).slotAt l).firstCluster ≠ 0 := by
        intro zero
        rw [zero] at first
        exact absurd first (by decide)
      rw [bind_require_true rfl, if_neg nonzero, obj]
      rfl

section

variable (h : (fs.view m).Layout fs (.dir fs.rootCluster) T K) (enough : fs.totalClusters < fuel)
  (path : Bytes)

include h enough

/-- **`resolve_dir` answers with the directory at the path.** -/
theorem run_resolveDir : (fs.resolveDir path).run fuel m = .ofOption m ((T (dirNames path)).bind Obj.asDir) := by
  have walk : ∀ (comps : List Bytes) (p : List Name) (dc : Nat), T p = some (.dir dc) →
      (Prog.forAcc fs.resolveStep comps dc).run fuel m = .ofOption m ((T (p ++ comps.map to83)).bind Obj.asDir) := by
    intro comps
    induction comps with
    | nil =>
      intro p dc hp
      rw [map_nil, append_nil, hp]
      rfl
    | cons s comps ih =>
      intro p dc hp
      have split : p ++ (s :: comps).map to83 = p ++ [to83 s] ++ comps.map to83 := by simp
      have round := h.run_resolveStep g hp enough s
      rw [Prog.forAcc, split]
      cases hs : T (p ++ [to83 s]) with
      | none =>
        rw [hs] at round
        rw [run_bind_err round, h.none_below hs (List.prefix_append _ _)]
        rfl
      | some x =>
        rw [hs] at round
        cases x with
        | dir dc' =>
          rw [run_bind_ok round]
          exact ih _ _ hs
        | file c n =>
          rw [run_bind_err round]
          by_cases hc : comps.map to83 = []
          · rw [hc, append_nil, hs]
            rfl
          · rw [h.below_file hs hc]
            rfl
  exact walk (components path) [] fs.rootCluster h.start

/-! ## The calls' first lines -/

/-- The parent of a path resolves, or the call fails here. -/
theorem resolveParent_cases :
    ((fs.resolveParent path).run fuel m = .err m ∧ ∀ p t, target path = some (p, t) → ∀ dc, T p ≠ some (.dir dc)) ∨
    ∃ p t dc, target path = some (p, t) ∧ T p = some (.dir dc) ∧ fs.isLink dc t = false ∧
      (fs.resolveParent path).run fuel m = .ok (dc, t) m := by
  unfold resolveParent target
  cases split : splitLast path 256 16 with
  | none =>
    left
    exact ⟨rfl, fun p t ht => by cases ht⟩
  | some s =>
    obtain ⟨parent, leaf⟩ := s
    have resolve := h.run_resolveDir g enough parent
    cases hp : T (dirNames parent) with
    | none =>
      rw [hp] at resolve
      left
      refine ⟨run_bind_err resolve _, fun p t ht dc => ?_⟩
      obtain ⟨rfl, rfl⟩ := Prod.mk.inj (Option.some.inj ht)
      rw [hp]
      exact nofun
    | some x =>
      rw [hp] at resolve
      cases x with
      | file c n =>
        left
        refine ⟨run_bind_err resolve _, fun p t ht dc => ?_⟩
        obtain ⟨rfl, rfl⟩ := Prod.mk.inj (Option.some.inj ht)
        rw [hp]
        exact nofun
      | dir dc =>
        right
        exact ⟨_, _, dc, rfl, hp, isLink_to83 fs dc leaf, run_bind_ok resolve _⟩

/-- The entry of a path is found, or the call fails here. -/
theorem resolveFound_cases :
    ((fs.resolveFound path).run fuel m = .err m ∧ ∀ p t, target path = some (p, t) → T (p ++ [t]) = none) ∨
    ∃ p t dc l, target path = some (p, t) ∧ T p = some (.dir dc) ∧ fs.isLink dc t = false ∧
      fs.lookup (fs.view m) (K p) t = some l ∧ T (p ++ [t]) = some ((fs.view m).slotAt l).obj ∧
      (fs.resolveFound path).run fuel m = .ok ((fs.view m).slotAt l, l.1, l.2) m := by
  rcases h.resolveParent_cases g enough path with ⟨fails, none'⟩ | ⟨p, t, dc, ht, hp, nolink, run⟩
  · left
    refine ⟨run_bind_err (run_bind_err fails _) _, fun p t ht => ?_⟩
    cases hp : T p with
    | none => exact h.gap t hp
    | some x =>
      cases x with
      | dir dc => exact absurd hp (none' p t ht dc)
      | file c n => exact h.below_file hp (by simp)
  · have find := h.run_dirFind g hp enough t
    have tree := h.at_snoc hp nolink
    have entry : (fs.resolveEntry path).run fuel m = _ := (run_bind_ok run _).trans find
    cases found : fs.lookup (fs.view m) (K p) t with
    | none =>
      rw [found] at entry tree
      left
      refine ⟨run_bind_ok entry _, fun p' t' ht' => ?_⟩
      obtain ⟨rfl, rfl⟩ := Prod.mk.inj (Option.some.inj (ht.symm.trans ht'))
      exact tree
    | some l =>
      rw [found] at entry tree
      right
      exact ⟨p, t, dc, l, ht, hp, nolink, found, tree, run_bind_ok entry _⟩

end

/-- `dir_find(..) == 1` fails a call exactly when the name is there. -/
theorem run_requireAbsent (h : (fs.view m).Layout fs top T K) 
    {t : Name} (hp : T p = some (.dir dc)) (nolink : fs.isLink dc t = false)
    (enough : fs.totalClusters < fuel) :
    (fs.requireAbsent dc t).run fuel m = if T (p ++ [t]) = none then .ok () m else .err m := by
  have find := run_attempt_ok (h.run_dirFind g hp enough t)
  have tree := h.at_snoc hp nolink
  rw [requireAbsent, run_bind_ok find]
  cases found : fs.lookup (fs.view m) (K p) t with
  | none =>
    rw [found, map_none] at tree
    rw [if_pos tree]
    rfl
  | some l =>
    rw [found, map_some] at tree
    rw [if_neg (by rw [tree]; exact nofun)]
    rfl

/-! ## Reading a file -/

/-- The bytes of a file of the tree. -/
theorem run_readEntry (h : (fs.view m).Layout fs top T K) 
    {e : Entry} (hp : T p = some e.obj) (isFile : e.isDir = false) (buf : Buf) {n : Nat}
    (word : min e.size n + fs.bytesPerCluster ≤ 4294967296) (enough : fs.totalClusters < fuel) :
    (fs.readEntry e buf n).run fuel m = .ok
      { ret := toInt32 (min e.size n)
        buf := putBytes buf 0 (((fs.view m).chainBytes fs (K p)).take (min e.size n))
        size := e.size } m := by
  have chain := h.chain hp
  rw [Entry.first_obj] at chain
  have fits := h.fits hp
  rw [Entry.obj_file isFile] at fits
  have all : min (min e.size n) ((K p).length * fs.bytesPerCluster) = min e.size n := by
    have : e.size ≤ (K p).length * fs.bytesPerCluster := fits
    omega
  rw [readEntry, run_bind_ok (run_fitsBuffer g),
    run_bind_ok (run_readChain g chain.isChain chain.inRange word buf (h.length_lt hp enough)), all]
  rfl

end

end Vol.Layout

end CanBoot
