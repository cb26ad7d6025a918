import CanBoot.Laws.Fat32.Claim

/-!
# Removing a file or a directory

`canboot_fat32_unlink_path` and `canboot_fat32_rmdir` end alike: the object's chain is freed and its
entry marked deleted. What stands at or below the path is gone from the tree, and nothing else is
(`tree_removed`). `rmdir` goes that far only for a directory in which `dir_is_empty` saw no entry
but dot entries, so nothing with another name stood below it (`run_dirIsEmpty`).
-/

namespace CanBoot

open Lib Lib.Prog List Fat32

variable {fs : Fat32} {v : Vol} {m : Media} {fuel : Nat} {T : Objs}
  {K : Chains} {p : List Name} {t : Name} {l : Nat × Nat}

namespace Fat32

/-- What `dir_is_empty` decides at an entry. -/
def dirIsEmptyDecide (_ : Nat × Nat) (e : Entry) : Option Bool :=
  if e.isEnd then some true
  else if e.isDeleted || e.isLfn || isDotName e.name then none
  else some false

theorem dirIsEmptyVisit_eq (c : Nat) (a : Unit) (i : Nat) (e : Entry) :
    dirIsEmptyVisit c a i e = decided a (dirIsEmptyDecide (c, i) e) := by
  unfold dirIsEmptyVisit dirIsEmptyDecide
  cases e.isEnd <;> cases e.isDeleted <;> cases e.isLfn <;> cases isDotName e.name <;> simp [decided]

/-- A directory found empty holds nothing live but dot entries. -/
theorem dot_of_empty : ∀ (ls : List (Nat × Nat)),
    ls.Pairwise (fun a b => (v.slotAt a).isEnd = true → (v.slotAt b).isEnd = true) →
    (ls.findSome? fun l => dirIsEmptyDecide l (v.slotAt l)).getD true = true →
    ∀ l ∈ ls, (v.slotAt l).live = true → isDotName (v.slotAt l).name = true
  | [], _, _, _, hl, _ => absurd hl (by simp)
  | a :: ls, order, empty, l, hl, live => by
    obtain ⟨later, rest⟩ := pairwise_cons.mp order
    rw [findSome?_cons] at empty
    by_cases hend : (v.slotAt a).isEnd = true
    · -- from the end on nothing is live
      have dead : (v.slotAt l).isEnd = true := by
        rcases mem_cons.mp hl with rfl | hl
        · exact hend
        · exact later l hl hend
      rw [not_live_of_isEnd dead] at live
      cases live
    · by_cases skip : ((v.slotAt a).isDeleted || (v.slotAt a).isLfn ||
          isDotName (v.slotAt a).name) = true
      · have go : dirIsEmptyDecide a (v.slotAt a) = none := by
          rw [dirIsEmptyDecide, if_neg hend, if_pos skip]
        rw [go] at empty
        rcases mem_cons.mp hl with rfl | hl
        · simp only [Entry.live, Bool.and_eq_true, Bool.not_eq_true'] at live
          simpa [live.1.1.2, live.1.2] using skip
        · exact dot_of_empty ls rest empty l hl live
      · have stop : dirIsEmptyDecide a (v.slotAt a) = some false := by
          rw [dirIsEmptyDecide, if_neg hend, if_neg skip]
        rw [stop] at empty
        cases empty

/-- **`dir_is_empty` answers**, and its yes can be trusted. -/
theorem run_dirIsEmpty (g : fs.Geometry) (fuel : Nat) {c : Nat} {cs : List Nat}
    (chain : Vol.HasChain fs (fs.view m) c cs) (term : (fs.view m).Terminated fs cs) (enough : cs.length < fuel) :
    ∃ b, (fs.dirIsEmpty c).run fuel m = .ok b m ∧ (b = true → ∀ l ∈ fs.locs cs, ((fs.view m).slotAt l).live = true →
        isDotName ((fs.view m).slotAt l).name = true) := by
  refine ⟨((fs.locs cs).findSome? fun l => dirIsEmptyDecide l ((fs.view m).slotAt l)).getD true,
    ?_, fun empty => dot_of_empty _ term empty⟩
  rw [dirIsEmpty, run_bind_ok (run_fitsBuffer g), run_bind_ok (run_dirWalk g _ _ _ chain.isChain chain.inRange enough),
    scanDir_decide _ dirIsEmptyDecide dirIsEmptyVisit_eq]
  cases (fs.locs cs).findSome? fun l => dirIsEmptyDecide l ((fs.view m).slotAt l) with
  | none => rfl
  | some b => rfl

end Fat32

namespace Vol

/-- The volume after an entry is marked deleted and its chain freed. -/
def removed (v : Vol) (cs : List Nat) (l : Nat × Nat) : Vol :=
  (v.freed cs).setSlot l.1 l.2 (v.slotAt l).markDeleted

/-- How `unlink_path` and `rmdir` got to their return of 0. -/
structure Removed (fs : Fat32) (v : Vol) (T : List Name → Option Obj) (K : List Name → List Nat)
    (p : List Name) (t : Name) (dc : Nat) (l : Nat × Nat) (x : Obj) : Prop where
  parent : T p = some (.dir dc)
  nolink : fs.isLink dc t = false
  found : fs.lookup v (K p) t = some l
  obj : T (p ++ [t]) = some x

namespace Removed

variable {dc : Nat} {x : Obj} (r : Removed fs v T K p t dc l x)

include r

theorem laid (g : fs.Geometry) (h : v.Laid fs T K) : (v.removed (K (p ++ [t])) l).Laid fs (prune (p ++ [t]) T) K :=
  h.laid_removed g r.parent r.nolink r.found r.obj

/-- **The tree after the removal is the old one without the path.** -/
theorem tree_eq (g : fs.Geometry) (h : v.Laid fs T K) :
    fs.tree (v.removed (K (p ++ [t])) l) = prune (p ++ [t]) (fs.tree v) := by
  have after := r.laid g h
  have hl := (lookup_eq_some t r.found).1
  funext q
  by_cases pre : p ++ [t] <+: q
  · rw [after.tree_eq, prune_below T pre, prune_below _ pre]
    rfl
  · rw [prune_outside _ pre]
    refine Layout.tree_congr h after (prune_outside T pre) fun {c n} hq => ?_
    have hqp : q ≠ p := by
      rintro rfl
      rw [r.parent] at hq
      cases hq
    exact chainBytes_congr fun y hy => h.setSlot_of_ne r.parent hl hq hqp hy _

theorem tight (h : v.Laid fs T K) (tight : v.Tight fs T K) (bare : ∀ q, q ≠ [] → T (p ++ [t] ++ q) = none) :
    (v.removed (K (p ++ [t])) l).Tight fs (prune (p ++ [t]) T) K where
  cover := Cover.removed tight.cover bare
  exact hq := tight.exact (prune_eq_some.mp hq).2
  dotdot {q s pc dc'} hq hs := by
    obtain ⟨_, hq⟩ := prune_eq_some.mp hq
    obtain ⟨_, hs⟩ := prune_eq_some.mp hs
    obtain ⟨hl, _, name⟩ := lookup_eq_some t r.found
    have hroot := h.not_root hs (by simp)
    have link := ((h.dir hs).links hroot).2
    -- the entry that went was no `..`
    have hne : (dc', 1) ≠ l := by
      rintro rfl
      have here : q ++ [s] = p :=
        h.disjoint hs r.parent (h.mem_first hs) (mem_locs.mp hl).1
      have same : Obj.dir dc' = .dir dc := by
        rw [here] at hs
        exact Option.some.inj (hs.symm.trans r.parent)
      cases same
      exact (isLink_eq_false r.nolink hroot).2 (name.symm.trans link.name)
    have keep : (v.removed (K (p ++ [t])) l).slot dc' 1 = v.slot dc' 1 :=
      (slotAt_setSlot (v.freed (K (p ++ [t]))) l (dc', 1) _).trans (if_neg hne)
    rw [keep]
    exact tight.dotdot hq hs
  copies k c := by
    show (if c ∈ K (p ++ [t]) then 0 else v.fats k c) = if c ∈ K (p ++ [t]) then 0 else v.fats 0 c
    rw [tight.copies k c]
  plain hq := tight.plain (prune_eq_some.mp hq).2

end Removed

/-! ## The calls -/

section

variable (g : fs.Geometry) (h : (fs.view m).Laid fs T K)

include g h

/-- The last two lines of both calls. -/
theorem Layout.run_remove {dc : Nat}
    (hp : T p = some (.dir dc)) (found : fs.lookup (fs.view m) (K p) t = some l)
    (tree : T (p ++ [t]) = some ((fs.view m).slotAt l).obj) (enough : fs.totalClusters < fuel) :
    ∃ m', (do fs.freeChain ((fs.view m).slotAt l).firstCluster
              fs.dirMarkDeleted l.1 l.2 : Prog Media Unit).run fuel m = .ok () m' ∧
      fs.view m' = (fs.view m).removed (K (p ++ [t])) l := by
  have chain := h.chain tree
  rw [Entry.first_obj] at chain
  have hl := mem_locs.mp (lookup_eq_some t found).1
  have range := (h.chain hp).inRange _ hl.1
  have view := view_freeAll g (m := m) chain.inRange
  refine ⟨_, (run_bind_ok (run_freeChain g chain.isChain chain.inRange
    (h.length_lt tree enough)) _).trans (run_dirMarkDeleted g range hl.2), ?_⟩
  rw [view_putSlot g range hl.2, view]
  rfl

/-- **The cases of `canboot_fat32_unlink_path`.** It fails with nothing written, or it has removed a
file. -/
theorem Layout.unlink_cases (enough : fs.totalClusters < fuel) (writable : fs.disk.writable = true) (path : Bytes) :
    (canbootFat32UnlinkPath fs path).run fuel m = .err m ∨
    ∃ p t dc l c n m', target path = some (p, t) ∧ Removed fs (fs.view m) T K p t dc l (.file c n) ∧
      (canbootFat32UnlinkPath fs path).run fuel m = .ok () m' ∧ fs.view m' = (fs.view m).removed (K (p ++ [t])) l := by
  rw [canbootFat32UnlinkPath, bind_require_true writable]
  rcases h.resolveFound_cases g enough path with
    ⟨fails, _⟩ | ⟨p, t, dc, l, ht, hp, nolink, found, tree, run⟩
  · exact Or.inl (run_bind_err fails _)
  rw [run_bind_ok run]
  simp only
  cases isDir : ((fs.view m).slotAt l).isDir with
  | true =>
    rw [Bool.not_true]
    exact Or.inl (bind_require_false rfl)
  | false =>
    rw [Bool.not_false, bind_require_true rfl]
    obtain ⟨m2, last, view⟩ := h.run_remove g hp found tree enough
    have here := tree.trans (congrArg some (Entry.obj_file isDir))
    exact Or.inr ⟨p, t, dc, l, _, _, m2, ht, ⟨hp, nolink, found, here⟩, last, view⟩

/-- **The cases of `canboot_fat32_rmdir`.** It fails with nothing written, or it has removed a
directory with nothing but dot entries in it. -/
theorem Layout.rmdir_cases (enough : fs.totalClusters < fuel) (writable : fs.disk.writable = true) (path : Bytes) :
    (canbootFat32Rmdir fs path).run fuel m = .err m ∨
    ∃ p t dc l c m', target path = some (p, t) ∧ Removed fs (fs.view m) T K p t dc l (.dir c) ∧
      (∀ n, isDotName n = false → T (p ++ [t] ++ [n]) = none) ∧ (canbootFat32Rmdir fs path).run fuel m = .ok () m' ∧
      fs.view m' = (fs.view m).removed (K (p ++ [t])) l := by
  rw [canbootFat32Rmdir, bind_require_true writable]
  rcases h.resolveFound_cases g enough path with
    ⟨fails, _⟩ | ⟨p, t, dc, l, ht, hp, nolink, found, tree, run⟩
  · exact Or.inl (run_bind_err fails _)
  rw [run_bind_ok run]
  simp only
  cases isDir : ((fs.view m).slotAt l).isDir with
  | false => exact Or.inl (bind_require_false rfl)
  | true =>
    rw [bind_require_true rfl]
    have here := tree.trans (congrArg some (Entry.obj_dir isDir))
    obtain ⟨b, empty, dots⟩ := Fat32.run_dirIsEmpty g fuel
      (c := ((fs.view m).slotAt l).firstCluster) (h.chain here)
      (h.dir here).terminated (h.length_lt here enough)
    rw [run_bind_ok empty]
    cases b with
    | false => exact Or.inl (bind_require_false rfl)
    | true =>
      rw [bind_require_true rfl]
      obtain ⟨m2, last, view⟩ := h.run_remove g hp found tree enough
      refine Or.inr ⟨p, t, dc, l, _, m2, ht, ⟨hp, nolink, found, here⟩, fun n hn => ?_, last, view⟩
      rw [h.step n here]
      cases child : fs.childIn (fs.view m) (.dir _) (K (p ++ [t])) n with
      | none => rfl
      | some x =>
        obtain ⟨_, a, ha, live, name, _⟩ := (h.dir here).childIn_iff.mp child
        have := dots rfl a ha live
        rw [name, hn] at this
        cases this

end

end Vol

end CanBoot
