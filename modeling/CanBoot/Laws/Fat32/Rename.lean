import CanBoot.Laws.Fat32.Claim

/-!
# Renaming

`canboot_fat32_rename` writes a copy of the entry under the new name, points the `..` of a moved
directory at its new parent, and marks the old entry deleted. It never asks whether the new name
lies below the old one. When it does not, the tree below the old path is found, whole, below the
new one (`Moved.laid`). When it does, the new entry is inside what the deletion cuts off: the rest
of the tree stands, and what was moved is gone (`Moved.laid_lost`).
-/

namespace CanBoot

open Lib Lib.Prog Fat32 List Option

namespace Vol

variable {fs : Fat32} {v v1 : Vol} {T : Objs} {K K1 : Chains}
  {po pn : List Name} {told tnew : Name} {dco npc : Nat} {l l' : Nat × Nat} {dd : Option Entry}

/-- The second slot of a directory rewritten, if it is to be. -/
def fixDots (v : Vol) (f : Nat) : Option Entry → Vol
  | none => v
  | some d => v.setSlot f 1 d

/-- The volume a successful rename leaves: `e` is the entry that was at `l`. -/
def moved (v1 : Vol) (e : Entry) (tnew : Name) (l l' : Nat × Nat) (dd : Option Entry) : Vol :=
  ((v1.setSlot l'.1 l'.2 (e.setName tnew)).fixDots e.firstCluster dd).setSlot l.1 l.2 e.markDeleted

/-- How `canboot_fat32_rename` got to its return of 0. -/
structure Moved (fs : Fat32) (v : Vol) (T : List Name → Option Obj) (K : List Name → List Nat)
    (po : List Name) (told : Name) (dco : Nat) (l : Nat × Nat) (pn : List Name) (tnew : Name)
    (npc : Nat) (l' : Nat × Nat) (v1 : Vol) (K1 : List Name → List Nat) (dd : Option Entry) :
    Prop where
  oldParent : T po = some (.dir dco)
  oldNolink : fs.isLink dco told = false
  found : fs.lookup v (K po) told = some l
  newParent : T pn = some (.dir npc)
  newNolink : fs.isLink npc tnew = false
  absent : T (pn ++ [tnew]) = none
  opened : Opened fs v T K pn l' v1 K1
  dots : (dd = none ∧ ((v.slotAt l).isDir = false ∨ npc = l.1)) ∨ ((v.slotAt l).isDir = true ∧ dd =
      some ((v1.slot (v.slotAt l).firstCluster 1).setCluster (parentCluster fs npc)))

namespace Moved

variable (r : Moved fs v T K po told dco l pn tnew npc l' v1 K1 dd)

include r

theorem obj (h : v.Laid fs T K) : T (po ++ [told]) = some (v.slotAt l).obj := by
  rw [h.at_snoc r.oldParent r.oldNolink, r.found]
  rfl

theorem mem_old : l ∈ fs.locs (K1 po) := by
  have hl := mem_locs.mp (lookup_eq_some told r.found).1
  refine mem_locs.mpr ⟨?_, hl.2⟩
  by_cases heq : po = pn
  · rw [heq] at hl ⊢
    exact r.opened.own hl.1
  · rw [r.opened.chains heq]
    exact hl.1

/-- The old entry as the claimed volume has it. -/
theorem slotAt_old : v1.slotAt l = v.slotAt l := by
  have hl := mem_locs.mp (lookup_eq_some told r.found).1
  rw [slotAt, slot, r.opened.data r.oldParent hl.1]
  rfl

theorem found_opened : fs.lookup v1 (K1 po) told = some l := by
  obtain ⟨_, live, name⟩ := lookup_eq_some told r.found
  refine (r.opened.laid.dir r.oldParent).lookup_iff.mpr ⟨r.mem_old, ?_⟩
  rw [r.slotAt_old]
  exact ⟨live, name⟩

/-- A live slot of the claimed volume is not the one handed out. -/
theorem ne_new {a : Nat × Nat} (live : (v1.slotAt a).live = true) : a ≠ l' := by
  rintro rfl
  rw [not_live_of_free r.opened.slot.1] at live
  cases live

theorem old_ne_new : l ≠ l' := by
  refine r.ne_new ?_
  rw [r.slotAt_old]
  exact (lookup_eq_some told r.found).2.1

/-- A moved directory and its `..`. -/
theorem link (h : v.Laid fs T K) (isDir : (v.slotAt l).isDir = true) :
    T (po ++ [told]) = some (.dir (v.slotAt l).firstCluster) ∧ (v.slotAt l).firstCluster ≠ fs.rootCluster ∧
      (v1.slot (v.slotAt l).firstCluster 1).Link dotdotName := by
  have here : T (po ++ [told]) = some (.dir (v.slotAt l).firstCluster) := by
    rw [r.obj h, Entry.obj_dir isDir]
  have hroot := h.not_root here (by simp)
  exact ⟨here, hroot, ((r.opened.laid.dir here).links hroot).2⟩

/-- The three slots a rename writes are different ones. -/
theorem dots_ne (h : v.Laid fs T K) (isDir : (v.slotAt l).isDir = true) :
    ((v.slotAt l).firstCluster, 1) ≠ l ∧ ((v.slotAt l).firstCluster, 1) ≠ l' := by
  obtain ⟨here, _, link⟩ := r.link h isDir
  refine ⟨?_, r.ne_new link.live⟩
  intro heq
  -- the moved directory is not its own parent
  have mem : (v.slotAt l).firstCluster ∈ K1 po := by
    have := (mem_locs.mp r.mem_old).1
    rwa [← heq] at this
  have same := r.opened.laid.disjoint here r.oldParent (r.opened.laid.mem_first here) mem
  have := congrArg List.length same
  rw [length_append, length_singleton] at this
  omega

/-- The writes of a rename, in the order the moves are made. -/
theorem moved_eq (h : v.Laid fs T K) : v1.moved (v.slotAt l) tnew l l' dd =
      ((v1.setSlot l.1 l.2 (v.slotAt l).markDeleted).fixDots (v.slotAt l).firstCluster dd).setSlot
        l'.1 l'.2 ((v.slotAt l).setName tnew) := by
  have hne : (l'.1, l'.2) ≠ (l.1, l.2) := fun heq => r.old_ne_new heq.symm
  rcases r.dots with ⟨none', _⟩ | ⟨isDir, some'⟩
  · rw [none']
    exact setSlot_comm v1 _ _ hne
  · obtain ⟨hl, hl'⟩ := r.dots_ne h isDir
    rw [some']
    unfold moved fixDots
    rw [setSlot_comm _ _ _ hl, setSlot_comm v1 _ _ hne, setSlot_comm _ _ _ hl'.symm]

/-- With the old entry gone, the tree outside it stands. -/
theorem detached (g : fs.Geometry) :
    (v1.setSlot l.1 l.2 (v.slotAt l).markDeleted).Laid fs (prune (po ++ [told]) T) K1 :=
  r.opened.laid.detach g r.oldParent r.found_opened r.oldNolink (Entry.isDeleted_markDeleted _)

/-- A path outside the moved object owns none of its clusters. -/
theorem outside_apart {q s : List Name} {x y : Obj} {c : Nat} (hq : prune (po ++ [told]) T q = some x)
    (hs : T (po ++ [told] ++ s) = some y) (hc : c ∈ K1 q) : c ∉ K1 (po ++ [told] ++ s) := by
  intro mem
  obtain ⟨out, hT⟩ := prune_eq_some.mp hq
  have : q = po ++ [told] ++ s := r.opened.laid.disjoint hT hs hc mem
  exact out (this ▸ List.prefix_append _ _)

/-- And so does the tree inside it. -/
theorem inside (g : fs.Geometry) (h : v.Laid fs T K) :
    (v1.setSlot l.1 l.2 (v.slotAt l).markDeleted).Layout fs (v.slotAt l).obj
      (below (po ++ [told]) T) (below (po ++ [told]) K1) := by
  refine (r.opened.laid.below (r.obj h)).frame g (fun _ _ => rfl) fun {q dc c} hq hc => ?_
  refine r.opened.laid.setSlot_of_ne r.oldParent r.mem_old hq ?_ hc _
  intro heq
  have := congrArg List.length heq
  simp only [length_append, length_singleton] at this
  omega

/-- The two halves with the `..` rewritten. -/
theorem halves (g : fs.Geometry) (h : v.Laid fs T K) :
    ((v1.setSlot l.1 l.2 (v.slotAt l).markDeleted).fixDots (v.slotAt l).firstCluster dd).Laid fs
      (prune (po ++ [told]) T) K1 ∧
    ((v1.setSlot l.1 l.2 (v.slotAt l).markDeleted).fixDots (v.slotAt l).firstCluster dd).Layout fs
      (v.slotAt l).obj (below (po ++ [told]) T) (below (po ++ [told]) K1) := by
  rcases r.dots with ⟨none', _⟩ | ⟨isDir, some'⟩
  · rw [none']
    exact ⟨r.detached g, r.inside g h⟩
  · obtain ⟨here, hroot, link⟩ := r.link h isDir
    have start : below (po ++ [told]) T [] = some (.dir (v.slotAt l).firstCluster) := by
      rw [below, append_nil]
      exact here
    rw [some']
    refine ⟨(r.detached g).frame g (fun _ _ => rfl) fun {q dc c} hq hc => ?_,
      (r.inside g h).setDotdot g start hroot (link.setCluster _)⟩
    refine data_setSlot_of_ne _ _ _ ?_
    rintro rfl
    have own := r.opened.laid.mem_first here
    rw [← append_nil (po ++ [told])] at here own
    exact r.outside_apart hq here hc own

/-- Files keep their bytes. -/
theorem data_eq (h : v.Laid fs T K) {q : List Name} {c n x : Nat} (hq : T q = some (.file c n))
    (hx : x ∈ K q) : (v1.moved (v.slotAt l) tnew l l' dd).data x = v.data x := by
  have hqn : q ≠ pn := by
    rintro rfl
    rw [r.newParent] at hq
    cases hq
  have mem : x ∈ K1 q := by rwa [r.opened.chains hqn]
  -- no directory owns a cluster of a file
  have apart : ∀ {q' dc y}, T q' = some (.dir dc) → y ∈ K1 q' → x ≠ y := by
    rintro q' dc y hq' hy rfl
    have := r.opened.laid.disjoint hq hq' mem hy
    rw [← this, hq] at hq'
    cases hq'
  have new := apart r.newParent (mem_locs.mp r.opened.slot.mem).1
  have old := apart r.oldParent (mem_locs.mp r.mem_old).1
  rw [moved, data_setSlot_of_ne _ _ _ old]
  rcases r.dots with ⟨none', _⟩ | ⟨isDir, some'⟩
  · rw [none']
    exact (data_setSlot_of_ne _ _ _ new).trans (r.opened.data hq hx)
  · obtain ⟨here, _, _⟩ := r.link h isDir
    have first := apart here (r.opened.laid.mem_first here)
    rw [some']
    exact (data_setSlot_of_ne _ _ _ first).trans
      ((data_setSlot_of_ne _ _ _ new).trans (r.opened.data hq hx))

theorem node_eq (h : v.Laid fs T K) {q : List Name} {x : Obj} (hq : T q = some x) :
    x.node fs (v1.moved (v.slotAt l) tnew l l' dd) (K1 q) = x.node fs v (K q) := by
  cases x with
  | dir dc => rfl
  | file c n =>
    have hqn : q ≠ pn := by
      rintro rfl
      rw [r.newParent] at hq
      cases hq
    rw [Obj.node, Obj.node, r.opened.chains hqn, chainBytes_congr fun y hy => r.data_eq h hq hy]

/-- The `..` of a directory that was not given a new parent. -/
theorem dotdot_eq (h : v.Laid fs T K) {q : List Name} {dc : Nat} (hq : T q = some (.dir dc)) (hne : q ≠ [])
    (kept : dd = none ∨ q ≠ po ++ [told]) : (v1.moved (v.slotAt l) tnew l l' dd).slot dc 1 = v.slot dc 1 := by
  have hroot := h.not_root hq hne
  have link := ((h.dir hq).links hroot).2
  have before : v1.slotAt (dc, 1) = v.slotAt (dc, 1) := by
    rw [slotAt, slot, r.opened.data hq (h.mem_first hq)]
    rfl
  have new : (dc, 1) ≠ l' := r.ne_new (by rw [before]; exact link.live)
  have old : (dc, 1) ≠ l := by
    rintro rfl
    obtain ⟨hl, _, name⟩ := lookup_eq_some told r.found
    have here : q = po := h.disjoint hq r.oldParent (h.mem_first hq) (mem_locs.mp hl).1
    rw [here] at hq
    cases Option.some.inj (hq.symm.trans r.oldParent)
    exact (isLink_eq_false r.oldNolink hroot).2 (name.symm.trans link.name)
  show (v1.moved (v.slotAt l) tnew l l' dd).slotAt (dc, 1) = _
  rw [moved, slotAt_setSlot, if_neg old]
  rcases r.dots with ⟨none', _⟩ | ⟨isDir, some'⟩
  · rw [none']
    exact (slotAt_setSlot v1 l' (dc, 1) _).trans ((if_neg new).trans before)
  · obtain ⟨here, _, _⟩ := r.link h isDir
    have first : (dc, 1) ≠ ((v.slotAt l).firstCluster, 1) := by
      intro heq
      have same : dc = (v.slotAt l).firstCluster := (Prod.mk.inj heq).1
      rcases kept with none' | hne
      · rw [none'] at some'
        cases some'
      · exact hne (h.disjoint hq here (h.mem_first hq) (same ▸ h.mem_first here))
    rw [some']
    exact (slotAt_setSlot _ (_, 1) (dc, 1) _).trans ((if_neg first).trans
      ((slotAt_setSlot v1 l' (dc, 1) _).trans ((if_neg new).trans before)))

/-- Every object keeps a place in the tree, with its clusters. -/
theorem place (h : v.Laid fs T K) {q : List Name} {x : Obj} (hq : T q = some x) :
    ∃ q', graft (pn ++ [tnew]) (below (po ++ [told]) T) (prune (po ++ [told]) T) q' = some x ∧
      graft (pn ++ [tnew]) (below (po ++ [told]) K1) K1 q' = K1 q := by
  by_cases pre : po ++ [told] <+: q
  · obtain ⟨s, rfl⟩ := pre
    exact ⟨pn ++ [tnew] ++ s, by rw [graft_append]; exact hq, by rw [graft_append]; rfl⟩
  · have new : ¬ pn ++ [tnew] <+: q := by
      intro below
      rw [h.none_below r.absent below] at hq
      cases hq
    exact ⟨q, by rw [graft_outside _ _ new, prune_outside _ pre]; exact hq, by rw [graft_outside _ _ new]⟩

/-- The `..` of the moved directory holds its parent. -/
theorem dotdot_moved (g : fs.Geometry) (h : v.Laid fs T K) (tight : v.Tight fs T K) {dc : Nat}
    (hm : T (po ++ [told]) = some (.dir dc)) :
    ((v1.moved (v.slotAt l) tnew l l' dd).slot dc 1).firstCluster = parentCluster fs npc := by
  have isDir : (v.slotAt l).isDir = true := by
    cases hdir : (v.slotAt l).isDir with
    | true => rfl
    | false =>
      rw [r.obj h, Entry.obj_file hdir] at hm
      cases hm
  have first : dc = (v.slotAt l).firstCluster := by
    rw [r.obj h, Entry.obj_dir isDir] at hm
    cases hm
    rfl
  rcases r.dots with ⟨none', stays⟩ | ⟨_, some'⟩
  · -- the new parent is the old one
    have same : npc = l.1 := stays.resolve_left (by rw [isDir]; decide)
    have parents : pn = po := by
      refine r.opened.laid.disjoint r.newParent r.oldParent
        (r.opened.laid.mem_first r.newParent) ?_
      rw [same]
      exact (mem_locs.mp r.mem_old).1
    have old := r.oldParent
    rw [← parents] at old
    cases Option.some.inj (old.symm.trans r.newParent)
    rw [r.dotdot_eq h hm (by simp) (Or.inl none')]
    exact tight.dotdot r.oldParent hm
  · obtain ⟨hl, _⟩ := r.dots_ne h isDir
    have small : parentCluster fs npc < 4294967296 := by
      have := ((h.chain r.newParent).inRange npc (h.mem_first r.newParent)).lt g
      unfold parentCluster
      split <;> omega
    have slot : (v1.moved (v.slotAt l) tnew l l' dd).slot dc 1 =
        (v1.slot (v.slotAt l).firstCluster 1).setCluster (parentCluster fs npc) := by
      show (v1.moved (v.slotAt l) tnew l l' dd).slotAt (dc, 1) = _
      rw [moved, slotAt_setSlot, first, if_neg hl, some']
      exact (slotAt_setSlot _ (_, 1) (_, 1) _).trans (if_pos rfl)
    rw [slot, Entry.firstCluster_setCluster _ small]

/-! ## A destination inside what is moved -/

/-- **A rename to a place below the old path loses what it moves**: the rest of the tree is all there
is. -/
theorem laid_lost (g : fs.Geometry) (h : v.Laid fs T K) (below : po ++ [told] <+: pn) :
    (v1.moved (v.slotAt l) tnew l l' dd).Laid fs (prune (po ++ [told]) T) K1 := by
  rw [r.moved_eq h]
  refine (r.halves g h).1.frame g (fun _ _ => rfl) fun {q dc c} hq hc => ?_
  refine data_setSlot_of_ne _ _ _ ?_
  rintro rfl
  obtain ⟨s, hs⟩ := below
  have target := r.newParent
  have own := (mem_locs.mp r.opened.slot.mem).1
  rw [← hs] at target own
  exact r.outside_apart hq target hc own

/-! ## A destination outside what is moved -/

variable (out : ¬ po ++ [told] <+: pn)

include out

theorem newParent_pruned : prune (po ++ [told]) T pn = some (.dir npc) :=
  prune_eq_some.mpr ⟨out, r.newParent⟩

/-- The slot that was handed out stays open while the old entry goes. -/
theorem slot_open (h : v.Laid fs T K) :
    ((v1.setSlot l.1 l.2 (v.slotAt l).markDeleted).fixDots (v.slotAt l).firstCluster dd).OpenAt fs (K1 pn) l' := by
  have gone : (v.slotAt l).markDeleted.isDeleted = true := Entry.isDeleted_markDeleted _
  have slots : ∀ a ∈ fs.locs (K1 pn),
      ((v1.setSlot l.1 l.2 (v.slotAt l).markDeleted).fixDots (v.slotAt l).firstCluster dd).slotAt a =
        if a = l then (v.slotAt l).markDeleted else v1.slotAt a := by
    intro a ha
    rcases r.dots with ⟨none', _⟩ | ⟨isDir, some'⟩
    · rw [none']
      exact slotAt_setSlot v1 l a _
    · obtain ⟨here, _, _⟩ := r.link h isDir
      have hne : a ≠ ((v.slotAt l).firstCluster, 1) := by
        rintro rfl
        have := r.opened.laid.disjoint here r.newParent (r.opened.laid.mem_first here)
          (mem_locs.mp ha).1
        exact out (this ▸ List.prefix_refl _)
      rw [some', ← slotAt_setSlot v1 l a]
      exact (slotAt_setSlot _ (_, 1) a _).trans (if_neg hne)
  obtain ⟨free, pre, post, split, early⟩ := r.opened.slot
  refine ⟨?_, pre, post, split, fun a ha => ?_⟩
  · rw [slots l' r.opened.slot.mem, if_neg r.old_ne_new.symm]
    exact free
  · rw [slots a (by rw [split]; exact mem_append_left _ ha)]
    split
    · exact isEnd_of_isDeleted gone
    · exact early a ha

/-- **A rename to a place outside moves the whole tree below the old path.** -/
theorem laid (g : fs.Geometry) (h : v.Laid fs T K) (h0 : tnew.byte 0 ≠ 0) (h5 : tnew.byte 0 ≠ 0xE5) :
    (v1.moved (v.slotAt l) tnew l l' dd).Laid fs
      (graft (pn ++ [tnew]) (below (po ++ [told]) T) (prune (po ++ [told]) T))
      (graft (pn ++ [tnew]) (below (po ++ [told]) K1) K1) := by
  obtain ⟨rest, part⟩ := r.halves g h
  have live := (lookup_eq_some told r.found).2.1
  have missing : fs.lookup ((v1.setSlot l.1 l.2 (v.slotAt l).markDeleted).fixDots
      (v.slotAt l).firstCluster dd) (K1 pn) tnew = none := by
    have tree := rest.at_snoc (r.newParent_pruned out) r.newNolink
    have none' : prune (po ++ [told]) T (pn ++ [tnew]) = none := by
      by_cases pre : po ++ [told] <+: pn ++ [tnew]
      · exact prune_below T pre
      · rw [prune_outside T pre, r.absent]
    rw [none'] at tree
    exact map_eq_none_iff.mp tree.symm
  rw [r.moved_eq h]
  exact rest.graft g (e := (v.slotAt l).setName tnew) part
    (fun hq hs hc => r.outside_apart hq hs hc) (r.newParent_pruned out) missing r.newNolink
    (r.slot_open out h) (Entry.live_setName _ live h0 h5) (Entry.name_setName _ _)

/-- **The tree after the rename**: what was below the old path is below the new one. -/
theorem tree_eq (g : fs.Geometry) (h : v.Laid fs T K) (h0 : tnew.byte 0 ≠ 0) (h5 : tnew.byte 0 ≠ 0xE5) :
    fs.tree (v1.moved (v.slotAt l) tnew l l' dd) =
      graft (pn ++ [tnew]) (below (po ++ [told]) (fs.tree v)) (prune (po ++ [told]) (fs.tree v)) := by
  have after := r.laid out g h h0 h5
  have same : ∀ q, ((T q).map fun x => x.node fs (v1.moved (v.slotAt l) tnew l l' dd) (K1 q)) = fs.tree v q := by
    intro q
    rw [h.tree_eq]
    cases hq : T q with
    | none => rfl
    | some x => rw [map_some, map_some, r.node_eq h hq]
  funext q
  rw [after.tree_eq]
  by_cases pre : pn ++ [tnew] <+: q
  · obtain ⟨s, rfl⟩ := pre
    rw [graft_append, graft_append, graft_append]
    exact same _
  · rw [graft_outside _ _ pre, graft_outside _ _ pre, graft_outside _ _ pre]
    by_cases inside : po ++ [told] <+: q
    · rw [prune_below _ inside, prune_below _ inside]
      rfl
    · rw [prune_outside _ inside, prune_outside _ inside]
      exact same q

theorem tight (g : fs.Geometry) (h : v.Laid fs T K) (tight : v.Tight fs T K) (hdot : tnew.byte 0 ≠ dot) :
    (v1.moved (v.slotAt l) tnew l l' dd).Tight fs
      (graft (pn ++ [tnew]) (below (po ++ [told]) T) (prune (po ++ [told]) T))
      (graft (pn ++ [tnew]) (below (po ++ [told]) K1) K1) where
  cover c hc marked := by
    have table : (v1.moved (v.slotAt l) tnew l l' dd).fat c = v1.fat c := by
      rcases r.dots with ⟨none', _⟩ | ⟨_, some'⟩
      · rw [none']
        rfl
      · rw [some']
        rfl
    rw [table] at marked
    obtain ⟨q, x, hq, mem⟩ : ∃ q x, T q = some x ∧ c ∈ K1 q := by
      rcases r.opened.marks marked with old | new
      · obtain ⟨q, x, hq, mem⟩ := tight.cover c hc old
        by_cases hqn : q = pn
        · exact ⟨q, x, hq, by rw [hqn] at mem ⊢; exact r.opened.own mem⟩
        · exact ⟨q, x, hq, by rw [r.opened.chains hqn]; exact mem⟩
      · exact ⟨pn, _, r.newParent, new⟩
    obtain ⟨q', hT, hK⟩ := r.place h hq
    exact ⟨q', x, hT, by rw [hK]; exact mem⟩
  exact {q c n} hq := by
    have old : ∀ {q}, T q = some (.file c n) → (K1 q).length = fs.clustersFor n ∧ (n = 0 → c = 0) := by
      intro s hs
      have hsn : s ≠ pn := by
        rintro rfl
        rw [r.newParent] at hs
        cases hs
      rw [r.opened.chains hsn]
      exact tight.exact hs
    rcases Layout.graft_cases hq with ⟨s, rfl, hS⟩ | ⟨new, hT⟩
    · rw [graft_append]
      exact old hS
    · rw [graft_outside _ _ new]
      exact old (prune_eq_some.mp hT).2
  dotdot {q s pc dc} hq hs := by
    rcases Layout.graft_cases hs with ⟨s', hs', hS⟩ | ⟨new, hT⟩
    · rcases eq_nil_or_concat' s' with rfl | ⟨s'', n, rfl⟩
      · -- the moved directory itself
        rw [append_nil] at hs'
        have hqn : q = pn := append_inj_left' hs' rfl
        have parent : graft (pn ++ [tnew]) (below (po ++ [told]) T) (prune (po ++ [told]) T) pn = some (.dir npc) := by
          rw [graft_outside _ _ (snoc_not_prefix_self pn tnew)]
          exact r.newParent_pruned out
        rw [hqn] at hq
        cases Option.some.inj (hq.symm.trans parent)
        rw [below, append_nil] at hS
        exact r.dotdot_moved g h tight hS
      · -- a directory below it
        rw [← append_assoc] at hs'
        have hq' : q = pn ++ [tnew] ++ s'' := append_inj_left' hs' rfl
        have hn : s = n := singleton_inj.mp (append_inj_right' hs' rfl)
        subst hn
        rw [hq', graft_append] at hq
        have child : T (po ++ [told] ++ s'' ++ [s]) = some (.dir dc) := by
          rw [append_assoc]
          exact hS
        rw [r.dotdot_eq h child (by simp) (Or.inr fun heq => ?_)]
        · exact tight.dotdot hq child
        · have := congrArg List.length heq
          simp only [length_append, length_singleton] at this
          omega
    · obtain ⟨apart, hT⟩ := prune_eq_some.mp hT
      have newq : ¬ pn ++ [tnew] <+: q := fun pre => new (pre.trans (List.prefix_append _ _))
      have oldq : ¬ po ++ [told] <+: q := fun pre => apart (pre.trans (List.prefix_append _ _))
      rw [graft_outside _ _ newq, prune_outside _ oldq] at hq
      rw [r.dotdot_eq h hT (by simp) (Or.inr fun heq => apart (heq ▸ List.prefix_refl _))]
      exact tight.dotdot hq hT
  copies k c := by
    have agree := r.opened.copies tight.copies k c
    rcases r.dots with ⟨none', _⟩ | ⟨_, some'⟩
    · rw [none']
      exact agree
    · rw [some']
      exact agree
  plain {q n x} hq := by
    rcases Layout.graft_cases hq with ⟨s', hs', hS⟩ | ⟨_, hT⟩
    · rcases eq_nil_or_concat' s' with rfl | ⟨s'', n', rfl⟩
      · rw [append_nil] at hs'
        have : n = tnew := singleton_inj.mp (append_inj_right' hs' rfl)
        rw [this]
        exact isDotName_of_head hdot
      · rw [← append_assoc] at hs'
        have hn : n = n' := singleton_inj.mp (append_inj_right' hs' rfl)
        rw [hn]
        rw [below, ← append_assoc] at hS
        exact tight.plain hS
    · exact tight.plain (prune_eq_some.mp hT).2

end Moved

/-! ## The call -/

variable {m : Media} {fuel : Nat}

/-- The moved directory after the new entry is written: still a directory, with its `..`. -/
theorem Opened.dirOK_after (g : fs.Geometry) (o : Opened fs v T K pn l' v1 K1) (hn : T pn = some (.dir npc))
    (nolink : fs.isLink npc tnew = false) (absent : T (pn ++ [tnew]) = none) {q : List Name} {dc : Nat}
    (hq : T q = some (.dir dc)) {e : Entry} (stays : e.isEnd = false) (name : e.name = tnew) :
    (v1.setSlot l'.1 l'.2 e).DirOK fs dc (K1 q) := by
  by_cases hqn : q = pn
  · subst hqn
    cases Option.some.inj (hq.symm.trans hn)
    have missing : fs.lookup v1 (K1 q) tnew = none := by
      have := o.laid.at_snoc hn nolink
      rw [absent] at this
      exact map_eq_none_iff.mp this.symm
    exact (o.laid.dir hq).insert (o.laid.chain hq).nodup missing o.slot stays name
  · exact (o.laid.dir hq).congr (o.laid.mem_first hq) g.entries_pos
      (o.laid.slotAt_other hn o.slot.mem hq hqn e)

/-- **The cases of `canboot_fat32_rename`.** It fails with nothing written, or it succeeds. -/
theorem Layout.rename_cases (g : fs.Geometry) (h : (fs.view m).Laid fs T K) (enough : fs.totalClusters < fuel)
    (writable : fs.disk.writable = true) (oldp newp : Bytes) (carries : ∀ p t, target newp = some (p, t) → t.byte 0 ≠ 0) :
    (canbootFat32Rename fs oldp newp).run fuel m = .err m ∨
    ∃ po told dco l pn tnew npc l' m1 K1 dd m', target oldp = some (po, told) ∧ target newp = some (pn, tnew) ∧
      Moved fs (fs.view m) T K po told dco l pn tnew npc l' (fs.view m1) K1 dd ∧
      (canbootFat32Rename fs oldp newp).run fuel m = .ok () m' ∧
      fs.view m' = (fs.view m1).moved ((fs.view m).slotAt l) tnew l l' dd := by
  rw [canbootFat32Rename, bind_require_true writable]
  rcases h.resolveFound_cases g enough oldp with
    ⟨fails, _⟩ | ⟨po, told, dco, l, hold, ho, onolink, found, tree, run⟩
  · exact Or.inl (run_bind_err fails _)
  rw [run_bind_ok run]
  simp only
  rcases h.resolveParent_cases g enough newp with
    ⟨fails, _⟩ | ⟨pn, tnew, npc, hnew, hn, nolink, run⟩
  · exact Or.inl (run_bind_err fails _)
  rw [run_bind_ok run]
  simp only
  have check := h.run_requireAbsent g hn nolink enough
  by_cases absent : T (pn ++ [tnew]) = none
  swap
  · rw [if_neg absent] at check
    exact Or.inl (run_bind_err check _)
  rw [if_pos absent] at check
  rw [run_bind_ok check]
  rcases h.dirAllocSlot_cases g hn enough with ⟨fails, _⟩ | ⟨l', m1, K1, slot, opened, _⟩
  · exact Or.inl (run_bind_err fails _)
  rw [run_bind_ok slot]
  right
  generalize he : (fs.view m).slotAt l = e at *
  have stays : (e.setName tnew).isEnd = false := Entry.isEnd_setName e (carries pn tnew hnew)
  have hl' := mem_locs.mp opened.slot.mem
  have range' := (opened.laid.chain hn).inRange _ hl'.1
  rw [run_bind_ok (run_dirWriteEntry g range' l'.2 _)]
  have view2 := view_putSlot (m := m1) g range' hl'.2 (e.setName tnew)
  generalize fs.putSlot m1 l'.1 l'.2 (e.setName tnew) = m2 at view2
  -- the entry to be deleted still stands where it was found
  have hl := mem_locs.mp (lookup_eq_some told found).1
  have range := (h.chain ho).inRange _ hl.1
  by_cases repoint : e.isDir = true ∧ npc ≠ l.1
  · have here : T (po ++ [told]) = some (.dir e.firstCluster) := by
      rw [tree, Entry.obj_dir repoint.1]
    have moved : Moved fs (fs.view m) T K po told dco l pn tnew npc l' (fs.view m1) K1
        (some (((fs.view m1).slot e.firstCluster 1).setCluster (parentCluster fs npc))) :=
      ⟨ho, onolink, found, hn, nolink, absent, opened, Or.inr ⟨by rw [he]; exact repoint.1, by rw [he]⟩⟩
    have hroot := h.not_root here (by simp)
    have first := opened.laid.mem_first here
    have rangeFirst := (opened.laid.chain here).inRange _ first
    have chain2 : (fs.view m2).HasChain fs e.firstCluster (K1 (po ++ [told])) := by
      rw [view2]
      exact (opened.laid.chain here).congr fun _ _ => rfl
    have order : (fs.view m2).DirOK fs e.firstCluster (K1 (po ++ [told])) := by
      rw [view2]
      exact opened.dirOK_after g hn nolink absent here stays (Entry.name_setName _ _)
    have link := (order.links hroot).2
    have second : fs.lookup (fs.view m2) (K1 (po ++ [told])) dotdotName = some (e.firstCluster, 1) :=
      order.lookup_iff.mpr ⟨mem_locs.mpr ⟨first, g.entries_pos⟩, link.live, link.name⟩
    have find : (fs.dirFind e.firstCluster dotdotName).run fuel m2 = _ :=
      Fat32.run_dirFind g chain2 order.terminated dotdotName (opened.laid.length_lt here enough)
    rw [second, map_some] at find
    have apart := moved.dots_ne h (by rw [he]; exact repoint.1)
    rw [he] at apart
    have same : (fs.view m2).slotAt (e.firstCluster, 1) = (fs.view m1).slot e.firstCluster 1 := by
      rw [view2, slotAt_setSlot, if_neg apart.2]
      rfl
    have points : (fs.repointDotdot e npc).run fuel m2 = .ok () (fs.putSlot m2 e.firstCluster 1
        (((fs.view m1).slot e.firstCluster 1).setCluster (parentCluster fs npc))) := by
      rw [repointDotdot, run_bind_ok (run_attempt_ok find), same]
      exact run_dirWriteEntry g rangeFirst 1 _
    have view3 := view_putSlot (m := m2) g rangeFirst g.entries_pos
      (((fs.view m1).slot e.firstCluster 1).setCluster (parentCluster fs npc))
    generalize fs.putSlot m2 e.firstCluster 1
      (((fs.view m1).slot e.firstCluster 1).setCluster (parentCluster fs npc)) = m3 at points view3
    have stands : (fs.view m3).slot l.1 l.2 = e := by
      rw [view3]
      refine (slotAt_setSlot _ (_, 1) l _).trans ((if_neg (Ne.symm apart.1)).trans ?_)
      rw [view2, slotAt_setSlot, if_neg moved.old_ne_new, moved.slotAt_old, he]
    refine ⟨po, told, dco, l, pn, tnew, npc, l', m1, K1, _,
      fs.putSlot m3 l.1 l.2 e.markDeleted, hold, hnew, moved, ?_, ?_⟩
    · rw [if_pos (by simp [repoint.1, repoint.2]), run_bind_ok points, run_dirMarkDeleted g range hl.2, stands]
    · rw [view_putSlot g range hl.2, view3, view2, he]
      rfl
  · have moved : Moved fs (fs.view m) T K po told dco l pn tnew npc l' (fs.view m1) K1 none := by
      refine ⟨ho, onolink, found, hn, nolink, absent, opened, Or.inl ⟨rfl, ?_⟩⟩
      rw [he]
      cases hdir : e.isDir with
      | false => exact Or.inl rfl
      | true => exact Or.inr (not_not.mp fun hne => repoint ⟨hdir, hne⟩)
    have stands : (fs.view m2).slot l.1 l.2 = e := by
      show (fs.view m2).slotAt l = e
      rw [view2, slotAt_setSlot, if_neg moved.old_ne_new, moved.slotAt_old, he]
    refine ⟨po, told, dco, l, pn, tnew, npc, l', m1, K1, none,
      fs.putSlot m2 l.1 l.2 e.markDeleted, hold, hnew, moved, ?_, ?_⟩
    · rw [if_neg (by simpa using repoint)]
      rw [run_dirMarkDeleted g range hl.2, stands]
    · rw [view_putSlot g range hl.2, view2, he]
      rfl

end Vol

end CanBoot
