import CanBoot.Laws.Fat32.Content

/-!
# Claiming a slot

A call that adds an entry first gets a slot for it from `dir_alloc_slot`: a free one, or slot 0 of
a cluster the directory is extended by. `Opened` says what the volume is after that, with the tree
as it was. `canboot_fat32_write_path` may instead take the slot of the file it replaces, whose chain
it frees first. `Ready` covers both: there is an entry `d` such that, with `d` in the slot, the
volume is laid out without the name; what the slot really holds does not matter, since it is written
next. `Claimed` adds that no cluster was lost.
-/

namespace CanBoot

open Lib Function List Fat32

namespace Vol

variable {fs : Fat32} {v v1 : Vol} {T : Objs} {K K1 : Chains} {p : List Name} {t : Name} {l : Nat × Nat}

/-- The volume after `dir_alloc_slot` handed out `l` in the directory at `p`. -/
structure Opened (fs : Fat32) (v : Vol) (T : List Name → Option Obj) (K : List Name → List Nat)
    (p : List Name) (l : Nat × Nat) (v1 : Vol) (K1 : List Name → List Nat) : Prop where
  laid : v1.Laid fs T K1
  slot : v1.OpenAt fs (K1 p) l
  chains : ∀ {q}, q ≠ p → K1 q = K q
  own : K p ⊆ K1 p
  took : ∀ {c}, c ∈ K1 p → c ∈ K p ∨ v.fat c = 0
  data : ∀ {q x c}, T q = some x → c ∈ K q → v1.data c = v.data c
  marks : ∀ {c}, v1.fat c ≠ 0 → v.fat c ≠ 0 ∨ c ∈ K1 p
  others : ∀ {c}, v.fat c ≠ 0 → (∀ {q x}, T q = some x → c ∉ K q) → v1.fat c = v.fat c ∧ v1.data c = v.data c
  copies : (∀ k c, v.fats k c = v.fats 0 c) → ∀ k c, v1.fats k c = v1.fats 0 c

/-- The volume is ready for an entry called `t` to be written to `l`. -/
structure Ready (fs : Fat32) (v : Vol) (T : List Name → Option Obj) (K : List Name → List Nat)
    (p : List Name) (t : Name) (l : Nat × Nat) (v1 : Vol) (d : Entry) (K1 : List Name → List Nat) :
    Prop where
  laid : (v1.setSlot l.1 l.2 d).Laid fs (prune (p ++ [t]) T) K1
  absent : fs.lookup (v1.setSlot l.1 l.2 d) (K1 p) t = none
  slot : (v1.setSlot l.1 l.2 d).OpenAt fs (K1 p) l
  chains : ∀ {q}, q ≠ p → K1 q = K q
  own : K p ⊆ K1 p
  data : ∀ {q x c}, T q = some x → c ∈ K q → v1.data c = v.data c
  copies : (∀ k c, v.fats k c = v.fats 0 c) → ∀ k c, v1.fats k c = v1.fats 0 c

/-- It is ready, and no cluster was lost on the way. -/
structure Claimed (fs : Fat32) (v : Vol) (T : List Name → Option Obj) (K : List Name → List Nat)
    (p : List Name) (t : Name) (l : Nat × Nat) (v1 : Vol) (d : Entry) (K1 : List Name → List Nat) :
    Prop extends Ready fs v T K p t l v1 d K1 where
  cover : v.Cover fs T K → v1.Cover fs (prune (p ++ [t]) T) K1

/-- Where the name is absent, an opened slot is ready. -/
theorem Opened.claimed {dc : Nat} (o : Opened fs v T K p l v1 K1) (h : v.Laid fs T K) (hp : T p = some (.dir dc))
    (nolink : fs.isLink dc t = false) (absent : T (p ++ [t]) = none) : Claimed fs v T K p t l v1 (v1.slotAt l) K1 := by
  have same : v1.setSlot l.1 l.2 (v1.slotAt l) = v1 := setSlot_slot v1 l.1 l.2
  have whole : prune (p ++ [t]) T = T := by
    funext q
    by_cases pre : p ++ [t] <+: q
    · rw [prune_below T pre, h.none_below absent pre]
    · exact prune_outside T pre
  have missing : fs.lookup v1 (K1 p) t = none := by
    have := o.laid.at_snoc hp nolink
    rw [absent] at this
    exact Option.map_eq_none_iff.mp this.symm
  refine ⟨⟨?_, ?_, ?_, o.chains, o.own, o.data, o.copies⟩, ?_⟩
  · rw [same, whole]
    exact o.laid
  · rw [same]
    exact missing
  · rw [same]
    exact o.slot
  · intro cover c hc marked
    rw [whole]
    rcases o.marks marked with old | new
    · obtain ⟨q, x, hq, mem⟩ := cover c hc old
      by_cases hqp : q = p
      · exact ⟨q, x, hq, by rw [hqp] at mem ⊢; exact o.own mem⟩
      · exact ⟨q, x, hq, by rw [o.chains hqp]; exact mem⟩
    · exact ⟨p, _, hp, new⟩

/-- **An entry taken out and its chain freed**, in whichever order: the tree below it is gone. -/
theorem Layout.laid_removed (g : fs.Geometry) (h : v.Laid fs T K) {dc : Nat} {x : Obj} (hp : T p = some (.dir dc))
    (nolink : fs.isLink dc t = false) (found : fs.lookup v (K p) t = some l) (obj : T (p ++ [t]) = some x) :
    ((v.freed (K (p ++ [t]))).setSlot l.1 l.2 (v.slotAt l).markDeleted).Laid fs (prune (p ++ [t]) T) K := by
  have detached := h.detach g hp found nolink (Entry.isDeleted_markDeleted (v.slotAt l))
  have pass : (v.freed (K (p ++ [t]))).setSlot l.1 l.2 (v.slotAt l).markDeleted =
      (v.setSlot l.1 l.2 (v.slotAt l).markDeleted).freed (K (p ++ [t])) := rfl
  rw [pass]
  refine detached.frame g (fun {q y c} hq hc => if_neg fun hc' => ?_) fun _ _ => rfl
  -- freeing touches no cluster that is still owned
  obtain ⟨out, hT⟩ := prune_eq_some.mp hq
  have : q = p ++ [t] := h.disjoint hT obj hc hc'
  exact out (this ▸ List.prefix_refl _)

/-- What is still marked after a removal is still owned. -/
theorem Cover.removed (cover : v.Cover fs T K) (bare : ∀ q, q ≠ [] → T (p ++ [t] ++ q) = none) :
    (v.freed (K (p ++ [t]))).Cover fs (prune (p ++ [t]) T) K := by
  intro c hc marked
  have out : c ∉ K (p ++ [t]) := fun mem => marked (if_pos mem)
  have old : v.fat c ≠ 0 := by
    intro zero
    apply marked
    show (if c ∈ K (p ++ [t]) then 0 else v.fat c) = 0
    rw [if_neg out, zero]
  obtain ⟨q, x, hq, mem⟩ := cover c hc old
  refine ⟨q, x, prune_eq_some.mpr ⟨?_, hq⟩, mem⟩
  rintro ⟨r, rfl⟩
  by_cases hr : r = []
  · rw [hr, append_nil] at mem
    exact out mem
  · rw [bare r hr] at hq
    cases hq

/-- The slot of an entry that was taken out of the tree is ready for its name. -/
theorem Layout.ready_detached (h : v.Laid fs T K) {dc : Nat} (hp : T p = some (.dir dc))
    (nolink : fs.isLink dc t = false) (found : fs.lookup v (K p) t = some l)
    (laid : (v1.setSlot l.1 l.2 (v.slotAt l).markDeleted).Laid fs (prune (p ++ [t]) T) K) (data : v1.data = v.data)
    (copies : (∀ k c, v.fats k c = v.fats 0 c) → ∀ k c, v1.fats k c = v1.fats 0 c) :
    Ready fs v T K p t l v1 (v.slotAt l).markDeleted K := by
  have gone : (v.slotAt l).markDeleted.isDeleted = true := Entry.isDeleted_markDeleted _
  have hprune : prune (p ++ [t]) T p = some (.dir dc) :=
    prune_eq_some.mpr ⟨snoc_not_prefix_self p t, hp⟩
  have slots : v1.slotAt = v.slotAt := by
    funext a
    rw [slotAt, slotAt, slot, slot, data]
  refine ⟨laid, ?_, ?_, fun _ => rfl, fun _ h => h, fun _ _ => by rw [data], copies⟩
  · have := laid.at_snoc hprune nolink
    rw [prune_below T (List.prefix_refl _)] at this
    exact Option.map_eq_none_iff.mp this.symm
  · obtain ⟨hl, live, _⟩ := lookup_eq_some t found
    obtain ⟨pre, post, split⟩ := append_of_mem hl
    refine ⟨?_, pre, post, split, fun a ha => ?_⟩
    · rw [slotAt_setSlot, if_pos rfl]
      simp only [Entry.free, gone, Bool.or_true]
    · have before : (v.slotAt a).isEnd = false := (h.dir hp).terminated.before split live a ha
      rw [slotAt_setSlot, slots]
      split
      · exact isEnd_of_isDeleted gone
      · exact before

/-- The slot of a file whose chain is freed is ready for its name. -/
theorem Layout.claimed_existing (g : fs.Geometry) (h : v.Laid fs T K) {dc c n : Nat} (hp : T p = some (.dir dc))
    (nolink : fs.isLink dc t = false) (found : fs.lookup v (K p) t = some l) (file : T (p ++ [t]) = some (.file c n)) :
    Claimed fs v T K p t l (v.freed (K (p ++ [t]))) (v.slotAt l).markDeleted K := by
  refine ⟨h.ready_detached hp nolink found (h.laid_removed g hp nolink found file) rfl ?_, ?_⟩
  · intro agree k c
    show (if c ∈ K (p ++ [t]) then 0 else v.fats k c) = if c ∈ K (p ++ [t]) then 0 else v.fats 0 c
    rw [agree k c]
  · exact fun cover => Cover.removed cover fun q hq => h.below_file file hq

/-- A slot that is free as it is. -/
theorem Layout.opened_free (h : v.Laid fs T K) (slot : fs.freeSlot v (K p) = some l) : Opened fs v T K p l v K :=
  ⟨h, openAt_of_freeSlot slot, fun _ => rfl, fun _ hc => hc, Or.inl, fun _ _ => rfl, Or.inl, fun _ _ => ⟨rfl, rfl⟩, id⟩

/-- **An entry goes into a ready slot**, and its object, which has nothing below it, into the
tree. -/
theorem Layout.laid_added (g : fs.Geometry) {w : Vol} {X : List Nat} {e : Entry} {dc : Nat}
    (laid : w.Laid fs (prune (p ++ [t]) T) K1) (hp : T p = some (.dir dc))
    (bare : ∀ q, q ≠ [] → T (p ++ [t] ++ q) = none) (absent : fs.lookup w (K1 p) t = none)
    (nolink : fs.isLink dc t = false) (slot : w.OpenAt fs (K1 p) l) (single : w.Layout fs e.obj (only e.obj) fun _ => X)
    (apart : ∀ {q x c}, prune (p ++ [t]) T q = some x → c ∈ K1 q → c ∉ X) (live : e.live = true) (name : e.name = t) :
    (w.setSlot l.1 l.2 e).Laid fs (update T (p ++ [t]) (some e.obj)) (update K1 (p ++ [t]) X) := by
  have hprune : prune (p ++ [t]) T p = some (.dir dc) :=
    prune_eq_some.mpr ⟨snoc_not_prefix_self p t, hp⟩
  have grafted := laid.graft g single (fun hq _ hc => apart hq hc) hprune absent nolink slot live name
  have tree : Lib.graft (p ++ [t]) (only e.obj) (prune (p ++ [t]) T) = update T (p ++ [t]) (some e.obj) := by
    funext q
    by_cases pre : p ++ [t] <+: q
    · obtain ⟨r, rfl⟩ := pre
      rw [graft_append]
      by_cases hr : r = []
      · rw [hr, append_nil, update_self]
        rfl
      · rw [update_of_ne (by simpa using hr), bare r hr, only, if_neg hr]
    · have hne : q ≠ p ++ [t] := fun heq => pre (heq ▸ List.prefix_refl _)
      rw [graft_outside _ _ pre, prune_outside T pre, update_of_ne hne]
  rw [tree] at grafted
  refine grafted.congr_chains fun {q x} hq => ?_
  by_cases hqt : q = p ++ [t]
  · rw [hqt, update_self, graft_self]
  · rw [update_of_ne hqt] at hq ⊢
    rw [graft_outside]
    rintro ⟨r, rfl⟩
    rw [bare r (by rintro rfl; exact hqt (by rw [append_nil]))] at hq
    cases hq

/-! ## The calls -/

variable {m : Media} {fuel : Nat}

/-- **`dir_alloc_slot` opens a slot**, or fails when there is neither a free slot nor a free
cluster. Only a growing directory takes a cluster. -/
theorem Layout.dirAllocSlot_cases (g : fs.Geometry) (h : (fs.view m).Laid fs T K) {dc : Nat}
    (hp : T p = some (.dir dc)) (enough : fs.totalClusters < fuel) :
    ((fs.dirAllocSlot dc).run fuel m = .err m ∧ fs.freeSlot (fs.view m) (K p) = none ∧ (fs.view m).freeList fs = []) ∨
    ∃ l m1 K1, (fs.dirAllocSlot dc).run fuel m = .ok l m1 ∧ Opened fs (fs.view m) T K p l (fs.view m1) K1 ∧
      ((fs.freeSlot (fs.view m) (K p) = some l ∧ m1 = m) ∨ fs.freeSlot (fs.view m) (K p) = none ∧
          ∃ nc ∈ (fs.view m).freeList fs, (fs.view m1).fat nc ≠ 0) := by
  have chain := h.chain hp
  have short := h.length_lt hp enough
  cases slot : fs.freeSlot (fs.view m) (K p) with
  | some l =>
    right
    exact ⟨l, m, K, run_dirAllocSlot_some g chain short slot, h.opened_free slot, Or.inl ⟨rfl, rfl⟩⟩
  | none =>
    cases free : (fs.view m).freeList fs with
    | nil =>
      left
      exact ⟨run_dirAllocSlot_full g chain short slot free, rfl, rfl⟩
    | cons nc rest =>
      right
      have nonempty : K p ≠ [] := h.fits hp
      obtain ⟨xs, last, split⟩ : ∃ xs last, K p = xs ++ [last] :=
        ⟨(K p).dropLast, (K p).getLast nonempty, (dropLast_append_getLast nonempty).symm⟩
      have hnc : nc ∈ (fs.view m).freeList fs := free ▸ mem_cons_self
      obtain ⟨m1, run, view⟩ := run_dirAllocSlot_grow (c := dc) g (split ▸ chain)
        (split ▸ short) (split ▸ slot) free
      have laid := h.grow g hp split slot hnc
      have here : update K p (K p ++ [nc]) p = K p ++ [nc] := update_self ..
      have fresh : ∀ {q x}, T q = some x → nc ∉ K q := fun hq =>
        h.fresh hq (mem_freeList.mp hnc).2
      have apart : nc ≠ last := by
        rintro rfl
        exact fresh hp (split ▸ by simp)
      have marked : (fs.view m1).fat nc = eocMark := by
        rw [view]
        show (if nc = last then nc else if nc = nc then eocMark else _) = eocMark
        rw [if_neg apart, if_pos rfl]
      refine ⟨(nc, 0), m1, update K p (K p ++ [nc]), run, ?_, Or.inr ⟨rfl, nc, ?_, ?_⟩⟩
      · rw [view]
        refine ⟨laid, ?_, fun hq => update_of_ne hq .., ?_, ?_, ?_, ?_, ?_, ?_⟩
        · -- the old slots are all in use, and the new cluster begins with this one
          have first : 0 < fs.entries := by have := g.entries_pos; omega
          refine ⟨?_, fs.locs (K p), (range' 1 (fs.entries - 1)).map fun i => (nc, i), ?_, ?_⟩
          · have := isEnd_zeroed g (((fs.view m).setFat nc eocMark).setFat last nc)
              (c := nc) first
            show (Entry.isEnd _ || _) = true
            rw [Bool.or_eq_true]
            exact Or.inl this
          · rw [here, locs_append]
            congr 1
            obtain ⟨k, hk⟩ : ∃ k, fs.entries = k + 1 := ⟨fs.entries - 1, by omega⟩
            simp only [locs, flatMap_cons, flatMap_nil, append_nil, hk,
              range_eq_range', range'_succ, map_cons, Nat.add_sub_cancel]
          · intro a ha
            have used := find?_eq_none.mp slot a ha
            have stands : ((fs.view m).grown fs last nc).slotAt a = (fs.view m).slotAt a :=
              slotAt_congr (fun c hc => data_setData_of_ne _ fs _ (by
                rintro rfl
                exact fresh hp hc)) ha
            rw [stands]
            simp only [Entry.free, Bool.or_eq_true, not_or, Bool.not_eq_true] at used
            exact used.1
        · intro c hc
          rw [here]
          exact mem_append_left _ hc
        · intro c hc
          rw [here, mem_append, mem_singleton] at hc
          refine hc.imp_right ?_
          rintro rfl
          exact (mem_freeList.mp hnc).2
        · intro q x c hq hc
          exact data_setData_of_ne _ fs _ fun heq => fresh hq (heq ▸ hc)
        · intro c marked
          by_cases hlast : c = last
          · exact Or.inr (by rw [here, split, hlast]; simp)
          · by_cases hnew : c = nc
            · exact Or.inr (by rw [here, hnew]; simp)
            · refine Or.inl fun zero => marked ?_
              show (if c = last then nc else if c = nc then eocMark else _) = 0
              rw [if_neg hlast, if_neg hnew]
              exact zero
        · intro c marked' unowned
          have hlast : c ≠ last := by
            rintro rfl
            exact unowned hp (split ▸ by simp)
          have hnew : c ≠ nc := by
            rintro rfl
            exact marked' (mem_freeList.mp hnc).2
          refine ⟨?_, data_setData_of_ne _ fs _ hnew⟩
          show (if c = last then nc else if c = nc then eocMark else _) = _
          rw [if_neg hlast, if_neg hnew]
          rfl
        · intro agree k c
          show (if c = last then nc else if c = nc then eocMark else _) =
            if c = last then nc else if c = nc then eocMark else _
          rw [agree k c]
      · exact mem_cons_self
      · rw [marked]
        decide

end Vol

end CanBoot
