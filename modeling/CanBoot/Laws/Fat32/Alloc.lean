import CanBoot.Laws.Fat32.Walkers
import CanBoot.Fs.Fat32.Alloc

/-!
# Allocation, run

The free clusters of a volume form a list in ascending order (`freeList`), and the engine always
takes the first of it. So a chain of `n` clusters is the first `n` of that list, linked up
(`run_allocChain`); when the list is shorter the call fails and every cluster it had is marked
(`run_allocChain_short`). Freeing a chain zeroes exactly its entries (`run_freeChain`). A directory
hands out its first free slot, and grows by one zeroed cluster when it has none.
-/

namespace CanBoot

open Lib Lib.Prog List Option

namespace Vol

/-- The free clusters, in the order `find_free_cluster` meets them. -/
def freeList (fs : Fat32) (v : Vol) : List Nat :=
  (List.range' 2 fs.totalClusters).filter fun c => v.fat c = 0

/-- Every entry of a chain zeroed. -/
def freed (v : Vol) (cs : List Nat) : Vol :=
  { v with fats := fun k c => if c ∈ cs then 0 else v.fats k c }

/-- A list of clusters marked as ends of chains. -/
def reserved (v : Vol) (cs : List Nat) : Vol :=
  { v with fats := fun k c => if c ∈ cs then eocMark else v.fats k c }

/-- A list of clusters linked into a chain. -/
def linked (v : Vol) (cs : List Nat) : Vol :=
  { v with fats := fun k => relink (v.fats k) cs eocMark }

/-- A zeroed cluster appended to a chain that ended at `last`. -/
def grown (fs : Fat32) (v : Vol) (last nc : Nat) : Vol :=
  ((v.setFat nc eocMark).setFat last nc).setData fs nc fs.zeroed

end Vol

/-- A slot `dir_alloc_slot` may hand out. -/
def Entry.free (e : Entry) : Bool := e.isEnd || e.isDeleted

namespace Fat32

/-! ## The media behind them -/

def freeAll (fs : Fat32) (m : Media) (cs : List Nat) : Media :=
  cs.foldl (fun m c => fs.putFat m c 0) m

def reserveAll (fs : Fat32) (m : Media) (cs : List Nat) : Media :=
  cs.foldl (fun m c => fs.putFat m c eocMark) m

def linkAll (fs : Fat32) : Media → List Nat → Media
  | m, [] => m
  | m, c :: cs => linkAll fs (fs.putFat m c (cs.headD eocMark)) cs

/-- The first slot of a list of clusters that can be handed out. -/
def freeSlot (fs : Fat32) (v : Vol) (cs : List Nat) : Option (Nat × Nat) :=
  (fs.locs cs).find? fun l => (v.slotAt l).free

variable {fs : Fat32} {v : Vol} {m : Media} {c fuel : Nat} {cs : List Nat}

theorem eocMark_lt : eocMark < 0x10000000 := by decide

theorem InRange.lt (g : fs.Geometry) (hc : fs.InRange c) : c < 0x10000000 := by
  have := g.cluster_lt hc
  omega

theorem mem_freeList : c ∈ v.freeList fs ↔ fs.InRange c ∧ v.fat c = 0 := by
  simp only [Vol.freeList, mem_filter, mem_range'_1, decide_eq_true_eq, InRange]

theorem nodup_freeList : (v.freeList fs).Nodup := Nodup.filter _ nodup_range'

/-- A cluster on a chain is not free. -/
theorem not_mem_freeList (h : v.HasChain fs c cs) {x : Nat} (hx : x ∈ cs) :
    x ∉ v.freeList fs := fun hf => h.ne_zero hx (mem_freeList.mp hf).2

/-- Marking the first free cluster leaves the rest of the list. -/
theorem freeList_setFat {rest : List Nat} {x : Nat} (h : v.freeList fs = c :: rest) (hx : x ≠ 0) :
    (v.setFat c x).freeList fs = rest := by
  have nodup : (c :: rest).Nodup := h ▸ nodup_freeList
  have filtered : (v.setFat c x).freeList fs = (v.freeList fs).filter fun y => y ≠ c := by
    rw [Vol.freeList, Vol.freeList, List.filter_filter]
    apply filter_congr
    intro y _
    by_cases hy : y = c
    · simp [hy, hx]
    · simp [hy]
  rw [filtered, h, filter_cons_of_neg (by simp)]
  apply filter_eq_self.mpr
  intro y hy
  have : y ≠ c := fun heq => (nodup_cons.mp nodup).1 (heq ▸ hy)
  simpa using this

theorem Geometry.candidates (g : fs.Geometry) : fs.candidates = range' 2 fs.totalClusters := by
  have := g.clusters
  unfold eoc at this
  rw [Fat32.candidates, u32_of_lt (by omega), Nat.add_sub_cancel_left]

theorem run_findFreeFrom (g : fs.Geometry) : ∀ (cs : List Nat), (∀ x ∈ cs, fs.InRange x) →
    (fs.findFreeFrom cs).run fuel m =
      match cs.filter fun x => (fs.view m).fat x = 0 with
      | [] => .err m
      | c :: _ => .ok c m
  | [], _ => rfl
  | x :: xs, hr => by
    rw [findFreeFrom, run_bind_ok (run_readFatEntry g (hr x mem_cons_self))]
    by_cases h : (fs.view m).fat x = 0
    · rw [if_pos h, filter_cons_of_pos (by simpa using h)]
      rfl
    · rw [if_neg h, filter_cons_of_neg (by simpa using h)]
      exact run_findFreeFrom g xs fun y hy => hr y (mem_cons_of_mem _ hy)

/-- **`find_free_cluster` takes the first free cluster.** -/
theorem run_findFreeCluster (g : fs.Geometry) :
    fs.findFreeCluster.run fuel m =
      match (fs.view m).freeList fs with
      | [] => .err m
      | c :: _ => .ok c m := by
  rw [findFreeCluster, g.candidates, run_findFreeFrom g]
  · rfl
  · intro x hx
    exact mem_range'_1.mp hx

/-- One value for a list of clusters. -/
theorem view_putAll (g : fs.Geometry) {n : Nat} (small : n < 268435456) : ∀ {cs : List Nat} {m : Media},
    (∀ x ∈ cs, fs.InRange x) → fs.view (cs.foldl (fun m c => fs.putFat m c n) m) =
      { fs.view m with fats := fun k c => if c ∈ cs then n else (fs.view m).fats k c }
  | [], m, _ => by
    simp only [foldl_nil, not_mem_nil, if_false]
  | x :: xs, m, hr => by
    rw [foldl_cons, view_putAll g small fun y hy => hr y (mem_cons_of_mem _ hy),
      view_putFat g m (hr x mem_cons_self) small]
    apply Vol.ext
    · funext k y
      simp only [Vol.setFat, mem_cons]
      by_cases hy : y ∈ xs <;> by_cases hx : y = x <;> simp [hy, hx]
    · rfl
    · rfl

theorem view_reserveAll (g : fs.Geometry) {cs : List Nat} {m : Media} (range : ∀ x ∈ cs, fs.InRange x) :
    fs.view (fs.reserveAll m cs) = (fs.view m).reserved cs := view_putAll g eocMark_lt range

/-- **The reserving loop takes the head of the free list**, or marks all of it and fails. -/
theorem run_reserveClusters (g : fs.Geometry) : ∀ (n : Nat) (m : Media),
    (fs.reserveClusters n).run fuel m =
      if n ≤ ((fs.view m).freeList fs).length then
        .ok (((fs.view m).freeList fs).take n) (fs.reserveAll m (((fs.view m).freeList fs).take n))
      else .err (fs.reserveAll m ((fs.view m).freeList fs))
  | 0, m => by
    rw [reserveClusters, if_pos (Nat.zero_le _), take_zero]
    rfl
  | n + 1, m => by
    rw [reserveClusters]
    cases hf : (fs.view m).freeList fs with
    | nil =>
      have stop : fs.findFreeCluster.run fuel m = .err m := by rw [run_findFreeCluster g, hf]
      rw [run_bind_err stop, if_neg (by simp)]
      rfl
    | cons c rest =>
      have first : fs.findFreeCluster.run fuel m = .ok c m := by rw [run_findFreeCluster g, hf]
      have hc : fs.InRange c := (mem_freeList.mp (hf ▸ mem_cons_self)).1
      have later : (fs.view (fs.putFat m c eocMark)).freeList fs = rest := by
        rw [view_putFat g m hc eocMark_lt, freeList_setFat hf (by decide)]
      rw [run_bind_ok first, run_bind_ok (run_writeFatEntry g hc eocMark)]
      have ih := run_reserveClusters g n (fs.putFat m c eocMark)
      rw [later] at ih
      simp only [length_cons, Nat.add_le_add_iff_right, take_succ_cons]
      by_cases hn : n ≤ rest.length
      · rw [if_pos hn] at ih ⊢
        rw [run_bind_ok ih]
        rfl
      · rw [if_neg hn] at ih ⊢
        rw [run_bind_err ih]
        rfl

theorem run_linkClusters (g : fs.Geometry) : ∀ {cs : List Nat} {m : Media},
    (∀ x ∈ cs, fs.InRange x) → (fs.linkClusters cs).run fuel m = .ok () (fs.linkAll m cs)
  | [], _, _ => rfl
  | x :: xs, m, hr => by
    rw [linkClusters, run_bind_ok (run_writeFatEntry g (hr x mem_cons_self) _)]
    exact run_linkClusters g fun y hy => hr y (mem_cons_of_mem _ hy)

theorem view_linkAll (g : fs.Geometry) : ∀ {cs : List Nat} {m : Media},
    (∀ x ∈ cs, fs.InRange x) → cs.Nodup → fs.view (fs.linkAll m cs) = (fs.view m).linked cs
  | [], m, _, _ => rfl
  | x :: xs, m, hr, hn => by
    have small : xs.headD eocMark < 0x10000000 := by
      cases xs with
      | nil => exact eocMark_lt
      | cons y ys => exact (hr y (by simp)).lt g
    rw [linkAll, view_linkAll g (fun y hy => hr y (mem_cons_of_mem _ hy))
      (nodup_cons.mp hn).2, view_putFat g m (hr x mem_cons_self) small]
    have hx : x ∉ xs := (nodup_cons.mp hn).1
    apply Vol.ext
    · funext k y
      simp only [Vol.linked, Vol.setFat]
      by_cases hy : y = x
      · subst hy
        rw [relink_of_not_mem hx, if_pos rfl]
        cases xs with
        | nil => simp only [relink, succIn, if_true, getD_some, headD_nil]
        | cons z zs => simp only [relink, succIn, if_true, getD_some, headD_cons]
      · cases xs with
        | nil => simp only [relink, succIn, hy, if_false, getD_none]
        | cons z zs => simp only [relink, succIn, hy, if_false]
    · rfl
    · rfl

/-- Linking overwrites every mark the reserving loop made. -/
theorem linked_reserved (v : Vol) (cs : List Nat) : (v.reserved cs).linked cs = v.linked cs := by
  apply Vol.ext
  · funext k y
    simp only [Vol.linked, Vol.reserved]
    by_cases hy : y ∈ cs
    · obtain ⟨z, hz⟩ := succIn_of_mem eocMark hy
      rw [relink, relink, hz]
      rfl
    · rw [relink_of_not_mem hy, relink_of_not_mem hy, if_neg hy]
  · rfl
  · rfl

/-- **`alloc_chain` links up the head of the free list.** -/
theorem run_allocChain (g : fs.Geometry) (fuel : Nat) {n : Nat} (hn : n ≠ 0) (max : n ≤ 256)
    (room : n ≤ ((fs.view m).freeList fs).length) :
    ∃ m', (fs.allocChain n).run fuel m = .ok (((fs.view m).freeList fs).take n) m' ∧
      fs.view m' = (fs.view m).linked (((fs.view m).freeList fs).take n) := by
  have range : ∀ x ∈ ((fs.view m).freeList fs).take n, fs.InRange x :=
    fun x hx => (mem_freeList.mp (mem_of_mem_take hx)).1
  have nodup : (((fs.view m).freeList fs).take n).Nodup := nodup_freeList.take
  have reserve : (fs.reserveClusters n).run fuel m = _ := run_reserveClusters g n m
  rw [if_pos room] at reserve
  refine ⟨fs.linkAll (fs.reserveAll m (((fs.view m).freeList fs).take n))
    (((fs.view m).freeList fs).take n), ?_, ?_⟩
  · rw [allocChain, bind_require_true (by simp [hn, max]),
      run_bind_ok reserve, run_bind_ok (run_linkClusters g range)]
    rfl
  · rw [view_linkAll g range nodup, view_reserveAll g range, linked_reserved]

/-- **A failed `alloc_chain` marks every free cluster**, if it got as far as looking for one. -/
theorem run_allocChain_short (g : fs.Geometry) (fuel : Nat) {n : Nat} (hn : n ≠ 0) (max : n ≤ 256)
    (short : ((fs.view m).freeList fs).length < n) : ∃ m', (fs.allocChain n).run fuel m = .err m' ∧
      fs.view m' = (fs.view m).reserved ((fs.view m).freeList fs) := by
  have reserve : (fs.reserveClusters n).run fuel m = _ := run_reserveClusters g n m
  rw [if_neg (by omega)] at reserve
  refine ⟨_, ?_, view_reserveAll g fun x hx => (mem_freeList.mp hx).1⟩
  rw [allocChain, bind_require_true (by simp [hn, max]),
    run_bind_err reserve]

theorem run_allocChain_refused {n : Nat} (h : n = 0 ∨ 256 < n) : (fs.allocChain n).run fuel m = .err m := by
  have no : (decide (n ≠ 0) && decide (n ≤ 256)) = false := by
    rcases h with h | h
    · simp [h]
    · simp [Nat.not_le.mpr h]
  rw [allocChain, bind_require_false no]

/-! ## Freeing -/

theorem view_freeAll (g : fs.Geometry) {cs : List Nat} {m : Media} (range : ∀ x ∈ cs, fs.InRange x) :
    fs.view (fs.freeAll m cs) = (fs.view m).freed cs := view_putAll g (by decide) range

/-- **`free_chain` zeroes the entries of its chain.** -/
theorem run_freeChain (g : fs.Geometry) (chain : IsChain isCluster (fs.view m).fat c cs)
    (range : ∀ x ∈ cs, fs.InRange x) (enough : cs.length < fuel) :
    (fs.freeChain c).run fuel m = .ok () (fs.freeAll m cs) := by
  rw [freeChain, run_loop]
  generalize hn : fuel = n at enough
  nth_rewrite 2 [← hn]
  clear hn
  induction cs generalizing c m n with
  | nil =>
    rcases n with _ | k
    · simp at enough
    apply run_loopN_exit
    rw [if_neg (by simpa [Lib.IsChain] using chain)]
    rfl
  | cons x xs ih =>
    rcases n with _ | k
    · simp at enough
    have hx : x = c := chain.1
    subst hx
    have hr := range x mem_cons_self
    have fresh : x ∉ xs := (nodup_cons.mp chain.nodup).1
    refine (run_loopN_next (show _ = Outcome.ok (Sum.inl ((fs.view m).fat x)) (fs.putFat m x 0)
      from ?_) k).trans ?_
    · simp only [chain.2.1, if_true]
      rw [run_bind_ok (run_readFatEntry g hr), run_bind_ok (run_writeFatEntry g hr 0)]
      rfl
    -- zeroing this entry leaves the rest of the walk alone
    have rest : IsChain isCluster (fs.view (fs.putFat m x 0)).fat ((fs.view m).fat x) xs := by
      rw [view_putFat g m hr (by decide)]
      refine chain.2.2.congr fun y hy => ?_
      rw [Vol.fat_setFat, if_neg (by rintro rfl; exact fresh hy)]
    exact ih rest (fun y hy => range y (mem_cons_of_mem _ hy)) k (by simp at enough; omega)

/-! ## Directory slots -/

theorem dirAllocSlotVisit_eq (c last i : Nat) (e : Entry) :
    dirAllocSlotVisit c last i e = decided last (if e.free then some (c, i) else none) := by
  unfold dirAllocSlotVisit Entry.free
  split <;> rfl

/-- A search for the slot itself. -/
theorem findSome?_slot (keep : Entry → Bool) (ls : List (Nat × Nat)) :
    (ls.findSome? fun l => if keep (v.slotAt l) then some l else none) =
      ls.find? fun l => keep (v.slotAt l) := by
  induction ls with
  | nil => rfl
  | cons l ls ih =>
    rw [findSome?_cons, find?_cons]
    cases keep (v.slotAt l) with
    | true => rfl
    | false => exact ih

section

variable (g : fs.Geometry) (chain : Vol.HasChain fs (fs.view m) c cs) (enough : cs.length < fuel)

include g chain enough

/-- The search of `dir_alloc_slot`: the first free slot, or the last cluster of the chain. -/
theorem run_allocWalk :
    (fs.dirWalk isCluster dirAllocSlotVisit (fun cluster _ => cluster) c c).run fuel m =
      .ok (decided (cs.getLastD c) (fs.freeSlot (fs.view m) cs)) m := by
  rw [run_dirWalk g _ _ _ chain.isChain chain.inRange enough,
    scanDir_decide _ (fun l e => if e.free then some l else none) dirAllocSlotVisit_eq,
    findSome?_slot Entry.free]
  have last : ∀ (cs : List Nat) (c : Nat), cs.foldl (fun _ x => x) c = cs.getLastD c := by
    intro cs
    induction cs with
    | nil => intro c; rfl
    | cons x xs ih => intro c; rw [foldl_cons, ih, getLastD_cons]
  rw [last]
  rfl

theorem run_dirAllocSlot_some {l : Nat × Nat} (h : fs.freeSlot (fs.view m) cs = some l) : (fs.dirAllocSlot c).run fuel m = .ok l m := by
  rw [dirAllocSlot, run_bind_ok (run_fitsBuffer g), run_bind_ok (run_allocWalk g chain enough), h]
  rfl

theorem run_dirAllocSlot_full (h : fs.freeSlot (fs.view m) cs = none)
    (full : (fs.view m).freeList fs = []) : (fs.dirAllocSlot c).run fuel m = .err m := by
  have stop : fs.findFreeCluster.run fuel m = .err m := by rw [run_findFreeCluster g, full]
  rw [dirAllocSlot, run_bind_ok (run_fitsBuffer g), run_bind_ok (run_allocWalk g chain enough), h]
  exact run_bind_err stop _

end

/-- A directory without a free slot grows by the first free cluster. -/
theorem run_dirAllocSlot_grow (g : fs.Geometry) {xs : List Nat} {last nc : Nat} {rest : List Nat}
    (chain : Vol.HasChain fs (fs.view m) c (xs ++ [last])) (enough : (xs ++ [last]).length < fuel)
    (h : fs.freeSlot (fs.view m) (xs ++ [last]) = none) (free : (fs.view m).freeList fs = nc :: rest) :
    ∃ m', (fs.dirAllocSlot c).run fuel m = .ok (nc, 0) m' ∧ fs.view m' = (fs.view m).grown fs last nc := by
  have first : fs.findFreeCluster.run fuel m = .ok nc m := by rw [run_findFreeCluster g, free]
  have hnc : fs.InRange nc := (mem_freeList.mp (free ▸ mem_cons_self)).1
  have hlast : fs.InRange last := chain.inRange last (by simp)
  have tail : (xs ++ [last]).getLastD c = last := by simp
  refine ⟨fs.putCluster (fs.putFat (fs.putFat m nc eocMark) last nc) nc fs.zeroed, ?_, ?_⟩
  · rw [dirAllocSlot, run_bind_ok (run_fitsBuffer g), run_bind_ok (run_allocWalk g chain enough), h, tail]
    simp only [decided]
    rw [run_bind_ok first, run_bind_ok (run_writeFatEntry g hnc eocMark),
      run_bind_ok (run_writeFatEntry g hlast nc), run_bind_ok (run_writeCluster g hnc _)]
    rfl
  · rw [view_putCluster g _ _ hnc, view_putFat g _ hlast (hnc.lt g), view_putFat g _ hnc eocMark_lt]
    rfl

/-- The grown directory's chain. -/
theorem hasChain_grown (g : fs.Geometry) {xs : List Nat} {last nc : Nat} (chain : v.HasChain fs c (xs ++ [last]))
    (hnc : nc ∈ v.freeList fs) : (v.grown fs last nc).HasChain fs c (xs ++ [last] ++ [nc]) := by
  obtain ⟨hr, hz⟩ := mem_freeList.mp hnc
  have fresh : nc ∉ xs ++ [last] := fun hmem => chain.ne_zero hmem hz
  have hne : nc ≠ last := fun h => fresh (by simp [h])
  have nodup := chain.nodup
  have fats : ∀ x, (v.grown fs last nc).fat x =
      if x = last then nc else if x = nc then eocMark else v.fat x := fun _ => rfl
  refine ⟨chain.isChain.snoc ?_ ?_ (g.isCluster hr) ?_, ?_, ?_⟩
  · intro x hx
    have hxl : x ≠ last := by
      rintro rfl
      exact (nodup_append.mp nodup).2.2 x hx x (by simp) rfl
    have hxn : x ≠ nc := by
      rintro rfl
      exact fresh (by simp [hx])
    rw [fats, if_neg hxl, if_neg hxn]
  · rw [fats, if_pos rfl]
  · rw [fats, if_neg hne, if_pos rfl]
    rfl
  · intro x hx
    rcases mem_append.mp hx with hx | hx
    · exact chain.inRange x hx
    · rw [mem_singleton.mp hx]
      exact hr
  · intro x hx
    have : nc = x := by simpa using hx
    subst this
    rw [fats, if_neg hne, if_pos rfl]
    decide

end Fat32

end CanBoot
