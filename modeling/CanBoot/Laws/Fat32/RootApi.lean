import CanBoot.Laws.Fat32.Listing
import CanBoot.Laws.Fat32.RootWrite

/-!
# The root calls and the path calls

`canboot_fat32_read_root_file`, `canboot_fat32_delete_root_file` and `canboot_fat32_list_root` walk
the root themselves, with filters of their own. They look among the regular files, where the path
calls find an entry of any kind and turn a directory down afterwards; since names are unique that
comes to the same (`run_rootWalk`). Only the listings differ: the path call skips the names of `.`
and `..` in every directory, the root call in none.
-/

namespace CanBoot

open Lib Lib.Prog Fat32 List Option

variable {υ : Type} {fs : Fat32} {v : Vol} {m : Media} {fuel : Nat} {T : Objs} {K : Chains}

/-! ## Looking in the root -/

/-- What a walk over the root has found. -/
def rootHit : Unit ⊕ Option (Entry × Nat × Nat) → Option (Entry × Nat × Nat)
  | .inr r => r
  | .inl _ => none

theorem not_regular_of_isEnd {e : Entry} (h : e.isEnd = true) : e.regular = false := by
  rw [Entry.regular, not_live_of_isEnd h, Bool.false_and]

theorem findRootEntryVisit_eq (t : Name) (c : Nat) (a : Unit) (i : Nat) (e : Entry) :
    findRootEntryVisit t c a i e = decided a (findDecide Entry.regular t (c, i) e) := by
  unfold findRootEntryVisit findDecide Entry.regular Entry.live
  cases e.isEnd <;> cases e.isDeleted <;> cases e.isLfn <;> cases e.isVolumeId <;> cases e.isDir <;>
    by_cases e.name = t <;> simp [*, decided]

namespace Vol.Layout

/-- Among the regular files a name stands where it stands among all entries, if at all. -/
theorem find_regular {dc : Nat} {cs : List Nat} (order : v.DirOK fs dc cs) (t : Name) :
    ((fs.locs cs).find? fun l => (v.slotAt l).regular && decide ((v.slotAt l).name = t)) =
      (fs.lookup v cs t).filter fun l => (v.slotAt l).regular := by
  cases found : fs.lookup v cs t with
  | none =>
    refine find?_eq_none.mpr fun l hl hit => ?_
    obtain ⟨regular, name⟩ := Bool.and_eq_true_iff.mp hit
    exact lookup_eq_none.mp found l hl (Bool.and_eq_true_iff.mp regular).1
      (of_decide_eq_true name)
  | some l =>
    obtain ⟨hl, live, name⟩ := lookup_eq_some t found
    have only : ∀ a ∈ fs.locs cs, ((v.slotAt a).regular && decide ((v.slotAt a).name = t)) = true → a = l := by
      intro a ha hit
      obtain ⟨regular, name'⟩ := Bool.and_eq_true_iff.mp hit
      exact order.unique a ha l hl (Bool.and_eq_true_iff.mp regular).1 live
        ((of_decide_eq_true name').trans name.symm)
    cases regular : (v.slotAt l).regular with
    | false =>
      rw [filter_some, regular]
      refine find?_eq_none.mpr fun a ha hit => ?_
      rw [only a ha hit, regular] at hit
      cases hit
    | true =>
      rw [filter_some, regular, if_pos rfl]
      have hit : ((v.slotAt l).regular && decide ((v.slotAt l).name = t)) = true := by
        rw [regular, name, decide_eq_true rfl]
        rfl
      cases first : (fs.locs cs).find? fun a =>
          (v.slotAt a).regular && decide ((v.slotAt a).name = t) with
      | none => exact absurd hit (find?_eq_none.mp first l hl)
      | some a =>
        have hit' := find?_some first
        rw [only a (mem_of_find?_eq_some first) hit']

/-- **The walk of the root calls finds the entry of the name, if it is a regular file's.** -/
theorem run_rootWalk (g : fs.Geometry) (h : (fs.view m).Laid fs T K) (enough : fs.totalClusters < fuel) (t : Name) :
    ∃ r, (fs.dirWalk Fat32.belowEoc (findRootEntryVisit t) (fun _ a => a) fs.rootCluster
        ()).run fuel m = .ok r m ∧ rootHit r = ((fs.lookup (fs.view m) (K []) t).filter
        fun l => ((fs.view m).slotAt l).regular).map fun l => ((fs.view m).slotAt l, l.1, l.2) := by
  have chain : (fs.view m).HasChain fs fs.rootCluster (K []) := h.chain h.start
  have walk := run_dirWalk g (findRootEntryVisit t) (fun _ a => a) ()
    (chain.belowEoc (h.fits h.start)) chain.inRange (h.length_lt h.start enough)
  rw [scanDir_decide _ (findDecide Entry.regular t) (findRootEntryVisit_eq t)] at walk
  have found := findSome?_findDecide (v := fs.view m) not_regular_of_isEnd t (fs.locs (K []))
    (h.dir h.start).terminated
  rw [find_regular (h.dir h.start)] at found
  refine ⟨_, walk, ?_⟩
  rw [← found]
  cases (fs.locs (K [])).findSome? fun l =>
      findDecide Entry.regular t l ((fs.view m).slotAt l) with
  | none => rfl
  | some r => rfl

/-- What the path calls find for a name in the root, and the root calls with them. -/
theorem root_cases (g : fs.Geometry) (h : (fs.view m).Laid fs T K)
    (enough : fs.totalClusters < fuel) {name : Bytes} (free : ∀ c ∈ name, c ≠ slash)
    (pos : name ≠ []) (short : name.length ≤ 15) :
    ∃ r, (fs.dirWalk Fat32.belowEoc (findRootEntryVisit (to83 name)) (fun _ a => a)
        fs.rootCluster ()).run fuel m = .ok r m ∧
      (((fs.resolveFound (slash :: name)).run fuel m = .err m ∧ rootHit r = none) ∨
        ∃ l ∈ fs.locs (K []), (fs.resolveFound (slash :: name)).run fuel m = .ok ((fs.view m).slotAt l, l.1, l.2) m ∧
          T [to83 name] = some ((fs.view m).slotAt l).obj ∧
          rootHit r = if ((fs.view m).slotAt l).isDir then none
            else some ((fs.view m).slotAt l, l.1, l.2)) := by
  obtain ⟨r, walk, hit⟩ := h.run_rootWalk g enough (to83 name)
  refine ⟨r, walk, ?_⟩
  have ht := target_root free pos short
  rcases h.resolveFound_cases g enough (slash :: name) with ⟨fails, absent⟩ |
    ⟨p, t, dc, l, ht', hp, _, found, obj, run⟩
  · left
    have none' := h.at_snoc h.start (isLink_root fs (to83 name))
    rw [absent _ _ ht] at none'
    rw [map_eq_none_iff.mp none'.symm] at hit
    exact ⟨fails, hit⟩
  · right
    cases ht.symm.trans ht'
    obtain ⟨hl, live, _⟩ := lookup_eq_some _ found
    refine ⟨l, hl, run, obj, ?_⟩
    rw [hit, found, filter_some, Entry.regular, live]
    cases ((fs.view m).slotAt l).isDir <;> rfl

/-! ## The calls -/

variable (g : fs.Geometry) (h : (fs.view m).Laid fs T K) (enough : fs.totalClusters < fuel)
  {name : Bytes} (free : ∀ c ∈ name, c ≠ slash) (pos : name ≠ []) (short : name.length ≤ 15)

include g h enough free pos short

/-- **A file of the root reads the same by both calls.** -/
theorem readRoot_eq (buf : Buf) (n : Nat) : (canbootFat32ReadRootFile fs name buf n).run fuel m =
      (canbootFat32ReadPath fs (slash :: name) buf n).run fuel m := by
  obtain ⟨r, walk, found⟩ := h.root_cases g enough free pos short
  have root : (canbootFat32ReadRootFile fs name buf n).run fuel m =
      (rootHit r).elim (.err m) fun x => (fs.readEntry x.1 buf n).run fuel m := by
    have search : (fs.findRootEntry name).run fuel m = .ok ((rootHit r).map fun x =>
        (x.1, fs.clusterLba x.2.1 + x.2.2 * 32 / fs.bytesPerSector * fs.spb, x.2.2 * 32 % fs.bytesPerSector)) m := by
      rw [findRootEntry, run_bind_ok (run_fitsBuffer g), run_bind_ok walk]
      rcases r with _ | _ | _ <;> rfl
    rw [canbootFat32ReadRootFile, run_bind_ok search]
    cases rootHit r <;> rfl
  rw [root, canbootFat32ReadPath]
  rcases found with ⟨fails, hit⟩ | ⟨l, _, run, _, hit⟩
  · rw [hit, run_bind_err fails, elim_none]
  · rw [hit, run_bind_ok run]
    cases isDir : ((fs.view m).slotAt l).isDir with
    | true => exact (bind_require_false (by rw [isDir]; rfl)).symm
    | false =>
      have passes : (Prog.require (!((fs.view m).slotAt l).isDir)).run fuel m = .ok () m :=
        run_require_true (by rw [isDir]; rfl) _ _
      exact (run_bind_ok passes fun _ => fs.readEntry ((fs.view m).slotAt l) buf n).symm

omit h enough free pos short in
/-- Freeing a chain touches no cluster's bytes. -/
theorem clusterBuf_freeAll {cs : List Nat} (range : ∀ x ∈ cs, fs.InRange x) {c : Nat}
    (hc : fs.InRange c) : fs.clusterBuf (fs.freeAll m cs) c = fs.clusterBuf m c := by
  funext o
  by_cases ho : o < fs.bytesPerCluster
  · rw [clusterBuf_eq g hc ho, clusterBuf_eq g hc ho, view_freeAll g range]
    rfl
  · have out : ¬ o < fs.sectorsPerCluster * 512 := by
      have := g.bytesPerCluster
      omega
    rw [clusterBuf, clusterBuf, if_neg out, if_neg out]

/-- **A file of the root is deleted the same way by both calls**, to the byte. -/
theorem deleteRoot_eq (writable : fs.disk.writable = true) : (canbootFat32DeleteRootFile fs name).run fuel m =
      (canbootFat32UnlinkPath fs (slash :: name)).run fuel m := by
  obtain ⟨r, walk, found⟩ := h.root_cases g enough free pos short
  rw [canbootFat32DeleteRootFile, canbootFat32UnlinkPath,
    run_bind_ok (run_fitsBuffer g), bind_require_true writable]
  have visit : (fs.dirWalk Fat32.belowEoc (deleteRootVisit (to83 name)) (fun _ a => a)
      fs.rootCluster ()).run fuel m = .ok r m := walk
  rw [run_bind_ok visit]
  rcases found with ⟨fails, hit⟩ | ⟨l, hl, run, obj, hit⟩
  · rw [run_bind_err fails]
    rcases r with _ | _ | _
    · rfl
    · rfl
    · cases hit
  · rw [run_bind_ok run]
    cases isDir : ((fs.view m).slotAt l).isDir with
    | true =>
      rw [isDir, if_pos rfl] at hit
      refine Eq.trans ?_
        (bind_require_false (by rw [isDir]; rfl)).symm
      rcases r with _ | _ | _
      · rfl
      · rfl
      · cases hit
    | false =>
      rw [isDir, if_neg Bool.false_ne_true] at hit
      have found : r = .inr (some ((fs.view m).slotAt l, l.1, l.2)) := by
        rcases r with _ | r
        · cases hit
        · rw [← hit]
          rfl
      subst found
      have hc : fs.InRange l.1 := (h.chain h.start).inRange l.1 (mem_locs.mp hl).1
      have chain : (fs.view m).HasChain fs ((fs.view m).slotAt l).firstCluster (K [to83 name]) := by
        rw [← Entry.first_obj]
        exact h.chain obj
      have freed : (fs.freeChain ((fs.view m).slotAt l).firstCluster).run fuel m = _ :=
        run_freeChain g chain.isChain chain.inRange (h.length_lt obj enough)
      rw [run_bind_ok (run_readCluster g hc), run_bind_ok freed]
      refine Eq.trans ?_
        (bind_require_true (by rw [isDir]; rfl)).symm
      rw [run_bind_ok freed, dirMarkDeleted, run_bind_ok (run_fitsBuffer g),
        run_bind_ok (run_readCluster g hc), clusterBuf_freeAll g chain.inRange hc]

end Vol.Layout

/-! ## The listings -/

/-- A callback that keeps all it is told. -/
def collect {α : Type} (seen : List α) (a : α) : Bool × List α := (true, seen ++ [a])

theorem report_collect {α : Type} (f : Entry → α) : ∀ (es : List Entry) (n : Nat) (seen : List α),
    report (fun u e => collect u (f e)) es (n, seen) = (n + es.length, seen ++ es.map f)
  | [], n, seen => by simp [report]
  | e :: es, n, seen => by
    rw [report, collect, if_pos rfl, report_collect f es]
    simp only [length_cons, map_cons, append_assoc, singleton_append]
    congr 1
    omega

/-- The root holds no regular file called `.` or `..`. -/
def Fat32.PlainRoot (fs : Fat32) (v : Vol) : Prop :=
  ∀ l ∈ fs.locs (v.chainAt fs []), (v.slotAt l).regular = true → isDotName (v.slotAt l).name = false

/-- What the root calls and the path calls have in common, for one name. -/
structure RootAgrees (fs : Fat32) (fuel : Nat) (m : Media) (name : List UInt8) : Prop where
  read : ∀ buf n, (canbootFat32ReadRootFile fs name buf n).run fuel m =
    (canbootFat32ReadPath fs (slash :: name) buf n).run fuel m
  delete : (canbootFat32DeleteRootFile fs name).run fuel m = (canbootFat32UnlinkPath fs (slash :: name)).run fuel m
  list : ∃ count count' files entries,
    (canbootFat32ListRoot fs (fun u name size => collect u (name, size)) []).run fuel m = .ok (count, files) m ∧
    (canbootFat32ListPath fs [slash] (fun u name size isDir => collect u (name, size, isDir))
      []).run fuel m = .ok (count', entries) m ∧
    files = (entries.filter fun x => !x.2.2).map fun x => (x.1, x.2.1)

/-- The regular files among the listed entries, where none is called `.` or `..`. -/
theorem listing_regular {cs : List Nat}
    (plain : ∀ l ∈ fs.locs cs, (v.slotAt l).regular = true → isDotName (v.slotAt l).name = false) :
    (fs.listing v Entry.listed cs).filter (fun e => !e.isDir) = fs.listing v Entry.regular cs := by
  rw [listing, listing, List.filter_filter]
  refine filter_congr fun e he => ?_
  obtain ⟨l, hl, rfl⟩ := List.mem_map.mp he
  cases regular : (v.slotAt l).regular with
  | true =>
    obtain ⟨live, notDir⟩ := Bool.and_eq_true_iff.mp regular
    rw [Entry.listed, live, notDir, plain l hl regular]
    rfl
  | false =>
    rw [Entry.regular] at regular
    rw [Entry.listed, Bool.and_comm, Bool.and_right_comm, regular, Bool.false_and]

/-- The small volume with a regular file whose name is that of `.`, as no call of the engine would
make it. -/
def tinyDot : Media := tiny.putSlot tinyMedia 2 0 (makeEntry dotName 0x20 0 0)

theorem tinyDot_wellFormed : (tiny.view tinyDot).WellFormed tiny := by
  have room : Vol.Room tiny (tiny.view tinyMedia) [] [] :=
    ⟨nofun, nodup_nil, Nat.zero_le _⟩
  have hit : tiny.rootSlot (tiny.view tinyMedia) [2] dotName = some (2, 0) := by decide +kernel
  have new := Vol.Layout.root_new room hit tiny_laid (by decide +kernel) rfl
    (obj_makeEntry_file (t := dotName) (c := 0) (n := 0) (by decide) (by decide))
    (live_makeEntry (by decide) (by decide) (by decide)) (name_makeEntry _)
  have laid := new.1.laid tiny_geometry tiny_laid
  have view : tiny.view tinyDot = (tiny.view tinyMedia).wrote tiny [] []
      (makeEntry dotName 0x20 0 0) (2, 0) :=
    view_putSlot tiny_geometry (by decide) (by decide) _
  rw [view]
  exact laid.wellFormed

end CanBoot
