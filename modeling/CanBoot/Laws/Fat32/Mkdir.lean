import CanBoot.Laws.Fat32.Claim

/-!
# Making a directory

`canboot_fat32_mkdir` takes a cluster, fills it with `.` and `..`, and only then asks the parent for
a slot. When the parent has to grow and the cluster just taken was the last free one, the call fails
and the cluster stays marked (`mkdir_cases`). A call that returns 0 has put an empty directory into
the tree (`Made.laid`).
-/

namespace CanBoot

open Lib Lib.Prog Function List Fat32

namespace Vol

/-- A free cluster made into a directory under the directory at `pc`. -/
def newDir (fs : Fat32) (v : Vol) (nd pc : Nat) : Vol :=
  (v.setFat nd eocMark).setData fs nd (fs.newDirectory nd pc)

end Vol

namespace Fat32

variable {fs : Fat32} {v : Vol} {nd pc : Nat}

/-- The slots of a new directory: `.`, `..`, and the end. -/
theorem entryAt_newDirectory (fs : Fat32) (nd pc i : Nat) : entryAt (fs.newDirectory nd pc) i =
      if i = 1 then makeEntry dotdotName 0x10 (Vol.parentCluster fs pc) 0
      else if i = 0 then makeEntry dotName 0x10 nd 0
      else entryAt fs.zeroed i := by
  rw [newDirectory, entryAt_putEntry, entryAt_putEntry]
  rfl

/-- A cluster filled as a new directory is one, with no children. -/
theorem dirOK_newDirectory (g : fs.Geometry)
    (slots : ∀ i, i < fs.entries → v.slot nd i = entryAt (fs.newDirectory nd pc) i) :
    v.DirOK fs nd [nd] ∧ (nd ≠ fs.rootCluster → ∀ n, fs.childIn v (.dir nd) [nd] n = none) := by
  have two := g.entries_pos
  have first : (v.slot nd 0).Link dotName := by
    rw [slots 0 (by omega), entryAt_newDirectory, if_neg (by decide), if_pos rfl]
    exact ⟨live_makeEntry (by decide) (by decide) (by decide), isDir_makeEntry, name_makeEntry _⟩
  have second : (v.slot nd 1).Link dotdotName := by
    rw [slots 1 (by omega), entryAt_newDirectory, if_pos rfl]
    exact ⟨live_makeEntry (by decide) (by decide) (by decide), isDir_makeEntry, name_makeEntry _⟩
  have rest : ∀ i, i < fs.entries → 2 ≤ i → (v.slot nd i).isEnd = true := by
    intro i hi h2
    rw [slots i hi, entryAt_newDirectory, if_neg (by omega), if_neg (by omega)]
    exact isEnd_entryAt_zeroed g hi
  have live : ∀ l ∈ fs.locs [nd], (v.slotAt l).live = true → l = (nd, 0) ∨ l = (nd, 1) := by
    rintro ⟨c, i⟩ hl alive
    obtain ⟨hc, hi⟩ := mem_locs.mp hl
    have hc : c = nd := by simpa using hc
    subst hc
    by_cases h2 : 2 ≤ i
    · rw [Vol.slotAt, not_live_of_isEnd (rest i hi h2)] at alive
      cases alive
    · have : i = 0 ∨ i = 1 := by omega
      rcases this with rfl | rfl
      · exact Or.inl rfl
      · exact Or.inr rfl
  have apart : dotName ≠ dotdotName := by decide
  have order : v.DirOK fs nd [nd] := by
    refine ⟨?_, ?_, fun _ => ⟨first, second⟩⟩
    · have row : fs.locs [nd] = (List.range fs.entries).map fun i => (nd, i) := by
        simp [locs]
      unfold Vol.Terminated
      rw [row]
      refine pairwise_map.mpr (pairwise_lt_range.imp_of_mem fun {i j} _ hj lt => ?_)
      intro ended
      refine rest j (mem_range.mp hj) ?_
      -- an end is past both links
      have h0 : i ≠ 0 := by
        rintro rfl
        rw [Vol.slotAt, isEnd_of_live first.live] at ended
        cases ended
      omega
    · intro a ha b hb la lb same
      rcases live a ha la with rfl | rfl <;> rcases live b hb lb with rfl | rfl
      · rfl
      · exact absurd (first.name.symm.trans (same.trans second.name)) apart
      · exact absurd (second.name.symm.trans (same.trans first.name)).symm apart
      · rfl
  refine ⟨order, fun hnd n => ?_⟩
  cases child : fs.childIn v (.dir nd) [nd] n with
  | none => rfl
  | some x =>
    obtain ⟨nolink, a, ha, la, na, _⟩ := order.childIn_iff.mp child
    obtain ⟨noDot, noDotdot⟩ := isLink_eq_false nolink hnd
    rcases live a ha la with rfl | rfl
    · exact absurd (na.symm.trans first.name) noDot
    · exact absurd (na.symm.trans second.name) noDotdot

end Fat32

namespace Vol

variable {fs : Fat32} {v : Vol} {T : Objs} {K : Chains} {p : List Name} {t : Name} {l : Nat × Nat} {nd : Nat}

/-- Taking a free cluster for a directory changes nothing in the tree. -/
theorem Layout.laid_newDir (g : fs.Geometry) (h : v.Laid fs T K) (free : nd ∈ v.freeList fs)
    (pc : Nat) : (v.newDir fs nd pc).Laid fs T K := by
  have zero := (mem_freeList.mp free).2
  refine h.frame g (fun {q x c} hq hc => if_neg ?_) fun {q x c} hq hc => ?_
  · rintro rfl
    exact h.fresh hq zero hc
  · refine data_setData_of_ne _ fs _ ?_
    rintro rfl
    exact h.fresh hq zero hc

/-- How `canboot_fat32_mkdir` got to its return of 0: the cluster it took and the slot it claimed. -/
structure Made (fs : Fat32) (v : Vol) (T : List Name → Option Obj) (K : List Name → List Nat)
    (p : List Name) (t : Name) (dc nd : Nat) (l : Nat × Nat) (v2 : Vol)
    (K1 : List Name → List Nat) : Prop where
  parent : T p = some (.dir dc)
  nolink : fs.isLink dc t = false
  absent : T (p ++ [t]) = none
  free : nd ∈ v.freeList fs
  opened : Opened fs (v.newDir fs nd dc) T K p l v2 K1

namespace Made

variable {dc : Nat} {v2 : Vol} {K1 : Chains} (d : Made fs v T K p t dc nd l v2 K1)

include d

theorem fresh (h : v.Laid fs T K) {q : List Name} {x : Obj} (hq : T q = some x) : nd ∉ K q :=
  h.fresh hq (mem_freeList.mp d.free).2

/-- The new cluster as the claimed volume has it. -/
theorem taken (h : v.Laid fs T K) : v2.fat nd = eocMark ∧ v2.data nd = (v.newDir fs nd dc).data nd := by
  have mark : (v.newDir fs nd dc).fat nd = eocMark := if_pos rfl
  have others := d.opened.others (c := nd) (by rw [mark]; decide) fun hq => d.fresh h hq
  exact ⟨others.1.trans mark, others.2⟩

theorem bare (h : v.Laid fs T K) (q : List Name) (_ : q ≠ []) : T (p ++ [t] ++ q) = none :=
  h.none_below d.absent (List.prefix_append _ _)

/-- Nobody owns the new cluster, in the claimed volume either: a parent that grew took another. -/
theorem apart (h : v.Laid fs T K) {q : List Name} {x : Obj} (hq : T q = some x) : nd ∉ K1 q := by
  intro mem
  by_cases hqp : q = p
  · subst hqp
    rcases d.opened.took mem with old | zero
    · exact d.fresh h hq old
    · have mark : (v.newDir fs nd dc).fat nd = eocMark := if_pos rfl
      rw [mark] at zero
      exact absurd zero (by decide)
  · rw [d.opened.chains hqp] at mem
    exact d.fresh h hq mem

theorem not_root (h : v.Laid fs T K) : nd ≠ fs.rootCluster := by
  rintro rfl
  exact d.fresh h h.start (h.mem_first h.start)

theorem slots (g : fs.Geometry) (h : v.Laid fs T K) {i : Nat} (hi : i < fs.entries) :
    v2.slot nd i = entryAt (fs.newDirectory nd dc) i := by
  rw [slot, (d.taken h).2]
  exact slot_setData g _ _ hi

theorem single (g : fs.Geometry) (h : v.Laid fs T K) : v2.Layout fs (.dir nd) (only (.dir nd)) fun _ => [nd] := by
  have range := (mem_freeList.mp d.free).1
  obtain ⟨order, empty⟩ := Fat32.dirOK_newDirectory g fun i hi => d.slots g h hi
  refine layout_only ⟨⟨rfl, g.isCluster range, ?_⟩, ?_, ?_⟩ (cons_ne_nil _ _) ?_
    (empty (d.not_root h))
  · show isCluster (v2.fat nd) = false
    rw [(d.taken h).1]
    decide
  · intro c hc
    rw [mem_singleton.mp hc]
    exact range
  · intro c hc
    have : nd = c := by simpa using hc
    rw [← this, (d.taken h).1]
    decide
  · intro dc' heq
    cases heq
    exact order

/-- **A directory made is in the tree**, empty. -/
theorem laid (g : fs.Geometry) (h : v.Laid fs T K) (h0 : t.byte 0 ≠ 0) (h5 : t.byte 0 ≠ 0xE5) :
    (v2.setSlot l.1 l.2 (makeEntry t 0x10 nd 0)).Laid fs
      (update T (p ++ [t]) (some (.dir nd))) (update K1 (p ++ [t]) [nd]) := by
  have small : nd < 4294967296 := by
    have := (mem_freeList.mp d.free).1.lt g
    omega
  have obj : (makeEntry t 0x10 nd 0).obj = .dir nd := obj_makeEntry_dir small
  have ready := d.opened.claimed (h.laid_newDir g d.free dc) d.parent d.nolink d.absent
  have same : v2.setSlot l.1 l.2 (v2.slotAt l) = v2 := setSlot_slot v2 l.1 l.2
  have clear := ready.laid
  have absent := ready.absent
  have slot := ready.slot
  rw [same] at clear absent slot
  have added := Layout.laid_added g clear d.parent (d.bare h) absent d.nolink slot
    (obj ▸ d.single g h)
    (fun hq hc mem => d.apart h (prune_eq_some.mp hq).2 (by rwa [mem_singleton.mp mem] at hc))
    (live_makeEntry (by decide) h0 h5) (name_makeEntry _)
  rwa [obj] at added

/-- What stood in the tree before keeps its bytes, but for the slot. -/
theorem slotAt_eq (h : v.Laid fs T K) {q : List Name} {x : Obj} {a : Nat × Nat} (hq : T q = some x) (ha : a.1 ∈ K q)
    (hne : a ≠ l) : (v2.setSlot l.1 l.2 (makeEntry t 0x10 nd 0)).slotAt a = v.slotAt a := by
  have untouched : (v.newDir fs nd dc).data a.1 = v.data a.1 := by
    refine data_setData_of_ne _ fs _ ?_
    rintro rfl
    exact d.fresh h hq ha
  rw [slotAt_setSlot, if_neg hne, slotAt, slot, d.opened.data hq ha, untouched]
  rfl

/-- **The tree after the call is the old one with the directory in it.** -/
theorem tree_eq (g : fs.Geometry) (h : v.Laid fs T K) (h0 : t.byte 0 ≠ 0) (h5 : t.byte 0 ≠ 0xE5) :
    fs.tree (v2.setSlot l.1 l.2 (makeEntry t 0x10 nd 0)) = update (fs.tree v) (p ++ [t]) (some .dir) := by
  have after := d.laid g h h0 h5
  funext q
  by_cases hqt : q = p ++ [t]
  · rw [after.tree_eq, hqt, update_self, update_self, update_self]
    rfl
  · rw [update_of_ne hqt]
    refine Layout.tree_congr h after (update_of_ne hqt ..) fun {c n} hq => ?_
    have hqp : q ≠ p := by
      rintro rfl
      rw [d.parent] at hq
      cases hq
    rw [update_of_ne hqt, d.opened.chains hqp]
    refine chainBytes_congr fun x hx => ?_
    have hne : x ≠ l.1 := by
      rintro rfl
      have mem : l.1 ∈ K1 q := by rwa [d.opened.chains hqp]
      exact hqp (d.opened.laid.disjoint hq d.parent mem
        (Fat32.mem_locs.mp d.opened.slot.mem).1)
    have untouched : (v.newDir fs nd dc).data x = v.data x := by
      refine data_setData_of_ne _ fs _ ?_
      rintro rfl
      exact d.fresh h hq hx
    rw [data_setSlot_of_ne _ _ _ hne, d.opened.data hq hx, untouched]

theorem tight (g : fs.Geometry) (h : v.Laid fs T K) (tight : v.Tight fs T K) (hdot : t.byte 0 ≠ dot) :
    (v2.setSlot l.1 l.2 (makeEntry t 0x10 nd 0)).Tight fs
      (update T (p ++ [t]) (some (.dir nd))) (update K1 (p ++ [t]) [nd]) where
  cover c hc marked := by
    by_cases new : c = nd
    · exact ⟨p ++ [t], _, update_self .., by
        rw [update_self, new]
        exact mem_singleton_self nd⟩
    · have back : ∀ {q x}, T q = some x → c ∈ K1 q → ∃ q x, update T (p ++ [t]) (some (.dir nd)) q = some x ∧
          c ∈ update K1 (p ++ [t]) [nd] q := by
        intro q x hq mem
        have hne : q ≠ p ++ [t] := by
          rintro rfl
          rw [d.absent] at hq
          cases hq
        exact ⟨q, x, by rw [update_of_ne hne]; exact hq, by rw [update_of_ne hne]; exact mem⟩
      rcases d.opened.marks marked with old | mem
      · have old : v.fat c ≠ 0 := by
          intro zero
          apply old
          show (if c = nd then eocMark else v.fat c) = 0
          rw [if_neg new, zero]
        obtain ⟨q, x, hq, mem⟩ := tight.cover c hc old
        by_cases hqp : q = p
        · exact back hq (by rw [hqp] at mem ⊢; exact d.opened.own mem)
        · exact back hq (by rw [d.opened.chains hqp]; exact mem)
      · exact back d.parent mem
  exact {q c n} hq := by
    have hqt : q ≠ p ++ [t] := by
      rintro rfl
      rw [update_self] at hq
      cases hq
    rw [update_of_ne hqt] at hq ⊢
    have hqp : q ≠ p := by
      rintro rfl
      rw [d.parent] at hq
      cases hq
    rw [d.opened.chains hqp]
    exact tight.exact hq
  dotdot {q s pc dc'} hq hs := by
    have hqt : q ≠ p ++ [t] := by
      rintro rfl
      rw [update_of_ne (by simp), d.bare h [s] (by simp)] at hs
      cases hs
    rw [update_of_ne hqt] at hq
    by_cases hst : q ++ [s] = p ++ [t]
    · -- the new directory: its `..` was written for this parent
      have hqp : q = p := append_inj_left' hst rfl
      subst hqp
      rw [hst, update_self] at hs
      cases hs
      cases Option.some.inj (hq.symm.trans d.parent)
      have hne : (nd, 1) ≠ l := by
        rintro rfl
        exact d.apart h d.parent (Fat32.mem_locs.mp d.opened.slot.mem).1
      have keep : (v2.setSlot l.1 l.2 (makeEntry t 0x10 nd 0)).slot nd 1 = v2.slot nd 1 :=
        (slotAt_setSlot v2 l (nd, 1) _).trans (if_neg hne)
      have small : parentCluster fs dc < 4294967296 := by
        have := ((h.chain d.parent).inRange dc (h.mem_first d.parent)).lt g
        unfold parentCluster
        split <;> omega
      rw [keep, d.slots g h (i := 1) g.entries_pos, Fat32.entryAt_newDirectory, if_pos rfl,
        firstCluster_makeEntry _ small]
    · rw [update_of_ne hst] at hs
      have hne : (dc', 1) ≠ l := by
        rintro rfl
        have link := ((d.opened.laid.dir hs).links (h.not_root hs (by simp))).2
        have free := not_live_of_free d.opened.slot.1
        exact absurd (link.live.symm.trans free) (by decide)
      have keep : (v2.setSlot l.1 l.2 (makeEntry t 0x10 nd 0)).slot dc' 1 = v.slot dc' 1 :=
        d.slotAt_eq h (a := (dc', 1)) hs (h.mem_first hs) hne
      rw [keep]
      exact tight.dotdot hq hs
  copies := by
    refine d.opened.copies fun k c => ?_
    show (if c = nd then eocMark else v.fats k c) = if c = nd then eocMark else v.fats 0 c
    rw [tight.copies k c]
  plain {q n x} hq := by
    by_cases hqt : q ++ [n] = p ++ [t]
    · have : n = t := singleton_inj.mp (append_inj_right' hqt rfl)
      rw [this]
      exact isDotName_of_head hdot
    · rw [update_of_ne hqt] at hq
      exact tight.plain hq

end Made

/-! ## The call -/

variable {m : Media} {fuel : Nat}

/-- **The cases of `canboot_fat32_mkdir`.** It fails before it has written anything, or it fails with a
cluster taken, or it succeeds. -/
theorem Layout.mkdir_cases (g : fs.Geometry) (h : (fs.view m).Laid fs T K)
    (enough : fs.totalClusters < fuel) (writable : fs.disk.writable = true) (path : Bytes) :
    ((canbootFat32Mkdir fs path).run fuel m = .err m ∧ ∀ p t, target path = some (p, t) → ∀ dc, T p = some (.dir dc) →
        T (p ++ [t]) ≠ none ∨ (fs.view m).freeList fs = []) ∨
    ∃ p t dc nd, target path = some (p, t) ∧ T p = some (.dir dc) ∧ T (p ++ [t]) = none ∧ nd ∈ (fs.view m).freeList fs ∧
      ((∃ m', (canbootFat32Mkdir fs path).run fuel m = .err m' ∧ (fs.view m').fat nd ≠ 0) ∨
        ∃ l m2 K1 m', Made fs (fs.view m) T K p t dc nd l (fs.view m2) K1 ∧
          (canbootFat32Mkdir fs path).run fuel m = .ok () m' ∧
          fs.view m' = (fs.view m2).setSlot l.1 l.2 (makeEntry t 0x10 nd 0)) := by
  rw [canbootFat32Mkdir, bind_require_true writable]
  rcases h.resolveParent_cases g enough path with ⟨fails, none'⟩ | ⟨p, t, dc, ht, hp, nolink, run⟩
  · left
    exact ⟨run_bind_err fails _, fun p t ht dc hp => absurd hp (none' p t ht dc)⟩
  · rw [run_bind_ok run]
    simp only
    have check := h.run_requireAbsent g hp nolink enough
    by_cases absent : T (p ++ [t]) = none
    · rw [if_pos absent] at check
      rw [run_bind_ok check]
      have find : fs.findFreeCluster.run fuel m = _ := run_findFreeCluster g
      cases free : (fs.view m).freeList fs with
      | nil =>
        rw [free] at find
        left
        exact ⟨run_bind_err find _, fun _ _ _ _ _ => Or.inr rfl⟩
      | cons nd rest =>
        rw [free] at find
        right
        have mem : nd ∈ (fs.view m).freeList fs := free ▸ mem_cons_self
        have range := (mem_freeList.mp mem).1
        refine ⟨p, t, dc, nd, ht, hp, absent, mem_cons_self, ?_⟩
        rw [run_bind_ok find, run_bind_ok (run_writeFatEntry g range _), run_bind_ok (run_fitsBuffer g),
          run_bind_ok (run_writeCluster g range _)]
        generalize hm1 : fs.putCluster (fs.putFat m nd eocMark) nd (fs.newDirectory nd dc) = m1
        have view : fs.view m1 = (fs.view m).newDir fs nd dc := by
          rw [← hm1, view_putCluster g _ _ range, view_putFat g _ range eocMark_lt]
          rfl
        have laid : (fs.view m1).Laid fs T K := view ▸ h.laid_newDir g mem dc
        have mark : (fs.view m1).fat nd = eocMark := by
          rw [view]
          exact if_pos rfl
        rcases laid.dirAllocSlot_cases g hp enough with ⟨fails, _⟩ | ⟨l, m2, K1, slot, opened, _⟩
        · left
          exact ⟨m1, run_bind_err fails _, by rw [mark]; decide⟩
        · right
          rw [view] at opened
          have hl := Fat32.mem_locs.mp opened.slot.mem
          have inside := (opened.laid.chain hp).inRange _ hl.1
          refine ⟨l, m2, K1, fs.putSlot m2 l.1 l.2 (makeEntry t 0x10 nd 0),
            ⟨hp, nolink, absent, mem, opened⟩, ?_, view_putSlot g inside hl.2 _⟩
          rw [run_bind_ok slot]
          exact run_dirWriteEntry g inside l.2 _
    · rw [if_neg absent] at check
      left
      refine ⟨run_bind_err check _, fun p' t' ht' _ _ => Or.inl ?_⟩
      obtain ⟨rfl, rfl⟩ := Prod.mk.inj (Option.some.inj (ht.symm.trans ht'))
      exact absent

end Vol

end CanBoot
