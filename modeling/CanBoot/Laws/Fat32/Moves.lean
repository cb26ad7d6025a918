import CanBoot.Laws.Fat32.Tree

/-!
# The moves of a layout

Every call of the path engine, read as a change of the volume, is made of a few moves, and each
keeps the volume laid out: clusters nobody owns change (`frame`), a directory without a free slot
grows by a zeroed cluster (`grow`), an entry is marked deleted and the tree below it comes off
(`detach`), an entry goes into a free slot and a tree comes on (`graft`), the `..` of a directory is
pointed elsewhere (`setDotdot`). The calls make their writes in other orders; the slots and table
entries they touch are different ones, so the order does not matter.
-/

namespace CanBoot

open Lib Function List

variable {fs : Fat32} {v v' : Vol} {cs : List Nat}

namespace Vol

/-- A free slot before the end of the directory, or the first one after it. -/
def OpenAt (fs : Fat32) (v : Vol) (cs : List Nat) (l : Nat × Nat) : Prop :=
  (v.slotAt l).free = true ∧ ∃ pre post, fs.locs cs = pre ++ l :: post ∧ ∀ a ∈ pre, (v.slotAt a).isEnd = false

theorem slotAt_setSlot (v : Vol) (l a : Nat × Nat) (e : Entry) :
    (v.setSlot l.1 l.2 e).slotAt a = if a = l then e else v.slotAt a := by
  rw [slotAt, slot_setSlot]
  simp only [Prod.ext_iff]
  rfl

variable {l : Nat × Nat}

theorem OpenAt.mem (h : v.OpenAt fs cs l) : l ∈ fs.locs cs := by
  obtain ⟨_, pre, post, split, _⟩ := h
  rw [split]
  simp

theorem OpenAt.congr (h : v.OpenAt fs cs l)
    (agree : ∀ a ∈ fs.locs cs, v'.slotAt a = v.slotAt a) : v'.OpenAt fs cs l := by
  have here := agree l h.mem
  obtain ⟨free, pre, post, split, early⟩ := h
  refine ⟨here ▸ free, pre, post, split, fun a ha => ?_⟩
  rw [agree a (by rw [split]; exact mem_append_left _ ha)]
  exact early a ha

/-- What `dir_alloc_slot` finds is open. -/
theorem openAt_of_freeSlot (h : fs.freeSlot v cs = some l) : v.OpenAt fs cs l := by
  obtain ⟨hl, pre, post, split, before⟩ := find?_eq_some_iff_append.mp h
  refine ⟨hl, pre, post, split, fun a ha => ?_⟩
  have := before a ha
  simp only [Entry.free, Bool.not_or, Bool.and_eq_true, Bool.not_eq_true'] at this
  exact this.1

/-- A live entry of an ordered directory stands before its end. -/
theorem Terminated.before (term : v.Terminated fs cs) {pre post : List (Nat × Nat)}
    (split : fs.locs cs = pre ++ l :: post) (live : (v.slotAt l).live = true) :
    ∀ a ∈ pre, (v.slotAt a).isEnd = false := by
  intro a ha
  unfold Terminated at term
  rw [split] at term
  have after := (pairwise_append.mp term).2.2 a ha l mem_cons_self
  cases hend : (v.slotAt a).isEnd with
  | false => rfl
  | true =>
    rw [Fat32.not_live_of_isEnd (after hend)] at live
    cases live

end Vol

namespace Fat32

variable {e : Entry}

theorem isEnd_of_live (h : e.live = true) : e.isEnd = false := by
  cases hend : e.isEnd with
  | false => rfl
  | true => rw [not_live_of_isEnd hend] at h; cases h

theorem not_live_of_free (h : e.free = true) : e.live = false := by
  unfold Entry.free at h
  unfold Entry.live
  cases he : e.isEnd <;> cases hd : e.isDeleted <;> simp_all

theorem isEnd_of_isDeleted (h : e.isDeleted = true) : e.isEnd = false := by
  have h : e.byte 0 = 0xE5 := by simpa only [Entry.isDeleted, decide_eq_true_eq] using h
  simp only [Entry.isEnd, h]
  decide

theorem isLink_eq_false {dc : Nat} {n : Name} (h : fs.isLink dc n = false)
    (hdc : dc ≠ fs.rootCluster) : n ≠ dotName ∧ n ≠ dotdotName := by
  simpa [isLink, hdc] using h

/-- A zeroed cluster holds nothing. -/
theorem isEnd_entryAt_zeroed (g : fs.Geometry) {i : Nat} (hi : i < fs.entries) :
    (entryAt fs.zeroed i).isEnd = true := by
  have inside : i * 32 + 0 < fs.bytesPerCluster := by
    have := g.entries
    omega
  have zero : fs.zeroed (i * 32 + 0) = 0 := if_pos inside
  exact decide_eq_true zero

theorem isEnd_zeroed (g : fs.Geometry) (v : Vol) {c i : Nat} (hi : i < fs.entries) :
    ((v.setData fs c fs.zeroed).slot c i).isEnd = true := by
  rw [slot_setData g v _ hi]
  exact isEnd_entryAt_zeroed g hi

/-- A slot edit that leaves an ordered directory's end where it was. -/
theorem terminated_setSlot {l : Nat × Nat} {pre post : List (Nat × Nat)} (term : v.Terminated fs cs) (nodup : cs.Nodup)
    (split : fs.locs cs = pre ++ l :: post) (before : ∀ a ∈ pre, (v.slotAt a).isEnd = false) (stays : e.isEnd = false) :
    (v.setSlot l.1 l.2 e).Terminated fs cs := by
  have distinct : (fs.locs cs).Nodup := nodup_locs nodup
  unfold Vol.Terminated at term ⊢
  rw [split] at term distinct ⊢
  obtain ⟨front, back, _⟩ := pairwise_append.mp term
  obtain ⟨_, rear⟩ := pairwise_cons.mp back
  obtain ⟨_, apart, notPre⟩ := nodup_append.mp distinct
  have keep : ∀ {a}, a ≠ l → (v.setSlot l.1 l.2 e).slotAt a = v.slotAt a := fun {a} ha => by
    rw [Vol.slotAt_setSlot, if_neg ha]
  have here : (v.setSlot l.1 l.2 e).slotAt l = e := by rw [Vol.slotAt_setSlot, if_pos rfl]
  have preNe : ∀ {a}, a ∈ pre → a ≠ l := fun {a} ha => notPre a ha l mem_cons_self
  have postNe : ∀ {a}, a ∈ post → a ≠ l := fun {a} ha heq =>
    (nodup_cons.mp apart).1 (heq ▸ ha)
  refine pairwise_append.mpr ⟨?_, pairwise_cons.mpr ⟨?_, ?_⟩, ?_⟩
  · refine List.Pairwise.imp_of_mem (fun {a b} ha hb hab => ?_) front
    rw [keep (preNe ha), keep (preNe hb)]
    exact hab
  · intro b _ hend
    rw [here, stays] at hend
    cases hend
  · refine List.Pairwise.imp_of_mem (fun {a b} ha hb hab => ?_) rear
    rw [keep (postNe ha), keep (postNe hb)]
    exact hab
  · intro a ha b _ hend
    rw [keep (preNe ha), before a ha] at hend
    cases hend

end Fat32

namespace Vol.Layout

open Fat32

variable {top : Obj} {T : Objs} {K : Chains}

/-- Clusters nobody owns may change, and so may the bytes of files. -/
theorem frame (g : fs.Geometry) (h : v.Layout fs top T K) (fat : ∀ {p x c}, T p = some x → c ∈ K p → v'.fat c = v.fat c)
    (data : ∀ {p dc c}, T p = some (.dir dc) → c ∈ K p → v'.data c = v.data c) : v'.Layout fs top T K where
  start := h.start
  chain hp := (h.chain hp).congr fun _ hc => fat hp hc
  fits := h.fits
  disjoint := h.disjoint
  dir hp := (h.dir hp).congr (h.mem_first hp) g.entries_pos fun _ hl =>
    slotAt_congr (fun _ hc => data hp hc) hl
  step {p x} n hp := by
    rw [h.step n hp]
    cases x with
    | file first size => rfl
    | dir dc =>
      exact (childIn_congr (fun _ hl => slotAt_congr (fun _ hc => data hp hc) hl) _ n).symm
  gap := h.gap

variable {x : Obj}

variable {p : List Name}

/-- The part of a layout below a path. -/
theorem below (h : v.Layout fs top T K) (hp : T p = some x) : v.Layout fs x (Lib.below p T) (Lib.below p K) where
  start := by rw [Lib.below, append_nil, hp]
  chain hq := h.chain hq
  fits hq := h.fits hq
  disjoint hq hr hc hc' := append_cancel_left (h.disjoint hq hr hc hc')
  dir hq := h.dir hq
  step n hq := by
    rw [Lib.below, ← append_assoc]
    exact h.step n hq
  gap n hq := by
    rw [Lib.below, ← append_assoc]
    exact h.gap n hq

/-- A cluster that is free belongs to nobody. -/
theorem fresh (h : v.Layout fs top T K) {c : Nat} (hp : T p = some x)
    (free : v.fat c = 0) : c ∉ K p := fun hc => (h.chain hp).ne_zero hc free

/-- A slot edit in a directory leaves every other object's clusters. -/
theorem setSlot_of_ne (h : v.Layout fs top T K) {q : List Name} {y : Obj} {l : Nat × Nat}
    (hp : T p = some x) (hl : l ∈ fs.locs (K p)) (hq : T q = some y) (hne : q ≠ p) {c : Nat}
    (hc : c ∈ K q) (e : Entry) : (v.setSlot l.1 l.2 e).data c = v.data c := by
  refine data_setSlot_of_ne v l.2 e ?_
  rintro rfl
  exact hne (h.disjoint hq hp hc (mem_locs.mp hl).1)

/-! ## Growing a directory -/

theorem grow (g : fs.Geometry) (h : v.Layout fs top T K) {dc : Nat} (hp : T p = some (.dir dc)) {xs : List Nat}
    {last nc : Nat} (split : K p = xs ++ [last]) (full : fs.freeSlot v (K p) = none) (hnc : nc ∈ v.freeList fs) :
    (v.grown fs last nc).Layout fs top T (update K p (K p ++ [nc])) := by
  have zero := (mem_freeList.mp hnc).2
  have mem : last ∈ K p := by rw [split]; simp
  have fat : ∀ {q x c}, T q = some x → q ≠ p → c ∈ K q → (v.grown fs last nc).fat c = v.fat c := by
    intro q x c hq hne hc
    have hlast : c ≠ last := by
      rintro rfl
      exact hne (h.disjoint hq hp hc mem)
    have hfresh : c ≠ nc := by
      rintro rfl
      exact h.fresh hq zero hc
    show (if c = last then nc else if c = nc then eocMark else v.fat c) = v.fat c
    rw [if_neg hlast, if_neg hfresh]
  have data : ∀ {q x c}, T q = some x → c ∈ K q → (v.grown fs last nc).data c = v.data c := by
    intro q x c hq hc
    refine data_setData_of_ne _ fs _ ?_
    rintro rfl
    exact h.fresh hq zero hc
  have old : ∀ {q x l}, T q = some x → l ∈ fs.locs (K q) → (v.grown fs last nc).slotAt l = v.slotAt l := fun hq hl =>
    slotAt_congr (fun _ hc => data hq hc) hl
  have new : ∀ l ∈ fs.locs [nc], ((v.grown fs last nc).slotAt l).isEnd = true := by
    rintro ⟨c, i⟩ hl
    obtain ⟨hc, hi⟩ := mem_locs.mp hl
    have hc : c = nc := by simpa using hc
    subst hc
    exact isEnd_zeroed g _ hi
  have noEnd : ∀ l ∈ fs.locs (K p), (v.slotAt l).isEnd = false := by
    intro l hl
    have := find?_eq_none.mp full l hl
    simp only [Entry.free, Bool.or_eq_true, not_or, Bool.not_eq_true] at this
    exact this.1
  have here : update K p (K p ++ [nc]) p = K p ++ [nc] := update_self ..
  have there : ∀ {q}, q ≠ p → update K p (K p ++ [nc]) q = K q :=
    fun hne => update_of_ne hne ..
  have order : (v.grown fs last nc).DirOK fs dc (K p ++ [nc]) := by
    have before : (v.grown fs last nc).DirOK fs dc (K p) :=
      (h.dir hp).congr (h.mem_first hp) g.entries_pos fun l hl => old hp hl
    refine ⟨?_, ?_, before.links⟩
    · unfold Terminated
      rw [locs_append]
      refine pairwise_append.mpr ⟨before.terminated, ?_, fun a _ b hb _ => new b hb⟩
      exact pairwise_of_forall_mem_list fun a _ b hb _ => new b hb
    · intro l hl l' hl' live live'
      rw [locs_append, mem_append] at hl hl'
      have inOld : ∀ {a}, a ∈ fs.locs (K p) ∨ a ∈ fs.locs [nc] →
          ((v.grown fs last nc).slotAt a).live = true → a ∈ fs.locs (K p) := by
        intro a ha alive
        refine ha.resolve_right fun hnew => ?_
        rw [not_live_of_isEnd (new a hnew)] at alive
        cases alive
      exact before.unique l (inOld hl live) l' (inOld hl' live') live live'
  refine ⟨h.start, ?_, ?_, ?_, ?_, ?_, h.gap⟩
  · intro q x hq
    by_cases hne : q = p
    · subst hne
      have same : x = .dir dc := Option.some.inj (hq.symm.trans hp)
      subst same
      rw [here, split]
      exact hasChain_grown g (split ▸ h.chain hp) hnc
    · rw [there hne]
      exact (h.chain hq).congr fun c hc => fat hq hne hc
  · intro q x hq
    by_cases hne : q = p
    · subst hne
      have same : x = .dir dc := Option.some.inj (hq.symm.trans hp)
      subst same
      rw [here]
      exact append_ne_nil_of_right_ne_nil _ (cons_ne_nil _ _)
    · rw [there hne]
      exact h.fits hq
  · -- the new cluster was free, so no other path owns it
    intro q r x y c hq hr hc hc'
    have split : ∀ {q x}, T q = some x → c ∈ update K p (K p ++ [nc]) q → c ∈ K q ∨ (c = nc ∧ q = p) := by
      intro q x hq hc
      by_cases hne : q = p
      · subst hne
        rw [here, mem_append, mem_singleton] at hc
        exact hc.imp_right fun hc => ⟨hc, rfl⟩
      · rw [there hne] at hc
        exact Or.inl hc
    rcases split hq hc, split hr hc' with ⟨hq' | ⟨rfl, hqp⟩, hr' | ⟨hcn, hrp⟩⟩
    · exact h.disjoint hq hr hq' hr'
    · exact absurd (hcn ▸ hq') (h.fresh hq zero)
    · exact absurd hr' (h.fresh hr zero)
    · rw [hqp, hrp]
  · intro q dc' hq
    by_cases hne : q = p
    · subst hne
      have same : Obj.dir dc' = .dir dc := Option.some.inj (hq.symm.trans hp)
      cases same
      rw [here]
      exact order
    · rw [there hne]
      exact (h.dir hq).congr (h.mem_first hq) g.entries_pos fun l hl => old hq hl
  · intro q x n hq
    by_cases hne : q = p
    · subst hne
      have same : x = .dir dc := Option.some.inj (hq.symm.trans hp)
      subst same
      rw [here, h.step n hp]
      apply Option.ext
      intro y
      rw [order.childIn_iff, (h.dir hp).childIn_iff]
      refine and_congr_right fun _ => ⟨?_, ?_⟩
      · rintro ⟨l, hl, live, name, obj⟩
        refine ⟨l, by rw [locs_append]; exact mem_append_left _ hl, ?_⟩
        rw [old hp hl]
        exact ⟨live, name, obj⟩
      · rintro ⟨l, hl, live, name, obj⟩
        rw [locs_append, mem_append] at hl
        rcases hl with hl | hl
        · rw [old hp hl] at live name obj
          exact ⟨l, hl, live, name, obj⟩
        · rw [not_live_of_isEnd (new l hl)] at live
          cases live
    · rw [there hne, h.step n hq]
      exact (childIn_congr (fun l hl => old hq hl) x n).symm

end Vol.Layout

/-! ## Editing one directory -/

namespace Vol.DirOK

open Fat32

variable {dc : Nat} {t : Name} {l : Nat × Nat} {e : Entry}

/-- In a directory with an entry marked deleted, what is live was live, and elsewhere. -/
theorem live_remove (gone : e.isDeleted = true) {a : Nat × Nat} (ha : ((v.setSlot l.1 l.2 e).slotAt a).live = true) :
    a ≠ l ∧ (v.setSlot l.1 l.2 e).slotAt a = v.slotAt a := by
  have dead : e.live = false := not_live_of_free (by simp only [Entry.free, gone, Bool.or_true])
  have hne : a ≠ l := by
    rintro rfl
    rw [slotAt_setSlot, if_pos rfl, dead] at ha
    cases ha
  exact ⟨hne, by rw [slotAt_setSlot, if_neg hne]⟩

section

variable (h : v.DirOK fs dc cs) (nodup : cs.Nodup) (found : fs.lookup v cs t = some l) (nolink : fs.isLink dc t = false) (gone : e.isDeleted = true)

include h nodup found nolink gone

theorem remove : (v.setSlot l.1 l.2 e).DirOK fs dc cs := by
  obtain ⟨hl, live, name⟩ := lookup_eq_some t found
  obtain ⟨pre, post, split⟩ := append_of_mem hl
  refine ⟨?_, ?_, ?_⟩
  · exact terminated_setSlot h.terminated nodup split (h.terminated.before split live)
      (isEnd_of_isDeleted gone)
  · intro a ha b hb la lb same
    obtain ⟨_, sa⟩ := live_remove gone la
    obtain ⟨_, sb⟩ := live_remove gone lb
    rw [sa] at la same
    rw [sb] at lb same
    exact h.unique a ha b hb la lb same
  · intro hdc
    obtain ⟨noDot, noDotdot⟩ := isLink_eq_false nolink hdc
    obtain ⟨first, second⟩ := h.links hdc
    have h0 : (dc, 0) ≠ l := by
      rintro rfl
      exact noDot (name.symm.trans first.name)
    have h1 : (dc, 1) ≠ l := by
      rintro rfl
      exact noDotdot (name.symm.trans second.name)
    have s0 : (v.setSlot l.1 l.2 e).slot dc 0 = v.slot dc 0 :=
      (slotAt_setSlot v l (dc, 0) e).trans (if_neg h0)
    have s1 : (v.setSlot l.1 l.2 e).slot dc 1 = v.slot dc 1 :=
      (slotAt_setSlot v l (dc, 1) e).trans (if_neg h1)
    rw [s0, s1]
    exact ⟨first, second⟩

theorem childIn_remove (n : Name) : fs.childIn (v.setSlot l.1 l.2 e) (.dir dc) cs n =
      if n = t then none else fs.childIn v (.dir dc) cs n := by
  obtain ⟨hl, live, name⟩ := lookup_eq_some t found
  apply Option.ext
  intro x
  rw [(h.remove nodup found nolink gone).childIn_iff]
  by_cases hn : n = t
  · rw [if_pos hn]
    refine iff_of_false ?_ (by simp)
    rintro ⟨_, a, ha, la, na, _⟩
    obtain ⟨hne, same⟩ := live_remove gone la
    rw [same] at la na
    exact hne (h.unique a ha l hl la live (na.trans (hn.trans name.symm)))
  · rw [if_neg hn, h.childIn_iff]
    refine and_congr_right fun _ => ⟨?_, ?_⟩
    · rintro ⟨a, ha, la, na, oa⟩
      obtain ⟨_, sa⟩ := live_remove gone la
      rw [sa] at la na oa
      exact ⟨a, ha, la, na, oa⟩
    · rintro ⟨a, ha, la, na, oa⟩
      have hne : a ≠ l := by
        rintro rfl
        exact hn (na.symm.trans name)
      exact ⟨a, ha, by rw [slotAt_setSlot, if_neg hne]; exact ⟨la, na, oa⟩⟩

end

/-- A live entry outlives an edit of a free slot. -/
theorem live_insert (slot : v.OpenAt fs cs l) {a : Nat × Nat} (ha : (v.slotAt a).live = true) :
    (v.setSlot l.1 l.2 e).slotAt a = v.slotAt a := by
  rw [slotAt_setSlot, if_neg]
  rintro rfl
  rw [not_live_of_free slot.1] at ha
  cases ha

theorem insert (h : v.DirOK fs dc cs) (nodup : cs.Nodup) (absent : fs.lookup v cs t = none) (slot : v.OpenAt fs cs l)
    (stays : e.isEnd = false) (name : e.name = t) : (v.setSlot l.1 l.2 e).DirOK fs dc cs := by
  have unused := lookup_eq_none.mp absent
  have slots : ∀ a, (v.setSlot l.1 l.2 e).slotAt a = if a = l then e else v.slotAt a :=
    fun a => slotAt_setSlot v l a e
  refine ⟨?_, ?_, ?_⟩
  · obtain ⟨_, pre, post, split, early⟩ := slot
    exact terminated_setSlot h.terminated nodup split early stays
  · intro a ha b hb la lb same
    by_cases hal : a = l <;> by_cases hbl : b = l
    · rw [hal, hbl]
    · rw [slots, if_neg hbl] at lb
      rw [slots, slots, if_pos hal, if_neg hbl, name] at same
      exact absurd same.symm (unused b hb lb)
    · rw [slots, if_neg hal] at la
      rw [slots, slots, if_neg hal, if_pos hbl, name] at same
      exact absurd same (unused a ha la)
    · rw [slots, if_neg hal] at la
      rw [slots, if_neg hbl] at lb
      rw [slots, slots, if_neg hal, if_neg hbl] at same
      exact h.unique a ha b hb la lb same
  · intro hdc
    obtain ⟨first, second⟩ := h.links hdc
    have s0 : (v.setSlot l.1 l.2 e).slot dc 0 = v.slot dc 0 :=
      live_insert (a := (dc, 0)) slot first.live
    have s1 : (v.setSlot l.1 l.2 e).slot dc 1 = v.slot dc 1 :=
      live_insert (a := (dc, 1)) slot second.live
    rw [s0, s1]
    exact ⟨first, second⟩

theorem childIn_insert (h : v.DirOK fs dc cs) (nodup : cs.Nodup)
    (absent : fs.lookup v cs t = none) (nolink : fs.isLink dc t = false)
    (slot : v.OpenAt fs cs l) (live : e.live = true) (name : e.name = t) (n : Name) :
    fs.childIn (v.setSlot l.1 l.2 e) (.dir dc) cs n = if n = t then some e.obj else fs.childIn v (.dir dc) cs n := by
  have order := h.insert nodup absent slot (isEnd_of_live live) name
  have here : (v.setSlot l.1 l.2 e).slotAt l = e := by rw [slotAt_setSlot, if_pos rfl]
  by_cases hn : n = t
  · rw [if_pos hn, order.childIn_iff, hn]
    exact ⟨nolink, l, slot.mem, by rw [here]; exact ⟨live, name, rfl⟩⟩
  · rw [if_neg hn]
    apply Option.ext
    intro y
    rw [order.childIn_iff, h.childIn_iff]
    refine and_congr_right fun _ => ⟨?_, ?_⟩
    · rintro ⟨a, ha, la, na, oa⟩
      have hne : a ≠ l := by
        rintro rfl
        rw [here, name] at na
        exact hn na.symm
      rw [slotAt_setSlot, if_neg hne] at la na oa
      exact ⟨a, ha, la, na, oa⟩
    · rintro ⟨a, ha, la, na, oa⟩
      exact ⟨a, ha, by rw [live_insert slot la]; exact ⟨la, na, oa⟩⟩

end Vol.DirOK

namespace Vol.Layout

open Fat32

variable {top : Obj} {T : Objs} {K : Chains}

variable {p : List Name}

variable {l : Nat × Nat}

/-- A slot edit in one directory, as every other object sees it. -/
theorem slotAt_other (h : v.Layout fs top T K) {q : List Name} {x y : Obj} 
    (hp : T p = some x) (hl : l ∈ fs.locs (K p)) (hq : T q = some y) (hne : q ≠ p) (e : Entry) :
    ∀ a ∈ fs.locs (K q), (v.setSlot l.1 l.2 e).slotAt a = v.slotAt a := fun _ ha =>
  slotAt_congr (fun _ hc => h.setSlot_of_ne hp hl hq hne hc e) ha

/-! ## Taking an entry out -/

variable {dc : Nat}

variable {e : Entry}

theorem detach (g : fs.Geometry) (h : v.Layout fs top T K) {t : Name} (hp : T p = some (.dir dc))
    (found : fs.lookup v (K p) t = some l) (nolink : fs.isLink dc t = false) (gone : e.isDeleted = true) :
    (v.setSlot l.1 l.2 e).Layout fs top (prune (p ++ [t]) T) K := by
  have hl : l ∈ fs.locs (K p) := (lookup_eq_some t found).1
  have nodup : (K p).Nodup := (h.chain hp).nodup
  refine ⟨?_, ?_, ?_, ?_, ?_, ?_, ?_⟩
  · rw [prune_outside T (by simp)]
    exact h.start
  · intro q x hq
    exact (h.chain (prune_eq_some.mp hq).2).congr fun _ _ => rfl
  · intro q x hq
    exact h.fits (prune_eq_some.mp hq).2
  · intro q r x y c hq hr
    exact h.disjoint (prune_eq_some.mp hq).2 (prune_eq_some.mp hr).2
  · intro q dc' hq
    obtain ⟨_, hT⟩ := prune_eq_some.mp hq
    by_cases hqp : q = p
    · subst hqp
      cases Option.some.inj (hT.symm.trans hp)
      exact (h.dir hp).remove nodup found nolink gone
    · exact (h.dir hT).congr (h.mem_first hT) g.entries_pos (h.slotAt_other hp hl hT hqp e)
  · intro q x n hq
    obtain ⟨out, hT⟩ := prune_eq_some.mp hq
    by_cases hqp : q = p
    · subst hqp
      cases Option.some.inj (hT.symm.trans hp)
      rw [(h.dir hp).childIn_remove nodup found nolink gone]
      by_cases hn : n = t
      · rw [if_pos hn, hn, prune_below T (List.prefix_refl _)]
      · rw [if_neg hn, ← h.step n hp, prune_outside]
        exact not_prefix_snoc out fun heq => hn heq.2.symm
    · rw [prune_outside T (not_prefix_snoc out fun heq => hqp heq.1.symm), h.step n hT]
      exact (childIn_congr (h.slotAt_other hp hl hT hqp e) x n).symm
  · intro q n hq
    by_cases pre : p ++ [t] <+: q ++ [n]
    · exact prune_below T pre
    · have out : ¬ p ++ [t] <+: q := fun pre' => pre (pre'.trans (List.prefix_append q [n]))
      rw [prune_outside T out] at hq
      rw [prune_outside T pre, h.gap n hq]

/-! ## Putting an entry in -/

/-- A path of a grafted map runs through the graft or was there before. -/
theorem graft_cases {q : List Name} {S : Objs} {y : Obj} (hq : Lib.graft p S T q = some y) :
    (∃ r, q = p ++ r ∧ S r = some y) ∨ (¬ p <+: q ∧ T q = some y) := by
  by_cases pre : p <+: q
  · obtain ⟨r, rfl⟩ := pre
    rw [graft_append] at hq
    exact Or.inl ⟨r, rfl, hq⟩
  · rw [graft_outside S T pre] at hq
    exact Or.inr ⟨pre, hq⟩

theorem graft (g : fs.Geometry) (h : v.Layout fs top T K) {S : Objs} {Ks : Chains}
    (hs : v.Layout fs e.obj S Ks) (apart : ∀ {q r y z c}, T q = some y → S r = some z → c ∈ K q → c ∉ Ks r) {t : Name}
    (hp : T p = some (.dir dc)) (absent : fs.lookup v (K p) t = none) (nolink : fs.isLink dc t = false)
    (slot : v.OpenAt fs (K p) l) (live : e.live = true) (name : e.name = t) :
    (v.setSlot l.1 l.2 e).Layout fs top (Lib.graft (p ++ [t]) S T) (Lib.graft (p ++ [t]) Ks K) := by
  have hl : l ∈ fs.locs (K p) := slot.mem
  have nodup : (K p).Nodup := (h.chain hp).nodup
  have inner : ∀ {r z}, S r = some z → ∀ a ∈ fs.locs (Ks r), (v.setSlot l.1 l.2 e).slotAt a = v.slotAt a := by
    intro r z hr a ha
    refine slotAt_congr (fun c hc => data_setSlot_of_ne v l.2 e ?_) ha
    rintro rfl
    exact apart hp hr (mem_locs.mp hl).1 hc
  refine ⟨?_, ?_, ?_, ?_, ?_, ?_, ?_⟩
  · rw [graft_outside S T (by simp)]
    exact h.start
  · intro q y hq
    rcases graft_cases hq with ⟨r, rfl, hS⟩ | ⟨out, hT⟩
    · rw [graft_append]
      exact (hs.chain hS).congr fun _ _ => rfl
    · rw [graft_outside Ks K out]
      exact (h.chain hT).congr fun _ _ => rfl
  · intro q y hq
    rcases graft_cases hq with ⟨r, rfl, hS⟩ | ⟨out, hT⟩
    · rw [graft_append]
      exact hs.fits hS
    · rw [graft_outside Ks K out]
      exact h.fits hT
  · intro q r y z c hq hr hc hc'
    rcases graft_cases hq with ⟨q', rfl, hS⟩ | ⟨out, hT⟩ <;>
      rcases graft_cases hr with ⟨r', rfl, hS'⟩ | ⟨out', hT'⟩
    · rw [graft_append] at hc hc'
      rw [hs.disjoint hS hS' hc hc']
    · rw [graft_append] at hc
      rw [graft_outside Ks K out'] at hc'
      exact absurd hc (apart hT' hS hc')
    · rw [graft_append] at hc'
      rw [graft_outside Ks K out] at hc
      exact absurd hc' (apart hT hS' hc)
    · rw [graft_outside Ks K out] at hc
      rw [graft_outside Ks K out'] at hc'
      exact h.disjoint hT hT' hc hc'
  · intro q dc' hq
    rcases graft_cases hq with ⟨r, rfl, hS⟩ | ⟨out, hT⟩
    · rw [graft_append]
      exact (hs.dir hS).congr (hs.mem_first hS) g.entries_pos (inner hS)
    · rw [graft_outside Ks K out]
      by_cases hqp : q = p
      · subst hqp
        cases Option.some.inj (hT.symm.trans hp)
        exact (h.dir hp).insert nodup absent slot (isEnd_of_live live) name
      · exact (h.dir hT).congr (h.mem_first hT) g.entries_pos (h.slotAt_other hp hl hT hqp e)
  · intro q y n hq
    rcases graft_cases hq with ⟨r, rfl, hS⟩ | ⟨out, hT⟩
    · rw [append_assoc, graft_append, graft_append, hs.step n hS]
      exact (childIn_congr (inner hS) y n).symm
    · rw [graft_outside Ks K out]
      by_cases hqp : q = p
      · subst hqp
        cases Option.some.inj (hT.symm.trans hp)
        rw [(h.dir hp).childIn_insert nodup absent nolink slot live name]
        by_cases hn : n = t
        · rw [if_pos hn, hn, graft_self, hs.start]
        · rw [if_neg hn, ← h.step n hp, graft_outside]
          exact not_prefix_snoc out fun heq => hn heq.2.symm
      · rw [graft_outside S T (not_prefix_snoc out fun heq => hqp heq.1.symm), h.step n hT]
        exact (childIn_congr (h.slotAt_other hp hl hT hqp e) y n).symm
  · intro q n hq
    by_cases pre : p ++ [t] <+: q
    · obtain ⟨r, rfl⟩ := pre
      rw [graft_append] at hq
      rw [append_assoc, graft_append, hs.gap n hq]
    · rw [graft_outside S T pre] at hq
      rw [graft_outside, h.gap n hq]
      refine not_prefix_snoc pre fun heq => ?_
      rw [← heq.1, hp] at hq
      cases hq

/-! ## Pointing `..` elsewhere -/

theorem setDotdot (g : fs.Geometry) (h : v.Layout fs top T K) (hp : T p = some (.dir dc)) (hdc : dc ≠ fs.rootCluster)
    (he : e.Link dotdotName) : (v.setSlot dc 1 e).Layout fs top T K := by
  have was : (v.slotAt (dc, 1)).Link dotdotName := ((h.dir hp).links hdc).2
  have hl : (dc, 1) ∈ fs.locs (K p) := mem_locs.mpr ⟨h.mem_first hp, g.entries_pos⟩
  have slots : ∀ a, (v.setSlot dc 1 e).slotAt a = if a = (dc, 1) then e else v.slotAt a :=
    fun a => slotAt_setSlot v (dc, 1) a e
  -- to every search that is not for `..`, the two entries are alike
  have alike : ∀ a, ((v.setSlot dc 1 e).slotAt a).live = (v.slotAt a).live ∧
      ((v.setSlot dc 1 e).slotAt a).name = (v.slotAt a).name := by
    intro a
    rw [slots]
    by_cases ha : a = (dc, 1)
    · rw [if_pos ha, ha, he.live, was.live, he.name, was.name]
      exact ⟨rfl, rfl⟩
    · rw [if_neg ha]
      exact ⟨rfl, rfl⟩
  have order : (v.setSlot dc 1 e).DirOK fs dc (K p) := by
    have before := h.dir hp
    obtain ⟨pre, post, split⟩ := append_of_mem hl
    refine ⟨?_, ?_, fun _ => ?_⟩
    · exact terminated_setSlot before.terminated (h.chain hp).nodup split
        (before.terminated.before split was.live) (isEnd_of_live he.live)
    · intro a ha b hb la lb same
      rw [(alike a).1] at la
      rw [(alike b).1] at lb
      rw [(alike a).2, (alike b).2] at same
      exact before.unique a ha b hb la lb same
    · have s0 : (v.setSlot dc 1 e).slot dc 0 = v.slot dc 0 :=
        (slots (dc, 0)).trans (if_neg (by simp))
      have s1 : (v.setSlot dc 1 e).slot dc 1 = e := (slots (dc, 1)).trans (if_pos rfl)
      rw [s0, s1]
      exact ⟨(before.links hdc).1, he⟩
  refine ⟨h.start, fun hq => (h.chain hq).congr fun _ _ => rfl, h.fits, h.disjoint, ?_, ?_, h.gap⟩
  · intro q dc' hq
    by_cases hqp : q = p
    · subst hqp
      cases Option.some.inj (hq.symm.trans hp)
      exact order
    · exact (h.dir hq).congr (h.mem_first hq) g.entries_pos (h.slotAt_other hp hl hq hqp e)
  · intro q y n hq
    rw [h.step n hq]
    by_cases hqp : q = p
    · subst hqp
      cases Option.some.inj (hq.symm.trans hp)
      apply Option.ext
      intro z
      rw [order.childIn_iff, (h.dir hp).childIn_iff]
      refine and_congr_right fun nolink => exists_congr fun a => and_congr_right fun _ => ?_
      rw [(alike a).1, (alike a).2]
      refine and_congr_right fun _ => and_congr_right fun na => ?_
      rw [slots, if_neg]
      rintro rfl
      exact (isLink_eq_false nolink hdc).2 (na.symm.trans was.name)
    · exact (childIn_congr (h.slotAt_other hp hl hq hqp e) y n).symm

end Vol.Layout

end CanBoot
