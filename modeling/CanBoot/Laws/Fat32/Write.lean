import CanBoot.Laws.Fat32.Claim

/-!
# Writing a file

`canboot_fat32_write_path` claims a slot, allocates and fills a chain, and writes the entry. The
cases of the call are all here (`write_cases`), with the volume each of them leaves: a failure after
the slot was claimed leaves the claim behind. A call that returns 0 has put the file into the tree
(`Wrote.laid`), with exactly the bytes it was given (`Wrote.tree_eq`).
-/

namespace CanBoot

open Lib Lib.Prog Function Nat Fat32 List Option

namespace Fat32

/-- `(len + bytes_per_cluster - 1) / bytes_per_cluster`, in 32 bits. -/
def need (fs : Fat32) (n : Nat) : Nat := u32 (n + fs.bytesPerCluster - 1) / fs.bytesPerCluster

/-- Lengths `alloc_chain` turns down before it looks at the table. -/
def Refused (fs : Fat32) (n : Nat) : Prop := n ≠ 0 ∧ (fs.need n = 0 ∨ 256 < fs.need n)

instance (fs : Fat32) (n : Nat) : Decidable (fs.Refused n) := inferInstanceAs (Decidable (_ ∧ _))

variable {fs : Fat32} {m : Media} {fuel : Nat}

theorem Geometry.bpc_pos (g : fs.Geometry) : 0 < fs.bytesPerCluster := by
  have := g.bytesPerCluster
  have := g.spcPos
  omega

/-- A count that did not wrap is exact; one that wrapped is 0. -/
theorem need_eq (g : fs.Geometry) {n : Nat} (hn : n < 4294967296) (h : fs.need n ≠ 0) :
    fs.need n = fs.clustersFor n := by
  have pos := g.bpc_pos
  have small := g.small
  unfold need clustersFor at *
  by_cases fits : n + fs.bytesPerCluster - 1 < 4294967296
  · rw [u32_of_lt fits]
  · refine absurd (div_eq_of_lt ?_) h
    unfold u32
    omega

theorem le_clustersFor_mul (g : fs.Geometry) (n : Nat) : n ≤ fs.clustersFor n * fs.bytesPerCluster := by
  have pos := g.bpc_pos
  have := div_add_mod (n + fs.bytesPerCluster - 1) fs.bytesPerCluster
  have := mod_lt (n + fs.bytesPerCluster - 1) pos
  unfold clustersFor
  rw [Nat.mul_comm]
  omega

theorem clustersFor_zero (g : fs.Geometry) : fs.clustersFor 0 = 0 := by
  have pos := g.bpc_pos
  exact div_eq_of_lt (by omega)

end Fat32

namespace Vol

/-- A file's chain linked up and filled. -/
def withFile (fs : Fat32) (v : Vol) (F : List Nat) (data : List UInt8) : Vol :=
  (v.linked F).stored fs F data

/-- Free clusters with room for a file's data. -/
structure Room (fs : Fat32) (v : Vol) (F : List Nat) (data : List UInt8) : Prop where
  free : ∀ c ∈ F, c ∈ v.freeList fs
  nodup : F.Nodup
  room : data.length ≤ F.length * fs.bytesPerCluster

/-- As many as the data needs. -/
structure Fresh (fs : Fat32) (v : Vol) (F : List Nat) (data : List UInt8) : Prop extends
    Room fs v F data where
  count : F.length = fs.clustersFor data.length

variable {fs : Fat32} {v : Vol} {F : List Nat} {data : Bytes}

theorem Fresh.of_count (g : fs.Geometry) (free : ∀ c ∈ F, c ∈ v.freeList fs) (nodup : F.Nodup)
    (count : F.length = fs.clustersFor data.length) : Fresh fs v F data :=
  ⟨⟨free, nodup, count ▸ Fat32.le_clustersFor_mul g _⟩, count⟩

theorem fats_withFile (v : Vol) (F : List Nat) (data : Bytes) (k : Nat) :
    (v.withFile fs F data).fats k = relink (v.fats k) F eocMark := by
  rw [withFile, fats_stored]
  rfl

variable {c : Nat}

theorem fat_withFile_of_not_mem (hc : c ∉ F) : (v.withFile fs F data).fat c = v.fat c := by
  rw [fat, fats_withFile, relink_of_not_mem hc]
  rfl

theorem data_withFile_of_not_mem (hc : c ∉ F) : (v.withFile fs F data).data c = v.data c :=
  data_stored_of_not_mem fs _ _ hc

theorem withFile_setSlot {l : Nat × Nat} {e : Entry} (hl : l.1 ∉ F) :
    (v.setSlot l.1 l.2 e).withFile fs F data = (v.withFile fs F data).setSlot l.1 l.2 e :=
  stored_setSlot fs (v.linked F) e data hl

/-- The new file's chain. -/
theorem Room.hasChain (g : fs.Geometry) (fresh : Room fs v F data) :
    (v.withFile fs F data).HasChain fs (F.headD 0) F := by
  have range : ∀ c ∈ F, fs.InRange c := fun c hc => (mem_freeList.mp (fresh.free c hc)).1
  have table : (v.withFile fs F data).fat = relink v.fat F eocMark := fats_withFile v F data 0
  refine ⟨?_, range, ?_⟩
  · rw [table]
    cases F with
    | nil => exact (by decide : isCluster 0 = false)
    | cons x xs =>
      exact isChain_relink (by decide) fresh.nodup fun c hc => g.isCluster (range c hc)
  · intro x hx
    rw [table, relink_getLast fresh.nodup hx]
    decide

/-- The new file reads back. -/
theorem Room.bytes (fresh : Room fs v F data) : ((v.withFile fs F data).chainBytes fs F).take data.length = data :=
  take_chainBytes_stored fs (v.linked F) fresh.nodup fresh.room

theorem Room.head_lt (g : fs.Geometry) (fresh : Room fs v F data) : F.headD 0 < 4294967296 := by
  cases F with
  | nil => decide
  | cons x xs =>
    have := (mem_freeList.mp (fresh.free x mem_cons_self)).1.lt g
    show x < 4294967296
    omega

/-! ## The entry goes in -/

variable {v1 : Vol} {T : Objs} {K K1 : Chains} {p : List Name} {t : Name} {l : Nat × Nat} {d e : Entry}

/-- The volume a write leaves: the data in its chain, and the entry in its slot. -/
def wrote (fs : Fat32) (v1 : Vol) (F : List Nat) (data : List UInt8) (e : Entry) (l : Nat × Nat) :
    Vol :=
  (v1.withFile fs F data).setSlot l.1 l.2 e

/-- How a call that writes a file gets to its return of 0: the slot it claimed, the clusters it took,
and the entry. -/
structure Wrote (fs : Fat32) (v : Vol) (T : List Name → Option Obj) (K : List Name → List Nat)
    (p : List Name) (t : Name) (dc : Nat) (l : Nat × Nat) (v1 : Vol) (d : Entry)
    (K1 : List Name → List Nat) (F : List Nat) (data : List UInt8) (e : Entry) : Prop where
  parent : T p = some (.dir dc)
  nolink : fs.isLink dc t = false
  notDir : ∀ dc, T (p ++ [t]) ≠ some (.dir dc)
  ready : Ready fs v T K p t l v1 d K1
  fresh : Room fs v1 F data
  obj : e.obj = .file (F.headD 0) data.length
  live : e.live = true
  name : e.name = t

namespace Wrote

variable {dc : Nat} (w : Wrote fs v T K p t dc l v1 d K1 F data e)

include w

theorem parent_pruned : prune (p ++ [t]) T p = some (.dir dc) :=
  prune_eq_some.mpr ⟨snoc_not_prefix_self p t, w.parent⟩

variable {q : List Name} {x : Obj}

/-- The free clusters belong to nobody. -/
theorem apart (hq : prune (p ++ [t]) T q = some x)
    (hc : c ∈ K1 q) : c ∉ F := fun mem =>
  w.ready.laid.fresh hq (mem_freeList.mp (w.fresh.free c mem)).2 hc

/-- The slot is not in one of the new clusters. -/
theorem slot_not_mem : l.1 ∉ F :=
  w.apart w.parent_pruned (mem_locs.mp w.ready.slot.mem).1

/-- There was nothing below the path, and there is nothing now. -/
theorem bare (h : v.Laid fs T K) : ∀ q, q ≠ [] → T (p ++ [t] ++ q) = none := by
  intro q hq
  cases hT : T (p ++ [t]) with
  | none => exact h.none_below hT (List.prefix_append _ _)
  | some x =>
    cases x with
    | dir dc => exact absurd hT (w.notDir dc)
    | file c n => exact h.below_file hT hq

/-- The chain is filled before the entry is written, in clusters nobody owns. -/
theorem filled (g : fs.Geometry) : ((v1.setSlot l.1 l.2 d).withFile fs F data).Laid fs (prune (p ++ [t]) T) K1 :=
  w.ready.laid.frame g (fun hq hc => fat_withFile_of_not_mem (w.apart hq hc))
    fun hq hc => data_withFile_of_not_mem (w.apart hq hc)

/-- **A write that returns 0 has put its file into the tree.** -/
theorem laid (g : fs.Geometry) (h : v.Laid fs T K) : (v1.wrote fs F data e l).Laid fs
      (update T (p ++ [t]) (some (.file (F.headD 0) data.length))) (update K1 (p ++ [t]) F) := by
  have slots : ∀ a ∈ fs.locs (K1 p), ((v1.setSlot l.1 l.2 d).withFile fs F data).slotAt a =
      (v1.setSlot l.1 l.2 d).slotAt a := fun a ha =>
    slotAt_congr (fun c hc => data_withFile_of_not_mem (w.apart w.parent_pruned hc)) ha
  have slot : ((v1.setSlot l.1 l.2 d).withFile fs F data).OpenAt fs (K1 p) l :=
    w.ready.slot.congr slots
  have absent : fs.lookup ((v1.setSlot l.1 l.2 d).withFile fs F data) (K1 p) t = none := by
    rw [lookup_congr slots]
    exact w.ready.absent
  have chain : ((v1.setSlot l.1 l.2 d).withFile fs F data).HasChain fs (F.headD 0) F :=
    Room.hasChain g (v := v1.setSlot l.1 l.2 d) ⟨w.fresh.free, w.fresh.nodup, w.fresh.room⟩
  have single : ((v1.setSlot l.1 l.2 d).withFile fs F data).Layout fs e.obj (only e.obj)
      fun _ => F := by
    rw [w.obj]
    exact layout_only chain w.fresh.room (fun _ => nofun) fun _ => rfl
  have final : ((v1.setSlot l.1 l.2 d).withFile fs F data).setSlot l.1 l.2 e =
      v1.wrote fs F data e l := by
    rw [withFile_setSlot w.slot_not_mem, setSlot_setSlot]
    rfl
  have added := Layout.laid_added g (w.filled g) w.parent (w.bare h) absent w.nolink slot single
    (fun hq hc => w.apart hq hc) w.live w.name
  rwa [final, w.obj] at added

/-- Clusters the tree had keep their bytes, but for the slot. -/
theorem slotAt_eq {a : Nat × Nat} (hq : prune (p ++ [t]) T q = some x) (ha : a.1 ∈ K q) (ha1 : a.1 ∈ K1 q) (hne : a ≠ l) :
    (v1.wrote fs F data e l).slotAt a = v.slotAt a := by
  rw [wrote, slotAt_setSlot, if_neg hne, slotAt, slot,
    data_withFile_of_not_mem (w.apart hq ha1), w.ready.data (prune_eq_some.mp hq).2 ha]
  rfl

/-- A file that is not the one written keeps its bytes. -/
theorem data_eq (hq : prune (p ++ [t]) T q = some x)
    (hqp : q ≠ p) (hc : c ∈ K q) : (v1.wrote fs F data e l).data c = v.data c := by
  have hc1 : c ∈ K1 q := by rwa [w.ready.chains hqp]
  have hne : c ≠ l.1 := by
    rintro rfl
    exact hqp (w.ready.laid.disjoint hq w.parent_pruned hc1 (mem_locs.mp w.ready.slot.mem).1)
  rw [wrote, data_setSlot_of_ne _ _ _ hne, data_withFile_of_not_mem (w.apart hq hc1),
    w.ready.data (prune_eq_some.mp hq).2 hc]

/-- **The tree after the write is the old one with the file in it.** -/
theorem tree_eq (g : fs.Geometry) (h : v.Laid fs T K) : fs.tree (v1.wrote fs F data e l) =
      update (fs.tree v) (p ++ [t]) (some (.file data)) := by
  have after := w.laid g h
  funext q
  by_cases hqt : q = p ++ [t]
  · rw [after.tree_eq, hqt, update_self, update_self, map_some, update_self, Obj.node]
    have bytes : (v1.wrote fs F data e l).chainBytes fs F =
        (v1.withFile fs F data).chainBytes fs F := by
      refine chainBytes_congr fun c hc => data_setSlot_of_ne _ _ _ ?_
      rintro rfl
      exact w.slot_not_mem hc
    rw [bytes, w.fresh.bytes]
  · rw [update_of_ne hqt]
    refine Layout.tree_congr h after (update_of_ne hqt ..) fun {c n} hq => ?_
    have out : prune (p ++ [t]) T q = some (.file c n) := by
      refine prune_eq_some.mpr ⟨?_, hq⟩
      rintro ⟨r, rfl⟩
      rw [w.bare h r (by rintro rfl; exact hqt (by rw [append_nil]))] at hq
      cases hq
    have hqp : q ≠ p := by
      rintro rfl
      rw [w.parent] at hq
      cases hq
    rw [update_of_ne hqt, w.ready.chains hqp]
    exact chainBytes_congr fun x hx => w.data_eq out hqp hx

omit w in
/-- The new clusters are the new file's. -/
theorem cover (old : v1.Cover fs (prune (p ++ [t]) T) K1) : (v1.wrote fs F data e l).Cover fs
      (update T (p ++ [t]) (some (.file (F.headD 0) data.length))) (update K1 (p ++ [t]) F) := by
  intro c hc marked
  by_cases mem : c ∈ F
  · exact ⟨p ++ [t], _, update_self .., by rw [update_self]; exact mem⟩
  · have before : v1.fat c ≠ 0 := fun zero => marked ((fat_withFile_of_not_mem mem).trans zero)
    obtain ⟨q, x, hq, mem'⟩ := old c hc before
    obtain ⟨out, hT⟩ := prune_eq_some.mp hq
    have hne : q ≠ p ++ [t] := fun heq => out (heq ▸ List.prefix_refl _)
    exact ⟨q, x, by rw [update_of_ne hne]; exact hT,
      by rw [update_of_ne hne]; exact mem'⟩

/-- A tight volume stays tight. -/
theorem tight (g : fs.Geometry) (h : v.Laid fs T K) (tight : v.Tight fs T K) (old : v1.Cover fs (prune (p ++ [t]) T) K1)
    (count : F.length = fs.clustersFor data.length) (hdot : t.byte 0 ≠ dot) : (v1.wrote fs F data e l).Tight fs
      (update T (p ++ [t]) (some (.file (F.headD 0) data.length))) (update K1 (p ++ [t]) F) where
  cover := cover old
  exact {q c n} hq := by
    by_cases hqt : q = p ++ [t]
    · subst hqt
      rw [update_self] at hq ⊢
      cases hq
      refine ⟨count, fun empty => ?_⟩
      have none' : F = [] := by
        have := count
        rw [empty, Fat32.clustersFor_zero g] at this
        exact length_eq_zero_iff.mp this
      rw [none']
      rfl
    · rw [update_of_ne hqt] at hq ⊢
      have hqp : q ≠ p := by
        rintro rfl
        rw [w.parent] at hq
        cases hq
      rw [w.ready.chains hqp]
      exact tight.exact hq
  dotdot {q s pc dc'} hq hs := by
    have hqt : q ≠ p ++ [t] := by
      rintro rfl
      rw [update_self] at hq
      cases hq
    have hst : q ++ [s] ≠ p ++ [t] := by
      intro heq
      rw [heq, update_self] at hs
      cases hs
    rw [update_of_ne hqt] at hq
    rw [update_of_ne hst] at hs
    have out : prune (p ++ [t]) T (q ++ [s]) = some (.dir dc') := by
      refine prune_eq_some.mpr ⟨?_, hs⟩
      rintro ⟨r, hr⟩
      rw [← hr, w.bare h r (by rintro rfl; exact hst (by rw [← hr, append_nil]))] at hs
      cases hs
    have mem := h.mem_first hs
    have mem1 := w.ready.laid.mem_first out
    -- the slot was free, and a `..` is live
    have link := ((w.ready.laid.dir out).links (h.not_root hs (by simp))).2
    have hne : (dc', 1) ≠ l := by
      rintro rfl
      have := link.live
      rw [show (v1.setSlot dc' 1 d).slot dc' 1 = (v1.setSlot dc' 1 d).slotAt (dc', 1) from rfl,
        not_live_of_free w.ready.slot.1] at this
      cases this
    have same : (v1.wrote fs F data e l).slot dc' 1 = v.slot dc' 1 :=
      w.slotAt_eq (a := (dc', 1)) out mem mem1 hne
    rw [same]
    exact tight.dotdot hq hs
  copies k c := by
    have agree := w.ready.copies tight.copies
    show (v1.withFile fs F data).fats k c = (v1.withFile fs F data).fats 0 c
    rw [fats_withFile, fats_withFile, relink, relink, agree k c]
  plain {q n x} hq := by
    by_cases hqt : q ++ [n] = p ++ [t]
    · have : n = t := singleton_inj.mp (append_inj_right' hqt rfl)
      rw [this]
      exact isDotName_of_head hdot
    · rw [update_of_ne hqt] at hq
      exact tight.plain hq

end Wrote

/-! ## The call -/

variable {m : Media} {fuel : Nat}

/-- **The chain is allocated and filled, or the call fails here.** A refused length costs nothing;
an allocation that runs short leaves every free cluster marked. -/
theorem storeData_cases (g : fs.Geometry) (fuel : Nat) (data : Bytes) (hd : data.length < 4294967296) :
    (∃ F m', Fresh fs (fs.view m) F data ∧ (fs.storeData data).run fuel m = .ok (F.headD 0) m' ∧
      fs.view m' = (fs.view m).withFile fs F data) ∨
    (fs.Refused data.length ∧ (fs.storeData data).run fuel m = .err m) ∨
    (¬ fs.Refused data.length ∧ ((fs.view m).freeList fs).length < fs.clustersFor data.length ∧
      ∃ m', (fs.storeData data).run fuel m = .err m' ∧
        fs.view m' = (fs.view m).reserved ((fs.view m).freeList fs)) := by
  by_cases empty : data = []
  · left
    refine ⟨[], m, .of_count g nofun nodup_nil ?_, ?_, ?_⟩
    · rw [empty, length_nil, length_nil, Fat32.clustersFor_zero g]
    · rw [empty]
      rfl
    · rw [empty]
      rfl
  · have pos : 0 < data.length := length_pos_iff.mpr empty
    have body : (fs.storeData data).run fuel m =
        (do let chain ← fs.allocChain (fs.need data.length)
            fs.fitsBuffer
            fs.writeData chain data
            pure (chain.headD 0) : Prog Media Nat).run fuel m := by
      rw [storeData, if_pos pos]
      rfl
    by_cases refused : fs.Refused data.length
    · right
      left
      exact ⟨refused, by rw [body, run_bind_err (run_allocChain_refused refused.2)]⟩
    · have count : fs.need data.length ≠ 0 ∧ fs.need data.length ≤ 256 := by
        unfold Fat32.Refused at refused
        omega
      have exact' := Fat32.need_eq g hd count.1
      by_cases room : fs.need data.length ≤ ((fs.view m).freeList fs).length
      · left
        obtain ⟨m1, alloc, view⟩ := run_allocChain g fuel count.1 count.2 room
        have range : ∀ c ∈ ((fs.view m).freeList fs).take (fs.need data.length), fs.InRange c :=
          fun c hc => (mem_freeList.mp (mem_of_mem_take hc)).1
        refine ⟨((fs.view m).freeList fs).take (fs.need data.length),
          fs.storeAll m1 (((fs.view m).freeList fs).take (fs.need data.length)) data,
          .of_count g (fun c hc => mem_of_mem_take hc) nodup_freeList.take ?_, ?_,
          (view_storeAll g data range).trans ?_⟩
        · rw [length_take, Nat.min_eq_left room, exact']
        · rw [body, run_bind_ok alloc, run_bind_ok (run_fitsBuffer g),
            run_bind_ok (run_writeData g data range)]
          rfl
        · rw [view]
          rfl
      · right
        right
        obtain ⟨m1, alloc, view⟩ := run_allocChain_short g fuel (m := m) count.1
          count.2 (by omega)
        exact ⟨refused, by omega, m1, by rw [body, run_bind_err alloc], view⟩

/-- **A slot is claimed, or the call fails here**, with nothing written. -/
theorem Layout.claimSlot_cases (g : fs.Geometry) (h : (fs.view m).Laid fs T K) {dc : Nat} (hp : T p = some (.dir dc))
    (nolink : fs.isLink dc t = false) (enough : fs.totalClusters < fuel) :
    ((fs.claimSlot dc t).run fuel m = .err m ∧ ((∃ c, T (p ++ [t]) = some (.dir c)) ∨
      (T (p ++ [t]) = none ∧ fs.freeSlot (fs.view m) (K p) = none ∧ (fs.view m).freeList fs = []))) ∨
    ∃ l m1 d K1, (fs.claimSlot dc t).run fuel m = .ok l m1 ∧ Claimed fs (fs.view m) T K p t l (fs.view m1) d K1 ∧
      ((∃ c n, T (p ++ [t]) = some (.file c n) ∧ fs.lookup (fs.view m) (K p) t = some l ∧
          fs.view m1 = (fs.view m).freed (K (p ++ [t]))) ∨
        (T (p ++ [t]) = none ∧ ((fs.freeSlot (fs.view m) (K p) = some l ∧ m1 = m) ∨
          fs.freeSlot (fs.view m) (K p) = none ∧ ∃ nc ∈ (fs.view m).freeList fs, (fs.view m1).fat nc ≠ 0))) := by
  have find := h.run_dirFind g hp enough t
  have tree := h.at_snoc hp nolink
  rw [claimSlot, run_bind_ok find]
  cases found : fs.lookup (fs.view m) (K p) t with
  | none =>
    rw [found, map_none] at tree
    rcases h.dirAllocSlot_cases g hp enough with ⟨fails, full⟩ | ⟨l, m1, K1, run, opened, how⟩
    · left
      exact ⟨fails, Or.inr ⟨tree, full⟩⟩
    · right
      exact ⟨l, m1, _, K1, run, opened.claimed h hp nolink tree, Or.inr ⟨tree, how⟩⟩
  | some l =>
    rw [found, map_some] at tree
    cases isDir : ((fs.view m).slotAt l).isDir with
    | true =>
      left
      refine ⟨bind_require_false (by rw [isDir]; rfl), Or.inl ?_⟩
      exact ⟨_, tree.trans (congrArg some (Entry.obj_dir isDir))⟩
    | false =>
      right
      have file := tree.trans (congrArg some (Entry.obj_file isDir))
      have chain := h.chain file
      have free : (fs.freeChain ((fs.view m).slotAt l).firstCluster).run fuel m = _ :=
        run_freeChain g chain.isChain chain.inRange (h.length_lt file enough)
      have view := view_freeAll g (m := m) chain.inRange
      refine ⟨l, fs.freeAll m (K (p ++ [t])), ((fs.view m).slotAt l).markDeleted, K, ?_, ?_,
        Or.inl ⟨_, _, file, rfl, view⟩⟩
      · simp only [map_some]
        rw [bind_require_true (by rw [isDir]; rfl),
          run_bind_ok free]
        rfl
      · rw [view]
        exact h.claimed_existing g hp nolink found file

/-- **The cases of `canboot_fat32_write_path`.** It fails before it has written anything, or it fails
with a slot claimed, or it succeeds. -/
theorem Layout.write_cases (g : fs.Geometry) (h : (fs.view m).Laid fs T K) (enough : fs.totalClusters < fuel)
    (writable : fs.disk.writable = true) (path : Bytes) {data : Bytes} (hd : data.length < 4294967296) :
    ((canbootFat32WritePath fs path data).run fuel m = .err m ∧
      ∀ p t, target path = some (p, t) → ∀ dc, T p = some (.dir dc) → (∃ c, T (p ++ [t]) = some (.dir c)) ∨
        (T (p ++ [t]) = none ∧ fs.freeSlot (fs.view m) (K p) = none ∧ (fs.view m).freeList fs = [])) ∨
    ∃ p t dc l m1 d K1, target path = some (p, t) ∧ T p = some (.dir dc) ∧
      fs.isLink dc t = false ∧ (∀ c, T (p ++ [t]) ≠ some (.dir c)) ∧
      Claimed fs (fs.view m) T K p t l (fs.view m1) d K1 ∧
      ((∃ c n, T (p ++ [t]) = some (.file c n) ∧ fs.lookup (fs.view m) (K p) t = some l ∧
          fs.view m1 = (fs.view m).freed (K (p ++ [t]))) ∨
        (T (p ++ [t]) = none ∧ ((fs.freeSlot (fs.view m) (K p) = some l ∧ m1 = m) ∨
          fs.freeSlot (fs.view m) (K p) = none ∧ ∃ nc ∈ (fs.view m).freeList fs, (fs.view m1).fat nc ≠ 0))) ∧
      ((∃ F m', Fresh fs (fs.view m1) F data ∧ (canbootFat32WritePath fs path data).run fuel m = .ok () m' ∧
          fs.view m' = (fs.view m1).wrote fs F data (makeEntry t 0x20 (F.headD 0) data.length) l) ∨
        (fs.Refused data.length ∧ (canbootFat32WritePath fs path data).run fuel m = .err m1) ∨
        (¬ fs.Refused data.length ∧ ((fs.view m1).freeList fs).length < fs.clustersFor data.length ∧
          ∃ m', (canbootFat32WritePath fs path data).run fuel m = .err m' ∧
            fs.view m' = (fs.view m1).reserved ((fs.view m1).freeList fs))) := by
  rw [canbootFat32WritePath, bind_require_true writable]
  rcases h.resolveParent_cases g enough path with ⟨fails, none'⟩ | ⟨p, t, dc, ht, hp, nolink, run⟩
  · left
    exact ⟨run_bind_err fails _, fun p t ht dc hp => absurd hp (none' p t ht dc)⟩
  · rw [run_bind_ok run]
    rcases h.claimSlot_cases g hp nolink enough with ⟨fails, why⟩ | ⟨l, m1, d, K1, claim, ready, how⟩
    · left
      refine ⟨run_bind_err fails _, fun p' t' ht' dc' hp' => ?_⟩
      obtain ⟨rfl, rfl⟩ := Prod.mk.inj (Option.some.inj (ht.symm.trans ht'))
      exact why
    · right
      have notDir : ∀ c, T (p ++ [t]) ≠ some (.dir c) := by
        intro c hT
        rcases how with ⟨c', n, file, _⟩ | ⟨absent, _⟩
        · rw [hT] at file
          cases file
        · rw [hT] at absent
          cases absent
      refine ⟨p, t, dc, l, m1, d, K1, ht, hp, nolink, notDir, ready, how, ?_⟩
      simp only
      rw [run_bind_ok claim]
      rcases storeData_cases (m := m1) g fuel data hd with
        ⟨F, m2, fresh, store, view⟩ | ⟨refused, store⟩ | ⟨asked, short, m2, store, view⟩
      · left
        have hl := mem_locs.mp ready.slot.mem
        have parent : prune (p ++ [t]) T p = some (.dir dc) :=
          prune_eq_some.mpr ⟨snoc_not_prefix_self p t, hp⟩
        have range : fs.InRange l.1 := (ready.laid.chain parent).inRange _ hl.1
        refine ⟨F, fs.putSlot m2 l.1 l.2 (makeEntry t 0x20 (F.headD 0) data.length), fresh, ?_, ?_⟩
        · rw [run_bind_ok store]
          exact run_dirWriteEntry g range l.2 _
        · rw [view_putSlot g range hl.2, view]
          rfl
      · right
        left
        exact ⟨refused, run_bind_err store _⟩
      · right
        right
        exact ⟨asked, short, m2, run_bind_err store _, view⟩

end Vol

end CanBoot
