import CanBoot.Fs.Fat32.Root
import CanBoot.Laws.Fat32.Calls

/-!
# Writing a file into the root

`canboot_fat32_write_root_file` allocates first and looks at the directory afterwards. It takes the
first slot that is free or carries the name (`rootSlot`), and asks neither what it overwrites nor
whether the name stands behind a free slot. So a call that returned 0 may have left two entries of
one name, a directory or the volume label turned into a file, or the clusters of the file it
replaced marked for good. `root_written_iff` says when it leaves the volume consistent.
-/

namespace CanBoot

open Lib Lib.Prog Function Fat32 List

/-- The last loop of `canboot_fat32_write_root_file` stops at this entry. -/
def Entry.takes (e : Entry) (n : Name) : Bool := e.free || (!e.isLfn && decide (e.name = n))

/-- The slot `canboot_fat32_write_root_file` writes. -/
def Fat32.rootSlot (fs : Fat32) (v : Vol) (cs : List Nat) (n : Name) : Option (Nat × Nat) :=
  (fs.locs cs).find? fun l => (v.slotAt l).takes n

/-- The root holds one file of the name, with the data; every other entry of the root is as it was;
and every marked cluster has an owner. -/
structure RootWritten (fs : Fat32) (v v' : Vol) (n : Name) (data : List UInt8) : Prop where
  one : ∃! l, l ∈ fs.locs (v'.chainAt fs []) ∧ (v'.slotAt l).live = true ∧ (v'.slotAt l).name = n
  file : fs.tree v' [n] = some (.file data)
  others : ∀ l ∈ fs.locs (v.chainAt fs []), (v.slotAt l).free = false →
    ¬ ((v.slotAt l).live = true ∧ (v.slotAt l).isDir = false ∧ (v.slotAt l).name = n) →
    v'.slotAt l = v.slotAt l
  owned : v'.Covered fs

/-- The slot a root write takes is free and the name is new, or it is the entry of a file without
clusters. -/
def Fat32.RootKeeps (fs : Fat32) (v : Vol) (n : Name) : Prop :=
  ∀ l, fs.rootSlot v (v.chainAt fs []) n = some l → ((v.slotAt l).free = true ∧ fs.objAt v [n] = none) ∨
    ((v.slotAt l).live = true ∧ (v.slotAt l).isDir = false ∧ v.chainAt fs [n] = [])

variable {fs : Fat32} {v : Vol} {m m' : Media} {fuel : Nat} {T : Objs}
  {K : Chains} {F : List Nat} {data : Bytes} {t : Name} {l : Nat × Nat}

/-! ## The entry -/

section RootFileEntry

variable {e : Entry} {c n : Nat}

theorem name_rootFileEntry : (rootFileEntry e t c n).name = t := by
  simp only [rootFileEntry, Entry.name_setSize, Entry.name_setCluster, Entry.name_clearTimes,
    Entry.name_setAttr, Entry.name_setName]

theorem attr_rootFileEntry : (rootFileEntry e t c n).attr = 0x20 := rfl

theorem isDir_rootFileEntry : (rootFileEntry e t c n).isDir = false := by
  rw [Entry.isDir, attr_rootFileEntry]
  rfl

theorem live_rootFileEntry (h0 : t.byte 0 ≠ 0) (h5 : t.byte 0 ≠ 0xE5) : (rootFileEntry e t c n).live = true := by
  rw [Entry.live_iff, name_rootFileEntry, attr_rootFileEntry]
  exact ⟨⟨h0, h5⟩, by decide⟩

theorem obj_rootFileEntry (hc : c < 4294967296) (hn : n < 4294967296) :
    (rootFileEntry e t c n).obj = .file c n := by
  have first : (rootFileEntry e t c n).firstCluster = c := by
    rw [rootFileEntry, Entry.firstCluster_setSize, Entry.firstCluster_setCluster _ hc]
  rw [Entry.obj_file isDir_rootFileEntry, first, rootFileEntry, Entry.size_setSize _ hn]

end RootFileEntry

/-! ## The call -/

namespace Fat32

theorem writeRootVisit_eq (n : Name) (c : Nat) (a : Unit) (i : Nat) (e : Entry) :
    writeRootVisit n c a i e = decided a (if e.takes n then some (c, i) else none) := by
  unfold writeRootVisit Entry.takes Entry.free
  cases e.isEnd || e.isDeleted with
  | true => rfl
  | false =>
    cases e.isLfn with
    | true => rfl
    | false => by_cases h : e.name = n <;> simp [h, decided]

theorem rootSlot_congr {v' : Vol} {cs : List Nat} (agree : ∀ l ∈ fs.locs cs, v'.slotAt l = v.slotAt l) (n : Name) :
    fs.rootSlot v' cs n = fs.rootSlot v cs n :=
  find?_congr (fun e => e.takes n) agree

theorem rootSlot_eq_some {cs : List Nat} (h : fs.rootSlot v cs t = some l) :
    l ∈ fs.locs cs ∧ (v.slotAt l).takes t = true := by
  have hit := find?_some h
  exact ⟨mem_of_find?_eq_some h, hit⟩

theorem name_of_takes {e : Entry} (live : e.live = true) (takes : e.takes t = true) : e.name = t := by
  rcases Bool.or_eq_true_iff.mp takes with free | named
  · rw [not_live_of_free free] at live
    cases live
  · exact of_decide_eq_true (Bool.and_eq_true_iff.mp named).2

/-- A free slot that is taken is the first free one. -/
theorem freeSlot_of_rootSlot {cs : List Nat} (h : fs.rootSlot v cs t = some l)
    (free : (v.slotAt l).free = true) : fs.freeSlot v cs = some l := by
  obtain ⟨_, pre, post, split, before⟩ := find?_eq_some_iff_append.mp h
  refine find?_eq_some_iff_append.mpr ⟨free, pre, post, split, fun a ha => ?_⟩
  have := before a ha
  simp only [Entry.takes, Bool.not_or, Bool.and_eq_true] at this
  exact this.1

end Fat32

namespace Vol

/-- The clusters a root write asks for: at least one, at most eight. -/
theorem rootNeed (g : fs.Geometry) (short : data.length ≤ 8 * fs.bytesPerCluster) :
    ∃ n, (if fs.need data.length = 0 then 1 else fs.need data.length) = n ∧ n ≤ 8 ∧
      data.length ≤ n * fs.bytesPerCluster := by
  have pos := g.bpc_pos
  have small := g.small
  have exact' : fs.need data.length = fs.clustersFor data.length := by
    rw [need, clustersFor, u32_of_lt (by omega)]
  have enough := le_clustersFor_mul g data.length
  have few : fs.clustersFor data.length ≤ 8 := by
    have : fs.clustersFor data.length < 9 := by
      rw [clustersFor, Nat.div_lt_iff_lt_mul pos]
      omega
    omega
  refine ⟨_, rfl, ?_⟩
  rw [exact']
  split
  · next zero =>
    rw [zero] at enough
    omega
  · exact ⟨few, enough⟩

/-- **What a root write that returned 0 did**: it filled a chain of free clusters, and put its entry
into the slot it stopped at. -/
theorem Layout.writeRoot_ok (g : fs.Geometry) (h : (fs.view m).Laid fs T K) (enough : fs.totalClusters < fuel)
    (writable : fs.disk.writable = true) {name : Bytes} (short : data.length ≤ 8 * fs.bytesPerCluster)
    (ok : (canbootFat32WriteRootFile fs name data).run fuel m = .ok () m') :
    ∃ F l, Room fs (fs.view m) F data ∧ fs.rootSlot (fs.view m) (K []) (to83 name) = some l ∧
      fs.view m' = (fs.view m).wrote fs F data
        (rootFileEntry ((fs.view m).slotAt l) (to83 name) (F.headD 0) data.length) l := by
  obtain ⟨n, needed, few, room⟩ := rootNeed g short
  have reserve : (fs.reserveClusters n).run fuel m = _ := run_reserveClusters g n m
  have chosen : (if u32 (data.length + fs.bytesPerCluster - 1) / fs.bytesPerCluster = 0 then 1 else
      u32 (data.length + fs.bytesPerCluster - 1) / fs.bytesPerCluster) = n := needed
  simp only [canbootFat32WriteRootFile, chosen] at ok
  rw [bind_require_true writable, bind_require_true (by simpa using few)] at ok
  by_cases free : n ≤ ((fs.view m).freeList fs).length
  case neg =>
    rw [if_neg free] at reserve
    rw [run_bind_err reserve] at ok
    cases ok
  rw [if_pos free] at reserve
  obtain ⟨F, taken⟩ : ∃ F, ((fs.view m).freeList fs).take n = F := ⟨_, rfl⟩
  have fresh : Room fs (fs.view m) F data := by
    subst taken
    exact ⟨fun c hc => mem_of_mem_take hc, nodup_freeList.take,
      by rwa [length_take, Nat.min_eq_left free]⟩
  rw [taken] at reserve
  have range : ∀ c ∈ F, fs.InRange c := fun c hc => (mem_freeList.mp (fresh.free c hc)).1
  rw [run_bind_ok reserve, run_bind_ok (run_linkClusters g range), run_bind_ok (run_fitsBuffer g),
    run_bind_ok (run_writeData g data range)] at ok
  obtain ⟨m1, stored⟩ : ∃ m1, fs.storeAll (fs.linkAll (fs.reserveAll m F) F) F data = m1 := ⟨_, rfl⟩
  have view : fs.view m1 = (fs.view m).withFile fs F data := by
    rw [← stored, view_storeAll g data range, view_linkAll g range fresh.nodup,
      view_reserveAll g range, linked_reserved, withFile]
  rw [stored] at ok
  -- the root's own clusters are not among the free ones
  have apart : ∀ c ∈ K [], c ∉ F := fun c hc mem =>
    not_mem_freeList (h.chain h.start) hc (fresh.free c mem)
  have chain : (fs.view m1).HasChain fs fs.rootCluster (K []) := by
    rw [view]
    exact (h.chain h.start).congr fun c hc => fat_withFile_of_not_mem (apart c hc)
  have slots : ∀ a ∈ fs.locs (K []), (fs.view m1).slotAt a = (fs.view m).slotAt a := by
    rw [view]
    exact fun a => slotAt_congr fun c hc => data_withFile_of_not_mem (apart c hc)
  have walk := run_dirWalk g (Fat32.writeRootVisit (to83 name)) (fun _ a => a) ()
    (chain.belowEoc (h.fits h.start)) chain.inRange (h.length_lt h.start enough)
  rw [scanDir_decide _ (fun l e => if e.takes (to83 name) then some l else none)
    (Fat32.writeRootVisit_eq _), findSome?_slot fun e => e.takes (to83 name)] at walk
  have found := Fat32.rootSlot_congr slots (to83 name)
  rw [rootSlot] at found
  rw [found] at walk
  rw [run_bind_ok walk] at ok
  cases hit : fs.rootSlot (fs.view m) (K []) (to83 name) with
  | none =>
    rw [hit] at ok
    cases ok
  | some l =>
    rw [hit] at ok
    obtain ⟨hl, hi⟩ := mem_locs.mp (Fat32.rootSlot_eq_some hit).1
    have hc : fs.InRange l.1 := chain.inRange l.1 hl
    have same := slots l (Fat32.rootSlot_eq_some hit).1
    simp only [Fat32.decided] at ok
    rw [run_bind_ok (run_readCluster g hc), run_writeCluster g hc] at ok
    cases ok
    refine ⟨F, l, fresh, rfl, ?_⟩
    rw [slot_view g hc hi, wrote, ← view, ← same]
    exact view_putSlot g hc hi _

/-! ## What it left -/

variable {d e : Entry}

/-- The chain of the root stands. -/
theorem Layout.chainAt_root_wrote (h : v.Laid fs T K) (room : Room fs v F data) (e : Entry)
    (l : Nat × Nat) : (v.wrote fs F data e l).chainAt fs [] = K [] := by
  have chain : (v.wrote fs F data e l).HasChain fs fs.rootCluster (K []) :=
    (h.chain h.start).congr fun c hc => fat_withFile_of_not_mem fun mem =>
      not_mem_freeList (h.chain h.start) hc (room.free c mem)
  exact chain.chain_eq

/-- The slots of the root stand, but for the one written. -/
theorem Layout.slotAt_root_wrote (h : v.Laid fs T K) (room : Room fs v F data) {a : Nat × Nat}
    (ha : a ∈ fs.locs (K [])) :
    (v.wrote fs F data e l).slotAt a = if a = l then e else v.slotAt a := by
  have same : (v.withFile fs F data).slotAt a = v.slotAt a :=
    slotAt_congr (fun c hc => data_withFile_of_not_mem fun mem =>
      not_mem_freeList (h.chain h.start) hc (room.free c mem)) ha
  rw [wrote, slotAt_setSlot, same]

/-- A name is in the root when a live entry carries it. -/
theorem Layout.root_entry (h : v.Laid fs T K) {x : Obj} (hx : T [t] = some x) :
    ∃ a ∈ fs.locs (K []), (v.slotAt a).live = true ∧ (v.slotAt a).name = t := by
  rw [← nil_append [t], h.step t h.start] at hx
  obtain ⟨_, a, ha, live, name, _⟩ := (h.dir h.start).childIn_iff.mp hx
  exact ⟨a, ha, live, name⟩

theorem isLink_root (fs : Fat32) (n : Name) : fs.isLink fs.rootCluster n = false := by
  simp [isLink]

/-- Where the write fits the tree and loses no cluster, the root is as it should be. -/
theorem Wrote.rootWritten (g : fs.Geometry) (h : v.Laid fs T K)
    (w : Wrote fs v T K [] t fs.rootCluster l v d K F data e)
    (others : (v.slotAt l).free = true ∨ ((v.slotAt l).live = true ∧ (v.slotAt l).isDir = false ∧
      (v.slotAt l).name = t)) (hl : l ∈ fs.locs (K [])) (cover : v.Cover fs (prune [t] T) K) :
    RootWritten fs v (v.wrote fs F data e l) t data := by
  have laid := w.laid g h
  have dirOK : (v.wrote fs F data e l).DirOK fs fs.rootCluster (K []) := by
    have := laid.dir laid.start
    rwa [update_of_ne (by simp)] at this
  have here : (v.wrote fs F data e l).slotAt l = e := by
    rw [h.slotAt_root_wrote w.fresh hl, if_pos rfl]
  refine ⟨?_, ?_, ?_, laid.covered_iff.mpr (Wrote.cover cover)⟩
  · rw [h.chainAt_root_wrote w.fresh]
    refine ⟨l, ⟨hl, by rw [here]; exact w.live, by rw [here]; exact w.name⟩, ?_⟩
    rintro a ⟨ha, live, name⟩
    exact dirOK.unique a ha l hl live (by rw [here]; exact w.live)
      (by rw [here, name, w.name])
  · rw [w.tree_eq g h]
    exact update_self ..
  · intro a ha used other
    rw [h.chainAt_eq h.start] at ha
    rw [h.slotAt_root_wrote w.fresh ha]
    refine if_neg fun heq => ?_
    rw [heq] at used other
    rcases others with free | file
    · rw [free] at used
      cases used
    · exact other file

/-- The entry that is written over is the one the name leads to. -/
theorem Layout.root_file (h : v.Laid fs T K) (hit : fs.rootSlot v (K []) t = some l)
    (was : (v.slotAt l).live = true) (isFile : (v.slotAt l).isDir = false) :
    fs.lookup v (K []) t = some l ∧ T [t] = some (.file (v.slotAt l).firstCluster (v.slotAt l).size) := by
  obtain ⟨hl, takes⟩ := Fat32.rootSlot_eq_some hit
  have found : fs.lookup v (K []) t = some l :=
    (h.dir h.start).lookup_iff.mpr ⟨hl, was, Fat32.name_of_takes was takes⟩
  have file := h.at_snoc h.start (isLink_root fs t)
  rw [found, Option.map_some, Entry.obj_file isFile] at file
  exact ⟨found, file⟩

variable (room : Room fs v F data) (hit : fs.rootSlot v (K []) t = some l)

include room hit

/-- A new name goes into a free slot. -/
theorem Layout.root_new (h : v.Laid fs T K) (free : (v.slotAt l).free = true) (absent : T [t] = none)
    (obj : e.obj = .file (F.headD 0) data.length) (live : e.live = true) (name : e.name = t) :
    Wrote fs v T K [] t fs.rootCluster l v (v.slotAt l) K F data e ∧ (v.Cover fs T K → v.Cover fs (prune [t] T) K) := by
  have claimed := (h.opened_free (p := []) (Fat32.freeSlot_of_rootSlot hit free)).claimed h h.start
    (isLink_root fs t) absent
  refine ⟨⟨h.start, isLink_root fs t, fun dc => ?_, claimed.toReady, room, obj, live, name⟩, claimed.cover⟩
  rw [nil_append, absent]
  nofun

/-- The entry of a file is written over. Its clusters are nobody's from then on. -/
theorem Layout.root_over (g : fs.Geometry) (h : v.Laid fs T K) (was : (v.slotAt l).live = true)
    (isFile : (v.slotAt l).isDir = false) (obj : e.obj = .file (F.headD 0) data.length) (live : e.live = true)
    (name : e.name = t) : Wrote fs v T K [] t fs.rootCluster l v (v.slotAt l).markDeleted K F data e := by
  obtain ⟨found, file⟩ := h.root_file hit was isFile
  have laid := h.detach g h.start found (isLink_root fs t)
    (Entry.isDeleted_markDeleted (v.slotAt l))
  refine ⟨h.start, isLink_root fs t, fun dc => ?_,
    h.ready_detached h.start (isLink_root fs t) found laid rfl id, room, obj, live, name⟩
  rw [nil_append, file]
  nofun

omit room hit

/-- A file without clusters has none to lose. -/
theorem Layout.cover_over (h : v.Laid fs T K) {c n : Nat} (file : T [t] = some (.file c n))
    (none' : K [t] = []) (cover : v.Cover fs T K) : v.Cover fs (prune [t] T) K := by
  have freed := Cover.removed (p := []) (t := t) cover fun q hq => h.below_file file hq
  rw [nil_append, none'] at freed
  exact fun c hc marked => freed c hc (by simpa only [Vol.fat, Vol.freed, not_mem_nil, if_false])

/-- **The clusters of a file that is written over stay marked.** -/
theorem Wrote.not_covered (g : fs.Geometry) (h : v.Laid fs T K)
    (w : Wrote fs v T K [] t fs.rootCluster l v d K F data e) {x : Obj} (hx : T [t] = some x)
    (some' : K [t] ≠ []) : ¬ (v.wrote fs F data e l).Covered fs := by
  intro covered
  obtain ⟨c, hc⟩ := exists_mem_of_ne_nil _ some'
  have old : c ∉ F := fun mem => not_mem_freeList (h.chain hx) hc (w.fresh.free c mem)
  have marked : (v.wrote fs F data e l).fat c ≠ 0 := by
    show (v.withFile fs F data).fat c ≠ 0
    rw [fat_withFile_of_not_mem old]
    exact (h.chain hx).ne_zero hc
  obtain ⟨q, y, hq, mem⟩ := (w.laid g h).covered_iff.mp covered c ((h.chain hx).inRange c hc) marked
  rw [nil_append] at hq mem
  by_cases hqt : q = [t]
  · rw [hqt, update_self] at mem
    exact old mem
  · rw [update_of_ne hqt] at hq mem
    exact hqt (h.disjoint hq hx mem hc)

end Vol

namespace RootWritten

variable {e : Entry}

/-- A name behind a free slot is there twice afterwards. -/
theorem absent (h : v.Laid fs T K) (room : Vol.Room fs v F data) (live : e.live = true)
    (name : e.name = t) (hl : l ∈ fs.locs (K [])) (free : (v.slotAt l).free = true)
    (done : RootWritten fs v (v.wrote fs F data e l) t data) : T [t] = none := by
  cases hx : T [t] with
  | none => rfl
  | some x =>
    obtain ⟨a, ha, alive, named⟩ := h.root_entry hx
    have one := done.one
    rw [h.chainAt_root_wrote room] at one
    have hne : a ≠ l := by
      rintro rfl
      rw [Fat32.not_live_of_free free] at alive
      cases alive
    have new := h.slotAt_root_wrote (e := e) (l := l) room hl
    have old := h.slotAt_root_wrote (e := e) (l := l) room ha
    rw [if_pos rfl] at new
    rw [if_neg hne] at old
    exact absurd (one.unique ⟨ha, by rw [old]; exact alive, by rw [old]; exact named⟩
      ⟨hl, by rw [new]; exact live, by rw [new]; exact name⟩) hne

/-- What is written over was a file. -/
theorem isFile (h : v.Laid fs T K) (room : Vol.Room fs v F data) (live : e.live = true)
    (notDir : e.isDir = false) (hl : l ∈ fs.locs (K [])) (used : (v.slotAt l).free = false)
    (done : RootWritten fs v (v.wrote fs F data e l) t data) :
    (v.slotAt l).live = true ∧ (v.slotAt l).isDir = false := by
  by_cases file : (v.slotAt l).live = true ∧ (v.slotAt l).isDir = false ∧ (v.slotAt l).name = t
  · exact ⟨file.1, file.2.1⟩
  · have same := done.others l (by rwa [h.chainAt_eq h.start]) used file
    rw [h.slotAt_root_wrote room hl, if_pos rfl] at same
    rw [← same]
    exact ⟨live, notDir⟩

end RootWritten

/-- **A root write that returned 0 left the volume consistent exactly when the slot it took was free
and the name new, or was the entry of a file without clusters.** -/
theorem root_written_iff (g : fs.Geometry) (wf : (fs.view m).WellFormed fs) (owned : (fs.view m).Covered fs)
    (writable : fs.disk.writable = true) (enough : fs.totalClusters < fuel) {name data : List UInt8}
    (legal : LegalName name) (short : data.length ≤ 8 * fs.bytesPerCluster)
    (ok : (canbootFat32WriteRootFile fs name data).run fuel m = .ok () m') :
    RootWritten fs (fs.view m) (fs.view m') (to83 name) data ↔ fs.RootKeeps (fs.view m) (to83 name) := by
  obtain ⟨F, l, room, hit, view⟩ := Vol.Layout.writeRoot_ok g wf enough writable short ok
  obtain ⟨hl, takes⟩ := Fat32.rootSlot_eq_some hit
  have cover := wf.covered_iff.mp owned
  have small := g.small
  have obj := obj_rootFileEntry (e := (fs.view m).slotAt l) (t := to83 name) (room.head_lt g)
    (show data.length < 4294967296 by omega)
  have live := live_rootFileEntry (e := (fs.view m).slotAt l) (c := F.headD 0) (n := data.length)
    legal.head.1 legal.head.2
  have named := name_rootFileEntry (e := (fs.view m).slotAt l) (t := to83 name) (c := F.headD 0)
    (n := data.length)
  rw [view]
  constructor
  · intro done l' hit'
    cases hit.symm.trans hit'
    cases free : ((fs.view m).slotAt l).free with
    | true => exact Or.inl ⟨rfl, done.absent wf room live named hl free⟩
    | false =>
      obtain ⟨was, notDir⟩ := done.isFile wf room live isDir_rootFileEntry hl free
      have w := Vol.Layout.root_over room hit g wf was notDir obj live named
      refine Or.inr ⟨was, notDir, Decidable.byContradiction fun some' => ?_⟩
      obtain ⟨c, hc⟩ := exists_mem_of_ne_nil _ some'
      obtain ⟨x, hx⟩ := Vol.of_mem_chainAt hc
      exact w.not_covered g wf hx some' done.owned
  · intro keeps
    rcases keeps l hit with ⟨free, absent⟩ | ⟨was, notDir, none'⟩
    · obtain ⟨w, cover'⟩ := Vol.Layout.root_new room hit wf free absent obj live named
      exact w.rootWritten g wf (Or.inl free) hl (cover' cover)
    · have w := Vol.Layout.root_over room hit g wf was notDir obj live named
      exact w.rootWritten g wf (Or.inr ⟨was, notDir, Fat32.name_of_takes was takes⟩) hl
        (wf.cover_over (wf.root_file hit was notDir).2 none' cover)

theorem tinyMedia_covered : (tiny.view tinyMedia).Covered tiny := by
  have only : ∀ c < 8, 2 ≤ c → (tiny.view tinyMedia).fat c ≠ 0 → c ∈ [2] := by decide +kernel
  exact tiny_laid.covered_iff.mpr fun c hc marked => ⟨[], _, rfl, only c hc.2 hc.1 marked⟩

/-- A new file in an empty root. -/
theorem root_written_iff_new : ∃ m', (canbootFat32WriteRootFile tiny [65] [7]).run 7 tinyMedia = .ok () m' ∧
      (RootWritten tiny (tiny.view tinyMedia) (tiny.view m') (to83 [65]) [7] ↔
        tiny.RootKeeps (tiny.view tinyMedia) (to83 [65])) := by
  have ok := Outcome.eq_ok_of_isOk tinyMedia
    (o := (canbootFat32WriteRootFile tiny [65] [7]).run 7 tinyMedia) (by decide +kernel)
  exact ⟨_, ok, root_written_iff tiny_geometry tiny_laid.wellFormed tinyMedia_covered rfl (by decide)
    legalName_a (by decide) ok⟩

theorem tinyFile_covered : (tiny.view tinyFile).Covered tiny := by
  have only : ∀ c < 8, 2 ≤ c → (tiny.view tinyFile).fat c ≠ 0 →
      ∃ p ∈ [[], [to83 [65]]], c ∈ (tiny.view tinyFile).chainAt tiny p := by decide +kernel
  refine tinyFile_wellFormed.covered_iff.mpr fun c hc marked => ?_
  obtain ⟨p, _, mem⟩ := only c hc.2 hc.1 marked
  obtain ⟨x, hx⟩ := Vol.of_mem_chainAt mem
  exact ⟨p, x, hx, mem⟩

/-- `A` of two clusters is written over: they stay marked, and nothing owns them. -/
theorem root_overwrite_leaks :
    (tiny.view tinyFile).WellFormed tiny ∧ (tiny.view tinyFile).Covered tiny ∧ LegalName [65] ∧
    ∃ m', (canbootFat32WriteRootFile tiny [65] [7]).run 7 tinyFile = .ok () m' ∧
      ¬ RootWritten tiny (tiny.view tinyFile) (tiny.view m') (to83 [65]) [7] := by
  have ok := Outcome.eq_ok_of_isOk tinyFile
    (o := (canbootFat32WriteRootFile tiny [65] [7]).run 7 tinyFile) (by decide +kernel)
  refine ⟨tinyFile_wellFormed, tinyFile_covered, legalName_a, _, ok, fun done => ?_⟩
  obtain ⟨F, l, room, hit, view⟩ := Vol.Layout.writeRoot_ok tiny_geometry tinyFile_wellFormed
    (by decide) rfl (by decide) ok
  have first : tiny.rootSlot (tiny.view tinyFile) ((tiny.view tinyFile).chainAt tiny [])
      (to83 [65]) = some (2, 0) := by decide +kernel
  cases first.symm.trans hit
  have w := Vol.Layout.root_over (e := rootFileEntry ((tiny.view tinyFile).slotAt (2, 0))
      (to83 [65]) (F.headD 0) [7].length) room hit tiny_geometry tinyFile_wellFormed
    (by decide +kernel) (by decide +kernel)
    (obj_rootFileEntry (room.head_lt tiny_geometry) (by decide))
    (live_rootFileEntry legalName_a.head.1 legalName_a.head.2) name_rootFileEntry
  have owned := done.owned
  rw [view] at owned
  have file : tiny.objAt (tiny.view tinyFile) [to83 [65]] = some (.file 3 600) := by decide +kernel
  exact w.not_covered tiny_geometry tinyFile_wellFormed file (by decide +kernel) owned

end CanBoot
