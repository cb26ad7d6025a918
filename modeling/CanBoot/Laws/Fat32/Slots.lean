import CanBoot.Laws.Fat32.View
import CanBoot.Fs.Fat32.Directory

/-!
# The accessors, run

On a volume with sound geometry the four accessors always answer: a read answers from the view, a
write moves the medium to `putFat` or `putCluster`. A cluster of a directory is an array of 32-byte
slots, and the two calls that change one slot (`dir_write_entry`, `dir_mark_deleted`) are one update
of the view, `Vol.setSlot`.
-/

namespace CanBoot

open Lib Lib.Prog Nat List

/-- The entry in a slot of a cluster. -/
def Vol.slot (v : Vol) (c i : Nat) : Entry := entryAt (v.data c) i

/-- One slot replaced. -/
def Vol.setSlot (v : Vol) (c i : Nat) (e : Entry) : Vol :=
  { v with data := fun c' => if c' = c then putEntry (v.data c) i e else v.data c' }

/-! ## Slots of buffers and volumes -/

theorem entryAt_congr {b b' : Buf} {i : Nat} (h : ∀ o, i * 32 ≤ o → o < i * 32 + 32 → b o = b' o) :
    entryAt b i = entryAt b' i := by
  apply Entry.ext
  funext k
  exact h _ (Nat.le_add_right _ _) (by omega)

theorem entryAt_putEntry (b : Buf) (i j : Nat) (e : Entry) :
    entryAt (putEntry b i e) j = if j = i then e else entryAt b j := by
  apply Entry.ext
  funext k
  by_cases h : j = i
  · subst h
    have inside : j * 32 ≤ j * 32 + k.val ∧ j * 32 + k.val < j * 32 + 32 := by omega
    simp only [entryAt, putEntry, dif_pos inside, if_pos, Nat.add_sub_cancel_left]
  · have outside : ¬ (i * 32 ≤ j * 32 + k.val ∧ j * 32 + k.val < i * 32 + 32) := by omega
    simp only [entryAt, putEntry, dif_neg outside, if_neg h]

theorem putEntry_of_out (b : Buf) {i o : Nat} (e : Entry) (h : o < i * 32 ∨ i * 32 + 32 ≤ o) :
    putEntry b i e o = b o := by
  rw [putEntry, dif_neg (by omega)]

/-- Marking an entry deleted is replacing it by its marked copy. -/
theorem putByte_eq_putEntry (b : Buf) (i : Nat) : putByte b (i * 32) 0xE5 = putEntry b i (entryAt b i).markDeleted := by
  funext o
  by_cases inside : i * 32 ≤ o ∧ o < i * 32 + 32
  · rw [putEntry, dif_pos inside]
    simp only [Entry.markDeleted, entryAt]
    by_cases h : o = i * 32
    · subst h
      rw [putByte_same, if_pos (by simp only [Nat.sub_self]; rfl)]
    · rw [putByte_of_ne _ _ h, if_neg (by simp only [Fin.ext_iff]; omega)]
      congr 1
      omega
  · rw [putEntry, dif_neg inside, putByte_of_ne _ _ (by omega)]

namespace Vol

variable (v : Vol)

@[simp] theorem fat_setFat (c x c' : Nat) : (v.setFat c x).fat c' = if c' = c then x else v.fat c' := rfl

theorem data_setData (fs : Fat32) (c : Nat) (b : Buf) (c' o : Nat) : (v.setData fs c b).data c' o =
      if c' = c then (if o < fs.bytesPerCluster then b o else 0) else v.data c' o := rfl

theorem data_setData_of_ne (fs : Fat32) {c c' : Nat} (b : Buf) (h : c' ≠ c) :
    (v.setData fs c b).data c' = v.data c' := by
  funext o
  rw [data_setData, if_neg h]

theorem data_setSlot_of_ne {c c' : Nat} (i : Nat) (e : Entry) (h : c' ≠ c) :
    (v.setSlot c i e).data c' = v.data c' := if_neg h

theorem slot_setSlot (c i c' i' : Nat) (e : Entry) :
    (v.setSlot c i e).slot c' i' = if c' = c ∧ i' = i then e else v.slot c' i' := by
  simp only [slot, setSlot]
  by_cases hc : c' = c
  · subst hc
    rw [if_pos rfl, entryAt_putEntry]
    by_cases hi : i' = i
    · rw [if_pos hi, if_pos ⟨rfl, hi⟩]
    · rw [if_neg hi, if_neg (fun h => hi h.2)]
  · rw [if_neg hc, if_neg (fun h => hc h.1)]

end Vol

namespace Fat32

variable {fs : Fat32} {c : Nat} {fuel : Nat} {m : Media}

theorem Geometry.entries (g : fs.Geometry) : fs.entries * 32 = fs.bytesPerCluster := by
  have := g.bytesPerCluster
  unfold Fat32.entries
  omega

theorem Geometry.entries_pos (g : fs.Geometry) : 2 ≤ fs.entries := by
  have := g.entries
  have := g.bytesPerCluster
  have := g.spcPos
  omega

theorem slot_setData (g : fs.Geometry) (v : Vol) (b : Buf) {i : Nat} (hi : i < fs.entries) :
    (v.setData fs c b).slot c i = entryAt b i := by
  refine entryAt_congr fun o _ ho => ?_
  have := g.entries
  have inside : o < fs.bytesPerCluster := by
    omega
  rw [Vol.data_setData, if_pos rfl, if_pos inside]

/-! ## Running the accessors -/

/-- The buffer `read_cluster` fills. -/
def clusterBuf (fs : Fat32) (m : Media) (c : Nat) : Buf := fun i =>
  if i < fs.sectorsPerCluster * 512 then m (fs.dataLba c + i / 512) (i % 512)
  else fs.disk.leftover i

section

variable (g : fs.Geometry) (hc : fs.InRange c)

include g hc

theorem clusterBuf_eq {o : Nat} (ho : o < fs.bytesPerCluster) : fs.clusterBuf m c o = (fs.view m).data c o := by
  have := g.bytesPerCluster
  rw [clusterBuf, if_pos (by omega)]
  simp only [view, if_pos (And.intro hc ho)]

theorem run_readCluster : (fs.readCluster c).run fuel m = .ok (fs.clusterBuf m c) m := by
  have bound := dataLba_le hc
  rw [readCluster, g.clusterLba hc, g.spb, Nat.mul_one, Disk.run_read g.serves bound, g.blockSize]
  rfl

theorem run_writeCluster (b : Buf) : (fs.writeCluster c b).run fuel m = .ok () (fs.putCluster m c b) := by
  have bound := dataLba_le hc
  rw [writeCluster, g.clusterLba hc, g.spb, Nat.mul_one, Disk.run_write g.serves bound, g.blockSize]
  rfl

theorem Geometry.fatLba_served {k : Nat} (hk : k < fs.numFats) :
    fs.fatLba k c + 1 ≤ fs.dataStartLba + fs.totalClusters * fs.sectorsPerCluster := by
  have := g.fatLba_lt_data (g.inTable hc) hk
  omega

theorem run_readFatEntry : (fs.readFatEntry c).run fuel m = .ok ((fs.view m).fat c) m := by
  have lt := g.cluster_lt hc
  have off : u32 (c * 4) = c * 4 := u32_of_lt (by omega)
  have addr : fs.fatStartLba + c * 4 / 512 * 1 = fs.fatLba 0 c := by unfold fatLba; omega
  have lo : c * 4 % 512 = c % 128 * 4 := by omega
  rw [readFatEntry, off, g.spb, g.bytesPerSector, addr, lo,
    run_bind_ok (Disk.run_read g.serves (g.fatLba_served hc g.fatsPos) fuel m), run_pure]
  congr 1
  simp only [Vol.fat, view, if_pos (g.inTable hc), zero_mod, g.blockSize]
  congr 1
  refine le32_congr fun i _ hi => ?_
  rw [if_pos (by omega), div_eq_of_lt (by omega), Nat.add_zero, mod_eq_of_lt (by omega)]

/-- One copy written. -/
theorem run_writeFatCopy (x : Nat) {k : Nat}
    (hk : k < fs.numFats) :
    (fs.writeFatCopy c x k).run fuel m = .ok () fun l => if l = fs.fatLba k c then patchFat c x (m l) else m l := by
  have lt := g.cluster_lt hc
  have off : u32 (c * 4) = c * 4 := u32_of_lt (by omega)
  have addr : fs.fatStartLba + k * fs.sectorsPerFat * 1 + c * 4 / 512 * 1 = fs.fatLba k c := by
    unfold fatLba
    omega
  have lo : c * 4 % 512 = c % 128 * 4 := by omega
  rw [writeFatCopy, off, g.spb, g.bytesPerSector]
  simp only [addr, lo]
  rw [run_bind_ok (Disk.run_read g.serves (g.fatLba_served hc hk) fuel m),
    Disk.run_write g.serves (g.fatLba_served hc hk), g.blockSize]
  congr 1
  funext l o
  have same : ∀ i, i < 512 → (if i < 1 * 512 then m (fs.fatLba k c + i / 512) (i % 512)
      else fs.disk.leftover i) = m (fs.fatLba k c) i := by
    intro i hi
    rw [if_pos (by omega), div_eq_of_lt hi, Nat.add_zero, mod_eq_of_lt hi]
  by_cases hl : l = fs.fatLba k c
  · subst hl
    rw [if_pos rfl]
    by_cases ho : o < 512
    · rw [if_pos (by omega), patchFat, if_pos ho, Nat.sub_self, Nat.zero_mul, Nat.zero_add]
      -- the patched buffer and the patched block agree below 512
      have word : le32 (fun i => if i < 1 * 512 then m (fs.fatLba k c + i / 512) (i % 512)
          else fs.disk.leftover i) (c % 128 * 4) = le32 (m (fs.fatLba k c)) (c % 128 * 4) :=
        le32_congr fun i _ hi => same i (by omega)
      rw [word]
      simp only [putLe32, putLe16, putByte, same o ho]
    · rw [if_neg (by omega), patchFat, if_neg ho]
  · rw [if_neg (by omega), if_neg hl]

/-- **`write_fat_entry` answers**, with the entry set in every copy. -/
theorem run_writeFatEntry (x : Nat) : (fs.writeFatEntry c x).run fuel m = .ok () (fs.putFat m c x) := by
  -- the copies written so far are a prefix of the range
  have copies : ∀ (ks : List Nat) (m : Media), ks.Nodup → (∀ k ∈ ks, k < fs.numFats) →
      (Prog.forAcc (fun fat (_ : Unit) => fs.writeFatCopy c x fat) ks ()).run fuel m =
        .ok () fun l => if l ∈ ks.map (fs.fatLba · c) then patchFat c x (m l) else m l := by
    intro ks
    induction ks with
    | nil =>
      intro m _ _
      simp only [Prog.forAcc, run_pure, map_nil, not_mem_nil, if_false]
    | cons k ks ih =>
      intro m nodup small
      have hk := small k mem_cons_self
      rw [Prog.forAcc, run_bind_ok (run_writeFatCopy g hc x hk),
        ih _ (nodup_cons.mp nodup).2 fun j hj => small j (mem_cons_of_mem _ hj)]
      congr 1
      funext l
      simp only [map_cons, mem_cons]
      by_cases hl : l = fs.fatLba k c
      · have later : l ∉ ks.map (fs.fatLba · c) := by
          intro hmem
          obtain ⟨j, hj, heq⟩ := mem_map.mp hmem
          have : j = k := (fatLba_inj (g.inTable hc) (g.inTable hc) (heq.trans hl)).1
          exact (nodup_cons.mp nodup).1 (this ▸ hj)
        rw [if_neg later, if_pos hl, if_pos (Or.inl hl)]
      · simp only [hl, false_or, if_false]
  exact copies _ m nodup_range fun k hk => mem_range.mp hk

end

theorem run_fitsBuffer (g : fs.Geometry) : fs.fitsBuffer.run fuel m = .ok () m := by
  simp only [fitsBuffer, run_require, g.small, decide_true, if_true]

/-! ## Writing a slot -/

/-- The medium with one slot replaced. -/
def putSlot (fs : Fat32) (m : Media) (c i : Nat) (e : Entry) : Media :=
  fs.putCluster m c (putEntry (fs.clusterBuf m c) i e)

section

variable (g : fs.Geometry) (hc : fs.InRange c)

include g hc

theorem view_putSlot {i : Nat} (hi : i < fs.entries)
    (e : Entry) : fs.view (fs.putSlot m c i e) = (fs.view m).setSlot c i e := by
  rw [putSlot, view_putCluster g m _ hc]
  apply Vol.ext
  · rfl
  · funext c' o
    simp only [Vol.setData, Vol.setSlot]
    by_cases heq : c' = c
    · subst heq
      rw [if_pos rfl, if_pos rfl]
      have whole := g.entries
      by_cases ho : o < fs.bytesPerCluster
      · rw [if_pos ho]
        unfold putEntry
        split
        · rfl
        · exact clusterBuf_eq g hc ho
      · rw [if_neg ho, putEntry_of_out _ _ (Or.inr (by omega))]
        simp only [view, ho, and_false, if_false]
    · rw [if_neg heq, if_neg heq]
  · rfl

theorem slot_view {i : Nat} (hi : i < fs.entries) : entryAt (fs.clusterBuf m c) i = (fs.view m).slot c i := by
  refine entryAt_congr fun o _ ho => clusterBuf_eq g hc ?_
  have := g.entries
  omega

theorem run_dirWriteEntry (i : Nat) (e : Entry) :
    (fs.dirWriteEntry c i e).run fuel m = .ok () (fs.putSlot m c i e) := by
  rw [dirWriteEntry, run_bind_ok (run_fitsBuffer g), run_bind_ok (run_readCluster g hc), run_writeCluster g hc]
  rfl

theorem run_dirMarkDeleted {i : Nat} (hi : i < fs.entries) : (fs.dirMarkDeleted c i).run fuel m =
      .ok () (fs.putSlot m c i ((fs.view m).slot c i).markDeleted) := by
  rw [dirMarkDeleted, run_bind_ok (run_fitsBuffer g), run_bind_ok (run_readCluster g hc),
    run_writeCluster g hc, putByte_eq_putEntry, slot_view g hc hi]
  rfl

end

end Fat32

end CanBoot
