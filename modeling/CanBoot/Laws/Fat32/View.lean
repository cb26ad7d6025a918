import CanBoot.Fs.Fat32.Volume

/-!
# The volume a medium holds

`Geometry` is what makes a mount handle describe a FAT32 volume: 512-byte sectors that are disk
blocks, clusters that fit the engine's buffers, tables with an entry for every cluster, and a
driver that serves the blocks of the volume.

`view` reads such a medium as a volume (`Vol`): the table entries of every copy, the bytes of every
cluster, and the boot area, which no call of the engine writes. The four accessors of
`fs/fat32.c` are reads of the view and two updates of it, `putFat` and `putCluster`
(`view_putFat`, `view_putCluster`). Nothing above this module looks at a block address again.
-/

namespace CanBoot

open Lib List Nat

namespace Fat32

/-- The mount handle describes a FAT32 volume on its disk. -/
structure Geometry (fs : Fat32) : Prop where
  blockSize : fs.disk.blockSize = 512
  bytesPerSector : fs.bytesPerSector = 512
  spcPos : 0 < fs.sectorsPerCluster
  bytesPerCluster : fs.bytesPerCluster = 512 * fs.sectorsPerCluster
  small : fs.bytesPerCluster ≤ 8192
  fatsPos : 0 < fs.numFats
  reservedPos : 0 < fs.fatStartLba
  dataStart : fs.dataStartLba = fs.fatStartLba + fs.numFats * fs.sectorsPerFat
  covers : fs.totalClusters + 2 ≤ 128 * fs.sectorsPerFat
  clusters : fs.totalClusters + 2 ≤ eoc
  serves : fs.disk.ServesBelow (fs.dataStartLba + fs.totalClusters * fs.sectorsPerCluster)

/-- The clusters of the volume. -/
def InRange (fs : Fat32) (c : Nat) : Prop := 2 ≤ c ∧ c < 2 + fs.totalClusters

instance (fs : Fat32) (c : Nat) : Decidable (fs.InRange c) := inferInstanceAs (Decidable (_ ∧ _))

/-- The entries of a table; there are more than clusters. -/
def InTable (fs : Fat32) (c : Nat) : Prop := c < 128 * fs.sectorsPerFat

instance (fs : Fat32) (c : Nat) : Decidable (fs.InTable c) := inferInstanceAs (Decidable (_ < _))

/-- The block that holds a cluster's entry in a copy of the table. -/
def fatLba (fs : Fat32) (k c : Nat) : Nat := fs.fatStartLba + k * fs.sectorsPerFat + c / 128

/-- A cluster's first block. -/
def dataLba (fs : Fat32) (c : Nat) : Nat := fs.dataStartLba + (c - 2) * fs.sectorsPerCluster

/-- A table sector with one entry replaced, its top four bits kept. -/
def patchFat (c x : Nat) (b : Buf) : Buf := fun o =>
  if o < 512 then
    putLe32 b (c % 128 * 4) (le32 b (c % 128 * 4) / 0x10000000 * 0x10000000 + x % 0x10000000) o
  else b o

/-- The medium after `write_fat_entry`. -/
def putFat (fs : Fat32) (m : Media) (c x : Nat) : Media := fun l =>
  if l ∈ (List.range fs.numFats).map (fs.fatLba · c) then patchFat c x (m l) else m l

/-- The medium after `write_cluster`. -/
def putCluster (fs : Fat32) (m : Media) (c : Nat) (b : Buf) : Media := fun l o =>
  if fs.dataLba c ≤ l ∧ l < fs.dataLba c + fs.sectorsPerCluster ∧ o < 512 then
    b ((l - fs.dataLba c) * 512 + o)
  else m l o

end Fat32

/-- A volume: the entries of each table copy, the bytes of each cluster, the boot area. -/
@[ext] structure Vol where
  fats : Nat → Nat → Nat
  data : Nat → Buf
  boot : Media

namespace Vol

/-- The first table, which every read goes to. -/
def fat (v : Vol) (c : Nat) : Nat := v.fats 0 c

def setFat (v : Vol) (c x : Nat) : Vol :=
  { v with fats := fun k c' => if c' = c then x else v.fats k c' }

def setData (fs : Fat32) (v : Vol) (c : Nat) (b : Buf) : Vol :=
  { v with data := fun c' o =>
      if c' = c then (if o < fs.bytesPerCluster then b o else 0) else v.data c' o }

end Vol

namespace Fat32

/-- The volume on a medium. The boot area is everything before the tables, and the two reserved
words at the head of the first one. -/
def view (fs : Fat32) (m : Media) : Vol where
  fats k c := if fs.InTable c then
    le32 (m (fs.fatLba (k % fs.numFats) c)) (c % 128 * 4) % 0x10000000 else 0
  data c o := if fs.InRange c ∧ o < fs.bytesPerCluster then
    m (fs.dataLba c + o / 512) (o % 512) else 0
  boot l o := if l < fs.fatStartLba ∨ (l = fs.fatStartLba ∧ o < 8) then m l o else 0

variable {fs : Fat32} {c : Nat}

/-! ## Addresses -/

theorem Geometry.spb (g : fs.Geometry) : fs.spb = 1 := by
  rw [Fat32.spb, blocksPerSector, g.bytesPerSector, g.blockSize]
  rfl

section

variable (g : fs.Geometry) (hc : fs.InRange c)

include g hc

theorem Geometry.cluster_lt : c < 0x0FFFFFF8 := by
  have := g.clusters
  have := hc.2
  unfold eoc at *
  omega

theorem Geometry.isCluster : isCluster c = true := by
  have := g.cluster_lt hc
  simp only [CanBoot.isCluster, eoc, hc.1, this, decide_true, Bool.and_self]

theorem Geometry.clusterLba : fs.clusterLba c = fs.dataLba c := by
  have lt := g.cluster_lt hc
  rw [Fat32.clusterLba, dataLba, g.spb, sub32_of_le (by omega) hc.1, Nat.mul_one]

theorem Geometry.inTable : fs.InTable c := by
  have := g.covers
  have := hc.2
  unfold InTable
  omega

end

/-- A table entry's block lies inside its own copy. -/
theorem fatLba_lt (hc : fs.InTable c) (k : Nat) : fs.fatLba k c < fs.fatStartLba + (k + 1) * fs.sectorsPerFat := by
  unfold InTable at hc
  unfold fatLba
  rw [Nat.add_mul, Nat.one_mul]
  omega

/-- Two entries share a block only in the same copy. -/
theorem fatLba_inj {c' k k' : Nat} (hc : fs.InTable c)
    (hc' : fs.InTable c') (h : fs.fatLba k c = fs.fatLba k' c') : k = k' ∧ c / 128 = c' / 128 := by
  have apart : ∀ {i j a b : Nat}, fs.InTable a → i < j → fs.fatLba i a < fs.fatLba j b := by
    intro i j a b ha hij
    have upper := fatLba_lt ha i
    have step : (i + 1) * fs.sectorsPerFat ≤ j * fs.sectorsPerFat := Nat.mul_le_mul_right _ hij
    have : fs.fatStartLba + j * fs.sectorsPerFat ≤ fs.fatLba j b := Nat.le_add_right _ _
    omega
  rcases Nat.lt_trichotomy k k' with lt | rfl | gt
  · exact absurd h (Nat.ne_of_lt (apart hc lt))
  · refine ⟨rfl, ?_⟩
    unfold fatLba at h
    omega
  · exact absurd h.symm (Nat.ne_of_lt (apart hc' gt))

/-- The tables end where the data begins. -/
theorem Geometry.fatLba_lt_data (g : fs.Geometry) (hc : fs.InTable c) {k : Nat}
    (hk : k < fs.numFats) : fs.fatLba k c < fs.dataStartLba := by
  have upper := fatLba_lt hc k
  have : (k + 1) * fs.sectorsPerFat ≤ fs.numFats * fs.sectorsPerFat := Nat.mul_le_mul_right _ hk
  rw [g.dataStart]
  omega

/-- A cluster's blocks lie inside the volume. -/
theorem dataLba_le (hc : fs.InRange c) : fs.dataLba c + fs.sectorsPerCluster ≤
      fs.dataStartLba + fs.totalClusters * fs.sectorsPerCluster := by
  have last : c - 2 + 1 ≤ fs.totalClusters := by have := hc.1; have := hc.2; omega
  have := Nat.mul_le_mul_right fs.sectorsPerCluster last
  rw [Nat.add_mul, Nat.one_mul] at this
  unfold dataLba
  omega

/-- The blocks of two clusters do not meet. -/
theorem dataLba_disjoint {c' j j' : Nat} (hc : fs.InRange c) (hc' : fs.InRange c') (hj : j < fs.sectorsPerCluster)
    (hj' : j' < fs.sectorsPerCluster) (h : fs.dataLba c + j = fs.dataLba c' + j') : c = c' ∧ j = j' := by
  have key : (c - 2) * fs.sectorsPerCluster + j = (c' - 2) * fs.sectorsPerCluster + j' := by
    unfold dataLba at h
    omega
  have quot := congrArg (· / fs.sectorsPerCluster) key
  have pos : 0 < fs.sectorsPerCluster := by omega
  simp only [Nat.add_comm _ j, Nat.add_comm _ j', add_mul_div_right _ _ pos,
    div_eq_of_lt hj, div_eq_of_lt hj', Nat.zero_add] at quot
  have := hc.1
  have := hc'.1
  refine ⟨by omega, ?_⟩
  rw [quot] at key
  omega

/-! ## The updates, through the view -/

/-- The entry that was patched reads back; the other entries of the sector stand. -/
theorem le32_patchFat {c' x : Nat} (b : Buf) (hx : x < 0x10000000) : le32 (patchFat c x b) (c' % 128 * 4) % 0x10000000 =
      if c' % 128 = c % 128 then x else le32 b (c' % 128 * 4) % 0x10000000 := by
  have inside : ∀ {i}, c' % 128 * 4 ≤ i → i < c' % 128 * 4 + 4 → i < 512 := by omega
  have drop : le32 (patchFat c x b) (c' % 128 * 4) = le32 (putLe32 b (c % 128 * 4)
        (le32 b (c % 128 * 4) / 0x10000000 * 0x10000000 + x % 0x10000000)) (c' % 128 * 4) :=
    le32_congr fun i hi hi' => by rw [patchFat, if_pos (inside hi hi')]
  rw [drop]
  by_cases h : c' % 128 = c % 128
  · rw [if_pos h, h, le32_putLe32]
    omega
  · rw [if_neg h, le32_putLe32_of_ne _ _ (by omega)]

/-- **`write_fat_entry` sets one entry, in every copy.** -/
theorem view_putFat (g : fs.Geometry) (m : Media) {x : Nat} (hc : fs.InRange c)
    (hx : x < 0x10000000) : fs.view (fs.putFat m c x) = (fs.view m).setFat c x := by
  have notData : ∀ l, fs.dataStartLba ≤ l → fs.putFat m c x l = m l := by
    intro l hl
    rw [putFat, if_neg]
    rintro hmem
    obtain ⟨k, hk, rfl⟩ := mem_map.mp hmem
    have := g.fatLba_lt_data (g.inTable hc) (mem_range.mp hk)
    omega
  apply Vol.ext
  · funext k c'
    simp only [view, Vol.setFat]
    by_cases hc' : fs.InTable c'
    · rw [if_pos hc', if_pos hc']
      have hkf : k % fs.numFats < fs.numFats := mod_lt _ g.fatsPos
      by_cases hsame : c' / 128 = c / 128
      · have here : fs.fatLba (k % fs.numFats) c' ∈
            (range fs.numFats).map (fs.fatLba · c) :=
          mem_map.mpr ⟨k % fs.numFats, mem_range.mpr hkf, by unfold fatLba; rw [hsame]⟩
        rw [putFat, if_pos here, le32_patchFat _ hx]
        by_cases heq : c' = c
        · rw [if_pos (by rw [heq]), if_pos heq]
        · rw [if_neg (by omega), if_neg heq]
      · rw [putFat, if_neg, if_neg (by rintro rfl; exact hsame rfl)]
        intro hmem
        obtain ⟨j, _, hj⟩ := mem_map.mp hmem
        exact hsame (fatLba_inj (g.inTable hc) hc' hj).2.symm
    · rw [if_neg hc', if_neg hc', if_neg (by rintro rfl; exact hc' (g.inTable hc))]
  · funext c' o
    simp only [view, Vol.setFat]
    split
    · rw [notData _ (by unfold dataLba; omega)]
    · rfl
  · funext l o
    simp only [view, Vol.setFat]
    split
    · next hl =>
      unfold putFat
      split
      · next hmem =>
        -- only the first sector of the first copy can hold boot words
        obtain ⟨k, _, rfl⟩ := mem_map.mp hmem
        have low : o < c % 128 * 4 := by
          have := hc.1
          unfold fatLba at hl
          omega
        have : o < 512 := by omega
        rw [patchFat, if_pos this, putLe32_of_out _ _ (Or.inl low)]
      · rfl
    · rfl

/-- **`write_cluster` sets the bytes of one cluster.** -/
theorem view_putCluster (g : fs.Geometry) (m : Media) (b : Buf) (hc : fs.InRange c) :
    fs.view (fs.putCluster m c b) = (fs.view m).setData fs c b := by
  have below : ∀ l o, l < fs.dataStartLba → fs.putCluster m c b l o = m l o := by
    intro l o hl
    rw [putCluster, if_neg]
    unfold dataLba
    omega
  apply Vol.ext
  · funext k c'
    simp only [view, Vol.setData]
    split
    · next hc' =>
      have hk : k % fs.numFats < fs.numFats := mod_lt _ g.fatsPos
      have := g.fatLba_lt_data hc' hk
      congr 1
      exact le32_congr fun i _ _ => below _ _ this
    · rfl
  · funext c' o
    simp only [view, Vol.setData]
    by_cases hin : fs.InRange c' ∧ o < fs.bytesPerCluster
    · rw [if_pos hin]
      have hj : o / 512 < fs.sectorsPerCluster := by
        have := g.bytesPerCluster
        omega
      by_cases heq : c' = c
      · subst heq
        rw [if_pos rfl, if_pos hin.2, putCluster, if_pos (by omega)]
        congr 1
        omega
      · rw [if_neg heq, putCluster, if_neg, if_pos hin]
        rintro ⟨h1, h2, _⟩
        have meet : fs.dataLba c' + o / 512 = fs.dataLba c + (fs.dataLba c' + o / 512 - fs.dataLba c) := by
          omega
        exact heq (dataLba_disjoint hin.1 hc hj (by omega) meet).1
    · rw [if_neg hin]
      by_cases heq : c' = c
      · subst heq
        rw [if_pos rfl, if_neg (fun ho => hin ⟨hc, ho⟩)]
      · rw [if_neg heq, if_neg hin]
  · funext l o
    simp only [view, Vol.setData]
    split
    · next hl =>
      have : l < fs.dataStartLba := by
        have := g.dataStart
        have := g.covers
        have : fs.sectorsPerFat ≤ fs.numFats * fs.sectorsPerFat :=
          Nat.le_mul_of_pos_left _ g.fatsPos
        omega
      exact below l o this
    · rfl

end Fat32

end CanBoot
