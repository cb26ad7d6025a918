import CanBoot.Laws.Fat32.Mount
import CanBoot.Fs.Fat32.Alloc

/-!
# Mounting a boot sector nobody vouches for

`canboot_fat32_open` checks three fields of the boot sector and computes with the others as they are. `SoundMount` is
what the rest of the driver takes for granted of a handle, down to the blocks its table accesses go to. The handle is
sound, and nothing was divided by zero, exactly when the fields fit each other (`SaneBoot`, `mount_safe_iff`).
-/

namespace CanBoot

open Lib Nat List

/-- The disk, where every request that leaves the blocks from `lo` up to `hi` fails. -/
def Disk.within (d : Disk) (lo hi : Nat) : Disk :=
  { d with
    readFails := fun lba n => d.readFails lba n || !decide (lo ≤ lba ∧ lba + n ≤ hi)
    writeFails := fun lba n => d.writeFails lba n || !decide (lo ≤ lba ∧ lba + n ≤ hi) }

theorem Disk.read_within {d : Disk} {lo hi lba n : Nat} (inside : lo ≤ lba ∧ lba + n ≤ hi) :
    (d.within lo hi).read lba n = d.read lba n := by
  simp only [Disk.read, Disk.within, inside, and_self, decide_true, Bool.not_true, Bool.or_false]
  rfl

theorem Disk.write_within {d : Disk} {lo hi lba n : Nat} (inside : lo ≤ lba ∧ lba + n ≤ hi) (buf : Buf) :
    (d.within lo hi).write lba n buf = d.write lba n buf := by
  simp only [Disk.write, Disk.within, inside, and_self, decide_true, Bool.not_true, Bool.or_false]
  rfl

namespace Fat32

/-- The first block behind the tables. -/
def fatEnd (fs : Fat32) : Nat := fs.fatStartLba + fs.numFats * fs.sectorsPerFat * fs.spb

/-- The handle on a driver that serves the blocks of the tables only. -/
def confined (fs : Fat32) : Fat32 := { fs with disk := fs.disk.within fs.fatStartLba fs.fatEnd }

/-- With whatever driver, `find_free_cluster` and `write_fat_entry` ask for blocks of the tables only: they do not
notice a driver that refuses all others. -/
structure StaysInTables (fs : Fat32) : Prop where
  find : ∀ d : Disk, d.blockSize = fs.disk.blockSize → ∀ fuel m,
    ({ fs with disk := d }.confined.findFreeCluster).run fuel m = ({ fs with disk := d }.findFreeCluster).run fuel m
  write : ∀ d : Disk, d.blockSize = fs.disk.blockSize → ∀ c, c < fs.totalClusters + 2 → ∀ value fuel m,
    ({ fs with disk := d }.confined.writeFatEntry c value).run fuel m =
      ({ fs with disk := d }.writeFatEntry c value).run fuel m

/-- The geometry the driver computes with afterwards; `total` is the boot sector's number of sectors. -/
structure SoundMount (total : Nat) (fs : Fat32) : Prop where
  sectorsPerCluster : fs.sectorsPerCluster ≠ 0
  bytesPerCluster : fs.bytesPerCluster ≠ 0
  numFats : fs.numFats ≠ 0
  noWrap : fs.reservedSectors + fs.numFats * fs.sectorsPerFat ≤ total ∧
    fs.totalClusters = (total - (fs.reservedSectors + fs.numFats * fs.sectorsPerFat)) / fs.sectorsPerCluster
  covers : ∀ c, c < fs.totalClusters + 2 → c * 4 + 4 ≤ fs.sectorsPerFat * fs.bytesPerSector
  stays : fs.StaysInTables

/-! ## Where the table accesses go -/

variable {fs : Fat32} {c : Nat}

theorem spb_pos (fs : Fat32) : 0 < fs.spb := by
  unfold spb blocksPerSector
  split
  · exact Nat.one_pos
  · next large => exact Nat.pos_of_ne_zero large

/-- The sector of an entry that lies in the table, by its blocks in any copy. -/
theorem entry_inside (covers : c * 4 + 4 ≤ fs.sectorsPerFat * fs.bytesPerSector) {k : Nat} (copy : k < fs.numFats) :
    k * fs.sectorsPerFat * fs.spb + u32 (c * 4) / fs.bytesPerSector * fs.spb + 1 ≤
      fs.numFats * fs.sectorsPerFat * fs.spb := by
  have offset : u32 (c * 4) ≤ c * 4 := mod_le _ _
  have before : u32 (c * 4) < fs.bytesPerSector * fs.sectorsPerFat := by
    rw [Nat.mul_comm fs.bytesPerSector]
    omega
  have sector : u32 (c * 4) / fs.bytesPerSector < fs.sectorsPerFat := Nat.div_lt_of_lt_mul before
  have pos := fs.spb_pos
  calc k * fs.sectorsPerFat * fs.spb + u32 (c * 4) / fs.bytesPerSector * fs.spb + 1
      ≤ k * fs.sectorsPerFat * fs.spb + (u32 (c * 4) / fs.bytesPerSector + 1) * fs.spb := by
        rw [succ_mul]
        omega
    _ ≤ k * fs.sectorsPerFat * fs.spb + fs.sectorsPerFat * fs.spb :=
        Nat.add_le_add_left (Nat.mul_le_mul_right _ sector) _
    _ = (k + 1) * fs.sectorsPerFat * fs.spb := by rw [succ_mul, Nat.add_mul]
    _ ≤ fs.numFats * fs.sectorsPerFat * fs.spb := Nat.mul_le_mul_right _ (Nat.mul_le_mul_right _ copy)

theorem readFatEntry_confined (fats : fs.numFats ≠ 0) (covers : c * 4 + 4 ≤ fs.sectorsPerFat * fs.bytesPerSector) :
    fs.confined.readFatEntry c = fs.readFatEntry c := by
  have inside := entry_inside covers (Nat.pos_of_ne_zero fats)
  rw [readFatEntry, readFatEntry]
  show (fs.disk.within _ _).read (fs.fatStartLba + u32 (c * 4) / fs.bytesPerSector * fs.spb) 1 >>= _ = _
  rw [Disk.read_within (by unfold fatEnd; omega)]
  rfl

theorem writeFatCopy_confined (covers : c * 4 + 4 ≤ fs.sectorsPerFat * fs.bytesPerSector) {k : Nat}
    (copy : k < fs.numFats) (value : Nat) : fs.confined.writeFatCopy c value k = fs.writeFatCopy c value k := by
  have inside := entry_inside covers copy
  have place : fs.fatStartLba ≤ fs.fatStartLba + k * fs.sectorsPerFat * fs.spb +
        u32 (c * 4) / fs.bytesPerSector * fs.spb ∧
      fs.fatStartLba + k * fs.sectorsPerFat * fs.spb + u32 (c * 4) / fs.bytesPerSector * fs.spb + 1 ≤ fs.fatEnd := by
    unfold fatEnd
    omega
  rw [writeFatCopy, writeFatCopy]
  show (fs.disk.within _ _).read (fs.fatStartLba + k * fs.sectorsPerFat * fs.spb +
    u32 (c * 4) / fs.bytesPerSector * fs.spb) 1 >>= (fun sect => (fs.disk.within _ _).write _ 1 _) = _
  rw [Disk.read_within place]
  congr 1
  funext sect
  exact Disk.write_within place _

theorem findFreeFrom_confined (fats : fs.numFats ≠ 0) : ∀ {cs : List Nat},
    (∀ c ∈ cs, c * 4 + 4 ≤ fs.sectorsPerFat * fs.bytesPerSector) → fs.confined.findFreeFrom cs = fs.findFreeFrom cs
  | [], _ => rfl
  | c :: cs, covers => by
    rw [findFreeFrom, findFreeFrom, readFatEntry_confined fats (covers c mem_cons_self),
      findFreeFrom_confined fats fun c' mem => covers c' (mem_cons_of_mem _ mem)]

theorem writeFatEntry_confined (covers : c * 4 + 4 ≤ fs.sectorsPerFat * fs.bytesPerSector) (value : Nat) :
    fs.confined.writeFatEntry c value = fs.writeFatEntry c value :=
  Prog.forAcc_congr () fun _ copy _ => writeFatCopy_confined covers (mem_range.mp copy) value

theorem lt_of_mem_candidates {x : Nat} (mem : x ∈ fs.candidates) : x < fs.totalClusters + 2 := by
  have range := (mem_range'_1.mp mem).2
  have cut : u32 (2 + fs.totalClusters) ≤ 2 + fs.totalClusters := mod_le _ _
  omega

/-- **A table with an entry for every cluster is all that is touched.** -/
theorem staysInTables (fats : fs.numFats ≠ 0)
    (covers : ∀ c, c < fs.totalClusters + 2 → c * 4 + 4 ≤ fs.sectorsPerFat * fs.bytesPerSector) : fs.StaysInTables where
  find d _ fuel m := congrArg (fun x => x.run fuel m)
    (@findFreeFrom_confined { fs with disk := d } fats _ fun c mem => covers c (lt_of_mem_candidates mem))
  write d _ c below value fuel m := congrArg (fun x => x.run fuel m)
    (@writeFatEntry_confined { fs with disk := d } c (covers c below) value)

end Fat32

/-! ## The boot sectors that mount safely -/

/-- `total_sectors_32`, or `total_sectors_16` where it is zero. -/
def bootTotal (b : Buf) : Nat := if le32 b 32 ≠ 0 then le32 b 32 else le16 b 19

/-- The sectors before the data. -/
def bootHead (b : Buf) : Nat := le16 b 14 + (b 16).toNat * le32 b 36

/-- The fields fit each other: there are tables, they end inside the volume, and they have an entry for every
cluster. -/
structure SaneBoot (b : Buf) : Prop where
  sectorsPerCluster : (b 13).toNat ≠ 0
  numFats : (b 16).toNat ≠ 0
  inside : bootHead b ≤ bootTotal b
  covers : ((bootTotal b - bootHead b) / (b 13).toNat + 2) * 4 ≤ le32 b 36 * le16 b 11

/-- The mount divides by no zero, and a handle it fills in is sound. -/
def MountSafe (total : Nat) : Outcome Media Fat32 → Prop
  | .ok fs _ => fs.SoundMount total
  | .err _ => True
  | .spin => False
  | .trap => False

theorem bootTotal_lt (b : Buf) : bootTotal b < 4294967296 := by
  have := le32_lt b 32
  have := le16_lt b 19
  unfold bootTotal
  split <;> omega

theorem openHandle_totalClusters {d : Disk} {b : Buf} (inside : bootHead b ≤ bootTotal b) :
    (openHandle d b).totalClusters = (bootTotal b - bootHead b) / (b 13).toNat := by
  have word := bootTotal_lt b
  have tables : u32 ((b 16).toNat * le32 b 36) = (b 16).toNat * le32 b 36 :=
    u32_of_lt (by unfold bootHead at inside; omega)
  show sub32 (bootTotal b) (u32 (le16 b 14 + u32 ((b 16).toNat * le32 b 36))) / _ = _
  rw [tables, ← bootHead, u32_of_lt (Nat.lt_of_le_of_lt inside word), sub32_of_le word inside]

/-- The handle of a sane boot sector is sound, and no other is. -/
theorem soundMount_openHandle_iff {d : Disk} {b : Buf} (sector : le16 b 11 ≠ 0) (spc : (b 13).toNat ≠ 0) :
    (openHandle d b).SoundMount (bootTotal b) ↔ SaneBoot b := by
  constructor
  · intro sound
    have inside : bootHead b ≤ bootTotal b := sound.noWrap.1
    refine ⟨spc, sound.numFats, inside, ?_⟩
    have last := sound.covers ((openHandle d b).totalClusters + 1) (lt_succ_self _)
    rw [openHandle_totalClusters inside] at last
    have last : ((bootTotal b - bootHead b) / (b 13).toNat + 1) * 4 + 4 ≤ le32 b 36 * le16 b 11 := last
    omega
  · intro sane
    have clusters := openHandle_totalClusters (d := d) sane.inside
    have covers : ∀ c, c < (openHandle d b).totalClusters + 2 → c * 4 + 4 ≤ le32 b 36 * le16 b 11 := by
      intro c below
      rw [clusters] at below
      have := sane.covers
      omega
    exact {
      sectorsPerCluster := spc
      bytesPerCluster := Nat.mul_ne_zero sector spc
      numFats := sane.numFats
      noWrap := ⟨sane.inside, clusters⟩
      covers := covers
      stays := Fat32.staysInTables sane.numFats covers }

/-- **Mounting is safe exactly for the boot sectors whose fields fit each other.** For every disk with blocks of 512 to
4096 bytes and every content of block 0: the mount divides by no zero and leaves a sound geometry, if and only if the
block cannot be read, one of the three checks refuses it, or it is sane. -/
theorem mount_safe_iff {d : Disk} (low : 512 ≤ d.blockSize) (high : d.blockSize ≤ 4096) (fuel : Nat) (m : Media) :
    MountSafe (bootTotal (m 0)) ((canbootFat32Open d).run fuel m) ↔
      d.readFails 0 1 = true ∨ bootRefused (m 0) = true ∨ SaneBoot (m 0) := by
  rw [run_open_eq low high]
  by_cases reads : d.readFails 0 1 = true
  · rw [if_pos reads]
    exact ⟨fun _ => .inl reads, fun _ => trivial⟩
  rw [if_neg reads]
  by_cases refused : bootRefused (m 0) = true
  · rw [if_pos refused]
    exact ⟨fun _ => .inr (.inl refused), fun _ => trivial⟩
  rw [if_neg refused]
  by_cases spc : (m 0 13).toNat = 0
  · rw [if_pos spc]
    refine ⟨False.elim, fun h => ?_⟩
    rcases h with fails | refuses | sane
    · exact reads fails
    · exact refused refuses
    · exact sane.sectorsPerCluster spc
  · rw [if_neg spc]
    have sector : le16 (m 0) 11 ≠ 0 := fun zero => refused (by simp [bootRefused, zero])
    show (openHandle d (m 0)).SoundMount (bootTotal (m 0)) ↔ _
    rw [soundMount_openHandle_iff sector spc]
    refine ⟨fun sane => .inr (.inr sane), fun h => ?_⟩
    rcases h with fails | refuses | sane
    · exact absurd fails reads
    · exact absurd refuses refused
    · exact sane

/-- A disk of ten blocks that serves every request. -/
def stick : Disk := ⟨512, 10, true, fun _ _ => false, fun _ _ => false, fun _ => 0⟩

/-- Ten sectors, one table of one sector, and the sectors of a cluster as given. -/
def stickBoot (spc : UInt8) : Media := fun l o =>
  if l = 0 then ([(12, 2), (13, spc), (14, 1), (16, 1), (19, 10), (36, 1)].lookup o).getD 0 else 0

/-- A volume of eight clusters mounts safely. -/
theorem mount_safe_stick : MountSafe 10 ((canbootFat32Open stick).run 0 (stickBoot 1)) :=
  (mount_safe_iff (by decide) (by decide) 0 (stickBoot 1)).2
    (.inr (.inr ⟨by decide, by decide, by decide, by decide⟩))

/-- With no sectors per cluster the mount divides by zero. -/
theorem mount_divides_by_zero : (canbootFat32Open stick).run 0 (stickBoot 0) = .trap := by
  rw [run_open_eq (by decide) (by decide), if_neg (by decide), if_neg (by decide), if_pos (by decide)]

end CanBoot
