import CanBoot.Laws.Fat32.Format

/-!
# The geometry mkfs chooses

`canboot_fat32_format` sizes its tables by an iteration from a guess of 32 sectors and leaves out the two reserved
entries. For every volume below 2^32 sectors the first correction is final, and the sectors the tables take from the
clusters leave room for the two entries. All else follows from that (`format_geometry_sound`).
-/

namespace CanBoot

open Lib List Lib.Prog

variable {d : Disk} {size : Nat}

/-- The areas of a formatted volume, each by its first sector and its length: reserved sectors, two tables, data. -/
def formatAreas (size : Nat) : List (Nat × Nat) :=
  [(0, 32), (32, formatFatSize size), (32 + formatFatSize size, formatFatSize size),
    (32 + 2 * formatFatSize size, formatClusters size * pickSpc size)]

/-- The disk, where every write that leaves the first `bound` blocks fails. -/
def Disk.refusing (d : Disk) (bound : Nat) : Disk :=
  { d with writeFails := fun lba n => d.writeFails lba n || !decide (lba + n ≤ bound) }

/-- A round of the iteration that changes nothing is the last one. -/
theorem formatFatSectors_stable {spc fat : Nat}
    (stable : u32 (u64 (formatAvail size fat / spc + 128 - 1) / 128) ≤ fat) :
    ∀ n, formatFatSectors size spc n fat = fat
  | 0 => rfl
  | n + 1 => by rw [formatFatSectors, if_pos stable]

/-- The areas follow one another and end inside the volume. -/
theorem formatAreas_apart (fits : FormatFits size) :
    (formatAreas size).Pairwise (fun a b => a.1 + a.2 ≤ b.1) ∧ ∀ a ∈ formatAreas size, a.1 + a.2 ≤ size := by
  have inside := fits.inside
  constructor
  · simp only [formatAreas, pairwise_cons, forall_mem_cons, not_mem_nil, false_implies, implies_true,
      List.Pairwise.nil, and_true]
    omega
  · simp only [formatAreas, forall_mem_cons, not_mem_nil, false_implies, implies_true, and_true]
    omega

/-! ## Where mkfs writes -/

theorem writeSector_refusing {bound lba : Nat} (inside : lba < bound) (word : lba < 18446744073709551616) (s : Buf) :
    writeSector (d.refusing bound) lba s = writeSector d lba s := by
  have below : u64 lba + 1 ≤ bound := by
    rw [u64, Nat.mod_eq_of_lt word]
    exact inside
  simp only [writeSector, Disk.write, Disk.refusing, below, decide_true, Bool.not_true, Bool.or_false]
  rfl

/-- **mkfs does not notice a disk that refuses every write behind the root cluster.** -/
theorem format_refusing (word : size < 4294967296) (fits : FormatFits size) (spcPos : 0 < pickSpc size)
    (label : Option (List UInt8)) : canbootFat32Format (d.refusing (32 + 2 * formatFatSize size + pickSpc size)) 0 size label =
      canbootFat32Format d 0 size label := by
  have inside := fits.inside
  have spcLe := pickSpc_le size
  have fatPos := formatFatSize_ge size
  have whole : u32 (2 * formatFatSize size) = 2 * formatFatSize size := u32_of_lt (by omega)
  have same : ∀ {lba : Nat} (s : Buf), lba < 32 + 2 * formatFatSize size + pickSpc size →
      writeSector (d.refusing (32 + 2 * formatFatSize size + pickSpc size)) lba s = writeSector d lba s :=
    fun s below => writeSector_refusing below (by omega) s
  have tables : ∀ b, forAcc (fun off _ => do
        writeSector (d.refusing (32 + 2 * formatFatSize size + pickSpc size)) (32 + off) (fun _ => 0)
        writeSector (d.refusing (32 + 2 * formatFatSize size + pickSpc size)) (32 + formatFatSize size + off)
          (fun _ => 0)) (range' 1 (formatFatSize size - 1)) b =
      forAcc (fun off _ => do
        writeSector d (32 + off) (fun _ => 0)
        writeSector d (32 + formatFatSize size + off) (fun _ => 0)) (range' 1 (formatFatSize size - 1)) b :=
    fun b => forAcc_congr b fun off mem _ => by
      have := mem_range'_1.1 mem
      rw [same _ (by omega), same _ (by omega)]
  have root : ∀ b, forAcc (fun s _ =>
        writeSector (d.refusing (32 + 2 * formatFatSize size + pickSpc size)) (32 + u32 (2 * formatFatSize size) + s)
          (fun _ => 0)) (range (pickSpc size)) b =
      forAcc (fun s _ => writeSector d (32 + u32 (2 * formatFatSize size) + s) (fun _ => 0))
        (range (pickSpc size)) b :=
    fun b => forAcc_congr b fun s mem _ => by
      have := mem_range.1 mem
      rw [same _ (by omega)]
  simp only [canbootFat32Format, Nat.zero_add]
  rw [same _ (by omega), same _ (by omega), same _ (by omega), same _ (by omega), same _ (by omega),
    same _ (by omega), tables, root]
  rfl

/-- **The geometry mkfs chooses is sound**, for every size below 2^32 sectors that it has a cluster size for, whether or
not it then finds enough clusters: the sizing has settled, a table holds an entry for every cluster, the areas are
disjoint and inside the volume, no write leaves the sectors up to the end of the root cluster, and
`canboot_fat32_open` of the result computes the same addresses and the same number of clusters. -/
theorem format_geometry_sound (word : size < 4294967296) (spc : pickSpc size ≠ 0) :
    (∀ n, formatFatSectors size (pickSpc size) n (formatFatSize size) = formatFatSize size) ∧
    (formatClusters size + 2) * 4 ≤ formatFatSize size * 512 ∧
    ((formatAreas size).Pairwise (fun a b => a.1 + a.2 ≤ b.1) ∧ ∀ a ∈ formatAreas size, a.1 + a.2 ≤ size) ∧
    (∀ (d : Disk) label fuel m,
      (canbootFat32Format (d.refusing (32 + 2 * formatFatSize size + pickSpc size)) 0 size label).run fuel m =
        (canbootFat32Format d 0 size label).run fuel m) ∧ ∀ (d : Disk) label fuel fuel' m m', d.readFails 0 1 = false →
      (canbootFat32Format d 0 size label).run fuel m = .ok () m' →
      ∃ fs, (canbootFat32Open d).run fuel' m' = .ok fs m' ∧ fs.fatStartLba = 32 ∧
        fs.dataStartLba = 32 + 2 * formatFatSize size ∧ fs.totalClusters = formatClusters size := by
  have fits := formatFits word (size_of_pickSpc spc)
  refine ⟨formatFatSectors_stable fits.stable, ?_, formatAreas_apart fits, fun d label fuel m => ?_,
    fun d label fuel fuel' m m' reads formats => ?_⟩
  · have := fits.covers
    omega
  · rw [format_refusing word fits (Nat.pos_of_ne_zero spc)]
  · obtain ⟨-, block, -, -, rfl⟩ := format_ok formats
    exact ⟨formatHandle d size, run_open_formatted reads block spc, rfl, rfl, fits.total d⟩

/-- The geometry of a volume of 66,600 sectors. -/
theorem format_geometry_sound_small : (∀ n, formatFatSectors 66600 1 n 520 = 520) ∧ formatClusters 66600 = 65528 ∧
    formatAreas 66600 = [(0, 32), (32, 520), (552, 520), (1072, 65528)] ∧
    ∃ fs, (canbootFat32Open mkfsDisk).run 1 (formatted 66600 none fun _ _ => 0) =
      .ok fs (formatted 66600 none fun _ _ => 0) ∧ fs.totalClusters = 65528 := by
  have sound := @format_geometry_sound 66600 (by decide) (by decide)
  have fat : formatFatSize 66600 = 520 := by decide +kernel
  have clusters : formatClusters 66600 = 65528 := by decide +kernel
  obtain ⟨fs, opens, -, -, total⟩ := sound.2.2.2.2 mkfsDisk none 70000 1 _ _ rfl mkfsDisk_formats
  refine ⟨fun n => fat ▸ sound.1 n, clusters, ?_, fs, opens, total.trans clusters⟩
  rw [formatAreas, fat, clusters]
  rfl

end CanBoot
