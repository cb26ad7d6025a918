import CanBoot.Fs.Fat32.Volume

/-!
# Mounting

`canboot_fat32_open` reads one block, and the handle it makes is a function of the bytes in it
(`openHandle`). It looks at nothing else, so a volume that was mounted once mounts to the same
handle for as long as its boot block stands.
-/

namespace CanBoot

open Lib Lib.Prog

variable {d : Disk} {m m' : Media} {fuel : Nat} {b b' : Buf}

/-- The handle `canboot_fat32_open` fills in from a boot sector. -/
def openHandle (d : Disk) (b : Buf) : Fat32 where
  disk := d
  bytesPerSector := le16 b 11
  sectorsPerCluster := (b 13).toNat
  bytesPerCluster := le16 b 11 * (b 13).toNat
  reservedSectors := le16 b 14
  numFats := (b 16).toNat
  sectorsPerFat := le32 b 36
  rootCluster := le32 b 44
  fatStartLba := le16 b 14 * blocksPerSector (le16 b 11) d.blockSize
  dataStartLba := le16 b 14 * blocksPerSector (le16 b 11) d.blockSize +
    (b 16).toNat * le32 b 36 * blocksPerSector (le16 b 11) d.blockSize
  totalClusters := sub32 (if le32 b 32 ≠ 0 then le32 b 32 else le16 b 19)
    (u32 (le16 b 14 + u32 ((b 16).toNat * le32 b 36))) / (b 13).toNat

/-- The tests a boot sector has to pass, and the division that must not be by zero. -/
structure Mountable (b : Buf) : Prop where
  bytesPerSector : le16 b 11 ≠ 0
  fatSz16 : le16 b 22 = 0
  rootEntries : le16 b 17 = 0
  spc : (b 13).toNat ≠ 0

section

variable (h : ∀ o, o < 512 → b o = b' o)

include h

theorem le16_eq_of_lt (off : Nat) (lt : off + 1 < 512) :
    le16 b off = le16 b' off := le16_congr (h _ (by omega)) (h _ lt)

theorem le32_eq_of_lt (off : Nat) (lt : off + 3 < 512) :
    le32 b off = le32 b' off := le32_congr fun _ _ _ => h _ (by omega)

theorem openHandle_congr : openHandle d b = openHandle d b' := by
  simp only [openHandle, le16_eq_of_lt h 11 (by decide), le16_eq_of_lt h 14 (by decide), le16_eq_of_lt h 19 (by decide),
    le32_eq_of_lt h 32 (by decide), le32_eq_of_lt h 36 (by decide),
    le32_eq_of_lt h 44 (by decide), h 13 (by decide), h 16 (by decide)]

theorem Mountable.congr (ok : Mountable b) : Mountable b' where
  bytesPerSector := le16_eq_of_lt h 11 (by decide) ▸ ok.bytesPerSector
  fatSz16 := le16_eq_of_lt h 22 (by decide) ▸ ok.fatSz16
  rootEntries := le16_eq_of_lt h 17 (by decide) ▸ ok.rootEntries
  spc := h 13 (by decide) ▸ ok.spc

end

/-- The boot sector is refused before anything is divided by its fields. -/
def bootRefused (b : Buf) : Bool := le16 b 11 = 0 || le16 b 22 ≠ 0 || le16 b 17 ≠ 0

theorem bootRefused_congr (h : ∀ o, o < 512 → b o = b' o) : bootRefused b = bootRefused b' := by
  simp only [bootRefused, le16_eq_of_lt h 11 (by decide), le16_eq_of_lt h 22 (by decide),
    le16_eq_of_lt h 17 (by decide)]

/-- The mount behind the read of the boot sector. -/
theorem open_after_read (pos : d.blockSize ≠ 0) (high : d.blockSize ≤ 4096) (read : (d.read 0 1).run fuel m = .ok b m) :
    (canbootFat32Open d).run fuel m =
      if bootRefused b = true then .err m else if (b 13).toNat = 0 then .trap else .ok (openHandle d b) m := by
  rw [canbootFat32Open, bind_require_true (decide_eq_true high), run_bind_ok read]
  by_cases sector : le16 b 11 = 0
  · have refused : bootRefused b = true := by simp [bootRefused, sector]
    rw [if_pos refused, bind_require_false (by simp [sector])]
  rw [bind_require_true (decide_eq_true sector)]
  by_cases old : le16 b 22 = 0
  swap
  · have refused : bootRefused b = true := by simp [bootRefused, old]
    rw [if_pos refused, bind_require_false (by simp [old])]
  rw [bind_require_true (decide_eq_true old)]
  by_cases root : le16 b 17 = 0
  swap
  · have refused : bootRefused b = true := by simp [bootRefused, root]
    rw [if_pos refused, bind_require_false (by simp [root])]
  have accepted : ¬ bootRefused b = true := by simp [bootRefused, sector, old, root]
  rw [bind_require_true (decide_eq_true root), if_neg accepted, run_bind_ok (run_divide_pos pos fuel m)]
  by_cases spc : (b 13).toNat = 0
  · have traps : ∀ n, (Prog.divide n (b 13).toNat : Prog Media Nat).run fuel m = .trap := fun n => by
      rw [run_divide, if_pos spc]
    rw [if_pos spc, run_bind, traps]
  · rw [if_neg spc, run_bind_ok (run_divide_pos spc fuel m), run_pure]
    rfl

/-- **What `canboot_fat32_open` does with each boot sector.** -/
theorem run_open_eq (low : 512 ≤ d.blockSize) (high : d.blockSize ≤ 4096) (fuel : Nat) (m : Media) :
    (canbootFat32Open d).run fuel m = if d.readFails 0 1 = true then .err m
      else if bootRefused (m 0) = true then .err m
      else if (m 0 13).toNat = 0 then .trap
      else .ok (openHandle d (m 0)) m := by
  by_cases fails : d.readFails 0 1 = true
  · have read : (d.read 0 1).run fuel m = .err m := by simp only [Disk.read, fails, if_true]
    rw [if_pos fails, canbootFat32Open, bind_require_true (decide_eq_true high), run_bind_err read]
  · have same : ∀ o, o < 512 →
        (if o < 1 * d.blockSize then m (0 + o / d.blockSize) (o % d.blockSize) else d.leftover o) = m 0 o := by
      intro o small
      rw [if_pos (by omega), Nat.mod_eq_of_lt (by omega), Nat.div_eq_of_lt (by omega)]
    have read : (d.read 0 1).run fuel m = .ok (fun o => if o < 1 * d.blockSize then
        m (0 + o / d.blockSize) (o % d.blockSize) else d.leftover o) m := by
      simp only [Disk.read, fails, Bool.false_eq_true, if_false]
    rw [if_neg fails, open_after_read (by omega) high read, bootRefused_congr same, openHandle_congr same,
      same 13 (by decide)]

/-- **A disk whose first block is a boot sector mounts.** -/
theorem run_open (block : d.blockSize = 512) (reads : d.readFails 0 1 = false) (boot : ∀ o, o < 512 → m 0 o = b o)
    (ok : Mountable b) : (canbootFat32Open d).run fuel m = .ok (openHandle d b) m := by
  have ok := ok.congr fun o small => (boot o small).symm
  have accepted : bootRefused (m 0) = false := by
    simp [bootRefused, ok.bytesPerSector, ok.fatSz16, ok.rootEntries]
  rw [run_open_eq (by omega) (by omega), reads, accepted, if_neg (by decide), if_neg (by decide), if_neg ok.spc,
    openHandle_congr boot]

end CanBoot
