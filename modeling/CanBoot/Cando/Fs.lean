import CanBoot.Fs.Partition
import CanBoot.Fs.Fat32.Format

/-!
# The fs module of the script language

`cando_port/lib/fs.c`: a filesystem is named by a disk and a number in the list of the disk's partitions. `get_part`
falls back to the whole disk for number 0. The disk is one that `hal_disk_get` has found.
-/

namespace CanBoot.Cando

open Lib

/-- `LIST_CAP`. -/
def listCap : Nat := 32

/-- The partition `get_part` makes up of a whole disk. -/
def wholeDisk (d : Disk) : Partition where
  startLba := 0
  endLba := sub64 d.blockCount 1
  sizeLba := d.blockCount
  typeMbr := 0
  typeGpt := List.replicate 16 0
  name := []
  bootableMbr := false
  scheme := .none

/-- `get_part`; a disk that could not be read has no partitions to number. -/
def getPart (d : Disk) (idx : Int) : Prog Media Partition := do
  let ps ← canbootPartList d listCap
  if 0 < ps.length ∧ 0 ≤ idx ∧ idx < ps.length then
    match ps[idx.toNat]? with
    | some p => pure p
    | none => Prog.fail
  else if ps.length = 0 ∧ idx = 0 ∧ 0 < d.blockCount then pure (wholeDisk d)
  else Prog.fail

/-- `fs.mkfs(disk, part, "fat32", label)`. -/
def fMkfs (d : Disk) (idx : Int) (label : Option (List UInt8)) : Prog Media Bool := do
  match ← Prog.attempt (getPart d idx) with
  | none => pure false
  | some p =>
    match ← Prog.attempt (canbootFat32Format d p.startLba p.sizeLba label) with
    | none => pure false
    | some _ => pure true

end CanBoot.Cando
