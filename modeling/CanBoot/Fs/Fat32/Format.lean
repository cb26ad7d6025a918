import CanBoot.Fs.Fat32.Volume
import CanBoot.Fs.Fat32.Names

/-!
# mkfs

`canboot_fat32_format` picks a cluster size from the volume's size, iterates the table size to a
fixed point, and lays down the boot sector, the FSInfo sector, the two tables and an empty root
cluster. Sizes are 64-bit, table sizes and the final cluster count 32-bit, with the source's
casts between them.
-/

namespace CanBoot

open Lib

/-- `pick_spc`; 0 rejects the size. -/
def pickSpc (sizeLba : Nat) : Nat :=
  if sizeLba < 16384 then 0
  else if sizeLba < 532480 then 1
  else if sizeLba < 16777216 then 8
  else if sizeLba < 33554432 then 16
  else if sizeLba < 67108864 then 32
  else 64

/-- `size_lba - reserved - num_fats * fat_sectors`, with 32 reserved sectors and two tables. -/
def formatAvail (sizeLba fatSectors : Nat) : Nat := sub64 (sub64 sizeLba 32) (u32 (2 * fatSectors))

/-- The table-size iteration, `n` rounds of it. -/
def formatFatSectors (sizeLba spc : Nat) : Nat → Nat → Nat
  | 0, fatSectors => fatSectors
  | n + 1, fatSectors =>
    let clusters := formatAvail sizeLba fatSectors / spc
    let need := u32 (u64 (clusters + 128 - 1) / 128)
    if need ≤ fatSectors then fatSectors else formatFatSectors sizeLba spc n need

/-- The table size `canboot_fat32_format` settles on. -/
def formatFatSize (sizeLba : Nat) : Nat := formatFatSectors sizeLba (pickSpc sizeLba) 32 32

/-- The cluster count `canboot_fat32_format` computes. -/
def formatClusters (sizeLba : Nat) : Nat :=
  u32 (formatAvail sizeLba (formatFatSize sizeLba) / pickSpc sizeLba)

/-- `label_pad`: eleven bytes, upper-cased and padded with blanks. -/
def labelPad : Option (List UInt8) → List UInt8
  | some label => ((label.take 11).map upper ++ List.replicate 11 blank).take 11
  | none => [67, 65, 78, 66, 79, 79, 84, 32, 32, 32, 32]

/-- The boot sector. -/
def bootSector (startLba sizeLba spc fatSectors : Nat) (label : Option (List UInt8)) : Buf :=
  let s : Buf := putBytes (fun _ => 0) 0 [0xEB, 0x58, 0x90]
  let s := putBytes s 3 [77, 83, 87, 73, 78, 52, 46, 49]
  let s := putLe16 s 11 512
  let s := putByte s 13 (UInt8.ofNat spc)
  let s := putLe16 s 14 32
  let s := putByte s 16 2
  let s := putLe16 s 17 0
  let s := putLe16 s 19 0
  let s := putByte s 21 0xF8
  let s := putLe16 s 22 0
  let s := putLe16 s 24 63
  let s := putLe16 s 26 255
  let s := putLe32 s 28 startLba
  let s := putLe32 s 32 (if sizeLba > 0xFFFFFFFF then 0 else sizeLba)
  let s := putLe32 s 36 fatSectors
  let s := putLe16 s 40 0
  let s := putLe16 s 42 0
  let s := putLe32 s 44 2
  let s := putLe16 s 48 1
  let s := putLe16 s 50 6
  let s := putByte s 64 0x80
  let s := putByte s 66 0x29
  let s := putLe32 s 67 0xCA17B007
  let s := putBytes s 71 (labelPad label)
  let s := putBytes s 82 [70, 65, 84, 51, 50, 32, 32, 32]
  let s := putByte s 510 0x55
  putByte s 511 0xAA

/-- The FSInfo sector. -/
def fsInfoSector (clusters : Nat) : Buf :=
  let s : Buf := putLe32 (fun _ => 0) 0 0x41615252
  let s := putLe32 s 484 0x61417272
  let s := putLe32 s 488 (sub32 clusters 1)
  let s := putLe32 s 492 3
  let s := putByte s 510 0x55
  putByte s 511 0xAA

/-- The first sector of a table: two reserved entries and the root cluster's end of chain. -/
def fatHeadSector : Buf :=
  putLe32 (putLe32 (putLe32 (fun _ => 0) 0 0x0FFFFFF8) 4 0x0FFFFFFF) 8 0x0FFFFFF8

/-- One sector written at a 64-bit block address. -/
def writeSector (d : Disk) (lba : Nat) (sect : Buf) : Prog Media Unit := d.write (u64 lba) 1 sect

/-- `canboot_fat32_format`. -/
def canbootFat32Format (d : Disk) (startLba sizeLba : Nat) (label : Option (List UInt8)) : Prog Media Unit := do
  Prog.require d.writable
  Prog.require (d.blockSize = 512)
  let spc := pickSpc sizeLba
  Prog.require (spc ≠ 0)
  let fatSectors := formatFatSize sizeLba
  let clusters := formatClusters sizeLba
  Prog.require (65525 ≤ clusters)
  let boot := bootSector startLba sizeLba spc fatSectors label
  writeSector d startLba boot
  writeSector d (startLba + 6) boot
  writeSector d (startLba + 1) (fsInfoSector clusters)
  writeSector d (startLba + 7) (fsInfoSector clusters)
  let fat0 := startLba + 32
  writeSector d fat0 fatHeadSector
  writeSector d (fat0 + fatSectors) fatHeadSector
  Prog.forAcc (fun off _ => do
    writeSector d (fat0 + off) (fun _ => 0)
    writeSector d (fat0 + fatSectors + off) (fun _ => 0)) (List.range' 1 (fatSectors - 1)) ()
  let rootLba := startLba + 32 + u32 (2 * fatSectors)
  Prog.forAcc (fun s _ => writeSector d (rootLba + s) (fun _ => 0)) (List.range spc) ()

end CanBoot
