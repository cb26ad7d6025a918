import CanBoot.Hal.Disk

/-!
# A FAT32 volume: mounting, the allocation table, clusters

The bottom of `fs/fat32.c`: `canboot_fat32_open` reads the geometry out of the boot sector, and
the four accessors below it move one allocation-table entry or one cluster. Arithmetic is the
source's: `uint32_t` expressions wrap, and the 64-bit block addresses cannot.
-/

namespace CanBoot

open Lib

/-- `struct canboot_fat32`. -/
structure Fat32 where
  disk : Disk
  bytesPerSector : Nat
  sectorsPerCluster : Nat
  bytesPerCluster : Nat
  reservedSectors : Nat
  numFats : Nat
  sectorsPerFat : Nat
  rootCluster : Nat
  fatStartLba : Nat
  dataStartLba : Nat
  totalClusters : Nat

/-- `EOC`: entries from here on end a chain. -/
def eoc : Nat := 0x0FFFFFF8

/-- `EOC | 0x07`, the mark the engine writes. -/
def eocMark : Nat := 0x0FFFFFFF

/-- The loop test of every chain walk, `cluster >= 2 && cluster < EOC`. -/
def isCluster (c : Nat) : Bool := 2 ≤ c && c < eoc

/-- Disk blocks per sector, never zero. -/
def blocksPerSector (bytesPerSector blockSize : Nat) : Nat :=
  if bytesPerSector / blockSize = 0 then 1 else bytesPerSector / blockSize

/-- `canboot_fat32_open`; its `false` is a failure. -/
def canbootFat32Open (d : Disk) : Prog Media Fat32 := do
  Prog.require (d.blockSize ≤ 4096)
  let b ← d.read 0 1
  let bytesPerSector := le16 b 11
  Prog.require (bytesPerSector ≠ 0)
  Prog.require (le16 b 22 = 0)
  Prog.require (le16 b 17 = 0)
  let sectorsPerCluster := (b 13).toNat
  let reservedSectors := le16 b 14
  let numFats := (b 16).toNat
  let sectorsPerFat := le32 b 36
  let _ ← Prog.divide bytesPerSector d.blockSize
  let spb := blocksPerSector bytesPerSector d.blockSize
  let fatStartLba := reservedSectors * spb
  let total := if le32 b 32 ≠ 0 then le32 b 32 else le16 b 19
  let dataSectors := sub32 total (u32 (reservedSectors + u32 (numFats * sectorsPerFat)))
  let totalClusters ← Prog.divide dataSectors sectorsPerCluster
  pure {
    disk := d
    bytesPerSector := bytesPerSector
    sectorsPerCluster := sectorsPerCluster
    bytesPerCluster := bytesPerSector * sectorsPerCluster
    reservedSectors := reservedSectors
    numFats := numFats
    sectorsPerFat := sectorsPerFat
    rootCluster := le32 b 44
    fatStartLba := fatStartLba
    dataStartLba := fatStartLba + numFats * sectorsPerFat * spb
    totalClusters := totalClusters }

namespace Fat32

/-- Disk blocks per sector of the volume. -/
def spb (fs : Fat32) : Nat := blocksPerSector fs.bytesPerSector fs.disk.blockSize

/-- `cluster_lba`. -/
def clusterLba (fs : Fat32) (cluster : Nat) : Nat :=
  fs.dataStartLba + sub32 cluster 2 * fs.sectorsPerCluster * fs.spb

/-- `read_fat_entry`. -/
def readFatEntry (fs : Fat32) (cluster : Nat) : Prog Media Nat := do
  let fatOffset := u32 (cluster * 4)
  let sect ← fs.disk.read (fs.fatStartLba + fatOffset / fs.bytesPerSector * fs.spb) 1
  pure (le32 sect (fatOffset % fs.bytesPerSector) % 0x10000000)

/-- One round of `write_fat_entry`: the entry in one copy of the table, its top four bits kept. -/
def writeFatCopy (fs : Fat32) (cluster value fat : Nat) : Prog Media Unit := do
  let fatOffset := u32 (cluster * 4)
  let lba := fs.fatStartLba + fat * fs.sectorsPerFat * fs.spb
    + fatOffset / fs.bytesPerSector * fs.spb
  let sect ← fs.disk.read lba 1
  let e := le32 sect (fatOffset % fs.bytesPerSector)
  fs.disk.write lba 1 (putLe32 sect (fatOffset % fs.bytesPerSector)
    (e / 0x10000000 * 0x10000000 + value % 0x10000000))

/-- `write_fat_entry`: every copy of the table in turn. -/
def writeFatEntry (fs : Fat32) (cluster value : Nat) : Prog Media Unit :=
  Prog.forAcc (fun fat _ => fs.writeFatCopy cluster value fat) (List.range fs.numFats) ()

/-- `read_cluster`. -/
def readCluster (fs : Fat32) (cluster : Nat) : Prog Media Buf :=
  fs.disk.read (fs.clusterLba cluster) (fs.sectorsPerCluster * fs.spb)

/-- `write_cluster`. -/
def writeCluster (fs : Fat32) (cluster : Nat) (buf : Buf) : Prog Media Unit :=
  fs.disk.write (fs.clusterLba cluster) (fs.sectorsPerCluster * fs.spb) buf

end Fat32

end CanBoot
