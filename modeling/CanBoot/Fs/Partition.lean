import CanBoot.Hal.Disk

/-!
# Partition tables

`fs/partition.c`: the MBR in block 0 and the GPT behind it, read, listed and edited in place. A
header and a table are the byte buffers the source casts to packed structs, and a field is a load at
the field's offset. Every GPT edit ends in `write_gpt_pair`, which computes both checksums and writes
the primary copy and its mirror.

The source reads whole blocks into buffers of one sector, and copies as many bytes of a header as the
header itself says. Where that leaves the buffer or the struct the behaviour is undefined.
-/

namespace CanBoot

open Lib

/-! ## The checksum -/

/-- One bit of the CRC's table: a shift, and the polynomial where a one falls out. -/
def crcShift (c : UInt32) : UInt32 :=
  if (c &&& 1) = 1 then (0xEDB88320 : UInt32) ^^^ (c >>> 1) else c >>> 1

/-- `table[i]` of `crc32_buf`. -/
def crcTable (i : UInt32) : UInt32 := (List.replicate 8 ()).foldl (fun c _ => crcShift c) i

/-- One byte into the CRC. -/
def crcStep (c : UInt32) (p : UInt8) : UInt32 := crcTable ((c ^^^ p.toUInt32) &&& 0xFF) ^^^ (c >>> 8)

/-- `crc32_buf`. -/
def crc32Buf (b : Buf) (n : Nat) : Nat :=
  ((bytesAt b 0 n).foldl crcStep 0xFFFFFFFF ^^^ 0xFFFFFFFF).toNat

/-- The statics of `crc32_buf`: its table, and whether it was built. -/
structure CrcStatics where
  table : Nat → UInt32
  built : Bool

def CrcStatics.boot : CrcStatics := ⟨fun _ => 0, false⟩

/-- The first lines of `crc32_buf`: the table is built once. -/
def CrcStatics.build (s : CrcStatics) : CrcStatics :=
  if s.built then s
  else ⟨(List.range 256).foldl (fun t i j => if j = i then crcTable (UInt32.ofNat i) else t j) s.table, true⟩

/-- `crc32_buf` from its static table, and the statics it leaves. -/
def crc32BufFrom (s : CrcStatics) (b : Buf) (n : Nat) : UInt32 × CrcStatics :=
  let step (c : UInt32) (p : UInt8) := s.build.table ((c ^^^ p.toUInt32) &&& 0xFF).toNat ^^^ (c >>> 8)
  ((bytesAt b 0 n).foldl step 0xFFFFFFFF ^^^ 0xFFFFFFFF, s.build)

/-- The statics after a sequence of calls. -/
def CrcStatics.after (calls : List (Buf × Nat)) : CrcStatics :=
  calls.foldl (fun s call => (crc32BufFrom s call.1 call.2).2) .boot

/-! ## The structs -/

/-- `GPT_SIG`: `"EFI PART"`, low byte first. -/
def gptSig : Nat := 0x5452415020494645

/-- `GPT_TBL_BYTES`. -/
def gptTblBytes : Nat := 16384

namespace GptHeader

def signature (h : Buf) : Nat := le64 h 0

def headerSize (h : Buf) : Nat := le32 h 12

def headerCrc32 (h : Buf) : Nat := le32 h 16

def currentLba (h : Buf) : Nat := le64 h 24

def backupLba (h : Buf) : Nat := le64 h 32

def firstUsable (h : Buf) : Nat := le64 h 40

def lastUsable (h : Buf) : Nat := le64 h 48

def tableLba (h : Buf) : Nat := le64 h 72

def entryCount (h : Buf) : Nat := le32 h 80

def entrySize (h : Buf) : Nat := le32 h 84

def tableCrc32 (h : Buf) : Nat := le32 h 88

/-- The offset of an entry in the table: `i * h.entry_size`. -/
def entryAt (h : Buf) (i : Nat) : Nat := u32 (i * entrySize h)

end GptHeader

namespace GptEntry

/-- All sixteen bytes of the type GUID are zero. -/
def isEmpty (tbl : Buf) (off : Nat) : Bool := (bytesAt tbl off 16).all (· = 0)

def startLba (tbl : Buf) (off : Nat) : Nat := le64 tbl (off + 32)

def endLba (tbl : Buf) (off : Nat) : Nat := le64 tbl (off + 40)

/-- `utf16le_to_ascii` of the 36 units of the name. -/
def name (tbl : Buf) (off : Nat) : List UInt8 :=
  (((List.range 36).map fun k => le16 tbl (off + 56 + 2 * k)).takeWhile (· ≠ 0)).map
    fun c => if c < 0x80 then UInt8.ofNat c else 63

end GptEntry

namespace MbrEntry

/-- The offset of an entry in block 0. -/
def entryAt (i : Nat) : Nat := 446 + i * 16

def type (b : Buf) (i : Nat) : UInt8 := b (entryAt i + 4)

def lbaStart (b : Buf) (i : Nat) : Nat := le32 b (entryAt i + 8)

def lbaCount (b : Buf) (i : Nat) : Nat := le32 b (entryAt i + 12)

end MbrEntry

/-- `CANBOOT_PART_SCHEME_*`. -/
inductive PartScheme where
  | none
  | mbr
  | gpt
  deriving DecidableEq

/-- `struct canboot_partition`. -/
structure Partition where
  startLba : Nat
  endLba : Nat
  sizeLba : Nat
  typeMbr : UInt8
  typeGpt : List UInt8
  name : List UInt8
  bootableMbr : Bool
  scheme : PartScheme
  deriving DecidableEq

/-- `CANBOOT_GPT_TYPE_BASIC_DATA`. -/
def gptTypeBasicData : List UInt8 :=
  [0xA2, 0xA0, 0xD0, 0xEB, 0xE5, 0xB9, 0x33, 0x44, 0x87, 0xC0, 0x68, 0xB6, 0xB7, 0x26, 0x99, 0xC7]

/-! ## Reading -/

/-- `read_lba` of one block into a buffer of 512 bytes. -/
def readSector (d : Disk) (lba : Nat) : Prog Media Buf := do
  Prog.defined (d.blockSize ≤ 512)
  d.read lba 1

/-- `write_lba`. -/
def writeLba (d : Disk) (lba : Nat) (buf : Buf) (n : Nat) : Prog Media Unit := do
  Prog.require d.writable
  d.write lba n buf

/-- The struct of 92 bytes a header is copied out to. -/
def headerStruct (h : Buf) : Buf := fun i => if i < 92 then h i else 0

/-- `read_gpt_header`. -/
def readGptHeader (d : Disk) : Prog Media Buf := do
  Prog.require (d.blockSize ≤ 512)
  let h ← d.read 1 1
  Prog.require (GptHeader.signature h = gptSig)
  Prog.require (92 ≤ GptHeader.headerSize h && GptHeader.headerSize h ≤ d.blockSize)
  Prog.require (crc32Buf (putLe32 h 16 0) (GptHeader.headerSize h) = GptHeader.headerCrc32 h)
  pure (headerStruct h)

/-- `read_gpt_table` into a buffer of `GPT_TBL_BYTES`. -/
def readGptTable (d : Disk) (h : Buf) : Prog Media Buf := do
  let bytes := min (u32 (GptHeader.entryCount h * GptHeader.entrySize h)) gptTblBytes
  let n ← Prog.divide (bytes + d.blockSize - 1) d.blockSize
  Prog.defined (n * d.blockSize ≤ gptTblBytes)
  d.read (GptHeader.tableLba h) n

/-- `canboot_part_detect`. -/
def canbootPartDetect (d : Disk) : Prog Media PartScheme := do
  match ← Prog.attempt (readGptHeader d) with
  | some _ => pure .gpt
  | none =>
    match ← Prog.attempt (readSector d 0) with
    | none => pure .none
    | some b =>
      if le16 b 510 ≠ 0xAA55 then pure .none
      else if (List.range 4).all fun i => MbrEntry.type b i = 0 then pure .none
      else pure .mbr

/-- One entry of `list_mbr`. -/
def mbrPartition (b : Buf) (i : Nat) : Option Partition :=
  if MbrEntry.type b i = 0 ∨ MbrEntry.lbaCount b i = 0 then none
  else some {
    startLba := MbrEntry.lbaStart b i
    endLba := MbrEntry.lbaStart b i + MbrEntry.lbaCount b i - 1
    sizeLba := MbrEntry.lbaCount b i
    typeMbr := MbrEntry.type b i
    typeGpt := List.replicate 16 0
    name := []
    bootableMbr := b (MbrEntry.entryAt i) = 0x80
    scheme := .mbr }

/-- `list_mbr`. -/
def listMbr (d : Disk) (max : Nat) : Prog Media (List Partition) := do
  let b ← readSector d 0
  pure (((List.range 4).filterMap (mbrPartition b)).take max)

/-- One entry of `list_gpt`. -/
def gptPartition (tbl : Buf) (off : Nat) : Option Partition :=
  if GptEntry.isEmpty tbl off then none
  else some {
    startLba := GptEntry.startLba tbl off
    endLba := GptEntry.endLba tbl off
    sizeLba := u64 (sub64 (GptEntry.endLba tbl off) (GptEntry.startLba tbl off) + 1)
    typeMbr := 0
    typeGpt := bytesAt tbl off 16
    name := GptEntry.name tbl off
    bootableMbr := false
    scheme := .gpt }

/-- `list_gpt`. -/
def listGpt (d : Disk) (max : Nat) : Prog Media (List Partition) := do
  let h ← readGptHeader d
  let tbl ← readGptTable d h
  pure (((List.range (GptHeader.entryCount h)).filterMap
    fun i => gptPartition tbl (GptHeader.entryAt h i)).take max)

/-- `canboot_part_list`: the partitions written to `out`. -/
def canbootPartList (d : Disk) (max : Nat) : Prog Media (List Partition) := do
  match ← canbootPartDetect d with
  | .gpt => listGpt d max
  | .mbr => listMbr d max
  | .none => pure []

/-! ## Writing -/

/-- An all-zero sector with the MBR signature. -/
def mbrSector : Buf := putByte (putByte (fun _ => 0) 510 0x55) 511 0xAA

/-- `canboot_part_init_mbr`. -/
def canbootPartInitMbr (d : Disk) : Prog Media Unit := do
  Prog.require d.writable
  writeLba d 0 mbrSector 1

/-- `(GPT_TBL_BYTES + d->block_size - 1) / d->block_size`. -/
def tableSectors (d : Disk) : Prog Media Nat :=
  Prog.divide (gptTblBytes + d.blockSize - 1) d.blockSize

/-- A header with its own checksum filled in. -/
def sealHeader (h : Buf) : Buf :=
  let h := putLe32 h 16 0
  putLe32 h 16 (crc32Buf h (GptHeader.headerSize h))

/-- The sector a header is written in. -/
def headerSector (h : Buf) : Buf := fun i => if i < GptHeader.headerSize h then h i else 0

/-- The header of the mirror: the two block addresses exchanged, and the table before it. -/
def backupHeader (h : Buf) (sectors : Nat) : Buf :=
  let b := putLe64 h 24 (GptHeader.backupLba h)
  let b := putLe64 b 32 (GptHeader.currentLba h)
  putLe64 b 72 (sub64 (GptHeader.backupLba h) sectors)

/-- `write_gpt_pair`. -/
def writeGptPair (d : Disk) (h tbl : Buf) (sectors : Nat) : Prog Media Unit := do
  let bytes := u32 (GptHeader.entryCount h * GptHeader.entrySize h)
  let primary := sealHeader (putLe32 h 88 (crc32Buf tbl bytes))
  Prog.defined (GptHeader.headerSize h ≤ 92)
  writeLba d (GptHeader.tableLba primary) tbl sectors
  writeLba d (GptHeader.currentLba primary) (headerSector primary) 1
  let backup := sealHeader (backupHeader primary sectors)
  writeLba d (GptHeader.tableLba backup) tbl sectors
  writeLba d (GptHeader.currentLba backup) (headerSector backup) 1

/-- The protective MBR. -/
def protectiveMbr (total : Nat) : Buf :=
  let b := putByte mbrSector (MbrEntry.entryAt 0 + 4) 0xEE
  let b := putLe32 b (MbrEntry.entryAt 0 + 8) 1
  putLe32 b (MbrEntry.entryAt 0 + 12)
    (if sub64 total 1 > 0xFFFFFFFF then 0xFFFFFFFF else sub64 total 1)

/-- The header `canboot_part_init_gpt` fills in, without its checksums. -/
def freshHeader (total sectors : Nat) : Buf :=
  let h := putLe64 (fun _ => 0) 0 gptSig
  let h := putLe32 h 8 0x00010000
  let h := putLe32 h 12 92
  let h := putLe64 h 24 1
  let h := putLe64 h 32 (sub64 total 1)
  let h := putLe64 h 40 (2 + sectors)
  let h := putLe64 h 48 (sub64 (sub64 (sub64 total 1) sectors) 1)
  let h := putLe64 h 56 0x63616e626f6f742d
  let h := putLe64 h 64 total
  let h := putLe64 h 72 2
  let h := putLe32 h 80 128
  putLe32 h 84 128

/-- `canboot_part_init_gpt`. -/
def canbootPartInitGpt (d : Disk) : Prog Media Unit := do
  Prog.require d.writable
  Prog.require (d.blockSize = 512)
  Prog.require (64 ≤ d.blockCount)
  writeLba d 0 (protectiveMbr d.blockCount) 1
  let sectors ← tableSectors d
  writeGptPair d (freshHeader d.blockCount sectors) (fun _ => 0) sectors

/-- The entry `canboot_part_create` fills in. -/
def gptNewEntry (tbl : Buf) (off i startLba endLba : Nat) (name : Option (List UInt8)) : Buf :=
  let t := putBytes tbl off gptTypeBasicData
  let t := putLe64 t (off + 16) (0x706172742d312300 ||| i)
  let t := putLe64 t (off + 24) startLba
  let t := putLe64 t (off + 32) startLba
  let t := putLe64 t (off + 40) endLba
  let t := putLe64 t (off + 48) 0
  let t := putBytes t (off + 56) (List.replicate 72 0)
  match name with
  | some s => putBytes t (off + 56) (((s.takeWhile (· ≠ 0)).take 35).flatMap fun c => [c, 0])
  | none => t

/-- The entry `canboot_part_create` fills in on an MBR disk, with the signature. -/
def mbrNewEntry (b : Buf) (i : Nat) (type : UInt8) (startLba endLba : Nat) : Buf :=
  let b := putByte b (MbrEntry.entryAt i) 0
  let b := putByte b (MbrEntry.entryAt i + 4) (if type ≠ 0 then type else 0x83)
  let b := putLe32 b (MbrEntry.entryAt i + 8) startLba
  let b := putLe32 b (MbrEntry.entryAt i + 12) (endLba - startLba + 1)
  putByte (putByte b 510 0x55) 511 0xAA

/-- The MBR half of `canboot_part_create`. -/
def createMbr (d : Disk) (startLba endLba : Nat) (type : UInt8) : Prog Media Nat := do
  let b ← readSector d 0
  match (List.range 4).find? fun i => MbrEntry.type b i = 0 with
  | none => Prog.fail
  | some i => do
    writeLba d 0 (mbrNewEntry b i type startLba endLba) 1
    pure i

/-- The GPT half of `canboot_part_create`. -/
def createGpt (d : Disk) (startLba endLba : Nat) (name : Option (List UInt8)) : Prog Media Nat := do
  let h ← readGptHeader d
  let sectors ← tableSectors d
  let tbl ← readGptTable d h
  match (List.range (GptHeader.entryCount h)).find?
      fun i => GptEntry.isEmpty tbl (GptHeader.entryAt h i) with
  | none => Prog.fail
  | some i => do
    writeGptPair d h (gptNewEntry tbl (GptHeader.entryAt h i) i startLba endLba name) sectors
    pure i

/-- `canboot_part_create`. -/
def canbootPartCreate (d : Disk) (startLba endLba : Nat) (type : UInt8)
    (name : Option (List UInt8)) : Prog Media Nat := do
  Prog.require d.writable
  Prog.require (startLba ≤ endLba)
  match ← canbootPartDetect d with
  | .none => do
    canbootPartInitGpt d
    createGpt d startLba endLba name
  | .mbr => createMbr d startLba endLba type
  | .gpt => createGpt d startLba endLba name

/-- `canboot_part_delete`. -/
def canbootPartDelete (d : Disk) (idx : Nat) : Prog Media Unit := do
  Prog.require d.writable
  match ← canbootPartDetect d with
  | .mbr => do
    Prog.require (idx < 4)
    let b ← readSector d 0
    writeLba d 0 (putBytes b (MbrEntry.entryAt idx) (List.replicate 16 0)) 1
  | .gpt => do
    let h ← readGptHeader d
    Prog.require (idx < GptHeader.entryCount h)
    let sectors ← tableSectors d
    let tbl ← readGptTable d h
    writeGptPair d h (putBytes tbl (GptHeader.entryAt h idx) (List.replicate 128 0)) sectors
  | .none => Prog.fail

/-- `canboot_part_resize`. -/
def canbootPartResize (d : Disk) (idx newEndLba : Nat) : Prog Media Unit := do
  Prog.require d.writable
  match ← canbootPartDetect d with
  | .mbr => do
    Prog.require (idx < 4)
    let b ← readSector d 0
    Prog.require (MbrEntry.type b idx ≠ 0)
    Prog.require (MbrEntry.lbaStart b idx ≤ newEndLba)
    let newCount := u64 (newEndLba - MbrEntry.lbaStart b idx + 1)
    Prog.require (newCount ≤ 0xFFFFFFFF)
    writeLba d 0 (putLe32 b (MbrEntry.entryAt idx + 12) newCount) 1
  | .gpt => do
    let h ← readGptHeader d
    Prog.require (idx < GptHeader.entryCount h)
    let sectors ← tableSectors d
    let tbl ← readGptTable d h
    let off := GptHeader.entryAt h idx
    Prog.require (!GptEntry.isEmpty tbl off)
    Prog.require (GptEntry.startLba tbl off ≤ newEndLba)
    writeGptPair d h (putLe64 tbl (off + 40) newEndLba) sectors
  | .none => Prog.fail

end CanBoot
