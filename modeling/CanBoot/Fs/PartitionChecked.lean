import CanBoot.Fs.Partition

/-!
# Partition tables, with every access checked

The GPT half of `fs/partition.c` once more, with the bounds of each access of a buffer: the table of 16384 bytes, a
sector of 512 and the header struct of 92. Where an access leaves its buffer the program traps. The loops are the
source's own, since what they look at depends on what they have seen: a GUID is read up to its first byte that is not
zero, and a name up to its first zero.
-/

namespace CanBoot.Checked

open Lib

/-- An access of `n` bytes at an offset of the table buffer. -/
def inTable (off n : Nat) : Prog Media Unit := Prog.defined (off + n ≤ gptTblBytes)

/-- An access of the first `n` bytes of a header struct. -/
def inHeader (n : Nat) : Prog Media Unit := Prog.defined (n ≤ 92)

/-- An access of the first `n` bytes of a sector buffer. -/
def inSector (n : Nat) : Prog Media Unit := Prog.defined (n ≤ 512)

/-- The bytes of a type GUID that the test for an empty entry looks at. -/
def guidReads (tbl : Buf) (off : Nat) : Nat := min 16 (((bytesAt tbl off 16).takeWhile (· = 0)).length + 1)

/-- The bytes of a name that `utf16le_to_ascii` looks at. -/
def nameReads (tbl : Buf) (off : Nat) : Nat :=
  2 * min 36 ((((List.range 36).map fun k => le16 tbl (off + 56 + 2 * k)).takeWhile (· ≠ 0)).length + 1)

/-- The test for an empty entry. -/
def isEmpty (tbl : Buf) (off : Nat) : Prog Media Bool := do
  inTable off (guidReads tbl off)
  pure (GptEntry.isEmpty tbl off)

/-- `read_gpt_header`. -/
def readGptHeader (d : Disk) : Prog Media Buf := do
  Prog.require (d.blockSize ≤ 512)
  inSector d.blockSize
  let h ← d.read 1 1
  Prog.require (GptHeader.signature h = gptSig)
  Prog.require (92 ≤ GptHeader.headerSize h && GptHeader.headerSize h ≤ d.blockSize)
  inSector (GptHeader.headerSize h)
  Prog.require (crc32Buf (putLe32 h 16 0) (GptHeader.headerSize h) = GptHeader.headerCrc32 h)
  inSector 92
  pure (headerStruct h)

/-- `canboot_part_detect`. -/
def canbootPartDetect (d : Disk) : Prog Media PartScheme := do
  match ← Prog.attempt (readGptHeader d) with
  | some _ => pure .gpt
  | none =>
    match ← Prog.attempt (readSector d 0) with
    | none => pure .none
    | some b =>
      if le16 b 510 ≠ 0xAA55 then pure .none
      else if (List.range 4).all fun i => MbrEntry.type b i = 0 then pure .none
      else pure .mbr

/-- The loop of `list_gpt`, with what has been written to `out`. -/
def listEntries (tbl h : Buf) (max : Nat) : List Nat → List Partition → Prog Media (List Partition)
  | [], out => pure out
  | i :: is, out =>
    if out.length < max then do
      let off := GptHeader.entryAt h i
      if ← isEmpty tbl off then listEntries tbl h max is out
      else do
        inTable (off + 32) 8
        inTable (off + 40) 8
        inTable off 16
        inTable (off + 56) (nameReads tbl off)
        listEntries tbl h max is (out ++ (gptPartition tbl off).toList)
    else pure out

/-- `list_gpt`. -/
def listGpt (d : Disk) (max : Nat) : Prog Media (List Partition) := do
  let h ← readGptHeader d
  let tbl ← readGptTable d h
  listEntries tbl h max (List.range (GptHeader.entryCount h)) []

/-- `canboot_part_list`. -/
def canbootPartList (d : Disk) (max : Nat) : Prog Media (List Partition) := do
  match ← canbootPartDetect d with
  | .gpt => listGpt d max
  | .mbr => listMbr d max
  | .none => pure []

/-- A header written to its block: out of the struct into a sector, and the sector to the disk. -/
def writeHeader (d : Disk) (h : Buf) : Prog Media Unit := do
  inHeader (GptHeader.headerSize h)
  inSector (GptHeader.headerSize h)
  inSector d.blockSize
  writeLba d (GptHeader.currentLba h) (headerSector h) 1

/-- A table written to the disk. -/
def writeTable (d : Disk) (h tbl : Buf) (sectors : Nat) : Prog Media Unit := do
  inTable 0 (sectors * d.blockSize)
  writeLba d (GptHeader.tableLba h) tbl sectors

/-- `write_gpt_pair`. -/
def writeGptPair (d : Disk) (h tbl : Buf) (sectors : Nat) : Prog Media Unit := do
  let bytes := u32 (GptHeader.entryCount h * GptHeader.entrySize h)
  inTable 0 bytes
  inHeader (GptHeader.headerSize h)
  let primary := sealHeader (putLe32 h 88 (crc32Buf tbl bytes))
  writeTable d primary tbl sectors
  writeHeader d primary
  inHeader (GptHeader.headerSize h)
  let backup := sealHeader (backupHeader primary sectors)
  writeTable d backup tbl sectors
  writeHeader d backup

/-- The search of `canboot_part_create` for an empty entry. -/
def findEmpty (tbl h : Buf) : List Nat → Prog Media (Option Nat)
  | [] => pure none
  | i :: is => do
    if ← isEmpty tbl (GptHeader.entryAt h i) then pure (some i)
    else findEmpty tbl h is

/-- The GPT half of `canboot_part_create`: the new entry is written over all its 128 bytes. -/
def createGpt (d : Disk) (startLba endLba : Nat) (name : Option (List UInt8)) : Prog Media Nat := do
  let h ← readGptHeader d
  let sectors ← tableSectors d
  let tbl ← readGptTable d h
  match ← findEmpty tbl h (List.range (GptHeader.entryCount h)) with
  | none => Prog.fail
  | some i => do
    inTable (GptHeader.entryAt h i) 128
    writeGptPair d h (gptNewEntry tbl (GptHeader.entryAt h i) i startLba endLba name) sectors
    pure i

/-- `canboot_part_create`. -/
def canbootPartCreate (d : Disk) (startLba endLba : Nat) (type : UInt8)
    (name : Option (List UInt8)) : Prog Media Nat := do
  Prog.require d.writable
  Prog.require (startLba ≤ endLba)
  match ← canbootPartDetect d with
  | .none => do
    canbootPartInitGpt d
    createGpt d startLba endLba name
  | .mbr => createMbr d startLba endLba type
  | .gpt => createGpt d startLba endLba name

/-- `canboot_part_delete`. -/
def canbootPartDelete (d : Disk) (idx : Nat) : Prog Media Unit := do
  Prog.require d.writable
  match ← canbootPartDetect d with
  | .mbr => do
    Prog.require (idx < 4)
    let b ← readSector d 0
    writeLba d 0 (putBytes b (MbrEntry.entryAt idx) (List.replicate 16 0)) 1
  | .gpt => do
    let h ← readGptHeader d
    Prog.require (idx < GptHeader.entryCount h)
    let sectors ← tableSectors d
    let tbl ← readGptTable d h
    inTable (GptHeader.entryAt h idx) 128
    writeGptPair d h (putBytes tbl (GptHeader.entryAt h idx) (List.replicate 128 0)) sectors
  | .none => Prog.fail

/-- `canboot_part_resize`. -/
def canbootPartResize (d : Disk) (idx newEndLba : Nat) : Prog Media Unit := do
  Prog.require d.writable
  match ← canbootPartDetect d with
  | .mbr => do
    Prog.require (idx < 4)
    let b ← readSector d 0
    Prog.require (MbrEntry.type b idx ≠ 0)
    Prog.require (MbrEntry.lbaStart b idx ≤ newEndLba)
    let newCount := u64 (newEndLba - MbrEntry.lbaStart b idx + 1)
    Prog.require (newCount ≤ 0xFFFFFFFF)
    writeLba d 0 (putLe32 b (MbrEntry.entryAt idx + 12) newCount) 1
  | .gpt => do
    let h ← readGptHeader d
    Prog.require (idx < GptHeader.entryCount h)
    let sectors ← tableSectors d
    let tbl ← readGptTable d h
    let off := GptHeader.entryAt h idx
    let empty ← isEmpty tbl off
    Prog.require !empty
    inTable (off + 32) 8
    Prog.require (GptEntry.startLba tbl off ≤ newEndLba)
    inTable (off + 40) 8
    writeGptPair d h (putLe64 tbl (off + 40) newEndLba) sectors
  | .none => Prog.fail

end CanBoot.Checked
