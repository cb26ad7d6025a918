import CanBoot.Laws.Partition.Header

/-!
# Reading and writing a GPT

The medium after `write_gpt_pair`, block by block, and what the readers find on it. A read looks at
block 0, at block 1 and at the table behind it; what each reader answers is stated for every medium
first (`validHeader`, `schemeOf`), and then for one that carries a canonical header (`OnGpt`).

On a disk of fewer than 67 blocks the mirror of the table runs into the table itself, and what a
reader finds is not what was written: `mirrored` says what it is.
-/

namespace CanBoot

open Lib Lib.Prog Nat GptHeader List MbrEntry

/-! ## Blocks -/

/-- The medium with `k` blocks from `lba` on replaced. -/
def setBlocks (lba k : Nat) (buf : Buf) (m : Media) : Media := fun l o =>
  if lba ≤ l ∧ l < lba + k ∧ o < 512 then buf ((l - lba) * 512 + o) else m l o

variable {lba k : Nat}

theorem setBlocks_out {l : Nat} (buf : Buf) (m : Media) (out : l < lba ∨ lba + k ≤ l) :
    setBlocks lba k buf m l = m l := by
  funext o
  exact if_neg (by omega)

variable {o : Nat}

theorem setBlocks_in {l : Nat} (buf : Buf) (m : Media) (low : lba ≤ l) (high : l < lba + k)
    (ho : o < 512) : setBlocks lba k buf m l o = buf ((l - lba) * 512 + o) := if_pos ⟨low, high, ho⟩

/-- One block, read back. -/
theorem setBlocks_one (buf : Buf) (m : Media) (ho : o < 512) : setBlocks lba 1 buf m lba o = buf o := by
  rw [setBlocks_in _ _ (by omega) (by omega) ho, Nat.sub_self, Nat.zero_mul, Nat.zero_add]

/-- The 16384 bytes of the table behind the header. -/
def tableAt (m : Media) (lba : Nat) : Buf := fun i => m (lba + i / 512) (i % 512)

section Io

variable {d : Disk} (block : d.blockSize = 512) (fuel : Nat) (m : Media)

include block

theorem run_writeLba (works : d.Works) (inside : lba + k ≤ d.blockCount) (buf : Buf) :
    (writeLba d lba buf k).run fuel m = .ok () (setBlocks lba k buf m) := by
  rw [writeLba, bind_require_true works.writable, Disk.run_write works.serves inside, block]
  rfl

theorem run_readBlocks (served : d.readFails lba k = false) :
    ∃ b, (d.read lba k).run fuel m = .ok b m ∧ ∀ i, i < k * 512 → b i = tableAt m lba i := by
  refine ⟨_, by rw [Disk.read, served]; rfl, ?_⟩
  intro i hi
  simp only [block, hi, if_true, tableAt]

theorem run_readSector (served : d.readFails lba 1 = false) :
    ∃ b, (readSector d lba).run fuel m = .ok b m ∧ ∀ i, i < 512 → b i = m lba i := by
  obtain ⟨b, run, bytes⟩ := run_readBlocks block fuel m served
  refine ⟨b, ?_, ?_⟩
  · rw [readSector, bind_defined_true (by simp [block]), run]
  · intro i hi
    rw [bytes i (by omega), tableAt, div_eq_of_lt hi, mod_eq_of_lt hi, Nat.add_zero]

end Io

/-! ## Detection -/

/-- The tests of `read_gpt_header` on a block of 512 bytes. -/
def validHeader (h : Buf) : Bool :=
  GptHeader.signature h = gptSig && (92 ≤ GptHeader.headerSize h && GptHeader.headerSize h ≤ 512) &&
    crc32Buf (putLe32 h 16 0) (GptHeader.headerSize h) = GptHeader.headerCrc32 h

variable {h : Buf}

/-- A block tests as its first 512 bytes do. -/
theorem validHeader_congr {h' : Buf} (same : ∀ i, i < 512 → h i = h' i) : validHeader h = validHeader h' := by
  have size : headerSize h = headerSize h' :=
    le32_congr fun i _ _ => same i (by omega)
  have sum : headerSize h' ≤ 512 → crc32Buf (putLe32 h 16 0) (headerSize h') =
        crc32Buf (putLe32 h' 16 0) (headerSize h') := by
    intro small
    apply crc32Buf_congr
    intro i hi
    exact putLe32_congr fun _ => same i (by omega)
  rw [validHeader, validHeader, size,
    show signature h = signature h' from le64_congr fun i _ _ => same i (by omega),
    show headerCrc32 h = headerCrc32 h' from
      le32_congr fun i _ _ => same i (by omega)]
  by_cases small : headerSize h' ≤ 512
  · rw [sum small]
  · simp [small]

/-- Does `read_gpt_header` find a header? -/
def hasHeader (d : Disk) (m : Media) : Bool := !d.readFails 1 1 && validHeader (m 1)

/-- What `canboot_part_detect` answers on a disk of 512-byte blocks. -/
def schemeOf (d : Disk) (m : Media) : PartScheme :=
  if hasHeader d m then .gpt
  else if le16 (m 0) 510 ≠ 0xAA55 then .none
  else if (List.range 4).all fun i => MbrEntry.type (m 0) i = 0 then .none
  else .mbr

section Detect

variable {d : Disk} (block : d.blockSize = 512) (fuel : Nat) (m : Media)

include block

theorem run_readGptHeader : (readGptHeader d).run fuel m =
      if hasHeader d m then .ok (headerStruct (m 1)) m else .err m := by
  rw [readGptHeader, bind_require_true (by simp [block])]
  cases served : d.readFails 1 1 with
  | true =>
    rw [run_bind_err (by rw [Disk.read, served]; rfl), if_neg (by simp [hasHeader, served])]
  | false =>
    obtain ⟨b, run, bytes⟩ := run_readBlocks block fuel m served
    have same : ∀ i, i < 512 → b i = m 1 i := by
      intro i hi
      rw [bytes i (by omega), tableAt, div_eq_of_lt hi, mod_eq_of_lt hi]
    have valid : hasHeader d m = validHeader b := by
      rw [hasHeader, served, validHeader_congr same]
      rfl
    have struct : headerStruct b = headerStruct (m 1) := by
      funext i
      rw [headerStruct, headerStruct]
      split
      · exact same i (by omega)
      · rfl
    rw [run_bind_ok run, valid]
    simp only [run_bind, run_require, run_pure, validHeader, block, struct]
    by_cases sig : signature b = gptSig <;>
      by_cases size : 92 ≤ headerSize b ∧ headerSize b ≤ 512 <;>
      by_cases sum : crc32Buf (putLe32 b 16 0) (headerSize b) = headerCrc32 b <;>
      simp [sig, size, sum]

theorem run_canbootPartDetect (served : d.readFails 0 1 = false) :
    (canbootPartDetect d).run fuel m = .ok (schemeOf d m) m := by
  have header := run_readGptHeader block fuel m
  rw [canbootPartDetect, schemeOf]
  cases found : hasHeader d m with
  | true =>
    rw [found, if_pos rfl] at header
    rw [run_bind_ok (run_attempt_ok header), if_pos rfl]
    rfl
  | false =>
    rw [found, if_neg (by decide)] at header
    obtain ⟨b, run, bytes⟩ := run_readSector block fuel m served
    have sig : le16 b 510 = le16 (m 0) 510 := le16_congr (bytes _ (by omega)) (bytes _ (by omega))
    have types : ∀ i ∈ range 4, (decide (type b i = 0)) = decide (type (m 0) i = 0) := by
      intro i hi
      have small := mem_range.mp hi
      rw [type, type, bytes _ (by unfold MbrEntry.entryAt; omega)]
    rw [run_bind_ok (run_attempt_err header), if_neg (by decide : ¬ (false = true)), ← sig]
    simp only
    rw [run_bind_ok (run_attempt_ok run)]
    have alls : ((range 4).all fun i => decide (type b i = 0)) =
        (range 4).all fun i => decide (type (m 0) i = 0) := by
      rw [Bool.eq_iff_iff, all_eq_true, all_eq_true]
      exact forall₂_congr fun i hi => by rw [types i hi]
    rw [← alls]
    simp only
    split
    · rfl
    · split
      · rfl
      · rfl

end Detect

/-! ## The pair -/

/-- The medium `write_gpt_pair` leaves: the table, its header, and their mirror. -/
def pairMedia (n : Nat) (tbl : Buf) (m : Media) : Media :=
  setBlocks (n - 1) 1 (headerSector (gptBackup n (crc32Buf tbl 16384)))
    (setBlocks (n - 33) 32 tbl
      (setBlocks 1 1 (headerSector (gptPrimary n (crc32Buf tbl 16384))) (setBlocks 2 32 tbl m)))

variable {i : Nat}

/-- The mirror's header holds what the primary's does, but for the addresses and the checksum. -/
theorem gptBackup_of_out (n c : Nat) (crc : i < 16 ∨ 20 ≤ i) (lbas : i < 24 ∨ 40 ≤ i)
    (table : i < 72 ∨ 80 ≤ i) : gptBackup n c i = gptPrimary n c i := by
  rw [gptBackup, sealHeader_of_out _ crc, backupHeader, putLe64_of_out _ _ table,
    putLe64_of_out _ _ (by omega), putLe64_of_out _ _ (by omega)]

variable {n : Nat}

theorem currentLba_gptBackup (c : Nat) (size : n < 18446744073709551616) (large : 64 ≤ n) :
    currentLba (gptBackup n c) = n - 1 := by
  rw [currentLba, gptBackup, le64_sealHeader _ (by omega), backupHeader,
    le64_putLe64_of_ne _ _ (by omega), le64_putLe64_of_ne _ _ (by omega), le64_putLe64,
    (canonical_gptPrimary n c).backupLba size large]
  omega

theorem backupLba_gptBackup (n c : Nat) : backupLba (gptBackup n c) = 1 := by
  rw [backupLba, gptBackup, le64_sealHeader _ (by omega), backupHeader,
    le64_putLe64_of_ne _ _ (by omega), le64_putLe64, (canonical_gptPrimary n c).currentLba]

theorem tableLba_gptBackup (c : Nat) (size : n < 18446744073709551616) (large : 64 ≤ n) :
    tableLba (gptBackup n c) = n - 33 := by
  rw [tableLba, gptBackup, le64_sealHeader _ (by omega), backupHeader, le64_putLe64,
    (canonical_gptPrimary n c).backupLba size large, sub64_of_le (by omega) (by omega)]
  omega

theorem headerSector_of_lt (size : headerSize h = 92) (hi : i < 92) : headerSector h i = h i := by
  rw [headerSector, size, if_pos hi]

/-- A block that starts with a sealed header checks. -/
theorem crc_of_sealed {b : Buf} (size : headerSize (sealHeader h) = 92)
    (bytes : ∀ i, i < 92 → b i = sealHeader h i) : crc32Buf (putLe32 b 16 0) 92 = headerCrc32 b := by
  have sum : headerCrc32 b = headerCrc32 (sealHeader h) :=
    le32_congr fun i _ _ => bytes i (by omega)
  rw [sum, ← crc_sealHeader, size]
  exact crc32Buf_congr fun i hi => putLe32_congr fun _ => bytes i hi

section Pair

variable {d : Disk} (works : d.Works) (block : d.blockSize = 512) (large : 64 ≤ d.blockCount) (fuel : Nat) (m : Media)

include works block large

/-- **Writing the pair**: both tables, both headers, each sealed over the bytes written. -/
theorem run_writeGptPair (canonical : Canonical d.blockCount h) (tbl : Buf) :
    (writeGptPair d h tbl 32).run fuel m = .ok () (pairMedia d.blockCount tbl m) := by
  have size := works.size
  have primary := canonical.seal (crc32Buf tbl 16384)
  have fields := canonical_gptPrimary d.blockCount (crc32Buf tbl 16384)
  simp only [writeGptPair, canonical.entryCount, canonical.entrySize,
    u32_of_lt (show 128 * 128 < 4294967296 by decide), primary]
  rw [bind_defined_true (by simp [canonical.headerSize]), fields.tableLba, fields.currentLba]
  rw [run_bind_ok (run_writeLba block fuel _ works (by omega) _),
    run_bind_ok (run_writeLba block fuel _ works (by omega) _)]
  rw [← gptBackup, tableLba_gptBackup _ size large, currentLba_gptBackup _ size large,
    run_bind_ok (run_writeLba block fuel _ works (by omega) _),
    run_writeLba block fuel _ works (by omega)]
  rfl

end Pair

/-- Only the first 16384 bytes of the table are written. -/
theorem pairMedia_congr {tbl tbl' : Buf} (n : Nat) (m : Media) (same : ∀ i, i < 16384 → tbl i = tbl' i) :
    pairMedia n tbl m = pairMedia n tbl' m := by
  have blocks : ∀ lba (m : Media), setBlocks lba 32 tbl m = setBlocks lba 32 tbl' m := by
    intro lba m
    funext l o
    by_cases hit : lba ≤ l ∧ l < lba + 32 ∧ o < 512
    · rw [setBlocks, setBlocks, if_pos hit, if_pos hit, same _ (by omega)]
    · rw [setBlocks, setBlocks, if_neg hit, if_neg hit]
  rw [pairMedia, pairMedia, crc32Buf_congr same, blocks, blocks]

/-- Block 1 carries a canonical header, sealed. -/
def OnGpt (d : Disk) (m : Media) : Prop :=
  ∃ c, ∀ o, o < 512 → m 1 o = headerSector (gptPrimary d.blockCount c) o

/-- What a reader finds of a table, once its mirror has been written as well. -/
def mirrored (n : Nat) (tbl : Buf) : Buf := fun i =>
  if n - 35 ≤ i / 512 then tbl (i - (n - 35) * 512) else tbl i

theorem mirrored_large (tbl : Buf) (large : 67 ≤ n) (hi : i < 16384) : mirrored n tbl i = tbl i := if_neg (by omega)

section Written

variable {d : Disk} (large : 64 ≤ d.blockCount) (tbl : Buf) (m : Media)

include large

theorem pairMedia_zero : pairMedia d.blockCount tbl m 0 = m 0 := by
  rw [pairMedia, setBlocks_out _ _ (by omega), setBlocks_out _ _ (by omega),
    setBlocks_out _ _ (by omega), setBlocks_out _ _ (by omega)]

theorem pairMedia_one (ho : o < 512) : pairMedia d.blockCount tbl m 1 o =
      headerSector (gptPrimary d.blockCount (crc32Buf tbl 16384)) o := by
  rw [pairMedia, setBlocks_out _ _ (by omega), setBlocks_out _ _ (by omega), setBlocks_one _ _ ho]

theorem onGpt_pairMedia : OnGpt d (pairMedia d.blockCount tbl m) :=
  ⟨_, fun _ ho => pairMedia_one large tbl m ho⟩

theorem pairMedia_table (hi : i < 16384) :
    tableAt (pairMedia d.blockCount tbl m) 2 i = mirrored d.blockCount tbl i := by
  rw [tableAt, pairMedia, setBlocks_out _ _ (by omega), mirrored]
  split
  · rw [setBlocks_in _ _ (by omega) (by omega) (by omega)]
    congr 1
    omega
  · rw [setBlocks_out _ _ (by omega), setBlocks_out _ _ (by omega), setBlocks_in _ _ (by omega) (by omega) (by omega)]
    congr 1
    omega

end Written

/-! ## Reading it back -/

section OnGpt

variable {d : Disk} {m : Media} (onGpt : OnGpt d m)

include onGpt

theorem OnGpt.bytes : ∃ c, ∀ i, i < 92 → m 1 i = gptPrimary d.blockCount c i := by
  obtain ⟨c, bytes⟩ := onGpt
  refine ⟨c, fun i hi => ?_⟩
  rw [bytes i (by omega), headerSector_of_lt (canonical_gptPrimary _ c).headerSize hi]

theorem OnGpt.canonical : Canonical d.blockCount (headerStruct (m 1)) := by
  obtain ⟨c, bytes⟩ := onGpt.bytes
  have canonical := canonical_gptPrimary d.blockCount c
  intro i out out'
  rw [← canonical i out out', headerStruct]
  split
  · next small => exact bytes i small
  · next beyond =>
    rw [canonical i out out']
    simp (disch := omega) only [freshHeader, putLe32_of_out, putLe64_of_out]

theorem OnGpt.validHeader : validHeader (m 1) = true := by
  obtain ⟨c, bytes⟩ := onGpt.bytes
  have canonical := canonical_gptPrimary d.blockCount c
  have sig : signature (m 1) = gptSig := by
    rw [← canonical.signature]
    exact le64_congr fun i _ _ => bytes i (by omega)
  have size : headerSize (m 1) = 92 := by
    rw [← canonical.headerSize]
    exact le32_congr fun i _ _ => bytes i (by omega)
  have crc := crc_of_sealed canonical.headerSize bytes
  simp [CanBoot.validHeader, sig, size, crc]

theorem OnGpt.hasHeader (served : d.readFails 1 1 = false) : hasHeader d m = true := by
  rw [CanBoot.hasHeader, served, onGpt.validHeader]
  rfl

end OnGpt

end CanBoot
