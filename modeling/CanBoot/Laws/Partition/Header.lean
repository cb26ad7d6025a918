import CanBoot.Fs.Partition

/-!
# The GPT header on the disk

What `write_gpt_pair` leaves on a disk of 512-byte blocks, and what `read_gpt_header` makes of it.
A header is *canonical* when it is the one `canboot_part_init_gpt` fills in, up to its two
checksums. Every edit reads a canonical header and writes one back, so the laws need no other.

The checksum is used as a function of the bytes alone: a header that was sealed checks, whatever the
polynomial is.
-/

namespace CanBoot

open Lib

/-- The driver serves every request on the disk, and the size fits its field. -/
structure Disk.Works (d : Disk) : Prop where
  writable : d.writable = true
  serves : d.ServesBelow d.blockCount
  size : d.blockCount < 18446744073709551616

/-! ## Sealed headers -/

theorem crc32Buf_lt (b : Buf) (n : Nat) : crc32Buf b n < 4294967296 := UInt32.toNat_lt _

theorem crc32Buf_congr {b b' : Buf} {n : Nat} (h : ∀ i, i < n → b i = b' i) : crc32Buf b n = crc32Buf b' n := by
  have bytes : bytesAt b 0 n = bytesAt b' 0 n := bytesAt_congr fun i hi => by
    rw [Nat.zero_add]
    exact h i hi
  rw [crc32Buf, crc32Buf, bytes]

variable (h : Buf) {i : Nat}

theorem sealHeader_of_out (out : i < 16 ∨ 20 ≤ i) : sealHeader h i = h i := by
  rw [sealHeader, putLe32_of_out _ _ out, putLe32_of_out _ _ out]

theorem le32_sealHeader (out : i + 4 ≤ 16 ∨ 20 ≤ i) : le32 (sealHeader h) i = le32 h i :=
  le32_congr fun _ _ _ => sealHeader_of_out h (by omega)

theorem le64_sealHeader (out : i + 8 ≤ 16 ∨ 20 ≤ i) : le64 (sealHeader h) i = le64 h i :=
  le64_congr fun _ _ _ => sealHeader_of_out h (by omega)

/-- The checksum of a sealed header checks. -/
theorem crc_sealHeader : crc32Buf (putLe32 (sealHeader h) 16 0) (GptHeader.headerSize (sealHeader h)) =
      GptHeader.headerCrc32 (sealHeader h) := by
  have size : GptHeader.headerSize (sealHeader h) = GptHeader.headerSize (putLe32 h 16 0) := by
    rw [GptHeader.headerSize, GptHeader.headerSize, le32_sealHeader _ (by omega), le32_putLe32_of_ne _ _ (by omega)]
  rw [size, sealHeader, putLe32_putLe32, putLe32_putLe32, GptHeader.headerCrc32, le32_putLe32,
    Nat.mod_eq_of_lt (crc32Buf_lt _ _)]

/-! ## The canonical header -/

/-- The primary header of a disk of `n` blocks whose table has the checksum `c`. -/
def gptPrimary (n c : Nat) : Buf := sealHeader (putLe32 (freshHeader n 32) 88 c)

/-- The header of its mirror. -/
def gptBackup (n c : Nat) : Buf := sealHeader (backupHeader (gptPrimary n c) 32)

/-- A header as `canboot_part_init_gpt` fills it in, up to the checksums. -/
def GptHeader.Canonical (n : Nat) (h : Buf) : Prop :=
  ∀ i, (i < 16 ∨ 20 ≤ i) → (i < 88 ∨ 92 ≤ i) → h i = freshHeader n 32 i

section Canonical

variable {n : Nat} {h : Buf} (canonical : GptHeader.Canonical n h)

include canonical

theorem GptHeader.Canonical.le32 (out : i + 4 ≤ 16 ∨ 20 ≤ i) (out' : i + 4 ≤ 88 ∨ 92 ≤ i) :
    le32 h i = le32 (freshHeader n 32) i :=
  le32_congr fun _ _ _ => canonical _ (by omega) (by omega)

theorem GptHeader.Canonical.le64 (out : i + 8 ≤ 16 ∨ 20 ≤ i) (out' : i + 8 ≤ 88 ∨ 92 ≤ i) :
    le64 h i = le64 (freshHeader n 32) i :=
  le64_congr fun _ _ _ => canonical _ (by omega) (by omega)

attribute [local simp] le32_putLe32 le32_putLe32_of_ne le32_putLe64_of_ne le64_putLe64 le64_putLe64_of_ne
  le64_putLe32_of_ne

theorem GptHeader.Canonical.signature : GptHeader.signature h = gptSig := by
  simp (disch := omega) [GptHeader.signature, canonical.le64, freshHeader]
  decide

theorem GptHeader.Canonical.headerSize : GptHeader.headerSize h = 92 := by
  simp (disch := omega) [GptHeader.headerSize, canonical.le32, freshHeader]

theorem GptHeader.Canonical.currentLba : GptHeader.currentLba h = 1 := by
  simp (disch := omega) [GptHeader.currentLba, canonical.le64, freshHeader]

theorem GptHeader.Canonical.backupLba (size : n < 18446744073709551616) (large : 64 ≤ n) :
    GptHeader.backupLba h = n - 1 := by
  simp (disch := omega) [GptHeader.backupLba, canonical.le64, freshHeader, sub64_of_le]
  omega

theorem GptHeader.Canonical.firstUsable : GptHeader.firstUsable h = 34 := by
  simp (disch := omega) [GptHeader.firstUsable, canonical.le64, freshHeader]

theorem GptHeader.Canonical.lastUsable (size : n < 18446744073709551616) (large : 64 ≤ n) :
    GptHeader.lastUsable h = n - 34 := by
  simp (disch := omega) [GptHeader.lastUsable, canonical.le64, freshHeader, sub64_of_le]
  omega

theorem GptHeader.Canonical.tableLba : GptHeader.tableLba h = 2 := by
  simp (disch := omega) [GptHeader.tableLba, canonical.le64, freshHeader]

theorem GptHeader.Canonical.entryCount : GptHeader.entryCount h = 128 := by
  simp (disch := omega) [GptHeader.entryCount, canonical.le32, freshHeader]

theorem GptHeader.Canonical.entrySize : GptHeader.entrySize h = 128 := by
  simp (disch := omega) [GptHeader.entrySize, canonical.le32, freshHeader]

theorem GptHeader.Canonical.entryAt (hi : i < 128) : GptHeader.entryAt h i = 128 * i := by
  rw [GptHeader.entryAt, canonical.entrySize, u32_of_lt (by omega), Nat.mul_comm]

/-- Sealed with a table's checksum, it is the primary header. -/
theorem GptHeader.Canonical.seal (c : Nat) : sealHeader (putLe32 h 88 c) = gptPrimary n c := by
  have zeroed : putLe32 (putLe32 h 88 c) 16 0 = putLe32 (putLe32 (freshHeader n 32) 88 c) 16 0 := by
    funext i
    exact putLe32_congr fun out => putLe32_congr fun out' => canonical i out out'
  rw [gptPrimary, sealHeader, sealHeader, zeroed]

end Canonical

variable (n : Nat)

theorem canonical_freshHeader : GptHeader.Canonical n (freshHeader n 32) :=
  fun _ _ _ => rfl

theorem canonical_gptPrimary (c : Nat) : GptHeader.Canonical n (gptPrimary n c) := by
  intro i out out'
  rw [gptPrimary, sealHeader_of_out _ out, putLe32_of_out _ _ out']

theorem tableCrc32_gptPrimary {c : Nat} (hc : c < 4294967296) : GptHeader.tableCrc32 (gptPrimary n c) = c := by
  rw [GptHeader.tableCrc32, gptPrimary, le32_sealHeader _ (by omega), le32_putLe32, Nat.mod_eq_of_lt hc]

end CanBoot
