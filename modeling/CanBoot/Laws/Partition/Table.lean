import CanBoot.Laws.Partition.Calls
import CanBoot.Lib.Slots

/-!
# Both tables as slots

A reader sees a table of slots: 128 of a GPT, four of an MBR, none where there is no scheme
(`tableSlots`). `canboot_part_list` reports the slots in use, and each edit rewrites one slot. The
GPT edits are those of the module before; the MBR edits are run here.
-/

namespace CanBoot

open Lib Lib.Prog MbrEntry List

/-- The slots a reader finds, by number. -/
def tableSlots (d : Disk) (m : Media) (k : Nat) : Option Partition :=
  match schemeOf d m with
  | .gpt => if k < 128 then gptPartition (tableAt m 2) (128 * k) else none
  | .mbr => if k < 4 then mbrPartition (m 0) k else none
  | .none => none

/-- A header that reads as valid is the one the edits write, on a disk that has room for it. -/
def HeaderOurs (d : Disk) (m : Media) : Prop :=
  hasHeader d m = true → OnGpt d m ∧ 64 ≤ d.blockCount

/-! ## The MBR's entries -/

/-- An MBR entry is read from its own sixteen bytes. -/
theorem mbrPartition_congr {b b' : Buf} {k : Nat}
    (same : ∀ i, MbrEntry.entryAt k ≤ i → i < MbrEntry.entryAt k + 16 → b i = b' i) :
    mbrPartition b k = mbrPartition b' k := by
  have type : MbrEntry.type b k = MbrEntry.type b' k := same _ (by omega) (by omega)
  have start : lbaStart b k = lbaStart b' k :=
    le32_congr fun i _ _ => same i (by omega) (by omega)
  have count : lbaCount b k = lbaCount b' k :=
    le32_congr fun i _ _ => same i (by omega) (by omega)
  rw [mbrPartition, mbrPartition, type, start, count, same _ (by omega) (by omega)]

/-- The entry of a new MBR partition, as `list_mbr` reports it. -/
def mbrRecord (type : UInt8) (start count : Nat) : Option Partition :=
  if count = 0 then none
  else some {
    startLba := start
    endLba := start + count - 1
    sizeLba := count
    typeMbr := type
    typeGpt := List.replicate 16 0
    name := []
    bootableMbr := false
    scheme := .mbr }

theorem mbrNewEntry_of_out {b : Buf} {k : Nat} {type : UInt8} {start stop i : Nat}
    (out : i < MbrEntry.entryAt k ∨ MbrEntry.entryAt k + 16 ≤ i) (below : i < 510) :
    mbrNewEntry b k type start stop i = b i := by
  rw [mbrNewEntry, putByte_of_ne _ _ (by omega), putByte_of_ne _ _ (by omega),
    putLe32_of_out _ _ (by omega), putLe32_of_out _ _ (by omega), putByte_of_ne _ _ (by omega),
    putByte_of_ne _ _ (by omega)]

theorem mbrNewEntry_congr {b b' : Buf} {k : Nat} {type : UInt8} {start stop i : Nat}
    (same : b i = b' i) : mbrNewEntry b k type start stop i = mbrNewEntry b' k type start stop i :=
  putByte_congr (putByte_congr (putLe32_congr fun _ => putLe32_congr fun _ =>
    putByte_congr (putByte_congr same)))

section NewEntry

variable (b : Buf) {k : Nat} (small : k < 4) (type : UInt8) (start stop : Nat)

theorem type_mbrNewEntry : MbrEntry.type (mbrNewEntry b k type start stop) k = if type ≠ 0 then type else 0x83 := by
  rw [MbrEntry.type, mbrNewEntry, putByte_of_ne _ _ (by unfold MbrEntry.entryAt; omega),
    putByte_of_ne _ _ (by unfold MbrEntry.entryAt; omega), putLe32_of_out _ _ (by omega),
    putLe32_of_out _ _ (by omega), putByte_same]

include small

theorem mbrPartition_mbrNewEntry : mbrPartition (mbrNewEntry b k type start stop) k =
      mbrRecord (if type ≠ 0 then type else 0x83) (u32 start) (u32 (stop - start + 1)) := by
  have at510 : MbrEntry.entryAt k + 16 ≤ 510 := by unfold MbrEntry.entryAt; omega
  have out : ∀ (c : Buf) i, i < 510 → putByte (putByte c 510 0x55) 511 0xAA i = c i := by
    intro c i hi
    rw [putByte_of_ne _ _ (by omega), putByte_of_ne _ _ (by omega)]
  have count : lbaCount (mbrNewEntry b k type start stop) k = u32 (stop - start + 1) := by
    rw [lbaCount, mbrNewEntry, le32_congr fun i _ _ => out _ i (by omega), le32_putLe32]
    rfl
  have first : lbaStart (mbrNewEntry b k type start stop) k = u32 start := by
    rw [lbaStart, mbrNewEntry, le32_congr fun i _ _ => out _ i (by omega),
      le32_putLe32_of_ne _ _ (by omega), le32_putLe32]
    rfl
  have boot : mbrNewEntry b k type start stop (MbrEntry.entryAt k) = 0 := by
    rw [mbrNewEntry, out _ _ (by omega), putLe32_of_out _ _ (by omega),
      putLe32_of_out _ _ (by omega), putByte_of_ne _ _ (by omega), putByte_same]
  have typed : (if type ≠ 0 then type else 0x83) ≠ (0 : UInt8) := by
    split
    · assumption
    · decide
  rw [mbrPartition, mbrRecord, type_mbrNewEntry b, count, first, boot]
  by_cases empty : u32 (stop - start + 1) = 0
  · rw [if_pos (.inr empty), if_pos empty]
  · rw [if_neg (by simp only [not_or]; exact ⟨typed, empty⟩), if_neg empty]
    rfl

end NewEntry

/-! ## The MBR's edits -/

theorem setBlocks_congr {buf buf' : Buf} (m : Media) (same : ∀ i, i < 512 → buf i = buf' i) :
    setBlocks 0 1 buf m = setBlocks 0 1 buf' m := by
  funext l o
  by_cases hit : 0 ≤ l ∧ l < 0 + 1 ∧ o < 512
  · rw [setBlocks, setBlocks, if_pos hit, if_pos hit, same _ (by omega)]
  · rw [setBlocks, setBlocks, if_neg hit, if_neg hit]

theorem hasHeader_setBlocks (d : Disk) (buf : Buf) (m : Media) : hasHeader d (setBlocks 0 1 buf m) = hasHeader d m := by
  rw [hasHeader, setBlocks_out _ _ (by omega), hasHeader]

/-- The MBR half of `canboot_part_create` on a driver that reads block 0: without room in the table, or when the write
fails, nothing is changed. -/
theorem run_createMbr_served {d : Disk} (block : d.blockSize = 512) {m : Media} (served : d.readFails 0 1 = false)
    (fuel start stop : Nat) (type : UInt8) :
    (createMbr d start stop type).run fuel m = match (range 4).find? fun i => MbrEntry.type (m 0) i = 0 with
      | none => .err m
      | some k =>
        if d.writable && !d.writeFails 0 1 then .ok k (setBlocks 0 1 (mbrNewEntry (m 0) k type start stop) m)
        else .err m := by
  obtain ⟨b, run, bytes⟩ := run_readSector block fuel m served
  have search : ((range 4).find? fun i => MbrEntry.type b i = 0) =
      (range 4).find? fun i => MbrEntry.type (m 0) i = 0 := by
    refine List.find?_congr fun i hi => ?_
    have small := mem_range.mp hi
    rw [MbrEntry.type, MbrEntry.type, bytes _ (by unfold MbrEntry.entryAt; omega)]
  rw [createMbr, run_bind_ok run, search]
  cases hit : (range 4).find? fun i => MbrEntry.type (m 0) i = 0 with
  | none => rfl
  | some k =>
    have same : setBlocks 0 1 (mbrNewEntry b k type start stop) m =
        setBlocks 0 1 (mbrNewEntry (m 0) k type start stop) m :=
      setBlocks_congr m fun i hi => mbrNewEntry_congr (bytes i hi)
    simp only [← same]
    cases writable : d.writable with
    | false =>
      have refused : (writeLba d 0 (mbrNewEntry b k type start stop) 1).run fuel m = .err m := by
        rw [writeLba, bind_require_false writable]
      exact run_bind_err refused _
    | true =>
      cases fails : d.writeFails 0 1 with
      | true =>
        have refused : (writeLba d 0 (mbrNewEntry b k type start stop) 1).run fuel m = .err m := by
          rw [writeLba, bind_require_true writable, Disk.write, fails]
          rfl
        exact run_bind_err refused _
      | false =>
        have written : (writeLba d 0 (mbrNewEntry b k type start stop) 1).run fuel m =
            .ok () (setBlocks 0 1 (mbrNewEntry b k type start stop) m) := by
          rw [writeLba, bind_require_true writable, Disk.write, fails, block]
          rfl
        exact run_bind_ok written _

section Mbr

variable {d : Disk} (works : d.Works) (block : d.blockSize = 512) (pos : 0 < d.blockCount) (fuel : Nat) {m : Media}

include works block pos

theorem run_detect : (canbootPartDetect d).run fuel m = .ok (schemeOf d m) m :=
  run_canbootPartDetect block fuel m (works.serves.reads 0 1 (by omega))

theorem run_createMbr (start stop : Nat) (type : UInt8) : (createMbr d start stop type).run fuel m =
      match (range 4).find? fun i => MbrEntry.type (m 0) i = 0 with
      | none => .err m
      | some k => .ok k (setBlocks 0 1 (mbrNewEntry (m 0) k type start stop) m) := by
  rw [run_createMbr_served block (works.serves.reads 0 1 (by omega)), works.writable,
    works.serves.writes 0 1 (by omega)]
  rfl

variable (mbr : schemeOf d m = .mbr)

include mbr

/-- **`canboot_part_create`** on an MBR fills the first slot of type zero. -/
theorem run_create_mbr (start stop : Nat) (type : UInt8) (name : Option (List UInt8)) :
    (canbootPartCreate d start stop type name).run fuel m =
      if start ≤ stop then (createMbr d start stop type).run fuel m else .err m := by
  rw [canbootPartCreate, bind_require_true works.writable]
  by_cases order : start ≤ stop
  · rw [bind_require_true (by simp [order]), run_bind_ok (run_detect works block pos fuel), mbr, if_pos order]
  · rw [bind_require_false (by simp [order]), if_neg order]

/-- **`canboot_part_delete`** on an MBR clears the slot of that number. -/
theorem run_delete_mbr (idx : Nat) : (canbootPartDelete d idx).run fuel m = if idx < 4 then
        .ok () (setBlocks 0 1 (putBytes (m 0) (MbrEntry.entryAt idx) (replicate 16 0)) m)
      else .err m := by
  obtain ⟨b, run, bytes⟩ := run_readSector block fuel m (works.serves.reads 0 1 (by omega))
  rw [canbootPartDelete, bind_require_true works.writable, run_bind_ok (run_detect works block pos fuel), mbr]
  simp only
  by_cases small : idx < 4
  · rw [bind_require_true (by simp [small]), run_bind_ok run, run_writeLba block fuel m works (by omega), if_pos small,
      setBlocks_congr m fun i hi => putBytes_congr _ (bytes i hi)]
  · rw [bind_require_false (by simp [small]), if_neg small]

/-- The tests of `canboot_part_resize` on an MBR entry. -/
def mbrResizable (b : Buf) (idx stop : Nat) : Prop :=
  MbrEntry.type b idx ≠ 0 ∧ MbrEntry.lbaStart b idx ≤ stop ∧ u64 (stop - MbrEntry.lbaStart b idx + 1) ≤ 0xFFFFFFFF

/-- **`canboot_part_resize`** on an MBR rewrites the length in that slot. -/
theorem run_resize_mbr {idx : Nat} (small : idx < 4) {stop : Nat} (fits : mbrResizable (m 0) idx stop) :
    (canbootPartResize d idx stop).run fuel m = .ok () (setBlocks 0 1 (putLe32 (m 0) (MbrEntry.entryAt idx + 12)
        (u64 (stop - lbaStart (m 0) idx + 1))) m) := by
  obtain ⟨typed, order, count⟩ := fits
  obtain ⟨b, run, bytes⟩ := run_readSector block fuel m (works.serves.reads 0 1 (by omega))
  have at512 : MbrEntry.entryAt idx + 16 ≤ 512 := by unfold MbrEntry.entryAt; omega
  have type : MbrEntry.type b idx = MbrEntry.type (m 0) idx := bytes _ (by omega)
  have first : lbaStart b idx = lbaStart (m 0) idx :=
    le32_congr fun i _ _ => bytes i (by omega)
  rw [canbootPartResize, bind_require_true works.writable, run_bind_ok (run_detect works block pos fuel), mbr]
  simp only
  rw [bind_require_true (by simp [small]), run_bind_ok run]
  simp only [type, first]
  rw [bind_require_true (by simp [typed]), bind_require_true (by simp [order]),
    bind_require_true (by simp only [decide_eq_true_eq]; exact count),
    run_writeLba block fuel m works (by omega),
    setBlocks_congr m fun i hi => putLe32_congr fun _ => bytes i hi]

theorem run_resize_mbr_refused {idx stop : Nat} (refused : ¬ (idx < 4 ∧ mbrResizable (m 0) idx stop)) :
    (canbootPartResize d idx stop).run fuel m = .err m := by
  obtain ⟨b, run, bytes⟩ := run_readSector block fuel m (works.serves.reads 0 1 (by omega))
  rw [canbootPartResize, bind_require_true works.writable, run_bind_ok (run_detect works block pos fuel), mbr]
  simp only
  by_cases small : idx < 4
  · have at512 : MbrEntry.entryAt idx + 16 ≤ 512 := by unfold MbrEntry.entryAt; omega
    have type : MbrEntry.type b idx = MbrEntry.type (m 0) idx := bytes _ (by omega)
    have first : lbaStart b idx = lbaStart (m 0) idx :=
      le32_congr fun i _ _ => bytes i (by omega)
    rw [bind_require_true (by simp [small]), run_bind_ok run]
    simp only [type, first]
    by_cases typed : MbrEntry.type (m 0) idx ≠ 0
    · rw [bind_require_true (by simp [typed])]
      by_cases order : lbaStart (m 0) idx ≤ stop
      · rw [bind_require_true (by simp [order]), run_bind_err (run_require_false ?_ _ _)]
        simp only [decide_eq_false_iff_not]
        exact fun count => refused ⟨small, typed, order, count⟩
      · rw [bind_require_false (by simp [order])]
    · rw [bind_require_false (by simpa using typed)]
  · rw [bind_require_false (by simp [small])]

end Mbr

/-! ## No scheme -/

section None

variable {d : Disk} (works : d.Works) (block : d.blockSize = 512) (pos : 0 < d.blockCount)
  (fuel : Nat) {m : Media} (bare : schemeOf d m = .none)

include works block pos bare

theorem run_delete_none (idx : Nat) : (canbootPartDelete d idx).run fuel m = .err m := by
  rw [canbootPartDelete, bind_require_true works.writable, run_bind_ok (run_detect works block pos fuel), bare]
  rfl

theorem run_resize_none (idx stop : Nat) : (canbootPartResize d idx stop).run fuel m = .err m := by
  rw [canbootPartResize, bind_require_true works.writable, run_bind_ok (run_detect works block pos fuel), bare]
  rfl

/-- The medium a first partition is created on: a fresh, empty GPT. -/
def freshGpt (n : Nat) (m : Media) : Media :=
  pairMedia n (fun _ => 0) (setBlocks 0 1 (protectiveMbr n) m)

/-- **`canboot_part_create`** on a disk without a scheme makes it a GPT first. -/
theorem run_create_none (start stop : Nat) (type : UInt8) (name : Option (List UInt8)) :
    (canbootPartCreate d start stop type name).run fuel m = if start ≤ stop ∧ 64 ≤ d.blockCount then
        (createGpt d start stop name).run fuel (freshGpt d.blockCount m)
      else .err m := by
  rw [canbootPartCreate, bind_require_true works.writable]
  by_cases order : start ≤ stop
  · rw [bind_require_true (by simp [order]), run_bind_ok (run_detect works block pos fuel), bare]
    simp only
    by_cases large : 64 ≤ d.blockCount
    · rw [run_bind_ok (run_canbootPartInitGpt works block large fuel), if_pos ⟨order, large⟩]
      rfl
    · have refused : (canbootPartInitGpt d).run fuel m = .err m := by
        rw [canbootPartInitGpt, bind_require_true works.writable, bind_require_true (by simp [block]),
          bind_require_false (by simpa using large)]
      rw [run_bind_err refused, if_neg fun h => large h.2]
  · rw [bind_require_false (by simp [order]), if_neg fun h => order h.1]

end None

end CanBoot
