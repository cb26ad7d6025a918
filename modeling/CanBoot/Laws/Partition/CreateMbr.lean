import CanBoot.Laws.Partition.ChooseMbr

/-!
# What an MBR entry keeps of a request

An MBR entry has 32 bits for its first block and 32 for its length, and `canboot_part_create` takes 64-bit block numbers.
It stores the low halves of what it is given: nothing is refused for its size. A creation is exact, or refused, only
where the request fits the entry (`mbr_create_exact_iff`).

The driver may fail what it likes: a disk on which an MBR was detected reads block 0.
-/

namespace CanBoot

open Lib Lib.Prog List

/-- The request can be represented in an MBR entry. -/
def MbrFits (start stop : Nat) : Prop := start ≤ stop ∧ start < 4294967296 ∧ stop - start + 1 < 4294967296

/-- **What a creation on an MBR promises**: an answer means that the list has the partition that was asked for beside all
it had, and a request that does not fit is refused with block 0 as it was. -/
structure MbrCreateExact (d : Disk) (fuel : Nat) (m : Media) (start stop : Nat) (type : UInt8)
    (name : Option (List UInt8)) : Prop where
  stored : ∀ k m', (canbootPartCreate d start stop type name).run fuel m = .ok k m' → ∀ max, 4 ≤ max →
    ∃ ps ps' p, (canbootPartList d max).run fuel m = .ok ps m ∧ (canbootPartList d max).run fuel m' = .ok ps' m' ∧
      ps'.Perm (p :: ps) ∧ p.startLba = start ∧ p.endLba = stop ∧ p.typeMbr = if type ≠ 0 then type else 0x83
  refused : ¬ MbrFits start stop → ∃ m', (canbootPartCreate d start stop type name).run fuel m = .err m' ∧ m' 0 = m 0

section Detected

variable {d : Disk} {fuel : Nat} {m : Media}

/-- A disk on which an MBR was detected has sectors of 512 bytes, and reads the first. -/
theorem mbr_of_detect (sector : 512 ≤ d.blockSize) (detect : (canbootPartDetect d).run fuel m = .ok .mbr m) :
    d.blockSize = 512 ∧ d.readFails 0 1 = false ∧ schemeOf d m = .mbr := by
  have block : d.blockSize = 512 := by
    by_contra other
    have wide : ¬ d.blockSize ≤ 512 := by omega
    have header : (readGptHeader d).run fuel m = .err m := by
      rw [readGptHeader, bind_require_false (decide_eq_false wide)]
    have first : (readSector d 0).run fuel m = .trap := by
      rw [readSector, bind_defined_false (decide_eq_false wide)]
    rw [canbootPartDetect, run_bind_ok (run_attempt_err header)] at detect
    simp only at detect
    rw [run_bind_trap (run_attempt_trap first)] at detect
    cases detect
  have served : d.readFails 0 1 = false := by
    by_contra fails
    have first : (readSector d 0).run fuel m = .err m := by
      rw [readSector, bind_defined_true (by simp [block]), Disk.read, (Bool.not_eq_false _).mp fails]
      rfl
    have header := run_readGptHeader block fuel m
    rw [canbootPartDetect] at detect
    split at header
    · rw [run_bind_ok (run_attempt_ok header)] at detect
      cases detect
    · rw [run_bind_ok (run_attempt_err header)] at detect
      simp only at detect
      rw [run_bind_ok (run_attempt_err first)] at detect
      cases detect
  rw [run_canbootPartDetect block fuel m served] at detect
  exact ⟨block, served, (Outcome.ok.inj detect).1⟩

variable (block : d.blockSize = 512) (served : d.readFails 0 1 = false) (mbr : schemeOf d m = .mbr)

include block served mbr

/-- The list of an MBR is its slots in use. -/
theorem run_list_mbr {max : Nat} (room : 4 ≤ max) :
    (canbootPartList d max).run fuel m = .ok ((range 4).filterMap (tableSlots d m)) m := by
  obtain ⟨b, run, bytes⟩ := run_readSector block fuel m served
  have entries : (range 4).filterMap (mbrPartition b) = (range 4).filterMap (tableSlots d m) := by
    refine filterMap_congr fun k mem => ?_
    have small := mem_range.mp mem
    rw [tableSlots_mbr mbr, mbrSlots, if_pos small]
    refine mbrPartition_congr fun i _ high => bytes i ?_
    unfold MbrEntry.entryAt at high
    omega
  have short : ((range 4).filterMap (tableSlots d m)).length ≤ max :=
    (length_filterMap_le _ _).trans (by rw [length_range]; exact room)
  rw [canbootPartList, run_bind_ok (run_canbootPartDetect block fuel m served), mbr]
  simp only [listMbr]
  rw [run_bind_ok run, entries, take_of_length_le short]
  rfl

/-- A creation on an MBR comes down to the MBR half. -/
theorem run_create_served (start stop : Nat) (type : UInt8) (name : Option (List UInt8)) :
    (canbootPartCreate d start stop type name).run fuel m =
      if d.writable = true ∧ start ≤ stop then (createMbr d start stop type).run fuel m else .err m := by
  rw [canbootPartCreate]
  cases writable : d.writable with
  | false => rw [bind_require_false rfl, if_neg (by simp)]
  | true =>
    rw [bind_require_true rfl]
    by_cases order : start ≤ stop
    · rw [bind_require_true (decide_eq_true order),
        run_bind_ok (run_canbootPartDetect block fuel m served), mbr, if_pos ⟨rfl, order⟩]
    · rw [bind_require_false (decide_eq_false order), if_neg fun h => order h.2]

/-- A creation is refused when nothing can be written, the range is reversed or the table is full; otherwise it takes a
slot that has no type. -/
theorem create_mbr_cases (start stop : Nat) (type : UInt8) (name : Option (List UInt8)) (fuel : Nat) :
    ((canbootPartCreate d start stop type name).run fuel m = .err m ∧
      (d.writable = false ∨ d.writeFails 0 1 = true ∨ stop < start ∨ ∀ k, k < 4 → MbrEntry.type (m 0) k ≠ 0)) ∨
    ∃ k, k < 4 ∧ MbrEntry.type (m 0) k = 0 ∧ d.writable = true ∧ d.writeFails 0 1 = false ∧ start ≤ stop ∧
      (canbootPartCreate d start stop type name).run fuel m =
        .ok k (setBlocks 0 1 (mbrNewEntry (m 0) k type start stop) m) := by
  rw [run_create_served block served mbr]
  split
  · next tried =>
    obtain ⟨writable, order⟩ := tried
    rw [run_createMbr_served block served]
    cases search : (range 4).find? fun i => decide (MbrEntry.type (m 0) i = 0) with
    | none =>
      refine .inl ⟨rfl, .inr (.inr (.inr fun k small => ?_))⟩
      simpa using find?_eq_none.mp search k (mem_range.mpr small)
    | some k =>
      have small := mem_range.mp (mem_of_find?_eq_some search)
      have hit := find?_some search
      have untyped : MbrEntry.type (m 0) k = 0 := of_decide_eq_true hit
      cases fails : d.writeFails 0 1 with
      | true => exact .inl ⟨by rw [writable]; rfl, .inr (.inl rfl)⟩
      | false => exact .inr ⟨k, small, untyped, writable, rfl, order, by rw [writable]; rfl⟩
  · next refused =>
    refine .inl ⟨rfl, ?_⟩
    by_cases writable : d.writable = true
    · exact .inr (.inr (.inl (Nat.lt_of_not_le fun order => refused ⟨writable, order⟩)))
    · exact .inl ((Bool.not_eq_true _).mp writable)

/-- A partition that fits is stored as it was asked for. -/
theorem create_mbr_stored {start stop k : Nat} (fits : MbrFits start stop) (small : k < 4)
    (untyped : MbrEntry.type (m 0) k = 0) (type : UInt8) {max : Nat} (room : 4 ≤ max) :
    ∃ ps ps' p, (canbootPartList d max).run fuel m = .ok ps m ∧
      (canbootPartList d max).run fuel (setBlocks 0 1 (mbrNewEntry (m 0) k type start stop) m) =
        .ok ps' (setBlocks 0 1 (mbrNewEntry (m 0) k type start stop) m) ∧
      ps'.Perm (p :: ps) ∧ p.startLba = start ∧ p.endLba = stop ∧ p.typeMbr = if type ≠ 0 then type else 0x83 := by
  obtain ⟨order, first, length⟩ := fits
  obtain ⟨mbr', slots⟩ := mbrNewEntry_slots mbr small type start stop
  have free : tableSlots d m k = none := by
    rw [tableSlots_mbr mbr, mbrSlots, if_pos small, mbrPartition, if_pos (.inl untyped)]
  rw [u32_of_lt first, u32_of_lt length, mbrRecord, if_neg (by omega)] at slots
  have stored := filterMap_update_perm small free
    ⟨start, start + (stop - start + 1) - 1, stop - start + 1, if type ≠ 0 then type else 0x83, replicate 16 0, [],
      false, .mbr⟩
  rw [← slots] at stored
  refine ⟨_, _, _, run_list_mbr block served mbr room, run_list_mbr block served mbr' room, stored, rfl, ?_, rfl⟩
  show start + (stop - start + 1) - 1 = stop
  omega

end Detected

/-- **A creation on an MBR is exact iff it is refused anyway or its range fits the entry.** -/
theorem mbr_create_exact_iff {d : Disk} (sector : 512 ≤ d.blockSize) {fuel : Nat} {m : Media}
    (detect : (canbootPartDetect d).run fuel m = .ok .mbr m) (start stop : UInt64) (type : UInt8)
    (name : Option (List UInt8)) : MbrCreateExact d fuel m start.toNat stop.toNat type name ↔
      (d.writable = false ∨ d.writeFails 0 1 = true ∨ stop < start ∨ ∀ k, k < 4 → MbrEntry.type (m 0) k ≠ 0) ∨
        MbrFits start.toNat stop.toNat := by
  obtain ⟨block, served, mbr⟩ := mbr_of_detect sector detect
  rcases create_mbr_cases block served mbr start.toNat stop.toNat type name fuel with
    ⟨run, why⟩ | ⟨k, small, untyped, writable, writes, order, run⟩
  · refine ⟨fun _ => .inl ?_, fun _ => ⟨fun k m' ok => ?_, fun _ => ⟨m, run, rfl⟩⟩⟩
    · rwa [UInt64.lt_iff_toNat_lt]
    · rw [run] at ok
      cases ok
  · have runs : ¬ (d.writable = false ∨ d.writeFails 0 1 = true ∨ stop < start ∨
        ∀ k, k < 4 → MbrEntry.type (m 0) k ≠ 0) := by
      rw [writable, writes, UInt64.lt_iff_toNat_lt]
      rintro (no | no | reversed | full)
      · cases no
      · cases no
      · omega
      · exact full k small untyped
    constructor
    · intro exact
      by_contra unfit
      obtain ⟨m', err, -⟩ := exact.refused fun fits => unfit (.inr fits)
      rw [run] at err
      cases err
    · rintro (no | fits)
      · exact absurd no runs
      · refine ⟨fun k' m' ok max room => ?_, fun unfit => absurd fits unfit⟩
        rw [run] at ok
        cases ok
        exact create_mbr_stored block served mbr fits small untyped type room

/-- An MBR with one Linux partition, of blocks 8 to 15. -/
def linuxMbr : Media := fun l o =>
  if l = 0 then ([(450, 0x83), (454, 8), (458, 8), (510, 0x55), (511, 0xAA)].lookup o).getD 0 else 0

theorem detect_linuxMbr : (canbootPartDetect gptDisk).run 0 linuxMbr = .ok .mbr linuxMbr := by
  rw [run_canbootPartDetect rfl 0 linuxMbr rfl]
  rfl

/-- A second partition of eight blocks is stored. -/
theorem mbr_create_exact_second : MbrCreateExact gptDisk 0 linuxMbr (16 : UInt64).toNat (23 : UInt64).toNat 0 none :=
  (mbr_create_exact_iff (by decide) detect_linuxMbr 16 23 0 none).mpr
    (.inr ⟨by decide, by decide, by decide⟩)

/-- A partition that starts at block 2^32 + 16 is accepted, and stored at block 16. -/
theorem mbr_create_keeps_low_half : ∃ k m' ps p, (canbootPartDetect gptDisk).run 0 linuxMbr = .ok .mbr linuxMbr ∧
      (canbootPartCreate gptDisk 4294967312 4294967319 0 none).run 0 linuxMbr = .ok k m' ∧
      (canbootPartList gptDisk 4).run 0 m' = .ok ps m' ∧ p ∈ ps ∧ p.startLba = 16 ∧ p.endLba = 23 ∧
      (∀ q ∈ ps, q.startLba ≠ 4294967312) ∧ m' 0 ≠ linuxMbr 0 := by
  have mbr : schemeOf gptDisk linuxMbr = .mbr := rfl
  have run : (canbootPartCreate gptDisk 4294967312 4294967319 0 none).run 0 linuxMbr =
      .ok 1 (setBlocks 0 1 (mbrNewEntry (linuxMbr 0) 1 0 4294967312 4294967319) linuxMbr) := by
    rw [run_create_served rfl rfl mbr, if_pos (by decide), run_createMbr_served rfl rfl]
    rfl
  have mbr' := (mbrNewEntry_slots (d := gptDisk) mbr (show 1 < 4 by decide) 0 4294967312 4294967319).1
  refine ⟨1, _, _, ⟨16, 23, 8, 0x83, replicate 16 0, [], false, .mbr⟩, detect_linuxMbr, run,
    run_list_mbr rfl rfl mbr' (Nat.le_refl 4), ?_, rfl, rfl, ?_, ?_⟩
  · decide +kernel
  · decide +kernel
  · exact fun same => absurd (congrFun same 466) (by decide)

end CanBoot
