import CanBoot.Laws.Partition.Index

/-!
# Choosing MBR

`canboot_part_init_mbr` writes block 0 and nothing else: a GPT header left in block 1 is still found
first. And the empty MBR it writes is no scheme to `canboot_part_detect`, so the first
`canboot_part_create` makes the disk a GPT. What the call promises therefore holds only where no header
is left over and no partition is asked for.

Nothing is assumed of the driver here: a create that answers has had all its requests served.
-/

namespace CanBoot

open Lib Lib.Prog List

/-- **What choosing MBR promises** of the medium it leaves: no GPT, no partitions, and a first partition
that goes to the MBR and touches block 0 alone. -/
structure MbrHonoured (d : Disk) (fuel : Nat) (m : Media) (start stop : Nat) (type : UInt8)
    (name : Option (List UInt8)) : Prop where
  scheme : ∃ s, (canbootPartDetect d).run fuel m = .ok s m ∧ s ≠ .gpt
  empty : ∀ max, (canbootPartList d max).run fuel m = .ok [] m
  create : 1 ≤ start ∧ start ≤ stop ∧ stop < d.blockCount →
    ∃ k m', (canbootPartCreate d start stop type name).run fuel m = .ok k m' ∧ k < 4 ∧
      (canbootPartDetect d).run fuel m' = .ok .mbr m' ∧
      (∃ p, (canbootPartList d 128).run fuel m' = .ok [p] m' ∧ p.startLba = start ∧
        p.endLba = stop ∧ (type ≠ 0 → p.typeMbr = type)) ∧
      ∀ l, l ≠ 0 → m' l = m l

section Answers

variable {d : Disk} (block : d.blockSize = 512) {fuel : Nat} {m m' : Media}

include block

/-- A write that answers has written. -/
theorem writeLba_ok {lba k : Nat} {buf : Buf} {u : Unit}
    (run : (writeLba d lba buf k).run fuel m = .ok u m') : m' = setBlocks lba k buf m := by
  rw [writeLba, run_bind_eq_ok] at run
  obtain ⟨_, _, guard, run⟩ := run
  obtain ⟨_, rfl⟩ := require_ok guard
  rw [Disk.write] at run
  simp only at run
  split at run
  · cases run
  · cases run
    rw [block]
    rfl

/-- A pair that was written is on the medium. -/
theorem writeGptPair_ok {h tbl : Buf} (canonical : GptHeader.Canonical d.blockCount h)
    (size : d.blockCount < 18446744073709551616) (large : 64 ≤ d.blockCount)
    (run : (writeGptPair d h tbl 32).run fuel m = .ok () m') : m' = pairMedia d.blockCount tbl m := by
  have primary := canonical.seal (crc32Buf tbl 16384)
  have fields := canonical_gptPrimary d.blockCount (crc32Buf tbl 16384)
  simp only [writeGptPair, canonical.entryCount, canonical.entrySize,
    u32_of_lt (show 128 * 128 < 4294967296 by decide), primary] at run
  rw [bind_defined_true (by simp [canonical.headerSize]), fields.tableLba,
    fields.currentLba, ← gptBackup, tableLba_gptBackup _ size large, currentLba_gptBackup _ size large,
    run_bind_eq_ok] at run
  obtain ⟨_, _, table, run⟩ := run
  rw [run_bind_eq_ok] at run
  obtain ⟨_, _, header, run⟩ := run
  rw [run_bind_eq_ok] at run
  obtain ⟨_, _, mirror, last⟩ := run
  rw [writeLba_ok block last, writeLba_ok block mirror, writeLba_ok block header, writeLba_ok block table]
  rfl

/-- A fresh GPT that was initialised is on the medium. -/
theorem initGpt_ok (size : d.blockCount < 18446744073709551616) (large : 64 ≤ d.blockCount)
    (run : (canbootPartInitGpt d).run fuel m = .ok () m') : m' = freshGpt d.blockCount m := by
  rw [canbootPartInitGpt, run_bind_eq_ok] at run
  obtain ⟨_, _, writable, run⟩ := run
  obtain ⟨_, rfl⟩ := require_ok writable
  rw [bind_require_true (by simp [block]), bind_require_true (by simp [large]), run_bind_eq_ok] at run
  obtain ⟨_, _, mbr, run⟩ := run
  rw [run_bind_ok (run_tableSectors block fuel _)] at run
  rw [writeGptPair_ok block (canonical_freshHeader _) size large run, writeLba_ok block mbr]
  rfl

/-- A partition that was created on a GPT leaves one, and the driver reads its header. -/
theorem createGpt_ok (size : d.blockCount < 18446744073709551616) (large : 64 ≤ d.blockCount)
    (onGpt : OnGpt d m) {start stop k : Nat} {name : Option (List UInt8)}
    (run : (createGpt d start stop name).run fuel m = .ok k m') : hasHeader d m' = true := by
  have canonical := onGpt.canonical
  have header := run_readGptHeader block fuel m
  rw [createGpt, run_bind_eq_ok] at run
  obtain ⟨h, _, read, run⟩ := run
  rw [read] at header
  split at header
  · next found =>
    cases header
    have served : d.readFails 1 1 = false := by
      by_contra fails
      simp [hasHeader, fails] at found
    rw [run_bind_ok (run_tableSectors block fuel _), run_bind_eq_ok] at run
    obtain ⟨tbl, t, table, run⟩ := run
    split at run
    · cases run
    · rw [run_bind_eq_ok] at run
      obtain ⟨_, _, written, run⟩ := run
      cases run
      rw [writeGptPair_ok block canonical size large written]
      exact (onGpt_pairMedia large _ _).hasHeader served
  · cases header

/-- What `canboot_part_detect` answers, whatever the driver serves. -/
theorem detect_noHeader (none : hasHeader d m = false)
    (untyped : ((range 4).all fun i => MbrEntry.type (m 0) i = 0) = true) :
    (canbootPartDetect d).run fuel m = .ok .none m := by
  cases served : d.readFails 0 1 with
  | false =>
    rw [run_canbootPartDetect block fuel m served, schemeOf, none, if_neg (by decide)]
    split
    · rfl
    · rfl
  | true =>
    have header := run_readGptHeader block fuel m
    rw [none, if_neg (by decide)] at header
    have sector : (readSector d 0).run fuel m = .err m := by
      rw [readSector, bind_defined_true (by simp [block]), Disk.read, served]
      rfl
    rw [canbootPartDetect, run_bind_ok (run_attempt_err header)]
    simp only
    rw [run_bind_ok (run_attempt_err sector)]
    rfl

theorem detect_header (found : hasHeader d m = true) : (canbootPartDetect d).run fuel m = .ok .gpt m := by
  have header := run_readGptHeader block fuel m
  rw [found, if_pos rfl] at header
  rw [canbootPartDetect, run_bind_ok (run_attempt_ok header)]
  rfl

end Answers

/-- The sector `canboot_part_init_mbr` writes has no typed entry. -/
theorem mbrSector_untyped : ((range 4).all fun i => MbrEntry.type mbrSector i = 0) = true := by decide

/-- **Choosing MBR is honoured only where no header is left over and no partition is asked for.** -/
theorem mbr_honoured_iff {d : Disk} (block : d.blockSize = 512) (large : 68 ≤ d.blockCount)
    (small : d.blockCount ≤ 4294967295) {fuel : Nat} {m m' : Media}
    (init : (canbootPartInitMbr d).run fuel m = .ok () m') (start stop : UInt64) (type : UInt8)
    (name : Option (List UInt8)) : MbrHonoured d fuel m' start.toNat stop.toNat type name ↔ hasHeader d m = false ∧
        ¬ (1 ≤ start.toNat ∧ start.toNat ≤ stop.toNat ∧ stop.toNat < d.blockCount) := by
  have enough : 64 ≤ d.blockCount := by omega
  have size : d.blockCount < 18446744073709551616 := by omega
  rw [canbootPartInitMbr, run_bind_eq_ok] at init
  obtain ⟨_, _, guard, init⟩ := init
  obtain ⟨writable, unmoved⟩ := require_ok guard
  rw [unmoved] at init
  have written := writeLba_ok block init
  subst written
  have untyped : ((range 4).all fun i =>
      MbrEntry.type (setBlocks 0 1 mbrSector m 0) i = 0) = true := by
    rw [all_eq_true]
    intro i hi
    have small := mem_range.mp hi
    rw [MbrEntry.type, setBlocks_one _ _ (by unfold MbrEntry.entryAt; omega)]
    exact all_eq_true.mp mbrSector_untyped i hi
  have same := hasHeader_setBlocks d mbrSector m
  constructor
  · intro honoured
    have noHeader : hasHeader d m = false := by
      obtain ⟨s, detect, notGpt⟩ := honoured.scheme
      by_contra found
      rw [detect_header block (by rw [same]; simpa using found)] at detect
      cases detect
      exact notGpt rfl
    refine ⟨noHeader, fun asked => ?_⟩
    obtain ⟨k, m', create, _, detect, _⟩ := honoured.create asked
    -- without a scheme the create initialises a GPT, and what it leaves is one
    rw [canbootPartCreate, bind_require_true writable, bind_require_true (by simp [asked.2.1]),
      run_bind_ok (detect_noHeader block (by rw [same, noHeader]) untyped)] at create
    simp only at create
    rw [run_bind_eq_ok] at create
    obtain ⟨_, _, initGpt, create⟩ := create
    rw [initGpt_ok block size enough initGpt] at create
    have found := createGpt_ok block size enough (onGpt_freshGpt enough _) create
    rw [detect_header block found] at detect
    cases detect
  · rintro ⟨noHeader, notAsked⟩
    have detect : (canbootPartDetect d).run fuel (setBlocks 0 1 mbrSector m) = .ok .none _ :=
      detect_noHeader block (by rw [same, noHeader]) untyped
    refine ⟨⟨.none, detect, by decide⟩, fun max => ?_, fun asked => absurd asked notAsked⟩
    rw [canbootPartList, run_bind_ok detect]
    rfl

theorem run_initMbr_blank : (canbootPartInitMbr gptDisk).run 0 (fun _ _ => 0) =
      .ok () (setBlocks 0 1 mbrSector fun _ _ => 0) := by
  rw [canbootPartInitMbr, bind_require_true gptDisk_works.writable, run_writeLba rfl 0 _ gptDisk_works (by decide)]

/-- A blank disk, and a create that is reversed. -/
theorem mbr_honoured_iff_blank : ∃ m, (canbootPartInitMbr gptDisk).run 0 (fun _ _ => 0) = .ok () m ∧
      MbrHonoured gptDisk 0 m (1 : UInt64).toNat (0 : UInt64).toNat 0 none :=
  ⟨_, run_initMbr_blank, (mbr_honoured_iff rfl (by decide) (by decide) run_initMbr_blank 1 0 0 none).mpr
    ⟨by decide, by decide⟩⟩

/-- A blank disk made MBR, and a Linux partition from block 34 to 40: the create answers, and the disk
is a GPT with a header in block 1. -/
theorem first_create_makes_gpt : ∃ m m' k, (canbootPartInitMbr gptDisk).run 0 (fun _ _ => 0) = .ok () m ∧
      (canbootPartCreate gptDisk 34 40 0x83 none).run 0 m = .ok k m' ∧
      (canbootPartDetect gptDisk).run 0 m' = .ok .gpt m' ∧ m 1 0 = 0 ∧ m' 1 0 = 0x45 ∧
      ¬ MbrHonoured gptDisk 0 m 34 40 0x83 none := by
  have works := gptDisk_works
  have large : 64 ≤ gptDisk.blockCount := by decide
  have bare : schemeOf gptDisk (setBlocks 0 1 mbrSector fun _ _ => 0) = .none := by decide
  have create := run_create_none works rfl (by decide) 0 bare 34 40 0x83 none
  rw [if_pos (by decide)] at create
  have onGpt := onGpt_freshGpt large (setBlocks 0 1 mbrSector fun _ _ => 0)
  rcases onGpt.create_slots works rfl large 0 (by decide : 34 < 18446744073709551616)
      (by decide : 40 < 18446744073709551616) none with
    ⟨_, full⟩ | ⟨k, m', _, run, _, _, _, onGpt', _⟩
  · exact absurd (by rw [tableSlots_freshGpt works large]) (full 0 (by decide))
  rw [run] at create
  have detect := onGpt'.run_detect works rfl large 0
  refine ⟨_, m', k, run_initMbr_blank, create, detect, rfl, ?_, fun honoured => ?_⟩
  · obtain ⟨c, bytes⟩ := onGpt'.bytes
    rw [bytes 0 (by decide), canonical_gptPrimary _ c 0 (by decide) (by decide)]
    decide
  · obtain ⟨_, _, again, _, mbr, _⟩ := honoured.create (by decide)
    rw [create] at again
    cases again
    rw [detect] at mbr
    cases mbr

end CanBoot
