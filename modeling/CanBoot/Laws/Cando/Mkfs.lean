import CanBoot.Lib.Keeps
import CanBoot.Cando.Fs
import CanBoot.Laws.Fat32.Requests
import CanBoot.Laws.Partition.Edits

/-!
# Which blocks mkfs writes

`fs.mkfs` writes where `get_part` sends it. A partition of the list keeps it inside (`mkfs_inside_partition`). But
`get_part` takes an empty list for a disk without a table, and the list of a GPT that has no partition yet is as empty:
then the whole disk is formatted over the table (`mkfs_overwrites_empty_gpt`). The fallback is harmless exactly on
the disks whose list is empty only for want of a table (`whole_disk_iff`).
-/

namespace CanBoot.Cando

open Lib Lib.Prog List

/-! ## Looking a partition up -/

section Reading

variable (d : Disk)

theorem keeps_read (lba n : Nat) : Prog.Keeps id (d.read lba n) := by
  intro fuel m
  rw [Disk.read]
  dsimp only
  split <;> rfl

theorem keeps_readGptHeader : Prog.Keeps id (readGptHeader d) :=
  (Prog.Keeps.require _).bind fun _ => (keeps_read d 1 1).bind fun _ => (Prog.Keeps.require _).bind fun _ =>
    (Prog.Keeps.require _).bind fun _ => (Prog.Keeps.require _).bind fun _ => .pure _

theorem keeps_readSector (lba : Nat) : Prog.Keeps id (readSector d lba) :=
  (Prog.Keeps.defined _).bind fun _ => keeps_read d lba 1

theorem keeps_readGptTable (h : Buf) : Prog.Keeps id (readGptTable d h) :=
  (Prog.Keeps.divide _ _).bind fun _ => (Prog.Keeps.defined _).bind fun _ => keeps_read d _ _

theorem keeps_detect : Prog.Keeps id (canbootPartDetect d) := by
  refine (keeps_readGptHeader d).attempt.bind fun header => ?_
  cases header with
  | some _ => exact .pure _
  | none =>
    refine (keeps_readSector d 0).attempt.bind fun sector => ?_
    cases sector with
    | none => exact .pure _
    | some b =>
      dsimp only
      split_ifs
      · exact .pure _
      · exact .pure _
      · exact .pure _

theorem keeps_list (max : Nat) : Prog.Keeps id (canbootPartList d max) := by
  refine (keeps_detect d).bind fun scheme => ?_
  cases scheme with
  | none => exact .pure _
  | mbr => exact (keeps_readSector d 0).bind fun _ => .pure _
  | gpt =>
    exact (keeps_readGptHeader d).bind fun h => (keeps_readGptTable d h).bind fun _ => .pure _

end Reading

variable {d : Disk} {m m' : Media} {fuel : Nat} {idx : Int} {label : Option (List UInt8)} {p : Partition} {ps : List Partition}

/-- **What get_part answers**: a partition of the list by its number, or the whole disk for number 0 of an empty
list. -/
theorem getPart_ok_iff : (getPart d idx).run fuel m = .ok p m' ↔
    m' = m ∧ ∃ ps, (canbootPartList d listCap).run fuel m = .ok ps m ∧
      (0 ≤ idx ∧ ps[idx.toNat]? = some p ∨ ps = [] ∧ idx = 0 ∧ 0 < d.blockCount ∧ p = wholeDisk d) := by
  rw [getPart, run_bind_eq_ok]
  constructor
  · rintro ⟨ps, t, list, rest⟩
    have same : t = m := (keeps_list d listCap).ok list
    subst same
    split at rest
    · next number =>
      obtain ⟨-, low, -⟩ := number
      cases here : ps[idx.toNat]? with
      | none =>
        rw [here] at rest
        cases rest
      | some q =>
        rw [here] at rest
        cases rest
        exact ⟨rfl, ps, list, .inl ⟨low, here⟩⟩
    · split at rest
      · next whole =>
        obtain ⟨empty, zero, some⟩ := whole
        cases rest
        exact ⟨rfl, ps, list, .inr ⟨eq_nil_of_length_eq_zero empty, zero, some, rfl⟩⟩
      · cases rest
  · rintro ⟨rfl, ps, list, found⟩
    refine ⟨ps, m', list, ?_⟩
    rcases found with ⟨low, here⟩ | ⟨rfl, rfl, some, rfl⟩
    · have lt : idx.toNat < ps.length := (List.getElem?_eq_some_iff.mp here).1
      rw [if_pos ⟨by omega, low, by omega⟩, here]
      rfl
    · rw [if_neg (by simp), if_pos ⟨rfl, rfl, some⟩]
      rfl

theorem keeps_getPart (d : Disk) (idx : Int) : Prog.Keeps id (getPart d idx) := by
  refine (keeps_list d listCap).bind fun ps => ?_
  split
  · split
    · exact .pure _
    · exact .fail
  · split
    · exact .pure _
    · exact .fail

/-! ## The writes -/

/-- The blocks `fs.mkfs` writes, with what it writes there, in order. -/
def mkfsWrites (d : Disk) (fuel : Nat) (m : Media) (idx : Int) (label : Option (List UInt8)) : List (Nat × Buf) :=
  match (getPart d idx).run fuel m with
  | .ok p _ =>
    if formats d p.sizeLba then served d (formatRequests p.startLba p.sizeLba label) else []
  | _ => []

theorem mem_mkfsWrites {w : Nat × Buf} (mem : w ∈ mkfsWrites d fuel m idx label) :
    ∃ p, (getPart d idx).run fuel m = .ok p m ∧ formats d p.sizeLba = true ∧
      ∃ r ∈ formatRequests p.startLba p.sizeLba label, w = (u64 r.1, r.2) := by
  rw [mkfsWrites] at mem
  split at mem
  · next p t run =>
    have same := (getPart_ok_iff.mp run).1
    subst same
    split at mem
    · next goes =>
      obtain ⟨r, asked, rfl⟩ := mem_map.mp (takeWhile_subset _ mem)
      exact ⟨p, run, goes, r, asked, rfl⟩
    · cases mem
  · cases mem

/-- A program that only tells whether another answered leaves what the other left. -/
theorem after_answered (x : Prog Media Unit) : (Prog.run (do
      match ← Prog.attempt x with
      | none => pure false
      | some _ => pure true) fuel m).after m = (x.run fuel m).after m := by
  simp only [run_bind, Prog.attempt]
  cases x.run fuel m <;> rfl

/-- **The medium after mkfs**, whatever it answers: its writes, one after the other. -/
theorem after_fMkfs (d : Disk) (fuel : Nat) (m : Media) (idx : Int) (label : Option (List UInt8)) :
    ((fMkfs d idx label).run fuel m).after m =
      (mkfsWrites d fuel m idx label).foldl (fun m w => putSector m w.1 w.2) m := by
  rw [fMkfs, mkfsWrites]
  cases run : (getPart d idx).run fuel m with
  | ok p t =>
    have same := (getPart_ok_iff.mp run).1
    subst same
    rw [run_bind_ok (run_attempt_ok run)]
    refine (after_answered _).trans ?_
    rw [run_format_eq]
    dsimp only
    by_cases goes : formats d p.sizeLba = true
    · rw [if_pos goes, if_pos goes, after_putAll (formats_iff.mp goes).2.1]
    · rw [if_neg goes, if_neg goes]
      rfl
  | err t =>
    have same : t = m := (keeps_getPart d idx).err run
    subst same
    rw [run_bind_ok (run_attempt_err run)]
    rfl
  | spin | trap => simp only [run_bind, Prog.attempt, run, Outcome.after, foldl_nil]

/-- The partitions of a GPT's list are entries of a table. -/
theorem gptPartition_of_list (detect : (canbootPartDetect d).run fuel m = .ok .gpt m)
    (list : (canbootPartList d listCap).run fuel m = .ok ps m) (mem : p ∈ ps) :
    ∃ tbl off, gptPartition tbl off = some p := by
  rw [canbootPartList, run_bind_ok detect] at list
  obtain ⟨h, t, -, rest⟩ := run_bind_eq_ok.mp list
  obtain ⟨tbl, t, -, rest⟩ := run_bind_eq_ok.mp rest
  cases rest
  obtain ⟨i, -, entry⟩ := mem_filterMap.mp (take_subset _ _ mem)
  exact ⟨tbl, _, entry⟩

/-- **A listed partition holds its filesystem**: mkfs stays inside it. The one partition of all 2^64 blocks has size 0
and is refused. -/
theorem mkfs_inside_partition {tbl : Buf} {off : Nat} (entry : gptPartition tbl off = some p)
    (order : p.startLba ≤ p.endLba) (goes : formats d p.sizeLba = true) {r : Nat × Buf}
    (mem : r ∈ formatRequests p.startLba p.sizeLba label) : p.startLba ≤ u64 r.1 ∧ u64 r.1 ≤ p.endLba := by
  rw [gptPartition] at entry
  split at entry
  · cases entry
  · cases entry
    have low := le64_lt tbl (off + 32)
    have high := le64_lt tbl (off + 40)
    change GptEntry.startLba tbl off ≤ GptEntry.endLba tbl off at order
    have inside := formatRequests_inside goes (Nat.mod_lt _ (by decide)) mem
    dsimp only at inside ⊢
    rw [GptEntry.startLba, GptEntry.endLba] at *
    rw [sub64_of_le high order] at inside
    have size := Nat.mod_le (le64 tbl (off + 40) - le64 tbl (off + 32) + 1) 18446744073709551616
    rw [u64] at inside ⊢
    rw [Nat.mod_eq_of_lt (by omega)]
    omega

/-! ## The fallback -/

/-- A GPT that detection accepts, with partitions that begin before they end. -/
structure ReadableGpt (d : Disk) (fuel : Nat) (m : Media) : Prop where
  detect : (canbootPartDetect d).run fuel m = .ok .gpt m
  order : ∀ ps, (canbootPartList d listCap).run fuel m = .ok ps m → ∀ p ∈ ps, p.startLba ≤ p.endLba

/-- The blocks of the table a header describes. -/
def gptTableBlocks (d : Disk) (h : Buf) : Nat :=
  (GptHeader.entryCount h * GptHeader.entrySize h + d.blockSize - 1) / d.blockSize

/-- The blocks a GPT is kept in: the protective MBR, the header, the table, the mirror of the table and the mirror of
the header. -/
def KeepsGpt (d : Disk) (h : Buf) (lba : Nat) : Prop :=
  lba = 0 ∨ lba = 1 ∨ (GptHeader.tableLba h ≤ lba ∧ lba < GptHeader.tableLba h + gptTableBlocks d h) ∨
    (GptHeader.backupLba h - gptTableBlocks d h ≤ lba ∧ lba < GptHeader.backupLba h) ∨ lba = GptHeader.backupLba h

/-- A listed partition has the block. -/
def Covered (d : Disk) (fuel : Nat) (m : Media) (lba : Nat) : Prop :=
  ∃ ps, (canbootPartList d listCap).run fuel m = .ok ps m ∧ ∃ p ∈ ps, p.startLba ≤ lba ∧ lba ≤ p.endLba

/-- The whole disk stands in for a partition only where there is no table, and mkfs leaves a GPT alone. -/
structure WholeDiskOnlyBare (d : Disk) (fuel : Nat) (m : Media) : Prop where
  part : ∀ (idx : Int) p m', (getPart d idx).run fuel m = .ok p m' →
    (∃ ps, (canbootPartList d listCap).run fuel m = .ok ps m ∧ 0 ≤ idx ∧ ps[idx.toNat]? = some p) ∨
      (idx = 0 ∧ (canbootPartDetect d).run fuel m = .ok .none m ∧ p = wholeDisk d)
  mkfs : ReadableGpt d fuel m → ∀ (idx : Int) (label : Option (List UInt8)),
    ∀ w ∈ mkfsWrites d fuel m idx label, KeepsGpt d (m 1) w.1 → Covered d fuel m w.1

/-- A table without a partition, on a disk that has blocks. -/
def TableWithoutPartitions (d : Disk) (fuel : Nat) (m : Media) : Prop :=
  (canbootPartList d listCap).run fuel m = .ok [] m ∧ 0 < d.blockCount ∧ (canbootPartDetect d).run fuel m ≠ .ok .none m

theorem not_wholeDiskOnlyBare (table : TableWithoutPartitions d fuel m) : ¬ WholeDiskOnlyBare d fuel m := by
  intro bare
  obtain ⟨list, some, scheme⟩ := table
  have found : (getPart d 0).run fuel m = .ok (wholeDisk d) m :=
    getPart_ok_iff.mpr ⟨rfl, [], list, .inr ⟨rfl, rfl, some, rfl⟩⟩
  rcases bare.part 0 _ _ found with ⟨ps, list', -, here⟩ | ⟨-, none, -⟩
  · rw [list] at list'
    cases list'
    cases here
  · exact scheme none

/-- **The whole disk stands in only for a disk without a table, and mkfs leaves every GPT alone, exactly where no table
is without partitions.** -/
theorem whole_disk_iff (d : Disk) (fuel : Nat) (m : Media) :
    WholeDiskOnlyBare d fuel m ↔ ¬ TableWithoutPartitions d fuel m := by
  constructor
  · intro bare table
    exact not_wholeDiskOnlyBare table bare
  intro used
  refine ⟨fun idx p m' run => ?_, fun gpt idx label w mem _ => ?_⟩
  · obtain ⟨rfl, ps, list, found⟩ := getPart_ok_iff.mp run
    rcases found with ⟨low, here⟩ | ⟨rfl, rfl, some, rfl⟩
    · exact .inl ⟨ps, list, low, here⟩
    · refine .inr ⟨rfl, ?_, rfl⟩
      by_contra scheme
      exact used ⟨list, some, scheme⟩
  · obtain ⟨p, run, goes, r, asked, rfl⟩ := mem_mkfsWrites mem
    obtain ⟨-, ps, list, found⟩ := getPart_ok_iff.mp run
    rcases found with ⟨-, here⟩ | ⟨rfl, -, some, -⟩
    · have listed := mem_of_getElem? here
      obtain ⟨tbl, off, entry⟩ := gptPartition_of_list gpt.detect list listed
      exact ⟨ps, list, p, listed, mkfs_inside_partition entry (gpt.order ps list p listed) goes asked⟩
    · refine absurd ⟨list, some, ?_⟩ used
      rw [gpt.detect]
      intro same
      cases same

/-! ## A fresh GPT -/

/-- A disk of 66,600 blocks right after `canboot_part_init_gpt`. -/
def freshDisk : Media := freshGpt mkfsDisk.blockCount fun _ _ => 0

theorem mkfsDisk_works : mkfsDisk.Works := ⟨rfl, mkfsDisk_serves, by decide⟩

theorem onGpt_freshDisk : OnGpt mkfsDisk freshDisk := onGpt_freshGpt (by decide) _

theorem run_list_freshDisk : (canbootPartList mkfsDisk listCap).run 0 freshDisk = .ok [] freshDisk := by
  have slots : tableSlots mkfsDisk freshDisk = fun _ => none := tableSlots_freshGpt mkfsDisk_works (by decide) _
  rw [OnGpt.tableSlots mkfsDisk_works (by decide) onGpt_freshDisk] at slots
  rw [onGpt_freshDisk.run_list mkfsDisk_works rfl (by decide)]
  have empty : ((range 128).filterMap fun k => gptPartition (tableAt freshDisk 2) (128 * k)) = [] := by
    refine filterMap_eq_nil_iff.mpr fun k mem => ?_
    have slot := congrFun slots k
    rw [gptSlots, if_pos (mem_range.mp mem)] at slot
    exact slot
  rw [empty]
  rfl

theorem detect_freshDisk : (canbootPartDetect mkfsDisk).run 0 freshDisk = .ok .gpt freshDisk :=
  onGpt_freshDisk.run_detect mkfsDisk_works rfl (by decide) 0

/-- Nothing is refused on this disk. -/
theorem mkfsWrites_freshDisk : (mkfsWrites mkfsDisk 0 freshDisk 0 none).map Prod.fst =
    (formatRequests 0 66600 none).map fun r => u64 r.1 := by
  have found : (getPart mkfsDisk 0).run 0 freshDisk = .ok (wholeDisk mkfsDisk) freshDisk :=
    getPart_ok_iff.mpr ⟨rfl, [], run_list_freshDisk, .inr ⟨rfl, rfl, by decide, rfl⟩⟩
  have goes : formats mkfsDisk 66600 = true := by decide +kernel
  rw [mkfsWrites, found]
  show map Prod.fst (if formats mkfsDisk 66600 then served mkfsDisk (formatRequests 0 66600 none) else []) = _
  have all : served mkfsDisk (formatRequests 0 66600 none) = (formatRequests 0 66600 none).map fun r => (u64 r.1, r.2) :=
    takeWhile_eq_self_iff.mpr fun _ _ => rfl
  rw [if_pos goes, all, map_map]
  rfl

/-- **mkfs overwrites a GPT without partitions**: `fs.mkfs(disk, 0, "fat32")` formats the whole disk, and blocks 0 and 1
are among its writes. -/
theorem mkfs_overwrites_empty_gpt : (canbootPartInitGpt mkfsDisk).run 0 (fun _ _ => 0) = .ok () freshDisk ∧
      ReadableGpt mkfsDisk 0 freshDisk ∧ (getPart mkfsDisk 0).run 0 freshDisk = .ok (wholeDisk mkfsDisk) freshDisk ∧
      0 ∈ (mkfsWrites mkfsDisk 0 freshDisk 0 none).map Prod.fst ∧
      1 ∈ (mkfsWrites mkfsDisk 0 freshDisk 0 none).map Prod.fst ∧
      (∀ lba, ¬ Covered mkfsDisk 0 freshDisk lba) ∧ ¬ WholeDiskOnlyBare mkfsDisk 0 freshDisk := by
  have list := run_list_freshDisk
  have some : 0 < mkfsDisk.blockCount := by decide
  refine ⟨run_canbootPartInitGpt mkfsDisk_works rfl (by decide) 0, ⟨detect_freshDisk, fun ps list' p mem => ?_⟩,
    getPart_ok_iff.mpr ⟨rfl, [], list, .inr ⟨rfl, rfl, some, rfl⟩⟩, ?_, ?_, ?_,
    not_wholeDiskOnlyBare ⟨list, some, ?_⟩⟩
  · rw [list] at list'
    cases list'
    cases mem
  · rw [mkfsWrites_freshDisk, mem_map]
    exact ⟨_, mem_cons_self, rfl⟩
  · rw [mkfsWrites_freshDisk, mem_map]
    exact ⟨_, mem_cons_of_mem _ (mem_cons_of_mem _ mem_cons_self), rfl⟩
  · rintro lba ⟨ps, list', p, mem, -⟩
    rw [list] at list'
    cases list'
    cases mem
  · rw [detect_freshDisk]
    intro same
    cases same

end CanBoot.Cando
