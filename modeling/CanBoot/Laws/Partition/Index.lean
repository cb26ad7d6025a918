import CanBoot.Laws.Partition.Overlap

/-!
# What a partition index names

`canboot_part_list` numbers the partitions it reports; `canboot_part_delete` and `canboot_part_resize`
take the number of a slot. The two agree only while no slot before the partition is empty, and a
deletion moves every partition behind it up by one.
-/

namespace CanBoot

open Lib Lib.Prog Function List MbrEntry Option

/-- The media a sequence of edits can reach, from an initialised GPT or from any MBR. -/
inductive PartReachable (d : Disk) (fuel : Nat) : Media → Prop where
  | gpt {m m' : Media} (init : (canbootPartInitGpt d).run fuel m = .ok () m') : PartReachable d fuel m'
  | mbr {m : Media} (sector : 512 ≤ d.blockSize) (pos : 0 < d.blockCount)
      (mbr : schemeOf d m = .mbr) : PartReachable d fuel m
  | call {m : Media} (reach : PartReachable d fuel m) (call : PartCall) :
      PartReachable d fuel (call.after d fuel m)

/-- The partitions in the order of the list, each with the slot that holds it. -/
def slotReports (d : Disk) (m : Media) : List (Nat × Partition) := reports 128 (tableSlots d m)

/-- `canboot_part_list` reports these. -/
def Lists (d : Disk) (fuel : Nat) (m : Media) : Prop :=
  (canbootPartList d 128).run fuel m = .ok ((slotReports d m).map Prod.snd) m

/-- `canboot_part_delete(i)` removes the partition reported at `i`, and every other keeps its index. -/
def DeleteExact (d : Disk) (fuel : Nat) (m : Media) (i : Nat) : Prop :=
  ∃ m', (canbootPartDelete d i).run fuel m = .ok () m' ∧ Lists d fuel m' ∧
    slotReports d m' = (slotReports d m).eraseIdx i ∧
    ∀ j, j ≠ i → (slotReports d m')[j]? = (slotReports d m)[j]?

/-- An end a partition can be given: not before its start, and in an MBR of 32 bits of length. -/
def Partition.Admits (p : Partition) (stop : Nat) : Prop :=
  p.startLba ≤ stop ∧ (p.scheme = .mbr → stop - p.startLba + 1 ≤ 0xFFFFFFFF)

/-- `canboot_part_resize(i, stop)` gives the partition reported at `i` that end, if it admits it, and
changes nothing else. -/
def ResizeExact (d : Disk) (fuel : Nat) (m : Media) (i stop : Nat) : Prop :=
  ∀ k p, (slotReports d m)[i]? = some (k, p) →
    (p.Admits stop → ∃ m', (canbootPartResize d i stop).run fuel m = .ok () m' ∧ Lists d fuel m' ∧
      slotReports d m' = (slotReports d m).set i (k, p.resized stop)) ∧
    (¬ p.Admits stop →
      slotReports d (((canbootPartResize d i stop).run fuel m).after m) = slotReports d m)

/-- An index means the same to the list, to a deletion and to every resize. -/
def IndexMeans (d : Disk) (fuel : Nat) (m : Media) (i : Nat) : Prop :=
  DeleteExact d fuel m i ∧ ∀ stop : UInt64, ResizeExact d fuel m i stop.toNat

/-- The slots in use are those up to `i`. On a GPT the mirror is apart from the table, and an MBR entry
does not start at block 0, where the length of a resize wraps. -/
def SlotsUpTo (d : Disk) (m : Media) (i : Nat) : Prop :=
  (slotReports d m).map Prod.fst = List.range (i + 1) ∧
    (schemeOf d m = .gpt → 67 ≤ d.blockCount) ∧
    (schemeOf d m = .mbr → MbrEntry.lbaStart (m 0) i ≠ 0)

/-! ## Reachable tables -/

/-- What is reachable reads as one of our tables, and a GPT's slots show its own mirror. -/
structure Ours (d : Disk) (m : Media) : Prop where
  header : HeaderOurs d m
  folded : schemeOf d m = .gpt → tableSlots d m = foldSlots d.blockCount (tableSlots d m)

theorem foldSlots_foldSlots {n : Nat} (large : 64 ≤ n) (f : Nat → Option Partition) :
    foldSlots n (foldSlots n f) = foldSlots n f := by
  funext k
  rw [foldSlots]
  split
  · next high =>
    rw [foldSlots, if_neg (by omega), foldSlots, if_pos high]
  · rfl

section Reach

variable {d : Disk} (works : d.Works) (block : d.blockSize = 512) (pos : 0 < d.blockCount) (fuel : Nat) {m : Media}

theorem ours_of_noHeader (none : hasHeader d m = false) : Ours d m := by
  refine ⟨headerOurs_of_none none, fun gpt => ?_⟩
  rw [hasHeader_of_gpt gpt] at none
  cases none

include works in
theorem ours_pairMedia (large : 64 ≤ d.blockCount) (tbl : Buf) (m : Media) : Ours d (pairMedia d.blockCount tbl m) := by
  refine ⟨headerOurs_pairMedia large tbl m, fun _ => ?_⟩
  rw [tableSlots_pairMedia works large, foldSlots_foldSlots large]

include works block pos

theorem Ours.after_mbr (mbr : schemeOf d m = .mbr) (call : PartCall) : Ours d (call.after d fuel m) := by
  have ours : Ours d m := ours_of_noHeader (noHeader_of_mbr mbr)
  cases call with
  | create start stop type name =>
    have run := run_create_mbr works block pos fuel mbr start.toNat stop.toNat type name
    rw [PartCall.after, PartCall.perform, run]
    split
    · rcases mbr_create_slots works block pos fuel mbr start.toNat stop.toNat type with
        ⟨refused, _⟩ | ⟨_, _, accepted, _, _, _, mbr', _⟩
      · rw [refused]
        exact ours
      · rw [accepted]
        exact ours_of_noHeader (noHeader_of_mbr mbr')
    · exact ours
  | delete idx =>
    rw [PartCall.after, PartCall.perform]
    by_cases small : idx.toNat < 4
    · obtain ⟨_, run, none, _⟩ := mbr_delete_slots works block pos fuel mbr small
      rw [run_bind_ok run]
      exact ours_of_noHeader none
    · have run := run_delete_mbr works block pos fuel mbr idx.toNat
      rw [if_neg small] at run
      rw [run_bind_err run]
      exact ours
  | resize idx stop =>
    rw [PartCall.after, PartCall.perform]
    by_cases fits : idx.toNat < 4 ∧ mbrResizable (m 0) idx.toNat stop.toNat
    · obtain ⟨_, run, mbr', _⟩ := mbr_resize_slots works block pos fuel mbr fits.1 fits.2
      rw [run_bind_ok run]
      exact ours_of_noHeader (noHeader_of_mbr mbr')
    · rw [run_bind_err (run_resize_mbr_refused works block pos fuel mbr fits)]
      exact ours

theorem Ours.after_none (ours : Ours d m) (bare : schemeOf d m = .none) (call : PartCall) :
    Ours d (call.after d fuel m) := by
  cases call with
  | create start stop type name =>
    have run := run_create_none works block pos fuel bare start.toNat stop.toNat type name
    rw [PartCall.after, PartCall.perform, run]
    split
    · next tried =>
      have large := tried.2
      rw [(onGpt_freshGpt large m).run_createGpt works block large]
      split
      · exact ours_pairMedia works large _ _
      · exact ours_pairMedia works large _ _
    · exact ours
  | delete idx =>
    rw [PartCall.after, PartCall.perform, run_bind_err (run_delete_none works block pos fuel bare _)]
    exact ours
  | resize idx stop =>
    rw [PartCall.after, PartCall.perform, run_bind_err (run_resize_none works block pos fuel bare _ _)]
    exact ours

/-- One call keeps a table ours. -/
theorem Ours.after (ours : Ours d m) (call : PartCall) : Ours d (call.after d fuel m) := by
  cases scheme : schemeOf d m with
  | gpt =>
    obtain ⟨onGpt, large⟩ := ours.header (hasHeader_of_gpt scheme)
    rcases onGpt.after_cases works block large fuel call with same | ⟨tbl, written⟩
    · rw [same]
      exact ours
    · rw [written]
      exact ours_pairMedia works large tbl m
  | mbr => exact Ours.after_mbr works block pos fuel scheme call
  | none => exact ours.after_none works block pos fuel scheme call

end Reach

variable {d : Disk}

/-- Everything reachable on blocks of 512 bytes is ours, on a disk that is not empty. -/
theorem PartReachable.ours (works : d.Works) {fuel : Nat} {m : Media} (reach : PartReachable d fuel m)
    (narrow : d.blockSize ≤ 512) : d.blockSize = 512 ∧ 0 < d.blockCount ∧ Ours d m := by
  induction reach with
  | gpt init =>
    obtain ⟨block, large, rfl⟩ := paired_start works init
    exact ⟨block, by omega, ours_pairMedia works large _ _⟩
  | mbr sector pos mbr => exact ⟨by omega, pos, ours_of_noHeader (noHeader_of_mbr mbr)⟩
  | call _ call ih =>
    obtain ⟨block, pos, ours⟩ := ih
    exact ⟨block, pos, ours.after works block pos fuel call⟩

variable {i k : Nat} {p : Partition}

/-- On a GPT disk whose mirror runs into the table, no deletion is exact. -/
theorem small_gpt_not_exact {n : Nat} {f f' : Nat → Option Partition} (small : n < 67) (large : 64 ≤ n)
    (folded : f = foldSlots n f) (cleared : f' = foldSlots n (update f i none)) (len : (reports 128 f).length = i + 1)
    (last : (reports 128 f)[i]? = some (k, p)) (erased : reports 128 f' = (reports 128 f).eraseIdx i) : False := by
  obtain ⟨hk, used⟩ := mem_reports.mp (mem_of_getElem? last)
  have gone := slot_erased len last erased hk
  by_cases high : 4 * (n - 35) ≤ k
  · -- the last slot is a copy: clearing it means clearing the original as well
    have copy : f (k - 4 * (n - 35)) = some p := by
      have shown := congrFun folded k
      rw [foldSlots, if_pos ⟨high, hk⟩, used] at shown
      exact shown.symm
    have original : k - 4 * (n - 35) = i := by
      by_contra ne
      rw [cleared, foldSlots, if_pos ⟨high, hk⟩, update_of_ne ne, copy] at gone
      cases gone
    rw [original] at copy
    have kept := slot_kept len last erased (by omega) (by omega) copy
    rw [cleared, foldSlots, if_neg (by omega), update_self] at kept
    cases kept
  · -- the last slot is not a copy, so it has the number `i` and slot 0 is in use: so is its copy
    have same : k = i := by
      by_contra ne
      rw [cleared, foldSlots, if_neg fun h => high h.1, update_of_ne ne, used] at gone
      cases gone
    subst same
    have keys := keys_eq_range (reports_increasing 128 f) (by rw [length_map, len])
      (by rw [getElem?_map, last]; rfl)
    obtain ⟨⟨j, q⟩, hit, rfl : j = 0⟩ := List.mem_map.mp
      (show 0 ∈ (reports 128 f).map Prod.fst by rw [keys]; exact mem_range.mpr (by omega))
    have first := (mem_reports.mp hit).2
    have copy : f (4 * (n - 35)) = some q := by
      rw [folded, foldSlots, if_pos ⟨Nat.le_refl _, by omega⟩, Nat.sub_self, first]
    have listed : 4 * (n - 35) ∈ (reports 128 f).map Prod.fst :=
      List.mem_map.mpr ⟨_, mem_reports.mpr ⟨by omega, copy⟩, rfl⟩
    rw [keys, mem_range] at listed
    omega

/-! ## A table whose slots are used up to the index -/

section Exact

variable {d : Disk} (works : d.Works) (block : d.blockSize = 512) (pos : 0 < d.blockCount) (fuel : Nat) {m : Media}

/-- A slot of an MBR is numbered below four. -/
theorem mbr_slot_lt (mbr : schemeOf d m = .mbr) (used : tableSlots d m k = some p) : k < 4 := by
  rw [tableSlots_mbr mbr, mbrSlots] at used
  by_contra beyond
  rw [if_neg beyond] at used
  cases used

/-- The record of an MBR slot. -/
theorem mbr_slot (mbr : schemeOf d m = .mbr) (used : tableSlots d m k = some p) :
    MbrEntry.type (m 0) k ≠ 0 ∧ p.startLba = lbaStart (m 0) k ∧ p.scheme = .mbr ∧
      p.typeMbr = MbrEntry.type (m 0) k ∧ p.typeGpt = replicate 16 0 ∧ p.name = [] ∧
      p.bootableMbr = decide (m 0 (MbrEntry.entryAt k) = 0x80) := by
  have small := mbr_slot_lt mbr used
  rw [tableSlots_mbr mbr, mbrSlots, if_pos small, mbrPartition] at used
  split at used
  · cases used
  · next full =>
    rw [not_or] at full
    rw [some_inj] at used
    subst used
    exact ⟨full.1, rfl, rfl, rfl, rfl, rfl, rfl⟩

theorem gpt_slot_scheme (works : d.Works) (large : 64 ≤ d.blockCount) (onGpt : OnGpt d m)
    (used : tableSlots d m k = some p) : p.scheme = .gpt := by
  rw [onGpt.tableSlots works large, gptSlots] at used
  split at used
  · rw [gptPartition] at used
    split at used
    · cases used
    · rw [some_inj] at used
      subst used
      rfl
  · cases used

include works block pos

theorem lists_of_header (ours : HeaderOurs d m) : Lists d fuel m :=
  run_list_all works block pos fuel ours

/-- One deletion, by slot: it clears the slot of that number, and on a small GPT disk folds. -/
theorem delete_slot (ours : Ours d m) 
    (used : (slotReports d m)[i]? = some (k, p)) :
    ∃ m', (canbootPartDelete d i).run fuel m = .ok () m' ∧ Lists d fuel m' ∧
      tableSlots d m' = (if schemeOf d m = .gpt then foldSlots d.blockCount else id)
        (update (tableSlots d m) i none) := by
  obtain ⟨hi, hit⟩ := List.getElem?_eq_some_iff.mp used
  have short : (slotReports d m).length ≤ 128 :=
    (length_filterMap_le _ _).trans (by simp)
  cases scheme : schemeOf d m with
  | gpt =>
    obtain ⟨onGpt, large⟩ := ours.header (hasHeader_of_gpt scheme)
    obtain ⟨m', run, onGpt', slots⟩ :=
      onGpt.delete_slots works block large fuel (show i < 128 by omega)
    exact ⟨m', run, lists_of_header works block pos fuel fun _ => ⟨onGpt', large⟩, slots⟩
  | mbr =>
    have four : (slotReports d m).length ≤ 4 := by
      have beyond : ∀ k, 4 ≤ k → (mbrSlots (m 0) k).map (fun a => (k, a)) = none :=
        fun k hk => by rw [mbrSlots, if_neg (by omega)]; rfl
      rw [slotReports, reports, tableSlots_mbr scheme, filterMap_range_of_none (by decide) beyond]
      exact (length_filterMap_le _ _).trans (by simp)
    obtain ⟨m', run, none, slots⟩ :=
      mbr_delete_slots works block pos fuel scheme (show i < 4 by omega)
    exact ⟨m', run, lists_of_header works block pos fuel (headerOurs_of_none none), slots⟩
  | none =>
    have listed := mem_reports.mp (mem_of_getElem? used)
    have bare : tableSlots d m k = none := by rw [tableSlots, scheme]
    rw [bare] at listed
    cases listed.2

/-- The slots up to `i` in use and the disk roomy: a deletion is exact. -/
theorem SlotsUpTo.deleteExact (ours : Ours d m) (upTo : SlotsUpTo d m i) (used : (slotReports d m)[i]? = some (i, p))
    : DeleteExact d fuel m i := by
  obtain ⟨keys, roomy, _⟩ := upTo
  obtain ⟨m', run, lists, slots⟩ := delete_slot works block pos fuel ours used
  have cleared : tableSlots d m' = update (tableSlots d m) i none := by
    rw [slots]
    split
    · next gpt => exact foldSlots_large (roomy gpt) _
    · rfl
  have len : (slotReports d m).length = i + 1 := by
    rw [← length_map Prod.fst, keys, length_range]
  have erased : slotReports d m' = (slotReports d m).eraseIdx i := by
    rw [slotReports, cleared]
    exact reports_clear_last keys used
  refine ⟨m', run, lists, erased, fun j ne => ?_⟩
  rw [erased, getElem?_eraseIdx]
  split
  · rfl
  · rw [getElem?_eq_none (by omega), getElem?_eq_none (by omega)]

/-- A partition at its own slot: a resize is exact. -/
theorem SlotsUpTo.resizeExact (ours : Ours d m) (upTo : SlotsUpTo d m i) (used : (slotReports d m)[i]? = some (i, p))
    (stop : UInt64) : ResizeExact d fuel m i stop.toNat := by
  obtain ⟨_, roomy, nonzero⟩ := upTo
  have slot := (mem_reports.mp (mem_of_getElem? used)).2
  have top := stop.toNat_lt
  intro k q hit
  rw [used, some_inj, Prod.mk.injEq] at hit
  obtain ⟨rfl, rfl⟩ := hit
  have replaced : ∀ {m' : Media},
      tableSlots d m' = update (tableSlots d m) i (some (p.resized stop.toNat)) →
      slotReports d m' = (slotReports d m).set i (i, p.resized stop.toNat) := by
    intro m' slots
    rw [slotReports, slots]
    exact reports_set used _
  cases scheme : schemeOf d m with
  | gpt =>
    obtain ⟨onGpt, large⟩ := ours.header (hasHeader_of_gpt scheme)
    refine ⟨fun admits => ?_, fun refuses => ?_⟩
    · obtain ⟨m', run, onGpt', slots⟩ :=
        onGpt.resize_slots works block large fuel slot admits.1 top
      rw [foldSlots_large (roomy scheme)] at slots
      exact ⟨m', run, lists_of_header works block pos fuel fun _ => ⟨onGpt', large⟩, replaced slots⟩
    · rw [onGpt.resize_refused works block large fuel fun q hq => ?_]
      · rfl
      · rw [slot, some_inj] at hq
        subst hq
        by_contra order
        exact refuses ⟨by omega, fun mbr => by
          rw [gpt_slot_scheme works large onGpt slot] at mbr
          cases mbr⟩
  | mbr =>
    obtain ⟨typed, first, isMbr, type, guid, name, boot⟩ := mbr_slot scheme slot
    have small := mbr_slot_lt scheme slot
    have low := nonzero scheme
    -- the entry does not start at block 0, so the length does not wrap
    have count : p.startLba ≤ stop.toNat →
        u64 (stop.toNat - lbaStart (m 0) i + 1) = stop.toNat - p.startLba + 1 := by
      intro order
      rw [← first]
      exact Nat.mod_eq_of_lt (by omega)
    refine ⟨fun admits => ?_, fun refuses => ?_⟩
    · have short := admits.2 isMbr
      have length := count admits.1
      have fits : mbrResizable (m 0) i stop.toNat :=
        ⟨typed, by rw [← first]; exact admits.1, by rw [length]; exact short⟩
      obtain ⟨m', run, mbr', slots⟩ := mbr_resize_slots works block pos fuel scheme small fits
      refine ⟨m', run,
        lists_of_header works block pos fuel (headerOurs_of_none (noHeader_of_mbr mbr')),
        replaced ?_⟩
      rw [slots, length, mbrPartition_recount typed (by omega), if_neg (by omega)]
      have record : p.resized stop.toNat =
          { startLba := lbaStart (m 0) i
            endLba := lbaStart (m 0) i + (stop.toNat - p.startLba + 1) - 1
            sizeLba := stop.toNat - p.startLba + 1
            typeMbr := MbrEntry.type (m 0) i
            typeGpt := replicate 16 0
            name := []
            bootableMbr := decide (m 0 (MbrEntry.entryAt i) = 0x80)
            scheme := .mbr } := by
        have last : lbaStart (m 0) i + (stop.toNat - p.startLba + 1) - 1 = stop.toNat := by
          have := admits.1
          omega
        have size : u64 (stop.toNat - p.startLba + 1) = stop.toNat - p.startLba + 1 :=
          Nat.mod_eq_of_lt (by omega)
        rw [Partition.resized, last, size, first, isMbr, type, guid, name, boot]
      rw [record]
    · rw [run_resize_mbr_refused works block pos fuel scheme]
      · rfl
      · rintro ⟨_, _, order, short⟩
        rw [← first] at order
        rw [count order] at short
        exact refuses ⟨order, fun _ => short⟩
  | none =>
    have bare : tableSlots d m i = none := by rw [tableSlots, scheme]
    rw [bare] at slot
    cases slot

/-! ## Only such a table -/

/-- An exact deletion, of a table with the slots up to the index in use. -/
theorem DeleteExact.keys (ours : Ours d m) (exact : DeleteExact d fuel m i) (hi : i < (slotReports d m).length) :
    (slotReports d m).map Prod.fst = range (i + 1) ∧ (schemeOf d m = .gpt → 67 ≤ d.blockCount) := by
  obtain ⟨m', run, _, erased, kept⟩ := exact
  have len := length_of_erased hi erased kept
  obtain ⟨⟨k, p⟩, last⟩ : ∃ x, (slotReports d m)[i]? = some x := ⟨_, getElem?_eq_getElem hi⟩
  obtain ⟨hk, used⟩ := mem_reports.mp (mem_of_getElem? last)
  obtain ⟨m'', run', _, slots⟩ := delete_slot works block pos fuel ours last
  rw [run] at run'
  cases run'
  have roomy : schemeOf d m = .gpt → 67 ≤ d.blockCount := by
    intro gpt
    by_contra small
    rw [gpt, if_pos rfl] at slots
    exact small_gpt_not_exact (by omega)
      (ours.header (hasHeader_of_gpt gpt)).2 (ours.folded gpt) slots len last erased
  refine ⟨?_, roomy⟩
  have cleared : tableSlots d m' = update (tableSlots d m) i none := by
    rw [slots]
    split
    · next gpt => exact foldSlots_large (roomy gpt) _
    · rfl
  have same : k = i := by
    by_contra ne
    have gone := slot_erased len last erased hk
    rw [cleared, update_of_ne ne, used] at gone
    cases gone
  subst same
  exact keys_eq_range (reports_increasing 128 _) (by rw [length_map]; exact len)
    (by rw [getElem?_map]; exact congrArg (Option.map Prod.fst) last)

/-- A resize of an MBR entry at block 0 to the last address wraps to length zero: the entry is gone. -/
theorem not_resizeExact_zero (mbr : schemeOf d m = .mbr) (last : (slotReports d m)[i]? = some (i, p))
    (zero : lbaStart (m 0) i = 0) : ¬ ResizeExact d fuel m i (18446744073709551615 : UInt64).toNat := by
  intro exact
  have slot := (mem_reports.mp (mem_of_getElem? last)).2
  obtain ⟨typed, first, isMbr, _⟩ := mbr_slot mbr slot
  have small := mbr_slot_lt mbr slot
  have top : (18446744073709551615 : UInt64).toNat = 18446744073709551615 := rfl
  have refuses : ¬ p.Admits (18446744073709551615 : UInt64).toNat := by
    rintro ⟨_, short⟩
    have := short isMbr
    rw [first, zero, top] at this
    omega
  have unchanged := (exact i p last).2 refuses
  have wrapped : u64 ((18446744073709551615 : UInt64).toNat - lbaStart (m 0) i + 1) = 0 := by
    rw [zero]
    rfl
  obtain ⟨m', run, _, slots⟩ := mbr_resize_slots works block pos fuel mbr small
    ⟨typed, by omega, by rw [wrapped]; omega⟩
  rw [run] at unchanged
  rw [wrapped, mbrPartition_recount typed (by decide), if_pos rfl] at slots
  have listed := mem_of_getElem? last
  rw [← unchanged] at listed
  have gone := (mem_reports.mp listed).2
  rw [show Outcome.after m (Outcome.ok () m') = m' from rfl, slots, update_self] at gone
  cases gone

end Exact

/-- **An index means the same everywhere exactly when the slots in use are those up to it**: for every
reachable table and every index below the count. -/
theorem index_means_iff {d : Disk} (works : d.Works) {fuel : Nat} {m : Media} (reach : PartReachable d fuel m)
    {ps : List Partition} (listed : (canbootPartList d 128).run fuel m = .ok ps m) {i : Nat} (below : i < ps.length) :
    IndexMeans d fuel m i ↔ SlotsUpTo d m i := by
  have narrow : d.blockSize ≤ 512 := by
    by_contra wide
    rw [run_list_wide (by omega)] at listed
    cases listed
  obtain ⟨block, pos, ours⟩ := reach.ours works narrow
  have lists := lists_of_header works block pos fuel ours.header
  rw [Lists, listed] at lists
  have hi : i < (slotReports d m).length := by
    cases lists
    rwa [length_map] at below
  obtain ⟨⟨k, p⟩, last⟩ : ∃ x, (slotReports d m)[i]? = some x := ⟨_, getElem?_eq_getElem hi⟩
  have same (keys : (slotReports d m).map Prod.fst = List.range (i + 1)) : i = k := by
    have key : ((slotReports d m).map Prod.fst)[i]? = some k := by rw [getElem?_map, last]; rfl
    rwa [keys, getElem?_range (by omega), some_inj] at key
  constructor
  · intro ⟨delete, resize⟩
    obtain ⟨keys, roomy⟩ := delete.keys works block pos fuel ours hi
    obtain rfl := same keys
    refine ⟨keys, roomy, fun mbr zero => ?_⟩
    exact not_resizeExact_zero works block pos fuel mbr last zero (resize _)
  · intro upTo
    obtain rfl := same upTo.1
    exact ⟨upTo.deleteExact works block pos fuel ours last,
      fun stop => upTo.resizeExact works block pos fuel ours last stop⟩

/-- One partition on a fresh GPT, at index 0. -/
theorem index_means_iff_first : ∃ m ps, PartReachable gptDisk 0 m ∧ (canbootPartList gptDisk 128).run 0 m = .ok ps m ∧
      0 < ps.length ∧ IndexMeans gptDisk 0 m 0 := by
  have works := gptDisk_works
  have large : 64 ≤ gptDisk.blockCount := by decide
  have start : PartReachable gptDisk 0 (freshGpt gptDisk.blockCount fun _ _ => 0) :=
    .gpt (run_canbootPartInitGpt works rfl large 0)
  obtain ⟨m, p, _, after, onGpt, slots, _, _⟩ := create_first works rfl (by decide) 0
    (show (40 : UInt64).toNat ≤ (50 : UInt64).toNat by decide) 0 (fun _ _ => 0)
  have reach : PartReachable gptDisk 0 m := after ▸ start.call _
  have listed := lists_of_header works rfl (by decide) 0 fun _ => ⟨onGpt, large⟩
  have single : slotReports gptDisk m = [(0, p)] := by
    rw [slotReports, slots, reports_single (by decide)]
  have below : 0 < ((slotReports gptDisk m).map Prod.snd).length := by
    rw [single]
    exact Nat.one_pos
  refine ⟨m, _, reach, listed, below, (index_means_iff works reach listed below).mpr ⟨?_, ?_, ?_⟩⟩
  · rw [single]
    rfl
  · intro _
    decide
  · intro mbr
    rw [onGpt.schemeOf works large] at mbr
    cases mbr

/-- Two partitions, the first deleted: the other is reported at index 0, and `canboot_part_delete(0)`
returns 0 and leaves it. -/
theorem deletes_empty_slot : ∃ m m' q, PartReachable gptDisk 0 m ∧ (canbootPartList gptDisk 128).run 0 m = .ok [q] m ∧
      (q.startLba, q.endLba) = (60, 70) ∧ (canbootPartDelete gptDisk 0).run 0 m = .ok () m' ∧
      (canbootPartList gptDisk 128).run 0 m' = .ok [q] m' ∧ ¬ IndexMeans gptDisk 0 m 0 := by
  have works := gptDisk_works
  have large : 64 ≤ gptDisk.blockCount := by decide
  have roomy : 67 ≤ gptDisk.blockCount := by decide
  have start : PartReachable gptDisk 0 (freshGpt gptDisk.blockCount fun _ _ => 0) :=
    .gpt (run_canbootPartInitGpt works rfl large 0)
  obtain ⟨m1, p, _, after1, onGpt1, slots1, _, _⟩ := create_first works rfl roomy 0
    (show (40 : UInt64).toNat ≤ (50 : UInt64).toNat by decide) 0 (fun _ _ => 0)
  obtain ⟨m2, q, _, after2, onGpt2, slots2, first, last⟩ := create_lowest works rfl roomy 0
    (show (60 : UInt64).toNat ≤ (70 : UInt64).toNat by decide) 0 onGpt1 (k := 1) (by decide) (by rw [slots1]; rfl)
    (fun j less => by rw [Nat.lt_one_iff.mp less, slots1]; exact some_ne_none p)
  obtain ⟨m3, run3, onGpt3, slots3⟩ := onGpt2.delete_slots works rfl large 0 (show 0 < 128 by decide)
  have reach : PartReachable gptDisk 0 m3 := by
    have after3 : (PartCall.delete 0).after gptDisk 0 m2 = m3 := by
      rw [PartCall.after, PartCall.perform, show (0 : UInt32).toNat = 0 from rfl, run_bind_ok run3]
      rfl
    exact after3 ▸ PartReachable.call (after2 ▸ (after1 ▸ start.call _).call _) _
  have left : tableSlots gptDisk m3 = update (fun _ => none) 1 (some q) := by
    rw [slots3, foldSlots_large roomy, slots2, slots1]
    funext k
    rcases k with _ | _ | k <;> rfl
  have single : slotReports gptDisk m3 = [(1, q)] := by
    rw [slotReports, left, reports_single (by decide)]
  obtain ⟨m4, run4, onGpt4, slots4⟩ := onGpt3.delete_slots works rfl large 0 (show 0 < 128 by decide)
  have same : slotReports gptDisk m4 = [(1, q)] := by
    have idle : update (tableSlots gptDisk m3) 0 none = tableSlots gptDisk m3 := by
      refine update_eq_self_iff.mpr ?_
      rw [left]
      rfl
    rw [slotReports, slots4, foldSlots_large roomy, idle, ← slotReports, single]
  have lists3 := lists_of_header works rfl (by decide) 0 fun _ => ⟨onGpt3, large⟩
  have lists4 := lists_of_header works rfl (by decide) 0 fun _ => ⟨onGpt4, large⟩
  rw [Lists, single] at lists3
  rw [Lists, same] at lists4
  refine ⟨m3, m4, q, reach, lists3, by rw [first, last]; rfl, run4, lists4, ?_⟩
  rintro ⟨exact, _⟩
  have ours := (reach.ours works (by decide)).2.2
  have keys := (exact.keys works rfl (by decide) 0 ours (by rw [single]; exact Nat.one_pos)).1
  rw [single] at keys
  exact absurd keys (by simp [range_succ])

end CanBoot
