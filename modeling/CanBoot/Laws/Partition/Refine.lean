import CanBoot.Laws.Partition.Valid
import CanBoot.Laws.Partition.Edits
import Mathlib.Data.List.FinRange

/-!
# A GPT as an array of slots

What a caller edits is an array of 128 slots, each empty or with its blocks and a short name (`SlotArray`): a creation
fills the lowest empty slot, a deletion empties one, a resize moves an end, and the list is the slots in use. The table
on the disk `Represents` such an array. One call on the disk answers as the array does and leaves a disk that represents
what the array became (`Represents.step`), so any sequence of calls does (`gpt_refines_slots`).

A reported size is computed in 64 bits: the slot that spans every block number reports zero.
-/

namespace CanBoot

open Lib Lib.Prog Function List Option

/-- A partition, as the array holds it. -/
structure GptSlot where
  start : UInt64
  stop : UInt64
  name : List UInt8
  ordered : start ≤ stop
  short : name.length ≤ 35
  text : ∀ c ∈ name, c ≠ 0

/-- What a table holds for it. -/
def GptSlot.raw (s : GptSlot) : RawSlot := ⟨gptTypeBasicData, s.start.toNat, s.stop.toNat, s.name.map UInt8.toNat⟩

/-- How it is reported: with the blocks counted in 64 bits, and a question mark for every byte that is not ASCII. -/
def GptSlot.report (s : GptSlot) : Partition where
  startLba := s.start.toNat
  endLba := s.stop.toNat
  sizeLba := (s.stop.toNat - s.start.toNat + 1) % 18446744073709551616
  typeMbr := 0
  typeGpt := gptTypeBasicData
  name := s.name.map fun c => if c < 0x80 then c else 63
  bootableMbr := false
  scheme := .gpt

/-- The array a GPT stands for. -/
abbrev SlotArray := Fin 128 → Option GptSlot

/-- A call to a partition table: one that edits it, or the list. -/
inductive SlotCall where
  | edit (call : PartCall)
  | list (max : UInt32)

/-- What a call answers: a number or `-1`, or partitions. -/
inductive SlotAnswer where
  | code (r : Option Nat)
  | parts (ps : List Partition)

namespace SlotArray

/-- The lowest slot that is empty. -/
def lowest (t : SlotArray) : Option (Fin 128) := (List.finRange 128).find? fun k => (t k).isNone

/-- An edit of the array: the answer, and the array it leaves. -/
def edit (t : SlotArray) : PartCall → Option Nat × SlotArray
  | .create start stop _ name =>
    if ordered : start ≤ stop then
      match t.lowest with
      | none => (none, t)
      | some k => (some k, update t k (some {
          start, stop, ordered, name := storedName name
          short := List.length_take_le _ _
          text := fun _ => storedName_nonzero }))
    else (none, t)
  | .delete idx => if small : idx.toNat < 128 then (some 0, update t ⟨idx.toNat, small⟩ none) else (none, t)
  | .resize idx stop =>
    if small : idx.toNat < 128 then
      match t ⟨idx.toNat, small⟩ with
      | none => (none, t)
      | some s =>
        if ordered : s.start ≤ stop then
          (some 0, update t ⟨idx.toNat, small⟩ (some { s with stop, ordered }))
        else (none, t)
    else (none, t)

/-- The first `max` slots in use, as they are reported. -/
def list (t : SlotArray) (max : Nat) : List Partition := (((List.finRange 128).filterMap t).take max).map GptSlot.report

/-- A call on the array. -/
def perform (t : SlotArray) : SlotCall → SlotAnswer × SlotArray
  | .edit call => (.code (t.edit call).1, (t.edit call).2)
  | .list max => (.parts (t.list max.toNat), t)

/-- What a sequence of calls answers. -/
def answers (t : SlotArray) : List SlotCall → List SlotAnswer
  | [] => []
  | call :: calls => (t.perform call).1 :: answers (t.perform call).2 calls

/-- The array a sequence of calls leaves. -/
def after (t : SlotArray) (calls : List SlotCall) : SlotArray := calls.foldl (fun t call => (t.perform call).2) t

end SlotArray

/-- A sequence of calls on a disk, what they answer, and the disk they leave. A call that answers `-1` changes nothing,
and neither does a list. -/
inductive Answers (d : Disk) (fuel : Nat) : Media → List SlotCall → List SlotAnswer → Media → Prop where
  | done (m : Media) : Answers d fuel m [] [] m
  | returns {m m' m'' : Media} {call : PartCall} {r : Nat} {calls answers}
      (run : (call.perform d).run fuel m = .ok r m') (rest : Answers d fuel m' calls answers m'') :
      Answers d fuel m (.edit call :: calls) (.code (some r) :: answers) m''
  | fails {m m'' : Media} {call : PartCall} {calls answers}
      (run : (call.perform d).run fuel m = .err m) (rest : Answers d fuel m calls answers m'') :
      Answers d fuel m (.edit call :: calls) (.code none :: answers) m''
  | lists {m m'' : Media} {max : UInt32} {ps : List Partition} {calls answers}
      (run : (canbootPartList d max.toNat).run fuel m = .ok ps m) (rest : Answers d fuel m calls answers m'') :
      Answers d fuel m (.list max :: calls) (.parts ps :: answers) m''

/-- The disk carries our header, and the table behind it holds the array. -/
structure Represents (d : Disk) (m : Media) (t : SlotArray) : Prop where
  onGpt : OnGpt d m
  slots : ∀ k : Fin 128, rawSlot (tableAt m 2) (128 * k) = (t k).map GptSlot.raw

/-! ## Tables -/

theorem report_raw (s : GptSlot) : s.raw.report = s.report := by
  have shown : (s.name.map UInt8.toNat).map (fun c => if c < 0x80 then UInt8.ofNat c else (63 : UInt8)) =
      s.name.map fun c => if c < 0x80 then c else 63 := by
    rw [List.map_map]
    refine map_congr_left fun c _ => ?_
    show (if c.toNat < 128 then UInt8.ofNat c.toNat else 63) = _
    rw [UInt8.ofNat_toNat]
    rfl
  rw [RawSlot.report, GptSlot.report]
  simp only [GptSlot.raw, shown, sub64_of_le s.stop.toNat_lt (UInt64.le_iff_toNat_le.mp s.ordered)]
  rfl

theorem range_eq_finRange (n : Nat) : range n = (finRange n).map Fin.val := by
  rw [map_coe_finRange_eq_range]

section Steps

variable {d : Disk} (works : d.Works) (block : d.blockSize = 512) (roomy : 67 ≤ d.blockCount) (fuel : Nat)
  {m : Media} {t : SlotArray}

include roomy in
/-- Writing the pair with one entry changed writes one slot. -/
theorem Represents.update (rep : Represents d m t) {tbl : Buf} {k : Fin 128} {s : Option GptSlot}
    (out : ∀ i, i < 128 * k.val ∨ 128 * k.val + 128 ≤ i → tbl i = tableAt m 2 i)
    (entry : rawSlot tbl (128 * k) = s.map GptSlot.raw) :
    Represents d (pairMedia d.blockCount tbl m) (update t k s) := by
  refine ⟨onGpt_pairMedia (by omega) tbl m, fun j => ?_⟩
  have table : ∀ i, i < 16384 → tableAt (pairMedia d.blockCount tbl m) 2 i = tbl i := fun i hi => by
    rw [pairMedia_table (by omega) tbl m hi, mirrored_large tbl roomy hi]
  have written : rawSlot (tableAt (pairMedia d.blockCount tbl m) 2) (128 * j) = rawSlot tbl (128 * j) :=
    rawSlot_congr fun i hi => table _ (by omega)
  rw [written]
  by_cases hit : j = k
  · subst hit
    rw [update_self, entry]
  · rw [update_of_ne hit, ← rep.slots j]
    have apart : j.val ≠ k.val := fun same => hit (Fin.ext same)
    exact rawSlot_congr fun i hi => out _ (by omega)

/-- A slot is empty where its entry is. -/
theorem Represents.isNone (rep : Represents d m t) (k : Fin 128) :
    (t k).isNone = GptEntry.isEmpty (tableAt m 2) (128 * k) := by
  have slot := rep.slots k
  rw [rawSlot] at slot
  split at slot
  · next empty => rw [empty, map_eq_none_iff.mp slot.symm]; rfl
  · next used =>
    obtain ⟨s, holds, -⟩ := map_eq_some_iff.mp slot.symm
    rw [holds, (Bool.not_eq_true _).mp used]
    rfl

/-- `canboot_part_create` finds the lowest empty slot. -/
theorem Represents.lowest (rep : Represents d m t) :
    ((range 128).find? fun i => GptEntry.isEmpty (tableAt m 2) (128 * i)) = t.lowest.map Fin.val := by
  rw [range_eq_finRange, find?_map, SlotArray.lowest]
  congr 2
  funext k
  exact (rep.isNone k).symm

/-- The disk answers a call as the array does. -/
def Edited (d : Disk) (fuel : Nat) (m : Media) (t : SlotArray) (call : PartCall) : Prop :=
  match (t.edit call).1 with
  | none => (call.perform d).run fuel m = .err m ∧ (t.edit call).2 = t
  | some r => ∃ m', (call.perform d).run fuel m = .ok r m' ∧ Represents d m' (t.edit call).2

include works block roomy

section

variable (rep : Represents d m t)

include rep

theorem Represents.create (start stop : UInt64) (type : UInt8) (name : Option (List UInt8)) :
    Edited d fuel m t (.create start stop type name) := by
  have run := rep.onGpt.run_create works block (by omega) fuel start.toNat stop.toNat type name
  simp only [Edited, PartCall.perform, SlotArray.edit]
  by_cases ordered : start ≤ stop
  · rw [if_pos (UInt64.le_iff_toNat_le.mp ordered), rep.onGpt.run_createGpt works block (by omega), rep.lowest] at run
    rw [dif_pos ordered]
    cases low : t.lowest with
    | none =>
      rw [low] at run
      exact ⟨run, rfl⟩
    | some k =>
      rw [low] at run
      refine ⟨_, run, rep.update roomy (fun i out => gptNewEntry_of_out _ _ out) ?_⟩
      rw [rawSlot_gptNewEntry _ _ _ start.toNat_lt stop.toNat_lt]
      rfl
  · rw [if_neg fun le => ordered (UInt64.le_iff_toNat_le.mpr le)] at run
    rw [dif_neg ordered]
    exact ⟨run, rfl⟩

theorem Represents.delete (idx : UInt32) : Edited d fuel m t (.delete idx) := by
  have run := rep.onGpt.run_delete works block (by omega) fuel idx.toNat
  simp only [Edited, PartCall.perform, SlotArray.edit]
  by_cases small : idx.toNat < 128
  · rw [if_pos small] at run
    rw [dif_pos small]
    refine ⟨_, run_bind_ok run _, rep.update roomy (k := ⟨idx.toNat, small⟩) (fun i out => ?_) ?_⟩
    · exact putBytes_of_out _ _ (by rw [length_replicate]; exact out)
    · exact rawSlot_cleared _ _
  · rw [if_neg small] at run
    rw [dif_neg small]
    exact ⟨run_bind_err run _, rfl⟩

theorem Represents.resize (idx : UInt32) (stop : UInt64) : Edited d fuel m t (.resize idx stop) := by
  have run := rep.onGpt.run_resize works block (by omega) fuel idx.toNat stop.toNat
  simp only [Edited, PartCall.perform, SlotArray.edit]
  by_cases small : idx.toNat < 128
  · have none := rep.isNone ⟨idx.toNat, small⟩
    have slot := rep.slots ⟨idx.toNat, small⟩
    rw [dif_pos small]
    cases holds : t ⟨idx.toNat, small⟩ with
    | none =>
      rw [holds] at none
      rw [if_neg (by rw [← none]; rintro ⟨-, full, -⟩; cases full)] at run
      exact ⟨run_bind_err run _, rfl⟩
    | some s =>
      rw [holds] at none slot
      have first : GptEntry.startLba (tableAt m 2) (128 * idx.toNat) = s.start.toNat := by
        rw [rawSlot, ← none, isNone_some, if_neg (by decide), map_some, some_inj] at slot
        exact congrArg RawSlot.start slot
      by_cases ordered : s.start ≤ stop
      · rw [if_pos ⟨small, none.symm, by rw [first]; exact UInt64.le_iff_toNat_le.mp ordered⟩] at run
        simp only [dif_pos ordered]
        refine ⟨_, run_bind_ok run _, rep.update roomy (k := ⟨idx.toNat, small⟩) (fun i out => ?_) ?_⟩
        · exact putLe64_of_out _ _ (by dsimp only at out; omega)
        rw [rawSlot_resized stop.toNat_lt, slot]
        rfl
      · rw [if_neg (by rw [first]; rintro ⟨-, -, le⟩; exact ordered (UInt64.le_iff_toNat_le.mpr le))] at run
        simp only [dif_neg ordered]
        exact ⟨run_bind_err run _, trivial⟩
  · rw [if_neg fun h => small h.1] at run
    rw [dif_neg small]
    exact ⟨run_bind_err run _, rfl⟩

/-- **One edit**: the disk answers as the array does. -/
theorem Represents.edit (call : PartCall) : Edited d fuel m t call := by
  cases call with
  | create start stop type name => exact rep.create works block roomy fuel start stop type name
  | delete idx => exact rep.delete works block roomy fuel idx
  | resize idx stop => exact rep.resize works block roomy fuel idx stop

/-- The list is the array's. -/
theorem Represents.list (max : Nat) : (canbootPartList d max).run fuel m = .ok (t.list max) m := by
  have entries : ((range 128).filterMap fun k => gptPartition (tableAt m 2) (128 * k)) =
      ((finRange 128).filterMap t).map GptSlot.report := by
    rw [range_eq_finRange, filterMap_map, map_filterMap]
    refine filterMap_congr fun k _ => ?_
    show gptPartition (tableAt m 2) (128 * k) = _
    rw [gptPartition_eq, rep.slots k, Option.map_map]
    congr 1
    funext s
    exact report_raw s
  rw [rep.onGpt.run_list works block (by omega), entries, SlotArray.list, map_take]

end

/-- **A run**: from a disk that holds an array, the calls answer as the array does. -/
theorem Represents.run (calls : List SlotCall) : ∀ {m : Media} {t : SlotArray}, Represents d m t →
    ∃ m', Answers d fuel m calls (t.answers calls) m' ∧ Represents d m' (t.after calls) := by
  induction calls with
  | nil => exact fun {m t} rep => ⟨m, .done m, rep⟩
  | cons call calls ih =>
    intro m t rep
    cases call with
    | list max =>
      obtain ⟨m', answers, rep'⟩ := ih rep
      exact ⟨m', .lists (rep.list works block roomy fuel max.toNat) answers, rep'⟩
    | edit call =>
      have step := rep.edit works block roomy fuel call
      simp only [SlotArray.answers, SlotArray.perform, SlotArray.after, foldl_cons]
      cases code : (t.edit call).1 with
      | none =>
        rw [Edited, code] at step
        rw [step.2]
        obtain ⟨m', answers, rep'⟩ := ih rep
        exact ⟨m', .fails step.1 answers, rep'⟩
      | some r =>
        rw [Edited, code] at step
        obtain ⟨m₁, run, rep₁⟩ := step
        obtain ⟨m', answers, rep'⟩ := ih rep₁
        exact ⟨m', .returns run answers, rep'⟩

omit works block in
/-- A fresh GPT is the empty array. -/
theorem represents_freshGpt (m : Media) : Represents d (freshGpt d.blockCount m) (fun _ => none) := by
  refine ⟨onGpt_freshGpt (by omega) m, fun k => ?_⟩
  have table : ∀ i, i < 16384 → tableAt (freshGpt d.blockCount m) 2 i = 0 := fun i hi => by
    rw [freshGpt, pairMedia_table (by omega) _ _ hi, mirrored_large _ roomy hi]
  apply rawSlot_of_empty
  rw [GptEntry.isEmpty, List.all_eq_true]
  intro x hx
  obtain ⟨i, hi, rfl⟩ := List.mem_map.mp hx
  have small := mem_range.mp hi
  rw [table _ (by omega)]
  rfl

end Steps

/-- **A GPT is an array of 128 slots**: after `canboot_part_init_gpt`, whatever is called, every answer is the array's,
and the table holds what the array became. -/
theorem gpt_refines_slots {d : Disk} (works : d.Works) (block : d.blockSize = 512) (large : 68 ≤ d.blockCount)
    (fuel : Nat) (m : Media) (calls : List SlotCall) : ∃ m₀ m', (canbootPartInitGpt d).run fuel m = .ok () m₀ ∧
      Answers d fuel m₀ calls (SlotArray.answers (fun _ => none) calls) m' ∧
      Represents d m' (SlotArray.after (fun _ => none) calls) := by
  obtain ⟨m', answers, rep⟩ :=
    Represents.run works block (by omega) fuel calls (represents_freshGpt (by omega) m)
  exact ⟨_, m', run_canbootPartInitGpt works block (by omega) fuel, answers, rep⟩

/-- A partition is created, moved, listed and deleted. -/
theorem gpt_refines_slots_moved : ∃ m₀ m', (canbootPartInitGpt gptDisk).run 0 (fun _ _ => 0) = .ok () m₀ ∧
      Answers gptDisk 0 m₀ [.edit (.create 40 50 0 none), .edit (.resize 0 60), .list 1, .edit (.delete 0)]
        (SlotArray.answers (fun _ => none)
          [.edit (.create 40 50 0 none), .edit (.resize 0 60), .list 1, .edit (.delete 0)]) m' ∧
      Represents gptDisk m' (SlotArray.after (fun _ => none)
        [.edit (.create 40 50 0 none), .edit (.resize 0 60), .list 1, .edit (.delete 0)]) :=
  gpt_refines_slots gptDisk_works rfl (by decide) 0 _ _

theorem SlotArray.list_one {t : SlotArray} {s : GptSlot} (first : t 0 = some s) : t.list 1 = [s.report] := by
  rw [SlotArray.list, finRange_succ, filterMap_cons_some first]
  rfl

/-- A partition of all block numbers is created and listed with no blocks in it. -/
theorem gpt_reports_wrapped_size : ∃ m₀ m₁ p, (canbootPartInitGpt gptDisk).run 0 (fun _ _ => 0) = .ok () m₀ ∧
      (canbootPartCreate gptDisk 0 18446744073709551615 0 none).run 0 m₀ = .ok 0 m₁ ∧
      (canbootPartList gptDisk 1).run 0 m₁ = .ok [p] m₁ ∧ p.startLba = 0 ∧ p.endLba = 18446744073709551615 ∧
      p.sizeLba ≠ p.endLba - p.startLba + 1 := by
  have fresh := represents_freshGpt (d := gptDisk) (by decide) (fun _ _ => 0)
  have low : SlotArray.lowest (fun _ => none) = some 0 := by
    rw [SlotArray.lowest, finRange_succ]
    rfl
  have step := fresh.create gptDisk_works rfl (by decide) 0 0 18446744073709551615 0 none
  simp only [Edited, SlotArray.edit, low] at step
  rw [dif_pos (by decide)] at step
  obtain ⟨m₁, run, rep⟩ := step
  have listed := rep.list gptDisk_works rfl (by decide) 0 1
  rw [SlotArray.list_one (update_self ..)] at listed
  have top : (18446744073709551615 : UInt64).toNat = 18446744073709551615 := by decide
  rw [PartCall.perform, top, UInt64.toNat_zero, Fin.val_zero] at run
  have init := run_canbootPartInitGpt gptDisk_works rfl (by decide) 0 (m := fun _ _ => 0)
  rw [← freshGpt] at init
  refine ⟨_, m₁, _, init, run, listed, rfl, top, ?_⟩
  simp only [GptSlot.report, top]
  decide

end CanBoot
