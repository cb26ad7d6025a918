import CanBoot.Laws.Partition.Gpt
import Mathlib.Data.List.Find

/-!
# The edits of a GPT

The three calls that edit a partition table, as data, and what each does on a medium that carries a
canonical header. A call either answers `-1` and leaves the medium, or ends in one `write_gpt_pair` of
the table it read with one entry changed.
-/

namespace CanBoot

open Lib Lib.Prog List

/-- A call that edits the partition table, with the arguments of its C types. -/
inductive PartCall where
  | create (start stop : UInt64) (type : UInt8) (name : Option (List UInt8))
  | delete (idx : UInt32)
  | resize (idx : UInt32) (stop : UInt64)

namespace PartCall

/-- The call, with the `int` it returns. -/
def perform (d : Disk) : PartCall → Prog Media Nat
  | create start stop type name => canbootPartCreate d start.toNat stop.toNat type name
  | delete idx => do
    canbootPartDelete d idx.toNat
    pure 0
  | resize idx stop => do
    canbootPartResize d idx.toNat stop.toNat
    pure 0

/-- The medium a call leaves, whatever it returns. -/
def after (d : Disk) (fuel : Nat) (m : Media) (call : PartCall) : Media :=
  ((call.perform d).run fuel m).after m

/-- The medium a sequence of calls leaves. -/
def afterAll (d : Disk) (fuel : Nat) (m : Media) (calls : List PartCall) : Media :=
  calls.foldl (after d fuel) m

end PartCall

/-! ## An entry of the table -/

/-- An entry test on what was read is one on the medium. -/
theorem isEmpty_congr {tbl tbl' : Buf} (same : ∀ i, i < 16384 → tbl i = tbl' i) {k : Nat}
    (hk : k < 128) : GptEntry.isEmpty tbl (128 * k) = GptEntry.isEmpty tbl' (128 * k) := by
  rw [GptEntry.isEmpty, GptEntry.isEmpty, bytesAt_congr fun i _ => same _ (by omega)]

/-- What an entry in use holds: its type, its blocks, and the units of its name up to the first zero. -/
structure RawSlot where
  type : List UInt8
  start : Nat
  stop : Nat
  units : List Nat

/-- The entry at an offset of the table, if it is in use. -/
def rawSlot (tbl : Buf) (off : Nat) : Option RawSlot :=
  if GptEntry.isEmpty tbl off then none
  else some {
    type := bytesAt tbl off 16
    start := GptEntry.startLba tbl off
    stop := GptEntry.endLba tbl off
    units := ((List.range 36).map fun k => le16 tbl (off + 56 + 2 * k)).takeWhile (· ≠ 0) }

/-- The record `list_gpt` makes of an entry. -/
def RawSlot.report (s : RawSlot) : Partition where
  startLba := s.start
  endLba := s.stop
  sizeLba := u64 (sub64 s.stop s.start + 1)
  typeMbr := 0
  typeGpt := s.type
  name := s.units.map fun c => if c < 0x80 then UInt8.ofNat c else 63
  bootableMbr := false
  scheme := .gpt

theorem gptPartition_eq (tbl : Buf) (off : Nat) : gptPartition tbl off = (rawSlot tbl off).map RawSlot.report := by
  rw [gptPartition, rawSlot]
  split <;> rfl

/-- An entry is read from its own 128 bytes. -/
theorem rawSlot_congr {tbl tbl' : Buf} {off off' : Nat}
    (same : ∀ i, i < 128 → tbl (off + i) = tbl' (off' + i)) : rawSlot tbl off = rawSlot tbl' off' := by
  have guid : bytesAt tbl off 16 = bytesAt tbl' off' 16 := bytesAt_congr fun i _ => same i (by omega)
  have word16 : ∀ i, i + 2 ≤ 128 → le16 tbl (off + i) = le16 tbl' (off' + i) := by
    intro i hi
    rw [le16, le16, same i (by omega), Nat.add_assoc, Nat.add_assoc, same (i + 1) (by omega)]
  have word32 : ∀ i, i + 4 ≤ 128 → le32 tbl (off + i) = le32 tbl' (off' + i) := by
    intro i hi
    rw [le32, le32, word16 i (by omega), Nat.add_assoc, Nat.add_assoc, word16 (i + 2) (by omega)]
  have word64 : ∀ i, i + 8 ≤ 128 → le64 tbl (off + i) = le64 tbl' (off' + i) := by
    intro i hi
    rw [le64, le64, word32 i (by omega), Nat.add_assoc, Nat.add_assoc, word32 (i + 4) (by omega)]
  have units : ((range 36).map fun k => le16 tbl (off + 56 + 2 * k)) =
      (range 36).map fun k => le16 tbl' (off' + 56 + 2 * k) := by
    refine map_congr_left fun k hk => ?_
    have small := mem_range.mp hk
    rw [Nat.add_assoc, Nat.add_assoc, word16 _ (by omega)]
  rw [rawSlot, rawSlot, GptEntry.isEmpty, GptEntry.isEmpty, GptEntry.startLba,
    GptEntry.startLba, GptEntry.endLba, GptEntry.endLba, guid, units, word64 32 (by omega),
    word64 40 (by omega)]

theorem gptPartition_congr {tbl tbl' : Buf} {off off' : Nat} (same : ∀ i, i < 128 → tbl (off + i) = tbl' (off' + i)) :
    gptPartition tbl off = gptPartition tbl' off' := by
  rw [gptPartition_eq, gptPartition_eq, rawSlot_congr same]

theorem gptNewEntry_congr {tbl tbl' : Buf} {off i start stop j : Nat} {name : Option (List UInt8)}
    (same : tbl j = tbl' j) : gptNewEntry tbl off i start stop name j = gptNewEntry tbl' off i start stop name j := by
  cases name with
  | none =>
    exact putBytes_congr _ (putLe64_congr (putLe64_congr (putLe64_congr (putLe64_congr (putLe64_congr
      (putBytes_congr _ same))))))
  | some s =>
    exact putBytes_congr _ (putBytes_congr _ (putLe64_congr (putLe64_congr (putLe64_congr
      (putLe64_congr (putLe64_congr (putBytes_congr _ same)))))))

theorem run_tableSectors {d : Disk} (block : d.blockSize = 512) (fuel : Nat) (m : Media) :
    (tableSectors d).run fuel m = .ok 32 m := by
  rw [tableSectors, block]
  rfl

section OnGpt

variable {d : Disk} (works : d.Works) (block : d.blockSize = 512) (large : 64 ≤ d.blockCount) (fuel : Nat) {m : Media}

include works block large

/-- **`canboot_part_init_gpt`** writes a protective MBR and an empty pair. -/
theorem run_canbootPartInitGpt : (canbootPartInitGpt d).run fuel m =
      .ok () (pairMedia d.blockCount (fun _ => 0) (setBlocks 0 1 (protectiveMbr d.blockCount) m)) := by
  rw [canbootPartInitGpt, bind_require_true works.writable, bind_require_true (by simp [block]),
    bind_require_true (by simp [large]),
    run_bind_ok (run_writeLba block fuel m works (by omega) _),
    run_bind_ok (run_tableSectors block fuel _),
    run_writeGptPair works block large fuel _ (canonical_freshHeader _)]

variable (onGpt : OnGpt d m)

include onGpt

theorem OnGpt.run_header : (readGptHeader d).run fuel m = .ok (headerStruct (m 1)) m := by
  rw [run_readGptHeader block, if_pos (onGpt.hasHeader (works.serves.reads 1 1 (by omega)))]

omit block in
theorem OnGpt.schemeOf : schemeOf d m = .gpt :=
  if_pos (onGpt.hasHeader (works.serves.reads 1 1 (by omega)))

theorem OnGpt.run_detect : (canbootPartDetect d).run fuel m = .ok .gpt m := by
  rw [run_canbootPartDetect block fuel m (works.serves.reads 0 1 (by omega)), onGpt.schemeOf works large]

theorem OnGpt.run_table : ∃ tbl, (readGptTable d (headerStruct (m 1))).run fuel m = .ok tbl m ∧
      ∀ i, i < 16384 → tbl i = tableAt m 2 i := by
  have canonical := onGpt.canonical
  obtain ⟨tbl, run, bytes⟩ :=
    run_readBlocks block fuel m (works.serves.reads 2 32 (by omega))
  refine ⟨tbl, ?_, bytes⟩
  have sectors : (min (u32 (128 * 128)) gptTblBytes + 512 - 1) / 512 = 32 := by decide
  simp only [readGptTable, canonical.entryCount, canonical.entrySize, canonical.tableLba, block]
  rw [run_bind_ok (run_divide_pos (by decide) _ _), sectors, bind_defined_true (by decide), run]

theorem OnGpt.run_createGpt (start stop : Nat) (name : Option (List UInt8)) : (createGpt d start stop name).run fuel m =
      match (range 128).find? fun i => GptEntry.isEmpty (tableAt m 2) (128 * i) with
      | none => .err m
      | some i => .ok i (pairMedia d.blockCount
          (gptNewEntry (tableAt m 2) (128 * i) i start stop name) m) := by
  have canonical := onGpt.canonical
  obtain ⟨tbl, run, bytes⟩ := onGpt.run_table works block large fuel
  rw [createGpt, run_bind_ok (onGpt.run_header works block large fuel),
    run_bind_ok (run_tableSectors block fuel m), run_bind_ok run, canonical.entryCount]
  have search : ((range 128).find? fun i =>
        GptEntry.isEmpty tbl (GptHeader.entryAt (headerStruct (m 1)) i)) =
      (range 128).find? fun i => GptEntry.isEmpty (tableAt m 2) (128 * i) := by
    refine List.find?_congr fun i hi => ?_
    have small := mem_range.mp hi
    rw [canonical.entryAt small, isEmpty_congr bytes small]
  rw [search]
  cases hit : (range 128).find? fun i => GptEntry.isEmpty (tableAt m 2) (128 * i) with
  | none => rfl
  | some i =>
    have small := mem_range.mp (mem_of_find?_eq_some hit)
    simp only
    rw [canonical.entryAt small, run_bind_ok (run_writeGptPair works block large fuel m canonical _),
      pairMedia_congr _ _ fun j hj => gptNewEntry_congr (bytes j hj)]
    rfl

/-- **`canboot_part_create`** on a GPT fills the first empty slot. -/
theorem OnGpt.run_create (start stop : Nat) (type : UInt8) (name : Option (List UInt8)) :
    (canbootPartCreate d start stop type name).run fuel m =
      if start ≤ stop then (createGpt d start stop name).run fuel m else .err m := by
  rw [canbootPartCreate, bind_require_true works.writable]
  by_cases order : start ≤ stop
  · rw [bind_require_true (by simp [order]), run_bind_ok (onGpt.run_detect works block large fuel), if_pos order]
  · rw [bind_require_false (by simp [order]), if_neg order]

/-- **`canboot_part_delete`** on a GPT clears the slot of that number. -/
theorem OnGpt.run_delete (idx : Nat) : (canbootPartDelete d idx).run fuel m = if idx < 128 then
        .ok () (pairMedia d.blockCount
          (putBytes (tableAt m 2) (128 * idx) (replicate 128 0)) m)
      else .err m := by
  have canonical := onGpt.canonical
  obtain ⟨tbl, run, bytes⟩ := onGpt.run_table works block large fuel
  rw [canbootPartDelete, bind_require_true works.writable, run_bind_ok (onGpt.run_detect works block large fuel)]
  simp only
  rw [run_bind_ok (onGpt.run_header works block large fuel), canonical.entryCount]
  by_cases small : idx < 128
  · rw [bind_require_true (by simp [small]), run_bind_ok (run_tableSectors block fuel m), run_bind_ok run, if_pos small,
      canonical.entryAt small, run_writeGptPair works block large fuel m canonical,
      pairMedia_congr _ _ fun j hj => putBytes_congr _ (bytes j hj)]
  · rw [bind_require_false (by simp [small]), if_neg small]

/-- **`canboot_part_resize`** on a GPT moves the end of the entry in that slot. -/
theorem OnGpt.run_resize (idx stop : Nat) : (canbootPartResize d idx stop).run fuel m =
      if idx < 128 ∧ GptEntry.isEmpty (tableAt m 2) (128 * idx) = false ∧
          GptEntry.startLba (tableAt m 2) (128 * idx) ≤ stop then
        .ok () (pairMedia d.blockCount (putLe64 (tableAt m 2) (128 * idx + 40) stop) m)
      else .err m := by
  have canonical := onGpt.canonical
  obtain ⟨tbl, run, bytes⟩ := onGpt.run_table works block large fuel
  rw [canbootPartResize, bind_require_true works.writable, run_bind_ok (onGpt.run_detect works block large fuel)]
  simp only
  rw [run_bind_ok (onGpt.run_header works block large fuel), canonical.entryCount]
  by_cases small : idx < 128
  · have start : GptEntry.startLba tbl (128 * idx) = GptEntry.startLba (tableAt m 2) (128 * idx) :=
      le64_congr fun i _ _ => bytes i (by omega)
    rw [bind_require_true (by simp [small]), run_bind_ok (run_tableSectors block fuel m), run_bind_ok run]
    simp only [canonical.entryAt small, isEmpty_congr bytes small, start]
    by_cases used : GptEntry.isEmpty (tableAt m 2) (128 * idx) = false
    · rw [bind_require_true (by rw [used]; rfl)]
      by_cases order : GptEntry.startLba (tableAt m 2) (128 * idx) ≤ stop
      · rw [bind_require_true (by simp [order]),
          run_writeGptPair works block large fuel m canonical, if_pos ⟨small, used, order⟩,
          pairMedia_congr _ _ fun j hj => putLe64_congr (bytes j hj)]
      · rw [bind_require_false (by simp [order]), if_neg fun h => order h.2.2]
    · rw [bind_require_false (by simpa using used), if_neg fun h => used h.2.1]
  · rw [bind_require_false (by simp [small]), if_neg fun h => small h.1]

/-- Listing a GPT reports the entries of the table on the medium. -/
theorem OnGpt.run_list (max : Nat) : (canbootPartList d max).run fuel m =
      .ok (((range 128).filterMap fun k => gptPartition (tableAt m 2) (128 * k)).take max) m := by
  have canonical := onGpt.canonical
  obtain ⟨tbl, run, bytes⟩ := onGpt.run_table works block large fuel
  rw [canbootPartList, run_bind_ok (onGpt.run_detect works block large fuel)]
  simp only [listGpt]
  rw [run_bind_ok (onGpt.run_header works block large fuel), run_bind_ok run, canonical.entryCount]
  have entries : ((range 128).filterMap fun i =>
        gptPartition tbl (GptHeader.entryAt (headerStruct (m 1)) i)) =
      (range 128).filterMap fun k => gptPartition (tableAt m 2) (128 * k) := by
    refine filterMap_congr fun i hi => ?_
    have small := mem_range.mp hi
    rw [canonical.entryAt small]
    exact gptPartition_congr fun j _ => bytes _ (by omega)
  rw [entries]
  rfl

/-- **An edit of a GPT** leaves the medium, or writes the pair once more. -/
theorem OnGpt.after_cases (call : PartCall) :
    call.after d fuel m = m ∨ ∃ tbl, call.after d fuel m = pairMedia d.blockCount tbl m := by
  cases call with
  | create start stop type name =>
    rw [PartCall.after, PartCall.perform, onGpt.run_create works block large]
    by_cases order : start.toNat ≤ stop.toNat
    · rw [if_pos order, onGpt.run_createGpt works block large]
      split
      · exact .inl rfl
      · exact .inr ⟨_, rfl⟩
    · rw [if_neg order]
      exact .inl rfl
  | delete idx =>
    have run := onGpt.run_delete works block large fuel idx.toNat
    rw [PartCall.after, PartCall.perform]
    by_cases small : idx.toNat < 128
    · rw [if_pos small] at run
      rw [run_bind_ok run]
      exact .inr ⟨_, rfl⟩
    · rw [if_neg small] at run
      rw [run_bind_err run]
      exact .inl rfl
  | resize idx stop =>
    have run := onGpt.run_resize works block large fuel idx.toNat stop.toNat
    rw [PartCall.after, PartCall.perform]
    split at run
    · rw [run_bind_ok run]
      exact .inr ⟨_, rfl⟩
    · rw [run_bind_err run]
      exact .inl rfl

end OnGpt

end CanBoot
