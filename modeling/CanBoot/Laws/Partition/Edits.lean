import Mathlib.Data.List.GetD
import Mathlib.Data.List.TakeWhile
import CanBoot.Laws.Partition.Table

/-!
# What an edit does to the slots

Each edit rewrites one slot of the table and leaves the others. On a GPT disk of fewer than 67 blocks
the mirror then overwrites the last slots of the table with the first ones (`foldSlots`).
-/

namespace CanBoot

open Lib Function List Nat Option MbrEntry

/-- A partition with another end. -/
def Partition.resized (p : Partition) (stop : Nat) : Partition :=
  { p with endLba := stop, sizeLba := u64 (stop - p.startLba + 1) }

/-! ## One entry of a GPT -/

/-- The slots of a GPT's table. -/
def gptSlots (tbl : Buf) (k : Nat) : Option Partition :=
  if k < 128 then gptPartition tbl (128 * k) else none

variable {tbl : Buf}

theorem gptSlots_congr {tbl' : Buf} (same : ∀ i, i < 16384 → tbl i = tbl' i) : gptSlots tbl = gptSlots tbl' := by
  funext k
  rw [gptSlots, gptSlots]
  split
  · exact gptPartition_congr fun i _ => same _ (by omega)
  · rfl

variable {k : Nat}

/-- Rewriting the 128 bytes of a slot rewrites the slot. -/
theorem gptSlots_update {tbl' : Buf} (small : k < 128) (out : ∀ i, i < 128 * k ∨ 128 * k + 128 ≤ i → tbl' i = tbl i) :
    gptSlots tbl' = update (gptSlots tbl) k (gptPartition tbl' (128 * k)) := by
  funext j
  by_cases hit : j = k
  · subst hit
    rw [update_self, gptSlots, if_pos small]
  · rw [update_of_ne hit, gptSlots, gptSlots]
    split
    · exact gptPartition_congr fun i _ => out _ (by omega)
    · rfl

variable {off : Nat}

theorem gptPartition_of_empty (empty : GptEntry.isEmpty tbl off = true) :
    gptPartition tbl off = none := if_pos empty

theorem gptSlots_eq_none (small : k < 128) : gptSlots tbl k = none ↔ GptEntry.isEmpty tbl (128 * k) = true := by
  rw [gptSlots, if_pos small, gptPartition]
  split
  · next empty => simp [empty]
  · next used => simp [used]

/-- The bytes of a name as UTF-16 units. -/
theorem length_wide (s : Bytes) : (s.flatMap fun c => [c, (0 : UInt8)]).length = 2 * s.length := by
  induction s with
  | nil => rfl
  | cons c s ih =>
    rw [flatMap_cons, length_append, ih]
    simp only [length_cons, length_nil]
    omega

variable {stop start : Nat}

theorem gptNewEntry_of_out (tbl : Buf) {i : Nat} (name : Option (List UInt8))
    (out : i < off ∨ off + 128 ≤ i) : gptNewEntry tbl off k start stop name i = tbl i := by
  have fields : ∀ i, i < off ∨ off + 128 ≤ i →
      gptNewEntry tbl off k start stop none i = tbl i := by
    intro i out
    simp only [gptNewEntry]
    rw [putBytes_of_out _ _ (by rw [length_replicate]; omega)]
    simp (disch := omega) only [putLe64_of_out]
    exact putBytes_of_out _ _ (by rw [show gptTypeBasicData.length = 16 from rfl]; omega)
  cases name with
  | none => exact fields i out
  | some s =>
    have short : (((s.takeWhile (· ≠ 0)).take 35).flatMap fun c => [c, (0 : UInt8)]).length ≤ 70 := by
      have := length_take_le 35 (s.takeWhile (· ≠ 0))
      rw [length_wide]
      omega
    refine (putBytes_of_out _ _ (by omega)).trans (fields i out)

/-- A `memset` to zero, read back. -/
theorem putBytes_zeros (b : Buf) (off : Nat) {n i : Nat} (hi : i < n) :
    putBytes b off (replicate n 0) (off + i) = 0 := by
  rw [putBytes_of_in _ _ (by rw [length_replicate]; exact hi), getD_eq_getElem?_getD,
    getElem?_replicate, if_pos hi]
  rfl

/-- The bytes a name is stored as: at most 35, up to its terminator, and none for a missing one. -/
def storedName (name : Option (List UInt8)) : List UInt8 := ((name.getD []).takeWhile (· ≠ 0)).take 35

theorem storedName_nonzero {name : Option (List UInt8)} {c : UInt8} (mem : c ∈ storedName name) : c ≠ 0 := by
  have kept := mem_takeWhile_imp (mem_of_mem_take mem)
  simpa using kept

theorem getD_wide : ∀ (s : Bytes) (k : Nat),
    (s.flatMap fun c => [c, (0 : UInt8)]).getD (2 * k) 0 = s.getD k 0 ∧
      (s.flatMap fun c => [c, (0 : UInt8)]).getD (2 * k + 1) 0 = 0
  | [], _ => ⟨rfl, rfl⟩
  | _ :: _, 0 => ⟨rfl, rfl⟩
  | _ :: s, k + 1 => getD_wide s k

/-- The units of the stored name, padded with zeros. -/
theorem unit_gptNewEntry (tbl : Buf) (off i start stop : Nat) (name : Option (List UInt8)) (small : k < 36) :
    le16 (gptNewEntry tbl off i start stop name) (off + 56 + 2 * k) = ((storedName name).getD k 0).toNat := by
  -- both branches end in the name written over 72 zeros; a missing name writes nothing
  have written : ∃ t, gptNewEntry tbl off i start stop name =
      putBytes (putBytes t (off + 56) (replicate 72 0)) (off + 56)
        ((storedName name).flatMap fun c => [c, 0]) := by
    cases name with
    | none => exact ⟨_, (putBytes_nil _ _).symm⟩
    | some s => exact ⟨_, rfl⟩
  obtain ⟨t, written⟩ := written
  have byte : ∀ j, j < 72 → gptNewEntry tbl off i start stop name (off + 56 + j) =
      ((storedName name).flatMap fun c => [c, 0]).getD j 0 := by
    intro j hj
    rw [written]
    by_cases inside : j < ((storedName name).flatMap fun c => [c, (0 : UInt8)]).length
    · exact putBytes_of_in _ _ inside
    · rw [putBytes_of_out _ _ (.inr (by omega)), putBytes_zeros _ _ hj, getD_eq_default _ _ (by omega)]
  rw [le16, byte _ (by omega), Nat.add_assoc, byte _ (by omega), (getD_wide _ k).1, (getD_wide _ k).2]
  rfl

/-- The units of a table up to the first zero are the name. -/
theorem takeWhile_units {s : Bytes} (short : s.length ≤ 36) (text : ∀ c ∈ s, c ≠ 0) :
    ((range 36).map fun k => (s.getD k 0).toNat).takeWhile (· ≠ 0) = s.map UInt8.toNat := by
  have padded : ((range 36).map fun k => (s.getD k 0).toNat) =
      s.map UInt8.toNat ++ replicate (36 - s.length) 0 := by
    refine ext_getElem (by simp; omega) fun k low high => ?_
    rw [getElem_map, getElem_range, getElem_append]
    split
    · next inside =>
      rw [length_map] at inside
      rw [getElem_map, getD_eq_getElem _ _ inside]
    · next beyond =>
      rw [length_map] at beyond
      rw [getElem_replicate, getD_eq_default _ _ (by omega)]
      rfl
  have kept : ∀ c ∈ s.map UInt8.toNat, decide (c ≠ 0) = true := by
    intro c mem
    obtain ⟨b, inside, rfl⟩ := List.mem_map.mp mem
    exact decide_eq_true fun zero => text b inside (UInt8.toNat_inj.mp zero)
  rw [padded, takeWhile_append_of_pos kept]
  cases 36 - s.length with
  | zero | succ n => exact append_nil _

/-- The new entry reads back with what it was made with. -/
theorem rawSlot_gptNewEntry (tbl : Buf) (off k : Nat) (hstart : start < 18446744073709551616)
    (hstop : stop < 18446744073709551616) (name : Option (List UInt8)) : rawSlot (gptNewEntry tbl off k start stop name) off =
      some ⟨gptTypeBasicData, start, stop, (storedName name).map UInt8.toNat⟩ := by
  have before : ∀ i, i < off + 56 → gptNewEntry tbl off k start stop name i =
      putLe64 (putLe64 (putLe64 (putLe64 (putLe64 (putBytes tbl off gptTypeBasicData) (off + 16)
        (0x706172742d312300 ||| k)) (off + 24) start) (off + 32) start) (off + 40) stop) (off + 48) 0 i := by
    intro i hi
    cases name with
    | none => exact putBytes_of_out _ _ (.inl hi)
    | some s => exact (putBytes_of_out _ _ (.inl hi)).trans (putBytes_of_out _ _ (.inl hi))
  have guid : bytesAt (gptNewEntry tbl off k start stop name) off 16 = gptTypeBasicData := by
    rw [← bytesAt_putBytes tbl off gptTypeBasicData]
    refine bytesAt_congr fun i hi => ?_
    simp (disch := omega) only [before, putLe64_of_out]
  have used : GptEntry.isEmpty (gptNewEntry tbl off k start stop name) off = false := by
    rw [GptEntry.isEmpty, guid]
    decide
  have first : GptEntry.startLba (gptNewEntry tbl off k start stop name) off = start := by
    rw [GptEntry.startLba, le64_congr fun i _ _ => before i (by omega),
      le64_putLe64_of_ne _ _ (by omega), le64_putLe64_of_ne _ _ (by omega), le64_putLe64,
      mod_eq_of_lt hstart]
  have last : GptEntry.endLba (gptNewEntry tbl off k start stop name) off = stop := by
    rw [GptEntry.endLba, le64_congr fun i _ _ => before i (by omega),
      le64_putLe64_of_ne _ _ (by omega), le64_putLe64, mod_eq_of_lt hstop]
  have units : ((range 36).map fun j =>
        le16 (gptNewEntry tbl off k start stop name) (off + 56 + 2 * j)) =
      (range 36).map fun j => ((storedName name).getD j 0).toNat :=
    map_congr_left fun j hj => unit_gptNewEntry tbl off k start stop name (mem_range.mp hj)
  have short : (storedName name).length ≤ 36 := Nat.le_trans (length_take_le _ _) (by decide)
  rw [rawSlot, if_neg (by rw [used]; decide), guid, first, last, units,
    takeWhile_units short fun c => storedName_nonzero]

theorem gptPartition_gptNewEntry (tbl : Buf) (off k : Nat) (hstart : start < 18446744073709551616)
    (hstop : stop < 18446744073709551616) (name : Option (List UInt8)) :
    ∃ p, gptPartition (gptNewEntry tbl off k start stop name) off = some p ∧ p.startLba = start ∧ p.endLba = stop := by
  rw [gptPartition_eq, rawSlot_gptNewEntry tbl off k hstart hstop]
  exact ⟨_, rfl, rfl, rfl⟩

theorem rawSlot_of_empty (empty : GptEntry.isEmpty tbl off = true) :
    rawSlot tbl off = none := if_pos empty

theorem rawSlot_cleared (tbl : Buf) (off : Nat) : rawSlot (putBytes tbl off (replicate 128 0)) off = none := by
  apply rawSlot_of_empty
  rw [GptEntry.isEmpty, List.all_eq_true]
  intro x hx
  obtain ⟨i, hi, rfl⟩ := List.mem_map.mp hx
  have small := mem_range.mp hi
  rw [putBytes_zeros _ _ (by omega)]
  rfl

theorem gptPartition_cleared (tbl : Buf) (off : Nat) :
    gptPartition (putBytes tbl off (replicate 128 0)) off = none := by
  rw [gptPartition_eq, rawSlot_cleared, map_none]

/-- An entry with its end rewritten. -/
theorem rawSlot_resized (hstop : stop < 18446744073709551616) :
    rawSlot (putLe64 tbl (off + 40) stop) off = (rawSlot tbl off).map fun s => { s with stop := stop } := by
  have guid : bytesAt (putLe64 tbl (off + 40) stop) off 16 = bytesAt tbl off 16 :=
    bytesAt_congr fun i _ => putLe64_of_out _ _ (by omega)
  have first : GptEntry.startLba (putLe64 tbl (off + 40) stop) off = GptEntry.startLba tbl off :=
    le64_putLe64_of_ne _ _ (by omega)
  have last : GptEntry.endLba (putLe64 tbl (off + 40) stop) off = stop := by
    rw [GptEntry.endLba, le64_putLe64, mod_eq_of_lt hstop]
  have units : ((range 36).map fun k => le16 (putLe64 tbl (off + 40) stop) (off + 56 + 2 * k)) =
      (range 36).map fun k => le16 tbl (off + 56 + 2 * k) :=
    map_congr_left fun k _ =>
      le16_congr (putLe64_of_out _ _ (by omega)) (putLe64_of_out _ _ (by omega))
  rw [rawSlot, rawSlot, GptEntry.isEmpty, guid, ← GptEntry.isEmpty, first, last, units]
  split <;> rfl

theorem gptPartition_resized {p : Partition} (entry : gptPartition tbl off = some p) (order : p.startLba ≤ stop)
    (hstop : stop < 18446744073709551616) : gptPartition (putLe64 tbl (off + 40) stop) off = some (p.resized stop) := by
  rw [gptPartition_eq] at entry
  obtain ⟨s, raw, rfl⟩ := map_eq_some_iff.mp entry
  rw [gptPartition_eq, rawSlot_resized hstop, raw, map_some, map_some]
  rw [Partition.resized, ← sub64_of_le hstop order]
  rfl

/-! ## The mirror over the table -/

/-- The slots a reader finds once the mirror of the table has been written as well. -/
def foldSlots (n : Nat) (f : Nat → Option Partition) : Nat → Option Partition := fun k =>
  if 4 * (n - 35) ≤ k ∧ k < 128 then f (k - 4 * (n - 35)) else f k

theorem foldSlots_large {n : Nat} (large : 67 ≤ n) (f : Nat → Option Partition) : foldSlots n f = f := by
  funext k
  exact if_neg (by omega)

theorem foldSlots_none (n : Nat) : foldSlots n (fun _ => none) = fun _ => none := by
  funext k
  exact ite_self _

theorem gptSlots_mirrored (n : Nat) (tbl : Buf) : gptSlots (mirrored n tbl) = foldSlots n (gptSlots tbl) := by
  funext k
  by_cases small : k < 128
  · by_cases high : 4 * (n - 35) ≤ k
    · rw [foldSlots, if_pos ⟨high, small⟩, gptSlots, gptSlots, if_pos small, if_pos (by omega)]
      refine gptPartition_congr fun i hi => ?_
      rw [mirrored, if_pos (by omega)]
      congr 1
      omega
    · rw [foldSlots, if_neg fun h => high h.1, gptSlots, gptSlots, if_pos small, if_pos small]
      exact gptPartition_congr fun i hi => if_neg (by omega)
  · rw [foldSlots, if_neg fun h => small h.2, gptSlots, gptSlots, if_neg small, if_neg small]

section Gpt

variable {d : Disk} (works : d.Works) (large : 64 ≤ d.blockCount) {m : Media}

include works large

theorem OnGpt.tableSlots (onGpt : OnGpt d m) : tableSlots d m = gptSlots (tableAt m 2) := by
  funext k
  rw [CanBoot.tableSlots, onGpt.schemeOf works large]
  rfl

/-- The slots a reader finds after `write_gpt_pair`. -/
theorem tableSlots_pairMedia (tbl : Buf) (m : Media) :
    tableSlots d (pairMedia d.blockCount tbl m) = foldSlots d.blockCount (gptSlots tbl) := by
  rw [(onGpt_pairMedia large tbl m).tableSlots works large, ← gptSlots_mirrored]
  exact gptSlots_congr fun i hi => pairMedia_table large tbl m hi

omit works in
theorem headerOurs_pairMedia (tbl : Buf) (m : Media) : HeaderOurs d (pairMedia d.blockCount tbl m) :=
  fun _ => ⟨onGpt_pairMedia large tbl m, large⟩

omit works in
theorem onGpt_freshGpt (m : Media) : OnGpt d (freshGpt d.blockCount m) := onGpt_pairMedia large _ _

/-- A fresh GPT has no slot in use. -/
theorem tableSlots_freshGpt (m : Media) : tableSlots d (freshGpt d.blockCount m) = fun _ => none := by
  have empty : gptSlots (fun _ => 0) = fun _ => none := by
    funext k
    rw [gptSlots]
    split
    · exact gptPartition_of_empty (by rw [GptEntry.isEmpty, List.all_eq_true]
                                      intro x hx
                                      obtain ⟨i, _, rfl⟩ := List.mem_map.mp hx
                                      rfl)
    · rfl
  rw [freshGpt, tableSlots_pairMedia works large, empty, foldSlots_none]

end Gpt

/-! ## The edits of a GPT, by slot -/

section GptEdits

variable {d : Disk} (works : d.Works) (block : d.blockSize = 512) (large : 64 ≤ d.blockCount)
  (fuel : Nat) {m : Media} (onGpt : OnGpt d m)

include works block large onGpt

/-- A new partition takes the first slot that is free, if one is. -/
theorem OnGpt.create_slots (hstart : start < 18446744073709551616) (hstop : stop < 18446744073709551616)
    (name : Option (List UInt8)) : ((createGpt d start stop name).run fuel m = .err m ∧
        ∀ k, k < 128 → CanBoot.tableSlots d m k ≠ none) ∨
      ∃ k m' p, (createGpt d start stop name).run fuel m = .ok k m' ∧ k < 128 ∧
        CanBoot.tableSlots d m k = none ∧ (∀ j, j < k → CanBoot.tableSlots d m j ≠ none) ∧ OnGpt d m' ∧
        CanBoot.tableSlots d m' = foldSlots d.blockCount (update (CanBoot.tableSlots d m) k (some p)) ∧
        p.startLba = start ∧ p.endLba = stop := by
  have slots := onGpt.tableSlots works large
  rw [onGpt.run_createGpt works block large, slots]
  cases search : (range 128).find? fun i => GptEntry.isEmpty (tableAt m 2) (128 * i) with
  | none =>
    refine .inl ⟨rfl, fun k small empty => ?_⟩
    exact find?_eq_none.mp search k (mem_range.mpr small) ((gptSlots_eq_none small).mp empty)
  | some k =>
    obtain ⟨empty, member, before⟩ := find?_range_eq_some.mp search
    have small := mem_range.mp member
    have busy : ∀ j, j < k → gptSlots (tableAt m 2) j ≠ none := by
      intro j lt free
      have := before j lt
      rw [(gptSlots_eq_none (by omega)).mp free] at this
      cases this
    obtain ⟨p, entry, first, last⟩ :=
      gptPartition_gptNewEntry (tableAt m 2) (128 * k) k hstart hstop name
    refine .inr ⟨k, _, p, rfl, small, (gptSlots_eq_none small).mpr empty, busy,
      onGpt_pairMedia large _ m, ?_, first, last⟩
    rw [tableSlots_pairMedia works large, ← entry, gptSlots_update small fun i out => gptNewEntry_of_out _ _ out]

variable {idx : Nat}

/-- A deletion clears its slot. -/
theorem OnGpt.delete_slots (small : idx < 128) : ∃ m', (canbootPartDelete d idx).run fuel m = .ok () m' ∧ OnGpt d m' ∧
      CanBoot.tableSlots d m' = foldSlots d.blockCount (update (CanBoot.tableSlots d m) idx none) := by
  refine ⟨_, by rw [onGpt.run_delete works block large, if_pos small], onGpt_pairMedia large _ m, ?_⟩
  rw [tableSlots_pairMedia works large, onGpt.tableSlots works large,
    gptSlots_update small fun i out => putBytes_of_out _ _ (by rw [length_replicate]; exact out),
    gptPartition_cleared]

/-- A resize rewrites the end of its slot. -/
theorem OnGpt.resize_slots {p : Partition} (used : CanBoot.tableSlots d m idx = some p) (order : p.startLba ≤ stop)
    (hstop : stop < 18446744073709551616) : ∃ m', (canbootPartResize d idx stop).run fuel m = .ok () m' ∧ OnGpt d m' ∧
      CanBoot.tableSlots d m' = foldSlots d.blockCount
        (update (CanBoot.tableSlots d m) idx (some (p.resized stop))) := by
  rw [onGpt.tableSlots works large] at used ⊢
  have small : idx < 128 := by
    by_contra beyond
    rw [gptSlots, if_neg beyond] at used
    cases used
  have entry : gptPartition (tableAt m 2) (128 * idx) = some p := by
    rw [← used, gptSlots, if_pos small]
  have full : GptEntry.isEmpty (tableAt m 2) (128 * idx) = false := by
    by_contra empty
    rw [gptPartition_of_empty (by simpa using empty)] at entry
    cases entry
  have first : GptEntry.startLba (tableAt m 2) (128 * idx) = p.startLba := by
    rw [gptPartition, if_neg (by rw [full]; decide), some_inj] at entry
    rw [← entry]
  refine ⟨_, by rw [onGpt.run_resize works block large, if_pos ⟨small, full, by omega⟩],
    onGpt_pairMedia large _ m, ?_⟩
  rw [tableSlots_pairMedia works large,
    gptSlots_update small fun i out => putLe64_of_out _ _ (by omega),
    gptPartition_resized entry order hstop]

/-- A resize of a slot that has no entry, or to before its start, is refused. -/
theorem OnGpt.resize_refused (refused : ∀ p, CanBoot.tableSlots d m idx = some p → stop < p.startLba) :
    (canbootPartResize d idx stop).run fuel m = .err m := by
  rw [onGpt.tableSlots works large] at refused
  rw [onGpt.run_resize works block large, if_neg]
  rintro ⟨small, full, order⟩
  have entry : gptSlots (tableAt m 2) idx ≠ none := by
    rw [Ne, gptSlots_eq_none small, full]
    decide
  obtain ⟨p, used⟩ := ne_none_iff_exists'.mp entry
  have before := refused p used
  rw [gptSlots, if_pos small, gptPartition, if_neg (by rw [full]; decide), some_inj] at used
  rw [← used] at before
  simp only at before
  omega

end GptEdits

/-! ## The entries of an MBR -/

/-- The slots of an MBR's table. -/
def mbrSlots (b : Buf) (k : Nat) : Option Partition := if k < 4 then mbrPartition b k else none

variable {b : Buf}

theorem mbrSlots_update {b' : Buf} (small : k < 4)
    (out : ∀ i, i < MbrEntry.entryAt k ∨ MbrEntry.entryAt k + 16 ≤ i → i < 510 → b' i = b i) :
    mbrSlots b' = update (mbrSlots b) k (mbrPartition b' k) := by
  funext j
  by_cases hit : j = k
  · subst hit
    rw [update_self, mbrSlots, if_pos small]
  · rw [update_of_ne hit, mbrSlots, mbrSlots]
    split
    · refine mbrPartition_congr fun i low high => out i ?_ ?_ <;> unfold MbrEntry.entryAt at * <;> omega
    · rfl

theorem mbrPartition_cleared (b : Buf) (k : Nat) :
    mbrPartition (putBytes b (MbrEntry.entryAt k) (replicate 16 0)) k = none := by
  have type : MbrEntry.type (putBytes b (MbrEntry.entryAt k) (replicate 16 0)) k = 0 := by
    rw [MbrEntry.type, putBytes_zeros _ _ (by omega)]
  rw [mbrPartition, if_pos (.inl type)]

/-- A sector without typed entries reports none. -/
theorem mbrSlots_untyped (untyped : ((range 4).all fun i => MbrEntry.type b i = 0) = true) :
    mbrSlots b = fun _ => none := by
  funext k
  rw [mbrSlots]
  split
  · next small =>
    have zero := List.all_eq_true.mp untyped k (mem_range.mpr small)
    rw [mbrPartition, if_pos (.inl (by simpa using zero))]
  · rfl

section Mbr

variable {d : Disk} {m : Media} (mbr : schemeOf d m = .mbr)

include mbr

theorem tableSlots_mbr : tableSlots d m = mbrSlots (m 0) := by
  funext k
  rw [tableSlots, mbr]
  rfl

theorem noHeader_of_mbr : hasHeader d m = false := by
  by_contra found
  rw [schemeOf, if_pos (by simpa using found)] at mbr
  cases mbr

theorem signed_of_mbr : le16 (m 0) 510 = 0xAA55 := by
  by_contra unsigned
  rw [schemeOf, if_neg (by rw [noHeader_of_mbr mbr]; decide), if_pos unsigned] at mbr
  cases mbr

/-- A sector rewritten in place, under the signature, is read as the MBR's slots. -/
theorem tableSlots_setBlocks {buf : Buf} (signed : le16 buf 510 = 0xAA55) :
    tableSlots d (setBlocks 0 1 buf m) = mbrSlots buf := by
  have block0 : ∀ i, i < 512 → setBlocks 0 1 buf m 0 i = buf i := fun i hi => setBlocks_one _ _ hi
  have sig : le16 (setBlocks 0 1 buf m 0) 510 = 0xAA55 := by
    rw [← signed]
    exact le16_congr (block0 _ (by omega)) (block0 _ (by omega))
  have slots : mbrSlots (setBlocks 0 1 buf m 0) = mbrSlots buf := by
    funext k
    rw [mbrSlots, mbrSlots]
    split
    · refine mbrPartition_congr fun i low high => block0 i ?_
      unfold MbrEntry.entryAt at high
      omega
    · rfl
  funext k
  rw [tableSlots, schemeOf, hasHeader_setBlocks, noHeader_of_mbr mbr, if_neg (by decide),
    if_neg (not_not_intro sig), ← slots]
  by_cases untyped : ((range 4).all fun i => MbrEntry.type (setBlocks 0 1 buf m 0) i = 0) = true
  · rw [if_pos untyped, mbrSlots_untyped untyped]
  · rw [if_neg untyped]
    rfl

/-- With a typed entry under the signature, it is an MBR again. -/
theorem schemeOf_setBlocks {buf : Buf} (signed : le16 buf 510 = 0xAA55) (small : k < 4)
    (typed : MbrEntry.type buf k ≠ 0) : schemeOf d (setBlocks 0 1 buf m) = .mbr := by
  have sig : le16 (setBlocks 0 1 buf m 0) 510 = 0xAA55 := by
    rw [← signed]
    exact le16_congr (setBlocks_one _ _ (by omega)) (setBlocks_one _ _ (by omega))
  have type : MbrEntry.type (setBlocks 0 1 buf m 0) k = MbrEntry.type buf k :=
    setBlocks_one _ _ (by unfold MbrEntry.entryAt; omega)
  rw [schemeOf, hasHeader_setBlocks, noHeader_of_mbr mbr, if_neg (by decide),
    if_neg (not_not_intro sig), if_neg]
  intro untyped
  have zero := List.all_eq_true.mp untyped k (mem_range.mpr small)
  rw [type] at zero
  exact typed (by simpa using zero)

end Mbr

/-! ## The edits of an MBR, by slot -/

/-- An MBR entry with another length. -/
theorem mbrPartition_recount {count : Nat} (typed : MbrEntry.type b k ≠ 0)
    (fits : count < 4294967296) :
    mbrPartition (putLe32 b (MbrEntry.entryAt k + 12) count) k =
      if count = 0 then none
      else some {
        startLba := lbaStart b k
        endLba := lbaStart b k + count - 1
        sizeLba := count
        typeMbr := MbrEntry.type b k
        typeGpt := replicate 16 0
        name := []
        bootableMbr := b (MbrEntry.entryAt k) = 0x80
        scheme := .mbr } := by
  have type : MbrEntry.type (putLe32 b (MbrEntry.entryAt k + 12) count) k = MbrEntry.type b k :=
    putLe32_of_out _ _ (by omega)
  have first : lbaStart (putLe32 b (MbrEntry.entryAt k + 12) count) k =
      lbaStart b k := le32_putLe32_of_ne _ _ (by omega)
  have length : lbaCount (putLe32 b (MbrEntry.entryAt k + 12) count) k = count := by
    rw [lbaCount, le32_putLe32, mod_eq_of_lt fits]
  rw [mbrPartition, type, first, length, putLe32_of_out _ _ (by omega)]
  by_cases empty : count = 0
  · rw [if_pos (.inr empty), if_pos empty]
  · rw [if_neg (by simp only [not_or]; exact ⟨typed, empty⟩), if_neg empty]

/-- The sector with the new entry is an MBR still, with one slot rewritten. -/
theorem mbrNewEntry_slots {d : Disk} {m : Media} (mbr : schemeOf d m = .mbr) (small : k < 4) (type : UInt8)
    (start stop : Nat) :
    schemeOf d (setBlocks 0 1 (mbrNewEntry (m 0) k type start stop) m) = .mbr ∧
      tableSlots d (setBlocks 0 1 (mbrNewEntry (m 0) k type start stop) m) = update (tableSlots d m) k
        (mbrRecord (if type ≠ 0 then type else 0x83) (u32 start) (u32 (stop - start + 1))) := by
  have signed : le16 (mbrNewEntry (m 0) k type start stop) 510 = 0xAA55 := by
    rw [le16, mbrNewEntry, putByte_same, putByte_of_ne _ _ (by decide), putByte_same]
    decide
  constructor
  · refine schemeOf_setBlocks mbr signed small ?_
    rw [type_mbrNewEntry]
    split
    · assumption
    · decide
  · rw [tableSlots_setBlocks mbr signed, tableSlots_mbr mbr, ← mbrPartition_mbrNewEntry (m 0) small type start stop]
    exact mbrSlots_update small fun i out below => mbrNewEntry_of_out out below

section MbrEdits

variable {d : Disk} (works : d.Works) (block : d.blockSize = 512) (pos : 0 < d.blockCount)
  (fuel : Nat) {m : Media} (mbr : schemeOf d m = .mbr)

include works block pos mbr

/-- A new partition takes the first slot of type zero, if there is one. -/
theorem mbr_create_slots (start stop : Nat) (type : UInt8) :
    ((createMbr d start stop type).run fuel m = .err m ∧ ∀ k, k < 4 → MbrEntry.type (m 0) k ≠ 0) ∨
      ∃ k m', (createMbr d start stop type).run fuel m = .ok k m' ∧ k < 4 ∧
        MbrEntry.type (m 0) k = 0 ∧ tableSlots d m k = none ∧ schemeOf d m' = .mbr ∧
        tableSlots d m' = update (tableSlots d m) k
          (mbrRecord (if type ≠ 0 then type else 0x83) (u32 start) (u32 (stop - start + 1))) := by
  rw [run_createMbr works block pos, tableSlots_mbr mbr]
  cases search : (range 4).find? fun i => decide (MbrEntry.type (m 0) i = 0) with
  | none =>
    refine .inl ⟨rfl, fun k small => ?_⟩
    simpa using find?_eq_none.mp search k (mem_range.mpr small)
  | some k =>
    have small := mem_range.mp (mem_of_find?_eq_some search)
    have hit := find?_some search
    have untyped : MbrEntry.type (m 0) k = 0 := by simpa using hit
    have slots := mbrNewEntry_slots mbr small type start stop
    rw [tableSlots_mbr mbr] at slots
    refine .inr ⟨k, _, rfl, small, untyped, ?_, slots.1, slots.2⟩
    rw [mbrSlots, if_pos small, mbrPartition, if_pos (.inl untyped)]

/-- A deletion clears its slot. -/
theorem mbr_delete_slots {idx : Nat} (small : idx < 4) :
    ∃ m', (canbootPartDelete d idx).run fuel m = .ok () m' ∧ hasHeader d m' = false ∧
      tableSlots d m' = update (tableSlots d m) idx none := by
  refine ⟨_, by rw [run_delete_mbr works block pos fuel mbr, if_pos small], ?_, ?_⟩
  · rw [hasHeader_setBlocks, noHeader_of_mbr mbr]
  · have at510 : MbrEntry.entryAt idx + 16 ≤ 510 := by unfold MbrEntry.entryAt; omega
    have out : ∀ i, i < MbrEntry.entryAt idx ∨ MbrEntry.entryAt idx + 16 ≤ i →
        putBytes (m 0) (MbrEntry.entryAt idx) (replicate 16 0) i = m 0 i :=
      fun i out => putBytes_of_out _ _ (by rw [length_replicate]; exact out)
    have signed : le16 (putBytes (m 0) (MbrEntry.entryAt idx) (replicate 16 0)) 510 = 0xAA55 := by
      rw [← signed_of_mbr mbr]
      exact le16_congr (out _ (by omega)) (out _ (by omega))
    rw [tableSlots_setBlocks mbr signed, tableSlots_mbr mbr,
      mbrSlots_update small fun i h _ => out i h, mbrPartition_cleared]

/-- A resize rewrites the length in its slot. -/
theorem mbr_resize_slots {idx : Nat} (small : idx < 4) (fits : mbrResizable (m 0) idx stop) :
    ∃ m', (canbootPartResize d idx stop).run fuel m = .ok () m' ∧ schemeOf d m' = .mbr ∧
      tableSlots d m' = update (tableSlots d m) idx (mbrPartition (putLe32 (m 0) (MbrEntry.entryAt idx + 12)
          (u64 (stop - lbaStart (m 0) idx + 1))) idx) := by
  have run := run_resize_mbr works block pos fuel mbr small fits
  have at510 : MbrEntry.entryAt idx + 16 ≤ 510 := by unfold MbrEntry.entryAt; omega
  set count := u64 (stop - lbaStart (m 0) idx + 1)
  have signed : le16 (putLe32 (m 0) (MbrEntry.entryAt idx + 12) count) 510 = 0xAA55 := by
    rw [← signed_of_mbr mbr]
    exact le16_congr (putLe32_of_out _ _ (by omega)) (putLe32_of_out _ _ (by omega))
  refine ⟨_, run, ?_, ?_⟩
  · have type : MbrEntry.type (putLe32 (m 0) (MbrEntry.entryAt idx + 12) count) idx =
        MbrEntry.type (m 0) idx := putLe32_of_out _ _ (by omega)
    exact schemeOf_setBlocks mbr signed small (by rw [type]; exact fits.1)
  · rw [tableSlots_setBlocks mbr signed, tableSlots_mbr mbr]
    exact mbrSlots_update small fun i out _ => putLe32_of_out _ _ (by omega)

end MbrEdits

end CanBoot
