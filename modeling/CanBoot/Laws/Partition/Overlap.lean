import CanBoot.Laws.Partition.Edits
import CanBoot.Laws.Partition.Valid

/-!
# Overlapping partitions

`canboot_part_create` and `canboot_part_resize` test that an interval is not reversed, and nothing
else: neither the usable area nor the other partitions. So the table stays in order exactly as long as
every call asks for an interval that fits.

An MBR stores a start and a length of 32 bits. On a disk of more blocks a call may ask for one interval
and store another, and both have to fit.
-/

namespace CanBoot

open Lib Lib.Prog Function GptHeader MbrEntry List Option

/-! ## Order -/

/-- Two intervals of blocks are apart. -/
def Partition.Apart (p q : Partition) : Prop := p.endLba < q.startLba ∨ q.endLba < p.startLba

/-- An interval of blocks inside an area. -/
def Partition.Within (area : Nat × Nat) (p : Partition) : Prop :=
  area.1 ≤ p.startLba ∧ p.startLba ≤ p.endLba ∧ p.endLba ≤ area.2

/-- The blocks partitions may take. Without a scheme it is the area of the GPT that a first
`canboot_part_create` makes. -/
def usable (d : Disk) (m : Media) : Nat × Nat :=
  match schemeOf d m with
  | .gpt => (GptHeader.firstUsable (m 1), GptHeader.lastUsable (m 1))
  | .mbr => (1, d.blockCount - 1)
  | .none => (34, d.blockCount - 34)

/-- The partitions `canboot_part_list` reports are apart, and inside the usable area. -/
def InOrder (d : Disk) (fuel : Nat) (m : Media) : Prop :=
  ∀ max, ∃ ps, (canbootPartList d max).run fuel m = .ok ps m ∧ ps.Pairwise Partition.Apart ∧
    ∀ p ∈ ps, p.Within (usable d m)

/-- The same of the slots of the table. -/
structure SlotsInOrder (area : Nat × Nat) (f : Nat → Option Partition) : Prop where
  apart : ∀ i j p q, i ≠ j → f i = some p → f j = some q → p.Apart q
  within : ∀ k p, f k = some p → p.Within area

/-! ## What a call asks for -/

/-- An interval of blocks, inside the usable area and apart from the slots in use but one. -/
def Clear (d : Disk) (m : Media) (skip : Option Nat) (lo hi : Nat) : Prop :=
  (usable d m).1 ≤ lo ∧ lo ≤ hi ∧ hi ≤ (usable d m).2 ∧
    ∀ k p, some k ≠ skip → tableSlots d m k = some p → p.endLba < lo ∨ hi < p.startLba

/-- The first block of the entry in a slot, if the slot has an entry. An MBR entry of length zero is
one, though it is not reported. -/
def entryStart (d : Disk) (m : Media) (k : Nat) : Option Nat :=
  match schemeOf d m with
  | .gpt => (tableSlots d m k).map Partition.startLba
  | .mbr => if k < 4 ∧ MbrEntry.type (m 0) k ≠ 0 then some (MbrEntry.lbaStart (m 0) k) else none
  | .none => none

/-- The interval a call asks for, and the slot it replaces. -/
def PartCall.asks (d : Disk) (m : Media) : PartCall → Option (Option Nat × Nat × Nat)
  | create start stop _ _ => some (none, start.toNat, stop.toNat)
  | delete _ => none
  | resize idx stop =>
    (entryStart d m idx.toNat).map fun lo => (some idx.toNat, lo, stop.toNat)

/-- The call would put the table out of order. -/
def PartCall.Breaks (d : Disk) (m : Media) (call : PartCall) : Prop :=
  ∃ skip lo hi, call.asks d m = some (skip, lo, hi) ∧ ¬ Clear d m skip lo hi

/-- **Every state of a run is in order, and every call that would break it is refused** with `-1` and
the medium as it was. -/
def KeepsOrder (d : Disk) (fuel : Nat) : Media → List PartCall → Prop
  | m, [] => InOrder d fuel m
  | m, call :: rest =>
    InOrder d fuel m ∧ (call.Breaks d m → (call.perform d).run fuel m = .err m) ∧
      KeepsOrder d fuel (call.after d fuel m) rest

/-- No slot is free for a new partition. -/
def TableFull (d : Disk) (m : Media) : Prop :=
  match schemeOf d m with
  | .gpt => ∀ k, k < 128 → tableSlots d m k ≠ none
  | .mbr => ∀ k, k < 4 → MbrEntry.type (m 0) k ≠ 0
  | .none => d.blockCount < 64

/-- The interval an MBR entry made for `[start, stop]` spans fits as well. -/
def StoredClear (d : Disk) (m : Media) (start stop : Nat) : Prop :=
  schemeOf d m = .mbr → u32 (stop - start + 1) = 0 ∨
    Clear d m none (u32 start) (u32 start + u32 (stop - start + 1) - 1)

/-- The code's own tests refuse the call, or the interval it asks for fits. -/
def PartCall.Fits (d : Disk) (m : Media) : PartCall → Prop
  | create start stop _ _ =>
    (stop.toNat < start.toNat ∨ TableFull d m) ∨
      (Clear d m none start.toNat stop.toNat ∧ StoredClear d m start.toNat stop.toNat)
  | delete _ => True
  | resize idx stop => ∀ lo, entryStart d m idx.toNat = some lo →
    (stop.toNat < lo ∨ (schemeOf d m = .mbr ∧ 0xFFFFFFFF < u64 (stop.toNat - lo + 1))) ∨
      Clear d m (some idx.toNat) lo stop.toNat

/-- Every call of a sequence fits the table it finds. -/
def FitsAll (d : Disk) (fuel : Nat) : Media → List PartCall → Prop
  | _, [] => True
  | m, call :: rest => call.Fits d m ∧ FitsAll d fuel (call.after d fuel m) rest

/-- Where a run starts: a GPT just initialised, or an MBR whose entries are in order. The sector of an
MBR has 512 bytes. -/
inductive PartStart (d : Disk) (fuel : Nat) : Media → Prop where
  | gpt {m m' : Media} (init : (canbootPartInitGpt d).run fuel m = .ok () m') : PartStart d fuel m'
  | mbr {m : Media} (sector : 512 ≤ d.blockSize) (pos : 0 < d.blockCount)
      (mbr : schemeOf d m = .mbr) (order : SlotsInOrder (1, d.blockCount - 1) (mbrSlots (m 0))) :
      PartStart d fuel m

/-! ## Listing -/

section List

variable {d : Disk} (works : d.Works) (block : d.blockSize = 512) (pos : 0 < d.blockCount)
  (fuel : Nat) {m : Media} (ours : HeaderOurs d m)

theorem tableSlots_beyond {k : Nat} (beyond : 128 ≤ k) : tableSlots d m k = none := by
  rw [tableSlots]
  split
  · exact if_neg (by omega)
  · exact if_neg (by omega)
  · rfl

theorem hasHeader_of_gpt (gpt : schemeOf d m = .gpt) : hasHeader d m = true := by
  by_contra none
  rw [schemeOf, if_neg none] at gpt
  split at gpt
  · cases gpt
  · split at gpt <;> cases gpt

include works block pos ours

/-- **`canboot_part_list`** reports the slots in use. -/
theorem run_list (max : Nat) : (canbootPartList d max).run fuel m =
      .ok (((reports 128 (tableSlots d m)).map Prod.snd).take max) m := by
  rw [map_snd_reports]
  cases scheme : schemeOf d m with
  | gpt =>
    obtain ⟨onGpt, large⟩ := ours (hasHeader_of_gpt scheme)
    have entries : ((range 128).filterMap fun k => gptPartition (tableAt m 2) (128 * k)) =
        (range 128).filterMap (gptSlots (tableAt m 2)) :=
      filterMap_congr fun k hk => (if_pos (mem_range.mp hk)).symm
    rw [onGpt.run_list works block large, onGpt.tableSlots works large, entries]
  | mbr =>
    obtain ⟨b, run, bytes⟩ := run_readSector block fuel m (works.serves.reads 0 1 (by omega))
    have entries : (range 4).filterMap (mbrPartition b) =
        (range 128).filterMap (mbrSlots (m 0)) := by
      have beyond : ∀ k, 4 ≤ k → mbrSlots (m 0) k = none := fun k hk => if_neg (by omega)
      rw [filterMap_range_of_none (by decide) beyond]
      refine filterMap_congr fun k hk => ?_
      have small := mem_range.mp hk
      rw [mbrSlots, if_pos small]
      refine mbrPartition_congr fun i _ high => bytes i ?_
      unfold MbrEntry.entryAt at high
      omega
    rw [canbootPartList, run_bind_ok (run_detect works block pos fuel), scheme]
    simp only [listMbr]
    rw [run_bind_ok run, entries, tableSlots_mbr scheme]
    rfl
  | none =>
    have empty : (range 128).filterMap (tableSlots d m) = [] :=
      filterMap_eq_nil_iff.mpr fun k _ => by rw [tableSlots, scheme]
    rw [canbootPartList, run_bind_ok (run_detect works block pos fuel), scheme, empty, take_nil]
    rfl

/-- With room for every slot it reports them all. -/
theorem run_list_all : (canbootPartList d 128).run fuel m = .ok ((reports 128 (tableSlots d m)).map Prod.snd) m := by
  have short : ((reports 128 (tableSlots d m)).map Prod.snd).length ≤ 128 := by
    rw [map_snd_reports]
    exact (length_filterMap_le _ _).trans (by simp)
  rw [run_list works block pos fuel ours, take_of_length_le short]

/-- The list is in order iff the slots are. -/
theorem inOrder_iff : InOrder d fuel m ↔ SlotsInOrder (usable d m) (tableSlots d m) := by
  have run := run_list works block pos fuel ours
  have used : ∀ {k p}, tableSlots d m k = some p → k < 128 := by
    intro k p hit
    by_contra beyond
    rw [tableSlots_beyond (by omega)] at hit
    cases hit
  constructor
  · intro order
    obtain ⟨ps, list, apart, within⟩ := order 128
    rw [run_list_all works block pos fuel ours, map_snd_reports] at list
    cases list
    have related := pairwise_filterMap_range.mp apart
    refine ⟨?_, ?_⟩
    · intro i j p q ne hp hq
      rcases Nat.lt_or_gt_of_ne ne with lt | gt
      · exact related i j p q lt (used hq) hp hq
      · exact (related j i q p gt (used hp) hq hp).symm
    · intro k p hit
      exact within p (mem_filterMap.mpr ⟨k, mem_range.mpr (used hit), hit⟩)
  · intro order max
    refine ⟨_, run max, ?_, ?_⟩
    · rw [map_snd_reports]
      refine List.Pairwise.sublist (take_sublist _ _) (pairwise_filterMap_range.mpr ?_)
      intro i j p q lt _ hp hq
      exact order.apart i j p q (by omega) hp hq
    · intro p hp
      rw [map_snd_reports] at hp
      obtain ⟨k, _, hit⟩ := mem_filterMap.mp (mem_of_mem_take hp)
      exact order.within k p hit

end List

/-! ## One slot rewritten -/

theorem Partition.Apart.symm {p q : Partition} (h : p.Apart q) : q.Apart p := Or.symm h

theorem SlotsInOrder.put {area : Nat × Nat} {f : Nat → Option Partition} (order : SlotsInOrder area f) {k : Nat}
    {p : Partition} (within : p.Within area) (apart : ∀ j q, j ≠ k → f j = some q → q.Apart p) :
    SlotsInOrder area (update f k (some p)) := by
  refine ⟨?_, ?_⟩
  · intro i j a b ne ha hb
    by_cases hi : i = k
    · subst hi
      rw [update_self, some_inj] at ha
      rw [update_of_ne ne.symm] at hb
      subst ha
      exact (apart j b ne.symm hb).symm
    · rw [update_of_ne hi] at ha
      by_cases hj : j = k
      · subst hj
        rw [update_self, some_inj] at hb
        subst hb
        exact apart i a hi ha
      · rw [update_of_ne hj] at hb
        exact order.apart i j a b ne ha hb
  · intro j a ha
    by_cases hj : j = k
    · subst hj
      rw [update_self, some_inj] at ha
      subst ha
      exact within
    · rw [update_of_ne hj] at ha
      exact order.within j a ha

theorem SlotsInOrder.clear {area : Nat × Nat} {f : Nat → Option Partition} (order : SlotsInOrder area f)
    (k : Nat) : SlotsInOrder area (update f k none) := by
  have kept : ∀ {j p}, update f k none j = some p → f j = some p := by
    intro j p hit
    by_cases hj : j = k
    · subst hj
      rw [update_self] at hit
      cases hit
    · rwa [update_of_ne hj] at hit
  exact ⟨fun i j p q ne hp hq => order.apart i j p q ne (kept hp) (kept hq),
    fun j p hp => order.within j p (kept hp)⟩

theorem slotsInOrder_none (area : Nat × Nat) : SlotsInOrder area fun _ => none :=
  ⟨fun _ _ _ _ _ hp _ => (nomatch hp), fun _ _ hp => (nomatch hp)⟩

/-! ## One call -/

section Call

variable {d : Disk} {fuel : Nat} {m : Media} {call : PartCall}

/-- One call keeps the header ours, and keeps the order iff it fits. -/
def KeepsIff (d : Disk) (fuel : Nat) (m : Media) (call : PartCall) : Prop :=
  HeaderOurs d (call.after d fuel m) ∧
    ((SlotsInOrder (usable d (call.after d fuel m)) (tableSlots d (call.after d fuel m)) ∧
        (call.Breaks d m → (call.perform d).run fuel m = .err m)) ↔ call.Fits d m)

theorem keepsIff_refused (ours : HeaderOurs d m) (order : SlotsInOrder (usable d m) (tableSlots d m))
    (run : (call.perform d).run fuel m = .err m) (fits : call.Fits d m) : KeepsIff d fuel m call := by
  have same : call.after d fuel m = m := by rw [PartCall.after, run]; rfl
  rw [KeepsIff, same]
  exact ⟨ours, fun _ => fits, fun _ => ⟨order, fun _ => run⟩⟩

theorem keepsIff_accepted {r : Nat} {m' : Media} (run : (call.perform d).run fuel m = .ok r m') (ours : HeaderOurs d m')
    (fits : SlotsInOrder (usable d m') (tableSlots d m') ∧ ¬ call.Breaks d m ↔ call.Fits d m) :
    KeepsIff d fuel m call := by
  have moved : call.after d fuel m = m' := by rw [PartCall.after, run]; rfl
  rw [KeepsIff, moved, ← fits, run]
  refine ⟨ours, and_congr_right fun _ => ?_⟩
  exact ⟨fun h breaks => (by cases h breaks), fun h breaks => absurd breaks h⟩

theorem breaks_create {start stop : UInt64} {type : UInt8} {name : Option (List UInt8)} :
    ¬ (PartCall.create start stop type name).Breaks d m ↔ Clear d m none start.toNat stop.toNat := by
  simp [PartCall.Breaks, PartCall.asks]

theorem breaks_resize {idx : UInt32} {stop : UInt64} {lo : Nat} (entry : entryStart d m idx.toNat = some lo) :
    ¬ (PartCall.resize idx stop).Breaks d m ↔ Clear d m (some idx.toNat) lo stop.toNat := by
  simp [PartCall.Breaks, PartCall.asks, entry]

variable {skip : Option Nat} {lo hi : Nat} (clear : Clear d m skip lo hi)

include clear

theorem Clear.apart {p : Partition}
    (first : p.startLba = lo) (last : p.endLba = hi) {k : Nat} {q : Partition} (other : some k ≠ skip)
    (used : tableSlots d m k = some q) : q.Apart p := by
  rcases clear.2.2.2 k q other used with before | behind
  · exact .inl (by omega)
  · exact .inr (by omega)

theorem Clear.within {p : Partition}
    (first : p.startLba = lo) (last : p.endLba = hi) : p.Within (usable d m) := by
  obtain ⟨low, order, high, _⟩ := clear
  rw [Partition.Within, first, last]
  exact ⟨low, order, high⟩

/-- An interval clear in the area of a GPT needs a disk of 67 blocks. -/
theorem Clear.roomy (area : usable d m = (34, d.blockCount - 34)) : 67 ≤ d.blockCount := by
  obtain ⟨low, order, high, _⟩ := clear
  rw [area] at low high
  omega

end Call

section Gpt

variable {d : Disk} (works : d.Works) (block : d.blockSize = 512) (large : 64 ≤ d.blockCount)
  (fuel : Nat) {m : Media} (onGpt : OnGpt d m)

include works large in
theorem OnGpt.usable (onGpt : OnGpt d m) : usable d m = (34, d.blockCount - 34) := by
  have canonical := onGpt.canonical
  have field : ∀ i, i + 8 ≤ 92 → le64 (m 1) i = le64 (headerStruct (m 1)) i := by
    intro i hi
    exact le64_congr fun j _ _ => (if_pos (by omega)).symm
  rw [CanBoot.usable, onGpt.schemeOf works large]
  simp only [firstUsable, lastUsable]
  rw [field 40 (by omega), field 48 (by omega)]
  exact congrArg₂ Prod.mk canonical.firstUsable (canonical.lastUsable works.size large)

variable (order : SlotsInOrder (CanBoot.usable d m) (CanBoot.tableSlots d m))

include works block large onGpt order

/-- A GPT that the new partition fits stays in order. -/
theorem OnGpt.keepsIff_create (start stop : UInt64)
    (type : UInt8) (name : Option (List UInt8)) : KeepsIff d fuel m (.create start stop type name) := by
  have scheme := onGpt.schemeOf works large
  have area := onGpt.usable works large
  have ours : HeaderOurs d m := fun _ => ⟨onGpt, large⟩
  have run := onGpt.run_create works block large fuel start.toNat stop.toNat type name
  by_cases reversed : start.toNat ≤ stop.toNat
  · rw [if_pos reversed] at run
    rcases onGpt.create_slots works block large fuel start.toNat_lt stop.toNat_lt name with
      ⟨refused, full⟩ | ⟨k, m', p, accepted, _, free, _, onGpt', slots, first, last⟩
    · refine keepsIff_refused ours order (run.trans refused) (.inl (.inr ?_))
      rw [TableFull, scheme]
      exact full
    · refine keepsIff_accepted (run.trans accepted) (fun _ => ⟨onGpt', large⟩) ?_
      rw [breaks_create]
      constructor
      · intro ⟨_, clear⟩
        exact .inr ⟨clear, fun mbr => by rw [scheme] at mbr; cases mbr⟩
      · rintro ((backwards | full) | ⟨clear, _⟩)
        · omega
        · rw [TableFull, scheme] at full
          exact absurd free (full k (by assumption))
        · refine ⟨?_, clear⟩
          rw [onGpt'.usable works large, ← area, slots, foldSlots_large (clear.roomy area)]
          exact order.put (clear.within first last)
            fun j q _ used => clear.apart first last (by simp) used
  · rw [if_neg reversed] at run
    exact keepsIff_refused ours order run (.inl (.inl (by omega)))

omit block in
/-- On a disk too small for a usable area, a GPT in order is empty. -/
theorem OnGpt.slots_small (small : d.blockCount < 67) : CanBoot.tableSlots d m = fun _ => none := by
  funext k
  cases used : CanBoot.tableSlots d m k with
  | none => rfl
  | some p =>
    have within := order.within k p used
    rw [onGpt.usable works large] at within
    simp only [Partition.Within] at within
    omega

theorem OnGpt.keepsIff_delete (idx : UInt32) : KeepsIff d fuel m (.delete idx) := by
  have ours : HeaderOurs d m := fun _ => ⟨onGpt, large⟩
  by_cases small : idx.toNat < 128
  · obtain ⟨m', run, onGpt', slots⟩ := onGpt.delete_slots works block large fuel small
    refine keepsIff_accepted (run_bind_ok run _) (fun _ => ⟨onGpt', large⟩) ?_
    refine ⟨fun _ => trivial, fun _ => ⟨?_, by simp [PartCall.Breaks, PartCall.asks]⟩⟩
    rw [onGpt'.usable works large, ← onGpt.usable works large, slots]
    by_cases roomy : 67 ≤ d.blockCount
    · rw [foldSlots_large roomy]
      exact order.clear _
    · rw [onGpt.slots_small works large order (by omega), update_eq_self_iff.mpr rfl,
        foldSlots_none]
      exact slotsInOrder_none _
  · have run := onGpt.run_delete works block large fuel idx.toNat
    rw [if_neg small] at run
    exact keepsIff_refused ours order (run_bind_err run _) trivial

theorem OnGpt.keepsIff_resize (idx : UInt32) (stop : UInt64) : KeepsIff d fuel m (.resize idx stop) := by
  have scheme := onGpt.schemeOf works large
  have area := onGpt.usable works large
  have ours : HeaderOurs d m := fun _ => ⟨onGpt, large⟩
  have entry : entryStart d m idx.toNat = (CanBoot.tableSlots d m idx.toNat).map Partition.startLba := by
    rw [entryStart, scheme]
  cases used : CanBoot.tableSlots d m idx.toNat with
  | none =>
    rw [used] at entry
    refine keepsIff_refused ours order (run_bind_err (onGpt.resize_refused works block large fuel
      fun p hp => by rw [used] at hp; cases hp) _) fun lo hlo => ?_
    rw [entry] at hlo
    cases hlo
  | some p =>
    rw [used] at entry
    have entry : entryStart d m idx.toNat = some p.startLba := entry
    by_cases reversed : p.startLba ≤ stop.toNat
    · obtain ⟨m', run, onGpt', slots⟩ :=
        onGpt.resize_slots works block large fuel used reversed stop.toNat_lt
      refine keepsIff_accepted (run_bind_ok run _) (fun _ => ⟨onGpt', large⟩) ?_
      rw [breaks_resize entry]
      constructor
      · intro ⟨_, clear⟩ lo hlo
        rw [entry, some_inj] at hlo
        exact .inr (hlo ▸ clear)
      · intro fits
        rcases fits _ entry with (backwards | ⟨mbr, _⟩) | clear
        · omega
        · rw [scheme] at mbr
          cases mbr
        · refine ⟨?_, clear⟩
          rw [onGpt'.usable works large, ← area, slots, foldSlots_large (clear.roomy area)]
          refine order.put (clear.within (p := p.resized stop.toNat) rfl rfl) fun j q ne hq => ?_
          exact clear.apart (p := p.resized stop.toNat) rfl rfl (by simpa using ne) hq
    · refine keepsIff_refused ours order (run_bind_err (onGpt.resize_refused works block large fuel
        fun q hq => ?_) _) fun lo hlo => ?_
      · rw [used, some_inj] at hq
        subst hq
        omega
      · rw [entry, some_inj] at hlo
        exact .inl (.inl (by omega))

end Gpt

section Mbr

variable {d : Disk} (works : d.Works) (block : d.blockSize = 512) (pos : 0 < d.blockCount)
  (fuel : Nat) {m : Media} (mbr : schemeOf d m = .mbr)

theorem usable_mbr (mbr : schemeOf d m = .mbr) : usable d m = (1, d.blockCount - 1) := by
  rw [usable, mbr]

theorem headerOurs_of_none (none : hasHeader d m = false) : HeaderOurs d m := by
  intro found
  rw [none] at found
  cases found

variable (order : SlotsInOrder (usable d m) (tableSlots d m))

include works block pos mbr order

theorem keepsIff_create_mbr (start stop : UInt64) (type : UInt8)
    (name : Option (List UInt8)) : KeepsIff d fuel m (.create start stop type name) := by
  have ours := headerOurs_of_none (noHeader_of_mbr mbr)
  have run := run_create_mbr works block pos fuel mbr start.toNat stop.toNat type name
  by_cases reversed : start.toNat ≤ stop.toNat
  · rw [if_pos reversed] at run
    rcases mbr_create_slots works block pos fuel mbr start.toNat stop.toNat type with
      ⟨refused, full⟩ | ⟨k, m', accepted, small, untyped, free, mbr', slots⟩
    · refine keepsIff_refused ours order (run.trans refused) (.inl (.inr ?_))
      rw [TableFull, mbr]
      exact full
    · refine keepsIff_accepted (run.trans accepted)
        (headerOurs_of_none (noHeader_of_mbr mbr')) ?_
      rw [breaks_create, usable_mbr mbr', ← usable_mbr mbr, slots]
      set type' := if type ≠ 0 then type else 0x83
      set first := u32 start.toNat
      set count := u32 (stop.toNat - start.toNat + 1)
      constructor
      · intro ⟨after, clear⟩
        refine .inr ⟨clear, fun _ => ?_⟩
        by_cases empty : count = 0
        · exact .inl empty
        · -- the new slot is in order with the rest, hence the interval it stores is clear
          have stored : mbrRecord type' first count = some
              ⟨first, first + count - 1, count, type', replicate 16 0, [], false, .mbr⟩ :=
            if_neg empty
          rw [stored] at after
          have within := after.within k _ (update_self _ _ _)
          refine .inr ⟨within.1, within.2.1, within.2.2, fun j q _ used => ?_⟩
          have ne : j ≠ k := by
            rintro rfl
            rw [free] at used
            cases used
          exact after.apart j k q _ ne (by rw [update_of_ne ne]; exact used)
            (update_self _ _ _)
      · rintro ((backwards | full) | ⟨clear, stored⟩)
        · omega
        · rw [TableFull, mbr] at full
          exact absurd untyped (full k small)
        · refine ⟨?_, clear⟩
          by_cases empty : count = 0
          · rw [mbrRecord, if_pos empty]
            exact order.clear _
          · have fits := (stored mbr).resolve_left empty
            rw [mbrRecord, if_neg empty]
            refine order.put (fits.within rfl rfl) fun j q _ used => ?_
            exact fits.apart rfl rfl (by simp) used
  · rw [if_neg reversed] at run
    exact keepsIff_refused ours order run (.inl (.inl (by omega)))

theorem keepsIff_delete_mbr (idx : UInt32) :
    KeepsIff d fuel m (.delete idx) := by
  by_cases small : idx.toNat < 4
  · obtain ⟨m', run, noHeader, slots⟩ := mbr_delete_slots works block pos fuel mbr small
    refine keepsIff_accepted (run_bind_ok run _) (headerOurs_of_none noHeader) ?_
    refine ⟨fun _ => trivial, fun _ => ⟨?_, by simp [PartCall.Breaks, PartCall.asks]⟩⟩
    have cleared : SlotsInOrder (usable d m) (tableSlots d m') := by
      rw [slots]
      exact order.clear _
    cases scheme : schemeOf d m' with
    | gpt =>
      rw [hasHeader_of_gpt scheme] at noHeader
      cases noHeader
    | mbr =>
      rw [usable_mbr scheme, ← usable_mbr mbr]
      exact cleared
    | none =>
      have empty : tableSlots d m' = fun _ => none := by
        funext k
        rw [tableSlots, scheme]
      rw [empty]
      exact slotsInOrder_none _
  · have run := run_delete_mbr works block pos fuel mbr idx.toNat
    rw [if_neg small] at run
    exact keepsIff_refused (headerOurs_of_none (noHeader_of_mbr mbr)) order (run_bind_err run _)
      trivial

theorem keepsIff_resize_mbr (idx : UInt32)
    (stop : UInt64) : KeepsIff d fuel m (.resize idx stop) := by
  have ours := headerOurs_of_none (noHeader_of_mbr mbr)
  have top := stop.toNat_lt
  by_cases fits : idx.toNat < 4 ∧ mbrResizable (m 0) idx.toNat stop.toNat
  · obtain ⟨small, typed, reversed, short⟩ := fits
    have entry : entryStart d m idx.toNat = some (lbaStart (m 0) idx.toNat) := by
      rw [entryStart, mbr]
      exact if_pos ⟨small, typed⟩
    obtain ⟨m', run, mbr', slots⟩ :=
      mbr_resize_slots works block pos fuel mbr small ⟨typed, reversed, short⟩
    refine keepsIff_accepted (run_bind_ok run _)
      (headerOurs_of_none (noHeader_of_mbr mbr')) ?_
    rw [breaks_resize entry, usable_mbr mbr', ← usable_mbr mbr, slots]
    constructor
    · intro ⟨_, clear⟩ lo hlo
      rw [entry, some_inj] at hlo
      exact .inr (hlo ▸ clear)
    · intro fits
      rcases fits _ entry with (backwards | ⟨_, long⟩) | clear
      · omega
      · omega
      · refine ⟨?_, clear⟩
        have low := clear.1
        rw [usable_mbr mbr] at low
        -- the entry starts behind block 0, so its length does not wrap
        have count : u64 (stop.toNat - lbaStart (m 0) idx.toNat + 1) =
            stop.toNat - lbaStart (m 0) idx.toNat + 1 := Nat.mod_eq_of_lt (by omega)
        rw [count] at short ⊢
        rw [mbrPartition_recount typed (by omega), if_neg (by omega)]
        refine order.put (clear.within rfl (by simp only; omega)) fun j q ne used => ?_
        exact clear.apart rfl (by simp only; omega) (by simpa using ne) used
  · refine keepsIff_refused ours order
      (run_bind_err (run_resize_mbr_refused works block pos fuel mbr fits) _) fun lo hlo => ?_
    rw [entryStart, mbr] at hlo
    simp only [ite_none_right_eq_some, some_inj] at hlo
    obtain ⟨⟨small, typed⟩, rfl⟩ := hlo
    by_cases reversed : lbaStart (m 0) idx.toNat ≤ stop.toNat
    · refine .inl (.inr ⟨mbr, ?_⟩)
      by_contra short
      exact fits ⟨small, typed, reversed, by omega⟩
    · exact .inl (.inl (by omega))

end Mbr

section None

variable {d : Disk} (works : d.Works) (block : d.blockSize = 512) (pos : 0 < d.blockCount)
  (fuel : Nat) {m : Media} (bare : schemeOf d m = .none)

include works block pos bare

theorem keepsIff_create_none (ours : HeaderOurs d m) (order : SlotsInOrder (usable d m) (tableSlots d m))
    (start stop : UInt64) (type : UInt8) (name : Option (List UInt8)) : KeepsIff d fuel m (.create start stop type name) := by
  have area : usable d m = (34, d.blockCount - 34) := by rw [usable, bare]
  have run := run_create_none works block pos fuel bare start.toNat stop.toNat type name
  by_cases tried : start.toNat ≤ stop.toNat ∧ 64 ≤ d.blockCount
  · obtain ⟨reversed, large⟩ := tried
    rw [if_pos ⟨reversed, large⟩] at run
    have onGpt : OnGpt d (freshGpt d.blockCount m) := onGpt_freshGpt large m
    have fresh := tableSlots_freshGpt works large m
    rcases onGpt.create_slots works block large fuel start.toNat_lt stop.toNat_lt name with
      ⟨_, full⟩ | ⟨k, m', p, accepted, _, _, _, onGpt', slots, first, last⟩
    · exact absurd (by rw [fresh]) (full 0 (by decide))
    · refine keepsIff_accepted (run.trans accepted) (fun _ => ⟨onGpt', large⟩) ?_
      rw [breaks_create]
      constructor
      · rintro ⟨_, clear⟩
        exact .inr ⟨clear, fun mbr => by rw [bare] at mbr; cases mbr⟩
      · rintro ((backwards | small) | ⟨clear, _⟩)
        · omega
        · rw [TableFull, bare] at small
          simp only at small
          omega
        · refine ⟨?_, clear⟩
          rw [onGpt'.usable works large, ← area, slots, foldSlots_large (clear.roomy area), fresh]
          exact (slotsInOrder_none _).put (clear.within first last) fun _ _ _ used => by cases used
  · rw [if_neg tried] at run
    refine keepsIff_refused ours order run (.inl ?_)
    by_cases reversed : start.toNat ≤ stop.toNat
    · refine .inr ?_
      rw [TableFull, bare]
      by_contra large
      exact tried ⟨reversed, by omega⟩
    · exact .inl (by omega)

theorem keepsIff_none (ours : HeaderOurs d m) (order : SlotsInOrder (usable d m) (tableSlots d m))
    (call : PartCall) : KeepsIff d fuel m call := by
  cases call with
  | create start stop type name =>
    exact keepsIff_create_none works block pos fuel bare ours order start stop type name
  | delete idx =>
    exact keepsIff_refused ours order
      (run_bind_err (run_delete_none works block pos fuel bare _) _) trivial
  | resize idx stop =>
    refine keepsIff_refused ours order
      (run_bind_err (run_resize_none works block pos fuel bare _ _) _) fun lo hlo => ?_
    rw [entryStart, bare] at hlo
    cases hlo

end None

/-! ## Whole runs -/

section Runs

variable {d : Disk} (works : d.Works) (block : d.blockSize = 512) (pos : 0 < d.blockCount) (fuel : Nat) {m : Media}

include works block pos

/-- **One call** keeps the table in order iff it fits. -/
theorem keepsIff (ours : HeaderOurs d m) (order : SlotsInOrder (usable d m) (tableSlots d m))
    (call : PartCall) : KeepsIff d fuel m call := by
  cases scheme : schemeOf d m with
  | gpt =>
    obtain ⟨onGpt, large⟩ := ours (hasHeader_of_gpt scheme)
    cases call with
    | create start stop type name =>
      exact onGpt.keepsIff_create works block large fuel order start stop type name
    | delete idx => exact onGpt.keepsIff_delete works block large fuel order idx
    | resize idx stop => exact onGpt.keepsIff_resize works block large fuel order idx stop
  | mbr =>
    cases call with
    | create start stop type name =>
      exact keepsIff_create_mbr works block pos fuel scheme order start stop type name
    | delete idx => exact keepsIff_delete_mbr works block pos fuel scheme order idx
    | resize idx stop => exact keepsIff_resize_mbr works block pos fuel scheme order idx stop
  | none => exact keepsIff_none works block pos fuel scheme ours order call

/-- A run keeps the table in order iff every call of it fits. -/
theorem keepsOrder_iff_fitsAll (ours : HeaderOurs d m) (order : SlotsInOrder (usable d m) (tableSlots d m))
    (calls : List PartCall) : KeepsOrder d fuel m calls ↔ FitsAll d fuel m calls := by
  induction calls generalizing m with
  | nil => exact iff_of_true ((inOrder_iff works block pos fuel ours).mpr order) trivial
  | cons call rest ih =>
    obtain ⟨ours', step⟩ := keepsIff works block pos fuel ours order call
    have here := (inOrder_iff works block pos fuel ours).mpr order
    constructor
    · intro ⟨_, refuses, later⟩
      -- the rest of the run starts in order, whatever is left of it
      have next : InOrder d fuel (call.after d fuel m) := by
        cases rest with
        | nil => exact later
        | cons _ _ => exact later.1
      have order' := (inOrder_iff works block pos fuel ours').mp next
      exact ⟨step.mp ⟨order', refuses⟩, (ih ours' order').mp later⟩
    · intro ⟨fits, later⟩
      obtain ⟨order', refuses⟩ := step.mpr fits
      exact ⟨here, refuses, (ih ours' order').mpr later⟩

end Runs

/-- A block of more than 512 bytes overruns the reader's buffer. -/
theorem run_list_wide {d : Disk} (wide : 512 < d.blockSize) (max fuel : Nat) (m : Media) :
    (canbootPartList d max).run fuel m = .trap := by
  have header : (readGptHeader d).run fuel m = .err m := by
    rw [readGptHeader, bind_require_false (by simpa using wide)]
  have detect : (canbootPartDetect d).run fuel m = .trap := by
    have narrow : decide (d.blockSize ≤ 512) = false := by simpa using wide
    rw [canbootPartDetect, run_bind_ok (run_attempt_err header)]
    simp only [run_bind, Prog.attempt, readSector, Prog.defined, narrow]
    rfl
  rw [canbootPartList, run_bind, detect]

/-- What an initialised disk starts with. -/
theorem paired_start {d : Disk} (works : d.Works) {fuel : Nat} {m m' : Media}
    (init : (canbootPartInitGpt d).run fuel m = .ok () m') :
    d.blockSize = 512 ∧ 64 ≤ d.blockCount ∧ m' = freshGpt d.blockCount m := by
  have whole := init
  rw [canbootPartInitGpt, bind_require_true works.writable, run_bind_eq_ok] at init
  obtain ⟨_, _, first, init⟩ := init
  obtain ⟨block, rfl⟩ := require_ok first
  rw [run_bind_eq_ok] at init
  obtain ⟨_, _, second, _⟩ := init
  obtain ⟨large, _⟩ := require_ok second
  have block : d.blockSize = 512 := by simpa using block
  have large : 64 ≤ d.blockCount := by simpa using large
  rw [run_canbootPartInitGpt works block large] at whole
  cases whole
  exact ⟨block, large, rfl⟩

/-- **Partitions stay apart and on the disk exactly as long as every call fits**: from an initialised
GPT, or an MBR in order, on blocks of 512 bytes. -/
theorem partitions_keep_order_iff {d : Disk} (works : d.Works) {fuel : Nat} {m : Media} (start : PartStart d fuel m)
    (calls : List PartCall) : KeepsOrder d fuel m calls ↔ d.blockSize = 512 ∧ FitsAll d fuel m calls := by
  cases start with
  | gpt init =>
    obtain ⟨block, large, rfl⟩ := paired_start works init
    rw [keepsOrder_iff_fitsAll works block (by omega) fuel (fun _ => ⟨onGpt_freshGpt large _, large⟩)
      (by rw [tableSlots_freshGpt works large]; exact slotsInOrder_none _)]
    exact ⟨fun fits => ⟨block, fits⟩, And.right⟩
  | mbr sector pos mbr order =>
    rcases Nat.lt_or_ge 512 d.blockSize with wide | narrow
    · refine iff_of_false (fun keeps => ?_) fun h => by omega
      have listed : InOrder d fuel m := by
        cases calls with
        | nil => exact keeps
        | cons _ _ => exact keeps.1
      obtain ⟨_, run, _⟩ := listed 0
      rw [run_list_wide wide] at run
      cases run
    · have block : d.blockSize = 512 := by omega
      rw [← tableSlots_mbr mbr, ← usable_mbr mbr] at order
      rw [keepsOrder_iff_fitsAll works block pos fuel (headerOurs_of_none (noHeader_of_mbr mbr)) order]
      exact ⟨fun fits => ⟨block, fits⟩, And.right⟩

/-- On a fresh GPT, a partition inside the usable area and its deletion. -/
theorem partitions_keep_order_iff_fresh :
    ∃ m, PartStart gptDisk 0 m ∧ KeepsOrder gptDisk 0 m [.create 40 50 0 none, .delete 0] := by
  have start : PartStart gptDisk 0 (freshGpt 128 fun _ _ => 0) :=
    .gpt (run_canbootPartInitGpt gptDisk_works rfl (by decide) 0)
  refine ⟨_, start, (partitions_keep_order_iff gptDisk_works start _).mpr ⟨rfl, .inr ⟨?_, ?_⟩, trivial,
    trivial⟩⟩
  · have onGpt : OnGpt gptDisk (freshGpt 128 fun _ _ => 0) := onGpt_freshGpt (by decide) _
    rw [Clear, onGpt.usable gptDisk_works (by decide),
      show tableSlots gptDisk (freshGpt 128 fun _ _ => 0) = fun _ => none from
        tableSlots_freshGpt gptDisk_works (by decide) _]
    exact ⟨by decide, by decide, by decide, fun _ _ _ used => (nomatch used)⟩
  · intro mbr
    have gpt : schemeOf gptDisk (freshGpt 128 fun _ _ => 0) = .gpt :=
      OnGpt.schemeOf gptDisk_works (by decide) (onGpt_freshGpt (by decide) _)
    rw [gpt] at mbr
    cases mbr

section Lowest

variable {d : Disk} (works : d.Works) (block : d.blockSize = 512) (roomy : 67 ≤ d.blockCount) (fuel : Nat)
  {start stop : UInt64} (order : start.toNat ≤ stop.toNat) (type : UInt8)

include works block roomy order

/-- A partition goes to the lowest empty slot of a GPT. -/
theorem create_lowest {m : Media} (onGpt : OnGpt d m) {k : Nat} (small : k < 128) (free : tableSlots d m k = none)
    (taken : ∀ j < k, tableSlots d m j ≠ none) :
    ∃ m' p, (canbootPartCreate d start.toNat stop.toNat type none).run fuel m = .ok k m' ∧
      (PartCall.create start stop type none).after d fuel m = m' ∧ OnGpt d m' ∧
      tableSlots d m' = update (tableSlots d m) k (some p) ∧ p.startLba = start.toNat ∧ p.endLba = stop.toNat := by
  have large : 64 ≤ d.blockCount := by omega
  have run := onGpt.run_create works block large fuel start.toNat stop.toNat type none
  rw [if_pos order] at run
  rcases onGpt.create_slots works block large fuel start.toNat_lt stop.toNat_lt none with
    ⟨_, full⟩ | ⟨j, m', p, accepted, _, empty, before, onGpt', slots, first, last⟩
  · exact absurd free (full k small)
  · have lowest : j = k := Nat.le_antisymm (Nat.le_of_not_lt fun less => before k less free)
      (Nat.le_of_not_lt fun less => taken j less empty)
    subst lowest
    rw [foldSlots_large roomy] at slots
    rw [accepted] at run
    refine ⟨m', p, run, ?_, onGpt', slots, first, last⟩
    rw [PartCall.after, PartCall.perform, run]
    rfl

/-- The first partition of a fresh GPT. -/
theorem create_first (m : Media) :
    ∃ m' p, (canbootPartCreate d start.toNat stop.toNat type none).run fuel (freshGpt d.blockCount m) = .ok 0 m' ∧
      (PartCall.create start stop type none).after d fuel (freshGpt d.blockCount m) = m' ∧ OnGpt d m' ∧
      tableSlots d m' = update (fun _ => none) 0 (some p) ∧ p.startLba = start.toNat ∧ p.endLba = stop.toNat := by
  have fresh := tableSlots_freshGpt works (by omega) m
  have first := create_lowest works block roomy fuel order type (onGpt_freshGpt (by omega) m) (k := 0) (by decide)
    (by rw [fresh]) (fun j less => absurd less (Nat.not_lt_zero j))
  rwa [fresh] at first

end Lowest

/-- Two creates on a fresh GPT, both accepted: the partitions reported share the blocks 45 to 50. -/
theorem overlapping_creates : ∃ m m1 m2 k1 k2 p q, (canbootPartInitGpt gptDisk).run 0 (fun _ _ => 0) = .ok () m ∧
      (canbootPartCreate gptDisk 40 50 0 none).run 0 m = .ok k1 m1 ∧
      (canbootPartCreate gptDisk 45 60 0 none).run 0 m1 = .ok k2 m2 ∧
      (∃ ps, (canbootPartList gptDisk 128).run 0 m2 = .ok ps m2 ∧ p ∈ ps ∧ q ∈ ps) ∧
      (p.startLba, p.endLba) = (40, 50) ∧ (q.startLba, q.endLba) = (45, 60) ∧
      ¬ KeepsOrder gptDisk 0 m [.create 40 50 0 none, .create 45 60 0 none] := by
  have works := gptDisk_works
  have large : 64 ≤ gptDisk.blockCount := by decide
  have roomy : 67 ≤ gptDisk.blockCount := by decide
  obtain ⟨m1, p, run1, after1, onGpt1, slots1, first1, last1⟩ := create_first works rfl roomy 0
    (show (40 : UInt64).toNat ≤ (50 : UInt64).toNat by decide) 0 (fun _ _ => 0)
  obtain ⟨m2, q, run2, after2, onGpt2, slots2, first2, last2⟩ := create_lowest works rfl roomy 0
    (show (45 : UInt64).toNat ≤ (60 : UInt64).toNat by decide) 0 onGpt1 (k := 1) (by decide) (by rw [slots1]; rfl)
    (fun j less => by rw [Nat.lt_one_iff.mp less, slots1]; exact some_ne_none p)
  rw [show (40 : UInt64).toNat = 40 from rfl, show (50 : UInt64).toNat = 50 from rfl] at run1
  rw [show (45 : UInt64).toNat = 45 from rfl, show (60 : UInt64).toNat = 60 from rfl] at run2
  have hitP : tableSlots gptDisk m2 0 = some p := by rw [slots2, slots1]; rfl
  have hitQ : tableSlots gptDisk m2 1 = some q := by rw [slots2, update_self]
  have ours : HeaderOurs gptDisk m2 := fun _ => ⟨onGpt2, large⟩
  refine ⟨freshGpt gptDisk.blockCount fun _ _ => 0, m1, m2, 0, 1, p, q,
    run_canbootPartInitGpt works rfl large 0, run1, run2,
    ⟨_, run_list_all works rfl (by decide) 0 ours, ?_, ?_⟩, by rw [first1, last1]; rfl, by rw [first2, last2]; rfl, ?_⟩
  · exact List.mem_map.mpr ⟨(0, p), mem_reports.mpr ⟨by decide, hitP⟩, rfl⟩
  · exact List.mem_map.mpr ⟨(1, q), mem_reports.mpr ⟨by decide, hitQ⟩, rfl⟩
  · rintro ⟨_, _, _, _, last⟩
    have order := (inOrder_iff works rfl (by decide) 0 ours).mp (after2 ▸ after1 ▸ last)
    have apart := order.apart 0 1 p q (by decide) hitP hitQ
    rw [Partition.Apart, first1, last1, first2, last2] at apart
    exact absurd apart (by decide)

end CanBoot
