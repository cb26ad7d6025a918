import Mathlib.Data.List.Infix
import CanBoot.Rt.Heap

/-!
# The heap region

The sweep finds the longest gap between the intervals it has recorded, whatever their order and however they overlap
(`sweep_finds`), and rounding to pages keeps the region inside the gap (`region_inside`). What goes wrong goes wrong
before: an interval whose end is past 2^64, or a stack window that begins below address 0, wraps, looks empty and is
not recorded. So the region is safe exactly when it misses those (`heap_carved_iff`).
-/

namespace CanBoot.Rt

open Lib List Nat

/-! ## The sweep -/

section Sweep

variable {excl : List Span} {cursor ee : Nat}

/-- What the inner loop has found among the intervals seen so far. -/
def Nearest (cursor ee : Nat) (seen : List Span) : Option Span → Prop
  | none => ∀ e ∈ seen, e.stop ≤ cursor ∨ ee ≤ e.start
  | some c => cursor ≤ c.start ∧ c.start < ee ∧ c.start < c.stop ∧ (∃ e ∈ seen, e.start ≤ c.start ∧ e.stop = c.stop) ∧
      ∀ e ∈ seen, e.stop ≤ cursor ∨ ee ≤ e.start ∨ c.start ≤ max cursor e.start

section

variable (nonempty : ∀ e ∈ excl, e.start < e.stop) (some_ : cursor < ee)

include nonempty some_

theorem nearest_nextCut : Nearest cursor ee excl (nextCut excl cursor ee) := by
  induction excl using reverseRecOn with
  | nil => exact fun e mem => by cases mem
  | append_singleton seen k ih =>
    have before := ih fun e mem => nonempty e (mem_append_left _ mem)
    have proper := nonempty k (mem_append_right _ (mem_singleton_self k))
    have last : nextCut (seen ++ [k]) cursor ee = if k.stop ≤ cursor ∨ k.start ≥ ee then nextCut seen cursor ee
        else nearer ⟨if k.start < cursor then cursor else k.start, k.stop⟩ (nextCut seen cursor ee) := by
      rw [nextCut, foldl_append]
      rfl
    have clipped : (if k.start < cursor then cursor else k.start) = max cursor k.start := by
      split <;> omega
    rw [last, clipped]
    by_cases missed : k.stop ≤ cursor ∨ k.start ≥ ee
    · rw [if_pos missed]
      cases found : nextCut seen cursor ee with
      | none =>
        rw [found] at before
        intro e mem
        rcases mem_append.mp mem with old | new
        · exact before e old
        · rw [mem_singleton.mp new]
          exact missed
      | some c =>
        rw [found] at before
        obtain ⟨le, inside, proper, ⟨e, mem, blocked⟩, least⟩ := before
        refine ⟨le, inside, proper, ⟨e, mem_append_left _ mem, blocked⟩, fun e mem => ?_⟩
        rcases mem_append.mp mem with old | new
        · exact least e old
        · rw [mem_singleton.mp new]
          rcases missed with below | above
          · exact .inl below
          · exact .inr (.inl above)
    · rw [if_neg missed]
      have mine : k ∈ seen ++ [k] := mem_append_right _ (mem_singleton_self k)
      cases found : nextCut seen cursor ee with
      | none =>
        rw [found] at before
        refine ⟨Nat.le_max_left _ _, by show max cursor k.start < ee; omega,
          by show max cursor k.start < k.stop; omega, ⟨k, mine, Nat.le_max_right _ _, rfl⟩, fun e mem => ?_⟩
        rcases mem_append.mp mem with old | new
        · rcases before e old with below | above
          · exact .inl below
          · exact .inr (.inl above)
        · rw [mem_singleton.mp new]
          exact .inr (.inr (Nat.le_refl _))
      | some c =>
        rw [found] at before
        obtain ⟨le, inside, properC, ⟨e, memE, blocked⟩, least⟩ := before
        by_cases first : max cursor k.start < c.start
        · rw [nearer, if_pos first]
          refine ⟨Nat.le_max_left _ _, by show max cursor k.start < ee; omega,
            by show max cursor k.start < k.stop; omega, ⟨k, mine, Nat.le_max_right _ _, rfl⟩, fun e mem => ?_⟩
          rcases mem_append.mp mem with old | new
          · rcases least e old with below | above | later
            · exact .inl below
            · exact .inr (.inl above)
            · exact .inr (.inr (Nat.le_trans (Nat.le_of_lt first) later))
          · rw [mem_singleton.mp new]
            exact .inr (.inr (Nat.le_refl _))
        · rw [nearer, if_neg first]
          refine ⟨le, inside, properC, ⟨e, mem_append_left _ memE, blocked⟩, fun e mem => ?_⟩
          rcases mem_append.mp mem with old | new
          · exact least e old
          · rw [mem_singleton.mp new]
            exact .inr (.inr (Nat.le_of_not_lt first))

/-- The inner loop finds the next cut. -/
theorem cut_of_nextCut {c : Span} (found : nextCut excl cursor ee = some c) : Cut excl cursor ee c := by
  have nearest := nearest_nextCut nonempty some_
  rw [found] at nearest
  obtain ⟨le, inside, proper, blocked, least⟩ := nearest
  refine ⟨le, inside, proper, fun e mem x mine other => ?_, blocked⟩
  have low : cursor ≤ x := mine.1
  have high : x < c.start := mine.2
  have otherLow := other.1
  have otherHigh := other.2
  rcases least e mem with below | above | later
  · omega
  · omega
  · omega

theorem clear_of_nextCut (found : nextCut excl cursor ee = none) : (Span.mk cursor ee).Avoids excl := by
  have nearest := nearest_nextCut nonempty some_
  rw [found] at nearest
  intro e mem x mine other
  have low : cursor ≤ x := mine.1
  have high : x < ee := mine.2
  have otherLow := other.1
  have otherHigh := other.2
  rcases nearest e mem with below | above
  · omega
  · omega

end

/-- The gap that is kept. -/
def Best.span (best : Best) : Span := ⟨best.base, best.base + best.len⟩

/-- A best gap is as long as every gap in a span, and as the one before; if it is another, it lies in the span and
avoids the excluded intervals. -/
structure Improves (excl : List Span) (area : Span) (before after : Best) : Prop where
  grows : before.len ≤ after.len
  longest : ∀ s : Span, s.start < s.stop → s.Within area → s.Avoids excl → s.length ≤ after.len
  found : after = before ∨ after.span.Within area ∧ after.span.Avoids excl

theorem improves_offer (excl : List Span) (best : Best) {low high : Nat} (le : low ≤ high)
    (clear : (Span.mk low high).Avoids excl) : Improves excl ⟨low, high⟩ best (best.offer low high) := by
  rw [Best.offer]
  split
  · next longer =>
    refine ⟨Nat.le_of_lt longer, fun s _ within _ => within.length_le, .inr ?_⟩
    have whole : (Best.mk low (high - low)).span = ⟨low, high⟩ := by
      rw [Best.span, Nat.add_sub_cancel' le]
    rw [whole]
    exact ⟨⟨Nat.le_refl _, Nat.le_refl _⟩, clear⟩
  · next shorter =>
    refine ⟨Nat.le_refl _, fun s _ within _ => ?_, .inl rfl⟩
    have bound : s.length ≤ high - low := within.length_le
    omega

/-- **The sweep finds the longest gap**, in no more rounds than there are excluded intervals. -/
theorem sweep_finds (nonempty : ∀ e ∈ excl, e.start < e.stop) : ∀ (fuel cursor : Nat) (best : Best),
    excl.countP (fun e => cursor < e.stop) < fuel →
    ∃ best', sweep excl ee fuel cursor best = some best' ∧ Improves excl ⟨cursor, ee⟩ best best' := by
  intro fuel
  induction fuel with
  | zero =>
    intro cursor best lt
    omega
  | succ fuel ih =>
    intro cursor best lt
    rw [sweep]
    by_cases some_ : cursor < ee
    · rw [if_pos some_]
      cases found : nextCut excl cursor ee with
      | none =>
        exact ⟨_, rfl, improves_offer excl best (Nat.le_of_lt some_) (clear_of_nextCut nonempty some_ found)⟩
      | some c =>
        have cut := cut_of_nextCut nonempty some_ found
        have le := cut.le
        have proper := cut.nonempty
        have fewer := cut.fewer
        have first := improves_offer excl best cut.le cut.clear
        obtain ⟨best', swept, rest⟩ := ih c.stop (best.offer cursor c.start) (by omega)
        simp only [if_pos (show c.stop > cursor by omega)]
        refine ⟨best', swept, Nat.le_trans first.grows rest.grows, fun s some' within avoids => ?_, ?_⟩
        · rcases cut.left_or_right some' avoids with before | behind
          · exact Nat.le_trans (first.longest s some' ⟨within.1, before⟩ avoids) rest.grows
          · exact rest.longest s some' ⟨behind, within.2⟩ avoids
        · have inside := cut.inside
          rcases rest.found with same | ⟨within, avoids⟩
          · rw [same]
            rcases first.found with same | ⟨within, avoids⟩
            · exact .inl same
            · exact .inr ⟨within.trans ⟨Nat.le_refl _, Nat.le_of_lt inside⟩, avoids⟩
          · exact .inr ⟨within.trans ⟨by show cursor ≤ c.stop; omega, Nat.le_refl _⟩, avoids⟩
    · rw [if_neg some_]
      refine ⟨best, rfl, Nat.le_refl _, fun s some' within _ => ?_, .inl rfl⟩
      have low : cursor ≤ s.start := within.1
      have high : s.stop ≤ ee := within.2
      omega

theorem sweep_mono {fuel fuel' : Nat} (le : fuel ≤ fuel') : ∀ {cursor : Nat} {best found : Best},
    sweep excl ee fuel cursor best = some found → sweep excl ee fuel' cursor best = some found := by
  induction fuel generalizing fuel' with
  | zero =>
    intro cursor best found swept
    cases swept
  | succ fuel ih =>
    obtain ⟨more, rfl⟩ : ∃ k, fuel' = k + 1 := ⟨fuel' - 1, by omega⟩
    intro cursor best found swept
    rw [sweep] at swept ⊢
    split at swept
    · next some_ =>
      rw [if_pos some_]
      cases cut : nextCut excl cursor ee with
      | none =>
        rw [cut] at swept
        exact swept
      | some c =>
        rw [cut] at swept
        exact ih (by omega) swept
    · next none =>
      rw [if_neg none]
      exact swept

end Sweep

/-! ## The map -/

/-- The part of an entry below the ceiling. -/
def MmapEntry.below (arch : Arch) (m : MmapEntry) : Span :=
  ⟨m.base.toNat, min (m.base.toNat + m.length.toNat) arch.ceiling⟩

/-- The map is one whose entries end below 2^64. -/
def Boot.MapFits (b : Boot) : Prop := ∀ m ∈ b.entries, m.base.toNat + m.length.toNat < 18446744073709551616

/-- The best gap of some entries. -/
structure BestOf (arch : Arch) (excl : List Span) (ms : List MmapEntry) (best : Best) : Prop where
  longest : ∀ m ∈ ms, m.usable = true → ∀ s : Span, s.start < s.stop → s.Within (m.below arch) → s.Avoids excl →
    s.length ≤ best.len
  found : best.len = 0 ∨ ∃ m ∈ ms, m.usable = true ∧ best.span.Within (m.below arch) ∧ best.span.Avoids excl

section Scan

variable {arch : Arch} {excl : List Span} {fuel : Nat}

theorem scanEntry_improves (nonempty : ∀ e ∈ excl, e.start < e.stop) (enough : excl.length < fuel) {m : MmapEntry}
    (usable : m.usable = true) (fits : m.base.toNat + m.length.toNat < 18446744073709551616) (best : Best) :
    ∃ best', scanEntry arch excl fuel best m = some best' ∧ Improves excl (m.below arch) best best' := by
  rw [scanEntry, usable, if_neg (by decide)]
  dsimp only
  rw [u64_of_lt fits]
  by_cases above : m.base.toNat ≥ arch.ceiling
  · rw [if_pos above]
    refine ⟨best, rfl, Nat.le_refl _, fun s some_ within _ => ?_, .inl rfl⟩
    have low : m.base.toNat ≤ s.start := within.1
    have high : s.stop ≤ min (m.base.toNat + m.length.toNat) arch.ceiling := within.2
    omega
  · rw [if_neg above]
    have clipped : (if m.base.toNat + m.length.toNat > arch.ceiling then arch.ceiling
        else m.base.toNat + m.length.toNat) = min (m.base.toNat + m.length.toNat) arch.ceiling := by
      split <;> omega
    rw [clipped]
    exact sweep_finds nonempty fuel _ best (Nat.lt_of_le_of_lt countP_le_length enough)

/-- **The scan finds the longest gap of the map.** -/
theorem scan_finds (nonempty : ∀ e ∈ excl, e.start < e.stop) (enough : excl.length < fuel) (ms : List MmapEntry)
    (fits : ∀ m ∈ ms, m.base.toNat + m.length.toNat < 18446744073709551616) :
    ∃ best, ms.foldlM (scanEntry arch excl fuel) ⟨0, 0⟩ = some best ∧ BestOf arch excl ms best := by
  induction ms using reverseRecOn with
  | nil => exact ⟨⟨0, 0⟩, rfl, ⟨fun m mem => absurd mem (not_mem_nil), .inl rfl⟩⟩
  | append_singleton ms m ih =>
    obtain ⟨best, scanned, known⟩ := ih fun m mem => fits m (mem_append_left _ mem)
    have mine : m ∈ ms ++ [m] := mem_append_right _ (mem_singleton_self m)
    have onto : ∀ best', scanEntry arch excl fuel best m = some best' →
        (ms ++ [m]).foldlM (scanEntry arch excl fuel) ⟨0, 0⟩ = some best' := by
      intro best' last
      rw [foldlM_append, scanned]
      show [m].foldlM (scanEntry arch excl fuel) best = some best'
      rw [foldlM_cons, last]
      rfl
    cases usable : m.usable with
    | false =>
      refine ⟨best, onto best (by rw [scanEntry, usable]; rfl), fun k mem used => ?_, ?_⟩
      · rcases mem_append.mp mem with old | new
        · exact known.longest k old used
        · rw [mem_singleton.mp new, usable] at used
          cases used
      · rcases known.found with none | ⟨k, mem, found⟩
        · exact .inl none
        · exact .inr ⟨k, mem_append_left _ mem, found⟩
    | true =>
      obtain ⟨best', last, improves⟩ := scanEntry_improves nonempty enough usable (fits m mine) best
      refine ⟨best', onto best' last, fun k mem used s some_ within avoids => ?_, ?_⟩
      · rcases mem_append.mp mem with old | new
        · exact Nat.le_trans (known.longest k old used s some_ within avoids) improves.grows
        · rw [mem_singleton.mp new] at within
          exact improves.longest s some_ within avoids
      · rcases improves.found with same | ⟨within, avoids⟩
        · rw [same]
          rcases known.found with none | ⟨k, mem, found⟩
          · exact .inl none
          · exact .inr ⟨k, mem_append_left _ mem, found⟩
        · exact .inr ⟨m, mine, usable, within, avoids⟩

theorem scanEntry_mono {fuel' : Nat} (le : fuel ≤ fuel') {m : MmapEntry} {best found : Best}
    (scanned : scanEntry arch excl fuel best m = some found) : scanEntry arch excl fuel' best m = some found := by
  rw [scanEntry] at scanned ⊢
  split at scanned
  · next unusable =>
    rw [if_pos unusable]
    exact scanned
  · next usable =>
    rw [if_neg usable]
    dsimp only at scanned ⊢
    split at scanned
    · next above =>
      rw [if_pos above]
      exact scanned
    · next below =>
      rw [if_neg below]
      exact sweep_mono le scanned

theorem scan_mono {fuel' : Nat} (le : fuel ≤ fuel') (ms : List MmapEntry) : ∀ {best found : Best},
    ms.foldlM (scanEntry arch excl fuel) best = some found → ms.foldlM (scanEntry arch excl fuel') best = some found := by
  induction ms with
  | nil => exact fun scanned => scanned
  | cons m ms ih =>
    intro best found scanned
    rw [foldlM_cons] at scanned ⊢
    cases one : scanEntry arch excl fuel best m with
    | none =>
      rw [one] at scanned
      cases scanned
    | some next =>
      rw [one] at scanned
      rw [scanEntry_mono le one]
      exact ih scanned

end Scan

/-- A region, as a span. -/
def Region.span (r : Region) : Span := ⟨r.base, r.base + r.size⟩

theorem Best.region_of_empty {best : Best} (empty : best.len = 0) : best.region = none := by
  simp only [Best.region]
  rw [empty, if_neg (Nat.not_lt_zero _), if_neg (by decide)]

/-- **Rounding to pages** keeps the region inside the gap and takes less than a page off each end. -/
theorem region_inside {best : Best} (fits : best.base + best.len < 18446744073709551616) {r : Region}
    (selected : best.region = some r) :
    r.base % 4096 = 0 ∧ r.size % 4096 = 0 ∧ 1048576 ≤ r.size ∧ r.span.Within best.span ∧
      r.base < best.base + 4096 ∧ best.base + best.len < r.base + r.size + 4096 := by
  simp only [Best.region] at selected
  by_cases wraps : best.base + 4095 < 18446744073709551616
  · rw [u64_of_lt wraps, sub64_of_le (by omega) (by omega)] at selected
    by_cases longer : best.len > (best.base + 4095) / 4096 * 4096 - best.base
    · rw [if_pos longer] at selected
      by_cases large : (best.len - ((best.base + 4095) / 4096 * 4096 - best.base)) / 4096 * 4096 ≥ 1024 * 1024
      · rw [if_pos large] at selected
        have base : (best.base + 4095) / 4096 * 4096 = r.base := congrArg Region.base (Option.some.inj selected)
        have size : (best.len - ((best.base + 4095) / 4096 * 4096 - best.base)) / 4096 * 4096 = r.size :=
          congrArg Region.size (Option.some.inj selected)
        refine ⟨by omega, by omega, by omega, ⟨?_, ?_⟩, by omega, by omega⟩
        · show best.base ≤ r.base
          omega
        · show r.base + r.size ≤ best.base + best.len
          omega
      · rw [if_neg large] at selected
        cases selected
    · rw [if_neg longer, if_neg (by decide)] at selected
      cases selected
  · -- the first page boundary is 2^64, behind the gap
    have zero : u64 (best.base + 4095) / 4096 * 4096 = 0 := by
      rw [u64]
      omega
    have lead : sub64 0 best.base = 18446744073709551616 - best.base := by
      rw [sub64_of_lt (by omega) (by omega), Nat.zero_add]
    have short : ¬ best.len > 18446744073709551616 - best.base := by omega
    rw [zero, lead, if_neg short, if_neg (by decide)] at selected
    cases selected

/-! ## What must be left alone -/

/-- The stack window. -/
def Boot.stack (b : Boot) : Span := ⟨b.sp.toNat - 512 * 1024, b.sp.toNat + 64 * 1024⟩

/-- **The protected intervals**: kernel, `boot_info`, framebuffer, boot files and stack window, where they are. -/
def Boot.guarded (b : Boot) : List Span :=
  (if b.kernelStart ≠ 0 ∧ b.kernelEnd ≠ 0 then [⟨b.kernelStart.toNat, b.kernelEnd.toNat⟩] else []) ++
    [⟨b.bi.toNat, b.bi.toNat + bootInfoSize⟩] ++
    (if b.fbRgb ∧ b.fbAddr ≠ 0 then
      [⟨b.fbAddr.toNat, b.fbAddr.toNat + b.fbPitch.toNat * b.fbHeight.toNat⟩] else []) ++
    (b.bootFiles.filter (·.size ≠ 0)).map (fun f => ⟨f.addr.toNat, f.addr.toNat + f.size.toNat⟩) ++ [b.stack]

/-- **The intervals whose 64-bit ends wrap**: they reach past 2^64, or are the window of a stack pointer below
512 KiB. -/
def Boot.wrapped (b : Boot) : List Span :=
  b.guarded.filter (fun g => 18446744073709551616 ≤ g.stop) ++ if b.sp.toNat < 512 * 1024 then [b.stack] else []

section Record

/-- What `heap_iv_add` appends. -/
def recorded (s e : Nat) : List Span := if e ≤ s then [] else [⟨s, e⟩]

theorem recorded_of_lt {s e : Nat} (proper : s < e) : recorded s e = [⟨s, e⟩] := if_neg (by omega)

theorem recorded_of_le {s e : Nat} (empty : e ≤ s) : recorded s e = [] := if_pos empty

theorem heapIvAdd_eq {iv : List Span} (room : iv.length < 12) (s e : Nat) : heapIvAdd iv s e = iv ++ recorded s e := by
  have space : ¬ iv.length ≥ 8 + bootFileMax := by
    rw [bootFileMax]
    omega
  rw [heapIvAdd, recorded]
  by_cases empty : e ≤ s
  · rw [if_pos (.inl empty), if_pos empty, append_nil]
  · rw [if_neg (by rintro (h | h); exacts [empty h, space h]), if_neg empty]

theorem length_recorded (s e : Nat) : (recorded s e).length ≤ 1 := by
  rw [recorded]
  split
  · exact Nat.zero_le 1
  · exact Nat.le_refl 1

/-- The part of `excl` that comes of a file. -/
def recordedFile (f : BootFile) : List Span :=
  if f.size ≠ 0 then recorded f.addr.toNat (u64 (f.addr.toNat + f.size.toNat)) else []

theorem length_recordedFile (f : BootFile) : (recordedFile f).length ≤ 1 := by
  rw [recordedFile]
  split
  · exact length_recorded _ _
  · exact Nat.zero_le 1

theorem length_recordedFiles (fs : List BootFile) : (fs.flatMap recordedFile).length ≤ fs.length := by
  induction fs with
  | nil => exact Nat.le_refl 0
  | cons f fs ih =>
    have one := length_recordedFile f
    rw [flatMap_cons, length_append, length_cons]
    omega

theorem recordFiles_eq (fs : List BootFile) : ∀ iv : List Span, iv.length + fs.length < 12 →
    fs.foldl (fun iv f => if f.size ≠ 0 then heapIvAdd iv f.addr.toNat (u64 (f.addr.toNat + f.size.toNat)) else iv) iv =
      iv ++ fs.flatMap recordedFile := by
  induction fs with
  | nil =>
    intro iv _
    rw [flatMap_nil, append_nil]
    rfl
  | cons f fs ih =>
    intro iv room
    rw [length_cons] at room
    have one : (if f.size ≠ 0 then heapIvAdd iv f.addr.toNat (u64 (f.addr.toNat + f.size.toNat)) else iv) =
        iv ++ recordedFile f := by
      rw [recordedFile]
      split
      · exact heapIvAdd_eq (by omega) _ _
      · rw [append_nil]
    have small := length_recordedFile f
    rw [foldl_cons, one, ih _ (by rw [length_append]; omega), flatMap_cons, append_assoc]

variable {b : Boot}

/-- What `canboot_heap_init` records: the array has room for all of it. -/
theorem excl_eq (b : Boot) : b.excl =
    (if b.kernelStart ≠ 0 ∧ b.kernelEnd ≠ 0 then recorded b.kernelStart.toNat b.kernelEnd.toNat else []) ++
      recorded b.bi.toNat (u64 (b.bi.toNat + bootInfoSize)) ++
      (if b.fbRgb ∧ b.fbAddr ≠ 0 then
        recorded b.fbAddr.toNat (u64 (b.fbAddr.toNat + b.fbPitch.toNat * b.fbHeight.toNat)) else []) ++
      b.bootFiles.flatMap recordedFile ++
      recorded (sub64 b.sp.toNat (512 * 1024)) (u64 (b.sp.toNat + 64 * 1024)) := by
  simp only [Boot.excl]
  have kernel : (if b.kernelStart ≠ 0 ∧ b.kernelEnd ≠ 0 then heapIvAdd [] b.kernelStart.toNat b.kernelEnd.toNat else []) =
      if b.kernelStart ≠ 0 ∧ b.kernelEnd ≠ 0 then recorded b.kernelStart.toNat b.kernelEnd.toNat else [] := by
    split
    · exact heapIvAdd_eq (by decide) _ _
    · rfl
  -- each part adds at most one interval, a file one, so the array never fills
  rw [kernel]
  generalize first : (if b.kernelStart ≠ 0 ∧ b.kernelEnd ≠ 0 then recorded b.kernelStart.toNat b.kernelEnd.toNat
    else []) = ivK
  have lengthK : ivK.length ≤ 1 := by
    rw [← first]
    split
    · exact length_recorded _ _
    · exact Nat.zero_le 1
  have lengthB := length_recorded b.bi.toNat (u64 (b.bi.toNat + bootInfoSize))
  rw [heapIvAdd_eq (show ivK.length < 12 by omega)]
  have screen : ∀ iv : List Span, iv.length < 12 → (if b.fbRgb = true ∧ b.fbAddr ≠ 0 then
        heapIvAdd iv b.fbAddr.toNat (u64 (b.fbAddr.toNat + b.fbPitch.toNat * b.fbHeight.toNat)) else iv) =
      iv ++ if b.fbRgb = true ∧ b.fbAddr ≠ 0 then
        recorded b.fbAddr.toNat (u64 (b.fbAddr.toNat + b.fbPitch.toNat * b.fbHeight.toNat)) else [] := by
    intro iv room
    split
    · exact heapIvAdd_eq room _ _
    · rw [append_nil]
  rw [screen _ (by rw [length_append]; omega)]
  generalize second : (if b.fbRgb = true ∧ b.fbAddr ≠ 0 then
    recorded b.fbAddr.toNat (u64 (b.fbAddr.toNat + b.fbPitch.toNat * b.fbHeight.toNat)) else []) = ivF
  have lengthF : ivF.length ≤ 1 := by
    rw [← second]
    split
    · exact length_recorded _ _
    · exact Nat.zero_le 1
  have files : b.bootFiles.length ≤ 4 := by
    rw [Boot.bootFiles, length_map, length_range]
    exact Nat.min_le_right _ _
  rw [recordFiles_eq _ _ (by simp only [length_append]; omega)]
  have lengthFiles := length_recordedFiles b.bootFiles
  rw [heapIvAdd_eq (by simp only [length_append]; omega)]

/-- A span from a start and a size is recorded as it is, unless it is empty or wraps. -/
theorem mem_recorded {start size : Nat} (low : start < 18446744073709551616) (word : size < 18446744073709551616)
    {e : Span} : e ∈ recorded start (u64 (start + size)) ↔
      e = ⟨start, start + size⟩ ∧ 0 < size ∧ start + size < 18446744073709551616 := by
  rw [recorded, u64]
  by_cases fits : start + size < 18446744073709551616
  · rw [mod_eq_of_lt fits]
    split
    · next empty =>
      constructor
      · intro mem
        cases mem
      · rintro ⟨-, some_, -⟩
        omega
    · rw [mem_singleton]
      constructor
      · rintro rfl
        exact ⟨rfl, by omega, fits⟩
      · rintro ⟨rfl, -⟩
        rfl
  · rw [if_pos (by omega)]
    constructor
    · intro mem
      cases mem
    · rintro ⟨-, -, wraps⟩
      exact absurd wraps fits

theorem recorded_nonempty {s e : Nat} {x : Span} (mem : x ∈ recorded s e) : x = ⟨s, e⟩ ∧ s < e := by
  rw [recorded] at mem
  split at mem
  · cases mem
  · exact ⟨mem_singleton.mp mem, by omega⟩

theorem pixels_lt (b : Boot) : b.fbPitch.toNat * b.fbHeight.toNat < 18446744073709551616 :=
  Nat.mul_lt_mul'' b.fbPitch.toNat_lt b.fbHeight.toNat_lt

/-- A window around an address is recorded as it is, unless it wraps. -/
theorem mem_recorded_window {sp below above : Nat} (word : sp < 18446744073709551616) (some_ : 0 < below)
    (small : below + above < 18446744073709551616) {e : Span} : e ∈ recorded (sub64 sp below) (u64 (sp + above)) ↔
      e = ⟨sp - below, sp + above⟩ ∧ below ≤ sp ∧ sp + above < 18446744073709551616 := by
  by_cases low : below ≤ sp
  · rw [sub64_of_le word low]
    by_cases high : sp + above < 18446744073709551616
    · rw [u64_of_lt high, recorded_of_lt (by omega), mem_singleton]
      exact ⟨fun same => ⟨same, low, high⟩, fun all => all.1⟩
    · rw [u64_of_ge (Nat.le_of_not_lt high) (by omega), recorded_of_le (by omega)]
      exact ⟨fun mem => absurd mem not_mem_nil, fun all => absurd all.2.2 high⟩
  · rw [sub64_of_lt (by omega) (Nat.lt_of_not_le low), u64_of_lt (by omega), recorded_of_le (by omega)]
    exact ⟨fun mem => absurd mem not_mem_nil, fun all => absurd all.2.1 low⟩

/-- **What is recorded is protected**, and is not empty. -/
theorem guarded_of_excl {e : Span} (mem : e ∈ b.excl) : e ∈ b.guarded ∧ e.start < e.stop := by
  rw [excl_eq] at mem
  simp only [mem_append, mem_flatMap] at mem
  simp only [Boot.guarded, mem_append, mem_singleton, mem_map, mem_filter]
  rcases mem with (((kernel | info) | screen) | ⟨f, file, mem⟩) | stack
  · split at kernel
    · next present =>
      obtain ⟨rfl, proper⟩ := recorded_nonempty kernel
      rw [if_pos present, mem_singleton]
      exact ⟨.inl (.inl (.inl (.inl rfl))), proper⟩
    · cases kernel
  · obtain ⟨rfl, some_, -⟩ := (mem_recorded b.bi.toNat_lt (by decide)).mp info
    exact ⟨.inl (.inl (.inl (.inr rfl))), Nat.lt_add_of_pos_right some_⟩
  · split at screen
    · next present =>
      obtain ⟨rfl, some_, -⟩ := (mem_recorded b.fbAddr.toNat_lt (pixels_lt b)).mp screen
      rw [if_pos present, mem_singleton]
      exact ⟨.inl (.inl (.inr rfl)), Nat.lt_add_of_pos_right some_⟩
    · cases screen
  · rw [recordedFile] at mem
    split at mem
    · next size =>
      obtain ⟨rfl, some_, -⟩ := (mem_recorded f.addr.toNat_lt f.size.toNat_lt).mp mem
      exact ⟨.inl (.inr ⟨f, ⟨file, decide_eq_true size⟩, rfl⟩), Nat.lt_add_of_pos_right some_⟩
    · cases mem
  · obtain ⟨rfl, -, -⟩ := (mem_recorded_window b.sp.toNat_lt (by decide) (by decide)).mp stack
    refine ⟨.inr rfl, ?_⟩
    show b.sp.toNat - 512 * 1024 < b.sp.toNat + 64 * 1024
    omega

/-- **What is protected is recorded**, unless it is empty or wraps. -/
theorem excl_or_wrapped {g : Span} (mem : g ∈ b.guarded) : g ∈ b.excl ∨ g.stop ≤ g.start ∨ g ∈ b.wrapped := by
  by_cases past : 18446744073709551616 ≤ g.stop
  · exact .inr (.inr (mem_append_left _ (mem_filter.mpr ⟨mem, decide_eq_true past⟩)))
  by_cases empty : g.stop ≤ g.start
  · exact .inr (.inl empty)
  rw [Boot.wrapped, mem_append, excl_eq]
  simp only [Boot.guarded, mem_append, mem_singleton, mem_map, mem_filter] at mem
  simp only [mem_append, mem_flatMap]
  rcases mem with (((kernel | info) | screen) | ⟨f, ⟨file, size⟩, rfl⟩) | stack
  · split at kernel
    · next present =>
      rw [mem_singleton] at kernel
      subst kernel
      rw [if_pos present, recorded, if_neg empty]
      exact .inl (.inl (.inl (.inl (.inl (mem_singleton_self _)))))
    · cases kernel
  · subst info
    refine .inl (.inl (.inl (.inl (.inr ?_))))
    exact (mem_recorded b.bi.toNat_lt (by decide)).mpr ⟨rfl, by decide, Nat.lt_of_not_le past⟩
  · split at screen
    · next present =>
      rw [mem_singleton] at screen
      subst screen
      rw [if_pos present]
      refine .inl (.inl (.inl (.inr ?_)))
      refine (mem_recorded b.fbAddr.toNat_lt (pixels_lt b)).mpr ⟨rfl, ?_, Nat.lt_of_not_le past⟩
      dsimp only at empty
      omega
    · cases screen
  · refine .inl (.inl (.inr ⟨f, file, ?_⟩))
    rw [recordedFile, if_pos (of_decide_eq_true size)]
    refine (mem_recorded f.addr.toNat_lt f.size.toNat_lt).mpr ⟨rfl, ?_, Nat.lt_of_not_le past⟩
    dsimp only at empty
    omega
  · subst stack
    by_cases low : b.sp.toNat < 512 * 1024
    · rw [if_pos low]
      exact .inr (.inr (.inr (mem_singleton_self _)))
    · refine .inl (.inr ((mem_recorded_window b.sp.toNat_lt (by decide) (by decide)).mpr ?_))
      exact ⟨rfl, Nat.le_of_not_lt low, Nat.lt_of_not_le past⟩

end Record

/-! ## The region -/

/-- **A well-carved region**: whole pages, a MiB at least, in one usable entry below the ceiling, apart from everything
protected; and the gap it was cut from is as long as any stretch of usable memory that avoids what is protected. -/
structure Carved (arch : Arch) (b : Boot) (r : Region) : Prop where
  aligned : r.base % 4096 = 0 ∧ r.size % 4096 = 0
  large : 1048576 ≤ r.size
  inside : ∃ m ∈ b.entries, m.usable = true ∧ r.span.Within (m.below arch)
  apart : ∀ g ∈ b.guarded, r.span.Apart g
  longest : ∃ gap : Span, r.span.Within gap ∧ r.base < gap.start + 4096 ∧ gap.stop < r.base + r.size + 4096 ∧
    ∀ m ∈ b.entries, m.usable = true → ∀ s : Span, s.start < s.stop → s.Within (m.below arch) → s.Avoids b.guarded →
      s.length ≤ gap.length

/-- **The heap is carved safely**: the scan ends, and a region it selects is well carved. -/
def HeapCarved (arch : Arch) (b : Boot) : Prop :=
  ∃ picked, (∀ fuel, b.excl.length < fuel → canbootHeapInit arch fuel b = some picked) ∧
    ∀ r, picked = some r → Carved arch b r

/-- A selected region misses the intervals that wrap. -/
def MissesWrapped (arch : Arch) (b : Boot) : Prop :=
  ∀ r, canbootHeapInit arch (b.excl.length + 1) b = some (some r) → r.span.Avoids b.wrapped

theorem wrapped_guarded {b : Boot} {g : Span} (mem : g ∈ b.wrapped) : g ∈ b.guarded := by
  rw [Boot.wrapped, mem_append] at mem
  rcases mem with past | below
  · exact (mem_filter.mp past).1
  · split at below
    · rw [mem_singleton.mp below, Boot.guarded]
      exact mem_append_right _ (mem_singleton_self _)
    · cases below

theorem ceiling_lt (arch : Arch) : arch.ceiling < 18446744073709551616 := by
  cases arch <;> decide

/-- **The scan ends, and what it selects is well carved** if it misses the intervals that wrap. -/
theorem carved_of_misses {arch : Arch} {b : Boot} (fits : b.MapFits) (misses : MissesWrapped arch b) :
    HeapCarved arch b := by
  have nonempty : ∀ e ∈ b.excl, e.start < e.stop := fun e mem => (guarded_of_excl mem).2
  obtain ⟨best, scanned, known⟩ : ∃ best, b.entries.foldlM (scanEntry arch b.excl (b.excl.length + 1)) ⟨0, 0⟩ = some best ∧
      BestOf arch b.excl b.entries best := scan_finds nonempty (lt_succ_self _) b.entries fits
  have runs : ∀ fuel, b.excl.length < fuel → canbootHeapInit arch fuel b = some best.region := by
    intro fuel enough
    rw [canbootHeapInit, scan_mono enough b.entries scanned]
    rfl
  refine ⟨best.region, runs, fun r selected => ?_⟩
  have missed := misses r (by rw [runs _ (lt_succ_self _), selected])
  rcases known.found with none | ⟨m, mem, usable, within, avoids⟩
  · -- an empty gap has no room for a MiB
    rw [Best.region_of_empty none] at selected
    cases selected
  · have top : best.base + best.len ≤ min (m.base.toNat + m.length.toNat) arch.ceiling := within.2
    have ceiling := ceiling_lt arch
    obtain ⟨base, size, large, shrunk, first, last⟩ := region_inside (by omega) selected
    refine ⟨⟨base, size⟩, large, ⟨m, mem, usable, shrunk.trans within⟩, fun g guard => ?_, best.span, shrunk, first, last,
      fun k memK usableK s some_ inside clear => ?_⟩
    · rcases excl_or_wrapped guard with known | empty | wraps
      · exact shrunk.avoids avoids g known
      · exact Span.apart_of_empty empty _
      · exact missed g wraps
    · have bound := known.longest k memK usableK s some_ inside fun e memE => clear e (guarded_of_excl memE).1
      show s.length ≤ best.base + best.len - best.base
      omega

/-- A machine with 16 MiB at zero, its kernel and `boot_info` at 32 MiB, and no framebuffer or files. -/
def smallBoot (sp : UInt64) : Boot where
  kernelStart := 0x2100000
  kernelEnd := 0x2200000
  bi := 0x2000000
  fbRgb := false
  fbAddr := 0
  fbPitch := 0
  fbHeight := 0
  fileCount := 0
  files := fun _ => ⟨0, 0⟩
  sp := sp
  mmapCount := 1
  mmap := fun _ => ⟨0, 0x1000000, true⟩

theorem smallBoot_fits (sp : UInt64) : (smallBoot sp).MapFits := by
  intro m mem
  obtain rfl : m = ⟨0, 0x1000000, true⟩ := mem_singleton.mp mem
  decide

end CanBoot.Rt
