import CanBoot.Fs.Fat32.Format
import CanBoot.Laws.Fat32.Content

/-!
# The empty volume

A volume with nothing in it: a root directory of one zeroed cluster, and no other cluster marked.
That is what mkfs leaves, and every other volume here is written from one. `tiny` is an empty volume
of six clusters, small enough to run the engine on.
-/

namespace CanBoot

open Fat32 List

namespace Vol

variable {fs : Fat32} {v : Vol}

/-- **An empty root is a well-formed volume.** -/
theorem laid_blank (g : fs.Geometry) (range : fs.InRange fs.rootCluster) (mark : eoc ≤ v.fat fs.rootCluster)
    (zero : ∀ o, o < fs.bytesPerCluster → v.data fs.rootCluster o = 0) :
    v.Laid fs (only (.dir fs.rootCluster)) fun _ => [fs.rootCluster] := by
  have ends : ∀ l ∈ fs.locs [fs.rootCluster], (v.slotAt l).isEnd = true := by
    rintro ⟨c, i⟩ hl
    obtain ⟨hc, hi⟩ := mem_locs.mp hl
    have hc : c = fs.rootCluster := by simpa using hc
    subst hc
    have inside : i * 32 + 0 < fs.bytesPerCluster := by
      have := g.entries
      omega
    exact decide_eq_true (zero _ inside)
  have dead : ∀ l ∈ fs.locs [fs.rootCluster], (v.slotAt l).live = false :=
    fun l hl => not_live_of_isEnd (ends l hl)
  have order : v.DirOK fs fs.rootCluster [fs.rootCluster] := by
    refine ⟨?_, ?_, fun hne => absurd rfl hne⟩
    · exact pairwise_of_forall_mem_list fun a _ b hb _ => ends b hb
    · intro l hl _ _ live
      rw [dead l hl] at live
      cases live
  refine layout_only ⟨⟨rfl, g.isCluster range, ?_⟩, ?_, ?_⟩ (cons_ne_nil _ _) ?_ ?_
  · simp only [Lib.IsChain, isCluster, Bool.and_eq_false_iff, decide_eq_false_iff_not]
    exact Or.inr (Nat.not_lt.mpr mark)
  · intro c hc
    rw [mem_singleton.mp hc]
    exact range
  · intro c hc
    have : fs.rootCluster = c := by simpa using hc
    rw [← this]
    exact mark
  · intro dc heq
    cases heq
    exact order
  · intro n
    cases child : fs.childIn v (.dir fs.rootCluster) [fs.rootCluster] n with
    | none => rfl
    | some x =>
      obtain ⟨_, l, hl, live, _⟩ := order.childIn_iff.mp child
      rw [dead l hl] at live
      cases live

/-- An empty root has a free slot. -/
theorem freeSlot_blank (g : fs.Geometry) (zero : ∀ o, v.data fs.rootCluster o = 0) :
    fs.freeSlot v [fs.rootCluster] ≠ none := by
  intro full
  have pos := g.entries_pos
  have mem : (fs.rootCluster, 0) ∈ fs.locs [fs.rootCluster] :=
    mem_locs.mpr ⟨mem_singleton_self _, by omega⟩
  have isEnd : (v.slotAt (fs.rootCluster, 0)).isEnd = true := decide_eq_true (zero _)
  refine absurd (find?_eq_none.mp full _ mem) (not_not_intro ?_)
  simp only [Entry.free, isEnd, Bool.true_or]

theorem tight_blank (rest : ∀ c, fs.InRange c → c ≠ fs.rootCluster → v.fat c = 0)
    (copies : ∀ k c, v.fats k c = v.fats 0 c) : v.Tight fs (only (.dir fs.rootCluster)) fun _ => [fs.rootCluster] where
  cover c hc marked := by
    refine ⟨[], _, rfl, mem_singleton.mpr ?_⟩
    exact Decidable.byContradiction fun hne => marked (rest c hc hne)
  exact hp := by
    obtain ⟨_, heq⟩ := only_eq_some.mp hp
    cases heq
  dotdot _ hs := absurd (only_eq_some.mp hs).1 (by simp)
  copies := copies
  plain hp := absurd (only_eq_some.mp hp).1 (by simp)

end Vol

/-! ## A small one -/

/-- A disk of nine blocks that never fails. -/
def tinyDisk : Disk where
  blockSize := 512
  blockCount := 9
  writable := true
  readFails _ _ := false
  writeFails _ _ := false
  leftover _ := 0

/-- Six clusters of one block each, behind a boot block and two one-block tables. -/
def tiny : Fat32 where
  disk := tinyDisk
  bytesPerSector := 512
  sectorsPerCluster := 1
  bytesPerCluster := 512
  reservedSectors := 1
  numFats := 2
  sectorsPerFat := 1
  rootCluster := 2
  fatStartLba := 1
  dataStartLba := 3
  totalClusters := 6

/-- The medium of the small volume: two table heads and zeros. -/
def tinyMedia : Media := fun l o => if l = 1 ∨ l = 2 then fatHeadSector o else 0

theorem tiny_geometry : tiny.Geometry where
  blockSize := rfl
  bytesPerSector := rfl
  spcPos := by decide
  bytesPerCluster := rfl
  small := by decide
  fatsPos := by decide
  reservedPos := by decide
  dataStart := rfl
  covers := by decide
  clusters := by decide
  serves := ⟨fun _ _ _ => rfl, fun _ _ _ => rfl⟩

theorem tiny_laid : (tiny.view tinyMedia).Laid tiny (Vol.only (.dir 2)) fun _ => [2] :=
  Vol.laid_blank tiny_geometry (by decide) (by decide +kernel) fun o ho => by
    show (if tiny.InRange 2 ∧ o < tiny.bytesPerCluster then _ else (0 : UInt8)) = 0
    rw [if_pos ⟨by decide, ho⟩]
    have : tiny.dataLba tiny.rootCluster + o / 512 = 3 := by
      have : o < 512 := ho
      show 3 + (2 - 2) * 1 + o / 512 = 3
      omega
    rw [this]
    rfl

/-- The name `A`. -/
theorem legalName_a : LegalName [65] :=
  ⟨[65], [], by decide, by decide, by decide, all_eq_true.1 rfl, rfl⟩

end CanBoot
