import CanBoot.Laws.Fat32.Ratio
import Mathlib.Data.Finset.Card

/-!
# Freeing a chain nobody vouches for

`free_chain` clears the entry of a cluster before it goes on to the next, so a chain that comes back to itself ends at
an entry that is already cleared: every round but the last clears one more entry (`taken`). Where the entries and the
start stay inside the tables, it ends within that many rounds, frees the clusters on its path in every copy, and leaves
all else as it was (`freeChain_frees`).
-/

namespace CanBoot

open Lib Lib.Prog Nat

/-- The clusters met from `first` on, where `link` is the entry of a cluster. -/
inductive OnPath (link : Nat → Nat) (first : Nat) : Nat → Prop
  | start : isCluster first → OnPath link first first
  | next {c : Nat} : OnPath link first c → isCluster (link c) → OnPath link first (link c)

namespace OnPath

variable {link link' : Nat → Nat} {first x : Nat} {P : Nat → Prop}

theorem inside (on : OnPath link first x) (begins : isCluster first → P first)
    (closed : ∀ c, P c → isCluster (link c) → P (link c)) : P x := by
  induction on with
  | start live => exact begins live
  | next _ live ih => exact closed _ ih live

theorem live (on : OnPath link first x) : isCluster first :=
  on.inside (P := fun _ => isCluster first) id fun _ live _ => live

/-- **A path is its first cluster and the path behind it**, also when the entry of the first is cleared before the walk
goes on. -/
theorem cleared (live : isCluster first) (here : P first)
    (closed : ∀ c, P c → isCluster (link c) → P (link c)) (zero : link' first = 0)
    (same : ∀ c, P c → c ≠ first → link' c = link c) :
    OnPath link first x ↔ x = first ∨ OnPath link' (link first) x := by
  constructor
  · intro on
    induction on with
    | start => exact .inl rfl
    | @next c on live' ih =>
      by_cases back : c = first
      · subst back
        exact .inr (.start live')
      · obtain rfl | behind := ih
        · exact absurd rfl back
        · rw [← same c (on.inside (fun _ => here) closed) back] at live' ⊢
          exact .inr (behind.next live')
  · rintro (rfl | behind)
    · exact .start live
    · induction behind with
      | start live' => exact (OnPath.start live).next live'
      | @next c _ live' ih =>
        by_cases back : c = first
        · rw [back, zero] at live'
          exact absurd live' (by decide)
        · rw [same c (ih.inside (fun _ => here) closed) back] at live' ⊢
          exact ih.next live'

end OnPath

namespace Fat32

/-- The entries a copy of the table holds. -/
def fatEntries (fs : Fat32) : Nat := fs.sectorsPerFat * fs.bytesPerSector / 4

/-- The 28-bit entry of a cluster, in the first copy. -/
def word (fs : Fat32) (m : Media) (c : Nat) : Nat := le32 (fs.bytes m) (fs.wordAt 1 0 c) % 0x10000000

/-- Every entry stays inside the table or ends a chain. -/
def Closed (fs : Fat32) (m : Media) : Prop :=
  ∀ c, fs.HasEntry c → fs.HasEntry (fs.word m c) ∨ eoc ≤ fs.word m c

/-- The chosen entries are cleared in every copy, but for their top four bits. Every other entry is as it was, and so is
every block outside the tables. -/
structure Cleared (fs : Fat32) (chosen : Nat → Prop) (m m' : Media) : Prop where
  cleared : ∀ c, fs.HasEntry c → chosen c → ∀ j, j < fs.numFats →
    le32 (fs.bytes m') (fs.wordAt 1 j c) = patched (le32 (fs.bytes m) (fs.wordAt 1 j c)) 0
  kept : ∀ c, fs.HasEntry c → ¬ chosen c → ∀ j, j < fs.numFats →
    le32 (fs.bytes m') (fs.wordAt 1 j c) = le32 (fs.bytes m) (fs.wordAt 1 j c)
  apart : ∀ lba o, o < fs.disk.blockSize →
    lba < fs.fatStartLba ∨ fs.fatStartLba + fs.numFats * fs.sectorsPerFat ≤ lba → m' lba o = m lba o

variable {fs : Fat32} {m m' : Media} {c first fuel : Nat}

theorem Cleared.trans {A B : Nat → Prop} {m₁ m₂ : Media} (one : fs.Cleared A m m₁) (two : fs.Cleared B m₁ m₂) :
    fs.Cleared (fun c => A c ∨ B c) m m₂ := by
  refine ⟨fun c has on j copy => ?_, fun c has off j copy => ?_, fun lba o small out => ?_⟩
  · by_cases first : A c <;> by_cases second : B c
    · rw [two.cleared c has second j copy, one.cleared c has first j copy]
      unfold patched
      omega
    · rw [two.kept c has second j copy, one.cleared c has first j copy]
    · rw [two.cleared c has second j copy, one.kept c has first j copy]
    · exact absurd on (not_or.mpr ⟨first, second⟩)
  · rw [not_or] at off
    rw [two.kept c has off.2 j copy, one.kept c has off.1 j copy]
  · rw [two.apart lba o small out, one.apart lba o small out]

theorem hasEntry_iff : fs.HasEntry c ↔ c < fs.fatEntries := by
  unfold HasEntry fatEntries
  omega

/-! ## One entry -/

section Clear

variable (s : fs.Scaled 1) (has : fs.HasEntry first)

include s has

/-- The word of another entry lies apart from every copy of this one. -/
theorem wordAt_other (other : fs.HasEntry c) (ne : c ≠ first) (i j : Nat) :
    fs.wordAt 1 j c + 4 ≤ fs.wordAt 1 i first ∨ fs.wordAt 1 i first + 4 ≤ fs.wordAt 1 j c := by
  rcases Nat.lt_trichotomy i j with lt | rfl | gt
  · exact .inr (s.wordAt_apart has lt c)
  · unfold wordAt
    omega
  · exact .inl (s.wordAt_apart other gt first)

/-- A round of `free_chain`: the entry is read, and cleared in every copy. -/
theorem run_clear (live : isCluster first) (words : fs.disk.blockSize % 4 = 0) (fuel : Nat) (m : Media) :
    ∃ m', (do
        let next ← fs.readFatEntry first
        fs.writeFatEntry first 0
        pure (.inl next) : Prog Media (Nat ⊕ Unit)).run fuel m = .ok (.inl (fs.word m first)) m' ∧
      fs.Cleared (· = first) m m' := by
  have word : first * 4 < 4294967296 := by
    have below : first < 268435448 := of_decide_eq_true (Bool.and_eq_true_iff.mp live).2
    omega
  have block : fs.bytesPerSector = fs.disk.blockSize := by rw [s.ratio, Nat.one_mul]
  have aligned : first * 4 % fs.bytesPerSector + 4 ≤ fs.disk.blockSize := by
    have below := mod_lt (first * 4) s.blockPos
    have step : first * 4 % fs.disk.blockSize % 4 = 0 := by
      rw [mod_mod_of_dvd _ (dvd_of_mod_eq_zero words), mul_mod_left]
    rw [block]
    omega
  obtain ⟨m', run, cleared, others⟩ := s.writesWord word aligned has fuel m 0
  refine ⟨m', ?_, fun c _ here => here ▸ cleared, fun c other ne j _ => ?_, fun lba o inside out => ?_⟩
  · rw [run_bind_ok (s.readsWord word aligned has fuel m), run_bind_ok run]
    rfl
  · exact le32_congr fun a low high => others a fun i _ => by
      have := wordAt_other s has other ne i j
      omega
  · rw [← flat_block m inside, ← flat_block m' inside]
    refine others _ fun j copy => ?_
    have behind := s.wordAt_apart has copy 0
    unfold wordAt at behind ⊢
    simp only [Nat.mul_one] at behind ⊢
    rcases out with front | back
    · have := Nat.mul_le_mul_right fs.disk.blockSize front
      rw [Nat.add_mul]
      rw [succ_mul] at this
      omega
    · have := Nat.mul_le_mul_right fs.disk.blockSize back
      omega

end Clear

/-! ## The whole walk -/

/-- The entries that are not clear yet. -/
def taken (fs : Fat32) (m : Media) : Nat := ((Finset.range fs.fatEntries).filter fun c => fs.word m c ≠ 0).card

theorem taken_le (fs : Fat32) (m : Media) : fs.taken m ≤ fs.fatEntries :=
  (Finset.card_filter_le _ _).trans_eq (Finset.card_range _)

theorem taken_lt (has : fs.HasEntry first) (zero : fs.word m' first = 0)
    (same : ∀ c, fs.HasEntry c → c ≠ first → fs.word m' c = fs.word m c) (some : fs.word m first ≠ 0) :
    fs.taken m' < fs.taken m := by
  refine Finset.card_lt_card ⟨fun c mem => ?_, fun sub => ?_⟩
  · rw [Finset.mem_filter, Finset.mem_range] at mem ⊢
    refine ⟨mem.1, ?_⟩
    by_cases here : c = first
    · exact here ▸ some
    · rw [← same c (hasEntry_iff.mpr mem.1) here]
      exact mem.2
  · have mem := sub (Finset.mem_filter.mpr ⟨Finset.mem_range.mpr (hasEntry_iff.mp has), some⟩)
    exact (Finset.mem_filter.mp mem).2 zero

/-- A walk of `n` rounds is long enough from a cluster when it outnumbers the taken entries by two: the last cluster met
may be clear already, and one more round sees the end. -/
theorem run_freeRounds (s : fs.Scaled 1) (words : fs.disk.blockSize % 4 = 0) (fuel : Nat) : ∀ (n first : Nat) (m : Media),
    fs.Closed m → (isCluster first → fs.HasEntry first) → 0 < n → (isCluster first → fs.taken m + 1 < n) →
    ∃ m', (Prog.loopN (fun cur =>
      if isCluster cur then do
        let next ← fs.readFatEntry cur
        fs.writeFatEntry cur 0
        pure (.inl next)
      else pure (.inr ())) n first).run fuel m = .ok () m' ∧ fs.Cleared (OnPath (fs.word m) first) m m' := by
  intro n
  induction n with
  | zero => exact fun _ _ _ _ pos => absurd pos (Nat.lt_irrefl 0)
  | succ n ih =>
    intro first m closed begins _ enough
    by_cases live : isCluster first
    · have has := begins live
      obtain ⟨m₁, round, clear⟩ := run_clear s has live words fuel m
      have zero : fs.word m₁ first = 0 := by
        rw [word, clear.cleared first has rfl 0 s.copies, patched]
        omega
      have same : ∀ c, fs.HasEntry c → c ≠ first → fs.word m₁ c = fs.word m c := fun c other ne => by
        rw [word, clear.kept c other ne 0 s.copies, word]
      have inside : ∀ c, fs.HasEntry c → isCluster (fs.word m c) → fs.HasEntry (fs.word m c) := fun c other live' =>
        (closed c other).resolve_right (Nat.not_le.mpr (of_decide_eq_true (Bool.and_eq_true_iff.mp live').2))
      have path : OnPath (fs.word m) first = fun x => x = first ∨ OnPath (fs.word m₁) (fs.word m first) x :=
        funext fun x => propext (OnPath.cleared live has inside zero same)
      have closed₁ : fs.Closed m₁ := by
        intro c other
        by_cases here : c = first
        · rw [here, zero]
          exact .inl (by unfold HasEntry at has ⊢; omega)
        · rw [same c other here]
          exact closed c other
      have rounds := enough live
      obtain ⟨m', run, freed⟩ := ih (fs.word m first) m₁ closed₁ (inside first has) (by omega) fun live' => by
        have := taken_lt has zero same fun none => absurd (none ▸ live') (by decide)
        omega
      refine ⟨m', ?_, path ▸ clear.trans freed⟩
      rw [run_loopN_next (by rw [if_pos live]; exact round), run]
    · refine ⟨m, run_loopN_exit (by rw [if_neg live]; rfl) n, fun _ _ on => absurd on.live live,
        fun _ _ _ _ _ => rfl, fun _ _ _ _ => rfl⟩

/-- **`free_chain` ends and frees exactly the chain**, whatever the links: cycles, cross-links and free entries. -/
theorem freeChain_frees (s : fs.Scaled 1) (words : fs.disk.blockSize % 4 = 0) (closed : fs.Closed m)
    (begins : isCluster first → fs.HasEntry first) (enough : fs.fatEntries + 1 < fuel) :
    ∃ m', (fs.freeChain first).run fuel m = .ok () m' ∧ fs.Cleared (OnPath (fs.word m) first) m m' := by
  have few := taken_le fs m
  rw [freeChain, run_loop]
  exact run_freeRounds s words fuel fuel first m closed begins (by omega) fun _ => by omega

/-- Two copies of a table of one sector. -/
def twoTables : Fat32 := ⟨stick, 512, 1, 512, 1, 2, 1, 2, 1, 3, 7⟩

/-- A chain that comes back to itself: 2, 3, 2, and so on. -/
def cyclic : Media := fun l o => if l = 1 ∧ o = 8 then 3 else if l = 1 ∧ o = 12 then 2 else 0

/-- It is freed within the 129 rounds, and one to see the end. -/
theorem freeChain_frees_cycle : ∃ m', (twoTables.freeChain 2).run 130 cyclic = .ok () m' ∧
    twoTables.Cleared (OnPath (twoTables.word cyclic) 2) cyclic m' := by
  have links : ∀ c, c < 128 → twoTables.word cyclic c < 128 := by decide +kernel
  refine freeChain_frees ⟨by decide, by decide, by decide, by decide, by decide, fun _ _ _ => rfl, fun _ _ _ => rfl⟩
    (by decide) (fun c has => .inl ?_) (fun _ => hasEntry_iff.mpr (by decide)) (by decide)
  exact hasEntry_iff.mpr (links c (hasEntry_iff.mp has))

/-- One copy of the table. -/
def oneTable : Fat32 := ⟨stick, 512, 1, 512, 1, 1, 1, 2, 1, 2, 8⟩

/-- A blank table, and a word in the first block of the data. -/
def dataWord : Media := fun l o => if l = 2 ∧ o = 0 then 5 else 0

/-- Cluster 128 has no entry: all entries are 0, and freeing its chain clears the word behind the table. -/
theorem freeChain_start_outside : oneTable.Scaled 1 ∧ oneTable.disk.blockSize % 4 = 0 ∧ oneTable.fatEntries = 128 ∧
    (∀ c, c < 128 → oneTable.word dataWord c = 0) ∧ dataWord 2 0 = 5 ∧
    (((oneTable.freeChain 128).run 130 dataWord).after fun _ _ => 7) 2 0 = 0 :=
  ⟨⟨by decide, by decide, by decide, by decide, by decide, fun _ _ _ => rfl, fun _ _ _ => rfl⟩, by decide, by decide,
    by decide +kernel, rfl, by decide +kernel⟩

end Fat32

end CanBoot
