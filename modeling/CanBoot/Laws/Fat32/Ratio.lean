import CanBoot.Lib.Blocks
import CanBoot.Laws.Fat32.Untrusted

/-!
# Table entries on a disk with smaller blocks

Where a sector is `k` disk blocks, `read_fat_entry` and `write_fat_entry` find the sector of an entry by the ratio, but
then move a single block of it. The disk is seen as one array of bytes (`Lib.flat`), and the entry of a cluster in a
copy of the table is a word of it (`wordAt`). `entry_access_iff` says when the accessors move exactly that word.
-/

namespace CanBoot

open Lib Lib.Prog Nat List

namespace Fat32

/-- A volume whose sectors are `k` disk blocks each, on a driver that serves the blocks of the tables. -/
structure Scaled (fs : Fat32) (k : Nat) : Prop where
  blockPos : 0 < fs.disk.blockSize
  ratioPos : 0 < k
  ratio : fs.bytesPerSector = k * fs.disk.blockSize
  small : fs.bytesPerSector ≤ 4096
  copies : 0 < fs.numFats
  serves : fs.disk.ServesBelow (fs.fatStartLba + fs.numFats * fs.sectorsPerFat * k)

/-- The tables have an entry for the cluster. -/
def HasEntry (fs : Fat32) (c : Nat) : Prop := c * 4 + 4 ≤ fs.sectorsPerFat * fs.bytesPerSector

/-- The bytes of the disk. -/
def bytes (fs : Fat32) (m : Media) : Buf := flat fs.disk.blockSize m

/-- The byte address of a cluster's entry in copy `j` of the table. -/
def wordAt (fs : Fat32) (k j c : Nat) : Nat :=
  (fs.fatStartLba + j * fs.sectorsPerFat * k) * fs.disk.blockSize + c * 4

/-- A table word with its low 28 bits replaced. -/
def patched (word value : Nat) : Nat := word / 0x10000000 * 0x10000000 + value % 0x10000000

/-- `read_fat_entry` gives the low 28 bits of the entry in the first copy. -/
def ReadsWord (fs : Fat32) (k c : Nat) : Prop := ∀ fuel m,
  (fs.readFatEntry c).run fuel m = .ok (le32 (fs.bytes m) (fs.wordAt k 0 c) % 0x10000000) m

/-- `write_fat_entry` replaces the low 28 bits of the entry in every copy, and no other byte of the disk. -/
def WritesWord (fs : Fat32) (k c : Nat) : Prop := ∀ fuel m value, ∃ m',
  (fs.writeFatEntry c value).run fuel m = .ok () m' ∧ (∀ j, j < fs.numFats →
      le32 (fs.bytes m') (fs.wordAt k j c) = patched (le32 (fs.bytes m) (fs.wordAt k j c)) value) ∧
    ∀ a, (∀ j, j < fs.numFats → a < fs.wordAt k j c ∨ fs.wordAt k j c + 4 ≤ a) → fs.bytes m' a = fs.bytes m a

variable {fs : Fat32} {k j c : Nat}

/-! ## The block an access moves -/

/-- The block that holds the head of an entry's sector, by the offset the code computes. -/
def entryLba (fs : Fat32) (k j c : Nat) : Nat :=
  fs.fatStartLba + j * fs.sectorsPerFat * k + u32 (c * 4) / fs.bytesPerSector * k

/-- The code's buffer after it read that block. -/
def loaded (fs : Fat32) (m : Media) (lba : Nat) : Buf := fun i =>
  if i < fs.disk.blockSize then m lba i else fs.disk.leftover i

theorem Scaled.spb (s : fs.Scaled k) : fs.spb = k := by
  have exact : fs.bytesPerSector / fs.disk.blockSize = k := by
    rw [s.ratio, Nat.mul_div_cancel _ s.blockPos]
  rw [Fat32.spb, blocksPerSector, exact, if_neg (Nat.ne_of_gt s.ratioPos)]

theorem Scaled.entryLba_lt (s : fs.Scaled k) (has : fs.HasEntry c) (copy : j < fs.numFats) :
    fs.entryLba k j c + 1 ≤ fs.fatStartLba + fs.numFats * fs.sectorsPerFat * k := by
  have inside := entry_inside has copy
  rw [s.spb] at inside
  unfold entryLba
  omega

theorem Scaled.run_read (s : fs.Scaled k) (has : fs.HasEntry c) (copy : j < fs.numFats) (fuel : Nat) (m : Media) :
    (fs.disk.read (fs.entryLba k j c) 1).run fuel m = .ok (fs.loaded m (fs.entryLba k j c)) m := by
  rw [Disk.run_read s.serves (s.entryLba_lt has copy)]
  congr 1
  funext i
  rw [loaded, Nat.one_mul]
  split
  · next inside => rw [div_eq_of_lt inside, mod_eq_of_lt inside, Nat.add_zero]
  · rfl

theorem Scaled.run_readFatEntry (s : fs.Scaled k) (has : fs.HasEntry c) (fuel : Nat) (m : Media) :
    (fs.readFatEntry c).run fuel m =
      .ok (le32 (fs.loaded m (fs.entryLba k 0 c)) (u32 (c * 4) % fs.bytesPerSector) % 0x10000000) m := by
  have read := s.run_read has s.copies fuel m
  rw [entryLba, Nat.zero_mul, Nat.zero_mul, Nat.add_zero] at read
  rw [readFatEntry, s.spb, run_bind_ok read, run_pure, entryLba, Nat.zero_mul, Nat.zero_mul, Nat.add_zero]

/-- The byte address of an offset in the buffer, where the buffer holds bytes of the disk. -/
theorem Scaled.entryLba_mul (s : fs.Scaled k) (j c : Nat) :
    fs.entryLba k j c * fs.disk.blockSize + u32 (c * 4) % fs.bytesPerSector =
      (fs.fatStartLba + j * fs.sectorsPerFat * k) * fs.disk.blockSize + u32 (c * 4) := by
  have parts := div_add_mod (u32 (c * 4)) fs.bytesPerSector
  have whole : u32 (c * 4) / fs.bytesPerSector * k * fs.disk.blockSize =
      fs.bytesPerSector * (u32 (c * 4) / fs.bytesPerSector) := by
    rw [s.ratio, Nat.mul_assoc, Nat.mul_comm]
  rw [entryLba, Nat.add_mul, whole]
  omega

theorem loaded_eq {m : Media} {lba i : Nat} (inside : i < fs.disk.blockSize) :
    fs.loaded m lba i = fs.bytes m (lba * fs.disk.blockSize + i) := by
  rw [loaded, if_pos inside, bytes, flat_block m inside]

/-! ## An entry in the first block of its sector -/

section FirstBlock

variable (s : fs.Scaled k) (word : c * 4 < 4294967296) (first : c * 4 % fs.bytesPerSector + 4 ≤ fs.disk.blockSize)

include s word in
theorem Scaled.wordAt_eq (j : Nat) :
    fs.entryLba k j c * fs.disk.blockSize + c * 4 % fs.bytesPerSector = fs.wordAt k j c := by
  have place := s.entryLba_mul j c
  rwa [u32_of_lt word] at place

include s word first in
theorem Scaled.le32_loaded (m : Media) (j : Nat) :
    le32 (fs.loaded m (fs.entryLba k j c)) (c * 4 % fs.bytesPerSector) = le32 (fs.bytes m) (fs.wordAt k j c) := by
  rw [← s.wordAt_eq word, ← le32_shift]
  exact le32_congr fun i _ below => loaded_eq (by omega)

include s word first in
theorem Scaled.readsWord (has : fs.HasEntry c) : fs.ReadsWord k c := by
  intro fuel m
  rw [s.run_readFatEntry has, u32_of_lt word, s.le32_loaded word first]

include s word first in
/-- One round of `write_fat_entry` stores one word. -/
theorem Scaled.run_writeFatCopy (has : fs.HasEntry c) (copy : j < fs.numFats) (value fuel : Nat) (m : Media) :
    ∃ m', (fs.writeFatCopy c value j).run fuel m = .ok () m' ∧ fs.bytes m' = putLe32 (fs.bytes m) (fs.wordAt k j c)
        (patched (le32 (fs.bytes m) (fs.wordAt k j c)) value) := by
  have stores : (fs.writeFatCopy c value j).run fuel m =
      (fs.disk.write (fs.entryLba k j c) 1 (putLe32 (fs.loaded m (fs.entryLba k j c)) (c * 4 % fs.bytesPerSector)
        (patched (le32 (fs.bytes m) (fs.wordAt k j c)) value))).run fuel m := by
    rw [writeFatCopy, s.spb]
    show (fs.disk.read (fs.entryLba k j c) 1 >>= fun sect =>
      fs.disk.write (fs.entryLba k j c) 1 (putLe32 sect (u32 (c * 4) % fs.bytesPerSector)
        (patched (le32 sect (u32 (c * 4) % fs.bytesPerSector)) value))).run fuel m = _
    rw [run_bind_ok (s.run_read has copy fuel m), u32_of_lt word, s.le32_loaded word first]
  refine ⟨_, stores.trans (Disk.run_write s.serves (s.entryLba_lt has copy) _ fuel m), ?_⟩
  funext a
  rw [bytes, flat_write s.blockPos, succ_mul]
  split
  · next inside =>
    obtain ⟨i, rfl⟩ : ∃ i, a = fs.entryLba k j c * fs.disk.blockSize + i := ⟨_, (add_sub_of_le inside.1).symm⟩
    rw [Nat.add_sub_cancel_left, ← s.wordAt_eq word, ← putLe32_shift]
    exact putLe32_congr fun _ => loaded_eq (by omega)
  · next outside =>
    rw [putLe32_of_out _ _ (by rw [← s.wordAt_eq word]; omega)]
    rfl

/-- The words of a copy lie in front of those of the next. -/
theorem Scaled.wordAt_apart (s : fs.Scaled k) (has : fs.HasEntry c) {i j : Nat} (lt : i < j) (c' : Nat) :
    fs.wordAt k i c + 4 ≤ fs.wordAt k j c' := by
  have stride : (i + 1) * (fs.sectorsPerFat * fs.bytesPerSector) ≤ j * (fs.sectorsPerFat * fs.bytesPerSector) :=
    Nat.mul_le_mul_right _ lt
  have place : ∀ n c, fs.wordAt k n c =
      fs.fatStartLba * fs.disk.blockSize + n * (fs.sectorsPerFat * fs.bytesPerSector) + c * 4 := by
    intro n c
    rw [wordAt, s.ratio, Nat.add_mul]
    congr 2
    simp only [Nat.mul_assoc]
  rw [succ_mul] at stride
  rw [place, place]
  unfold HasEntry at has
  omega

include s word first in
/-- The rounds of `write_fat_entry` over any of the copies. -/
theorem Scaled.run_writeCopies (has : fs.HasEntry c) (value fuel : Nat) : ∀ {js : List Nat} (m : Media),
    js.Nodup → (∀ j ∈ js, j < fs.numFats) →
    ∃ m', (Prog.forAcc (fun j _ => fs.writeFatCopy c value j) js ()).run fuel m = .ok () m' ∧
      (∀ j ∈ js, le32 (fs.bytes m') (fs.wordAt k j c) = patched (le32 (fs.bytes m) (fs.wordAt k j c)) value) ∧
      ∀ a, (∀ j ∈ js, a < fs.wordAt k j c ∨ fs.wordAt k j c + 4 ≤ a) → fs.bytes m' a = fs.bytes m a
  | [], m, _, _ => ⟨m, rfl, fun _ mem => absurd mem not_mem_nil, fun _ _ => rfl⟩
  | j :: js, m, distinct, copies => by
    obtain ⟨fresh, distinct⟩ := nodup_cons.mp distinct
    have apart : ∀ i ∈ js, fs.wordAt k i c + 4 ≤ fs.wordAt k j c ∨ fs.wordAt k j c + 4 ≤ fs.wordAt k i c := by
      intro i mem
      rcases Nat.lt_trichotomy i j with lt | rfl | gt
      · exact .inl (s.wordAt_apart has lt c)
      · exact absurd mem fresh
      · exact .inr (s.wordAt_apart has gt c)
    obtain ⟨m₁, run₁, stored⟩ := s.run_writeFatCopy word first has (copies j mem_cons_self) value fuel m
    obtain ⟨m', run', words, others⟩ := Scaled.run_writeCopies has value fuel m₁ distinct
      fun i mem => copies i (mem_cons_of_mem _ mem)
    refine ⟨m', ?_, ?_, ?_⟩
    · rw [Prog.forAcc, run_bind_ok run₁, run']
    · intro i mem
      rcases mem_cons.mp mem with rfl | mem
      · -- the later rounds leave this copy alone
        have kept : le32 (fs.bytes m') (fs.wordAt k i c) = le32 (fs.bytes m₁) (fs.wordAt k i c) :=
          le32_congr fun a low high => others a fun i' mem' => by
            have := apart i' mem'
            omega
        have old := le32_lt (fs.bytes m) (fs.wordAt k i c)
        rw [kept, stored, le32_putLe32, mod_eq_of_lt (by unfold patched; omega)]
      · rw [words i mem, stored, le32_putLe32_of_ne _ _ (apart i mem)]
    · intro a out
      rw [others a fun i mem => out i (mem_cons_of_mem _ mem), stored,
        putLe32_of_out _ _ (out j mem_cons_self)]

include s word first in
theorem Scaled.writesWord (has : fs.HasEntry c) : fs.WritesWord k c := by
  intro fuel m value
  obtain ⟨m', run, words, others⟩ := s.run_writeCopies word first has value fuel m nodup_range
    fun j mem => mem_range.mp mem
  exact ⟨m', run, fun j copy => words j (mem_range.mpr copy),
    fun a out => others a fun j mem => out j (mem_range.mp mem)⟩

end FirstBlock

/-! ## An entry behind the first block -/

/-- A disk of zeros with one byte set. -/
def oneByte (fs : Fat32) (a : Nat) : Media := fun l o =>
  if l * fs.disk.blockSize + o = a ∧ o < fs.disk.blockSize then 1 else 0

theorem bytes_oneByte (pos : 0 < fs.disk.blockSize) (a : Nat) : fs.bytes (fs.oneByte a) = putByte (fun _ => 0) a 1 := by
  funext i
  have inside := mod_lt i pos
  rw [bytes, flat, oneByte, div_add_mod', putByte]
  simp only [inside, and_true]

/-- **An accessor that does not look at a byte of the entry misses it.** -/
theorem Scaled.not_readsWord (s : fs.Scaled k) (has : fs.HasEntry c) {t : Nat} (byte : t = 0 ∨ t = 3)
    (misses : ∀ i, i < 4 → u32 (c * 4) % fs.bytesPerSector + i < fs.disk.blockSize → u32 (c * 4) + i ≠ c * 4 + t)
    : ¬ fs.ReadsWord k c := by
  intro reads
  have same : le32 (fs.loaded (fs.oneByte (fs.wordAt k 0 c + t)) (fs.entryLba k 0 c)) (u32 (c * 4) % fs.bytesPerSector) =
      le32 (fs.loaded (fun _ _ => 0) (fs.entryLba k 0 c)) (u32 (c * 4) % fs.bytesPerSector) := by
    refine le32_congr fun i low high => ?_
    by_cases inside : i < fs.disk.blockSize
    · obtain ⟨n, rfl⟩ : ∃ n, i = u32 (c * 4) % fs.bytesPerSector + n := ⟨_, (add_sub_of_le low).symm⟩
      have elsewhere := misses n (by omega) inside
      have place := s.entryLba_mul 0 c
      rw [loaded_eq inside, bytes_oneByte s.blockPos, putByte_of_ne, loaded_eq inside]
      · rfl
      · rw [← Nat.add_assoc, place, wordAt]
        omega
    · rw [loaded, if_neg inside, loaded, if_neg inside]
  have set := reads 0 (fs.oneByte (fs.wordAt k 0 c + t))
  have clear := reads 0 fun _ _ => 0
  rw [s.run_readFatEntry has] at set clear
  rw [same, bytes_oneByte s.blockPos] at set
  have differ := (Outcome.ok.inj set).1.symm.trans (Outcome.ok.inj clear).1
  have zeros : fs.bytes (fun _ _ => 0) = fun _ => 0 := rfl
  rw [zeros] at differ
  generalize fs.wordAt k 0 c = w at differ
  have last : ¬ w + 2 + 1 = w := by omega
  rcases byte with rfl | rfl <;> simp [le32, le16, putByte, last] at differ

/-- **The accessors move exactly the entry's word if and only if it lies in the first block of its sector** and its
offset is a 32-bit number, on every volume whose sectors are `k` disk blocks. -/
theorem entry_access_iff (s : fs.Scaled k) (has : fs.HasEntry c) : (fs.ReadsWord k c ∧ fs.WritesWord k c) ↔
      c * 4 < 4294967296 ∧ c * 4 % fs.bytesPerSector + 4 ≤ fs.disk.blockSize := by
  constructor
  · rintro ⟨reads, -⟩
    by_cases word : c * 4 < 4294967296
    · refine ⟨word, ?_⟩
      by_contra behind
      refine s.not_readsWord has (.inr rfl) (fun i small inside => ?_) reads
      rw [u32_of_lt word] at inside ⊢
      omega
    · refine absurd reads (s.not_readsWord has (.inl rfl) fun i small inside => ?_)
      unfold u32
      omega
  · rintro ⟨word, first⟩
    exact ⟨s.readsWord word first has, s.writesWord word first has⟩

end Fat32

/-- Sectors of two blocks, and two copies of a table of one sector. -/
def twoBlocks : Fat32 := ⟨stick, 1024, 1, 1024, 1, 2, 1, 2, 2, 6, 2⟩

/-- The entry of cluster 3 lies in the first block of the table. -/
theorem entry_access_three : twoBlocks.ReadsWord 2 3 ∧ twoBlocks.WritesWord 2 3 :=
  (Fat32.entry_access_iff ⟨by decide, by decide, by decide, by decide, by decide,
    fun _ _ _ => rfl, fun _ _ _ => rfl⟩ (by unfold Fat32.HasEntry; decide)).2 (by decide)

/-- The entry of cluster 128 lies in the second block of the table. The disk holds the word 7 there, and 0 is read; a 9
is written, and the 7 stands. -/
theorem entry_access_misses :
    le32 (twoBlocks.bytes fun l o => if l = 3 ∧ o = 0 then 7 else 0) (twoBlocks.wordAt 2 0 128) = 7 ∧
    ((twoBlocks.readFatEntry 128).run 0 fun l o => if l = 3 ∧ o = 0 then 7 else 0).value = some 0 ∧
    (((twoBlocks.writeFatEntry 128 9).run 0 fun l o => if l = 3 ∧ o = 0 then 7 else 0).after fun _ _ => 0) 3 0 = 7 := by
  decide +kernel

end CanBoot
