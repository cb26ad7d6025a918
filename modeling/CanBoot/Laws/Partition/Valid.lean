import CanBoot.Laws.Partition.Calls

/-!
# A GPT stays valid

On a disk of at least 68 blocks the four regions `write_gpt_pair` writes are apart, so what it writes
is what stands there afterwards. Every edit that changes the medium ends in that call, hence validity
is an invariant of all edits, whatever their arguments and whatever they return.
-/

namespace CanBoot

open Lib GptHeader

/-- The signature and the checksum of a header. -/
structure GptHeader.Checks (h : Buf) : Prop where
  signature : GptHeader.signature h = gptSig
  crc : crc32Buf (putLe32 h 16 0) 92 = GptHeader.headerCrc32 h

/-- The first and the last block of the header, the table, the usable area, and the mirrors. -/
def gptRegions (d : Disk) (m : Media) : List (Nat × Nat) :=
  [(1, 1), (GptHeader.tableLba (m 1), GptHeader.tableLba (m 1) + 31),
   (GptHeader.firstUsable (m 1), GptHeader.lastUsable (m 1)),
   (GptHeader.tableLba (m (d.blockCount - 1)), GptHeader.tableLba (m (d.blockCount - 1)) + 31),
   (d.blockCount - 1, d.blockCount - 1)]

/-- **A valid GPT**: a protective MBR, two headers that check and point at each other, two equal
tables that match the sums in them, and five regions that are apart. -/
structure GptValid (d : Disk) (m : Media) : Prop where
  mbr : ∀ o, o < 512 → m 0 o = protectiveMbr d.blockCount o
  primary : GptHeader.Checks (m 1)
  backup : GptHeader.Checks (m (d.blockCount - 1))
  primaryTable : crc32Buf (tableAt m (GptHeader.tableLba (m 1))) 16384 = GptHeader.tableCrc32 (m 1)
  backupTable : crc32Buf (tableAt m (GptHeader.tableLba (m (d.blockCount - 1)))) 16384 =
      GptHeader.tableCrc32 (m (d.blockCount - 1))
  tables : ∀ i, i < 16384 →
    tableAt m (GptHeader.tableLba (m 1)) i = tableAt m (GptHeader.tableLba (m (d.blockCount - 1))) i
  primaryLinks : GptHeader.currentLba (m 1) = 1 ∧ GptHeader.backupLba (m 1) = d.blockCount - 1
  backupLinks : GptHeader.currentLba (m (d.blockCount - 1)) = d.blockCount - 1 ∧
      GptHeader.backupLba (m (d.blockCount - 1)) = 1
  regions : (gptRegions d m).Pairwise fun a b => a.2 < b.1 ∨ b.2 < a.1

/-- A medium whose last GPT edit wrote the whole pair, behind a protective MBR. -/
def Paired (d : Disk) (m : Media) : Prop :=
  ∃ tbl before, m = pairMedia d.blockCount tbl before ∧ ∀ o, o < 512 → before 0 o = protectiveMbr d.blockCount o

theorem headerSize_gptBackup (n c : Nat) : headerSize (gptBackup n c) = 92 := by
  rw [← (canonical_gptPrimary n c).headerSize]
  exact le32_congr fun i _ _ => gptBackup_of_out n c (by omega) (by omega) (by omega)

theorem signature_gptBackup (n c : Nat) : GptHeader.signature (gptBackup n c) = gptSig := by
  rw [← (canonical_gptPrimary n c).signature]
  exact le64_congr fun i _ _ => gptBackup_of_out n c (by omega) (by omega) (by omega)

theorem tableCrc32_gptBackup (n : Nat) {c : Nat} (hc : c < 4294967296) : tableCrc32 (gptBackup n c) = c := by
  have same : tableCrc32 (gptBackup n c) = tableCrc32 (gptPrimary n c) :=
    le32_congr fun i _ _ => gptBackup_of_out n c (by omega) (by omega) (by omega)
  rw [same, tableCrc32_gptPrimary n hc]

section Bytes

variable {d : Disk} (tbl : Buf) (m : Media)

theorem pairMedia_front (large : 64 ≤ d.blockCount) {i : Nat} (hi : i < 92) :
    pairMedia d.blockCount tbl m 1 i = gptPrimary d.blockCount (crc32Buf tbl 16384) i := by
  rw [pairMedia_one large _ _ (by omega), headerSector_of_lt (canonical_gptPrimary _ _).headerSize hi]

theorem pairMedia_back {i : Nat} (hi : i < 92) : pairMedia d.blockCount tbl m (d.blockCount - 1) i =
      gptBackup d.blockCount (crc32Buf tbl 16384) i := by
  rw [pairMedia, setBlocks_one _ _ (by omega), headerSector_of_lt (headerSize_gptBackup _ _) hi]

/-- A field of the primary header, read off the medium. -/
theorem le64_front (large : 64 ≤ d.blockCount) {i : Nat} (hi : i + 8 ≤ 92) : le64 (pairMedia d.blockCount tbl m 1) i =
      le64 (gptPrimary d.blockCount (crc32Buf tbl 16384)) i :=
  le64_congr fun _ _ _ => pairMedia_front tbl m large (by omega)

/-- A field of the mirror's header, read off the medium. -/
theorem le64_back {i : Nat} (hi : i + 8 ≤ 92) : le64 (pairMedia d.blockCount tbl m (d.blockCount - 1)) i =
      le64 (gptBackup d.blockCount (crc32Buf tbl 16384)) i :=
  le64_congr fun _ _ _ => pairMedia_back tbl m (by omega)

theorem pairMedia_backupTable (large : 68 ≤ d.blockCount) {i : Nat} (hi : i < 16384) :
    tableAt (pairMedia d.blockCount tbl m) (d.blockCount - 33) i = tbl i := by
  rw [tableAt, pairMedia, setBlocks_out _ _ (by omega), setBlocks_in _ _ (by omega) (by omega) (by omega)]
  congr 1
  omega

end Bytes

/-- **Written, it is valid.** -/
theorem Paired.valid {d : Disk} {m : Media} (paired : Paired d m) (works : d.Works)
    (large : 68 ≤ d.blockCount) : GptValid d m := by
  obtain ⟨tbl, before, rfl, mbr⟩ := paired
  have size := works.size
  have enough : 64 ≤ d.blockCount := by omega
  have small := crc32Buf_lt tbl 16384
  have canonical := canonical_gptPrimary d.blockCount (crc32Buf tbl 16384)
  have table : tableLba (pairMedia d.blockCount tbl before 1) = 2 :=
    (le64_front tbl before enough (by omega)).trans canonical.tableLba
  have backTable : tableLba (pairMedia d.blockCount tbl before (d.blockCount - 1)) = d.blockCount - 33 :=
    (le64_back tbl before (by omega)).trans (tableLba_gptBackup _ size enough)
  have frontBytes : ∀ i, i < 16384 → tableAt (pairMedia d.blockCount tbl before) 2 i = tbl i := by
    intro i hi
    rw [pairMedia_table enough _ _ hi, mirrored_large _ (by omega) hi]
  have backBytes : ∀ i, i < 16384 → tableAt (pairMedia d.blockCount tbl before) (d.blockCount - 33) i = tbl i :=
    fun i hi => pairMedia_backupTable _ _ large hi
  refine ⟨?_, ⟨?_, ?_⟩, ⟨?_, ?_⟩, ?_, ?_, ?_, ⟨?_, ?_⟩, ⟨?_, ?_⟩, ?_⟩
  · intro o ho
    rw [pairMedia_zero enough, mbr o ho]
  · exact (le64_front tbl before enough (by omega)).trans canonical.signature
  · exact crc_of_sealed canonical.headerSize fun i hi => pairMedia_front tbl before enough hi
  · exact (le64_back tbl before (by omega)).trans (signature_gptBackup _ _)
  · exact crc_of_sealed (headerSize_gptBackup _ _) fun i hi => pairMedia_back tbl before hi
  · rw [table, crc32Buf_congr frontBytes, ← tableCrc32_gptPrimary d.blockCount small]
    exact (le32_congr fun _ _ _ => pairMedia_front tbl before enough (by omega)).symm
  · rw [backTable, crc32Buf_congr backBytes, ← tableCrc32_gptBackup d.blockCount small]
    exact (le32_congr fun _ _ _ => pairMedia_back tbl before (by omega)).symm
  · intro i hi
    rw [table, backTable, frontBytes i hi, backBytes i hi]
  · exact (le64_front tbl before enough (by omega)).trans canonical.currentLba
  · exact (le64_front tbl before enough (by omega)).trans (canonical.backupLba size enough)
  · exact (le64_back tbl before (by omega)).trans (currentLba_gptBackup _ size enough)
  · exact (le64_back tbl before (by omega)).trans (backupLba_gptBackup _ _)
  · have first : firstUsable (pairMedia d.blockCount tbl before 1) = 34 :=
      (le64_front tbl before enough (by omega)).trans canonical.firstUsable
    have last : lastUsable (pairMedia d.blockCount tbl before 1) = d.blockCount - 34 :=
      (le64_front tbl before enough (by omega)).trans (canonical.lastUsable size enough)
    rw [gptRegions, table, backTable, first, last]
    simp only [List.pairwise_cons, List.mem_cons, List.not_mem_nil, or_false, forall_eq_or_imp, forall_eq]
    refine ⟨?_, ?_, ?_, ?_, ?_⟩ <;> first | omega | simp

section Runs

variable {d : Disk} (works : d.Works) (block : d.blockSize = 512) (large : 64 ≤ d.blockCount) (fuel : Nat) {m : Media}

include large in
theorem Paired.onGpt (paired : Paired d m) : OnGpt d m := by
  obtain ⟨tbl, before, rfl, _⟩ := paired
  exact onGpt_pairMedia large tbl before

include works block large

/-- One call keeps the pair. -/
theorem Paired.after (paired : Paired d m) (call : PartCall) : Paired d (call.after d fuel m) := by
  rcases (paired.onGpt large).after_cases works block large fuel call with same | ⟨tbl, written⟩
  · rw [same]
    exact paired
  · refine ⟨tbl, m, written, ?_⟩
    obtain ⟨_, _, rfl, mbr⟩ := paired
    intro o ho
    rw [pairMedia_zero large, mbr o ho]

/-- A whole sequence of calls keeps it. -/
theorem Paired.afterAll (paired : Paired d m) (calls : List PartCall) :
    Paired d (PartCall.afterAll d fuel m calls) := by
  induction calls generalizing m with
  | nil => exact paired
  | cons call rest ih => exact ih (paired.after works block large fuel call)

theorem paired_init {m' : Media} (init : (canbootPartInitGpt d).run fuel m = .ok () m') : Paired d m' := by
  rw [run_canbootPartInitGpt works block large] at init
  cases init
  exact ⟨_, _, rfl, fun o ho => setBlocks_one _ _ ho⟩

end Runs

/-- **A GPT stays valid under all edits.** -/
theorem gpt_stays_valid {d : Disk} (works : d.Works) (block : d.blockSize = 512) (large : 68 ≤ d.blockCount)
    (fuel : Nat) {m m' : Media} (init : (canbootPartInitGpt d).run fuel m = .ok () m') (calls : List PartCall) :
    GptValid d (PartCall.afterAll d fuel m' calls) := by
  have enough : 64 ≤ d.blockCount := by omega
  have paired := paired_init works block enough fuel init
  exact (paired.afterAll works block enough fuel calls).valid works large

/-- A blank disk of 128 blocks, whose driver never fails. -/
def gptDisk : Disk where
  blockSize := 512
  blockCount := 128
  writable := true
  readFails _ _ := false
  writeFails _ _ := false
  leftover _ := 0

theorem gptDisk_works : gptDisk.Works := ⟨rfl, ⟨fun _ _ _ => rfl, fun _ _ _ => rfl⟩, by decide⟩

/-- An initialised disk, an overlong partition on it, and its deletion. -/
theorem gpt_stays_valid_blank : ∃ m, (canbootPartInitGpt gptDisk).run 0 (fun _ _ => 0) = .ok () m ∧
      GptValid gptDisk (PartCall.afterAll gptDisk 0 m [.create 0 999 7 none, .delete 0]) :=
  ⟨_, run_canbootPartInitGpt gptDisk_works rfl (by decide) 0, gpt_stays_valid gptDisk_works rfl (by decide) 0
      (run_canbootPartInitGpt gptDisk_works rfl (by decide) 0) _⟩

end CanBoot
