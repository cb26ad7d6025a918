import CanBoot.Lib.Checked
import CanBoot.Fs.PartitionChecked
import CanBoot.Laws.Partition.Valid

/-!
# A GPT header nobody vouches for

`read_gpt_header` checks a signature, a size and a checksum. The number of entries, their size and the size of the header
itself are used as they are: to find an entry in the table buffer, to checksum the table, and to copy the header
struct. The four calls stay in their buffers, whatever the table holds, exactly when those three fields fit
(`hostile_header_iff`).

The checked program is the model with checks: it does the same or traps (`checks_list` and the others).
-/

namespace CanBoot

open Lib Lib.Prog GptHeader List

namespace Checked

/-! ## The checks change nothing else -/

theorem checks_readGptHeader (d : Disk) : (readGptHeader d).Checks (CanBoot.readGptHeader d) :=
  .next fun _ => .guard _ <| .next fun _ => .next fun _ => .next fun _ => .guard _ <| .next fun _ => .guard _ <| .refl _

theorem checks_detect (d : Disk) : (canbootPartDetect d).Checks (CanBoot.canbootPartDetect d) :=
  (checks_readGptHeader d).attempt.bind fun _ => .refl _

theorem checks_isEmpty (tbl : Buf) (off : Nat) : (isEmpty tbl off).Checks (pure (GptEntry.isEmpty tbl off)) :=
  .guard _ (.refl _)

theorem checks_listEntries (tbl h : Buf) (max : Nat) : ∀ (is : List Nat) (out : List Partition), out.length ≤ max →
    (listEntries tbl h max is out).Checks
      (pure (out ++ (is.filterMap fun i => gptPartition tbl (GptHeader.entryAt h i)).take (max - out.length)))
  | [], out, _ => by
    rw [listEntries, filterMap_nil, take_nil, append_nil]
    exact .refl _
  | i :: is, out, le => by
    rw [listEntries]
    split
    · next room =>
      refine (checks_isEmpty _ _).pure_bind ?_
      by_cases empty : GptEntry.isEmpty tbl (GptHeader.entryAt h i) = true
      · have free : gptPartition tbl (GptHeader.entryAt h i) = none := if_pos empty
        simp only [if_pos empty, filterMap_cons, free]
        exact checks_listEntries tbl h max is out le
      · obtain ⟨p, used⟩ : ∃ p, gptPartition tbl (GptHeader.entryAt h i) = some p := ⟨_, if_neg empty⟩
        have rest := checks_listEntries tbl h max is (out ++ [p]) (by rw [length_append]; exact room)
        rw [length_append, append_assoc] at rest
        simp only [if_neg empty, used, filterMap_cons]
        rw [show max - out.length = max - (out.length + 1) + 1 by omega, take_succ_cons]
        exact .guard _ <| .guard _ <| .guard _ <| .guard _ rest
    · next full =>
      rw [show max - out.length = 0 by omega, take_zero, append_nil]
      exact .refl _

theorem checks_listGpt (d : Disk) (max : Nat) : (listGpt d max).Checks (CanBoot.listGpt d max) :=
  (checks_readGptHeader d).bind fun h => .next fun tbl => by
    have entries := checks_listEntries tbl h max (range (entryCount h)) [] (Nat.zero_le _)
    rw [length_nil, Nat.sub_zero, nil_append] at entries
    exact entries

theorem checks_list (d : Disk) (max : Nat) : (canbootPartList d max).Checks (CanBoot.canbootPartList d max) :=
  (checks_detect d).bind fun scheme => by
    cases scheme with
    | gpt => exact checks_listGpt d max
    | mbr | none => exact .refl _

theorem checks_writeHeader (d : Disk) (h : Buf) :
    (writeHeader d h).Checks (writeLba d (currentLba h) (headerSector h) 1) :=
  .guard _ <| .guard _ <| .guard _ <| .refl _

theorem checks_writeTable (d : Disk) (h tbl : Buf) (sectors : Nat) :
    (writeTable d h tbl sectors).Checks (writeLba d (tableLba h) tbl sectors) := .guard _ <| .refl _

theorem checks_writeGptPair (d : Disk) (h tbl : Buf) (sectors : Nat) :
    (writeGptPair d h tbl sectors).Checks (CanBoot.writeGptPair d h tbl sectors) :=
  .guard _ <| .next fun _ => (checks_writeTable d _ tbl sectors).bind fun _ =>
    (checks_writeHeader d _).bind fun _ => .guard _ <| (checks_writeTable d _ tbl sectors).bind fun _ =>
      checks_writeHeader d _

theorem checks_findEmpty (tbl h : Buf) : ∀ is : List Nat, (findEmpty tbl h is).Checks
    (pure (is.find? fun i => GptEntry.isEmpty tbl (GptHeader.entryAt h i)))
  | [] => .refl _
  | i :: is => by
    rw [findEmpty]
    refine (checks_isEmpty _ _).pure_bind ?_
    by_cases empty : GptEntry.isEmpty tbl (GptHeader.entryAt h i) = true
    · simp only [find?_cons, empty]
      exact .refl _
    · simp only [find?_cons, (Bool.not_eq_true _).mp empty]
      exact checks_findEmpty tbl h is

theorem checks_createGpt (d : Disk) (start stop : Nat) (name : Option (List UInt8)) :
    (createGpt d start stop name).Checks (CanBoot.createGpt d start stop name) :=
  (checks_readGptHeader d).bind fun h => .next fun sectors => .next fun tbl => by
    refine (checks_findEmpty tbl h _).pure_bind ?_
    cases (range (entryCount h)).find? fun i => GptEntry.isEmpty tbl (GptHeader.entryAt h i) with
    | none => exact .refl _
    | some i => exact .guard _ <| (checks_writeGptPair d h _ sectors).bind fun _ => .refl _

theorem checks_create (d : Disk) (start stop : Nat) (type : UInt8) (name : Option (List UInt8)) :
    (canbootPartCreate d start stop type name).Checks (CanBoot.canbootPartCreate d start stop type name) :=
  .next fun _ => .next fun _ => (checks_detect d).bind fun scheme => by
    cases scheme with
    | gpt => exact checks_createGpt d start stop name
    | mbr => exact .refl _
    | none => exact .next fun _ => checks_createGpt d start stop name

theorem checks_delete (d : Disk) (idx : Nat) : (canbootPartDelete d idx).Checks (CanBoot.canbootPartDelete d idx) :=
  .next fun _ => (checks_detect d).bind fun scheme => by
    cases scheme with
    | gpt =>
      exact (checks_readGptHeader d).bind fun h => .next fun _ => .next fun _ => .next fun _ =>
        .guard _ <| checks_writeGptPair d h _ _
    | mbr | none => exact .refl _

theorem checks_resize (d : Disk) (idx stop : Nat) :
    (canbootPartResize d idx stop).Checks (CanBoot.canbootPartResize d idx stop) :=
  .next fun _ => (checks_detect d).bind fun scheme => by
    cases scheme with
    | gpt =>
      exact (checks_readGptHeader d).bind fun h => .next fun _ => .next fun _ => .next fun _ =>
        (checks_isEmpty _ _).pure_bind <| .next fun _ => .guard _ <| .next fun _ => .guard _ <|
          checks_writeGptPair d h _ _
    | mbr | none => exact .refl _

end Checked

/-! ## What must fit -/

/-- The three fields that are used as they are fit the buffers: every entry lies in the table buffer, and where there is
an entry to edit, the checksums and the copy of the header stay in theirs. -/
structure HeaderFits (h : Buf) : Prop where
  entries : ∀ i, i < GptHeader.entryCount h → GptHeader.entryAt h i + 128 ≤ gptTblBytes
  sums : 0 < GptHeader.entryCount h →
    GptHeader.headerSize h ≤ 92 ∧ u32 (GptHeader.entryCount h * GptHeader.entrySize h) ≤ gptTblBytes

/-- The four calls stay in their buffers, whatever their arguments. -/
structure StaysInBuffers (d : Disk) (fuel : Nat) (m : Media) : Prop where
  list : ∀ max : UInt32, (Checked.canbootPartList d max.toNat).Safe fuel m
  create : ∀ (start stop : UInt64) (type : UInt8) (name : Option (List UInt8)),
    (Checked.canbootPartCreate d start.toNat stop.toNat type name).Safe fuel m
  delete : ∀ idx : UInt32, (Checked.canbootPartDelete d idx.toNat).Safe fuel m
  resize : ∀ (idx : UInt32) (stop : UInt64), (Checked.canbootPartResize d idx.toNat stop.toNat).Safe fuel m

/-- They do so on every disk that has this header in block 1, whatever else it holds and its driver refuses. -/
def HeaderSafe (h : Buf) : Prop :=
  ∀ (d : Disk) (fuel : Nat) (m : Media), d.blockSize = 512 → d.readFails 1 1 = false →
    (∀ o, o < 512 → m 1 o = h o) → StaysInBuffers d fuel m

theorem le32_headerStruct (b : Buf) {off : Nat} (inside : off + 4 ≤ 92) : le32 (headerStruct b) off = le32 b off :=
  le32_congr fun _ _ _ => if_pos (by omega)

theorem headerSize_seal (h : Buf) (c : Nat) : headerSize (sealHeader (putLe32 h 88 c)) = headerSize h := by
  rw [headerSize, le32_sealHeader _ (by omega), le32_putLe32_of_ne _ _ (by omega)]
  rfl

theorem headerSize_backup (h : Buf) (sectors : Nat) :
    headerSize (sealHeader (backupHeader h sectors)) = headerSize h := by
  rw [headerSize, le32_sealHeader _ (by omega)]
  refine le32_congr fun i _ _ => ?_
  simp (disch := omega) only [backupHeader, putLe64_of_out]

namespace Checked

variable {d : Disk} {fuel : Nat} {m : Media}

theorem safe_read (lba n : Nat) : (d.read lba n).Safe fuel m := by
  cases fails : d.readFails lba n with
  | true => exact safe_of_err (by rw [Disk.read, fails]; rfl)
  | false => exact safe_of_ok (by rw [Disk.read, fails]; rfl)

theorem safe_writeLba (lba n : Nat) (buf : Buf) : (writeLba d lba buf n).Safe fuel m := by
  refine (safe_require _).bind fun _ t _ => ?_
  cases fails : d.writeFails lba n with
  | true => exact safe_of_err (by rw [Disk.write, fails]; rfl)
  | false => exact safe_of_ok (by rw [Disk.write, fails]; rfl)

/-- Reading the header is safe: the two sizes it depends on are checked. -/
theorem safe_readGptHeader : (readGptHeader d).Safe fuel m := by
  refine (safe_require _).bind fun _ t narrow => (safe_defined (require_ok narrow).1).bind fun _ _ _ =>
    (safe_read 1 1).bind fun h _ _ => (safe_require _).bind fun _ _ _ => (safe_require _).bind fun _ _ sized =>
      Prog.Safe.bind ?_ fun _ _ _ => (safe_require _).bind fun _ _ _ =>
        (safe_defined (by decide)).bind fun _ _ _ => safe_pure _
  have small := of_decide_eq_true (require_ok narrow).1
  have size := of_decide_eq_true (Bool.and_eq_true_iff.mp (require_ok sized).1).2
  exact safe_defined (decide_eq_true (Nat.le_trans size small))

/-- What is read of a table fits its buffer. -/
theorem table_sectors_fit (n : Nat) : (min n gptTblBytes + 512 - 1) / 512 * 512 ≤ gptTblBytes := by
  have small : min n gptTblBytes ≤ 16384 := Nat.min_le_right _ _
  unfold gptTblBytes at small ⊢
  omega

/-- Reading the table is reading blocks into its buffer. -/
theorem run_readGptTable (block : d.blockSize = 512) (h : Buf) (fuel : Nat) (m : Media) : ∃ n, (readGptTable d h).run fuel m =
    (d.read (tableLba h) n).run fuel m := by
  rw [readGptTable, block, run_bind_ok (run_divide_pos (by decide) fuel m),
    bind_defined_true (decide_eq_true (table_sectors_fit _))]
  exact ⟨_, rfl⟩

theorem safe_readGptTable (block : d.blockSize = 512) (h : Buf) : (readGptTable d h).Safe fuel m := by
  obtain ⟨n, run⟩ := run_readGptTable block h fuel m
  rw [Prog.Safe, run]
  exact safe_read _ n

theorem safe_inTable {off n : Nat} (inside : off + n ≤ gptTblBytes) : (inTable off n).Safe fuel m :=
  safe_defined (decide_eq_true inside)

theorem safe_isEmpty (tbl : Buf) {off : Nat} (inside : off + 128 ≤ gptTblBytes) : (isEmpty tbl off).Safe fuel m := by
  refine (safe_inTable ?_).bind fun _ _ _ => safe_pure _
  have := Nat.min_le_left 16 (((bytesAt tbl off 16).takeWhile (· = 0)).length + 1)
  rw [guidReads]
  omega

theorem safe_listEntries (tbl h : Buf) (max : Nat) : ∀ (is : List Nat) (out : List Partition) (m : Media),
    (∀ i ∈ is, GptHeader.entryAt h i + 128 ≤ gptTblBytes) → (listEntries tbl h max is out).Safe fuel m
  | [], _, _, _ => safe_pure _
  | i :: is, out, m, inside => by
    have here := inside i (mem_cons_self ..)
    have name : nameReads tbl (GptHeader.entryAt h i) ≤ 72 := Nat.mul_le_mul_left 2 (Nat.min_le_left _ _)
    have rest : ∀ out t, (listEntries tbl h max is out).Safe fuel t := fun out t =>
      safe_listEntries tbl h max is out t fun j mem => inside j (mem_cons_of_mem _ mem)
    rw [listEntries]
    split
    · refine (safe_isEmpty tbl here).bind fun empty t _ => ?_
      split
      · exact rest out t
      · exact (safe_inTable (by omega)).bind fun _ _ _ => (safe_inTable (by omega)).bind fun _ _ _ =>
          (safe_inTable (by omega)).bind fun _ _ _ => (safe_inTable (by omega)).bind fun _ t _ => rest _ t
    · exact safe_pure _

theorem safe_findEmpty (tbl h : Buf) : ∀ (is : List Nat) (m : Media),
    (∀ i ∈ is, GptHeader.entryAt h i + 128 ≤ gptTblBytes) → (findEmpty tbl h is).Safe fuel m
  | [], _, _ => safe_pure _
  | i :: is, m, inside => by
    rw [findEmpty]
    refine (safe_isEmpty tbl (inside i (mem_cons_self ..))).bind fun empty t _ => ?_
    split
    · exact safe_pure _
    · exact safe_findEmpty tbl h is t fun j mem => inside j (mem_cons_of_mem _ mem)

theorem safe_writeHeader (block : d.blockSize = 512) {h : Buf} (small : headerSize h ≤ 92) :
    (writeHeader d h).Safe fuel m :=
  (safe_defined (decide_eq_true small)).bind fun _ _ _ =>
    (safe_defined (decide_eq_true (Nat.le_trans small (by decide)))).bind fun _ _ _ =>
      (safe_defined (by rw [block]; rfl)).bind fun _ _ _ => safe_writeLba _ _ _

theorem safe_writeTable (block : d.blockSize = 512) (h tbl : Buf) : (writeTable d h tbl 32).Safe fuel m :=
  (safe_inTable (by rw [block]; decide)).bind fun _ _ _ => safe_writeLba _ _ _

theorem safe_writeGptPair (block : d.blockSize = 512) {h : Buf} (small : headerSize h ≤ 92)
    (sum : u32 (entryCount h * entrySize h) ≤ gptTblBytes) (tbl : Buf) :
    (writeGptPair d h tbl 32).Safe fuel m :=
  (safe_inTable (by rw [Nat.zero_add]; exact sum)).bind fun _ _ _ =>
    (safe_defined (decide_eq_true small)).bind fun _ _ _ => (safe_writeTable block _ _).bind fun _ _ _ =>
      (safe_writeHeader block (by rw [headerSize_seal]; exact small)).bind fun _ _ _ =>
        (safe_defined (decide_eq_true small)).bind fun _ _ _ => (safe_writeTable block _ _).bind fun _ _ _ =>
          safe_writeHeader block (by rw [headerSize_backup, headerSize_seal]; exact small)

/-! ## On a disk with an accepted header -/

section Accepted

variable (block : d.blockSize = 512) (found : hasHeader d m = true)

include block found

theorem run_header : (readGptHeader d).run fuel m = .ok (headerStruct (m 1)) m := by
  rw [(checks_readGptHeader d).run_eq safe_readGptHeader, run_readGptHeader block, if_pos found]

theorem run_detect : (canbootPartDetect d).run fuel m = .ok .gpt m := by
  rw [canbootPartDetect, run_bind_ok (run_attempt_ok (run_header block found))]
  rfl

/-- A header that fits keeps the four calls in their buffers. -/
theorem staysInBuffers (fits : HeaderFits (headerStruct (m 1))) : StaysInBuffers d fuel m := by
  have header : (readGptHeader d).run fuel m = .ok (headerStruct (m 1)) m := run_header block found
  have sectors := run_tableSectors block fuel m
  have detect : (canbootPartDetect d).run fuel m = .ok .gpt m := run_detect block found
  have pair : ∀ {i tbl t}, i < entryCount (headerStruct (m 1)) →
      (writeGptPair d (headerStruct (m 1)) tbl 32).Safe fuel t := fun some =>
    safe_writeGptPair block (fits.sums (Nat.zero_lt_of_lt some)).1 (fits.sums (Nat.zero_lt_of_lt some)).2 _
  have inside : ∀ i ∈ range (entryCount (headerStruct (m 1))),
      GptHeader.entryAt (headerStruct (m 1)) i + 128 ≤ gptTblBytes := fun i mem => fits.entries i (mem_range.mp mem)
  refine ⟨fun max => ?_, fun start stop type name => ?_, fun idx => ?_, fun idx stop => ?_⟩
  · rw [Prog.Safe, canbootPartList, run_bind_ok detect, listGpt, run_bind_ok header]
    exact (safe_readGptTable block _).bind fun tbl t _ => safe_listEntries tbl _ _ _ _ t inside
  · refine (safe_require _).bind fun _ t writable => (safe_require _).bind fun _ t' ordered => ?_
    obtain ⟨-, rfl⟩ := require_ok writable
    obtain ⟨-, rfl⟩ := require_ok ordered
    rw [Prog.Safe, run_bind_ok detect]
    simp only [createGpt]
    rw [run_bind_ok header, run_bind_ok sectors]
    refine (safe_readGptTable block _).bind fun tbl t _ => (safe_findEmpty tbl _ _ t inside).bind fun slot t' search => ?_
    rw [(checks_findEmpty tbl _ _).run_eq (safe_findEmpty tbl _ _ t inside)] at search
    cases slot with
    | none => exact safe_fail
    | some i =>
      have hit := mem_of_find?_eq_some (Outcome.ok.inj search).1
      exact (safe_inTable (inside i hit)).bind fun _ _ _ => (pair (mem_range.mp hit)).bind fun _ _ _ =>
        safe_pure _
  · refine (safe_require _).bind fun _ t writable => ?_
    obtain ⟨-, rfl⟩ := require_ok writable
    rw [Prog.Safe, run_bind_ok detect]
    simp only
    rw [run_bind_ok header]
    refine (safe_require _).bind fun _ t below => ?_
    obtain ⟨below, rfl⟩ := require_ok below
    have small := of_decide_eq_true below
    rw [Prog.Safe, run_bind_ok sectors]
    exact (safe_readGptTable block _).bind fun tbl t _ => (safe_inTable (fits.entries _ small)).bind fun _ _ _ => pair small
  · refine (safe_require _).bind fun _ t writable => ?_
    obtain ⟨-, rfl⟩ := require_ok writable
    rw [Prog.Safe, run_bind_ok detect]
    simp only
    rw [run_bind_ok header]
    refine (safe_require _).bind fun _ t below => ?_
    obtain ⟨below, rfl⟩ := require_ok below
    have small := of_decide_eq_true below
    have entry := fits.entries _ small
    rw [Prog.Safe, run_bind_ok sectors]
    exact (safe_readGptTable block _).bind fun tbl t _ => (safe_isEmpty tbl entry).bind fun _ _ _ =>
      (safe_require _).bind fun _ _ _ => (safe_inTable (by omega)).bind fun _ _ _ =>
        (safe_require _).bind fun _ _ _ => (safe_inTable (by omega)).bind fun _ _ _ => pair small

/-- A deletion traps where the entry, the checksum of the table or the copy of the header leaves its buffer. -/
theorem delete_traps (writable : d.writable = true) (serves : ∀ lba n, d.readFails lba n = false) {idx : Nat}
    (below : idx < entryCount (headerStruct (m 1)))
    (unfit : ¬ (GptHeader.entryAt (headerStruct (m 1)) idx + 128 ≤ gptTblBytes ∧
      headerSize (headerStruct (m 1)) ≤ 92 ∧
      u32 (entryCount (headerStruct (m 1)) * entrySize (headerStruct (m 1))) ≤ gptTblBytes)) :
    (canbootPartDelete d idx).run fuel m = .trap := by
  obtain ⟨n, read⟩ := run_readGptTable block (headerStruct (m 1)) fuel m
  obtain ⟨tbl, load, -⟩ := run_readBlocks block fuel m (serves (tableLba (headerStruct (m 1))) n)
  rw [canbootPartDelete, bind_require_true writable, run_bind_ok (run_detect block found)]
  simp only
  rw [run_bind_ok (run_header block found), bind_require_true (decide_eq_true below),
    run_bind_ok (run_tableSectors block fuel m), run_bind_ok (read.trans load)]
  by_cases inside : GptHeader.entryAt (headerStruct (m 1)) idx + 128 ≤ gptTblBytes
  · rw [inTable, bind_defined_true (decide_eq_true inside), writeGptPair]
    by_cases sum : u32 (entryCount (headerStruct (m 1)) * entrySize (headerStruct (m 1))) ≤ gptTblBytes
    · have long : ¬ headerSize (headerStruct (m 1)) ≤ 92 := fun small => unfit ⟨inside, small, sum⟩
      rw [inTable, bind_defined_true (decide_eq_true (by omega)), inHeader, bind_defined_false (decide_eq_false long)]
    · rw [inTable, bind_defined_false (decide_eq_false (by omega))]
  · rw [inTable, bind_defined_false (decide_eq_false inside)]

end Accepted

end Checked

/-- A disk that serves every request. -/
def servingDisk : Disk := ⟨512, 128, true, fun _ _ => false, fun _ _ => false, fun _ => 0⟩

/-- A medium that is blank but for block 1. -/
def onlyHeader (h : Buf) : Media := fun l => if l = 1 then h else fun _ => 0

theorem hasHeader_onlyHeader (h : Buf) : hasHeader servingDisk (onlyHeader h) = validHeader h := rfl

/-- The fields of a header are those of its block. -/
theorem headerFits_congr {b h : Buf} (same : ∀ o, o < 512 → b o = h o) : HeaderFits (headerStruct b) ↔ HeaderFits h := by
  have field : ∀ off, off + 4 ≤ 92 → le32 (headerStruct b) off = le32 h off := fun off inside =>
    (le32_headerStruct b inside).trans (le32_congr fun i _ _ => same i (by omega))
  have count : entryCount (headerStruct b) = entryCount h := field 80 (by decide)
  have size : entrySize (headerStruct b) = entrySize h := field 84 (by decide)
  have length : headerSize (headerStruct b) = headerSize h := field 12 (by decide)
  have entry : ∀ i, GptHeader.entryAt (headerStruct b) i = GptHeader.entryAt h i := fun i => by
    rw [GptHeader.entryAt, GptHeader.entryAt, size]
  constructor
  · rintro ⟨entries, sums⟩
    exact ⟨by simpa only [count, entry] using entries, by simpa only [count, size, length] using sums⟩
  · rintro ⟨entries, sums⟩
    exact ⟨by simpa only [count, entry] using entries, by simpa only [count, size, length] using sums⟩

/-- **An accepted header keeps the four calls in their buffers exactly when it fits.** -/
theorem hostile_header_iff {h : Buf} (accepted : validHeader h = true) : HeaderSafe h ↔ HeaderFits h := by
  constructor
  · intro safe
    -- the deletions on a disk that serves every request show every misfit
    have stays := safe servingDisk 0 (onlyHeader h) rfl rfl fun _ _ => rfl
    have found := (hasHeader_onlyHeader h).trans accepted
    have fits : ∀ idx, idx < entryCount (headerStruct h) →
        GptHeader.entryAt (headerStruct h) idx + 128 ≤ gptTblBytes ∧ headerSize (headerStruct h) ≤ 92 ∧
        u32 (entryCount (headerStruct h) * entrySize (headerStruct h)) ≤ gptTblBytes := by
      intro idx below
      by_contra unfit
      have word : idx < 4294967296 := Nat.lt_trans below (le32_lt _ _)
      have trap := stays.delete (UInt32.ofNat idx)
      rw [UInt32.toNat_ofNat_of_lt' word] at trap
      exact trap (Checked.delete_traps rfl found rfl (fun _ _ => rfl) below unfit)
    rw [← headerFits_congr fun o _ => rfl]
    exact ⟨fun i below => (fits i below).1, fun some => (fits 0 some).2⟩
  · intro fits d fuel m block served same
    have found : hasHeader d m = true := by
      rw [hasHeader, served, validHeader_congr same, accepted]
      rfl
    exact Checked.staysInBuffers block found ((headerFits_congr same).mpr fits)

/-- The header of a fresh GPT is safe. -/
theorem hostile_header_fresh : validHeader (headerSector (gptPrimary 128 0)) = true ∧
    HeaderSafe (headerSector (gptPrimary 128 0)) := by
  have onGpt : OnGpt gptDisk (fun _ => headerSector (gptPrimary 128 0)) := ⟨0, fun _ _ => rfl⟩
  refine ⟨onGpt.validHeader, (hostile_header_iff onGpt.validHeader).mpr ?_⟩
  have canonical := onGpt.canonical
  rw [← headerFits_congr fun o _ => rfl]
  refine ⟨fun i below => ?_, fun _ => ?_⟩
  · rw [canonical.entryCount] at below
    rw [canonical.entryAt below, gptTblBytes]
    omega
  · rw [canonical.entryCount, canonical.entrySize, canonical.headerSize]
    decide

/-- A header whose entries are 4096 bytes apart, sealed. -/
def sparseHeader : Buf := sealHeader (putLe32 (freshHeader 128 32) 84 4096)

/-- It is accepted, and `canboot_part_delete(4)` clears 128 bytes behind the table buffer. -/
theorem hostile_header_overruns : validHeader (headerSector sparseHeader) = true ∧
    (Checked.canbootPartDelete servingDisk 4).run 0 (onlyHeader (headerSector sparseHeader)) = .trap := by
  have size : headerSize sparseHeader = 92 := by
    rw [sparseHeader, headerSize, le32_sealHeader _ (by omega)]
    decide
  have bytes : ∀ i, i < 92 → headerSector sparseHeader i = sparseHeader i := fun i hi => headerSector_of_lt size hi
  have accepted : validHeader (headerSector sparseHeader) = true := by
    have sig : signature (headerSector sparseHeader) = gptSig := by
      rw [signature, le64_congr fun i _ _ => bytes i (by omega), sparseHeader, le64_sealHeader _ (by omega)]
      decide
    have length : headerSize (headerSector sparseHeader) = 92 := by
      rw [← size]
      exact le32_congr fun i _ _ => bytes i (by omega)
    have sum := crc_of_sealed size bytes
    simp [validHeader, sig, length, sum]
  have count : entryCount (headerStruct (onlyHeader (headerSector sparseHeader) 1)) = 128 := by
    rw [entryCount, le32_headerStruct _ (by decide), onlyHeader, if_pos rfl,
      le32_congr fun i _ _ => bytes i (by omega), sparseHeader, le32_sealHeader _ (by omega)]
    decide
  have step : entrySize (headerStruct (onlyHeader (headerSector sparseHeader) 1)) = 4096 := by
    rw [entrySize, le32_headerStruct _ (by decide), onlyHeader, if_pos rfl,
      le32_congr fun i _ _ => bytes i (by omega), sparseHeader, le32_sealHeader _ (by omega)]
    decide
  refine ⟨accepted, Checked.delete_traps rfl ((hasHeader_onlyHeader _).trans accepted) rfl (fun _ _ => rfl) ?_ ?_⟩
  · rw [count]
    decide
  · rw [GptHeader.entryAt, step]
    rintro ⟨entry, -⟩
    exact absurd entry (by decide)

end CanBoot
