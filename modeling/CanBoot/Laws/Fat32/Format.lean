import CanBoot.Laws.Fat32.Blank
import CanBoot.Laws.Fat32.Mount

/-!
# A formatted volume

What `canboot_fat32_format` leaves on a disk it was given whole, and what `canboot_fat32_open` makes
of it. The handle is explicit at every size (`run_open_formatted`). Up to 2 TiB the sizes in it are
those mkfs worked with, the tables cover the clusters and the clusters lie inside the volume
(`formatFits`). Up to 16 GiB the handle has a sound geometry over an empty volume
(`formatted_blank`); from there on a cluster is larger than the engine's buffers.
-/

namespace CanBoot

open Lib Lib.Prog Nat List

variable {d : Disk} {m m' : Media} {fuel size off w : Nat} {label : Option (List UInt8)}

/-- The medium with one sector written. -/
def putSector (m : Media) (lba : Nat) (s : Buf) : Media := fun l o =>
  if l = lba ∧ o < 512 then s o else m l o

/-- The medium with some sectors zeroed. -/
def zeroSectors (m : Media) (P : Nat → Prop) [DecidablePred P] : Media := fun l o =>
  if P l ∧ o < 512 then 0 else m l o

/-- The handle of a formatted volume. -/
def formatHandle (d : Disk) (size : Nat) : Fat32 where
  disk := d
  bytesPerSector := 512
  sectorsPerCluster := pickSpc size
  bytesPerCluster := 512 * pickSpc size
  reservedSectors := 32
  numFats := 2
  sectorsPerFat := formatFatSize size
  rootCluster := 2
  fatStartLba := 32
  dataStartLba := 32 + 2 * formatFatSize size
  totalClusters := sub32 (if size > 0xFFFFFFFF then 0 else size)
    (u32 (32 + u32 (2 * formatFatSize size))) / pickSpc size

/-! ## The numbers -/

theorem pickSpc_le (size : Nat) : pickSpc size ≤ 64 := by
  unfold pickSpc
  split_ifs <;> omega

/-- A size mkfs goes on with. -/
theorem size_of_pickSpc (spc : pickSpc size ≠ 0) : 16384 ≤ size := by
  unfold pickSpc at spc
  split at spc
  · exact absurd rfl spc
  · omega

theorem formatFatSectors_lt (size spc : Nat) : ∀ (n fat : Nat), fat < 4294967296 →
    formatFatSectors size spc n fat < 4294967296
  | 0, _, h => h
  | n + 1, fat, h => by
    rw [formatFatSectors]
    split
    · exact h
    · exact formatFatSectors_lt size spc n _ (u32_lt _)

theorem formatFatSectors_ge (size spc : Nat) : ∀ (n fat : Nat), fat ≤ formatFatSectors size spc n fat
  | 0, _ => Nat.le_refl _
  | n + 1, fat => by
    rw [formatFatSectors]
    split
    · exact Nat.le_refl _
    · next more => exact Nat.le_trans (by omega) (formatFatSectors_ge size spc n _)

theorem formatFatSize_lt (size : Nat) : formatFatSize size < 4294967296 :=
  formatFatSectors_lt size _ 32 32 (by decide)

theorem formatFatSize_ge (size : Nat) : 32 ≤ formatFatSize size := formatFatSectors_ge size _ 32 32

/-- What is left after the reserved sectors and the tables, where nothing wraps. -/
theorem formatAvail_eq {fat : Nat} (word : size < 4294967296) (room : 32 + 2 * fat ≤ size) :
    formatAvail size fat = size - 32 - 2 * fat := by
  rw [formatAvail, sub64_of_le (a := size) (by omega) (by omega), u32_of_lt (by omega),
    sub64_of_le (by omega) (by omega)]

/-- The first guess of 32 sectors is too small, and the second one stands. -/
theorem formatFatSize_eq (word : size < 4294967296) (big : 16384 ≤ size) {spc : Nat} (hspc : pickSpc size = spc)
    (need : 32 < ((size - 96) / spc + 127) / 128) (fits : 32 + 2 * (((size - 96) / spc + 127) / 128) ≤ size) :
    formatFatSize size = ((size - 96) / spc + 127) / 128 ∧
      u32 (u64 (formatAvail size (formatFatSize size) / spc + 128 - 1) / 128) ≤ formatFatSize size := by
  have first : u32 (u64 (formatAvail size 32 / spc + 128 - 1) / 128) = ((size - 96) / spc + 127) / 128 := by
    rw [formatAvail_eq word (by omega), u64, show size - 32 - 2 * 32 = size - 96 by omega, u32]
    omega
  generalize hF : ((size - 96) / spc + 127) / 128 = F at *
  have second : u32 (u64 (formatAvail size F / spc + 128 - 1) / 128) ≤ F := by
    have less : (size - 32 - 2 * F) / spc ≤ (size - 96) / spc :=
      Nat.div_le_div_right (by omega)
    rw [formatAvail_eq word fits, u64, u32]
    omega
  have settles : formatFatSize size = F := by
    rw [formatFatSize, hspc]
    simp only [formatFatSectors, first]
    rw [if_neg (by omega), if_pos second]
  rw [settles]
  exact ⟨rfl, second⟩

/-- The numbers mkfs arrives at: another round of the iteration keeps them, the tables cover the
clusters, the clusters lie inside the volume, and `canboot_fat32_open` counts as many. -/
structure FormatFits (size : Nat) : Prop where
  stable : u32 (u64 (formatAvail size (formatFatSize size) / pickSpc size + 128 - 1) / 128) ≤ formatFatSize size
  inside : 32 + 2 * formatFatSize size + formatClusters size * pickSpc size ≤ size
  covers : formatClusters size + 2 ≤ 128 * formatFatSize size
  total : ∀ d, (formatHandle d size).totalClusters = formatClusters size

/-- **Below 2 TiB the numbers of mkfs are sound.** -/
theorem formatFits (word : size < 4294967296) (big : 16384 ≤ size) : FormatFits size := by
  -- in each row of the table the cluster size is a constant, and the first guess is too small
  have row : ∃ spc, pickSpc size = spc ∧ (spc = 1 ∨ spc = 8 ∨ spc = 16 ∨ spc = 32 ∨ spc = 64) ∧
      512 * 128 * spc ≤ 4 * size := by
    unfold pickSpc
    split_ifs
    · omega
    · exact ⟨1, rfl, by omega, by omega⟩
    · exact ⟨8, rfl, by omega, by omega⟩
    · exact ⟨16, rfl, by omega, by omega⟩
    · exact ⟨32, rfl, by omega, by omega⟩
    · exact ⟨64, rfl, by omega, by omega⟩
  obtain ⟨spc, hspc, cases, room⟩ := row
  have need : 32 < ((size - 96) / spc + 127) / 128 := by
    rcases cases with rfl | rfl | rfl | rfl | rfl <;> omega
  obtain ⟨hF, stable⟩ := formatFatSize_eq word big hspc need
    (by rcases cases with rfl | rfl | rfl | rfl | rfl <;> omega)
  have fits : 32 + 2 * formatFatSize size ≤ size := by
    rcases cases with rfl | rfl | rfl | rfl | rfl <;> omega
  have clusters : formatClusters size = (size - 32 - 2 * formatFatSize size) / spc := by
    have := Nat.div_le_self (size - 32 - 2 * formatFatSize size) spc
    rw [formatClusters, hspc, formatAvail_eq word fits, u32_of_lt (by omega)]
  refine ⟨by rwa [hspc], ?_, ?_, fun d => ?_⟩
  · rw [clusters, hspc]
    have := div_mul_le_self (size - 32 - 2 * formatFatSize size) spc
    omega
  · rw [clusters]
    rcases cases with rfl | rfl | rfl | rfl | rfl <;> omega
  · show sub32 (if size > 0xFFFFFFFF then 0 else size)
      (u32 (32 + u32 (2 * formatFatSize size))) / pickSpc size = _
    rw [if_neg (by omega), u32_of_lt (n := 2 * _) (by omega), u32_of_lt (by omega),
      sub32_of_le (by omega) (by omega), hspc, clusters, Nat.sub_sub]

/-- The numbers of a volume whose tables cover it and whose clusters lie inside it. -/
structure FormatNumbers (size : Nat) : Prop where
  spcPos : 0 < pickSpc size
  spcMax : pickSpc size ≤ 16
  inside : 32 + 2 * formatFatSize size + formatClusters size * pickSpc size ≤ size
  covers : formatClusters size + 2 ≤ 128 * formatFatSize size
  total : ∀ d, (formatHandle d size).totalClusters = formatClusters size

/-- Below 16 GiB a cluster also fits the engine's buffers. -/
theorem formatNumbers (small : size < 33554432) (big : 16384 ≤ size) : FormatNumbers size := by
  have fits := formatFits (by omega) big
  have spc : 0 < pickSpc size ∧ pickSpc size ≤ 16 := by
    unfold pickSpc
    split_ifs <;> omega
  exact ⟨spc.1, spc.2, fits.inside, fits.covers, fits.total⟩

/-! ## The writes -/

/-- The medium mkfs leaves. -/
def formatted (size : Nat) (label : Option (List UInt8)) (m : Media) : Media :=
  let fat := formatFatSize size
  let boot := bootSector 0 size (pickSpc size) fat label
  let m := putSector (putSector m 0 boot) 6 boot
  let m := putSector (putSector m 1 (fsInfoSector (formatClusters size))) 7
    (fsInfoSector (formatClusters size))
  let m := putSector (putSector m 32 fatHeadSector) (32 + fat) fatHeadSector
  let m := zeroSectors m fun l => 32 < l ∧ l < 32 + fat ∨ 32 + fat < l ∧ l < 32 + fat + fat
  zeroSectors m fun l => 32 + u32 (2 * fat) ≤ l ∧ l < 32 + u32 (2 * fat) + pickSpc size

/-- A sector that was written is on the medium. -/
theorem write_ok (block : d.blockSize = 512) {lba : Nat} {s : Buf} (ok : (d.write lba 1 s).run fuel m = .ok () m') :
    m' = putSector m lba s := by
  simp only [Disk.write, block] at ok
  split at ok
  · cases ok
  · cases ok
    funext l o
    unfold putSector
    by_cases hl : l = lba
    · subst hl
      by_cases ho : o < 512
      · rw [if_pos ⟨Nat.le_refl _, by omega, ho⟩, if_pos ⟨rfl, ho⟩, Nat.sub_self, Nat.zero_mul, Nat.zero_add]
      · rw [if_neg (fun h => ho h.2.2), if_neg (fun h => ho h.2)]
    · rw [if_neg (by omega), if_neg (fun h => hl h.1)]

theorem writeSector_ok (block : d.blockSize = 512) {lba : Nat} (lt : lba < 18446744073709551616)
    {s : Buf} (ok : (writeSector d lba s).run fuel m = .ok () m') : m' = putSector m lba s := by
  rw [writeSector, u64, mod_eq_of_lt lt] at ok
  exact write_ok block ok

theorem putSector_zero (m : Media) (lba : Nat) : putSector m lba (fun _ => 0) = zeroSectors m (· = lba) := rfl

theorem zeroSectors_zeroSectors (m : Media) (P Q R : Nat → Prop) [DecidablePred P] [DecidablePred Q] [DecidablePred R]
    (h : ∀ l, R l ↔ P l ∨ Q l) : zeroSectors (zeroSectors m P) Q = zeroSectors m R := by
  funext l o
  unfold zeroSectors
  by_cases hP : P l <;> by_cases hQ : Q l <;> by_cases ho : o < 512 <;> simp [h, hP, hQ, ho]

theorem zeroSectors_none (m : Media) (P : Nat → Prop) [DecidablePred P] (h : ∀ l, ¬ P l) : zeroSectors m P = m := by
  funext l o
  rw [zeroSectors, if_neg fun hl => h l hl.1]

/-- A loop that zeroes some sectors a round. -/
theorem zeroLoop_ok {body : Nat → Unit → Prog Media Unit} {P : Nat → Nat → Prop}
    [∀ x, DecidablePred (P x)] : ∀ {xs : List Nat} {m : Media},
    (∀ x ∈ xs, ∀ {m m'}, (body x ()).run fuel m = .ok () m' → m' = zeroSectors m (P x)) →
    (Prog.forAcc body xs ()).run fuel m = .ok () m' → m' = zeroSectors m fun l => ∃ x ∈ xs, P x l
  | [], m, _, ok => by
    cases ok
    rw [zeroSectors_none _ _ (by simp)]
  | x :: xs, m, round, ok => by
    rw [Prog.forAcc, run_bind_eq_ok] at ok
    obtain ⟨_, m1, first, rest⟩ := ok
    rw [zeroLoop_ok (fun y hy => round y (mem_cons_of_mem _ hy)) rest, round x mem_cons_self first,
      zeroSectors_zeroSectors _ _ _ (fun l => ∃ y ∈ x :: xs, P y l) (by simp)]

theorem zeroSectors_congr (m : Media) (P Q : Nat → Prop) [DecidablePred P] [DecidablePred Q]
    (h : ∀ l, P l ↔ Q l) : zeroSectors m P = zeroSectors m Q := by
  funext l o
  simp only [zeroSectors, h]

/-- **What a call of `canboot_fat32_format` that returned 0 has checked and written.** -/
theorem format_ok (ok : (canbootFat32Format d 0 size label).run fuel m = .ok () m') :
    d.writable = true ∧ d.blockSize = 512 ∧ pickSpc size ≠ 0 ∧ 65525 ≤ formatClusters size ∧
      m' = formatted size label m := by
  have fatLt := formatFatSize_lt size
  have spcLe := pickSpc_le size
  simp only [canbootFat32Format, run_bind_eq_ok, Nat.zero_add] at ok
  obtain ⟨_, _, c1, _, _, c2, _, _, c3, _, _, c4, _, _, w0, _, _, w6, _, _, w1, _, _, w7, _, _, wf,
    _, _, wf', _, _, tables, root⟩ := ok
  obtain ⟨writable, rfl⟩ := require_ok c1
  obtain ⟨block, rfl⟩ := require_ok c2
  obtain ⟨spc, rfl⟩ := require_ok c3
  obtain ⟨count, rfl⟩ := require_ok c4
  have block := of_decide_eq_true block
  refine ⟨writable, block, of_decide_eq_true spc, of_decide_eq_true count, ?_⟩
  obtain rfl := writeSector_ok block (by omega) w0
  obtain rfl := writeSector_ok block (by omega) w6
  obtain rfl := writeSector_ok block (by omega) w1
  obtain rfl := writeSector_ok block (by omega) w7
  obtain rfl := writeSector_ok block (by omega) wf
  obtain rfl := writeSector_ok block (by omega) wf'
  have tables := zeroLoop_ok (P := fun x l => l = 32 + x ∨ l = 32 + formatFatSize size + x)
    (fun x hx {m m'} round => by
      have := (mem_range'_1.mp hx).2
      obtain ⟨_, m1, first, second⟩ := run_bind_eq_ok.mp round
      rw [writeSector_ok block (by omega) second, writeSector_ok block (by omega) first,
        putSector_zero, putSector_zero, zeroSectors_zeroSectors _ _ _ _ fun _ => Iff.rfl]) tables
  have root := zeroLoop_ok (P := fun x l => l = 32 + u32 (2 * formatFatSize size) + x)
    (fun x hx {m m'} round => by
      have := mem_range.mp hx
      have := u32_lt (2 * formatFatSize size)
      rw [writeSector_ok block (by omega) round, putSector_zero]) root
  have rootRun : ∀ l, (∃ x ∈ List.range (pickSpc size), l = 32 + u32 (2 * formatFatSize size) + x) ↔
      32 + u32 (2 * formatFatSize size) ≤ l ∧ l < 32 + u32 (2 * formatFatSize size) + pickSpc size := by
    intro l
    constructor
    · rintro ⟨x, hx, rfl⟩
      have := mem_range.mp hx
      omega
    · rintro ⟨low, high⟩
      exact ⟨l - (32 + u32 (2 * formatFatSize size)), mem_range.mpr (by omega), by omega⟩
  have tableRuns : ∀ l, (∃ x ∈ range' 1 (formatFatSize size - 1), l = 32 + x ∨ l = 32 + formatFatSize size + x) ↔
      32 < l ∧ l < 32 + formatFatSize size ∨
        32 + formatFatSize size < l ∧ l < 32 + formatFatSize size + formatFatSize size := by
    intro l
    have := formatFatSize_ge size
    constructor
    · rintro ⟨x, hx, heq⟩
      have := mem_range'_1.mp hx
      omega
    · rintro (⟨low, high⟩ | ⟨low, high⟩)
      · exact ⟨l - 32, mem_range'_1.mpr (by omega), by omega⟩
      · exact ⟨l - (32 + formatFatSize size), mem_range'_1.mpr (by omega), by omega⟩
  rw [root, tables, zeroSectors_congr _ _ _ rootRun, zeroSectors_congr _ _ _ tableRuns]
  rfl

/-! ## The handle -/

theorem formatted_boot {o : Nat} (ho : o < 512) :
    formatted size label m 0 o = bootSector 0 size (pickSpc size) (formatFatSize size) label o := by
  have : 0 ≠ 32 + formatFatSize size := by omega
  simp [formatted, zeroSectors, putSector, ho, this]

section

variable (start sectors spc fat : Nat) (label : Option (List UInt8))

/-- The constant fields `canboot_fat32_open` reads, as mkfs wrote them. -/
theorem bootSector_constants : let b := bootSector start sectors spc fat label
    le16 b 11 = 512 ∧ le16 b 14 = 32 ∧ (b 16).toNat = 2 ∧ le16 b 17 = 0 ∧ le16 b 19 = 0 ∧
      le16 b 22 = 0 ∧ le32 b 44 = 2 := by
  simp [bootSector, le32, le16, putLe32, putLe16, putByte, putBytes]

theorem bootSector_spc : bootSector start sectors spc fat label 13 = UInt8.ofNat spc := by
  simp [bootSector, putLe32, putLe16, putByte, putBytes]

/-- A word of the boot sector that no later store touches. -/
theorem bootSector_word (h : off = 32 ∧ w = (if sectors > 0xFFFFFFFF then 0 else sectors) ∨
    off = 36 ∧ w = fat) : le32 (bootSector start sectors spc fat label) off = w % 4294967296 := by
  rw [← le32_putLe32 (fun _ => 0) off w]
  refine le32_congr fun i lo hi => ?_
  rcases h with ⟨rfl, rfl⟩ | ⟨rfl, rfl⟩
  · have : i = 32 ∨ i = 33 ∨ i = 34 ∨ i = 35 := by omega
    rcases this with rfl | rfl | rfl | rfl <;>
      simp [bootSector, putLe32, putLe16, putByte, putBytes]
  · have : i = 36 ∨ i = 37 ∨ i = 38 ∨ i = 39 := by omega
    rcases this with rfl | rfl | rfl | rfl <;>
      simp [bootSector, putLe32, putLe16, putByte, putBytes]

end

/-- A disk that serves a formatted volume serves its boot sector. -/
theorem reads_boot (serves : d.ServesBelow size) (spc : pickSpc size ≠ 0) : d.readFails 0 1 = false :=
  serves.reads 0 1 (by have := size_of_pickSpc spc; omega)

/-- **`canboot_fat32_open` finds what mkfs wrote.** -/
theorem run_open_formatted (reads : d.readFails 0 1 = false) (block : d.blockSize = 512) (spc : pickSpc size ≠ 0) :
    (canbootFat32Open d).run fuel (formatted size label m) = .ok (formatHandle d size) (formatted size label m) := by
  have spcLe := pickSpc_le size
  obtain ⟨bps, reserved, fats, entries, total16, fat16, root⟩ :=
    bootSector_constants 0 size (pickSpc size) (formatFatSize size) label
  have word32 : le32 (bootSector 0 size (pickSpc size) (formatFatSize size) label) 32 =
      if size > 0xFFFFFFFF then 0 else size := by
    rw [bootSector_word _ _ _ _ _ (Or.inl ⟨rfl, rfl⟩)]
    split <;> omega
  have word36 : le32 (bootSector 0 size (pickSpc size) (formatFatSize size) label) 36 = formatFatSize size := by
    rw [bootSector_word _ _ _ _ _ (Or.inr ⟨rfl, rfl⟩)]
    exact mod_eq_of_lt (formatFatSize_lt size)
  have byte13 : (bootSector 0 size (pickSpc size) (formatFatSize size) label 13).toNat = pickSpc size := by
    rw [bootSector_spc, UInt8.toNat_ofNat']
    omega
  rw [run_open block reads (fun o ho => formatted_boot ho)
    ⟨by rw [bps]; decide, fat16, entries, by rwa [byte13]⟩]
  have blocks : blocksPerSector 512 512 = 1 := rfl
  have total : ∀ x : Nat, (if x ≠ 0 then x else 0) = x := by
    intro x
    split <;> omega
  congr 1
  simp only [openHandle, bps, reserved, fats, word32, word36, byte13, total16, root, block, blocks,
    total, Nat.mul_one, formatHandle]

/-! ## The empty volume -/

theorem fatHeadSector_root : le32 fatHeadSector (2 * 4) = 0x0FFFFFF8 := by
  rw [fatHeadSector, le32_putLe32]

/-- Past the root's entry the head of a table is zero. -/
theorem fatHeadSector_zero {c : Nat} (hc : 3 ≤ c) : le32 fatHeadSector (c * 4) = 0 := by
  have : le32 fatHeadSector (c * 4) = le32 (fun _ => 0) (c * 4) :=
    le32_congr fun i lo _ => by
      rw [fatHeadSector, putLe32_of_out _ _ (by omega), putLe32_of_out _ _ (by omega), putLe32_of_out _ _ (by omega)]
  rw [this]
  rfl

section

variable (n : FormatNumbers size)

include n

theorem formatHandle_geometry (block : d.blockSize = 512) (serves : d.ServesBelow size)
    (small : size < 33554432) : (formatHandle d size).Geometry where
  blockSize := block
  bytesPerSector := rfl
  spcPos := n.spcPos
  bytesPerCluster := rfl
  small := by
    have := n.spcMax
    show 512 * pickSpc size ≤ 8192
    omega
  fatsPos := Nat.zero_lt_two
  reservedPos := succ_pos 31
  dataStart := rfl
  covers := by
    rw [n.total]
    exact n.covers
  clusters := by
    have := n.inside
    have : formatClusters size ≤ formatClusters size * pickSpc size := Nat.le_mul_of_pos_right _ n.spcPos
    rw [n.total]
    unfold eoc
    omega
  serves := serves.mono (by rw [n.total]; exact n.inside)

/-- The sectors of the tables: a head each, and zeros. -/
theorem formatted_table (small : size < 33554432) {j q o : Nat} (hj : j < 2)
    (hq : q < formatFatSize size) (ho : o < 512) :
    formatted size label m (32 + j * formatFatSize size + q) o = if q = 0 then fatHeadSector o else 0 := by
  have inside := n.inside
  have wrap : u32 (2 * formatFatSize size) = 2 * formatFatSize size := u32_of_lt (by omega)
  have which : j * formatFatSize size = 0 ∨ j * formatFatSize size = formatFatSize size := by
    have : j = 0 ∨ j = 1 := by omega
    rcases this with rfl | rfl <;> simp
  simp only [formatted, zeroSectors, putSector, wrap, ho, and_true]
  rw [if_neg (by omega)]
  by_cases h0 : q = 0
  · rw [if_neg (by omega), if_pos h0]
    by_cases second : 32 + j * formatFatSize size + q = 32 + formatFatSize size
    · rw [if_pos second]
    · rw [if_neg second, if_pos (by omega)]
  · rw [if_pos (by omega), if_neg h0]

/-- The root cluster is zero. -/
theorem formatted_root (small : size < 33554432) {s o : Nat} (hs : s < pickSpc size)
    (ho : o < 512) : formatted size label m (32 + 2 * formatFatSize size + s) o = 0 := by
  have inside := n.inside
  have wrap : u32 (2 * formatFatSize size) = 2 * formatFatSize size := u32_of_lt (by omega)
  simp only [formatted, zeroSectors, wrap, ho, and_true]
  rw [if_pos (by omega)]

/-- The words of both tables: two reserved ones, the root's end of chain, and zeros. -/
theorem fats_formatted (small : size < 33554432) {c : Nat}
    (hc : (formatHandle d size).InTable c) (k : Nat) :
    ((formatHandle d size).view (formatted size label m)).fats k c =
      if c < 128 then le32 fatHeadSector (c * 4) % 0x10000000 else 0 := by
  have lt : c / 128 < formatFatSize size := by
    have : c < 128 * formatFatSize size := hc
    omega
  have word : ∀ i, c % 128 * 4 ≤ i → i < c % 128 * 4 + 4 →
      formatted size label m ((formatHandle d size).fatLba (k % 2) c) i = if c / 128 = 0 then fatHeadSector i else 0 :=
    fun i _ _ => formatted_table n small (mod_lt _ Nat.zero_lt_two) lt (by omega)
  simp only [Fat32.view, if_pos hc]
  by_cases head : c < 128
  · rw [if_pos head, mod_eq_of_lt head]
    congr 1
    refine le32_congr fun i lo hi => ?_
    rw [← mod_eq_of_lt head] at lo hi
    refine (word i lo hi).trans ?_
    rw [if_pos (by omega)]
  · rw [if_neg head]
    have zero : le32 (formatted size label m ((formatHandle d size).fatLba (k % 2) c))
        (c % 128 * 4) = le32 (fun _ => 0) (c % 128 * 4) :=
      le32_congr fun i lo hi => by rw [word i lo hi, if_neg (by omega)]
    exact (congrArg (· % 0x10000000) zero).trans rfl

theorem data_formatted (small : size < 33554432) (o : Nat) :
    ((formatHandle d size).view (formatted size label m)).data 2 o = 0 := by
  simp only [Fat32.view]
  split
  · next inside =>
    have inside : o < 512 * pickSpc size := inside.2
    have zero : formatted size label m (32 + 2 * formatFatSize size + o / 512) (o % 512) = 0 :=
      formatted_root n small (by omega) (by omega)
    have lba : (formatHandle d size).dataLba 2 + o / 512 = 32 + 2 * formatFatSize size + o / 512 := by
      show 32 + 2 * formatFatSize size + (2 - 2) * _ + o / 512 = _
      rw [Nat.sub_self, Nat.zero_mul, Nat.add_zero]
    rw [lba, zero]
  · rfl

/-- **A formatted volume is empty**, and holds nothing back. -/
theorem formatted_blank (block : d.blockSize = 512) (serves : d.ServesBelow size) (small : size < 33554432)
    (count : 0 < formatClusters size) : ((formatHandle d size).view (formatted size label m)).Laid (formatHandle d size)
        (Vol.only (.dir 2)) (fun _ => [2]) ∧
      ((formatHandle d size).view (formatted size label m)).Tight (formatHandle d size)
        (Vol.only (.dir 2)) fun _ => [2] := by
  have g := formatHandle_geometry n block serves small
  have range : (formatHandle d size).InRange 2 := by
    refine ⟨Nat.le_refl _, ?_⟩
    rw [n.total]
    omega
  have root : (formatHandle d size).rootCluster = 2 := rfl
  constructor
  · refine Vol.laid_blank g range ?_ fun o _ => data_formatted n small o
    rw [root, Vol.fat, fats_formatted n small (g.inTable range), if_pos (by decide), fatHeadSector_root]
    decide
  · refine Vol.tight_blank (fun c hc hne => ?_) fun k c => ?_
    · have : 2 ≤ c := hc.1
      have : c ≠ 2 := hne
      rw [Vol.fat, fats_formatted n small (g.inTable hc)]
      split
      · rw [fatHeadSector_zero (by omega)]
      · rfl
    · by_cases hc : (formatHandle d size).InTable c
      · rw [fats_formatted n small hc, fats_formatted n small hc]
      · simp only [Fat32.view, if_neg hc]

end

/-- A disk of 66,600 blocks, with room for a formatted volume. -/
def mkfsDisk : Disk := { tinyDisk with blockCount := 66600 }

theorem mkfsDisk_formats : (canbootFat32Format mkfsDisk 0 66600 none).run 70000 (fun _ _ => 0) =
    .ok () (formatted 66600 none fun _ _ => 0) := by
  have ok := Outcome.eq_ok_of_isOk (fun _ _ => 0)
    (o := (canbootFat32Format mkfsDisk 0 66600 none).run 70000 fun _ _ => 0) (by decide +kernel)
  obtain ⟨_, _, _, _, media⟩ := format_ok ok
  rw [← media]
  exact ok

theorem mkfsDisk_serves : mkfsDisk.ServesBelow 66600 := ⟨fun _ _ _ => rfl, fun _ _ _ => rfl⟩

end CanBoot
