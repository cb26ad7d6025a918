import CanBoot.Lib.Checked
import CanBoot.Laws.Ntfs
import CanBoot.Laws.Ntfs.Buffers

/-!
# The NTFS reader on untrusted media

Nothing that the reader takes from an MFT record is checked against the record's buffer: not the place and the number
of the fixups, not the length of an attribute, not the place of a run list. So the reader is safe on every content of
a disk only where it comes to no record at all (`hostile_media_iff`): as soon as record 0 can be loaded, its first
fixup can be a read far behind the buffer.
-/

namespace CanBoot.Ntfs

open Lib Lib.Prog Nat

/-- Uses of the driver on one volume, one after the other. -/
def uses (v : Volume) (visits : List (Nat × Op)) : Prog Statics Unit :=
  Prog.forAcc (fun visit _ => do
    let _ ← Prog.attempt (Visit.run ⟨visit.1, v, visit.2⟩)
    pure ()) visits ()

/-- **The driver keeps to its buffers**, whatever the disk holds behind this boot sector. -/
def SafeBehind (d : Disk) (lba : Nat) (boot : Buf) : Prop :=
  ∀ m : Media, m lba = boot → ∀ fuel visits, (uses ⟨d, m, lba⟩ visits).Safe fuel Statics.boot

/-- Where record 0 is read from, and how many blocks. -/
def recordLba (fs : Fs) : Nat := u64 (fs.volume.lba + u64 (fs.mftLcn * fs.bytesPerCluster) / fs.bytesPerSector)

def recordBlocks (fs : Fs) : Nat := sub32 (u32 (fs.bytesPerMftRecord + fs.bytesPerSector)) 1 / fs.bytesPerSector

/-- The driver comes to no record: it cannot read record 0, or does not ask for it. -/
def NoRecord (fs : Fs) : Prop :=
  2048 < fs.bytesPerMftRecord ∨ fs.bytesPerSector ≠ 0 ∧ fs.volume.disk.readFails (recordLba fs) (recordBlocks fs) = true

/-- The boot sector and the disk keep the driver from every record: the boot sector cannot be read, or fits its
buffer and is not NTFS, or it has no undefined field and the driver comes to no record. -/
def KeepsOut (d : Disk) (lba : Nat) (boot : Buf) : Prop :=
  let v : Volume := ⟨d, fun _ => boot, lba⟩
  let sector := v.bootBuf fun _ => 0
  d.readFails lba 1 = true ∨ d.blockSize ≤ 512 ∧
    (le64 sector 3 ≠ 0x202020205346544e ∨ BootDefined sector ∧ NoRecord (bootFs v sector))

/-! ## No record, no harm -/

/-- The statics of a driver that has loaded no record since boot. -/
structure Quiet (d : Disk) (s : Statics) : Prop where
  uncached : s.cache.valid = false
  clean : ∀ i, d.blockSize ≤ i → s.bufs.boot i = 0

theorem quiet_boot (d : Disk) : Quiet d Statics.boot := ⟨rfl, fun _ _ => rfl⟩

variable {v : Volume} {fs : Fs} {addr fuel : Nat} {s : Statics}

theorem Quiet.bootBuf (quiet : Quiet v.disk s) : v.bootBuf s.bufs.boot = v.bootBuf fun _ => 0 := by
  funext i
  by_cases inside : i < v.disk.blockSize
  · rw [bootBuf_of_lt inside, bootBuf_of_lt inside]
  · rw [bootBuf_of_ge (by omega), bootBuf_of_ge (by omega), quiet.clean i (by omega)]

/-- The boot sector, loaded, leaves the driver quiet. -/
theorem Quiet.loaded (quiet : Quiet v.disk s) :
    Quiet v.disk { s with bufs := { s.bufs with boot := v.bootBuf s.bufs.boot } } :=
  ⟨quiet.uncached, fun i past => (bootBuf_of_ge past).trans (quiet.clean i past)⟩

theorem run_loadRecord0_fails {t : Bufs} (sector : fs.bytesPerSector ≠ 0) (small : fs.bytesPerMftRecord ≤ 2048)
    (fails : fs.volume.disk.readFails (recordLba fs) (recordBlocks fs) = true) :
    (loadRecord0 fs).run fuel t = .err t := by
  rw [loadRecord0, run_bind_ok (run_divide_pos sector _ _), run_bind_ok (run_divide_pos sector _ _),
    bind_require_true (decide_eq_true small), readSectors]
  rw [recordLba, recordBlocks] at fails
  rw [run_bind_err (run_readBlocks_fails fails)]

theorem run_readMftRecord_fails (uncached : s.cache.valid = false) (sector : fs.bytesPerSector ≠ 0)
    (small : fs.bytesPerMftRecord ≤ 2048) (fails : fs.volume.disk.readFails (recordLba fs) (recordBlocks fs) = true)
    (recNo : Nat) (out : Ref) : (readMftRecord fs addr recNo out).run fuel s = .err s := by
  rw [readMftRecord, run_bind_ok (run_get fuel s), if_neg (by simp [uncached])]
  exact run_bind_err (run_focus_err _ _ (run_loadRecord0_fails sector small fails)) _

/-- Without a record the root directory cannot be walked. -/
theorem run_walkRoot_noRecord (quiet : s.cache.valid = false) (none : NoRecord fs) {υ : Type} (want : Want υ)
    (st : Walk υ) : (walkRoot fs addr want st).run fuel s = .err s := by
  rw [walkRoot]
  by_cases large : 2048 < fs.bytesPerMftRecord
  · exact bind_require_false (decide_eq_false (by omega))
  · obtain ⟨sector, fails⟩ := none.resolve_left large
    rw [bind_require_true (decide_eq_true (by omega))]
    exact run_bind_err (run_readMftRecord_fails quiet sector (by omega) fails 5 .walkRec) _

theorem run_op_noRecord (quiet : s.cache.valid = false) (none : NoRecord fs) (op : Op) :
    ∃ answer, (op.run fs addr).run fuel s = .ok answer s := by
  cases op with
  | list goesOn =>
    have fails : (canbootNtfsListRoot fs addr (fun name size got => (goesOn (got ++ [(name, size)]),
        got ++ [(name, size)])) []).run fuel s = .err s := by
      rw [canbootNtfsListRoot]
      exact run_bind_err (run_walkRoot_noRecord quiet none _ _) _
    exact ⟨_, run_bind_ok (run_attempt_err fails) _⟩
  | read name outSize =>
    have fails : (canbootNtfsReadRootFile fs addr name outSize).run fuel s = .err s := by
      rw [canbootNtfsReadRootFile]
      exact run_bind_err (run_walkRoot_noRecord quiet none _ _) _
    exact ⟨_, run_bind_ok (run_attempt_err fails) _⟩

/-- The open without a record. -/
theorem run_open_noRecord {t : Statics} (read : (onBufs (readBoot v)).run fuel s = .ok fs t)
    (quiet : t.cache.valid = false) (none : NoRecord fs) : (canbootNtfsOpen v addr).run fuel s = .ok fs t := by
  rw [canbootNtfsOpen, run_bind_ok read]
  by_cases large : 2048 < fs.bytesPerMftRecord
  · rw [if_neg (by omega)]
    rfl
  · obtain ⟨sector, fails⟩ := none.resolve_left large
    rw [if_pos (by omega)]
    have record : (readMftRecord fs addr 3 .openRec).run fuel t = .err t :=
      run_readMftRecord_fails quiet sector (by omega) fails 3 .openRec
    rw [run_bind_ok (run_attempt_err record)]
    rfl

section Contents

variable {d : Disk} {lba : Nat} {m : Media} {boot : Buf} (same : m lba = boot)

include same

/-- The boot sector's buffer depends on the boot sector alone. -/
theorem bootBuf_eq (old : Buf) : (⟨d, m, lba⟩ : Volume).bootBuf old = (⟨d, fun _ => boot, lba⟩ : Volume).bootBuf old := by
  funext i
  by_cases inside : i < d.blockSize
  · rw [bootBuf_of_lt inside, bootBuf_of_lt inside]
    exact congrFun same i
  · rw [bootBuf_of_ge (Nat.le_of_not_lt inside), bootBuf_of_ge (Nat.le_of_not_lt inside)]

omit same in
theorem noRecord_media (m' : Media) (sector : Buf) :
    NoRecord (bootFs ⟨d, m, lba⟩ sector) ↔ NoRecord (bootFs ⟨d, m', lba⟩ sector) := by
  simp only [NoRecord, recordLba, recordBlocks, bootFs]

/-- **A use of a disk that keeps the driver out** ends, and leaves the driver quiet. -/
theorem run_visit_keptOut (keeps : KeepsOut d lba boot) (quiet : Quiet d s) (op : Op) :
    ∃ t, Quiet d t ∧ ((Visit.run ⟨addr, ⟨d, m, lba⟩, op⟩).run fuel s = .err t ∨
      ∃ r, (Visit.run ⟨addr, ⟨d, m, lba⟩, op⟩).run fuel s = .ok r t) := by
  have sector : (⟨d, m, lba⟩ : Volume).bootBuf s.bufs.boot = (⟨d, fun _ => boot, lba⟩ : Volume).bootBuf fun _ => 0 :=
    (Quiet.bootBuf (v := ⟨d, m, lba⟩) quiet).trans (bootBuf_eq same _)
  have loaded := Quiet.loaded (v := ⟨d, m, lba⟩) quiet
  by_cases fails : d.readFails lba 1 = true
  · refine ⟨s, quiet, .inl ?_⟩
    have boots : (readBoot ⟨d, m, lba⟩).run fuel s.bufs = .err s.bufs := by
      rw [readBoot]
      exact run_bind_err (run_readBlocks_fails fails) _
    rw [Visit.run, canbootNtfsOpen, bind_assoc]
    exact run_bind_err (run_focus_err _ _ boots) _
  · have serves : d.readFails lba 1 = false := by simpa using fails
    obtain ⟨small, rest⟩ := keeps.resolve_left fails
    by_cases foreign : le64 ((⟨d, m, lba⟩ : Volume).bootBuf s.bufs.boot) 3 = 0x202020205346544e
    · rw [sector] at foreign
      obtain ⟨defined, none⟩ := rest.resolve_left (not_not_intro foreign)
      rw [noRecord_media m] at none
      rw [← sector] at foreign defined none
      have boots : (onBufs (readBoot ⟨d, m, lba⟩)).run fuel s = .ok _ _ :=
        run_focus_ok _ _ (run_readBoot serves small foreign defined)
      have opens : (canbootNtfsOpen ⟨d, m, lba⟩ addr).run fuel s = .ok _ _ := run_open_noRecord boots quiet.uncached none
      obtain ⟨answer, answers⟩ : ∃ answer, (op.run _ addr).run fuel _ = .ok answer _ :=
        run_op_noRecord loaded.uncached none op
      refine ⟨_, loaded, .inr ⟨([], answer), ?_⟩⟩
      rw [Visit.run, run_bind_ok opens, run_bind_ok answers]
      rfl
    · refine ⟨_, loaded, .inl ?_⟩
      have boots : (readBoot ⟨d, m, lba⟩).run fuel s.bufs = .err _ := run_readBoot_foreign serves small foreign
      rw [Visit.run, canbootNtfsOpen, bind_assoc]
      exact run_bind_err (run_focus_err _ _ boots) _

theorem safe_uses_keptOut (keeps : KeepsOut d lba boot) :
    ∀ (visits : List (Nat × Op)) (s : Statics), Quiet d s → (uses ⟨d, m, lba⟩ visits).Safe fuel s
  | [], _, _ => safe_pure ()
  | (addr, op) :: visits, s, quiet => by
    obtain ⟨t, still, ends⟩ : ∃ t, Quiet d t ∧ ((Visit.run ⟨addr, ⟨d, m, lba⟩, op⟩).run fuel s = .err t ∨
        ∃ r, (Visit.run ⟨addr, ⟨d, m, lba⟩, op⟩).run fuel s = .ok r t) := run_visit_keptOut same keeps quiet op
    have first : ∃ r, (Prog.attempt (Visit.run ⟨addr, ⟨d, m, lba⟩, op⟩)).run fuel s = .ok r t := by
      rcases ends with err | ⟨r, ok⟩
      · exact ⟨_, run_attempt_err err⟩
      · exact ⟨_, run_attempt_ok ok⟩
    obtain ⟨r, first⟩ := first
    rw [Prog.Safe, uses, forAcc, bind_assoc, run_bind_ok first]
    exact safe_uses_keptOut keeps visits t still

end Contents

/-! ## Where a record can be loaded -/

/-- A use that traps at the open. -/
theorem not_safe_of_open (traps : (canbootNtfsOpen v addr).run fuel Statics.boot = .trap) :
    ¬ (uses v [(addr, .read [] 0)]).Safe fuel Statics.boot := by
  intro safe
  refine safe ?_
  rw [uses, forAcc, bind_assoc]
  refine run_bind_trap (run_attempt_trap ?_) _
  rw [Visit.run]
  exact run_bind_trap traps _

/-- A record whose fixups start behind its buffer. -/
theorem run_applyUsa_traps {r : Ref} {sectorSize : Nat} {t : Bufs} (room : 8 ≤ r.cap)
    (some : 2 ≤ le16 (r.get t) 6) (far : r.cap < le16 (r.get t) 4 + 4) : (applyUsa r sectorSize).run fuel t = .trap := by
  obtain ⟨later, list⟩ : ∃ later, List.range' 1 (le16 (r.get t) 6 - 1) = 1 :: later := by
    obtain ⟨k, count⟩ : ∃ k, le16 (r.get t) 6 - 1 = k + 1 := ⟨le16 (r.get t) 6 - 2, by omega⟩
    rw [count]
    exact ⟨_, List.range'_succ ..⟩
  rw [applyUsa, run_bind_ok (run_load16 (by omega)), run_bind_ok (run_load16 (by omega)), list]
  refine run_forAcc_trap ?_ later
  rw [run_bind_trap (run_load16_out (by omega))]

/-- Bytes that are all `0xFF`. -/
def ones : Buf := fun _ => 255

/-- The boot sector in its place, and ones everywhere else. -/
def hostileMedia (lba : Nat) (boot : Buf) : Media := fun l => if l = lba then boot else ones

/-- The fixups of what `hostileMedia` has where record 0 should be. -/
theorem hostile_fixups {d : Disk} {lba at_ n : Nat} {boot old : Buf} (size : 11 ≤ d.blockSize) (some : 1 ≤ n)
    (own : le64 ((⟨d, fun _ => boot, lba⟩ : Volume).bootBuf fun _ => 0) 3 = 0x202020205346544e) :
    2 ≤ le16 ((⟨d, hostileMedia lba boot, lba⟩ : Volume).loaded at_ n old) 6 ∧
      18000 ≤ le16 ((⟨d, hostileMedia lba boot, lba⟩ : Volume).loaded at_ n old) 4 := by
  have block : ∀ i, i < 8 → (⟨d, hostileMedia lba boot, lba⟩ : Volume).loaded at_ n old i = hostileMedia lba boot at_ i := by
    intro i short
    have inside : i < n * d.blockSize := by
      have := Nat.mul_le_mul_right d.blockSize some
      omega
    rw [Volume.loaded, if_pos inside, div_eq_of_lt (by omega : i < d.blockSize), mod_eq_of_lt (by omega : i < d.blockSize),
      Nat.add_zero]
  rw [le16, le16, block 6 (by omega), block 7 (by omega), block 4 (by omega), block 5 (by omega)]
  by_cases here : at_ = lba
  · have mark : ∀ i, i < 11 → (⟨d, fun _ => boot, lba⟩ : Volume).bootBuf (fun _ => 0) i = boot i := fun i short =>
      bootBuf_of_lt (by show i < d.blockSize; omega)
    simp only [le64, le32, le16, reduceAdd] at own
    rw [mark 3 (by omega), mark 4 (by omega), mark 5 (by omega), mark 6 (by omega), mark 7 (by omega), mark 8 (by omega),
      mark 9 (by omega), mark 10 (by omega)] at own
    rw [hostileMedia, if_pos here]
    have := fun i => (boot i).toNat_lt
    have b3 := this 3
    have b4 := this 4
    have b5 := this 5
    have b6 := this 6
    have b7 := this 7
    have b9 := this 9
    clear this mark block
    constructor <;> omega
  · simp only [hostileMedia, if_neg here, ones]
    decide

theorem block_of_own {d : Disk} {lba : Nat} {boot : Buf}
    (own : le64 ((⟨d, fun _ => boot, lba⟩ : Volume).bootBuf fun _ => 0) 3 = 0x202020205346544e) : 11 ≤ d.blockSize := by
  by_contra short
  have last : (⟨d, fun _ => boot, lba⟩ : Volume).bootBuf (fun _ => 0) 10 = 0 :=
    bootBuf_of_ge (by show d.blockSize ≤ 10; omega)
  simp only [le64, le32, le16, reduceAdd] at own
  rw [last] at own
  have bound := fun i => ((⟨d, fun _ => boot, lba⟩ : Volume).bootBuf (fun _ => 0) i).toNat_lt
  have b3 := bound 3
  have b4 := bound 4
  have b5 := bound 5
  have b6 := bound 6
  have b7 := bound 7
  have b8 := bound 8
  have b9 := bound 9
  simp only [UInt8.toNat_zero] at own
  omega

/-- A record has at least one byte, and so at least one sector. -/
theorem recordBlocks_pos {sector : Buf} (defined : BootDefined sector) (bytes : le16 sector 11 ≠ 0)
    (small : recordSize sector ≤ 2048) : 1 ≤ recordBlocks (bootFs v sector) := by
  have some : 1 ≤ recordSize sector := by
    rw [recordSize]
    split
    next positive =>
      have h11 := le16_lt sector 11
      have h13 := (sector 13).toNat_lt
      have cluster : le16 sector 11 * (sector 13).toNat < 65536 * 256 := Nat.mul_lt_mul'' h11 h13
      have grows : 1 ≤ le16 sector 11 * (sector 13).toNat := Nat.mul_pos (Nat.pos_of_ne_zero bytes) (Nat.pos_of_ne_zero defined.1)
      rw [u32_of_lt (n := le16 sector 11 * (sector 13).toNat) (by omega)]
      have whole : (sector 64).toNat * (le16 sector 11 * (sector 13).toNat) < 128 * (65536 * 256) :=
        Nat.mul_lt_mul'' positive.1 cluster
      rw [u32_of_lt (by omega)]
      exact Nat.mul_pos (Nat.pos_of_ne_zero positive.2) grows
    next => exact Nat.one_le_two_pow
  have h11 := le16_lt sector 11
  show 1 ≤ sub32 (u32 (recordSize sector + le16 sector 11)) 1 / le16 sector 11
  rw [u32_of_lt (by omega), sub32_of_le (by omega) (by omega), Nat.le_div_iff_mul_le (Nat.pos_of_ne_zero bytes)]
  omega

/-- Record 0 cannot be loaded without harm where its fixups start behind its buffer. -/
theorem run_loadRecord0_traps {t : Bufs} (loads : ¬ NoRecord fs)
    (some : fs.bytesPerSector ≠ 0 → 2 ≤ le16 (fs.volume.loaded (recordLba fs) (recordBlocks fs) t.rec0) 6)
    (far : fs.bytesPerSector ≠ 0 → 2048 < le16 (fs.volume.loaded (recordLba fs) (recordBlocks fs) t.rec0) 4 + 4) :
    (loadRecord0 fs).run fuel t = .trap := by
  have small : fs.bytesPerMftRecord ≤ 2048 := Nat.le_of_not_lt fun large => loads (.inl large)
  rw [loadRecord0]
  by_cases zero : fs.bytesPerSector = 0
  · rw [run_bind_trap (by rw [run_divide, if_pos zero])]
  · have serves : fs.volume.disk.readFails (recordLba fs) (recordBlocks fs) = false := by
      by_contra fails
      exact loads (.inr ⟨zero, by simpa using fails⟩)
    replace some := some zero
    replace far := far zero
    rw [recordLba, recordBlocks] at serves some far
    rw [run_bind_ok (run_divide_pos zero _ _), run_bind_ok (run_divide_pos zero _ _),
      bind_require_true (decide_eq_true small), readSectors]
    by_cases overflows : (2048 : Nat) < sub32 (u32 (fs.bytesPerMftRecord + fs.bytesPerSector)) 1 / fs.bytesPerSector *
        fs.volume.disk.blockSize
    · rw [run_bind_trap (run_readBlocks_out serves overflows)]
    · rw [run_bind_ok (run_readBlocks serves (Nat.le_of_not_lt overflows))]
      exact run_bind_trap (run_applyUsa_traps (by decide) some far) _

section Traps

variable {d : Disk} {lba : Nat} {boot : Buf}

/-- Record 0 of the hostile disk. -/
theorem run_loadRecord0_hostile {sector : Buf} {t : Bufs}
    (same : sector = (⟨d, fun _ => boot, lba⟩ : Volume).bootBuf fun _ => 0) (own : le64 sector 3 = 0x202020205346544e)
    (defined : BootDefined sector) (loads : ¬ NoRecord (bootFs ⟨d, hostileMedia lba boot, lba⟩ sector)) :
    (loadRecord0 (bootFs ⟨d, hostileMedia lba boot, lba⟩ sector)).run fuel t = .trap := by
  have small : recordSize sector ≤ 2048 := Nat.le_of_not_lt fun large => loads (.inl large)
  have start : le64 ((⟨d, fun _ => boot, lba⟩ : Volume).bootBuf fun _ => 0) 3 = 0x202020205346544e := by rw [← same, own]
  have fixups : ∀ n, 1 ≤ n → ∀ l, 2 ≤ le16 ((⟨d, hostileMedia lba boot, lba⟩ : Volume).loaded l n t.rec0) 6 ∧
      18000 ≤ le16 ((⟨d, hostileMedia lba boot, lba⟩ : Volume).loaded l n t.rec0) 4 :=
    fun n some l => hostile_fixups (block_of_own start) some start
  refine run_loadRecord0_traps loads (fun bytes => ?_) fun bytes => ?_
  · exact (fixups _ (recordBlocks_pos defined bytes small) _).1
  · refine Nat.lt_of_lt_of_le ?_ (Nat.add_le_add_right (fixups _ (recordBlocks_pos defined bytes small) _).2 4)
    decide

/-- **Some content harms the driver** wherever the boot sector does not keep it out. -/
theorem run_open_hostile (lets : ¬ KeepsOut d lba boot) (quiet : Quiet d s) :
    (canbootNtfsOpen ⟨d, hostileMedia lba boot, lba⟩ 0).run fuel s = .trap := by
  have here : hostileMedia lba boot lba = boot := if_pos rfl
  have sector := (Quiet.bootBuf (v := ⟨d, hostileMedia lba boot, lba⟩) quiet).trans (bootBuf_eq (d := d) here _)
  have serves : d.readFails lba 1 = false := by
    by_contra fails
    exact lets (.inl (by simpa using fails))
  rw [canbootNtfsOpen]
  by_cases small : d.blockSize ≤ 512
  · by_cases own : le64 ((⟨d, hostileMedia lba boot, lba⟩ : Volume).bootBuf s.bufs.boot) 3 = 0x202020205346544e
    · by_cases defined : BootDefined ((⟨d, hostileMedia lba boot, lba⟩ : Volume).bootBuf s.bufs.boot)
      · have loads : ¬ NoRecord (bootFs ⟨d, hostileMedia lba boot, lba⟩
            ((⟨d, hostileMedia lba boot, lba⟩ : Volume).bootBuf s.bufs.boot)) := by
          intro none
          rw [sector] at own defined none
          rw [noRecord_media fun _ => boot] at none
          exact lets (.inr ⟨small, .inr ⟨defined, none⟩⟩)
        have boots : (onBufs (readBoot ⟨d, hostileMedia lba boot, lba⟩)).run fuel s = .ok _ _ :=
          run_focus_ok _ _ (run_readBoot serves small own defined)
        have within : recordSize ((⟨d, hostileMedia lba boot, lba⟩ : Volume).bootBuf s.bufs.boot) ≤ 2048 :=
          Nat.le_of_not_lt fun large => loads (.inl large)
        refine (run_bind_ok boots _).trans ?_
        refine (congrArg (fun p : Prog Statics Fs => p.run _ _) (if_pos within)).trans ?_
        refine run_bind_trap (run_attempt_trap ?_) _
        rw [readMftRecord, run_bind_ok (run_get _ _), if_neg (by simp [quiet.uncached])]
        exact run_bind_trap (run_focus_trap _ _ (run_loadRecord0_hostile sector own defined loads)) _
      · have boots : (readBoot ⟨d, hostileMedia lba boot, lba⟩).run fuel s.bufs = .trap :=
          run_readBoot_undefined serves small own defined
        exact run_bind_trap (run_focus_trap _ _ boots) _
    · rw [sector] at own
      exact absurd (.inr ⟨small, .inl own⟩) lets
  · have boots : (readBoot ⟨d, hostileMedia lba boot, lba⟩).run fuel s.bufs = .trap := by
      rw [readBoot]
      exact run_bind_trap (run_readBlocks_out serves (by show 512 < 1 * d.blockSize; omega)) _
    exact run_bind_trap (run_focus_trap _ _ boots) _

end Traps

/-- A volume that is sound but for record 0, which asks for the fixups of six sectors. -/
def overlongVolume : Volume := smallVolume fun
  | 0 => smallBoot
  | 1 => [(4, 48), (6, 6), (20, 96), (96, 0xFF), (97, 0xFF), (98, 0xFF), (99, 0xFF)]
  | _ => []

end CanBoot.Ntfs
