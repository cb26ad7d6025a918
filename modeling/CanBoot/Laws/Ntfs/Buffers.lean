import CanBoot.Fs.Ntfs

/-!
# What the NTFS reader's accesses do

One lemma for each access that stays in its buffer, and one for each that does not. A buffer of the state is reached
through a `Ref`; `Ref.Own` is what makes it one.
-/

namespace CanBoot.Ntfs

open Lib Lib.Prog

variable {r : Ref} {off : Nat} {s : Bufs} {fuel : Nat}

theorem run_loadAt {load : Buf → Nat → Nat} {width : Nat} (inside : off + width ≤ r.cap) (fuel : Nat) (s : Bufs) :
    (loadAt r load width off).run fuel s = .ok (load (r.get s) off) s := by
  rw [loadAt, bind_defined_true (decide_eq_true inside)]
  rfl

theorem run_loadAt_out {load : Buf → Nat → Nat} {width : Nat} (outside : r.cap < off + width) (fuel : Nat) (s : Bufs) :
    (loadAt r load width off).run fuel s = .trap := by
  rw [loadAt, bind_defined_false (decide_eq_false (by omega))]

theorem run_load8 (inside : off + 1 ≤ r.cap) : (load8 r off).run fuel s = .ok (r.get s off).toNat s :=
  run_loadAt inside fuel s

theorem run_load16 (inside : off + 2 ≤ r.cap) : (load16 r off).run fuel s = .ok (le16 (r.get s) off) s :=
  run_loadAt inside fuel s

theorem run_load16_out (outside : r.cap < off + 2) : (load16 r off).run fuel s = .trap :=
  run_loadAt_out outside fuel s

theorem run_load64 (inside : off + 8 ≤ r.cap) : (load64 r off).run fuel s = .ok (le64 (r.get s) off) s :=
  run_loadAt inside fuel s

theorem run_copyIn {bytes : Bytes} (inside : off + bytes.length ≤ r.cap) :
    (copyIn r off bytes).run fuel s = .ok () (r.set s (putBytes (r.get s) off bytes)) := by
  rw [copyIn, bind_defined_true (decide_eq_true inside)]
  rfl

/-! ## Blocks from the disk -/

/-- The blocks of a disk, in a buffer that held `old`. -/
def Volume.loaded (v : Volume) (lba n : Nat) (old : Buf) : Buf := fun i =>
  if i < n * v.disk.blockSize then v.media (lba + i / v.disk.blockSize) (i % v.disk.blockSize) else old i

variable {v : Volume} {lba n : Nat}

theorem run_readBlocks (serves : v.disk.readFails lba n = false) (fits : n * v.disk.blockSize ≤ r.cap) :
    (readBlocks v lba n r).run fuel s = .ok () (r.set s (v.loaded lba n (r.get s))) := by
  rw [readBlocks, bind_require_true (by rw [serves]; rfl), bind_defined_true (decide_eq_true fits)]
  rfl

theorem run_readBlocks_fails (fails : v.disk.readFails lba n = true) : (readBlocks v lba n r).run fuel s = .err s := by
  rw [readBlocks, bind_require_false (by rw [fails]; rfl)]

theorem run_readBlocks_out (serves : v.disk.readFails lba n = false) (overflows : r.cap < n * v.disk.blockSize) :
    (readBlocks v lba n r).run fuel s = .trap := by
  rw [readBlocks, bind_require_true (by rw [serves]; rfl), bind_defined_false (decide_eq_false (by omega))]

/-! ## The boot sector -/

/-- `bytes_per_mft_record`, from the boot sector. -/
def recordSize (boot : Buf) : Nat :=
  let cpr := (boot 64).toNat
  if cpr < 128 ∧ cpr ≠ 0 then u32 (cpr * u32 (le16 boot 11 * (boot 13).toNat)) else 2 ^ ((256 - cpr) % 256)

/-- The struct that `canboot_ntfs_open` fills in from the boot sector. -/
def bootFs (v : Volume) (boot : Buf) : Fs :=
  ⟨v, le16 boot 11, u32 (le16 boot 11 * (boot 13).toNat), le64 boot 48, recordSize boot, []⟩

/-- The boot sector's fields can be used: the divisor is not zero, and `1u << (-cpr)` is a shift of an `unsigned`. -/
def BootDefined (boot : Buf) : Prop :=
  (boot 13).toNat ≠ 0 ∧ ((boot 64).toNat < 128 ∧ (boot 64).toNat ≠ 0 ∨ (256 - (boot 64).toNat) % 256 < 32)

/-- The bytes that `boot` holds behind the read of the boot sector. -/
def Volume.bootBuf (v : Volume) (old : Buf) : Buf := v.loaded v.lba 1 old

theorem bootBuf_of_lt {old : Buf} {i : Nat} (inside : i < v.disk.blockSize) : v.bootBuf old i = v.media v.lba i := by
  rw [Volume.bootBuf, Volume.loaded, if_pos (by omega), Nat.div_eq_of_lt inside, Nat.mod_eq_of_lt inside, Nat.add_zero]

theorem bootBuf_of_ge {old : Buf} {i : Nat} (outside : v.disk.blockSize ≤ i) : v.bootBuf old i = old i := by
  rw [Volume.bootBuf, Volume.loaded, if_neg (by omega)]

section Boot

variable (serves : v.disk.readFails v.lba 1 = false) (small : v.disk.blockSize ≤ 512)

include serves small

/-- The statics behind the read of the boot sector. -/
theorem run_readBoot_load {α : Type} (f : Unit → Prog Bufs α) (fuel : Nat) (s : Bufs) :
    (readBlocks v v.lba 1 .boot >>= f).run fuel s = (f ()).run fuel { s with boot := v.bootBuf s.boot } :=
  run_bind_ok (run_readBlocks serves (by rw [Nat.one_mul]; exact small)) f

theorem run_readBoot_foreign (foreign : le64 (v.bootBuf s.boot) 3 ≠ 0x202020205346544e) :
    (readBoot v).run fuel s = .err { s with boot := v.bootBuf s.boot } := by
  rw [readBoot, run_readBoot_load serves small, run_bind_ok (run_load64 (by decide))]
  exact bind_require_false (decide_eq_false foreign)

section

variable (own : le64 (v.bootBuf s.boot) 3 = 0x202020205346544e)

include own

/-- The fields of a boot sector of its own are read and checked. -/
theorem run_readBoot_own : (readBoot v).run fuel s = (do
      let _ ← Prog.divide (le64 (v.bootBuf s.boot) 40) (v.bootBuf s.boot 13).toNat
      Prog.defined ((v.bootBuf s.boot 64).toNat < 128 ∧ (v.bootBuf s.boot 64).toNat ≠ 0 ∨
        (256 - (v.bootBuf s.boot 64).toNat) % 256 < 32)
      pure (bootFs v (v.bootBuf s.boot)) : Prog Bufs Fs).run fuel { s with boot := v.bootBuf s.boot } := by
  rw [readBoot, run_readBoot_load serves small, run_bind_ok (run_load64 (by decide))]
  refine (bind_require_true (decide_eq_true own)).trans ?_
  rw [run_bind_ok (run_load16 (by decide)), run_bind_ok (run_load8 (by decide)),
    run_bind_ok (run_load64 (by decide)), run_bind_ok (run_load64 (by decide))]
  by_cases zero : (v.bootBuf s.boot 13).toNat = 0
  · have traps : ∀ (t : Bufs), (Prog.divide (le64 (v.bootBuf s.boot) 40) (v.bootBuf s.boot 13).toNat).run fuel t = .trap :=
      fun t => by rw [run_divide, if_pos zero]
    exact (run_bind_trap (traps _) _).trans (run_bind_trap (traps _) _).symm
  · have divides : ∀ (t : Bufs), (Prog.divide (le64 (v.bootBuf s.boot) 40) (v.bootBuf s.boot 13).toNat).run fuel t = .ok _ t :=
      fun t => run_divide_pos zero fuel t
    refine (run_bind_ok (divides _) _).trans (Eq.trans ?_ (run_bind_ok (divides _) _).symm)
    rw [run_bind_ok (run_load8 (by decide))]
    rfl

theorem run_readBoot (defined : BootDefined (v.bootBuf s.boot)) :
    (readBoot v).run fuel s = .ok (bootFs v (v.bootBuf s.boot)) { s with boot := v.bootBuf s.boot } := by
  rw [run_readBoot_own serves small own, run_bind_ok (run_divide_pos defined.1 _ _),
    bind_defined_true (decide_eq_true defined.2)]
  rfl

theorem run_readBoot_undefined (undefined : ¬ BootDefined (v.bootBuf s.boot)) : (readBoot v).run fuel s = .trap := by
  rw [run_readBoot_own serves small own]
  by_cases zero : (v.bootBuf s.boot 13).toNat = 0
  · rw [zero]
    rfl
  · rw [run_bind_ok (run_divide_pos zero _ _)]
    refine bind_defined_false (decide_eq_false fun shifts => ?_)
    exact undefined ⟨zero, shifts⟩

end

end Boot

end CanBoot.Ntfs
