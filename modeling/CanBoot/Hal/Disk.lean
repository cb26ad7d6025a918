import CanBoot.Lib.Prog
import CanBoot.Lib.Words

/-!
# The block device

`struct canboot_disk` without its name and its driver pointer: the parameters a consumer reads,
and the driver's two calls. The medium is the state a program runs over, block by block; the disk
record itself never changes. A driver call either moves every block it was asked for or returns
non-zero, and which requests fail is a parameter of the disk.

A read fills whole blocks. What the caller's static buffer holds after them is left over from
earlier calls (`leftover`), and nothing is assumed of it.
-/

namespace CanBoot

open Lib

/-- The bytes of the medium, by block and offset in the block. -/
abbrev Media := Nat → Buf

/-- A registered block device. -/
structure Disk where
  blockSize : Nat
  blockCount : Nat
  writable : Bool
  /-- Does the driver fail a read of so many blocks from this block on? -/
  readFails : Nat → Nat → Bool
  /-- Does the driver fail a write of so many blocks from this block on? -/
  writeFails : Nat → Nat → Bool
  /-- What a static buffer holds where a read has not filled it. -/
  leftover : Buf

namespace Disk

/-- `d->read(d, lba, n, buf)`. -/
def read (d : Disk) (lba n : Nat) : Prog Media Buf := ⟨fun _ m =>
  if d.readFails lba n then .err m
  else .ok (fun i => if i < n * d.blockSize then m (lba + i / d.blockSize) (i % d.blockSize)
    else d.leftover i) m⟩

/-- `d->write(d, lba, n, buf)`. -/
def write (d : Disk) (lba n : Nat) (buf : Buf) : Prog Media Unit := ⟨fun _ m =>
  if d.writeFails lba n then .err m
  else .ok () fun l o =>
    if lba ≤ l ∧ l < lba + n ∧ o < d.blockSize then buf ((l - lba) * d.blockSize + o) else m l o⟩

/-- The driver serves every request inside the first `n` blocks. -/
structure ServesBelow (d : Disk) (n : Nat) : Prop where
  reads : ∀ lba k, lba + k ≤ n → d.readFails lba k = false
  writes : ∀ lba k, lba + k ≤ n → d.writeFails lba k = false

variable {d : Disk} {n : Nat}

theorem ServesBelow.mono {k : Nat} (h : d.ServesBelow n) (hk : k ≤ n) : d.ServesBelow k :=
  ⟨fun lba j hj => h.reads lba j (by omega), fun lba j hj => h.writes lba j (by omega)⟩

theorem run_read (h : d.ServesBelow n) {lba k : Nat} (hk : lba + k ≤ n) (fuel : Nat) (m : Media) :
    (d.read lba k).run fuel m = .ok (fun i => if i < k * d.blockSize then m (lba + i / d.blockSize) (i % d.blockSize)
        else d.leftover i) m := by
  simp only [read, h.reads lba k hk, Bool.false_eq_true, if_false]

theorem run_write (h : d.ServesBelow n) {lba k : Nat} (hk : lba + k ≤ n) (buf : Buf) (fuel : Nat)
    (m : Media) :
    (d.write lba k buf).run fuel m = .ok () fun l o =>
        if lba ≤ l ∧ l < lba + k ∧ o < d.blockSize then buf ((l - lba) * d.blockSize + o)
        else m l o := by
  simp only [write, h.writes lba k hk, Bool.false_eq_true, if_false]

end Disk

end CanBoot
