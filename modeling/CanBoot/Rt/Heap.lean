import CanBoot.Lib.Gaps
import CanBoot.Lib.Words

/-!
# Choosing the heap (`rt/picolibc_port/syscalls.c`)

`canboot_heap_init` collects the address ranges it must not touch, sweeps every usable entry of the loader's memory map
past them, keeps the longest gap and rounds it to pages. Addresses are 64 bits wide, and the ends of the protected
ranges are computed without a test for overflow.
-/

namespace CanBoot.Rt

open Lib

/-- The architectures, which differ in how much memory is mapped. -/
inductive Arch where
  | x86_64 | aarch64
deriving DecidableEq, Repr

/-- `ceiling`. -/
def Arch.ceiling : Arch → Nat
  | .x86_64 => 0x100000000
  | .aarch64 => 18446744073709551615

/-- `struct canboot_mmap_entry`; of the types only `CANBOOT_MMAP_USABLE` matters. -/
structure MmapEntry where
  base : UInt64
  length : UInt64
  usable : Bool
deriving DecidableEq, Repr

/-- `struct canboot_boot_file` without its name. -/
structure BootFile where
  addr : UInt64
  size : UInt64
deriving DecidableEq, Repr

/-- What `canboot_heap_init` reads: the linker's symbols (zero where they are missing), the address of the `boot_info`
and its fields, and the stack pointer. -/
structure Boot where
  kernelStart : UInt64
  kernelEnd : UInt64
  bi : UInt64
  fbRgb : Bool
  fbAddr : UInt64
  fbPitch : UInt32
  fbHeight : UInt32
  fileCount : UInt32
  files : Nat → BootFile
  sp : UInt64
  mmapCount : UInt32
  mmap : Nat → MmapEntry

/-- `CANBOOT_MMAP_MAX`. -/
def mmapMax : Nat := 256

/-- `CANBOOT_BOOT_FILE_MAX`. -/
def bootFileMax : Nat := 4

/-- `sizeof(struct boot_info)`. -/
def bootInfoSize : Nat := 6416

/-- The entries of the map that are read. -/
def Boot.entries (b : Boot) : List MmapEntry := (List.range (min b.mmapCount.toNat mmapMax)).map b.mmap

/-- The files that are read. -/
def Boot.bootFiles (b : Boot) : List BootFile := (List.range (min b.fileCount.toNat bootFileMax)).map b.files

/-- `heap_iv_add`, into an array of 12 intervals. -/
def heapIvAdd (iv : List Span) (s e : Nat) : List Span :=
  if e ≤ s ∨ iv.length ≥ 8 + bootFileMax then iv else iv ++ [⟨s, e⟩]

/-- The protected intervals `excl`. -/
def Boot.excl (b : Boot) : List Span :=
  let iv := if b.kernelStart ≠ 0 ∧ b.kernelEnd ≠ 0 then heapIvAdd [] b.kernelStart.toNat b.kernelEnd.toNat else []
  let iv := heapIvAdd iv b.bi.toNat (u64 (b.bi.toNat + bootInfoSize))
  let iv := if b.fbRgb ∧ b.fbAddr ≠ 0 then
      heapIvAdd iv b.fbAddr.toNat (u64 (b.fbAddr.toNat + b.fbPitch.toNat * b.fbHeight.toNat))
    else iv
  let iv := b.bootFiles.foldl (fun iv f =>
    if f.size ≠ 0 then heapIvAdd iv f.addr.toNat (u64 (f.addr.toNat + f.size.toNat)) else iv) iv
  heapIvAdd iv (sub64 b.sp.toNat (512 * 1024)) (u64 (b.sp.toNat + 64 * 1024))

/-- `!hit || s < cut_s`: the first stretch, or one that begins before it. -/
def nearer (s : Span) : Option Span → Option Span
  | none => some s
  | some c => if s.start < c.start then some s else some c

/-- The inner loop of the sweep: the protected stretch nearest to the cursor. -/
def nextCut (excl : List Span) (cursor ee : Nat) : Option Span :=
  excl.foldl (fun cut k =>
    if k.stop ≤ cursor ∨ k.start ≥ ee then cut
    else nearer ⟨if k.start < cursor then cursor else k.start, k.stop⟩ cut) none

/-- `best_base` and `best_len`. -/
structure Best where
  base : Nat
  len : Nat
deriving DecidableEq, Repr

/-- A gap is kept if it is longer than the best so far. -/
def Best.offer (best : Best) (cursor gapEnd : Nat) : Best :=
  if gapEnd - cursor > best.len then ⟨cursor, gapEnd - cursor⟩ else best

/-- The sweep over one entry. -/
def sweep (excl : List Span) (ee : Nat) : Nat → Nat → Best → Option Best
  | 0, _, _ => none
  | fuel + 1, cursor, best =>
    if cursor < ee then
      match nextCut excl cursor ee with
      | none => some (best.offer cursor ee)
      | some c => sweep excl ee fuel (if c.stop > cursor then c.stop else cursor + 1) (best.offer cursor c.start)
    else some best

/-- One entry of the map. -/
def scanEntry (arch : Arch) (excl : List Span) (fuel : Nat) (best : Best) (m : MmapEntry) : Option Best :=
  if !m.usable then some best
  else
    let es := m.base.toNat
    let ee := u64 (es + m.length.toNat)
    if es ≥ arch.ceiling then some best
    else
      let ee := if ee > arch.ceiling then arch.ceiling else ee
      sweep excl ee fuel es best

/-- `heap_base` and `heap_size`. -/
structure Region where
  base : Nat
  size : Nat
deriving DecidableEq, Repr

/-- The best gap, rounded to pages, if enough is left. -/
def Best.region (best : Best) : Option Region :=
  let aligned := u64 (best.base + 0xFFF) / 4096 * 4096
  let lead := sub64 aligned best.base
  let avail := if best.len > lead then (best.len - lead) / 4096 * 4096 else 0
  if avail ≥ 1024 * 1024 then some ⟨aligned, avail⟩ else none

/-- `canboot_heap_init` at its first call: the region it selects, if any. -/
def canbootHeapInit (arch : Arch) (fuel : Nat) (b : Boot) : Option (Option Region) :=
  (b.entries.foldlM (scanEntry arch b.excl fuel) ⟨0, 0⟩).map Best.region

end CanBoot.Rt
