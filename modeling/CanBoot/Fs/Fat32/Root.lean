import CanBoot.Fs.Fat32.Alloc

/-!
# The root-only API

The calls the boot loaders use, written before the path engine and independent of it: they walk
the root directory's chain themselves, with filters of their own.
-/

namespace CanBoot

open Lib Fat32

/-- `canboot_fat32_read_root_file`. -/
def canbootFat32ReadRootFile (fs : Fat32) (name : List UInt8) (buf : Buf) (bufSize : Nat) : Prog Media ReadResult := do
  match ← fs.findRootEntry name with
  | none => Prog.fail
  | some (e, _, _) => fs.readEntry e buf bufSize

/-- What the last loop of `canboot_fat32_write_root_file` does at an entry: a free slot or the name
itself is the slot to write. -/
def Fat32.writeRootVisit (target : Name) (cluster : Nat) (_ : Unit) (i : Nat) (e : Entry) : Unit ⊕ (Nat × Nat) :=
  if e.isEnd || e.isDeleted then .inr (cluster, i)
  else if e.isLfn then .inl ()
  else if e.name = target then .inr (cluster, i)
  else .inl ()

/-- The entry `canboot_fat32_write_root_file` leaves in the slot, field by field. -/
def Fat32.rootFileEntry (e : Entry) (target : Name) (first len : Nat) : Entry :=
  ((((e.setName target).setAttr 0x20).clearTimes).setCluster first).setSize len

/-- `canboot_fat32_write_root_file`. -/
def canbootFat32WriteRootFile (fs : Fat32) (name data : List UInt8) : Prog Media Unit := do
  Prog.require fs.disk.writable
  let target := to83 name
  let rounded := u32 (data.length + fs.bytesPerCluster - 1) / fs.bytesPerCluster
  let needed := if rounded = 0 then 1 else rounded
  Prog.require (needed ≤ 8)
  let chain ← fs.reserveClusters needed
  fs.linkClusters chain
  fs.fitsBuffer
  fs.writeData chain data
  match ← fs.dirWalk belowEoc (writeRootVisit target) (fun _ a => a) fs.rootCluster () with
  | .inl _ => Prog.fail
  | .inr (cluster, slot) => do
    -- `dir_buf` still holds the cluster the slot was found in
    let buf ← fs.readCluster cluster
    fs.writeCluster cluster
      (putEntry buf slot (rootFileEntry (entryAt buf slot) target (chain.headD 0) data.length))

/-- What `canboot_fat32_list_root` does at an entry. -/
def Fat32.listRootVisit {υ : Type} (cb : υ → List UInt8 → Nat → Bool × υ)
    (_ : Nat) (acc : Nat × υ) (_ : Nat) (e : Entry) : (Nat × υ) ⊕ (Nat × υ) :=
  if e.isEnd then .inr acc
  else if e.isDeleted then .inl acc
  else if e.isLfn then .inl acc
  else if e.isVolumeId || e.isDir then .inl acc
  else
    let (go, user) := cb acc.2 (nameFrom83 e.name) e.size
    if go then .inl (acc.1 + 1, user) else .inr (acc.1 + 1, user)

/-- `canboot_fat32_list_root`. -/
def canbootFat32ListRoot {υ : Type} (fs : Fat32) (cb : υ → List UInt8 → Nat → Bool × υ)
    (user : υ) : Prog Media (Nat × υ) := do
  fs.fitsBuffer
  match ← fs.dirWalk belowEoc (listRootVisit cb) (fun _ a => a) fs.rootCluster (0, user) with
  | .inl r => pure r
  | .inr r => pure r

/-- What the walk of `canboot_fat32_delete_root_file` does at an entry. -/
def Fat32.deleteRootVisit (target : Name) (cluster : Nat) (_ : Unit) (i : Nat) (e : Entry) :
    Unit ⊕ Option (Entry × Nat × Nat) :=
  findRootEntryVisit target cluster () i e

/-- `canboot_fat32_delete_root_file`. It never asks whether the disk is writable. -/
def canbootFat32DeleteRootFile (fs : Fat32) (name : List UInt8) : Prog Media Unit := do
  fs.fitsBuffer
  match ← fs.dirWalk belowEoc (deleteRootVisit (to83 name)) (fun _ a => a) fs.rootCluster () with
  | .inr (some (e, cluster, i)) => do
    -- `buf` is the cluster as the walk read it, before the chain is freed
    let buf ← fs.readCluster cluster
    fs.freeChain e.firstCluster
    fs.writeCluster cluster (putByte buf (i * 32) 0xE5)
  | _ => Prog.fail

end CanBoot
