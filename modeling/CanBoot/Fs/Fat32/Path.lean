import CanBoot.Fs.Fat32.Alloc

/-!
# The path API

`resolve_dir`, `resolve_entry` and the seven calls of `fs/fat32.c` that take full paths. A call
that returns `-1` has failed where it stands: the writes before it are in the state it leaves.
-/

namespace CanBoot

open Lib

namespace Fat32

/-- One component of `resolve_dir`. -/
def resolveStep (fs : Fat32) (comp : List UInt8) (cluster : Nat) : Prog Media Nat := do
  match ← fs.dirFind cluster (to83 comp) with
  | none => Prog.fail
  | some (e, _, _) => do
    Prog.require e.isDir
    -- a first cluster of 0 is the `..` of a root child
    pure (if e.firstCluster = 0 then fs.rootCluster else e.firstCluster)

/-- `resolve_dir`. -/
def resolveDir (fs : Fat32) (path : List UInt8) : Prog Media Nat :=
  Prog.forAcc fs.resolveStep (components path) fs.rootCluster

/-- The first lines of the calls that take a path: `split_last`, `resolve_dir`, `to_83`. -/
def resolveParent (fs : Fat32) (path : List UInt8) : Prog Media (Nat × Name) :=
  match splitLast path 256 16 with
  | none => Prog.fail
  | some (parent, leaf) => do
    let pc ← fs.resolveDir parent
    pure (pc, to83 leaf)

/-- `resolve_entry`. -/
def resolveEntry (fs : Fat32) (path : List UInt8) : Prog Media (Option (Entry × Nat × Nat)) := do
  let (pc, t) ← fs.resolveParent path
  fs.dirFind pc t

/-- `resolve_entry(..) != 1` returns `-1` in every caller. -/
def resolveFound (fs : Fat32) (path : List UInt8) : Prog Media (Entry × Nat × Nat) := do
  match ← fs.resolveEntry path with
  | none => Prog.fail
  | some r => pure r

/-- `dir_find(..) == 1` returns `-1`: the name must not be there. A failed search counts as absent. -/
def requireAbsent (fs : Fat32) (dirCluster : Nat) (t : Name) : Prog Media Unit := do
  match ← Prog.attempt (fs.dirFind dirCluster t) with
  | some (some _) => Prog.fail
  | _ => pure ()

end Fat32

open Fat32

/-- `canboot_fat32_read_path`. -/
def canbootFat32ReadPath (fs : Fat32) (path : List UInt8) (buf : Buf) (bufSize : Nat) : Prog Media ReadResult := do
  let (e, _, _) ← fs.resolveFound path
  Prog.require (!e.isDir)
  fs.readEntry e buf bufSize

/-- The slot `canboot_fat32_write_path` writes to: an existing file's, its chain freed, or a free
one. -/
def Fat32.claimSlot (fs : Fat32) (pc : Nat) (t : Name) : Prog Media (Nat × Nat) := do
  match ← fs.dirFind pc t with
  | some (existing, ec, ei) => do
    Prog.require (!existing.isDir)
    fs.freeChain existing.firstCluster
    pure (ec, ei)
  | none => fs.dirAllocSlot pc

/-- The chain of a new file's data, allocated and written; 0 for an empty file. -/
def Fat32.storeData (fs : Fat32) (data : List UInt8) : Prog Media Nat :=
  if 0 < data.length then do
    let need := u32 (data.length + fs.bytesPerCluster - 1) / fs.bytesPerCluster
    let chain ← fs.allocChain need
    fs.fitsBuffer
    fs.writeData chain data
    pure (chain.headD 0)
  else pure 0

/-- `canboot_fat32_write_path`; `len` is the length of the data, a `uint32_t`. -/
def canbootFat32WritePath (fs : Fat32) (path data : List UInt8) : Prog Media Unit := do
  Prog.require fs.disk.writable
  let (pc, t) ← fs.resolveParent path
  let (ec, ei) ← fs.claimSlot pc t
  let first ← fs.storeData data
  fs.dirWriteEntry ec ei (makeEntry t 0x20 first data.length)

/-- `canboot_fat32_unlink_path`. -/
def canbootFat32UnlinkPath (fs : Fat32) (path : List UInt8) : Prog Media Unit := do
  Prog.require fs.disk.writable
  let (e, ec, ei) ← fs.resolveFound path
  Prog.require (!e.isDir)
  fs.freeChain e.firstCluster
  fs.dirMarkDeleted ec ei

/-- The first cluster of a new directory: `.` and `..`, then nothing. -/
def Fat32.newDirectory (fs : Fat32) (dc pc : Nat) : Buf :=
  putEntry (putEntry fs.zeroed 0 (makeEntry dotName 0x10 dc 0)) 1
    (makeEntry dotdotName 0x10 (if pc = fs.rootCluster then 0 else pc) 0)

/-- `canboot_fat32_mkdir`. -/
def canbootFat32Mkdir (fs : Fat32) (path : List UInt8) : Prog Media Unit := do
  Prog.require fs.disk.writable
  let (pc, t) ← fs.resolveParent path
  fs.requireAbsent pc t
  let dc ← fs.findFreeCluster
  fs.writeFatEntry dc eocMark
  fs.fitsBuffer
  fs.writeCluster dc (fs.newDirectory dc pc)
  let (ec, ei) ← fs.dirAllocSlot pc
  fs.dirWriteEntry ec ei (makeEntry t 0x10 dc 0)

/-- `canboot_fat32_rmdir`. -/
def canbootFat32Rmdir (fs : Fat32) (path : List UInt8) : Prog Media Unit := do
  Prog.require fs.disk.writable
  let (e, ec, ei) ← fs.resolveFound path
  Prog.require e.isDir
  let empty ← fs.dirIsEmpty e.firstCluster
  Prog.require empty
  fs.freeChain e.firstCluster
  fs.dirMarkDeleted ec ei

/-- The `..` of a directory moved under a new parent. A directory without one is left alone, and so
is one whose search fails. -/
def Fat32.repointDotdot (fs : Fat32) (e : Entry) (npc : Nat) : Prog Media Unit := do
  match ← Prog.attempt (fs.dirFind e.firstCluster dotdotName) with
  | some (some (dd, ddc, ddi)) =>
    fs.dirWriteEntry ddc ddi (dd.setCluster (if npc = fs.rootCluster then 0 else npc))
  | _ => pure ()

/-- `canboot_fat32_rename`. -/
def canbootFat32Rename (fs : Fat32) (oldp newp : List UInt8) : Prog Media Unit := do
  Prog.require fs.disk.writable
  let (e, oc, oi) ← fs.resolveFound oldp
  let (npc, nt) ← fs.resolveParent newp
  fs.requireAbsent npc nt
  let (ec, ei) ← fs.dirAllocSlot npc
  fs.dirWriteEntry ec ei (e.setName nt)
  if e.isDir && npc ≠ oc then fs.repointDotdot e npc
  fs.dirMarkDeleted oc oi

/-- What `canboot_fat32_list_path` does at an entry: skip it, or report it to the callback, which
may stop the listing. -/
def Fat32.listPathVisit {υ : Type} (cb : υ → List UInt8 → Nat → Bool → Bool × υ)
    (_ : Nat) (acc : Nat × υ) (_ : Nat) (e : Entry) : (Nat × υ) ⊕ (Nat × υ) :=
  if e.isEnd then .inr acc
  else if e.isDeleted then .inl acc
  else if e.isLfn then .inl acc
  else if e.isVolumeId then .inl acc
  else if isDotName e.name then .inl acc
  else
    let (go, user) := cb acc.2 (nameFrom83 e.name) e.size e.isDir
    if go then .inl (acc.1 + 1, user) else .inr (acc.1 + 1, user)

/-- `canboot_fat32_list_path`: the number of entries reported, and the callback's own state. -/
def canbootFat32ListPath {υ : Type} (fs : Fat32) (path : List UInt8)
    (cb : υ → List UInt8 → Nat → Bool → Bool × υ) (user : υ) : Prog Media (Nat × υ) := do
  let cluster ← fs.resolveDir path
  fs.fitsBuffer
  match ← fs.dirWalk isCluster (listPathVisit cb) (fun _ a => a) cluster (0, user) with
  | .inl r => pure r
  | .inr r => pure r

end CanBoot
