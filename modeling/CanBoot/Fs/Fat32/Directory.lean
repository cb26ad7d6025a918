import CanBoot.Fs.Fat32.Volume
import CanBoot.Fs.Fat32.Names

/-!
# Directory entries and the directory walkers

`struct fat_dir` is an overlay of 32 bytes, and it is modelled as that. Every walker of
`fs/fat32.c` has one shape: along the directory's chain, cluster by cluster, it looks at the
entries in order until one of them decides. `dirWalk` is that shape. A walker supplies the test of
its `while`, what an entry does to it (go on, or leave with a result), and what it records when a
cluster is done.
-/

namespace CanBoot

open Lib

/-- `struct fat_dir`, 32 packed bytes. -/
@[ext] structure Entry where
  byte : Fin 32 → UInt8

namespace Entry

def name (e : Entry) : Name := ⟨fun k => e.byte (k.castLE (by decide))⟩

def attr (e : Entry) : UInt8 := e.byte 11

/-- `entry_first_cluster`. -/
def firstCluster (e : Entry) : Nat :=
  ((e.byte 20).toNat + 256 * (e.byte 21).toNat) * 65536 + ((e.byte 26).toNat + 256 * (e.byte 27).toNat)

def size (e : Entry) : Nat :=
  (e.byte 28).toNat + 256 * (e.byte 29).toNat + 65536 * ((e.byte 30).toNat + 256 * (e.byte 31).toNat)

/-- `attr & ATTR_DIRECTORY`. -/
def isDir (e : Entry) : Bool := e.attr &&& 0x10 ≠ 0

/-- `attr & ATTR_VOLUME_ID`. -/
def isVolumeId (e : Entry) : Bool := e.attr &&& 0x08 ≠ 0

/-- `attr == ATTR_LFN`. -/
def isLfn (e : Entry) : Bool := e.attr = 0x0F

/-- The name byte that ends a directory. -/
def isEnd (e : Entry) : Bool := e.byte 0 = 0x00

/-- The name byte of a deleted entry. -/
def isDeleted (e : Entry) : Bool := e.byte 0 = 0xE5

/-- `memcpy(e->name, n, 11)`. -/
def setName (e : Entry) (n : Name) : Entry :=
  ⟨fun k => if h : k.val < 11 then n.byte ⟨k.val, h⟩ else e.byte k⟩

/-- Both halves of the first cluster. -/
def setCluster (e : Entry) (c : Nat) : Entry := ⟨fun k =>
  if k = 20 then UInt8.ofNat (c / 65536)
  else if k = 21 then UInt8.ofNat (c / 65536 / 256)
  else if k = 26 then UInt8.ofNat c
  else if k = 27 then UInt8.ofNat (c / 256)
  else e.byte k⟩

def setSize (e : Entry) (n : Nat) : Entry := ⟨fun k =>
  if k = 28 then UInt8.ofNat n
  else if k = 29 then UInt8.ofNat (n / 256)
  else if k = 30 then UInt8.ofNat (n / 65536)
  else if k = 31 then UInt8.ofNat (n / 65536 / 256)
  else e.byte k⟩

def setAttr (e : Entry) (a : UInt8) : Entry := ⟨fun k => if k = 11 then a else e.byte k⟩

/-- Bytes 12 to 19 and 22 to 25: the case flags and the time stamps. -/
def clearTimes (e : Entry) : Entry := ⟨fun k =>
  if (12 ≤ k.val ∧ k.val < 20) ∨ (22 ≤ k.val ∧ k.val < 26) then 0 else e.byte k⟩

/-- `e->name[0] = 0xE5`. -/
def markDeleted (e : Entry) : Entry := ⟨fun k => if k = 0 then 0xE5 else e.byte k⟩

end Entry

/-- `make_entry`. -/
def makeEntry (name : Name) (attr : UInt8) (firstCluster size : Nat) : Entry :=
  ((((Entry.mk fun _ => 0).setName name).setAttr attr).setCluster firstCluster).setSize size

/-- The entry at an index of a cluster buffer. -/
def entryAt (buf : Buf) (i : Nat) : Entry := ⟨fun k => buf (i * 32 + k.val)⟩

/-- `memcpy(buf + i * 32, e, 32)`. -/
def putEntry (buf : Buf) (i : Nat) (e : Entry) : Buf := fun o =>
  if h : i * 32 ≤ o ∧ o < i * 32 + 32 then e.byte ⟨o - i * 32, by omega⟩ else buf o

/-- The entries of one cluster in order: an entry goes on with a new accumulator or leaves. -/
def scanEntries {α β : Type} (visit : α → Nat → Entry → α ⊕ β) (buf : Buf) : List Nat → α → α ⊕ β
  | [], a => .inl a
  | i :: is, a =>
    match visit a i (entryAt buf i) with
    | .inl a' => scanEntries visit buf is a'
    | .inr b => .inr b

namespace Fat32

/-- `fs->bytes_per_cluster / DIR_ENTRY_SIZE`. -/
def entries (fs : Fat32) : Nat := fs.bytesPerCluster / 32

/-- `if (fs->bytes_per_cluster > sizeof(buf)) return -1;` for the 8192-byte buffers. -/
def fitsBuffer (fs : Fat32) : Prog Media Unit := Prog.require (fs.bytesPerCluster ≤ 8192)

/-- The buffer after `memset(buf, 0, fs->bytes_per_cluster)`. -/
def zeroed (fs : Fat32) : Buf := fun o => if o < fs.bytesPerCluster then 0 else fs.disk.leftover o

/-- The walk along a directory's chain. `goesOn` is the `while` test, `visit` the body of the entry
loop, and `leave` what is recorded after a cluster whose entries all went on. -/
def dirWalk {α β : Type} (fs : Fat32) (goesOn : Nat → Bool)
    (visit : Nat → α → Nat → Entry → α ⊕ β) (leave : Nat → α → α) (start : Nat) (a : α) :
    Prog Media (α ⊕ β) :=
  Prog.loop (fun (s : Nat × α) =>
    if goesOn s.1 then do
      let buf ← fs.readCluster s.1
      match scanEntries (visit s.1) buf (List.range fs.entries) s.2 with
      | .inr b => pure (.inr (.inr b))
      | .inl a' => do
        let next ← fs.readFatEntry s.1
        pure (.inl (next, leave s.1 a'))
    else pure (.inr (.inl s.2))) (start, a)

/-- What `dir_find` does at an entry. -/
def dirFindVisit (target : Name) (cluster : Nat) (_ : Unit) (i : Nat) (e : Entry) : Unit ⊕ Option (Entry × Nat × Nat) :=
  if e.isEnd then .inr none
  else if e.isDeleted then .inl ()
  else if e.isLfn then .inl ()
  else if e.isVolumeId then .inl ()
  else if e.name = target then .inr (some (e, cluster, i))
  else .inl ()

/-- `dir_find`: the entry with its cluster and index, or `none` if the name is absent. -/
def dirFind (fs : Fat32) (dirCluster : Nat) (target : Name) : Prog Media (Option (Entry × Nat × Nat)) := do
  fs.fitsBuffer
  match ← fs.dirWalk isCluster (dirFindVisit target) (fun _ a => a) dirCluster () with
  | .inl _ => pure none
  | .inr r => pure r

/-- What `find_root_entry` does at an entry: directories are skipped too. -/
def findRootEntryVisit (target : Name) (cluster : Nat) (_ : Unit) (i : Nat) (e : Entry) :
    Unit ⊕ Option (Entry × Nat × Nat) :=
  if e.isEnd then .inr none
  else if e.isDeleted then .inl ()
  else if e.isLfn then .inl ()
  else if e.isVolumeId || e.isDir then .inl ()
  else if e.name = target then .inr (some (e, cluster, i))
  else .inl ()

/-- The `while (cluster < 0x0FFFFFF8u)` test of the root walkers. -/
def belowEoc (c : Nat) : Bool := c < eoc

/-- `find_root_entry`. The location is the sector's block and the offset in it. -/
def findRootEntry (fs : Fat32) (name : List UInt8) : Prog Media (Option (Entry × Nat × Nat)) := do
  fs.fitsBuffer
  match ← fs.dirWalk belowEoc (findRootEntryVisit (to83 name)) (fun _ a => a) fs.rootCluster () with
  | .inr (some (e, cluster, i)) =>
    pure (some (e, fs.clusterLba cluster + i * 32 / fs.bytesPerSector * fs.spb, i * 32 % fs.bytesPerSector))
  | _ => pure none

/-- What `dir_is_empty` does at an entry. -/
def dirIsEmptyVisit (_ : Nat) (_ : Unit) (_ : Nat) (e : Entry) : Unit ⊕ Bool :=
  if e.isEnd then .inr true
  else if e.isDeleted then .inl ()
  else if e.isLfn then .inl ()
  else if isDotName e.name then .inl ()
  else .inr false

/-- `dir_is_empty`. -/
def dirIsEmpty (fs : Fat32) (dirCluster : Nat) : Prog Media Bool := do
  fs.fitsBuffer
  match ← fs.dirWalk isCluster dirIsEmptyVisit (fun _ a => a) dirCluster () with
  | .inl _ => pure true
  | .inr r => pure r

/-- `dir_write_entry`: read-modify-write of one entry. -/
def dirWriteEntry (fs : Fat32) (cluster index : Nat) (e : Entry) : Prog Media Unit := do
  fs.fitsBuffer
  let buf ← fs.readCluster cluster
  fs.writeCluster cluster (putEntry buf index e)

/-- `dir_mark_deleted`. -/
def dirMarkDeleted (fs : Fat32) (cluster index : Nat) : Prog Media Unit := do
  fs.fitsBuffer
  let buf ← fs.readCluster cluster
  fs.writeCluster cluster (putByte buf (index * 32) 0xE5)

end Fat32

end CanBoot
