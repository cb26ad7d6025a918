import CanBoot.Fs.Fat32.Directory

/-!
# Cluster allocation

`find_free_cluster` scans the table from cluster 2 for every cluster it hands out, so a chain is
allocated by marking each cluster as it is found and linking the finished list in a second pass.
When the second find of a chain fails, what the first one marked stays marked: the `unwind` label
of `alloc_chain` returns `-1` and does nothing else.
-/

namespace CanBoot

open Lib

namespace Fat32

/-- The scan of `find_free_cluster` over the candidates that are left. -/
def findFreeFrom (fs : Fat32) : List Nat → Prog Media Nat
  | [] => Prog.fail
  | c :: cs => do
    let entry ← fs.readFatEntry c
    if entry = 0 then pure c else fs.findFreeFrom cs

/-- The candidates of `find_free_cluster`: `for (c = 2; c < 2 + fs->total_clusters; c++)`. -/
def candidates (fs : Fat32) : List Nat := List.range' 2 (u32 (2 + fs.totalClusters) - 2)

/-- `find_free_cluster`. -/
def findFreeCluster (fs : Fat32) : Prog Media Nat := fs.findFreeFrom fs.candidates

/-- The first loop of `alloc_chain`: find and reserve `n` clusters. -/
def reserveClusters (fs : Fat32) : Nat → Prog Media (List Nat)
  | 0 => pure []
  | n + 1 => do
    let c ← fs.findFreeCluster
    fs.writeFatEntry c eocMark
    let rest ← fs.reserveClusters n
    pure (c :: rest)

/-- The second loop of `alloc_chain`: each cluster to its successor, the last to the mark. -/
def linkClusters (fs : Fat32) : List Nat → Prog Media Unit
  | [] => pure ()
  | c :: cs => do
    fs.writeFatEntry c (cs.headD eocMark)
    fs.linkClusters cs

/-- `alloc_chain`, with `FAT32_MAX_CHAIN` = 256. -/
def allocChain (fs : Fat32) (n : Nat) : Prog Media (List Nat) := do
  Prog.require (n ≠ 0 && n ≤ 256)
  let chain ← fs.reserveClusters n
  fs.linkClusters chain
  pure chain

/-- `free_chain`, and the same loop in `canboot_fat32_delete_root_file`. -/
def freeChain (fs : Fat32) (first : Nat) : Prog Media Unit :=
  Prog.loop (fun cur =>
    if isCluster cur then do
      let next ← fs.readFatEntry cur
      fs.writeFatEntry cur 0
      pure (.inl next)
    else pure (.inr ())) first

/-- What `dir_alloc_slot` does at an entry: a free slot ends the search. -/
def dirAllocSlotVisit (cluster last i : Nat) (e : Entry) : Nat ⊕ (Nat × Nat) :=
  if e.isEnd || e.isDeleted then .inr (cluster, i) else .inl last

/-- `dir_alloc_slot`: the first free slot of the directory, or slot 0 of a cluster appended to it. -/
def dirAllocSlot (fs : Fat32) (dirCluster : Nat) : Prog Media (Nat × Nat) := do
  fs.fitsBuffer
  match ← fs.dirWalk isCluster dirAllocSlotVisit (fun cluster _ => cluster) dirCluster dirCluster with
  | .inr slot => pure slot
  | .inl last => do
    let nc ← fs.findFreeCluster
    fs.writeFatEntry nc eocMark
    fs.writeFatEntry last nc
    fs.writeCluster nc fs.zeroed
    pure (nc, 0)

/-- The data loop of the two writers: one zero-padded cluster of the source after another. -/
def writeData (fs : Fat32) : List Nat → List UInt8 → Prog Media Unit
  | [], _ => pure ()
  | c :: cs, src => do
    fs.writeCluster c (putBytes fs.zeroed 0 (src.take fs.bytesPerCluster))
    fs.writeData cs (src.drop fs.bytesPerCluster)

/-- What a read hands back: the return value, the caller's buffer and `*out_size`. -/
structure ReadResult where
  ret : Int
  buf : Buf
  size : Nat

/-- The loop of the two readers: the chain from `first` into `buf`, at most `toRead` bytes. -/
def readChain (fs : Fat32) (first toRead : Nat) (buf : Buf) : Prog Media (Nat × Buf) :=
  Prog.loop (fun (s : Nat × Nat × Buf) =>
    if s.1 < toRead && isCluster s.2.1 then do
      let tmp ← fs.readCluster s.2.1
      let chunk := if u32 (s.1 + fs.bytesPerCluster) > toRead then toRead - s.1
        else fs.bytesPerCluster
      let next ← fs.readFatEntry s.2.1
      pure (.inl (u32 (s.1 + chunk), next, putBytes s.2.2 s.1 (bytesAt tmp 0 chunk)))
    else pure (.inr (s.1, s.2.2))) (0, first, buf)

/-- A round of that loop. -/
def readTurn (fs : Fat32) (toRead : Nat) (s : Nat × Nat × Buf) : Prog Media ((Nat × Nat × Buf) ⊕ (Nat × Buf)) :=
  if s.1 < toRead && isCluster s.2.1 then do
    let tmp ← fs.readCluster s.2.1
    let chunk := if u32 (s.1 + fs.bytesPerCluster) > toRead then toRead - s.1 else fs.bytesPerCluster
    let next ← fs.readFatEntry s.2.1
    pure (.inl (u32 (s.1 + chunk), next, putBytes s.2.2 s.1 (bytesAt tmp 0 chunk)))
  else pure (.inr (s.1, s.2.2))

/-- The part of the two readers after the entry is found. -/
def readEntry (fs : Fat32) (e : Entry) (buf : Buf) (bufSize : Nat) : Prog Media ReadResult := do
  fs.fitsBuffer
  let (copied, out) ← fs.readChain e.firstCluster (min e.size bufSize) buf
  pure { ret := toInt32 copied, buf := out, size := e.size }

end Fat32

end CanBoot
