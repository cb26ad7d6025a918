import CanBoot.Hal.Disk

/-!
# The block device of libntfs-3g (`cando_port/vendor_glue/ntfs3g/io.c`)

libntfs-3g reads and writes bytes, the disk reads and writes blocks. `pread_inner` and `pwrite_inner` move whole
aligned blocks directly, up to 32 a request, and the edges of a transfer through a cache of one block. `int64_t`
arguments are integers; the byte addresses are `uint64_t` and the number of blocks of a request is a `uint32_t`.
-/

namespace CanBoot.Cando

open Lib

/-- `struct canboot_ntfs_priv`, without its cursor. -/
structure NtfsPriv where
  disk : Disk
  byteOffset : Nat
  byteSize : Nat
  secCache : Buf
  cacheLba : Nat
  cacheValid : Bool
  writable : Bool

/-- A slot and the medium behind its disk. -/
structure NtfsDev where
  priv : NtfsPriv
  media : Media

/-- A slot as `alloc_slot` leaves it. -/
def allocSlot (d : Disk) (off sz : Nat) : NtfsPriv where
  disk := d
  byteOffset := off
  byteSize := sz
  secCache _ := 0
  cacheLba := 18446744073709551615
  cacheValid := false
  writable := d.writable

/-- An `int64_t` cast to `uint64_t`. -/
def castU64 (z : Int) : Nat := (z % 18446744073709551616).toNat

namespace NtfsDev

/-- A call of the disk's driver. -/
def onDisk {α : Type} (x : Prog Media α) : Prog NtfsDev α :=
  Prog.focus NtfsDev.media (fun s m => { s with media := m }) x

/-- `disk->read(disk, lba, 1, sec_cache)`. -/
def readCache (lba : Nat) : Prog NtfsDev Unit := do
  let s ← Prog.get
  let buf ← onDisk (s.priv.disk.read lba 1)
  Prog.modify fun s => { s with
    priv.secCache := fun i => if i < s.priv.disk.blockSize then buf i else s.priv.secCache i }

/-- The cache holds this block now. -/
def setCached (lba : Nat) : Prog NtfsDev Unit :=
  Prog.modify fun s => { s with priv.cacheLba := lba, priv.cacheValid := true }

/-- The blocks of one request. -/
def request (blocks : Nat) : Nat := if u32 blocks > 32 then 32 else u32 blocks

/-- A turn of the loop of `pread_inner`; `out` is what it has copied. -/
def preadTurn (count offset : Nat) (out : List UInt8) : Prog NtfsDev (List UInt8 ⊕ List UInt8) := do
  let s ← Prog.get
  if out.length < count then
    let bs := s.priv.disk.blockSize
    let abs := u64 (s.priv.byteOffset + offset + out.length)
    let lba := abs / bs
    let inLba := abs - lba * bs
    if inLba = 0 ∧ bs ≤ count - out.length then
      let n := request ((count - out.length) / bs)
      let buf ← onDisk (s.priv.disk.read lba n)
      pure (.inl (out ++ bytesAt buf 0 (n * bs)))
    else
      if s.priv.cacheLba ≠ lba then
        readCache lba
        setCached lba
      let s ← Prog.get
      pure (.inl (out ++ bytesAt s.priv.secCache inLba (min (bs - inLba) (count - out.length))))
  else pure (.inr out)

/-- `pread_inner`: its value and what it has copied. -/
def preadInner (count offset : Int) : Prog NtfsDev (Int × List UInt8) := do
  let s ← Prog.get
  if count ≤ 0 then pure (0, [])
  else if offset < 0 then Prog.fail
  else if castU64 offset ≥ s.priv.byteSize then pure (0, [])
  else
    let count := if castU64 (offset + count) > s.priv.byteSize then s.priv.byteSize - castU64 offset else count.toNat
    let out ← Prog.loop (preadTurn count (castU64 offset)) []
    pure (out.length, out)

/-- A turn of the loop of `pwrite_inner`. -/
def pwriteTurn (src : List UInt8) (offset done : Nat) : Prog NtfsDev (Nat ⊕ Nat) := do
  let s ← Prog.get
  if done < src.length then
    let bs := s.priv.disk.blockSize
    let abs := u64 (s.priv.byteOffset + offset + done)
    let lba := abs / bs
    let inLba := abs - lba * bs
    if inLba = 0 ∧ bs ≤ src.length - done then
      let n := request ((src.length - done) / bs)
      onDisk (s.priv.disk.write lba n fun i => (src.drop done).getD i 0)
      Prog.modify fun s => { s with
        priv.cacheValid := if lba ≤ s.priv.cacheLba ∧ s.priv.cacheLba < lba + n then false else s.priv.cacheValid }
      pure (.inl (done + n * bs))
    else
      readCache lba
      let take := min (bs - inLba) (src.length - done)
      Prog.modify fun s => { s with priv.secCache := putBytes s.priv.secCache inLba ((src.drop done).take take) }
      let s ← Prog.get
      onDisk (s.priv.disk.write lba 1 s.priv.secCache)
      setCached lba
      pure (.inl (done + take))
  else pure (.inr done)

/-- `pwrite_inner`, where `src` is the bytes it is given. -/
def pwriteInner (src : List UInt8) (offset : Int) : Prog NtfsDev Int := do
  let s ← Prog.get
  Prog.require s.priv.writable
  if src.length = 0 then pure 0
  else
    Prog.require (castU64 (offset + src.length) ≤ s.priv.byteSize)
    let done ← Prog.loop (pwriteTurn src (castU64 offset)) 0
    pure done

end NtfsDev

end CanBoot.Cando
