import Mathlib.Algebra.GroupWithZero.Nat
import CanBoot.Hal.Disk

/-!
# The in-tree NTFS reader (`fs/ntfs.c`)

The driver keeps everything it reads in static buffers and caches the run list of `$MFT` in another one, keyed by the
address of the caller's `struct canboot_ntfs`. All of that is state here (`Statics`), so that a call can see what
earlier calls on other volumes left behind. The disk is only read.

A read or a write outside a buffer has no result. The caller's output buffer is a buffer of the state as well.
-/

namespace CanBoot.Ntfs

open Lib

/-- A disk with its contents, and the first block of a partition on it. -/
structure Volume where
  disk : Disk
  media : Media
  lba : Nat

/-- The static buffers, and the caller's. -/
structure Bufs where
  boot : Buf
  openRec : Buf
  rec0 : Buf
  walkRec : Buf
  readRec : Buf
  blk : Buf
  scratch : Buf
  user : Buf

/-- `mft_runs`, `cached_for_fs` and `cached_valid`. -/
structure MftCache where
  runs : Buf
  forFs : Nat
  valid : Bool

/-- Everything the driver keeps between calls. -/
structure Statics where
  bufs : Bufs
  cache : MftCache

/-- The statics at boot. -/
def Statics.boot : Statics :=
  ⟨⟨fun _ => 0, fun _ => 0, fun _ => 0, fun _ => 0, fun _ => 0, fun _ => 0, fun _ => 0, fun _ => 0⟩,
    ⟨fun _ => 0, 0, false⟩⟩

/-- A buffer of the state and its size. -/
structure Ref where
  get : Bufs → Buf
  set : Bufs → Buf → Bufs
  cap : Nat

def Ref.boot : Ref := ⟨Bufs.boot, fun s b => { s with boot := b }, 512⟩

def Ref.openRec : Ref := ⟨Bufs.openRec, fun s b => { s with openRec := b }, 2048⟩

def Ref.rec0 : Ref := ⟨Bufs.rec0, fun s b => { s with rec0 := b }, 2048⟩

def Ref.walkRec : Ref := ⟨Bufs.walkRec, fun s b => { s with walkRec := b }, 2048⟩

def Ref.readRec : Ref := ⟨Bufs.readRec, fun s b => { s with readRec := b }, 2048⟩

def Ref.blk : Ref := ⟨Bufs.blk, fun s b => { s with blk := b }, 4096⟩

def Ref.scratch : Ref := ⟨Bufs.scratch, fun s b => { s with scratch := b }, 16384⟩

/-- The caller's buffer, of the size the caller gives. -/
def Ref.user (size : Nat) : Ref := ⟨Bufs.user, fun s b => { s with user := b }, size⟩

/-- The fields of `struct canboot_ntfs` that the reader uses, with the volume they came from. -/
structure Fs where
  volume : Volume
  bytesPerSector : Nat
  bytesPerCluster : Nat
  mftLcn : Nat
  bytesPerMftRecord : Nat
  label : List UInt8

/-! ## Buffers -/

/-- A load of `width` bytes; `load` is one of `le16`, `le32`, `le64`. -/
def loadAt (r : Ref) (load : Buf → Nat → Nat) (width off : Nat) : Prog Bufs Nat := do
  Prog.defined (off + width ≤ r.cap)
  let s ← Prog.get
  pure (load (r.get s) off)

def load8 (r : Ref) (off : Nat) : Prog Bufs Nat := loadAt r (fun b i => (b i).toNat) 1 off

def load16 (r : Ref) (off : Nat) : Prog Bufs Nat := loadAt r le16 2 off

def load32 (r : Ref) (off : Nat) : Prog Bufs Nat := loadAt r le32 4 off

def load64 (r : Ref) (off : Nat) : Prog Bufs Nat := loadAt r le64 8 off

/-- Bytes copied out of a buffer. -/
def copyOut (r : Ref) (off len : Nat) : Prog Bufs (List UInt8) := do
  Prog.defined (off + len ≤ r.cap)
  let s ← Prog.get
  pure (bytesAt (r.get s) off len)

/-- Bytes copied into a buffer. -/
def copyIn (r : Ref) (off : Nat) (bytes : List UInt8) : Prog Bufs Unit := do
  Prog.defined (off + bytes.length ≤ r.cap)
  Prog.modify fun s => r.set s (putBytes (r.get s) off bytes)

/-- `d->read` into a buffer. -/
def readBlocks (v : Volume) (lba n : Nat) (r : Ref) : Prog Bufs Unit := do
  Prog.require (!v.disk.readFails lba n)
  Prog.defined (n * v.disk.blockSize ≤ r.cap)
  Prog.modify fun s => r.set s fun i =>
    if i < n * v.disk.blockSize then v.media (lba + i / v.disk.blockSize) (i % v.disk.blockSize) else r.get s i

/-- `read_sectors`. -/
def readSectors (fs : Fs) (partLba n : Nat) (r : Ref) : Prog Bufs Unit :=
  readBlocks fs.volume (u64 (fs.volume.lba + partLba)) n r

/-- `apply_usa`. -/
def applyUsa (r : Ref) (sectorSize : Nat) : Prog Bufs Unit := do
  let usaOff ← load16 r 4
  let usaCnt ← load16 r 6
  Prog.forAcc (fun i _ => do
    let v ← load16 r (usaOff + 2 * i)
    copyIn r (sub32 (u32 (i * sectorSize)) 2) [UInt8.ofNat v, UInt8.ofNat (v / 256)]) (List.range' 1 (usaCnt - 1)) ()

/-! ## Run lists -/

/-- `sread` as the 64-bit word of its value. -/
def sread (bytes : List UInt8) : Nat :=
  let v := bytes.foldr (fun b v => u64 (v * 256) + b.toNat) 0
  if bytes.length < 8 ∧ 128 ≤ (bytes.getLast?.getD 0).toNat then v + (18446744073709551616 - 256 ^ bytes.length) else v

/-- Where `read_runs` is: in the run list, on the volume, and in the output. -/
structure RunPos where
  at_ : Nat
  curVcn : Nat
  curLcn : Nat
  done : Nat
  voff : Nat

/-- The run list `read_runs` walks: bytes that its calls do not change, and how many there are. -/
structure Runs where
  bytes : Buf
  cap : Nat

/-- A stretch of a run list. -/
def Runs.take (runs : Runs) (off len : Nat) : Prog Bufs (List UInt8) := do
  Prog.defined (off + len ≤ runs.cap)
  pure (bytesAt runs.bytes off len)

/-- The bytes of a run that `read_runs` wants. -/
def readRun (fs : Fs) (out : Ref) (hi lcn inRun take done : Nat) : Prog Bufs Unit :=
  if hi = 0 then copyIn out done (List.replicate take 0)
  else do
    let byteLba := u64 (lcn * fs.bytesPerCluster + inRun)
    let secStart ← Prog.divide byteLba fs.bytesPerSector
    let first := byteLba % fs.bytesPerSector
    let n := u32 (u64 (take + first + fs.bytesPerSector - 1) / fs.bytesPerSector)
    Prog.require (u32 (n * fs.bytesPerSector) ≤ 16384)
    readSectors fs secStart n .scratch
    let bytes ← copyOut .scratch first take
    copyIn out done bytes

/-- A turn of the loop of `read_runs`. -/
def readRunsTurn (fs : Fs) (runs : Runs) (vlen : Nat) (out : Ref) (p : RunPos) : Prog Bufs (RunPos ⊕ RunPos) := do
  let hdr ← runs.take p.at_ 1
  let h := (hdr.headD 0).toNat
  if h = 0 ∨ ¬ p.done < vlen then pure (.inr p)
  else
    let lo := h % 16
    let hi := h / 16
    if lo = 0 then pure (.inr p)
    else
      let length := sread (← runs.take (p.at_ + 1) lo)
      let delta := sread (← runs.take (p.at_ + 1 + lo) hi)
      let lcn := u64 (p.curLcn + delta)
      let runBytes := u64 (length * fs.bytesPerCluster)
      let runStart := u64 (p.curVcn * fs.bytesPerCluster)
      if u64 (p.voff + (vlen - p.done)) ≤ runStart then pure (.inr { p with at_ := p.at_ + 1 + lo + hi, curLcn := lcn })
      else if p.voff < u64 (runStart + runBytes) then
        let inRun := if p.voff > runStart then p.voff - runStart else 0
        let take := min (sub64 runBytes inRun) (vlen - p.done)
        readRun fs out hi lcn inRun take p.done
        pure (.inl ⟨p.at_ + 1 + lo + hi, u64 (p.curVcn + length), lcn, p.done + take, u64 (p.voff + take)⟩)
      else pure (.inl { p with at_ := p.at_ + 1 + lo + hi, curVcn := u64 (p.curVcn + length), curLcn := lcn })

/-- `read_runs`, from the byte `start` of a run list on. -/
def readRuns (fs : Fs) (runs : Runs) (start voff vlen : Nat) (out : Ref) : Prog Bufs Int := do
  let p ← Prog.loop (readRunsTurn fs runs vlen out) ⟨start, 0, 0, 0, voff⟩
  pure (toInt32 p.done)

/-! ## Records -/

/-- The walk over the attributes of a record: `visit` gets the offset and the type of each, and says whether the walk
goes on. -/
def walkAttrs {β : Type} (r : Ref) (recSize : Nat) (visit : Nat → Nat → β → Prog Bufs (Bool × β)) (start : β) :
    Prog Bufs β := do
  let first ← load16 r 20
  Prog.loop (fun (a, acc) => do
    if a < recSize then
      let type ← load32 r a
      if type = 0xFFFFFFFF then pure (.inr acc)
      else
        let (goesOn, acc) ← visit a type acc
        if goesOn then
          let length ← load32 r (a + 4)
          if length = 0 then pure (.inr acc) else pure (.inl (a + length, acc))
        else pure (.inr acc)
    else pure (.inr acc)) (first, start)

/-- The search for the run list of `$MFT` in record 0. -/
def findMftRuns (recSize : Nat) : Prog Bufs (Option (List UInt8)) :=
  walkAttrs .rec0 recSize (fun a type _ => do
    if type = 0x80 then
      let nonResident ← load8 .rec0 (a + 8)
      if nonResident = 1 then
        let pairs ← load16 .rec0 (a + 32)
        let runs ← copyOut .rec0 (a + pairs) 256
        pure (false, some runs)
      else pure (true, none)
    else pure (true, none)) none

/-- Record 0, read from the cluster the boot sector gives. -/
def loadRecord0 (fs : Fs) : Prog Bufs (Option (List UInt8)) := do
  let sec ← Prog.divide (u64 (fs.mftLcn * fs.bytesPerCluster)) fs.bytesPerSector
  let n ← Prog.divide (sub32 (u32 (fs.bytesPerMftRecord + fs.bytesPerSector)) 1) fs.bytesPerSector
  Prog.require (fs.bytesPerMftRecord ≤ 2048)
  readSectors fs sec n .rec0
  applyUsa .rec0 fs.bytesPerSector
  findMftRuns fs.bytesPerMftRecord

/-- A program on the buffers alone. -/
def onBufs {α : Type} (x : Prog Bufs α) : Prog Statics α := Prog.focus Statics.bufs (fun s b => { s with bufs := b }) x

/-- `read_mft_record` behind the test of the cache. -/
def readCached (fs : Fs) (recNo : Nat) (out : Ref) : Prog Statics Unit := do
  let s ← Prog.get
  let got ← onBufs (readRuns fs ⟨s.cache.runs, 256⟩ 0 (u64 (recNo * fs.bytesPerMftRecord)) fs.bytesPerMftRecord out)
  Prog.require (got = toInt32 fs.bytesPerMftRecord)
  onBufs (applyUsa out fs.bytesPerSector)

/-- The run list that record 0 had, if any, is cached for the caller's struct. -/
def keepRuns (addr : Nat) : Option (List UInt8) → Prog Statics Unit
  | some runs => Prog.modify fun s => { s with cache := ⟨putBytes (fun _ => 0) 0 runs, addr, true⟩ }
  | none => pure ()

/-- `read_mft_record`; `addr` is the address of the caller's struct. -/
def readMftRecord (fs : Fs) (addr recNo : Nat) (out : Ref) : Prog Statics Unit := do
  let s ← Prog.get
  if s.cache.valid ∧ s.cache.forFs = addr then readCached fs recNo out
  else do
    let found ← onBufs (loadRecord0 fs)
    keepRuns addr found
    if recNo = 0 then do
      let bytes ← onBufs (copyOut .rec0 0 fs.bytesPerMftRecord)
      onBufs (copyIn out 0 bytes)
    else do
      let s ← Prog.get
      Prog.require s.cache.valid
      readCached fs recNo out

/-! ## Opening a volume -/

/-- A UTF-16 name, with `?` for what is not ASCII. -/
def fold16 (r : Ref) (off n : Nat) : Prog Bufs (List UInt8) :=
  Prog.forAcc (fun i name => do
    let c ← load16 r (off + 2 * i)
    pure (name ++ [if c < 128 then UInt8.ofNat c else 63])) (List.range n) []

/-- The search for `$VOLUME_NAME` in record 3. -/
def findLabel (recSize : Nat) : Prog Bufs (List UInt8) :=
  walkAttrs .openRec recSize (fun a type label => do
    if type = 0x60 then
      let nonResident ← load8 .openRec (a + 8)
      if nonResident = 0 then
        let valueLength ← load32 .openRec (a + 16)
        let valueOffset ← load16 .openRec (a + 20)
        let label ← fold16 .openRec (a + valueOffset) (min (valueLength / 2) 128)
        pure (false, label)
      else pure (true, label)
    else pure (true, label)) []

/-- The boot sector, as a struct without a label; its failure is the `false` of `canboot_ntfs_open`. -/
def readBoot (v : Volume) : Prog Bufs Fs := do
  readBlocks v v.lba 1 .boot
  let oem ← load64 .boot 3
  Prog.require (oem = 0x202020205346544e)
  let bytesPerSector ← load16 .boot 11
  let sectorsPerCluster ← load8 .boot 13
  let totalSectors ← load64 .boot 40
  let mftLcn ← load64 .boot 48
  let _ ← Prog.divide totalSectors sectorsPerCluster
  let cpr ← load8 .boot 64
  Prog.defined (cpr < 128 ∧ cpr ≠ 0 ∨ (256 - cpr) % 256 < 32)
  let bytesPerCluster := u32 (bytesPerSector * sectorsPerCluster)
  pure ⟨v, bytesPerSector, bytesPerCluster, mftLcn,
    if cpr < 128 ∧ cpr ≠ 0 then u32 (cpr * bytesPerCluster) else 2 ^ ((256 - cpr) % 256), []⟩

/-- `canboot_ntfs_open`. -/
def canbootNtfsOpen (v : Volume) (addr : Nat) : Prog Statics Fs := do
  let fs ← onBufs (readBoot v)
  if fs.bytesPerMftRecord ≤ 2048 then
    match ← Prog.attempt (readMftRecord fs addr 3 .openRec) with
    | some _ =>
      let label ← onBufs (findLabel fs.bytesPerMftRecord)
      pure { fs with label := label }
    | none => pure fs
  else pure fs

/-! ## The root directory -/

/-- What `walk_entries` is for: one name, or a callback with its state. -/
inductive Want (υ : Type) where
  | name (name : List UInt8)
  | each (cb : List UInt8 → Nat → υ → Bool × υ)

/-- `struct walk_state`. -/
structure Walk (υ : Type) where
  user : υ
  foundMft : Nat
  reported : Nat
  stop : Bool

variable {υ : Type}

/-- The bytes before the terminator. -/
def cstring (s : List UInt8) : List UInt8 := s.takeWhile (· ≠ 0)

/-- An entry that `walk_entries` looks at. -/
def visitEntry (want : Want υ) (name : List UInt8) (mftRef size : Nat) (st : Walk υ) : Bool × Walk υ :=
  match want with
  | .name n => if cstring name = n then (false, { st with foundMft := mftRef, stop := true }) else (true, st)
  | .each cb =>
    let (goesOn, user) := cb (cstring name) size st.user
    if goesOn then (true, { st with user := user, reported := st.reported + 1 })
    else (false, { st with user := user, stop := true })

/-- `walk_entries`. -/
def walkEntries (r : Ref) (want : Want υ) (base blockSize entriesOff : Nat) (st : Walk υ) : Prog Bufs (Walk υ) :=
  Prog.loop (fun (p, st) => do
    if p + 16 ≤ base + blockSize then
      let entryLength ← load16 r (p + 8)
      if entryLength < 16 then pure (.inr st)
      else
        let flags ← load16 r (p + 12)
        if flags / 2 % 2 = 1 then pure (.inr st)
        else
          let keyLength ← load16 r (p + 10)
          if 68 ≤ keyLength then
            let n ← load8 r (p + 80)
            let name ← fold16 r (p + 82) n
            let ref ← load64 r p
            let type ← load8 r (p + 81)
            if 16 ≤ ref % 281474976710656 ∧ type ≠ 2 then
              let size ← load64 r (p + 64)
              let (goesOn, st) := visitEntry want name (ref % 281474976710656) size st
              if goesOn then pure (.inl (p + entryLength, st)) else pure (.inr st)
            else pure (.inl (p + entryLength, st))
          else pure (.inl (p + entryLength, st))
    else pure (.inr st)) (base + entriesOff, st)

/-- The attributes of record 5: the resident index is walked, the run list and size of the other one kept. -/
def walkIndexRoot (recSize : Nat) (want : Want υ) (st : Walk υ) : Prog Bufs (Walk υ × Option (Nat × Nat)) :=
  walkAttrs .walkRec recSize (fun a type (st, alloc) => do
    if type = 0x90 then
      let nonResident ← load8 .walkRec (a + 8)
      if nonResident = 0 then
        let valueOffset ← load16 .walkRec (a + 20)
        let base := a + valueOffset + 16
        let entriesOff ← load32 .walkRec base
        let total ← load32 .walkRec (base + 4)
        let st ← walkEntries .walkRec want base total entriesOff st
        pure (!st.stop, (st, alloc))
      else pure (true, (st, alloc))
    else if type = 0xA0 then
      let nonResident ← load8 .walkRec (a + 8)
      if nonResident = 1 then
        let pairs ← load16 .walkRec (a + 32)
        let size ← load64 .walkRec (a + 48)
        pure (true, (st, some (a + pairs, size)))
      else pure (true, (st, alloc))
    else pure (true, (st, alloc))) (st, none)

/-- The blocks of `$INDEX_ALLOCATION`. -/
def walkIndexBlocks (fs : Fs) (want : Want υ) (start allocSize : Nat) (st : Walk υ) : Prog Bufs (Walk υ) :=
  Prog.loop (fun (off, st) => do
    if off < allocSize ∧ st.stop = false then
      let s ← Prog.get
      match ← Prog.attempt (readRuns fs ⟨s.walkRec, 2048⟩ start off (min 4096 (allocSize - off)) .blk) with
      | some got =>
        if got ≤ 0 then pure (.inr st)
        else
          applyUsa .blk fs.bytesPerSector
          let entriesOff ← load32 .blk 0x18
          let total ← load32 .blk 0x1C
          let st ← walkEntries .blk want 0x18 (u32 (total + 0x18)) (u32 (0x18 + entriesOff)) st
          pure (.inl (u64 (off + 4096), st))
      | none => pure (.inr st)
    else pure (.inr st)) (0, st)

/-- `walk_root`. -/
def walkRoot (fs : Fs) (addr : Nat) (want : Want υ) (st : Walk υ) : Prog Statics (Walk υ) := do
  Prog.require (fs.bytesPerMftRecord ≤ 2048)
  readMftRecord fs addr 5 .walkRec
  let (st, alloc) ← onBufs (walkIndexRoot fs.bytesPerMftRecord want st)
  if st.stop then pure st
  else
    match alloc with
    | some (start, size) => onBufs (walkIndexBlocks fs want start size st)
    | none => pure st

/-- `canboot_ntfs_list_root`: its value and the callback's state. -/
def canbootNtfsListRoot (fs : Fs) (addr : Nat) (cb : List UInt8 → Nat → υ → Bool × υ) (user : υ) :
    Prog Statics (Nat × υ) := do
  let st ← walkRoot fs addr (.each cb) ⟨user, 0, 0, false⟩
  pure (st.reported, st.user)

/-- The search for the unnamed `$DATA` of a file: the value, and the size it reports. -/
def readData (fs : Fs) (outSize : Nat) : Prog Bufs (Option (Int × Nat)) :=
  walkAttrs .readRec fs.bytesPerMftRecord (fun a type _ => do
    if type = 0x80 then
      let nameLen ← load8 .readRec (a + 9)
      if nameLen = 0 then
        let nonResident ← load8 .readRec (a + 8)
        if nonResident = 0 then
          let valueLength ← load32 .readRec (a + 16)
          let valueOffset ← load16 .readRec (a + 20)
          let bytes ← copyOut .readRec (a + valueOffset) (min valueLength outSize)
          copyIn (.user outSize) 0 bytes
          pure (false, some (toInt32 (min valueLength outSize), valueLength))
        else
          let size ← load64 .readRec (a + 48)
          let pairs ← load16 .readRec (a + 32)
          let s ← Prog.get
          let got ← readRuns fs ⟨s.readRec, 2048⟩ (a + pairs) 0 (min size outSize) (.user outSize)
          Prog.require (0 ≤ got)
          pure (false, some (got, u32 size))
      else pure (true, none)
    else pure (true, none)) none

/-- `canboot_ntfs_read_root_file`: its value, the size it reports, and the bytes it copied. -/
def canbootNtfsReadRootFile (fs : Fs) (addr : Nat) (name : List UInt8) (outSize : Nat) :
    Prog Statics (Int × Nat × List UInt8) := do
  let st ← walkRoot fs addr (.name name) (⟨(), 0, 0, false⟩ : Walk Unit)
  Prog.require st.stop
  Prog.require (fs.bytesPerMftRecord ≤ 2048)
  readMftRecord fs addr st.foundMft .readRec
  match ← onBufs (readData fs outSize) with
  | none => Prog.fail
  | some (got, size) =>
    let s ← Prog.get
    pure (got, size, bytesAt s.bufs.user 0 got.toNat)

/-! ## Runs -/

/-- What follows an open: a listing, whose callback goes on or not by what it was given so far, or a read. -/
inductive Op where
  | list (goesOn : List (List UInt8 × Nat) → Bool)
  | read (name : List UInt8) (outSize : Nat)

/-- What a call on an open volume gives; `none` is its `-1`. -/
inductive Answer where
  | listed (reply : Option (Nat × List (List UInt8 × Nat)))
  | bytes (reply : Option (Int × Nat × List UInt8))
deriving DecidableEq

/-- One use of the driver: a struct at an address, a volume, and what is done with it. -/
structure Visit where
  addr : Nat
  volume : Volume
  op : Op

/-- The call behind the open. -/
def Op.run (fs : Fs) (addr : Nat) : Op → Prog Statics Answer
  | .list goesOn => do
    let reply ← Prog.attempt (canbootNtfsListRoot fs addr
      (fun name size got => (goesOn (got ++ [(name, size)]), got ++ [(name, size)])) [])
    pure (.listed reply)
  | .read name outSize => do
    let reply ← Prog.attempt (canbootNtfsReadRootFile fs addr name outSize)
    pure (.bytes reply)

/-- The use of the driver: the label, and what the call gave. -/
def Visit.run (w : Visit) : Prog Statics (List UInt8 × Answer) := do
  let fs ← canbootNtfsOpen w.volume w.addr
  let answer ← w.op.run fs w.addr
  pure (fs.label, answer)

/-- The statics behind a sequence of uses that all return. -/
def history (fuel : Nat) : List Visit → Statics → Option Statics
  | [], s => some s
  | w :: rest, s =>
    match w.run.run fuel s with
    | .ok _ t => history fuel rest t
    | .err t => history fuel rest t
    | _ => none

end CanBoot.Ntfs
