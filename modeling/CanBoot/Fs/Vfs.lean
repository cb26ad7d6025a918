import CanBoot.Fs.Fat32.Path
import CanBoot.Lib.Fields

/-!
# The POSIX path calls (`fs/vfs.c`)

Seven calls take a path, join it with the current directory, normalise it in a buffer of 256 bytes and hand it to the
primary volume. A volume is what `vfs_mkdir`, `vfs_rmdir`, `vfs_unlink`, `vfs_rename` and `vfs_list` dispatch to:
`fat32Volume` is the FAT32 engine; the ext4 and NTFS drivers are volumes of which nothing is known.

A path is the bytes before its terminator. Writes past the end of the 256-byte buffer have no result.
-/

namespace CanBoot.Vfs

open Lib

/-- What the dispatch helpers call. `primary` says whether `primary()` found a volume at all. -/
structure Volume (σ : Type) where
  primary : Bool
  fat32 : Bool
  mkdir : List UInt8 → Prog σ Unit
  rmdir : List UInt8 → Prog σ Unit
  unlink : List UInt8 → Prog σ Unit
  rename : List UInt8 → List UInt8 → Prog σ Unit
  list : List UInt8 → Nat → Prog σ (List UInt8)
  size : List UInt8 → Prog σ Nat

/-- `fat_cb`, over the listing so far. -/
def fatCb (cap : Nat) (used name : List UInt8) (_size : Nat) (isDir : Bool) : Bool × List UInt8 :=
  if used.length + name.length + 2 ≥ cap then (false, used)
  else (true, used ++ name ++ (if isDir then [slash] else []) ++ [10])

/-- A FAT32 disk as the primary volume. -/
def fat32Volume (d : Disk) : Volume Media where
  primary := true
  fat32 := true
  mkdir path := do canbootFat32Mkdir (← canbootFat32Open d) path
  rmdir path := do canbootFat32Rmdir (← canbootFat32Open d) path
  unlink path := do canbootFat32UnlinkPath (← canbootFat32Open d) path
  rename oldp newp := do canbootFat32Rename (← canbootFat32Open d) oldp newp
  list path cap := do
    let (_, used) ← canbootFat32ListPath (← canbootFat32Open d) path (fatCb cap) []
    pure used
  size path := do
    let r ← canbootFat32ReadPath (← canbootFat32Open d) path (fun _ => 0) 0
    Prog.require (0 ≤ r.ret)
    pure r.size

/-! ## Paths -/

/-- The components `normalize` keeps: names of at most 31 bytes, at most 24 of them. -/
def normalComps (p : List UInt8) : List (List UInt8) :=
  settleIn [dot] [dot, dot] 24 (pieces slash 31 p [])

/-- `normalize`. -/
def normalize (p : List UInt8) : List UInt8 := rooted slash (normalComps p)

/-- `sizeof(abs)`, and of `g_cwd`. -/
def pathMax : Nat := 256

/-- The text that `resolve` normalises; `none` where it gives up and leaves the empty string. -/
def joinCwd (cwd path : List UInt8) : Option (List UInt8) :=
  if path.head? = some slash then some (path.take (pathMax - 1))
  else if cwd.length + 1 + path.length + 1 > pathMax then none
  else some (cwd ++ (if cwd = [] ∨ cwd.getLast? ≠ some slash then [slash] else []) ++ path)

/-- `resolve`, undefined where `normalize` would write past the buffer. -/
def resolve (cwd path : List UInt8) : Option (List UInt8) :=
  match joinCwd cwd path with
  | none => some []
  | some text => if (normalize text).length < pathMax then some (normalize text) else none

/-! ## The calls -/

/-- The values of `errno` the calls set. -/
inductive Errno where
  | eio | enoent | enosys
deriving DecidableEq, Repr

/-- `g_cwd`, `errno`, and the volume. -/
structure State (σ : Type) where
  cwd : List UInt8
  errno : Option Errno
  volume : σ

/-- What a call that succeeds gives: nothing, the kind of a file, or the entries of a directory. -/
inductive Reply where
  | done
  | dir
  | file (size : Nat)
  | entries (es : List (List UInt8 × Bool))
deriving DecidableEq, Repr

variable {σ α : Type}

/-- A call on the volume. -/
def onVolume (x : Prog σ α) : Prog (State σ) α := Prog.focus State.volume (fun s v => { s with volume := v }) x

/-- The dispatch helpers fail without a primary volume. -/
def vfs (v : Volume σ) (x : Prog σ α) : Prog (State σ) α := do
  Prog.require v.primary
  onVolume x

/-- Set `errno` if the call fails. -/
def orFail (e : Errno) (x : Prog (State σ) α) : Prog (State σ) α := ⟨fun fuel s =>
  match x.run fuel s with
  | .err t => .err { t with errno := some e }
  | o => o⟩

/-- `resolve(path, abs, sizeof(abs))`. -/
def resolved (path : List UInt8) : Prog (State σ) (List UInt8) := ⟨fun _ s =>
  match resolve s.cwd path with
  | some abs => .ok abs s
  | none => .trap⟩

/-- `strncpy(g_cwd, abs, sizeof(g_cwd) - 1)`. -/
def setCwd (abs : List UInt8) : Prog (State σ) Unit := ⟨fun _ s => .ok () { s with cwd := abs.take (pathMax - 1) }⟩

/-- The loop of `opendir` over the listing, for `left` more entries. -/
def dirLoop : Nat → List UInt8 → List (List UInt8 × Bool)
  | 0, _ => []
  | left + 1, listing =>
    if listing = [] then []
    else
      let line := listing.takeWhile (· ≠ 10)
      let isDir := line.getLast? = some slash
      ((if isDir then line.dropLast else line).take 31, isDir) :: dirLoop left (listing.drop (line.length + 1))

/-- The body of `stat` behind `resolve`. -/
def statAt (v : Volume σ) (abs : List UInt8) : Prog (State σ) Reply := do
  match ← Prog.attempt (vfs v (v.list abs 256)) with
  | some _ => pure .dir
  | none =>
    Prog.require v.fat32
    let n ← onVolume (v.size abs)
    pure (.file n)

/-- The calls, without the arguments they ignore. -/
inductive Op where
  | mkdir (path : List UInt8)
  | rmdir (path : List UInt8)
  | unlink (path : List UInt8)
  | rename (oldp newp : List UInt8)
  | chdir (path : List UInt8)
  | stat (path : List UInt8)
  | opendir (path : List UInt8)

/-- The paths a call is given. -/
def Op.paths : Op → List (List UInt8)
  | .mkdir p | .rmdir p | .unlink p | .chdir p | .stat p | .opendir p => [p]
  | .rename p q => [p, q]

/-- The call, where `locate` turns a path into the one the volume is asked for. -/
def Op.runAt (v : Volume σ) (locate : List UInt8 → Prog (State σ) (List UInt8)) : Op → Prog (State σ) Reply
  | .mkdir path => do
    let abs ← locate path
    orFail .eio (vfs v (v.mkdir abs))
    pure .done
  | .rmdir path => do
    let abs ← locate path
    orFail .eio (vfs v (v.rmdir abs))
    pure .done
  | .unlink path => do
    let abs ← locate path
    orFail .enoent (vfs v (v.unlink abs))
    pure .done
  | .rename oldp newp => do
    let a ← locate oldp
    let b ← locate newp
    orFail .eio (vfs v (v.rename a b))
    pure .done
  | .chdir path => do
    let abs ← locate path
    let _ ← orFail .enoent (vfs v (v.list abs 256))
    setCwd abs
    pure .done
  | .stat path => do
    orFail .enosys (Prog.require v.primary)
    let abs ← locate path
    orFail .enoent (statAt v abs)
  | .opendir path => do
    orFail .enosys (Prog.require v.primary)
    let abs ← locate path
    let listing ← orFail .enoent (vfs v (v.list abs 8192))
    pure (.entries (dirLoop 128 listing))

/-- A call of `fs/vfs.c`. -/
def Op.run (v : Volume σ) (op : Op) : Prog (State σ) Reply := op.runAt v resolved

/-- The state at boot. -/
def State.boot (volume : σ) : State σ := ⟨[slash], none, volume⟩

end CanBoot.Vfs
