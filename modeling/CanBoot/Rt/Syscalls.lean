import Mathlib.Data.Fintype.Basic
import CanBoot.Lib.Words

/-!
# Read-only files behind descriptors (`rt/picolibc_port/syscalls.c`)

`open` takes the first of eight slots and reads the whole file into a buffer of its own; `read` and `lseek` work on
that buffer. What `slurp_boot_file` finds on the disks is the caller's: an `open` comes with its outcome, the buffer
it allocated and the length it reported, which need not be the buffer's.

A `memcpy` that leaves its buffer is no result at all: the calls return `none` there.
-/

namespace CanBoot.Rt

open Lib Function

/-- The values of `errno` these calls set. -/
inductive Errno where
  | einval | erofs | eisdir | emfile | enoent | enomem | enosys | ebadf | espipe
deriving DecidableEq, Repr

/-- The buffer and the length that `slurp_boot_file` gives; the length comes from a `uint32_t`. -/
structure Slurped where
  data : List UInt8
  len : Nat
  small : len < 4294967296

/-- `struct canboot_openfile`. -/
structure OpenFile where
  used : Bool
  data : Option (List UInt8)
  size : Nat
  pos : Nat
deriving DecidableEq, Repr

/-- `CANBOOT_MAX_FILES`. -/
def maxFiles : Nat := 8

/-- `CANBOOT_FILE_FD_BASE`. -/
def fileFdBase : Int := 3

/-- `g_files`. -/
abbrev Files := Fin maxFiles → OpenFile

/-- `g_files` at boot. -/
def Files.boot : Files := fun _ => ⟨false, none, 0, 0⟩

/-- The slot a descriptor stands for. -/
def slotOf (fd : Int) : Option (Fin maxFiles) :=
  let slot := fd - fileFdBase
  if h : 0 ≤ slot ∧ slot < 8 then some ⟨slot.toNat, by unfold maxFiles; omega⟩ else none

/-- `file_for_fd`. -/
def fileForFd (fs : Files) (fd : Int) : Option (Fin maxFiles) :=
  match slotOf fd with
  | none => none
  | some i => if (fs i).used then some i else none

/-- What a call returns: a descriptor, the bytes a read copied out (their number is its value), an offset, the mode
and size of a file, plain success, or -1 with `errno`. Reads of the console and closed sockets are other modules'
work. -/
inductive Reply where
  | fd (n : Int)
  | bytes (bs : List UInt8)
  | offset (n : Int)
  | regular (size : Int)
  | device
  | ok
  | elsewhere
  | fail (e : Errno)
deriving DecidableEq, Repr

/-- The `int64_t` with the same low 64 bits. -/
def wrap64 (n : Int) : Int := (n + 9223372036854775808) % 18446744073709551616 - 9223372036854775808

/-- `read`. -/
def read (fs : Files) (fd : Int) (count : UInt64) : Option (Reply × Files) :=
  if fd = 0 then some (.elsewhere, fs)
  else
    match fileForFd fs fd with
    | none => some (.fail .ebadf, fs)
    | some i =>
      let f := fs i
      let avail := sub64 f.size f.pos
      let n := if count.toNat < avail then count.toNat else avail
      if n = 0 then some (.bytes [], fs)
      else
        match f.data with
        | none => none
        | some data =>
          if f.pos + n ≤ data.length then
            some (.bytes ((data.drop f.pos).take n), update fs i { f with pos := u64 (f.pos + n) })
          else none

/-- `canboot_socket_is`. -/
def canbootSocketIs (fd : Int) : Bool := 1000 ≤ fd ∧ fd < 1016

/-- `close`. -/
def close (fs : Files) (fd : Int) : Reply × Files :=
  if canbootSocketIs fd then (.elsewhere, fs)
  else
    match fileForFd fs fd with
    | none => (.ok, fs)
    | some i => (.ok, update fs i { fs i with data := none, used := false })

/-- `SEEK_SET`, `SEEK_CUR` and `SEEK_END`. -/
def seekBase (f : OpenFile) (whence : Int) : Option Int :=
  if whence = 0 then some 0
  else if whence = 1 then some (wrap64 f.pos)
  else if whence = 2 then some (wrap64 f.size)
  else none

/-- `lseek`. -/
def lseek (fs : Files) (fd : Int) (off : Int64) (whence : Int) : Reply × Files :=
  match fileForFd fs fd with
  | none => (.fail .espipe, fs)
  | some i =>
    match seekBase (fs i) whence with
    | none => (.fail .einval, fs)
    | some base =>
      let np := wrap64 (base + off.toInt)
      if np < 0 then (.fail .einval, fs)
      else (.offset np, update fs i { fs i with pos := np.toNat })

/-- `fstat`. -/
def fstat (fs : Files) (fd : Int) : Reply :=
  match fileForFd fs fd with
  | none => .device
  | some i => .regular (wrap64 (fs i).size)

/-- The first slot not in use. -/
def freeSlot (fs : Files) : Option (Fin maxFiles) := (List.finRange maxFiles).find? fun i => !(fs i).used

/-- `open`, where `found` is what `slurp_boot_file` makes of the name. -/
def openFile (fs : Files) (path : Option (List UInt8)) (flags : Nat) (found : Except Errno Slurped) : Reply × Files :=
  match path with
  | none => (.fail .einval, fs)
  | some path =>
    if flags % 4 ≠ 0 then (.fail .erofs, fs)
    else if path.dropWhile (· = 47) = [] then (.fail .eisdir, fs)
    else
      match freeSlot fs with
      | none => (.fail .emfile, fs)
      | some i =>
        match found with
        | .error e => (.fail e, update fs i { fs i with used := false, data := none })
        | .ok file => (.fd (fileFdBase + i.val), update fs i ⟨true, some file.data, file.len, 0⟩)

/-! ## Sequences of calls -/

/-- A call on the file layer. -/
inductive Call where
  | openFile (path : Option (List UInt8)) (flags : Nat) (found : Except Errno Slurped)
  | read (fd : Int) (count : UInt64)
  | lseek (fd : Int) (off : Int64) (whence : Int)
  | close (fd : Int)
  | fstat (fd : Int)

def Files.step (fs : Files) : Call → Option (Reply × Files)
  | .openFile path flags found => some (Rt.openFile fs path flags found)
  | .read fd count => Rt.read fs fd count
  | .lseek fd off whence => some (Rt.lseek fs fd off whence)
  | .close fd => some (Rt.close fs fd)
  | .fstat fd => some (Rt.fstat fs fd, fs)

end CanBoot.Rt
