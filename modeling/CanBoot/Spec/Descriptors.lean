import CanBoot.Rt.Syscalls

/-!
# What file descriptors are for

A table of open files. A descriptor has the bytes of its file, the size the file was opened with and an offset, a
natural number that a seek can take past the end. `read` gives the bytes between the offset and the end, as far as
they are asked for, and moves the offset behind them.
-/

namespace CanBoot.Spec

open Rt Function

/-- An open file. -/
structure Descriptor where
  bytes : List UInt8
  size : Nat
  pos : Nat
deriving DecidableEq, Repr

/-- How much a read of `count` bytes gives: nothing at or past the end. -/
def Descriptor.ready (d : Descriptor) (count : Nat) : Nat := min count (d.size - d.pos)

/-- A read of something does not start past the end, and the stretch it would return lies in the file's buffer. -/
def Descriptor.InFile (d : Descriptor) (count : Nat) : Prop :=
  count = 0 ∨ d.pos ≤ d.size ∧ (d.ready count = 0 ∨ d.pos + d.ready count ≤ d.bytes.length)

/-- The open files, by slot. -/
abbrev Table := Fin maxFiles → Option Descriptor

namespace Table

def empty : Table := fun _ => none

/-- The open file behind a descriptor, with its slot. -/
def find (t : Table) (fd : Int) : Option (Fin maxFiles × Descriptor) := do
  let i ← slotOf fd
  let d ← t i
  some (i, d)

def read (t : Table) (fd : Int) (count : Nat) : Reply × Table :=
  if fd = 0 then (.elsewhere, t)
  else
    match t.find fd with
    | none => (.fail .ebadf, t)
    | some (i, d) =>
      (.bytes ((d.bytes.drop d.pos).take (d.ready count)), update t i (some { d with pos := d.pos + d.ready count }))

def close (t : Table) (fd : Int) : Reply × Table :=
  if canbootSocketIs fd then (.elsewhere, t)
  else
    match t.find fd with
    | none => (.ok, t)
    | some (i, _) => (.ok, update t i none)

/-- Where a seek counts from. -/
def base (d : Descriptor) (whence : Int) : Option Int :=
  if whence = 0 then some 0 else if whence = 1 then some d.pos else if whence = 2 then some d.size else none

/-- A seek succeeds whenever the offset it arrives at is not negative and is an `off_t`. -/
def lseek (t : Table) (fd off whence : Int) : Reply × Table :=
  match t.find fd with
  | none => (.fail .espipe, t)
  | some (i, d) =>
    match base d whence with
    | none => (.fail .einval, t)
    | some b =>
      if 0 ≤ b + off ∧ b + off < 9223372036854775808 then
        (.offset (b + off), update t i (some { d with pos := (b + off).toNat }))
      else (.fail .einval, t)

def fstat (t : Table) (fd : Int) : Reply :=
  match t.find fd with
  | none => .device
  | some (_, d) => .regular d.size

def openFile (t : Table) (path : Option (List UInt8)) (flags : Nat) (found : Except Errno Slurped) : Reply × Table :=
  match path with
  | none => (.fail .einval, t)
  | some path =>
    if flags % 4 ≠ 0 then (.fail .erofs, t)
    else if path.dropWhile (· = 47) = [] then (.fail .eisdir, t)
    else
      match (List.finRange maxFiles).find? fun i => (t i).isNone with
      | none => (.fail .emfile, t)
      | some i =>
        match found with
        | .error e => (.fail e, t)
        | .ok file => (.fd (fileFdBase + i.val), update t i (some ⟨file.data, file.len, 0⟩))

def step (t : Table) : Call → Reply × Table
  | .openFile path flags found => t.openFile path flags found
  | .read fd count => t.read fd count.toNat
  | .lseek fd off whence => t.lseek fd off.toInt whence
  | .close fd => t.close fd
  | .fstat fd => (t.fstat fd, t)

/-- Every read of the sequence that asks for something starts at or before the end of its file. -/
def InFile (t : Table) : List Call → Prop
  | [] => True
  | c :: rest =>
    (∀ fd count i d, c = .read fd count → fd ≠ 0 → t.find fd = some (i, d) → d.InFile count.toNat) ∧
      (t.step c).2.InFile rest

end Table

end CanBoot.Spec
