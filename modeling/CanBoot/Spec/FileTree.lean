import CanBoot.Lib.Walk

/-!
# A tree of files

What a file system is for, without blocks and tables: a map from paths to directories and byte
strings, and five changes of it. Names are of any type; a path is the list of its names.
-/

namespace CanBoot

open Lib

/-- What stands at a path: a directory, or a file's bytes. -/
inductive Node where
  | dir
  | file (bytes : List UInt8)
  deriving DecidableEq

/-- The content of a volume, path by path. -/
abbrev FileTree (N : Type) := List N → Option Node

namespace FileTree

variable {N : Type} [DecidableEq N]

/-- The file at `p` is now `bytes`. -/
def put (p : List N) (bytes : List UInt8) (t : FileTree N) : FileTree N :=
  Function.update t p (some (.file bytes))

/-- There is a directory at `p` now. -/
def makeDir (p : List N) (t : FileTree N) : FileTree N := Function.update t p (some .dir)

/-- There is nothing at or below `p` now. -/
def remove (p : List N) (t : FileTree N) : FileTree N := prune p t

/-- What was at and below `p` is at and below `q` now, and nothing is at or below `p`. -/
def move (p q : List N) (t : FileTree N) : FileTree N := graft q (below p t) (prune p t)

end FileTree

end CanBoot
