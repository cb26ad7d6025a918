import CanBoot.Lib.Words

/-!
# 8.3 names and path strings

A path is a C string: a list of bytes without a zero byte. The engine cuts it in two places.
`split_last` takes the leaf off (15 bytes at most), and `resolve_dir` scans the rest into
components. A component also ends when its 16-byte buffer is full, so a run of more than 15 bytes
between two slashes is scanned as several components. Each component is packed by `to_83`, which
drops what exceeds eight characters of base and three of extension.
-/

namespace CanBoot

/-- The eleven bytes of an 8.3 name. -/
@[ext] structure Name where
  byte : Fin 11 → UInt8

instance : DecidableEq Name := fun a b =>
  decidable_of_iff (∀ k, a.byte k = b.byte k)
    ⟨fun h => Name.ext (funext h), fun h k => by rw [h]⟩

/-- The byte of `/`. -/
def slash : UInt8 := 47

/-- The byte of `.`. -/
def dot : UInt8 := 46

/-- The blank an 8.3 name is padded with. -/
def blank : UInt8 := 32

/-- ASCII upper case, as `to_83` computes it. -/
def upper (c : UInt8) : UInt8 := if 97 ≤ c ∧ c ≤ 122 then c - 32 else c

/-- `to_83`: base and extension part at the first dot, each cut to its field and upper-cased. -/
def to83 (name : List UInt8) : Name :=
  let base := (name.takeWhile (· ≠ dot)).take 8
  let ext := ((name.dropWhile (· ≠ dot)).drop 1).take 3
  ⟨fun k => if k.val < 8 then (base.map upper).getD k.val blank
    else (ext.map upper).getD (k.val - 8) blank⟩

/-- `name_from_83`: each half up to its first blank, joined by a dot if there is an extension. -/
def nameFrom83 (raw : Name) : List UInt8 :=
  let base := (List.finRange 8).map fun k => raw.byte (k.castLE (by decide))
  let ext := (List.finRange 3).map fun k => raw.byte (k.natAdd 8)
  base.takeWhile (· ≠ blank) ++ if ext.any (· ≠ blank) then dot :: ext.takeWhile (· ≠ blank) else []

/-- Is this the name of a `.` or `..` entry? The test of `dir_is_empty` and `list_path`. -/
def isDotName (n : Name) : Bool :=
  n.byte 0 = dot && (n.byte 1 = blank || (n.byte 1 = dot && n.byte 2 = blank))

/-- `".          "`. -/
def dotName : Name := ⟨fun k => if k.val = 0 then dot else blank⟩

/-- `"..         "`. -/
def dotdotName : Name := ⟨fun k => if k.val < 2 then dot else blank⟩

/-- The path without its trailing slashes; a lone slash stays. -/
def stripSlashes (path : List UInt8) : List UInt8 :=
  match path.reverse.dropWhile (· = slash) with
  | [] => path.take 1
  | rest => rest.reverse

/-- `split_last`: the parent directory and the leaf, into buffers of `pcap` and `lcap` bytes. -/
def splitLast (path : List UInt8) (pcap lcap : Nat) : Option (List UInt8 × List UInt8) :=
  let s := stripSlashes path
  let leaf := (s.reverse.takeWhile (· ≠ slash)).reverse
  if leaf.length = s.length then
    -- no slash at all
    if 2 > pcap ∨ s.length + 1 > lcap ∨ s.length = 0 then none else some ([slash], s)
  else
    let at' := s.length - leaf.length - 1
    if leaf.length = 0 ∨ leaf.length + 1 > lcap then none
    else if at' = 0 then
      if 2 > pcap then none else some ([slash], leaf)
    else if at' + 1 > pcap then none
    else some (s.take at', leaf)

/-- The component scanner of `resolve_dir`: `cur` is what `comp[]` holds so far. A component ends at
a slash, at the end of the path, or at 15 bytes. -/
def scanComponents : List UInt8 → List UInt8 → List (List UInt8)
  | [], cur => if cur = [] then [] else [cur]
  | c :: p, cur =>
    if c = slash then
      if cur = [] then scanComponents p [] else cur :: scanComponents p []
    else if cur.length = 15 then cur :: scanComponents p [c]
    else scanComponents p (cur ++ [c])

/-- The components `resolve_dir` walks. -/
def components (path : List UInt8) : List (List UInt8) := scanComponents path []

end CanBoot
