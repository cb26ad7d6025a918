import CanBoot.Cando.Value
import CanBoot.Lib.LittleEndian
import Mathlib.Algebra.Ring.Int.Defs

/-!
# Sounds and the WAV files that hold them

A sound is a matrix of samples; a WAV file is a sound together with everything the format leaves open: the other
chunks, what the format chunk says beyond the fields that matter, the bytes that pad odd chunks, and what follows the
data.
-/

namespace CanBoot.Spec

open Lib Cando

/-- The widths of a PCM sample. -/
inductive Depth where
  | bits8
  | bits16
  | bits24
deriving DecidableEq, Repr

namespace Depth

def bits : Depth → Nat
  | bits8 => 8
  | bits16 => 16
  | bits24 => 24

def bytes : Depth → Nat
  | bits8 => 1
  | bits16 => 2
  | bits24 => 3

/-- The samples of a width: unsigned at 8 bits, signed at the others. -/
def Holds : Depth → Int → Prop
  | bits8, x => 0 ≤ x ∧ x < 256
  | bits16, x => -32768 ≤ x ∧ x < 32768
  | bits24, x => -8388608 ≤ x ∧ x < 8388608

instance : (d : Depth) → (x : Int) → Decidable (d.Holds x)
  | bits8, _ => inferInstanceAs (Decidable (_ ∧ _))
  | bits16, _ => inferInstanceAs (Decidable (_ ∧ _))
  | bits24, _ => inferInstanceAs (Decidable (_ ∧ _))

/-- The bytes of a sample. -/
def encode (d : Depth) (x : Int) : List UInt8 := toLe d.bytes (x % 256 ^ d.bytes).toNat

/-- A sample at 16 bits. -/
def scaled : Depth → Int → Int
  | bits8, x => (x - 128) * 256
  | bits16, x => x
  | bits24, x => x / 256

end Depth

/-- One or two channels of samples: `frames` has a row for each moment. -/
structure Sound where
  channels : Nat
  depth : Depth
  rate : Nat
  frames : List (List Int)
  mono_or_stereo : channels = 1 ∨ channels = 2
  word : rate < 4294967296
  rows : ∀ frame ∈ frames, frame.length = channels
  held : ∀ frame ∈ frames, ∀ x ∈ frame, depth.Holds x

/-- The samples in the order of the file. -/
def Sound.samples (sound : Sound) : List Int := sound.frames.flatten

/-- A chunk, padded to an even size. -/
structure Chunk where
  tag : List UInt8
  body : List UInt8
  pad : UInt8
  four : tag.length = 4

def Chunk.bytes (c : Chunk) : List UInt8 :=
  c.tag ++ toLe 4 c.body.length ++ c.body ++ if c.body.length % 2 = 1 then [c.pad] else []

/-- A chunk that is neither the format nor the data. -/
def Chunk.Other (c : Chunk) : Prop := c.tag ≠ ascii "fmt " ∧ c.tag ≠ ascii "data"

/-- A WAV file: the sound, and what the format leaves open. -/
structure WavFile where
  sound : Sound
  riffSize : List UInt8
  before : List Chunk
  -- bytes per second and per frame, and what follows the sixteen bytes of the format
  derived : List UInt8
  extra : List UInt8
  pad : UInt8
  between : List Chunk
  tail : List UInt8
  size_four : riffSize.length = 4
  derived_six : derived.length = 6
  others_before : ∀ c ∈ before, c.Other
  others_between : ∀ c ∈ between, c.Other

namespace WavFile

variable (file : WavFile)

/-- The format chunk. -/
def format : Chunk where
  tag := ascii "fmt "
  body := toLe 2 1 ++ toLe 2 file.sound.channels ++ toLe 4 file.sound.rate ++ file.derived ++
    toLe 2 file.sound.depth.bits ++ file.extra
  pad := file.pad
  four := by decide

/-- The bytes of the data chunk. -/
def data : List UInt8 := file.sound.samples.flatMap file.sound.depth.encode

def bytes : List UInt8 :=
  ascii "RIFF" ++ file.riffSize ++ ascii "WAVE" ++ file.before.flatMap Chunk.bytes ++ file.format.bytes ++
    file.between.flatMap Chunk.bytes ++ ascii "data" ++ toLe 4 file.data.length ++ file.data ++ file.tail

end WavFile

end CanBoot.Spec
