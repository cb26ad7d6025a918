import CanBoot.Cando.Value
import CanBoot.Lib.LittleEndian
import CanBoot.Lib.Signed
import CanBoot.Lib.Words

/-!
# WAV files (`decode_wav` in `cando_port/lib/audio.c`)

The argument is the list of its bytes; `len` is its length. A read outside it, and a sum that leaves `int`, is
undefined. The state is what was asked of `malloc`, as a number of frames each time; whether `malloc` finds that many
bytes is a parameter.
-/

namespace CanBoot.Cando.Wav

open Lib

/-- The frames that buffers were asked for. -/
abbrev Asked := List Int

/-- The `n` bytes at `buf + pos`. -/
def slice (buf : List UInt8) (pos : Int) (n : Nat) : Prog Asked (List UInt8) := do
  Prog.defined (0 ≤ pos ∧ pos + n ≤ buf.length)
  pure ((buf.drop pos.toNat).take n)

/-- `READ16_LE` and `READ32_LE`. -/
def read16Le (buf : List UInt8) (pos : Int) : Prog Asked Nat := do
  return fromLe (← slice buf pos 2)

def read32Le (buf : List UInt8) (pos : Int) : Prog Asked Nat := do
  return fromLe (← slice buf pos 4)

/-! ## The chunks -/

/-- The variables of the loop over the chunks. -/
structure WavVars where
  pos : Int
  fmtOff : Int
  fmtSize : Int
  dataOff : Int
  dataSize : Int
deriving DecidableEq, Repr

def WavVars.start : WavVars := ⟨12, -1, 0, -1, 0⟩

/-- `pos += (int)sz; if (sz & 1) pos++;` -/
def skip (pos : Int) (sz : Nat) : Prog Asked Int := do
  let pos ← Prog.int32 (pos + toInt32 sz)
  if sz &&& 1 ≠ 0 then Prog.int32 (pos + 1) else pure pos

/-- A turn of the loop over the chunks, once the header is read and `pos` is `body`. -/
def chunkBody (v : WavVars) (body : Int) (tag : List UInt8) (sz : Nat) : Prog Asked (WavVars ⊕ WavVars) :=
  if tag = ascii "fmt " then do
    let next ← skip body sz
    return .inl ⟨next, body, toInt32 sz, v.dataOff, v.dataSize⟩
  else if tag = ascii "data" then
    return .inr ⟨body, v.fmtOff, v.fmtSize, body, toInt32 sz⟩
  else do
    let next ← skip body sz
    return .inl { v with pos := next }

/-- A turn of the loop over the chunks. -/
def chunkTurn (buf : List UInt8) (v : WavVars) : Prog Asked (WavVars ⊕ WavVars) := do
  let body ← Prog.int32 (v.pos + 8)
  if body ≤ buf.length then
    let tag ← slice buf v.pos 4
    let sz ← read32Le buf (v.pos + 4)
    chunkBody v body tag sz
  else return .inr v

/-! ## The samples -/

/-- A sample of `bps` bits, scaled to 16. -/
def sample (bps : Nat) (src : List UInt8) : Int :=
  if bps = 8 then ((fromLe src : Int) - 128) * 256
  else if bps = 16 then if fromLe src < 32768 then fromLe src else (fromLe src : Int) - 65536
  else
    -- `sample |= ~0xffffff` takes 2^24 off a value of 24 bits, and `>> 8` rounds down
    (if fromLe src &&& 0x800000 ≠ 0 then (fromLe src : Int) - 16777216 else fromLe src) / 256

/-- `if (sample > 32767) sample = 32767; if (sample < -32768) sample = -32768;` -/
def clamp (n : Int) : Int :=
  let n := if n > 32767 then 32767 else n
  if n < -32768 then -32768 else n

/-- A round of the loop over the samples, into a buffer of `size` bytes: `src` and the samples written. -/
def sampleTurn (buf : List UInt8) (bps size : Nat) (i : Nat) : Int × List Int → Prog Asked (Int × List Int)
  | (src, pcm) => do
    let bytes ← slice buf src (bps / 8)
    Prog.defined (2 * i + 2 ≤ size)
    return (src + (bps / 8 : Nat), pcm ++ [clamp (sample bps bytes)])

/-! ## `decode_wav` -/

/-- What `decode_wav` returns through its pointers. -/
structure Decoded where
  pcm : List Int
  frames : Int
  channels : Nat
  hz : Int
deriving DecidableEq, Repr

/-- `malloc((size_t)frames * channels * sizeof(int16_t))`: the bytes asked for, a failure if there are none. -/
def allocate (malloc : Nat → Bool) (frames : Int) (channels : Nat) : Prog Asked Nat := do
  let size := (frames * channels * 2 % 18446744073709551616).toNat
  Prog.modify fun asked => asked ++ [frames]
  Prog.require (malloc size)
  return size

/-- `if (data_off + data_size > len) data_size = len - data_off;` -/
def clip (buf : List UInt8) (dataOff dataSize : Int) : Prog Asked Int := do
  let sum ← Prog.int32 (dataOff + dataSize)
  if sum > buf.length then Prog.int32 (buf.length - dataOff) else pure dataSize

/-- `decode_wav` once the number of frames is known. -/
def decodeFrames (malloc : Nat → Bool) (buf : List UInt8) (dataOff frames : Int) (channels rate bps : Nat) :
    Prog Asked Decoded := do
  let size ← allocate malloc frames channels
  let count ← Prog.int32 (frames * channels)
  let (_, pcm) ← Prog.forAcc (sampleTurn buf bps size) (List.range count.toNat) (dataOff, [])
  return ⟨pcm, frames, channels, toInt32 rate⟩

/-- `decode_wav` once the fields of the format are read. -/
def decodePcm (malloc : Nat → Bool) (buf : List UInt8) (dataOff dataSize : Int) (format channels rate bps : Nat) :
    Prog Asked Decoded := do
  Prog.require (format = 1)
  Prog.require (channels = 1 ∨ channels = 2)
  Prog.require (bps = 8 ∨ bps = 16 ∨ bps = 24)
  -- `data_size / bytes_per_frame` rounds towards zero
  decodeFrames malloc buf dataOff (dataSize.tdiv (channels * (bps / 8) : Nat)) channels rate bps

/-- `decode_wav` behind the loop over the chunks. -/
def decodeData (malloc : Nat → Bool) (buf : List UInt8) (v : WavVars) : Prog Asked Decoded := do
  Prog.require (¬ (v.fmtOff < 0 ∨ v.dataOff < 0 ∨ v.fmtSize < 16))
  let dataSize ← clip buf v.dataOff v.dataSize
  let format ← read16Le buf v.fmtOff
  let channels ← read16Le buf (v.fmtOff + 2)
  let rate ← read32Le buf (v.fmtOff + 4)
  let bps ← read16Le buf (v.fmtOff + 14)
  decodePcm malloc buf v.dataOff dataSize format channels rate bps

/-- `decode_wav`. -/
def decodeWav (malloc : Nat → Bool) (buf : List UInt8) : Prog Asked Decoded := do
  Prog.require (44 ≤ buf.length)
  Prog.require (buf.take 4 = ascii "RIFF" ∧ (buf.drop 8).take 4 = ascii "WAVE")
  let v ← Prog.loop (chunkTurn buf) WavVars.start
  decodeData malloc buf v

end CanBoot.Cando.Wav
