import CanBoot.Laws.Cando.Wav
import CanBoot.Spec.Wav
import Mathlib.Data.Nat.Bitwise

/-!
# Decoding what was encoded

`decode_wav` gives back the sound of a WAV file, whatever chunks stand around the format and the data and whatever the
format leaves open, scaled to 16 bits.
-/

namespace CanBoot.Cando.Wav

open Lib Spec List

/-! ## Reading where the file is known -/

variable {buf rest : List UInt8} {p : Nat}

theorem leAt_of_drop {pos : Int} {n w : Nat} (place : pos = p) (here : buf.drop p = toLe n w ++ rest)
    (fits : w < 256 ^ n) : leAt buf pos n = w := by
  rw [leAt, place, Int.toNat_natCast, here, take_left' (length_toLe n w), fromLe_toLe, Nat.mod_eq_of_lt fits]

theorem drop_behind {xs : List UInt8} (here : buf.drop p = xs ++ rest) : buf.drop (p + xs.length) = rest := by
  rw [← drop_drop, here, drop_left]

theorem length_of_drop {xs : List UInt8} (here : buf.drop p = xs ++ rest) (some : 0 < xs.length) :
    p + xs.length ≤ buf.length := by
  have sizes := congrArg List.length here
  rw [length_drop, length_append] at sizes
  omega

/-- The header of a chunk. -/
theorem header_at {tag : List UInt8} {n : Nat} (four : tag.length = 4) (word : n < 4294967296)
    (here : buf.drop p = tag ++ (toLe 4 n ++ rest)) :
    Inside buf p ∧ tagAt buf p = tag ∧ sizeAt buf p = n := by
  have behind := drop_behind here
  rw [four] at behind
  refine ⟨⟨by omega, ?_⟩, ?_, leAt_of_drop (by omega) behind word⟩
  · have bound := length_of_drop behind (by rw [length_toLe]; decide)
    rw [length_toLe] at bound
    omega
  · rw [tagAt, Int.toNat_natCast, here, take_left' four]

theorem toInt32_of_lt {n : Nat} (small : n < 2147483648) : toInt32 n = n := if_pos small

theorem length_chunk (c : Chunk) : c.bytes.length = 8 + c.body.length + c.body.length % 2 := by
  rw [Chunk.bytes, length_append, length_append, length_append, c.four, length_toLe]
  split
  next odd => rw [length_singleton, odd]
  next even =>
    rw [length_nil]
    omega

theorem skipTo_eq {n : Nat} (small : n < 2147483648) (pos : Int) : skipTo pos n = pos + n + (n % 2 : Nat) := by
  rw [skipTo, toInt32_of_lt small, Nat.and_one_is_mod]
  split <;> omega

/-- A chunk is read, and skipped to its end. -/
theorem chunk_at (short : buf.length < 2147483648) {c : Chunk} (here : buf.drop p = c.bytes ++ rest) :
    Inside buf p ∧ tagAt buf p = c.tag ∧ sizeAt buf p = c.body.length ∧ Skips (p + 8) c.body.length ∧
      skipTo (p + 8) c.body.length = (p + c.bytes.length : Nat) := by
  have size := length_chunk c
  have bound := length_of_drop here (by omega)
  have small : c.body.length < 2147483648 := by omega
  have header : buf.drop p = c.tag ++ (toLe 4 c.body.length ++
      (c.body ++ ((if c.body.length % 2 = 1 then [c.pad] else []) ++ rest))) := by
    rw [here, Chunk.bytes]
    simp only [append_assoc]
  obtain ⟨inside, tag, read⟩ := header_at c.four (by omega) header
  refine ⟨inside, tag, read, ?_, ?_⟩
  · unfold Skips InInt32
    rw [skipTo_eq small, toInt32_of_lt small]
    omega
  · rw [skipTo_eq small]
    omega

/-! ## The chunks of a file -/

variable {f fs d ds : Int} {w : WavVars}

theorem chunks_over_other (short : buf.length < 2147483648) {c : Chunk} (other : c.Other)
    (here : buf.drop p = c.bytes ++ rest) (next : Chunks buf ⟨(p + c.bytes.length : Nat), f, fs, d, ds⟩ w) :
    Chunks buf ⟨p, f, fs, d, ds⟩ w := by
  obtain ⟨inside, tag, size, skips, ends⟩ := chunk_at short here
  refine .next inside (by rw [tag]; exact other.2) (by rw [size]; exact skips) ?_
  have after : WavVars.after buf ⟨p, f, fs, d, ds⟩ = ⟨(p + c.bytes.length : Nat), f, fs, d, ds⟩ := by
    rw [WavVars.after, if_neg (by rw [tag]; exact other.1), size, ends]
  rw [after]
  exact next

theorem chunks_over_others (short : buf.length < 2147483648) : ∀ (cs : List Chunk) {p : Nat}, (∀ c ∈ cs, c.Other) →
    buf.drop p = cs.flatMap Chunk.bytes ++ rest →
      Chunks buf ⟨(p + (cs.flatMap Chunk.bytes).length : Nat), f, fs, d, ds⟩ w → Chunks buf ⟨p, f, fs, d, ds⟩ w
  | [], p, _, _, next => next
  | c :: cs, p, others, here, next => by
    rw [flatMap_cons, append_assoc] at here
    rw [flatMap_cons, length_append, ← Nat.add_assoc] at next
    exact chunks_over_other short (others c mem_cons_self) here
      (chunks_over_others short cs (fun c mem => others c (mem_cons_of_mem _ mem)) (drop_behind here) next)

theorem chunks_over_format (short : buf.length < 2147483648) {c : Chunk} (format : c.tag = ascii "fmt ")
    (here : buf.drop p = c.bytes ++ rest)
    (next : Chunks buf ⟨(p + c.bytes.length : Nat), p + 8, c.body.length, d, ds⟩ w) : Chunks buf ⟨p, f, fs, d, ds⟩ w := by
  obtain ⟨inside, tag, size, skips, ends⟩ := chunk_at short here
  have small : c.body.length < 2147483648 := by
    have := length_chunk c
    have := length_of_drop here (by omega)
    omega
  refine .next inside (by rw [tag, format]; decide) (by rw [size]; exact skips) ?_
  have after : WavVars.after buf ⟨p, f, fs, d, ds⟩ = ⟨(p + c.bytes.length : Nat), p + 8, c.body.length, d, ds⟩ := by
    rw [WavVars.after, if_pos (by rw [tag, format]), size, ends, toInt32_of_lt small]
  rw [after]
  exact next

variable (file : WavFile)

/-- Where the format chunk starts. -/
def formatAt : Nat := 12 + (file.before.flatMap Chunk.bytes).length

/-- Where the data chunk starts. -/
def dataAt : Nat := formatAt file + file.format.bytes.length + (file.between.flatMap Chunk.bytes).length

/-- What the loop leaves. -/
def varsOf : WavVars :=
  ⟨dataAt file + 8, formatAt file + 8, file.format.body.length, dataAt file + 8, file.data.length⟩

theorem bytes_eq : file.bytes = (ascii "RIFF" ++ file.riffSize ++ ascii "WAVE") ++ (file.before.flatMap Chunk.bytes ++
    (file.format.bytes ++ (file.between.flatMap Chunk.bytes ++
      (ascii "data" ++ (toLe 4 file.data.length ++ (file.data ++ file.tail)))))) := by
  rw [WavFile.bytes]
  simp only [append_assoc]

theorem drop_before : file.bytes.drop 12 = file.before.flatMap Chunk.bytes ++
    (file.format.bytes ++ (file.between.flatMap Chunk.bytes ++
      (ascii "data" ++ (toLe 4 file.data.length ++ (file.data ++ file.tail))))) := by
  have twelve : (ascii "RIFF" ++ file.riffSize ++ ascii "WAVE").length = 12 := by
    rw [length_append, length_append, file.size_four]
    decide
  rw [bytes_eq, drop_left' twelve]

theorem drop_format : file.bytes.drop (formatAt file) = file.format.bytes ++ (file.between.flatMap Chunk.bytes ++
    (ascii "data" ++ (toLe 4 file.data.length ++ (file.data ++ file.tail)))) :=
  drop_behind (drop_before file)

theorem drop_data : file.bytes.drop (dataAt file) =
    ascii "data" ++ (toLe 4 file.data.length ++ (file.data ++ file.tail)) :=
  drop_behind (drop_behind (drop_format file))

theorem drop_samples : file.bytes.drop (dataAt file + 8) = file.data ++ file.tail := by
  have behind := drop_behind (drop_data file)
  have samples := drop_behind behind
  rw [length_toLe] at samples
  exact samples

theorem data_inside : dataAt file + 8 + file.data.length ≤ file.bytes.length := by
  have here := drop_data file
  rw [← append_assoc, ← append_assoc] at here
  have sizes : (ascii "data" ++ toLe 4 file.data.length ++ file.data).length = 8 + file.data.length := by
    rw [length_append, length_append, length_toLe]
    rfl
  have bound := length_of_drop here (by omega)
  omega

theorem file_chunks (short : file.bytes.length < 2147483648) : Chunks file.bytes .start (varsOf file) := by
  have inside := data_inside file
  have small : file.data.length < 2147483648 := by omega
  obtain ⟨header, tag, size⟩ := header_at (by decide) (by omega) (drop_data file)
  refine chunks_over_others short file.before file.others_before (drop_before file) ?_
  refine chunks_over_format short rfl (drop_format file) ?_
  refine chunks_over_others short file.between file.others_between (drop_behind (drop_format file)) ?_
  have found : varsOf file =
      WavVars.found file.bytes ⟨dataAt file, formatAt file + 8, file.format.body.length, -1, 0⟩ := by
    rw [WavVars.found, size, toInt32_of_lt small, varsOf]
  rw [found]
  exact .data header tag

/-! ## The fields of the format -/

theorem drop_fields : ∃ rest, file.bytes.drop (formatAt file + 8) = toLe 2 1 ++ (toLe 2 file.sound.channels ++
    (toLe 4 file.sound.rate ++ (file.derived ++ (toLe 2 file.sound.depth.bits ++ rest)))) := by
  have here := drop_format file
  rw [Chunk.bytes] at here
  simp only [append_assoc] at here
  have behind := drop_behind (drop_behind here)
  rw [file.format.four, length_toLe, WavFile.format] at behind
  simp only [append_assoc] at behind
  exact ⟨_, behind⟩

theorem fields_eq : leAt file.bytes (varsOf file).fmtOff 2 = 1 ∧ channelsOf file.bytes (varsOf file) = file.sound.channels ∧
    rateOf file.bytes (varsOf file) = file.sound.rate ∧ bpsOf file.bytes (varsOf file) = file.sound.depth.bits := by
  obtain ⟨rest, first⟩ := drop_fields file
  have second := drop_behind first
  have third := drop_behind second
  have fourth := drop_behind third
  have fifth := drop_behind fourth
  rw [length_toLe] at second third fourth fifth
  rw [length_toLe] at third fourth fifth
  rw [length_toLe] at fourth fifth
  rw [file.derived_six] at fifth
  have channels : file.sound.channels < 256 ^ 2 := by
    have := file.sound.mono_or_stereo
    omega
  have bits : file.sound.depth.bits < 256 ^ 2 := by
    cases file.sound.depth <;> decide
  have start : (varsOf file).fmtOff = (formatAt file + 8 : Nat) := rfl
  refine ⟨leAt_of_drop start first (by decide), leAt_of_drop ?_ second channels,
    leAt_of_drop ?_ third file.sound.word, leAt_of_drop ?_ fifth bits⟩ <;> omega

theorem file_playable : Playable file.bytes (varsOf file) := by
  obtain ⟨format, channels, -, bps⟩ := fields_eq file
  refine ⟨format, by rw [channels]; exact file.sound.mono_or_stereo, ?_⟩
  rw [bps]
  cases file.sound.depth with
  | bits8 => exact .inl rfl
  | bits16 => exact .inr (.inl rfl)
  | bits24 => exact .inr (.inr rfl)

/-! ## The samples -/

theorem and_high_bit {n : Nat} (small : n < 16777216) : n &&& 0x800000 ≠ 0 ↔ 8388608 ≤ n := by
  rw [show 0x800000 = 2 ^ 23 from rfl, Nat.and_two_pow, Nat.testBit_eq_decide_div_mod_eq]
  have parts : n / 2 ^ 23 % 2 = 1 ↔ 8388608 ≤ n := by omega
  by_cases high : 8388608 ≤ n
  · rw [decide_eq_true (parts.2 high)]
    exact iff_of_true (by decide) high
  · rw [decide_eq_false (parts.not.2 high)]
    exact iff_of_false (by decide) high

theorem bits_div (depth : Depth) : depth.bits / 8 = depth.bytes := by
  cases depth <;> rfl

theorem clamp_of_inside {n : Int} (low : -32768 ≤ n) (high : n ≤ 32767) : clamp n = n := by
  show (if (if n > 32767 then 32767 else n) < -32768 then -32768 else if n > 32767 then 32767 else n) = n
  rw [if_neg (by omega : ¬ n > 32767), if_neg (by omega)]

/-- The bytes of a sample hold it modulo a power of two. -/
theorem fromLe_encode (depth : Depth) (x : Int) : (fromLe (depth.encode x) : Int) = x % (256 ^ depth.bytes : Nat) := by
  have size : 0 < 256 ^ depth.bytes := Nat.pow_pos (by decide)
  have low := Int.emod_nonneg x (by omega : ((256 ^ depth.bytes : Nat) : Int) ≠ 0)
  have cast : (256 : Int) ^ depth.bytes = (256 ^ depth.bytes : Nat) := (Int.natCast_pow 256 _).symm
  rw [Depth.encode, fromLe_toLe, cast, Nat.mod_eq_of_lt (by omega), Int.toNat_of_nonneg low]

/-- A sample that was encoded comes back scaled, and needs no clamping. -/
theorem sample_encode {depth : Depth} {x : Int} (holds : depth.Holds x) :
    clamp (sample depth.bits (depth.encode x)) = depth.scaled x := by
  have value := fromLe_encode depth x
  cases depth with
  | bits8 =>
    obtain ⟨low, high⟩ : 0 ≤ x ∧ x < 256 := holds
    replace value : (fromLe (Depth.bits8.encode x) : Int) = x % 256 := value
    have same : sample 8 (Depth.bits8.encode x) = (x - 128) * 256 := by
      rw [sample, if_pos rfl]
      omega
    exact (congrArg clamp same).trans (clamp_of_inside (by omega) (by omega))
  | bits16 =>
    obtain ⟨low, high⟩ : -32768 ≤ x ∧ x < 32768 := holds
    replace value : (fromLe (Depth.bits16.encode x) : Int) = x % 65536 := value
    have same : sample 16 (Depth.bits16.encode x) = x := by
      rw [sample, if_neg (by decide), if_pos rfl]
      split <;> omega
    exact (congrArg clamp same).trans (clamp_of_inside (by omega) (by omega))
  | bits24 =>
    obtain ⟨low, high⟩ : -8388608 ≤ x ∧ x < 8388608 := holds
    replace value : (fromLe (Depth.bits24.encode x) : Int) = x % 16777216 := value
    have bit := and_high_bit (by omega : fromLe (Depth.bits24.encode x) < 16777216)
    have same : sample 24 (Depth.bits24.encode x) = x / 256 := by
      rw [sample, if_neg (by decide), if_neg (by decide)]
      split
      next set =>
        have := bit.1 set
        omega
      next clear =>
        have := bit.not.1 clear
        omega
    exact (congrArg clamp same).trans (clamp_of_inside (by omega) (by omega))

theorem samplesAt_encode (depth : Depth) : ∀ (xs : List Int) {src : Int} {p : Nat}, (∀ x ∈ xs, depth.Holds x) →
    src = p → buf.drop p = xs.flatMap depth.encode ++ rest →
      samplesAt buf depth.bits src xs.length = xs.map depth.scaled
  | [], _, _, _, _, _ => rfl
  | x :: xs, src, p, holds, place, here => by
    rw [flatMap_cons, append_assoc] at here
    have size : (depth.encode x).length = depth.bytes := length_toLe _ _
    have behind := drop_behind here
    rw [size] at behind
    rw [length_cons, samplesAt, map_cons, bits_div, place, Int.toNat_natCast, here, take_left' size,
      sample_encode (holds x mem_cons_self),
      samplesAt_encode depth xs (fun y mem => holds y (mem_cons_of_mem _ mem)) (Int.natCast_add _ _).symm behind]

/-! ## The round trip -/

theorem length_flatMap_encode (depth : Depth) (xs : List Int) :
    (xs.flatMap depth.encode).length = xs.length * depth.bytes := by
  induction xs with
  | nil => rw [flatMap_nil, length_nil, length_nil, Nat.zero_mul]
  | cons x xs ih =>
    rw [flatMap_cons, length_append, ih, Depth.encode, length_toLe, length_cons, Nat.add_mul]
    omega

theorem length_samples (sound : Sound) : sound.samples.length = sound.frames.length * sound.channels := by
  have rows : ∀ frames : List (List Int), (∀ frame ∈ frames, frame.length = sound.channels) →
      frames.flatten.length = frames.length * sound.channels := by
    intro frames same
    induction frames with
    | nil => rw [flatten_nil, length_nil, length_nil, Nat.zero_mul]
    | cons frame frames ih =>
      rw [flatten_cons, length_append, same frame mem_cons_self,
        ih fun other mem => same other (mem_cons_of_mem _ mem), length_cons, Nat.add_mul]
      omega
  exact rows sound.frames sound.rows

theorem file_frames : framesOf file.bytes (varsOf file) = file.sound.frames.length := by
  obtain ⟨-, channels, -, bps⟩ := fields_eq file
  have inside := data_inside file
  have whole : clipped file.bytes (varsOf file) = file.data.length := by
    rw [clipped, varsOf, if_neg (by simp only; omega)]
  have size : file.data.length = file.sound.frames.length * (file.sound.channels * file.sound.depth.bytes) := by
    rw [WavFile.data, length_flatMap_encode, length_samples, Nat.mul_assoc]
  have width : file.sound.channels * file.sound.depth.bytes ≠ 0 := by
    have := file.sound.mono_or_stereo
    refine Nat.mul_ne_zero (by omega) ?_
    cases file.sound.depth <;> decide
  rw [framesOf, whole, channels, bps, bits_div, size, Int.natCast_mul, Int.mul_tdiv_cancel _ (by omega)]

/-- What a sound decodes to. -/
def decodedSound (sound : Sound) : Decoded :=
  ⟨sound.samples.map sound.depth.scaled, sound.frames.length, sound.channels, sound.rate⟩

theorem length_format : 16 ≤ file.format.body.length := by
  rw [WavFile.format]
  simp only [length_append, length_toLe, file.derived_six]
  omega

theorem file_ready (short : file.bytes.length < 2147483648) : Ready file.bytes (varsOf file) := by
  refine (file_chunks file short).prepared ?_
  have long := length_format file
  show ¬ ((formatAt file + 8 : Int) < 0 ∨ (dataAt file + 8 : Int) < 0 ∨ (file.format.body.length : Int) < 16)
  omega

theorem file_riff : Riff file.bytes := by
  have long : 16 ≤ file.format.body.length := length_format file
  have whole := length_chunk file.format
  have inside := data_inside file
  have eight : (ascii "RIFF" ++ file.riffSize).length = 8 := by
    rw [length_append, file.size_four]
    decide
  refine ⟨by unfold dataAt formatAt at inside; omega, ?_, ?_⟩
  · rw [bytes_eq, append_assoc, append_assoc, take_left' (by decide)]
  · rw [bytes_eq, append_assoc (_ ++ _), drop_left' eight, take_left' (by decide)]

theorem file_decoded : decodedOf file.bytes (varsOf file) =
    ⟨file.sound.samples.map file.sound.depth.scaled, file.sound.frames.length, file.sound.channels,
      toInt32 file.sound.rate⟩ := by
  obtain ⟨-, channels, rate, bps⟩ := fields_eq file
  have held : ∀ x ∈ file.sound.samples, file.sound.depth.Holds x := by
    intro x mem
    obtain ⟨frame, row, mem⟩ := mem_flatten.1 mem
    exact file.sound.held frame row x mem
  have count : (framesOf file.bytes (varsOf file) * channelsOf file.bytes (varsOf file)).toNat =
      file.sound.samples.length := by
    rw [file_frames, channels, length_samples, ← Int.natCast_mul, Int.toNat_natCast]
  have samples : samplesAt file.bytes file.sound.depth.bits (varsOf file).dataOff file.sound.samples.length =
      file.sound.samples.map file.sound.depth.scaled :=
    samplesAt_encode file.sound.depth file.sound.samples held (Int.natCast_add _ _).symm (drop_samples file)
  rw [decodedOf, count, file_frames, channels, rate, bps, samples]

theorem file_bytes (short : file.bytes.length < 2147483648) :
    bytesOf file.bytes (varsOf file) = 2 * file.sound.samples.length := by
  obtain ⟨-, channels, -, -⟩ := fields_eq file
  have inside := data_inside file
  have small : file.sound.samples.length ≤ file.data.length := by
    rw [WavFile.data, length_flatMap_encode]
    refine Nat.le_mul_of_pos_right _ ?_
    cases file.sound.depth <;> decide
  rw [bytesOf, file_frames, channels, ← Int.natCast_mul, ← length_samples]
  omega

/-- **Decoding inverts encoding**, for every sound and every file of it below 2^31 bytes whose rate is an `int` and
whose samples find room. -/
theorem decode_encoded (malloc : Nat → Bool) (file : WavFile) (short : file.bytes.length < 2147483648)
    (rate : file.sound.rate < 2147483648) (room : malloc (2 * file.sound.samples.length) = true) :
    ∃ fuel, (decodeWav malloc file.bytes).run fuel [] =
      .ok (decodedSound file.sound) [(file.sound.frames.length : Int)] := by
  have chunks := file_chunks file short
  obtain ⟨n, runs⟩ := chunks.run short
  have loops : (Prog.loop (chunkTurn file.bytes) WavVars.start).run n [] = .ok (varsOf file) [] := runs n 0
  have inside := data_inside file
  have sum : InInt32 ((varsOf file).dataOff + (varsOf file).dataSize) := by
    show InInt32 ((dataAt file + 8 : Int) + file.data.length)
    unfold InInt32
    omega
  have bytes := file_bytes file short
  refine ⟨n, ?_⟩
  rw [run_decodeWav (file_riff file), Prog.run_bind_ok loops,
    run_decodeData_playable (file_ready file short) short sum (file_playable file), bytes, if_pos room, file_decoded,
    file_frames, toInt32_of_lt rate, decodedSound]
  rfl

/-- A stereo file of one frame at 24 bits, with an odd chunk before the data. -/
def stereoFile : WavFile where
  sound := ⟨2, .bits24, 44100, [[256, -1]], .inr rfl, by decide, by decide, by decide⟩
  riffSize := toLe 4 60
  before := []
  derived := [0, 0, 0, 0, 6, 0]
  extra := []
  pad := 0
  between := [⟨ascii "LIST", [1, 2, 3], 0, by decide⟩]
  tail := []
  size_four := by decide
  derived_six := by decide
  others_before := by simp
  others_between := by
    intro c mem
    rw [List.mem_singleton.1 mem]
    exact ⟨by decide, by decide⟩

theorem decode_encoded_stereo : ∃ fuel, (decodeWav (fun _ => true) stereoFile.bytes).run fuel [] =
    .ok ⟨[1, -1], 1, 2, 44100⟩ [1] :=
  decode_encoded (fun _ => true) stereoFile (by decide) (by decide) rfl

/-- An empty file with a rate of 2^31 Hz. -/
def fastFile : WavFile where
  sound := ⟨1, .bits8, 2147483648, [], .inl rfl, by decide, by decide, by decide⟩
  riffSize := toLe 4 36
  before := []
  derived := [0, 0, 0, 0, 1, 0]
  extra := []
  pad := 0
  between := []
  tail := []
  size_four := by decide
  derived_six := by decide
  others_before := by simp
  others_between := by simp

/-- A rate that is no `int` comes back negative. -/
theorem fast_rate_negative : fastFile.bytes.length = 44 ∧ fastFile.sound.rate = 2147483648 ∧
    (decodeWav (fun _ => true) fastFile.bytes).run 2 [] = .ok ⟨[], 0, 1, -2147483648⟩ [0] :=
  ⟨by decide, rfl, rfl⟩

end CanBoot.Cando.Wav
