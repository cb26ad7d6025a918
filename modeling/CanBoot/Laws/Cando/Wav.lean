import CanBoot.Cando.Wav

/-!
# WAV files from anywhere

The cursor of `decode_wav` moves by sizes that the file declares, as `int`s: it can move backwards, leave the file at
its start, come back to where it was, or overflow. `Chunks` says that from some place on none of this happens, and
where the loop then stops; decoding is safe exactly if the chunks are of this kind from the first on and the data
chunk's size makes sense (`wav_safe_iff`).
-/

namespace CanBoot.Cando.Wav

open Lib Lib.Prog List

/-! ## Reads -/

variable {buf : Bytes} {pos : Int} {n fuel : Nat} {s : Asked}

theorem run_slice (low : 0 ≤ pos) (high : pos + n ≤ buf.length) :
    (slice buf pos n).run fuel s = .ok ((buf.drop pos.toNat).take n) s := by
  rw [slice, bind_defined_true (decide_eq_true ⟨low, high⟩), run_pure]

theorem run_slice_out (out : pos < 0) : (slice buf pos n).run fuel s = .trap := by
  rw [slice, bind_defined_false (decide_eq_false (by omega))]

/-- The number in the `n` bytes at `pos`. -/
def leAt (buf : List UInt8) (pos : Int) (n : Nat) : Nat := fromLe ((buf.drop pos.toNat).take n)

theorem run_read16Le (low : 0 ≤ pos) (high : pos + 2 ≤ buf.length) :
    (read16Le buf pos).run fuel s = .ok (leAt buf pos 2) s := by
  rw [read16Le, run_bind_ok (run_slice low high), run_pure, leAt]

theorem run_read32Le (low : 0 ≤ pos) (high : pos + 4 ≤ buf.length) :
    (read32Le buf pos).run fuel s = .ok (leAt buf pos 4) s := by
  rw [read32Le, run_bind_ok (run_slice low high), run_pure, leAt]

/-! ## Chunks -/

/-- A chunk's tag and declared size. -/
def tagAt (buf : List UInt8) (pos : Int) : List UInt8 := (buf.drop pos.toNat).take 4

def sizeAt (buf : List UInt8) (pos : Int) : Nat := leAt buf (pos + 4) 4

/-- A chunk's header is in the file. -/
def Inside (buf : List UInt8) (pos : Int) : Prop := 0 ≤ pos ∧ pos + 8 ≤ buf.length

theorem run_tag (here : Inside buf pos) : (slice buf pos 4).run fuel s = .ok (tagAt buf pos) s :=
  run_slice here.1 (by have := here.2; omega)

theorem run_size (here : Inside buf pos) : (read32Le buf (pos + 4)).run fuel s = .ok (sizeAt buf pos) s := by
  obtain ⟨low, high⟩ := here
  exact run_read32Le (by omega) (by omega)

/-- Where the next chunk is looked for. -/
def skipTo (pos : Int) (sz : Nat) : Int := pos + toInt32 sz + if sz &&& 1 ≠ 0 then 1 else 0

/-- The way there does not overflow. -/
def Skips (pos : Int) (sz : Nat) : Prop := InInt32 (pos + toInt32 sz) ∧ InInt32 (skipTo pos sz)

theorem run_skip {sz : Nat} (skips : Skips pos sz) : (skip pos sz).run fuel s = .ok (skipTo pos sz) s := by
  obtain ⟨first, second⟩ := skips
  rw [skip, run_bind_ok (run_int32 first _ _)]
  unfold skipTo at *
  split
  next odd =>
    rw [if_pos odd] at second
    exact run_int32 second _ _
  next even =>
    rw [Int.add_zero]
    rfl

theorem run_skip_out {sz : Nat} (fails : ¬ Skips pos sz) : (skip pos sz).run fuel s = .trap := by
  rw [skip]
  by_cases first : InInt32 (pos + toInt32 sz)
  · rw [run_bind_ok (run_int32 first _ _)]
    have second : ¬ InInt32 (skipTo pos sz) := fun inside => fails ⟨first, inside⟩
    unfold skipTo at second
    split
    next odd =>
      rw [if_pos odd] at second
      exact run_int32_out second _ _
    next even =>
      rw [if_neg even, Int.add_zero] at second
      exact absurd first second
  · rw [run_bind_trap (run_int32_out first _ _)]

/-- The variables behind a chunk that is not the data. -/
def WavVars.after (buf : List UInt8) (v : WavVars) : WavVars :=
  if tagAt buf v.pos = ascii "fmt " then
    ⟨skipTo (v.pos + 8) (sizeAt buf v.pos), v.pos + 8, toInt32 (sizeAt buf v.pos), v.dataOff, v.dataSize⟩
  else { v with pos := skipTo (v.pos + 8) (sizeAt buf v.pos) }

/-- The variables at the data. -/
def WavVars.found (buf : List UInt8) (v : WavVars) : WavVars :=
  ⟨v.pos + 8, v.fmtOff, v.fmtSize, v.pos + 8, toInt32 (sizeAt buf v.pos)⟩

variable {v w : WavVars}

theorem run_chunkTurn_past (reach : InInt32 (v.pos + 8)) (out : buf.length < v.pos + 8) :
    (chunkTurn buf v).run fuel s = .ok (.inr v) s := by
  rw [chunkTurn, run_bind_ok (run_int32 reach _ _), if_neg (by omega), run_pure]

section

variable (short : buf.length < 2147483648) (here : Inside buf v.pos)

include short here

/-- A turn that finds a header. -/
theorem run_chunkTurn : (chunkTurn buf v).run fuel s =
      (chunkBody v (v.pos + 8) (tagAt buf v.pos) (sizeAt buf v.pos)).run fuel s := by
  have reach : InInt32 (v.pos + 8) := by
    obtain ⟨low, high⟩ := here
    unfold InInt32
    omega
  rw [chunkTurn, run_bind_ok (run_int32 reach _ _), if_pos here.2, run_bind_ok (run_tag here),
    run_bind_ok (run_size here)]

theorem run_chunkTurn_data (tag : tagAt buf v.pos = ascii "data") : (chunkTurn buf v).run fuel s = .ok (.inr (v.found buf)) s := by
  rw [run_chunkTurn short here, tag, chunkBody, if_neg (by decide), if_pos rfl, run_pure, WavVars.found]

theorem run_chunkTurn_next (tag : tagAt buf v.pos ≠ ascii "data") (skips : Skips (v.pos + 8) (sizeAt buf v.pos)) :
    (chunkTurn buf v).run fuel s = .ok (.inl (v.after buf)) s := by
  rw [run_chunkTurn short here, chunkBody, WavVars.after]
  by_cases format : tagAt buf v.pos = ascii "fmt "
  · rw [if_pos format, if_pos format, run_bind_ok (run_skip skips), run_pure]
  · rw [if_neg format, if_neg format, if_neg tag, run_bind_ok (run_skip skips), run_pure]

theorem run_chunkTurn_overflows (tag : tagAt buf v.pos ≠ ascii "data") (fails : ¬ Skips (v.pos + 8) (sizeAt buf v.pos)) :
    (chunkTurn buf v).run fuel s = .trap := by
  rw [run_chunkTurn short here, chunkBody]
  by_cases format : tagAt buf v.pos = ascii "fmt "
  · rw [if_pos format, run_bind_trap (run_skip_out fails)]
  · rw [if_neg format, if_neg tag, run_bind_trap (run_skip_out fails)]

end

theorem run_chunkTurn_unreached (far : ¬ InInt32 (v.pos + 8)) : (chunkTurn buf v).run fuel s = .trap := by
  rw [chunkTurn, run_bind_trap (run_int32_out far _ _)]

theorem run_chunkTurn_negative (reach : InInt32 (v.pos + 8)) (high : v.pos + 8 ≤ buf.length) (low : v.pos < 0) :
    (chunkTurn buf v).run fuel s = .trap := by
  rw [chunkTurn, run_bind_ok (run_int32 reach _ _), if_pos high, run_bind_trap (run_slice_out low)]

/-- **The chunks from `v` on are well placed**: each header lies in the file, no sum overflows, and after finitely many
of them the loop stops with `w`, at the data or behind the end. -/
inductive Chunks (buf : List UInt8) : WavVars → WavVars → Prop
  | past {v : WavVars} (reach : InInt32 (v.pos + 8)) (out : buf.length < v.pos + 8) : Chunks buf v v
  | data {v : WavVars} (here : Inside buf v.pos) (tag : tagAt buf v.pos = ascii "data") : Chunks buf v (v.found buf)
  | next {v w : WavVars} (here : Inside buf v.pos) (tag : tagAt buf v.pos ≠ ascii "data")
    (skips : Skips (v.pos + 8) (sizeAt buf v.pos)) (rest : Chunks buf (v.after buf) w) : Chunks buf v w

/-- The loop comes to the end of well placed chunks. -/
theorem Chunks.run (short : buf.length < 2147483648) (chunks : Chunks buf v w) :
    ∃ n, ∀ fuel more, (loopN (chunkTurn buf) (n + more) v).run fuel s = .ok w s := by
  induction chunks with
  | past reach out =>
    refine ⟨1, fun fuel more => ?_⟩
    rw [Nat.add_comm]
    exact run_loopN_exit (run_chunkTurn_past reach out) more
  | data here tag =>
    refine ⟨1, fun fuel more => ?_⟩
    rw [Nat.add_comm]
    exact run_loopN_exit (run_chunkTurn_data short here tag) more
  | next here tag skips rest ih =>
    obtain ⟨n, runs⟩ := ih
    refine ⟨n + 1, fun fuel more => ?_⟩
    rw [Nat.add_right_comm, run_loopN_next (run_chunkTurn_next short here tag skips)]
    exact runs fuel more

/-- A loop that stops has met well placed chunks only; any other loop traps or goes on. -/
theorem chunks_of_run (short : buf.length < 2147483648) (fuel : Nat) (s : Asked) : ∀ (n : Nat) (v : WavVars),
    (loopN (chunkTurn buf) n v).run fuel s = .spin ∨ (loopN (chunkTurn buf) n v).run fuel s = .trap ∨
      ∃ w, Chunks buf v w ∧ (loopN (chunkTurn buf) n v).run fuel s = .ok w s
  | 0, _ => .inl rfl
  | n + 1, v => by
    by_cases reach : InInt32 (v.pos + 8)
    · by_cases out : buf.length < v.pos + 8
      · exact .inr (.inr ⟨v, .past reach out, run_loopN_exit (run_chunkTurn_past reach out) n⟩)
      · by_cases low : v.pos < 0
        · exact .inr (.inl (run_bind_trap (run_chunkTurn_negative reach (by omega) low) _))
        · have here : Inside buf v.pos := ⟨by omega, by omega⟩
          by_cases tag : tagAt buf v.pos = ascii "data"
          · exact .inr (.inr ⟨_, .data here tag, run_loopN_exit (run_chunkTurn_data short here tag) n⟩)
          · by_cases skips : Skips (v.pos + 8) (sizeAt buf v.pos)
            · rw [run_loopN_next (run_chunkTurn_next short here tag skips)]
              rcases chunks_of_run short fuel s n (v.after buf) with spins | traps | ⟨w, rest, runs⟩
              · exact .inl spins
              · exact .inr (.inl traps)
              · exact .inr (.inr ⟨w, .next here tag skips rest, runs⟩)
            · exact .inr (.inl (run_bind_trap (run_chunkTurn_overflows short here tag skips) _))
    · exact .inr (.inl (run_bind_trap (run_chunkTurn_unreached reach) _))

/-! ## What the loop leaves -/

/-- `decode_wav` gives up behind the loop. -/
def WavVars.Rejected (v : WavVars) : Prop := v.fmtOff < 0 ∨ v.dataOff < 0 ∨ v.fmtSize < 16

instance (v : WavVars) : Decidable v.Rejected := inferInstanceAs (Decidable (_ ∨ _))

/-- The sixteen bytes of the format lie in the file, and the data starts in it. -/
structure Ready (buf : List UInt8) (v : WavVars) : Prop where
  formatLow : 0 ≤ v.fmtOff
  formatHigh : v.fmtOff + 16 ≤ buf.length
  formatSize : 16 ≤ v.fmtSize
  dataLow : 0 ≤ v.dataOff
  dataHigh : v.dataOff ≤ buf.length
  dataSize : InInt32 v.dataSize

/-- A format chunk of full size lies behind the cursor, or is known to lie in the file. -/
def FormatRoom (buf : List UInt8) (v : WavVars) : Prop :=
  0 ≤ v.fmtOff → 16 ≤ v.fmtSize → v.fmtOff + 16 ≤ v.pos ∨ v.fmtOff + 16 ≤ buf.length

theorem sizeAt_lt (buf : Bytes) (pos : Int) : sizeAt buf pos < 4294967296 := by
  have bound := fromLe_lt ((buf.drop (pos + 4).toNat).take 4)
  have four : ((buf.drop (pos + 4).toNat).take 4).length ≤ 4 := by
    rw [length_take]
    omega
  exact Nat.lt_of_lt_of_le bound (Nat.pow_le_pow_right (by decide) four)

theorem inInt32_toInt32 {n : Nat} (word : n < 4294967296) : InInt32 (toInt32 n) := by
  unfold InInt32 toInt32
  split <;> omega

theorem FormatRoom.after (here : Inside buf v.pos) (room : FormatRoom buf v) : FormatRoom buf (v.after buf) := by
  obtain ⟨low, high⟩ := here
  by_cases format : tagAt buf v.pos = ascii "fmt "
  · rw [WavVars.after, if_pos format]
    intro (known : 0 ≤ v.pos + 8) (whole : 16 ≤ toInt32 (sizeAt buf v.pos))
    left
    show v.pos + 8 + 16 ≤ skipTo (v.pos + 8) (sizeAt buf v.pos)
    unfold skipTo
    split <;> omega
  · rw [WavVars.after, if_neg format]
    intro (known : 0 ≤ v.fmtOff) (whole : 16 ≤ v.fmtSize)
    right
    show v.fmtOff + 16 ≤ buf.length
    have kept := room known whole
    omega

theorem WavVars.dataOff_after (v : WavVars) : (v.after buf).dataOff = v.dataOff := by
  unfold WavVars.after
  split <;> rfl

/-- What is not rejected behind the chunks is ready to be decoded. The cursor may have gone back behind the format
chunk, but only past a header that lies behind it. -/
theorem Chunks.ready (chunks : Chunks buf v w) (room : FormatRoom buf v) (none : v.dataOff < 0)
    (kept : ¬ w.Rejected) : Ready buf w := by
  induction chunks with
  | past reach out => exact absurd (.inr (.inl none)) kept
  | @data v here tag =>
    obtain ⟨low, high⟩ := here
    have fields : ¬ (v.fmtOff < 0 ∨ v.pos + 8 < 0 ∨ v.fmtSize < 16) := kept
    have known : 0 ≤ v.fmtOff := by omega
    have whole : 16 ≤ v.fmtSize := by omega
    have inside : v.fmtOff + 16 ≤ buf.length := by
      have := room known whole
      omega
    have behind : 0 ≤ v.pos + 8 := by omega
    exact ⟨known, inside, whole, behind, high, inInt32_toInt32 (sizeAt_lt _ _)⟩
  | @next v w here tag skips rest ih => exact ih (room.after here) (by rw [v.dataOff_after]; exact none) kept

/-! ## The data -/

/-- The size of the data that lies in the file. -/
def clipped (buf : List UInt8) (v : WavVars) : Int :=
  if v.dataOff + v.dataSize > buf.length then buf.length - v.dataOff else v.dataSize

/-- The fields of the format. -/
def channelsOf (buf : List UInt8) (v : WavVars) : Nat := leAt buf (v.fmtOff + 2) 2

def rateOf (buf : List UInt8) (v : WavVars) : Nat := leAt buf (v.fmtOff + 4) 4

def bpsOf (buf : List UInt8) (v : WavVars) : Nat := leAt buf (v.fmtOff + 14) 2

/-- PCM of one or two channels at 8, 16 or 24 bits. -/
structure Playable (buf : List UInt8) (v : WavVars) : Prop where
  format : leAt buf v.fmtOff 2 = 1
  channels : channelsOf buf v = 1 ∨ channelsOf buf v = 2
  bps : bpsOf buf v = 8 ∨ bpsOf buf v = 16 ∨ bpsOf buf v = 24

/-- The frames asked for. -/
def framesOf (buf : List UInt8) (v : WavVars) : Int :=
  (clipped buf v).tdiv (channelsOf buf v * (bpsOf buf v / 8) : Nat)

/-- The bytes asked for. -/
def bytesOf (buf : List UInt8) (v : WavVars) : Nat :=
  (framesOf buf v * channelsOf buf v * 2 % 18446744073709551616).toNat

/-- The samples from `src` on. -/
def samplesAt (buf : List UInt8) (bps : Nat) : Int → Nat → List Int
  | _, 0 => []
  | src, n + 1 =>
    clamp (sample bps ((buf.drop src.toNat).take (bps / 8))) :: samplesAt buf bps (src + (bps / 8 : Nat)) n

/-- The loop over `n` samples reads and writes in bounds if the samples lie in the file and the buffer holds them. -/
theorem run_samples {bps size : Nat} : ∀ (n i : Nat) (src : Int) (pcm : List Int), 0 ≤ src →
    src + n * (bps / 8 : Nat) ≤ buf.length → 2 * (i + n) ≤ size →
      (forAcc (sampleTurn buf bps size) (range' i n) (src, pcm)).run fuel s =
        .ok (src + n * (bps / 8 : Nat), pcm ++ samplesAt buf bps src n) s
  | 0, i, src, pcm, _, _, _ => by
    rw [range'_zero, forAcc, run_pure, samplesAt, append_nil, Int.natCast_zero, Int.zero_mul,
      Int.add_zero]
  | n + 1, i, src, pcm, low, high, fits => by
    have split : src + (n + 1 : Nat) * (bps / 8 : Nat) = src + (bps / 8 : Nat) + n * (bps / 8 : Nat) := by
      rw [Int.natCast_add, Int.add_mul, Int.natCast_one, Int.one_mul]
      omega
    have rest : (0 : Int) ≤ n * (bps / 8 : Nat) := Int.mul_nonneg (by omega) (by omega)
    have turn : (sampleTurn buf bps size i (src, pcm)).run fuel s =
        .ok (src + (bps / 8 : Nat), pcm ++ [clamp (sample bps ((buf.drop src.toNat).take (bps / 8)))]) s := by
      rw [sampleTurn, run_bind_ok (run_slice low (by omega)), bind_defined_true (decide_eq_true (by omega)), run_pure]
    rw [range'_succ, forAcc, run_bind_ok turn,
      run_samples n (i + 1) _ _ (by omega) (by omega) (by omega), samplesAt, append_assoc, split]
    rfl

/-- C's quotient lies between zero and the dividend. -/
theorem tdiv_between (a : Int) (k : Nat) :
    (0 ≤ a → 0 ≤ a.tdiv k * k ∧ a.tdiv k * k ≤ a) ∧ (a ≤ 0 → a ≤ a.tdiv k * k ∧ a.tdiv k * k ≤ 0) := by
  have whole := Int.mul_tdiv_add_tmod a k
  rw [Int.mul_comm] at whole
  have size : (a.tmod k).natAbs ≤ a.natAbs := by
    rw [Int.natAbs_tmod]
    exact Nat.mod_le _ _
  constructor
  · intro up
    have sign := Int.tmod_nonneg (k : Int) up
    omega
  · intro down
    have sign := Int.tmod_nonneg (k : Int) (Int.neg_nonneg_of_nonpos down)
    rw [Int.neg_tmod] at sign
    omega

theorem run_clip (ready : Ready buf v) (short : buf.length < 2147483648) (sum : InInt32 (v.dataOff + v.dataSize)) :
    (clip buf v.dataOff v.dataSize).run fuel s = .ok (clipped buf v) s := by
  rw [clip, run_bind_ok (run_int32 sum _ _), clipped]
  have rest : InInt32 (buf.length - v.dataOff) := by
    have := ready.dataLow
    have := ready.dataHigh
    unfold InInt32
    omega
  split
  · exact run_int32 rest _ _
  · rfl

/-! ## Behind the loop -/

variable {malloc : Nat → Bool}

theorem run_decodeData_rejected (bad : v.Rejected) : (decodeData malloc buf v).run fuel s = .err s := by
  have fields : ¬ ¬ (v.fmtOff < 0 ∨ v.dataOff < 0 ∨ v.fmtSize < 16) := not_not_intro bad
  rw [decodeData, bind_require_false (decide_eq_false fields)]

theorem run_decodeData_overflows (kept : ¬ v.Rejected) (out : ¬ InInt32 (v.dataOff + v.dataSize)) :
    (decodeData malloc buf v).run fuel s = .trap := by
  have traps : (clip buf v.dataOff v.dataSize).run fuel s = .trap := by
    rw [clip, run_bind_trap (run_int32_out out _ _)]
  have fields : ¬ (v.fmtOff < 0 ∨ v.dataOff < 0 ∨ v.fmtSize < 16) := kept
  rw [decodeData, bind_require_true (decide_eq_true fields), run_bind_trap traps]

theorem run_decodeData (ready : Ready buf v) (short : buf.length < 2147483648) (sum : InInt32 (v.dataOff + v.dataSize)) :
    (decodeData malloc buf v).run fuel s =
      (decodePcm malloc buf v.dataOff (clipped buf v) (leAt buf v.fmtOff 2) (channelsOf buf v) (rateOf buf v)
        (bpsOf buf v)).run fuel s := by
  have low := ready.formatLow
  have high := ready.formatHigh
  have fields : ¬ (v.fmtOff < 0 ∨ v.dataOff < 0 ∨ v.fmtSize < 16) := by
    have := ready.formatSize
    have := ready.dataLow
    omega
  rw [decodeData, bind_require_true (decide_eq_true fields),
    run_bind_ok (run_clip ready short sum), run_bind_ok (run_read16Le low (by omega)),
    run_bind_ok (run_read16Le (by omega) (by omega)), run_bind_ok (run_read32Le (by omega) (by omega)),
    run_bind_ok (run_read16Le (by omega) (by omega)), channelsOf, rateOf, bpsOf]

theorem run_decodeData_unplayable (ready : Ready buf v) (short : buf.length < 2147483648)
    (sum : InInt32 (v.dataOff + v.dataSize)) (bad : ¬ Playable buf v) :
    (decodeData malloc buf v).run fuel s = .err s := by
  rw [run_decodeData ready short sum, decodePcm]
  by_cases format : leAt buf v.fmtOff 2 = 1
  · rw [bind_require_true (decide_eq_true format)]
    by_cases channels : channelsOf buf v = 1 ∨ channelsOf buf v = 2
    · rw [bind_require_true (decide_eq_true channels)]
      have bps : ¬ (bpsOf buf v = 8 ∨ bpsOf buf v = 16 ∨ bpsOf buf v = 24) := fun bps => bad ⟨format, channels, bps⟩
      rw [bind_require_false (decide_eq_false bps)]
    · rw [bind_require_false (decide_eq_false channels)]
  · rw [bind_require_false (decide_eq_false format)]

/-- What a playable file decodes to. -/
def decodedOf (buf : List UInt8) (v : WavVars) : Decoded :=
  ⟨samplesAt buf (bpsOf buf v) v.dataOff (framesOf buf v * channelsOf buf v).toNat, framesOf buf v, channelsOf buf v,
    toInt32 (rateOf buf v)⟩

/-- The size of the data, and of its frames, in bytes. -/
theorem frames_between (ready : Ready buf v) : (0 ≤ framesOf buf v * channelsOf buf v * (bpsOf buf v / 8 : Nat) →
      v.dataOff + framesOf buf v * channelsOf buf v * (bpsOf buf v / 8 : Nat) ≤ buf.length) ∧
    -2147483648 ≤ framesOf buf v * channelsOf buf v * (bpsOf buf v / 8 : Nat) := by
  have between := tdiv_between (clipped buf v) (channelsOf buf v * (bpsOf buf v / 8))
  rw [← framesOf, Int.natCast_mul, ← Int.mul_assoc] at between
  obtain ⟨-, -, -, low, high, ⟨size, -⟩⟩ := ready
  have bound : v.dataOff + clipped buf v ≤ buf.length := by
    unfold clipped
    split <;> omega
  have least : -2147483648 ≤ clipped buf v := by
    unfold clipped
    split <;> omega
  omega

/-- A playable file asks for its frames once, and is decoded if it gets them. -/
theorem run_decodeData_playable (ready : Ready buf v) (short : buf.length < 2147483648)
    (sum : InInt32 (v.dataOff + v.dataSize)) (good : Playable buf v) :
    (decodeData malloc buf v).run fuel s = if malloc (bytesOf buf v) then .ok (decodedOf buf v) (s ++ [framesOf buf v])
      else .err (s ++ [framesOf buf v]) := by
  obtain ⟨format, channels, bps⟩ := good
  obtain ⟨high, low⟩ := frames_between ready
  have width : bpsOf buf v / 8 = 1 ∨ bpsOf buf v / 8 = 2 ∨ bpsOf buf v / 8 = 3 := by omega
  have count : InInt32 (framesOf buf v * channelsOf buf v) := by
    unfold InInt32
    have := ready.dataLow
    rcases width with width | width | width <;> rw [width] at high low <;> omega
  have room : (framesOf buf v * channelsOf buf v).toNat * 2 ≤ bytesOf buf v := by
    unfold InInt32 at count
    unfold bytesOf
    omega
  rw [run_decodeData ready short sum, decodePcm, bind_require_true (decide_eq_true format),
    bind_require_true (decide_eq_true channels), bind_require_true (decide_eq_true bps), ← framesOf, decodeFrames]
  have asks : (allocate malloc (framesOf buf v) (channelsOf buf v)).run fuel s =
      if malloc (bytesOf buf v) then .ok (bytesOf buf v) (s ++ [framesOf buf v])
      else .err (s ++ [framesOf buf v]) := by
    rw [allocate, run_bind_ok (run_modify _ _ _), ← bytesOf]
    split
    next got => rw [bind_require_true got, run_pure]
    next refused => rw [bind_require_false (Bool.eq_false_iff.2 refused)]
  split at asks
  next got =>
    rw [if_pos got]
    have inside : v.dataOff + (framesOf buf v * channelsOf buf v).toNat * (bpsOf buf v / 8 : Nat) ≤ buf.length := by
      have := ready.dataHigh
      rcases width with width | width | width <;> rw [width] at high ⊢ <;> omega
    rw [run_bind_ok asks, run_bind_ok (run_int32 count _ _), range_eq_range',
      run_bind_ok (run_samples _ 0 _ [] ready.dataLow inside (by omega)), decodedOf]
    rfl
  next refused =>
    rw [if_neg refused]
    exact run_bind_err asks _

/-! ## Any file -/

/-- `decode_wav` returns, without undefined behaviour, and has asked for no negative number of frames. -/
def Behaves : Outcome Asked Decoded → Prop
  | .ok _ asked => ∀ frames ∈ asked, 0 ≤ frames
  | .err asked => ∀ frames ∈ asked, 0 ≤ frames
  | .spin => False
  | .trap => False

def WavSafe (malloc : Nat → Bool) (buf : List UInt8) : Prop :=
  ∃ fuel, Behaves ((decodeWav malloc buf).run fuel [])

/-- What the loop leaves is rejected; or the end of the data does not overflow, and does not lie a frame or more before
its start if the format is one that is played. -/
def SafeEnd (buf : List UInt8) (v : WavVars) : Prop :=
  v.Rejected ∨ InInt32 (v.dataOff + v.dataSize) ∧ (Playable buf v → 0 ≤ framesOf buf v)

/-- The file starts as a WAV file. -/
def Riff (buf : List UInt8) : Prop :=
  44 ≤ buf.length ∧ buf.take 4 = ascii "RIFF" ∧ (buf.drop 8).take 4 = ascii "WAVE"

theorem behaves_decodeData_iff (short : buf.length < 2147483648) (prepared : ¬ v.Rejected → Ready buf v) :
    Behaves ((decodeData malloc buf v).run fuel []) ↔ SafeEnd buf v := by
  by_cases bad : v.Rejected
  · rw [run_decodeData_rejected bad]
    exact iff_of_true (fun _ mem => absurd mem not_mem_nil) (.inl bad)
  · have ready := prepared bad
    by_cases sum : InInt32 (v.dataOff + v.dataSize)
    · by_cases good : Playable buf v
      · have asked : (∀ frames ∈ [] ++ [framesOf buf v], 0 ≤ frames) ↔ SafeEnd buf v := by
          simp only [nil_append, mem_singleton, forall_eq, SafeEnd, bad, sum, good, false_or, true_and,
            true_imp_iff]
        rw [run_decodeData_playable ready short sum good]
        split
        · exact asked
        · exact asked
      · rw [run_decodeData_unplayable ready short sum good]
        exact iff_of_true (fun _ mem => absurd mem not_mem_nil) (.inr ⟨sum, fun other => absurd other good⟩)
    · rw [run_decodeData_overflows bad sum]
      refine iff_of_false id ?_
      rintro (rejected | ⟨inside, -⟩)
      · exact bad rejected
      · exact sum inside

theorem run_decodeWav_other (other : ¬ Riff buf) : (decodeWav malloc buf).run fuel s = .err s := by
  by_cases long : 44 ≤ buf.length
  · have tags : ¬ (buf.take 4 = ascii "RIFF" ∧ (buf.drop 8).take 4 = ascii "WAVE") := fun tags => other ⟨long, tags⟩
    rw [decodeWav, bind_require_true (decide_eq_true long), bind_require_false (decide_eq_false tags)]
  · rw [decodeWav, bind_require_false (decide_eq_false long)]

theorem run_decodeWav (riff : Riff buf) : (decodeWav malloc buf).run fuel s =
      (loop (chunkTurn buf) WavVars.start >>= decodeData malloc buf).run fuel s := by
  rw [decodeWav, bind_require_true (decide_eq_true riff.1), bind_require_true (decide_eq_true riff.2)]

theorem Chunks.prepared (chunks : Chunks buf .start w) : ¬ w.Rejected → Ready buf w :=
  chunks.ready (fun known => absurd known (by decide)) (by decide)

/-- **Decoding is safe exactly on files whose chunks are well placed and whose data does not end before it starts.** -/
theorem wav_safe_iff (malloc : Nat → Bool) (buf : List UInt8) (short : buf.length < 2147483648) :
    WavSafe malloc buf ↔ (Riff buf → ∃ w, Chunks buf .start w ∧ SafeEnd buf w) := by
  by_cases riff : Riff buf
  · constructor
    · rintro ⟨fuel, behaves⟩ -
      rw [run_decodeWav riff, run_bind, run_loop] at behaves
      rcases chunks_of_run short fuel [] fuel .start with spins | traps | ⟨w, chunks, runs⟩
      · rw [spins] at behaves
        exact behaves.elim
      · rw [traps] at behaves
        exact behaves.elim
      · rw [runs] at behaves
        exact ⟨w, chunks, (behaves_decodeData_iff short chunks.prepared).1 behaves⟩
    · intro ends
      obtain ⟨w, chunks, safe⟩ := ends riff
      obtain ⟨n, runs⟩ := chunks.run short
      refine ⟨n, ?_⟩
      have loops : (loop (chunkTurn buf) WavVars.start).run n [] = .ok w [] := runs n 0
      rw [run_decodeWav riff, run_bind_ok loops]
      exact (behaves_decodeData_iff short chunks.prepared).2 safe
  · refine iff_of_true ⟨0, ?_⟩ fun here => absurd here riff
    rw [run_decodeWav_other riff]
    exact fun _ mem => absurd mem not_mem_nil

/-- A file of two samples. -/
def twoSamples : List UInt8 :=
  ascii "RIFF" ++ toLe 4 40 ++ ascii "WAVE" ++ ascii "fmt " ++ toLe 4 16 ++ toLe 2 1 ++ toLe 2 1 ++ toLe 4 44100 ++
    toLe 4 88200 ++ toLe 2 2 ++ toLe 2 16 ++ ascii "data" ++ toLe 4 4 ++ toLe 2 1 ++ toLe 2 65535

theorem wav_safe_two_samples : WavSafe (fun _ => true) twoSamples := by
  refine (wav_safe_iff (fun _ => true) twoSamples (by decide)).2 fun _ => ⟨_, .next ?_ ?_ ?_ (.data ?_ ?_), .inr ?_⟩
  · unfold Inside; decide
  · decide
  · unfold Skips; decide
  · unfold Inside; decide
  · decide
  · exact ⟨by decide, fun _ => by decide⟩

/-- A file of one chunk that is skipped by `-8`. -/
def endless : List UInt8 :=
  ascii "RIFF" ++ toLe 4 36 ++ ascii "WAVE" ++ ascii "junk" ++ toLe 4 0xFFFFFFF8 ++ List.replicate 24 0

theorem endless_after : WavVars.start.after endless = .start := by decide

/-- A chunk of size `0xFFFFFFF8` leads back to itself: `decode_wav` never returns from these 44 bytes. -/
theorem wav_endless : endless.length = 44 ∧ ∀ malloc fuel, (decodeWav malloc endless).run fuel [] = .spin := by
  refine ⟨by decide, fun malloc fuel => ?_⟩
  have riff : Riff endless := by unfold Riff; decide
  have round : ∀ v s, v = WavVars.start →
      ∃ w t, (chunkTurn endless v).run fuel s = .ok (.inl w) t ∧ w = WavVars.start := by
    rintro v s rfl
    refine ⟨_, s, run_chunkTurn_next (by decide) ?_ (by decide) ?_, endless_after⟩
    · unfold Inside; decide
    · unfold Skips; decide
  rw [run_decodeWav riff, run_bind, run_loop, run_loopN_spin round fuel _ [] rfl]

end CanBoot.Cando.Wav
