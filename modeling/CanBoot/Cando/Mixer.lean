import CanBoot.Lib.Prog
import CanBoot.Lib.Words

/-!
# The mixer (`canboot_audio_pump` in `cando_port/lib/audio.c`)

The mixer's state is `g_sources` and, for the sound card's side, the calls of `hal_audio_write` so far with what each
was offered and how much of it was accepted; the card decides that from the past and from what it is offered. A
frame is a sample on the left and one on the right. A source's volume stands as the integer that `volume` and
`g_master_volume` give, before it is clamped. The sums of the samples stay far inside `int32_t` (a source adds at most
32768 to either side), so that integers stand for them; reads outside a source's buffer are undefined.
-/

namespace CanBoot.Cando.Mixer

open Lib

structure Frame where
  left : Int
  right : Int
deriving DecidableEq, Repr

def Frame.silence : Frame := ⟨0, 0⟩

/-- `struct audio_source`. -/
structure Source where
  inUse : Bool
  playing : Bool
  paused : Bool
  looping : Bool
  pcm : List Int
  frames : Nat
  pos : Nat
  -- `(int)(s->volume * g_master_volume * 32768.0f + 0.5f)`
  volume : Int
deriving DecidableEq, Repr

/-- A call of `hal_audio_write`: the frames offered, and how many of them were accepted. -/
structure Write where
  offered : List Frame
  taken : Nat
  within : taken ≤ offered.length
deriving DecidableEq, Repr

/-- A sound card. `accepts` is what `hal_audio_write` returns, by the calls before and the frames offered. -/
structure Hal where
  present : Bool
  accepts : List Write → List Frame → Nat
  at_most : ∀ past frames, accepts past frames ≤ frames.length

structure State where
  sources : List Source
  log : List Write
deriving DecidableEq, Repr

/-- `MIX_CHUNK_FRAMES`. -/
def mixChunkFrames : Nat := 2048

def Source.active (s : Source) : Bool := s.inUse && s.playing && !s.paused

/-- `vol_q15`. -/
def Source.volQ15 (s : Source) : Int :=
  let vol := if s.volume < 0 then 0 else s.volume
  if vol > 32768 then 32768 else vol

/-- `((int32_t)l * vol_q15) >> 15`. -/
def scale (sample vol : Int) : Int := sample * vol / 32768

/-- `s->pcm[i]`. -/
def Source.pcmAt (s : Source) (i : Nat) : Prog State Int := do
  Prog.defined (i < s.pcm.length)
  return s.pcm.getD i 0

/-- A round of the loop over a source's frames that finds one: `cell` is the frame of `mixbuf`. -/
def mixFrame (vol : Int) (s : Source) (cell : Frame) : Prog State (Source × Frame) := do
  let l ← s.pcmAt (u32 (s.pos * 2 + 0))
  let r ← s.pcmAt (u32 (s.pos * 2 + 1))
  return ({ s with pos := u32 (s.pos + 1) }, ⟨cell.left + scale l vol, cell.right + scale r vol⟩)

/-- The loop over a source's frames; the list is `mixbuf` from the current frame on. -/
def mixSource (vol : Int) : Source → List Frame → Prog State (Source × List Frame)
  | s, [] => pure (s, [])
  | s, cell :: cells =>
    if s.pos ≥ s.frames ∧ ¬ s.looping then pure ({ s with playing := false }, cell :: cells)
    else do
      let (s, mixed) ← mixFrame vol (if s.pos ≥ s.frames then { s with pos := 0 } else s) cell
      let (s, rest) ← mixSource vol s cells
      return (s, mixed :: rest)

/-- The loop over the sources. -/
def mixAll : List Source → List Frame → Prog State (List Source × List Frame)
  | [], mix => pure ([], mix)
  | s :: ss, mix =>
    if s.active then do
      let (s, mix) ← mixSource s.volQ15 s mix
      let (ss, mix) ← mixAll ss mix
      return (s :: ss, mix)
    else do
      let (ss, mix) ← mixAll ss mix
      return (s :: ss, mix)

/-- `if (v > 32767) v = 32767; if (v < -32768) v = -32768;` -/
def saturate (v : Int) : Int :=
  let v := if v > 32767 then 32767 else v
  if v < -32768 then -32768 else v

def Frame.saturate (f : Frame) : Frame := ⟨Mixer.saturate f.left, Mixer.saturate f.right⟩

/-- `hal_audio_write`. -/
def halAudioWrite (hal : Hal) (frames : List Frame) : Prog State Nat := do
  let st ← Prog.get
  Prog.modify fun st => { st with log := st.log ++ [⟨frames, hal.accepts st.log frames, hal.at_most st.log frames⟩] }
  return hal.accepts st.log frames

/-- Mix a chunk and hand it to the card: how much of it was accepted. -/
def pumpChunk (hal : Hal) (chunk : Nat) : Prog State Nat := do
  let st ← Prog.get
  let (sources, mix) ← mixAll st.sources (List.replicate chunk .silence)
  Prog.modify fun st => { st with sources }
  halAudioWrite hal (mix.map Frame.saturate)

/-- `max_frames > MIX_CHUNK_FRAMES ? MIX_CHUNK_FRAMES : max_frames`. -/
def chunkOf (maxFrames : Nat) : Nat := if maxFrames > mixChunkFrames then mixChunkFrames else maxFrames

/-- A turn of the loop while there is a backend; `maxFrames` is what is left. -/
def pumpTurn (hal : Hal) (maxFrames : Nat) : Prog State (Nat ⊕ Unit) :=
  if maxFrames > 0 then do
    let st ← Prog.get
    if st.sources.any Source.active then do
      let pushed ← pumpChunk hal (chunkOf maxFrames)
      if pushed = 0 then return .inr ()
      else if pushed < chunkOf maxFrames then return .inr ()
      else return .inl (maxFrames - pushed)
    else return .inr ()
  else return .inr ()

/-- A source's time passes without a backend. -/
def Source.passBy (maxFrames : Nat) (s : Source) : Source :=
  if s.active then
    let remaining := sub32 s.frames s.pos
    let step := if remaining < maxFrames then remaining else maxFrames
    let pos := u32 (s.pos + step)
    if pos ≥ s.frames then if s.looping then { s with pos := 0 } else { s with pos, playing := false }
    else { s with pos }
  else s

/-- `canboot_audio_pump`. -/
def canbootAudioPump (hal : Hal) (maxFrames : Nat) : Prog State Unit :=
  if maxFrames = 0 then pure ()
  else if hal.present then Prog.loop (pumpTurn hal) maxFrames
  else Prog.modify fun st => { st with sources := st.sources.map (Source.passBy maxFrames) }

/-- A sequence of calls of `canboot_audio_pump`. -/
def pumps (hal : Hal) (calls : List Nat) : Prog State Unit :=
  Prog.forAcc (fun maxFrames _ => canbootAudioPump hal maxFrames) calls ()

end CanBoot.Cando.Mixer
