import CanBoot.Cando.Mixer
import CanBoot.Lib.Stretches
import Mathlib.Algebra.Order.BigOperators.Group.List
import Mathlib.Algebra.Order.Group.Nat

/-!
# What the sound card gets

The mixer's sources are a stream: `stream` says what its frames are, from the positions the sources have. Mixing a
chunk takes that many frames off the stream (`run_pumpChunk`), whatever the card then accepts of them. So what is
accepted are frames of the stream at the times of `times`, in order, and between them are gaps exactly where a chunk
was cut short and a later one was not refused.
-/

namespace CanBoot.Cando.Mixer

open Lib Lib.Prog List

/-! ## The stream -/

def Frame.add (f g : Frame) : Frame := ⟨f.left + g.left, f.right + g.right⟩

theorem Frame.add_silence (f : Frame) : f.add .silence = f := by
  cases f
  rw [Frame.add, Frame.silence, Int.add_zero, Int.add_zero]

namespace Source

/-- A source whose buffer holds its frames, at one of them or at its end. Only a looping source needs a frame. -/
structure Ready (s : Source) : Prop where
  full : s.pcm.length = 2 * s.frames
  small : s.frames < 2147483648
  inside : s.pos ≤ s.frames
  loops : s.inUse → s.looping → 0 < s.frames

/-- Frame `i` of a source at its volume. -/
def frameAt (s : Source) (i : Nat) : Frame :=
  ⟨scale (s.pcm.getD (2 * i) 0) s.volQ15, scale (s.pcm.getD (2 * i + 1) 0) s.volQ15⟩

/-- What a source plays `t` frames from now: around and around, or silence behind its end. -/
def heard (s : Source) (t : Nat) : Frame :=
  if s.active then
    if s.looping then s.frameAt ((s.pos + t) % s.frames)
    else if s.pos + t < s.frames then s.frameAt (s.pos + t) else .silence
  else .silence

end Source

/-- The sum of the sources `t` frames from now, saturated to 16 bits. -/
def stream (sources : List Source) (t : Nat) : Frame :=
  (sources.foldl (fun f s => f.add (s.heard t)) Frame.silence).saturate

/-! ## One source -/

section

variable {s : Source} {fuel : Nat} {st : State} {cell : Frame}

theorem run_pcmAt {i : Nat} (inside : i < s.pcm.length) : (s.pcmAt i).run fuel st = .ok (s.pcm.getD i 0) st := by
  rw [Source.pcmAt, bind_defined_true (decide_eq_true inside), run_pure]

theorem run_mixFrame (full : s.pcm.length = 2 * s.frames) (small : s.frames < 2147483648) (more : s.pos < s.frames) :
    (mixFrame s.volQ15 s cell).run fuel st = .ok ({ s with pos := s.pos + 1 }, cell.add (s.frameAt s.pos)) st := by
  have left : u32 (s.pos * 2 + 0) = 2 * s.pos := by
    rw [u32_of_lt (by omega)]
    omega
  have right : u32 (s.pos * 2 + 1) = 2 * s.pos + 1 := by
    rw [u32_of_lt (by omega)]
    omega
  rw [mixFrame, left, right, run_bind_ok (run_pcmAt (by omega)), run_bind_ok (run_pcmAt (by omega)),
    run_pure, u32_of_lt (by omega)]
  rfl

/-- The position of the next frame. -/
def Source.turned (s : Source) : Nat := if s.pos ≥ s.frames then 0 else s.pos

/-- A source behind its next frame. -/
def Source.next (s : Source) : Source := { s with pos := s.turned + 1 }

/-- A source is at its end and stays there. -/
def Source.Over (s : Source) : Prop := s.pos ≥ s.frames ∧ ¬ s.looping

instance (s : Source) : Decidable s.Over := inferInstanceAs (Decidable (_ ∧ _))

theorem Source.active_iff : s.active ↔ s.inUse ∧ s.playing ∧ s.paused = false := by
  simp only [Source.active, Bool.and_eq_true, Bool.not_eq_true', and_assoc]

theorem turned_lt (ready : s.Ready) (active : s.active) (more : ¬ s.Over) : s.turned < s.frames := by
  unfold Source.turned
  split
  next ended =>
    have looping : s.looping := by
      by_contra once
      exact more ⟨ended, once⟩
    exact ready.loops (Source.active_iff.1 active).1 looping
  next here => omega

theorem Source.Ready.next (ready : s.Ready) (active : s.active) (more : ¬ s.Over) : s.next.Ready :=
  ⟨ready.full, ready.small, turned_lt ready active more, ready.loops⟩

theorem heard_of_looping (active : s.active) (looping : s.looping) (t : Nat) :
    s.heard t = s.frameAt ((s.pos + t) % s.frames) := by
  rw [Source.heard, if_pos active, if_pos looping]

theorem heard_of_once (active : s.active) (once : ¬ s.looping) (t : Nat) :
    s.heard t = if s.pos + t < s.frames then s.frameAt (s.pos + t) else .silence := by
  rw [Source.heard, if_pos active, if_neg once]

/-- A looping source at its end is where it was at its start. -/
theorem turned_add_mod (ready : s.Ready) (t : Nat) : (s.turned + t) % s.frames = (s.pos + t) % s.frames := by
  unfold Source.turned
  split
  next ended =>
    have end_ : s.pos = s.frames := Nat.le_antisymm ready.inside ended
    rw [end_, Nat.zero_add, Nat.add_mod_left]
  next here => rfl

theorem heard_now (ready : s.Ready) (active : s.active) (more : ¬ s.Over) : s.heard 0 = s.frameAt s.turned := by
  have lt := turned_lt ready active more
  by_cases looping : s.looping
  · rw [heard_of_looping active looping, ← turned_add_mod ready, Nat.add_zero, Nat.mod_eq_of_lt lt]
  · have here : ¬ s.pos ≥ s.frames := fun ended => more ⟨ended, looping⟩
    rw [heard_of_once active looping, if_pos (by omega), Source.turned, if_neg here, Nat.add_zero]

theorem heard_next (ready : s.Ready) (active : s.active) (more : ¬ s.Over) (t : Nat) :
    s.next.heard t = s.heard (t + 1) := by
  by_cases looping : s.looping
  · have shift : s.turned + 1 + t = s.turned + (t + 1) := by omega
    rw [heard_of_looping active looping, ← turned_add_mod ready, ← shift]
    exact heard_of_looping (s := s.next) active looping t
  · have here : ¬ s.pos ≥ s.frames := fun ended => more ⟨ended, looping⟩
    have turned : s.turned = s.pos := if_neg here
    have shift : s.turned + 1 + t = s.pos + (t + 1) := by omega
    rw [heard_of_once active looping, ← shift]
    exact heard_of_once (s := s.next) active looping t

theorem heard_of_over (end_ : s.Over) (t : Nat) : s.heard t = .silence := by
  obtain ⟨ended, once⟩ := end_
  by_cases active : s.active
  · rw [heard_of_once active once, if_neg (by omega)]
  · rw [Source.heard, if_neg active]

theorem run_mixSource_over {vol : Int} {cells : List Frame} (end_ : s.Over) :
    (mixSource vol s (cell :: cells)).run fuel st = .ok ({ s with playing := false }, cell :: cells) st := by
  have stops : s.pos ≥ s.frames ∧ ¬ s.looping := end_
  rw [mixSource, if_pos stops, run_pure]

theorem run_mixSource_next {s' : Source} {cells mixed : List Frame} (ready : s.Ready) (active : s.active)
    (more : ¬ s.Over) (runs : (mixSource s.volQ15 s.next cells).run fuel st = .ok (s', mixed) st) :
    (mixSource s.volQ15 s (cell :: cells)).run fuel st = .ok (s', cell.add (s.heard 0) :: mixed) st := by
  have goesOn : ¬ (s.pos ≥ s.frames ∧ ¬ s.looping) := more
  have turned : (if s.pos ≥ s.frames then { s with pos := 0 } else s) = { s with pos := s.turned } := by
    unfold Source.turned
    split <;> rfl
  have frame : (mixFrame s.volQ15 { s with pos := s.turned } cell).run fuel st =
      .ok (s.next, cell.add (s.frameAt s.turned)) st :=
    run_mixFrame (s := { s with pos := s.turned }) ready.full ready.small (turned_lt ready active more)
  rw [mixSource, if_neg goesOn, turned, run_bind_ok frame, run_bind_ok runs, run_pure, heard_now ready active more]

/-- Mixing a source adds what it plays, and leaves it that much later. -/
theorem run_mixSource (ready : s.Ready) (active : s.active) (n : Nat) (g : Nat → Frame) :
    ∃ s', (∀ fuel st, (mixSource s.volQ15 s ((range n).map g)).run fuel st =
        .ok (s', (range n).map fun t => (g t).add (s.heard t)) st) ∧
      s'.Ready ∧ ∀ t, s'.heard t = s.heard (n + t) := by
  induction n generalizing s g with
  | zero => exact ⟨s, fun _ _ => rfl, ready, fun t => by rw [Nat.zero_add]⟩
  | succ n ih =>
    by_cases more : s.Over
    · have same : ∀ m, ((range m).map fun t => (g t).add (s.heard t)) = (range m).map g := by
        intro m
        refine map_congr_left fun t _ => ?_
        rw [heard_of_over more, Frame.add_silence]
      refine ⟨{ s with playing := false }, fun fuel st => ?_, ⟨ready.full, ready.small, ready.inside, ready.loops⟩, fun t => ?_⟩
      · rw [same, range_succ_eq_map, map_cons]
        exact run_mixSource_over more
      · rw [heard_of_over more]
        exact heard_of_over (s := { s with playing := false }) more t
    · obtain ⟨s', runs, ready', later⟩ := ih (ready.next active more) active (g ∘ Nat.succ)
      refine ⟨s', fun fuel st => ?_, ready', fun t => ?_⟩
      · rw [range_succ_eq_map, map_cons, map_cons, map_map, map_map]
        refine (run_mixSource_next ready active more (runs fuel st)).trans ?_
        have shifted : ((range n).map fun t => ((g ∘ Nat.succ) t).add (s.next.heard t)) =
            (range n).map ((fun t => (g t).add (s.heard t)) ∘ Nat.succ) := by
          refine map_congr_left fun t _ => ?_
          rw [heard_next ready active more]
          rfl
        rw [shifted]
      · rw [later, heard_next ready active more]
        congr 1
        omega

end

/-! ## All sources -/

/-- The sources `after` are the sources `before`, `n` frames later. -/
def Later (n : Nat) (before after : List Source) : Prop :=
  List.Forall₂ (fun s s' => s'.Ready ∧ ∀ t, s'.heard t = s.heard (n + t)) before after

theorem run_mixAll (n : Nat) : ∀ (sources : List Source) (g : Nat → Frame), (∀ s ∈ sources, s.Ready) →
    ∃ after, (∀ fuel st, (mixAll sources ((range n).map g)).run fuel st =
        .ok (after, (range n).map fun t => sources.foldl (fun f s => f.add (s.heard t)) (g t)) st) ∧
      Later n sources after
  | [], g, _ => ⟨[], fun _ _ => rfl, .nil⟩
  | s :: ss, g, ready => by
    have ready₁ := ready s mem_cons_self
    have ready₂ : ∀ s ∈ ss, s.Ready := fun s mem => ready s (mem_cons_of_mem _ mem)
    by_cases active : s.active
    · obtain ⟨s', first, ready', later'⟩ := run_mixSource ready₁ active n g
      obtain ⟨after, rest, later⟩ := run_mixAll n ss (fun t => (g t).add (s.heard t)) ready₂
      refine ⟨s' :: after, fun fuel st => ?_, .cons ⟨ready', later'⟩ later⟩
      rw [mixAll, if_pos active, run_bind_ok (first fuel st), run_bind_ok (rest fuel st), run_pure]
      rfl
    · have silent : ∀ t, s.heard t = .silence := fun t => if_neg active
      obtain ⟨after, rest, later⟩ := run_mixAll n ss g ready₂
      refine ⟨s :: after, fun fuel st => ?_, .cons ⟨ready₁, fun t => by rw [silent, silent]⟩ later⟩
      rw [mixAll, if_neg active, run_bind_ok (rest fuel st), run_pure]
      simp only [foldl_cons, silent, Frame.add_silence]

theorem Later.ready {n : Nat} {before after : List Source} (later : Later n before after) : ∀ s ∈ after, s.Ready := by
  induction later with
  | nil => exact fun s mem => absurd mem not_mem_nil
  | cons head tail ih =>
    intro s mem
    rcases mem_cons.1 mem with rfl | mem
    · exact head.1
    · exact ih s mem

theorem Later.stream {n : Nat} {before after : List Source} (later : Later n before after) (t : Nat) :
    stream after t = stream before (n + t) := by
  have sums : ∀ f : Frame, after.foldl (fun f s => f.add (s.heard t)) f =
      before.foldl (fun f s => f.add (s.heard (n + t))) f := by
    induction later with
    | nil => exact fun f => rfl
    | cons head tail ih =>
      intro f
      rw [foldl_cons, foldl_cons, head.2, ih]
  rw [Mixer.stream, Mixer.stream, sums]

/-! ## The card -/

/-- The frames accepted so far. -/
def accepted (log : List Write) : List Frame := log.flatMap fun w => w.offered.take w.taken

def Write.stretch (w : Write) : Stretch := ⟨w.offered.length, w.taken, w.within⟩

/-- The times of the frames accepted so far. -/
def played (log : List Write) : List Nat := times 0 (log.map Write.stretch)

/-- How far the stream has been mixed. -/
def mixed (log : List Write) : Nat := elapsed (log.map Write.stretch)

/-- **The invariant of the mixer**: the sources go on where the mixed part of the stream ends, and what was accepted is
the stream at the times it was played. -/
structure Follows (start : List Source) (st : State) : Prop where
  ready : ∀ s ∈ st.sources, s.Ready
  now : ∀ t, stream st.sources t = stream start (mixed st.log + t)
  heard : accepted st.log = (played st.log).map (stream start)

variable (hal : Hal) {start : List Source} {st : State}

/-- A chunk takes its frames off the stream, however many of them the card accepts. -/
theorem Follows.write {n : Nat} {after : List Source} {w : Write} (follows : Follows start st)
    (later : Later n st.sources after) (offered : w.offered = (range n).map (stream st.sources)) :
    Follows start ⟨after, st.log ++ [w]⟩ := by
  have size : w.offered.length = n := by rw [offered, length_map, length_range]
  have reached : mixed (st.log ++ [w]) = mixed st.log + n := by
    rw [mixed, map_append, map_singleton, elapsed_concat]
    exact congrArg (mixed st.log + ·) size
  refine ⟨later.ready, fun t => ?_, ?_⟩
  · rw [later.stream, follows.now, reached, Nat.add_assoc]
  · have times : played (st.log ++ [w]) = played st.log ++ range' (mixed st.log) w.taken := by
      rw [played, map_append, map_singleton, times_concat, Nat.zero_add]
      rfl
    have part : w.offered.take w.taken = (range' (mixed st.log) w.taken).map (stream start) := by
      have within : w.taken ≤ n := size ▸ w.within
      rw [offered, ← map_take, take_range, Nat.min_eq_left within, range'_eq_map_range, map_map]
      exact map_congr_left fun t _ => follows.now t
    rw [times, map_append, ← follows.heard, ← part, accepted, flatMap_append, flatMap_singleton]
    rfl

theorem run_pumpChunk (follows : Follows start st) (n : Nat) : ∃ st' pushed, pushed ≤ n ∧ Follows start st' ∧
    ∀ fuel, (pumpChunk hal n).run fuel st = .ok pushed st' := by
  obtain ⟨after, mixes, later⟩ := run_mixAll n st.sources (fun _ => .silence) follows.ready
  have zeros : replicate n Frame.silence = (range n).map fun _ => .silence := by
    rw [map_const', length_range]
  have out : ((range n).map fun t =>
      st.sources.foldl (fun f s => f.add (s.heard t)) Frame.silence).map Frame.saturate =
        (range n).map (stream st.sources) := by
    rw [map_map]
    rfl
  have most := hal.at_most st.log ((range n).map (stream st.sources))
  refine ⟨⟨after, st.log ++ [⟨_, _, most⟩]⟩, hal.accepts st.log ((range n).map (stream st.sources)), ?_,
    follows.write later rfl, fun fuel => ?_⟩
  · rw [length_map, length_range] at most
    exact most
  · rw [pumpChunk, run_bind_ok (run_get _ _), zeros, run_bind_ok (mixes fuel st), run_bind_ok (run_modify _ _ _), out,
      halAudioWrite, run_bind_ok (run_get _ _), run_bind_ok (run_modify _ _ _), run_pure]

/-- A turn leaves the loop, or goes on with less to do. -/
theorem run_pumpTurn (follows : Follows start st) (maxFrames : Nat) : ∃ st', Follows start st' ∧
    ((∀ fuel, (pumpTurn hal maxFrames).run fuel st = .ok (.inr ()) st') ∨
      ∃ rest < maxFrames, ∀ fuel, (pumpTurn hal maxFrames).run fuel st = .ok (.inl rest) st') := by
  by_cases more : maxFrames > 0
  · have turn : ∀ fuel, (pumpTurn hal maxFrames).run fuel st = (if st.sources.any Source.active then do
          let pushed ← pumpChunk hal (chunkOf maxFrames)
          if pushed = 0 then return .inr ()
          else if pushed < chunkOf maxFrames then return .inr ()
          else return .inl (maxFrames - pushed)
        else return .inr () : Prog State (Nat ⊕ Unit)).run fuel st := by
      intro fuel
      rw [pumpTurn, if_pos more, run_bind_ok (run_get _ _)]
    by_cases any : st.sources.any Source.active
    · obtain ⟨st', pushed, most, follows', runs⟩ := run_pumpChunk hal follows (chunkOf maxFrames)
      refine ⟨st', follows', ?_⟩
      by_cases none : pushed = 0
      · refine .inl fun fuel => ?_
        rw [turn, if_pos any, run_bind_ok (runs fuel), if_pos none, run_pure]
      · by_cases cut : pushed < chunkOf maxFrames
        · refine .inl fun fuel => ?_
          rw [turn, if_pos any, run_bind_ok (runs fuel), if_neg none, if_pos cut, run_pure]
        · refine .inr ⟨maxFrames - pushed, by omega, fun fuel => ?_⟩
          rw [turn, if_pos any, run_bind_ok (runs fuel), if_neg none, if_neg cut, run_pure]
    · refine ⟨st, follows, .inl fun fuel => ?_⟩
      rw [turn, if_neg any, run_pure]
  · refine ⟨st, follows, .inl fun fuel => ?_⟩
    rw [pumpTurn, if_neg more, run_pure]

/-- The loop of a pump ends, with the invariant. -/
theorem run_pumpLoop : ∀ (n maxFrames : Nat) {st : State}, maxFrames < n → Follows start st →
    ∃ st', Follows start st' ∧ ∀ fuel, (Prog.loopN (pumpTurn hal) n maxFrames).run fuel st = .ok () st'
  | 0, _, _, few, _ => absurd few (Nat.not_lt_zero _)
  | n + 1, maxFrames, st, few, follows => by
    obtain ⟨st', follows', leaves | ⟨rest, less, goesOn⟩⟩ := run_pumpTurn hal follows maxFrames
    · exact ⟨st', follows', fun fuel => run_loopN_exit (leaves fuel) n⟩
    · obtain ⟨st'', follows'', runs⟩ := run_pumpLoop n rest (by omega) follows'
      refine ⟨st'', follows'', fun fuel => ?_⟩
      rw [run_loopN_next (goesOn fuel)]
      exact runs fuel

theorem run_pump {fuel maxFrames : Nat} (present : hal.present) (follows : Follows start st)
    (enough : maxFrames < fuel) : ∃ st', Follows start st' ∧ (canbootAudioPump hal maxFrames).run fuel st = .ok () st' := by
  by_cases none : maxFrames = 0
  · refine ⟨st, follows, ?_⟩
    rw [canbootAudioPump, if_pos none, run_pure]
  · obtain ⟨st', follows', runs⟩ := run_pumpLoop hal fuel maxFrames enough follows
    refine ⟨st', follows', ?_⟩
    rw [canbootAudioPump, if_neg none, if_pos present]
    exact runs fuel

theorem Source.Ready.passBy {s : Source} (ready : s.Ready) (maxFrames : Nat) : (s.passBy maxFrames).Ready := by
  obtain ⟨full, small, inside, loops⟩ := ready
  have left : sub32 s.frames s.pos = s.frames - s.pos := sub32_of_le (by omega) inside
  have step : (if s.frames - s.pos < maxFrames then s.frames - s.pos else maxFrames) ≤ s.frames - s.pos := by
    split <;> omega
  simp only [Source.passBy, left]
  generalize (if s.frames - s.pos < maxFrames then s.frames - s.pos else maxFrames) = n at step
  rw [u32_of_lt (by omega)]
  split
  · split
    · split
      · exact ⟨full, small, Nat.zero_le _, loops⟩
      · exact ⟨full, small, by show s.pos + n ≤ s.frames; omega, loops⟩
    · exact ⟨full, small, by show s.pos + n ≤ s.frames; omega, loops⟩
  · exact ⟨full, small, inside, loops⟩

/-- Without a card nothing is offered, and the sources stay in their bounds. -/
theorem run_pump_absent {fuel maxFrames : Nat} (absent : ¬ hal.present)
    (idle : (∀ s ∈ st.sources, s.Ready) ∧ st.log = []) :
    ∃ st', ((∀ s ∈ st'.sources, s.Ready) ∧ st'.log = []) ∧ (canbootAudioPump hal maxFrames).run fuel st = .ok () st' := by
  by_cases none : maxFrames = 0
  · refine ⟨st, idle, ?_⟩
    rw [canbootAudioPump, if_pos none, run_pure]
  · refine ⟨{ st with sources := st.sources.map (Source.passBy maxFrames) }, ⟨?_, idle.2⟩, ?_⟩
    · intro s mem
      obtain ⟨r, old, rfl⟩ := mem_map.1 mem
      exact (idle.1 r old).passBy maxFrames
    · rw [canbootAudioPump, if_neg none, if_neg absent, run_modify]

/-! ## Any sequence of calls -/

/-- What each call keeps, the calls keep. -/
theorem run_pumps {I : State → Prop} {fuel : Nat} : ∀ {calls : List Nat} {st : State},
    (∀ n ∈ calls, ∀ st, I st → ∃ st', I st' ∧ (canbootAudioPump hal n).run fuel st = .ok () st') → I st →
      ∃ st', I st' ∧ (pumps hal calls).run fuel st = .ok () st'
  | [], st, _, start => ⟨st, start, rfl⟩
  | n :: calls, st, one, start => by
    obtain ⟨st₁, kept₁, first⟩ := one n mem_cons_self st start
    obtain ⟨st₂, kept₂, rest⟩ := run_pumps (fun n mem => one n (mem_cons_of_mem _ mem)) kept₁
    refine ⟨st₂, kept₂, ?_⟩
    rw [pumps, Prog.forAcc, run_bind_ok first]
    exact rest

/-- The calls, with fuel for the loop of each. -/
def afterCalls (sources : List Source) (calls : List Nat) : Outcome State Unit :=
  (pumps hal calls).run (calls.sum + 1) ⟨sources, []⟩

/-- After any calls the sources are in their bounds and what was accepted is the stream at the times it was played. -/
theorem afterCalls_follows {sources : List Source} (ready : ∀ s ∈ sources, s.Ready) (calls : List Nat) :
    ∃ st, afterCalls hal sources calls = .ok () st ∧ (∀ s ∈ st.sources, s.Ready) ∧
      accepted st.log = (played st.log).map (stream sources) := by
  by_cases present : hal.present
  · have begins : Follows sources ⟨sources, []⟩ := ⟨ready, fun t => by rw [mixed]; simp [elapsed], rfl⟩
    have enough : ∀ n ∈ calls, n < calls.sum + 1 := fun n mem => Nat.lt_succ_of_le (le_sum_of_mem mem)
    obtain ⟨st, follows, runs⟩ := run_pumps hal (fun n mem _ follows => run_pump hal present follows (enough n mem)) begins
    exact ⟨st, runs, follows.ready, follows.heard⟩
  · obtain ⟨st, ⟨ready', log⟩, runs⟩ := @run_pumps hal _ (calls.sum + 1) calls ⟨sources, []⟩
      (fun n _ _ idle => run_pump_absent hal present idle) ⟨ready, rfl⟩
    exact ⟨st, runs, ready', by rw [log]; rfl⟩

/-- **What the mixer is for**: the calls return, every source is between its start and its end, and the frames accepted
are the stream's, from the first on and without a gap. -/
def Delivers (sources : List Source) (calls : List Nat) : Prop :=
  ∃ st, afterCalls hal sources calls = .ok () st ∧ (∀ s ∈ st.sources, s.pos ≤ s.frames) ∧
    ∃ n, played st.log = List.range n ∧ accepted st.log = (List.range n).map (stream sources)

/-- Nothing is accepted behind a chunk that was cut short. -/
def OnlyLastCut (sources : List Source) (calls : List Nat) : Prop :=
  ∃ st, afterCalls hal sources calls = .ok () st ∧ st.log.Pairwise fun w v => w.taken = w.offered.length ∨ v.taken = 0

/-- **The mixer delivers its stream without a gap exactly if nothing is accepted behind a chunk that was cut short.** -/
theorem mixer_delivers_iff (hal : Hal) (sources : List Source) (calls : List Nat) (ready : ∀ s ∈ sources, s.Ready) :
    Delivers hal sources calls ↔ OnlyLastCut hal sources calls := by
  obtain ⟨st, runs, ready', heard⟩ := afterCalls_follows hal ready calls
  have gaps : (∃ n, played st.log = range n) ↔
      st.log.Pairwise fun w v => w.taken = w.offered.length ∨ v.taken = 0 := by
    have stretches := @times_eq_range'_iff (st.log.map Write.stretch) 0
    simp only [pairwise_map, ← range_eq_range'] at stretches
    exact stretches
  constructor
  · rintro ⟨st', runs', -, n, times, -⟩
    rw [runs] at runs'
    cases runs'
    exact ⟨st, runs, gaps.1 ⟨n, times⟩⟩
  · rintro ⟨st', runs', whole⟩
    rw [runs] at runs'
    cases runs'
    obtain ⟨n, times⟩ := gaps.2 whole
    exact ⟨st, runs, fun s mem => (ready' s mem).inside, n, times, by rw [heard, times]⟩

/-- A playing source of four frames at full volume. -/
def fourFrames : Source := ⟨true, true, false, false, [1, 1, 2, 2, 3, 3, 4, 4], 4, 0, 32768⟩

theorem fourFrames_ready : ∀ s ∈ [fourFrames], s.Ready := by
  intro s mem
  rw [mem_singleton.1 mem]
  exact ⟨rfl, by decide, by decide, fun _ => by decide⟩

/-- A card that accepts everything. -/
def eager : Hal := ⟨true, fun _ frames => frames.length, fun _ _ => Nat.le_refl _⟩

/-- A card that accepts at most one frame of the first chunk. -/
def hesitant : Hal where
  present := true
  accepts past frames := if past = [] then min 1 frames.length else frames.length
  at_most past frames := by split <;> omega

theorem mixer_delivers_eager : Delivers eager [fourFrames] [2, 2] := by
  refine (mixer_delivers_iff eager [fourFrames] [2, 2] fourFrames_ready).2 ⟨_, rfl, ?_⟩
  decide

/-- One of two frames is accepted, then two of two: the second frame is never played. -/
theorem cut_chunk_skips : ∃ st, afterCalls hesitant [fourFrames] [2, 2] = .ok () st ∧
    accepted st.log = [⟨1, 1⟩, ⟨3, 3⟩, ⟨4, 4⟩] ∧ (List.range 4).map (stream [fourFrames]) = [⟨1, 1⟩, ⟨2, 2⟩, ⟨3, 3⟩, ⟨4, 4⟩] :=
  ⟨_, rfl, by decide, by decide⟩

end CanBoot.Cando.Mixer
