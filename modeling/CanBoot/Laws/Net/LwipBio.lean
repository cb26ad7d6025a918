import CanBoot.Net.LwipBio
import CanBoot.Lib.Ring

/-!
# The stream under TLS

What the receive function returns is always a prefix of what `recv_cb` kept, in order, however the counters wrap. But
`recv_cb` keeps only what fits and acknowledges all of it, so the rest is gone for good. The stream is lossless
exactly when every payload finds room (`bio_lossless_iff`).

The counters are 64 bits wide. Their low halves are the counters of a ring of `Lib.Ring`, because no more than 16384
bytes lie between them.
-/

namespace CanBoot.Net

open Lib Nat List Option
open Cando (Pbuf)

/-- The adapter's ring: bytes are put in at the source's head and taken out at its tail. -/
def LwipBio.ring (b : LwipBio) : Ring := ⟨b.rxBuf, u32 b.rxTail, u32 b.rxHead⟩

/-- The adapter after its history. -/
structure LwipBio.Holds (b : LwipBio) (kept : List UInt8) (taken : Nat) : Prop where
  ring : b.ring.Holds rxSize kept taken
  head : b.rxHead = u64 kept.length
  tail : b.rxTail = u64 taken

theorem rxSize_divides : rxSize ∣ 4294967296 := ⟨262144, rfl⟩

theorem u64_mod_rxSize (n : Nat) : u64 n % rxSize = n % rxSize :=
  mod_mod_of_dvd _ ⟨1125899906842624, rfl⟩

theorem u32_u64 (n : Nat) : u32 (u64 n) = u32 n := mod_mod_of_dvd _ ⟨4294967296, rfl⟩

section Adapter

variable {b : LwipBio} {kept : Bytes} {taken : Nat}

theorem LwipBio.Holds.used (holds : b.Holds kept taken) : sub64 b.rxHead b.rxTail = kept.length - taken := by
  have order := holds.ring.order
  have room : kept.length ≤ taken + 16384 := holds.ring.room
  rw [holds.head, holds.tail, sub64]
  simp only [u64]
  omega

theorem LwipBio.Holds.drained_iff (holds : b.Holds kept taken) : b.rxHead = b.rxTail ↔ kept.length = taken := by
  have order := holds.ring.order
  have room : kept.length ≤ taken + 16384 := holds.ring.room
  rw [holds.head, holds.tail]
  simp only [u64]
  omega

/-- **The loop of `recv_cb` puts what it is to copy behind what is there.** -/
theorem LwipBio.copyLoop_keeps {payload : Bytes} {toCopy : Nat} (within : toCopy ≤ payload.length)
    (head : b.rxHead = u64 kept.length) (fits : kept.length + toCopy ≤ taken + rxSize) :
    ∀ (fuel copied : Nat) (buf : Buf), copied ≤ toCopy → toCopy - copied < fuel →
      Ring.Holds rxSize ⟨buf, u32 b.rxTail, u32 (kept.length + copied)⟩ (kept ++ payload.take copied) taken →
      ∃ buf', copyLoop payload toCopy fuel copied { b with rxBuf := buf } = some ({ b with rxBuf := buf' }, toCopy) ∧
        Ring.Holds rxSize ⟨buf', u32 b.rxTail, u32 (kept.length + toCopy)⟩ (kept ++ payload.take toCopy) taken := by
  intro fuel
  induction fuel with
  | zero =>
    intro copied buf le lt
    omega
  | succ fuel ih =>
    intro copied buf le lt holds
    rw [copyLoop]
    by_cases more : copied < toCopy
    · rw [if_pos more]
      dsimp only
      have place : u64 (b.rxHead + copied) % rxSize = (kept.length + copied) % rxSize := by
        rw [u64_mod_rxSize, head, add_mod, u64_mod_rxSize, ← add_mod]
      have start := mod_lt (kept.length + copied) (show 0 < rxSize by decide)
      rw [place]
      -- the piece goes to the end of the buffer or of what is to be copied
      generalize piece : (if toCopy - copied > rxSize - (kept.length + copied) % rxSize then
        rxSize - (kept.length + copied) % rxSize else toCopy - copied) = chunk
      have bounds : 0 < chunk ∧ copied + chunk ≤ toCopy ∧ (kept.length + copied) % rxSize + chunk ≤ rxSize := by
        split at piece <;> omega
      obtain ⟨positive, inside, unbroken⟩ := bounds
      have size : ((payload.drop copied).take chunk).length = chunk := by
        rw [length_take, length_drop]
        omega
      have before : (kept ++ payload.take copied).length = kept.length + copied := by
        rw [length_append, length_take]
        omega
      have room : (kept ++ payload.take copied).length + ((payload.drop copied).take chunk).length ≤ taken + rxSize := by
        rw [before, size]
        omega
      have whole : u32 (kept.length + copied) % rxSize + ((payload.drop copied).take chunk).length ≤ rxSize := by
        rw [size, show u32 (kept.length + copied) % rxSize = _ from holds.tail_mod rxSize_divides, before]
        exact unbroken
      have put := holds.put (by decide) rxSize_divides room whole
      rw [append_assoc, ← take_add, Ring.put, size] at put
      refine ih (copied + chunk) _ inside (by omega) ?_
      have tail : u32 (u32 (kept.length + copied) + chunk) = u32 (kept.length + (copied + chunk)) := by
        simp only [u32]
        omega
      have tailPos : u32 (kept.length + copied) % rxSize = (kept.length + copied) % rxSize :=
        mod_mod_of_dvd _ rxSize_divides
      rw [tail, tailPos] at put
      exact put
    · have all : copied = toCopy := by omega
      subst all
      exact ⟨buf, by rw [if_neg more], holds⟩

/-- **`recv_cb` keeps what fits** and acknowledges the whole payload. -/
theorem LwipBio.recvCb_keeps (holds : b.Holds kept taken) (p : Pbuf) :
    ∃ b', b.recvCb 0 (some p) = some (b', p.bytes.length) ∧
      b'.Holds (kept ++ p.bytes.take (rxSize - (kept.length - taken))) taken := by
  have order := holds.ring.order
  have room : kept.length ≤ taken + rxSize := holds.ring.room
  have avail : sub64 rxSize (sub64 b.rxHead b.rxTail) = rxSize - (kept.length - taken) := by
    rw [holds.used, sub64_of_le (by decide) (by omega)]
  generalize left : rxSize - (kept.length - taken) = n at avail ⊢
  have count : (if p.bytes.length > n then n else p.bytes.length) = min p.bytes.length n := by
    split <;> omega
  have here : Ring.Holds rxSize ⟨b.rxBuf, u32 b.rxTail, u32 (kept.length + 0)⟩ (kept ++ p.bytes.take 0) taken := by
    have ring := holds.ring
    rw [LwipBio.ring, holds.head, u32_u64] at ring
    rw [take_zero, append_nil]
    exact ring
  have fits : kept.length + min p.bytes.length n ≤ taken + rxSize := by omega
  obtain ⟨buf, loop, after⟩ := copyLoop_keeps (Nat.min_le_left _ n) holds.head fits (min p.bytes.length n + 1) 0 b.rxBuf
    (Nat.zero_le _) (by omega) here
  have size : (kept ++ p.bytes.take n).length = kept.length + min p.bytes.length n := by
    rw [length_append, length_take, Nat.min_comm]
  have whole : p.bytes.take (min p.bytes.length n) = p.bytes.take n := by
    rw [take_eq_take_iff]
    omega
  have head : u64 (b.rxHead + min p.bytes.length n) = u64 (kept.length + min p.bytes.length n) := by
    rw [holds.head]
    simp only [u64]
    omega
  rw [recvCb, if_neg (by decide)]
  dsimp only
  rw [avail, count, loop]
  refine ⟨_, rfl, ?_, ?_, holds.tail⟩
  · rw [LwipBio.ring]
    rw [head, u32_u64]
    rw [whole] at after
    exact after
  · rw [size]
    exact head

/-- **A receive call takes the oldest bytes.** -/
theorem LwipBio.recv_takes (holds : b.Holds kept taken) (len : Nat) :
    Stream.taken (b.recv len).1 = (kept.drop taken).take len ∧
      (b.recv len).2.Holds kept (taken + min (kept.length - taken) len) := by
  have order := holds.ring.order
  rw [recv]
  by_cases empty : b.rxHead = b.rxTail
  · have all := holds.drained_iff.mp empty
    rw [if_pos empty, drop_of_length_le (by omega), take_nil, all, Nat.sub_self, Nat.zero_min, Nat.add_zero]
    refine ⟨?_, holds⟩
    split <;> rfl
  · rw [if_neg empty]
    dsimp only
    have count : (if kept.length - taken < len then kept.length - taken else len) = min (kept.length - taken) len := by
      split <;> omega
    rw [holds.used, count]
    have all : (kept.drop taken).take (min (kept.length - taken) len) = (kept.drop taken).take len := by
      rw [take_eq_take_iff, length_drop]
      omega
    generalize size : min (kept.length - taken) len = n at all ⊢
    have inside : taken + n ≤ kept.length := by omega
    have front := holds.ring.front_eq (by decide) rxSize_divides inside
    have place : u32 b.rxTail % rxSize = b.rxTail % rxSize := mod_mod_of_dvd _ rxSize_divides
    have start := mod_lt b.rxTail (show 0 < rxSize by decide)
    rw [Ring.front, LwipBio.ring] at front
    rw [place, all] at front
    constructor
    · rw [← front, Stream.taken]
      by_cases whole : b.rxTail % rxSize + n ≤ rxSize
      · rw [if_pos whole, Nat.min_eq_left (by omega), Nat.sub_self]
        exact (append_nil _).symm
      · rw [if_neg whole, Nat.min_eq_right (by omega)]
    · refine ⟨?_, holds.head, ?_⟩
      · have dropped := holds.ring.drop inside
        rw [Ring.drop, LwipBio.ring] at dropped
        rw [LwipBio.ring]
        have tail : u32 (u32 b.rxTail + n) = u32 (u64 (b.rxTail + n)) := by
          rw [u32_u64]
          simp only [u32]
          omega
        rw [← tail]
        exact dropped
      · rw [holds.tail]
        simp only [u64]
        omega

end Adapter

/-! ## Runs -/

/-- A stream after its history: what was kept, and how much of that was returned. Everything that was delivered was
acknowledged. -/
structure Stream.Holds (s : Stream) (kept : List UInt8) : Prop where
  bio : s.bio.Holds kept s.returned.length
  returned : s.returned = kept.take s.returned.length
  acked : s.acked = s.delivered.length

/-- Acknowledged bytes that are neither returned nor in the ring. -/
def Stream.lost (s : Stream) : Nat := s.acked - (s.returned.length + sub64 s.bio.rxHead s.bio.rxTail)

/-- **The stream is lossless**: after every part of the run what was returned is a prefix of what was delivered, and all
of it once the ring is empty, and no byte was acknowledged and thrown away. -/
def Lossless (events : List BioEvent) : Prop :=
  ∀ k, ∃ s, Stream.start.run (events.take k) = some s ∧ s.returned <+: s.delivered ∧
    (s.bio.rxHead = s.bio.rxTail → s.returned = s.delivered) ∧ s.lost = 0

/-- The bytes that wait after some callbacks, if every payload finds room. -/
def waitingAfter : Nat → List Callback → Option Nat
  | used, [] => some used
  | used, .payload p :: cbs => if used + p.bytes.length ≤ rxSize then waitingAfter (used + p.bytes.length) cbs else none
  | used, .fin :: cbs => waitingAfter used cbs
  | used, .error _ :: cbs => waitingAfter used cbs

/-- The bytes that wait after an event; a receive call pumps only when none do. -/
def waitingStep (used : Nat) : BioEvent → Option Nat
  | .callback cb => waitingAfter used [cb]
  | .recv len pump => (if used = 0 then waitingAfter used pump else some used).map fun n => n - min n len

/-- **Every payload of the run finds room for all of it.** -/
def PayloadsFit (events : List BioEvent) : Prop := (events.foldlM waitingStep 0).isSome = true

section Run

variable {s : Stream} {kept : Bytes}

/-- The bytes in the ring are those kept and not returned. -/
theorem Stream.Holds.used (holds : s.Holds kept) :
    s.returned.length + sub64 s.bio.rxHead s.bio.rxTail = kept.length := by
  have order := holds.bio.ring.order
  rw [holds.bio.used]
  omega

theorem Stream.holds_payload (holds : s.Holds kept) (p : Pbuf) :
    ∃ s', s.callback (.payload p) = some s' ∧ s'.returned = s.returned ∧ s'.delivered = s.delivered ++ p.bytes ∧
      s'.Holds (kept ++ p.bytes.take (rxSize - (kept.length - s.returned.length))) := by
  obtain ⟨b, run, bio⟩ := LwipBio.recvCb_keeps holds.bio p
  have order := holds.bio.ring.order
  refine ⟨{ s with bio := b, delivered := s.delivered ++ p.bytes, acked := s.acked + p.bytes.length },
    by rw [callback, run]; rfl, rfl, rfl, bio, ?_, ?_⟩
  · rw [take_append_of_le_length order]
    exact holds.returned
  · rw [length_append, holds.acked]

/-- A callback without a payload changes nothing in the stream. -/
theorem Stream.holds_other (s : Stream) (cb : Callback) (other : ∀ p, cb ≠ .payload p) :
    (∀ n, waitingAfter n [cb] = some n) ∧ ∃ s', s.callback cb = some s' ∧ s'.returned = s.returned ∧
      s'.delivered = s.delivered ∧ ∀ {kept}, s.Holds kept → s'.Holds kept := by
  cases cb with
  | payload p => exact absurd rfl (other p)
  | fin | error err =>
    exact ⟨fun _ => rfl, _, rfl, rfl, rfl, fun holds =>
      ⟨⟨holds.bio.ring, holds.bio.head, holds.bio.tail⟩, holds.returned, holds.acked⟩⟩

theorem Stream.holds_take (holds : s.Holds kept) (len : Nat) : (s.take len).Holds kept ∧
      (s.take len).returned.length = s.returned.length + min (kept.length - s.returned.length) len := by
  obtain ⟨bytes, bio⟩ := LwipBio.recv_takes holds.bio len
  have order := holds.bio.ring.order
  have more : (s.take len).returned = s.returned ++ (kept.drop s.returned.length).take len := by
    rw [← bytes]
    rfl
  have size : (s.take len).returned.length = s.returned.length + min (kept.length - s.returned.length) len := by
    rw [more, length_append, length_take, length_drop, Nat.min_comm]
  refine ⟨⟨?_, ?_, holds.acked⟩, size⟩
  · rw [size]
    exact bio
  · have part : (kept.drop s.returned.length).take len =
        (kept.drop s.returned.length).take (min (kept.length - s.returned.length) len) := by
      rw [take_eq_take_iff, length_drop]
      omega
    rw [size, take_add, ← holds.returned, more, part]

/-- What a run has come to: the number of bytes that wait, everything delivered being kept, or a loss. -/
def Stream.Tracks (s : Stream) : Option Nat → Prop
  | some n => s.Holds s.delivered ∧ s.delivered.length = s.returned.length + n
  | none => ∃ kept, s.Holds kept ∧ kept.length < s.delivered.length

/-- **One callback.** -/
theorem Stream.tracks_callback {w : Option Nat} (tracks : s.Tracks w) (cb : Callback) :
    ∃ s', s.callback cb = some s' ∧ s'.Tracks (w.bind fun n => waitingAfter n [cb]) := by
  by_cases payload : ∃ p, cb = .payload p
  · obtain ⟨p, rfl⟩ := payload
    cases w with
    | none =>
      obtain ⟨kept, holds, loss⟩ := tracks
      obtain ⟨s', run, -, delivered, holds'⟩ := holds_payload holds p
      refine ⟨s', run, _, holds', ?_⟩
      rw [delivered, length_append, length_append, length_take]
      omega
    | some n =>
      obtain ⟨holds, count⟩ := tracks
      obtain ⟨s', run, returned, delivered, holds'⟩ := holds_payload holds p
      refine ⟨s', run, ?_⟩
      rw [bind_some, waitingAfter]
      have waits : s.delivered.length - s.returned.length = n := by omega
      have room := holds.bio.ring.room
      rw [waits] at holds'
      by_cases fits : n + p.bytes.length ≤ rxSize
      · rw [if_pos fits]
        rw [take_of_length_le (by omega), ← delivered] at holds'
        refine ⟨holds', ?_⟩
        rw [delivered, returned, length_append]
        omega
      · rw [if_neg fits]
        refine ⟨_, holds', ?_⟩
        rw [delivered, length_append, length_append, length_take]
        omega
  · obtain ⟨waits, s', run, returned, delivered, keeps⟩ := s.holds_other cb fun p same => payload ⟨p, same⟩
    refine ⟨s', run, ?_⟩
    simp only [waits, bind_fun_some]
    cases w with
    | none => exact tracks.imp fun kept lossy => ⟨keeps lossy.1, by rw [delivered]; exact lossy.2⟩
    | some n => exact ⟨delivered ▸ keeps tracks.1, by rw [delivered, returned]; exact tracks.2⟩

/-- **What holds of one step holds of a run**: of callbacks, and of events. -/
theorem Stream.tracks_foldlM {ε : Type} {f : Stream → ε → Option Stream} {g : Nat → ε → Option Nat}
    (one : ∀ {s : Stream} {w : Option Nat}, s.Tracks w → ∀ e, ∃ s', f s e = some s' ∧ s'.Tracks (w.bind fun n => g n e))
    (es : List ε) : ∀ {s : Stream} {w : Option Nat}, s.Tracks w →
      ∃ s', es.foldlM f s = some s' ∧ s'.Tracks (w.bind fun n => es.foldlM g n) := by
  induction es with
  | nil =>
    intro s w tracks
    refine ⟨s, rfl, ?_⟩
    cases w <;> exact tracks
  | cons e es ih =>
    intro s w tracks
    obtain ⟨s₁, first, tracks₁⟩ := one tracks e
    obtain ⟨s₂, rest, tracks₂⟩ := ih tracks₁
    refine ⟨s₂, ?_, ?_⟩
    · rw [foldlM_cons, first]
      exact rest
    · rw [Option.bind_assoc] at tracks₂
      exact tracks₂

theorem waitingAfter_eq (cbs : List Callback) (n : Nat) :
    waitingAfter n cbs = cbs.foldlM (fun n cb => waitingAfter n [cb]) n := by
  induction cbs generalizing n with
  | nil => rfl
  | cons cb cbs ih =>
    rw [foldlM_cons]
    cases cb with
    | payload p =>
      simp only [waitingAfter]
      split
      · exact ih _
      · rfl
    | fin | error err => exact ih n

/-- A pump. -/
theorem Stream.tracks_callbacks {w : Option Nat} (cbs : List Callback) (tracks : s.Tracks w) :
    ∃ s', s.callbacks cbs = some s' ∧ s'.Tracks (w.bind fun n => waitingAfter n cbs) := by
  rw [funext (waitingAfter_eq cbs)]
  exact tracks_foldlM tracks_callback cbs tracks

/-- A receive call behind its pump. -/
theorem Stream.tracks_take {w : Option Nat} (tracks : s.Tracks w) (len : Nat) :
    (s.take len).Tracks (w.map fun n => n - min n len) := by
  cases w with
  | none =>
    obtain ⟨kept, holds, loss⟩ := tracks
    exact ⟨kept, (holds_take holds len).1, loss⟩
  | some n =>
    obtain ⟨holds, count⟩ := tracks
    obtain ⟨holds', size⟩ := holds_take holds len
    refine ⟨holds', ?_⟩
    show s.delivered.length = (s.take len).returned.length + (n - min n len)
    omega

/-- **One event.** -/
theorem Stream.tracks_step {w : Option Nat} (tracks : s.Tracks w) (e : BioEvent) :
    ∃ s', s.step e = some s' ∧ s'.Tracks (w.bind fun n => waitingStep n e) := by
  cases e with
  | callback cb => exact tracks_callback tracks cb
  | recv len pump =>
    rw [step]
    cases w with
    | none =>
      split
      · obtain ⟨s', run, tracks'⟩ := tracks_callbacks pump tracks
        exact ⟨s'.take len, by rw [run]; rfl, tracks_take tracks' len⟩
      · exact ⟨s.take len, rfl, tracks_take tracks len⟩
    | some n =>
      have drained : s.bio.rxHead = s.bio.rxTail ↔ n = 0 := by
        rw [tracks.1.bio.drained_iff]
        have count := tracks.2
        omega
      rw [bind_some, waitingStep]
      by_cases empty : n = 0
      · obtain ⟨s', run, tracks'⟩ := tracks_callbacks pump tracks
        rw [if_pos (drained.mpr empty), if_pos empty]
        exact ⟨s'.take len, by rw [run]; rfl, tracks_take tracks' len⟩
      · rw [if_neg fun h => empty (drained.mp h), if_neg empty]
        exact ⟨s.take len, rfl, tracks_take tracks len⟩

/-- **A run** either keeps everything or has lost something, as the bytes that wait say. -/
theorem Stream.tracks_run {w : Option Nat} (events : List BioEvent) (tracks : s.Tracks w) :
    ∃ s', s.run events = some s' ∧ s'.Tracks (w.bind fun n => events.foldlM waitingStep n) :=
  tracks_foldlM tracks_step events tracks

end Run

theorem Stream.tracks_start : Stream.start.Tracks (some 0) :=
  ⟨⟨⟨Ring.holds_empty _ _, rfl, rfl⟩, rfl, rfl⟩, rfl⟩

/-- A run that has lost something has acknowledged it. -/
theorem Stream.lost_of_tracks {s : Stream} (tracks : s.Tracks none) : s.lost ≠ 0 := by
  obtain ⟨kept, holds, loss⟩ := tracks
  rw [Stream.lost, holds.used, holds.acked]
  omega

/-- **The stream under TLS is lossless exactly when every payload finds room.** -/
theorem bio_lossless_iff (events : List BioEvent) : Lossless events ↔ PayloadsFit events := by
  constructor
  · intro lossless
    obtain ⟨s, run, -, -, kept⟩ := lossless events.length
    obtain ⟨s', run', tracks⟩ := Stream.tracks_run events Stream.tracks_start
    rw [take_length, run'] at run
    cases run
    rw [PayloadsFit]
    rw [bind_some] at tracks
    cases waits : events.foldlM waitingStep 0 with
    | some n => rfl
    | none =>
      rw [waits] at tracks
      exact absurd kept (Stream.lost_of_tracks tracks)
  · intro fit k
    obtain ⟨s, run, tracks⟩ := Stream.tracks_run (events.take k) Stream.tracks_start
    rw [bind_some] at tracks
    have part : ((events.take k).foldlM waitingStep 0).isSome = true := by
      rw [PayloadsFit, ← take_append_drop k events, foldlM_append] at fit
      cases waits : (events.take k).foldlM waitingStep 0 with
      | some n => rfl
      | none =>
        rw [waits] at fit
        cases fit
    obtain ⟨n, waits⟩ := isSome_iff_exists.mp part
    rw [waits] at tracks
    obtain ⟨holds, count⟩ := tracks
    refine ⟨s, run, ?_, fun drained => ?_, ?_⟩
    · rw [holds.returned]
      exact List.take_prefix _ _
    · have all := holds.bio.drained_iff.mp drained
      rw [holds.returned, ← all, take_length]
    · rw [Stream.lost, holds.used, holds.acked, Nat.sub_self]

section Overflow

variable (full more : Pbuf)

/-- Two payloads, and no receive call between them. -/
def burst : List BioEvent := [.callback (.payload full), .callback (.payload more)]

theorem burst_overflows (fills : full.bytes.length = rxSize) (some_ : 0 < more.bytes.length) :
    (burst full more).foldlM waitingStep 0 = none := by
  rw [burst, foldlM_cons, waitingStep, waitingAfter, if_pos (by omega), waitingAfter]
  show [BioEvent.callback (.payload more)].foldlM waitingStep (0 + full.bytes.length) = none
  rw [foldlM_cons, waitingStep, waitingAfter, if_neg (by omega)]
  rfl

theorem burst_loses (fills : full.bytes.length = rxSize) (some_ : 0 < more.bytes.length) :
    ¬ Lossless (burst full more) ∧ ∃ s, Stream.start.run (burst full more) = some s ∧ s.lost ≠ 0 := by
  obtain ⟨s, run, tracks⟩ := Stream.tracks_run (burst full more) Stream.tracks_start
  rw [bind_some, burst_overflows full more fills some_] at tracks
  refine ⟨fun lossless => ?_, s, run, Stream.lost_of_tracks tracks⟩
  obtain ⟨s', run', -, -, kept⟩ := lossless (burst full more).length
  rw [take_length, run] at run'
  cases run'
  exact Stream.lost_of_tracks tracks kept

end Overflow

/-- A payload that fills the ring. -/
def fullPayload : Pbuf := ⟨List.replicate 16384 65, by rw [List.length_replicate]; decide⟩

/-- One byte. -/
def onePayload : Pbuf := ⟨[66], by decide⟩

/-- **A byte that finds the ring full is acknowledged and gone.** -/
theorem bio_loses_overflow : ¬ Lossless (burst fullPayload onePayload) ∧
    ∃ s, Stream.start.run (burst fullPayload onePayload) = some s ∧ s.lost ≠ 0 :=
  burst_loses fullPayload onePayload length_replicate (by decide)

end CanBoot.Net
