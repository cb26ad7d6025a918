import CanBoot.Cando.Sockets
import CanBoot.Lib.Ring

/-!
# The receive stream of a socket

What `recv` returns is always a prefix of what `recv_cb` kept, in order, however the counters wrap. But `recv_cb`
keeps only what fits: the rest of a segment is freed, and lwIP has acknowledged it. The stream is lossless exactly
when every segment finds room for all of it (`recv_lossless_iff`), and nothing in the flow control sees to that: the
window is opened again by what was copied into the ring, not by what `recv` took out (`recv_loses`).
-/

namespace CanBoot.Cando

open Lib List

/-- The socket's ring. -/
def NSock.ring (s : NSock) : Ring := ⟨s.rx, s.rxh, s.rxt⟩

/-- A socket after its history. -/
abbrev NSock.Holds (s : NSock) (kept : List UInt8) (taken : Nat) : Prop := s.ring.Holds rxcap kept taken

theorem rxcap_divides : rxcap ∣ 4294967296 := ⟨131072, rfl⟩

/-! ## The callback -/

theorem NSock.Holds.used {s : NSock} {kept : Bytes} {taken : Nat} (holds : s.Holds kept taken) :
    sub32 s.rxt s.rxh = kept.length - taken := Ring.Holds.used_eq (by decide) holds

/-- **The loop of `recv_cb` keeps what fits.** -/
theorem copyLoop_keeps {payload : Bytes} {fuel off : Nat} {s : NSock} {kept : Bytes} {taken : Nat}
    (holds : s.Holds kept taken) (inside : off ≤ payload.length) (enough : payload.length - off < fuel) :
    ∃ s', copyLoop payload fuel off s = some (s', off + min (payload.length - off) (rxcap - (kept.length - taken))) ∧
      s'.Holds (kept ++ (payload.drop off).take (rxcap - (kept.length - taken))) taken := by
  induction fuel generalizing off s kept with
  | zero => omega
  | succ fuel ih =>
    have order := holds.order
    have room := holds.room
    have space : sub32 rxcap (sub32 s.rxt s.rxh) = rxcap - (kept.length - taken) := by
      rw [holds.used, sub32_of_le (by decide) (by omega)]
    rw [copyLoop]
    by_cases more : off < payload.length
    · rw [if_pos more]
      simp only [space]
      by_cases full : rxcap - (kept.length - taken) = 0
      · refine ⟨s, by rw [if_pos full, full, Nat.min_zero, Nat.add_zero], ?_⟩
        rw [full, take_zero, append_nil]
        exact holds
      · rw [if_neg full]
        have start := Nat.mod_lt s.rxt (show 0 < rxcap by decide)
        -- the piece goes to the end of the buffer, of the room or of the payload, whichever is first
        generalize piece : (if (if rxcap - s.rxt % rxcap > rxcap - (kept.length - taken) then
            rxcap - (kept.length - taken) else rxcap - s.rxt % rxcap) > payload.length - off then payload.length - off
          else if rxcap - s.rxt % rxcap > rxcap - (kept.length - taken) then rxcap - (kept.length - taken)
          else rxcap - s.rxt % rxcap) = chunk
        have bounds : 0 < chunk ∧ chunk ≤ rxcap - (kept.length - taken) ∧ chunk ≤ payload.length - off ∧
            s.rxt % rxcap + chunk ≤ rxcap := by
          split at piece <;> split at piece <;> omega
        obtain ⟨positive, fits, within, unbroken⟩ := bounds
        have size : ((payload.drop off).take chunk).length = chunk := by
          rw [length_take, length_drop]
          omega
        have whole : s.rxt % rxcap + ((payload.drop off).take chunk).length ≤ rxcap := by
          rw [size]
          exact unbroken
        have put := holds.put (by decide) rxcap_divides (by omega) whole
        rw [Ring.put, size] at put
        obtain ⟨s', loop, holds'⟩ := @ih (off + chunk) { s with
          rx := putBytes s.rx (s.rxt % rxcap) ((payload.drop off).take chunk), rxt := u32 (s.rxt + chunk) } _ put (by omega) (by omega)
        rw [length_append, size] at loop holds'
        refine ⟨s', ?_, ?_⟩
        · rw [loop]
          congr 2
          omega
        · rw [append_assoc, ← drop_drop, ← take_add] at holds'
          rwa [show chunk + (rxcap - (kept.length + chunk - taken)) = rxcap - (kept.length - taken) by omega] at holds'
    · have none : payload.length - off = 0 := by omega
      refine ⟨s, by rw [if_neg more, none, Nat.zero_min, Nat.add_zero], ?_⟩
      rw [drop_of_length_le (by omega), take_nil, append_nil]
      exact holds

/-! ## The read -/

/-- **A turn of `recv` takes the oldest bytes.** -/
theorem recvTurn_takes {s : NSock} {kept : Bytes} {taken : Nat} (holds : s.Holds kept taken) (len : Nat)
    (timedOut : Bool) : (recvTurn s len timedOut).1.taken = (kept.drop taken).take len ∧
      (recvTurn s len timedOut).2.Holds kept (taken + min (kept.length - taken) len) := by
  have order := holds.order
  rw [recvTurn]
  simp only [holds.used]
  by_cases some : kept.length - taken > 0
  · rw [if_pos some]
    have count : (if kept.length - taken < len then kept.length - taken else u32 len) =
        min (kept.length - taken) len := by
      have room := holds.room
      have small : rxcap < 4294967296 := by decide
      split
      · omega
      · rw [u32_of_lt (by omega)]
        omega
    simp only [count]
    have front := holds.front_eq (n := min (kept.length - taken) len) (by decide) rxcap_divides (by omega)
    have all : (kept.drop taken).take (min (kept.length - taken) len) = (kept.drop taken).take len := by
      rw [take_eq_take_iff, length_drop]
      omega
    rw [all] at front
    refine ⟨?_, holds.drop (by omega)⟩
    rw [← front]
    simp only [Ring.front, NSock.ring, Got.taken]
    generalize min (kept.length - taken) len = n
    have piece : (if rxcap - s.rxh % rxcap > n then n else rxcap - s.rxh % rxcap) = min n (rxcap - s.rxh % rxcap) := by
      split <;> omega
    rw [piece]
    split
    · rfl
    · rename_i whole
      rw [show n - min n (rxcap - s.rxh % rxcap) = 0 by omega]
      rfl
  · have none : kept.length - taken = 0 := by omega
    have gone : (kept.drop taken).take len = [] := by
      rw [drop_of_length_le (by omega), take_nil]
    rw [if_neg some, none, Nat.zero_min, Nat.add_zero, gone]
    split_ifs <;> exact ⟨rfl, holds⟩

/-! ## Runs -/

/-- A connection after its history: what the ring kept, of which the first part was received. -/
structure Net.Holds (n : Net) (kept : List UInt8) : Prop where
  ring : n.sock.Holds kept n.received.length
  stream : n.received <+: kept

/-- How many bytes wait in the ring. -/
def Net.waits (n : Net) (kept : List UInt8) : Nat := kept.length - n.received.length

theorem Net.holds_start (rx : Buf) (nonblock : Bool) : (Net.start rx nonblock).Holds [] :=
  ⟨Ring.holds_empty _ _, List.prefix_refl _⟩

/-- Whether an event loses nothing, when `used` bytes wait in the ring, and how many wait after it. -/
def Event.room (used : Nat) : Event → Bool
  | .segment p => decide (used + p.bytes.length ≤ rxcap)
  | _ => true

def Event.after (used : Nat) : Event → Nat
  | .segment p => used + p.bytes.length
  | .fin => used
  | .recv len _ => used - min used len

/-- Each segment finds room for all of it. -/
def fits : Nat → List Event → Bool
  | _, [] => true
  | used, e :: rest => e.room used && fits (e.after used) rest

theorem Net.step_segment {n : Net} {kept : Bytes} (holds : n.Holds kept) (p : Pbuf) :
    ∃ sock, n.step (.segment p) = some { n with
        sock := sock
        wnd := min tcpWnd (n.wnd - p.bytes.length + min p.bytes.length (rxcap - n.waits kept))
        delivered := n.delivered ++ p.bytes } ∧
      sock.Holds (kept ++ p.bytes.take (rxcap - n.waits kept)) n.received.length := by
  obtain ⟨sock, loop, ring⟩ := @copyLoop_keeps p.bytes _ _ _ _ _ holds.ring (Nat.zero_le _) (Nat.lt_succ_self _)
  rw [Nat.zero_add, Nat.sub_zero] at loop
  refine ⟨sock, ?_, ring⟩
  have callback : recvCb n.sock 0 (some p) = some (sock, min p.bytes.length (rxcap - n.waits kept)) := loop
  rw [Net.step, callback]
  rfl

theorem Net.step_recv {n : Net} {kept : Bytes} (holds : n.Holds kept) (len : Nat) (timedOut : Bool) :
    ∃ n', n.step (.recv len timedOut) = some n' ∧ n'.Holds kept ∧ n'.delivered = n.delivered ∧ n'.wnd = n.wnd ∧
      n'.received.length = n.received.length + min (n.waits kept) len := by
  obtain ⟨got, ring⟩ := recvTurn_takes holds.ring len timedOut
  obtain ⟨rest, whole⟩ := holds.stream
  have size : ((kept.drop n.received.length).take len).length = min (n.waits kept) len := by
    rw [length_take, length_drop, Nat.min_comm]
    rfl
  rcases turn : recvTurn n.sock len timedOut with ⟨g, sock⟩
  rw [turn] at got ring
  have longer : (n.received ++ g.taken).length = n.received.length + min (n.waits kept) len := by
    rw [length_append, got, size]
  refine ⟨{ n with sock := sock, received := n.received ++ g.taken }, by simp only [Net.step, turn], ⟨?_, ?_⟩,
    rfl, rfl, longer⟩
  · rw [longer]
    exact ring
  · rw [got, ← whole, drop_left]
    exact (List.prefix_append_right_inj _).mpr (List.take_prefix _ _)

/-- What an event, or a run of them, makes of a connection whose ring kept `kept`. -/
structure Net.Ran (n n' : Net) (kept kept' : List UInt8) (room : Bool) : Prop where
  holds : n'.Holds kept'
  short : kept.length ≤ n.delivered.length → kept'.length ≤ n'.delivered.length
  whole : kept = n.delivered → room = true → kept' = n'.delivered
  lossy : kept.length < n.delivered.length ∨ kept.length ≤ n.delivered.length ∧ room = false →
    kept'.length < n'.delivered.length

theorem Net.step_ran {n : Net} {kept : Bytes} (holds : n.Holds kept) (e : Event) :
    ∃ n' kept', n.step e = some n' ∧ n.Ran n' kept kept' (e.room (n.waits kept)) ∧
      (e.room (n.waits kept) = true → n'.waits kept' = e.after (n.waits kept)) := by
  have order := holds.ring.order
  have full : n.waits kept ≤ rxcap := by
    have room := holds.ring.room
    rw [Net.waits]
    omega
  cases e with
  | segment p =>
    obtain ⟨sock, step, ring⟩ := Net.step_segment holds p
    have size : (kept ++ p.bytes.take (rxcap - n.waits kept)).length =
        kept.length + min (rxcap - n.waits kept) p.bytes.length := by
      rw [length_append, length_take]
    refine ⟨_, _, step, ⟨⟨ring, holds.stream.trans (List.prefix_append _ _)⟩, fun short => ?_, fun same room => ?_,
      fun lossy => ?_⟩, fun room => ?_⟩
    · rw [size, length_append]
      omega
    · have all : p.bytes.length ≤ rxcap - n.waits kept := by
        have fits := of_decide_eq_true room
        omega
      rw [take_of_length_le all, same]
    · rw [size, length_append]
      rcases lossy with less | ⟨less, spill⟩
      · omega
      · have misses := of_decide_eq_false spill
        omega
    · have fits := of_decide_eq_true room
      show (kept ++ _).length - n.received.length = n.waits kept + p.bytes.length
      rw [size]
      have waits : n.waits kept = kept.length - n.received.length := rfl
      omega
  | fin =>
    refine ⟨_, kept, rfl, ⟨⟨holds.ring, holds.stream⟩, id, fun same _ => same, fun lossy => ?_⟩, fun _ => rfl⟩
    exact lossy.elim id fun short => nomatch short.2
  | recv len timedOut =>
    obtain ⟨n', step, holds', delivered, _, received⟩ := Net.step_recv holds len timedOut
    refine ⟨n', kept, step, ⟨holds', by rw [delivered]; exact id, fun same _ => by rw [delivered]; exact same,
      fun lossy => ?_⟩, fun _ => ?_⟩
    · rw [delivered]
      exact lossy.elim id fun short => nomatch short.2
    · rw [Net.waits, received]
      show _ = n.waits kept - min (n.waits kept) len
      have waits : n.waits kept = kept.length - n.received.length := rfl
      omega

/-- **Every run ends**, and loses something exactly when a segment does not fit. -/
theorem Net.run_ran {events : List Event} {n : Net} {kept : Bytes} (holds : n.Holds kept) :
    ∃ n' kept', n.run events = some n' ∧ n.Ran n' kept kept' (fits (n.waits kept) events) := by
  induction events generalizing n kept with
  | nil => exact ⟨n, kept, rfl, holds, id, fun same _ => same, fun lossy => lossy.elim id fun short => nomatch short.2⟩
  | cons e events ih =>
    obtain ⟨n₁, kept₁, step, first, after⟩ := Net.step_ran holds e
    obtain ⟨n', kept', run, rest⟩ := ih first.holds
    refine ⟨n', kept', ?_, rest.holds, fun short => rest.short (first.short short), fun same room => ?_,
      fun lossy => ?_⟩
    · rw [Net.run, foldlM_cons, step]
      exact run
    · rw [fits, Bool.and_eq_true] at room
      refine rest.whole (first.whole same room.1) ?_
      rw [after room.1]
      exact room.2
    · cases room : e.room (n.waits kept) with
      | false =>
        refine rest.lossy (.inl (first.lossy ?_))
        exact lossy.imp id fun short => ⟨short.1, room⟩
      | true =>
        rcases lossy with less | ⟨less, spill⟩
        · exact rest.lossy (.inl (first.lossy (.inl less)))
        · rw [fits, room, Bool.true_and] at spill
          refine rest.lossy (.inr ⟨first.short less, ?_⟩)
          rw [after room]
          exact spill

/-! ## The stream -/

/-- The stream of a socket is lossless after some events: however it is read from there on, what was received is a
prefix of what was delivered, and all of it once the ring is drained. -/
def Lossless (rx : Buf) (nonblock : Bool) (events : List Event) : Prop :=
  ∀ lens : List Nat, ∃ n, (Net.start rx nonblock).run (events ++ lens.map fun len => .recv len false) = some n ∧
    n.received <+: n.delivered ∧ (n.sock.drained → n.received = n.delivered)

/-- A recv of the ring's size takes all that waits. -/
theorem Net.run_drain {n : Net} {kept : Bytes} (holds : n.Holds kept) :
    ∃ n', n.step (.recv rxcap false) = some n' ∧ n'.received = kept ∧ n'.delivered = n.delivered ∧ n'.sock.drained := by
  obtain ⟨n', step, holds', delivered, _, received⟩ := Net.step_recv holds rxcap false
  have room := holds.ring.room
  have order := holds.ring.order
  have all : n'.received.length = kept.length := by
    rw [received, Net.waits]
    omega
  have same := holds'.stream.eq_of_length all
  refine ⟨n', step, same, delivered, ?_⟩
  show sub32 n'.sock.rxt n'.sock.rxh = 0
  rw [holds'.ring.used, all, Nat.sub_self]

theorem Net.run_append {n n₁ : Net} {events rest : List Event} (first : n.run events = some n₁) :
    n.run (events ++ rest) = n₁.run rest := by
  rw [Net.run, foldlM_append]
  show (n.run events).bind _ = _
  rw [first]
  rfl

theorem fits_recvs (used : Nat) (lens : List Nat) : fits used (lens.map fun len => Event.recv len false) = true := by
  induction lens generalizing used with
  | nil => rfl
  | cons len lens ih => exact ih _

theorem lossless_of_fits {rx : Buf} {nonblock : Bool} {events : List Event} (room : fits 0 events = true) :
    Lossless rx nonblock events := by
  intro lens
  obtain ⟨n₁, kept₁, run₁, first⟩ := @Net.run_ran events _ _ (Net.holds_start rx nonblock)
  obtain ⟨n₂, kept₂, run₂, second⟩ := @Net.run_ran (lens.map fun len => Event.recv len false) _ _ first.holds
  have same : kept₂ = n₂.delivered := second.whole (first.whole rfl room) (fits_recvs _ _)
  refine ⟨n₂, by rw [Net.run_append run₁, run₂], same ▸ second.holds.stream, fun drained => ?_⟩
  rw [← same]
  refine second.holds.stream.eq_of_length ?_
  have used := second.holds.ring.used
  have order := second.holds.ring.order
  rw [show sub32 _ _ = 0 from drained] at used
  omega

theorem not_lossless_of_overflow {rx : Buf} {nonblock : Bool} {events : List Event} (spill : fits 0 events = false) :
    ¬ Lossless rx nonblock events := by
  intro lossless
  obtain ⟨n₁, kept, run₁, first⟩ := @Net.run_ran events _ _ (Net.holds_start rx nonblock)
  have less : kept.length < n₁.delivered.length := first.lossy (.inr ⟨Nat.le_refl _, spill⟩)
  obtain ⟨n₂, step, received, delivered, drained⟩ := Net.run_drain first.holds
  obtain ⟨n, run, _, whole⟩ := lossless [rxcap]
  rw [Net.run_append run₁] at run
  have last : n₁.run ([rxcap].map fun len => .recv len false) = some n₂ := by
    rw [map_singleton, Net.run, foldlM_cons, step]
    rfl
  cases last.symm.trans run
  rw [← received, ← delivered, whole drained] at less
  exact Nat.lt_irrefl _ less

/-- **The receive stream is lossless exactly when every segment fits.** -/
theorem recv_lossless_iff (rx : Buf) (nonblock : Bool) (events : List Event) :
    Lossless rx nonblock events ↔ fits 0 events = true := by
  refine ⟨fun lossless => ?_, lossless_of_fits⟩
  by_contra spill
  exact not_lossless_of_overflow (by simpa using spill) lossless

/-! ## The window -/

/-- lwIP delivers no more than the receive window it has announced. -/
def Windowed (n : Net) : List Event → Prop
  | [] => True
  | e :: rest => (∀ p, e = .segment p → p.bytes.length ≤ n.wnd) ∧ ∀ n', n.step e = some n' → Windowed n' rest

/-- Equal segments that fit, and one more, find the window as open as it was at the start. -/
theorem windowed_replicate {p : Pbuf} (small : p.bytes.length ≤ tcpMss) {k : Nat} {n : Net} {kept : Bytes}
    (holds : n.Holds kept) (opened : n.wnd = tcpWnd) (room : n.waits kept + k * p.bytes.length ≤ rxcap) :
    Windowed n (replicate (k + 1) (.segment p)) := by
  have within : tcpMss ≤ tcpWnd := by decide
  induction k generalizing n kept with
  | zero =>
    refine ⟨fun q same => ?_, fun n' _ => trivial⟩
    cases same
    omega
  | succ k ih =>
    refine ⟨fun q same => ?_, fun n' step => ?_⟩
    · cases same
      omega
    · rw [Nat.succ_mul] at room
      have fits : Event.room (n.waits kept) (.segment p) = true := decide_eq_true (by omega)
      obtain ⟨sock, step', _⟩ := Net.step_segment holds p
      obtain ⟨n₁, kept₁, step₁, ran, after⟩ := Net.step_ran holds (.segment p)
      cases step.symm.trans step₁
      refine ih ran.holds ?_ ?_
      · cases step.symm.trans step'
        show min tcpWnd _ = tcpWnd
        omega
      · rw [after fits]
        show n.waits kept + p.bytes.length + k * p.bytes.length ≤ rxcap
        omega

/-- A segment of the largest size. -/
def fullSegment : Pbuf := ⟨List.replicate tcpMss 0, by rw [List.length_replicate]; decide⟩

/-- **A slow reader loses bytes**: after twenty-three full segments without a `recv`, though lwIP kept to the
window. -/
theorem recv_loses : Windowed (Net.start (fun _ => 0) false) (List.replicate 23 (.segment fullSegment)) ∧
    ¬ Lossless (fun _ => 0) false (List.replicate 23 (.segment fullSegment)) := by
  have size : fullSegment.bytes.length = tcpMss := length_replicate
  refine ⟨windowed_replicate (Nat.le_of_eq size) (Net.holds_start _ _) rfl ?_, not_lossless_of_overflow ?_⟩
  · rw [size]
    decide
  · decide +kernel

end CanBoot.Cando
