import CanBoot.Net.Netboot

/-!
# Which reply the server is from

Within a reply the strongest hint wins, as the comment on the ranking says. Between replies it does so as well: a hint
that is stronger than all of a later reply stays (`server_latest_iff`).
-/

namespace CanBoot.Net.Netboot

open List Option

/-- An OFFER or ACK, with the calls for the options that lwIP leaves to the hook. -/
structure Reply where
  siaddr : Addr
  calls : List Call
  kinds : ∀ c ∈ calls, c.msgType = 0 ∨ c.msgType = 2 ∨ c.msgType = 5

/-- The hints of a reply, the zero ones with them. -/
def Reply.hints (r : Reply) : List (Addr × Src) := (r.siaddr, .siaddr) :: r.calls.filterMap Call.hint

/-- **The strongest hint**: option 150 over option 66 over `siaddr`, and of two alike the later. -/
def strongest : List (Addr × Src) → Option (Addr × Src)
  | [] => none
  | h :: hints =>
    match strongest hints with
    | some g => if h.1 ≠ .zero ∧ g.2.rank < h.2.rank then some h else some g
    | none => if h.1 ≠ .zero then some h else none

def State.receive (s : State) (r : Reply) : State := r.calls.foldl (State.parseOption r.siaddr) s

/-- The hints of a reply that reach the hook: none without an option. -/
def Reply.given (r : Reply) : List (Addr × Src) := if r.calls = [] then [] else r.hints

/-! ## One reply -/

/-- A state after an optional hint. -/
def State.take (s : State) (h : Option (Addr × Src)) : State := h.elim s fun h => s.consider h.1 h.2

variable {s : State} {hints : List (Addr × Src)} {h : Addr × Src}

theorem strongest_mem (found : strongest hints = some h) : h ∈ hints ∧ h.1 ≠ .zero := by
  induction hints with
  | nil => cases found
  | cons g hints ih =>
    rw [strongest] at found
    grind

theorem foldl_consider : hints.foldl (fun s h => s.consider h.1 h.2) s = s.take (strongest hints) := by
  induction hints generalizing s with
  | nil => rfl
  | cons h hints ih =>
    rw [foldl_cons, ih, strongest]
    clear ih
    cases found : strongest hints with
    | none => by_cases zero : h.1 = .zero <;> simp [State.take, State.consider, zero]
    | some g =>
      have := (strongest_mem found).2
      by_cases zero : h.1 ≠ .zero ∧ g.2.rank < h.2.rank
      · simp only [State.take, elim_some, if_pos zero]
        grind [State.consider]
      · simp only [State.take, elim_some, if_neg zero]
        grind [State.consider]

theorem hint_kind {c : Call} (hint : c.hint = some h) : 1 < h.2.rank := by
  grind [Call.hint, Src.rank, map_eq_some_iff]

/-- A state that has taken a reply's `siaddr` is not changed by it again. -/
def State.Settled (siaddr : Addr) (s : State) : Prop := s.consider siaddr .siaddr = s

theorem settled_consider (siaddr : Addr) : (s.consider siaddr .siaddr).Settled siaddr := by
  grind [State.Settled, State.consider]

theorem State.Settled.consider {siaddr : Addr} (settled : s.Settled siaddr) (strong : 1 < h.2.rank) :
    (s.consider h.1 h.2).Settled siaddr := by
  grind [State.Settled, State.consider, Src.rank]

theorem foldl_parseOption {siaddr : Addr} {calls : List Call}
    (kinds : ∀ c ∈ calls, c.msgType = 0 ∨ c.msgType = 2 ∨ c.msgType = 5) (settled : s.Settled siaddr) :
    calls.foldl (State.parseOption siaddr) s = (calls.filterMap Call.hint).foldl (fun s h => s.consider h.1 h.2) s := by
  induction calls generalizing s with
  | nil => rfl
  | cons c calls ih =>
    obtain ⟨kind, kinds⟩ := forall_mem_cons.mp kinds
    rw [foldl_cons, filterMap_cons, State.parseOption, if_neg (by tauto), settled]
    cases hint : c.hint with
    | none => exact ih kinds settled
    | some h => exact ih kinds (settled.consider (hint_kind hint))

theorem given_kind {r : Reply} (mem : h ∈ r.given) : h.2 ≠ .none := by
  rw [Reply.given] at mem
  split at mem
  · cases mem
  · rcases mem_cons.mp mem with rfl | mem
    · exact Src.noConfusion
    · obtain ⟨c, -, hint⟩ := mem_filterMap.mp mem
      have := hint_kind hint
      grind [Src.rank]

/-- **Within a reply the strongest hint is considered.** -/
theorem receive_eq (s : State) (r : Reply) : s.receive r = r.given.foldl (fun s h => s.consider h.1 h.2) s := by
  obtain ⟨siaddr, calls, kinds⟩ := r
  cases calls with
  | nil => rfl
  | cons c calls =>
    rw [Reply.given, if_neg (cons_ne_nil _ _), Reply.hints, foldl_cons,
      ← foldl_parseOption kinds (settled_consider siaddr)]
    have again : (s.consider siaddr .siaddr).parseOption siaddr c = s.parseOption siaddr c := by
      rw [State.parseOption, State.parseOption, settled_consider (s := s) siaddr]
      grind
    rw [foldl_cons, again]
    rfl

/-! ## Any replies -/

theorem foldl_receive (s : State) (replies : List Reply) :
    replies.foldl State.receive s = s.take (strongest (replies.flatMap Reply.given)) := by
  rw [← foldl_consider, foldl_flatMap]
  exact congrArg (fun f => replies.foldl f s) (funext fun s => funext (receive_eq s))

theorem tftpServer_of_consider (found : h.1 ≠ .zero ∧ h.2 ≠ .none) (s : State) :
    (s.consider h.1 h.2).tftpServer = if h.2.rank < s.src.rank then s.tftpServer else some h.1 := by
  grind [State.consider, State.tftpServer]

theorem take_boot (found : h.1 ≠ .zero) : State.boot.take (some h) = ⟨h.1, h.2⟩ := by
  simp [State.take, State.consider, found, State.boot, Src.rank]

theorem receive_quiet {r : Reply} (none : strongest r.hints = none) (s : State) : s.receive r = s := by
  have given : strongest r.given = .none := by
    rw [Reply.given]
    split
    · rfl
    · exact none
  rw [receive_eq, foldl_consider, given]
  rfl

/-- **The server is from the last reply with a hint exactly if** that reply has an option for the hook and no earlier
reply had a stronger hint, or the strongest earlier hint names the same server. -/
theorem server_latest_iff (before after : List Reply) {reply : Reply} (hinted : strongest reply.hints = some h)
    (quiet : ∀ r ∈ after, strongest r.hints = none) :
    ((before ++ reply :: after).foldl State.receive .boot).tftpServer = some h.1 ↔
      (reply.calls ≠ [] ∧ ∀ g, strongest (before.flatMap Reply.given) = some g → g.2.rank ≤ h.2.rank) ∨
        (strongest (before.flatMap Reply.given)).map Prod.fst = some h.1 := by
  have still : ∀ s, after.foldl State.receive s = s := by
    intro s
    induction after with
    | nil => rfl
    | cons r after ih =>
      obtain ⟨none, quiet⟩ := forall_mem_cons.mp quiet
      rw [foldl_cons, receive_quiet none]
      exact ih quiet
  rw [foldl_append, foldl_cons, still, foldl_receive, receive_eq, foldl_consider]
  generalize earlier : strongest (before.flatMap Reply.given) = e
  have server : (State.boot.take e).tftpServer = e.map Prod.fst := by
    cases e with
    | none => rfl
    | some g =>
      obtain ⟨mem, nonzero⟩ := strongest_mem earlier
      obtain ⟨r, -, mem⟩ := mem_flatMap.mp mem
      simp [take_boot nonzero, State.tftpServer, nonzero, given_kind mem]
  by_cases heard : reply.calls = []
  · rw [Reply.given, if_pos heard]
    exact server ▸ by simp [heard, State.take, strongest]
  · have given : reply.given = reply.hints := if_neg heard
    obtain ⟨mem, nonzero⟩ := strongest_mem hinted
    have kind : h.2 ≠ .none := given_kind (given ▸ mem)
    rw [given, hinted]
    refine (congrArg (· = some h.1) (tftpServer_of_consider ⟨nonzero, kind⟩ _)).to_iff.trans ?_
    rw [server]
    cases e with
    | none => simp [heard, State.take, State.boot, Src.rank]
    | some g =>
      rw [take_boot (strongest_mem earlier).2]
      by_cases weaker : h.2.rank < g.2.rank
      · simp [weaker, heard, Nat.not_le.mpr weaker]
      · simp [weaker, heard, Nat.le_of_not_lt weaker]

/-- An OFFER with option 150. -/
def offer : Reply := ⟨.zero, [⟨2, 150, 4, [10, 0, 0, 1]⟩], by decide⟩

/-- An ACK with `siaddr` and the name of a server. -/
def ack : Reply := ⟨⟨10, 0, 0, 2⟩, [⟨5, 66, 4, [116, 102, 116, 112]⟩], by decide⟩

theorem server_latest_ack : ([ack].foldl State.receive .boot).tftpServer = some ⟨10, 0, 0, 2⟩ :=
  (server_latest_iff [] [] (show strongest ack.hints = some (⟨10, 0, 0, 2⟩, .siaddr) by decide) (by simp)).mpr
    (.inl ⟨by decide, by simp [strongest]⟩)

/-- The ACK names another server than the OFFER, and the OFFER's stays. -/
theorem offer_outlives_ack : strongest ack.hints = some (⟨10, 0, 0, 2⟩, .siaddr) ∧
    ([offer, ack].foldl State.receive .boot).tftpServer ≠ some ⟨10, 0, 0, 2⟩ := by decide

end CanBoot.Net.Netboot
