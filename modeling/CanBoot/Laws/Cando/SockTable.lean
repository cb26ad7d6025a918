import CanBoot.Cando.SockTable
import CanBoot.Spec.Ledger

/-!
# Who has a slot

`Table.view` reads the table as a ledger: the queues are the backlogs of the open sockets that listen. Every step but
`sock_release` with a backlog is an operation of the ledger. `Leaks` lists the steps after which a slot is in nobody's
hands, or in two queues; `no_slot_leaks_iff` says that there are no others.
-/

namespace CanBoot.Cando.SockTable

open CanBoot.Spec Function List Option

/-- An open listening socket. -/
def Sock.listening (s : Sock) : Bool := s.used && decide (s.state = .listen)

/-- The backlog of an open listening socket. -/
def Sock.queue (s : Sock) : List Slot := if s.listening then s.backlog else []

/-- The table as a ledger. -/
def Table.view (t : Table) : Ledger Slot := ⟨Sock.used ∘ t.socks, t.held, Sock.queue ∘ t.socks⟩

variable {s : Sock}

theorem Sock.queue_of_listening (listens : s.listening = true) : s.queue = s.backlog := if_pos listens

theorem Sock.queue_of_deaf (deaf : s.listening = false) : s.queue = [] := by
  rw [queue, deaf]
  rfl

theorem Sock.queue_of_unused (unused : s.used = false) : s.queue = [] :=
  queue_of_deaf (by rw [listening, unused, Bool.false_and])

theorem Sock.queue_of_state (other : s.state ≠ .listen) : s.queue = [] :=
  queue_of_deaf (by rw [listening, decide_eq_false other, Bool.and_false])

section Views

variable {t : Table}

variable {i : Slot}

theorem view_update (t' : Table) (socks : t'.socks = update t.socks i s) :
    t'.view = ⟨update t.view.used i s.used, t'.held, update t.view.queue i s.queue⟩ := by
  rw [Table.view, socks, comp_update, comp_update]
  rfl

variable {t' : Table}

section

variable (socks : t'.socks = update t.socks i s) (held : t'.held = t.held) (used : s.used = (t.socks i).used)

include socks held used

/-- A change of a socket that neither lists nor frees it. -/
theorem view_of_same (queue : s.queue = (t.socks i).queue) : t'.view = t.view := by
  rw [view_update t' socks, used, queue, held]
  exact Ledger.ext (update_eq_self i _) rfl (update_eq_self i _)

/-- A change of a socket after which it does not listen. -/
theorem view_of_deaf (other : s.state ≠ .listen) : t'.view = t.view.drop i := by
  rw [view_update t' socks, used, Sock.queue_of_state other, held]
  exact Ledger.ext (update_eq_self i _) rfl rfl

end

theorem unused_of_findFree (found : t.findFree = some i) : (t.socks i).used = false := by
  have unused := find?_some found
  rwa [Bool.not_eq_true'] at unused

theorem view_socket (found : t.findFree = some i) : (t.socket true).view = t.view.take i := by
  have empty : t.view.queue i = [] := Sock.queue_of_unused (unused_of_findFree found)
  have made : t.socket true = { t.set i { Sock.zero with used := true, state := .new } with
      held := update t.held i true } := by
    simp only [Table.socket, found]
    rfl
  rw [made, view_update (t := t) _ rfl, Sock.queue_of_state (by decide), ← empty, update_eq_self]
  rfl

/-- A connection `p` of the listening block `lp` finds room in the backlog of `ls` and the free slot `i`. -/
structure Table.Arrives (t : Table) (lp p : Nat) (ls i : Slot) : Prop where
  listener : t.pcbs lp = some ⟨.listening, ls⟩
  fresh : t.pcbs p = none
  room : (t.socks ls).backlog.length < backlogMax
  found : t.findFree = some i

/-- The queues after an arrival. -/
def Table.joined (t : Table) (ls i : Slot) : Slot → List Slot :=
  if (t.socks ls).listening then update t.view.queue ls (t.view.queue ls ++ [i]) else t.view.queue

variable {lp p : Nat} {ls i : Slot}

theorem Table.Arrives.ne (arrives : t.Arrives lp p ls i) (listens : (t.socks ls).listening = true) : ls ≠ i := by
  rintro rfl
  rw [Sock.listening, unused_of_findFree arrives.found, Bool.false_and] at listens
  cases listens

theorem joined_others (t : Table) (ls i j : Slot) (ne : j ≠ i) (l : Slot) :
    (t.joined ls i l).count j = (t.view.queue l).count j := by
  rw [Table.joined]
  split
  · by_cases here : l = ls
    · subst here
      rw [update_self, count_append, count_singleton, if_neg (by simpa using ne.symm), Nat.add_zero]
    · rw [update_of_ne here]
  · rfl

theorem view_wire (unused : (t.socks i).used = false) (p : Nat) : (t.wire p i).view = t.view.enrol i t.view.queue := by
  have empty : t.view.queue i = [] := Sock.queue_of_unused unused
  rw [view_update (t := t) (t.wire p i) rfl, Sock.queue_of_state (fun h => St.noConfusion h), ← empty, update_eq_self]
  rfl

theorem view_push (t : Table) (ls i : Slot) : (t.push ls i).view = ⟨t.view.used, t.view.held, t.joined ls i⟩ := by
  rw [view_update (t := t) (t.push ls i) rfl]
  refine Ledger.ext (update_eq_self ls _) rfl ?_
  show update t.view.queue ls (if (t.socks ls).listening then (t.socks ls).backlog ++ [i] else []) = t.joined ls i
  rw [Table.joined]
  split
  · next listens => rw [show t.view.queue ls = (t.socks ls).backlog from if_pos listens]
  · next deaf =>
    have deaf : t.view.queue ls = [] := if_neg deaf
    rw [← deaf, update_eq_self]

theorem joined_wire (unused : (t.socks i).used = false) (p : Nat) (ls : Slot) :
    (t.wire p i).joined ls i = t.joined ls i := by
  have queues : (t.wire p i).view.queue = t.view.queue := by rw [view_wire unused]; rfl
  have listens : ((t.wire p i).socks ls).listening = (t.socks ls).listening := by
    by_cases same : ls = i
    · subst same
      rw [show (t.wire p ls).socks ls = _ from update_self .., Sock.listening, Sock.listening, unused]
      rfl
    · rw [show (t.wire p i).socks ls = t.socks ls from update_of_ne same ..]
  rw [Table.joined, Table.joined, queues, listens]

theorem acceptCb_cases (t : Table) (lp p : Nat) (ok : Bool) :
    (t.acceptCb lp p ok = t ∧ ∀ ls i, ok = true → ¬ t.Arrives lp p ls i) ∨
      ok = true ∧ ∃ ls i, t.Arrives lp p ls i ∧ t.acceptCb lp p ok = (t.wire p i).push ls i := by
  rw [Table.acceptCb]
  cases listener : t.pcbs lp with
  | none => exact .inl ⟨rfl, fun ls i _ arrives => by rw [arrives.listener] at listener; cases listener⟩
  | some pcb =>
    obtain ⟨role, ls⟩ := pcb
    have same : ∀ {k i}, t.Arrives lp p k i → role = .listening ∧ k = ls := fun arrives => by
      rw [arrives.listener] at listener
      cases listener
      exact ⟨rfl, rfl⟩
    cases role with
    | dialling | established => exact .inl ⟨rfl, fun _ _ _ arrives => Role.noConfusion (same arrives).1⟩
    | listening =>
      dsimp only
      split
      · next refused =>
        refine .inl ⟨rfl, fun k i good arrives => ?_⟩
        obtain rfl := (same arrives).2
        rcases refused with bad | taken | full
        · rw [good] at bad
          cases bad
        · rw [arrives.fresh] at taken
          cases taken
        · exact absurd arrives.room (Nat.not_lt.mpr full)
      · next taken =>
        simp only [not_or, Nat.not_le, Bool.not_eq_true, Bool.not_eq_true'] at taken
        obtain ⟨good, fresh, room⟩ := taken
        cases found : t.findFree with
        | none => exact .inl ⟨rfl, fun k i _ arrives => by rw [arrives.found] at found; cases found⟩
        | some i =>
          refine .inr ⟨by simpa using good, ls, i, ⟨listener, by simpa using fresh, room, found⟩, rfl⟩

theorem view_acceptCb (arrives : t.Arrives lp p ls i) :
    ((t.wire p i).push ls i).view = t.view.enrol i (t.joined ls i) := by
  have unused := unused_of_findFree arrives.found
  rw [view_push, joined_wire unused, view_wire unused]
  rfl

variable {tcp : Option Nat}

theorem fresh_eq_some : t.fresh tcp = some p ↔ tcp = some p ∧ t.pcbs p = none := by
  rw [Table.fresh, filter_eq_some_iff, isNone_iff_eq_none]

theorem view_done (t : Table) (k : Nat) : (t.done k).view = t.view := rfl

theorem connect_of_refused (refused : t.fresh tcp = none) : t.connect i tcp = t := by
  rw [Table.connect, refused]

theorem listen_of_refused (refused : t.fresh tcp = none) : t.listen i tcp = t := by
  rw [Table.listen, refused]

/-- `connect` with a new block takes the socket off its port. -/
theorem view_connect (fresh : t.fresh tcp = some p) (i : Slot) : (t.connect i tcp).view = t.view.drop i := by
  rw [Table.connect, fresh]
  exact view_of_deaf (s := { t.socks i with pcb := some p, state := .connecting }) rfl rfl rfl fun h => St.noConfusion h

/-- `listen` with a new block makes the backlog of an open socket its queue. -/
theorem view_listen (fresh : t.fresh tcp = some p) (i : Slot) :
    (t.listen i tcp).view = t.view.reopen i (if (t.socks i).used then (t.socks i).backlog else []) := by
  rw [Table.listen, fresh]
  have made := view_update (t := t) (i := i) (s := { t.socks i with pcb := some p, state := .listen })
    { t.set i { t.socks i with pcb := some p, state := .listen } with
      pcbs := update t.pcbs p (some ⟨.listening, i⟩) } rfl
  refine made.trans (Ledger.ext (update_eq_self i _) rfl ?_)
  show update t.view.queue i _ = update t.view.queue i _
  rw [Sock.queue, Sock.listening, decide_eq_true rfl, Bool.and_true]

/-- A socket that listens already keeps its queue. -/
theorem reopen_of_listening (listens : (t.socks i).listening = true) :
    t.view.reopen i (if (t.socks i).used then (t.socks i).backlog else []) = t.view := by
  have used : (t.socks i).used = true := by
    rw [Sock.listening, Bool.and_eq_true] at listens
    exact listens.1
  refine Ledger.ext rfl rfl ?_
  rw [if_pos used, ← Sock.queue_of_listening listens]
  exact update_eq_self i _

theorem view_connectedCb {s : Slot} (pcb : t.pcbs p = some ⟨.dialling, s⟩) (ok : Bool) :
    (t.connectedCb p ok).view = t.view.drop s := by
  rw [Table.connectedCb, pcb]
  refine view_of_deaf (s := { t.socks s with state := if ok then .connected else .err }) rfl rfl rfl ?_
  cases ok <;> exact fun h => St.noConfusion h

theorem view_errCb (t : Table) (p : Nat) : (t.errCb p).view = t.view := by
  have kept : ∀ s : Slot, ({ t.set s { t.socks s with
      pcb := none, state := if (t.socks s).state = .connecting then .err else (t.socks s).state } with
      pcbs := update t.pcbs p none } : Table).view = t.view := by
    intro s
    refine view_of_same (i := s) rfl rfl rfl ?_
    by_cases dialling : (t.socks s).state = .connecting
    · rw [if_pos dialling, Sock.queue_of_state (fun h => St.noConfusion h),
        Sock.queue_of_state (by rw [dialling]; exact fun h => St.noConfusion h)]
    · rw [if_neg dialling]
      rfl
  rw [Table.errCb]
  cases t.pcbs p with
  | none => rfl
  | some pcb =>
    obtain ⟨role, s⟩ := pcb
    cases role with
    | listening => rfl
    | dialling | established => exact kept s

/-- `accept` gives the program the first of a backlog. -/
theorem view_accept {idx : Slot} {rest : List Slot} (backlog : (t.socks i).backlog = idx :: rest)
    (socks : t'.socks = update t.socks i { t.socks i with backlog := rest })
    (held : t'.held = update t.held idx true) : t'.view = t.view.hand i idx := by
  rw [view_update t' socks, held]
  refine Ledger.ext (update_eq_self i _) rfl ?_
  show update t.view.queue i _ = update t.view.queue i (t.socks i).queue.tail
  cases listens : (t.socks i).listening with
  | true =>
    rw [Sock.queue_of_listening listens, backlog, tail_cons]
    exact congrArg _ (if_pos listens)
  | false =>
    rw [Sock.queue_of_deaf listens, tail_nil]
    exact congrArg _ (Sock.queue_of_deaf listens)

/-- A lookup changes nothing, or closes the descriptor of a slot that is not used. -/
theorem call_moves (t : Table) (op : Op) (fd : Int) : t.view.Move (t.call op fd).view True := by
  unfold Table.call
  cases looked : t.sockOf fd with
  | some i =>
    dsimp only
    split <;> exact .same
  | none =>
    cases slot : Table.slotOf fd with
    | none => cases op <;> exact .same
    | some i =>
      have unused : (t.socks i).used = false := by
        rw [Table.sockOf, slot, filter_some] at looked
        split at looked
        · cases looked
        · next unused => exact Bool.eq_false_iff.mpr unused
      cases op with
      | close => exact .forget unused
      | connect | listen | accept => exact .same

theorem view_released (t : Table) (i : Slot) : (t.released i).view = t.view.free i := by
  rw [view_update (t := t) (t.released i) rfl, Sock.queue_of_unused rfl]
  rfl

theorem sockRelease_wild {j : Slot} (mem : j ∈ (t.socks i).backlog) (nonzero : j ≠ 0) : t.sockRelease i = none := by
  rw [Table.sockRelease, if_pos]
  exact List.any_eq_true.mpr ⟨j, mem, decide_eq_true nonzero⟩

theorem sockRelease_zeros (zeros : ∀ j ∈ (t.socks i).backlog, j = 0) : t.sockRelease i = some (t.released i) := by
  rw [Table.sockRelease, if_neg]
  intro some_
  obtain ⟨j, mem, nonzero⟩ := List.any_eq_true.mp some_
  exact of_decide_eq_true nonzero (zeros j mem)

end Views

/-! ## The steps that lose a slot -/

/-- **The steps that lose a slot.** -/
inductive Leaks (t : Table) : Event → Prop where
  /-- A connection arrives for a socket that does not listen any more, and its slot is in nobody's hands. -/
  | unheard {lp p : Nat} {ls i : Slot} (arrives : t.Arrives lp p ls i) (unheld : t.held i = false)
      (deaf : (t.socks ls).listening = false) (nowhere : ¬ Once t.view.queue i) : Leaks t (.acceptCb lp p true)
  /-- A connection arrives, and its slot is in a backlog that was not told of an earlier close. -/
  | doubled {lp p : Nat} {ls i l : Slot} (arrives : t.Arrives lp p ls i) (unheld : t.held i = false)
      (listens : (t.socks ls).listening = true) (stale : i ∈ t.view.queue l) : Leaks t (.acceptCb lp p true)
  /-- A listener is taken for a connected socket by an earlier `connect` of its own. -/
  | connected {p : Nat} {ok : Bool} {s j : Slot} (pcb : t.pcbs p = some ⟨.dialling, s⟩)
      (awaits : t.view.Awaits (t.view.queue s) j) : Leaks t (.connectedCb p ok)
  /-- A listener with a backlog calls `connect`. -/
  | connect {k p : Nat} {timedOut : Bool} {i j : Slot} (pending : t.pending[k]? = some (.connect, i))
      (fresh : t.pcbs p = none) (awaits : t.view.Awaits (t.view.queue i) j) : Leaks t (.enter k (some p) timedOut)
  /-- A socket that listened before listens again, with slots in its backlog that are elsewhere by now. -/
  | relisten {k p : Nat} {timedOut : Bool} {i j : Slot} (pending : t.pending[k]? = some (.listen, i))
      (fresh : t.pcbs p = none) (used : (t.socks i).used = true) (deaf : (t.socks i).listening = false)
      (awaits : t.view.Awaits (t.socks i).backlog j) : Leaks t (.enter k (some p) timedOut)
  /-- A socket is closed with a slot other than zero in its backlog. -/
  | wild {k : Nat} {tcp : Option Nat} {timedOut : Bool} {i j : Slot} (pending : t.pending[k]? = some (.close, i))
      (mem : j ∈ (t.socks i).backlog) (nonzero : j ≠ 0) : Leaks t (.enter k tcp timedOut)
  /-- A listener is closed with slot zero in its backlog. -/
  | zero {k : Nat} {tcp : Option Nat} {timedOut : Bool} {i : Slot} (pending : t.pending[k]? = some (.close, i))
      (mem : 0 ∈ t.view.queue i) (used : (t.socks 0).used = true) (other : (0 : Slot) ≠ i) :
      Leaks t (.enter k tcp timedOut)

/-- **Closing a listener frees the slots of its backlog** and ends their connections. -/
def Freed (t : Table) (e : Event) (t' : Table) : Prop :=
  ∀ k tcp timedOut i, e = .enter k tcp timedOut → t.pending[k]? = some (.close, i) →
    ∀ j ∈ t.view.queue i, (t.socks j).used = true →
      (t'.socks j).used = false ∧ ∀ p, (t.socks j).pcb = some p → t'.pcbs p = none

/-- A step that ends, frees what it has to and loses no slot. -/
def Kept (t : Table) (e : Event) : Prop := ∃ t', t.step e = some t' ∧ Freed t e t' ∧ t'.view.Accounted

/-- What makes a close lose a slot. -/
inductive Clogged (t : Table) (i : Slot) : Prop where
  | wild {j : Slot} (mem : j ∈ (t.socks i).backlog) (nonzero : j ≠ 0)
  | zero (mem : 0 ∈ t.view.queue i) (used : (t.socks 0).used = true) (other : (0 : Slot) ≠ i)

/-- What makes a pending call lose a slot. -/
def Loses (t : Table) (tcp : Option Nat) (i : Slot) : Op → Prop
  | .connect => (∃ p, t.fresh tcp = some p) ∧ ∃ j, t.view.Awaits (t.view.queue i) j
  | .listen => (∃ p, t.fresh tcp = some p) ∧ (t.socks i).used = true ∧ (t.socks i).listening = false ∧
    ∃ j, t.view.Awaits (t.socks i).backlog j
  | .accept => False
  | .close => Clogged t i

section Steps

variable {t : Table} {k : Nat} {tcp : Option Nat} {timedOut : Bool}

theorem leaks_enter_iff :
    Leaks t (.enter k tcp timedOut) ↔ ∃ op i, t.pending[k]? = some (op, i) ∧ Loses t tcp i op := by
  constructor
  · intro leaks
    cases leaks with
    | connect pending fresh awaits => exact ⟨_, _, pending, ⟨_, fresh_eq_some.mpr ⟨rfl, fresh⟩⟩, _, awaits⟩
    | relisten pending fresh used deaf awaits =>
      exact ⟨_, _, pending, ⟨_, fresh_eq_some.mpr ⟨rfl, fresh⟩⟩, used, deaf, _, awaits⟩
    | wild pending mem nonzero => exact ⟨_, _, pending, .wild mem nonzero⟩
    | zero pending mem used other => exact ⟨_, _, pending, .zero mem used other⟩
  · rintro ⟨op, i, pending, loses⟩
    cases op with
    | connect =>
      obtain ⟨⟨p, fresh⟩, j, awaits⟩ := loses
      obtain ⟨rfl, unused⟩ := fresh_eq_some.mp fresh
      exact .connect pending unused awaits
    | listen =>
      obtain ⟨⟨p, fresh⟩, used, deaf, j, awaits⟩ := loses
      obtain ⟨rfl, unused⟩ := fresh_eq_some.mp fresh
      exact .relisten pending unused used deaf awaits
    | accept => exact loses.elim
    | close =>
      rcases loses with ⟨mem, nonzero⟩ | ⟨mem, used, other⟩
      · exact .wild pending mem nonzero
      · exact .zero pending mem used other

theorem leaks_iff {op : Op} {i : Slot} (pending : t.pending[k]? = some (op, i)) :
    Leaks t (.enter k tcp timedOut) ↔ Loses t tcp i op := by
  rw [leaks_enter_iff]
  refine ⟨fun ⟨op', i', other, loses⟩ => ?_, fun loses => ⟨op, i, pending, loses⟩⟩
  cases other.symm.trans pending
  exact loses

/-- A step that is a move of the ledger and leaks exactly if the move loses a slot. -/
def Moved (t : Table) (e : Event) (t' : Table) : Prop := ∃ safe, t.view.Move t'.view safe ∧ (safe ↔ ¬ Leaks t e)

theorem Moved.of_view {e : Event} {t' : Table} {M : Ledger Slot} {safe : Prop} (view : t'.view = M)
    (move : t.view.Move M safe) (careful : safe ↔ ¬ Leaks t e) : Moved t e t' :=
  ⟨safe, view ▸ move, careful⟩

theorem Moved.still {e : Event} {t' : Table} (move : t.view.Move t'.view True) (careful : ¬ Leaks t e) : Moved t e t' :=
  ⟨True, move, fun _ => careful, fun _ => trivial⟩

theorem socket_moves (t : Table) (stream : Bool) : t.view.Move (t.socket stream).view True := by
  cases stream with
  | false => exact .same
  | true =>
    cases found : t.findFree with
    | none =>
      simp only [Table.socket, found]
      exact .same
    | some i =>
      rw [view_socket found]
      exact .take i

theorem acceptCb_moved (t : Table) (lp p : Nat) (ok : Bool) : Moved t (.acceptCb lp p ok) (t.acceptCb lp p ok) := by
  rcases acceptCb_cases t lp p ok with ⟨same, never⟩ | ⟨rfl, ls, i, arrives, made⟩
  · rw [same]
    refine .still .same fun leaks => ?_
    cases leaks with
    | unheard arrives | doubled arrives => exact never _ _ rfl arrives
  have empty : t.view.queue i = [] := Sock.queue_of_unused (unused_of_findFree arrives.found)
  have alone : t.joined ls i i = [] := by
    rw [Table.joined]
    split
    · next listens => rwa [update_of_ne (arrives.ne listens).symm]
    · exact empty
  have only : ∀ {k j}, t.Arrives lp p k j → k = ls ∧ j = i := fun other => by
    have listener := other.listener.symm.trans arrives.listener
    cases listener
    exact ⟨rfl, Option.some.inj (other.found.symm.trans arrives.found)⟩
  rw [made]
  refine .of_view (view_acceptCb arrives) (.enrol alone (joined_others t ls i))
    ⟨fun kept leaks => ?_, fun careful => ?_⟩
  · cases leaks with
    | unheard other unheld deaf nowhere =>
      obtain ⟨rfl, rfl⟩ := only other
      rw [Table.joined, deaf] at kept
      exact nowhere (kept.resolve_left fun held => Bool.noConfusion (held.symm.trans unheld))
    | doubled other unheld listens stale =>
      obtain ⟨rfl, rfl⟩ := only other
      rw [Table.joined, if_pos listens] at kept
      exact once_push_iff.mp (kept.resolve_left fun held => Bool.noConfusion (held.symm.trans unheld)) _ stale
  · cases held : t.view.held i with
    | true => exact .inl rfl
    | false =>
      refine .inr ?_
      rw [Table.joined]
      cases listens : (t.socks ls).listening with
      | true =>
        exact once_push_iff.mpr fun l stale => careful (.doubled arrives held listens stale)
      | false =>
        by_contra nowhere
        exact careful (.unheard arrives held listens nowhere)

theorem connectedCb_moved (t : Table) (p : Nat) (ok : Bool) : Moved t (.connectedCb p ok) (t.connectedCb p ok) := by
  by_cases dials : ∃ s, t.pcbs p = some ⟨.dialling, s⟩
  · obtain ⟨s, pcb⟩ := dials
    refine .of_view (view_connectedCb pcb ok) (.drop s)
      ⟨fun none leaks => ?_, fun careful j awaits => careful (.connected pcb awaits)⟩
    cases leaks with
    | connected other awaits =>
      cases other.symm.trans pcb
      exact none _ awaits
  · have same : t.connectedCb p ok = t := by
      rw [Table.connectedCb]
      split
      · next s pcb => exact absurd ⟨s, pcb⟩ dials
      · rfl
    rw [same]
    refine .still .same fun leaks => ?_
    cases leaks with
    | connected other => exact dials ⟨_, other⟩

variable {i : Slot}

theorem connect_moved (pending : t.pending[k]? = some (.connect, i)) :
    Moved t (.enter k tcp timedOut) ((t.done k).connect i tcp) := by
  cases fresh : t.fresh tcp with
  | none =>
    rw [connect_of_refused (t := t.done k) fresh]
    exact .still .same (by simp [leaks_iff pending, Loses, fresh])
  | some p =>
    exact .of_view (view_connect (t := t.done k) fresh i) (.drop i) (by simp [leaks_iff pending, Loses, fresh])

theorem listen_moved (pending : t.pending[k]? = some (.listen, i)) :
    Moved t (.enter k tcp timedOut) ((t.done k).listen i tcp) := by
  cases fresh : t.fresh tcp with
  | none =>
    rw [listen_of_refused (t := t.done k) fresh]
    exact .still .same (by simp [leaks_iff pending, Loses, fresh])
  | some p =>
    have view : ((t.done k).listen i tcp).view = _ := view_listen (t := t.done k) fresh i
    cases listens : (t.socks i).listening with
    | true =>
      rw [reopen_of_listening (t := t.done k) listens] at view
      exact .still (view ▸ .same) (by simp [leaks_iff pending, Loses, listens])
    | false =>
      refine .of_view view (.reopen (Sock.queue_of_deaf listens)) ?_
      cases used : (t.socks i).used with
      | true => simp [leaks_iff pending, Loses, fresh, listens, used, Table.done]
      | false => simp [leaks_iff pending, Loses, used, Table.done, Ledger.Awaits]

/-- A turn of `accept` hands a slot over, or does nothing. -/
theorem accept_moved (tcp : Option Nat) (timedOut : Bool) (pending : t.pending[k]? = some (.accept, i)) :
    ∃ t', t.step (.enter k tcp timedOut) = some t' ∧ Moved t (.enter k tcp timedOut) t' := by
  have careful : ¬ Leaks t (.enter k tcp timedOut) := by
    rw [leaks_iff pending]
    exact id
  cases backlog : (t.socks i).backlog with
  | nil =>
    refine ⟨if timedOut then t.done k else t, by simp only [Table.step, Table.enter, pending, backlog], ?_⟩
    cases timedOut <;> exact .still .same careful
  | cons idx rest =>
    refine ⟨{ (t.done k).set i { t.socks i with backlog := rest } with held := update t.held idx true },
      by simp only [Table.step, Table.enter, pending, backlog],
      .of_view (view_accept backlog rfl rfl) (.hand ?_) ⟨fun _ => careful, fun _ => trivial⟩⟩
    cases listens : (t.socks i).listening with
    | true => exact .inr ⟨rest, (Sock.queue_of_listening listens).trans backlog⟩
    | false => exact .inl (Sock.queue_of_deaf listens)

/-- **A step that closes nothing is a move of the ledger.** -/
theorem step_moved {e : Event} (opens : ∀ k tcp timedOut i, e = .enter k tcp timedOut → t.pending[k]? ≠ some (.close, i)) :
    ∃ t', t.step e = some t' ∧ Moved t e t' := by
  cases e with
  | socket stream => exact ⟨_, rfl, .still (socket_moves t stream) fun leaks => by cases leaks⟩
  | call op fd => exact ⟨_, rfl, .still (call_moves t op fd) fun leaks => by cases leaks⟩
  | acceptCb lp p ok => exact ⟨_, rfl, acceptCb_moved t lp p ok⟩
  | connectedCb p ok => exact ⟨_, rfl, connectedCb_moved t p ok⟩
  | errCb p => exact ⟨_, rfl, .still (view_errCb t p ▸ .same) fun leaks => by cases leaks⟩
  | enter k tcp timedOut =>
    rcases pending : t.pending[k]? with _ | ⟨op, i⟩
    · refine ⟨t, by simp only [Table.step, Table.enter, pending], .still .same ?_⟩
      simp [leaks_enter_iff, pending]
    · cases op with
      | connect => exact ⟨_, by simp only [Table.step, Table.enter, pending], connect_moved pending⟩
      | listen => exact ⟨_, by simp only [Table.step, Table.enter, pending], listen_moved pending⟩
      | accept => exact accept_moved tcp timedOut pending
      | close => exact absurd pending (opens k tcp timedOut i rfl)

/-- `close` gives the slot back where its backlog has nothing that counts, and leaks where it has. -/
theorem close_cases (tcp : Option Nat) (timedOut : Bool) (pending : t.pending[k]? = some (.close, i)) :
    (¬ Leaks t (.enter k tcp timedOut) ∧ t.step (.enter k tcp timedOut) = some ((t.done k).released i) ∧
      Freed t (.enter k tcp timedOut) ((t.done k).released i) ∧ t.view.Move ((t.done k).released i).view True) ∨
    Leaks t (.enter k tcp timedOut) ∧ ¬ Kept t (.enter k tcp timedOut) := by
  have ends : t.step (.enter k tcp timedOut) = (t.done k).sockRelease i := by
    simp only [Table.step, Table.enter, pending]
  by_cases leaks : Leaks t (.enter k tcp timedOut)
  · refine .inr ⟨leaks, ?_⟩
    rintro ⟨t', ran, freed, -⟩
    rw [ends] at ran
    rcases (leaks_iff pending).mp leaks with ⟨mem, nonzero⟩ | ⟨mem, used, apart⟩
    · rw [sockRelease_wild (t := t.done k) mem nonzero] at ran
      cases ran
    · obtain ⟨-, released⟩ := ite_none_left_eq_some.mp ran
      cases released
      have gone := (freed k tcp timedOut i rfl pending 0 mem used).1
      have still : (((t.done k).released i).socks 0).used = (t.socks 0).used :=
        congrArg Sock.used (update_of_ne apart ..)
      exact Bool.noConfusion (gone.symm.trans (still.trans used))
  · have careful := (leaks_iff pending).not.mp leaks
    have zeros : ∀ j ∈ (t.socks i).backlog, j = 0 := fun j mem => by
      by_contra nonzero
      exact careful (.wild mem nonzero)
    have alone : ∀ j ∈ t.view.queue i, (t.socks j).used = true → j = i := by
      intro j mem used
      have listed : j ∈ (t.socks i).backlog := by
        cases listens : (t.socks i).listening with
        | true => rwa [show t.view.queue i = _ from Sock.queue_of_listening listens] at mem
        | false =>
          rw [show t.view.queue i = [] from Sock.queue_of_deaf listens] at mem
          cases mem
      obtain rfl := zeros j listed
      by_contra apart
      exact careful (.zero mem used apart)
    refine .inl ⟨leaks, ends.trans (sockRelease_zeros (t := t.done k) zeros), ?_, ?_⟩
    · rintro _ _ _ i' same closes j mem used
      cases same
      cases closes.symm.trans pending
      obtain rfl := alone j mem used
      have free : ((t.done k).released j).socks j = ⟨false, .free, none, []⟩ := update_self ..
      refine ⟨by rw [free], fun p pcb => ?_⟩
      show ((t.socks j).pcb.elim t.pcbs fun p => update t.pcbs p none) p = none
      rw [pcb]
      exact update_self ..
    · rw [view_released, view_done]
      exact .free alone

/-- **A step is kept exactly if it is not one of those that leak**, and then it keeps the queues from circles. -/
theorem kept_iff_careful (accounted : t.view.Accounted) (e : Event) : Kept t e ↔ ¬ Leaks t e := by
  by_cases closes : ∃ k tcp timedOut i, e = .enter k tcp timedOut ∧ t.pending[k]? = some (.close, i)
  · obtain ⟨k, tcp, timedOut, i, rfl, pending⟩ := closes
    rcases close_cases tcp timedOut pending with ⟨careful, ends, freed, move⟩ | ⟨leaks, lost⟩
    · exact ⟨fun _ => careful, fun _ => ⟨_, ends, freed, (move.accounted_iff accounted).mpr trivial⟩⟩
    · exact ⟨fun kept => absurd kept lost, fun careful => absurd leaks careful⟩
  · have opens : ∀ k tcp timedOut i, e = .enter k tcp timedOut → t.pending[k]? ≠ some (.close, i) :=
      fun k tcp timedOut i same pending => closes ⟨k, tcp, timedOut, i, same, pending⟩
    obtain ⟨t', ends, safe, move, careful⟩ := step_moved opens
    rw [← careful, ← move.accounted_iff accounted]
    constructor
    · rintro ⟨after, ran, -, kept⟩
      rwa [Option.some.inj (ends.symm.trans ran)]
    · exact fun kept => ⟨t', ends, fun k tcp timedOut i same pending => absurd pending (opens k tcp timedOut i same), kept⟩

theorem ranked_step (ranked : t.view.Ranked) {e : Event} {t' : Table} (careful : ¬ Leaks t e)
    (ends : t.step e = some t') : t'.view.Ranked := by
  by_cases closes : ∃ k tcp timedOut i, e = .enter k tcp timedOut ∧ t.pending[k]? = some (.close, i)
  · obtain ⟨k, tcp, timedOut, i, rfl, pending⟩ := closes
    rcases close_cases tcp timedOut pending with ⟨-, ran, -, move⟩ | ⟨leaks, -⟩
    · cases ends.symm.trans ran
      exact move.ranked trivial ranked
    · exact absurd leaks careful
  · obtain ⟨after, ran, safe, move, kept⟩ := step_moved fun k tcp timedOut i same pending =>
      closes ⟨k, tcp, timedOut, i, same, pending⟩
    cases ends.symm.trans ran
    exact move.ranked (kept.mpr careful) ranked

end Steps

/-! ## Runs -/

/-- **No slot is lost**: every slot that is used is a descriptor of the program or waits once, in one backlog of an open
listener; and with no descriptor left no slot is used. -/
structure NoLeak (t : Table) : Prop where
  accounted : t.view.Accounted
  empties : (∀ i, t.held i = false) → ∀ i, (t.socks i).used = false

/-- **A run loses no slot**: every step is defined, the table is sound before and after it, and closing a listener
frees its backlog. -/
def Sound : Table → List Event → Prop
  | t, [] => NoLeak t
  | t, e :: es => NoLeak t ∧ ∃ t', t.step e = some t' ∧ Freed t e t' ∧ Sound t' es

/-- No step of a run is one of those that leak. -/
def Careful : Table → List Event → Prop
  | _, [] => True
  | t, e :: es => ¬ Leaks t e ∧ ∀ t', t.step e = some t' → Careful t' es

theorem owned_view (t : Table) (l : Slot) (some_ : t.view.queue l ≠ []) : t.view.used l = true := by
  by_contra unused
  exact some_ (Sock.queue_of_unused (Bool.eq_false_iff.mpr unused))

variable {t : Table}

theorem noLeak_of_ranked (accounted : t.view.Accounted) (ranked : t.view.Ranked) : NoLeak t :=
  ⟨accounted, Ledger.unused_of_unheld accounted ranked (owned_view t)⟩

variable {es : List Event}

theorem Sound.noLeak (sound : Sound t es) : NoLeak t := by
  cases es with
  | nil => exact sound
  | cons e es => exact sound.1

theorem Sound.last (sound : Sound t es) {t' : Table}
    (run : es.foldlM Table.step t = some t') : NoLeak t' := by
  induction es generalizing t with
  | nil =>
    cases run
    exact sound
  | cons e es ih =>
    obtain ⟨-, next, ends, -, rest⟩ := sound
    rw [foldlM_cons, ends] at run
    exact ih rest run

theorem careful_of_sound (sound : Sound t es) : Careful t es := by
  induction es generalizing t with
  | nil => trivial
  | cons e es ih =>
    obtain ⟨before, t', ends, freed, rest⟩ := sound
    refine ⟨(kept_iff_careful before.accounted e).mp ⟨t', ends, freed, rest.noLeak.accounted⟩, fun after same => ?_⟩
    cases same.symm.trans ends
    exact ih rest

theorem sound_of_careful (accounted : t.view.Accounted) (ranked : t.view.Ranked)
    (careful : Careful t es) : Sound t es := by
  induction es generalizing t with
  | nil => exact noLeak_of_ranked accounted ranked
  | cons e es ih =>
    obtain ⟨first, rest⟩ := careful
    obtain ⟨t', ends, freed, after⟩ := (kept_iff_careful accounted e).mpr first
    exact ⟨noLeak_of_ranked accounted ranked, t', ends, freed, ih after (ranked_step ranked first ends) (rest t' ends)⟩

theorem accounted_start : Table.start.view.Accounted := fun _ used => by cases used

theorem ranked_start : Table.start.view.Ranked := ⟨fun _ => 0, fun _ _ awaits => by cases awaits.2.1⟩

end CanBoot.Cando.SockTable
