import CanBoot.Rt.AllocGuard
import Mathlib.Data.List.FinRange
import Mathlib.Data.List.Perm.Subperm

/-!
# Mutual exclusion of the allocator

The guard recognises a recursive entry by the number of the CPU. That is sound because a call keeps its thread where it
is: the count of the CPU is positive while the call is open (`Pinned`), so the thread that a CPU runs is the one that
entered there. The tickets form a queue of threads, of which the first holds the lock (`InLine`), and `alloc_owner` is
the CPU of the holder from its first store to its last (`Owner`).
-/

namespace CanBoot.Alloc

open Lib Preempt Function Option List

variable {n : Nat}

/-! ## Where a thread is -/

/-- In the allocator, in its work or in a call that the work made. -/
def Thread.InAllocator (th : Thread n) : Prop := th.pc = .inside ∨ 2 ≤ th.calls.length

/-- Each access belongs to a call: the lock is taken and freed by an outermost one. -/
def Thread.Wf (th : Thread n) : Prop :=
  match th.pc with
  | .outside | .yielding => th.calls = []
  | .entered | .inside | .leaving | .left => th.calls ≠ []
  | .locking | .spinning _ | .locked | .owning | .freeing | .unlocking => th.calls.length = 1

/-- With a ticket that is not served to its end. -/
def Thread.queues (th : Thread n) : Bool :=
  match th.pc with
  | .spinning _ | .locked | .owning | .inside | .leaving | .freeing | .unlocking => true
  | .entered | .left => 2 ≤ th.calls.length
  | .outside | .locking | .yielding => false

/-- With the ticket that is served. -/
def Thread.holds (th : Thread n) : Bool :=
  match th.pc with
  | .locked | .owning | .inside | .leaving | .freeing | .unlocking => true
  | .entered | .left => 2 ≤ th.calls.length
  | .outside | .locking | .spinning _ | .yielding => false

/-- Between its store to `alloc_owner` and the one of -1. -/
def Thread.owns (th : Thread n) : Bool :=
  match th.pc with
  | .owning | .inside | .leaving | .freeing => true
  | .entered | .left => 2 ≤ th.calls.length
  | .outside | .locking | .spinning _ | .locked | .unlocking | .yielding => false

/-- What `alloc_depth` is, where the thread has set it. -/
def Thread.deep (th : Thread n) : Option Nat :=
  match th.pc with
  | .inside | .leaving => some th.calls.length
  | .entered | .left => if 2 ≤ th.calls.length then some (th.calls.length - 1) else none
  | _ => none

/-- Where a thread stands: whether it queues, holds the lock and owns the guard. -/
def Thread.stands (th : Thread n) : Bool × Bool × Bool := (th.queues, th.holds, th.owns)

def Pc.spins : Pc → Bool
  | .spinning _ => true
  | _ => false

section Nested

variable {calls : List (Fin n × Nat)}

theorem Thread.stands_single (single : ¬ 2 ≤ calls.length) : Thread.stands ⟨.entered, calls⟩ = (false, false, false) ∧
    Thread.stands ⟨.left, calls⟩ = (false, false, false) := by
  simp only [stands, queues, holds, owns, single, decide_false, and_self]

variable (nested : 2 ≤ calls.length)

include nested

theorem Thread.stands_nested : Thread.stands ⟨.entered, calls⟩ = (true, true, true) ∧
    Thread.stands ⟨.left, calls⟩ = (true, true, true) := by
  simp only [stands, queues, holds, owns, nested, decide_true, and_self]

theorem Thread.deep_nested : Thread.deep ⟨.entered, calls⟩ = some (calls.length - 1) ∧
    Thread.deep ⟨.left, calls⟩ = some (calls.length - 1) := ⟨if_pos nested, if_pos nested⟩

end Nested

variable {th : Thread n}

theorem Thread.holds_of_owns (owned : th.owns = true) : th.holds = true := by
  obtain ⟨pc, calls⟩ := th
  cases pc <;> first | exact owned | rfl

theorem Thread.queues_of_holds (held : th.holds = true) : th.queues = true := by
  obtain ⟨pc, calls⟩ := th
  cases pc <;> first | exact held | rfl

theorem Thread.owns_of_deep {d : Nat} (set : th.deep = some d) : th.owns = true := by
  obtain ⟨pc, calls⟩ := th
  cases pc with
  | inside | leaving => rfl
  | entered | left => exact decide_eq_true (ite_none_right_eq_some.mp set).1
  | _ => cases set

theorem Thread.calls_of_queues (wf : th.Wf) (queued : th.queues = true) : th.calls ≠ [] := by
  obtain ⟨pc, calls⟩ := th
  intro none
  cases pc with
  | entered | inside | leaving | left => exact wf none
  | outside | locking | yielding => cases queued
  | spinning | locked | owning | freeing | unlocking =>
    have one : calls.length = 1 := wf
    rw [show calls = [] from none] at one
    cases one

theorem Thread.owns_of_inAllocator (wf : th.Wf) (inside : th.InAllocator) : th.owns = true := by
  obtain ⟨pc, calls⟩ := th
  rcases inside with rfl | nested
  · rfl
  · have nested : 2 ≤ calls.length := nested
    have several : calls.length ≠ 1 := by omega
    cases pc with
    | inside | leaving | owning | freeing => rfl
    | entered | left => exact decide_eq_true nested
    | outside | yielding =>
      have none : calls = [] := wf
      rw [none] at nested
      cases nested
    | locking | spinning | locked | unlocking => exact absurd wf several

/-! ## A call keeps its thread on its CPU -/

/-- The count of a CPU, below the calls of the thread that it runs: each found one less. -/
def Stacked (c : Fin n) : Nat → List (Fin n × Nat) → Prop
  | k, [] => k < nestMax
  | k, (c', found) :: calls => c' = c ∧ k = found + 1 ∧ Stacked c found calls

variable {c : Fin n}

theorem Stacked.le {k : Nat} {calls : List (Fin n × Nat)} (stacked : Stacked c k calls) :
    calls.length ≤ k ∧ k < nestMax + calls.length := by
  induction calls generalizing k with
  | nil => exact ⟨Nat.zero_le k, stacked⟩
  | cons call calls ih =>
    obtain ⟨-, rfl, below⟩ := stacked
    obtain ⟨low, high⟩ := ih below
    rw [length_cons]
    omega

/-- **A thread in a call is running**, on the CPU where it began it, and the CPU's count is above what the call found. -/
structure Pinned (s : State n) : Prop where
  distinct : Function.Injective s.current
  parked : ∀ t, s.Waits t → (s.threads t).calls = []
  wf : ∀ t, (s.threads t).Wf
  counted : ∀ c, Stacked c (s.flags c).preemptCount (s.here c).calls
  short : ∀ t, (s.threads t).calls.length ≤ nestMax

variable {s s' : State n}

/-- The thread of a CPU changes, and with it the flags of the CPU. -/
theorem Pinned.put (pinned : Pinned s) {flags : CpuFlags} (current : s'.current = s.current)
    (threads : s'.threads = update s.threads (s.current c) th) (flagged : s'.flags = update s.flags c flags)
    (wf : th.Wf) (counted : Stacked c flags.preemptCount th.calls) (short : th.calls.length ≤ nestMax) : Pinned s' := by
  refine ⟨current ▸ pinned.distinct, fun t waits => ?_, ?_, fun c' => ?_, ?_⟩
  · rw [State.Waits, current] at waits
    rw [threads, update_of_ne (waits c).symm]
    exact pinned.parked t waits
  · rw [threads]
    exact (forall_update_iff _ fun _ (th : Thread n) => th.Wf).mpr ⟨wf, fun t _ => pinned.wf t⟩
  · rw [State.here, current, threads, flagged]
    by_cases same : c' = c
    · rwa [same, update_self, update_self]
    · rw [update_of_ne (pinned.distinct.ne same), update_of_ne same]
      exact pinned.counted c'
  · rw [threads]
    exact (forall_update_iff _ fun _ (th : Thread n) => th.calls.length ≤ nestMax).mpr ⟨short, fun t _ => pinned.short t⟩

/-- The thread of a CPU goes on within its calls. -/
theorem Pinned.goto (pinned : Pinned s) {pc : Pc}
    (current : s'.current = s.current) (threads : s'.threads = (s.goto c pc).threads) (flags : s'.flags = s.flags)
    (wf : Thread.Wf ⟨pc, (s.here c).calls⟩) : Pinned s' := by
  refine pinned.put current threads ?_ wf (pinned.counted c) (pinned.short _)
  rw [flags, update_eq_self]

/-- A CPU switches from one thread without calls to another. -/
theorem Pinned.switch (pinned : Pinned s) {b : Nat} (waits : s.Waits b)
    (idle : (s.here c).calls = []) (current : s'.current = update s.current c b) (threads : s'.threads = s.threads)
    (flags : ∀ c', (s'.flags c').preemptCount = (s.flags c').preemptCount) : Pinned s' := by
  refine ⟨fun x y same => ?_, fun t away => ?_, threads ▸ pinned.wf, fun c' => ?_, threads ▸ pinned.short⟩
  · rw [current] at same
    by_cases atX : x = c <;> by_cases atY : y = c
    · rw [atX, atY]
    · rw [atX, update_self, update_of_ne atY] at same
      exact absurd same.symm (waits y)
    · rw [atY, update_self, update_of_ne atX] at same
      exact absurd same (waits x)
    · rw [update_of_ne atX, update_of_ne atY] at same
      exact pinned.distinct same
  · rw [threads]
    by_cases was : t = s.current c
    · rw [was]
      exact idle
    · refine pinned.parked t fun c' same => away c' ?_
      have elsewhere : c' ≠ c := fun here => was (here ▸ same.symm)
      rw [current, update_of_ne elsewhere, same]
  · rw [State.here, threads, flags, current]
    have counted := pinned.counted c'
    by_cases here : c' = c
    · rw [here] at counted ⊢
      rwa [update_self, pinned.parked b waits, ← idle]
    · rwa [update_of_ne here]

/-- The flags of a CPU change, but for its count. -/
theorem Pinned.reflag (pinned : Pinned s) (current : s'.current = s.current) (threads : s'.threads = s.threads)
    (flags : ∀ c, (s'.flags c).preemptCount = (s.flags c).preemptCount) : Pinned s' := by
  refine ⟨current ▸ pinned.distinct, fun t waits => ?_, threads ▸ pinned.wf, fun c => ?_, threads ▸ pinned.short⟩
  · rw [State.Waits, current] at waits
    rw [threads]
    exact pinned.parked t waits
  · rw [State.here, current, threads, flags]
    exact pinned.counted c

/-- Where the count is zero no call is open. -/
theorem Pinned.idle (pinned : Pinned s) (zero : (s.flags c).preemptCount = 0) : (s.here c).calls = [] := by
  have none := (pinned.counted c).le.1
  rw [zero, Nat.le_zero] at none
  exact eq_nil_of_length_eq_zero none

/-! ## The queue at the lock -/

/-- **The threads with a ticket are a queue**, and the one that holds the lock is its head. -/
structure Line (s : State n) (queue : List Nat) (ticket : Nat → Nat) : Prop where
  queues : s.lock.Queues ticket queue
  nodup : queue.Nodup
  mem : ∀ t, t ∈ queue ↔ (s.threads t).queues = true
  ticket : ∀ t k, (s.threads t).pc = .spinning k → ticket t = k
  head : ∀ t, (s.threads t).holds = true → queue.head? = some t

def InLine (s : State n) : Prop := ∃ queue ticket, Line s queue ticket

/-- At most one thread holds the lock. -/
theorem InLine.exclusive (line : InLine s) {t u : Nat} (first : (s.threads t).holds = true)
    (second : (s.threads u).holds = true) : t = u := by
  obtain ⟨queue, ticket, line⟩ := line
  exact Option.some.inj ((line.head t first).symm.trans (line.head u second))

section Moves

variable {s s' : State n} {t : Nat} {th : Thread n} (threads : s'.threads = update s.threads t th)

include threads

/-- What holds of the thread that moved and of the others as they were holds of all. -/
theorem forall_threads {P : Nat → Thread n → Prop} (self : P t th) (other : ∀ u, u ≠ t → P u (s.threads u)) :
    ∀ u, P u (s'.threads u) := by
  rw [threads]
  exact (forall_update_iff _ P).mpr ⟨self, other⟩

/-- A queue of the same threads, but for the one that moved. -/
theorem Line.of_moved {queue queue' : List Nat} {ticket ticket' : Nat → Nat} (line : Line s queue ticket)
    (queues : s'.lock.Queues ticket' queue') (nodup : queue'.Nodup)
    (others : ∀ u, u ≠ t → (u ∈ queue' ↔ u ∈ queue) ∧ ticket' u = ticket u ∧
      (queue.head? = some u → queue'.head? = some u))
    (mem : t ∈ queue' ↔ th.queues = true) (own : ∀ k, th.pc = .spinning k → ticket' t = k)
    (head : th.holds = true → queue'.head? = some t) : Line s' queue' ticket' where
  queues := queues
  nodup := nodup
  mem := forall_threads threads (P := fun u th => u ∈ queue' ↔ th.queues = true) mem fun u ne =>
    (others u ne).1.trans (line.mem u)
  ticket := forall_threads threads (P := fun u th => ∀ k, th.pc = .spinning k → ticket' u = k) own fun u ne k pc =>
    (others u ne).2.1.trans (line.ticket u k pc)
  head := forall_threads threads (P := fun u th => th.holds = true → queue'.head? = some u) head fun u ne held =>
    (others u ne).2.2 (line.head u held)

/-- A thread that keeps its place in the queue. -/
theorem InLine.stay (line : InLine s) (lock : s'.lock = s.lock) (queues : th.queues = (s.threads t).queues)
    (holds : th.holds = (s.threads t).holds) (still : th.pc.spins = false) : InLine s' := by
  obtain ⟨queue, ticket, line⟩ := line
  refine ⟨queue, ticket, line.of_moved threads (lock ▸ line.queues) line.nodup (fun u _ => ⟨.rfl, rfl, id⟩)
    (queues ▸ line.mem t) (fun k pc => ?_) (holds ▸ line.head t)⟩
  rw [pc] at still
  cases still

/-- A thread draws a ticket. -/
theorem InLine.join (line : InLine s) (lock : s'.lock = s.lock.draw.2) (outside : (s.threads t).queues = false)
    (spins : th.pc = .spinning s.lock.draw.1)
    (room : ∀ queue ticket, Line s queue ticket → queue.length + 1 ≤ 4294967296) : InLine s' := by
  obtain ⟨queue, ticket, line⟩ := line
  have absent : t ∉ queue := fun mem => Bool.noConfusion (outside.symm.trans ((line.mem t).mp mem))
  refine ⟨queue ++ [t], update ticket t s.lock.draw.1, line.of_moved threads ?_ ?_ (fun u ne => ⟨?_, ?_, fun first => ?_⟩)
    ?_ (fun k pc => ?_) fun held => ?_⟩
  · rw [lock]
    exact line.queues.draw absent (room queue ticket line)
  · exact nodup_append.mpr ⟨line.nodup, nodup_singleton t, fun a memA b memB same => by
      rw [mem_singleton.mp memB] at same
      exact absent (same ▸ memA)⟩
  · rw [mem_append, mem_singleton, or_iff_left ne]
  · rw [update_of_ne ne]
  · rw [head?_append, first]
    rfl
  · rw [Thread.queues, spins]
    exact iff_of_true (mem_append_right _ mem_cons_self) rfl
  · rw [spins] at pc
    rw [update_self]
    cases pc
    rfl
  · rw [Thread.holds, spins] at held
    cases held

/-- A thread finds its ticket served. -/
theorem InLine.serve (line : InLine s) (lock : s'.lock = s.lock) {k : Nat} (spins : (s.threads t).pc = .spinning k)
    (serves : s.lock.serves k = true) (locked : th.pc = .locked) : InLine s' := by
  obtain ⟨queue, ticket, line⟩ := line
  have mem : t ∈ queue := (line.mem t).mpr (by rw [Thread.queues, spins])
  have first : queue.head? = some t := by
    rw [← line.queues.serves_iff mem, line.ticket t k spins]
    exact serves
  refine ⟨queue, ticket, line.of_moved threads (lock ▸ line.queues) line.nodup (fun u _ => ⟨.rfl, rfl, id⟩)
    (iff_of_true mem ?_) (fun k' pc => ?_) fun _ => first⟩
  · rw [Thread.queues, locked]
  · rw [locked] at pc
    cases pc

/-- The holder leaves the queue. -/
theorem InLine.release (line : InLine s) (lock : s'.lock = s.lock.advance) (held : (s.threads t).holds = true)
    (gone : th.queues = false) : InLine s' := by
  obtain ⟨queue, ticket, line⟩ := line
  obtain ⟨rest, rfl⟩ := head?_eq_some_iff.mp (line.head t held)
  obtain ⟨absent, nodup⟩ := nodup_cons.mp line.nodup
  refine ⟨rest, ticket, line.of_moved threads (lock ▸ line.queues.advance) nodup (fun u ne => ⟨?_, rfl, fun first => ?_⟩)
    ?_ (fun k pc => ?_) fun holds => ?_⟩
  · rw [mem_cons, or_iff_right ne]
  · cases first
    exact absurd rfl ne
  · rw [gone]
    exact iff_of_false absent Bool.false_ne_true
  · rw [Thread.queues, pc] at gone
    cases gone
  · rw [Thread.queues_of_holds holds] at gone
    cases gone

end Moves

theorem InLine.congr (line : InLine s) (threads : s'.threads = s.threads) (lock : s'.lock = s.lock) : InLine s' := by
  obtain ⟨queue, ticket, line⟩ := line
  exact ⟨queue, ticket, lock ▸ line.queues, line.nodup, threads ▸ line.mem, threads ▸ line.ticket, threads ▸ line.head⟩

/-- As many threads wait at most as there are CPUs. -/
theorem Line.length_le (pinned : Pinned s) {queue : List Nat} {ticket : Nat → Nat}
    (line : Line s queue ticket) : queue.length ≤ n := by
  have runs : queue ⊆ (finRange n).map s.current := by
    intro t mem
    by_contra away
    have waits : s.Waits t := fun c same => away (List.mem_map.mpr ⟨c, mem_finRange c, same⟩)
    exact Thread.calls_of_queues (pinned.wf t) ((line.mem t).mp mem) (pinned.parked t waits)
  have fewer := (subperm_of_subset line.nodup runs).length_le
  rwa [length_map, length_finRange] at fewer

/-! ## The owner -/

/-- **`alloc_owner` is the CPU of the holder**, from its first store to its last, and `alloc_depth` its open calls. -/
structure Owner (s : State n) : Prop where
  owned : ∀ c, (s.here c).owns = true → s.owner = toInt32 c
  free : (∀ c, (s.here c).owns = false) → s.owner = -1
  deep : ∀ t d, (s.threads t).deep = some d → s.depth = d

section Owners

variable {s s' : State n} {c : Fin n} {th : Thread n} (pinned : Pinned s) (line : InLine s) (owner : Owner s)
  (current : s'.current = s.current) (threads : s'.threads = update s.threads (s.current c) th)

include pinned current threads in
theorem forall_here {P : Fin n → Thread n → Prop} (self : P c th) (other : ∀ c', c' ≠ c → P c' (s.here c')) :
    ∀ c', P c' (s'.here c') := by
  have moved : s'.here = update s.here c th := by
    rw [show s'.here = s'.threads ∘ s'.current from rfl, current, threads]
    exact update_comp_eq_of_injective s.threads pinned.distinct c th
  rw [moved]
  exact (forall_update_iff _ P).mpr ⟨self, other⟩

include line

include pinned in
/-- Nobody else owns while the thread of a CPU holds the lock. -/
theorem owns_other (held : (s.here c).holds = true) {c' : Fin n} (ne : c' ≠ c) : (s.here c').owns = false := by
  by_contra owns
  have holds := Thread.holds_of_owns (Bool.not_eq_false _ ▸ owns)
  exact ne (pinned.distinct (line.exclusive holds held))

theorem deep_other (held : (s.here c).holds = true) {t : Nat} (ne : t ≠ s.current c) : (s.threads t).deep = none := by
  cases deep : (s.threads t).deep with
  | none => rfl
  | some d => exact absurd (line.exclusive (Thread.holds_of_owns (Thread.owns_of_deep deep)) held) ne

include pinned current threads

include owner in
/-- A thread that owns as it did. -/
theorem Owner.stay (same : s'.owner = s.owner) (owns : th.owns = (s.here c).owns)
    (deep : th.deep.getD s'.depth = s'.depth) (quiet : s'.depth = s.depth ∨ (s.here c).holds = true) : Owner s' := by
  have all : ∀ c', (s'.here c').owns = (s.here c').owns :=
    forall_here pinned current threads (P := fun c' th => th.owns = (s.here c').owns) owns fun _ _ => rfl
  refine ⟨fun c' own => ?_, fun none => ?_, forall_threads threads (P := fun _ th => ∀ d, th.deep = some d → s'.depth = d)
    (fun d set => ?_) fun t ne d set => ?_⟩
  · rw [same]
    exact owner.owned c' (all c' ▸ own)
  · rw [same]
    exact owner.free fun c' => all c' ▸ none c'
  · rw [set] at deep
    exact deep.symm
  · rcases quiet with quiet | held
    · rw [quiet]
      exact owner.deep t d set
    · rw [deep_other line held ne] at set
      cases set

/-- The holder stores its CPU. -/
theorem Owner.take (stored : s'.owner = toInt32 c) (held : (s.here c).holds = true) (owns : th.owns = true)
    (unset : th.deep = none) : Owner s' := by
  refine ⟨forall_here pinned current threads (P := fun c' th => th.owns = true → s'.owner = toInt32 c') (fun _ => stored)
    fun c' ne own => ?_, fun none => ?_,
    forall_threads threads (P := fun _ th => ∀ d, th.deep = some d → s'.depth = d) (fun d set => ?_) fun t ne d set => ?_⟩
  · rw [owns_other pinned line held ne] at own
    cases own
  · have self := none c
    rw [State.here, current, threads, update_self, owns] at self
    cases self
  · rw [unset] at set
    cases set
  · rw [deep_other line held ne] at set
    cases set

/-- The holder stores -1. -/
theorem Owner.drop (stored : s'.owner = -1) (held : (s.here c).holds = true) (owns : th.owns = false) : Owner s' := by
  have none : ∀ c', (s'.here c').owns = false :=
    forall_here pinned current threads (P := fun _ th => th.owns = false) owns fun _ => owns_other pinned line held
  refine ⟨fun c' own => ?_, fun _ => stored,
    forall_threads threads (P := fun _ th => ∀ d, th.deep = some d → s'.depth = d) (fun d set => ?_) fun t ne d set => ?_⟩
  · rw [none c'] at own
    cases own
  · rw [Thread.owns_of_deep set] at owns
    cases owns
  · rw [deep_other line held ne] at set
    cases set

end Owners

theorem Thread.not_owns_of_idle (wf : th.Wf) (idle : th.calls = []) : th.owns = false := by
  by_contra owns
  exact calls_of_queues wf (queues_of_holds (holds_of_owns (Bool.not_eq_false _ ▸ owns))) idle

/-- A CPU switches from one thread without calls to another. -/
theorem Owner.switch (owner : Owner s) (pinned : Pinned s) {b : Nat} (waits : s.Waits b)
    (idle : (s.here c).calls = []) (current : s'.current = update s.current c b) (threads : s'.threads = s.threads)
    (same : s'.owner = s.owner) (depth : s'.depth = s.depth) : Owner s' := by
  have all : ∀ c', (s'.here c').owns = (s.here c').owns := fun c' => by
    rw [State.here, threads, current]
    by_cases eq : c' = c
    · have old : (s.here c).owns = false := Thread.not_owns_of_idle (pinned.wf _) idle
      rw [eq, update_self, Thread.not_owns_of_idle (pinned.wf b) (pinned.parked b waits), old]
    · rw [update_of_ne eq, State.here]
  refine ⟨fun c' own => ?_, fun none => ?_, fun t d set => ?_⟩
  · rw [same]
    exact owner.owned c' (all c' ▸ own)
  · rw [same]
    exact owner.free fun c' => all c' ▸ none c'
  · rw [threads] at set
    rw [depth]
    exact owner.deep t d set

/-! ## Steps -/

theorem preemptCount_tick (runnable : Bool) (flags : CpuFlags) :
    (canbootSchedOnTick runnable flags).1.preemptCount = flags.preemptCount := by
  rw [canbootSchedOnTick]
  split <;> rfl

/-- A tick that switches found the count at zero. -/
theorem of_switched {runnable : Bool} {flags : CpuFlags} (switched : (canbootSchedOnTick runnable flags).2 = .direct true) :
    flags.preemptCount = 0 ∧ runnable = true := by
  rw [canbootSchedOnTick] at switched
  split at switched
  · cases switched
  · next zero =>
    cases switched
    exact ⟨Decidable.not_not.mp zero, rfl⟩

/-- What holds in every state of a run. -/
structure Inv (s : State n) : Prop where
  pinned : Pinned s
  line : InLine s
  owner : Owner s

theorem inv_start (n : Nat) : Inv (State.start n) where
  pinned := ⟨fun _ _ same => Fin.ext same, fun _ _ => rfl, fun _ => rfl, fun _ => (by decide : 0 < nestMax),
    fun _ => Nat.zero_le _⟩
  line := by
    refine ⟨[], fun _ => 0, Ticket.queues_nil _, nodup_nil, fun t => ?_, fun t k pc => ?_, fun t held => ?_⟩
    · exact ⟨fun mem => absurd mem not_mem_nil, fun no => Bool.noConfusion no⟩
    · cases pc
    · cases held
  owner := by
    refine ⟨fun c own => ?_, fun _ => rfl, fun t d set => ?_⟩
    · cases own
    · cases set

section Steps

variable {s s' : State n} {c : Fin n} {pc : Pc} {calls : List (Fin n × Nat)} (inv : Inv s)
  (here : s.here c = ⟨pc, calls⟩)

include here

omit inv in
theorem goto_eq (pc' : Pc) : s.goto c pc' = s.put c ⟨pc', calls⟩ := by rw [State.goto, here]

include inv

/-- The thread of a CPU goes on, without a change for the others. -/
theorem Inv.put (pc' : Pc) (calls' : List (Fin n × Nat)) (flags : CpuFlags) (depth : Nat)
    (counted : Stacked c flags.preemptCount calls') (short : calls'.length ≤ nestMax) (wf : Thread.Wf ⟨pc', calls'⟩)
    (stands : Thread.stands ⟨pc', calls'⟩ = Thread.stands ⟨pc, calls⟩) (still : pc'.spins = false)
    (deep : (Thread.deep ⟨pc', calls'⟩).getD depth = depth)
    (quiet : depth = s.depth ∨ Thread.holds ⟨pc, calls⟩ = true) :
    Inv { s.put c ⟨pc', calls'⟩ with flags := update s.flags c flags, depth := depth } := by
  rw [← here] at stands quiet
  obtain ⟨queues, holds, owns⟩ : _ ∧ _ ∧ _ := by simpa only [Thread.stands, Prod.mk.injEq] using stands
  exact ⟨inv.pinned.put rfl rfl rfl wf counted short, inv.line.stay rfl rfl queues holds still,
    Owner.stay inv.pinned inv.line inv.owner rfl rfl rfl owns deep quiet⟩

/-- The same, within the calls that are open. -/
theorem Inv.goto (pc' : Pc) (depth : Nat) (wf : Thread.Wf ⟨pc', calls⟩)
    (stands : Thread.stands ⟨pc', calls⟩ = Thread.stands ⟨pc, calls⟩) (still : pc'.spins = false)
    (deep : (Thread.deep ⟨pc', calls⟩).getD depth = depth)
    (quiet : depth = s.depth ∨ Thread.holds ⟨pc, calls⟩ = true) : Inv { s.goto c pc' with depth := depth } := by
  have counted := inv.pinned.counted c
  have short : (s.here c).calls.length ≤ nestMax := inv.pinned.short (s.current c)
  rw [here] at counted short
  have put := inv.put here pc' calls (s.flags c) depth counted short wf stands still deep quiet
  rwa [update_eq_self, ← goto_eq here] at put

theorem Inv.wf : Thread.Wf ⟨pc, calls⟩ := here ▸ inv.pinned.wf (s.current c)

theorem Inv.depth_eq {d : Nat} (deep : Thread.deep ⟨pc, calls⟩ = some d) : s.depth = d :=
  inv.owner.deep (s.current c) d (by rw [← deep, ← here]; rfl)

omit here in
theorem Inv.call (begun : s.call c = some s') : Inv s' := by
  obtain ⟨⟨idle, short⟩, made⟩ := ite_none_right_eq_some.mp begun
  cases made
  cases here : s.here c with
  | mk pc calls =>
    rw [here] at idle short
    have counted := inv.pinned.counted c
    rw [here] at counted
    obtain ⟨low, high⟩ := counted.le
    have fits : u32 ((s.flags c).preemptCount + 1) = (s.flags c).preemptCount + 1 := by
      rw [nestMax] at short high
      exact u32_of_lt (by omega)
    have wf := inv.wf here
    rcases idle with rfl | rfl
    · obtain rfl : calls = [] := wf
      exact inv.put here .entered _ _ _ ⟨rfl, fits, counted⟩ short (cons_ne_nil _ _) rfl rfl rfl (.inl rfl)
    · obtain ⟨call, rest, rfl⟩ := exists_cons_of_ne_nil wf
      have nested : 2 ≤ ((c, (s.flags c).preemptCount) :: call :: rest).length := Nat.le_add_left 2 _
      refine inv.put here .entered _ _ _ ⟨rfl, fits, counted⟩ short (cons_ne_nil _ _) (Thread.stands_nested nested).1
        rfl ?_ (.inl rfl)
      rw [(Thread.deep_nested nested).1]
      exact (inv.depth_eq here rfl).symm

omit here in
theorem Inv.leave (pcIn : (s.here c).pc = .inside) : Inv (s.goto c .leaving) := by
  cases here : s.here c with
  | mk pc calls =>
    obtain rfl : pc = .inside := by rw [here] at pcIn; exact pcIn
    have wf : calls ≠ [] := inv.wf here
    exact inv.goto here .leaving _ wf rfl rfl (inv.depth_eq here rfl).symm (.inl rfl)

/-- A thread at `entered` owns the guard already if it has another call open, and otherwise its CPU is not the owner. -/
theorem Inv.entered_iff (small : n ≤ 2147483648) (entered : pc = .entered) :
    s.owner = toInt32 c ↔ 2 ≤ calls.length := by
  subst entered
  have ids : ∀ x : Fin n, toInt32 x = (x.val : Int) := fun x => by
    rw [toInt32, if_pos (by have := x.isLt; omega)]
  constructor
  · intro same
    by_contra first
    have mine : (s.here c).owns = false := by rw [here]; exact decide_eq_false first
    by_cases nobody : ∀ x, (s.here x).owns = false
    · rw [inv.owner.free nobody, ids] at same
      omega
    · obtain ⟨x, owns⟩ := not_forall.mp nobody
      have owns : (s.here x).owns = true := Bool.not_eq_false _ ▸ owns
      rw [inv.owner.owned x owns, ids, ids] at same
      have eq : x = c := Fin.ext (by omega)
      rw [eq, mine] at owns
      cases owns
  · intro nested
    refine inv.owner.owned c ?_
    rw [here]
    exact decide_eq_true nested

omit here in
/-- `--alloc_depth` at the end of a call. -/
theorem Inv.less (here : s.here c = ⟨.leaving, calls⟩) : sub32 s.depth 1 = calls.length - 1 := by
  have some_ : 0 < calls.length := length_pos_iff.mpr (inv.wf here)
  have short : (s.here c).calls.length ≤ nestMax := inv.pinned.short (s.current c)
  rw [here, nestMax] at short
  rw [inv.depth_eq here rfl]
  exact sub32_of_le (by omega) some_

omit here in
/-- **The next access of a thread keeps the invariant.** -/
theorem Inv.go (small : n ≤ 2147483648) (gone : s.go c = some s') : Inv s' := by
  cases here : s.here c with
  | mk pc calls =>
  have wf := inv.wf here
  have counted := inv.pinned.counted c
  have short : (s.here c).calls.length ≤ nestMax := inv.pinned.short (s.current c)
  rw [here] at counted short
  have moves : ∀ pc', (s.goto c pc').threads = _ := fun pc' => congrArg State.threads (goto_eq here pc')
  have goes : ∀ {pc'} {s' : State n}, s'.current = s.current → s'.threads = (s.goto c pc').threads →
      s'.flags = s.flags → Thread.Wf ⟨pc', calls⟩ → Pinned s' := fun current threads flags wf =>
    inv.pinned.goto current threads flags (by rwa [here])
  simp only [State.go, here] at gone
  cases pc with
  | outside | inside => cases gone
  | entered =>
    have test := inv.entered_iff here small rfl
    by_cases nested : 2 ≤ calls.length
    · -- a recursive entry
      rw [if_pos (test.mpr nested)] at gone
      cases gone
      have stands := (Thread.stands_nested nested).1
      have depth := inv.depth_eq here (Thread.deep_nested nested).1
      refine inv.goto here .inside _ wf stands.symm rfl ?_ (.inr (congrArg (·.2.1) stands))
      have short : calls.length ≤ nestMax := short
      rw [nestMax] at short
      show calls.length = u32 (s.depth + 1)
      rw [depth, u32_of_lt (by omega)]
      omega
    · rw [if_neg fun same => nested (test.mp same)] at gone
      cases gone
      have one : calls.length = 1 := Nat.le_antisymm (Nat.le_of_not_lt nested) (length_pos_iff.mpr wf)
      exact inv.goto here .locking _ one (Thread.stands_single nested).1.symm rfl rfl (.inl rfl)
  | locking =>
    cases gone
    refine ⟨goes rfl rfl rfl wf, ?_, ?_⟩
    · refine inv.line.join (moves _) rfl (congrArg Thread.queues here) rfl fun queue ticket line => ?_
      have few := line.length_le inv.pinned
      omega
    · exact Owner.stay inv.pinned inv.line inv.owner rfl (moves _) rfl (congrArg Thread.owns here).symm rfl (.inl rfl)
  | spinning ticket =>
    cases gone
    cases serves : s.lock.serves ticket with
    | false =>
      rw [if_neg Bool.false_ne_true]
      exact inv
    | true =>
      rw [if_pos rfl]
      refine ⟨goes rfl rfl rfl wf, ?_, ?_⟩
      · exact inv.line.serve (moves _) rfl (congrArg Thread.pc here) serves rfl
      · exact Owner.stay inv.pinned inv.line inv.owner rfl (moves _) rfl (congrArg Thread.owns here).symm rfl (.inl rfl)
  | locked =>
    cases gone
    have held := congrArg Thread.holds here
    refine ⟨goes rfl rfl rfl wf, ?_, ?_⟩
    · exact inv.line.stay (moves _) rfl (congrArg Thread.queues here).symm held.symm rfl
    · exact Owner.take inv.pinned inv.line rfl (moves _) rfl held rfl rfl
  | owning =>
    cases gone
    have one : calls.length = 1 := wf
    exact inv.goto here .inside _ (ne_nil_of_length_eq_add_one one) rfl rfl one (.inr rfl)
  | leaving =>
    have some_ : 0 < calls.length := length_pos_iff.mpr wf
    rw [inv.less here] at gone
    cases gone
    by_cases nested : 2 ≤ calls.length
    · rw [if_neg (by omega)]
      refine inv.goto here .left _ wf (Thread.stands_nested nested).2 rfl ?_ (.inr rfl)
      rw [(Thread.deep_nested nested).2]
      rfl
    · rw [if_pos (by omega)]
      have one : calls.length = 1 := by omega
      exact inv.goto here .freeing _ one rfl rfl rfl (.inr rfl)
  | freeing =>
    cases gone
    have held := congrArg Thread.holds here
    refine ⟨goes rfl rfl rfl wf, ?_, ?_⟩
    · exact inv.line.stay (moves _) rfl (congrArg Thread.queues here).symm held.symm rfl
    · exact Owner.drop inv.pinned inv.line rfl (moves _) rfl held rfl
  | unlocking =>
    cases gone
    have one : calls.length = 1 := wf
    have single : ¬ 2 ≤ calls.length := by omega
    have stands := (Thread.stands_single single).2
    refine ⟨goes rfl rfl rfl (ne_nil_of_length_eq_add_one one), ?_, ?_⟩
    · exact inv.line.release (moves _) rfl (congrArg Thread.holds here) (congrArg (·.1) stands)
    · refine Owner.stay inv.pinned inv.line inv.owner rfl (moves _) rfl ?_ ?_ (.inl rfl)
      · rw [here]
        exact congrArg (·.2.2) stands
      · rw [Thread.deep, if_neg single]
        rfl
  | left =>
    obtain ⟨⟨at_, found⟩, rest, rfl⟩ := exists_cons_of_ne_nil wf
    obtain ⟨-, count, below⟩ := counted
    have enabled : canbootPreemptEnable (s.flags c) =
        (⟨found, (s.flags c).needResched⟩, decide (found = 0) && (s.flags c).needResched) := by
      rw [canbootPreemptEnable, if_pos (by rw [count]; exact Nat.succ_ne_zero found), count]
      rfl
    rw [enabled] at gone
    cases gone
    have short : rest.length ≤ nestMax := Nat.le_of_succ_le short
    cases rest with
    | nil =>
      -- the outermost call: the count may be zero again
      split
      · exact inv.put here .yielding _ _ _ below short rfl rfl rfl rfl (.inl rfl)
      · exact inv.put here .outside _ _ _ below short rfl rfl rfl rfl (.inl rfl)
    | cons outer more =>
      obtain ⟨-, positive, -⟩ := id below
      have nested : 2 ≤ ((at_, found) :: outer :: more).length := Nat.le_add_left 2 _
      rw [if_neg (by rw [positive]; exact Bool.false_ne_true)]
      exact inv.put here .inside _ _ _ below short (cons_ne_nil _ _) (Thread.stands_nested nested).2.symm rfl
        (inv.depth_eq here (Thread.deep_nested nested).2).symm (.inl rfl)
  | yielding =>
    cases gone
    obtain rfl : calls = [] := wf
    exact inv.goto here .outside _ rfl rfl rfl rfl (.inl rfl)

omit here in
/-- **Every step keeps the invariant.** -/
theorem Inv.step (small : n ≤ 2147483648) {e : Event n} (gone : s.step e = some s') : Inv s' := by
  cases e with
  | call c => exact inv.call gone
  | leave c =>
    obtain ⟨inside, made⟩ := ite_none_right_eq_some.mp gone
    cases made
    exact inv.leave inside
  | go c => exact inv.go small gone
  | tick c b =>
    cases gone
    have counts : ∀ c', (update s.flags c (canbootSchedOnTick (decide (s.Waits b)) (s.flags c)).1 c').preemptCount =
        (s.flags c').preemptCount := fun c' => by
      by_cases eq : c' = c
      · rw [eq, update_self, preemptCount_tick]
      · rw [update_of_ne eq]
    split
    · next switched =>
      obtain ⟨zero, waits⟩ := of_switched switched
      have waits := of_decide_eq_true waits
      have idle := inv.pinned.idle zero
      exact ⟨inv.pinned.switch waits idle rfl rfl counts, inv.line.congr rfl rfl,
        inv.owner.switch inv.pinned waits idle rfl rfl rfl rfl⟩
    · exact ⟨inv.pinned.reflag rfl rfl counts, inv.line.congr rfl rfl, ⟨inv.owner.owned, inv.owner.free, inv.owner.deep⟩⟩
  | yield c b =>
    obtain ⟨⟨pc, waits⟩, made⟩ := ite_none_right_eq_some.mp gone
    cases made
    have idle : (s.here c).calls = [] := by
      have wf : (s.here c).Wf := inv.pinned.wf _
      unfold Thread.Wf at wf
      rcases pc with pc | pc
      · rw [pc] at wf
        exact wf
      · rw [pc] at wf
        exact wf
    exact ⟨inv.pinned.switch waits idle rfl rfl fun _ => rfl, inv.line.congr rfl rfl,
      inv.owner.switch inv.pinned waits idle rfl rfl rfl rfl⟩
  | sections c k =>
    obtain ⟨⟨outside, few⟩, made⟩ := ite_none_right_eq_some.mp gone
    cases made
    cases here : s.here c with
    | mk pc calls =>
      obtain rfl : pc = .outside := by rw [here] at outside; exact outside
      obtain rfl : calls = [] := inv.wf here
      have put := inv.put here .outside [] ⟨k, (s.flags c).needResched⟩ s.depth few (Nat.zero_le _) rfl rfl rfl rfl
        (.inl rfl)
      rwa [State.put, ← here, State.here, update_eq_self] at put

end Steps

theorem inv_run (small : n ≤ 2147483648) {events : List (Event n)} : ∀ {s s' : State n}, Inv s →
    s.run events = some s' → Inv s' := by
  induction events with
  | nil =>
    intro s s' inv run
    cases run
    exact inv
  | cons e events ih =>
    intro s s' inv run
    rw [State.run, foldlM_cons] at run
    obtain ⟨next, gone, rest⟩ := bind_eq_some_iff.mp run
    exact ih (inv.step small gone) rest

/-! ## The guard -/

/-- **What the guard gives in a state**: no two threads are in the allocator, and a thread that is in it never waits for
the lock. -/
structure Guarded (s : State n) : Prop where
  exclusive : ∀ t u, (s.threads t).InAllocator → (s.threads u).InAllocator → t = u
  unblocked : ∀ t, 2 ≤ (s.threads t).calls.length →
    (s.threads t).pc ≠ .locking ∧ ∀ ticket, (s.threads t).pc ≠ .spinning ticket

/-- **What the guard gives in a step**: a recursive entry succeeds at once; the lock is released by the outermost call and
no other, and by every outermost call; a call leaves the count of its CPU as it found it. -/
structure GuardedStep (s : State n) (e : Event n) (s' : State n) : Prop where
  reenters : ∀ c, e = .go c → (s.here c).pc = .entered → 2 ≤ (s.here c).calls.length → (s'.here c).pc = .inside
  released : s'.lock.owner ≠ s.lock.owner ↔ ∃ c, e = .go c ∧ (s.here c).pc = .unlocking ∧ (s.here c).calls.length = 1
  outermost : ∀ c, e = .go c → (s.here c).pc = .leaving →
    ((s'.here c).pc = .freeing ↔ (s.here c).calls.length = 1) ∧ ((s'.here c).pc = .left ↔ 2 ≤ (s.here c).calls.length)
  restored : ∀ c, e = .go c → (s.here c).pc = .left → ∀ call rest, (s.here c).calls = call :: rest →
    call.1 = c ∧ (s'.flags c).preemptCount = call.2

theorem Inv.guarded (inv : Inv s) : Guarded s := by
  refine ⟨fun t u first second => ?_, fun t nested => ?_⟩
  · exact inv.line.exclusive (Thread.holds_of_owns (Thread.owns_of_inAllocator (inv.pinned.wf t) first))
      (Thread.holds_of_owns (Thread.owns_of_inAllocator (inv.pinned.wf u) second))
  · have owns := Thread.owns_of_inAllocator (inv.pinned.wf t) (.inr nested)
    refine ⟨fun pc => ?_, fun ticket pc => ?_⟩
    · rw [Thread.owns, pc] at owns
      cases owns
    · rw [Thread.owns, pc] at owns
      cases owns

theorem owner_go (gone : s.go c = some s') :
    s'.lock.owner = if (s.here c).pc = .unlocking then u32 (s.lock.owner + 1) else s.lock.owner := by
  unfold State.go at gone
  cases pc : (s.here c).pc with
  | outside | inside => simp only [pc] at gone; cases gone
  | entered =>
    simp only [pc] at gone
    split at gone <;> (cases gone; rfl)
  | spinning ticket =>
    simp only [pc] at gone
    cases gone
    split <;> rfl
  | locking | locked | owning | leaving | freeing | unlocking | left | yielding =>
    simp only [pc] at gone
    cases gone
    rfl

theorem lock_of_other {e : Event n} (gone : s.step e = some s') (other : ∀ c, e ≠ .go c) : s'.lock = s.lock := by
  cases e with
  | go c => exact absurd rfl (other c)
  | tick c b =>
    cases gone
    split <;> rfl
  | call c | leave c | yield c b | sections c k =>
    obtain ⟨-, made⟩ := ite_none_right_eq_some.mp gone
    cases made
    rfl

/-- The counter of served tickets moves at `unlocking` alone. -/
theorem released_iff (inv : Inv s) {e : Event n} (gone : s.step e = some s') :
    s'.lock.owner ≠ s.lock.owner ↔ ∃ c, e = .go c ∧ (s.here c).pc = .unlocking ∧ (s.here c).calls.length = 1 := by
  constructor
  · intro moved
    by_cases other : ∀ c, e ≠ .go c
    · exact absurd (congrArg Ticket.owner (lock_of_other gone other)) moved
    · obtain ⟨c, same⟩ := not_forall.mp other
      obtain rfl := Decidable.not_not.mp same
      rw [owner_go gone] at moved
      by_cases pc : (s.here c).pc = .unlocking
      · refine ⟨c, rfl, pc, ?_⟩
        have wf : (s.here c).Wf := inv.pinned.wf _
        rw [Thread.Wf, pc] at wf
        exact wf
      · rw [if_neg pc] at moved
        exact absurd rfl moved
  · rintro ⟨c, rfl, pc, -⟩
    rw [owner_go gone, if_pos pc]
    obtain ⟨queue, ticket, line⟩ := inv.line
    obtain ⟨served, owner, -⟩ := line.queues.counters
    rw [owner, u32, u32]
    omega

theorem Inv.guardedStep (inv : Inv s) (small : n ≤ 2147483648) {e : Event n}
    (gone : s.step e = some s') : GuardedStep s e s' := by
  have after : ∀ {c : Fin n} {th : Thread n}, (s.put c th).here c = th := fun {c th} => update_self ..
  refine ⟨?_, released_iff inv gone, ?_, ?_⟩
  · rintro c rfl pc nested
    have gone : s.go c = some s' := gone
    simp only [State.go, pc] at gone
    have here : s.here c = ⟨.entered, (s.here c).calls⟩ := by rw [← pc]
    rw [if_pos ((inv.entered_iff here small rfl).mpr nested)] at gone
    cases gone
    exact congrArg Thread.pc after
  · rintro c rfl pc
    have gone : s.go c = some s' := gone
    have here : s.here c = ⟨.leaving, (s.here c).calls⟩ := by rw [← pc]
    have some_ : 0 < (s.here c).calls.length := length_pos_iff.mpr (inv.wf here)
    simp only [State.go, pc, inv.less here] at gone
    cases gone
    have now : ((s.goto c (if (s.here c).calls.length - 1 = 0 then .freeing else .left)).here c).pc =
        if (s.here c).calls.length - 1 = 0 then .freeing else .left := congrArg Thread.pc after
    by_cases one : (s.here c).calls.length - 1 = 0
    · rw [if_pos one] at now ⊢
      exact ⟨⟨fun _ => by omega, fun _ => now⟩, fun left => Pc.noConfusion (now.symm.trans left), fun _ => by omega⟩
    · rw [if_neg one] at now ⊢
      exact ⟨⟨fun free => Pc.noConfusion (now.symm.trans free), fun _ => by omega⟩, fun _ => by omega, fun _ => now⟩
  · rintro c rfl pc call rest calls
    have gone : s.go c = some s' := gone
    simp only [State.go, pc] at gone
    cases gone
    have counted := inv.pinned.counted c
    rw [calls] at counted
    obtain ⟨same, count, -⟩ := counted
    refine ⟨same, ?_⟩
    show (update s.flags c (canbootPreemptEnable (s.flags c)).1 c).preemptCount = call.2
    rw [update_self, canbootPreemptEnable, if_pos (by rw [count]; exact Nat.succ_ne_zero _)]
    rw [count, Nat.add_sub_cancel]

/-- **The allocator is guarded** on any number of CPUs with numbers in an `int`, in every run. -/
theorem allocator_guarded (small : n ≤ 2147483648) (events : List (Event n)) {s : State n}
    (run : (State.start n).run events = some s) : Guarded s ∧ ∀ e s', s.step e = some s' → GuardedStep s e s' := by
  have inv := inv_run small (inv_start n) run
  exact ⟨inv.guarded, fun e s' gone => inv.guardedStep small gone⟩

/-- Two CPUs: one thread is in a `realloc` that calls `malloc`, another waits at the lock. -/
theorem allocator_guarded_pair : ∃ s, (State.start 2).run [.call 0, .go 0, .go 0, .go 0, .go 0, .go 0, .call 1, .go 1,
    .go 1, .go 1, .call 0, .go 0] = some s ∧ Guarded s ∧ ∀ e s', s.step e = some s' → GuardedStep s e s' := by
  have runs : ((State.start 2).run [.call 0, .go 0, .go 0, .go 0, .go 0, .go 0, .call 1, .go 1, .go 1, .go 1, .call 0,
    .go 0]).isSome = true := by decide
  obtain ⟨s, run⟩ := isSome_iff_exists.mp runs
  exact ⟨s, run, allocator_guarded (by decide) _ run⟩

end CanBoot.Alloc
