import CanBoot.Hal.XhciRing
import CanBoot.Lib.Laps

/-!
# The cycle bits of a transfer ring

With `p` blocks pushed and `c` consumed, the driver stands in slot `p % 15` of lap `p / 15` and the controller in slot
`c % 15` of lap `c / 15`, or still before the link that takes it there (`Inv`). The cycle bits of the fifteen slots are
those of a ring written in laps, so the controller finds its state in a slot exactly if the slot was pushed in its lap.
The link carries the bit of the last lap that the driver finished; with at most fourteen blocks unconsumed that is the
lap the controller comes from.
-/

namespace CanBoot.Xhci

open Lib Function Nat List

/-- The slots that take work. -/
def slots : Nat := ringSz - 1

/-! ## Blocks -/

/-- A request as it stands in the ring. -/
def Request.written (r : Request) (cycle : Bool) : Trb := ⟨r.param, r.status, r.control ||| cycleFlag cycle⟩

/-- What a block says apart from its cycle bit. -/
def Trb.contents (t : Trb) : BitVec 64 × BitVec 32 × BitVec 32 := (t.param, t.status, t.control &&& ~~~trbCycle)

def Request.contents (r : Request) : BitVec 64 × BitVec 32 × BitVec 32 := (r.param, r.status, r.control)

theorem getLsbD_cycleFlag (cycle : Bool) (i : Nat) : (cycleFlag cycle).getLsbD i = (cycle && decide (i = 0)) := by
  cases cycle
  · simp [cycleFlag]
  · simp [cycleFlag, trbCycle]

theorem cycle_written (r : Request) (cycle : Bool) : (r.written cycle).cycle = cycle := by
  rw [Trb.cycle, Request.written, BitVec.getLsbD_or, r.clear, getLsbD_cycleFlag]
  simp

theorem type_written (r : Request) (cycle : Bool) : trbGetType (r.written cycle).control ≠ trbLink := by
  have same : trbGetType (r.written cycle).control = trbGetType r.control := by
    refine BitVec.eq_of_getLsbD_eq fun i _ => ?_
    have low : 10 + i ≠ 0 := by omega
    simp only [Request.written, trbGetType, BitVec.getLsbD_and, BitVec.getLsbD_ushiftRight, BitVec.getLsbD_or,
      getLsbD_cycleFlag, low, decide_false, Bool.and_false, Bool.or_false]
  rw [same]
  exact r.work

theorem contents_written (r : Request) (cycle : Bool) : (r.written cycle).contents = r.contents := by
  have same : (r.control ||| cycleFlag cycle) &&& ~~~trbCycle = r.control := by
    refine BitVec.eq_of_getLsbD_eq fun i low => ?_
    have one : trbCycle.getLsbD i = decide (i = 0) := by simpa [cycleFlag] using getLsbD_cycleFlag true i
    simp only [BitVec.getLsbD_and, BitVec.getLsbD_or, BitVec.getLsbD_not, getLsbD_cycleFlag, one, low, decide_true]
    by_cases first : i = 0
    · rw [first, r.clear]
      simp
    · simp [first]
  rw [Trb.contents, Request.written, Request.contents, same]

/-- The link of a ring at `base`. -/
def linkTrb (base : BitVec 64) (cycle : Bool) : Trb := ⟨base, 0, trbType trbLink ||| trbLinkTc ||| cycleFlag cycle⟩

theorem linkControl_facts : ∀ cycle : Bool, (trbType trbLink ||| trbLinkTc ||| cycleFlag cycle).getLsbD 0 = cycle ∧
      trbGetType (trbType trbLink ||| trbLinkTc ||| cycleFlag cycle) = trbLink ∧
      (trbType trbLink ||| trbLinkTc ||| cycleFlag cycle) &&& trbLinkTc ≠ 0 ∧
      ∀ next, (trbType trbLink ||| trbLinkTc ||| cycleFlag cycle) &&& ~~~trbCycle ||| cycleFlag next =
        trbType trbLink ||| trbLinkTc ||| cycleFlag next := by
  decide

theorem cycle_linkTrb (base : BitVec 64) (cycle : Bool) : (linkTrb base cycle).cycle = cycle :=
  (linkControl_facts cycle).1

theorem type_linkTrb (base : BitVec 64) (cycle : Bool) : trbGetType (linkTrb base cycle).control = trbLink :=
  (linkControl_facts cycle).2.1

theorem toggle_linkTrb (base : BitVec 64) (cycle : Bool) : (linkTrb base cycle).control &&& trbLinkTc ≠ 0 :=
  (linkControl_facts cycle).2.2.1

/-! ## The invariant -/

/-- How many laps the driver has finished, the link included. -/
def Sys.finished (s : Sys) : Nat := if s.stage = .link then s.pushed.length / slots - 1 else s.pushed.length / slots

/-- The driver is in its slot and lap, or behind the last slot with the link still to be turned. -/
def Sys.DriverAt (s : Sys) : Prop :=
  if s.stage = .link then
    0 < s.pushed.length ∧ s.pushed.length % slots = 0 ∧ s.producer = ⟨slots, lapBit (s.pushed.length / slots - 1)⟩
  else s.producer = ⟨s.pushed.length % slots, lapBit (s.pushed.length / slots)⟩

/-- The controller is in its slot and lap, or before the link that leads there. -/
def Sys.ControllerAt (s : Sys) : Prop :=
  s.dequeue = s.consumed.length % slots ∧ s.state = lapBit (s.consumed.length / slots) ∨
    s.dequeue = slots ∧ 0 < s.consumed.length ∧ s.consumed.length % slots = 0 ∧
      s.state = lapBit (s.consumed.length / slots - 1)

/-- What the slot being written already holds. -/
def Sys.SlotHolds (s : Sys) : Prop :=
  match s.stage with
  | .idle => True
  | .link => True
  | .param r => (s.ring s.producer.idx).param = r.param
  | .status r => (s.ring s.producer.idx).param = r.param ∧ (s.ring s.producer.idx).status = r.status

/-- A push is under way. -/
def Stage.begun : Stage → Bool
  | .param _ => true
  | .status _ => true
  | .idle => false
  | .link => false

structure Inv (base : BitVec 64) (s : Sys) : Prop where
  order : s.consumed.length ≤ s.pushed.length
  room : s.pushed.length + (if s.stage.begun then 1 else 0) ≤ s.consumed.length + (ringSz - 2)
  driver : s.DriverAt
  controller : s.ControllerAt
  slot : s.SlotHolds
  laps : Laps slots (fun i => (s.ring i).cycle) s.pushed.length
  held : ∀ j r, s.consumed.length ≤ j → s.pushed[j]? = some r → s.ring (j % slots) = r.written (lapBit (j / slots))
  link : s.ring slots = linkTrb base (lapBit (s.finished - 1))
  taken : s.consumed.map Trb.contents = (s.pushed.take s.consumed.length).map Request.contents

variable {ring : Trbs}

/-- A ring linked with every cycle bit clear. -/
theorem inv_start (base : BitVec 64) (clear : ∀ i < slots, (ring i).cycle = false) : Inv base (.start base ring) where
  order := Nat.le_refl 0
  room := by simp [Sys.start, Stage.begun]
  driver := by simp [Sys.DriverAt, Sys.start]; decide
  controller := .inl ⟨rfl, by simp [Sys.start, lapBit]⟩
  slot := trivial
  laps := Laps.start fun i low => by
    rw [← clear i low]
    exact congrArg Trb.cycle (update_of_ne (Nat.ne_of_lt low) _ _)
  held := fun j r _ none => by simp [Sys.start] at none
  link := by
    have none : (Sys.start base ring).finished = 0 := by simp [Sys.finished, Sys.start]
    rw [none]
    exact update_self (ringSz - 1) (linkTrb base true) ring
  taken := rfl

/-! ## The driver's steps -/

theorem getElem?_concat {α : Type} {l : List α} {a b : α} {j : Nat} :
    (l ++ [a])[j]? = some b ↔ l[j]? = some b ∨ j = l.length ∧ b = a := by
  rcases Nat.lt_trichotomy j l.length with low | same | high
  · rw [getElem?_append_left low]
    exact ⟨.inl, fun h => h.resolve_right fun at_ => Nat.ne_of_lt low at_.1⟩
  · subst same
    rw [getElem?_concat_length, getElem?_eq_none (Nat.le_refl _)]
    simp [eq_comm]
  · have over1 : (l ++ [a])[j]? = none := getElem?_eq_none (by rw [length_append]; exact high)
    have over2 : l[j]? = none := getElem?_eq_none (Nat.le_of_lt high)
    rw [over1, over2]
    simp [Nat.ne_of_gt high]

section Steps

variable {base : BitVec 64} {s : Sys}

theorem slots_pos : 0 < slots := by decide

theorem lap_pos {k : Nat} (positive : 0 < k) (mod : k % slots = 0) : 0 < k / slots :=
  Nat.div_pos (le_of_dvd positive (dvd_of_mod_eq_zero mod)) slots_pos

/-- Outside the link the driver is in one of the slots for work. -/
theorem Inv.producer_eq (inv : Inv base s) (away : s.stage ≠ .link) :
    s.producer = ⟨s.pushed.length % slots, lapBit (s.pushed.length / slots)⟩ := by
  have driver := inv.driver
  rwa [Sys.DriverAt, if_neg away] at driver

variable {r : Request}

section

variable (inv : Inv base s)

include inv

/-- What is unconsumed is in other slots than the one being written. -/
theorem Inv.held_other (others : ∀ i, i ≠ s.pushed.length % slots → ring i = s.ring i)
    {j : Nat} (late : s.consumed.length ≤ j) (here : s.pushed[j]? = some r) :
    ring (j % slots) = r.written (lapBit (j / slots)) := by
  have low : j < s.pushed.length := (List.getElem?_eq_some_iff.1 here).1
  have near : s.pushed.length < j + slots := by
    have room := inv.room
    simp only [slots, ringSz] at *
    omega
  rw [others _ (mod_ne_mod low near).symm]
  exact inv.held j r late here

theorem Inv.link_other (others : ∀ i, i ≠ s.pushed.length % slots → ring i = s.ring i) :
    ring slots = linkTrb base (lapBit (s.finished - 1)) := by
  rw [others _ (Nat.ne_of_gt (mod_lt _ slots_pos))]
  exact inv.link

/-- A store to the slot being written that leaves its cycle bit alone. -/
theorem Inv.fill {stage : Stage} (away : s.stage ≠ .link) (begun : stage.begun)
    (room : s.pushed.length < s.consumed.length + (ringSz - 2))
    (others : ∀ i, i ≠ s.pushed.length % slots → ring i = s.ring i)
    (cycle : (ring (s.pushed.length % slots)).cycle = (s.ring (s.pushed.length % slots)).cycle)
    (slot : { s with ring := ring, stage := stage }.SlotHolds) : Inv base { s with ring := ring, stage := stage } := by
  have away' : stage ≠ .link := by
    rintro rfl
    cases begun
  refine ⟨inv.order, ?_, ?_, inv.controller, slot, ?_, fun j r => inv.held_other others, ?_, inv.taken⟩
  · rw [if_pos begun]
    exact room
  · rw [Sys.DriverAt, if_neg away']
    exact inv.producer_eq away
  · refine inv.laps.congr slots_pos fun i _ => ?_
    by_cases here : i = s.pushed.length % slots
    · rw [here]
      exact cycle
    · exact congrArg Trb.cycle (others i here)
  · have finished : { s with ring := ring, stage := stage }.finished = s.finished := by
      rw [Sys.finished, Sys.finished, if_neg away, if_neg away']
    rw [finished]
    exact inv.link_other others

theorem Inv.param {r : Request} (idle : s.stage = .idle)
    (room : s.pushed.length < s.consumed.length + (ringSz - 2)) :
    Inv base { s with ring := storeParam s.ring s.producer r.param, stage := .param r } := by
  have away : s.stage ≠ .link := by
    rw [idle]
    exact Stage.noConfusion
  have at_ := inv.producer_eq away
  refine inv.fill away rfl room (fun i other => ?_) ?_ ?_
  · exact update_of_ne (by rwa [at_]) _ _
  · rw [storeParam, at_, update_self]
    rfl
  · show (storeParam s.ring s.producer r.param s.producer.idx).param = r.param
    rw [storeParam, update_self]

theorem Inv.begun_room (begun : s.stage.begun) : s.pushed.length < s.consumed.length + (ringSz - 2) := by
  have room := inv.room
  rwa [if_pos begun] at room

theorem Inv.status (there : s.stage = .param r) :
    Inv base { s with ring := storeStatus s.ring s.producer r.status, stage := .status r } := by
  have away : s.stage ≠ .link := by
    rw [there]
    exact Stage.noConfusion
  have at_ := inv.producer_eq away
  have slot := inv.slot
  rw [Sys.SlotHolds, there] at slot
  refine inv.fill away rfl (inv.begun_room (by rw [there]; rfl)) (fun i other => ?_) ?_ ?_
  · exact update_of_ne (by rwa [at_]) _ _
  · rw [storeStatus, at_, update_self]
    rfl
  · show (storeStatus s.ring s.producer r.status s.producer.idx).param = r.param ∧
      (storeStatus s.ring s.producer r.status s.producer.idx).status = r.status
    rw [storeStatus, update_self]
    exact ⟨slot, rfl⟩

/-- The store that makes the slot a pushed block. -/
theorem Inv.push {producer : Producer} {stage : Stage} 
    (room : s.pushed.length < s.consumed.length + (ringSz - 2)) (between : stage.begun = false)
    (others : ∀ i, i ≠ s.pushed.length % slots → ring i = s.ring i)
    (here : ring (s.pushed.length % slots) = r.written (lapBit (s.pushed.length / slots)))
    (driver : { s with ring := ring, producer := producer, stage := stage, pushed := s.pushed ++ [r] }.DriverAt)
    (finished :
      { s with ring := ring, producer := producer, stage := stage, pushed := s.pushed ++ [r] }.finished = s.finished) :
    Inv base { s with ring := ring, producer := producer, stage := stage, pushed := s.pushed ++ [r] } := by
  have longer : (s.pushed ++ [r]).length = s.pushed.length + 1 := by rw [length_append, length_singleton]
  refine ⟨?_, ?_, driver, inv.controller, ?_, ?_, fun j q late found => ?_, ?_, ?_⟩
  · rw [longer]
    exact le_succ_of_le inv.order
  · rw [longer, between]
    exact room
  · cases stage with
    | idle | link => trivial
    | param q | status q => cases between
  · rw [longer]
    refine inv.laps.write slots_pos ?_ fun i _ other => congrArg Trb.cycle (others i other)
    exact (congrArg Trb.cycle here).trans (cycle_written r _)
  · obtain earlier | ⟨rfl, rfl⟩ := getElem?_concat.1 found
    · exact inv.held_other others late earlier
    · exact here
  · rw [finished]
    exact inv.link_other others
  · rw [take_append_of_le_length inv.order]
    exact inv.taken

theorem Inv.control (there : s.stage = .status r) : Inv base
      { s with
        ring := storeControl s.ring s.producer r.control
        producer := ⟨s.producer.idx + 1, s.producer.cycle⟩
        stage := if s.producer.idx + 1 = ringSz - 1 then .link else .idle
        pushed := s.pushed ++ [r] } := by
  have away : s.stage ≠ .link := by
    rw [there]
    exact Stage.noConfusion
  have at_ := inv.producer_eq away
  have room := inv.begun_room (by rw [there]; rfl)
  have slot := inv.slot
  rw [Sys.SlotHolds, there] at slot
  have others : ∀ i, i ≠ s.pushed.length % slots → storeControl s.ring s.producer r.control i = s.ring i := by
    intro i other
    exact update_of_ne (by rwa [at_]) _ _
  have here : storeControl s.ring s.producer r.control (s.pushed.length % slots) =
      r.written (lapBit (s.pushed.length / slots)) := by
    have filled : s.ring s.producer.idx = ⟨r.param, r.status, (s.ring s.producer.idx).control⟩ := by
      rw [← slot.1, ← slot.2]
    rw [storeControl, filled, at_, update_self]
    rfl
  -- the push fills the last slot of its lap, or another
  by_cases last : s.pushed.length % slots + 1 = slots
  · have idx : s.producer.idx + 1 = ringSz - 1 := by rw [at_]; exact last
    obtain ⟨mod, div⟩ := succ_of_last last
    rw [if_pos idx]
    refine inv.push room rfl others here ?_ ?_
    · rw [Sys.DriverAt, if_pos rfl, length_append, length_singleton, mod, div, Nat.add_sub_cancel, at_, last]
      exact ⟨succ_pos _, rfl, rfl⟩
    · rw [Sys.finished, if_pos rfl, Sys.finished, if_neg away, length_append, length_singleton, div,
        Nat.add_sub_cancel]
  · have idx : s.producer.idx + 1 ≠ ringSz - 1 := by rw [at_]; exact last
    obtain ⟨mod, div⟩ := succ_of_not_last slots_pos last
    rw [if_neg idx]
    refine inv.push room rfl others here ?_ ?_
    · rw [Sys.DriverAt, if_neg Stage.noConfusion, length_append, length_singleton, mod, div, at_]
    · rw [Sys.finished, if_neg Stage.noConfusion, Sys.finished, if_neg away, length_append, length_singleton, div]

theorem Inv.turnLink (there : s.stage = .link) :
    Inv base { s with ring := storeLink s.ring s.producer, producer := ⟨0, !s.producer.cycle⟩, stage := .idle } := by
  have driver := inv.driver
  rw [Sys.DriverAt, if_pos there] at driver
  obtain ⟨positive, mod, at_⟩ := driver
  have lap := lap_pos positive mod
  have others : ∀ i < slots, storeLink s.ring s.producer i = s.ring i := fun i low =>
    update_of_ne (Nat.ne_of_lt low) _ _
  refine ⟨inv.order, ?_, ?_, inv.controller, trivial, ?_, fun j r late here => ?_, ?_, inv.taken⟩
  · have room := inv.room
    rw [there] at room
    exact room
  · rw [Sys.DriverAt, if_neg Stage.noConfusion, mod, at_, ← lapBit_succ, Nat.sub_add_cancel lap]
  · exact inv.laps.congr slots_pos fun i low => congrArg Trb.cycle (others i low)
  · exact (others _ (mod_lt j slots_pos)).trans (inv.held j r late here)
  · rw [Sys.finished, if_neg Stage.noConfusion]
    show storeLink s.ring s.producer (ringSz - 1) = _
    rw [storeLink, update_self, show s.ring (ringSz - 1) = _ from inv.link, at_]
    exact congrArg (Trb.mk base 0) ((linkControl_facts _).2.2.2 _)

/-! ## The controller's steps -/

/-- While the controller is before a link and has a block to take behind it, the driver is in the lap behind it. -/
theorem Inv.finished_eq (mod : s.consumed.length % slots = 0)
    (more : s.consumed.length < s.pushed.length) : s.finished = s.consumed.length / slots := by
  have room : s.pushed.length ≤ s.consumed.length + (ringSz - 2) := Nat.le_trans (Nat.le_add_right _ _) inv.room
  have driver := inv.driver
  rw [Sys.DriverAt] at driver
  rw [Sys.finished]
  simp only [slots, ringSz] at *
  split_ifs at driver ⊢ with there
  · omega
  · omega

/-- **What the controller can do**: wait, take the next pushed block, or follow the link into its next lap. -/
theorem Inv.consume_cases : s.consume base = s ∧ s.pushed.length = s.consumed.length ∨
      (∃ r, s.pushed[s.consumed.length]? = some r ∧ s.dequeue = s.consumed.length % slots ∧ s.consume base = { s with
            dequeue := s.consumed.length % slots + 1
            consumed := s.consumed ++ [r.written (lapBit (s.consumed.length / slots))] }) ∨
      s.dequeue = slots ∧ s.consumed.length % slots = 0 ∧
        s.consume base = { s with dequeue := 0, state := lapBit (s.consumed.length / slots) } := by
  obtain ⟨slot, state⟩ | ⟨before, positive, mod, state⟩ := inv.controller
  · by_cases more : s.consumed.length < s.pushed.length
    · obtain ⟨r, found⟩ : ∃ r, s.pushed[s.consumed.length]? = some r := ⟨_, getElem?_eq_getElem more⟩
      have here : s.ring s.dequeue = r.written s.state := by
        rw [slot, state]
        exact inv.held _ r (Nat.le_refl _) found
      refine .inr (.inl ⟨r, found, slot, ?_⟩)
      simp only [Sys.consume]
      rw [here, cycle_written, if_neg (not_not.2 rfl), if_neg (type_written r _), slot, state]
    · have done : s.pushed.length = s.consumed.length := Nat.le_antisymm (Nat.not_lt.1 more) inv.order
      have stale := inv.laps.stale slots_pos
      rw [done] at stale
      refine .inl ⟨?_, done⟩
      simp only [Sys.consume]
      rw [if_pos]
      rw [slot, state]
      intro same
      rw [same] at stale
      simp at stale
  · have link : s.ring s.dequeue = linkTrb base (lapBit (s.finished - 1)) := by rw [before]; exact inv.link
    by_cases turned : lapBit (s.finished - 1) = s.state
    · refine .inr (.inr ⟨before, mod, ?_⟩)
      simp only [Sys.consume]
      rw [link, cycle_linkTrb, if_neg (not_not.2 turned), if_pos (type_linkTrb _ _), if_pos (toggle_linkTrb _ _), state,
        ← lapBit_succ, Nat.sub_add_cancel (lap_pos positive mod), show (linkTrb base _).param = base from rfl,
        BitVec.sub_self]
      rfl
    · refine .inl ⟨?_, ?_⟩
      · simp only [Sys.consume]
        rw [link, cycle_linkTrb, if_pos turned]
      · refine Nat.le_antisymm (Nat.not_lt.1 fun more => turned ?_) inv.order
        rw [state, inv.finished_eq mod more]

theorem Inv.taken_next (found : s.pushed[s.consumed.length]? = some r) (cycle : Bool) :
    (s.consumed ++ [r.written cycle]).map Trb.contents =
      (s.pushed.take (s.consumed ++ [r.written cycle]).length).map Request.contents := by
  rw [length_append, length_singleton, take_add_one, found, map_append, map_append, inv.taken]
  exact congrArg _ (congrArg (fun c => [c]) (contents_written r cycle))

theorem Inv.consume : Inv base (s.consume base) := by
  obtain ⟨waits, -⟩ | ⟨r, found, slot, takes⟩ | ⟨before, mod, follows⟩ := inv.consume_cases
  · rw [waits]
    exact inv
  · have low : s.consumed.length < s.pushed.length := (List.getElem?_eq_some_iff.1 found).1
    have state : s.state = lapBit (s.consumed.length / slots) := by
      obtain ⟨-, state⟩ | ⟨before, -⟩ := inv.controller
      · exact state
      · exact absurd (slot.symm.trans before) (Nat.ne_of_lt (mod_lt _ slots_pos))
    rw [takes]
    have longer : (s.consumed ++ [r.written (lapBit (s.consumed.length / slots))]).length = s.consumed.length + 1 := by
      rw [length_append, length_singleton]
    refine ⟨?_, ?_, inv.driver, ?_, inv.slot, inv.laps, fun j q late => ?_, inv.link, inv.taken_next found _⟩
    · rw [longer]
      exact low
    · refine Nat.le_trans inv.room ?_
      rw [longer]
      exact Nat.add_le_add_right (le_succ _) _
    · unfold Sys.ControllerAt
      simp only [longer]
      by_cases last : s.consumed.length % slots + 1 = slots
      · obtain ⟨mod, div⟩ := succ_of_last last
        rw [mod, div, Nat.add_sub_cancel]
        exact .inr ⟨last, succ_pos _, rfl, state⟩
      · obtain ⟨mod, div⟩ := succ_of_not_last slots_pos last
        rw [mod, div]
        exact .inl ⟨rfl, state⟩
    · have late' : (s.consumed ++ [r.written (lapBit (s.consumed.length / slots))]).length ≤ j := late
      rw [longer] at late'
      exact inv.held j q (le_of_succ_le late')
  · rw [follows]
    exact ⟨inv.order, inv.room, inv.driver, .inl ⟨mod.symm, rfl⟩, inv.slot, inv.laps, inv.held, inv.link, inv.taken⟩

theorem Inv.step {t : Sys} (step : Step base s t) : Inv base t := by
  cases step with
  | param r idle room => exact inv.param idle room
  | status r there => exact inv.status there
  | control r there => exact inv.control there
  | link there => exact inv.turnLink there
  | consume => exact inv.consume

theorem Inv.run {t : Sys} (run : Relation.ReflTransGen (Step base) s t) : Inv base t := by
  induction run with
  | refl => exact inv
  | tail _ step ih => exact ih.step step

/-! ## What is consumed -/

/-- **Only pushed blocks are consumed**, in order and as they were pushed. -/
theorem Inv.consumed_prefix : s.consumed.map Trb.contents <+: s.pushed.map Request.contents := by
  rw [inv.taken]
  exact (List.take_prefix _ _).map Request.contents

end

/-- What the controller still has to do: each block and, if it is there, the link. -/
def Sys.ahead (s : Sys) : Nat := 2 * (s.pushed.length - s.consumed.length) + if s.dequeue = slots then 1 else 0

theorem Sys.pushed_consume (base : BitVec 64) (s : Sys) : (s.consume base).pushed = s.pushed := by
  simp only [Sys.consume]
  split_ifs <;> rfl

/-- While a block is unconsumed the controller comes on. -/
theorem Inv.ahead_consume (inv : Inv base s) (more : s.consumed.length < s.pushed.length) :
    (s.consume base).ahead < s.ahead := by
  obtain ⟨-, done⟩ | ⟨r, -, slot, takes⟩ | ⟨before, -, follows⟩ := inv.consume_cases
  · omega
  · rw [takes, Sys.ahead, Sys.ahead, slot]
    simp only [length_append, length_singleton]
    have low := mod_lt s.consumed.length slots_pos
    split_ifs <;> omega
  · rw [follows, Sys.ahead, Sys.ahead, before, if_pos rfl, if_neg (show 0 ≠ slots by decide)]
    exact lt_succ_self _

/-- With nothing left the controller takes nothing. -/
theorem Inv.consumed_consume (inv : Inv base s) (done : s.consumed.length = s.pushed.length) :
    (s.consume base).consumed = s.consumed := by
  obtain ⟨waits, -⟩ | ⟨r, found, -⟩ | ⟨-, -, follows⟩ := inv.consume_cases
  · rw [waits]
  · exact absurd (List.getElem?_eq_some_iff.1 found).1 (by omega)
  · rw [follows]

/-- The controller, left to itself, comes to the end of what was pushed and stays there. -/
theorem Inv.catches_up : ∀ {k : Nat} {s : Sys}, Inv base s → s.consumed.length = s.pushed.length ∨ s.ahead ≤ k →
    ((Sys.consume base)^[k] s).consumed.map Trb.contents = s.pushed.map Request.contents
  | 0, s, inv, enough => by
    have done : s.consumed.length = s.pushed.length := by
      have order := inv.order
      rw [Sys.ahead] at enough
      omega
    rw [Function.iterate_zero_apply, inv.taken, done, take_length]
  | k + 1, s, inv, enough => by
    rw [Function.iterate_succ_apply, ← s.pushed_consume base]
    refine inv.consume.catches_up ?_
    by_cases done : s.consumed.length = s.pushed.length
    · left
      rw [inv.consumed_consume done, s.pushed_consume, done]
    · right
      have comes := inv.ahead_consume (Nat.lt_of_le_of_ne inv.order done)
      omega

end Steps

theorem cycle_zero : Trb.zero.cycle = false := by decide

/-- A push that is not interrupted is `push_trb`. -/
theorem steps_pushTrb (base : BitVec 64) {s : Sys} (r : Request) (idle : s.stage = .idle)
    (room : s.pushed.length < s.consumed.length + (ringSz - 2)) :
    Relation.ReflTransGen (Step base) s
      { s with
        ring := (pushTrb s.ring s.producer r).1
        producer := (pushTrb s.ring s.producer r).2
        pushed := s.pushed ++ [r] } := by
  have first : Step base s _ := .param s r idle room
  have stores := ((Relation.ReflTransGen.single first).tail (.status _ r rfl)).tail (.control _ r rfl)
  rw [pushTrb]
  by_cases last : s.producer.idx + 1 = ringSz - 1
  · simp only [if_pos last] at stores ⊢
    rw [idle]
    exact stores.tail (.link _ rfl)
  · simp only [if_neg last] at stores ⊢
    rw [idle]
    exact stores

/-- **The cycle-bit protocol**: in every state of a ring linked over zeroed memory, however the driver's stores and the
controller's steps fell, what the controller has consumed is a beginning of what was pushed, block by block and with the
pushed contents; and left to itself it consumes the rest and then nothing more. -/
theorem ring_keeps_protocol (base : BitVec 64) {s : Sys} (reached : Reachable base s) :
    s.consumed.map Trb.contents <+: s.pushed.map Request.contents ∧
      ∃ n, ∀ k ≥ n, ((Sys.consume base)^[k] s).consumed.map Trb.contents = s.pushed.map Request.contents := by
  have inv := (inv_start base fun _ _ => cycle_zero).run reached
  exact ⟨inv.consumed_prefix, s.ahead, fun k enough => inv.catches_up (.inr enough)⟩

theorem ring_keeps_protocol_report : ∃ s, Reachable 0x1000 s ∧ s.pushed = [normal 0x2000 8] ∧
    ∃ n, ∀ k ≥ n, ((Sys.consume 0x1000)^[k] s).consumed.map Trb.contents = [(normal 0x2000 8).contents] :=
  have reached := steps_pushTrb 0x1000 (s := .start 0x1000 fun _ => .zero) (normal 0x2000 8) rfl (by decide)
  ⟨_, reached, rfl, (ring_keeps_protocol 0x1000 reached).2⟩

end CanBoot.Xhci
