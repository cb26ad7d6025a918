import CanBoot.Hal.Xhci
import Mathlib.Data.List.Basic

/-!
# Hostile descriptors

The walk advances by at least one byte a round, so it ends for any bytes. It checks that two bytes of a descriptor are
inside, and reads up to eight. An endpoint number below 16 gives a context index of at most 31, so the context is
always in the buffer; it is one of the slot or of EP0 exactly if the number is 0.
-/

namespace CanBoot.Xhci

open List

/-! ## The walk -/

/-- The descriptors the walk comes to from offset `i` on. -/
inductive Visits (buf : Nat → UInt8) (total : Nat) : Nat → Nat → Prop
  | here (i : Nat) (inside : i + 1 < total) : Visits buf total i i
  | next {i j : Nat} (inside : i + 1 < total) (more : buf i ≠ 0) (later : Visits buf total (i + (buf i).toNat) j) :
    Visits buf total i j

/-- A descriptor that has the fields the walk reads of its type. -/
def FieldsInside (buf : Nat → UInt8) (total i : Nat) : Prop :=
  buf i ≠ 0 → (buf (i + 1) = 0x04 → i + 7 < total) ∧ (buf (i + 1) = 0x05 → i + 5 < total)

section

variable {buf : Nat → UInt8} {total : Nat}

theorem visits_iff {i j : Nat} (inside : i + 1 < total) :
    Visits buf total i j ↔ j = i ∨ buf i ≠ 0 ∧ Visits buf total (i + (buf i).toNat) j := by
  constructor
  · intro visits
    cases visits with
    | here => exact .inl rfl
    | next _ more later => exact .inr ⟨more, later⟩
  · rintro (rfl | ⟨more, later⟩)
    · exact .here j inside
    · exact .next inside more later

theorem not_visits {i j : Nat} (outside : ¬ i + 1 < total) : ¬ Visits buf total i j := by
  intro visits
  cases visits with
  | here => exact outside ‹_›
  | next inside _ _ => exact outside inside

theorem found_reads (w : Walk) (addr attr : UInt8) (mps : Nat) : (w.found addr attr mps).reads = w.reads := by
  unfold Walk.found
  split_ifs <;> rfl

theorem run_ends : ∀ {fuel : Nat} {w : Walk}, total - w.i < fuel → ∃ w', Walk.run buf total fuel w = some w'
  | 0, w, little => absurd little (Nat.not_lt_zero _)
  | fuel + 1, w, enough => by
    rw [Walk.run]
    split_ifs with inside zero
    · exact ⟨_, rfl⟩
    · refine run_ends ?_
      have positive : 0 < (buf w.i).toNat := Nat.pos_of_ne_zero fun none => zero (UInt8.toNat.inj none)
      show total - (w.i + (buf w.i).toNat) < fuel
      omega
    · exact ⟨_, rfl⟩

/-- The two bytes of the header are inside; what is read with them is another matter. -/
theorem header_reads {w : Walk} (inside : w.i + 1 < total) (fields : List Nat) :
    (∀ r ∈ w.header.reads ++ fields, r < total) ↔ (∀ r ∈ w.reads, r < total) ∧ ∀ r ∈ fields, r < total := by
  have header : ∀ r ∈ [w.i, w.i + 1], r < total := by
    simp only [forall_mem_cons, not_mem_nil, false_imp_iff, implies_true, and_true]
    omega
  rw [Walk.header, forall_mem_append, forall_mem_append]
  exact and_congr_left fun _ => and_iff_left header

theorem descriptor_reads {w : Walk} (inside : w.i + 1 < total) (more : buf w.i ≠ 0) :
    (∀ r ∈ (w.header.descriptor buf).reads, r < total) ↔ (∀ r ∈ w.reads, r < total) ∧ FieldsInside buf total w.i := by
  unfold Walk.descriptor FieldsInside
  rw [show w.header.i = w.i from rfl]
  split_ifs with interface endpoint
  · rw [show (w.header.interface buf).reads = w.header.reads ++ [w.i + 2, w.i + 5, w.i + 7] from rfl, header_reads inside]
    refine and_congr_right fun _ => ?_
    simp only [more, interface, forall_mem_cons, not_mem_nil, false_imp_iff, implies_true, and_true, ne_eq,
      not_false_eq_true, true_imp_iff, show ¬ (4 : UInt8) = 5 by decide]
    omega
  · rw [Walk.endpoint, found_reads]
    show (∀ r ∈ w.header.reads ++ [w.i + 2, w.i + 3, w.i + 4, w.i + 5], r < total) ↔ _
    rw [header_reads inside]
    refine and_congr_right fun _ => ?_
    simp only [more, endpoint, forall_mem_cons, not_mem_nil, false_imp_iff, implies_true, and_true, ne_eq,
      not_false_eq_true, true_imp_iff, show ¬ (5 : UInt8) = 4 by decide, true_and]
    omega
  · rw [← append_nil w.header.reads, header_reads inside]
    refine and_congr_right fun _ => ?_
    simp [interface, endpoint]

/-- **What the walk reads is inside** exactly if the fields of every descriptor it comes to are. -/
theorem run_reads : ∀ {fuel : Nat} {w w' : Walk}, Walk.run buf total fuel w = some w' → ((∀ r ∈ w'.reads, r < total) ↔
      (∀ r ∈ w.reads, r < total) ∧ ∀ j, Visits buf total w.i j → FieldsInside buf total j)
  | 0, w, w', stuck => by cases stuck
  | fuel + 1, w, w', runs => by
    rw [Walk.run] at runs
    split_ifs at runs with inside zero
    · cases runs
      rw [← append_nil w.header.reads, header_reads inside]
      refine and_congr_right fun _ => ?_
      simp only [visits_iff inside]
      refine ⟨fun _ j visits more => ?_, fun _ r mem => absurd mem not_mem_nil⟩
      obtain rfl | ⟨more', -⟩ := visits
      · exact absurd zero more
      · exact absurd zero more'
    · rw [run_reads runs]
      show (∀ r ∈ (w.header.descriptor buf).reads, r < total) ∧
        (∀ j, Visits buf total (w.i + (buf w.i).toNat) j → FieldsInside buf total j) ↔ _
      rw [descriptor_reads inside zero, and_assoc]
      refine and_congr_right fun _ => ?_
      simp only [visits_iff inside]
      constructor
      · rintro ⟨here, later⟩ j (rfl | ⟨-, visits⟩)
        · exact here
        · exact later j visits
      · intro all
        exact ⟨all _ (.inl rfl), fun j visits => all j (.inr ⟨zero, visits⟩)⟩
    · cases runs
      exact ⟨fun reads => ⟨reads, fun j visits => absurd visits (not_visits inside)⟩, fun both => both.1⟩

end

theorem walkFor_ends (env : Env) (a : Answers) (d : Dev) : ∃ w, walkFor env a d = some w :=
  run_ends (Nat.lt_succ_of_le (Nat.sub_le _ _))

/-! ## What the calls leave alone -/

/-- What was read of `g_descbuf` and which endpoint contexts were written. -/
def State.logs (s : State) : List Nat × List EpCtx := (s.reads, s.contexts)

section Frames

variable (env : Env) (di : Nat) (a : Answers) (s : State)

theorem controlXfer_logs (q : Setup) (data : BitVec 64) : (controlXfer di q data s).logs = s.logs := by
  unfold controlXfer dataPhase
  split_ifs <;> rfl

theorem configureEndpoint_logs (kind : Kind) : (configureEndpoint di a kind s).2.logs = s.logs := by
  unfold configureEndpoint
  split_ifs <;> rfl

theorem markUsed_logs (port : Nat) (r : Bool × State) : (markUsed di port r).2.logs = r.2.logs := by
  unfold markUsed
  split_ifs <;> rfl

/-- A control transfer moves the EP0 ring of the device and nothing else of it. -/
theorem controlXfer_dev (q : Setup) (data : BitVec 64) :
    ∃ p, (controlXfer di q data s).devs di = { s.devs di with ep0 := p } := by
  unfold controlXfer dataPhase
  split_ifs
  all_goals simp only [State.pushEp0, State.setDev, State.setRing, Function.update_self]
  all_goals exact ⟨_, rfl⟩

theorem walkFor_controlXfer (q : Setup) (data : BitVec 64) :
    walkFor env a ((controlXfer di q data s).devs di) = walkFor env a (s.devs di) := by
  obtain ⟨p, same⟩ := controlXfer_dev di s q data
  rw [same]
  rfl

theorem walkFor_prepareEp0 : walkFor env a ((prepareEp0 env di a s).devs di) = walkFor env a (s.devs di) := by
  simp only [walkFor, prepareEp0, State.linkRing, State.setDev, State.setRing, Function.update_self, Walk.start]

end Frames

/-! ## The contexts -/

/-- The endpoint contexts for what a walk found. -/
def Walk.contexts (w : Walk) : List EpCtx :=
  if w.mscIn ∧ w.mscOut then [⟨w.bulkInDci, 6, w.mscInMps, .bin⟩, ⟨w.bulkOutDci, 2, w.mscOutMps, .bout⟩]
  else if w.hidFound then [⟨w.intDci, 7, w.intMps, .int⟩]
  else []

/-- The contexts an attempt writes, once its walk is done. -/
def Answers.written (a : Answers) (w : Walk) : List EpCtx := if a.setConfig = ccSuccess then w.contexts else []

/-- The attempt comes to the walk. -/
def Answers.Described (a : Answers) : Prop :=
  (a.enable = ccSuccess ∧ a.slot ≠ 0) ∧ a.address = ccSuccess ∧ a.head = ccSuccess ∧ a.config = ccSuccess ∧ a.total ≠ 0

section

variable (env : Env) (di : Nat) (a : Answers) (cfg : UInt8) (w : Walk) (s : State)

theorem prepareInt_logs : (prepareInt env di w s).logs = (s.logs.1, s.logs.2 ++ [⟨w.intDci, 7, w.intMps, .int⟩]) := rfl

theorem prepareBulk_logs : (prepareBulk env di w s).logs =
      (s.logs.1, s.logs.2 ++ [⟨w.bulkInDci, 6, w.mscInMps, .bin⟩, ⟨w.bulkOutDci, 2, w.mscOutMps, .bout⟩]) :=
  congrArg (Prod.mk s.reads) (append_assoc s.contexts _ _)

theorem configure_logs : (configure env di a cfg w s).2.logs = (s.logs.1, s.logs.2 ++ a.written w) := by
  unfold configure Answers.written
  by_cases set : a.setConfig = ccSuccess
  · rw [if_pos set, configureMsc, if_neg (not_not.2 set), configureHid, if_neg (not_not.2 set), Walk.contexts]
    by_cases msc : w.mscIn ∧ w.mscOut
    · rw [if_pos msc, if_pos msc, configureEndpoint_logs, prepareBulk_logs, controlXfer_logs]
    · rw [if_neg msc, if_neg msc]
      by_cases hid : w.hidFound
      · rw [if_pos hid, if_pos hid, configureEndpoint_logs, prepareInt_logs, controlXfer_logs, controlXfer_logs]
      · rw [if_neg hid, if_neg hid, append_nil]
  · rw [if_neg set, configureMsc, if_pos set, configureHid, if_pos set, append_nil]
    split_ifs
    · exact controlXfer_logs ..
    · exact controlXfer_logs ..
    · rfl

/-- An attempt that does not come to the walk. -/
theorem enumerate_undescribed (port : Nat) (short : ¬ a.Described) : (enumerate env di port a s).2.logs = s.logs := by
  unfold enumerate
  split_ifs with enable address
  · rfl
  · rfl
  · rw [markUsed_logs, readConfig]
    split_ifs with head config
    · exact controlXfer_logs ..
    · exact (controlXfer_logs ..).trans (controlXfer_logs ..)
    · exact absurd ⟨by omega, by omega, by omega, by omega⟩ short

/-- An attempt that does: what it adds to the logs is of the walk. -/
theorem enumerate_described (port : Nat) (described : a.Described) {w : Walk} (walk : walkFor env a (s.devs di) = some w) :
    (enumerate env di port a s).2.logs = (s.logs.1 ++ w.reads, s.logs.2 ++ a.written w) := by
  obtain ⟨enable, address, head, config, total⟩ := described
  have same := (walkFor_controlXfer env di a _ (getConfig a.total) env.descbuf).trans
    ((walkFor_controlXfer env di a _ (getConfig 9) env.descbuf).trans (walkFor_prepareEp0 env di a s))
  rw [enumerate, if_neg (by omega), if_neg (not_not.2 address), markUsed_logs, readConfig, if_neg (not_not.2 head),
    if_neg (by omega), walkAndConfigure, same, walk]
  rw [configure_logs]
  show ((controlXfer di _ _ (controlXfer di _ _ (prepareEp0 env di a s))).logs.1 ++ w.reads,
    (controlXfer di _ _ (controlXfer di _ _ (prepareEp0 env di a s))).logs.2 ++ a.written w) = _
  rw [controlXfer_logs, controlXfer_logs]
  rfl

end

/-! ## Safety -/

/-- What an attempt adds to the reads and to the contexts. -/
def newReads (env : Env) (di port : Nat) (a : Answers) (s : State) : List Nat :=
  (enumerate env di port a s).2.reads.drop s.reads.length

def newContexts (env : Env) (di port : Nat) (a : Answers) (s : State) : List EpCtx :=
  (enumerate env di port a s).2.contexts.drop s.contexts.length

/-- **An attempt that is safe**: the walk ends and reads inside the descriptor, and the endpoint contexts written are in
the buffer, behind those of the slot and of EP0, and apart. -/
structure Safe (env : Env) (di port : Nat) (a : Answers) (s : State) : Prop where
  ends : ∃ w, walkFor env a (s.devs di) = some w
  reads : ∀ r ∈ newReads env di port a s, r < a.total
  nonControl : ∀ e ∈ newContexts env di port a s, 2 ≤ e.dci ∧ e.dci ≤ 31
  inside : ∀ e ∈ newContexts env di port a s, ∀ o ∈ e.offsets env, 3 * env.ctxBytes ≤ o ∧ o + 4 ≤ inputCtxSize
  apart : (newContexts env di port a s).Pairwise fun e f => e.dci ≠ f.dci

/-- The endpoints that will be configured have a number other than 0. -/
def Walk.Numbered (w : Walk) : Prop :=
  if w.mscIn ∧ w.mscOut then w.mscInEp &&& 0x0F ≠ 0 ∧ w.mscOutEp &&& 0x0F ≠ 0
  else if w.hidFound then w.intEpaddr &&& 0x0F ≠ 0
  else True

theorem number_le (addr : UInt8) : (addr &&& 0x0F).toNat ≤ 15 := by
  rw [UInt8.toNat_and]
  exact Nat.and_le_right

theorem number_pos {addr : UInt8} : addr &&& 0x0F ≠ 0 ↔ 0 < (addr &&& 0x0F).toNat := by
  rw [Nat.pos_iff_ne_zero]
  exact not_congr ⟨fun h => congrArg UInt8.toNat h, fun h => UInt8.toNat.inj h⟩

/-- The index of a context is one of a non-control endpoint exactly if the endpoint has a number. -/
theorem contexts_nonControl (w : Walk) : (∀ e ∈ w.contexts, 2 ≤ e.dci ∧ e.dci ≤ 31) ↔ w.Numbered := by
  have inLe := number_le w.mscInEp
  have outLe := number_le w.mscOutEp
  have intLe := number_le w.intEpaddr
  unfold Walk.contexts Walk.Numbered
  split_ifs
  · simp only [forall_mem_cons, not_mem_nil, false_imp_iff, implies_true, and_true, number_pos, Walk.bulkInDci,
      Walk.bulkOutDci]
    omega
  · simp only [forall_mem_cons, not_mem_nil, false_imp_iff, implies_true, and_true, number_pos, Walk.intDci]
    omega
  · simp

/-- An index of bulk IN is odd and one of bulk OUT even. -/
theorem contexts_apart (w : Walk) : w.contexts.Pairwise fun e f => e.dci ≠ f.dci := by
  unfold Walk.contexts
  split_ifs
  · simp only [pairwise_cons, mem_singleton, forall_eq, not_mem_nil, false_imp_iff, implies_true,
      List.Pairwise.nil, and_true, Walk.bulkInDci, Walk.bulkOutDci]
    omega
  · exact pairwise_singleton _ _
  · exact List.Pairwise.nil

theorem offsets_inside {env : Env} {e : EpCtx} (low : 2 ≤ e.dci) (high : e.dci ≤ 31) :
    ∀ o ∈ e.offsets env, 3 * env.ctxBytes ≤ o ∧ o + 4 ≤ inputCtxSize := by
  intro o mem
  obtain ⟨word, few, rfl⟩ := mem_map.1 mem
  have few' := mem_range.1 few
  unfold Env.ctxBytes inputCtxSize ctxEntryMax
  split_ifs <;> omega

/-- **When enumeration is safe**: exactly if, in an attempt that comes to the walk, every interface descriptor it comes
to has eight bytes inside and every endpoint descriptor six, and, once the configuration is set, the endpoints chosen do
not have number 0. -/
theorem descriptors_safe_iff (env : Env) (di port : Nat) (a : Answers) (s : State) : Safe env di port a s ↔
      (a.Described → (∀ i, Visits (descbuf env a) a.total 0 i → FieldsInside (descbuf env a) a.total i) ∧
          (a.setConfig = ccSuccess → ∀ w, walkFor env a (s.devs di) = some w → w.Numbered)) := by
  obtain ⟨w, walk⟩ := walkFor_ends env a (s.devs di)
  by_cases described : a.Described
  · have logs := enumerate_described env di a s port described walk
    have reads : newReads env di port a s = w.reads := by
      rw [newReads, show (enumerate env di port a s).2.reads = _ from congrArg Prod.fst logs]
      exact drop_left
    have contexts : newContexts env di port a s = a.written w := by
      rw [newContexts, show (enumerate env di port a s).2.contexts = _ from congrArg Prod.snd logs]
      exact drop_left
    have inside := run_reads walk
    have numbered := contexts_nonControl w
    constructor
    · rintro ⟨-, safeReads, nonControl, -, -⟩ -
      rw [reads, inside] at safeReads
      refine ⟨safeReads.2, fun set w' walk' => ?_⟩
      cases walk.symm.trans walk'
      rw [contexts, Answers.written, if_pos set] at nonControl
      exact numbered.1 nonControl
    · intro fine
      obtain ⟨fields, endpoints⟩ := fine described
      have nonControl : ∀ e ∈ a.written w, 2 ≤ e.dci ∧ e.dci ≤ 31 := by
        intro e mem
        rw [Answers.written] at mem
        split_ifs at mem with set
        · exact numbered.2 (endpoints set w walk) e mem
        · cases mem
      have apart : (a.written w).Pairwise fun e f => e.dci ≠ f.dci := by
        rw [Answers.written]
        split_ifs
        · exact contexts_apart w
        · exact List.Pairwise.nil
      refine ⟨⟨w, walk⟩, ?_, ?_, ?_, ?_⟩
      · rw [reads, inside]
        exact ⟨fun r mem => absurd mem not_mem_nil, fields⟩
      · rwa [contexts]
      · rw [contexts]
        exact fun e mem => offsets_inside (nonControl e mem).1 (nonControl e mem).2
      · rwa [contexts]
  · have logs := enumerate_undescribed env di a s port described
    have reads : newReads env di port a s = [] := by
      rw [newReads, show (enumerate env di port a s).2.reads = _ from congrArg Prod.fst logs]
      exact drop_length
    have contexts : newContexts env di port a s = [] := by
      rw [newContexts, show (enumerate env di port a s).2.contexts = _ from congrArg Prod.snd logs]
      exact drop_length
    refine ⟨fun _ reached => absurd reached described, fun _ => ⟨⟨w, walk⟩, ?_, ?_, ?_, ?_⟩⟩
    · simp [reads]
    · simp [contexts]
    · simp [contexts]
    · simp [contexts]

/-- A device whose configuration ends in an interface descriptor of two bytes. -/
def shortInterface : Answers where
  speed := 3
  enable := 1
  slot := 1
  address := 1
  head := 1
  headBytes := [9, 2, 11, 0, 1, 1, 0, 0x80, 50]
  config := 1
  configBytes := [9, 2, 11, 0, 1, 1, 0, 0x80, 50, 2, 4]
  setConfig := 1
  setProtocol := 1
  configure := 1

/-- The walk reads offset 16 of a descriptor of 11 bytes. -/
theorem short_interface_unsafe : ¬ Safe ⟨fun _ _ => 0, 0, fun _ => 0, false⟩ 0 1 shortInterface .boot := by
  intro safe
  have read : 16 ∈ newReads ⟨fun _ _ => 0, 0, fun _ => 0, false⟩ 0 1 shortInterface .boot := by decide
  exact absurd (safe.reads 16 read) (by decide)

end CanBoot.Xhci
