import Mathlib.Data.Finset.Prod
import CanBoot.Lib.Orbit
import CanBoot.Fs.Fat32.Path
import CanBoot.Fs.Fat32.Root
import CanBoot.Laws.Fat32.Untrusted

/-!
# Walks along whatever links a volume holds

The walkers follow the links of the table with no count and no memory of where they were. A directory walk moves on
from a cluster that passes the loop test, can be read, and has no entry that decides (`link`); what it needs to stop is
that these moves do not come round again. An end mark decides every walk, so the seven calls return within a bound for
all their arguments exactly when no links lead round through clusters without an end mark, and no file can be read in
circles (`walks_return_iff`).

The second can only happen to a request near 4 GiB: the number of bytes copied wraps (`readStep_straight`).
-/

namespace CanBoot

open Lib Lib.Prog List Option Nat

namespace Fat32

variable {fs : Fat32} {m : Media} {fuel : Nat}

/-- The rounds that are enough for every walk, and for a read of `n` bytes. -/
@[irreducible] def rounds (n : Nat) : Nat := eoc * (n + 1) + 1

/-- The buffer `read_cluster` fills, if it can. -/
def bufOf (fs : Fat32) (m : Media) (c : Nat) : Option Buf := ((fs.readCluster c).run 0 m).value

/-- The entry `read_fat_entry` gives, if it can. -/
def nextOf (fs : Fat32) (m : Media) (c : Nat) : Option Nat := ((fs.readFatEntry c).run 0 m).value

/-- Where a directory walk moves on to: `goesOn` is its loop test, and `decides` the entries it stops at. -/
def link (fs : Fat32) (m : Media) (goesOn : Nat → Bool) (decides : Entry → Bool) (c : Nat) : Option Nat :=
  if goesOn c then (fs.bufOf m c).bind fun buf =>
    if (List.range fs.entries).any fun i => decides (entryAt buf i) then none else fs.nextOf m c
  else none

/-- Where the copy loop of a read moves on to, from the bytes copied and the cluster. -/
def readStep (fs : Fat32) (m : Media) (toRead : Nat) (s : Nat × Nat) : Option (Nat × Nat) :=
  if s.1 < toRead && isCluster s.2 then (fs.bufOf m s.2).bind fun _ =>
    (fs.nextOf m s.2).map fun next =>
      (u32 (s.1 + if u32 (s.1 + fs.bytesPerCluster) > toRead then toRead - s.1 else fs.bytesPerCluster), next)
  else none

/-- The links do not lead round: through clusters without an end mark, from the root with the test of the root
walkers, and for no file that a read can find. -/
structure Straight (fs : Fat32) (m : Media) : Prop where
  dirs : ∀ c, ¬ Loops (fs.link m isCluster Entry.isEnd) c
  root : ¬ Loops (fs.link m belowEoc Entry.isEnd) fs.rootCluster
  files : ∀ n, n < 4294967296 → ∀ path e l m', (fs.resolveFound path).run (rounds n) m = .ok (e, l) m' → e.isDir = false →
    ¬ Loops (fs.readStep m (min e.size n)) (0, e.firstCluster)
  rootFiles : ∀ n, n < 4294967296 → ∀ name e l m', (fs.findRootEntry name).run (rounds n) m = .ok (some (e, l)) m' →
    ¬ Loops (fs.readStep m (min e.size n)) (0, e.firstCluster)

/-- The seven calls answer, for all their arguments, with no loop taking more rounds than `rounds`; a round reads one
cluster and one sector of the table. -/
structure WalksReturn (fs : Fat32) (m : Media) : Prop where
  listRoot : ∀ (υ : Type) (cb : υ → List UInt8 → Nat → Bool × υ) (user : υ),
    ((canbootFat32ListRoot fs cb user).run (rounds 0) m).Returns
  listPath : ∀ (υ : Type) path (cb : υ → List UInt8 → Nat → Bool → Bool × υ) (user : υ),
    ((canbootFat32ListPath fs path cb user).run (rounds 0) m).Returns
  readRoot : ∀ name buf n, n < 4294967296 → ((canbootFat32ReadRootFile fs name buf n).run (rounds n) m).Returns
  readPath : ∀ path buf n, n < 4294967296 → ((canbootFat32ReadPath fs path buf n).run (rounds n) m).Returns
  find : ∀ c t, ((fs.dirFind c t).run (rounds 0) m).Returns
  allocSlot : ∀ c, ((fs.dirAllocSlot c).run (rounds 0) m).Returns
  isEmpty : ∀ c, ((fs.dirIsEmpty c).run (rounds 0) m).Returns

/-! ## The accessors -/

theorem run_readCluster_eq (fuel : Nat) (m : Media) (c : Nat) :
    (fs.readCluster c).run fuel m = .ofOption m (fs.bufOf m c) := by
  show (fs.disk.read _ _).run fuel m = .ofOption m ((fs.disk.read _ _).run 0 m).value
  simp only [Disk.read]
  split <;> rfl

theorem run_readFatEntry_eq (fuel : Nat) (m : Media) (c : Nat) :
    (fs.readFatEntry c).run fuel m = .ofOption m (fs.nextOf m c) := by
  rw [nextOf, readFatEntry, run_bind, run_bind]
  cases fails : fs.disk.readFails (fs.fatStartLba + u32 (c * 4) / fs.bytesPerSector * fs.spb) 1 <;>
    simp only [Disk.read, fails, Bool.false_eq_true, if_true, if_false] <;> rfl

theorem isCluster_lt {c : Nat} (live : isCluster c = true) : c < eoc := by
  simp only [isCluster, Bool.and_eq_true, decide_eq_true_eq] at live
  exact live.2

/-! ## Directory walks -/

section Dir

variable {α β : Type} {goesOn : Nat → Bool} {visit : Nat → α → Nat → Entry → α ⊕ β} {leave : Nat → α → α}
  {decides : Entry → Bool}

/-- A round of a directory walk that goes on, with what it has recorded. -/
def dirStep (fs : Fat32) (m : Media) (goesOn : Nat → Bool) (visit : Nat → α → Nat → Entry → α ⊕ β)
    (leave : Nat → α → α) (s : Nat × α) : Option (Nat × α) :=
  if goesOn s.1 then (fs.bufOf m s.1).bind fun buf =>
    match scanEntries (visit s.1) buf (List.range fs.entries) s.2 with
    | .inr _ => none
    | .inl a => (fs.nextOf m s.1).map fun next => (next, leave s.1 a)
  else none

theorem walks_dirWalk (goesOn : Nat → Bool) (visit : Nat → α → Nat → Entry → α ⊕ β) (leave : Nat → α → α)
    (fuel : Nat) (m : Media) :
    Walks (fun (s : Nat × α) =>
      if goesOn s.1 then do
        let buf ← fs.readCluster s.1
        match scanEntries (visit s.1) buf (range fs.entries) s.2 with
        | .inr b => pure (.inr (.inr b))
        | .inl a' => do
          let next ← fs.readFatEntry s.1
          pure (.inl (next, leave s.1 a'))
      else pure (.inr (.inl s.2) : (Nat × α) ⊕ (α ⊕ β))) (fs.dirStep m goesOn visit leave) fuel m where
  goes := by
    rintro ⟨c, a⟩ b' step
    simp only [dirStep] at step
    split at step
    · next on =>
      obtain ⟨buf, read, step⟩ := bind_eq_some_iff.mp step
      have load := fs.run_readCluster_eq fuel m c
      rw [read] at load
      rw [if_pos on, run_bind_ok load]
      split at step
      · cases step
      · next a' scan =>
        obtain ⟨next, entry, rfl⟩ := map_eq_some_iff.mp step
        have follow := fs.run_readFatEntry_eq fuel m c
        rw [entry] at follow
        simp only [scan]
        rw [run_bind_ok follow, run_pure]
    · cases step
  stops := by
    rintro ⟨c, a⟩ step
    simp only [dirStep] at step
    split at step
    · next on =>
      have load := fs.run_readCluster_eq fuel m c
      rw [if_pos on]
      cases read : fs.bufOf m c with
      | none =>
        rw [read] at load
        exact .inr (run_bind_err load _)
      | some buf =>
        rw [read] at load step
        rw [run_bind_ok load]
        simp only [bind_some] at step
        cases scan : scanEntries (visit c) buf (range fs.entries) a with
        | inr b => exact .inl ⟨_, rfl⟩
        | inl a' =>
          rw [scan] at step
          have entry : fs.nextOf m c = none := map_eq_none_iff.mp step
          have follow := fs.run_readFatEntry_eq fuel m c
          rw [entry] at follow
          exact .inr (run_bind_err follow _)
    · next off =>
      rw [if_neg off]
      exact .inl ⟨_, rfl⟩

/-- A scan in which nothing decides goes through. -/
theorem scanEntries_goes {c : Nat} (goes : ∀ a i e, decides e = false → ∃ a', visit c a i e = .inl a') {buf : Buf} :
    ∀ {is : List Nat} (a : α), (is.any fun i => decides (entryAt buf i)) = false →
      ∃ a', scanEntries (visit c) buf is a = .inl a'
  | [], a, _ => ⟨a, rfl⟩
  | i :: is, a, quiet => by
    rw [any_cons, Bool.or_eq_false_iff] at quiet
    obtain ⟨a₁, here⟩ := goes a i _ quiet.1
    rw [scanEntries, here]
    exact scanEntries_goes goes a₁ quiet.2

/-- A scan that goes through met nothing that decides. -/
theorem scanEntries_met {c : Nat} (stops : ∀ a i e, decides e = true → ∃ b, visit c a i e = .inr b) {buf : Buf} :
    ∀ {is : List Nat} {a a' : α}, scanEntries (visit c) buf is a = .inl a' →
      (is.any fun i => decides (entryAt buf i)) = false
  | [], _, _, _ => rfl
  | i :: is, a, a', scan => by
    rw [scanEntries] at scan
    rw [any_cons, Bool.or_eq_false_iff]
    cases here : visit c a i (entryAt buf i) with
    | inr b =>
      rw [here] at scan
      cases scan
    | inl a₁ =>
      rw [here] at scan
      refine ⟨?_, scanEntries_met stops scan⟩
      by_contra decided
      obtain ⟨b, out⟩ := stops a i _ (by simpa using decided)
      rw [out] at here
      cases here

/-- A walk that stops at every deciding entry moves on along the links at most. -/
theorem link_of_dirStep (stops : ∀ c a i e, decides e = true → ∃ b, visit c a i e = .inr b) {s s' : Nat × α}
    (step : fs.dirStep m goesOn visit leave s = some s') : fs.link m goesOn decides s.1 = some s'.1 := by
  unfold dirStep at step
  rw [link]
  split at step
  · next on =>
    obtain ⟨buf, read, step⟩ := bind_eq_some_iff.mp step
    rw [if_pos on, read, bind_some]
    split at step
    · cases step
    · next a scan =>
      obtain ⟨next, entry, rfl⟩ := map_eq_some_iff.mp step
      rw [if_neg (by rw [scanEntries_met (stops s.1) scan]; decide), entry]
  · cases step

/-- A walk that stops at no other entry moves on along the links. -/
theorem dirStep_of_link (goes : ∀ c a i e, decides e = false → ∃ a', visit c a i e = .inl a') {s : Nat × α} {c' : Nat}
    (step : fs.link m goesOn decides s.1 = some c') :
    ∃ s', fs.dirStep m goesOn visit leave s = some s' ∧ s'.1 = c' := by
  rw [link] at step
  rw [dirStep]
  split at step
  · next on =>
    obtain ⟨buf, read, step⟩ := bind_eq_some_iff.mp step
    rw [if_pos on, read, bind_some]
    split at step
    · cases step
    · next through =>
      obtain ⟨a, scan⟩ := scanEntries_goes (goes s.1) s.2 ((Bool.not_eq_true _).mp through)
      rw [scan, step]
      exact ⟨_, rfl, rfl⟩
  · cases step

/-- The clusters a walk moves on from are below the marks. -/
theorem mem_of_link (below : ∀ c, goesOn c = true → c < eoc) (a b : Nat)
    (step : fs.link m goesOn decides a = some b) : a ∈ Finset.range eoc := by
  rw [link] at step
  split at step
  · next on => exact Finset.mem_range.mpr (below a on)
  · cases step

theorem lt_rounds (n : Nat) : (Finset.range eoc).card < rounds n := by
  rw [Finset.card_range, rounds]
  exact lt_succ_of_le (Nat.le_mul_of_pos_right _ (succ_pos n))

/-- **A directory walk answers if its links do not lead round.** -/
theorem settles_dirWalk (below : ∀ c, goesOn c = true → c < eoc)
    (stops : ∀ c a i e, decides e = true → ∃ b, visit c a i e = .inr b) {start : Nat}
    (straight : ¬ Loops (fs.link m goesOn decides) start) (n : Nat) (a : α) :
    (fs.dirWalk goesOn visit leave start a).Settles (rounds n) m := by
  have halts := (orbit_eq_none_iff (mem_of_link below) (lt_rounds n)).mpr straight
  have walk : orbit (fs.dirStep m goesOn visit leave) (rounds n) (start, a) = none :=
    orbit_eq_none_of_image (p := Prod.fst) (fun s s' step => link_of_dirStep stops step) halts
  exact (walks_dirWalk goesOn visit leave (rounds n) m).settles_loop walk

/-- **A directory walk that answers does not go round.** -/
theorem straight_of_dirWalk (goes : ∀ c a i e, decides e = false → ∃ a', visit c a i e = .inl a') {start : Nat} {a : α}
    (returns : ((fs.dirWalk goesOn visit leave start a).run fuel m).Returns) :
    ¬ Loops (fs.link m goesOn decides) start := by
  intro loops
  have halts := (walks_dirWalk goesOn visit leave fuel m).stopped_loop returns
  exact loops.goes_on fuel
    (orbit_image_eq_none (p := Prod.fst) (fun s c' step => dirStep_of_link goes step) halts)

end Dir

/-! ## Reading -/

theorem walks_readChain (toRead fuel : Nat) (m : Media) : Walks (fs.readTurn toRead)
      (fun s => (fs.readStep m toRead (s.1, s.2.1)).bind fun k => (fs.bufOf m s.2.1).map fun tmp =>
        (k.1, k.2, putBytes s.2.2 s.1 (bytesAt tmp 0
          (if u32 (s.1 + fs.bytesPerCluster) > toRead then toRead - s.1 else fs.bytesPerCluster)))) fuel m where
  goes := by
    rintro ⟨k, c, out⟩ s' step
    simp only [readStep] at step
    obtain ⟨k', step, tail⟩ := bind_eq_some_iff.mp step
    split at step
    · next on =>
      obtain ⟨buf, read, step⟩ := bind_eq_some_iff.mp step
      obtain ⟨next, entry, rfl⟩ := map_eq_some_iff.mp step
      rw [read, map_some] at tail
      cases tail
      have load := fs.run_readCluster_eq fuel m c
      have follow := fs.run_readFatEntry_eq fuel m c
      rw [read] at load
      rw [entry] at follow
      rw [readTurn, if_pos on, run_bind_ok load, run_bind_ok follow, run_pure]
    · cases step
  stops := by
    rintro ⟨k, c, out⟩ step
    rw [readTurn]
    simp only [readStep] at step
    split at step
    · next on =>
      have load := fs.run_readCluster_eq fuel m c
      rw [if_pos on]
      cases read : fs.bufOf m c with
      | none =>
        rw [read] at load
        exact .inr (run_bind_err load _)
      | some buf =>
        have follow := fs.run_readFatEntry_eq fuel m c
        rw [read] at load step
        rw [run_bind_ok load]
        cases entry : fs.nextOf m c with
        | none =>
          rw [entry] at follow
          exact .inr (run_bind_err follow _)
        | some next =>
          rw [entry] at step
          cases step
    · next off =>
      rw [if_neg off]
      exact .inl ⟨_, rfl⟩

theorem mem_of_readStep {toRead : Nat} (a b : Nat × Nat) (step : fs.readStep m toRead a = some b) :
    a ∈ Finset.range toRead ×ˢ Finset.range eoc := by
  rw [readStep] at step
  split at step
  · next on =>
    simp only [Bool.and_eq_true, decide_eq_true_eq] at on
    exact Finset.mem_product.mpr ⟨Finset.mem_range.mpr on.1, Finset.mem_range.mpr (isCluster_lt on.2)⟩
  · cases step

/-- **The copy loop answers if it does not go round.** -/
theorem settles_readChain {toRead n first : Nat} (le : toRead ≤ n)
    (straight : ¬ Loops (fs.readStep m toRead) (0, first)) (buf : Buf) :
    (fs.readChain first toRead buf).Settles (rounds n) m := by
  have enough : (Finset.range toRead ×ˢ Finset.range eoc).card < rounds n := by
    rw [Finset.card_product, Finset.card_range, Finset.card_range, rounds, Nat.mul_comm]
    exact lt_succ_of_le (Nat.mul_le_mul_left _ (le_succ_of_le le))
  have halts := (orbit_eq_none_iff mem_of_readStep enough).mpr straight
  refine (walks_readChain toRead (rounds n) m).settles_loop (b := (0, first, buf))
    (orbit_eq_none_of_image (p := fun s : Nat × Nat × Buf => (s.1, s.2.1)) (fun s s' step => ?_) halts)
  obtain ⟨k, moved, tail⟩ := bind_eq_some_iff.mp step
  obtain ⟨tmp, -, rfl⟩ := map_eq_some_iff.mp tail
  exact moved

/-- **A copy loop that answers does not go round.** -/
theorem straight_of_readChain {toRead first : Nat} {buf : Buf}
    (returns : ((fs.readChain first toRead buf).run fuel m).Returns) : ¬ Loops (fs.readStep m toRead) (0, first) := by
  intro loops
  have halts := (walks_readChain toRead fuel m).stopped_loop returns
  refine loops.goes_on fuel
    (orbit_image_eq_none (p := fun s : Nat × Nat × Buf => (s.1, s.2.1)) (fun s k step => ?_) halts)
  have read : ∃ tmp, fs.bufOf m s.2.1 = some tmp := by
    rw [readStep] at step
    split at step
    · obtain ⟨tmp, read, -⟩ := bind_eq_some_iff.mp step
      exact ⟨tmp, read⟩
    · cases step
  obtain ⟨tmp, read⟩ := read
  exact ⟨_, by rw [step, read]; rfl, rfl⟩

/-! ## The calls -/

section Calls

variable (n : Nat)

theorem dirFindVisit_stops (t : Name) (c : Nat) (a : Unit) (i : Nat) (e : Entry) (ends : e.isEnd = true) :
    ∃ b, dirFindVisit t c a i e = .inr b := ⟨none, by rw [dirFindVisit, if_pos ends]⟩

theorem findRootEntryVisit_stops (t : Name) (c : Nat) (a : Unit) (i : Nat) (e : Entry) (ends : e.isEnd = true) :
    ∃ b, findRootEntryVisit t c a i e = .inr b := ⟨none, by rw [findRootEntryVisit, if_pos ends]⟩

theorem listRootVisit_stops {υ : Type} (cb : υ → Bytes → Nat → Bool × υ) (c : Nat) (a : Nat × υ) (i : Nat)
    (e : Entry) (ends : e.isEnd = true) : ∃ b, listRootVisit cb c a i e = .inr b :=
  ⟨a, by rw [listRootVisit, if_pos ends]⟩

theorem listPathVisit_stops {υ : Type} (cb : υ → Bytes → Nat → Bool → Bool × υ) (c : Nat) (a : Nat × υ) (i : Nat)
    (e : Entry) (ends : e.isEnd = true) : ∃ b, listPathVisit cb c a i e = .inr b :=
  ⟨a, by rw [listPathVisit, if_pos ends]⟩

theorem dirAllocSlotVisit_stops (c a i : Nat) (e : Entry) (ends : e.isEnd = true) :
    ∃ b, dirAllocSlotVisit c a i e = .inr b := ⟨(c, i), by rw [dirAllocSlotVisit, if_pos (by rw [ends]; rfl)]⟩

theorem dirIsEmptyVisit_stops (c : Nat) (a : Unit) (i : Nat) (e : Entry) (ends : e.isEnd = true) :
    ∃ b, dirIsEmptyVisit c a i e = .inr b := ⟨true, by rw [dirIsEmptyVisit, if_pos ends]⟩

theorem belowEoc_lt {c : Nat} (below : belowEoc c = true) : c < eoc := of_decide_eq_true below

theorem settles_dirFind {c : Nat} (straight : ¬ Loops (fs.link m isCluster Entry.isEnd) c) (t : Name) :
    (fs.dirFind c t).Settles (rounds n) m := by
  refine (settles_require _).bind fun _ _ => Settles.bind
    (settles_dirWalk (fun _ => isCluster_lt) (dirFindVisit_stops t) straight n ()) fun r _ => ?_
  cases r with
  | inl a | inr r => exact settles_pure _

theorem settles_resolveDir (finds : ∀ c t, (fs.dirFind c t).Settles fuel m) (path : Bytes) :
    (fs.resolveDir path).Settles fuel m := by
  refine settles_forAcc (fun comp cluster => ?_) _ _
  refine (finds cluster (to83 comp)).bind fun found _ => ?_
  cases found with
  | none => exact settles_fail
  | some r => exact (settles_require _).bind fun _ _ => settles_pure _

theorem settles_resolveFound (finds : ∀ c t, (fs.dirFind c t).Settles fuel m) (path : Bytes) :
    (fs.resolveFound path).Settles fuel m := by
  have parent : (fs.resolveParent path).Settles fuel m := by
    rw [resolveParent]
    cases splitLast path 256 16 with
    | none => exact settles_fail
    | some p => exact (settles_resolveDir finds p.1).bind fun _ _ => settles_pure _
  have entry : (fs.resolveEntry path).Settles fuel m := parent.bind fun r _ => finds r.1 r.2
  refine entry.bind fun found _ => ?_
  cases found with
  | none => exact settles_fail
  | some r => exact settles_pure _

theorem settles_findRootEntry (straight : ¬ Loops (fs.link m belowEoc Entry.isEnd) fs.rootCluster) (name : Bytes) :
    (fs.findRootEntry name).Settles (rounds n) m := by
  refine (settles_require _).bind fun _ _ => Settles.bind
    (settles_dirWalk (fun _ => belowEoc_lt) (findRootEntryVisit_stops _) straight n ()) fun r _ => ?_
  rcases r with a | _ | ⟨e, c, i⟩ <;> exact settles_pure _

theorem settles_readEntry {e : Entry} (whole : ¬ Loops (fs.readStep m (min e.size n)) (0, e.firstCluster)) (buf : Buf) :
    (fs.readEntry e buf n).Settles (rounds n) m :=
  (settles_require _).bind fun _ _ =>
    (settles_readChain (Nat.min_le_right _ _) whole buf).bind fun _ _ => settles_pure _

theorem settles_findFreeFrom (fuel : Nat) (m : Media) : ∀ cs : List Nat, (fs.findFreeFrom cs).Settles fuel m
  | [] => settles_fail
  | c :: cs => by
    have entry : (fs.readFatEntry c).Settles fuel m := by
      rw [Settles, run_readFatEntry_eq]
      cases fs.nextOf m c with
      | none => exact .inr rfl
      | some next => exact .inl ⟨next, rfl⟩
    refine entry.bind fun next _ => ?_
    split
    · exact settles_pure c
    · exact settles_findFreeFrom fuel m cs

theorem returns_read (d : Disk) (lba k fuel : Nat) (m : Media) : ((d.read lba k).run fuel m).Returns := by
  simp only [Disk.read]
  split <;> trivial

theorem returns_write (d : Disk) (lba k : Nat) (buf : Buf) (fuel : Nat) (m : Media) :
    ((d.write lba k buf).run fuel m).Returns := by
  simp only [Disk.write]
  split <;> trivial

theorem returns_writeFatEntry (c value fuel : Nat) (m : Media) : ((fs.writeFatEntry c value).run fuel m).Returns :=
  returns_forAcc (fun _ _ _ => returns_bind (returns_read _ _ _ _ _) fun _ _ _ => returns_write _ _ _ _ _ _)
    _ _ _

/-- A volume whose links do not lead round lets every call answer. -/
theorem Straight.walksReturn (straight : fs.Straight m) : fs.WalksReturn m where
  listRoot υ cb user := Settles.returns <| (settles_require _).bind fun _ _ =>
    (settles_dirWalk (fun _ => belowEoc_lt) (listRootVisit_stops cb) straight.root 0 (0, user)).bind fun r _ => by
    cases r <;> exact settles_pure _
  listPath υ path cb user := Settles.returns <| (settles_resolveDir (fun c t => settles_dirFind 0 (straight.dirs c) t) path).bind fun c _ =>
    (settles_require _).bind fun _ _ =>
    (settles_dirWalk (fun _ => isCluster_lt) (listPathVisit_stops cb) (straight.dirs c) 0 (0, user)).bind fun r _ => by
    cases r <;> exact settles_pure _
  readRoot name buf n word := Settles.returns <| (settles_findRootEntry n straight.root name).bind fun found run => by
    rcases found with _ | ⟨e, l⟩
    · exact settles_fail
    · exact settles_readEntry n (straight.rootFiles n word name e l m run) buf
  readPath path buf n word := Settles.returns <| (settles_resolveFound (fun c t => settles_dirFind n (straight.dirs c) t) path).bind fun found run =>
    (settles_require _).bind fun _ file => by
    have plain : found.1.isDir = false := by
      have := (require_ok file).1
      simpa using this
    exact settles_readEntry n (straight.files n word path found.1 found.2 m run plain) buf
  find c t := (settles_dirFind 0 (straight.dirs c) t).returns
  allocSlot c := returns_bind (settles_require _).returns fun _ m₁ fits => by
    obtain ⟨-, rfl⟩ := require_ok fits
    refine returns_bind (settles_dirWalk (fun _ => isCluster_lt) dirAllocSlotVisit_stops
      (straight.dirs c) 0 c).returns fun r m₂ _ => ?_
    cases r with
    | inr slot => trivial
    | inl last =>
      exact returns_bind (settles_findFreeFrom _ m₂ _).returns fun nc m₃ _ =>
        returns_bind (returns_writeFatEntry _ _ _ m₃) fun _ m₄ _ =>
        returns_bind (returns_writeFatEntry _ _ _ m₄) fun _ m₅ _ =>
        returns_bind (returns_write _ _ _ _ _ m₅) fun _ _ _ => trivial
  isEmpty c := Settles.returns <| (settles_require _).bind fun _ _ =>
    (settles_dirWalk (fun _ => isCluster_lt) dirIsEmptyVisit_stops (straight.dirs c) 0 ()).bind fun r _ => by
    cases r <;> exact settles_pure _

end Calls

/-! ## The calls that go round -/

/-- A name no entry is found by: entries that start with this byte are deleted ones. -/
def nowhere : Name := ⟨fun _ => 0xE5⟩

theorem dirFindVisit_goes (c : Nat) (a : Unit) (i : Nat) (e : Entry) (goesOn : e.isEnd = false) :
    ∃ a', dirFindVisit nowhere c a i e = .inl a' := by
  refine ⟨(), ?_⟩
  rw [dirFindVisit, if_neg (by rw [goesOn]; decide)]
  by_cases deleted : e.isDeleted = true
  · rw [if_pos deleted]
  · have other : e.name ≠ nowhere := fun same => deleted (by
      have first : e.byte 0 = 0xE5 := congrArg (fun n : Name => n.byte 0) same
      rw [Entry.isDeleted, first]
      rfl)
    rw [if_neg deleted, if_neg other]
    split
    · rfl
    · split <;> rfl

/-- The callback that never stops the listing. -/
def listOn (_ : Unit) (_ : List UInt8) (_ : Nat) : Bool × Unit := (true, ())

theorem listRootVisit_goes (c : Nat) (a : Nat × Unit) (i : Nat) (e : Entry) (goesOn : e.isEnd = false) :
    ∃ a', listRootVisit listOn c a i e = .inl a' := by
  rw [listRootVisit, if_neg (by rw [goesOn]; decide)]
  split
  · exact ⟨_, rfl⟩
  · split
    · exact ⟨_, rfl⟩
    · split <;> exact ⟨_, rfl⟩

section Fits

variable (fits : fs.bytesPerCluster ≤ 8192)

include fits in
theorem run_fits (fuel : Nat) (m : Media) : fs.fitsBuffer.run fuel m = .ok () m :=
  run_require_true (decide_eq_true fits) fuel m

include fits in
theorem straight_of_dirFind {c : Nat} (returns : ((fs.dirFind c nowhere).run fuel m).Returns) :
    ¬ Loops (fs.link m isCluster Entry.isEnd) c := by
  rw [dirFind, run_bind_ok (run_fits fits fuel m)] at returns
  exact straight_of_dirWalk dirFindVisit_goes (returns_of_bind returns)

include fits in
theorem straight_of_listRoot (returns : ((canbootFat32ListRoot fs listOn ()).run fuel m).Returns) :
    ¬ Loops (fs.link m belowEoc Entry.isEnd) fs.rootCluster := by
  rw [canbootFat32ListRoot, run_bind_ok (run_fits fits fuel m)] at returns
  exact straight_of_dirWalk listRootVisit_goes (returns_of_bind returns)

include fits in
theorem straight_of_readEntry {e : Entry} {buf : Buf} {n : Nat} (returns : ((fs.readEntry e buf n).run fuel m).Returns) :
    ¬ Loops (fs.readStep m (min e.size n)) (0, e.firstCluster) := by
  rw [readEntry, run_bind_ok (run_fits fits fuel m)] at returns
  exact straight_of_readChain (returns_of_bind returns)

include fits in
/-- Calls that answer went along links that do not lead round. -/
theorem WalksReturn.straight (returns : fs.WalksReturn m) : fs.Straight m := by
  have dirs : ∀ c, ¬ Loops (fs.link m isCluster Entry.isEnd) c := fun c =>
    straight_of_dirFind fits (returns.find c nowhere)
  have root := straight_of_listRoot fits (returns.listRoot Unit listOn ())
  have finds : ∀ n c t, (fs.dirFind c t).Settles (rounds n) m := fun n c t => settles_dirFind n (dirs c) t
  refine ⟨dirs, root, fun n word path e l m' run file => ?_, fun n word name e l m' run => ?_⟩
  · obtain rfl : m' = m := by
      rcases settles_resolveFound (finds n) path with ⟨r, ok⟩ | err
      · rw [ok] at run
        cases run
        rfl
      · rw [err] at run
        cases run
    have whole := returns.readPath path (fun _ => 0) n word
    rw [canbootFat32ReadPath, run_bind_ok run, bind_require_true (by rw [file]; rfl)] at whole
    exact straight_of_readEntry fits whole
  · obtain rfl : m' = m := by
      rcases settles_findRootEntry n root name with ⟨r, ok⟩ | err
      · rw [ok] at run
        cases run
        rfl
      · rw [err] at run
        cases run
    have whole := returns.readRoot name (fun _ => 0) n word
    rw [canbootFat32ReadRootFile, run_bind_ok run] at whole
    exact straight_of_readEntry fits whole

end Fits

/-- A volume whose clusters do not fit the buffer is turned away by every call. -/
theorem walksReturn_of_large (large : 8192 < fs.bytesPerCluster) : fs.WalksReturn m := by
  have refused : ∀ {α : Type} (f : Unit → Prog Media α) (fuel : Nat), (fs.fitsBuffer >>= f).Settles fuel m :=
    fun f fuel => .inr (bind_require_false (decide_eq_false (Nat.not_le.mpr large)))
  have finds : ∀ fuel c t, (fs.dirFind c t).Settles fuel m := fun fuel c t => refused _ fuel
  exact {
    listRoot := fun υ cb user => (refused _ _).returns
    listPath := fun υ path cb user => Settles.returns <|
      (settles_resolveDir (finds _) path).bind fun _ _ => refused _ _
    readRoot := fun name buf n _ => Settles.returns <|
      Settles.bind (x := fs.findRootEntry name) (refused _ _) fun found _ => by
        rcases found with _ | ⟨e, l⟩
        · exact settles_fail
        · exact refused _ _
    readPath := fun path buf n _ => Settles.returns <|
      (settles_resolveFound (finds _) path).bind fun _ _ => (settles_require _).bind fun _ _ => refused _ _
    find := fun c t => (finds _ c t).returns
    allocSlot := fun c => (refused _ _).returns
    isEmpty := fun c => (refused _ _).returns }

/-- A volume of eight clusters whose root directory is full of deleted entries, and linked to itself. -/
def ringed : Media := fun l o =>
  if l = 0 then ([(12, 2), (13, 1), (14, 1), (16, 1), (19, 10), (36, 1), (44, 2)].lookup o).getD 0
  else if l = 1 then if o = 8 then 2 else 0
  else if o % 32 = 0 then 0xE5 else 0

/-- What `canboot_fat32_open` makes of it. -/
def ringedVolume : Fat32 := ⟨stick, 512, 1, 512, 1, 1, 1, 2, 1, 2, 8⟩

end Fat32

end CanBoot
