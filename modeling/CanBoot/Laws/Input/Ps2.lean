import CanBoot.Hal.Ps2
import Mathlib.Data.List.Induction

/-!
# Letters and the shift keys

A keyboard sends scan codes: the make or break code of a key, behind `0xE0` for the keys that came later. `g_shift` is
one flag for two keys, so that it says what the last shift code was (`shift_run`) and not whether a shift key is down;
letters follow the keys exactly where the two agree.
-/

namespace CanBoot.Ps2

open Input List

/-! ## Scan codes -/

/-- A code of set 1. No key has the make code `0x60`, whose break code is the prefix. -/
structure ScanCode where
  extended : Bool
  make : Nat
  release : Bool
  key : make < 128
  plain : make ≠ 0x60

/-- The byte behind the prefix. -/
def ScanCode.byte (c : ScanCode) : UInt8 := UInt8.ofNat (if c.release then c.make + 128 else c.make)

/-- What the keyboard sends. -/
def ScanCode.bytes (c : ScanCode) : List UInt8 := if c.extended then [0xE0, c.byte] else [c.byte]

/-- The driver after some codes. -/
def run (st : State) (codes : List ScanCode) : State := (codes.flatMap ScanCode.bytes).foldl processScancode st

theorem run_append (st : State) (a b : List ScanCode) : run st (a ++ b) = run (run st a) b := by
  rw [run, run, run, flatMap_append, foldl_append]

theorem byte_eq (c : ScanCode) :
    c.byte ≠ 0xE0 ∧ decide (c.byte &&& 0x80 ≠ 0) = c.release ∧ (c.byte &&& 0x7F).toNat = c.make := by
  obtain ⟨extended, make, release, key, plain⟩ := c
  have all : ∀ m < 128, m ≠ 0x60 → ∀ r : Bool, UInt8.ofNat (if r then m + 128 else m) ≠ 0xE0 ∧
        decide (UInt8.ofNat (if r then m + 128 else m) &&& 0x80 ≠ 0) = r ∧
          (UInt8.ofNat (if r then m + 128 else m) &&& 0x7F).toNat = m := by
    decide
  exact all make key plain release

/-- What a code does to a driver that is not behind a prefix. -/
theorem run_singleton {st : State} (ready : st.extended = false) (c : ScanCode) :
    run st [c] = if c.extended then processExtended c.make c.release { st with extended := true }
      else processPlain c.make c.release st := by
  obtain ⟨noPrefix, release, make⟩ := byte_eq c
  have last : ∀ st : State, processScancode st c.byte =
      if st.extended then processExtended c.make c.release st else processPlain c.make c.release st := by
    intro st
    simp only [processScancode, if_neg noPrefix, release, make]
  rw [run, flatMap_singleton, ScanCode.bytes]
  split
  · rw [foldl_cons, foldl_cons, foldl_nil, last]
    rfl
  · rw [foldl_cons, foldl_nil, last, ready]
    rfl

/-! ## The two shift keys -/

/-- A code of the key `make`. -/
def ScanCode.Of (make : Nat) (c : ScanCode) : Prop := c.extended = false ∧ c.make = make

instance (make : Nat) (c : ScanCode) : Decidable (c.Of make) := inferInstanceAs (Decidable (_ ∧ _))

/-- The key `make` was pressed and not yet released. -/
def isDown (make : Nat) (codes : List ScanCode) : Bool :=
  codes.foldl (fun down c => if c.Of make then !c.release else down) false

/-- A shift key is down. -/
def shiftHeld (codes : List ScanCode) : Bool := isDown 0x2A codes || isDown 0x36 codes

/-- The last code of a shift key was a make code. -/
def lastShiftMade (codes : List ScanCode) : Bool :=
  codes.foldl (fun made c => if c.Of 0x2A ∨ c.Of 0x36 then !c.release else made) false

theorem shiftHeld_of_made (codes : List ScanCode) : lastShiftMade codes → shiftHeld codes := by
  induction codes using reverseRecOn with
  | nil => exact id
  | append_singleton codes c ih =>
    simp only [lastShiftMade, shiftHeld, isDown, foldl_append, foldl_cons, foldl_nil,
      Bool.or_eq_true] at ih ⊢
    by_cases left : c.Of 0x2A
    · simp only [left, true_or, if_true]
      exact .inl
    · by_cases right : c.Of 0x36
      · simp only [left, right, or_true, if_true]
        exact .inr
      · simp only [left, right, or_self, if_false]
        exact ih

theorem baseMap_shift : ∀ make < 128,
    (baseMap.getD make 0 = keyLshift ∨ baseMap.getD make 0 = keyRshift) ↔ make = 0x2A ∨ make = 0x36 := by
  decide

theorem processExtended_shift (make : Nat) (r : Bool) (st : State) :
    (processExtended make r st).extended = false ∧ (processExtended make r st).shift = st.shift := by
  unfold processExtended
  split
  · exact ⟨rfl, rfl⟩
  · exact ⟨rfl, rfl⟩

theorem processPlain_shift {make : Nat} (key : make < 128) (r : Bool) (st : State) :
    (processPlain make r st).extended = st.extended ∧
      (processPlain make r st).shift = if make = 0x2A ∨ make = 0x36 then !r else st.shift := by
  have entry := baseMap_shift make key
  rw [processPlain, processKey]
  by_cases none : baseMap.getD make 0 = 0
  · rw [if_pos none, if_neg (entry.not.1 (by rw [none]; decide))]
    exact ⟨rfl, rfl⟩
  · rw [if_neg none]
    by_cases shift : baseMap.getD make 0 = keyLshift ∨ baseMap.getD make 0 = keyRshift
    · rw [if_pos shift, if_pos (entry.1 shift)]
      exact ⟨rfl, rfl⟩
    · rw [if_neg shift, if_neg (entry.not.1 shift)]
      exact ⟨rfl, rfl⟩

/-- **The flag says what the last shift code was.** -/
theorem run_start (codes : List ScanCode) :
    (run .start codes).extended = false ∧ (run .start codes).shift = lastShiftMade codes := by
  induction codes using reverseRecOn with
  | nil => exact ⟨rfl, rfl⟩
  | append_singleton codes c ih =>
    obtain ⟨ready, shift⟩ := ih
    rw [run_append, run_singleton ready, lastShiftMade, foldl_append, foldl_cons, foldl_nil,
      ← lastShiftMade, ← shift]
    by_cases ext : c.extended
    · obtain ⟨ready', same⟩ := processExtended_shift c.make c.release { run .start codes with extended := true }
      have other : ¬ (c.Of 0x2A ∨ c.Of 0x36) := by
        rintro (⟨plain, -⟩ | ⟨plain, -⟩)
        · rw [ext] at plain
          cases plain
        · rw [ext] at plain
          cases plain
      rw [if_pos ext, if_neg other]
      exact ⟨ready', same⟩
    · obtain ⟨ready', same⟩ := processPlain_shift c.key c.release (run .start codes)
      have plain : ∀ make, c.Of make ↔ c.make = make := fun make => and_iff_right (Bool.eq_false_iff.2 ext)
      rw [if_neg ext, ready', same, ready]
      simp only [plain, and_self]

/-! ## Letters -/

/-- A letter key goes down; `letter` is its lower-case code. -/
structure ScanCode.Types (c : ScanCode) (letter : Nat) : Prop where
  plain : c.extended = false
  down : c.release = false
  key : baseMap.getD c.make 0 = letter
  low : 0x61 ≤ letter
  high : letter ≤ 0x7A

/-- The event of a letter. -/
theorem run_letter {codes : List ScanCode} {c : ScanCode} {letter : Nat} (types : c.Types letter) :
    (run .start (codes ++ [c])).events = (run .start codes).events ++
      [⟨.keyDown, .ps2, if lastShiftMade codes then letter - 0x20 else letter, c.make, 1⟩] := by
  obtain ⟨ready, shift⟩ := run_start codes
  obtain ⟨plain, down, key, low, high⟩ := types
  have noShift : ¬ (letter = keyLshift ∨ letter = keyRshift) := by
    unfold keyLshift keyRshift
    omega
  have code : applyShift (lastShiftMade codes) letter = if lastShiftMade codes then letter - 0x20 else letter := by
    rw [applyShift, if_pos ⟨low, high⟩]
    split <;> omega
  rw [run_append, run_singleton ready, plain, down, if_neg Bool.false_ne_true, processPlain, key, processKey,
    if_neg (by omega), if_neg noShift, shift, code]
  rfl

/-- Every letter that goes down is upper-case exactly if a shift key is down. -/
def LettersFollowShift (codes : List ScanCode) : Prop :=
  ∀ before c after letter, codes = before ++ c :: after → c.Types letter →
    ∃ e : Event, (run .start (before ++ [c])).events = (run .start before).events ++ [e] ∧ e.type = .keyDown ∧
      (e.code = letter - 0x20 ↔ shiftHeld before)

/-- Wherever a letter goes down with a shift key, the last shift code was a make code. -/
def NoShiftReleased (codes : List ScanCode) : Prop :=
  ∀ before c after letter, codes = before ++ c :: after → c.Types letter → shiftHeld before → lastShiftMade before

/-- **Letters follow the shift keys exactly if none goes down while one shift key is held and the other was the last to
change, by its release.** -/
theorem letters_follow_shift_iff (codes : List ScanCode) : LettersFollowShift codes ↔ NoShiftReleased codes := by
  have code : ∀ {before : List ScanCode} {letter : Nat}, 0x61 ≤ letter →
      ((if lastShiftMade before then letter - 0x20 else letter) = letter - 0x20 ↔ lastShiftMade before) := by
    intro before letter low
    split
    next made => exact iff_of_true rfl made
    next broken => exact iff_of_false (by omega) broken
  constructor
  · intro follow before c after letter split types held
    obtain ⟨e, events, -, upper⟩ := follow before c after letter split types
    rw [run_letter types] at events
    obtain rfl := singleton_inj.1 (append_cancel_left events)
    exact (code types.low).1 (upper.2 held)
  · intro made before c after letter split types
    refine ⟨_, run_letter types, rfl, (code types.low).trans ⟨shiftHeld_of_made before, ?_⟩⟩
    exact made before c after letter split types

/-- Left shift down, right shift down, left shift up, and the key of the letter a. -/
def twoShifts : List ScanCode :=
  [⟨false, 0x2A, false, by decide, by decide⟩, ⟨false, 0x36, false, by decide, by decide⟩,
    ⟨false, 0x2A, true, by decide, by decide⟩, ⟨false, 0x1E, false, by decide, by decide⟩]

/-- The right shift key is held, and the letter is lower-case. -/
theorem held_shift_ignored : shiftHeld (twoShifts.take 3) = true ∧
    (run .start twoShifts).events.getLast? = some ⟨.keyDown, .ps2, 0x61, 0x1E, 1⟩ := by
  decide

end CanBoot.Ps2
