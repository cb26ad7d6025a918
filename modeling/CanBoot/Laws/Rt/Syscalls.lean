import CanBoot.Spec.Descriptors

/-!
# File descriptors against their table

The slots of `g_files` refine the table of open files as long as no read starts past the end of its file. `read`
computes what is left of the file without a sign, so past the end it finds almost 2^64 bytes and copies from behind
the buffer. Nothing else separates the two (`descriptors_serve_iff`): opening, seeking and closing agree with the table
on every argument.
-/

namespace CanBoot.Rt

open Lib Spec Function Option List

/-- The table that the slots hold. -/
def Files.table (fs : Files) : Table := fun i =>
  if (fs i).used then some ⟨(fs i).data.getD [], (fs i).size, (fs i).pos⟩ else none

/-- An open slot has a buffer, and its size and its offset fit an `off_t`. -/
def Files.Sound (fs : Files) : Prop :=
  ∀ i, (fs i).used = true → (∃ data, (fs i).data = some data) ∧ (fs i).size < 4294967296 ∧
    (fs i).pos < 9223372036854775808

/-- The descriptor of a call, for the calls that have one. -/
def Call.target : Call → Option Int
  | .openFile .. => none
  | .read fd _ => some fd
  | .lseek fd _ _ => some fd
  | .close fd => some fd
  | .fstat fd => some fd

/-- A call answers as the table does, changes the slots as it does, and no open file but its own. -/
structure Answers (fs : Files) (t : Table) (c : Call) (r : Reply) (fs' : Files) : Prop where
  done : fs.step c = some (r, fs')
  reply : r = (t.step c).1
  table : fs'.table = (t.step c).2
  others : ∀ i, (fs i).used = true → (∀ fd, c.target = some fd → slotOf fd ≠ some i) → fs' i = fs i

/-- Every call of the sequence answers as the table does. -/
def Serves (fs : Files) (t : Table) : List Call → Prop
  | [] => True
  | c :: rest => ∃ r fs', Answers fs t c r fs' ∧ Serves fs' (t.step c).2 rest

/-! ## Slots and table entries -/

theorem Files.sound_boot : Files.boot.Sound := fun _ used => nomatch used

variable {fs : Files} {fd : Int} {i : Fin maxFiles}

theorem Files.table_of_used (used : (fs i).used = true) :
    fs.table i = some ⟨(fs i).data.getD [], (fs i).size, (fs i).pos⟩ := if_pos used

theorem Files.table_update (f : OpenFile) : Files.table (update fs i f) =
      update fs.table i (if f.used then some ⟨f.data.getD [], f.size, f.pos⟩ else none) := by
  funext j
  by_cases at_i : j = i
  · subst at_i
    simp only [Files.table, update_self]
  · simp only [Files.table, update_of_ne at_i]

/-- Both look a descriptor up in the same slot. -/
theorem find_table (fs : Files) (fd : Int) :
    fs.table.find fd = (fileForFd fs fd).map fun i => (i, ⟨(fs i).data.getD [], (fs i).size, (fs i).pos⟩) := by
  unfold Table.find fileForFd
  cases slotOf fd with
  | none => rfl
  | some i =>
    by_cases used : (fs i).used = true
    · simp [Files.table, used]
    · simp [Files.table, used]

theorem slotOf_of_fileForFd (found : fileForFd fs fd = some i) : slotOf fd = some i ∧ (fs i).used = true := by
  unfold fileForFd at found
  split at found
  · cases found
  · next j slot =>
    split at found
    · next used => exact Option.some.inj found ▸ ⟨slot, used⟩
    · cases found

theorem freeSlot_table (fs : Files) : ((finRange maxFiles).find? fun i => (fs.table i).isNone) = freeSlot fs := by
  congr 1
  funext i
  cases used : (fs i).used <;> simp [Files.table, used]

/-- A slot that is set to a sound file leaves the slots sound. -/
theorem Files.Sound.update (sound : fs.Sound) {f : OpenFile}
    (new : f.used = true → (∃ data, f.data = some data) ∧ f.size < 4294967296 ∧ f.pos < 9223372036854775808) :
    Files.Sound (update fs i f) := by
  intro j used
  by_cases at_i : j = i
  · subst at_i
    rw [update_self] at used ⊢
    exact new used
  · rw [update_of_ne at_i] at used ⊢
    exact sound j used

/-- The frame of an update at the slot of the call's descriptor. -/
theorem others_of_update {c : Call} (target : c.target = some fd) (slot : slotOf fd = some i) (f : OpenFile) (j : Fin maxFiles)
    (other : ∀ fd, c.target = some fd → slotOf fd ≠ some j) : update fs i f j = fs j :=
  update_of_ne (fun same : j = i => other fd target (same ▸ slot)) f fs

/-- A call that finds nothing to do changes nothing. -/
theorem Answers.idle {t : Table} {c : Call} {r : Reply} (table : fs.table = t) (done : fs.step c = some (r, fs))
    (asked : t.step c = (r, t)) : Answers fs t c r fs :=
  ⟨done, by rw [asked], by rw [asked]; exact table, fun _ _ _ => rfl⟩

/-- `read` of an open file, in terms of what it believes to be left of it. -/
theorem read_eq (count : UInt64) {data : Bytes} (console : fd ≠ 0) (found : fileForFd fs fd = some i)
    (bytes : (fs i).data = some data) :
    read fs fd count = if min count.toNat (sub64 (fs i).size (fs i).pos) = 0 then some (.bytes [], fs)
      else if (fs i).pos + min count.toNat (sub64 (fs i).size (fs i).pos) ≤ data.length then
        some (.bytes ((data.drop (fs i).pos).take (min count.toNat (sub64 (fs i).size (fs i).pos))),
          update fs i { fs i with pos := u64 ((fs i).pos + min count.toNat (sub64 (fs i).size (fs i).pos)) })
      else none := by
  have least : (if count.toNat < sub64 (fs i).size (fs i).pos then count.toNat else sub64 (fs i).size (fs i).pos) =
      min count.toNat (sub64 (fs i).size (fs i).pos) := by split <;> omega
  simp only [read, console, if_false, found, bytes, least]

/-! ## One call -/

section Step

variable (sound : fs.Sound)
include sound

theorem openFile_answers (path : Option (List UInt8)) (flags : Nat) (found : Except Errno Slurped) :
    ∃ r fs', Answers fs fs.table (.openFile path flags found) r fs' ∧ fs'.Sound := by
  cases path with
  | none => exact ⟨.fail .einval, fs, .idle rfl rfl rfl, sound⟩
  | some path =>
    by_cases writes : flags % 4 ≠ 0
    · exact ⟨.fail .erofs, fs, .idle rfl (by simp [Files.step, openFile, writes])
        (by simp [Table.step, Table.openFile, writes]), sound⟩
    by_cases root : path.dropWhile (· = 47) = []
    · exact ⟨.fail .eisdir, fs, .idle rfl (by simp only [Files.step, openFile, writes, root, if_true, if_false])
        (by simp only [Table.step, Table.openFile, writes, root, if_true, if_false]), sound⟩
    cases free : freeSlot fs with
    | none =>
      exact ⟨.fail .emfile, fs, .idle rfl (by simp only [Files.step, openFile, writes, root, if_false, free])
        (by simp only [Table.step, Table.openFile, writes, root, if_false, freeSlot_table, free]), sound⟩
    | some i =>
      have unused : (fs i).used = false := by simpa [freeSlot] using find?_some free
      have apart : ∀ j, (fs j).used = true → j ≠ i := fun j used same => by simp [same, unused] at used
      cases found with
      | error e =>
        have shut : fs.table i = none := by simp [Files.table, unused]
        refine ⟨.fail e, update fs i { fs i with used := false, data := none }, ⟨?_, ?_, ?_, ?_⟩,
          sound.update fun h => by cases h⟩
        · simp only [Files.step, openFile, writes, root, if_false, free]
        · simp only [Table.step, Table.openFile, writes, root, if_false, freeSlot_table, free]
        · simp only [Table.step, Table.openFile, writes, root, if_false, freeSlot_table, free, Files.table_update]
          simp [← shut]
        · exact fun j used _ => update_of_ne (apart j used) _ fs
      | ok file =>
        refine ⟨.fd (fileFdBase + i.val), update fs i ⟨true, some file.data, file.len, 0⟩, ⟨?_, ?_, ?_, ?_⟩,
          sound.update fun _ => ⟨⟨_, rfl⟩, file.small, Nat.succ_pos _⟩⟩
        · simp only [Files.step, openFile, writes, root, if_false, free]
        · simp only [Table.step, Table.openFile, writes, root, if_false, freeSlot_table, free]
        · simp only [Table.step, Table.openFile, writes, root, if_false, freeSlot_table, free, Files.table_update]
          simp
        · exact fun j used _ => update_of_ne (apart j used) _ fs

theorem close_answers (fd : Int) : ∃ r fs', Answers fs fs.table (.close fd) r fs' ∧ fs'.Sound := by
  by_cases socket : canbootSocketIs fd = true
  · exact ⟨.elsewhere, fs, .idle rfl (by simp [Files.step, close, socket]) (by simp [Table.step, Table.close, socket]),
      sound⟩
  cases found : fileForFd fs fd with
  | none =>
    exact ⟨.ok, fs, .idle rfl (by simp [Files.step, close, socket, found])
      (by simp [Table.step, Table.close, socket, find_table, found]), sound⟩
  | some i =>
    obtain ⟨slot, used⟩ := slotOf_of_fileForFd found
    refine ⟨.ok, update fs i { fs i with data := none, used := false }, ⟨?_, ?_, ?_, ?_⟩, sound.update fun h => by cases h⟩
    · simp [Files.step, close, socket, found]
    · simp [Table.step, Table.close, socket, find_table, found]
    · simp [Table.step, Table.close, socket, find_table, found, Files.table_update]
    · exact fun j _ => others_of_update rfl slot _ j

/-- Below the largest `off_t` the seek counts from where the table says. -/
theorem seekBase_eq (used : (fs i).used = true) (whence : Int) :
    seekBase (fs i) whence = Table.base ⟨(fs i).data.getD [], (fs i).size, (fs i).pos⟩ whence ∧
      ∀ b, seekBase (fs i) whence = some b → 0 ≤ b ∧ b < 9223372036854775808 := by
  obtain ⟨_, size, pos⟩ := sound i used
  have atPos : wrap64 (fs i).pos = (fs i).pos := by unfold wrap64; omega
  have atSize : wrap64 (fs i).size = (fs i).size := by unfold wrap64; omega
  refine ⟨by simp only [seekBase, Table.base, atPos, atSize], fun b at_b => ?_⟩
  simp only [seekBase, atPos, atSize] at at_b
  split_ifs at at_b <;> cases at_b <;> omega

theorem lseek_answers (fd : Int) (off : Int64) (whence : Int) :
    ∃ r fs', Answers fs fs.table (.lseek fd off whence) r fs' ∧ fs'.Sound := by
  cases found : fileForFd fs fd with
  | none =>
    exact ⟨.fail .espipe, fs, .idle rfl (by simp [Files.step, lseek, found])
      (by simp [Table.step, Table.lseek, find_table, found]), sound⟩
  | some i =>
    obtain ⟨slot, used⟩ := slotOf_of_fileForFd found
    obtain ⟨same, bounds⟩ := seekBase_eq sound used whence
    cases base : seekBase (fs i) whence with
    | none =>
      exact ⟨.fail .einval, fs, .idle rfl (by simp [Files.step, lseek, found, base])
        (by simp [Table.step, Table.lseek, find_table, found, ← same, base]), sound⟩
    | some b =>
      obtain ⟨nonneg, below⟩ := bounds b base
      have offLow := off.le_toInt
      have offHigh := off.toInt_lt
      by_cases fits : 0 ≤ b + off.toInt ∧ b + off.toInt < 9223372036854775808
      · have exact_ : wrap64 (b + off.toInt) = b + off.toInt := by unfold wrap64; omega
        refine ⟨.offset (b + off.toInt), update fs i { fs i with pos := (b + off.toInt).toNat },
          ⟨?_, ?_, ?_, ?_⟩, sound.update fun _ => ?_⟩
        · simp [Files.step, lseek, found, base, exact_, not_lt.2 fits.1]
        · simp [Table.step, Table.lseek, find_table, found, ← same, base, fits]
        · simp [Table.step, Table.lseek, find_table, found, ← same, base, fits, Files.table_update, used]
        · exact fun j _ => others_of_update rfl slot _ j
        · exact ⟨(sound i used).1, (sound i used).2.1, by show (b + off.toInt).toNat < _; omega⟩
      · -- the sum is negative, or wraps to a negative offset
        have negative : wrap64 (b + off.toInt) < 0 := by unfold wrap64; omega
        exact ⟨.fail .einval, fs, .idle rfl (by simp [Files.step, lseek, found, base, negative])
          (by simp [Table.step, Table.lseek, find_table, found, ← same, base, fits]), sound⟩

theorem fstat_answers (fd : Int) : ∃ r fs', Answers fs fs.table (.fstat fd) r fs' ∧ fs'.Sound := by
  refine ⟨fstat fs fd, fs, .idle rfl rfl ?_, sound⟩
  cases found : fileForFd fs fd with
  | none => simp [Table.step, Table.fstat, fstat, find_table, found]
  | some i =>
    have small := (sound i (slotOf_of_fileForFd found).2).2.1
    have same : wrap64 (fs i).size = (fs i).size := by unfold wrap64; omega
    simp [Table.step, Table.fstat, fstat, find_table, found, same]

/-- A read that stays in its file answers as the table does. -/
theorem read_answers (fd : Int) (count : UInt64)
    (inFile : ∀ i d, fd ≠ 0 → fs.table.find fd = some (i, d) → d.InFile count.toNat) :
    ∃ r fs', Answers fs fs.table (.read fd count) r fs' ∧ fs'.Sound := by
  by_cases console : fd = 0
  · exact ⟨.elsewhere, fs, .idle rfl (by simp [Files.step, read, console]) (by simp [Table.step, Table.read, console]),
      sound⟩
  cases found : fileForFd fs fd with
  | none =>
    exact ⟨.fail .ebadf, fs, .idle rfl (by simp [Files.step, read, console, found])
      (by simp [Table.step, Table.read, console, find_table, found]), sound⟩
  | some i =>
    obtain ⟨slot, used⟩ := slotOf_of_fileForFd found
    obtain ⟨⟨data, bytes⟩, size, pos⟩ := sound i used
    have entry : fs.table.find fd = some (i, ⟨data, (fs i).size, (fs i).pos⟩) := by
      rw [find_table, found, map_some, bytes, getD_some]
    have stays := inFile i _ console entry
    simp only [Descriptor.InFile, Descriptor.ready] at stays
    -- past the end only a read of nothing stays in the file
    have least : min count.toNat (sub64 (fs i).size (fs i).pos) = min count.toNat ((fs i).size - (fs i).pos) := by
      rcases stays with none | ⟨before, -⟩
      · rw [none, Nat.zero_min, Nat.zero_min]
      · rw [sub64_of_le (by omega) before]
    have done := read_eq count console found bytes
    rw [least] at done
    by_cases nothing : min count.toNat ((fs i).size - (fs i).pos) = 0
    · refine ⟨.bytes [], fs, .idle rfl (by rw [Files.step, done, if_pos nothing]) ?_, sound⟩
      have same : some (⟨data, (fs i).size, (fs i).pos⟩ : Descriptor) = fs.table i := by
        rw [Files.table_of_used used, bytes, getD_some]
      simp [Table.step, Table.read, console, entry, Descriptor.ready, nothing, same]
    · have inside : (fs i).pos + min count.toNat ((fs i).size - (fs i).pos) ≤ data.length := by omega
      rw [if_neg nothing, if_pos inside] at done
      have unwrapped : u64 ((fs i).pos + min count.toNat ((fs i).size - (fs i).pos)) =
          (fs i).pos + min count.toNat ((fs i).size - (fs i).pos) := Nat.mod_eq_of_lt (by omega)
      rw [unwrapped] at done
      refine ⟨_, _, ⟨done, ?_, ?_, ?_⟩, sound.update fun _ => ⟨⟨_, bytes⟩, size, ?_⟩⟩
      · simp [Table.step, Table.read, console, entry, Descriptor.ready]
      · simp [Table.step, Table.read, console, entry, Descriptor.ready, Files.table_update, used, bytes]
      · exact fun j _ => others_of_update rfl slot _ j
      · show (fs i).pos + min count.toNat ((fs i).size - (fs i).pos) < _
        omega

/-- A read that starts past the end, or leaves the buffer, does not. -/
theorem read_fails {count : UInt64} {d : Descriptor} {r : Reply} {fs' : Files} (console : fd ≠ 0)
    (found : fs.table.find fd = some (i, d)) (outside : ¬ d.InFile count.toNat) :
    ¬ Answers fs fs.table (.read fd count) r fs' := by
  intro answers
  rw [find_table, map_eq_some_iff] at found
  obtain ⟨j, slot, entry⟩ := found
  cases entry
  obtain ⟨⟨data, bytes⟩, size, pos⟩ := sound i (slotOf_of_fileForFd slot).2
  have done := answers.done
  rw [Files.step, read_eq count console slot bytes] at done
  simp only [Descriptor.InFile, Descriptor.ready, bytes, getD_some, not_or, not_and] at outside
  have asked : r = .bytes ((data.drop (fs i).pos).take (min count.toNat ((fs i).size - (fs i).pos))) := by
    rw [answers.reply]
    simp [Table.step, Table.read, console, find_table, slot, Descriptor.ready, bytes]
  by_cases before : (fs i).pos ≤ (fs i).size
  · rw [sub64_of_le (by omega) before, if_neg (outside.2 before).1, if_neg (outside.2 before).2] at done
    cases done
  · -- what is left wraps around to a positive number, and the reply is longer than the table's
    have wrapped : 0 < min count.toNat (sub64 (fs i).size (fs i).pos) := by
      unfold sub64 u64
      omega
    rw [if_neg wrapped.ne'] at done
    split at done
    · next inside =>
      have copied := (Prod.mk.inj (Option.some.inj done)).1.trans asked
      have lengths := congrArg List.length (Reply.bytes.inj copied)
      simp only [length_take, length_drop] at lengths
      omega
    · cases done

/-- One call, in either direction. -/
theorem step_answers_iff (c : Call) : (∃ r fs', Answers fs fs.table c r fs' ∧ fs'.Sound) ↔
      ∀ fd count i d, c = .read fd count → fd ≠ 0 → fs.table.find fd = some (i, d) → d.InFile count.toNat := by
  constructor
  · rintro ⟨r, fs', answers, -⟩ fd count i d rfl console found
    by_contra outside
    exact read_fails sound console found outside answers
  · intro inFile
    cases c with
    | openFile path flags found => exact openFile_answers sound path flags found
    | read fd count => exact read_answers sound fd count fun i d => inFile fd count i d rfl
    | lseek fd off whence => exact lseek_answers sound fd off whence
    | close fd => exact close_answers sound fd
    | fstat fd => exact fstat_answers sound fd

end Step

/-! ## Sequences of calls -/

/-- A call has one answer. -/
theorem Answers.unique {t : Table} {c : Call} {r r' : Reply} {fs' fs'' : Files} (one : Answers fs t c r fs')
    (two : Answers fs t c r' fs'') : fs' = fs'' :=
  (Prod.mk.inj (Option.some.inj (one.done.symm.trans two.done))).2

theorem serves_iff (calls : List Call) : ∀ fs : Files, fs.Sound → (Serves fs fs.table calls ↔ fs.table.InFile calls) := by
  induction calls with
  | nil => exact fun _ _ => Iff.rfl
  | cons c rest ih =>
    intro fs sound
    have first := step_answers_iff sound c
    constructor
    · rintro ⟨r, fs', answers, later⟩
      have inFile : ∀ fd count i d, c = .read fd count → fd ≠ 0 → fs.table.find fd = some (i, d) →
          d.InFile count.toNat := by
        rintro fd count i d rfl console found
        by_contra outside
        exact read_fails sound console found outside answers
      obtain ⟨r', fs'', again, sound'⟩ := first.2 inFile
      cases answers.unique again
      rw [← answers.table, ih fs' sound', answers.table] at later
      exact ⟨inFile, later⟩
    · rintro ⟨inFile, later⟩
      obtain ⟨r, fs', answers, sound'⟩ := first.2 inFile
      rw [← answers.table, ← ih fs' sound', answers.table] at later
      exact ⟨r, fs', answers, later⟩

/-- **Descriptors read their files exactly when no read starts past the end.** Over every sequence of calls from
boot, with any paths, descriptors, offsets, seek origins and counts, and whatever the disks hold: every call answers
as the table of open files does and leaves the other open files alone if and only if every read that asks for
something starts at or before the end of its file and finds the stretch it returns in the file's buffer. -/
theorem descriptors_serve_iff (calls : List Call) : Serves Files.boot Table.empty calls ↔ Table.empty.InFile calls :=
  serves_iff calls Files.boot Files.sound_boot

/-- Open a file of one byte, seek to offset 2, read a byte. -/
def readPastEnd : List Call :=
  [.openFile (some [47, 97]) 0 (.ok ⟨[7], 1, by decide⟩), .lseek 3 2 0, .read 3 1]

/-- A seek past the end succeeds, and the read behind it leaves the buffer. -/
theorem descriptors_read_past_end : ¬ Serves Files.boot Table.empty readPastEnd := by
  rintro ⟨_, fs₁, one, _, fs₂, two, _, fs₃, three, -⟩
  have opened := (Prod.mk.inj (Option.some.inj one.done)).2
  subst opened
  have sought := (Prod.mk.inj (Option.some.inj two.done)).2
  subst sought
  exact absurd (isSome_of_eq_some three.done) (by decide)

end CanBoot.Rt
