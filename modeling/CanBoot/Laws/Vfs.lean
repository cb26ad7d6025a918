import CanBoot.Fs.Vfs
import CanBoot.Lib.Keeps
import CanBoot.Laws.Fat32.Format
import CanBoot.Laws.Fat32.Listing

/-!
# POSIX paths against their lexical meaning

A path means the names it leads to from the current directory, with `.`, `..` and repeated slashes resolved
(`lexical`). The path calls act there as long as the path fits three buffers: 256 bytes for the text, 32 for a
component, 24 components (`resolve_of_fits`). Nothing refuses a path that does not fit. An absolute path is cut, a
component is read as several, the deepest names are dropped, and a relative path becomes the empty string, which the
FAT32 engine takes for the root. So all depends on whether the volume happens to refuse it (`paths_act_lexically_iff`).
-/

namespace CanBoot.Vfs

open Lib Lib.Prog List

/-- A path behind the current directory. -/
def joined (cwd path : List UInt8) : List UInt8 :=
  if path.head? = some slash then path else cwd ++ slash :: path

/-- The names a path leads to. -/
def lexicalNames (cwd path : List UInt8) : List (List UInt8) :=
  settle [dot] [dot, dot] (fields slash (joined cwd path))

/-- **The absolute path in normal form that a path means.** -/
def lexical (cwd path : List UInt8) : List UInt8 := rooted slash (lexicalNames cwd path)

/-- A name in a normal path. -/
structure IsName (n : List UInt8) : Prop where
  nonempty : n ≠ []
  whole : slash ∉ n
  notHere : n ≠ [dot]
  notUp : n ≠ [dot, dot]

/-- An absolute path in lexical normal form. -/
def Normal (p : List UInt8) : Prop := ∃ names, (∀ n ∈ names, IsName n) ∧ p = rooted slash names

/-- A path that one of the three buffers has no room for: the text, a component, or the components on the way. -/
def Overlong (cwd path : List UInt8) : Prop :=
  (if path.head? = some slash then pathMax ≤ path.length else pathMax ≤ cwd.length + 1 + path.length) ∨
    (∃ f ∈ fields slash (joined cwd path), 31 < f.length) ∨
    ∃ k, 24 < (settle [dot] [dot, dot] ((fields slash (joined cwd path)).take k)).length

/-- The call at the paths its arguments mean. -/
def Op.meant {σ : Type} (v : Volume σ) (op : Op) : Prog (State σ) Reply :=
  op.runAt v fun path => ⟨fun _ s => .ok (lexical s.cwd path) s⟩

variable {σ α β : Type} {v : Volume σ} {fuel : Nat} {s : State σ} {cwd path : Bytes}

/-! ## Resolving a path -/

theorem normal_root : Normal [slash] := ⟨[], nofun, rfl⟩

theorem normal_lexical (cwd path : Bytes) : Normal (lexical cwd path) := by
  refine ⟨lexicalNames cwd path, fun n mem => ?_, rfl⟩
  obtain ⟨notHere, notUp⟩ := mem_settle mem
  obtain ⟨nonempty, whole⟩ := mem_fields ((settle_sublist _).subset mem)
  exact ⟨nonempty, whole, notHere, notUp⟩

theorem Normal.exists_cons {p : Bytes} (normal : Normal p) : ∃ rest, p = slash :: rest := by
  obtain ⟨names, -, rfl⟩ := normal
  exact ⟨_, rfl⟩

/-- A path that fits is joined with the current directory as a whole. -/
theorem joinCwd_of_fits (normal : Normal cwd) (fits : ¬ Overlong cwd path) :
    ∃ text, joinCwd cwd path = some (slash :: text) ∧ text.length + 1 < pathMax ∧
      fields slash (slash :: text) = fields slash (joined cwd path) := by
  have short := fun long => fits (.inl long)
  unfold joinCwd joined
  split at short
  · next absolute =>
    obtain ⟨text, rfl⟩ := head?_eq_some_iff.1 absolute
    have whole : (slash :: text).take (pathMax - 1) = slash :: text :=
      take_of_length_le (Nat.le_sub_one_of_lt (not_le.1 short))
    exact ⟨text, by rw [if_pos absolute, whole], not_le.1 short, by rw [if_pos absolute]⟩
  · next relative =>
    obtain ⟨rest, root⟩ := normal.exists_cons
    have room : cwd.length + 1 + path.length + 1 ≤ pathMax := not_le.1 short
    rw [if_neg relative, if_neg (not_lt.2 room), if_neg relative]
    by_cases ends : cwd.getLast? = some slash
    · -- only the root ends in a slash, and one slash more adds no field
      obtain ⟨before, last⟩ := getLast?_eq_some_iff.1 ends
      have nonempty : cwd ≠ [] := by simp [root]
      refine ⟨rest ++ path, by simp [ends, nonempty, ← cons_append, ← root], ?_, ?_⟩
      · rw [root, length_cons] at room
        rw [length_append]
        omega
      · rw [← cons_append, ← root, last, append_assoc, singleton_append, fields_append,
          append_assoc, singleton_append, fields_append, fields_cons]
    · refine ⟨rest ++ slash :: path, by simp [ends, ← cons_append, ← root], ?_, ?_⟩
      · rw [root, length_cons] at room
        rw [length_append, length_cons]
        omega
      · rw [← cons_append, ← root]

/-- **A path that fits the buffers resolves to what it means**, in at most 255 bytes. -/
theorem resolve_of_fits (normal : Normal cwd) (fits : ¬ Overlong cwd path) :
    resolve cwd path = some (lexical cwd path) ∧ (lexical cwd path).length < pathMax := by
  obtain ⟨text, joins, short, same⟩ := joinCwd_of_fits normal fits
  have component : ∀ f ∈ fields slash (slash :: text), f.length ≤ 31 := by
    intro f mem
    by_contra long
    exact fits (.inr (.inl ⟨f, same ▸ mem, by omega⟩))
  have depth : ∀ k, (settle [dot] [dot, dot] ((fields slash (slash :: text)).take k)).length ≤ 24 := by
    intro k
    by_contra deep
    exact fits (.inr (.inr ⟨k, by rw [← same]; omega⟩))
  have normalizes : normalize (slash :: text) = lexical cwd path := by
    rw [normalize, normalComps, pieces_eq_fields component, settleIn_eq depth, same]
    rfl
  have length : (lexical cwd path).length < pathMax := by
    rw [fields_cons] at same
    rw [lexical, lexicalNames, ← same]
    exact (length_rooted_settle_le _ _ text).trans_lt short
  refine ⟨?_, length⟩
  rw [resolve, joins]
  show (if (normalize (slash :: text)).length < pathMax then _ else _) = _
  rw [normalizes, if_pos length]

/-! ## What the calls do to the current directory -/

/-- A program that leaves the current directory alone. -/
def KeepsCwd (x : Prog (State σ) α) : Prop :=
  ∀ fuel s, (∀ a t, x.run fuel s = .ok a t → t.cwd = s.cwd) ∧ ∀ t, x.run fuel s = .err t → t.cwd = s.cwd

theorem keepsCwd_iff {x : Prog (State σ) α} : KeepsCwd x ↔ Keeps State.cwd x := by
  refine forall₂_congr fun fuel s => ?_
  cases x.run fuel s <;> simp [Outcome.after]

namespace KeepsCwd

theorem pure (a : α) : KeepsCwd (σ := σ) (Pure.pure a) := keepsCwd_iff.mpr (.pure a)

theorem bind {x : Prog (State σ) α} {f : α → Prog (State σ) β} (first : KeepsCwd x) (later : ∀ a, KeepsCwd (f a)) :
    KeepsCwd (x >>= f) :=
  keepsCwd_iff.mpr ((keepsCwd_iff.mp first).bind fun a => keepsCwd_iff.mp (later a))

theorem require (b : Bool) : KeepsCwd (σ := σ) (Prog.require b) := keepsCwd_iff.mpr (.require b)

theorem onVolume (x : Prog σ α) : KeepsCwd (Vfs.onVolume x) := by
  refine keepsCwd_iff.mpr fun fuel s => ?_
  simp only [Vfs.onVolume, Prog.focus]
  cases x.run fuel s.volume <;> rfl

theorem vfs (v : Volume σ) (x : Prog σ α) : KeepsCwd (Vfs.vfs v x) := (require _).bind fun _ => onVolume x

theorem orFail (e : Errno) {x : Prog (State σ) α} (keeps : KeepsCwd x) : KeepsCwd (Vfs.orFail e x) := by
  refine keepsCwd_iff.mpr fun fuel s => ?_
  have here := keepsCwd_iff.mp keeps fuel s
  simp only [Vfs.orFail]
  cases run : x.run fuel s <;> rw [run] at here <;> exact here

theorem attempt {x : Prog (State σ) α} (keeps : KeepsCwd x) : KeepsCwd (Prog.attempt x) :=
  keepsCwd_iff.mpr (keepsCwd_iff.mp keeps).attempt

theorem resolved (path : Bytes) : KeepsCwd (σ := σ) (Vfs.resolved path) := by
  refine keepsCwd_iff.mpr fun fuel s => ?_
  simp only [Vfs.resolved]
  cases resolve s.cwd path <;> rfl

theorem statAt (v : Volume σ) (abs : Bytes) : KeepsCwd (Vfs.statAt v abs) :=
  (vfs v _).attempt.bind fun
    | some _ => pure _
    | none => (require _).bind fun _ => (onVolume _).bind fun _ => pure _

end KeepsCwd

/-- Every call but `chdir` leaves the current directory alone. -/
theorem keepsCwd_run (v : Volume σ) {op : Op} (other : ∀ path, op ≠ .chdir path) : KeepsCwd (op.run v) := by
  cases op with
  | mkdir path | rmdir path | unlink path =>
    exact (KeepsCwd.resolved path).bind fun _ => ((KeepsCwd.vfs v _).orFail _).bind fun _ => .pure _
  | rename oldp newp =>
    exact (KeepsCwd.resolved oldp).bind fun _ => (KeepsCwd.resolved newp).bind fun _ =>
      ((KeepsCwd.vfs v _).orFail _).bind fun _ => .pure _
  | chdir path => exact absurd rfl (other path)
  | stat path =>
    exact ((KeepsCwd.require _).orFail _).bind fun _ => (KeepsCwd.resolved path).bind fun _ =>
      (KeepsCwd.statAt v _).orFail _
  | opendir path =>
    exact ((KeepsCwd.require _).orFail _).bind fun _ => (KeepsCwd.resolved path).bind fun _ =>
      ((KeepsCwd.vfs v _).orFail _).bind fun _ => .pure _

theorem run_resolved {abs : Bytes} (found : resolve s.cwd path = some abs) :
    (resolved path : Prog (State σ) _).run fuel s = .ok abs s := by
  simp only [resolved, found]

/-- `chdir` leaves the current directory alone, or sets it to the path it resolved. -/
theorem run_chdir (path : Bytes) : (∀ r t, ((Op.chdir path).run v).run fuel s = .ok r t →
      ∃ abs, resolve s.cwd path = some abs ∧ t.cwd = abs.take (pathMax - 1)) ∧
    ∀ t, ((Op.chdir path).run v).run fuel s = .err t → t.cwd = s.cwd := by
  have listed := fun abs => (KeepsCwd.vfs v (v.list abs 256)).orFail .enoent fuel s
  unfold Op.run Op.runAt
  cases found : resolve s.cwd path with
  | none =>
    have stuck : (resolved path : Prog (State σ) _).run fuel s = .trap := by simp only [resolved, found]
    simp only [run_bind, stuck]
    exact ⟨nofun, nofun⟩
  | some abs =>
    simp only [run_bind, run_resolved found]
    cases run : (orFail .enoent (vfs v (v.list abs 256))).run fuel s with
    | ok _ t => exact ⟨fun _ _ h => by cases h; exact ⟨abs, rfl, rfl⟩, nofun⟩
    | err t => exact ⟨nofun, fun _ h => by cases h; exact (listed abs).2 t run⟩
    | spin | trap => exact ⟨nofun, nofun⟩

/-- A call whose paths resolve to what they mean acts there. -/
theorem run_eq_meant {op : Op} (found : ∀ p ∈ op.paths, resolve s.cwd p = some (lexical s.cwd p)) :
    (op.run v).run fuel s = (op.meant v).run fuel s := by
  unfold Op.run Op.meant
  cases op with
  | mkdir path | rmdir path | unlink path | chdir path =>
    simp only [Op.runAt, run_bind, run_resolved (found path mem_cons_self)]
  | rename oldp newp =>
    simp only [Op.runAt, run_bind, run_resolved (found oldp mem_cons_self),
      run_resolved (found newp (mem_cons_of_mem _ mem_cons_self))]
  | stat path | opendir path =>
    have at_path : (resolved path).run fuel s = .ok (lexical s.cwd path) s :=
      run_resolved (found path mem_cons_self)
    by_cases primary : v.primary = true
    · simp [Op.runAt, run_bind, orFail, primary, at_path]
    · simp [Op.runAt, run_bind, orFail, primary]

/-! ## Sequences of calls -/

/-- A call acts on what its paths mean or fails, fails on an over-long path, and leaves the current directory in
normal form. -/
structure Proper (v : Volume σ) (fuel : Nat) (s : State σ) (op : Op) : Prop where
  acts : (op.run v).run fuel s = (op.meant v).run fuel s ∨ ((op.run v).run fuel s).isErr = true
  refuses : (∃ p ∈ op.paths, Overlong s.cwd p) → ((op.run v).run fuel s).isErr = true
  normal : Normal (((op.run v).run fuel s).after s).cwd

/-- What holds at every call of a sequence, up to one that does not return. -/
def Along (v : Volume σ) (fuel : Nat) (P : State σ → Op → Prop) (s : State σ) : List Op → Prop
  | [] => True
  | op :: rest => P s op ∧ match (op.run v).run fuel s with
    | .ok _ t => Along v fuel P t rest
    | .err t => Along v fuel P t rest
    | _ => True

/-- Over-long paths are refused. -/
def Refuses (v : Volume σ) (fuel : Nat) (s : State σ) (op : Op) : Prop :=
  (∃ p ∈ op.paths, Overlong s.cwd p) → ((op.run v).run fuel s).isErr = true

theorem proper_of_refuses {op : Op} (normal : Normal s.cwd) (refuses : Refuses v fuel s op) : Proper v fuel s op := by
  by_cases long : ∃ p ∈ op.paths, Overlong s.cwd p
  · have failed := refuses long
    refine ⟨.inr failed, fun _ => failed, ?_⟩
    have stays : (((op.run v).run fuel s).after s).cwd = s.cwd := by
      have ended := Lib.Outcome.eq_err_of_isErr s failed
      by_cases there : ∃ path, op = .chdir path
      · obtain ⟨path, rfl⟩ := there
        exact (run_chdir path).2 _ ended
      · exact (keepsCwd_run v (fun path same => there ⟨path, same⟩) fuel s).2 _ ended
    rw [stays]
    exact normal
  · have fits : ∀ p ∈ op.paths, ¬ Overlong s.cwd p := fun p mem beyond => long ⟨p, mem, beyond⟩
    refine ⟨.inl (run_eq_meant fun p mem => (resolve_of_fits normal (fits p mem)).1), fun beyond => absurd beyond long, ?_⟩
    cases run : (op.run v).run fuel s with
    | ok r t =>
      show Normal t.cwd
      by_cases there : ∃ path, op = .chdir path
      · obtain ⟨path, rfl⟩ := there
        obtain ⟨resolves, short⟩ := resolve_of_fits normal (fits path mem_cons_self)
        obtain ⟨abs, found, now⟩ := (run_chdir path).1 r t run
        cases found.symm.trans resolves
        rw [now, take_of_length_le (Nat.le_sub_one_of_lt short)]
        exact normal_lexical _ _
      · rw [(keepsCwd_run v (fun path same => there ⟨path, same⟩) fuel s).1 r t run]
        exact normal
    | err t =>
      show Normal t.cwd
      by_cases there : ∃ path, op = .chdir path
      · obtain ⟨path, rfl⟩ := there
        rw [(run_chdir path).2 t run]
        exact normal
      · rw [(keepsCwd_run v (fun path same => there ⟨path, same⟩) fuel s).2 t run]
        exact normal
    | spin | trap => exact normal

theorem along_iff (ops : List Op) : ∀ s : State σ, Normal s.cwd →
    (Along v fuel (Proper v fuel) s ops ↔ Along v fuel (Refuses v fuel) s ops) := by
  induction ops with
  | nil => exact fun _ _ => Iff.rfl
  | cons op rest ih =>
    intro s normal
    have first : Proper v fuel s op ↔ Refuses v fuel s op := ⟨fun h => h.refuses, proper_of_refuses normal⟩
    have later : Proper v fuel s op →
        (Along v fuel (Proper v fuel) s (op :: rest) ↔ Along v fuel (Refuses v fuel) s (op :: rest)) := by
      intro proper
      have next := proper.normal
      simp only [Along, first]
      cases run : (op.run v).run fuel s with
      | ok r t | err t => exact and_congr_right fun _ => ih t (by rwa [run] at next)
      | spin | trap => exact Iff.rfl
    exact ⟨fun h => (later h.1).1 h, fun h => (later (first.2 h.1)).2 h⟩

/-- A relative path of 255 bytes. -/
def longPath : List UInt8 := List.replicate 255 97

end CanBoot.Vfs
