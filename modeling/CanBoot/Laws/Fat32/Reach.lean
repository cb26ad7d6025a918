import CanBoot.Laws.Fat32.Calls

/-!
# What a rename keeps reachable

A rename that returned 0 should have moved an object and everything below it, and left the rest
where it was (`Reachable`). The engine never looks at the two paths together, so it also accepts a
new path below the old one. Then the object has no entry outside itself any more, and it is gone
with everything below it. These are the only renames that go wrong (`rename_reachable_iff`).
-/

namespace CanBoot

open Lib List

variable {fs : Fat32} {v v' : Vol} {m m' : Media} {fuel : Nat} {T : Objs} {K : Chains}

/-- What was at and below `old` is at and below `new`, the rest is where it was, and no directory is
reached on two paths. -/
structure Reachable (fs : Fat32) (v v' : Vol) (old new : List Name) : Prop where
  moved : ∀ q, fs.objAt v' (new ++ q) = fs.objAt v (old ++ q) ∧ fs.tree v' (new ++ q) = fs.tree v (old ++ q)
  gone : fs.objAt v' old = none
  kept : ∀ {q}, ¬ old <+: q → fs.objAt v q ≠ none → fs.objAt v' q = fs.objAt v q ∧ fs.tree v' q = fs.tree v q
  tree : ∀ {p q dc}, fs.objAt v' p = some (.dir dc) → fs.objAt v' q = some (.dir dc) → p = q

namespace Vol

variable {v1 : Vol} {K1 : Chains} {po pn : List Name} {told tnew : Name}
  {dco npc : Nat} {l l' : Nat × Nat} {dd : Option Entry}

/-- A directory has one path. -/
theorem Layout.dir_unique (h : v.Laid fs T K) {p q : List Name} {dc : Nat}
    (hp : T p = some (.dir dc)) (hq : T q = some (.dir dc)) : p = q :=
  h.disjoint hp hq (h.mem_first hp) (h.mem_first hq)

namespace Moved

variable (r : Moved fs v T K po told dco l pn tnew npc l' v1 K1 dd)

include r

/-- The new name was free, so it is not above anything there was. -/
theorem new_not_above (h : v.Laid fs T K) {q : List Name} (hq : T q ≠ none) :
    ¬ pn ++ [tnew] <+: q := fun pre => hq (h.none_below r.absent pre)

theorem reachable (g : fs.Geometry) (h : v.Laid fs T K) (out : ¬ po ++ [told] <+: pn) (h0 : tnew.byte 0 ≠ 0)
    (h5 : tnew.byte 0 ≠ 0xE5) : Reachable fs v (v1.moved (v.slotAt l) tnew l l' dd) (po ++ [told]) (pn ++ [tnew]) := by
  have laid := r.laid out g h h0 h5
  have tree := r.tree_eq out g h h0 h5
  have here : T (po ++ [told]) ≠ none := by rw [r.obj h]; exact nofun
  refine ⟨fun q => ⟨?_, ?_⟩, ?_, fun {q} outside hq => ⟨?_, ?_⟩, fun hp hq => ?_⟩
  · rw [laid.objAt_eq, h.objAt_eq, graft_append, below]
  · rw [tree, graft_append, below]
  · rw [laid.objAt_eq, graft_outside _ _ (r.new_not_above h here), prune_below _ (List.prefix_refl _)]
  · rw [h.objAt_eq] at hq ⊢
    rw [laid.objAt_eq, graft_outside _ _ (r.new_not_above h hq), prune_outside _ outside]
  · rw [h.objAt_eq] at hq
    rw [tree, graft_outside _ _ (r.new_not_above h hq), prune_outside _ outside]
  · rw [laid.objAt_eq] at hp hq
    exact laid.dir_unique hp hq

/-- Below the old path, the new one leads nowhere. -/
theorem not_reachable (g : fs.Geometry) (h : v.Laid fs T K) (inside : po ++ [told] <+: pn) :
    ¬ Reachable fs v (v1.moved (v.slotAt l) tnew l l' dd) (po ++ [told]) (pn ++ [tnew]) := by
  intro reach
  have found := (reach.moved []).1
  rw [append_nil, append_nil, (r.laid_lost g h inside).objAt_eq, h.objAt_eq,
    prune_below _ (inside.trans (List.prefix_append _ _)), r.obj h] at found
  cases found

end Moved

end Vol

/-- **A rename keeps everything reachable exactly when the new path is not below the old one.** -/
theorem rename_reachable_iff (g : fs.Geometry) (wf : (fs.view m).WellFormed fs) (writable : fs.disk.writable = true)
    (enough : fs.totalClusters < fuel) {oldp newp : List UInt8} (legalOld : LegalPath oldp) (legalNew : LegalPath newp)
    (ok : (canbootFat32Rename fs oldp newp).run fuel m = .ok () m') :
    Reachable fs (fs.view m) (fs.view m') (packedKey oldp) (packedKey newp) ↔ ¬ pathKey oldp <+: pathKey newp := by
  rcases Vol.Layout.rename_cases g wf enough writable oldp newp
    (fun p t ht => (legalNew.leaf ht).1) with err |
      ⟨po, told, dco, l, pn, tnew, npc, l', m1, K1, dd, m2, hold, hnew, moved, run, view⟩
  · rw [err] at ok
    cases ok
  rw [run] at ok
  cases ok
  rw [← legalOld.isKey.prefix_iff legalNew.isKey, ← legalOld.target hold, ← legalNew.target hnew,
    ← legalOld.target_eq hold, ← legalNew.target_eq hnew, view]
  obtain ⟨h0, h5, _⟩ := legalNew.leaf hnew
  by_cases inside : po ++ [told] <+: pn
  · exact ⟨fun reach => absurd reach (moved.not_reachable g wf inside),
      fun out => absurd (inside.trans (List.prefix_append _ _)) out⟩
  · refine ⟨fun _ pre => ?_, fun _ => moved.reachable g wf inside h0 h5⟩
    rcases List.prefix_concat_iff.mp pre with heq | pre
    · -- the old path exists and the new one does not
      have absent := moved.absent
      rw [← heq, moved.obj wf] at absent
      cases absent
    · exact inside pre

/-- The small volume with a directory `/A`. -/
def tinyDir : Media := ((canbootFat32Mkdir tiny [slash, 65]).run 7 tinyMedia).after tinyMedia

theorem tinyDir_wellFormed : (tiny.view tinyDir).WellFormed tiny := by
  have ok : (canbootFat32Mkdir tiny [slash, 65]).run 7 tinyMedia = .ok () tinyDir :=
    Outcome.eq_ok_of_isOk tinyMedia (by decide +kernel)
  obtain ⟨_, _, _, laid, _⟩ :=
    tiny_laid.mkdir_done tiny_geometry (by decide) rfl legalName_a.path ok
  exact laid.wellFormed

/-- `/A` to `/B`. -/
theorem rename_reachable_iff_outside :
    ∃ m', (canbootFat32Rename tiny [slash, 65] [slash, 66]).run 7 tinyDir = .ok () m' ∧
      (Reachable tiny (tiny.view tinyDir) (tiny.view m') (packedKey [slash, 65])
        (packedKey [slash, 66]) ↔ ¬ pathKey [slash, 65] <+: pathKey [slash, 66]) := by
  have ok := Outcome.eq_ok_of_isOk tinyDir
    (o := (canbootFat32Rename tiny [slash, 65] [slash, 66]).run 7 tinyDir) (by decide +kernel)
  have legalB : LegalName [66] := ⟨[66], [], by decide, by decide, by decide, all_eq_true.1 rfl, rfl⟩
  exact ⟨_, ok, rename_reachable_iff tiny_geometry tinyDir_wellFormed rfl (by decide)
    legalName_a.path legalB.path ok⟩

/-- `/A` to `/A/A` returns 0, and the directory is gone. -/
theorem rename_below_not_reachable :
    (tiny.view tinyDir).WellFormed tiny ∧ LegalPath [slash, 65] ∧ LegalPath [slash, 65, slash, 65] ∧
    ∃ m', (canbootFat32Rename tiny [slash, 65] [slash, 65, slash, 65]).run 7 tinyDir = .ok () m' ∧
      ¬ Reachable tiny (tiny.view tinyDir) (tiny.view m') (packedKey [slash, 65])
        (packedKey [slash, 65, slash, 65]) := by
  have ok := Outcome.eq_ok_of_isOk tinyDir
    (o := (canbootFat32Rename tiny [slash, 65] [slash, 65, slash, 65]).run 7 tinyDir)
    (by decide +kernel)
  have parts : segments [slash, 65, slash, 65] = [[65], [65]] := by decide +kernel
  have legal : LegalPath [slash, 65, slash, 65] := by
    refine ⟨by decide, fun s hs => ?_⟩
    rw [parts] at hs
    have : s = [65] := by simpa using hs
    exact this ▸ legalName_a
  refine ⟨tinyDir_wellFormed, legalName_a.path, legal, _, ok, fun reach => ?_⟩
  have lost : tiny.objAt (tiny.view (((canbootFat32Rename tiny [slash, 65]
      [slash, 65, slash, 65]).run 7 tinyDir).after tinyDir))
        (packedKey [slash, 65, slash, 65] ++ []) = none := by decide +kernel
  have was : tiny.objAt (tiny.view tinyDir) (packedKey [slash, 65] ++ []) = some (.dir 3) := by
    decide +kernel
  have found := (reach.moved []).1
  rw [lost, was] at found
  cases found

end CanBoot
