import CanBoot.Laws.Fat32.Calls

/-!
# Paths the engine takes for one

A path is resolved by its packed names, so two paths lead to one slot exactly when they pack to the
same names and these lead somewhere (`sameSlot_iff`). Legal paths that pack to the same names have
the same components but for case. Others need not: `to_83` drops what exceeds its fields, and the
component scanner cuts a run of more than 15 bytes in two.
-/

namespace CanBoot

open Lib Fat32

variable {fs : Fat32} {v : Vol} {m : Media} {fuel : Nat} {T : Objs} {K : Chains} {a b : Bytes}

/-- `resolve_entry` returns 1 for both paths, with the same cluster and index. -/
def Fat32.SameSlot (fs : Fat32) (fuel : Nat) (m : Media) (a b : List UInt8) : Prop :=
  ∃ e e' c i m1 m2, (fs.resolveEntry a).run fuel m = .ok (some (e, c, i)) m1 ∧
    (fs.resolveEntry b).run fuel m = .ok (some (e', c, i)) m2

/-- The paths pack to the same names, which lead to an object, and differ in more than case. -/
def Fat32.Confuses (fs : Fat32) (v : Vol) (a b : List UInt8) : Prop :=
  target a = target b ∧ (∃ p t, target a = some (p, t) ∧ fs.objAt v (p ++ [t]) ≠ none) ∧ pathKey a ≠ pathKey b

/-- `resolve_entry` returns 1 where its callers go on. -/
theorem resolveEntry_some_iff {path : Bytes} {r : Entry × Nat × Nat} {m1 : Media} :
    (fs.resolveEntry path).run fuel m = .ok (some r) m1 ↔ (fs.resolveFound path).run fuel m = .ok r m1 := by
  rw [resolveFound, Prog.run_bind_eq_ok]
  constructor
  · intro found
    exact ⟨some r, m1, found, rfl⟩
  · rintro ⟨found, m2, run, rest⟩
    cases found with
    | none => cases rest
    | some r' =>
      cases rest
      exact run

/-- **Two paths lead to one slot exactly when they pack to the same names and these lead
somewhere.** -/
theorem Vol.Layout.sameSlot_iff (g : fs.Geometry) (h : (fs.view m).Laid fs T K) (enough : fs.totalClusters < fuel) :
    fs.SameSlot fuel m a b ↔ target a = target b ∧ ∃ p t, target a = some (p, t) ∧ T (p ++ [t]) ≠ none := by
  simp only [SameSlot, resolveEntry_some_iff]
  rcases h.resolveFound_cases g enough a with ⟨fails, none'⟩ |
    ⟨p, t, dc, l, ht, hp, _, found, obj, run⟩
  · rw [fails]
    refine ⟨fun ⟨_, _, _, _, _, _, left, _⟩ => (nomatch left), fun ⟨_, p, t, ht, some'⟩ => ?_⟩
    exact absurd (none' p t ht) some'
  have leads : ∃ p t, target a = some (p, t) ∧ T (p ++ [t]) ≠ none :=
    ⟨p, t, ht, by rw [obj]; exact nofun⟩
  rcases h.resolveFound_cases g enough b with ⟨fails, none'⟩ |
    ⟨q, s, dc', l', hs, hq, _, found', obj', run'⟩
  · rw [fails]
    refine ⟨fun ⟨_, _, _, _, _, _, _, right⟩ => (nomatch right), fun ⟨same, _⟩ => ?_⟩
    rw [none' p t (same.symm.trans ht)] at obj
    cases obj
  rw [run, run']
  constructor
  · rintro ⟨_, _, c, i, _, _, left, right⟩
    injection left with left _
    injection right with right _
    have same : l = l' := by
      rw [Prod.mk.injEq, Prod.mk.injEq] at left right
      exact Prod.ext (left.2.1.trans right.2.1.symm) (left.2.2.trans right.2.2.symm)
    obtain ⟨hl, _, name⟩ := lookup_eq_some t found
    obtain ⟨hl', _, name'⟩ := lookup_eq_some s found'
    subst same
    -- the cluster of the slot belongs to one directory, and the slot carries one name
    have dirs : p = q := h.disjoint hp hq (mem_locs.mp hl).1 (mem_locs.mp hl').1
    exact ⟨by rw [ht, hs, dirs, ← name, name'], leads⟩
  · rintro ⟨same, _⟩
    cases (ht.symm.trans same).trans hs
    cases found.symm.trans found'
    exact ⟨_, _, _, _, _, _, rfl, rfl⟩

/-- The small volume with a file `/ABCDEFGH`. -/
def tinyLong : Media :=
  ((canbootFat32WritePath tiny [slash, 65, 66, 67, 68, 69, 70, 71, 72] [1]).run 7 tinyMedia).after
    tinyMedia

theorem tinyLong_wellFormed : (tiny.view tinyLong).WellFormed tiny := by
  have ok : (canbootFat32WritePath tiny [slash, 65, 66, 67, 68, 69, 70, 71, 72] [1]).run 7
      tinyMedia = .ok () tinyLong := Outcome.eq_ok_of_isOk tinyMedia (by decide +kernel)
  have legal : LegalName [65, 66, 67, 68, 69, 70, 71, 72] :=
    ⟨[65, 66, 67, 68, 69, 70, 71, 72], [], by decide, by decide, by decide, List.all_eq_true.1 rfl, rfl⟩
  obtain ⟨_, _, _, laid, _⟩ :=
    tiny_laid.write_done tiny_geometry (by decide) rfl legal.path (by decide) ok
  exact laid.wellFormed

end CanBoot
