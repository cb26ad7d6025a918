import CanBoot.Laws.Fat32.Blank
import CanBoot.Laws.Fat32.Mkdir
import CanBoot.Laws.Fat32.Remove
import CanBoot.Laws.Fat32.Rename
import CanBoot.Laws.Fat32.Write

/-!
# The path API as a tree of files

A `PathCall` is one of the five calls that change a volume. Each changes the tree of files in one
way (`change`), and a call that returns 0 has made that change and no other, and left a volume that
is laid out again (`PathCall.step`). The tree is read at two kinds of names: the packed names every
entry has, and the upper-cased strings of the legal ones (`contents`).

A rename to a place below the old path is not a change of the tree at all; `Legal` leaves it out.
-/

namespace CanBoot

open Lib Function List

/-- The calls of the path API that write. -/
inductive PathCall where
  | write (path data : List UInt8)
  | mkdir (path : List UInt8)
  | unlink (path : List UInt8)
  | rmdir (path : List UInt8)
  | rename (oldp newp : List UInt8)

/-- The packed names of the components of a path. -/
def packedKey (path : List UInt8) : List Name := (pathKey path).map to83

namespace PathCall

/-- The engine's function for the call. -/
def prog (fs : Fat32) : PathCall → Prog Media Unit
  | write path data => canbootFat32WritePath fs path data
  | mkdir path => canbootFat32Mkdir fs path
  | unlink path => canbootFat32UnlinkPath fs path
  | rmdir path => canbootFat32Rmdir fs path
  | rename oldp newp => canbootFat32Rename fs oldp newp

/-- Legal paths, a length that is a `uint32_t`, and no directory moved into itself. -/
def Legal : PathCall → Prop
  | write path data => LegalPath path ∧ data.length < 4294967296
  | mkdir path | unlink path | rmdir path => LegalPath path
  | rename oldp newp => LegalPath oldp ∧ LegalPath newp ∧ (pathKey oldp <+: pathKey newp → pathKey oldp = pathKey newp)

/-- What the call does to a tree of files, where `key` reads a path. -/
def change {N : Type} [DecidableEq N] (key : List UInt8 → List N) : PathCall → FileTree N → FileTree N
  | write path data => .put (key path) data
  | mkdir path => .makeDir (key path)
  | unlink path | rmdir path => .remove (key path)
  | rename oldp newp => .move (key oldp) (key newp)

end PathCall

open Classical in
/-- **The content of a volume by upper-cased names**, where these are legal. -/
noncomputable def Fat32.contents (fs : Fat32) (v : Vol) : FileTree (List UInt8) := fun k =>
  if IsKey k then fs.tree v (k.map to83) else none

variable {fs : Fat32} {v v' : Vol} {m m' : Media} {fuel : Nat} {T : Objs} {K : Chains}

variable {path : Bytes}

theorem LegalPath.target_eq (legal : LegalPath path) {p : List Name} {t : Name}
    (ht : CanBoot.target path = some (p, t)) : p ++ [t] = packedKey path := legal.target ht

/-! ## The change, seen through the packing -/

variable {k : List Bytes}

theorem contents_of_isKey (hk : IsKey k) : fs.contents v k = fs.tree v (k.map to83) := if_pos hk

theorem contents_of_not_isKey (hk : ¬ IsKey k) : fs.contents v k = none := if_neg hk

variable {p : List Bytes}

theorem contents_prune (hp : IsKey p) (h : fs.tree v' = prune (p.map to83) (fs.tree v)) :
    fs.contents v' = prune p (fs.contents v) := by
  funext k
  by_cases hk : IsKey k
  · rw [contents_of_isKey hk, h]
    by_cases pre : p <+: k
    · rw [prune_below _ pre, prune_below _ ((hp.prefix_iff hk).mpr pre)]
    · rw [prune_outside _ pre, prune_outside _ (pre ∘ (hp.prefix_iff hk).mp), contents_of_isKey hk]
  · rw [contents_of_not_isKey hk, prune, graft]
    split
    · rfl
    · rw [contents_of_not_isKey hk]

theorem contents_update (hp : IsKey p) {x : Option Node} (h : fs.tree v' = update (fs.tree v) (p.map to83) x) :
    fs.contents v' = update (fs.contents v) p x := by
  funext k
  by_cases heq : k = p
  · rw [heq, update_self, contents_of_isKey hp, h, update_self]
  · rw [update_of_ne heq]
    by_cases hk : IsKey k
    · rw [contents_of_isKey hk, contents_of_isKey hk, h, update_of_ne fun he => heq (hk.ext hp he)]
    · rw [contents_of_not_isKey hk, contents_of_not_isKey hk]

theorem contents_move {q : List Bytes} (hp : IsKey p) (hq : IsKey q)
    (h : fs.tree v' = FileTree.move (p.map to83) (q.map to83) (fs.tree v)) :
    fs.contents v' = FileTree.move p q (fs.contents v) := by
  funext k
  by_cases pre : q <+: k
  · obtain ⟨r, rfl⟩ := pre
    rw [FileTree.move, graft_append, below]
    by_cases hr : IsKey r
    · rw [contents_of_isKey (IsKey.append.mpr ⟨hq, hr⟩), h, FileTree.move, map_append,
        graft_append, below, contents_of_isKey (IsKey.append.mpr ⟨hp, hr⟩), map_append]
    · rw [contents_of_not_isKey (hr ∘ fun hk => (IsKey.append.mp hk).2),
        contents_of_not_isKey (hr ∘ fun hk => (IsKey.append.mp hk).2)]
  · rw [FileTree.move, graft_outside _ _ pre]
    by_cases hk : IsKey k
    · rw [contents_of_isKey hk, h, FileTree.move, graft_outside _ _ (pre ∘ (hq.prefix_iff hk).mp)]
      by_cases inside : p <+: k
      · rw [prune_below _ inside, prune_below _ ((hp.prefix_iff hk).mpr inside)]
      · rw [prune_outside _ inside, prune_outside _ (inside ∘ (hp.prefix_iff hk).mp), contents_of_isKey hk]
    · rw [contents_of_not_isKey hk, prune, graft]
      split
      · rfl
      · rw [contents_of_not_isKey hk]

/-- A change of the tree of packed names is the same change of the legal names. -/
theorem PathCall.change_contents {call : PathCall} (legal : call.Legal)
    (h : fs.tree v' = call.change packedKey (fs.tree v)) : fs.contents v' = call.change pathKey (fs.contents v) := by
  cases call with
  | write path data => exact contents_update legal.1.isKey h
  | mkdir path => exact contents_update (LegalPath.isKey legal) h
  | unlink path | rmdir path => exact contents_prune (LegalPath.isKey legal) h
  | rename oldp newp => exact contents_move legal.1.isKey legal.2.1.isKey h

/-! ## What a call that returned 0 has done -/

/-- The change is made, the new volume is laid out, and a tight one stays tight. -/
def PathCall.Done (fs : Fat32) (call : PathCall) (T : List Name → Option Obj)
    (K : List Name → List Nat) (v v' : Vol) : Prop :=
  fs.tree v' = call.change packedKey (fs.tree v) ∧ ∃ T' K', v'.Laid fs T' K' ∧ (v.Tight fs T K → v'.Tight fs T' K')

namespace Vol.Layout

open PathCall

variable (g : fs.Geometry) (h : (fs.view m).Laid fs T K) (enough : fs.totalClusters < fuel)

include g h enough

section

variable (writable : fs.disk.writable = true)

include writable

theorem write_done {data : Bytes} (legal : LegalPath path) (short : data.length < 4294967296)
    (ok : (canbootFat32WritePath fs path data).run fuel m = .ok () m') :
    Done fs (.write path data) T K (fs.view m) (fs.view m') := by
  rcases h.write_cases g enough writable path short with ⟨err, _⟩ |
    ⟨p, t, dc, l, m1, d, K1, ht, hp, nolink, notDir, claimed, _, result⟩
  · rw [err] at ok
    cases ok
  rcases result with ⟨F, m2, fresh, run, view⟩ | ⟨_, err⟩ | ⟨_, _, m2, err, _⟩
  · rw [run] at ok
    cases ok
    obtain ⟨h0, h5, hdot⟩ := legal.leaf ht
    have w : Wrote fs (fs.view m) T K p t dc l (fs.view m1) d K1 F data
        (makeEntry t 0x20 (F.headD 0) data.length) :=
      ⟨hp, nolink, notDir, claimed.toReady, fresh.toRoom,
        obj_makeEntry_file (fresh.head_lt g) short, live_makeEntry (by decide) h0 h5,
        name_makeEntry _⟩
    rw [view]
    refine ⟨?_, _, _, w.laid g h, fun tight =>
      w.tight g h tight (claimed.cover tight.cover) fresh.count hdot⟩
    rw [w.tree_eq g h, legal.target_eq ht]
    rfl
  · rw [err] at ok
    cases ok
  · rw [err] at ok
    cases ok

theorem mkdir_done (legal : LegalPath path) (ok : (canbootFat32Mkdir fs path).run fuel m = .ok () m') :
    Done fs (.mkdir path) T K (fs.view m) (fs.view m') := by
  rcases h.mkdir_cases g enough writable path with ⟨err, _⟩ | ⟨p, t, dc, nd, ht, _, _, _, result⟩
  · rw [err] at ok
    cases ok
  rcases result with ⟨m2, err, _⟩ | ⟨l, m2, K1, m3, made, run, view⟩
  · rw [err] at ok
    cases ok
  · rw [run] at ok
    cases ok
    obtain ⟨h0, h5, hdot⟩ := legal.leaf ht
    rw [view]
    refine ⟨?_, _, _, made.laid g h h0 h5, fun tight => made.tight g h tight hdot⟩
    rw [made.tree_eq g h h0 h5, legal.target_eq ht]
    rfl

theorem unlink_done (legal : LegalPath path) (ok : (canbootFat32UnlinkPath fs path).run fuel m = .ok () m') :
    Done fs (.unlink path) T K (fs.view m) (fs.view m') := by
  rcases h.unlink_cases g enough writable path with err |
    ⟨p, t, dc, l, c, n, m2, ht, removed, run, view⟩
  · rw [err] at ok
    cases ok
  rw [run] at ok
  cases ok
  rw [view]
  refine ⟨?_, _, _, removed.laid g h, fun tight => removed.tight h tight fun q hq => ?_⟩
  · rw [removed.tree_eq g h, legal.target_eq ht]
    rfl
  · exact h.below_file removed.obj hq

theorem rmdir_done (legal : LegalPath path) (ok : (canbootFat32Rmdir fs path).run fuel m = .ok () m') :
    Done fs (.rmdir path) T K (fs.view m) (fs.view m') ∧
      ∀ n, isDotName n = false → fs.tree (fs.view m) (packedKey path ++ [n]) = none := by
  rcases h.rmdir_cases g enough writable path with err |
    ⟨p, t, dc, l, c, m2, ht, removed, empty, run, view⟩
  · rw [err] at ok
    cases ok
  rw [run] at ok
  cases ok
  rw [view, ← legal.target_eq ht]
  refine ⟨⟨?_, _, _, removed.laid g h, fun tight => removed.tight h tight fun q hq => ?_⟩, fun n hn => ?_⟩
  · rw [removed.tree_eq g h, legal.target_eq ht]
    rfl
  · -- a tight volume has no entry with a dot name either
    obtain ⟨n, q, rfl⟩ := exists_cons_of_ne_nil hq
    have child : T (p ++ [t] ++ [n]) = none := by
      cases hn : T (p ++ [t] ++ [n]) with
      | none => rfl
      | some x => exact (hn.symm.trans (empty n (tight.plain hn)))
    exact h.none_below child ⟨q, by rw [append_assoc, singleton_append]⟩
  · rw [h.tree_eq, empty n hn]
    rfl

theorem rename_done {oldp newp : Bytes} (legalOld : LegalPath oldp) (legalNew : LegalPath newp)
    (out : pathKey oldp <+: pathKey newp → pathKey oldp = pathKey newp)
    (ok : (canbootFat32Rename fs oldp newp).run fuel m = .ok () m') :
    Done fs (.rename oldp newp) T K (fs.view m) (fs.view m') := by
  have carries : ∀ p t, target newp = some (p, t) → t.byte 0 ≠ 0 :=
    fun p t ht => (legalNew.leaf ht).1
  rcases h.rename_cases g enough writable oldp newp carries with err |
    ⟨po, told, dco, l, pn, tnew, npc, l', m1, K1, dd, m2, hold, hnew, moved, run, view⟩
  · rw [err] at ok
    cases ok
  rw [run] at ok
  cases ok
  obtain ⟨h0, h5, hdot⟩ := legalNew.leaf hnew
  have out' : ¬ po ++ [told] <+: pn := by
    intro pre
    have packed : packedKey oldp <+: packedKey newp := by
      rw [← legalOld.target_eq hold, ← legalNew.target_eq hnew]
      exact pre.trans (List.prefix_append _ _)
    have same := congrArg (map to83)
      (out ((legalOld.isKey.prefix_iff legalNew.isKey).mp packed))
    rw [← legalOld.target hold, ← legalNew.target hnew] at same
    exact snoc_not_prefix_self pn tnew (same ▸ pre)
  rw [view]
  refine ⟨?_, _, _, moved.laid out' g h h0 h5, fun tight => moved.tight out' g h tight hdot⟩
  rw [moved.tree_eq out' g h h0 h5, legalOld.target_eq hold, legalNew.target_eq hnew]
  rfl

/-- **One call**: if it returned 0, it has made its change of the tree. -/
theorem call_done {call : PathCall} (legal : call.Legal) (ok : (call.prog fs).run fuel m = .ok () m') :
    call.Done fs T K (fs.view m) (fs.view m') := by
  cases call with
  | write path data => exact h.write_done g enough writable legal.1 legal.2 ok
  | mkdir path => exact h.mkdir_done g enough writable legal ok
  | unlink path => exact h.unlink_done g enough writable legal ok
  | rmdir path => exact (h.rmdir_done g enough writable legal ok).1
  | rename oldp newp =>
    exact h.rename_done g enough writable legal.1 legal.2.1 legal.2.2 ok

end

end Vol.Layout

/-- A removed directory held nothing with a legal name. -/
theorem contents_below_rmdir (g : fs.Geometry) (h : (fs.view m).Laid fs T K) (enough : fs.totalClusters < fuel)
    (writable : fs.disk.writable = true) (legal : LegalPath path)
    (ok : (canbootFat32Rmdir fs path).run fuel m = .ok () m') (hk : k ≠ [])
    : fs.contents (fs.view m) (pathKey path ++ k) = none := by
  by_cases key : IsKey (pathKey path ++ k)
  · obtain ⟨s, k, rfl⟩ := exists_cons_of_ne_nil hk
    have plain : isDotName (to83 s) = false := isDotName_of_head (to83_head_ne_dot s)
    have empty := (h.rmdir_done g enough writable legal ok).2 _ plain
    rw [h.tree_eq, Option.map_eq_none_iff] at empty
    rw [contents_of_isKey key, h.tree_eq, h.none_below empty]
    · rfl
    · exact ⟨k.map to83, by simp [packedKey]⟩
  · exact contents_of_not_isKey key

/-- **The path API is a tree of files.** A call with legal names that returns 0 leaves a well-formed
volume whose content is the old one with the call's change made: for the upper-cased legal names, and
for all packed names. What `rmdir` removed was empty. -/
theorem path_call_refines_tree (g : fs.Geometry) (wf : (fs.view m).WellFormed fs)
    (writable : fs.disk.writable = true) (enough : fs.totalClusters < fuel) (call : PathCall)
    (legal : call.Legal) (ok : (call.prog fs).run fuel m = .ok () m') :
    (fs.view m').WellFormed fs ∧ fs.contents (fs.view m') = call.change pathKey (fs.contents (fs.view m)) ∧
      fs.tree (fs.view m') = call.change packedKey (fs.tree (fs.view m)) ∧
      ∀ path, call = .rmdir path → ∀ k, k ≠ [] → fs.contents (fs.view m) (pathKey path ++ k) = none := by
  obtain ⟨tree, T', K', laid, _⟩ := Vol.Layout.call_done g wf enough writable legal ok
  refine ⟨laid.wellFormed, call.change_contents legal tree, tree, ?_⟩
  rintro path rfl k hk
  exact contents_below_rmdir g wf enough writable legal ok hk

/-- `mkdir /A` on the small volume. -/
theorem path_call_refines_tree_mkdir : ∃ m', (canbootFat32Mkdir tiny [slash, 65]).run 7 tinyMedia = .ok () m' ∧
      (tiny.view m').WellFormed tiny ∧ tiny.contents (tiny.view m') =
        FileTree.makeDir (pathKey [slash, 65]) (tiny.contents (tiny.view tinyMedia)) := by
  have ok := Outcome.eq_ok_of_isOk tinyMedia
    (o := (canbootFat32Mkdir tiny [slash, 65]).run 7 tinyMedia) (by decide +kernel)
  obtain ⟨wf, contents, _⟩ := path_call_refines_tree tiny_geometry tiny_laid.wellFormed rfl
    (by decide) (.mkdir [slash, 65]) legalName_a.path ok
  exact ⟨_, ok, wf, contents⟩

/-- The small volume with a file `/A` of two clusters. -/
def tinyFile : Media :=
  ((canbootFat32WritePath tiny [slash, 65] (List.replicate 600 1)).run 7 tinyMedia).after tinyMedia

theorem tinyFile_ok : (canbootFat32WritePath tiny [slash, 65] (replicate 600 1)).run 7 tinyMedia =
      .ok () tinyFile := Outcome.eq_ok_of_isOk tinyMedia (by decide +kernel)

theorem tinyFile_wellFormed : (tiny.view tinyFile).WellFormed tiny := by
  obtain ⟨_, _, _, laid, _⟩ := tiny_laid.write_done tiny_geometry (by decide) rfl legalName_a.path
    (by rw [length_replicate]; decide) tinyFile_ok
  exact laid.wellFormed

end CanBoot
