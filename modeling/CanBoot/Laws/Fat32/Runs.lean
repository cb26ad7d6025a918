import CanBoot.Laws.Fat32.Calls
import CanBoot.Laws.Fat32.Format

/-!
# Runs from mkfs on

A volume that was formatted, mounted and then changed by calls of the path API alone, each of which
returned 0. The layout and the tightness of the volume are kept by every call (`call_done`), so they
hold after any number of them; `Sound` is what they say about the tables and the directories.
-/

namespace CanBoot

open Lib

variable {fs : Fat32} {v : Vol} {d : Disk} {m m0 m1 m' : Media} {fuel size : Nat}
  {label : Option (List UInt8)} {calls : List PathCall}

/-- The tables and directories of a volume are consistent. -/
structure Vol.Sound (fs : Fat32) (v : Vol) : Prop where
  /-- A marked cluster is on the chain of one object. -/
  owned : v.Covered fs
  /-- An object other than the root has one live entry. -/
  entry : ∀ {p n x}, fs.objAt v (p ++ [n]) = some x → ∃! l, l ∈ fs.locs (v.chainAt fs p) ∧
    (v.slotAt l).live = true ∧ (v.slotAt l).name = n
  /-- Chains are acyclic and end in a mark. -/
  chain : ∀ {p x}, fs.objAt v p = some x → v.HasChain fs x.first (v.chainAt fs p) ∧ (v.chainAt fs p).Nodup
  size : ∀ {p c n}, fs.objAt v p = some (.file c n) → (v.chainAt fs p).length = fs.clustersFor n ∧ (n = 0 → c = 0)
  names : ∀ {p dc}, fs.objAt v p = some (.dir dc) → ∀ l ∈ fs.locs (v.chainAt fs p),
    ∀ l' ∈ fs.locs (v.chainAt fs p), (v.slotAt l).live = true → (v.slotAt l').live = true →
    (v.slotAt l).name = (v.slotAt l').name → l = l'
  ended : ∀ {p dc}, fs.objAt v p = some (.dir dc) → (fs.locs (v.chainAt fs p)).Pairwise
    fun a b => (v.slotAt a).isEnd = true → (v.slotAt b).live = false
  dotdot : ∀ {p t pc dc}, fs.objAt v p = some (.dir pc) → fs.objAt v (p ++ [t]) = some (.dir dc) →
    (v.slot dc 1).Link dotdotName ∧ (v.slot dc 1).firstCluster = if pc = fs.rootCluster then 0 else pc
  copies : ∀ c, v.fats 1 c = v.fats 0 c

/-- Calls that were made one after another and all returned 0. -/
inductive Runs (fs : Fat32) (fuel : Nat) : Media → List PathCall → Media → Prop
  | nil (m : Media) : Runs fs fuel m [] m
  | cons {m m1 m2 : Media} {call : PathCall} {calls : List PathCall}
      (ok : (call.prog fs).run fuel m = .ok () m1) (rest : Runs fs fuel m1 calls m2) :
      Runs fs fuel m (call :: calls) m2

namespace Vol.Layout

variable {T : Objs} {K : Chains}

/-- **What a tight layout says about the volume.** -/
theorem sound (h : v.Laid fs T K) (tight : v.Tight fs T K) : v.Sound fs := by
  have obj := h.objAt_eq
  have own : ∀ {p x}, T p = some x → v.chainAt fs p = K p := fun hp => h.chainAt_eq hp
  refine ⟨h.covered_iff.mpr tight.cover, fun {p n x} hx => ?_, fun {p x} hx => ?_, fun {p c n} hx => ?_,
    fun {p dc} hx => ?_, fun {p dc} hx => ?_, fun {p t pc dc} hx hc => ?_,
    fun c => tight.copies 1 c⟩
  all_goals rw [obj] at hx
  · obtain ⟨y, hy⟩ := h.of_append hx
    rw [own hy]
    cases y with
    | file c s =>
      rw [h.step n hy] at hx
      cases hx
    | dir dc =>
      have child := (h.step n hy).symm.trans hx
      obtain ⟨_, l, hl, live, name, _⟩ := (h.dir hy).childIn_iff.mp child
      exact ⟨l, ⟨hl, live, name⟩, fun l' ⟨hl', live', name'⟩ =>
        (h.dir hy).unique l' hl' l hl live' live (name'.trans name.symm)⟩
  · rw [own hx]
    exact ⟨h.chain hx, (h.chain hx).nodup⟩
  · rw [own hx]
    exact tight.exact hx
  · rw [own hx]
    exact (h.dir hx).unique
  · rw [own hx]
    exact (h.dir hx).terminated.imp fun later hend => Fat32.not_live_of_isEnd (later hend)
  · rw [obj] at hc
    exact ⟨((h.dir hc).links (h.not_root hc (by simp))).2, tight.dotdot hx hc⟩

/-- **Runs keep a volume laid out and tight.** -/
theorem runs (g : fs.Geometry) (writable : fs.disk.writable = true) (enough : fs.totalClusters < fuel)
    (run : Runs fs fuel m calls m') (legal : ∀ call ∈ calls, call.Legal)
    (start : ∃ T K, (fs.view m).Laid fs T K ∧ (fs.view m).Tight fs T K) :
    ∃ T K, (fs.view m').Laid fs T K ∧ (fs.view m').Tight fs T K := by
  induction run with
  | nil m => exact start
  | cons ok rest ih =>
    obtain ⟨T, K, laid, tight⟩ := start
    obtain ⟨_, T', K', laid', keeps⟩ :=
      laid.call_done g enough writable (legal _ List.mem_cons_self) ok
    exact ih (fun call mem => legal call (List.mem_cons_of_mem _ mem)) ⟨T', K', laid', keeps tight⟩

end Vol.Layout

/-- **Every run from mkfs on leaves a sound volume.** -/
theorem formatted_runs_sound (small : size < 33554432) (serves : d.ServesBelow size)
    (formats : (canbootFat32Format d 0 size label).run fuel m = .ok () m0)
    (opens : (canbootFat32Open d).run fuel m0 = .ok fs m1) (enough : fs.totalClusters < fuel)
    (legal : ∀ call ∈ calls, call.Legal) (run : Runs fs fuel m1 calls m') : (fs.view m').Sound fs := by
  obtain ⟨writable, block, spc, count, rfl⟩ := format_ok formats
  have n := formatNumbers small (size_of_pickSpc spc)
  rw [run_open_formatted (reads_boot serves spc) block spc] at opens
  cases opens
  obtain ⟨T, K, laid, tight⟩ := Vol.Layout.runs (formatHandle_geometry n block serves small) writable
    enough run legal ⟨_, _, formatted_blank n block serves small (by omega)⟩
  exact laid.sound tight

/-- mkfs, mount, `mkdir /A`. -/
theorem formatted_runs_sound_mkdir : ∃ m', Runs (formatHandle mkfsDisk 66600) 70000 (formatted 66600 none fun _ _ => 0)
      [.mkdir [slash, 65]] m' ∧ ((formatHandle mkfsDisk 66600).view m').Sound (formatHandle mkfsDisk 66600) := by
  have ok := Outcome.eq_ok_of_isOk (fun _ _ => 0)
    (o := (canbootFat32Mkdir (formatHandle mkfsDisk 66600) [slash, 65]).run 70000
      (formatted 66600 none fun _ _ => 0)) (by decide +kernel)
  have run : Runs (formatHandle mkfsDisk 66600) 70000 _ [.mkdir [slash, 65]] _ := .cons ok (.nil _)
  have legal : ∀ call ∈ [PathCall.mkdir [slash, 65]], call.Legal := by
    intro call mem
    rw [List.mem_singleton.mp mem]
    exact legalName_a.path
  exact ⟨_, run, formatted_runs_sound (by decide) mkfsDisk_serves mkfsDisk_formats
    (run_open_formatted rfl rfl (by decide)) (by decide +kernel) legal run⟩

end CanBoot
