import CanBoot.Laws.Fat32.Format
import CanBoot.Laws.Fat32.Read

/-!
# What mkfs accepts

mkfs accepts every volume with enough clusters, and its cluster sizes grow with the volume: from 16
GiB on a cluster has 16 or 32 KiB. The engine works in buffers of 8 KiB and refuses such a volume in
every call that looks at a directory. So a volume that was formatted can be used exactly when it has
less than 33,554,432 blocks (`formatted_usable_iff`).
-/

namespace CanBoot

open Lib Lib.Prog Fat32 List

variable {fs : Fat32} {d : Disk} {m m0 m' : Media} {fuel size : Nat} {label : Option (List UInt8)}

/-- The volume mounts with the clusters mkfs counted, and a file of up to a cluster can be written
to its root and read back. -/
def Usable (d : Disk) (size fuel : Nat) (m0 : Media) : Prop :=
  ∃ fs m1, (canbootFat32Open d).run fuel m0 = .ok fs m1 ∧ fs.totalClusters = formatClusters size ∧
    ∀ name data, LegalName name → data.length ≤ fs.bytesPerCluster →
      ∃ m2, (canbootFat32WritePath fs (slash :: name) data).run fuel m1 = .ok () m2 ∧ ∀ buf n, data.length ≤ n →
          (canbootFat32ReadPath fs (slash :: name) buf n).run fuel m2 =
            .ok { ret := data.length, buf := putBytes buf 0 data, size := data.length } m2

/-- Where a cluster exceeds the buffers, nothing can be written. -/
theorem write_too_large (writable : fs.disk.writable = true) (large : 8192 < fs.bytesPerCluster) (data : Bytes) :
    (canbootFat32WritePath fs [slash, 65] data).run fuel m = .err m := by
  have parent : (fs.resolveParent [slash, 65]).run fuel m = .ok (fs.rootCluster, to83 [65]) m := by
    have split : splitLast [slash, 65] 256 16 = some ([slash], [65]) := by decide
    rw [resolveParent, split]
    rfl
  have full : fs.fitsBuffer.run fuel m = .err m :=
    run_require_false (decide_eq_false (by omega)) _ _
  rw [canbootFat32WritePath, bind_require_true writable, run_bind_ok parent]
  refine run_bind_err ?_ _
  rw [claimSlot, run_bind_err]
  rw [dirFind, run_bind_err full]

namespace Vol.Layout

variable {T : Objs} {K : Chains}

/-- **A new file of up to a cluster fits where there is a free slot and a free cluster.** -/
theorem write_fits (g : fs.Geometry) (h : (fs.view m).Laid fs T K) (enough : fs.totalClusters < fuel)
    (writable : fs.disk.writable = true) {name data : Bytes} (legal : LegalName name)
    (short : data.length ≤ fs.bytesPerCluster) (absent : T [to83 name] = none)
    (slot : fs.freeSlot (fs.view m) (K []) ≠ none) (cluster : (fs.view m).freeList fs ≠ []) :
    ∃ m', (canbootFat32WritePath fs (slash :: name) data).run fuel m = .ok () m' := by
  have pos := g.bpc_pos
  have small := g.small
  have hd : data.length < 4294967296 := by omega
  have target := target_root legal.no_slash legal.ne_nil (by have := legal.length_le; omega)
  have one : data.length ≠ 0 → fs.need data.length = 1 := by
    intro some'
    rw [need, u32_of_lt (by omega), Nat.div_eq_iff pos]
    omega
  rcases h.write_cases g enough writable (slash :: name) hd with ⟨_, fails⟩ |
    ⟨p, t, dc, l, m1, d, K1, ht, hp, _, _, _, how, result⟩
  · exfalso
    rcases fails _ _ target _ h.start with ⟨c, dir⟩ | ⟨_, full, _⟩
    · rw [nil_append, absent] at dir
      cases dir
    · exact slot full
  cases target.symm.trans ht
  have same : m1 = m := by
    rcases how with ⟨c, n, file, _⟩ | ⟨_, ⟨_, same⟩ | ⟨full, _⟩⟩
    · rw [nil_append, absent] at file
      cases file
    · exact same
    · exact absurd full slot
  subst same
  rcases result with ⟨F, m', _, ok, _⟩ | ⟨refused, _⟩ | ⟨accepted, few, _⟩
  · exact ⟨m', ok⟩
  · have := one refused.1
    have := refused.2
    omega
  · exfalso
    have some' := length_pos_iff.mpr cluster
    by_cases zero : data.length = 0
    · rw [zero, clustersFor_zero g] at few
      omega
    · rw [← need_eq g hd (by rw [one zero]; decide), one zero] at few
      omega

end Vol.Layout

/-- From 16 GiB on a cluster exceeds the buffers. -/
theorem pickSpc_large (large : 33554432 ≤ size) : 32 ≤ pickSpc size := by
  unfold pickSpc
  split
  · omega
  split
  · omega
  split
  · omega
  split
  · omega
  split <;> omega

/-- A volume of 16 GiB or more is accepted, and then every write fails. -/
theorem not_usable_large (serves : d.ServesBelow size) (large : 33554432 ≤ size)
    (formats : (canbootFat32Format d 0 size label).run fuel m = .ok () m0) : ¬ Usable d size fuel m0 := by
  obtain ⟨writable, block, spc, _, rfl⟩ := format_ok formats
  rintro ⟨fs, m1, opened, _, use⟩
  cases (run_open_formatted (reads_boot serves spc) block spc).symm.trans opened
  have wide : 8192 < (formatHandle d size).bytesPerCluster := by
    have := pickSpc_large large
    show 8192 < 512 * pickSpc size
    omega
  obtain ⟨m2, ok, _⟩ := use [65] [] legalName_a (Nat.zero_le _)
  rw [write_too_large writable wide] at ok
  cases ok

/-- **A volume mkfs accepted can be used exactly when it is smaller than 16 GiB.** -/
theorem formatted_usable_iff (serves : d.ServesBelow size) (enough : formatClusters size < fuel)
    (formats : (canbootFat32Format d 0 size label).run fuel m = .ok () m0) :
    Usable d size fuel m0 ↔ size < 33554432 := by
  refine ⟨fun usable => Decidable.byContradiction fun large =>
    not_usable_large serves (Nat.not_lt.mp large) formats usable, fun small => ?_⟩
  obtain ⟨writable, block, spc, count, rfl⟩ := format_ok formats
  have n := formatNumbers small (size_of_pickSpc spc)
  have g := formatHandle_geometry n block serves small
  have blank : ((formatHandle d size).view (formatted size label m)).Laid _ _ _ ∧ _ :=
    formatted_blank n block serves small (by omega)
  obtain ⟨laid, tight⟩ := blank
  have enough : (formatHandle d size).totalClusters < fuel := by
    rw [n.total]
    exact enough
  refine ⟨_, _, run_open_formatted (reads_boot serves spc) block spc, n.total d, fun name data legal short => ?_⟩
  have range : (formatHandle d size).InRange 3 := by
    refine ⟨by decide, ?_⟩
    rw [n.total]
    omega
  have free : ((formatHandle d size).view (formatted size label m)).fat 3 = 0 := by
    refine Decidable.byContradiction fun marked => ?_
    obtain ⟨_, _, _, mem⟩ := tight.cover 3 range marked
    exact absurd (mem_singleton.mp mem) (by decide)
  obtain ⟨m2, ok⟩ := laid.write_fits g enough writable legal short rfl
    (Vol.freeSlot_blank g (data_formatted n small))
    (ne_nil_of_mem (mem_freeList.mpr ⟨range, free⟩))
  have small' := g.small
  refine ⟨m2, ok, fun buf k room => ?_⟩
  rw [laid.write_read g enough writable legal.path (by omega) ok buf (by omega), readOf,
    Nat.min_eq_left room, take_of_length_le room, toInt32, if_pos (by omega)]

/-- mkfs of 66,600 blocks. -/
theorem formatted_usable_iff_small :
    Usable mkfsDisk 66600 70000 (formatted 66600 none fun _ _ => 0) ↔ 66600 < 33554432 :=
  formatted_usable_iff mkfsDisk_serves (by decide +kernel) mkfsDisk_formats

/-- A disk of 16 GiB. -/
def largeDisk : Disk := { tinyDisk with blockCount := 33554432 }

/-- mkfs accepts a disk of 16 GiB, and no file can be written to it. -/
theorem formatted_not_usable : largeDisk.ServesBelow 33554432 ∧
    ∃ m0, (canbootFat32Format largeDisk 0 33554432 none).run 2000000 (fun _ _ => 0) = .ok () m0 ∧
      ¬ Usable largeDisk 33554432 2000000 m0 := by
  have serves : largeDisk.ServesBelow 33554432 := ⟨fun _ _ _ => rfl, fun _ _ _ => rfl⟩
  have ok := Outcome.eq_ok_of_isOk (fun _ _ => 0)
    (o := (canbootFat32Format largeDisk 0 33554432 none).run 2000000 fun _ _ => 0)
    (by decide +kernel)
  exact ⟨serves, _, ok, not_usable_large serves (Nat.le_refl _) ok⟩

end CanBoot
