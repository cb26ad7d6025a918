import CanBoot.Fs.Ntfs
import CanBoot.Lib.Lockstep

/-!
# What an NTFS read depends on

The answer of the in-tree reader should depend on the volume alone. It does not. The run list of `$MFT` is cached under
the address of the caller's struct, and callers open one volume after another in a struct at the same address of the
stack. And a volume whose record 0 has no run list is read through whatever list an earlier volume left.

The address alone makes no difference (`Visit.lockstep`); one earlier call does (`ntfs_independent_iff`).
-/

namespace CanBoot.Ntfs

open Lib List

/-! ## The address of the struct -/

/-- The same statics, but for the address the run list is cached for: it is the struct's own in both runs or in
neither. -/
structure Renamed (x x' : Nat) (s t : Statics) : Prop where
  bufs : s.bufs = t.bufs
  runs : s.cache.runs = t.cache.runs
  valid : s.cache.valid = t.cache.valid
  own : s.cache.valid = true → (s.cache.forFs = x ↔ t.cache.forFs = x')

variable {x x' : Nat} {α : Type}

theorem lockstep_onBufs (p : Prog Bufs α) : Lockstep (Renamed x x') (onBufs p) (onBufs p) :=
  Lockstep.focus (fun _ _ here => here.bufs) (fun _ _ _ here => ⟨rfl, here.runs, here.valid, here.own⟩) p

theorem lockstep_readCached (fs : Fs) (recNo : Nat) (out : Ref) :
    Lockstep (Renamed x x') (readCached fs recNo out) (readCached fs recNo out) := by
  refine Lockstep.get fun s t here => ?_
  rw [here.runs]
  exact fun fuel => ((lockstep_onBufs _).bind fun _ => (Lockstep.require _).bind fun _ => lockstep_onBufs _) fuel s t here

theorem lockstep_keepRuns (found : Option (List UInt8)) : Lockstep (Renamed x x') (keepRuns x found) (keepRuns x' found) := by
  cases found with
  | none => exact Lockstep.pure ()
  | some runs => exact fun _ _ _ here => ⟨rfl, here.bufs, rfl, rfl, fun _ => ⟨fun _ => rfl, fun _ => rfl⟩⟩

/-- **`read_mft_record` does the same at every address** that is the cached one in both runs or in neither. -/
theorem lockstep_readMftRecord (fs : Fs) (recNo : Nat) (out : Ref) :
    Lockstep (Renamed x x') (readMftRecord fs x recNo out) (readMftRecord fs x' recNo out) := by
  refine Lockstep.get fun s t here fuel => ?_
  have both : (s.cache.valid = true ∧ s.cache.forFs = x) ↔ (t.cache.valid = true ∧ t.cache.forFs = x') := by
    rw [← here.valid]
    exact and_congr_right here.own
  by_cases cached : s.cache.valid = true ∧ s.cache.forFs = x
  · rw [if_pos cached, if_pos (both.1 cached)]
    exact lockstep_readCached fs recNo out fuel s t here
  · rw [if_neg cached, if_neg (both.not.1 cached)]
    refine ((lockstep_onBufs _).bind fun found => (lockstep_keepRuns found).bind fun _ => ?_) fuel s t here
    by_cases zero : recNo = 0
    · rw [if_pos zero]
      exact (lockstep_onBufs _).bind fun _ => lockstep_onBufs _
    · rw [if_neg zero]
      refine Lockstep.get fun s t here fuel => ?_
      rw [here.valid]
      exact ((Lockstep.require _).bind fun _ => lockstep_readCached fs recNo out) fuel s t here

theorem lockstep_open (v : Volume) : Lockstep (Renamed x x') (canbootNtfsOpen v x) (canbootNtfsOpen v x') := by
  refine (lockstep_onBufs _).bind fun fs => ?_
  by_cases small : fs.bytesPerMftRecord ≤ 2048
  · rw [if_pos small, if_pos small]
    refine (lockstep_readMftRecord fs 3 _).attempt.bind fun
      | some _ => (lockstep_onBufs _).bind fun _ => .pure _
      | none => .pure _
  · rw [if_neg small, if_neg small]
    exact .pure _

theorem lockstep_walkRoot {υ : Type} (fs : Fs) (want : Want υ) (st : Walk υ) :
    Lockstep (Renamed x x') (walkRoot fs x want st) (walkRoot fs x' want st) := by
  refine (Lockstep.require _).bind fun _ => (lockstep_readMftRecord fs 5 _).bind fun _ => (lockstep_onBufs _).bind ?_
  rintro ⟨st, alloc⟩
  by_cases stop : st.stop = true
  · simp only [stop, if_true]
    exact .pure _
  · simp only [stop]
    cases alloc with
    | none => exact .pure _
    | some _ => exact lockstep_onBufs _

theorem lockstep_readRootFile (fs : Fs) (name : Bytes) (outSize : Nat) :
    Lockstep (Renamed x x') (canbootNtfsReadRootFile fs x name outSize) (canbootNtfsReadRootFile fs x' name outSize) := by
  refine (lockstep_walkRoot fs _ _).bind fun st => (Lockstep.require _).bind fun _ => (Lockstep.require _).bind fun _ =>
    (lockstep_readMftRecord fs _ _).bind fun _ => (lockstep_onBufs _).bind fun
      | none => .fail
      | some (got, size) => ?_
  refine Lockstep.get fun s t here fuel => ?_
  rw [here.bufs]
  exact ⟨rfl, here⟩

/-- **A use of the driver gives the same at every address.** -/
theorem Visit.lockstep (v : Volume) (op : Op) :
    Lockstep (Renamed x x') (Visit.run ⟨x, v, op⟩) (Visit.run ⟨x', v, op⟩) := by
  refine (lockstep_open v).bind fun fs => Lockstep.bind ?_ fun _ => .pure _
  cases op with
  | list goesOn => exact ((lockstep_walkRoot fs _ _).bind fun _ => .pure _).attempt.bind fun _ => .pure _
  | read name outSize => exact (lockstep_readRootFile fs name outSize).attempt.bind fun _ => .pure _

theorem renamed_boot (x x' : Nat) : Renamed x x' Statics.boot Statics.boot := ⟨rfl, rfl, rfl, nofun⟩

/-! ## What an earlier call leaves -/

/-- A disk that cannot be read. -/
def deafVolume : Volume := ⟨⟨512, 0, false, fun _ _ => true, fun _ _ => true, fun _ => 0⟩, fun _ _ => 0, 0⟩

/-- A use that does not get past the boot sector leaves nothing behind. -/
theorem history_deaf (fuel : Nat) (s : Statics) (rest : List Visit) : ∀ addrs : List Nat,
    history fuel (addrs.map (fun a => ⟨a, deafVolume, .read [] 0⟩) ++ rest) s = history fuel rest s
  | [] => rfl
  | _ :: addrs => history_deaf fuel s rest addrs

/-- A disk of a few blocks of 512 bytes, given by the bytes that are not zero. -/
def smallVolume (bytes : Nat → List (Nat × UInt8)) : Volume :=
  ⟨⟨512, 8, false, fun _ _ => false, fun _ _ => true, fun _ => 0⟩, fun l o => ((bytes l).lookup o).getD 0, 0⟩

/-- A boot sector with sectors, clusters and records of 512 bytes, and `$MFT` at cluster 1. -/
def smallBoot : List (Nat × UInt8) :=
  [(3, 0x4E), (4, 0x54), (5, 0x46), (6, 0x53), (7, 0x20), (8, 0x20), (9, 0x20), (10, 0x20), (12, 2), (13, 1), (48, 1), (64, 1)]

/-- A volume whose `$MFT` has its run list in record 0: four clusters from cluster 1 on. -/
def mappedVolume : Volume := smallVolume fun
  | 0 => smallBoot
  | 1 => [(20, 24), (24, 0x80), (32, 1), (56, 40), (64, 0x11), (65, 4), (66, 1)]
  | _ => []

/-- A volume with no run list in record 0, and a record with a label `B` in cluster 4. -/
def unmappedVolume : Volume := smallVolume fun
  | 0 => smallBoot
  | 1 => [(20, 24), (24, 0xFF), (25, 0xFF), (26, 0xFF), (27, 0xFF)]
  | 4 => [(20, 24), (24, 0x60), (40, 2), (44, 24), (48, 66)]
  | _ => []

/-- The listing that goes on. -/
def listAll : Op := .list fun _ => true

/-- Without a run list the volume has no label. -/
theorem unmapped_at_boot (x : Nat) : ((Visit.run ⟨x, unmappedVolume, listAll⟩).run 50 Statics.boot).forget =
    .ok ([], .listed none) () := by
  rw [(Visit.lockstep unmappedVolume listAll 50 _ _ (renamed_boot x 0)).forget]
  exact Outcome.forget_of_value (by decide +kernel)

/-- What a use of the mapped volume leaves shows the label of the unmapped one, read through the run list that is
cached for the struct's own address or for another. -/
theorem unmapped_after_mapped : ∃ r t, (Visit.run ⟨0, mappedVolume, listAll⟩).run 50 Statics.boot = .ok r t ∧
    t.cache.forFs = 0 ∧ ((Visit.run ⟨0, unmappedVolume, listAll⟩).run 50 t).value = some ([66], .listed none) ∧
    ((Visit.run ⟨1, unmappedVolume, listAll⟩).run 50 t).value = some ([66], .listed none) ∧ t.cache.valid = true := by
  have ok : ((Visit.run ⟨0, mappedVolume, listAll⟩).run 50 Statics.boot).isOk = true := by decide +kernel
  have left : (((Visit.run ⟨0, mappedVolume, listAll⟩).run 50 Statics.boot).after Statics.boot).cache.forFs = 0 ∧
      ((Visit.run ⟨0, unmappedVolume, listAll⟩).run 50
        (((Visit.run ⟨0, mappedVolume, listAll⟩).run 50 Statics.boot).after Statics.boot)).value =
          some ([66], .listed none) ∧
      ((Visit.run ⟨1, unmappedVolume, listAll⟩).run 50
        (((Visit.run ⟨0, mappedVolume, listAll⟩).run 50 Statics.boot).after Statics.boot)).value =
          some ([66], .listed none) ∧
      (((Visit.run ⟨0, mappedVolume, listAll⟩).run 50 Statics.boot).after Statics.boot).cache.valid = true := by
    decide +kernel
  cases ran : (Visit.run ⟨0, mappedVolume, listAll⟩).run 50 Statics.boot with
  | ok r t =>
    simp only [ran, Outcome.after] at left
    exact ⟨r, t, rfl, left⟩
  | _ =>
    rw [ran] at ok
    cases ok

/-- The same at any two addresses `a` and `x`. -/
theorem unmapped_after_mapped_at (a x : Nat) : ∃ r s, (Visit.run ⟨a, mappedVolume, listAll⟩).run 50 Statics.boot = .ok r s ∧
    ((Visit.run ⟨x, unmappedVolume, listAll⟩).run 50 s).forget = .ok ([66], .listed none) () := by
  obtain ⟨r, t, ran, kept, hit, miss, valid⟩ := unmapped_after_mapped
  have alike := Visit.lockstep mappedVolume listAll 50 _ _ (renamed_boot a 0)
  rw [ran] at alike
  cases first : (Visit.run ⟨a, mappedVolume, listAll⟩).run 50 Statics.boot with
  | ok r' s =>
    rw [first] at alike
    obtain ⟨-, left⟩ := alike
    have ours : s.cache.forFs = a := (left.own (left.valid.trans valid)).2 kept
    refine ⟨r', s, rfl, ?_⟩
    -- the later struct is where the earlier one was, or elsewhere: one of the two runs computed above
    by_cases same : a = x
    · have here : Renamed x 0 s t := same ▸ left
      rw [(Visit.lockstep unmappedVolume listAll 50 _ _ here).forget]
      exact Outcome.forget_of_value hit
    · have here : Renamed x 1 s t :=
        ⟨left.bufs, left.runs, left.valid, fun _ => ⟨fun h => absurd (ours.symm.trans h) same,
          fun h => absurd (kept.symm.trans h) (by decide)⟩⟩
      rw [(Visit.lockstep unmappedVolume listAll 50 _ _ here).forget]
      exact Outcome.forget_of_value miss
  | _ =>
    rw [first] at alike
    exact alike.elim

/-- Every earlier use of the driver, at whatever address, can change what the unmapped volume gives. -/
theorem history_shows {addrs : List Nat} (used : addrs ≠ []) (x : Nat) : ∃ h s, h.map Visit.addr = addrs ∧
    history 50 h Statics.boot = some s ∧
    ((Visit.run ⟨x, unmappedVolume, listAll⟩).run 50 s).forget = .ok ([66], .listed none) () := by
  obtain ⟨earlier, a, split⟩ : ∃ earlier a, addrs = earlier ++ [a] :=
    ⟨_, _, (dropLast_append_getLast used).symm⟩
  obtain ⟨r, s, ran, shows⟩ := unmapped_after_mapped_at a x
  refine ⟨earlier.map (fun b => ⟨b, deafVolume, .read [] 0⟩) ++ [⟨a, mappedVolume, listAll⟩], s, ?_, ?_, shows⟩
  · rw [split, map_append, map_map]
    exact congrArg (· ++ [a]) (map_id earlier)
  · rw [history_deaf, history, ran]
    rfl

/-- A history of the same addresses that leaves nothing. -/
theorem history_hides (addrs : List Nat) (x : Nat) : ∃ h s, h.map Visit.addr = addrs ∧
    history 50 h Statics.boot = some s ∧
    ((Visit.run ⟨x, unmappedVolume, listAll⟩).run 50 s).forget = .ok ([], .listed none) () := by
  refine ⟨addrs.map (fun b => ⟨b, deafVolume, .read [] 0⟩), Statics.boot, ?_, ?_, unmapped_at_boot x⟩
  · rw [map_map]
    exact map_id addrs
  · have left := history_deaf 50 Statics.boot [] addrs
    rwa [append_nil] at left

/-- A volume whose `$MFT` lies in the four clusters from cluster 2 on, with the label `B` in its record 3. -/
def movedVolume : Volume := smallVolume fun
  | 0 => (48, 2) :: smallBoot
  | 2 => [(20, 24), (24, 0x80), (32, 1), (56, 40), (64, 0x11), (65, 4), (66, 2)]
  | 5 => [(20, 24), (24, 0x60), (40, 2), (44, 24), (48, 66)]
  | _ => []

end CanBoot.Ntfs
