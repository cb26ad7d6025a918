import CanBoot.Laws.Fat32.Format

/-!
# mkfs as a list of requests

Past its tests `canboot_fat32_format` is a list of sectors to write, in order, until one is refused
(`run_format_eq`). So what it writes can be named before it runs: the requests the driver serves up to the first it
does not (`served`). They lie inside the volume at every size mkfs goes on with (`formatRequests_inside`), for the
sizes above 2^32 as well, where the numbers mkfs computes wrap.
-/

namespace CanBoot

open Lib Lib.Prog List

variable {d : Disk} {m : Media} {fuel size start : Nat} {label : Option (List UInt8)}

/-- A list of sectors, put one after the other. -/
def putAll (put : Nat → Buf → Prog Media Unit) : List (Nat × Buf) → Prog Media Unit
  | [] => pure ()
  | w :: ws => do
    put w.1 w.2
    putAll put ws

/-- The sectors of a layout, in the order mkfs writes them: boot sector and FSInfo, each twice, the heads of the two
tables of `fat` sectors, the rest of the tables, and a root cluster of `spc` sectors `root` sectors behind the start of
the first table. -/
def layout (start fat root spc : Nat) (boot info : Buf) : List (Nat × Buf) :=
  [(start, boot), (start + 6, boot), (start + 1, info), (start + 7, info), (start + 32, fatHeadSector),
      (start + 32 + fat, fatHeadSector)] ++
    (((List.range' 1 (fat - 1)).flatMap fun off =>
      [(start + 32 + off, fun _ => 0), (start + 32 + fat + off, fun _ => 0)]) ++
    (List.range spc).flatMap fun s => [(start + 32 + root + s, fun _ => 0)])

/-- What mkfs asks to have written. -/
def formatRequests (start size : Nat) (label : Option (List UInt8)) : List (Nat × Buf) :=
  layout start (formatFatSize size) (u32 (2 * formatFatSize size)) (pickSpc size)
    (bootSector start size (pickSpc size) (formatFatSize size) label) (fsInfoSector (formatClusters size))

/-- The tests mkfs makes before it writes. -/
def formats (d : Disk) (size : Nat) : Bool :=
  d.writable && d.blockSize = 512 && pickSpc size ≠ 0 && 65525 ≤ formatClusters size

/-- The requests that are served, up to the first that is not, each with its 64-bit block address. -/
def served (d : Disk) (ws : List (Nat × Buf)) : List (Nat × Buf) :=
  (ws.map fun w => (u64 w.1, w.2)).takeWhile fun w => !d.writeFails w.1 1

/-! ## The list is what mkfs does -/

section Put

variable {put : Nat → Buf → Prog Media Unit}

theorem putAll_append : ∀ xs ys : List (Nat × Buf), putAll put (xs ++ ys) = putAll put xs >>= fun _ => putAll put ys
  | [], _ => rfl
  | x :: xs, ys => by
    rw [cons_append, putAll, putAll, bind_assoc]
    congr 1
    funext _
    exact putAll_append xs ys

theorem putAll_one (w : Nat × Buf) : putAll put [w] = put w.1 w.2 := bind_unit _

/-- A loop that puts some sectors a round. -/
theorem forAcc_putAll {body : Nat → Unit → Prog Media Unit} (ws : Nat → List (Nat × Buf))
    (round : ∀ x u, body x u = putAll put (ws x)) : ∀ xs : List Nat,
    forAcc body xs () = putAll put (xs.flatMap ws)
  | [] => rfl
  | x :: xs => by
    rw [forAcc, flatMap_cons, putAll_append, round]
    congr 1
    funext _
    exact forAcc_putAll ws round xs

/-- The layout, put sector by sector, in the words of the source. -/
theorem putAll_layout (start fat root spc : Nat) (sector info : Buf) :
    putAll put (layout start fat root spc sector info) = (do
      let boot := sector
      put start boot
      put (start + 6) boot
      put (start + 1) info
      put (start + 7) info
      let fat0 := start + 32
      put fat0 fatHeadSector
      put (fat0 + fat) fatHeadSector
      forAcc (fun off _ => do
        put (fat0 + off) (fun _ => 0)
        put (fat0 + fat + off) (fun _ => 0)) (range' 1 (fat - 1)) ()
      let rootLba := start + 32 + root
      forAcc (fun s _ => put (rootLba + s) (fun _ => 0)) (range spc) ()) := by
  dsimp only
  rw [forAcc_putAll (fun off => [(start + 32 + off, _), (start + 32 + fat + off, _)]) fun _ _ => by
      rw [putAll, putAll_one],
    forAcc_putAll (fun _ => [(_, _)]) fun _ _ => by rw [putAll_one]]
  simp only [layout, cons_append, nil_append, putAll, putAll_append]

end Put

theorem formats_iff : formats d size = true ↔
    d.writable = true ∧ d.blockSize = 512 ∧ pickSpc size ≠ 0 ∧ 65525 ≤ formatClusters size := by
  rw [formats, Bool.and_eq_true, Bool.and_eq_true, Bool.and_eq_true, decide_eq_true_iff, decide_eq_true_iff,
    decide_eq_true_iff, and_assoc, and_assoc]

/-- **Past its tests mkfs writes its requests.** -/
theorem run_format_eq (label : Option (List UInt8)) : (canbootFat32Format d start size label).run fuel m =
    if formats d size then (putAll (writeSector d) (formatRequests start size label)).run fuel m else .err m := by
  rw [formatRequests, putAll_layout, canbootFat32Format]
  by_cases goes : formats d size = true
  · obtain ⟨writable, block, spc, count⟩ := formats_iff.mp goes
    rw [if_pos goes, bind_require_true writable, bind_require_true (decide_eq_true block),
      bind_require_true (decide_eq_true spc), bind_require_true (decide_eq_true count)]
  · rw [if_neg goes]
    refine bind_require_err fun writable => bind_require_err fun block => bind_require_err fun spc =>
      bind_require_err fun count => absurd (formats_iff.mpr ?_) goes
    exact ⟨writable, of_decide_eq_true block, of_decide_eq_true spc, of_decide_eq_true count⟩

/-- What a list of requests leaves: the sectors that were served. -/
theorem after_putAll (block : d.blockSize = 512) (s : Media) : ∀ (ws : List (Nat × Buf)) (m : Media),
    ((putAll (writeSector d) ws).run fuel m).after s = (served d ws).foldl (fun m w => putSector m w.1 w.2) m
  | [], _ => rfl
  | w :: ws, m => by
    rw [putAll, served, map_cons]
    cases fails : d.writeFails (u64 w.1) 1 with
    | true =>
      have refused : (writeSector d w.1 w.2).run fuel m = .err m := by
        rw [writeSector, Disk.write, fails]
        rfl
      rw [run_bind_err refused, takeWhile_cons_of_neg (by simp [fails])]
      rfl
    | false =>
      obtain ⟨m', written⟩ : ∃ m', (writeSector d w.1 w.2).run fuel m = .ok () m' :=
        ⟨_, by rw [writeSector, Disk.write, fails]; rfl⟩
      rw [run_bind_ok written, takeWhile_cons_of_pos (by simp [fails]), foldl_cons, write_ok block written]
      exact after_putAll block s ws _

/-! ## Where the requests go -/

/-- Two tables and a cluster fit a volume of 2^32 sectors and more, whatever has wrapped. -/
theorem formatFatSize_le (large : 4294967296 ≤ size) (word : size < 18446744073709551616) :
    32 + 2 * formatFatSize size + 64 ≤ size := by
  have any := formatFatSize_lt size
  rcases Nat.lt_or_ge size 17179869184 with below | above
  · -- nothing wraps yet: every guess is about a part in 8192 of the volume
    have spc : pickSpc size = 64 := by
      unfold pickSpc
      split_ifs <;> omega
    have bounded : ∀ n fat, fat ≤ 4194304 → formatFatSectors size 64 n fat ≤ 4194304 := by
      intro n
      induction n with
      | zero => exact fun fat small => small
      | succ n ih =>
        intro fat small
        rw [formatFatSectors]
        split
        · exact small
        · refine ih _ ?_
          have avail : formatAvail size fat ≤ size := by
            rw [formatAvail, sub64_of_le (a := size) word (by omega), u32_of_lt (by omega),
              sub64_of_le (by omega) (by omega)]
            omega
          have part : formatAvail size fat / 64 ≤ size / 64 := Nat.div_le_div_right avail
          rw [u64, u32]
          omega
    have small := bounded 32 32 (by decide)
    rw [formatFatSize, spc]
    omega
  · omega

/-- **Every request of mkfs lies inside its volume**, at every size it goes on with. -/
theorem formatRequests_inside (goes : formats d size = true) (word : size < 18446744073709551616)
    {w : Nat × Buf} (mem : w ∈ formatRequests start size label) : start ≤ w.1 ∧ w.1 < start + size := by
  obtain ⟨-, -, spc, count⟩ := formats_iff.mp goes
  have big := size_of_pickSpc spc
  have spcLe := pickSpc_le size
  have room : 32 + 2 * formatFatSize size + pickSpc size ≤ size := by
    rcases Nat.lt_or_ge size 4294967296 with small | large
    · have inside := (formatFits small big).inside
      have one : pickSpc size ≤ formatClusters size * pickSpc size := Nat.le_mul_of_pos_left _ (by omega)
      omega
    · have := formatFatSize_le large word
      omega
  have root : u32 (2 * formatFatSize size) ≤ 2 * formatFatSize size := Nat.mod_le _ _
  rw [formatRequests, layout, mem_append, mem_append, mem_flatMap, mem_flatMap] at mem
  have fatGe := formatFatSize_ge size
  rcases mem with head | ⟨off, inside, hit⟩ | ⟨s, inside, hit⟩
  · simp only [mem_cons, not_mem_nil, or_false] at head
    rcases head with rfl | rfl | rfl | rfl | rfl | rfl <;> constructor <;> dsimp only <;> omega
  · have bounds := mem_range'_1.mp inside
    simp only [mem_cons, not_mem_nil, or_false] at hit
    rcases hit with rfl | rfl <;> constructor <;> dsimp only <;> omega
  · have bounds := mem_range.mp inside
    simp only [mem_cons, not_mem_nil, or_false] at hit
    subst hit
    constructor <;> dsimp only <;> omega

end CanBoot
