import CanBoot.Laws.Ntfs.Buffers

/-!
# Taking the fixups out

A writer protects a block of sectors by an update sequence array: it saves the last word of every sector there and puts
one number in their place (`protect`). `apply_usa` puts the words back one sector after the other, and finds each where
it was saved, since no sector it has passed ends in the array (`applyUsa_inverts`). The array must leave the two fields
alone that say where it is.
-/

namespace CanBoot.Ntfs

open Lib Lib.Prog Nat List

theorem le16_bytes (b : Buf) (i : Nat) : [UInt8.ofNat (le16 b i), UInt8.ofNat (le16 b i / 256)] = [b i, b (i + 1)] := by
  have := (b i).toNat_lt
  have := (b (i + 1)).toNat_lt
  congr 1
  · apply UInt8.toNat_inj.mp
    rw [UInt8.toNat_ofNat', le16]
    omega
  · congr 1
    apply UInt8.toNat_inj.mp
    rw [UInt8.toNat_ofNat', le16]
    omega

/-- Multi-sector protection of `n` sectors of `s` bytes with the number `usn` and the array at `off`. The fields that
say where the array is are written last. -/
def protect (n s off usn : Nat) (block : Buf) : Buf :=
  let tails : Buf := fun i =>
    if i < n * s ∧ s - 2 ≤ i % s then UInt8.ofNat (if i % s = s - 2 then usn else usn / 256) else block i
  let saved : Buf := fun i =>
    if off + 2 ≤ i ∧ i < off + 2 * (n + 1) then block ((i - off) / 2 * s - 2 + (i - off) % 2) else tails i
  putLe16 (putLe16 (putLe16 saved off usn) 4 off) 6 (n + 1)

section Fixup

variable {n s off usn : Nat} {block : Buf} (large : 8 ≤ s) (inside : off + 2 * (n + 1) ≤ s - 2)
  (clear : 6 ≤ off ∨ off + 2 * (n + 1) ≤ 4)

/-- The block when the words of the first `j` sectors are back. -/
def restored (n s off usn j : Nat) (block : Buf) : Buf := fun i =>
  if i < j * s ∧ s - 2 ≤ i % s then block i else protect n s off usn block i

/-- What is left of the protection is the array and its fields. -/
theorem restored_all {i : Nat} (array : ¬ (off ≤ i ∧ i < off + 2 * (n + 1))) (fields : ¬ (4 ≤ i ∧ i < 8)) :
    restored n s off usn n block i = block i := by
  rw [restored]
  split
  · rfl
  · next rest =>
    simp only [protect]
    rw [putLe16_of_out _ _ (by omega), putLe16_of_out _ _ (by omega), putLe16_of_out _ _ (by omega), if_neg (by omega),
      if_neg rest]

include clear

theorem protect_saved {i : Nat} (low : off + 2 ≤ i) (high : i < off + 2 * (n + 1)) :
    protect n s off usn block i = block ((i - off) / 2 * s - 2 + (i - off) % 2) := by
  simp only [protect]
  rw [putLe16_of_out _ _ (by omega), putLe16_of_out _ _ (by omega), putLe16_of_out _ _ (by omega), if_pos ⟨low, high⟩]

include large inside

/-- The words that are still to go back are where they were saved. -/
theorem restored_saved (j : Nat) {i : Nat} (low : off + 2 ≤ i) (high : i < off + 2 * (n + 1)) :
    restored n s off usn j block i = block ((i - off) / 2 * s - 2 + (i - off) % 2) := by
  rw [restored, if_neg (by rw [mod_eq_of_lt (by omega : i < s)]; omega), protect_saved clear low high]

/-- **A round puts one word back.** -/
theorem restored_succ {j : Nat} (before : j < n) : putBytes (restored n s off usn j block) ((j + 1) * s - 2)
      [UInt8.ofNat (le16 (restored n s off usn j block) (off + 2 * (j + 1))),
        UInt8.ofNat (le16 (restored n s off usn j block) (off + 2 * (j + 1)) / 256)] =
    restored n s off usn (j + 1) block := by
  have next : (j + 1) * s = j * s + s := succ_mul j s
  rw [le16_bytes, restored_saved large inside clear j (by omega) (by omega),
    restored_saved large inside clear j (by omega) (by omega), show off + 2 * (j + 1) - off = 2 * (j + 1) by omega,
    show off + 2 * (j + 1) + 1 - off = 1 + 2 * (j + 1) by omega, Nat.mul_div_cancel_left _ (by decide),
    mul_mod_right, add_mul_div_left _ _ (by decide), add_mul_mod_self_left, Nat.zero_add]
  funext i
  -- inside the sector `j` the place in the sector is known
  have place : j * s ≤ i → i < j * s + s → i % s = i - j * s := fun low high => by
    conv_lhs => rw [show i = i - j * s + j * s by omega]
    rw [add_mul_mod_self_right, mod_eq_of_lt (by omega)]
  simp only [putBytes, restored, length_cons, length_nil]
  by_cases here : (j + 1) * s - 2 ≤ i ∧ i < (j + 1) * s
  · have := place (by omega) (by omega)
    rw [if_pos (by omega), if_pos (by omega)]
    rcases (by omega : i = (j + 1) * s - 2 ∨ i = (j + 1) * s - 2 + 1) with rfl | rfl
    · simp
    · simp
  · rw [if_neg (by omega)]
    by_cases sector : j * s ≤ i ∧ i < j * s + s
    · have := place sector.1 sector.2
      rw [if_neg (by omega), if_neg (by omega)]
    · congr 1
      exact propext ⟨fun h => by omega, fun h => by omega⟩

end Fixup

/-- **`apply_usa` takes the protection out**, whatever the block and the number, if the saved words are clear of the
fields. -/
theorem applyUsa_inverts {r : Ref} (keeps : ∀ st b, r.get (r.set st b) = b) {n s off usn : Nat} {block : Buf}
    (some : 0 < n) (large : 8 ≤ s) (small : n * s ≤ 4096) (room : n * s ≤ r.cap)
    (inside : off + 2 * (n + 1) ≤ s - 2) (clear : 6 ≤ off ∨ off + 2 * (n + 1) ≤ 4) (fuel : Nat) {st : Bufs}
    (holds : r.get st = protect n s off usn block) : ∃ st', (applyUsa r s).run fuel st = .ok () st' ∧
      ∀ i, ¬ (off ≤ i ∧ i < off + 2 * (n + 1)) → ¬ (4 ≤ i ∧ i < 8) → r.get st' i = block i := by
  have sector : s ≤ n * s := Nat.le_mul_of_pos_left s some
  have offset : le16 (r.get st) 4 = off := by
    rw [holds, protect, le16_putLe16_of_ne _ _ (by omega), le16_putLe16, mod_eq_of_lt (by omega)]
  have count : le16 (r.get st) 6 = n + 1 := by
    rw [holds, protect, le16_putLe16, mod_eq_of_lt (by omega)]
  let back (st : Bufs) (i : Nat) : Bufs := r.set st (putBytes (r.get st) (i * s - 2)
    [UInt8.ofNat (le16 (r.get st) (off + 2 * i)), UInt8.ofNat (le16 (r.get st) (off + 2 * i) / 256)])
  have rounds : ∀ j, j ≤ n → r.get ((range' 1 j).foldl back st) = restored n s off usn j block := by
    intro j
    induction j with
    | zero =>
      intro _
      rw [range'_zero, foldl_nil, holds]
      funext i
      rw [restored, if_neg (by omega)]
    | succ j ih =>
      intro before
      rw [range'_1_concat, foldl_concat, keeps, ih (by omega), Nat.add_comm 1 j,
        restored_succ large inside clear before]
  refine ⟨(range' 1 n).foldl back st, ?_, fun i array fields => ?_⟩
  · rw [applyUsa, run_bind_ok (run_load16 (by omega)), run_bind_ok (run_load16 (by omega)), offset, count]
    refine run_forAcc_foldl st fun i mem st => ?_
    obtain ⟨first, last⟩ := mem_range'_1.mp mem
    have below : i * s ≤ n * s := Nat.mul_le_mul_right s (by omega)
    have above : s ≤ i * s := Nat.le_mul_of_pos_left s first
    rw [run_bind_ok (run_load16 (by omega)), u32_of_lt (by omega), sub32_of_le (by omega) (by omega)]
    exact run_copyIn (by simp only [length_cons, length_nil]; omega)
  · rw [rounds n (Nat.le_refl n)]
    exact restored_all array fields

/-- Two sectors of 16 bytes, with the array behind the fields. -/
theorem applyUsa_inverts_two : ∃ st st' : Bufs, st.blk = protect 2 16 8 7 (fun _ => 1) ∧
    (applyUsa .blk 16).run 0 st = .ok () st' ∧ st.blk 14 = 7 ∧ st'.blk 14 = 1 := by
  obtain ⟨st', run, same⟩ := @applyUsa_inverts .blk (fun _ _ => rfl) 2 16 8 7 (fun _ => 1) (by decide) (by decide)
    (by decide) (by decide) (by decide) (by decide) 0 { Statics.boot.bufs with blk := protect 2 16 8 7 fun _ => 1 } rfl
  exact ⟨_, st', rfl, run, by decide, same 14 (by decide) (by decide)⟩

/-- An array over its own fields: the count is put back in place of the word that was saved there. -/
theorem applyUsa_overlapping : ∃ st st' : Bufs, st.blk = protect 1 16 4 7 (fun _ => 1) ∧
    (applyUsa .blk 16).run 0 st = .ok () st' ∧ st'.blk 14 = 2 :=
  ⟨{ Statics.boot.bufs with blk := protect 1 16 4 7 fun _ => 1 }, _, rfl, rfl, by decide⟩

end CanBoot.Ntfs
