import CanBoot.Laws.Fat32.Tree

/-!
# The fields of an entry

What the engine writes into an entry, read back. A field update sets its field and leaves the
others, so an entry is live, and denotes its object, as its name, attribute, cluster and size say.
-/

namespace CanBoot

namespace Entry

variable (e : Entry)

theorem byte_zero : e.byte 0 = e.name.byte 0 := rfl

/-- An entry is live by its first name byte and its attribute. -/
theorem live_iff : e.live = true ↔ (e.name.byte 0 ≠ 0 ∧ e.name.byte 0 ≠ 0xE5) ∧
    (e.attr ≠ 0x0F ∧ e.attr &&& 0x08 = 0) := by
  rw [← byte_zero]
  simp only [live, isEnd, isDeleted, isLfn, isVolumeId, Bool.and_eq_true,
    Bool.not_eq_true', decide_eq_false_iff_not, ne_eq, Decidable.not_not, and_assoc]

@[simp] theorem name_setName (n : Name) : (e.setName n).name = n := by
  apply Name.ext
  funext k
  exact dif_pos k.isLt

theorem isEnd_setName {n : Name} (h : n.byte 0 ≠ 0) : (e.setName n).isEnd = false := by
  rw [isEnd, byte_zero, name_setName]
  exact decide_eq_false h

@[simp] theorem attr_setName (n : Name) : (e.setName n).attr = e.attr := rfl

/-- The eleven name bytes are none of the fields behind them. -/
theorem castLE_ne {j : Fin 32} (hj : 11 ≤ j.val) (k : Fin 11) : Fin.castLE (by decide : 11 ≤ 32) k ≠ j := by
  rintro rfl
  simp only [Fin.val_castLE] at hj
  omega

@[simp] theorem name_setAttr (a : UInt8) : (e.setAttr a).name = e.name := by
  apply Name.ext
  funext k
  exact if_neg (castLE_ne (by decide) k)

@[simp] theorem name_setCluster (c : Nat) : (e.setCluster c).name = e.name := by
  apply Name.ext
  funext k
  show (if _ then _ else if _ then _ else if _ then _ else if _ then _ else _) = _
  iterate 4 rw [if_neg (castLE_ne (by decide) k)]
  rfl

@[simp] theorem attr_setCluster (c : Nat) : (e.setCluster c).attr = e.attr := rfl

theorem firstCluster_setCluster {c : Nat} (h : c < 4294967296) : (e.setCluster c).firstCluster = c := by
  show ((UInt8.ofNat (c / 65536)).toNat + 256 * (UInt8.ofNat (c / 65536 / 256)).toNat) * 65536 +
    ((UInt8.ofNat c).toNat + 256 * (UInt8.ofNat (c / 256)).toNat) = c
  simp only [UInt8.toNat_ofNat']
  omega

@[simp] theorem name_setSize (n : Nat) : (e.setSize n).name = e.name := by
  apply Name.ext
  funext k
  show (if _ then _ else if _ then _ else if _ then _ else if _ then _ else _) = _
  iterate 4 rw [if_neg (castLE_ne (by decide) k)]
  rfl

@[simp] theorem firstCluster_setSize (n : Nat) : (e.setSize n).firstCluster = e.firstCluster := rfl

theorem size_setSize {n : Nat} (h : n < 4294967296) : (e.setSize n).size = n := by
  show (UInt8.ofNat n).toNat + 256 * (UInt8.ofNat (n / 256)).toNat +
    65536 * ((UInt8.ofNat (n / 65536)).toNat + 256 * (UInt8.ofNat (n / 65536 / 256)).toNat) = n
  simp only [UInt8.toNat_ofNat']
  omega

@[simp] theorem name_clearTimes : e.clearTimes.name = e.name := by
  apply Name.ext
  funext k
  exact if_neg (by rintro (⟨h, _⟩ | ⟨h, _⟩) <;> exact absurd h (by have := k.isLt; simp; omega))

theorem isDeleted_markDeleted : e.markDeleted.isDeleted = true := rfl

/-- Renaming a live entry to a name an entry can carry keeps it live. -/
theorem live_setName {n : Name} (h : e.live = true) (h0 : n.byte 0 ≠ 0) (h5 : n.byte 0 ≠ 0xE5) :
    (e.setName n).live = true := by
  rw [live_iff] at h ⊢
  rw [name_setName, attr_setName]
  exact ⟨⟨h0, h5⟩, h.2⟩

theorem Link.setCluster {e : Entry} {n : Name} (h : e.Link n) (c : Nat) : (e.setCluster c).Link n where
  live := by
    have := h.live
    rw [live_iff] at this ⊢
    rwa [name_setCluster, attr_setCluster]
  isDir := h.isDir
  name := by rw [name_setCluster, h.name]

end Entry

section MakeEntry

variable {t : Name} {c n : Nat}

theorem name_makeEntry (a : UInt8) : (makeEntry t a c n).name = t := by
  simp only [makeEntry, Entry.name_setSize, Entry.name_setCluster, Entry.name_setAttr, Entry.name_setName]

theorem attr_makeEntry (a : UInt8) : (makeEntry t a c n).attr = a := rfl

theorem firstCluster_makeEntry (a : UInt8) (hc : c < 4294967296) : (makeEntry t a c n).firstCluster = c := by
  rw [makeEntry, Entry.firstCluster_setSize, Entry.firstCluster_setCluster _ hc]

/-- A new entry is live when its name is one an entry can carry. -/
theorem live_makeEntry {a : UInt8} (ha : a ≠ 0x0F ∧ a &&& 0x08 = 0) (h0 : t.byte 0 ≠ 0)
    (h5 : t.byte 0 ≠ 0xE5) : (makeEntry t a c n).live = true := by
  rw [Entry.live_iff, name_makeEntry, attr_makeEntry]
  exact ⟨⟨h0, h5⟩, ha⟩

theorem obj_makeEntry_file (hc : c < 4294967296) (hn : n < 4294967296) : (makeEntry t 0x20 c n).obj = .file c n := by
  have size : (makeEntry t 0x20 c n).size = n := Entry.size_setSize _ hn
  have notDir : (makeEntry t 0x20 c n).isDir = false := by
    rw [Entry.isDir, attr_makeEntry]
    rfl
  rw [Entry.obj_file notDir, firstCluster_makeEntry _ hc, size]

theorem isDir_makeEntry : (makeEntry t 0x10 c n).isDir = true := by
  rw [Entry.isDir, attr_makeEntry]
  rfl

theorem obj_makeEntry_dir (hc : c < 4294967296) : (makeEntry t 0x10 c n).obj = .dir c := by
  rw [Entry.obj_dir isDir_makeEntry, firstCluster_makeEntry _ hc]

end MakeEntry

end CanBoot
