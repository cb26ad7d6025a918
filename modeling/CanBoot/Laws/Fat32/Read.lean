import CanBoot.Laws.Fat32.Calls

/-!
# Reading a file

`canboot_fat32_read_path` on a volume that is laid out answers from the content of the volume: the
first bytes of the file, as many as the buffer takes, with the size of the whole file next to them.
What `canboot_fat32_write_path` has written reads back (`write_read`).
-/

namespace CanBoot

open Lib

variable {fs : Fat32} {v : Vol} {m m' : Media} {fuel : Nat} {T : Objs} {K : Chains} {data : Bytes}

/-- What a reader answers for a file, given a buffer and its size. -/
def readOf (data : List UInt8) (buf : Buf) (n : Nat) : Fat32.ReadResult where
  ret := toInt32 (min data.length n)
  buf := putBytes buf 0 (data.take n)
  size := data.length

namespace Vol.Layout

/-- A file of the content has its size in its entry and its bytes in its chain. -/
theorem file_of_tree (h : v.Laid fs T K) {p : List Name} (hp : fs.tree v p = some (.file data)) :
    ∃ c, T p = some (.file c data.length) ∧ (v.chainBytes fs (K p)).take data.length = data := by
  rw [h.tree_eq] at hp
  obtain ⟨x, hx, node⟩ := Option.map_eq_some_iff.mp hp
  cases x with
  | dir dc => cases node
  | file c n =>
    injection node with bytes
    have fits : n ≤ (K p).length * fs.bytesPerCluster := h.fits hx
    have count : data.length = n := by
      rw [← bytes, List.length_take, length_chainBytes, Nat.min_eq_left fits]
    exact ⟨c, by rw [count]; exact hx, by rw [count]; exact bytes⟩

section

variable (g : fs.Geometry) (h : (fs.view m).Laid fs T K)

include g h

/-- The entry of a file of the content reads as the file. -/
theorem run_readEntry_tree {p : List Name} {e : Entry} (hp : fs.tree (fs.view m) p = some (.file data))
    (here : T p = some e.obj) (buf : Buf) {n : Nat} (word : min data.length n + fs.bytesPerCluster ≤ 4294967296)
    (enough : fs.totalClusters < fuel) :
    e.isDir = false ∧ (fs.readEntry e buf n).run fuel m = .ok (readOf data buf n) m := by
  obtain ⟨c, file, bytes⟩ := h.file_of_tree hp
  have obj : e.obj = .file c data.length := Option.some.inj (here.symm.trans file)
  have isFile : e.isDir = false := by
    cases isDir : e.isDir with
    | false => rfl
    | true =>
      rw [Entry.obj_dir isDir] at obj
      cases obj
  have size : e.size = data.length := by
    rw [Entry.obj_file isFile] at obj
    injection obj
  have run := h.run_readEntry g here isFile buf (n := n) (by rwa [size]) enough
  refine ⟨isFile, run.trans ?_⟩
  rw [size, Nat.min_comm, ← List.take_take, bytes, Nat.min_comm]
  rfl

/-- **`canboot_fat32_read_path` answers with the file.** -/
theorem run_readPath {path : Bytes} {p : List Name} {t : Name} (ht : target path = some (p, t))
    (file : fs.tree (fs.view m) (p ++ [t]) = some (.file data)) (buf : Buf) {n : Nat}
    (word : min data.length n + fs.bytesPerCluster ≤ 4294967296) (enough : fs.totalClusters < fuel) :
    (canbootFat32ReadPath fs path buf n).run fuel m = .ok (readOf data buf n) m := by
  rcases h.resolveFound_cases g enough path with ⟨_, absent⟩ | ⟨p', t', dc, l, ht', _, _, _, obj, run⟩
  · rw [h.tree_eq, absent p t ht] at file
    cases file
  cases ht.symm.trans ht'
  obtain ⟨isFile, read⟩ := h.run_readEntry_tree g file obj buf word enough
  rw [canbootFat32ReadPath, Prog.run_bind_ok run]
  simp only [isFile]
  exact (Prog.bind_require_true rfl).trans read

/-- **What was written reads back.** -/
theorem write_read (enough : fs.totalClusters < fuel) (writable : fs.disk.writable = true) {path : Bytes}
    (legal : LegalPath path) (short : data.length < 4294967296)
    (ok : (canbootFat32WritePath fs path data).run fuel m = .ok () m') (buf : Buf) {n : Nat}
    (word : min data.length n + fs.bytesPerCluster ≤ 4294967296) :
    (canbootFat32ReadPath fs path buf n).run fuel m' = .ok (readOf data buf n) m' := by
  obtain ⟨content, T', K', laid, _⟩ := h.write_done g enough writable legal short ok
  rcases h.write_cases g enough writable path short with ⟨err, _⟩ | ⟨p, t, _, _, _, _, _, ht, _⟩
  · rw [err] at ok
    cases ok
  refine laid.run_readPath g ht ?_ buf word enough
  rw [content, legal.target_eq ht]
  exact Function.update_self ..

end

end Vol.Layout

end CanBoot
