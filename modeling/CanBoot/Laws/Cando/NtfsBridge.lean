import CanBoot.Cando.NtfsBridge
import CanBoot.Lib.Blocks
import Mathlib.Data.Nat.Count

/-!
# The block device of libntfs-3g as a byte array

Every write goes through to the disk, so the disk always has what was written. The cache of one block does not:
`pwrite_inner` marks it invalid when it moves whole blocks over the cached one, but `pread_inner` looks at the block
number alone. A read of a part of that block then answers with the bytes it had before. And a transfer of 2^32 whole
blocks or more never ends, because its block count is cut to 32 bits.

Nothing else separates the two (`bridge_serves_iff`).
-/

namespace CanBoot.Cando

open Nat hiding count
open Lib Lib.Prog NtfsDev List

/-- What a slot caches: the bytes, the block's number and the flag. -/
structure SecCache where
  bytes : Buf
  lba : Nat
  valid : Bool

/-- A partition of a disk that serves all its blocks, as a byte range. -/
structure NtfsRange where
  disk : Disk
  off : Nat
  sz : Nat
  pos : 0 < disk.blockSize
  small : disk.blockSize ≤ 4096
  word : sz < 18446744073709551616
  inside : off + sz ≤ disk.blockCount * disk.blockSize
  words : off + sz ≤ 18446744073709551616
  serves : disk.ServesBelow disk.blockCount
  writable : disk.writable = true

namespace NtfsRange

variable (R : NtfsRange)

/-- The block size. -/
abbrev bs : Nat := R.disk.blockSize

/-- The slot of the partition, with a cache and a medium. -/
def dev (c : SecCache) (m : Media) : NtfsDev := ⟨⟨R.disk, R.off, R.sz, c.bytes, c.lba, c.valid, R.disk.writable⟩, m⟩

/-- The cache after its block was read. -/
def load (c : SecCache) (m : Media) (lba : Nat) : SecCache :=
  ⟨fun i => if i < R.bs then m lba i else c.bytes i, lba, true⟩

/-- The cache behind the test in `pread_inner`. -/
def fetch (c : SecCache) (m : Media) (lba : Nat) : SecCache := if c.lba ≠ lba then R.load c m lba else c

/-- The medium after blocks were written from a buffer. -/
def store (m : Media) (lba n : Nat) (buf : Buf) : Media := fun l o =>
  if lba ≤ l ∧ l < lba + n ∧ o < R.bs then buf ((l - lba) * R.bs + o) else m l o

/-- A valid cache has the bytes of its block. -/
def Coherent (c : SecCache) (m : Media) : Prop := c.valid = true → ∀ o < R.bs, c.bytes o = m c.lba o

/-- The first part of a block that a read of `r` bytes from address `a` on does not move as a whole. -/
def firstPart (a r : Nat) : Option (Nat × Nat) :=
  if r = 0 then none
  else if a % R.bs ≠ 0 ∨ r < R.bs then some (a, min (R.bs - a % R.bs) r)
  else if r % R.bs ≠ 0 then some (a + r / R.bs * R.bs, r % R.bs)
  else none

/-- What a read of `r` bytes from address `a` on sees: the disk, but for a cached first part. -/
def seen (c : SecCache) (m : Media) (a r : Nat) : Buf := fun x =>
  match R.firstPart a r with
  | some (b, len) => if c.lba = b / R.bs ∧ b ≤ x ∧ x < b + len then c.bytes (x % R.bs) else flat R.bs m x
  | none => flat R.bs m x

variable {R} {c : SecCache} {m : Media} {fuel count offset : Nat} {out : Bytes}

@[simp] theorem dev_disk : (R.dev c m).priv.disk = R.disk := rfl

@[simp] theorem dev_byteOffset : (R.dev c m).priv.byteOffset = R.off := rfl

@[simp] theorem dev_byteSize : (R.dev c m).priv.byteSize = R.sz := rfl

@[simp] theorem dev_secCache : (R.dev c m).priv.secCache = c.bytes := rfl

@[simp] theorem dev_cacheLba : (R.dev c m).priv.cacheLba = c.lba := rfl

variable {lba i : Nat}

theorem load_in (inside : i < R.bs) : (R.load c m lba).bytes i = m lba i := if_pos inside

theorem load_out (outside : ¬ i < R.bs) : (R.load c m lba).bytes i = c.bytes i := if_neg outside

theorem coherent_load (m : Media) (lba : Nat) : R.Coherent (R.load c m lba) m :=
  fun _ _ inside => load_in inside

theorem Coherent.fetch (coherent : R.Coherent c m) (lba : Nat) : R.Coherent (R.fetch c m lba) m := by
  unfold NtfsRange.fetch
  split
  · exact coherent_load m lba
  · exact coherent

theorem lba_fetch (c : SecCache) (m : Media) (lba : Nat) : (R.fetch c m lba).lba = lba := by
  unfold fetch
  split
  · rfl
  · next same => exact not_not.1 same

/-! ## The driver's calls -/

variable {r a : Nat}

/-- A stretch in the partition lies on the disk. -/
theorem lba_lt (ends : a + r ≤ R.off + R.sz) (some_ : 0 < r) : a / R.bs < R.disk.blockCount :=
  (Nat.div_lt_iff_lt_mul R.pos).2 (by have := R.inside; omega)

theorem run_read {n : Nat} (inside : lba + n ≤ R.disk.blockCount) :
    (NtfsDev.onDisk (R.disk.read lba n)).run fuel (R.dev c m) =
      .ok (fun i => if i < n * R.bs then flat R.bs m (lba * R.bs + i) else R.disk.leftover i) (R.dev c m) := by
  have served : (NtfsDev.onDisk (R.disk.read lba n)).run fuel (R.dev c m) = _ :=
    run_focus_ok _ _ (Disk.run_read R.serves inside fuel m)
  rw [served]
  congr 1
  funext i
  rw [flat, Nat.mul_comm lba, mul_add_div R.pos, mul_add_mod]

theorem run_write {n : Nat} (inside : lba + n ≤ R.disk.blockCount) (buf : Buf) :
    (NtfsDev.onDisk (R.disk.write lba n buf)).run fuel (R.dev c m) = .ok () (R.dev c (R.store m lba n buf)) :=
  run_focus_ok media _ (Disk.run_write R.serves inside buf fuel m)

/-- A block read into the cache; its number is not set yet. -/
theorem run_readCache (inside : lba < R.disk.blockCount) :
    (readCache lba).run fuel (R.dev c m) = .ok () (R.dev ⟨(R.load c m lba).bytes, c.lba, c.valid⟩ m) := by
  have served : (NtfsDev.onDisk (R.disk.read lba 1)).run fuel (R.dev c m) = _ := run_read inside
  rw [readCache, run_bind_ok (run_get _ _), dev_disk, run_bind_ok served, run_modify]
  have block : (fun i => if i < R.bs then
      (if i < 1 * R.bs then flat R.bs m (lba * R.bs + i) else R.disk.leftover i) else c.bytes i) =
      (R.load c m lba).bytes := by
    funext i
    by_cases within : i < R.bs
    · rw [load_in within, if_pos within, if_pos (by omega), flat_block m within]
    · rw [load_out within, if_neg within]
  rw [← block]
  rfl

/-! ## Turns

Both loops move `chunk` bytes a turn: whole blocks, or a part of one. -/

theorem request_pos {blocks : Nat} (some_ : 0 < blocks) (word : blocks < 4294967296) : 0 < request blocks := by
  unfold request
  rw [u32_of_lt word]
  split <;> omega

theorem request_le (blocks : Nat) : request blocks ≤ blocks := by
  unfold request u32
  split <;> omega

/-- A request for 2^32 blocks or more leaves at least as many. -/
theorem request_stuck {blocks : Nat} (many : 4294967296 ≤ blocks) : 4294967296 ≤ blocks - request blocks := by
  unfold request u32
  split <;> omega

/-- The bytes that a turn moves, of `r` that are left from address `a` on. -/
def chunk (R : NtfsRange) (a r : Nat) : Nat :=
  if a % R.bs = 0 ∧ R.bs ≤ r then NtfsDev.request (r / R.bs) * R.bs else min (R.bs - a % R.bs) r

theorem chunk_le (a r : Nat) : R.chunk a r ≤ r := by
  unfold chunk
  split
  · next whole => exact (walk_blocks whole.1 (request_le _)).1
  · exact Nat.min_le_right _ _

theorem chunk_pos (some_ : 0 < r) (blocks : wholeBlocks R.bs a r < 4294967296) : 0 < R.chunk a r := by
  have pos : 0 < R.bs := R.pos
  have inBlock := mod_lt a pos
  unfold chunk
  split
  · next whole =>
    rw [wholeBlocks_of_aligned whole.1] at blocks
    exact Nat.mul_pos (request_pos (Nat.div_pos whole.2 pos) blocks) pos
  · omega

/-- A turn leaves 2^32 whole blocks or more exactly if there were as many. -/
theorem many_chunk_iff : 4294967296 ≤ wholeBlocks R.bs (a + R.chunk a r) (r - R.chunk a r) ↔
    4294967296 ≤ wholeBlocks R.bs a r := by
  unfold chunk
  split
  · next whole =>
    obtain ⟨-, aligned, blocks, -⟩ := walk_blocks (r := r) whole.1 (request_le (r / R.bs))
    rw [wholeBlocks_of_aligned aligned, blocks, wholeBlocks_of_aligned whole.1]
    exact ⟨fun many => by omega, request_stuck⟩
  · next part => rw [wholeBlocks_part R.pos part]

variable {k : Nat}

/-- Whole blocks of a stretch in the partition lie on the disk. -/
theorem blocks_inside (ends : a + r ≤ R.off + R.sz) (aligned : a % R.bs = 0) (fits : k ≤ r / R.bs) :
    a / R.bs + k ≤ R.disk.blockCount := by
  have inside : R.off + R.sz ≤ R.disk.blockCount * R.bs := R.inside
  have blocks := (walk_blocks aligned fits).1
  have start := Nat.div_mul_cancel (dvd_of_mod_eq_zero aligned)
  have reach : (a / R.bs + k) * R.bs ≤ R.disk.blockCount * R.bs := by
    rw [Nat.add_mul]
    omega
  exact Nat.le_of_mul_le_mul_right reach R.pos

/-- The addresses of a turn: no word wraps, and the offset in the block is the remainder. -/
theorem turn_address {done : Nat} (address : R.off + offset + done = a) (left : count - done = r) (some_ : 0 < r)
    (legal : offset + count ≤ R.sz) : done < count ∧ u64 a = a ∧ a - a / R.bs * R.bs = a % R.bs ∧ a + r ≤ R.off + R.sz := by
  have := R.words
  refine ⟨by omega, mod_eq_of_lt (by omega), ?_, by omega⟩
  rw [Nat.mul_comm, ← mod_eq_sub_mul_div]

/-! ## A read -/

/-! ### What a read sees -/

variable {b : Nat}

theorem mod_add_block (inside : b % R.bs + i < R.bs) : (b + i) % R.bs = b % R.bs + i := by
  rw [add_mod, mod_eq_of_lt (by omega : i < R.bs), mod_eq_of_lt inside]

theorem firstPart_ge {len : Nat} (first : R.firstPart a r = some (b, len)) : a ≤ b := by
  unfold firstPart at first
  split_ifs at first <;> cases first <;> omega

/-- Whole blocks later the first part is the same. -/
theorem firstPart_blocks (aligned : a % R.bs = 0) (room : R.bs ≤ r) (fits : k ≤ r / R.bs) :
    R.firstPart (a + k * R.bs) (r - k * R.bs) = R.firstPart a r := by
  have pos : 0 < R.bs := R.pos
  obtain ⟨inside, aligned', blocks, rest⟩ := walk_blocks (r := r) (a := a) aligned fits
  unfold firstPart
  rw [aligned', blocks, rest, aligned, if_neg (by omega : r ≠ 0), if_neg (by omega : ¬ (0 ≠ 0 ∨ r < R.bs))]
  have whole := div_add_mod' r R.bs
  have tail := mod_lt r pos
  by_cases done : r - k * R.bs = 0
  · have none_left : r % R.bs = 0 := by rw [← rest, done, zero_mod]
    rw [if_pos done, none_left, if_neg (by omega)]
  by_cases last : r - k * R.bs < R.bs
  · have all : r / R.bs = k := by
      have := div_eq_of_lt last
      omega
    have left : r - k * R.bs = r % R.bs := by rw [← rest, mod_eq_of_lt last]
    rw [if_neg done, if_pos (.inr last), all, left, if_pos (by omega), Nat.sub_zero, Nat.min_eq_right (Nat.le_of_lt tail)]
  · have same : a + k * R.bs + (r / R.bs - k) * R.bs = a + r / R.bs * R.bs := by
      rw [Nat.add_assoc, ← Nat.add_mul, Nat.add_sub_cancel' fits]
    rw [if_neg done, if_neg (by omega), same]

theorem seen_blocks (aligned : a % R.bs = 0) (room : R.bs ≤ r) (fits : k ≤ r / R.bs) :
    R.seen c m (a + k * R.bs) (r - k * R.bs) = R.seen c m a r ∧
      bytesAt (R.seen c m a r) a (k * R.bs) = bytesAt (flat R.bs m) a (k * R.bs) := by
  refine ⟨by unfold seen; rw [firstPart_blocks aligned room fits], bytesAt_congr fun i within => ?_⟩
  unfold seen
  cases first : R.firstPart a r with
  | none => rfl
  | some part =>
    have behind := firstPart_ge ((firstPart_blocks aligned room fits).trans first)
    exact if_neg (by omega)

/-- The first part of a stretch that starts with one. -/
theorem firstPart_part (some_ : 0 < r) (part : ¬ (a % R.bs = 0 ∧ R.bs ≤ r)) :
    R.firstPart a r = some (a, min (R.bs - a % R.bs) r) := by
  unfold firstPart
  rw [if_neg (by omega), if_pos (by omega)]

/-- A part read through the cache is what the read sees of it. -/
theorem seen_part (some_ : 0 < r) (part : ¬ (a % R.bs = 0 ∧ R.bs ≤ r)) :
    bytesAt (R.fetch c m (a / R.bs)).bytes (a % R.bs) (min (R.bs - a % R.bs) r) =
      bytesAt (R.seen c m a r) a (min (R.bs - a % R.bs) r) := by
  refine bytesAt_congr fun i within => ?_
  have inside : a % R.bs + i < R.bs := by omega
  simp only [seen, firstPart_part some_ part]
  by_cases hit : c.lba = a / R.bs
  · rw [if_pos ⟨hit, by omega, by omega⟩, mod_add_block inside, fetch, if_neg (not_not.2 hit)]
  · rw [if_neg fun h => hit h.1, fetch, if_pos hit, load_in inside, flat_add m inside]

/-- Behind its first part the read sees the disk, whatever the cache then holds of that part's block. -/
theorem seen_behind {c' : SecCache} (some_ : 0 < r) (part : ¬ (a % R.bs = 0 ∧ R.bs ≤ r)) (cached : c'.lba = a / R.bs) :
    bytesAt (R.seen c' m (a + min (R.bs - a % R.bs) r) (r - min (R.bs - a % R.bs) r))
        (a + min (R.bs - a % R.bs) r) (r - min (R.bs - a % R.bs) r) =
      bytesAt (R.seen c m a r) (a + min (R.bs - a % R.bs) r) (r - min (R.bs - a % R.bs) r) := by
  refine bytesAt_congr fun i within => ?_
  have head : min (R.bs - a % R.bs) r = R.bs - a % R.bs := by omega
  have pos : 0 < R.bs := R.pos
  obtain ⟨-, next⟩ := walk_head pos a
  have whole : R.seen c m a r (a + min (R.bs - a % R.bs) r + i) = flat R.bs m (a + min (R.bs - a % R.bs) r + i) := by
    simp only [seen, firstPart_part some_ part]
    exact if_neg (by omega)
  rw [whole]
  simp only [seen]
  cases first : R.firstPart (a + min (R.bs - a % R.bs) r) (r - min (R.bs - a % R.bs) r) with
  | none => rfl
  | some p =>
    have later := Nat.div_le_div_right (c := R.bs) (firstPart_ge first)
    rw [head, next] at later
    exact if_neg (by omega)

/-- A turn of `pread_inner`: it copies what it sees, and the turns behind it see the same. -/
theorem run_preadTurn (address : R.off + offset + out.length = a) (left : count - out.length = r)
    (some_ : 0 < r) (legal : offset + count ≤ R.sz) (coherent : R.Coherent c m) : ∃ c', R.Coherent c' m ∧
    bytesAt (R.seen c' m (a + R.chunk a r) (r - R.chunk a r)) (a + R.chunk a r) (r - R.chunk a r) =
      bytesAt (R.seen c m a r) (a + R.chunk a r) (r - R.chunk a r) ∧
    ∀ fuel, (preadTurn count offset out).run fuel (R.dev c m) =
      .ok (.inl (out ++ bytesAt (R.seen c m a r) a (R.chunk a r))) (R.dev c' m) := by
  obtain ⟨more, whole, remainder, ends⟩ := turn_address address left some_ legal
  by_cases part : a % R.bs = 0 ∧ R.bs ≤ r
  · obtain ⟨aligned, room⟩ := part
    have moved : R.chunk a r = request (r / R.bs) * R.bs := if_pos ⟨aligned, room⟩
    have fits := request_le (r / R.bs)
    obtain ⟨same, copied⟩ := seen_blocks (c := c) (m := m) aligned room fits
    rw [moved, copied]
    refine ⟨c, coherent, by rw [same], fun fuel => ?_⟩
    have served : (NtfsDev.onDisk (R.disk.read (a / R.bs) (request (r / R.bs)))).run fuel (R.dev c m) = _ :=
      run_read (blocks_inside ends aligned fits)
    simp only [preadTurn, run_bind_ok (run_get _ _), dev_disk, dev_byteOffset, more, if_true, address, whole,
      left, remainder, aligned, room, true_and, run_bind_ok served, run_pure]
    congr 3
    refine bytesAt_congr fun i within => ?_
    rw [Nat.zero_add, if_pos within, Nat.div_mul_cancel (dvd_of_mod_eq_zero aligned)]
  · have moved : R.chunk a r = min (R.bs - a % R.bs) r := if_neg part
    rw [moved, ← seen_part some_ part]
    refine ⟨R.fetch c m (a / R.bs), coherent.fetch _, seen_behind some_ part (lba_fetch c m _), fun fuel => ?_⟩
    simp only [preadTurn, run_bind_ok (run_get _ _), dev_disk, dev_byteOffset, dev_cacheLba, more,
      if_true, address, whole, left, remainder, part, if_false]
    by_cases miss : c.lba ≠ a / R.bs
    · have loaded : (readCache (a / R.bs)).run fuel (R.dev c m) = _ := run_readCache (lba_lt ends some_)
      rw [if_pos miss, fetch, if_pos miss]
      simp only [run_bind, loaded]
      rfl
    · rw [if_neg miss, fetch, if_neg miss]
      rfl

/-- **What the loop of `pread_inner` copies**: the bytes it sees. It takes a turn for every byte at most. -/
theorem run_preadLoop (legal : offset + count ≤ R.sz) : ∀ (r : Nat) (out : Bytes) (c : SecCache),
    out.length + r = count → R.Coherent c m → wholeBlocks R.bs (R.off + offset + out.length) r < 4294967296 →
    ∃ c', R.Coherent c' m ∧ ∀ n fuel, r < n → (loopN (preadTurn count offset) n out).run fuel (R.dev c m) =
        .ok (out ++ bytesAt (R.seen c m (R.off + offset + out.length) r) (R.off + offset + out.length) r)
          (R.dev c' m) := by
  intro r
  induction r using Nat.strong_induction_on with
  | _ r ih =>
    intro out c total coherent blocks
    by_cases done : r = 0
    · subst done
      refine ⟨c, coherent, fun n fuel enough => ?_⟩
      obtain ⟨n, rfl⟩ := Nat.exists_eq_add_of_lt enough
      have stop : ¬ out.length < count := by omega
      have exits : (preadTurn count offset out).run fuel (R.dev c m) = .ok (.inr out) (R.dev c m) := by
        simp only [preadTurn, run_bind_ok (run_get _ _), stop, if_false, run_pure]
      rw [Nat.zero_add, run_loopN_exit exits]
      simp [bytesAt]
    have some_ : 0 < r := Nat.pos_of_ne_zero done
    obtain ⟨a, address⟩ : ∃ a, R.off + offset + out.length = a := ⟨_, rfl⟩
    rw [address] at blocks ⊢
    obtain ⟨c₁, coherent₁, behind, turn⟩ := run_preadTurn address (by omega) some_ legal coherent
    have moved := chunk_pos some_ blocks
    have within := chunk_le (R := R) a r
    have length : (out ++ bytesAt (R.seen c m a r) a (R.chunk a r)).length = out.length + R.chunk a r := by
      rw [length_append, length_bytesAt]
    obtain ⟨c', coherent', runs⟩ := ih (r - R.chunk a r) (by omega) _ c₁ (by rw [length]; omega) coherent₁ (by
      rw [length, ← Nat.add_assoc, address]
      exact Nat.lt_of_not_le fun many => Nat.not_le.2 blocks (many_chunk_iff.1 many))
    refine ⟨c', coherent', fun n fuel enough => ?_⟩
    obtain ⟨n, rfl⟩ := Nat.exists_eq_add_of_lt enough
    rw [run_loopN_next (turn fuel), runs _ fuel (by omega), length, ← Nat.add_assoc, address, behind,
      append_assoc, ← bytesAt_add, Nat.add_sub_cancel' within]

theorem wholeBlocks_pos (many : 4294967296 ≤ wholeBlocks R.bs a r) : 0 < r := by
  by_contra none_
  rw [wholeBlocks, le_zero.1 (not_lt.1 none_), Nat.zero_sub, Nat.zero_div] at many
  omega

/-- **A read of 2^32 whole blocks or more never ends.** -/
theorem run_preadLoop_spin (legal : offset + count ≤ R.sz) (coherent : R.Coherent c m) (n : Nat)
    (many : 4294967296 ≤ wholeBlocks R.bs (R.off + offset) count) :
    (loopN (preadTurn count offset) n []).run fuel (R.dev c m) = .spin := by
  refine run_loopN_spin (P := fun out s => (∃ c, R.Coherent c m ∧ s = R.dev c m) ∧
    4294967296 ≤ wholeBlocks R.bs (R.off + offset + out.length) (count - out.length)) ?_ n [] _ ⟨⟨c, coherent, rfl⟩, many⟩
  rintro out _ ⟨⟨c, coherent, rfl⟩, many⟩
  obtain ⟨c₁, coherent₁, -, turn⟩ := run_preadTurn rfl rfl (wholeBlocks_pos many) legal coherent
  refine ⟨_, _, turn fuel, ⟨c₁, coherent₁, rfl⟩, ?_⟩
  rw [length_append, length_bytesAt, ← Nat.add_assoc, ← Nat.sub_sub]
  exact many_chunk_iff.2 many

/-- A read finds the bytes of the disk in an invalidated cache, if it looks there. -/
def Fresh (R : NtfsRange) (c : SecCache) (m : Media) (a r : Nat) : Prop :=
  ∀ b len, R.firstPart a r = some (b, len) → c.lba = b / R.bs → c.valid = false →
    bytesAt c.bytes (b % R.bs) len = bytesAt (flat R.bs m) b len

/-- A first part lies in the stretch and in its block. -/
theorem firstPart_inside {len : Nat} (first : R.firstPart a r = some (b, len)) :
    a ≤ b ∧ b + len ≤ a + r ∧ b % R.bs + len ≤ R.bs := by
  have pos : 0 < R.bs := R.pos
  have inBlock := mod_lt a pos
  have whole := div_add_mod' r R.bs
  have tail := mod_lt r pos
  unfold firstPart at first
  split_ifs at first with none_ start rest
  · cases first
    omega
  · cases first
    have aligned : a % R.bs = 0 := by omega
    rw [add_mul_mod_self_right, aligned]
    omega

/-- **A read sees the disk exactly when the cache is fresh.** -/
theorem seen_eq_iff (coherent : R.Coherent c m) :
    bytesAt (R.seen c m a r) a r = bytesAt (flat R.bs m) a r ↔ R.Fresh c m a r := by
  constructor
  · intro same b len first hit invalid
    obtain ⟨low, high, inBlock⟩ := firstPart_inside first
    refine bytesAt_congr fun i within => ?_
    have at_i := congrArg (·[b - a + i]?) same
    simp only [getElem?_bytesAt _ _ (by omega : b - a + i < r), Option.some.injEq] at at_i
    rw [show a + (b - a + i) = b + i by omega] at at_i
    rw [← at_i]
    simp only [seen, first]
    rw [if_pos ⟨hit, by omega, by omega⟩, mod_add_block (by omega)]
  · intro fresh
    refine bytesAt_congr fun i within => ?_
    unfold seen
    cases first : R.firstPart a r with
    | none => rfl
    | some p =>
      obtain ⟨b, len⟩ := p
      show (if c.lba = b / R.bs ∧ b ≤ a + i ∧ a + i < b + len then _ else _) = _
      split
      · next here =>
        obtain ⟨hit, low, high⟩ := here
        obtain ⟨-, -, inBlock⟩ := firstPart_inside first
        have there : a + i = b + (a + i - b) := by omega
        rw [there, mod_add_block (by omega)]
        by_cases valid : c.valid = true
        · rw [coherent valid _ (by omega), hit, flat_add m (by omega)]
        · have at_i := congrArg (·[a + i - b]?) (fresh b len first hit (by simpa using valid))
          simpa only [getElem?_bytesAt _ _ (by omega : a + i - b < len), Option.some.injEq] using at_i
      · rfl

/-! ## A write -/

section Write

variable {src : Bytes} {done a r : Nat} (address : R.off + offset + done = a) (left : src.length - done = r)
  (some_ : 0 < r) (legal : offset + src.length ≤ R.sz)
include address left some_ legal

/-- A turn that moves whole blocks: the disk has them, and a cached one of them is marked invalid. -/
theorem run_pwriteTurn_blocks (coherent : R.Coherent c m) (aligned : a % R.bs = 0) (room : R.bs ≤ r) :
    ∃ c' m', R.Coherent c' m' ∧
    flat R.bs m' = putBytes (flat R.bs m) a ((src.drop done).take (request (r / R.bs) * R.bs)) ∧
    ∀ fuel, (pwriteTurn src offset done).run fuel (R.dev c m) =
      .ok (.inl (done + request (r / R.bs) * R.bs)) (R.dev c' m') := by
  obtain ⟨more, whole, remainder, ends⟩ := turn_address address left some_ legal
  have pos : 0 < R.bs := R.pos
  have fits := request_le (r / R.bs)
  obtain ⟨inside, -, -, -⟩ := walk_blocks (r := r) aligned fits
  have onDisk := blocks_inside ends aligned fits
  have start := Nat.div_mul_cancel (dvd_of_mod_eq_zero aligned)
  generalize count_k : request (r / R.bs) = k at *
  generalize at_lba : a / R.bs = lba at *
  refine ⟨⟨c.bytes, c.lba, if lba ≤ c.lba ∧ c.lba < lba + k then false else c.valid⟩,
    R.store m lba k fun i => (src.drop done).getD i 0, fun valid o within => ?_, ?_, fun fuel => ?_⟩
  · -- a block that is still valid was not written
    show c.bytes o = if lba ≤ c.lba ∧ c.lba < lba + k ∧ o < R.bs then _ else m c.lba o
    split at valid
    · cases valid
    · rw [if_neg (by omega)]
      exact coherent valid o within
  · funext x
    have length : ((src.drop done).take (k * R.bs)).length = k * R.bs := by
      rw [length_take, length_drop]
      omega
    unfold store
    rw [flat_write pos m lba k (fun i => (src.drop done).getD i 0), putBytes, length, Nat.add_mul, start]
    split
    · rw [getD_take _ (by omega)]
    · rfl
  · have written : (NtfsDev.onDisk (R.disk.write lba k fun i => (src.drop done).getD i 0)).run fuel (R.dev c m) = _ :=
      run_write onDisk _
    simp only [pwriteTurn, run_bind_ok (run_get _ _), dev_disk, dev_byteOffset, more, if_true, address, whole,
      left, at_lba, remainder, aligned, room, true_and, count_k, run_bind_ok written]
    rfl

/-- A turn that writes a part of a block through the cache. -/
theorem run_pwriteTurn_part (part : ¬ (a % R.bs = 0 ∧ R.bs ≤ r)) : ∃ c' m', R.Coherent c' m' ∧
    flat R.bs m' = putBytes (flat R.bs m) a ((src.drop done).take (min (R.bs - a % R.bs) r)) ∧
    ∀ fuel, (pwriteTurn src offset done).run fuel (R.dev c m) =
      .ok (.inl (done + min (R.bs - a % R.bs) r)) (R.dev c' m') := by
  obtain ⟨more, whole, remainder, ends⟩ := turn_address address left some_ legal
  have pos : 0 < R.bs := R.pos
  have inBlock := mod_lt a pos
  have start := div_add_mod' a R.bs
  have onDisk := lba_lt ends some_
  generalize at_lba : a / R.bs = lba at *
  generalize at_in : a % R.bs = inLba at *
  generalize taken : min (R.bs - inLba) r = len at *
  have length : ((src.drop done).take len).length = len := by
    rw [length_take, length_drop]
    omega
  generalize cached : putBytes (R.load c m lba).bytes inLba ((src.drop done).take len) = bytes at *
  refine ⟨⟨bytes, lba, true⟩, R.store m lba 1 bytes, fun _ o within => ?_, ?_, fun fuel => ?_⟩
  · show _ = if lba ≤ lba ∧ lba < lba + 1 ∧ o < R.bs then bytes ((lba - lba) * R.bs + o) else _
    rw [if_pos ⟨by omega, by omega, within⟩, Nat.sub_self, Nat.zero_mul, Nat.zero_add]
  · funext x
    unfold store
    rw [flat_write pos m lba 1 bytes, Nat.add_mul, Nat.one_mul]
    by_cases block : lba * R.bs ≤ x ∧ x < lba * R.bs + R.bs
    · -- inside the block the cache has the disk's bytes with the new ones over them
      rw [if_pos block, ← cached, putBytes, putBytes, length]
      by_cases written : a ≤ x ∧ x < a + len
      · rw [if_pos written, if_pos (by omega), show x - lba * R.bs - inLba = x - a by omega]
      · have here : x = lba * R.bs + (x - lba * R.bs) := by omega
        rw [if_neg written, if_neg (by omega), load_in (by omega)]
        conv_rhs => rw [here]
        rw [flat_block m (by omega)]
    · rw [if_neg block, putBytes_of_out _ _ (by omega)]
  · have loaded : (readCache lba).run fuel (R.dev c m) = _ := run_readCache onDisk
    have written : (NtfsDev.onDisk (R.disk.write lba 1 bytes)).run fuel (R.dev ⟨bytes, c.lba, c.valid⟩ m) = _ :=
      run_write onDisk _
    rw [← cached] at written ⊢
    simp only [pwriteTurn, run_bind_ok (run_get _ _), dev_disk, dev_byteOffset, more, if_true, address, whole,
      left, at_lba, remainder, part, if_false, run_bind_ok loaded, taken]
    exact (run_bind_ok written _).trans rfl

theorem run_pwriteTurn (coherent : R.Coherent c m) : ∃ c' m', R.Coherent c' m' ∧
    flat R.bs m' = putBytes (flat R.bs m) a ((src.drop done).take (R.chunk a r)) ∧
    ∀ fuel, (pwriteTurn src offset done).run fuel (R.dev c m) =
      .ok (.inl (done + R.chunk a r)) (R.dev c' m') := by
  unfold chunk
  split
  · next whole => exact run_pwriteTurn_blocks address left some_ legal coherent whole.1 whole.2
  · next part => exact run_pwriteTurn_part address left some_ legal part

end Write

variable {src : Bytes}

/-- **What the loop of `pwrite_inner` leaves**: the rest of the bytes on the disk, and a coherent cache. -/
theorem run_pwriteLoop (legal : offset + src.length ≤ R.sz) :
    ∀ (r done : Nat) (c : SecCache) (m : Media), done + r = src.length → R.Coherent c m →
    wholeBlocks R.bs (R.off + offset + done) r < 4294967296 →
    ∃ c' m', R.Coherent c' m' ∧ flat R.bs m' = putBytes (flat R.bs m) (R.off + offset + done) (src.drop done) ∧
      ∀ n fuel, r < n → (loopN (pwriteTurn src offset) n done).run fuel (R.dev c m) =
        .ok src.length (R.dev c' m') := by
  intro r
  induction r using Nat.strong_induction_on with
  | _ r ih =>
    intro done c m total coherent blocks
    by_cases ended : r = 0
    · refine ⟨c, m, coherent, ?_, fun n fuel enough => ?_⟩
      · rw [drop_of_length_le (by omega), putBytes_nil]
      · obtain ⟨n, rfl⟩ := Nat.exists_eq_add_of_lt enough
        have stop : ¬ done < src.length := by omega
        have exits : (pwriteTurn src offset done).run fuel (R.dev c m) = .ok (.inr done) (R.dev c m) := by
          simp only [pwriteTurn, run_bind_ok (run_get _ _), stop, if_false, run_pure]
        rw [run_loopN_exit exits]
        congr 1
        omega
    have some_ : 0 < r := Nat.pos_of_ne_zero ended
    obtain ⟨a, address⟩ : ∃ a, R.off + offset + done = a := ⟨_, rfl⟩
    rw [address] at blocks ⊢
    obtain ⟨c₁, m₁, coherent₁, written, turn⟩ := run_pwriteTurn address (by omega) some_ legal coherent
    have moved := chunk_pos some_ blocks
    have within := chunk_le (R := R) a r
    obtain ⟨c', m', coherent', content, runs⟩ := ih (r - R.chunk a r) (by omega) (done + R.chunk a r) c₁ m₁ (by omega)
      coherent₁ (by
        rw [← Nat.add_assoc, address]
        exact Nat.lt_of_not_le fun many => Nat.not_le.2 blocks (many_chunk_iff.1 many))
    refine ⟨c', m', coherent', ?_, fun n fuel enough => ?_⟩
    · have length : ((src.drop done).take (R.chunk a r)).length = R.chunk a r := by
        rw [length_take, length_drop]
        omega
      have glued := putBytes_putBytes (flat R.bs m) a ((src.drop done).take (R.chunk a r)) (src.drop (done + R.chunk a r))
      rw [length, ← drop_drop, take_append_drop] at glued
      rw [content, written, ← Nat.add_assoc, address, ← drop_drop, glued]
    · obtain ⟨n, rfl⟩ := Nat.exists_eq_add_of_lt enough
      rw [run_loopN_next (turn fuel), runs _ fuel (by omega)]

/-- **A write of 2^32 whole blocks or more never ends.** -/
theorem run_pwriteLoop_spin (legal : offset + src.length ≤ R.sz) (coherent : R.Coherent c m) (n : Nat)
    (many : 4294967296 ≤ wholeBlocks R.bs (R.off + offset) src.length) :
    (loopN (pwriteTurn src offset) n 0).run fuel (R.dev c m) = .spin := by
  refine run_loopN_spin (P := fun done s => (∃ c m, R.Coherent c m ∧ s = R.dev c m) ∧
    4294967296 ≤ wholeBlocks R.bs (R.off + offset + done) (src.length - done)) ?_ n 0 _ ⟨⟨c, m, coherent, rfl⟩, many⟩
  rintro done _ ⟨⟨c, m, coherent, rfl⟩, many⟩
  obtain ⟨c₁, m₁, coherent₁, -, turn⟩ := run_pwriteTurn rfl rfl (wholeBlocks_pos many) legal coherent
  refine ⟨_, _, turn fuel, ⟨c₁, m₁, coherent₁, rfl⟩, ?_⟩
  rw [← Nat.add_assoc, ← Nat.sub_sub]
  exact many_chunk_iff.2 many

/-! ## The calls -/

/-- The casts of a call in range. -/
theorem castU64_range (legal : offset + count ≤ R.sz) :
    castU64 offset = offset ∧ castU64 ((offset : Int) + count) = offset + count := by
  have := R.word
  unfold castU64
  omega

/-- A read in range is its loop. -/
theorem run_preadInner (some_ : 0 < count) (legal : offset + count ≤ R.sz) :
    (preadInner count offset).run fuel (R.dev c m) =
      (do let out ← Prog.loop (preadTurn count offset) []
          pure ((out.length : Int), out)).run fuel (R.dev c m) := by
  obtain ⟨start, sum⟩ := castU64_range legal
  have before : ¬ castU64 offset ≥ (R.dev c m).priv.byteSize := by
    exact not_le.2 (by rw [dev_byteSize]; omega)
  have ends : ¬ castU64 ((offset : Int) + count) > (R.dev c m).priv.byteSize := by
    rw [sum]
    exact not_lt.2 legal
  rw [preadInner, run_bind_ok (run_get _ _), if_neg (by omega), if_neg (by omega), if_neg before,
    if_neg ends, start, Int.toNat_natCast]

/-- A write in range is its loop. -/
theorem run_pwriteInner (some_ : 0 < src.length) (legal : offset + src.length ≤ R.sz) :
    (pwriteInner src offset).run fuel (R.dev c m) =
      (do let done ← Prog.loop (pwriteTurn src offset) 0
          pure (done : Int)).run fuel (R.dev c m) := by
  obtain ⟨start, sum⟩ := castU64_range legal
  have writable : (R.dev c m).priv.writable = true := R.writable
  have ends : decide (castU64 ((offset : Int) + src.length) ≤ (R.dev c m).priv.byteSize) = true := by
    rw [sum]
    exact decide_eq_true legal
  rw [pwriteInner, run_bind_ok (run_get _ _), bind_require_true writable,
    if_neg (by omega), bind_require_true ends, start]

end NtfsRange

/-- A call on the device, with the bytes of a write. -/
inductive NtfsCall where
  | pread (count offset : Nat)
  | pwrite (src : List UInt8) (offset : Nat)

/-- The number of bytes of a call. -/
def NtfsCall.length : NtfsCall → Nat
  | .pread count _ => count
  | .pwrite src _ => src.length

/-- Where a call starts. -/
def NtfsCall.offset : NtfsCall → Nat
  | .pread _ offset => offset
  | .pwrite _ offset => offset

/-- The call, run for its value and the bytes it copied out. -/
def NtfsCall.run (call : NtfsCall) : Prog NtfsDev (Int × List UInt8) :=
  match call with
  | .pread count offset => NtfsDev.preadInner count offset
  | .pwrite src offset => do
    let n ← NtfsDev.pwriteInner src offset
    pure (n, [])

namespace NtfsRange

variable (R : NtfsRange) (fuel : Nat)

/-- What a call does to a byte array: the bytes it reads and the array it leaves. -/
def meant (content : Buf) : NtfsCall → List UInt8 × Buf
  | .pread count offset => (bytesAt content (R.off + offset) count, content)
  | .pwrite src offset => ([], putBytes content (R.off + offset) src)

/-- Every call of the sequence returns its length, reads what the array has and changes the array alike. -/
def Serves : NtfsDev → Buf → List NtfsCall → Prop
  | _, _, [] => True
  | s, content, call :: rest => ∃ s', call.run.run fuel s = .ok (call.length, (R.meant content call).1) s' ∧
      flat R.bs s'.media = (R.meant content call).2 ∧ Serves s' (R.meant content call).2 rest

/-- A call has fewer than 2^32 whole blocks, and a read finds no other bytes in an invalidated cache than the disk
has. -/
def Sound (s : NtfsDev) (call : NtfsCall) : Prop :=
  wholeBlocks R.bs (R.off + call.offset) call.length < 4294967296 ∧
    match call with
    | .pread count offset =>
      R.Fresh ⟨s.priv.secCache, s.priv.cacheLba, s.priv.cacheValid⟩ s.media (R.off + offset) count
    | .pwrite _ _ => True

/-- Every call of the sequence is sound where it is made. -/
def SoundRun : NtfsDev → List NtfsCall → Prop
  | _, [] => True
  | s, call :: rest => R.Sound s call ∧
    match call.run.run fuel s with
    | .ok _ s' => SoundRun s' rest
    | _ => True

/-- A call inside the partition, of at least one byte. -/
def Legal (call : NtfsCall) : Prop := 0 < call.length ∧ call.offset + call.length ≤ R.sz

variable {R fuel} {c : SecCache} {m : Media}

/-- **One call**: a sound one does what the byte array does and leaves the cache coherent, another one does not. -/
theorem call_serves_iff {call : NtfsCall} (legal : R.Legal call) (enough : call.length < fuel)
    (coherent : R.Coherent c m) :
    (R.Sound (R.dev c m) call → ∃ c' m', R.Coherent c' m' ∧ flat R.bs m' = (R.meant (flat R.bs m) call).2 ∧
      call.run.run fuel (R.dev c m) = .ok (call.length, (R.meant (flat R.bs m) call).1) (R.dev c' m')) ∧
    ∀ s', call.run.run fuel (R.dev c m) = .ok (call.length, (R.meant (flat R.bs m) call).1) s' →
      R.Sound (R.dev c m) call := by
  obtain ⟨some_, range⟩ := legal
  cases call with
  | pread count offset =>
    change offset + count ≤ R.sz at range
    have runs : (NtfsCall.pread count offset).run.run fuel (R.dev c m) = _ := run_preadInner some_ range
    by_cases blocks : wholeBlocks R.bs (R.off + offset) count < 4294967296
    · obtain ⟨c', coherent', loop⟩ := run_preadLoop (m := m) range count [] c (Nat.zero_add _) coherent blocks
      have read : (NtfsCall.pread count offset).run.run fuel (R.dev c m) =
          .ok ((count : Int), bytesAt (R.seen c m (R.off + offset) count) (R.off + offset) count) (R.dev c' m) := by
        rw [runs, run_bind_ok ((run_loop _ _ _ _).trans (loop fuel fuel enough)), run_pure,
          nil_append, length_bytesAt]
        rfl
      constructor
      · intro sound
        refine ⟨c', m, coherent', rfl, ?_⟩
        rw [read, (seen_eq_iff coherent).2 sound.2]
        rfl
      · intro s' answered
        rw [read] at answered
        injection answered with values
        exact ⟨blocks, (seen_eq_iff coherent).1 (Prod.mk.inj values).2⟩
    · refine ⟨fun sound => absurd sound.1 blocks, fun s' answered => ?_⟩
      rw [runs, run_bind, run_loop, run_preadLoop_spin range coherent fuel (not_lt.1 blocks)] at answered
      cases answered
  | pwrite src offset =>
    change offset + src.length ≤ R.sz at range
    have runs : (pwriteInner src offset).run fuel (R.dev c m) = _ := run_pwriteInner some_ range
    by_cases blocks : wholeBlocks R.bs (R.off + offset) src.length < 4294967296
    · obtain ⟨c', m', coherent', content, loop⟩ :=
        run_pwriteLoop range src.length 0 c m (Nat.zero_add _) coherent blocks
      refine ⟨fun _ => ⟨c', m', coherent', content, ?_⟩, fun _ _ => ⟨blocks, trivial⟩⟩
      rw [run_bind_ok ((run_loop _ _ _ _).trans (loop fuel fuel enough)), run_pure] at runs
      exact (run_bind_ok runs _).trans rfl
    · refine ⟨fun sound => absurd sound.1 blocks, fun s' answered => ?_⟩
      rw [run_bind, run_loop, run_pwriteLoop_spin range coherent fuel (not_lt.1 blocks)] at runs
      rw [NtfsCall.run, run_bind, runs] at answered
      cases answered

theorem serves_iff (calls : List NtfsCall) : ∀ (c : SecCache) (m : Media), R.Coherent c m →
    (∀ call ∈ calls, R.Legal call ∧ call.length < fuel) →
    (R.Serves fuel (R.dev c m) (flat R.bs m) calls ↔ R.SoundRun fuel (R.dev c m) calls) := by
  induction calls with
  | nil => exact fun _ _ _ _ => Iff.rfl
  | cons call rest ih =>
    intro c m coherent legal
    obtain ⟨⟨here, enough⟩, later⟩ := forall_mem_cons.1 legal
    obtain ⟨forth, back⟩ := call_serves_iff here enough coherent
    constructor
    · rintro ⟨s', answered, -, serves⟩
      have sound := back s' answered
      obtain ⟨c', m', coherent', content, again⟩ := forth sound
      cases answered.symm.trans again
      refine ⟨sound, ?_⟩
      rw [answered]
      rw [← content] at serves
      exact (ih c' m' coherent' later).1 serves
    · rintro ⟨sound, soundRest⟩
      obtain ⟨c', m', coherent', content, answered⟩ := forth sound
      rw [answered] at soundRest
      refine ⟨_, answered, content, ?_⟩
      rw [← content]
      exact (ih c' m' coherent' later).2 soundRest

end NtfsRange

/-- **The device is a byte array exactly when its cache is fresh.** For every disk with blocks of 1 to 4096 bytes,
every partition of it and every sequence of reads and writes in range: every call returns its length, every read
gives the bytes last written, and nothing else on the disk changes, if and only if every call has fewer than 2^32
whole blocks and no read finds other bytes in an invalidated cache than the disk has. -/
theorem bridge_serves_iff (R : NtfsRange) (m : Media) (calls : List NtfsCall) (fuel : Nat)
    (legal : ∀ call ∈ calls, R.Legal call ∧ call.length < fuel) :
    R.Serves fuel ⟨allocSlot R.disk R.off R.sz, m⟩ (flat R.bs m) calls ↔
      R.SoundRun fuel ⟨allocSlot R.disk R.off R.sz, m⟩ calls :=
  NtfsRange.serves_iff calls ⟨fun _ => 0, 18446744073709551615, false⟩ m nofun legal

/-- A partition of eight blocks of 512 bytes that starts in the middle of a block. -/
def smallRange : NtfsRange where
  disk := ⟨512, 16, true, fun _ _ => false, fun _ _ => false, fun _ => 0⟩
  off := 256
  sz := 4096
  pos := by decide
  small := by decide
  word := by decide
  inside := by decide
  words := by decide
  serves := ⟨fun _ _ _ => rfl, fun _ _ _ => rfl⟩
  writable := rfl

/-- A read across a block's end, and a write over three blocks. -/
theorem bridge_serves_iff_edges :
    (∀ call ∈ [NtfsCall.pread 3 255, .pwrite (List.replicate 1200 7) 100], smallRange.Legal call ∧ call.length < 2000) ∧
    smallRange.Serves 2000 ⟨allocSlot smallRange.disk 256 4096, fun _ _ => 0⟩ (flat 512 fun _ _ => 0)
      [.pread 3 255, .pwrite (List.replicate 1200 7) 100] := by
  have legal : ∀ call ∈ [NtfsCall.pread 3 255, .pwrite (replicate 1200 7) 100],
      smallRange.Legal call ∧ call.length < 2000 := by
    simp only [forall_mem_cons, NtfsRange.Legal, NtfsCall.length, NtfsCall.offset, length_replicate]
    decide
  refine ⟨legal, (bridge_serves_iff smallRange (fun _ _ => 0) _ 2000 legal).2 ⟨⟨by decide, ?_⟩, ?_⟩⟩
  · intro b len first hit
    have part : smallRange.firstPart 511 3 = some (511, 1) := by decide
    cases first.symm.trans part
    exact absurd hit (by decide)
  · have whole : wholeBlocks smallRange.bs (smallRange.off + 100) (replicate 1200 (7 : UInt8)).length < 4294967296 := by
      rw [length_replicate]
      decide
    split
    · refine ⟨⟨whole, trivial⟩, ?_⟩
      split <;> trivial
    · trivial

/-- A read of a byte of a block, a write of the whole block, and the read again. -/
def staleCalls : List NtfsCall := [.pread 1 256, .pwrite (List.replicate 512 7) 256, .pread 1 256]

/-- The second read gives the byte from before the write. -/
theorem bridge_reads_stale :
    ¬ smallRange.Serves 2000 ⟨allocSlot smallRange.disk 256 4096, fun _ _ => 0⟩ (flat 512 fun _ _ => 0) staleCalls := by
  rintro ⟨_, first, -, _, second, -, _, third, -⟩
  have all : (do
      let _ ← (NtfsCall.pread 1 256).run
      let _ ← (NtfsCall.pwrite (replicate 512 7) 256).run
      (NtfsCall.pread 1 256).run).run 2000 ⟨allocSlot smallRange.disk 256 4096, fun _ _ => 0⟩ = _ :=
    (run_bind_ok first _).trans ((run_bind_ok second _).trans third)
  have got : ((do
      let _ ← (NtfsCall.pread 1 256).run
      let _ ← (NtfsCall.pwrite (replicate 512 7) 256).run
      (NtfsCall.pread 1 256).run).run 2000 ⟨allocSlot smallRange.disk 256 4096, fun _ _ => 0⟩).value =
        some ((1 : Int), [(0 : UInt8)]) := by decide +kernel
  have meant : (smallRange.meant (smallRange.meant (smallRange.meant (flat 512 fun _ _ => 0) (.pread 1 256)).2
      (.pwrite (replicate 512 7) 256)).2 (.pread 1 256)).1 = [7] := by decide +kernel
  rw [all, Outcome.value, meant] at got
  exact absurd got (by decide)

end CanBoot.Cando
