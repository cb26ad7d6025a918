import CanBoot.Laws.Fat32.Alloc

/-!
# File data along a chain

The writers lay data out over a chain, one zero-padded cluster after another (`Vol.stored`), and the
readers copy a prefix of a chain's bytes (`run_readChain`). Reading what was stored gives it back
(`take_chainBytes_stored`).
-/

namespace CanBoot

open Lib Lib.Prog List

namespace Vol

/-- Data laid out over a list of clusters, zero-padded. -/
def stored (fs : Fat32) : Vol → List Nat → List UInt8 → Vol
  | v, [], _ => v
  | v, c :: cs, src =>
    stored fs (v.setData fs c (putBytes fs.zeroed 0 (src.take fs.bytesPerCluster))) cs
      (src.drop fs.bytesPerCluster)

/-- The bytes of a list of clusters. -/
def chainBytes (fs : Fat32) (v : Vol) (cs : List Nat) : List UInt8 :=
  cs.flatMap fun c => bytesAt (v.data c) 0 fs.bytesPerCluster

theorem fats_stored (fs : Fat32) : ∀ (cs : List Nat) (v : Vol) (src : Bytes), (v.stored fs cs src).fats = v.fats
  | [], _, _ => rfl
  | _ :: cs, _, _ => fats_stored fs cs _ _

theorem data_stored_of_not_mem (fs : Fat32) : ∀ {cs : List Nat} {x : Nat} (v : Vol)
    (src : Bytes), x ∉ cs → (v.stored fs cs src).data x = v.data x
  | [], _, _, _, _ => rfl
  | c :: cs, x, v, src, h => by
    rw [stored, data_stored_of_not_mem fs _ _ fun hx => h (mem_cons_of_mem _ hx)]
    exact data_setData_of_ne v fs _ fun heq => h (heq ▸ mem_cons_self)

theorem chainBytes_cons (fs : Fat32) (v : Vol) (c : Nat) (cs : List Nat) :
    v.chainBytes fs (c :: cs) = bytesAt (v.data c) 0 fs.bytesPerCluster ++ v.chainBytes fs cs := rfl

theorem chainBytes_congr {fs : Fat32} {v v' : Vol} {cs : List Nat}
    (h : ∀ c ∈ cs, v'.data c = v.data c) : v'.chainBytes fs cs = v.chainBytes fs cs :=
  flatMap_congr fun c hc => by rw [h c hc]

theorem length_chainBytes (fs : Fat32) (v : Vol) (cs : List Nat) :
    (v.chainBytes fs cs).length = cs.length * fs.bytesPerCluster := by
  induction cs with
  | nil => simp [chainBytes]
  | cons c cs ih =>
    rw [chainBytes_cons, length_append, length_bytesAt, ih, length_cons, Nat.add_mul,
      Nat.one_mul, Nat.add_comm]

/-- A cluster of data, as it was padded. -/
theorem take_bytesAt_padded (fs : Fat32) (v : Vol) (c : Nat) {src : Bytes} (h : src.length ≤ fs.bytesPerCluster) :
    (bytesAt ((v.setData fs c (putBytes fs.zeroed 0 src)).data c) 0 fs.bytesPerCluster).take src.length = src := by
  apply ext_getElem?
  intro i
  by_cases hi : i < src.length
  · rw [getElem?_take_of_lt hi, getElem?_bytesAt _ _ (by omega), data_setData, if_pos rfl,
      if_pos (by omega), putBytes_of_in _ _ hi, getD_eq_getElem?_getD,
      getElem?_eq_getElem hi, Option.getD_some]
  · rw [getElem?_eq_none (by simp; omega), getElem?_eq_none (by omega)]

/-- **What was stored reads back.** -/
theorem take_chainBytes_stored (fs : Fat32) : ∀ {cs : List Nat} (v : Vol) {src : Bytes},
    cs.Nodup → src.length ≤ cs.length * fs.bytesPerCluster →
    ((v.stored fs cs src).chainBytes fs cs).take src.length = src
  | [], v, src, _, h => by
    have : src = [] := length_eq_zero_iff.mp (by simpa using h)
    rw [this, length_nil, take_zero]
  | c :: cs, v, src, hn, h => by
    have fresh := (nodup_cons.mp hn).1
    rw [chainBytes_cons, stored, data_stored_of_not_mem fs _ _ fresh]
    by_cases short : src.length ≤ fs.bytesPerCluster
    · -- the data ends in this cluster
      rw [take_append_of_le_length (by rw [length_bytesAt]; exact short),
        take_of_length_le (i := fs.bytesPerCluster) short]
      exact take_bytesAt_padded fs v c short
    · have whole : (src.take fs.bytesPerCluster).length = fs.bytesPerCluster := by
        rw [length_take]
        omega
      have first := take_bytesAt_padded fs v c (Nat.le_of_eq whole)
      rw [whole, take_of_length_le (by rw [length_bytesAt])] at first
      have room : (src.drop fs.bytesPerCluster).length ≤ cs.length * fs.bytesPerCluster := by
        rw [length_cons, Nat.add_mul, Nat.one_mul] at h
        rw [length_drop]
        omega
      have rest := take_chainBytes_stored fs
        (v.setData fs c (putBytes fs.zeroed 0 (src.take fs.bytesPerCluster)))
        (nodup_cons.mp hn).2 room
      rw [take_append, first, whole]
      rw [length_drop] at rest
      rw [rest, take_of_length_le (by omega), take_append_drop]

end Vol

namespace Fat32

def storeAll (fs : Fat32) : Media → List Nat → List UInt8 → Media
  | m, [], _ => m
  | m, c :: cs, src =>
    storeAll fs (fs.putCluster m c (putBytes fs.zeroed 0 (src.take fs.bytesPerCluster))) cs
      (src.drop fs.bytesPerCluster)

variable {fs : Fat32} {m : Media} {c fuel : Nat} {cs : List Nat}

theorem run_writeData (g : fs.Geometry) : ∀ {cs : List Nat} {m : Media} (src : Bytes),
    (∀ x ∈ cs, fs.InRange x) → (fs.writeData cs src).run fuel m = .ok () (fs.storeAll m cs src)
  | [], _, _, _ => rfl
  | x :: xs, m, src, hr => by
    rw [writeData, run_bind_ok (run_writeCluster g (hr x mem_cons_self) _)]
    exact run_writeData g _ fun y hy => hr y (mem_cons_of_mem _ hy)

theorem view_storeAll (g : fs.Geometry) : ∀ {cs : List Nat} {m : Media} (src : Bytes),
    (∀ x ∈ cs, fs.InRange x) → fs.view (fs.storeAll m cs src) = (fs.view m).stored fs cs src
  | [], _, _, _ => rfl
  | x :: xs, m, src, hr => by
    rw [storeAll, view_storeAll g _ fun y hy => hr y (mem_cons_of_mem _ hy),
      view_putCluster g m _ (hr x mem_cons_self)]
    rfl

/-! ## Reading -/

/-- **A read along a chain copies its bytes in order**, as many as were asked for or as it has. -/
theorem run_readChain (g : fs.Geometry) (chain : IsChain isCluster (fs.view m).fat c cs)
    (range : ∀ x ∈ cs, fs.InRange x) {toRead : Nat}
    (word : toRead + fs.bytesPerCluster ≤ 4294967296) (buf : Buf) (enough : cs.length < fuel) :
    (fs.readChain c toRead buf).run fuel m = .ok (min toRead (cs.length * fs.bytesPerCluster),
        putBytes buf 0 (((fs.view m).chainBytes fs cs).take toRead)) m := by
  have pos : 0 < fs.bytesPerCluster := by
    have := g.bytesPerCluster
    have := g.spcPos
    omega
  have rounds : ∀ (cs : List Nat) (c n copied : Nat) (buf : Buf),
      IsChain isCluster (fs.view m).fat c cs → (∀ x ∈ cs, fs.InRange x) → copied ≤ toRead →
      cs.length < n →
      (Prog.loopN (fs.readTurn toRead) n (copied, c, buf)).run fuel m =
        .ok (copied + min (toRead - copied) (cs.length * fs.bytesPerCluster),
          putBytes buf copied (((fs.view m).chainBytes fs cs).take (toRead - copied))) m := by
    intro cs
    induction cs with
    | nil =>
      intro c n copied buf chain _ le enough
      rcases n with _ | k
      · simp at enough
      have dead : isCluster c = false := chain
      rw [Vol.chainBytes, flatMap_nil, take_nil, putBytes_nil, length_nil,
        Nat.zero_mul, Nat.min_zero, Nat.add_zero]
      apply run_loopN_exit
      rw [readTurn, if_neg (by simp [dead])]
      rfl
    | cons x xs ih =>
      intro c n copied buf chain range le enough
      rcases n with _ | k
      · simp at enough
      have hx : x = c := chain.1
      subst hx
      have hr := range x mem_cons_self
      by_cases done : copied = toRead
      · subst done
        rw [Nat.sub_self, take_zero, putBytes_nil, Nat.zero_min, Nat.add_zero]
        apply run_loopN_exit
        rw [readTurn, if_neg (by simp)]
        rfl
      · have small : u32 (copied + fs.bytesPerCluster) = copied + fs.bytesPerCluster :=
          u32_of_lt (by omega)
        -- the chunk is what is left, capped at a cluster
        obtain ⟨chunk, hchunk⟩ : ∃ k, k = min (toRead - copied) fs.bytesPerCluster := ⟨_, rfl⟩
        have pick : (if u32 (copied + fs.bytesPerCluster) > toRead then toRead - copied
            else fs.bytesPerCluster) = chunk := by
          rw [small]
          split <;> omega
        have round : (fs.readTurn toRead (copied, x, buf)).run fuel m = .ok (.inl (copied + chunk, (fs.view m).fat x,
              putBytes buf copied (bytesAt ((fs.view m).data x) 0 chunk))) m := by
          rw [readTurn, if_pos (by simp only [chain.2.1, Bool.and_true, decide_eq_true_eq]; omega)]
          rw [run_bind_ok (run_readCluster g hr)]
          simp only [pick]
          rw [run_bind_ok (run_readFatEntry g hr), run_pure, u32_of_lt (by omega)]
          have same : bytesAt (fs.clusterBuf m x) 0 chunk = bytesAt ((fs.view m).data x) 0 chunk :=
            bytesAt_congr fun i hi => clusterBuf_eq g hr (by omega)
          rw [same]
        rw [run_loopN_next round]
        rw [ih _ k (copied + chunk) _ chain.2.2 (fun y hy => range y (mem_cons_of_mem _ hy))
          (by omega) (by simp at enough; omega)]
        -- the two copies are one copy of the concatenation
        have joined := putBytes_putBytes buf copied (bytesAt ((fs.view m).data x) 0 chunk)
          (((fs.view m).chainBytes fs xs).take (toRead - (copied + chunk)))
        rw [length_bytesAt] at joined
        have front : (bytesAt ((fs.view m).data x) 0 fs.bytesPerCluster).take (toRead - copied) =
            bytesAt ((fs.view m).data x) 0 chunk := by
          rw [hchunk, bytesAt, bytesAt, ← map_take, take_range]
        have rest : toRead - copied - fs.bytesPerCluster = toRead - (copied + chunk) := by omega
        have count : copied + chunk + min (toRead - (copied + chunk))
              (xs.length * fs.bytesPerCluster) =
            copied + min (toRead - copied) ((x :: xs).length * fs.bytesPerCluster) := by
          rw [length_cons, Nat.add_mul, Nat.one_mul]
          omega
        rw [joined, count, Vol.chainBytes_cons, take_append, length_bytesAt, front, rest]
  have := rounds cs c fuel 0 buf chain range (Nat.zero_le _) enough
  rw [Nat.sub_zero, Nat.zero_add] at this
  rw [readChain, run_loop]
  exact this

end Fat32

end CanBoot
