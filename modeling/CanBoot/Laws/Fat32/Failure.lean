import CanBoot.Laws.Fat32.Calls
import CanBoot.Laws.Fat32.Listing

/-!
# Calls that fail

A call that returns `-1` should have changed nothing: every file reads as before, every directory
lists as before, and the same clusters are free (`NoOp`). `rename`, `unlink_path` and `rmdir` keep to
that. `write_path` and `mkdir` do not: `write_path` frees the chain of the file it replaces before it
knows that the new data fits, a directory that was extended stays extended, and an allocation that
runs short leaves every free cluster marked. `Keeps` says, before the call, that none of this will
happen, and `failed_call_noop_iff` that it is exactly what is needed.
-/

namespace CanBoot

open Lib Function Fat32 Option List

variable {fs : Fat32} {v v' : Vol} {m m' : Media} {fuel : Nat} {T : Objs} {K K' : Chains}

/-- The two volumes hold the same: files with their sizes and bytes, listings, free clusters. -/
structure NoOp (fs : Fat32) (v v' : Vol) : Prop where
  files : ∀ {p c n}, fs.objAt v p = some (.file c n) →
    (∃ c', fs.objAt v' p = some (.file c' n)) ∧ fs.tree v' p = fs.tree v p
  lists : ∀ {p dc}, fs.objAt v p = some (.dir dc) → (∃ dc', fs.objAt v' p = some (.dir dc')) ∧
    fs.listing v' Entry.listed (v'.chainAt fs p) = fs.listing v Entry.listed (v.chainAt fs p)
  free : ∀ {c}, fs.InRange c → (v'.fat c = 0 ↔ v.fat c = 0)

/-- What decides whether a failed `canboot_fat32_write_path` is a no-op, for a name in a directory
that exists. -/
def Fat32.WriteKeeps (fs : Fat32) (v : Vol) (p : List Name) (t : Name) (len : Nat) : Prop :=
  match fs.objAt v (p ++ [t]) with
  | some (.dir _) => True
  | some (.file _ size) =>
    if fs.Refused len then v.chainAt fs (p ++ [t]) = []
    else v.freeList fs = [] ∧ size ≤ fs.bytesPerCluster
  | none => v.freeList fs = [] ∨ (fs.Refused len ∧ fs.freeSlot v (v.chainAt fs p) ≠ none)

/-- What decides whether a failed call is a no-op. -/
def PathCall.Keeps (fs : Fat32) (v : Vol) : PathCall → Prop
  | write path data => ∀ p t dc, target path = some (p, t) → fs.objAt v p = some (.dir dc) →
      fs.WriteKeeps v p t data.length
  | mkdir path => ∀ p t dc, target path = some (p, t) → fs.objAt v p = some (.dir dc) →
      fs.objAt v (p ++ [t]) = none → v.freeList fs = []
  | _ => True

/-- The arguments are what C passes: strings without a zero byte, and a `uint32_t` length. -/
def PathCall.Valid : PathCall → Prop
  | write path data => (∀ c ∈ path, c ≠ 0) ∧ data.length < 4294967296
  | mkdir path | unlink path | rmdir path => ∀ c ∈ path, c ≠ 0
  | rename oldp newp => (∀ c ∈ oldp, c ≠ 0) ∧ ∀ c ∈ newp, c ≠ 0

/-! ## Volumes that hold the same -/

theorem NoOp.refl (fs : Fat32) (v : Vol) : NoOp fs v v :=
  ⟨fun h => ⟨⟨_, h⟩, rfl⟩, fun h => ⟨⟨_, h⟩, rfl⟩, fun _ => Iff.rfl⟩

namespace Vol.Layout

/-- Two layouts of one tree hold the same when they agree on the bytes. -/
theorem noOp (h : v.Laid fs T K) (h' : v'.Laid fs T K') (data : v'.data = v.data)
    (dirs : ∀ {p dc}, T p = some (.dir dc) → K' p = K p)
    (bytes : ∀ {p c n}, T p = some (.file c n) → (v.chainBytes fs (K' p)).take n = (v.chainBytes fs (K p)).take n)
    (free : ∀ {c}, fs.InRange c → (v'.fat c = 0 ↔ v.fat c = 0)) : NoOp fs v v' := by
  refine ⟨fun {p c n} hp => ?_, fun {p dc} hp => ?_, free⟩
  · rw [h.objAt_eq] at hp
    refine ⟨⟨c, by rwa [h'.objAt_eq]⟩, ?_⟩
    rw [h.tree_eq, h'.tree_eq, hp, map_some, map_some, Obj.node, Obj.node,
      ← bytes hp, chainBytes_congr fun x _ => congrFun data x]
  · rw [h.objAt_eq] at hp
    refine ⟨⟨dc, by rwa [h'.objAt_eq]⟩, ?_⟩
    rw [h.chainAt_eq hp, h'.chainAt_eq hp, dirs hp, listing, listing]
    have slots : v'.slotAt = v.slotAt := by
      funext l
      rw [slotAt, slotAt, slot, slot, data]
    rw [slots]

/-- The tree is read off the directories alone. -/
theorem objAt_of_dirs (h : v.Laid fs T K)
    (same : ∀ {p dc}, T p = some (.dir dc) → ∀ c ∈ K p, v'.fat c = v.fat c ∧ v'.data c = v.data c) :
    fs.objAt v' = T := by
  refine (walk_unique h.start fun p n => ?_).symm
  cases hp : T p with
  | none => exact h.gap n hp
  | some x =>
    rw [h.step n hp, bind_some, child]
    cases x with
    | file c s => rfl
    | dir dc =>
      have chain : v'.HasChain fs dc (K p) := (h.chain hp).congr fun c hc => (same hp c hc).1
      show _ = fs.childIn v' (.dir dc) (v'.chain fs dc) n
      rw [chain.chain_eq]
      exact (childIn_congr
        (fun l hl => slotAt_congr (fun c hc => (same hp c hc).2) hl) _ n).symm

/-! ## A file whose chain was freed and marked again -/

section

variable {p : List Name} {c n : Nat} (h : v.Laid fs T K) (hp : T p = some (.file c n))

include h hp

theorem hasChain_reserved : (v.reserved (K p)).HasChain fs c ((K p).take 1) := by
  have chain : v.HasChain fs c (K p) := h.chain hp
  cases hK : K p with
  | nil =>
    rw [hK] at chain
    exact ⟨chain.isChain, fun x hx => absurd hx (by simp), fun x hx => absurd hx (by simp)⟩
  | cons x xs =>
    rw [hK] at chain
    have marked : (v.reserved (x :: xs)).fat x = eocMark := if_pos mem_cons_self
    have hx : x = c := chain.isChain.1
    refine ⟨⟨hx, chain.isChain.2.1, ?_⟩, fun y hy => ?_, fun y hy => ?_⟩
    · rw [← hx, marked]
      rfl
    · exact chain.inRange y (mem_cons.mpr (Or.inl (mem_singleton.mp hy)))
    · have : x = y := by simpa using hy
      rw [← this, marked]
      decide

theorem not_mem_of_ne {q : List Name} {x : Obj} {y : Nat} (hq : T q = some x) (hne : q ≠ p)
    (hy : y ∈ K q) : y ∉ K p := fun mem => hne (h.disjoint hq hp hy mem)

theorem fat_reserved_of_ne {q : List Name} {x : Obj} {y : Nat} (hq : T q = some x) (hne : q ≠ p)
    (hy : y ∈ K q) : (v.reserved (K p)).fat y = v.fat y :=
  if_neg (h.not_mem_of_ne hp hq hne hy)

/-- A file of at most one cluster survives. -/
theorem laid_reserved (small : n ≤ fs.bytesPerCluster) : (v.reserved (K p)).Laid fs T (update K p ((K p).take 1)) := by
  have sub : ∀ {q x y}, T q = some x → y ∈ update K p ((K p).take 1) q → y ∈ K q := by
    intro q x y _ hy
    by_cases hq : q = p
    · rw [hq, update_self] at hy
      rw [hq]
      exact mem_of_mem_take hy
    · rwa [update_of_ne hq] at hy
  have dirs : ∀ {q dc}, T q = some (.dir dc) → q ≠ p := by
    rintro q dc hq rfl
    rw [hp] at hq
    cases hq
  refine ⟨h.start, fun {q x} hq => ?_, fun {q x} hq => ?_, fun hq hs hc hc' => ?_,
    fun {q dc} hq => ?_, fun {q x} t hq => ?_, h.gap⟩
  · by_cases hqp : q = p
    · subst hqp
      cases Option.some.inj (hp.symm.trans hq)
      rw [update_self]
      exact h.hasChain_reserved hp
    · rw [update_of_ne hqp]
      exact (h.chain hq).congr fun y hy => h.fat_reserved_of_ne hp hq hqp hy
  · by_cases hqp : q = p
    · subst hqp
      cases Option.some.inj (hp.symm.trans hq)
      rw [update_self]
      have fits : n ≤ (K q).length * fs.bytesPerCluster := h.fits hp
      show n ≤ ((K q).take 1).length * fs.bytesPerCluster
      cases hK : K q with
      | nil => rw [hK] at fits; exact fits
      | cons x xs => simpa using small
    · rw [update_of_ne hqp]
      exact h.fits hq
  · exact h.disjoint hq hs (sub hq hc) (sub hs hc')
  · rw [update_of_ne (dirs hq)]
    exact ⟨(h.dir hq).terminated, (h.dir hq).unique, (h.dir hq).links⟩
  · cases x with
    | file c' n' =>
      rw [h.step t hq]
      rfl
    | dir dc =>
      rw [update_of_ne (dirs hq), h.step t hq]
      rfl

theorem noOp_reserved (small : n ≤ fs.bytesPerCluster) (full : v.freeList fs = []) : NoOp fs v (v.reserved (K p)) := by
  refine h.noOp (h.laid_reserved hp small) rfl (fun {q dc} hq => ?_) (fun {q c' n'} hq => ?_)
    fun {x} hx => ?_
  · refine update_of_ne ?_ _ _
    rintro rfl
    rw [hp] at hq
    cases hq
  · by_cases hqp : q = p
    · subst hqp
      cases Option.some.inj (hp.symm.trans hq)
      rw [update_self]
      cases K q with
      | nil => rfl
      | cons x xs =>
        have len : n ≤ (bytesAt (v.data x) 0 fs.bytesPerCluster).length := by
          rwa [length_bytesAt]
        show (v.chainBytes fs [x]).take n = _
        rw [chainBytes_cons, chainBytes_cons, take_append_of_le_length len, take_append_of_le_length len]
    · rw [update_of_ne hqp]
  · -- nothing was free, and nothing is
    have before : v.fat x ≠ 0 := fun zero => by
      have : x ∈ v.freeList fs := mem_freeList.mpr ⟨hx, zero⟩
      rw [full] at this
      cases this
    have after : (v.reserved (K p)).fat x ≠ 0 := by
      show (if x ∈ K p then eocMark else v.fat x) ≠ 0
      split
      · decide
      · exact before
    exact ⟨fun zero => absurd zero after, fun zero => absurd zero before⟩

/-- A longer file is cut to its first cluster. -/
theorem not_noOp_reserved (big : fs.bytesPerCluster < n) : ¬ NoOp fs v (v.reserved (K p)) := by
  intro noOp
  have obj : fs.objAt (v.reserved (K p)) = T := h.objAt_of_dirs fun {q dc} hq y hy => by
    refine ⟨h.fat_reserved_of_ne hp hq ?_ hy, rfl⟩
    rintro rfl
    rw [hp] at hq
    cases hq
  have same := (noOp.files (h.objAt_eq ▸ hp)).2
  have first : (v.reserved (K p)).chain fs c = (K p).take 1 := (h.hasChain_reserved hp).chain_eq
  rw [h.tree_eq, hp, tree, obj, hp, map_some, map_some] at same
  simp only [Obj.node, Obj.first, first, Option.some.injEq, Node.file.injEq] at same
  have lengths := congrArg List.length same
  simp only [length_take, length_chainBytes] at lengths
  have fits : n ≤ (K p).length * fs.bytesPerCluster := h.fits hp
  have short : min 1 (K p).length * fs.bytesPerCluster ≤ 1 * fs.bytesPerCluster :=
    Nat.mul_le_mul_right _ (Nat.min_le_left _ _)
  omega

end

end Vol.Layout

/-- With nothing else free, a chain that is freed is what gets marked again. -/
theorem Vol.reserved_freed {C : List Nat} (range : ∀ c ∈ C, fs.InRange c) (full : v.freeList fs = []) :
    (v.freed C).reserved ((v.freed C).freeList fs) = v.reserved C := by
  apply Vol.ext
  · funext k c
    show (if c ∈ (v.freed C).freeList fs then eocMark else if c ∈ C then 0 else v.fats k c) =
      if c ∈ C then eocMark else v.fats k c
    by_cases hc : c ∈ C
    · have free : c ∈ (v.freed C).freeList fs := mem_freeList.mpr ⟨range c hc, if_pos hc⟩
      rw [if_pos free, if_pos hc]
    · have taken : c ∉ (v.freed C).freeList fs := by
        intro free
        obtain ⟨hr, zero⟩ := mem_freeList.mp free
        have before : v.fat c = 0 := (if_neg hc).symm.trans zero
        have : c ∈ v.freeList fs := mem_freeList.mpr ⟨hr, before⟩
        rw [full] at this
        cases this
      rw [if_neg taken, if_neg hc, if_neg hc]
  · rfl
  · rfl

/-! ## What a failed call leaves -/

section

variable {C : List Nat} {c nc : Nat}

/-- A free cluster that is taken is missed. -/
theorem not_noOp_of_taken (free : nc ∈ v.freeList fs) (taken : v'.fat nc ≠ 0) : ¬ NoOp fs v v' := by
  intro noOp
  obtain ⟨range, zero⟩ := mem_freeList.mp free
  exact taken ((noOp.free range).mpr zero)

theorem noOp_freed_iff (chain : v.HasChain fs c C) : NoOp fs v (v.freed C) ↔ C = [] := by
  constructor
  · intro noOp
    cases C with
    | nil => rfl
    | cons x xs =>
      have gone : (v.freed (x :: xs)).fat x = 0 := if_pos mem_cons_self
      have zero := (noOp.free (chain.inRange x mem_cons_self)).mp gone
      exact absurd zero (chain.ne_zero mem_cons_self)
  · rintro rfl
    exact NoOp.refl fs v

theorem noOp_reserved_free_iff : NoOp fs v (v.reserved (v.freeList fs)) ↔ v.freeList fs = [] := by
  constructor
  · intro noOp
    cases hF : v.freeList fs with
    | nil => rfl
    | cons x xs =>
      have free : x ∈ v.freeList fs := hF ▸ mem_cons_self
      have marked : (v.reserved (v.freeList fs)).fat x = eocMark := if_pos free
      exact absurd noOp (not_noOp_of_taken free (by rw [marked]; decide))
  · intro none'
    rw [none']
    exact NoOp.refl fs v

/-- The new data of an existing file did not fit. -/
theorem Vol.Layout.noOp_short_iff (h : v.Laid fs T K) {p : List Name} {n : Nat} (hp : T p = some (.file c n)) :
    NoOp fs v ((v.freed (K p)).reserved ((v.freed (K p)).freeList fs)) ↔
      v.freeList fs = [] ∧ n ≤ fs.bytesPerCluster := by
  have chain : v.HasChain fs c (K p) := h.chain hp
  constructor
  · intro noOp
    have full : v.freeList fs = [] := by
      cases hF : v.freeList fs with
      | nil => rfl
      | cons x xs =>
        have free : x ∈ v.freeList fs := hF ▸ mem_cons_self
        obtain ⟨range, zero⟩ := mem_freeList.mp free
        have still : (v.freed (K p)).fat x = 0 := by
          show (if x ∈ K p then 0 else v.fat x) = 0
          rw [zero, ite_self]
        have marked : ((v.freed (K p)).reserved ((v.freed (K p)).freeList fs)).fat x = eocMark :=
          if_pos (mem_freeList.mpr ⟨range, still⟩)
        exact absurd noOp (not_noOp_of_taken free (by rw [marked]; decide))
    rw [Vol.reserved_freed chain.inRange full] at noOp
    exact ⟨full, Nat.not_lt.mp fun big => h.not_noOp_reserved hp big noOp⟩
  · rintro ⟨full, small⟩
    rw [Vol.reserved_freed chain.inRange full]
    exact h.noOp_reserved hp small full

end

namespace Vol.Layout

variable {p : List Name} {t : Name} {dc : Nat} {path data : Bytes}

theorem keeps_write (h : v.Laid fs T K) (ht : target path = some (p, t)) (hp : T p = some (.dir dc)) :
    (PathCall.write path data).Keeps fs v ↔ fs.WriteKeeps v p t data.length := by
  constructor
  · intro keeps
    exact keeps p t dc ht (by rw [h.objAt_eq]; exact hp)
  · intro keeps q s _ hq _
    obtain ⟨rfl, rfl⟩ := Prod.mk.inj (Option.some.inj (ht.symm.trans hq))
    exact keeps

theorem writeKeeps_file (h : v.Laid fs T K) {c n : Nat} (file : T (p ++ [t]) = some (.file c n))
    (len : Nat) : fs.WriteKeeps v p t len ↔
      if fs.Refused len then K (p ++ [t]) = [] else v.freeList fs = [] ∧ n ≤ fs.bytesPerCluster := by
  rw [WriteKeeps, h.objAt_eq, file, h.chainAt_eq file]

theorem writeKeeps_none (h : v.Laid fs T K) (hp : T p = some (.dir dc)) (absent : T (p ++ [t]) = none) (len : Nat)
    : fs.WriteKeeps v p t len ↔ v.freeList fs = [] ∨ (fs.Refused len ∧ fs.freeSlot v (K p) ≠ none) := by
  rw [WriteKeeps, h.objAt_eq, absent, h.chainAt_eq hp]

variable (g : fs.Geometry) (h : (fs.view m).Laid fs T K) (enough : fs.totalClusters < fuel)
  (writable : fs.disk.writable = true)

include g h enough writable

theorem write_noOp_iff (short : data.length < 4294967296)
    (fails : (canbootFat32WritePath fs path data).run fuel m = .err m') :
    NoOp fs (fs.view m) (fs.view m') ↔ (PathCall.write path data).Keeps fs (fs.view m) := by
  rcases h.write_cases g enough writable path short with ⟨err, clean⟩ |
    ⟨p, t, dc, l, m1, d, K1, ht, hp, nolink, notDir, ready, claimed, result⟩
  · -- nothing was written
    rw [err] at fails
    cases fails
    refine ⟨fun _ p t dc ht hp => ?_, fun _ => NoOp.refl _ _⟩
    rw [h.objAt_eq] at hp
    rcases clean p t ht dc hp with ⟨c, dir⟩ | ⟨absent, _, full⟩
    · rw [WriteKeeps, h.objAt_eq, dir]
      trivial
    · exact (h.writeKeeps_none hp absent _).mpr (Or.inl full)
  rw [h.keeps_write ht hp]
  rcases claimed with ⟨c, n, file, _, freed⟩ | ⟨absent, ⟨slot, rfl⟩ | ⟨full, nc, free, taken⟩⟩
  · -- the name was a file, and its chain is freed by now
    have chain : (fs.view m).HasChain fs c (K (p ++ [t])) := h.chain file
    rw [h.writeKeeps_file file]
    rcases result with ⟨_, _, _, ok, _⟩ | ⟨refused, err⟩ | ⟨accepted, _, m2, err, view⟩
    · rw [ok] at fails
      cases fails
    · rw [err] at fails
      cases fails
      rw [if_pos refused, freed]
      exact noOp_freed_iff chain
    · rw [err] at fails
      cases fails
      rw [if_neg accepted, view, freed]
      exact h.noOp_short_iff file
  · -- the name was absent, and there was a slot for it
    rw [h.writeKeeps_none hp absent]
    rcases result with ⟨_, _, _, ok, _⟩ | ⟨refused, err⟩ | ⟨accepted, _, m2, err, view⟩
    · rw [ok] at fails
      cases fails
    · rw [err] at fails
      cases fails
      exact ⟨fun _ => Or.inr ⟨refused, by rw [slot]; exact nofun⟩, fun _ => NoOp.refl _ _⟩
    · rw [err] at fails
      cases fails
      rw [view, noOp_reserved_free_iff]
      exact ⟨Or.inl, fun keeps => keeps.resolve_right fun ⟨refused, _⟩ => accepted refused⟩
  · -- the name was absent, and the directory was extended for it
    have no : ¬ fs.WriteKeeps (fs.view m) p t data.length := by
      rw [h.writeKeeps_none hp absent]
      rintro (none' | ⟨_, some'⟩)
      · rw [none'] at free
        cases free
      · exact some' full
    refine ⟨fun noOp => absurd noOp (not_noOp_of_taken free ?_), fun keeps => absurd keeps no⟩
    rcases result with ⟨_, _, _, ok, _⟩ | ⟨_, err⟩ | ⟨_, _, m2, err, view⟩
    · rw [ok] at fails
      cases fails
    · rw [err] at fails
      cases fails
      exact taken
    · rw [err] at fails
      cases fails
      rw [view]
      show (if nc ∈ (fs.view m1).freeList fs then eocMark else (fs.view m1).fat nc) ≠ 0
      split
      · decide
      · exact taken

theorem mkdir_noOp_iff (fails : (canbootFat32Mkdir fs path).run fuel m = .err m') :
    NoOp fs (fs.view m) (fs.view m') ↔ (PathCall.mkdir path).Keeps fs (fs.view m) := by
  rcases h.mkdir_cases g enough writable path with ⟨err, clean⟩ |
    ⟨p, t, dc, nd, ht, hp, absent, free, ⟨m2, err, taken⟩ | ⟨_, _, _, _, _, ok, _⟩⟩
  · rw [err] at fails
    cases fails
    refine ⟨fun _ p t dc ht hp absent => ?_, fun _ => NoOp.refl _ _⟩
    rw [h.objAt_eq] at hp absent
    exact (clean p t ht dc hp).resolve_left (not_not.mpr absent)
  · rw [err] at fails
    cases fails
    refine ⟨fun noOp => absurd noOp (not_noOp_of_taken free taken), fun keeps => ?_⟩
    have := keeps p t dc ht (by rw [h.objAt_eq]; exact hp) (by rw [h.objAt_eq]; exact absent)
    rw [this] at free
    cases free
  · rw [ok] at fails
    cases fails

end Vol.Layout

/-- **A failed call changes nothing exactly when nothing had to be undone.** -/
theorem failed_call_noop_iff (g : fs.Geometry) (wf : (fs.view m).WellFormed fs) (writable : fs.disk.writable = true)
    (enough : fs.totalClusters < fuel) (call : PathCall) (valid : call.Valid)
    (fails : (call.prog fs).run fuel m = .err m') : NoOp fs (fs.view m) (fs.view m') ↔ call.Keeps fs (fs.view m) := by
  have same : m' = m → (NoOp fs (fs.view m) (fs.view m') ↔ True) := fun heq =>
    ⟨fun _ => trivial, fun _ => heq ▸ NoOp.refl _ _⟩
  cases call with
  | write path data => exact Vol.Layout.write_noOp_iff g wf enough writable valid.2 fails
  | mkdir path => exact Vol.Layout.mkdir_noOp_iff g wf enough writable fails
  | unlink path =>
    refine same ?_
    rcases Vol.Layout.unlink_cases g wf enough writable path with err |
      ⟨_, _, _, _, _, _, _, _, _, ok, _⟩
    · exact (Outcome.err.inj (err.symm.trans fails)).symm
    · cases ok.symm.trans fails
  | rmdir path =>
    refine same ?_
    rcases Vol.Layout.rmdir_cases g wf enough writable path with err |
      ⟨_, _, _, _, _, _, _, _, _, ok, _⟩
    · exact (Outcome.err.inj (err.symm.trans fails)).symm
    · cases ok.symm.trans fails
  | rename oldp newp =>
    refine same ?_
    rcases Vol.Layout.rename_cases g wf enough writable oldp newp
      (fun p t => target_head_ne_zero valid.2) with err |
        ⟨_, _, _, _, _, _, _, _, _, _, _, _, _, _, _, ok, _⟩
    · exact (Outcome.err.inj (err.symm.trans fails)).symm
    · cases ok.symm.trans fails

/-- `mkdir /A` where there is a file `/A`. -/
theorem failed_call_noop_iff_mkdir : ∃ m', (canbootFat32Mkdir tiny [slash, 65]).run 7 tinyFile = .err m' ∧
      (NoOp tiny (tiny.view tinyFile) (tiny.view m') ↔
        (PathCall.mkdir [slash, 65]).Keeps tiny (tiny.view tinyFile)) := by
  have err := Outcome.eq_err_of_isErr tinyFile
    (o := (canbootFat32Mkdir tiny [slash, 65]).run 7 tinyFile) (by decide +kernel)
  have valid : (PathCall.mkdir [slash, 65]).Valid := by
    show ∀ c ∈ [slash, 65], c ≠ 0
    simp [slash]
  exact ⟨_, err, failed_call_noop_iff tiny_geometry tinyFile_wellFormed rfl (by decide)
    (.mkdir [slash, 65]) valid err⟩

/-- Six clusters of data for `/A`, on a volume where five can be had: the call fails, `/A` has lost its
second cluster and no cluster is free any more. -/
theorem failed_write_not_noop : (tiny.view tinyFile).WellFormed tiny ∧
    ∃ m', (canbootFat32WritePath tiny [slash, 65] (List.replicate 3072 2)).run 7 tinyFile = .err m' ∧
      ¬ NoOp tiny (tiny.view tinyFile) (tiny.view m') := by
  have err := Outcome.eq_err_of_isErr tinyFile
    (o := (canbootFat32WritePath tiny [slash, 65] (replicate 3072 2)).run 7 tinyFile)
    (by decide +kernel)
  have free : 5 ∈ (tiny.view tinyFile).freeList tiny := by decide +kernel
  have taken : (tiny.view (((canbootFat32WritePath tiny [slash, 65] (replicate 3072 2)).run 7
      tinyFile).after tinyFile)).fat 5 ≠ 0 := by decide +kernel
  exact ⟨tinyFile_wellFormed, _, err, not_noOp_of_taken free taken⟩

end CanBoot
