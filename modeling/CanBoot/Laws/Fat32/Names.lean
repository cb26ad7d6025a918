import CanBoot.Fs.Fat32.Names
import CanBoot.Lib.Fields

/-!
# Path strings and the names they denote

`segments` splits a path at runs of slashes, which is what a path means. The engine reads a path as
a list of packed names: the components of the parent part and the leaf (`target`). On a path whose
segments fit the component buffer the two agree (`target_of_segments`).

A legal 8.3 name is one to eight letters, digits, `_` or `-`, with a dot and one to three more if
there is an extension. Packing such names loses the case of the letters and nothing else
(`to83_eq_iff`), and gives a name that an entry can carry. Packing other names can lose more.
-/

namespace CanBoot

open Lib List Option

/-- The parts of a path between runs of slashes. -/
def segments (path : List UInt8) : List (List UInt8) :=
  (path.splitOnP (· = slash)).filter (· ≠ [])

/-- The packed names of the components `resolve_dir` walks. -/
def dirNames (path : List UInt8) : List Name := (components path).map to83

/-- The packed names of a path: those of its parent directory, and the leaf's. -/
def target (path : List UInt8) : Option (List Name × Name) :=
  (splitLast path 256 16).map fun s => (dirNames s.1, to83 s.2)

/-- The characters of a legal name. -/
def isNameChar (c : UInt8) : Bool :=
  (65 ≤ c && c ≤ 90) || (97 ≤ c && c ≤ 122) || (48 ≤ c && c ≤ 57) || c = 95 || c = 45

/-- A legal 8.3 name. -/
def LegalName (s : List UInt8) : Prop :=
  ∃ base ext : List UInt8, base ≠ [] ∧ base.length ≤ 8 ∧ ext.length ≤ 3 ∧
    (∀ c ∈ base ++ ext, isNameChar c = true) ∧ s = if ext = [] then base else base ++ dot :: ext

/-- A path of legal 8.3 names, shorter than 256 bytes. -/
structure LegalPath (path : List UInt8) : Prop where
  short : path.length < 256
  legal : ∀ s ∈ segments path, LegalName s

/-! ## Bytes -/

theorem byte_cases {P : UInt8 → Prop} (h : ∀ n : Fin 256, P (UInt8.ofNat n.val)) (c : UInt8) : P c := by
  have := h ⟨c.toNat, c.toNat_lt⟩
  simpa using this

theorem upper_eq_dot (c : UInt8) : upper c = dot ↔ c = dot := by
  revert c
  apply byte_cases
  decide +kernel

theorem upper_upper (c : UInt8) : upper (upper c) = upper c := by
  revert c
  apply byte_cases
  decide +kernel

theorem isNameChar_upper (c : UInt8) : isNameChar c = true → isNameChar (upper c) = true := by
  revert c
  apply byte_cases
  decide +kernel

/-- A legal character survives packing, and is none of the marks an entry or a path uses. -/
theorem isNameChar_spec (c : UInt8) : isNameChar c = true →
    c ≠ dot ∧ c ≠ slash ∧ upper c ≠ blank ∧ upper c ≠ 0 ∧ upper c ≠ 0xE5 := by
  revert c
  apply byte_cases
  decide +kernel

/-! ## Splitting a path -/

theorem segments_append_slash (a b : Bytes) :
    segments (a ++ slash :: b) = segments a ++ segments b := fields_append a b

theorem segments_of_no_slash {s : Bytes} (h : ∀ c ∈ s, c ≠ slash) :
    segments s = if s = [] then [] else [s] := fields_of_free h

theorem segments_append_replicate (s : Bytes) (k : Nat) : segments (s ++ replicate k slash) = segments s := by
  induction k with
  | zero => rw [replicate_zero, append_nil]
  | succ k ih =>
    have : segments (replicate k slash) = [] := by
      have nil : segments [] = [] := rfl
      clear ih
      induction k with
      | zero => rfl
      | succ k ih =>
        rw [replicate_succ]
        have := segments_append_slash [] (replicate k slash)
        rw [nil_append, nil, nil_append] at this
        rw [this, ih]
    rw [replicate_succ, segments_append_slash, this, append_nil]

theorem scanComponents_eq_pieces (p cur : Bytes) : scanComponents p cur = pieces slash 15 p cur := by
  induction p generalizing cur with
  | nil => rfl
  | cons c p ih => simp only [scanComponents, pieces, ih]

/-- **Within the component buffer, the scanner splits at slashes.** -/
theorem components_eq_segments {path : Bytes} (h : ∀ s ∈ segments path, s.length ≤ 15) :
    components path = segments path :=
  (scanComponents_eq_pieces path []).trans (pieces_eq_fields h)

/-- Trailing slashes add no segment. -/
theorem segments_stripSlashes (path : Bytes) : segments path = segments (stripSlashes path) := by
  unfold stripSlashes
  have parts : path.reverse.takeWhile (· = slash) ++ path.reverse.dropWhile (· = slash) =
      path.reverse := takeWhile_append_dropWhile
  have slashes : path.reverse.takeWhile (· = slash) =
      replicate (path.reverse.takeWhile (· = slash)).length slash :=
    eq_replicate_of_mem fun c hc => by simpa using mem_takeWhile_imp hc
  rw [slashes] at parts
  have whole := congrArg reverse parts
  rw [reverse_reverse, reverse_append, reverse_replicate] at whole
  cases hd : path.reverse.dropWhile (· = slash) with
  | nil =>
    rw [hd, reverse_nil, nil_append] at whole
    have nil : segments [] = [] := rfl
    have rep : ∀ k, segments (replicate k slash) = [] := fun k => by
      have := segments_append_replicate [] k
      rwa [nil_append, nil] at this
    rw [← whole, rep, take_replicate, rep]
  | cons c r =>
    rw [hd] at whole
    rw [← whole, segments_append_replicate]

/-- **The splitter takes the last segment off.** -/
theorem segments_splitLast {path parent leaf : Bytes} {pcap lcap : Nat}
    (h : splitLast path pcap lcap = some (parent, leaf)) :
    segments path = segments parent ++ [leaf] ∧ leaf.length < lcap := by
  have root : segments [slash] = [] := rfl
  unfold splitLast at h
  simp only at h
  rw [segments_stripSlashes]
  generalize stripSlashes path = s at h
  generalize hw : (s.reverse.takeWhile (· ≠ slash)).reverse = w at h
  have free : ∀ c ∈ w, c ≠ slash := by
    intro c hc
    rw [← hw, mem_reverse] at hc
    simpa using mem_takeWhile_imp hc
  have parts : (s.reverse.dropWhile (· ≠ slash)).reverse ++ w = s := by
    rw [← hw, ← reverse_append, takeWhile_append_dropWhile, reverse_reverse]
  have single : w ≠ [] → segments w = [w] := fun hne => by
    rw [segments_of_no_slash free, if_neg hne]
  by_cases whole : w.length = s.length
  · rw [if_pos whole] at h
    split at h
    · cases h
    · next bounds =>
      obtain ⟨rfl, rfl⟩ := Prod.mk.inj (Option.some.inj h)
      have same : w = s := by
        have len := congrArg List.length parts
        rw [length_append] at len
        have : (s.reverse.dropWhile (· ≠ slash)).reverse = [] :=
          length_eq_zero_iff.mp (by omega)
        rwa [this, nil_append] at parts
      have hne : w ≠ [] := fun hnil => bounds (Or.inr (Or.inr (by rw [← whole, hnil]; rfl)))
      rw [root, nil_append, ← same]
      exact ⟨single hne, by omega⟩
  · rw [if_neg whole] at h
    -- what precedes the leaf ends in a slash
    obtain ⟨par, hpar⟩ : ∃ par, s = par ++ slash :: w := by
      cases hd : s.reverse.dropWhile (· ≠ slash) with
      | nil =>
        rw [hd, reverse_nil, nil_append] at parts
        exact absurd (congrArg List.length parts) whole
      | cons c r =>
        have hc : c = slash := by
          have := head?_dropWhile_not (· ≠ slash) s.reverse
          rw [hd] at this
          simpa using this
        rw [hd, hc, reverse_cons, append_assoc, singleton_append] at parts
        exact ⟨r.reverse, parts.symm⟩
    have at' : s.length - w.length - 1 = par.length := by
      rw [hpar, length_append, length_cons]
      omega
    rw [at'] at h
    rw [hpar, segments_append_slash]
    split at h
    · cases h
    · next bounds =>
      have hne : w ≠ [] := fun hnil => bounds (Or.inl (by rw [hnil]; rfl))
      rw [single hne]
      split at h
      · next empty =>
        have : par = [] := length_eq_zero_iff.mp empty
        subst this
        split at h
        · cases h
        · obtain ⟨rfl, rfl⟩ := Prod.mk.inj (Option.some.inj h)
          exact ⟨rfl, by omega⟩
      · split at h
        · cases h
        · obtain ⟨rfl, rfl⟩ := Prod.mk.inj (Option.some.inj h)
          rw [hpar, take_left]
          exact ⟨rfl, by omega⟩

theorem stripSlashes_subset (path : Bytes) : stripSlashes path ⊆ path := by
  intro c hc
  unfold stripSlashes at hc
  split at hc
  · exact mem_of_mem_take hc
  · have := dropWhile_subset _ (mem_reverse.mp hc)
    exact mem_reverse.mp this

/-- The leaf is made of bytes of the path. -/
theorem splitLast_leaf_subset {path parent leaf : Bytes} {pcap lcap : Nat}
    (h : splitLast path pcap lcap = some (parent, leaf)) : leaf ⊆ path := by
  have tail : ((stripSlashes path).reverse.takeWhile (· ≠ slash)).reverse ⊆ path := by
    intro c hc
    have := takeWhile_subset _ (mem_reverse.mp hc)
    exact stripSlashes_subset path (mem_reverse.mp this)
  simp only [splitLast] at h
  split_ifs at h
  all_goals obtain ⟨_, rfl⟩ := Prod.mk.inj (Option.some.inj h)
  · exact stripSlashes_subset path
  · exact tail
  · exact tail

/-- **On a path whose segments fit, the engine's names are the segments', packed.** -/
theorem target_of_segments {path : Bytes} (h : ∀ s ∈ segments path, s.length ≤ 15) {p : List Name} {t : Name}
    (ht : target path = some (p, t)) : p ++ [t] = (segments path).map to83 := by
  obtain ⟨⟨parent, leaf⟩, split, same⟩ := map_eq_some_iff.mp ht
  obtain ⟨rfl, rfl⟩ := Prod.mk.inj same
  obtain ⟨segs, _⟩ := segments_splitLast split
  rw [segs] at h ⊢
  rw [dirNames, components_eq_segments fun s hs => h s (mem_append_left _ hs), map_append]
  rfl

/-- A name alone is a path in the root. -/
theorem target_root {name : Bytes} (free : ∀ c ∈ name, c ≠ slash) (pos : name ≠ [])
    (short : name.length ≤ 15) : target (slash :: name) = some ([], to83 name) := by
  have strip : stripSlashes (slash :: name) = slash :: name := by
    obtain ⟨init, last, rfl⟩ : ∃ init last, name = init ++ [last] :=
      ⟨name.dropLast, name.getLast pos, (dropLast_append_getLast pos).symm⟩
    have hlast : last ≠ slash := free last (by simp)
    rw [stripSlashes]
    simp [hlast]
  have leaf : ((slash :: name).reverse.takeWhile (· ≠ slash)).reverse = name := by
    rw [reverse_cons, takeWhile_append_of_pos]
    · simp
    · intro c hc
      simpa using free c (mem_reverse.mp hc)
  have hlen : 0 < name.length := length_pos_iff.mpr pos
  have split : splitLast (slash :: name) 256 16 = some ([slash], name) := by
    unfold splitLast
    simp only [strip, leaf, length_cons]
    rw [if_neg (by omega), if_neg (by omega), if_pos (by omega), if_neg (by omega)]
  rw [target, split]
  rfl

/-! ## Packing a name -/

theorem to83_head_ne_dot (s : Bytes) : (to83 s).byte 0 ≠ dot := by
  show ((((s.takeWhile (· ≠ dot)).take 8).map upper).getD 0 blank) ≠ dot
  cases h : s.takeWhile (· ≠ dot) with
  | nil => decide
  | cons c r =>
    have hc : c ≠ dot := by
      have mem : c ∈ s.takeWhile (· ≠ dot) := by rw [h]; exact mem_cons_self
      simpa using mem_takeWhile_imp mem
    intro heq
    exact hc ((upper_eq_dot c).mp heq)

/-- A string without a zero byte is packed to a name without one at its head. -/
theorem to83_head_ne_zero {s : Bytes} (h : ∀ c ∈ s, c ≠ 0) : (to83 s).byte 0 ≠ 0 := by
  have up : ∀ c : UInt8, c ≠ 0 → upper c ≠ 0 := byte_cases (by decide +kernel)
  show (((s.takeWhile (· ≠ dot)).take 8).map upper).getD 0 blank ≠ 0
  cases hs : (s.takeWhile (· ≠ dot)).take 8 with
  | nil => exact (by decide : blank ≠ 0)
  | cons c cs =>
    have mem : c ∈ s := by
      have : c ∈ (s.takeWhile (· ≠ dot)).take 8 := hs ▸ mem_cons_self
      exact takeWhile_subset _ (mem_of_mem_take this)
    exact up c (h c mem)

/-- A path without a zero byte ends in such a name. -/
theorem target_head_ne_zero {path : Bytes} (h : ∀ c ∈ path, c ≠ 0) {p : List Name} {t : Name}
    (ht : target path = some (p, t)) : t.byte 0 ≠ 0 := by
  obtain ⟨⟨parent, leaf⟩, split, heq⟩ := map_eq_some_iff.mp ht
  obtain ⟨_, rfl⟩ := Prod.mk.inj heq
  exact to83_head_ne_zero fun c hc => h c (splitLast_leaf_subset split hc)

theorem isDotName_of_head {n : Name} (h : n.byte 0 ≠ dot) : isDotName n = false := by
  simp [isDotName, h]

theorem to83_ne_dotName (s : Bytes) : to83 s ≠ dotName := fun h =>
  to83_head_ne_dot s (by rw [h]; rfl)

theorem to83_ne_dotdotName (s : Bytes) : to83 s ≠ dotdotName := fun h =>
  to83_head_ne_dot s (by rw [h]; rfl)

/-- The bytes of a legal name, packed: base and extension, each padded with blanks. -/
theorem to83_byte {base ext : Bytes} (hb : base.length ≤ 8) (he : ext.length ≤ 3)
    (chars : ∀ c ∈ base ++ ext, isNameChar c = true) (k : Fin 11) :
    (to83 (if ext = [] then base else base ++ dot :: ext)).byte k = if k.val < 8 then (base.map upper).getD k.val blank
      else (ext.map upper).getD (k.val - 8) blank := by
  have noDot : ∀ c ∈ base, decide (c ≠ dot) = true := fun c hc => by
    simpa using (isNameChar_spec c (chars c (mem_append_left _ hc))).1
  have front : (if ext = [] then base else base ++ dot :: ext).takeWhile (· ≠ dot) = base := by
    split
    · exact takeWhile_eq_self_iff.mpr noDot
    · rw [takeWhile_append_of_pos noDot]
      simp
  have back : ((if ext = [] then base else base ++ dot :: ext).dropWhile (· ≠ dot)).drop 1 = ext := by
    split
    · next h =>
      rw [dropWhile_eq_nil_iff.mpr noDot, h]
      rfl
    · rw [dropWhile_append_of_pos noDot]
      simp
  simp only [to83, front, back, take_of_length_le hb, take_of_length_le he]

/-- Packing sees a name through its upper case. -/
theorem to83_map_upper (s : Bytes) : to83 (s.map upper) = to83 s := by
  have test : ((fun c => decide (c ≠ dot)) ∘ upper) = fun c => decide (c ≠ dot) := by
    funext c
    simp [upper_eq_dot]
  have twice : upper ∘ upper = upper := funext upper_upper
  apply Name.ext
  funext k
  simp only [to83, takeWhile_map, dropWhile_map, test, ← map_take, ← map_drop, List.map_map, twice]

/-- Lists without blanks are told apart by their padding. -/
theorem padded_inj {xs ys : Bytes} {n : Nat} (hx : xs.length ≤ n) (hy : ys.length ≤ n) (nx : ∀ c ∈ xs, c ≠ blank)
    (ny : ∀ c ∈ ys, c ≠ blank) (h : ∀ k < n, xs.getD k blank = ys.getD k blank) : xs = ys := by
  have shorter : ∀ {as bs : Bytes}, as.length ≤ n → (∀ c ∈ as, c ≠ blank) →
      (∀ k < n, as.getD k blank = bs.getD k blank) → as.length ≤ bs.length := by
    intro as bs ha na hab
    by_contra lt
    have pos : bs.length < as.length := by omega
    have := hab bs.length (by omega)
    rw [getD_eq_getElem?_getD, getD_eq_getElem?_getD, getElem?_eq_getElem pos,
      getElem?_eq_none (Nat.le_refl _)] at this
    exact na _ (getElem_mem pos) this
  have len : xs.length = ys.length :=
    Nat.le_antisymm (shorter hx nx h) (shorter hy ny fun k hk => (h k hk).symm)
  apply ext_getElem len
  intro k hk hk'
  have := h k (by omega)
  rwa [getD_eq_getElem?_getD, getD_eq_getElem?_getD, getElem?_eq_getElem hk,
    getElem?_eq_getElem hk'] at this

/-- **Packing legal names loses their case and nothing else.** -/
theorem to83_eq_iff {a b : Bytes} (ha : LegalName a) (hb : LegalName b) :
    to83 a = to83 b ↔ a.map upper = b.map upper := by
  have fits : ∀ {xs : Bytes}, (∀ c ∈ xs, isNameChar c = true) → ∀ c ∈ xs.map upper, c ≠ blank := by
    intro xs hx c hc
    obtain ⟨d, hd, rfl⟩ := List.mem_map.mp hc
    exact (isNameChar_spec d (hx d hd)).2.2.1
  constructor
  · intro h
    obtain ⟨ba, ea, _, la, xa, ca, rfl⟩ := ha
    obtain ⟨bb, eb, _, lb, xb, cb, rfl⟩ := hb
    have bytes : ∀ k : Fin 11, _ = _ := fun k => congrArg (Name.byte · k) h
    simp only [to83_byte la xa ca, to83_byte lb xb cb] at bytes
    have base : ba.map upper = bb.map upper := by
      refine padded_inj (n := 8) (by simpa using la) (by simpa using lb)
        (fits fun c hc => ca c (mem_append_left _ hc))
        (fits fun c hc => cb c (mem_append_left _ hc)) fun k hk => ?_
      simpa only [hk, if_true] using bytes ⟨k, by omega⟩
    have ext : ea.map upper = eb.map upper := by
      refine padded_inj (n := 3) (by simpa using xa) (by simpa using xb)
        (fits fun c hc => ca c (mem_append_right _ hc))
        (fits fun c hc => cb c (mem_append_right _ hc)) fun k hk => ?_
      have := bytes ⟨k + 8, by omega⟩
      simpa only [Nat.add_sub_cancel, show ¬ (k + 8 < 8) by omega, if_false] using this
    have empty : ea = [] ↔ eb = [] := by
      rw [← map_eq_nil_iff (f := upper), ext, map_eq_nil_iff]
    by_cases he : ea = []
    · rw [if_pos he, if_pos (empty.mp he), base]
    · rw [if_neg he, if_neg (mt empty.mpr he), map_append, map_append, map_cons,
        map_cons, base, ext]
  · intro h
    rw [← to83_map_upper a, ← to83_map_upper b, h]

namespace LegalName

variable {s : Bytes} (h : LegalName s)

include h

/-- A legal name, packed, can be carried by an entry. -/
theorem head : (to83 s).byte 0 ≠ 0 ∧ (to83 s).byte 0 ≠ 0xE5 := by
  obtain ⟨base, ext, hne, hb, he, chars, rfl⟩ := h
  rw [to83_byte hb he chars]
  cases base with
  | nil => exact absurd rfl hne
  | cons c r =>
    have := isNameChar_spec c (chars c (by simp))
    exact ⟨this.2.2.2.1, this.2.2.2.2⟩

theorem length_le : s.length ≤ 12 := by
  obtain ⟨base, ext, _, hb, he, _, rfl⟩ := h
  split
  · omega
  · rw [length_append, length_cons]
    omega

theorem ne_nil : s ≠ [] := by
  obtain ⟨base, ext, hne, _, _, _, rfl⟩ := h
  split
  · exact hne
  · exact append_ne_nil_of_left_ne_nil hne _

theorem no_slash : ∀ c ∈ s, c ≠ slash := by
  obtain ⟨base, ext, _, _, _, chars, rfl⟩ := h
  intro c hc
  have legal : c ∈ base ++ ext → c ≠ slash := fun hc => (isNameChar_spec c (chars c hc)).2.1
  split at hc
  · exact legal (mem_append_left _ hc)
  · rcases mem_append.mp hc with hc | hc
    · exact legal (mem_append_left _ hc)
    · rcases mem_cons.mp hc with rfl | hc
      · decide
      · exact legal (mem_append_right _ hc)

theorem map_upper : LegalName (s.map upper) := by
  obtain ⟨base, ext, hne, hb, he, chars, rfl⟩ := h
  refine ⟨base.map upper, ext.map upper, by simpa using hne, by simpa using hb, by simpa using he, ?_, ?_⟩
  · intro c hc
    rw [← map_append] at hc
    obtain ⟨d, hd, rfl⟩ := List.mem_map.mp hc
    exact isNameChar_upper d (chars d hd)
  · have still : upper dot = dot := rfl
    by_cases hext : ext = []
    · rw [if_pos hext, if_pos (by rw [hext]; rfl)]
    · rw [if_neg hext, if_neg (by simpa using hext), map_append, map_cons, still]

end LegalName

/-! ## Paths as keys -/

/-- The upper-cased components of a path. -/
def pathKey (path : List UInt8) : List (List UInt8) := (segments path).map (List.map upper)

/-- A list of upper-cased legal names. -/
def IsKey (k : List (List UInt8)) : Prop := ∀ s ∈ k, LegalName s ∧ s.map upper = s

theorem IsKey.append {a b : List Bytes} : IsKey (a ++ b) ↔ IsKey a ∧ IsKey b := by
  unfold IsKey
  simp only [mem_append]
  constructor
  · intro h
    exact ⟨fun s hs => h s (Or.inl hs), fun s hs => h s (Or.inr hs)⟩
  · rintro ⟨ha, hb⟩ s (hs | hs)
    · exact ha s hs
    · exact hb s hs

/-- Keys are told apart by their packed names. -/
theorem IsKey.ext : ∀ {k k' : List Bytes}, IsKey k → IsKey k' → k.map to83 = k'.map to83 → k = k'
  | [], [], _, _, _ => rfl
  | [], _ :: _, _, _, h => by cases h
  | _ :: _, [], _, _, h => by cases h
  | s :: k, s' :: k', hk, hk', h => by
    rw [map_cons, map_cons, List.cons.injEq] at h
    obtain ⟨legal, up⟩ := hk s mem_cons_self
    obtain ⟨legal', up'⟩ := hk' s' mem_cons_self
    have head : s = s' := by
      rw [← up, ← up']
      exact (to83_eq_iff legal legal').mp h.1
    have tail := IsKey.ext (fun x hx => hk x (mem_cons_of_mem _ hx))
      (fun x hx => hk' x (mem_cons_of_mem _ hx)) h.2
    rw [head, tail]

theorem IsKey.prefix_iff {k k' : List Bytes} (hk : IsKey k) (hk' : IsKey k') :
    k.map to83 <+: k'.map to83 ↔ k <+: k' := by
  constructor
  · rintro ⟨r, hr⟩
    obtain ⟨a, b, rfl, ha, _⟩ := map_eq_append_iff.mp hr.symm
    have same := IsKey.ext (IsKey.append.mp hk').1 hk ha
    exact ⟨b, by rw [same]⟩
  · rintro ⟨r, rfl⟩
    rw [map_append]
    exact List.prefix_append _ _

theorem LegalPath.isKey {path : Bytes} (h : LegalPath path) : IsKey (pathKey path) := by
  intro s hs
  obtain ⟨s', hs', rfl⟩ := List.mem_map.mp hs
  refine ⟨(h.legal s' hs').map_upper, ?_⟩
  rw [List.map_map]
  exact map_congr_left fun c _ => upper_upper c

/-- **On a legal path the engine's names are the key's, packed.** -/
theorem LegalPath.target {path : Bytes} (h : LegalPath path) {p : List Name} {t : Name}
    (ht : CanBoot.target path = some (p, t)) : p ++ [t] = (pathKey path).map to83 := by
  rw [target_of_segments (fun s hs => by have := (h.legal s hs).length_le; omega) ht, pathKey, List.map_map]
  exact map_congr_left fun s _ => (to83_map_upper s).symm

/-- A legal name behind a slash is a legal path. -/
theorem LegalName.path {s : Bytes} (h : LegalName s) : LegalPath (slash :: s) where
  short := by
    have := h.length_le
    rw [length_cons]
    omega
  legal a ha := by
    have split := segments_append_slash [] s
    rw [nil_append, segments_of_no_slash h.no_slash, if_neg h.ne_nil] at split
    rw [split] at ha
    have : a = s := by simpa [segments] using ha
    rw [this]
    exact h

/-- The leaf of a legal path is a name an entry can carry. -/
theorem LegalPath.leaf {path : Bytes} (h : LegalPath path) {p : List Name} {t : Name}
    (ht : CanBoot.target path = some (p, t)) : t.byte 0 ≠ 0 ∧ t.byte 0 ≠ 0xE5 ∧ t.byte 0 ≠ dot := by
  obtain ⟨⟨parent, leaf⟩, split, same⟩ := map_eq_some_iff.mp ht
  obtain ⟨rfl, rfl⟩ := Prod.mk.inj same
  have mem : leaf ∈ segments path := by
    rw [(segments_splitLast split).1]
    simp
  have := (h.legal leaf mem).head
  exact ⟨this.1, this.2, to83_head_ne_dot leaf⟩

end CanBoot
