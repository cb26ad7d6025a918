import CanBoot.Fs.Fat32.Root
import CanBoot.Laws.Fat32.Content

/-!
# Listing a directory

`canboot_fat32_list_path` and `canboot_fat32_list_root` report entries to a callback until it asks
them to stop. On a directory that is in order each is a fold of the callback over the entries it
does not skip (`report`): the listed ones, and the regular files of the root.
-/

namespace CanBoot

open Lib Lib.Prog List

variable {υ : Type} {fs : Fat32} {v : Vol} {m : Media} {fuel : Nat}

/-- `canboot_fat32_list_path` reports this entry. -/
def Entry.listed (e : Entry) : Bool := e.live && !isDotName e.name

/-- `canboot_fat32_list_root` reports this entry. -/
def Entry.regular (e : Entry) : Bool := e.live && !e.isDir

/-- The entries of a directory that pass a filter, in order. -/
def Fat32.listing (fs : Fat32) (v : Vol) (keep : Entry → Bool) (cs : List Nat) : List Entry :=
  ((fs.locs cs).map v.slotAt).filter keep

/-- The callback over a list of entries: how many it was called with, and its state. -/
def report (cb : υ → Entry → Bool × υ) : List Entry → Nat × υ → Nat × υ
  | [], acc => acc
  | e :: es, acc =>
    if (cb acc.2 e).1 then report cb es (acc.1 + 1, (cb acc.2 e).2) else (acc.1 + 1, (cb acc.2 e).2)

/-- What both calls do at an entry. -/
def listVisit (keep : Entry → Bool) (cb : υ → Entry → Bool × υ) (acc : Nat × υ) (e : Entry) : (Nat × υ) ⊕ (Nat × υ) :=
  if e.isEnd then .inr acc
  else if keep e then
    if (cb acc.2 e).1 then .inl (acc.1 + 1, (cb acc.2 e).2) else .inr (acc.1 + 1, (cb acc.2 e).2)
  else .inl acc

/-- A visit of entries one by one, wherever they stand. -/
def scanList {α β : Type} (visit : α → Entry → α ⊕ β) : List Entry → α → α ⊕ β
  | [], a => .inl a
  | e :: es, a =>
    match visit a e with
    | .inl a' => scanList visit es a'
    | .inr b => .inr b

namespace Fat32

theorem listPathVisit_eq (cb : υ → Bytes → Nat → Bool → Bool × υ) (c : Nat) (acc : Nat × υ)
    (i : Nat) (e : Entry) : listPathVisit cb c acc i e =
      listVisit Entry.listed (fun u e => cb u (nameFrom83 e.name) e.size e.isDir) acc e := by
  unfold listPathVisit listVisit Entry.listed Entry.live
  cases e.isEnd <;> cases e.isDeleted <;> cases e.isLfn <;> cases e.isVolumeId <;> cases isDotName e.name <;> simp

theorem listRootVisit_eq (cb : υ → Bytes → Nat → Bool × υ) (c : Nat) (acc : Nat × υ) (i : Nat) (e : Entry)
    : listRootVisit cb c acc i e = listVisit Entry.regular (fun u e => cb u (nameFrom83 e.name) e.size) acc e := by
  unfold listRootVisit listVisit Entry.regular Entry.live
  cases e.isEnd <;> cases e.isDeleted <;> cases e.isLfn <;> cases e.isVolumeId <;> cases e.isDir <;> simp

theorem scanList_append {α β : Type} (visit : α → Entry → α ⊕ β) (es es' : List Entry) (a : α) :
    scanList visit (es ++ es') a = match scanList visit es a with
      | .inl a' => scanList visit es' a'
      | .inr b => .inr b := by
  induction es generalizing a with
  | nil => rfl
  | cons e es ih =>
    rw [cons_append, scanList, scanList]
    cases visit a e with
    | inl a' => exact ih a'
    | inr b => rfl

/-- A walk whose visits do not ask where they are is a scan of the entries. -/
theorem scanDir_scanList {α β : Type} {visit : Nat → α → Nat → Entry → α ⊕ β}
    (plain : α → Entry → α ⊕ β) (hv : ∀ c a i e, visit c a i e = plain a e) (cs : List Nat) (a : α) :
    scanDir visit (fun _ a => a) v fs.entries cs a = scanList plain ((fs.locs cs).map v.slotAt) a := by
  have inside : ∀ (c : Nat) (is : List Nat) (a : α), scanEntries (visit c) (v.data c) is a =
      scanList plain ((is.map fun i => (c, i)).map v.slotAt) a := by
    intro c is
    induction is with
    | nil => intro a; rfl
    | cons i is ih =>
      intro a
      rw [scanEntries, hv, map_cons, map_cons, scanList]
      have same : entryAt (v.data c) i = v.slotAt (c, i) := rfl
      rw [same]
      cases plain a (v.slotAt (c, i)) with
      | inl a' => exact ih a'
      | inr b => rfl
  induction cs generalizing a with
  | nil => rfl
  | cons c cs ih =>
    rw [scanDir, inside, locs, flatMap_cons, map_append, scanList_append]
    cases scanList plain (((range fs.entries).map fun i => (c, i)).map v.slotAt) a with
    | inl a' => exact ih a'
    | inr b => rfl

/-- Where only end entries follow an end entry, the listing is a fold over what it keeps. -/
theorem scanList_listVisit {keep : Entry → Bool} (cb : υ → Entry → Bool × υ)
    (live : ∀ e, keep e = true → e.isEnd = false) : ∀ (es : List Entry) (acc : Nat × υ),
    es.Pairwise (fun a b => a.isEnd = true → b.isEnd = true) →
    Sum.elim id id (scanList (listVisit keep cb) es acc) = report cb (es.filter keep) acc
  | [], _, _ => rfl
  | e :: es, acc, order => by
    obtain ⟨later, rest⟩ := pairwise_cons.mp order
    have ih := scanList_listVisit cb live es
    rw [scanList, listVisit]
    by_cases hend : e.isEnd = true
    · -- nothing from here on is kept
      have none' : (e :: es).filter keep = [] := by
        rw [filter_eq_nil_iff]
        intro a ha hkeep
        have : a.isEnd = true := by
          rcases mem_cons.mp ha with rfl | ha
          · exact hend
          · exact later a ha hend
        rw [live a hkeep] at this
        cases this
      rw [if_pos hend, none']
      rfl
    · rw [if_neg hend]
      by_cases hk : keep e = true
      · rw [if_pos hk, filter_cons_of_pos hk, report]
        by_cases go : (cb acc.2 e).1 = true
        · rw [if_pos go, if_pos go]
          exact ih _ rest
        · rw [if_neg go, if_neg go]
          rfl
      · rw [if_neg hk, filter_cons_of_neg hk]
        exact ih _ rest

theorem isEnd_of_listed (e : Entry) (h : e.listed = true) : e.isEnd = false :=
  isEnd_of_live (Bool.and_eq_true_iff.mp h).1

theorem isEnd_of_regular (e : Entry) (h : e.regular = true) : e.isEnd = false :=
  isEnd_of_live (Bool.and_eq_true_iff.mp h).1

end Fat32

namespace Vol.Layout

open Fat32

variable {T : Objs} {K : Chains}

theorem order_entries (h : v.Laid fs T K) {p : List Name} {dc : Nat} (hp : T p = some (.dir dc)) :
    ((fs.locs (K p)).map v.slotAt).Pairwise fun a b => a.isEnd = true → b.isEnd = true :=
  pairwise_map.mpr (h.dir hp).terminated

/-- **`canboot_fat32_list_path` reports the listed entries of the directory, in order.** -/
theorem run_listPath (g : fs.Geometry) (h : (fs.view m).Laid fs T K) (enough : fs.totalClusters < fuel) {path : Bytes}
    {dc : Nat} (hp : T (dirNames path) = some (.dir dc)) (cb : υ → Bytes → Nat → Bool → Bool × υ) (user : υ) :
    (canbootFat32ListPath fs path cb user).run fuel m = .ok (report (fun u e => cb u (nameFrom83 e.name) e.size e.isDir)
        (fs.listing (fs.view m) Entry.listed (K (dirNames path))) (0, user)) m := by
  have resolve := h.run_resolveDir g enough path
  rw [hp] at resolve
  have chain : (fs.view m).HasChain fs dc (K (dirNames path)) := h.chain hp
  have walk := run_dirWalk g (listPathVisit cb) (fun _ a => a) (0, user) chain.isChain
    chain.inRange (h.length_lt hp enough)
  rw [scanDir_scanList _ (listPathVisit_eq cb)] at walk
  have fold := scanList_listVisit (fun u e => cb u (nameFrom83 e.name) e.size e.isDir)
    isEnd_of_listed _ (0, user) (h.order_entries hp)
  rw [canbootFat32ListPath, run_bind_ok resolve, run_bind_ok (run_fitsBuffer g), run_bind_ok walk, listing, ← fold]
  cases scanList (listVisit Entry.listed fun u e => cb u (nameFrom83 e.name) e.size e.isDir)
      ((fs.locs (K (dirNames path))).map (fs.view m).slotAt) (0, user) with
  | inl r => rfl
  | inr r => rfl

/-- **`canboot_fat32_list_root` reports the regular files of the root, in order.** -/
theorem run_listRoot (g : fs.Geometry) (h : (fs.view m).Laid fs T K)
    (enough : fs.totalClusters < fuel) (cb : υ → Bytes → Nat → Bool × υ) (user : υ) :
    (canbootFat32ListRoot fs cb user).run fuel m = .ok (report (fun u e => cb u (nameFrom83 e.name) e.size)
        (fs.listing (fs.view m) Entry.regular (K [])) (0, user)) m := by
  have chain : (fs.view m).HasChain fs fs.rootCluster (K []) := h.chain h.start
  have walk := run_dirWalk g (listRootVisit cb) (fun _ a => a) (0, user)
    (chain.belowEoc (h.fits h.start)) chain.inRange (h.length_lt h.start enough)
  rw [scanDir_scanList _ (listRootVisit_eq cb)] at walk
  have fold := scanList_listVisit (fun u e => cb u (nameFrom83 e.name) e.size)
    isEnd_of_regular _ (0, user) (h.order_entries h.start)
  rw [canbootFat32ListRoot, run_bind_ok (run_fitsBuffer g), run_bind_ok walk, listing, ← fold]
  cases scanList (listVisit Entry.regular fun u e => cb u (nameFrom83 e.name) e.size)
      ((fs.locs (K [])).map (fs.view m).slotAt) (0, user) with
  | inl r => rfl
  | inr r => rfl

end Vol.Layout

end CanBoot
