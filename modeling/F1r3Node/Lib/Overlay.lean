import Mathlib.Data.List.AList

/-! # Maps over a base

A finite map is laid over a function that answers for the keys it does not hold.
-/

namespace F1r3Node.Lib

variable {κ ν ρ : Type} [DecidableEq κ]

def overlay (m : AList fun _ : κ => ν) (base : κ → ν) (k : κ) : ν := (m.lookup k).getD (base k)

theorem overlay_empty (base : κ → ν) : overlay ∅ base = base := by
  funext k
  simp [overlay]

theorem overlay_insert (m : AList fun _ : κ => ν) (base : κ → ν) (k : κ) (v : ν) :
    overlay (m.insert k v) base = Function.update (overlay m base) k v := by
  funext k'
  by_cases h : k' = k
  · subst h
    simp [overlay]
  · simp [overlay, h]

theorem overlay_of_lookup {m : AList fun _ : κ => ν} {base : κ → ν} {k : κ} {v : ν} (h : m.lookup k = some v) :
    overlay m base k = v := by
  rw [overlay, h, Option.getD_some]

theorem overlay_of_absent {m : AList fun _ : κ => ν} {base : κ → ν} {k : κ} (h : m.lookup k = none) :
    overlay m base k = base k := by
  rw [overlay, h, Option.getD_none]

theorem foldl_update_of_notMem {entries : List ((_ : κ) × ν)} (base : κ → ν) {k : κ} (hk : k ∉ entries.keys) :
    entries.foldl (fun f e => Function.update f e.1 e.2) base k = base k := by
  induction entries generalizing base with
  | nil => rfl
  | cons e entries ih =>
    rw [List.keys_cons, List.mem_cons, not_or] at hk
    rw [List.foldl_cons, ih _ hk.2, Function.update_of_ne hk.1]

theorem foldl_update_eq_overlay (m : AList fun _ : κ => ν) (base : κ → ν) {entries : List ((_ : κ) × ν)}
    (hPerm : entries.Perm m.entries) :
    entries.foldl (fun f e => Function.update f e.1 e.2) base = overlay m base := by
  have hNodup : entries.NodupKeys := (List.perm_nodupKeys hPerm).mpr m.nodupKeys
  have hLookup : ∀ k, m.lookup k = entries.dlookup k := fun k => (List.perm_dlookup k hNodup hPerm).symm
  funext k
  rw [overlay, hLookup]
  clear hLookup hPerm
  induction entries generalizing base with
  | nil => rfl
  | cons e entries ih =>
    obtain ⟨k', v⟩ := e
    obtain ⟨hFresh, hRest⟩ := List.nodupKeys_cons.mp hNodup
    rw [List.foldl_cons]
    by_cases h : k = k'
    · subst h
      rw [foldl_update_of_notMem _ hFresh, Function.update_self, List.dlookup_cons_eq, Option.getD_some]
    · rw [ih _ hRest, List.dlookup_cons_ne _ _ h, Function.update_of_ne h]

theorem foldl_component {σ α : Type} {apply : σ → α → σ} {act : (_ : κ) × ν → α} {get : σ → κ → ν}
    {set : σ → (κ → ν) → σ} (hApply : ∀ s e, apply s (act e) = set s (Function.update (get s) e.1 e.2))
    (hGet : ∀ s f, get (set s f) = f) (hSet : ∀ s f g, set (set s f) g = set s g) (hSelf : ∀ s, set s (get s) = s)
    (entries : List ((_ : κ) × ν)) (s : σ) :
    (entries.map act).foldl apply s = set s (entries.foldl (fun f e => Function.update f e.1 e.2) (get s)) := by
  induction entries generalizing s with
  | nil => exact (hSelf s).symm
  | cons e entries ih => rw [List.map_cons, List.foldl_cons, ih, hApply, hGet, hSet, List.foldl_cons]

/-- Values that are fetched from the base with the state of a cache. -/
abbrev Fetch (σ ν : Type) := σ → ν × σ

variable {σ : Type}

def readEntry (m : AList fun _ : κ => ν) (k : κ) (fetch : Fetch σ ν) (cache : σ) : ν × AList (fun _ : κ => ν) × σ :=
  match m.lookup k with
  | some existing => (existing, m, cache)
  | none =>
    let (fromBase, cache) := fetch cache
    (fromBase, m.insert k fromBase, cache)

def editEntry (m : AList fun _ : κ => ν) (k : κ) (fetch : Fetch σ ν) (edit : ν → ν × ρ) (cache : σ) :
    ρ × AList (fun _ : κ => ν) × σ :=
  match m.lookup k with
  | some existing => ((edit existing).2, m.insert k (edit existing).1, cache)
  | none =>
    let (fromBase, cache) := fetch cache
    ((edit fromBase).2, m.insert k (edit fromBase).1, cache)

section

variable {m : AList fun _ : κ => ν} {base : κ → ν} {k : κ} {fetch : Fetch σ ν} {cache : σ} {Inv : σ → Prop}
  (hFetch : (fetch cache).1 = base k) (hCache : Inv cache) (hKeeps : Inv (fetch cache).2)

include hFetch hCache hKeeps

theorem readEntry_spec :
    (readEntry m k fetch cache).1 = overlay m base k ∧
      overlay (readEntry m k fetch cache).2.1 base = overlay m base ∧ Inv (readEntry m k fetch cache).2.2 := by
  rw [readEntry]
  cases hLookup : m.lookup k with
  | some existing => exact ⟨(overlay_of_lookup hLookup).symm, rfl, hCache⟩
  | none =>
    have hSame : overlay m base k = base k := overlay_of_absent hLookup
    refine ⟨hFetch.trans hSame.symm, ?_, hKeeps⟩
    dsimp only
    rw [overlay_insert, hFetch, ← hSame, Function.update_eq_self]

theorem editEntry_spec (edit : ν → ν × ρ) :
    (editEntry m k fetch edit cache).1 = (edit (overlay m base k)).2 ∧
      overlay (editEntry m k fetch edit cache).2.1 base =
        Function.update (overlay m base) k (edit (overlay m base k)).1 ∧
      Inv (editEntry m k fetch edit cache).2.2 := by
  rw [editEntry]
  cases hLookup : m.lookup k with
  | some existing =>
    rw [overlay_of_lookup hLookup]
    exact ⟨rfl, overlay_insert m base k _, hCache⟩
  | none =>
    rw [overlay_of_absent hLookup, ← hFetch]
    exact ⟨rfl, overlay_insert m base k _, hKeeps⟩

end

end F1r3Node.Lib
