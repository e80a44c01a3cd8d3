import Mathlib.Data.List.AList
import Mathlib.Data.List.Induction
import Mathlib.Algebra.BigOperators.Group.List.Basic

/-! # Folding keyed values into a map

Entries are folded into a map one after the other; a value meets the one its key already has in an operation that may
fail.
-/

namespace F1r3Node.Lib.KeyedFolds

variable {κ V : Type} [DecidableEq κ] (op : V → V → Option V)

def absorb (m : AList fun _ : κ => V) (entry : Sigma fun _ : κ => V) : Option (AList fun _ : κ => V) :=
  match m.lookup entry.1 with
  | none => some (m.insert entry.1 entry.2)
  | some existing => (op existing entry.2).map (m.insert entry.1)

def valuesAt (k : κ) (entries : List (Sigma fun _ : κ => V)) : List V :=
  entries.filterMap fun entry => if entry.1 = k then some entry.2 else none

def gather : List V → Option (Option V)
  | [] => some none
  | v :: vs => (vs.foldlM op v).map some

def gatherNext (v : V) : Option V → Option (Option V)
  | none => some (some v)
  | some existing => (op existing v).map some

variable {op} {k : κ} {entries : List (Sigma fun _ : κ => V)} {m : AList fun _ : κ => V}

theorem gather_append_singleton (vs : List V) (v : V) : gather op (vs ++ [v]) = (gather op vs).bind (gatherNext op v) := by
  cases vs with
  | nil => rfl
  | cons w vs =>
    change ((vs ++ [v]).foldlM op w).map some = ((vs.foldlM op w).map some).bind (gatherNext op v)
    rw [List.foldlM_append]
    cases vs.foldlM op w with
    | none => rfl
    | some existing =>
      change ((op existing v).bind pure).map some = (op existing v).map some
      cases op existing v with
      | none => rfl
      | some combined => rfl

theorem gather_eq_some_none_iff {vs : List V} : gather op vs = some none ↔ vs = [] := by
  cases vs with
  | nil => exact ⟨fun _ => rfl, fun _ => rfl⟩
  | cons v vs => simp [gather]

theorem gather_eq_none_of_prefix {vs ws : List V} (h : vs <+: ws) (hNone : gather op vs = none) : gather op ws = none := by
  obtain ⟨rest, rfl⟩ := h
  induction rest using List.reverseRecOn with
  | nil => rwa [List.append_nil]
  | append_singleton rest v ih => rw [← List.append_assoc, gather_append_singleton, ih, Option.bind_none]

theorem valuesAt_append (entries entries' : List (Sigma fun _ : κ => V)) :
    valuesAt k (entries ++ entries') = valuesAt k entries ++ valuesAt k entries' :=
  List.filterMap_append

theorem valuesAt_singleton_self (v : V) : valuesAt k [⟨k, v⟩] = [v] := by simp [valuesAt]

variable {entry : Sigma fun _ : κ => V}

theorem valuesAt_singleton_ne (h : k ≠ entry.1) : valuesAt k [entry] = [] := by
  simp [valuesAt, h.symm]

theorem mem_valuesAt {v : V} : v ∈ valuesAt k entries ↔ ⟨k, v⟩ ∈ entries := by
  rw [valuesAt, List.mem_filterMap]
  constructor
  · rintro ⟨⟨k', v'⟩, hMem, hSome⟩
    split_ifs at hSome with hk
    obtain rfl : k' = k := hk
    obtain rfl := Option.some.inj hSome
    exact hMem
  · intro hMem
    exact ⟨⟨k, v⟩, hMem, if_pos rfl⟩

theorem valuesAt_entries (m : AList fun _ : κ => V) (k : κ) : valuesAt k m.entries = (m.lookup k).toList := by
  have hList : ∀ {entries : List (Sigma fun _ : κ => V)}, entries.NodupKeys →
      valuesAt k entries = (entries.dlookup k).toList := by
    intro entries hNodup
    induction entries with
    | nil => rfl
    | cons entry entries ih =>
      obtain ⟨hFresh, hRest⟩ := List.nodupKeys_cons.mp hNodup
      rw [← List.singleton_append, valuesAt_append, ih hRest, List.singleton_append]
      obtain ⟨k', v⟩ := entry
      obtain rfl | hNe := eq_or_ne k k'
      · rw [valuesAt_singleton_self, List.dlookup_cons_eq, List.dlookup_eq_none.mpr hFresh]
        rfl
      · rw [valuesAt_singleton_ne hNe, List.dlookup_cons_ne _ _ hNe]
        rfl
  exact hList m.nodupKeys

theorem sum_map_ite_key {M : Type} [AddMonoid M] (m : AList fun _ : κ => V) (k : κ) (g : V → M) :
    (m.entries.map fun entry => if entry.1 = k then g entry.2 else 0).sum = ((m.lookup k).map g).getD 0 := by
  have hList : ∀ entries : List (Sigma fun _ : κ => V),
      (entries.map fun entry => if entry.1 = k then g entry.2 else 0).sum = ((valuesAt k entries).map g).sum := by
    intro entries
    induction entries with
    | nil => rfl
    | cons entry entries ih =>
      rw [List.map_cons, List.sum_cons, ih, ← List.singleton_append, valuesAt_append, List.map_append, List.sum_append]
      obtain ⟨k', v⟩ := entry
      obtain rfl | hNe := eq_or_ne k k'
      · rw [if_pos rfl, valuesAt_singleton_self, List.map_singleton, List.sum_singleton]
      · rw [if_neg hNe.symm, valuesAt_singleton_ne hNe, List.map_nil, List.sum_nil]
  rw [hList, valuesAt_entries]
  cases m.lookup k with
  | none => rfl
  | some v => rw [Option.toList_some, List.map_singleton, List.sum_singleton, Option.map_some, Option.getD_some]

theorem valuesAt_flatMap {α : Type} (f : α → AList fun _ : κ => V) (items : List α) :
    valuesAt k (items.flatMap fun a => (f a).entries) = items.filterMap fun a => (f a).lookup k := by
  induction items with
  | nil => rfl
  | cons a items ih =>
    rw [List.flatMap_cons, valuesAt_append, ih, valuesAt_entries]
    rw [List.filterMap_cons]
    cases (f a).lookup k with
    | none => rfl
    | some v => rfl

theorem absorb_eq_some_iff {m' : AList fun _ : κ => V} :
    absorb op m entry = some m' ↔
      ∃ v, gatherNext op entry.2 (m.lookup entry.1) = some (some v) ∧ m' = m.insert entry.1 v := by
  unfold absorb
  cases m.lookup entry.1 with
  | none => simp [gatherNext, eq_comm]
  | some existing =>
    simp only [gatherNext, Option.map_eq_some_iff, Option.some.injEq, exists_eq_right]
    exact exists_congr fun v => and_congr_right fun _ => eq_comm

theorem absorb_eq_none_iff :
    absorb op m entry = none ↔ gatherNext op entry.2 (m.lookup entry.1) = none := by
  unfold absorb
  cases m.lookup entry.1 with
  | none => simp [gatherNext]
  | some existing => simp [gatherNext]

theorem lookup_foldlM_absorb (h : entries.foldlM (absorb op) ∅ = some m) (k : κ) :
    gather op (valuesAt k entries) = some (m.lookup k) := by
  induction entries using List.reverseRecOn generalizing m with
  | nil =>
    obtain rfl := Option.some.inj h
    rfl
  | append_singleton entries entry ih =>
    rw [List.foldlM_append] at h
    obtain ⟨before, hBefore, hLast⟩ := Option.bind_eq_some_iff.mp h
    have hStep : absorb op before entry = some m := by simpa using hLast
    obtain ⟨v, hNext, rfl⟩ := absorb_eq_some_iff.mp hStep
    rw [valuesAt_append]
    obtain rfl | hNe := eq_or_ne k entry.1
    · rw [valuesAt_singleton_self, gather_append_singleton, ih hBefore, Option.bind_some, hNext, AList.lookup_insert]
    · rw [valuesAt_singleton_ne hNe, List.append_nil, ih hBefore, AList.lookup_insert_ne hNe]

theorem foldlM_absorb_eq_none_iff :
    entries.foldlM (absorb op) ∅ = none ↔ ∃ k, gather op (valuesAt k entries) = none := by
  constructor
  · intro h
    induction entries using List.reverseRecOn with
    | nil => cases h
    | append_singleton entries entry ih =>
      rw [List.foldlM_append] at h
      cases hBefore : entries.foldlM (absorb op) ∅ with
      | none =>
        obtain ⟨k, hk⟩ := ih hBefore
        refine ⟨k, gather_eq_none_of_prefix ?_ hk⟩
        rw [valuesAt_append]
        exact List.prefix_append _ _
      | some before =>
        rw [hBefore] at h
        have hStep : absorb op before entry = none := by simpa using h
        refine ⟨entry.1, ?_⟩
        rw [valuesAt_append, valuesAt_singleton_self, gather_append_singleton, lookup_foldlM_absorb hBefore,
          Option.bind_some, absorb_eq_none_iff.mp hStep]
  · rintro ⟨k, hk⟩
    cases hFold : entries.foldlM (absorb op) ∅ with
    | none => rfl
    | some m =>
      rw [lookup_foldlM_absorb hFold] at hk
      cases hk

end F1r3Node.Lib.KeyedFolds
