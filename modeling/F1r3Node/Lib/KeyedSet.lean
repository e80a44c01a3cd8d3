import Mathlib.Data.List.AList
import Mathlib.Data.Finset.Insert

/-! # Hash sets of records and inverted indexes

The elements of a hash set are told apart by a key that need not cover the whole record. An inverted index lists for
each key the positions at which a record with that key occurs.
-/

namespace F1r3Node.Lib

variable {α κ : Type*} [DecidableEq κ]

structure KeyedSet (key : α → κ) where
  items : List α
  nodup : (items.map key).Nodup

namespace KeyedSet

variable {key : α → κ}

def empty (key : α → κ) : KeyedSet key := ⟨[], List.nodup_nil⟩

def contains (s : KeyedSet key) (a : α) : Bool := key a ∈ s.items.map key

def isEmpty (s : KeyedSet key) : Bool := s.items.isEmpty

def filter (s : KeyedSet key) (p : α → Bool) : KeyedSet key :=
  ⟨s.items.filter p, (List.filter_sublist.map key).nodup s.nodup⟩

def inter (s t : KeyedSet key) : KeyedSet key :=
  if s.items.length ≤ t.items.length then s.filter t.contains else t.filter s.contains

def diff (s t : KeyedSet key) : KeyedSet key := s.filter fun a => !t.contains a

def append (s t : KeyedSet key) : KeyedSet key :=
  ⟨s.items ++ (t.diff s).items, by
    rw [List.map_append]
    refine List.nodup_append.mpr ⟨s.nodup, (t.diff s).nodup, ?_⟩
    intro k hk k' hk' hEq
    obtain ⟨a, ha, rfl⟩ := List.mem_map.mp hk'
    have hNot := (List.mem_filter.mp ha).2
    rw [Bool.not_eq_true', ← Bool.not_eq_true, contains, decide_eq_true_eq] at hNot
    exact hNot (hEq ▸ hk)⟩

def union (s t : KeyedSet key) : KeyedSet key :=
  if t.items.length ≤ s.items.length then s.append t else t.append s

def insert (s : KeyedSet key) (a : α) : KeyedSet key :=
  if h : s.contains a then s
  else ⟨a :: s.items, List.nodup_cons.mpr ⟨by simpa [contains] using h, s.nodup⟩⟩

def ofList (key : α → κ) (l : List α) : KeyedSet key := l.foldl insert (empty key)

variable {a : α}

omit [DecidableEq κ] in
@[simp] theorem mem_filter {s : KeyedSet key} {p : α → Bool} :
    a ∈ (s.filter p).items ↔ a ∈ s.items ∧ p a = true :=
  List.mem_filter

def keys (s : KeyedSet key) : List κ := s.items.map key

variable {k : κ}

omit [DecidableEq κ] in
theorem mem_keys {s : KeyedSet key} : k ∈ s.keys ↔ ∃ a ∈ s.items, key a = k := List.mem_map

theorem contains_iff {s : KeyedSet key} : s.contains a = true ↔ key a ∈ s.keys :=
  decide_eq_true_iff

theorem not_contains_iff {s : KeyedSet key} : (!s.contains a) = true ↔ key a ∉ s.keys := by
  rw [Bool.not_eq_true', ← Bool.not_eq_true, contains_iff]

theorem mem_diff {s t : KeyedSet key} : a ∈ (s.diff t).items ↔ a ∈ s.items ∧ key a ∉ t.keys := by
  rw [diff, mem_filter, not_contains_iff]

theorem mem_keys_filter_contains {s t : KeyedSet key} :
    k ∈ (s.filter t.contains).keys ↔ k ∈ s.keys ∧ k ∈ t.keys := by
  simp only [mem_keys, mem_filter]
  constructor
  · rintro ⟨a, ⟨ha, hContains⟩, rfl⟩
    exact ⟨⟨a, ha, rfl⟩, mem_keys.mp (contains_iff.mp hContains)⟩
  · rintro ⟨⟨a, ha, rfl⟩, hOther⟩
    exact ⟨a, ⟨ha, contains_iff.mpr (mem_keys.mpr hOther)⟩, rfl⟩

theorem mem_keys_inter {s t : KeyedSet key} : k ∈ (s.inter t).keys ↔ k ∈ s.keys ∧ k ∈ t.keys := by
  rw [inter]
  split_ifs
  · exact mem_keys_filter_contains
  · rw [mem_keys_filter_contains, and_comm]

theorem mem_keys_diff {s t : KeyedSet key} : k ∈ (s.diff t).keys ↔ k ∈ s.keys ∧ k ∉ t.keys := by
  rw [mem_keys, mem_keys]
  constructor
  · rintro ⟨a, ha, rfl⟩
    obtain ⟨hMem, hNot⟩ := mem_diff.mp ha
    exact ⟨⟨a, hMem, rfl⟩, hNot⟩
  · rintro ⟨⟨a, ha, rfl⟩, hNot⟩
    exact ⟨a, mem_diff.mpr ⟨ha, hNot⟩, rfl⟩

theorem mem_keys_append {s t : KeyedSet key} : k ∈ (s.append t).keys ↔ k ∈ s.keys ∨ k ∈ t.keys := by
  have hSplit : k ∈ (s.append t).keys ↔ k ∈ s.keys ∨ k ∈ (t.diff s).keys := by
    rw [keys, append, List.map_append, List.mem_append]
    rfl
  rw [hSplit, mem_keys_diff]
  tauto

theorem mem_keys_union {s t : KeyedSet key} : k ∈ (s.union t).keys ↔ k ∈ s.keys ∨ k ∈ t.keys := by
  rw [union]
  split_ifs
  · exact mem_keys_append
  · rw [mem_keys_append, or_comm]

omit [DecidableEq κ] in
theorem isEmpty_eq_false_iff {s : KeyedSet key} : s.isEmpty = false ↔ ∃ k, k ∈ s.keys := by
  rw [isEmpty, List.isEmpty_eq_false_iff_exists_mem]
  constructor
  · rintro ⟨a, ha⟩
    exact ⟨key a, mem_keys.mpr ⟨a, ha, rfl⟩⟩
  · rintro ⟨k, hk⟩
    obtain ⟨a, ha, -⟩ := mem_keys.mp hk
    exact ⟨a, ha⟩

omit [DecidableEq κ] in
theorem mem_iff_of_injOn {U : Set α} (hU : Set.InjOn key U) {s : KeyedSet key} (hs : ∀ a ∈ s.items, a ∈ U)
    (ha : a ∈ U) : a ∈ s.items ↔ key a ∈ s.keys := by
  rw [mem_keys]
  constructor
  · exact fun h => ⟨a, h, rfl⟩
  · rintro ⟨b, hb, hEq⟩
    exact hU (hs b hb) ha hEq ▸ hb

omit [DecidableEq κ] in
theorem eq_of_items {s t : KeyedSet key} (h : s.items = t.items) : s = t := by
  cases s
  cases t
  obtain rfl := h
  rfl

theorem empty_append (s : KeyedSet key) : (empty key).append s = s := by
  apply eq_of_items
  change [] ++ s.items.filter _ = s.items
  rw [List.nil_append]
  exact List.filter_eq_self.mpr fun a _ => not_contains_iff.mpr List.not_mem_nil

theorem diff_congr {s t t' : KeyedSet key} (h : ∀ k, k ∈ t.keys ↔ k ∈ t'.keys) : s.diff t = s.diff t' := by
  apply eq_of_items
  refine List.filter_congr fun a _ => ?_
  rw [Bool.eq_iff_iff, not_contains_iff, not_contains_iff, h]

theorem diff_append_diff (s t created created' : KeyedSet key) :
    ((s.diff created).append t).diff (created.append created') = (s.append t).diff (created.append created') := by
  apply eq_of_items
  have hOut : ∀ a, (!(created.append created').contains a) = true → key a ∉ created.keys := fun a ha hIn =>
    not_contains_iff.mp ha (mem_keys_append.mpr (.inl hIn))
  change (s.items.filter _ ++ t.items.filter _).filter _ = (s.items ++ t.items.filter _).filter _
  rw [List.filter_append, List.filter_append, List.filter_filter, List.filter_filter, List.filter_filter]
  congr 1
  · refine List.filter_congr fun a _ => ?_
    rw [Bool.and_eq_left_iff_imp]
    exact fun ha => not_contains_iff.mpr (hOut a ha)
  · refine List.filter_congr fun a _ => ?_
    rw [Bool.eq_iff_iff, Bool.and_eq_true, Bool.and_eq_true]
    refine and_congr_right fun ha => ?_
    rw [not_contains_iff, not_contains_iff, mem_keys_diff]
    exact not_congr (and_iff_left (hOut a ha))

theorem inter_subset {s t : KeyedSet key} (ha : a ∈ (s.inter t).items) :
    a ∈ s.items ∨ a ∈ t.items := by
  rw [inter] at ha
  split_ifs at ha
  · exact .inl (mem_filter.mp ha).1
  · exact .inr (mem_filter.mp ha).1

theorem union_subset {s t : KeyedSet key} (ha : a ∈ (s.union t).items) :
    a ∈ s.items ∨ a ∈ t.items := by
  rw [union] at ha
  split_ifs at ha
  · exact (List.mem_append.mp ha).imp_right fun h => (mem_diff.mp h).1
  · exact ((List.mem_append.mp ha).imp_right fun h => (mem_diff.mp h).1).symm

theorem insert_subset {s : KeyedSet key} {b : α} (hb : b ∈ (s.insert a).items) : b ∈ s.items ∨ b = a := by
  rw [insert] at hb
  split_ifs at hb
  · exact .inl hb
  · exact (List.mem_cons.mp hb).symm

theorem mem_keys_insert {s : KeyedSet key} : k ∈ (s.insert a).keys ↔ k ∈ s.keys ∨ k = key a := by
  rw [insert]
  split_ifs with hContains
  · refine ⟨.inl, ?_⟩
    rintro (h | rfl)
    · exact h
    · exact contains_iff.mp hContains
  · rw [keys, List.map_cons, List.mem_cons, or_comm]
    rfl

theorem foldl_insert_subset {l : List α} {s : KeyedSet key} {b : α} (hb : b ∈ (l.foldl insert s).items) :
    b ∈ s.items ∨ b ∈ l := by
  induction l generalizing s with
  | nil => exact .inl hb
  | cons a l ih =>
    obtain h | h := ih hb
    · exact (insert_subset h).imp_right fun hEq => List.mem_cons.mpr (.inl hEq)
    · exact .inr (List.mem_cons_of_mem a h)

theorem mem_keys_foldl_insert {l : List α} {s : KeyedSet key} :
    k ∈ (l.foldl insert s).keys ↔ k ∈ s.keys ∨ k ∈ l.map key := by
  induction l generalizing s with
  | nil => simp
  | cons a l ih => rw [List.foldl_cons, ih, mem_keys_insert, List.map_cons, List.mem_cons, or_assoc]

section coherent

variable {U : Set α} (hU : Set.InjOn key U) {s t : KeyedSet key} (hs : ∀ a ∈ s.items, a ∈ U)
  (ht : ∀ a ∈ t.items, a ∈ U)

include hU hs ht

theorem mem_inter_of_injOn {a : α} : a ∈ (s.inter t).items ↔ a ∈ s.items ∧ a ∈ t.items := by
  have hInter : ∀ b ∈ (s.inter t).items, b ∈ U := fun b hb => (inter_subset hb).elim (hs b) (ht b)
  constructor
  · intro ha
    obtain ⟨hKey, hKey'⟩ := mem_keys_inter.mp (mem_keys.mpr ⟨a, ha, rfl⟩)
    exact ⟨(mem_iff_of_injOn hU hs (hInter a ha)).mpr hKey, (mem_iff_of_injOn hU ht (hInter a ha)).mpr hKey'⟩
  · rintro ⟨ha, ha'⟩
    rw [mem_iff_of_injOn hU hInter (hs a ha), mem_keys_inter]
    exact ⟨mem_keys.mpr ⟨a, ha, rfl⟩, mem_keys.mpr ⟨a, ha', rfl⟩⟩

theorem mem_union_of_injOn {a : α} : a ∈ (s.union t).items ↔ a ∈ s.items ∨ a ∈ t.items := by
  have hUnion : ∀ b ∈ (s.union t).items, b ∈ U := fun b hb => (union_subset hb).elim (hs b) (ht b)
  refine ⟨union_subset, fun ha => ?_⟩
  rw [mem_iff_of_injOn hU hUnion (ha.elim (hs a) (ht a)), mem_keys_union]
  exact ha.imp (fun h => mem_keys.mpr ⟨a, h, rfl⟩) fun h => mem_keys.mpr ⟨a, h, rfl⟩

end coherent

end KeyedSet

/-- For each key the first record with that key and the positions where one occurs. -/
abbrev InvertedIndex (α κ : Type*) := AList fun _ : κ => α × Finset Nat

namespace InvertedIndex

variable {β : Type*} (key : α → κ)

def positions (index : InvertedIndex α κ) (k : κ) : Finset Nat :=
  ((index.lookup k).map Prod.snd).getD ∅

/-- `entry(a).or_default().insert(idx)`. -/
def add (idx : Nat) (index : InvertedIndex α κ) (a : α) : InvertedIndex α κ :=
  match index.lookup (key a) with
  | some (record, at_) => index.insert (key a) (record, Insert.insert idx at_)
  | none => index.insert (key a) (a, {idx})

def build (select : β → List α) (items : List β) : InvertedIndex α κ :=
  items.zipIdx.foldl (fun index item => (select item.1).foldl (add key item.2) index) ∅

variable {key}

theorem positions_add (idx : Nat) (index : InvertedIndex α κ) (a : α) (k : κ) (i : Nat) :
    i ∈ positions (add key idx index a) k ↔ i ∈ positions index k ∨ (i = idx ∧ key a = k) := by
  unfold add positions
  by_cases hk : k = key a
  · subst hk
    cases hLookup : index.lookup (key a) with
    | none => simp
    | some entry => simp [or_comm]
  · have hNe : ¬ key a = k := fun h => hk h.symm
    cases hLookup : index.lookup (key a) with
    | none => simp [AList.lookup_insert_ne hk, hNe]
    | some entry => simp [AList.lookup_insert_ne hk, hNe]

theorem positions_foldl_add (idx : Nat) (l : List α) (index : InvertedIndex α κ) (k : κ) (i : Nat) :
    i ∈ positions (l.foldl (add key idx) index) k ↔
      i ∈ positions index k ∨ (i = idx ∧ ∃ a ∈ l, key a = k) := by
  induction l generalizing index with
  | nil => simp
  | cons a l ih =>
    rw [List.foldl_cons, ih, positions_add]
    simp only [List.mem_cons, exists_eq_or_imp]
    tauto

theorem mem_positions_build {select : β → List α} {items : List β} {k : κ} {i : Nat} :
    i ∈ positions (build key select items) k ↔ ∃ b, items[i]? = some b ∧ ∃ a ∈ select b, key a = k := by
  have hGeneral : ∀ (l : List (β × Nat)) (index : InvertedIndex α κ),
      i ∈ positions (l.foldl (fun index item => (select item.1).foldl (add key item.2) index) index) k ↔
        i ∈ positions index k ∨ ∃ item ∈ l, i = item.2 ∧ ∃ a ∈ select item.1, key a = k := by
    intro l
    induction l with
    | nil => simp
    | cons item l ih =>
      intro index
      rw [List.foldl_cons, ih, positions_foldl_add]
      simp only [List.mem_cons, exists_eq_or_imp]
      exact or_assoc
  have hEmpty : positions (∅ : InvertedIndex α κ) k = ∅ := rfl
  rw [build, hGeneral, hEmpty]
  constructor
  · rintro (h | ⟨⟨b, j⟩, hMem, rfl, hSelect⟩)
    · exact absurd h (Finset.notMem_empty i)
    · exact ⟨b, by simpa using List.mem_zipIdx_iff_getElem?.mp hMem, hSelect⟩
  · rintro ⟨b, hGet, hSelect⟩
    exact .inr ⟨(b, i), List.mem_zipIdx_iff_getElem?.mpr (by simpa using hGet), rfl, hSelect⟩

def Records (key : α → κ) (Meant : α → Prop) (index : InvertedIndex α κ) : Prop :=
  ∀ k a at_, index.lookup k = some (a, at_) → key a = k ∧ Meant a

theorem Records.add {Meant : α → Prop} {index : InvertedIndex α κ} (h : Records key Meant index) {c : α}
    (hc : Meant c) (idx : Nat) : Records key Meant (add key idx index c) := by
  intro k a at_ hLookup
  unfold InvertedIndex.add at hLookup
  by_cases hk : k = key c
  · subst hk
    cases hOld : index.lookup (key c) with
    | none =>
      rw [hOld] at hLookup
      simp only [AList.lookup_insert, Option.some.injEq, Prod.mk.injEq] at hLookup
      obtain ⟨rfl, -⟩ := hLookup
      exact ⟨rfl, hc⟩
    | some entry =>
      rw [hOld] at hLookup
      simp only [AList.lookup_insert, Option.some.injEq, Prod.mk.injEq] at hLookup
      obtain ⟨rfl, -⟩ := hLookup
      exact h _ _ _ hOld
  · cases hOld : index.lookup (key c) with
    | none =>
      rw [hOld, AList.lookup_insert_ne hk] at hLookup
      exact h _ _ _ hLookup
    | some entry =>
      rw [hOld, AList.lookup_insert_ne hk] at hLookup
      exact h _ _ _ hLookup

theorem Records.foldl_add {Meant : α → Prop} {index : InvertedIndex α κ} (h : Records key Meant index)
    {l : List α} (hl : ∀ c ∈ l, Meant c) (idx : Nat) :
    Records key Meant (l.foldl (InvertedIndex.add key idx) index) := by
  induction l generalizing index with
  | nil => exact h
  | cons c l ih =>
    obtain ⟨hc, hRest⟩ := List.forall_mem_cons.mp hl
    exact ih (h.add hc idx) hRest

theorem records_build (select : β → List α) (items : List β) :
    Records key (fun a => ∃ b ∈ items, a ∈ select b) (build key select items) := by
  have hAll : ∀ (l : List (β × Nat)) {index : InvertedIndex α κ}, (∀ item ∈ l, item.1 ∈ items) →
      Records key (fun a => ∃ b ∈ items, a ∈ select b) index →
      Records key (fun a => ∃ b ∈ items, a ∈ select b)
        (l.foldl (fun index item => (select item.1).foldl (InvertedIndex.add key item.2) index) index) := by
    intro l
    induction l with
    | nil => exact fun _ hIndex => hIndex
    | cons item l ih =>
      intro index hItems hIndex
      obtain ⟨hItem, hRest⟩ := List.forall_mem_cons.mp hItems
      exact ih hRest (hIndex.foldl_add (fun c hc => ⟨item.1, hItem, hc⟩) item.2)
  refine hAll items.zipIdx (fun item hMem => ?_) fun k a at_ hNone => by cases hNone
  exact List.mem_of_getElem? (List.mem_zipIdx_iff_getElem?.mp hMem)

end InvertedIndex

end F1r3Node.Lib
