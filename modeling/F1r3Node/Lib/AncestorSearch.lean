import Mathlib.Data.Finset.Card

/-! # Searching for an ancestor

Nodes are looked up with their height and their parents, and a parent is lower than its children. A
breadth-first search upwards may stop at the height of the node it looks for.
-/

namespace F1r3Node.Lib

/-- The nodes with their heights and parents; a lookup may fail. -/
structure Ancestry (N E : Type) where
  lookup : N → Except E (Int × List N)
  /-- Every parent that is listed. -/
  nodes : Finset N
  mem_nodes : ∀ n h ps, lookup n = .ok (h, ps) → ∀ p ∈ ps, p ∈ nodes
  lower : ∀ n h ps, lookup n = .ok (h, ps) → ∀ p ∈ ps, ∀ h' ps', lookup p = .ok (h', ps') → h' < h

namespace Ancestry

variable {N E : Type} (g : Ancestry N E)

def Parent (p n : N) : Prop := ∃ h ps, g.lookup n = .ok (h, ps) ∧ p ∈ ps

def StrictAncestor : N → N → Prop := Relation.TransGen g.Parent

variable {g} in
theorem StrictAncestor.height_lt {a n : N} (h : g.StrictAncestor a n) {ha hn : Int} {pa pn : List N}
    (hLookA : g.lookup a = .ok (ha, pa)) (hLookN : g.lookup n = .ok (hn, pn)) : ha < hn := by
  induction h generalizing hn pn with
  | single hParent =>
    obtain ⟨h', ps, hLook, hMem⟩ := hParent
    obtain ⟨rfl, rfl⟩ := Prod.mk.inj (Except.ok.inj (hLook.symm.trans hLookN))
    exact g.lower _ _ _ hLook _ hMem _ _ hLookA
  | tail hAbove hParent ih =>
    rename_i b n
    obtain ⟨h', ps, hLook, hMem⟩ := hParent
    obtain ⟨rfl, rfl⟩ := Prod.mk.inj (Except.ok.inj (hLook.symm.trans hLookN))
    obtain ⟨c, -, hb⟩ := Relation.TransGen.tail'_iff.mp hAbove
    obtain ⟨hb', psb, hLookB, -⟩ := hb
    exact (ih hLookB).trans (g.lower _ _ _ hLook _ hMem _ _ hLookB)

variable {g} in
theorem StrictAncestor.exists_lookup {a n : N} (h : g.StrictAncestor a n) : ∃ hn ps, g.lookup n = .ok (hn, ps) := by
  obtain ⟨b, -, hn, ps, hLook, -⟩ := Relation.TransGen.tail'_iff.mp h
  exact ⟨hn, ps, hLook⟩

theorem not_strictAncestor_self (n : N) : ¬ g.StrictAncestor n n := by
  intro h
  obtain ⟨hn, ps, hLook⟩ := h.exists_lookup
  exact lt_irrefl hn (h.height_lt hLook hLook)

variable [DecidableEq N]

def visit (st : Finset N × List N) (parent : N) : Finset N × List N :=
  if parent ∈ st.1 then st else (insert parent st.1, st.2 ++ [parent])

def visitAll (ps : List N) (st : Finset N × List N) : Finset N × List N := ps.foldl visit st

theorem visitAll_cons (p : N) (ps : List N) (st : Finset N × List N) :
    visitAll (p :: ps) st = visitAll ps (visit st p) := rfl

theorem mem_visitAll (ps : List N) (st : Finset N × List N) (n : N) :
    (n ∈ (visitAll ps st).1 ↔ n ∈ st.1 ∨ n ∈ ps) ∧
      (n ∈ (visitAll ps st).2 ↔ n ∈ st.2 ∨ n ∈ ps ∧ n ∉ st.1) := by
  induction ps generalizing st with
  | nil => simp [visitAll]
  | cons p ps ih =>
    rw [visitAll_cons]
    obtain ⟨hSeen, hQueue⟩ := ih (visit st p)
    rw [hSeen, hQueue, visit]
    split_ifs with hp
    · constructor
      · simp only [List.mem_cons]
        constructor
        · rintro (h | h) <;> tauto
        · rintro (h | rfl | h) <;> tauto
      · simp only [List.mem_cons]
        constructor
        · rintro (h | ⟨h, hNot⟩) <;> tauto
        · rintro (h | ⟨rfl | h, hNot⟩) <;> tauto
    · constructor
      · simp only [Finset.mem_insert, List.mem_cons]
        tauto
      · simp only [Finset.mem_insert, List.mem_cons, List.mem_append, List.not_mem_nil, or_false, not_or]
        constructor
        · rintro ((h | rfl) | ⟨h, -, hNot⟩) <;> tauto
        · rintro (h | ⟨rfl | h, hNot⟩)
          · exact .inl (.inl h)
          · exact .inl (.inr rfl)
          · by_cases hEq : n = p
            · exact .inl (.inr hEq)
            · exact .inr ⟨h, hEq, hNot⟩

theorem card_visitAll {nodes : Finset N} {ps : List N} (hps : ∀ p ∈ ps, p ∈ nodes) (st : Finset N × List N) :
    (nodes \ (visitAll ps st).1).card + (visitAll ps st).2.length = (nodes \ st.1).card + st.2.length := by
  induction ps generalizing st with
  | nil => rfl
  | cons p ps ih =>
    obtain ⟨hp, hRest⟩ := List.forall_mem_cons.mp hps
    rw [visitAll_cons, ih hRest, visit]
    split_ifs with hSeen
    · rfl
    · have hErase : nodes \ insert p st.1 = (nodes \ st.1).erase p := by
        ext n
        simp only [Finset.mem_sdiff, Finset.mem_insert, Finset.mem_erase]
        tauto
      have hMem : p ∈ nodes \ st.1 := Finset.mem_sdiff.mpr ⟨hp, hSeen⟩
      have hPos : 0 < (nodes \ st.1).card := Finset.card_pos.mpr ⟨p, hMem⟩
      rw [hErase, Finset.card_erase_of_mem hMem, List.length_append, List.length_singleton]
      omega

/-- The search pops a node, and looks above it unless it is as low as the node it looks for. -/
def search (ancestor : N) (stop : Int) (visited : Finset N) (queue : List N) : Except E Bool :=
  match queue with
  | [] => .ok false
  | current :: rest =>
    if current = ancestor then .ok true
    else
      match _hLook : g.lookup current with
      | .error e => .error e
      | .ok (height, parents) =>
        if height ≤ stop then search ancestor stop visited rest
        else
          let next := visitAll parents (visited, rest)
          search ancestor stop next.1 next.2
termination_by (g.nodes \ visited).card + queue.length
decreasing_by
  · rw [List.length_cons]
    omega
  · have hCard := card_visitAll (g.mem_nodes _ _ _ _hLook) (visited, rest)
    dsimp only at hCard
    rw [List.length_cons]
    omega

/-- Is `ancestor` reachable from `descendant` through parents. -/
def isAncestor (ancestor descendant : N) : Except E Bool :=
  if ancestor = descendant then .ok true
  else
    match g.lookup ancestor with
    | .error e => .error e
    | .ok (stop, _) => g.search ancestor stop {descendant} [descendant]

variable {g}

theorem search_cons {ancestor current : N} {stop : Int} {visited : Finset N} {rest : List N} :
    g.search ancestor stop visited (current :: rest) =
      if current = ancestor then .ok true
      else
        match g.lookup current with
        | .error e => .error e
        | .ok (height, parents) =>
          if height ≤ stop then g.search ancestor stop visited rest
          else g.search ancestor stop (visitAll parents (visited, rest)).1 (visitAll parents (visited, rest)).2 := by
  rw [search]
  split_ifs
  · rfl
  · split <;> simp_all

theorem exists_of_search_eq_true {ancestor : N} {stop : Int} {visited : Finset N} {queue : List N}
    (h : g.search ancestor stop visited queue = .ok true) :
    ∃ n ∈ queue, Relation.ReflTransGen g.Parent ancestor n := by
  induction visited, queue using search.induct g ancestor stop with
  | case1 visited =>
    rw [search] at h
    cases h
  | case2 visited rest => exact ⟨ancestor, List.mem_cons_self, .refl⟩
  | case3 visited current rest hNe e hLook =>
    rw [search_cons, if_neg hNe, hLook] at h
    cases h
  | case4 visited current rest hNe height parents hLook hLow ih =>
    rw [search_cons, if_neg hNe, hLook] at h
    simp only [if_pos hLow] at h
    obtain ⟨n, hn, hReach⟩ := ih h
    exact ⟨n, List.mem_cons_of_mem _ hn, hReach⟩
  | case5 visited current rest hNe height parents hLook hLow next ih =>
    rw [search_cons, if_neg hNe, hLook] at h
    simp only [if_neg hLow] at h
    obtain ⟨n, hn, hReach⟩ := ih h
    obtain hn | ⟨hn, -⟩ := (mem_visitAll parents (visited, rest) n).2.mp hn
    · exact ⟨n, List.mem_cons_of_mem _ hn, hReach⟩
    · exact ⟨current, List.mem_cons_self, hReach.tail ⟨height, parents, hLook, hn⟩⟩

variable (g) in
/-- A node seen is still to be looked at, or it is not the one looked for and its parents are seen
unless it is too low. -/
def Explored (ancestor : N) (stop : Int) (visited : Finset N) (queue : List N) : Prop :=
  ∀ n ∈ visited, n ∈ queue ∨
    (n ≠ ancestor ∧ ∃ h ps, g.lookup n = .ok (h, ps) ∧ (h ≤ stop ∨ ∀ p ∈ ps, p ∈ visited))

theorem exists_explored_of_search_eq_false {ancestor : N} {stop : Int} {visited : Finset N} {queue : List N}
    (h : g.search ancestor stop visited queue = .ok false) (hExplored : g.Explored ancestor stop visited queue) :
    ∃ seen, visited ⊆ seen ∧ g.Explored ancestor stop seen [] := by
  induction visited, queue using search.induct g ancestor stop with
  | case1 visited => exact ⟨visited, subset_rfl, hExplored⟩
  | case2 visited rest =>
    rw [search_cons, if_pos rfl] at h
    cases h
  | case3 visited current rest hNe e hLook =>
    rw [search_cons, if_neg hNe, hLook] at h
    cases h
  | case4 visited current rest hNe height parents hLook hLow ih =>
    rw [search_cons, if_neg hNe, hLook] at h
    simp only [if_pos hLow] at h
    refine ih h fun n hn => ?_
    obtain hQueue | hDone := hExplored n hn
    · obtain rfl | hRest := List.mem_cons.mp hQueue
      · exact .inr ⟨hNe, height, parents, hLook, .inl hLow⟩
      · exact .inl hRest
    · exact .inr hDone
  | case5 visited current rest hNe height parents hLook hLow next ih =>
    rw [search_cons, if_neg hNe, hLook] at h
    simp only [if_neg hLow] at h
    have hVisit := mem_visitAll parents (visited, rest)
    obtain ⟨seen, hSub, hSeen⟩ := ih h fun n hn => by
      by_cases hOld : n ∈ visited
      · obtain hQueue | ⟨hOther, h', ps, hLook', hAbove⟩ := hExplored n hOld
        · obtain rfl | hRest := List.mem_cons.mp hQueue
          · exact .inr ⟨hNe, height, parents, hLook, .inr fun p hp => (hVisit p).1.mpr (.inr hp)⟩
          · exact .inl ((hVisit n).2.mpr (.inl hRest))
        · refine .inr ⟨hOther, h', ps, hLook', hAbove.imp_right fun hAll p hp => ?_⟩
          exact (hVisit p).1.mpr (.inl (hAll p hp))
      · have hNew := ((hVisit n).1.mp hn).resolve_left hOld
        exact .inl ((hVisit n).2.mpr (.inr ⟨hNew, hOld⟩))
    exact ⟨seen, fun n hn => hSub ((hVisit n).1.mpr (.inl hn)), hSeen⟩

omit [DecidableEq N] in
theorem not_mem_of_explored {ancestor : N} {stop : Int} {pa : List N} {seen : Finset N}
    (hLook : g.lookup ancestor = .ok (stop, pa)) (hExplored : g.Explored ancestor stop seen []) {n : N}
    (hReach : Relation.ReflTransGen g.Parent ancestor n) : n ∉ seen := by
  induction hReach with
  | refl =>
    intro hSeen
    obtain hQueue | ⟨hNe, -⟩ := hExplored ancestor hSeen
    · cases hQueue
    · exact hNe rfl
  | tail hAbove hParent ih =>
    rename_i p n
    intro hSeen
    obtain hQueue | ⟨-, h, ps, hLookN, hLow | hAll⟩ := hExplored n hSeen
    · cases hQueue
    · have hLt := StrictAncestor.height_lt (Relation.TransGen.tail' hAbove hParent) hLook hLookN
      omega
    · obtain ⟨h', ps', hLook', hMem⟩ := hParent
      obtain ⟨rfl, rfl⟩ := Prod.mk.inj (Except.ok.inj (hLook'.symm.trans hLookN))
      exact ih (hAll p hMem)

theorem isAncestor_eq_ok {ancestor descendant : N} {found : Bool} (h : g.isAncestor ancestor descendant = .ok found) :
    found = true ↔ Relation.ReflTransGen g.Parent ancestor descendant := by
  rw [isAncestor] at h
  split_ifs at h with hEq
  · obtain rfl := Except.ok.inj h
    simp only [true_iff]
    exact hEq ▸ .refl
  · split at h
    · cases h
    · rename_i stop pa hLook
      cases found with
      | true =>
        obtain ⟨n, hn, hReach⟩ := exists_of_search_eq_true h
        rw [List.mem_singleton] at hn
        simp only [true_iff]
        exact hn ▸ hReach
      | false =>
        obtain ⟨seen, hSub, hSeen⟩ := exists_explored_of_search_eq_false h fun n hn =>
          .inl (List.mem_singleton.mpr (Finset.mem_singleton.mp hn))
        simp only [Bool.false_eq_true, false_iff]
        exact fun hReach => not_mem_of_explored hLook hSeen hReach (hSub (Finset.mem_singleton_self _))

end Ancestry

end F1r3Node.Lib
