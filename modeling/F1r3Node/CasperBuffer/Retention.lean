import F1r3Node.CasperBuffer.Restart

/-! # Which blocks the buffer keeps

A block that entered the buffer stays in it until a removal or the pruning names it, with one exception: a removal of
its last child drops it, if it waits for nothing else.
-/

namespace F1r3Node.CasperBuffer

open Shared Lib.Stateful BlockDependencyDag
open DagStorage (HashOrder)

variable {order : HashOrder} {s s' : CasperBufferKeyValueStorage} {dag : BlockDependencyDag} {b hash : Bytes}

namespace BlockDependencyDag

def StrandedBy (dag : BlockDependencyDag) (b element : Bytes) : Prop :=
  dag.children b = {element} ∧ dag.parents b ⊆ {element}

instance (dag : BlockDependencyDag) (b element : Bytes) : Decidable (dag.StrandedBy b element) :=
  inferInstanceAs (Decidable (dag.children b = {element} ∧ dag.parents b ⊆ {element}))

variable {element : Bytes}

theorem parents_subset_of_notMem_remove (hLinked : Linked dag) (hNe : b ≠ element)
    (hNot : b ∉ (dag.remove order element).dag.childToParent) : dag.parents b ⊆ {element} := by
  have hNone := Finmap.lookup_eq_none.mpr hNot
  rw [lookup_childToParent_remove order element hLinked, if_neg hNe] at hNone
  intro x hx
  by_contra hOther
  rw [parents] at hx
  rw [lookup_eq_some_of_mem hx, Option.bind_some, without] at hNone
  split at hNone
  · next hEmpty =>
    have hMem := Finset.mem_erase.mpr ⟨fun hEq => hOther (Finset.mem_singleton.mpr hEq), hx⟩
    rw [hEmpty] at hMem
    exact absurd hMem (Finset.notMem_empty x)
  · cases hNone

theorem Holds.remove (h : dag.Holds b) (hLinked : Linked dag) (hNe : b ≠ element)
    (hStranded : ¬ dag.StrandedBy b element) : (dag.remove order element).dag.Holds b := by
  by_cases hWaits : b ∈ (dag.remove order element).dag.childToParent
  · exact .inl hWaits
  · have hSub := parents_subset_of_notMem_remove hLinked hNe hWaits
    have hChildren : dag.children b ≠ {element} := fun hOnly => hStranded ⟨hOnly, hSub⟩
    refine .inr ((mem_dependencyFree_remove order element hLinked b).mpr ⟨hNe, ?_, fun hOrphan => hChildren hOrphan.1⟩)
    rcases h with hOld | hFree
    · -- the element was its last parent
      refine .inr ((Finset.subset_singleton_iff.mp hSub).resolve_left fun hEmpty => ?_)
      obtain ⟨values, hEntry⟩ := Finmap.mem_iff.mp hOld
      rw [parents, linksOf, hEntry, Option.getD_some] at hEmpty
      exact hLinked.parents_ne_empty b (hEmpty ▸ hEntry)
    · exact .inl ⟨hFree, hChildren⟩

theorem Holds.pruneLeaf (h : dag.Holds b) (hLinked : Linked dag) (hNe : b ≠ hash) :
    (dag.pruneLeaf order hash).Holds b := by
  by_cases hWaits : b ∈ (dag.remove order hash).dag.childToParent
  · exact .inl hWaits
  · refine .inr (Finset.mem_union.mpr ?_)
    by_cases hOrphan : dag.children b = {hash}
    · exact .inr (Finset.mem_filter.mpr ⟨(mem_orphaned order hash hLinked).mpr hOrphan, hWaits⟩)
    · have hHolds : (dag.remove order hash).dag.Holds b := h.remove hLinked hNe fun hStranded => hOrphan hStranded.1
      exact .inl (hHolds.resolve_left hWaits)

theorem StrandedBy.of_add {child : Bytes} (hNe : b ≠ element)
    (h : (dag.add element child).StrandedBy b element) : dag.StrandedBy b element := by
  obtain ⟨hChildren, hParents⟩ := h
  rw [children_add, if_neg hNe] at hChildren
  refine ⟨hChildren, ?_⟩
  rw [parents_add] at hParents
  split at hParents
  · next hEq =>
    rw [← hEq] at hParents
    exact (Finset.subset_insert _ _).trans hParents
  · exact hParents

end BlockDependencyDag

def Names (order : HashOrder) (i : Issued) (s : CasperBufferKeyValueStorage) (b : Bytes) : Prop :=
  match i.call with
  | .remove hash => hash = b
  | .enforceLimits limits => b ∈ prunedBy order i limits s
  | .addRelation .. | .putPendant _ => False

def Strands (dag : BlockDependencyDag) (b : Bytes) : Call → Prop
  | .remove hash => dag.StrandedBy b hash
  | .putPendant _ => dag.StrandedBy b tempBlock
  | .addRelation .. | .enforceLimits _ => False

instance (dag : BlockDependencyDag) (b : Bytes) : (call : Call) → Decidable (Strands dag b call)
  | .remove hash => inferInstanceAs (Decidable (dag.StrandedBy b hash))
  | .putPendant _ => inferInstanceAs (Decidable (dag.StrandedBy b tempBlock))
  | .addRelation .. | .enforceLimits _ => inferInstanceAs (Decidable False)

theorem BlockDependencyDag.Linked.pruneLeaf (hLinked : Linked dag) (order : HashOrder) (hash : Bytes) :
    Linked (dag.pruneLeaf order hash) := by
  have hRemoved := hLinked.remove order hash
  exact ⟨hRemoved.mirror, hRemoved.children_ne_empty, hRemoved.parents_ne_empty⟩

theorem perform_keeps {P : BlockDependencyDag → Prop} (hAdd : ∀ dag parent child, P dag → P (dag.add parent child))
    (hRemove : ∀ dag hash, P dag → P (dag.remove order hash).dag)
    (hPrune : ∀ dag hash, P dag → P (dag.pruneLeaf order hash)) (h : P s.blockDependencyDag) (i : Issued) :
    P (final ((perform order i).run s)).blockDependencyDag := by
  obtain ⟨call, now, fails⟩ := i
  refine Yields.final (P := fun s' : CasperBufferKeyValueStorage => P s'.blockDependencyDag) ?_
  cases call with
  | addRelation parent child =>
    refine (addRelationUnlocked_spec fails now parent child s).imp ?_ fun _ hDag => hDag ▸ h
    rintro _ t ⟨hDag, -⟩
    exact hDag ▸ hAdd _ parent child h
  | putPendant block =>
    refine (putPendantUnlocked_spec fails now order block s).imp ?_ ?_
    · rintro _ t ⟨u, hDag, -, hDag', -⟩
      rw [hDag', hDag]
      exact hRemove _ tempBlock (hAdd _ tempBlock block h)
    · rintro t (hDag | hDag)
      · exact hDag ▸ h
      · exact hDag ▸ hRemove _ tempBlock (hAdd _ tempBlock block h)
  | remove hash =>
    refine (removeUnlocked_spec fails order hash s).imp ?_ fun _ hDag => hDag ▸ hRemove _ hash h
    rintro _ t ⟨hDag, -⟩
    exact hDag ▸ hRemove _ hash h
  | enforceLimits limits =>
    have hLoop : Yields (enforceLimitsLoop fails order limits now) ⟨s, [], [], ∅⟩ (fun _ p => P p.buffer.blockDependencyDag)
        fun p => P p.buffer.blockDependencyDag := by
      refine enforceLimitsLoop_spec (fun _ _ h => h) ?_ h fun _ h => h
      intro p hash staleRoot h
      refine (pruneLeafUnlocked_spec fails order hash p.buffer).imp ?_ fun _ hDag => hDag ▸ h
      rintro _ buffer (⟨rfl, rfl⟩ | ⟨rfl, -, hDag, -⟩)
      · exact h
      · have hPruned : P buffer.blockDependencyDag := hDag ▸ hPrune _ hash h
        cases staleRoot <;> exact hPruned
    exact perform_enforceLimits_spec hLoop

section

variable (hLinked : Linked s.blockDependencyDag)

include hLinked

theorem linked_perform (order : HashOrder) (i : Issued) :
    Linked (final ((perform order i).run s)).blockDependencyDag :=
  perform_keeps (fun _ parent child h => h.add parent child) (fun _ hash h => h.remove order hash)
    (fun _ hash h => h.pruneLeaf order hash) hLinked i

theorem holds_enforceLimits (hHolds : s.blockDependencyDag.Holds b)
    (fails : StoreAccess → Bool) (order : HashOrder) (limits : PruneLimits) (now : Nat) :
    Yields (enforceLimitsLoop fails order limits now) ⟨s, [], [], ∅⟩
      (fun _ p => Linked p.buffer.blockDependencyDag ∧ (p.buffer.blockDependencyDag.Holds b ∨ b ∈ p.stale ++ p.overflow))
      fun p => Linked p.buffer.blockDependencyDag ∧
        (p.buffer.blockDependencyDag.Holds b ∨ b ∈ p.stale ++ p.overflow) := by
  refine enforceLimitsLoop_spec (fun _ _ h => h) ?_ ⟨hLinked, .inl hHolds⟩ fun _ h => h
  rintro p hash staleRoot ⟨hLinked, hHeld⟩
  refine (pruneLeafUnlocked_spec fails order hash p.buffer).imp ?_ fun _ hDag => ⟨hDag ▸ hLinked, hDag ▸ hHeld⟩
  rintro _ buffer (⟨rfl, rfl⟩ | ⟨rfl, -, hDag, -⟩)
  · exact ⟨hLinked, hHeld⟩
  · have hPruned : Linked buffer.blockDependencyDag := hDag ▸ hLinked.pruneLeaf order hash
    have hNext : buffer.blockDependencyDag.Holds b ∨ b = hash ∨ b ∈ p.stale ++ p.overflow := by
      rcases hHeld with hHeld | hListed
      · obtain rfl | hNe := eq_or_ne b hash
        · exact .inr (.inl rfl)
        · exact .inl (hDag ▸ hHeld.pruneLeaf hLinked hNe)
      · exact .inr (.inr hListed)
    rw [List.mem_append] at hNext
    cases staleRoot with
    | true =>
      refine ⟨hPruned, hNext.imp_right fun hListed => ?_⟩
      simp only [record, if_true, List.mem_append, List.mem_singleton]
      tauto
    | false =>
      refine ⟨hPruned, hNext.imp_right fun hListed => ?_⟩
      simp only [record, if_true, Bool.false_eq_true, if_false, List.mem_append, List.mem_singleton]
      tauto

theorem holds_putPendant (order : HashOrder) {block : Bytes}
    (hHolds : (s.blockDependencyDag.add tempBlock block).Holds b) (hNe : b ≠ tempBlock)
    (hStrands : ¬ s.blockDependencyDag.StrandedBy b tempBlock) :
    ((s.blockDependencyDag.add tempBlock block).remove order tempBlock).dag.Holds b :=
  hHolds.remove (hLinked.add tempBlock block) hNe fun hStranded => hStrands (hStranded.of_add hNe)

theorem holds_perform (hHolds : s.blockDependencyDag.Holds b)
    (hNe : b ≠ tempBlock) {i : Issued} (hNames : ¬ Names order i s b) (hStrands : ¬ Strands s.blockDependencyDag b i.call) :
    (final ((perform order i).run s)).blockDependencyDag.Holds b := by
  obtain ⟨call, now, fails⟩ := i
  cases call with
  | addRelation parent child =>
    refine Yields.final (P := fun s' : CasperBufferKeyValueStorage => s'.blockDependencyDag.Holds b) ?_
    refine (addRelationUnlocked_spec fails now parent child s).imp ?_ fun _ hDag => hDag ▸ hHolds
    rintro _ t ⟨hDag, -⟩
    exact hDag ▸ hHolds.add parent child
  | putPendant block =>
    have hAfter : ((s.blockDependencyDag.add tempBlock block).remove order tempBlock).dag.Holds b :=
      holds_putPendant hLinked order (hHolds.add tempBlock block) hNe hStrands
    refine Yields.final (P := fun s' : CasperBufferKeyValueStorage => s'.blockDependencyDag.Holds b) ?_
    refine (putPendantUnlocked_spec fails now order block s).imp ?_ ?_
    · rintro _ t ⟨u, hDag, -, hDag', -⟩
      rw [hDag', hDag]
      exact hAfter
    · rintro t (hDag | hDag)
      · exact hDag ▸ hHolds
      · exact hDag ▸ hAfter
  | remove hash =>
    have hAfter : (s.blockDependencyDag.remove order hash).dag.Holds b :=
      hHolds.remove hLinked (fun hEq => hNames hEq.symm) hStrands
    refine Yields.final (P := fun s' : CasperBufferKeyValueStorage => s'.blockDependencyDag.Holds b) ?_
    refine (removeUnlocked_spec fails order hash s).imp ?_ fun _ hDag => hDag ▸ hAfter
    rintro _ t ⟨hDag, -⟩
    exact hDag ▸ hAfter
  | enforceLimits limits =>
    have hLoop := holds_enforceLimits hLinked hHolds fails order limits now
    have hEnd := (Yields.final hLoop).2.resolve_right hNames
    rw [final_perform_enforceLimits]
    exact hEnd

end

def Called (order : HashOrder) (s s' : CasperBufferKeyValueStorage) : Prop :=
  ∃ i : Issued, s' = final ((perform order i).run s)

/-- A call that neither names the block nor removes its last child while it waits for nothing else. -/
def CalledSparing (order : HashOrder) (b : Bytes) (s s' : CasperBufferKeyValueStorage) : Prop :=
  ∃ i : Issued, ¬ Names order i s b ∧ ¬ Strands s.blockDependencyDag b i.call ∧ s' = final ((perform order i).run s)

def Enters (order : HashOrder) (b : Bytes) (s s' : CasperBufferKeyValueStorage) : Prop :=
  ∃ i : Issued, (i.call = .putPendant b ∨ ∃ parent, i.call = .addRelation parent b) ∧
    ¬ Strands s.blockDependencyDag b i.call ∧ (perform order i).run s = .ok () s'

theorem BlockDependencyDag.Linked.of_mem_children_remove (hLinked : Linked dag) {element x c : Bytes}
    (hc : c ∈ (dag.remove order element).dag.children x) : x ≠ element ∧ c ∈ dag.children x ∧ c ≠ element := by
  rw [(hLinked.remove order element).mirror, parents_remove hLinked] at hc
  split at hc
  · exact absurd hc (Finset.notMem_empty x)
  · next hNe =>
    obtain ⟨hElement, hParent⟩ := Finset.mem_erase.mp hc
    exact ⟨hElement, (hLinked.mirror x c).mpr hParent, hNe⟩

theorem Scheduled.remove (h : Scheduled dag) (order : HashOrder) (element : Bytes) :
    Scheduled (dag.remove order element).dag where
  linked := h.linked.remove order element
  free x hx := by
    obtain ⟨hNe, hFree, -⟩ := (mem_dependencyFree_remove order element h.linked x).mp hx
    rw [parents_remove h.linked, if_neg hNe]
    rcases hFree with ⟨hFree, -⟩ | hOnly
    · rw [h.free x hFree, Finset.erase_empty]
    · rw [hOnly, Finset.erase_singleton]
  held x c hc := by
    obtain ⟨hNe, hChild, hOther⟩ := h.linked.of_mem_children_remove hc
    refine (h.held x c hChild).remove h.linked hNe fun hStranded => hOther ?_
    exact Finset.mem_singleton.mp (hStranded.1 ▸ hChild)

theorem Scheduled.pruneLeaf (h : Scheduled dag) (order : HashOrder) (hash : Bytes) :
    Scheduled (dag.pruneLeaf order hash) where
  linked := h.linked.pruneLeaf order hash
  free x hx := by
    obtain hx | hx := Finset.mem_union.mp hx
    · exact (h.remove order hash).free x hx
    · exact parents_of_notMem (Finset.mem_filter.mp hx).2
  held x c hc := by
    obtain ⟨hNe, hChild, -⟩ := h.linked.of_mem_children_remove hc
    exact (h.held x c hChild).pruneLeaf h.linked hNe

variable {start : CasperBufferKeyValueStorage}

theorem scheduled_of_called (hStart : Started start)
    (hRun : Relation.ReflTransGen (Called order) start s) : Scheduled s.blockDependencyDag := by
  induction hRun with
  | refl =>
    obtain ⟨order', now, store, rows, hRows, rfl⟩ := hStart
    exact scheduled_newFromKvStore hRows now
  | tail _ hStep ih =>
    obtain ⟨i, rfl⟩ := hStep
    exact perform_keeps (fun _ parent child h => h.add parent child) (fun _ hash h => h.remove order hash)
      (fun _ hash h => h.pruneLeaf order hash) ih i

/-- After any calls, with failing stores, on a buffer that was empty or restored, a block that waits does so for one that
can be processed, as long as the dependencies have no cycle. -/
theorem waits_for_dependencyFree (hStart : Started start)
    (hRun : Relation.ReflTransGen (Called order) start s) {number : Bytes → Nat}
    (hLower : ∀ c, ∀ p ∈ s.blockDependencyDag.parents c, number p < number c) (hWaits : b ∈ s.blockDependencyDag.childToParent) :
    ∃ x ∈ s.blockDependencyDag.dependencyFree, s.blockDependencyDag.parents x = ∅ ∧
      Relation.TransGen (fun c p => p ∈ s.blockDependencyDag.parents c) b x := by
  have hScheduled := scheduled_of_called hStart hRun
  induction hNumber : number b using Nat.strong_induction_on generalizing b with
  | _ n ih =>
    obtain ⟨values, hEntry⟩ := Finmap.mem_iff.mp hWaits
    have hParents : s.blockDependencyDag.parents b = values := by rw [parents, linksOf, hEntry, Option.getD_some]
    obtain ⟨p, hp⟩ := Finset.nonempty_iff_ne_empty.mpr fun hEmpty : values = ∅ =>
      hScheduled.linked.parents_ne_empty b (hEmpty ▸ hEntry)
    rw [← hParents] at hp
    obtain hNext | hFree := hScheduled.held p b ((hScheduled.linked.mirror p b).mpr hp)
    · obtain ⟨x, hx, hNone, hPath⟩ := ih (number p) (hNumber ▸ hLower b p hp) hNext rfl
      exact ⟨x, hx, hNone, .head hp hPath⟩
    · exact ⟨p, hFree, hScheduled.free p hFree, .single hp⟩

theorem Enters.holds (hLinked : Linked s.blockDependencyDag) (hNe : b ≠ tempBlock) (h : Enters order b s s') :
    Linked s'.blockDependencyDag ∧ s'.blockDependencyDag.Holds b := by
  obtain ⟨i, hCall, hStrands, hRun⟩ := h
  have hLinked' := linked_perform hLinked order i
  rw [hRun] at hLinked'
  refine ⟨hLinked', ?_⟩
  obtain ⟨call, now, fails⟩ := i
  rcases hCall with rfl | ⟨parent, rfl⟩
  · obtain ⟨t, hDag, -, hDag', -⟩ := (putPendantUnlocked_spec fails now order b s).of_ok hRun
    rw [hDag', hDag]
    exact holds_putPendant hLinked order (holds_add_child _ _ _) hNe hStrands
  · obtain ⟨hDag, -⟩ := (addRelationUnlocked_spec fails now parent b s).of_ok hRun
    rw [hDag]
    exact holds_add_child _ _ _

theorem holds_until_named {start entered : CasperBufferKeyValueStorage} (hStart : Started start)
    (hBefore : Relation.ReflTransGen (Called order) start s) (hNe : b ≠ tempBlock) (hEnters : Enters order b s entered)
    (hRun : Relation.ReflTransGen (CalledSparing order b) entered s') : s'.blockDependencyDag.Holds b := by
  have hEntered := hEnters.holds (scheduled_of_called hStart hBefore).linked hNe
  suffices h : Linked s'.blockDependencyDag ∧ s'.blockDependencyDag.Holds b from h.2
  induction hRun with
  | refl => exact hEntered
  | tail _ hStep ih =>
    obtain ⟨i, hNames, hStrands, rfl⟩ := hStep
    exact ⟨linked_perform ih.1 order i, holds_perform ih.1 ih.2 hNe hNames hStrands⟩

/-- A block waits for nothing, a child of it enters, and the child is evicted. -/
theorem evictedChild_drops_pendant :
    ∃ entered s, Enters .ascending [1] emptyBuffer entered ∧ Relation.ReflTransGen (Called .ascending) entered s ∧
      s = afterCalls [.putPendant [1], .addRelation [1] [2], .remove [2]] ∧
      entered.blockDependencyDag.Holds [1] ∧ ¬ s.blockDependencyDag.Holds [1] := by
  refine ⟨afterCalls [.putPendant [1]], _, ?_, ?_, rfl, ?_, ?_⟩
  · exact ⟨issue (.putPendant [1]), .inl rfl, by decide, rfl⟩
  · exact .head ⟨issue (.addRelation [1] [2]), rfl⟩ (.single ⟨issue (.remove [2]), rfl⟩)
  · decide
  · decide

/-- Once the child has come to wait for the block, removing another block keeps it. -/
theorem pendant_held_after_other_removal :
    (afterCalls [.putPendant [1], .addRelation [1] [2], .remove [3]]).blockDependencyDag.Holds [1] := by
  have hEnters : Enters .ascending [1] emptyBuffer (afterCalls [.putPendant [1]]) :=
    ⟨issue (.putPendant [1]), .inl rfl, by decide, rfl⟩
  refine holds_until_named started_emptyBuffer .refl (by decide) hEnters ?_
  have hOther : ([3] : Bytes) ≠ [1] := by decide
  exact .head ⟨issue (.addRelation [1] [2]), id, id, rfl⟩ (.single ⟨issue (.remove [3]), hOther, by decide, rfl⟩)

theorem child_waits_for_pendant :
    ∃ x ∈ (afterCalls [.addRelation [1] [2]]).blockDependencyDag.dependencyFree,
      (afterCalls [.addRelation [1] [2]]).blockDependencyDag.parents x = ∅ := by
  have hRun : Relation.ReflTransGen (Called .ascending) emptyBuffer (afterCalls [.addRelation [1] [2]]) :=
    .single ⟨issue (.addRelation [1] [2]), rfl⟩
  have hLower : ∀ c, ∀ p ∈ (afterCalls [.addRelation [1] [2]]).blockDependencyDag.parents c, p.sum.toNat < c.sum.toNat := by
    intro c p hp
    change p ∈ (BlockDependencyDag.empty.add [1] [2]).parents c at hp
    rw [parents_add] at hp
    split at hp
    · next hEq =>
      obtain rfl : p = [1] := Finset.mem_singleton.mp hp
      rw [hEq]
      decide
    · exact absurd hp (Finset.notMem_empty p)
  obtain ⟨x, hx, hNone, -⟩ := waits_for_dependencyFree started_emptyBuffer hRun hLower (b := [2]) (by decide)
  exact ⟨x, hx, hNone⟩

end F1r3Node.CasperBuffer
