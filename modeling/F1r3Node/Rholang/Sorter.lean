import F1r3Node.Rholang.Equality

/-! # The sorter of the models crate

The scores and the iteration order of the hash tables are parameters.
-/

namespace F1r3Node.Rholang

structure Sorter where
  /-- The score of the one term is at most the score of the other. -/
  le : {k : Kind} → Term k → Term k → Bool
  leUnforgeable : GUnforgeable → GUnforgeable → Bool
  /-- The entries of a map go by the score of the key and then by its bytes. -/
  leRow : Term .keyValuePair → Term .keyValuePair → Bool
  iterate : List Par → List Par
  iterateRows : List (Term .keyValuePair) → List (Term .keyValuePair)
  perm_iterate : ∀ ps, (iterate ps).Perm ps
  perm_iterateRows : ∀ rows, (iterateRows rows).Perm rows

/-- Scores that are all alike: with one element in every list there is nothing to sort. -/
def evenSorter : Sorter where
  le _ _ := true
  leUnforgeable _ _ := true
  leRow _ _ := true
  iterate := id
  iterateRows := id
  perm_iterate _ := .refl _
  perm_iterateRows _ := .refl _

namespace Sorter

variable (s : Sorter)

/-- `sort_vec`, a stable sort by score. -/
def sortVec {k : Kind} (ts : Term (.list k)) : Term (.list k) :=
  .ofList (ts.toList.insertionSort fun a b => s.le a b)

def insertAll (ps : List Par) : List Par :=
  ps.foldl (fun seen p => if seen.any (Term.eqv · p) then seen else seen ++ [p]) []

def keyOf : Term .keyValuePair → Par
  | .keyValuePair key _ => key

def valueOf : Term .keyValuePair → Par
  | .keyValuePair _ value => value

def replaceAll (kvs : List (Term .keyValuePair)) : List (Term .keyValuePair) :=
  kvs.foldl (fun rows kv =>
    match rows.findIdx? fun row => (keyOf row).eqv (keyOf kv) with
    | some i => rows.set i kv
    | none => rows ++ [kv]) []

def collectRows (kvs : List (Term .keyValuePair)) : List (Term .keyValuePair) :=
  kvs.foldl (fun rows kv =>
    match rows.findIdx? fun row => (keyOf row).eqv (keyOf kv) with
    | some i => rows.modify i fun row => .keyValuePair (keyOf row) (valueOf kv)
    | none => rows ++ [kv]) []

def dropEmpty : Term (.option .par) → Term (.option .par) → Term (.option .par)
  | .present p, sorted => if p.eqv .emptyPar then .absent else sorted
  | .absent, _ => .absent

end Sorter

namespace Term

variable (s : Sorter)

def sortMatch : {k : Kind} → Term k → Term k
  | _, nil => nil
  | _, cons head tail => cons head.sortMatch tail.sortMatch
  | _, absent => absent
  | _, present value => present value.sortMatch
  | _, par sends receives news exprs matchProcs unforgeables bundles connectives conditionals locallyFree
      connectiveUsed =>
    par (s.sortVec sends.sortMatch) (s.sortVec receives.sortMatch) (s.sortVec news.sortMatch)
      (s.sortVec exprs.sortMatch) (s.sortVec matchProcs.sortMatch)
      (unforgeables.insertionSort fun a b => s.leUnforgeable a b) (s.sortVec bundles.sortMatch)
      (s.sortVec connectives.sortMatch) (s.sortVec conditionals.sortMatch) locallyFree connectiveUsed
  | _, send chan data persistent locallyFree connectiveUsed =>
    send chan.sortMatch data.sortMatch persistent locallyFree connectiveUsed
  | _, receiveBind patterns source remainder freeCount =>
    receiveBind patterns.sortMatch source.sortMatch remainder freeCount
  | _, receive binds body persistent peek bindCount condition locallyFree connectiveUsed =>
    receive binds.sortMatch body.sortMatch persistent peek bindCount
      (Sorter.dropEmpty condition condition.sortMatch) locallyFree connectiveUsed
  | _, injection name value => injection name value
  | _, new bindCount p uri injections locallyFree =>
    new bindCount p.sortMatch (uri.insertionSort (· ≤ ·)) injections locallyFree
  | _, matchCase pattern source freeCount guard =>
    matchCase pattern.sortMatch source.sortMatch freeCount (Sorter.dropEmpty guard guard.sortMatch)
  | _, matchProc target cases locallyFree connectiveUsed =>
    matchProc target.sortMatch cases.sortMatch locallyFree connectiveUsed
  | _, conditional condition ifTrue ifFalse locallyFree connectiveUsed =>
    conditional condition.sortMatch ifTrue.sortMatch ifFalse.sortMatch locallyFree connectiveUsed
  | _, bundle body writeFlag readFlag => bundle body.sortMatch writeFlag readFlag
  | _, ground value => ground value
  | _, eVar v => eVar v
  | _, unary op p => unary op p.sortMatch
  | _, binary op p1 p2 => binary op p1.sortMatch p2.sortMatch
  | _, eList ps locallyFree connectiveUsed remainder => eList ps.sortMatch locallyFree connectiveUsed remainder
  | _, eTuple ps locallyFree connectiveUsed => eTuple ps.sortMatch locallyFree connectiveUsed
  | _, eSet ps locallyFree connectiveUsed remainder =>
    eSet (s.sortVec (ofList (Sorter.insertAll ps.sortMatch.toList))) locallyFree connectiveUsed remainder
  | _, eMap kvs locallyFree connectiveUsed remainder =>
    eMap (s.sortVec (ofList (Sorter.replaceAll kvs.sortMatch.toList))) locallyFree connectiveUsed remainder
  | _, keyValuePair key value => keyValuePair key.sortMatch value.sortMatch
  | _, pathMap ps locallyFree connectiveUsed remainder => pathMap ps.sortMatch locallyFree connectiveUsed remainder
  | _, ePathMap pathmap => ePathMap pathmap.sortMatch
  | _, eZipper pathmap currentPath isWriteZipper locallyFree connectiveUsed =>
    eZipper pathmap.sortMatch currentPath isWriteZipper locallyFree connectiveUsed
  | _, eMethod methodName target arguments locallyFree connectiveUsed =>
    eMethod methodName target.sortMatch arguments.sortMatch locallyFree connectiveUsed
  | _, eMatches target pattern => eMatches target.sortMatch pattern.sortMatch
  | _, connAnd ps => connAnd ps.sortMatch
  | _, connOr ps => connOr ps.sortMatch
  | _, connNot p => connNot p.sortMatch
  | _, varRef index depth => varRef index depth
  | _, connType type flag => connType type flag

end Term

namespace Sorter

variable (s : Sorter)

/-- The `sorted_pars` of `SortedParHashSet::create_from_vec`. -/
def sortedPars (ps : Term (.list .par)) : Term (.list .par) :=
  s.sortVec (.ofList ((s.iterate (insertAll ps.toList)).map (Term.sortMatch s)))

/-- The `sorted_list` of `SortedParMap::create_from_vec`. -/
def sortedList (kvs : Term (.list .keyValuePair)) : Term (.list .keyValuePair) :=
  .ofList (((s.iterateRows (collectRows kvs.toList)).insertionSort fun a b => s.leRow a b).map (Term.sortMatch s))

end Sorter

namespace Term

def size : {k : Kind} → Term k → Nat
  | _, nil | _, absent => 1
  | _, cons head tail => head.size + tail.size + 1
  | _, present value => value.size + 1
  | _, par sends receives news exprs matchProcs _ bundles connectives conditionals _ _ =>
    sends.size + receives.size + news.size + exprs.size + matchProcs.size + bundles.size + connectives.size +
      conditionals.size + 1
  | _, send chan data _ _ _ => chan.size + data.size + 1
  | _, receiveBind patterns source _ _ => patterns.size + source.size + 1
  | _, receive binds body _ _ _ condition _ _ => binds.size + body.size + condition.size + 1
  | _, injection _ value => value.size + 1
  | _, new _ p _ injections _ => p.size + injections.size + 1
  | _, matchCase pattern source _ guard => pattern.size + source.size + guard.size + 1
  | _, matchProc target cases _ _ => target.size + cases.size + 1
  | _, conditional condition ifTrue ifFalse _ _ => condition.size + ifTrue.size + ifFalse.size + 1
  | _, bundle body _ _ => body.size + 1
  | _, ground _ | _, eVar _ | _, varRef _ _ | _, connType _ _ => 1
  | _, unary _ p => p.size + 1
  | _, binary _ p1 p2 => p1.size + p2.size + 1
  | _, eList ps _ _ _ | _, eTuple ps _ _ | _, eSet ps _ _ _ | _, pathMap ps _ _ _ => ps.size + 1
  | _, eMap kvs _ _ _ => kvs.size + 1
  | _, keyValuePair key value => key.size + value.size + 1
  | _, ePathMap pathmap | _, eZipper pathmap _ _ _ _ => pathmap.size + 1
  | _, eMethod _ target arguments _ _ => target.size + arguments.size + 1
  | _, eMatches target pattern => target.size + pattern.size + 1
  | _, connAnd ps | _, connOr ps => ps.size + 1
  | _, connNot p => p.size + 1

variable {k : Kind}

theorem size_pos (t : Term k) : 0 < t.size := by
  cases t <;> exact Nat.succ_pos _

def sizes {k : Kind} (ts : List (Term k)) : Nat := (ts.map fun t => t.size + 1).sum

@[simp] theorem sizes_nil : sizes ([] : List (Term k)) = 0 := rfl

@[simp] theorem sizes_cons (t : Term k) (ts : List (Term k)) : sizes (t :: ts) = t.size + 1 + sizes ts := by
  simp [sizes]

@[simp] theorem sizes_append (ts us : List (Term k)) : sizes (ts ++ us) = sizes ts + sizes us := by
  simp [sizes]

theorem sizes_perm {ts us : List (Term k)} (h : ts.Perm us) : sizes ts = sizes us := by
  unfold sizes
  exact (h.map _).sum_nat

theorem size_ofList (ts : List (Term k)) : (ofList ts).size = sizes ts + 1 := by
  induction ts with
  | nil => rfl
  | cons t ts ih =>
    rw [ofList, size, ih, sizes_cons]
    omega

theorem size_eq_sizes (ts : Term (.list k)) : ts.size = sizes ts.toList + 1 := by
  rw [← size_ofList, ofList_toList]

variable (s : Sorter)

@[simp] theorem size_sortVec (ts : Term (.list k)) : (s.sortVec ts).size = ts.size := by
  rw [Sorter.sortVec, size_ofList, size_eq_sizes, sizes_perm (List.perm_insertionSort _ _)]

theorem size_dropEmpty_le (original sorted : Term (.option .par)) :
    (Sorter.dropEmpty original sorted).size ≤ sorted.size := by
  have hPos := sorted.size_pos
  cases original with
  | absent => exact hPos
  | present p =>
    rw [Sorter.dropEmpty]
    split_ifs
    · exact hPos
    · exact Nat.le_refl _

theorem sizes_insertAll_le (ps : List Par) : sizes (Sorter.insertAll ps) ≤ sizes ps := by
  have hFold : ∀ seen : List Par,
      sizes (ps.foldl (fun seen p => if seen.any (Term.eqv · p) then seen else seen ++ [p]) seen) ≤
        sizes seen + sizes ps := by
    induction ps with
    | nil => simp
    | cons p ps ih =>
      intro seen
      rw [List.foldl_cons, sizes_cons]
      refine (ih _).trans ?_
      split_ifs
      · omega
      · rw [sizes_append, sizes_cons, sizes_nil]
        omega
  have hAll := hFold []
  rwa [sizes_nil, Nat.zero_add] at hAll

theorem sizes_modify_le {f : Term k → Term k} {n : Nat} (hf : ∀ t, (f t).size ≤ t.size + n)
    (ts : List (Term k)) (i : Nat) : sizes (ts.modify i f) ≤ sizes ts + n := by
  induction ts generalizing i with
  | nil => simp
  | cons t ts ih =>
    cases i with
    | zero =>
      have hHead := hf t
      rw [List.modify_zero_cons, sizes_cons, sizes_cons]
      omega
    | succ i =>
      have hTail := ih i
      rw [List.modify_succ_cons, sizes_cons, sizes_cons]
      omega

theorem sizes_rows_le {f : Term .keyValuePair → Term .keyValuePair → Term .keyValuePair}
    (hf : ∀ row kv, (f row kv).size ≤ row.size + kv.size) (kvs rows : List (Term .keyValuePair)) :
    sizes (kvs.foldl (fun rows kv =>
      match rows.findIdx? fun row => (Sorter.keyOf row).eqv (Sorter.keyOf kv) with
      | some i => rows.modify i fun row => f row kv
      | none => rows ++ [kv]) rows) ≤ sizes rows + sizes kvs := by
  induction kvs generalizing rows with
  | nil => simp
  | cons kv kvs ih =>
    rw [List.foldl_cons, sizes_cons]
    refine (ih _).trans ?_
    split
    next i _ =>
      have hModify := sizes_modify_le (fun row => hf row kv) rows i
      omega
    next =>
      rw [sizes_append, sizes_cons, sizes_nil]
      omega

theorem sizes_collectRows_le (kvs : List (Term .keyValuePair)) : sizes (Sorter.collectRows kvs) ≤ sizes kvs := by
  have hAll := sizes_rows_le
    (f := fun row kv => keyValuePair (Sorter.keyOf row) (Sorter.valueOf kv)) (fun row kv => by
      cases row
      cases kv
      simp only [Sorter.keyOf, Sorter.valueOf, size]
      omega) kvs []
  rwa [sizes_nil, Nat.zero_add] at hAll

end Term

namespace Sorter

theorem replaceAll_eq_foldl_modify (kvs : List (Term .keyValuePair)) :
    replaceAll kvs = kvs.foldl (fun rows kv =>
      match rows.findIdx? fun row => (keyOf row).eqv (keyOf kv) with
      | some i => rows.modify i fun _ => kv
      | none => rows ++ [kv]) [] := by
  rw [replaceAll]
  congr
  funext rows kv
  cases rows.findIdx? fun row => (keyOf row).eqv (keyOf kv) with
  | none => rfl
  | some i => exact List.set_eq_modify _ _ _

end Sorter

namespace Term

variable (s : Sorter)

theorem sizes_replaceAll_le (kvs : List (Term .keyValuePair)) : sizes (Sorter.replaceAll kvs) ≤ sizes kvs := by
  rw [Sorter.replaceAll_eq_foldl_modify]
  have hAll := sizes_rows_le (f := fun _ kv => kv) (fun row kv => Nat.le_add_left _ _) kvs []
  rwa [sizes_nil, Nat.zero_add] at hAll

theorem size_sortMatch_le {k : Kind} (t : Term k) : (t.sortMatch s).size ≤ t.size := by
  induction t with
  | nil | absent | injection | ground | eVar | varRef | connType => exact Nat.le_refl _
  | eSet ps _ _ _ ih =>
    have hAll := sizes_insertAll_le (ps.sortMatch s).toList
    rw [sortMatch, size, size_sortVec, size_ofList, size]
    rw [size_eq_sizes] at ih
    omega
  | eMap kvs _ _ _ ih =>
    have hAll := sizes_replaceAll_le (kvs.sortMatch s).toList
    rw [sortMatch, size, size_sortVec, size_ofList, size]
    rw [size_eq_sizes] at ih
    omega
  | receive _ _ _ _ _ condition _ _ =>
    have hCondition := size_dropEmpty_le condition (condition.sortMatch s)
    simp only [sortMatch, size]
    omega
  | matchCase _ _ _ guard =>
    have hGuard := size_dropEmpty_le guard (guard.sortMatch s)
    simp only [sortMatch, size]
    omega
  | _ =>
    simp only [sortMatch, size, size_sortVec]
    omega

theorem sizes_map_sortMatch_le {k : Kind} (ts : List (Term k)) : sizes (ts.map (sortMatch s)) ≤ sizes ts := by
  induction ts with
  | nil => exact Nat.le_refl _
  | cons t ts ih =>
    have hHead := size_sortMatch_le s t
    rw [List.map_cons, sizes_cons, sizes_cons]
    omega

theorem size_sortedPars_le (ps : Term (.list .par)) : (s.sortedPars ps).size ≤ ps.size := by
  have hSorted := sizes_map_sortMatch_le s (s.iterate (Sorter.insertAll ps.toList))
  have hSet := sizes_insertAll_le ps.toList
  rw [sizes_perm (s.perm_iterate _)] at hSorted
  rw [Sorter.sortedPars, size_sortVec, size_ofList, size_eq_sizes]
  omega

theorem size_sortedList_le (kvs : Term (.list .keyValuePair)) : (s.sortedList kvs).size ≤ kvs.size := by
  have hSorted := sizes_map_sortMatch_le s
    ((s.iterateRows (Sorter.collectRows kvs.toList)).insertionSort fun a b => s.leRow a b)
  have hMap := sizes_collectRows_le kvs.toList
  rw [sizes_perm ((List.perm_insertionSort _ _).trans (s.perm_iterateRows _))] at hSorted
  rw [Sorter.sortedList, size_ofList, size_eq_sizes]
  omega

end Term

end F1r3Node.Rholang
