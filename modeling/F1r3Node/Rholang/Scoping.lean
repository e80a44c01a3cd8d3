import F1r3Node.Rholang.Sorter

/-! # Where the variables of a term stand

A place in a term is known by the binders above it, one count for each pattern that encloses the place, innermost
first, and by the depth at which substitution comes to it.
-/

namespace F1r3Node.Rholang

structure Place where
  /-- The number of variables bound on the way down, for the innermost pattern first. -/
  scopes : List Int
  depth : Int
  /-- Substitution does not come here. -/
  passedOver : Bool

namespace Place

def root (depth : Int) : Place := ⟨[0], depth, false⟩

def bind (count : Int) : Place → Place
  | ⟨scope :: scopes, depth, passedOver⟩ => ⟨(scope + count) :: scopes, depth, passedOver⟩
  | ⟨[], depth, passedOver⟩ => ⟨[], depth, passedOver⟩

def pattern (place : Place) : Place := ⟨0 :: place.scopes, place.depth + 1, place.passedOver⟩

/-- Inside the pattern of a `matches`, which substitution enters without counting it. -/
def matchesPattern (place : Place) : Place := ⟨0 :: place.scopes, place.depth, place.passedOver⟩

def sealed (place : Place) : Place := { place with passedOver := true }

end Place

inductive Item
  | var (v : Var)
  | remainder (v : Var)
  | ref (index depth : Int)
  | binder (count : Int)

namespace Term

/-- Everything that stands in a term is as it should be at its place. The value of an injection is no
part of its surroundings. -/
def All (ok : Item → Place → Prop) : {k : Kind} → Term k → Place → Prop
  | _, nil, _ => True
  | _, cons head tail, place => All ok head place ∧ All ok tail place
  | _, absent, _ => True
  | _, present value, place => All ok value place
  | _, par sends receives news exprs matchProcs _ bundles connectives conditionals _ _, place =>
    All ok sends place ∧ All ok receives place ∧ All ok news place ∧ All ok exprs place ∧ All ok matchProcs place ∧
      All ok bundles place ∧ All ok connectives place ∧ All ok conditionals place
  | _, send chan data _ _ _, place => All ok chan place ∧ All ok data place
  | _, receiveBind patterns source remainder _, place =>
    All ok patterns place.pattern ∧ All ok source place ∧ ∀ v ∈ remainder, ok (.remainder v) place.pattern
  | _, receive binds body _ _ bindCount condition _ _, place =>
    All ok binds place ∧ All ok body (place.bind bindCount) ∧ All ok condition (place.bind bindCount) ∧
      ok (.binder bindCount) place
  | _, injection _ value, _ => All ok value (Place.root 0).sealed
  | _, new bindCount p _ injections _, place =>
    All ok p (place.bind bindCount) ∧ All ok injections place ∧ ok (.binder bindCount) place
  | _, matchCase pattern source freeCount guard, place =>
    All ok pattern place.pattern ∧ All ok source (place.bind freeCount) ∧ All ok guard (place.bind freeCount) ∧
      ok (.binder freeCount) place
  | _, matchProc target cases _ _, place => All ok target place ∧ All ok cases place
  | _, conditional condition ifTrue ifFalse _ _, place =>
    All ok condition place ∧ All ok ifTrue place ∧ All ok ifFalse place
  | _, bundle body _ _, place => All ok body place
  | _, ground _, _ => True
  | _, eVar v, place => ok (.var v) place
  | _, unary _ p, place => All ok p place
  | _, binary _ p1 p2, place => All ok p1 place ∧ All ok p2 place
  | _, eList ps _ _ remainder, place => All ok ps place ∧ ∀ v ∈ remainder, ok (.remainder v) place
  | _, eTuple ps _ _, place => All ok ps place
  | _, eSet ps _ _ remainder, place => All ok ps place ∧ ∀ v ∈ remainder, ok (.remainder v) place
  | _, eMap kvs _ _ remainder, place => All ok kvs place ∧ ∀ v ∈ remainder, ok (.remainder v) place
  | _, keyValuePair key value, place => All ok key place ∧ All ok value place
  | _, pathMap ps _ _ remainder, place => All ok ps place.sealed ∧ ∀ v ∈ remainder, ok (.remainder v) place.sealed
  | _, ePathMap pathmap, place => All ok pathmap place
  | _, eZipper pathmap _ _ _ _, place => All ok pathmap place
  | _, eMethod _ target arguments _ _, place => All ok target place ∧ All ok arguments place
  | _, eMatches target pattern, place => All ok target place ∧ All ok pattern place.matchesPattern
  | _, connAnd ps, place => All ok ps place
  | _, connOr ps, place => All ok ps place
  | _, connNot p, place => All ok p place
  | _, varRef index depth, place => ok (.ref index depth) place
  | _, connType _ _, _ => True

theorem All.transfer {ok ok' : Item → Place → Prop} {R : Place → Place → Prop}
    (hBind : ∀ {a b} count, R a b → R (a.bind count) (b.bind count))
    (hPattern : ∀ {a b}, R a b → R a.pattern b.pattern)
    (hMatches : ∀ {a b}, R a b → R a.matchesPattern b.matchesPattern)
    (hSealed : ∀ {a b}, R a b → R a.sealed b.sealed) (hRoot : R (Place.root 0).sealed (Place.root 0).sealed)
    (hItem : ∀ {a b} item, R a b → ok item a → ok' item b)
    {k : Kind} (t : Term k) {a b : Place} (h : R a b) (hAll : All ok t a) : All ok' t b := by
  induction t generalizing a b with
  | nil => trivial
  | cons _ _ ihHead ihTail => exact ⟨ihHead h hAll.1, ihTail h hAll.2⟩
  | absent => trivial
  | present _ ih => exact ih h hAll
  | par _ _ _ _ _ _ _ _ _ _ _ ihS ihR ihN ihE ihM ihB ihC ihI =>
    obtain ⟨hS, hR, hN, hE, hM, hB, hC, hI⟩ := hAll
    exact ⟨ihS h hS, ihR h hR, ihN h hN, ihE h hE, ihM h hM, ihB h hB, ihC h hC, ihI h hI⟩
  | send _ _ _ _ _ ihChan ihData => exact ⟨ihChan h hAll.1, ihData h hAll.2⟩
  | receiveBind _ _ _ _ ihPatterns ihSource =>
    obtain ⟨hPatterns, hSource, hRemainder⟩ := hAll
    exact ⟨ihPatterns (hPattern h) hPatterns, ihSource h hSource, fun v hv => hItem _ (hPattern h) (hRemainder v hv)⟩
  | receive _ _ _ _ _ _ _ _ ihBinds ihBody ihCondition =>
    obtain ⟨hBinds, hBody, hCondition, hCount⟩ := hAll
    exact ⟨ihBinds h hBinds, ihBody (hBind _ h) hBody, ihCondition (hBind _ h) hCondition, hItem _ h hCount⟩
  | injection _ _ ih => exact ih hRoot hAll
  | new _ _ _ _ _ ihP ihInjections =>
    obtain ⟨hP, hInjections, hCount⟩ := hAll
    exact ⟨ihP (hBind _ h) hP, ihInjections h hInjections, hItem _ h hCount⟩
  | matchCase _ _ _ _ ihPattern ihSource ihGuard =>
    obtain ⟨hPat, hSource, hGuard, hCount⟩ := hAll
    exact ⟨ihPattern (hPattern h) hPat, ihSource (hBind _ h) hSource, ihGuard (hBind _ h) hGuard, hItem _ h hCount⟩
  | matchProc _ _ _ _ ihTarget ihCases => exact ⟨ihTarget h hAll.1, ihCases h hAll.2⟩
  | conditional _ _ _ _ _ ihCondition ihTrue ihFalse =>
    exact ⟨ihCondition h hAll.1, ihTrue h hAll.2.1, ihFalse h hAll.2.2⟩
  | bundle _ _ _ ih => exact ih h hAll
  | ground => trivial
  | eVar v => exact hItem _ h hAll
  | unary _ _ ih => exact ih h hAll
  | binary _ _ _ ih₁ ih₂ => exact ⟨ih₁ h hAll.1, ih₂ h hAll.2⟩
  | eList _ _ _ _ ih => exact ⟨ih h hAll.1, fun v hv => hItem _ h (hAll.2 v hv)⟩
  | eTuple _ _ _ ih => exact ih h hAll
  | eSet _ _ _ _ ih => exact ⟨ih h hAll.1, fun v hv => hItem _ h (hAll.2 v hv)⟩
  | eMap _ _ _ _ ih => exact ⟨ih h hAll.1, fun v hv => hItem _ h (hAll.2 v hv)⟩
  | keyValuePair _ _ ihKey ihValue => exact ⟨ihKey h hAll.1, ihValue h hAll.2⟩
  | pathMap _ _ _ _ ih => exact ⟨ih (hSealed h) hAll.1, fun v hv => hItem _ (hSealed h) (hAll.2 v hv)⟩
  | ePathMap _ ih => exact ih h hAll
  | eZipper _ _ _ _ _ ih => exact ih h hAll
  | eMethod _ _ _ _ _ ihTarget ihArguments => exact ⟨ihTarget h hAll.1, ihArguments h hAll.2⟩
  | eMatches _ _ ihTarget ihPattern => exact ⟨ihTarget h hAll.1, ihPattern (hMatches h) hAll.2⟩
  | connAnd _ ih => exact ih h hAll
  | connOr _ ih => exact ih h hAll
  | connNot _ ih => exact ih h hAll
  | varRef => exact hItem _ h hAll
  | connType => trivial

theorem All.and {ok ok' : Item → Place → Prop} {k : Kind} {t : Term k} {place : Place} (h : All ok t place)
    (h' : All ok' t place) : All (fun item place => ok item place ∧ ok' item place) t place := by
  induction t generalizing place with
  | nil | absent | ground | connType => trivial
  | cons _ _ ih₁ ih₂ | send _ _ _ _ _ ih₁ ih₂ | matchProc _ _ _ _ ih₁ ih₂ | binary _ _ _ ih₁ ih₂
  | keyValuePair _ _ ih₁ ih₂ | eMethod _ _ _ _ _ ih₁ ih₂ | eMatches _ _ ih₁ ih₂ =>
    exact ⟨ih₁ h.1 h'.1, ih₂ h.2 h'.2⟩
  | present _ ih | injection _ _ ih | bundle _ _ _ ih | unary _ _ ih | eTuple _ _ _ ih | ePathMap _ ih
  | eZipper _ _ _ _ _ ih | connAnd _ ih | connOr _ ih | connNot _ ih => exact ih h h'
  | eVar | varRef => exact ⟨h, h'⟩
  | eList _ _ _ _ ih | eSet _ _ _ _ ih | eMap _ _ _ _ ih | pathMap _ _ _ _ ih =>
    exact ⟨ih h.1 h'.1, fun v hv => ⟨h.2 v hv, h'.2 v hv⟩⟩
  | par _ _ _ _ _ _ _ _ _ _ _ ihS ihR ihN ihE ihM ihB ihC ihI =>
    obtain ⟨hS, hR, hN, hE, hM, hB, hC, hI⟩ := h
    obtain ⟨hS', hR', hN', hE', hM', hB', hC', hI'⟩ := h'
    exact ⟨ihS hS hS', ihR hR hR', ihN hN hN', ihE hE hE', ihM hM hM', ihB hB hB', ihC hC hC', ihI hI hI'⟩
  | receiveBind _ _ _ _ ihPatterns ihSource =>
    exact ⟨ihPatterns h.1 h'.1, ihSource h.2.1 h'.2.1, fun v hv => ⟨h.2.2 v hv, h'.2.2 v hv⟩⟩
  | receive _ _ _ _ _ _ _ _ ihBinds ihBody ihCondition =>
    exact ⟨ihBinds h.1 h'.1, ihBody h.2.1 h'.2.1, ihCondition h.2.2.1 h'.2.2.1, h.2.2.2, h'.2.2.2⟩
  | new _ _ _ _ _ ihP ihInjections => exact ⟨ihP h.1 h'.1, ihInjections h.2.1 h'.2.1, h.2.2, h'.2.2⟩
  | matchCase _ _ _ _ ihPattern ihSource ihGuard =>
    exact ⟨ihPattern h.1 h'.1, ihSource h.2.1 h'.2.1, ihGuard h.2.2.1 h'.2.2.1, h.2.2.2, h'.2.2.2⟩
  | conditional _ _ _ _ _ ih₁ ih₂ ih₃ => exact ⟨ih₁ h.1 h'.1, ih₂ h.2.1 h'.2.1, ih₃ h.2.2 h'.2.2⟩

section sorted

variable {ok : Item → Place → Prop} {place : Place} (s : Sorter)

variable {k : Kind}

theorem all_iff_forall_mem {ts : Term (.list k)} :
    All ok ts place ↔ ∀ t ∈ ts.toList, All ok t place := by
  generalize hList : ts.toList = l
  induction l generalizing ts with
  | nil =>
    obtain rfl := toList_eq_nil_iff.mp hList
    simp [All]
  | cons head tail ih =>
    cases ts with
    | nil => cases hList
    | cons t ts =>
      obtain ⟨rfl, hTail⟩ := List.cons.inj hList
      rw [List.forall_mem_cons, ← ih hTail]
      rfl

theorem all_ofList {ts : List (Term k)} : All ok (ofList ts) place ↔ ∀ t ∈ ts, All ok t place := by
  rw [all_iff_forall_mem, toList_ofList]

theorem all_sortVec {ts : Term (.list k)} (h : All ok ts place) : All ok (s.sortVec ts) place := by
  rw [Sorter.sortVec, all_ofList]
  intro t hMem
  exact all_iff_forall_mem.mp h t ((List.perm_insertionSort _ _).subset hMem)

theorem all_dropEmpty {original sorted : Term (.option .par)} (h : All ok sorted place) :
    All ok (Sorter.dropEmpty original sorted) place := by
  cases original with
  | absent => trivial
  | present p =>
    rw [Sorter.dropEmpty]
    split_ifs
    · trivial
    · exact h

theorem insertAll_subset (ps : List Par) : Sorter.insertAll ps ⊆ ps := by
  have hFold : ∀ seen : List Par, ps.foldl (fun seen p => if seen.any (Term.eqv · p) then seen else seen ++ [p])
      seen ⊆ seen ++ ps := by
    induction ps with
    | nil => simp
    | cons p ps ih =>
      intro seen
      rw [List.foldl_cons]
      refine List.Subset.trans (ih _) ?_
      split_ifs
      · intro x hx
        simp only [List.mem_append, List.mem_cons] at hx ⊢
        tauto
      · intro x hx
        simp only [List.mem_append, List.mem_cons, List.mem_nil_iff, or_false] at hx ⊢
        tauto
  have hAll := hFold []
  rwa [List.nil_append] at hAll

variable {kvs : List (Term .keyValuePair)}

theorem forall_mem_rows {rows : List (Term .keyValuePair)} {Q : Term .keyValuePair → Prop}
    {f : Term .keyValuePair → Term .keyValuePair → Term .keyValuePair} (hf : ∀ row kv, Q row → Q kv → Q (f row kv))
    (hRows : ∀ row ∈ rows, Q row) (hKvs : ∀ kv ∈ kvs, Q kv) :
    ∀ row ∈ kvs.foldl (fun rows kv =>
      match rows.findIdx? fun row => (Sorter.keyOf row).eqv (Sorter.keyOf kv) with
      | some i => rows.modify i fun row => f row kv
      | none => rows ++ [kv]) rows, Q row := by
  induction kvs generalizing rows with
  | nil => exact hRows
  | cons kv kvs ih =>
    obtain ⟨hHead, hTail⟩ := List.forall_mem_cons.mp hKvs
    rw [List.foldl_cons]
    refine ih ?_ hTail
    split
    next i =>
      intro row hMem
      obtain ⟨n, hn, rfl⟩ := List.mem_iff_getElem.mp hMem
      rw [List.getElem_modify]
      have hOld := hRows _ (List.getElem_mem (by simpa using hn))
      split_ifs
      · exact hf _ _ hOld hHead
      · exact hOld
    next =>
      intro row hMem
      rcases List.mem_append.mp hMem with hMem | hMem
      · exact hRows row hMem
      · obtain rfl := List.mem_singleton.mp hMem
        exact hHead

theorem all_collectRows (h : ∀ kv ∈ kvs, All ok kv place) :
    ∀ row ∈ Sorter.collectRows kvs, All ok row place := by
  refine forall_mem_rows (fun row kv hRow hKv => ?_) (by simp) h
  cases row
  cases kv
  exact ⟨hRow.1, hKv.2⟩

theorem all_replaceAll (h : ∀ kv ∈ kvs, All ok kv place) :
    ∀ row ∈ Sorter.replaceAll kvs, All ok row place := by
  rw [Sorter.replaceAll_eq_foldl_modify]
  exact forall_mem_rows (fun _ _ _ hKv => hKv) (by simp) h

theorem All.sortMatch {t : Term k} {place : Place} (h : All ok t place) :
    All ok (t.sortMatch s) place := by
  induction t generalizing place with
  | nil => trivial
  | cons _ _ ihHead ihTail => exact ⟨ihHead h.1, ihTail h.2⟩
  | absent => trivial
  | present _ ih => exact ih h
  | par _ _ _ _ _ _ _ _ _ _ _ ihS ihR ihN ihE ihM ihB ihC ihI =>
    obtain ⟨hS, hR, hN, hE, hM, hB, hC, hI⟩ := h
    exact ⟨all_sortVec s (ihS hS), all_sortVec s (ihR hR), all_sortVec s (ihN hN), all_sortVec s (ihE hE),
      all_sortVec s (ihM hM), all_sortVec s (ihB hB), all_sortVec s (ihC hC), all_sortVec s (ihI hI)⟩
  | send _ _ _ _ _ ihChan ihData => exact ⟨ihChan h.1, ihData h.2⟩
  | receiveBind _ _ _ _ ihPatterns ihSource => exact ⟨ihPatterns h.1, ihSource h.2.1, h.2.2⟩
  | receive _ _ _ _ _ _ _ _ ihBinds ihBody ihCondition =>
    exact ⟨ihBinds h.1, ihBody h.2.1, all_dropEmpty (ihCondition h.2.2.1), h.2.2.2⟩
  | injection => exact h
  | new _ _ _ _ _ ihP _ => exact ⟨ihP h.1, h.2⟩
  | matchCase _ _ _ _ ihPattern ihSource ihGuard =>
    exact ⟨ihPattern h.1, ihSource h.2.1, all_dropEmpty (ihGuard h.2.2.1), h.2.2.2⟩
  | matchProc _ _ _ _ ihTarget ihCases => exact ⟨ihTarget h.1, ihCases h.2⟩
  | conditional _ _ _ _ _ ihCondition ihTrue ihFalse => exact ⟨ihCondition h.1, ihTrue h.2.1, ihFalse h.2.2⟩
  | bundle _ _ _ ih => exact ih h
  | ground => trivial
  | eVar => exact h
  | unary _ _ ih => exact ih h
  | binary _ _ _ ih₁ ih₂ => exact ⟨ih₁ h.1, ih₂ h.2⟩
  | eList _ _ _ _ ih => exact ⟨ih h.1, h.2⟩
  | eTuple _ _ _ ih => exact ih h
  | eSet ps _ _ _ ih =>
    refine ⟨all_sortVec s (all_ofList.mpr fun p hMem => ?_), h.2⟩
    exact all_iff_forall_mem.mp (ih h.1) p (insertAll_subset _ hMem)
  | eMap kvs _ _ _ ih =>
    refine ⟨all_sortVec s (all_ofList.mpr ?_), h.2⟩
    exact all_replaceAll (all_iff_forall_mem.mp (ih h.1))
  | keyValuePair _ _ ihKey ihValue => exact ⟨ihKey h.1, ihValue h.2⟩
  | pathMap _ _ _ _ ih => exact ⟨ih h.1, h.2⟩
  | ePathMap _ ih => exact ih h
  | eZipper _ _ _ _ _ ih => exact ih h
  | eMethod _ _ _ _ _ ihTarget ihArguments => exact ⟨ihTarget h.1, ihArguments h.2⟩
  | eMatches _ _ ihTarget ihPattern => exact ⟨ihTarget h.1, ihPattern h.2⟩
  | connAnd _ ih => exact ih h
  | connOr _ ih => exact ih h
  | connNot _ ih => exact ih h
  | varRef => exact h
  | connType => trivial

theorem all_sortedPars {ps : Term (.list .par)} (h : All ok ps place) : All ok (s.sortedPars ps) place := by
  refine all_sortVec s (all_ofList.mpr fun p hMem => ?_)
  obtain ⟨q, hq, rfl⟩ := List.mem_map.mp hMem
  have hSet := insertAll_subset _ ((s.perm_iterate _).subset hq)
  exact All.sortMatch s (all_iff_forall_mem.mp h q hSet)

theorem all_sortedList {kvs : Term (.list .keyValuePair)} (h : All ok kvs place) :
    All ok (s.sortedList kvs) place := by
  refine all_ofList.mpr fun kv hMem => ?_
  obtain ⟨row, hRow, rfl⟩ := List.mem_map.mp hMem
  have hRows := (s.perm_iterateRows _).subset ((List.perm_insertionSort _ _).subset hRow)
  exact All.sortMatch s (all_collectRows (all_iff_forall_mem.mp h) row hRows)

end sorted

end Term

end F1r3Node.Rholang
