import F1r3Node.Lib.Fallible
import F1r3Node.Rholang.Scoping
import F1r3Node.Rholang.Substitute
import Mathlib.Algebra.Order.BigOperators.Group.List
import Mathlib.Algebra.Order.Group.Int

/-! # Substitution closes terms

An environment that has every outer variable of a normalized term closes it, as long as substitution comes to each place
where such a variable stands.
-/

namespace F1r3Node.Rholang

open Lib Term

/-- An index below the binders of the innermost scope; the outermost scope goes on with the variables
around the term. -/
def InScope (outer : Int → Prop) : List Int → Int → Prop
  | [], _ => False
  | [scope], i => 0 ≤ i ∧ (i < scope ∨ outer (i - scope))
  | scope :: _ :: _, i => 0 ≤ i ∧ i < scope

/-- What the normalizer writes: names are resolved, and patterns stand inside patterns only. -/
def Scoped (outer : Int → Prop) : Item → Place → Prop
  | .var (.bound i), place => InScope outer place.scopes i
  | .var (.free _), place | .var .wildcard, place => 1 < place.scopes.length
  | .remainder v, place => (∀ i, v ≠ .bound i) ∧ 1 < place.scopes.length
  | .ref i depth, place => 0 ≤ depth ∧ InScope outer (place.scopes.drop depth.toNat) i
  | .binder count, _ => 0 ≤ count

def Normalized (env : Env) {k : Kind} (t : Term k) : Prop :=
  All (Scoped fun i => (env.get i).isSome) t (.root 0)

def Closed {k : Kind} (t : Term k) : Prop := All (Scoped fun _ => False) t (.root 0)

/-- No outer variable is in a place that substitution does not come to, or comes to with another depth or
shift than the one it was counted with. -/
def Reached (env : Env) : Item → Place → Prop
  | .var (.bound i), place => place.passedOver = true → InScope (fun _ => False) place.scopes i
  | .var (.free _), place | .var .wildcard, place => place.passedOver = true ∨ place.depth ≠ 0
  | .ref i depth, place =>
    InScope (fun _ => False) (place.scopes.drop depth.toNat) i ∨
      place.passedOver = false ∧ depth = place.depth ∧ (env.get (i - place.scopes.sum)).isSome
  | .remainder _, _ | .binder _, _ => True

variable {scopes : List Int}

theorem inScope_false_iff {i : Int} :
    InScope (fun _ => False) scopes i ↔ ∃ scope, scopes[0]? = some scope ∧ 0 ≤ i ∧ i < scope := by
  match scopes with
  | [] => simp [InScope]
  | [scope] => simp [InScope]
  | scope :: _ :: _ => simp [InScope]

theorem inScope_of_length {outer : Int → Prop} {i : Int} (hLength : 1 < scopes.length)
    (h : InScope outer scopes i) : InScope (fun _ => False) scopes i := by
  match scopes with
  | [] => exact h
  | [_] => exact absurd hLength (Nat.lt_irrefl 1)
  | _ :: _ :: _ => exact h

structure Proper (place : Place) : Prop where
  nonempty : place.scopes ≠ []
  nonneg : ∀ scope ∈ place.scopes, 0 ≤ scope
  reached : place.passedOver = false
  depth_nonneg : 0 ≤ place.depth
  depth_lt : place.depth < place.scopes.length

theorem proper_root : Proper (.root 0) := by
  refine ⟨List.cons_ne_nil _ _, ?_, rfl, Int.le_refl 0, Int.one_pos⟩
  intro scope hMem
  rw [List.mem_singleton.mp hMem]

theorem Proper.bind {place : Place} (h : Proper place) {count : Int} (hCount : 0 ≤ count) :
    Proper (place.bind count) := by
  obtain ⟨scopes, depth, passedOver⟩ := place
  obtain ⟨hNonempty, hNonneg, hReached, hDepth, hLt⟩ := h
  cases scopes with
  | nil => exact absurd rfl hNonempty
  | cons scope scopes =>
    obtain ⟨hHead, hTail⟩ := List.forall_mem_cons.mp hNonneg
    exact ⟨List.cons_ne_nil _ _, List.forall_mem_cons.mpr ⟨Int.add_nonneg hHead hCount, hTail⟩, hReached, hDepth, hLt⟩

theorem Proper.pattern {place : Place} (h : Proper place) : Proper place.pattern := by
  have hDepth := h.depth_nonneg
  have hLt := h.depth_lt
  refine ⟨List.cons_ne_nil _ _, List.forall_mem_cons.mpr ⟨Int.le_refl 0, h.nonneg⟩, h.reached, ?_, ?_⟩
  · change 0 ≤ place.depth + 1
    omega
  · change place.depth + 1 < (0 :: place.scopes).length
    rw [List.length_cons]
    omega

theorem Proper.matchesPattern {place : Place} (h : Proper place) : Proper place.matchesPattern := by
  have hLt := h.depth_lt
  refine ⟨List.cons_ne_nil _ _, List.forall_mem_cons.mpr ⟨Int.le_refl 0, h.nonneg⟩, h.reached, h.depth_nonneg, ?_⟩
  change place.depth < (0 :: place.scopes).length
  rw [List.length_cons]
  omega

theorem sum_bind {place : Place} (h : place.scopes ≠ []) (count : Int) :
    (place.bind count).scopes.sum = place.scopes.sum + count := by
  obtain ⟨scopes, depth, passedOver⟩ := place
  cases scopes with
  | nil => exact absurd rfl h
  | cons scope scopes =>
    simp only [Place.bind, List.sum_cons]
    omega

@[simp] theorem depth_bind (place : Place) (count : Int) : (place.bind count).depth = place.depth := by
  obtain ⟨scopes, depth, passedOver⟩ := place
  cases scopes <;> rfl

theorem le_sum_of_mem (hNonneg : ∀ scope ∈ scopes, 0 ≤ scope) {scope : Int}
    (hMem : scope ∈ scopes) : scope ≤ scopes.sum :=
  List.single_le_sum hNonneg scope hMem

def Covers (a b : Place) : Prop :=
  ∀ (n : Nat) (scope : Int), a.scopes[n]? = some scope → ∃ scope', b.scopes[n]? = some scope' ∧ scope ≤ scope'

variable {a b : Place}

theorem Covers.bind (h : Covers a b) (count : Int) : Covers (a.bind count) (b.bind count) := by
  obtain ⟨as, da, pa⟩ := a
  obtain ⟨bs, db, pb⟩ := b
  intro n scope hScope
  cases as with
  | nil => cases hScope
  | cons a as =>
    obtain ⟨b₀, hb₀, hLe⟩ := h 0 a rfl
    cases bs with
    | nil => cases hb₀
    | cons b bs =>
      cases n with
      | zero =>
        obtain rfl := Option.some.inj hScope
        obtain rfl := Option.some.inj hb₀
        exact ⟨b + count, rfl, Int.add_le_add_right hLe count⟩
      | succ n => exact h (n + 1) scope hScope

theorem Covers.cons (h : Covers a b) {da db : Int} {pa pb : Bool} :
    Covers ⟨0 :: a.scopes, da, pa⟩ ⟨0 :: b.scopes, db, pb⟩ := by
  intro n scope hScope
  cases n with
  | zero => exact ⟨scope, hScope, Int.le_refl scope⟩
  | succ n => exact h n scope hScope

theorem covers_scoped (h : Covers a b) (item : Item) (hItem : Scoped (fun _ => False) item a) :
    Scoped (fun _ => False) item b := by
  have hLength : 1 < a.scopes.length → 1 < b.scopes.length := by
    intro hLt
    obtain ⟨scope, hScope, -⟩ := h 1 _ (List.getElem?_eq_getElem hLt)
    exact (List.getElem?_eq_some_iff.mp hScope).1
  have hInScope : ∀ n i, InScope (fun _ => False) (a.scopes.drop n) i →
      InScope (fun _ => False) (b.scopes.drop n) i := by
    intro n i hIn
    obtain ⟨scope, hScope, hNonneg, hLt⟩ := inScope_false_iff.mp hIn
    rw [List.getElem?_drop] at hScope
    obtain ⟨scope', hScope', hLe⟩ := h _ scope hScope
    refine inScope_false_iff.mpr ⟨scope', ?_, hNonneg, by omega⟩
    rw [List.getElem?_drop]
    exact hScope'
  match item with
  | .var (.bound i) => exact hInScope 0 i hItem
  | .var (.free _) => exact hLength hItem
  | .var .wildcard => exact hLength hItem
  | .remainder v => exact ⟨hItem.1, hLength hItem.2⟩
  | .ref i depth => exact ⟨hItem.1, hInScope _ i hItem.2⟩
  | .binder count => exact hItem

theorem Closed.at_place {k : Kind} {t : Term k} (h : Closed t) {place : Place} (hPlace : Proper place) :
    All (Scoped fun _ => False) t place := by
  refine All.transfer (R := Covers) (fun count hCovers => hCovers.bind count) (fun hCovers => hCovers.cons)
    (fun hCovers => hCovers.cons) (fun hCovers => hCovers) ?_
    (fun item hCovers => covers_scoped hCovers item) t ?_ h
  · exact fun n scope hScope => ⟨scope, hScope, Int.le_refl scope⟩
  · intro n scope hScope
    obtain ⟨scopes, depth, passedOver⟩ := place
    cases scopes with
    | nil => exact absurd rfl hPlace.nonempty
    | cons first scopes =>
      cases n with
      | zero =>
        obtain rfl := Option.some.inj hScope
        exact ⟨first, rfl, hPlace.nonneg first List.mem_cons_self⟩
      | succ n => cases hScope

section lookup

variable {env : Env} {place : Place}

theorem get_of_inScope (hShift : 0 ≤ env.shift) (hPlace : Proper place) {n : Nat} {i : Int}
    (h : InScope (fun _ => False) (place.scopes.drop n) i) : (env.shiftBy place.scopes.sum).get i = none := by
  obtain ⟨scope, hScope, -, hLt⟩ := inScope_false_iff.mp h
  have hMem : scope ∈ place.scopes := List.drop_subset n _ (List.mem_of_getElem? hScope)
  have hLe := le_sum_of_mem hPlace.nonneg hMem
  apply Env.get_of_lt_shift
  change i < env.shift + place.scopes.sum
  omega

theorem inScope_or_get {i : Int} (h : InScope (fun i => (env.get i).isSome) place.scopes i) :
    InScope (fun _ => False) place.scopes i ∨ ((env.shiftBy place.scopes.sum).get i).isSome := by
  match hScopes : place.scopes with
  | [] => simp [hScopes, InScope] at h
  | [scope] =>
    rw [hScopes] at h
    obtain ⟨hNonneg, hLt | hOuter⟩ := h
    · exact .inl ⟨hNonneg, .inl hLt⟩
    · right
      rw [Env.get_shiftBy, List.sum_singleton]
      exact hOuter
  | scope :: _ :: _ =>
    rw [hScopes] at h
    exact .inl h

end lookup

section processes

variable {ok : Item → Place → Prop} {place : Place}

theorem all_append {k : Kind} {ts us : Term (.list k)} (hts : All ok ts place) (hus : All ok us place) :
    All ok (ts.append us) place := by
  rw [Term.append, all_ofList, List.forall_mem_append]
  exact ⟨all_iff_forall_mem.mp hts, all_iff_forall_mem.mp hus⟩

variable {p : Par}

theorem all_concatenatePars {q : Par} (hp : All ok p place) (hq : All ok q place) :
    All ok (concatenatePars p q) place := by
  cases p
  cases q
  obtain ⟨hS, hR, hN, hE, hM, hB, hC, hI⟩ := hp
  obtain ⟨hS', hR', hN', hE', hM', hB', hC', hI'⟩ := hq
  exact ⟨all_append hS' hS, all_append hR' hR, all_append hN' hN, all_append hE' hE, all_append hM' hM,
    all_append hB' hB, all_append hC' hC, all_append hI' hI⟩

theorem all_prependExpr {e : Expr} (he : All ok e place) (hp : All ok p place) (depth : Int) :
    All ok (prependExpr depth e p) place := by
  cases p
  obtain ⟨hS, hR, hN, hE, hM, hB, hC, hI⟩ := hp
  exact ⟨hS, hR, hN, ⟨he, hE⟩, hM, hB, hC, hI⟩

theorem all_prependConnective {c : Connective} (hc : All ok c place) (hp : All ok p place) (depth : Int) :
    All ok (prependConnective depth c p) place := by
  cases p
  obtain ⟨hS, hR, hN, hE, hM, hB, hC, hI⟩ := hp
  exact ⟨hS, hR, hN, hE, hM, hB, ⟨hc, hC⟩, hI⟩

theorem all_emptyPar : All ok emptyPar place :=
  ⟨trivial, trivial, trivial, trivial, trivial, trivial, trivial, trivial⟩

theorem all_rebundle {body : Par} (h : All ok body place) (writeFlag readFlag : Bool) :
    All ok (rebundle writeFlag readFlag body) place := by
  rw [rebundle]
  cases hSingle : singleBundle body with
  | none => exact h
  | some inner =>
    have hMem : inner ∈ body.bundles := by
      unfold singleBundle at hSingle
      split_ifs at hSingle
      split at hSingle
      next b hBundles =>
        obtain rfl := Option.some.inj hSingle
        rw [hBundles]
        exact List.mem_cons_self
      next => cases hSingle
    have hInner : All ok inner place := by
      cases body
      obtain ⟨-, -, -, -, -, hBundles, -⟩ := h
      exact all_iff_forall_mem.mp hBundles inner hMem
    cases inner
    exact hInner

end processes

def Env.atPlace (env : Env) (place : Place) : Env := env.shiftBy place.scopes.sum

theorem atPlace_bind (env : Env) {place : Place} (h : Proper place) (count : Int) :
    (env.atPlace place).shiftBy count = env.atPlace (place.bind count) := by
  rw [Env.atPlace, Env.atPlace, Env.shiftBy_shiftBy, sum_bind h.nonempty]

theorem atPlace_pattern (env : Env) (place : Place) : env.atPlace place.pattern = env.atPlace place := by
  rw [Env.atPlace, Env.atPlace, Place.pattern, List.sum_cons, Int.zero_add]

theorem atPlace_matchesPattern (env : Env) (place : Place) :
    env.atPlace place.matchesPattern = env.atPlace place := by
  rw [Env.atPlace, Env.atPlace, Place.matchesPattern, List.sum_cons, Int.zero_add]

def Visited : {k : Kind} → Term k → Prop
  | _, .nil | _, .cons _ _ | _, .absent | _, .present _ | _, .injection _ _ | _, .pathMap _ _ _ _ | _, .eVar _
  | _, .varRef _ _ => False
  | _, _ => True

/-- A term at a place, ready to be closed by an environment. -/
structure Ready (env : Env) (place : Place) {k : Kind} (t : Term k) : Prop where
  names : All (Scoped fun i => (env.get i).isSome) t place
  reached : All (Reached env) t place

/-- Substitution with `go` closes the messages of a limited size. -/
def Closing (env : Env) (fuel : Nat)
    (go : {k : Kind} → Term k → Int → Env → Except SubstituteFailure (Term k)) : Prop :=
  ∀ {k : Kind} {t : Term k} {place : Place}, Visited t → t.size ≤ fuel → Proper place → Ready env place t →
    Returns (go t place.depth (env.atPlace place)) fun t' => All (Scoped fun _ => False) t' place

section closing

variable {env : Env} {fuel : Nat} {go : {k : Kind} → Term k → Int → Env → Except SubstituteFailure (Term k)}
  {place : Place}

theorem visited_par (p : Par) : Visited p := by
  cases p
  trivial

theorem size_lt_of_mem {k : Kind} {ts : Term (.list k)} {t : Term k} (hMem : t ∈ ts.toList) : t.size < ts.size := by
  rw [size_eq_sizes]
  generalize ts.toList = l at hMem
  induction l with
  | nil => cases hMem
  | cons head tail ih =>
    rw [sizes_cons]
    rcases List.mem_cons.mp hMem with rfl | hMem
    · omega
    · have hTail := ih hMem
      omega

theorem Ready.of_mem {k : Kind} {ts : Term (.list k)} (h : Ready env place ts) {t : Term k} (hMem : t ∈ ts.toList) :
    Ready env place t :=
  ⟨all_iff_forall_mem.mp h.names t hMem, all_iff_forall_mem.mp h.reached t hMem⟩

theorem Closing.all (hGo : Closing env fuel go) {k : Kind} {ts : Term (.list k)}
    (hVisited : ∀ t : Term k, Visited t) (hSize : ts.size ≤ fuel) (hPlace : Proper place) (h : Ready env place ts) :
    Returns (substituteAllNoSort go ts place.depth (env.atPlace place)) fun ts' =>
      All (Scoped fun _ => False) ts' place := by
  refine (Returns.mapM fun t hMem => ?_).bind fun ts' hts' => .pure (all_ofList.mpr hts')
  have hLt := size_lt_of_mem hMem
  exact hGo (hVisited t) (by omega) hPlace (h.of_mem hMem)

theorem Closing.option (hGo : Closing env fuel go) {t : Term (.option .par)} (hSize : t.size ≤ fuel)
    (hPlace : Proper place) (h : Ready env place t) :
    Returns (substituteOption go t place.depth (env.atPlace place)) fun t' =>
      All (Scoped fun _ => False) t' place := by
  cases t with
  | absent => exact .pure trivial
  | present p =>
    have hLe : p.size ≤ fuel := Nat.le_of_succ_le hSize
    exact (hGo (visited_par p) hLe hPlace ⟨h.names, h.reached⟩).bind fun p' hp' => .pure hp'

theorem closes_var (hValues : ∀ p ∈ env.bindings, Closed p) (hPlace : Proper place) {v : Var}
    (h : Ready env place (eVar v)) :
    Returns (maybeSubstituteVar v place.depth (env.atPlace place)) fun result =>
      match result with
      | .inl v => All (Scoped fun _ => False) (eVar v) place
      | .inr p => All (Scoped fun _ => False) p place := by
  obtain ⟨hNames, hReached⟩ := h
  have hLength : place.depth ≠ 0 → 1 < place.scopes.length := by
    have hNonneg := hPlace.depth_nonneg
    have hLt := hPlace.depth_lt
    omega
  have hPattern : ¬ place.passedOver = true := by simp [hPlace.reached]
  cases v with
  | bound i =>
    by_cases hDepth : place.depth ≠ 0
    · refine ⟨.inl (.bound i), if_pos hDepth, ?_⟩
      have hBound : InScope (fun i => (env.get i).isSome) place.scopes i := hNames
      exact inScope_of_length (hLength hDepth) hBound
    · cases hGet : (env.atPlace place).get i with
      | some p =>
        refine ⟨.inr p, ?_, (hValues p (@Env.mem_of_get (env.atPlace place) i p hGet)).at_place hPlace⟩
        simp only [maybeSubstituteVar, if_neg hDepth, hGet]
      | none =>
        refine ⟨.inl (.bound i), ?_, ?_⟩
        · simp only [maybeSubstituteVar, if_neg hDepth, hGet]
        · refine (inScope_or_get hNames).resolve_right ?_
          rw [← Env.atPlace, hGet]
          exact Bool.false_ne_true
  | free level => exact ⟨.inl (.free level), if_pos (hReached.resolve_left hPattern), hNames⟩
  | wildcard => exact ⟨.inl .wildcard, if_pos (hReached.resolve_left hPattern), hNames⟩

theorem closes_varRef (hShift : 0 ≤ env.shift) (hValues : ∀ p ∈ env.bindings, Closed p) (hPlace : Proper place)
    {index termDepth : Int} (h : Ready env place (varRef index termDepth)) :
    match maybeSubstituteVarRef index termDepth place.depth (env.atPlace place) with
    | none => All (Scoped fun _ => False) (varRef index termDepth) place
    | some p => All (Scoped fun _ => False) p place := by
  obtain ⟨⟨hNonneg, -⟩, hReached⟩ := h
  rcases hReached with hLocal | ⟨-, hDepth, hOuter⟩
  · have hNone : maybeSubstituteVarRef index termDepth place.depth (env.atPlace place) = none := by
      rw [maybeSubstituteVarRef, Env.atPlace, get_of_inScope hShift hPlace hLocal, ite_self]
    rw [hNone]
    exact ⟨hNonneg, hLocal⟩
  · obtain ⟨p, hGet⟩ := Option.isSome_iff_exists.mp hOuter
    rw [← Env.get_shiftBy] at hGet
    have hSome : maybeSubstituteVarRef index termDepth place.depth (env.atPlace place) = some p := by
      rw [maybeSubstituteVarRef, if_neg (not_not.mpr hDepth)]
      exact hGet
    rw [hSome]
    exact (hValues p (@Env.mem_of_get (env.shiftBy place.scopes.sum) index p hGet)).at_place hPlace

theorem Closing.subExp (hValues : ∀ p ∈ env.bindings, Closed p) (hGo : Closing env fuel go)
    {exprs : Term (.list .expr)} (hSize : exprs.size ≤ fuel) (hPlace : Proper place) (h : Ready env place exprs) :
    Returns (subExp go place.depth (env.atPlace place) exprs) fun p => All (Scoped fun _ => False) p place := by
  refine Returns.foldlM all_emptyPar fun e hMem acc hAcc => ?_
  have hReady := h.of_mem hMem
  have hLt := size_lt_of_mem hMem
  have hOther : Visited e → Returns (go e place.depth (env.atPlace place) >>= fun e =>
      Pure.pure (prependExpr place.depth e acc)) fun p => All (Scoped fun _ => False) p place := fun hVisited =>
    (hGo hVisited (by omega) hPlace hReady).bind fun e' he' => .pure (all_prependExpr he' hAcc _)
  cases e with
  | eVar v =>
    refine (closes_var hValues hPlace hReady).bind fun result hResult => ?_
    cases result with
    | inl v => exact .pure (all_prependExpr hResult hAcc _)
    | inr p => exact .pure (all_concatenatePars hResult hAcc)
  | _ => exact hOther trivial

theorem Closing.subConn (hShift : 0 ≤ env.shift) (hValues : ∀ p ∈ env.bindings, Closed p) (hGo : Closing env fuel go)
    {conns : Term (.list .connective)} (hSize : conns.size ≤ fuel) (hPlace : Proper place)
    (h : Ready env place conns) :
    Returns (subConn go place.depth (env.atPlace place) conns) fun p => All (Scoped fun _ => False) p place := by
  refine Returns.foldlM all_emptyPar fun c hMem acc hAcc => ?_
  have hReady := h.of_mem hMem
  have hLt := size_lt_of_mem hMem
  have hOther : Visited c → Returns (go c place.depth (env.atPlace place) >>= fun c =>
      Pure.pure (prependConnective place.depth c acc)) fun p => All (Scoped fun _ => False) p place := fun hVisited =>
    (hGo hVisited (by omega) hPlace hReady).bind fun c' hc' => .pure (all_prependConnective hc' hAcc _)
  cases c with
  | varRef index termDepth =>
    have hRef := closes_varRef hShift hValues hPlace hReady
    cases hValue : maybeSubstituteVarRef index termDepth place.depth (env.atPlace place) with
    | none =>
      rw [hValue] at hRef
      rw [subConnStep, hValue]
      exact .pure (all_prependConnective hRef hAcc _)
    | some p =>
      rw [hValue] at hRef
      rw [subConnStep, hValue]
      exact .pure (all_concatenatePars hRef hAcc)
  | _ => exact hOther trivial

theorem passedOver_bind (place : Place) (count : Int) : (place.bind count).passedOver = place.passedOver := by
  obtain ⟨scopes, depth, passedOver⟩ := place
  cases scopes <;> rfl

theorem closed_of_passedOver {k : Kind} {t : Term k} {place : Place} (hPassed : place.passedOver = true)
    (h : Ready env place t) : All (Scoped fun _ => False) t place := by
  refine All.transfer (R := fun a b => a = b ∧ a.passedOver = true) ?_ ?_ ?_ ?_ ⟨rfl, rfl⟩ ?_ t ⟨rfl, hPassed⟩
    (h.names.and h.reached)
  · rintro a b count ⟨rfl, hPassed⟩
    exact ⟨rfl, (passedOver_bind a count).trans hPassed⟩
  · rintro a b ⟨rfl, hPassed⟩
    exact ⟨rfl, hPassed⟩
  · rintro a b ⟨rfl, hPassed⟩
    exact ⟨rfl, hPassed⟩
  · rintro a b ⟨rfl, -⟩
    exact ⟨rfl, rfl⟩
  · rintro a b item ⟨rfl, hPassed⟩ ⟨hName, hReached⟩
    match item with
    | .var (.bound i) => exact hReached hPassed
    | .var (.free _) => exact hName
    | .var .wildcard => exact hName
    | .remainder v => exact hName
    | .binder count => exact hName
    | .ref i depth =>
      refine ⟨hName.1, hReached.resolve_right ?_⟩
      rintro ⟨hVisited, -⟩
      exact absurd hPassed (by simp [hVisited])

theorem closed_injections {injections : Term (.list .injection)} (h : Ready env place injections) :
    All (Scoped fun _ => False) injections place := by
  rw [all_iff_forall_mem]
  intro t hMem
  have hInjection := h.of_mem hMem
  cases t with
  | injection name value =>
    have hValue : Ready env (Place.root 0).sealed value := ⟨hInjection.names, hInjection.reached⟩
    have hClosed := closed_of_passedOver rfl hValue
    exact hClosed

theorem closed_pathMap {pathmap : Term .pathMap} (h : Ready env place pathmap) :
    All (Scoped fun _ => False) pathmap place := by
  cases pathmap with
  | pathMap ps locallyFree used remainder =>
    have hList : Ready env place.sealed (eList ps locallyFree used remainder) := ⟨h.names, h.reached⟩
    have hClosed := closed_of_passedOver rfl hList
    exact hClosed

theorem Closing.below (hGo : Closing env fuel go) {t : Par} (hSize : t.size ≤ fuel) (hPlace : Proper place)
    {count : Int} (hCount : 0 ≤ count) (h : Ready env (place.bind count) t) :
    Returns (go t place.depth ((env.atPlace place).shiftBy count)) fun t' =>
      All (Scoped fun _ => False) t' (place.bind count) := by
  rw [atPlace_bind env hPlace, ← depth_bind place count]
  exact hGo (visited_par t) hSize (hPlace.bind hCount) h

theorem Closing.optionBelow (hGo : Closing env fuel go) {t : Term (.option .par)} (hSize : t.size ≤ fuel)
    (hPlace : Proper place) {count : Int} (hCount : 0 ≤ count) (h : Ready env (place.bind count) t) :
    Returns (substituteOption go t place.depth ((env.atPlace place).shiftBy count)) fun t' =>
      All (Scoped fun _ => False) t' (place.bind count) := by
  rw [atPlace_bind env hPlace, ← depth_bind place count]
  exact hGo.option hSize (hPlace.bind hCount) h

theorem Closing.substituteTerm (s : Sorter) (hShift : 0 ≤ env.shift) (hValues : ∀ p ∈ env.bindings, Closed p)
    (hGo : Closing env fuel go) : Closing env (fuel + 1) (substituteTerm s go) := by
  intro k t place hVisited hSize hPlace h
  obtain ⟨hNames, hReached⟩ := h
  cases t with
  | nil | cons | absent | present | injection | pathMap | eVar | varRef => exact hVisited.elim
  | par sends receives news exprs matchProcs unforgeables bundles connectives conditionals _ _ =>
    simp only [size] at hSize
    obtain ⟨hS, hR, hN, hE, hM, hB, hC, hI⟩ := hNames
    obtain ⟨hS', hR', hN', hE', hM', hB', hC', hI'⟩ := hReached
    refine (hGo.subExp hValues (by omega) hPlace ⟨hE, hE'⟩).bind fun exprs hExprs => ?_
    refine (hGo.subConn hShift hValues (by omega) hPlace ⟨hC, hC'⟩).bind fun connectives hConnectives => ?_
    refine (hGo.all (by rintro ⟨⟩; trivial) (by omega) hPlace ⟨hS, hS'⟩).bind fun sends hSends => ?_
    refine (hGo.all (by rintro ⟨⟩; trivial) (by omega) hPlace ⟨hB, hB'⟩).bind fun bundles hBundles => ?_
    refine (hGo.all (by rintro ⟨⟩; trivial) (by omega) hPlace ⟨hR, hR'⟩).bind fun receives hReceives => ?_
    refine (hGo.all (by rintro ⟨⟩; trivial) (by omega) hPlace ⟨hN, hN'⟩).bind fun news hNews => ?_
    refine (hGo.all (by rintro ⟨⟩; trivial) (by omega) hPlace ⟨hM, hM'⟩).bind fun matchProcs hMatchProcs => ?_
    refine (hGo.all (by rintro ⟨⟩; trivial) (by omega) hPlace ⟨hI, hI'⟩).bind fun conditionals hConditionals => ?_
    refine .pure (all_concatenatePars hExprs (all_concatenatePars hConnectives ?_))
    exact ⟨hSends, hReceives, hNews, trivial, hMatchProcs, hBundles, trivial, hConditionals⟩
  | send chan data _ _ _ =>
    simp only [size] at hSize
    refine (hGo (visited_par chan) (by omega) hPlace ⟨hNames.1, hReached.1⟩).bind fun chan hChan => ?_
    refine (hGo.all visited_par (by omega) hPlace ⟨hNames.2, hReached.2⟩).bind fun data hData => ?_
    exact .pure ⟨hChan, hData⟩
  | receiveBind patterns source remainder _ =>
    simp only [size] at hSize
    obtain ⟨hPatterns, hSource, hRemainder⟩ := hNames
    refine (hGo (visited_par source) (by omega) hPlace ⟨hSource, hReached.2.1⟩).bind fun source hSource' => ?_
    rw [← atPlace_pattern]
    refine (hGo.all visited_par (by omega) hPlace.pattern ⟨hPatterns, hReached.1⟩).bind fun patterns hPatterns' => ?_
    exact .pure ⟨hPatterns', hSource', hRemainder⟩
  | receive binds body _ _ bindCount condition _ _ =>
    simp only [size] at hSize
    obtain ⟨hBinds, hBody, hCondition, hCount⟩ := hNames
    obtain ⟨hBinds', hBody', hCondition', -⟩ := hReached
    refine (hGo.all (by rintro ⟨⟩; trivial) (by omega) hPlace ⟨hBinds, hBinds'⟩).bind fun binds hBinds => ?_
    refine (hGo.below (by omega) hPlace hCount ⟨hBody, hBody'⟩).bind fun body hBody => ?_
    refine (hGo.optionBelow (by omega) hPlace hCount ⟨hCondition, hCondition'⟩).bind fun condition hCondition => ?_
    exact .pure ⟨hBinds, hBody, hCondition, hCount⟩
  | new bindCount p _ _ _ =>
    simp only [size] at hSize
    obtain ⟨hP, hInjections, hCount⟩ := hNames
    obtain ⟨hP', hInjections', -⟩ := hReached
    refine (hGo.below (by omega) hPlace hCount ⟨hP, hP'⟩).bind fun p hP => ?_
    exact .pure ⟨hP, closed_injections ⟨hInjections, hInjections'⟩, hCount⟩
  | matchCase pattern source freeCount guard =>
    simp only [size] at hSize
    obtain ⟨hPattern, hSource, hGuard, hCount⟩ := hNames
    obtain ⟨hPattern', hSource', hGuard', -⟩ := hReached
    refine (hGo.below (by omega) hPlace hCount ⟨hSource, hSource'⟩).bind fun source hSource => ?_
    have hInside : Returns (go pattern (place.depth + 1) (env.atPlace place)) fun pattern =>
        All (Scoped fun _ => False) pattern place.pattern := by
      rw [← atPlace_pattern]
      exact hGo (visited_par pattern) (by omega) hPlace.pattern ⟨hPattern, hPattern'⟩
    refine hInside.bind fun pattern hPattern => ?_
    refine (hGo.optionBelow (by omega) hPlace hCount ⟨hGuard, hGuard'⟩).bind fun guard hGuard => ?_
    exact .pure ⟨hPattern, hSource, hGuard, hCount⟩
  | matchProc target cases _ _ =>
    simp only [size] at hSize
    refine (hGo (visited_par target) (by omega) hPlace ⟨hNames.1, hReached.1⟩).bind fun target hTarget => ?_
    refine (hGo.all (by rintro ⟨⟩; trivial) (by omega) hPlace ⟨hNames.2, hReached.2⟩).bind fun cases hCases => ?_
    exact .pure ⟨hTarget, hCases⟩
  | conditional condition ifTrue ifFalse _ _ =>
    simp only [size] at hSize
    obtain ⟨hCondition, hTrue, hFalse⟩ := hNames
    obtain ⟨hCondition', hTrue', hFalse'⟩ := hReached
    refine (hGo (visited_par condition) (by omega) hPlace ⟨hCondition, hCondition'⟩).bind fun condition hCondition => ?_
    refine (hGo (visited_par ifTrue) (by omega) hPlace ⟨hTrue, hTrue'⟩).bind fun ifTrue hTrue => ?_
    refine (hGo (visited_par ifFalse) (by omega) hPlace ⟨hFalse, hFalse'⟩).bind fun ifFalse hFalse => ?_
    exact .pure ⟨hCondition, hTrue, hFalse⟩
  | bundle body writeFlag readFlag =>
    simp only [size] at hSize
    refine (hGo (visited_par body) (by omega) hPlace ⟨hNames, hReached⟩).bind fun body hBody => ?_
    exact .pure (all_rebundle hBody writeFlag readFlag)
  | ground => exact .pure trivial
  | unary _ p =>
    simp only [size] at hSize
    exact (hGo (visited_par p) (by omega) hPlace ⟨hNames, hReached⟩).bind fun p hP => .pure hP
  | binary _ p1 p2 =>
    simp only [size] at hSize
    refine (hGo (visited_par p1) (by omega) hPlace ⟨hNames.1, hReached.1⟩).bind fun p1 hP1 => ?_
    refine (hGo (visited_par p2) (by omega) hPlace ⟨hNames.2, hReached.2⟩).bind fun p2 hP2 => ?_
    exact .pure ⟨hP1, hP2⟩
  | eList ps _ _ _ =>
    simp only [size] at hSize
    refine (hGo.all visited_par (by omega) hPlace ⟨hNames.1, hReached.1⟩).bind fun ps hPs => ?_
    exact .pure ⟨hPs, hNames.2⟩
  | eTuple ps _ _ =>
    simp only [size] at hSize
    exact (hGo.all visited_par (by omega) hPlace ⟨hNames, hReached⟩).bind fun ps hPs => .pure hPs
  | eSet ps _ _ _ =>
    have hSorted := size_sortedPars_le s ps
    simp only [size] at hSize
    refine (hGo.all visited_par (by omega) hPlace
      ⟨all_sortedPars s hNames.1, all_sortedPars s hReached.1⟩).bind fun ps hPs => ?_
    exact .pure ⟨all_sortedPars s hPs, hNames.2⟩
  | eMap kvs _ _ _ =>
    have hSorted := size_sortedList_le s kvs
    simp only [size] at hSize
    refine (hGo.all (by rintro ⟨⟩; trivial) (by omega) hPlace
      ⟨all_sortedList s hNames.1, all_sortedList s hReached.1⟩).bind fun kvs hKvs => ?_
    exact .pure ⟨all_sortedList s hKvs, hNames.2⟩
  | keyValuePair key value =>
    simp only [size] at hSize
    refine (hGo (visited_par key) (by omega) hPlace ⟨hNames.1, hReached.1⟩).bind fun key hKey => ?_
    refine (hGo (visited_par value) (by omega) hPlace ⟨hNames.2, hReached.2⟩).bind fun value hValue => ?_
    exact .pure ⟨hKey, hValue⟩
  | ePathMap pathmap => exact .pure (closed_pathMap ⟨hNames, hReached⟩)
  | eZipper pathmap => exact .pure (closed_pathMap ⟨hNames, hReached⟩)
  | eMethod _ target arguments _ _ =>
    simp only [size] at hSize
    refine (hGo (visited_par target) (by omega) hPlace ⟨hNames.1, hReached.1⟩).bind fun target hTarget => ?_
    refine (hGo.all visited_par (by omega) hPlace ⟨hNames.2, hReached.2⟩).bind fun arguments hArguments => ?_
    exact .pure ⟨hTarget, hArguments⟩
  | eMatches target pattern =>
    simp only [size] at hSize
    refine (hGo (visited_par target) (by omega) hPlace ⟨hNames.1, hReached.1⟩).bind fun target hTarget => ?_
    rw [← atPlace_matchesPattern]
    refine (hGo (visited_par pattern) (by omega) hPlace.matchesPattern ⟨hNames.2, hReached.2⟩).bind
      fun pattern hPattern => ?_
    exact .pure ⟨hTarget, hPattern⟩
  | connAnd ps =>
    simp only [size] at hSize
    exact (hGo.all visited_par (by omega) hPlace ⟨hNames, hReached⟩).bind fun ps hPs => .pure hPs
  | connOr ps =>
    simp only [size] at hSize
    exact (hGo.all visited_par (by omega) hPlace ⟨hNames, hReached⟩).bind fun ps hPs => .pure hPs
  | connNot p =>
    simp only [size] at hSize
    exact (hGo (visited_par p) (by omega) hPlace ⟨hNames, hReached⟩).bind fun p hP => .pure hP
  | connType => exact .pure trivial

theorem closing_substituteNoSort (s : Sorter) (hShift : 0 ≤ env.shift) (hValues : ∀ p ∈ env.bindings, Closed p)
    (fuel : Nat) : Closing env fuel (substituteNoSort s fuel) := by
  induction fuel with
  | zero =>
    intro k t place _ hSize
    have hPos := t.size_pos
    omega
  | succ fuel ih => exact ih.substituteTerm s hShift hValues

end closing

/-- A normalized term whose outer variables stand where substitution comes to them is closed by an environment
of closed values that has them all. -/
theorem substituteNoSort_closes (s : Sorter) {env : Env} (hShift : 0 ≤ env.shift)
    (hValues : ∀ p ∈ env.bindings, Closed p) {t : Par} (hNormalized : Normalized env t)
    (hReached : All (Reached env) t (.root 0)) {fuel : Nat} (hFuel : t.size ≤ fuel) :
    ∃ t', substituteNoSort s fuel t 0 env = .ok t' ∧ Closed t' := by
  have hClosing := closing_substituteNoSort s hShift hValues fuel (visited_par t) hFuel proper_root
    ⟨hNormalized, hReached⟩
  have hSame : env.atPlace (.root 0) = env := env.shiftBy_zero
  rwa [hSame] at hClosing

def fiveEnv : Env := Env.new.put (ofExpr (.ground (.gInt 5)))

def firstBound : Par := ofExpr (.eVar (.bound 0))

theorem fiveEnv_closed : ∀ p ∈ fiveEnv.bindings, Closed p := by
  intro p hMem
  obtain rfl := List.mem_singleton.mp hMem
  exact ⟨trivial, trivial, trivial, ⟨trivial, trivial⟩, trivial, trivial, trivial, trivial⟩

theorem all_ofExpr {ok : Item → Place → Prop} {e : Expr} {place : Place} (h : All ok e place) :
    All ok (ofExpr e) place :=
  ⟨trivial, trivial, trivial, ⟨h, trivial⟩, trivial, trivial, trivial, trivial⟩

theorem normalized_firstBound : Normalized fiveEnv firstBound := all_ofExpr ⟨Int.le_refl 0, .inr rfl⟩

/-- `x + 1` becomes `5 + 1`. -/
theorem substituteNoSort_closes_sum :
    ∃ t', substituteNoSort evenSorter 40 (ofExpr (.binary .plus firstBound (ofExpr (.ground (.gInt 1))))) 0 fiveEnv =
      .ok t' ∧ Closed t' := by
  refine substituteNoSort_closes evenSorter (Int.le_refl 0) fiveEnv_closed ?_ ?_ (by decide)
  · exact all_ofExpr ⟨normalized_firstBound, all_ofExpr trivial⟩
  · exact all_ofExpr ⟨all_ofExpr (fun hPassed => absurd hPassed (by decide)), all_ofExpr trivial⟩

/-- `x matches _`. -/
def anyMatch : Par := ofExpr (.eMatches firstBound (ofExpr (.eVar .wildcard)))

/-- The path map of `x`. -/
def onePath : Par := ofExpr (.ePathMap (.pathMap (.cons firstBound .nil) [] false none))

theorem substituteNoSort_onePath (s : Sorter) (fuel : Nat) :
    substituteNoSort s (fuel + 2) onePath 0 fiveEnv = .ok onePath := rfl

/-- Substitution refuses the wildcard of a `matches` and leaves the variable of a path map. -/
theorem not_closes_matches_pathMap :
    (0 ≤ fiveEnv.shift ∧ (∀ p ∈ fiveEnv.bindings, Closed p) ∧ Normalized fiveEnv anyMatch ∧
      Normalized fiveEnv onePath) ∧
    (∀ (s : Sorter) (fuel : Nat), ¬ ∃ t', substituteNoSort s fuel anyMatch 0 fiveEnv = .ok t' ∧ Closed t') ∧
    ∀ (s : Sorter) (fuel : Nat), ¬ ∃ t', substituteNoSort s fuel onePath 0 fiveEnv = .ok t' ∧ Closed t' := by
  refine ⟨⟨Int.le_refl 0, fiveEnv_closed, ?_, ?_⟩, ?_, ?_⟩
  · exact all_ofExpr ⟨normalized_firstBound, all_ofExpr (Nat.lt_succ_self 1)⟩
  · exact all_ofExpr ⟨⟨normalized_firstBound, trivial⟩, by simp⟩
  · rintro s fuel ⟨t', hOk, -⟩
    match fuel with
    | 0 => cases hOk
    | 1 => cases hOk
    | 2 => cases hOk
    | fuel + 3 => cases hOk
  · rintro s fuel ⟨t', hOk, hClosed⟩
    match fuel with
    | 0 => cases hOk
    | 1 => cases hOk
    | fuel + 2 =>
      obtain rfl := Except.ok.inj ((substituteNoSort_onePath s fuel).symm.trans hOk)
      obtain ⟨-, -, -, ⟨⟨hPath, -⟩, -⟩, -⟩ := hClosed
      obtain ⟨-, -, -, ⟨⟨-, hLt | hFalse⟩, -⟩, -⟩ := hPath.1
      · exact absurd hLt (by decide)
      · exact hFalse

end F1r3Node.Rholang
