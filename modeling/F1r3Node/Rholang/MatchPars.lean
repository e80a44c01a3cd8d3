import F1r3Node.Rholang.Equality
import F1r3Node.Rholang.HasLocallyFree

/-! # Comparing a target with a pattern that binds nothing

The comparison goes through receives, binds and news on its own and leaves the other components to equality.
Two lists are compared as far as both go.
-/

namespace F1r3Node.Rholang

namespace Term

/-- The comparisons of `match_pars.rs`, one for each kind. A list stands for the pairs of its zip. -/
def compareWithoutLocallyFree : {k : Kind} → Term k → Term k → Bool
  | _, nil, _ => true
  | _, cons t ts, other =>
    match other with
    | nil => true
    | cons p ps => compareWithoutLocallyFree t p && compareWithoutLocallyFree ts ps
  | _, par sends receives news exprs matchProcs unforgeables bundles connectives _ _ connectiveUsed, other =>
    match other with
    | par sends' receives' news' exprs' matchProcs' unforgeables' bundles' connectives' _ _ connectiveUsed' =>
      sends.toList.length == sends'.toList.length && receives.toList.length == receives'.toList.length
        && news.toList.length == news'.toList.length && exprs.toList.length == exprs'.toList.length
        && matchProcs.toList.length == matchProcs'.toList.length && unforgeables.length == unforgeables'.length
        && bundles.toList.length == bundles'.toList.length
        && compareWithoutLocallyFree sends sends' && compareWithoutLocallyFree receives receives'
        && compareWithoutLocallyFree news news' && compareWithoutLocallyFree exprs exprs'
        && compareWithoutLocallyFree matchProcs matchProcs'
        && (unforgeables.zip unforgeables').all (fun (t, p) => decide (t = p))
        && compareWithoutLocallyFree bundles bundles' && compareWithoutLocallyFree connectives connectives'
        && connectiveUsed == connectiveUsed'
  | _, receive binds body persistent peek bindCount _ _ connectiveUsed, other =>
    match other with
    | receive binds' body' persistent' peek' bindCount' _ _ connectiveUsed' =>
      compareWithoutLocallyFree binds binds' && compareWithoutLocallyFree body body' && persistent == persistent'
        && peek == peek' && bindCount == bindCount' && connectiveUsed == connectiveUsed'
  | _, receiveBind patterns source remainder freeCount, other =>
    match other with
    | receiveBind patterns' source' remainder' freeCount' =>
      compareWithoutLocallyFree patterns patterns' && compareWithoutLocallyFree source source'
        && decide (remainder = remainder') && freeCount == freeCount'
  | _, new bindCount p uri injections _, other =>
    match other with
    | new bindCount' p' uri' injections' _ =>
      bindCount == bindCount' && compareWithoutLocallyFree p p' && uri == uri' && eqv injections injections'
  | _, t, p => eqv t p

def matchPars (target pattern : Par) : Bool := compareWithoutLocallyFree target pattern

/-- The parts the comparison leaves out are the same: conditionals, conditions of receives, and how many binds,
patterns and connectives there are. -/
def SkippedAgree : {k : Kind} → Term k → Term k → Prop
  | _, nil, other => match other with | nil => True | _ => False
  | _, cons t ts, other => match other with | cons p ps => SkippedAgree t p ∧ SkippedAgree ts ps | _ => False
  | _, par _ receives news _ _ _ _ connectives conditionals _ _, other =>
    match other with
    | par _ receives' news' _ _ _ _ connectives' conditionals' _ _ =>
      SkippedAgree receives receives' ∧ SkippedAgree news news'
        ∧ connectives.toList.length = connectives'.toList.length ∧ eqv conditionals conditionals' = true
  | _, receive binds body _ _ _ condition _ _, other =>
    match other with
    | receive binds' body' _ _ _ condition' _ _ =>
      SkippedAgree binds binds' ∧ SkippedAgree body body' ∧ eqv condition condition' = true
  | _, receiveBind patterns source _ _, other =>
    match other with
    | receiveBind patterns' source' _ _ => SkippedAgree patterns patterns' ∧ SkippedAgree source source'
  | _, new _ p _ _ _, other => match other with | new _ p' _ _ _ => SkippedAgree p p'
  | _, _, _ => True

/-- The parts the comparison looks at are the same. Binds, patterns and connectives are only looked at as far as
both terms have them. -/
def ComparedAgree : {k : Kind} → Term k → Term k → Prop
  | _, nil, _ => True
  | _, cons t ts, other => match other with | nil => True | cons p ps => ComparedAgree t p ∧ ComparedAgree ts ps
  | _, par sends receives news exprs matchProcs unforgeables bundles connectives _ _ connectiveUsed, other =>
    match other with
    | par sends' receives' news' exprs' matchProcs' unforgeables' bundles' connectives' _ _ connectiveUsed' =>
      eqv sends sends' = true ∧ receives.toList.length = receives'.toList.length ∧ ComparedAgree receives receives'
        ∧ news.toList.length = news'.toList.length ∧ ComparedAgree news news' ∧ eqv exprs exprs' = true
        ∧ eqv matchProcs matchProcs' = true ∧ unforgeables = unforgeables' ∧ eqv bundles bundles' = true
        ∧ ComparedAgree connectives connectives' ∧ connectiveUsed = connectiveUsed'
  | _, receive binds body persistent peek bindCount _ _ connectiveUsed, other =>
    match other with
    | receive binds' body' persistent' peek' bindCount' _ _ connectiveUsed' =>
      ComparedAgree binds binds' ∧ ComparedAgree body body' ∧ persistent = persistent' ∧ peek = peek'
        ∧ bindCount = bindCount' ∧ connectiveUsed = connectiveUsed'
  | _, receiveBind patterns source remainder freeCount, other =>
    match other with
    | receiveBind patterns' source' remainder' freeCount' =>
      ComparedAgree patterns patterns' ∧ ComparedAgree source source' ∧ remainder = remainder' ∧ freeCount = freeCount'
  | _, new bindCount p uri injections _, other =>
    match other with
    | new bindCount' p' uri' injections' _ =>
      bindCount = bindCount' ∧ ComparedAgree p p' ∧ uri = uri' ∧ eqv injections injections' = true
  | _, t, p => eqv t p = true

theorem skippedAgree_send (t p : Send) : SkippedAgree t p := by cases t; exact True.intro

theorem skippedAgree_expr (t p : Expr) : SkippedAgree t p := by cases t <;> exact True.intro

theorem skippedAgree_matchProc (t p : MatchProc) : SkippedAgree t p := by cases t; exact True.intro

theorem skippedAgree_bundle (t p : Bundle) : SkippedAgree t p := by cases t; exact True.intro

theorem skippedAgree_connective (t p : Connective) : SkippedAgree t p := by cases t <;> exact True.intro

variable {k : Kind}

theorem skippedAgree_list_iff (h : ∀ t p : Term k, SkippedAgree t p) :
    (ts ps : Term (.list k)) → (SkippedAgree ts ps ↔ ts.toList.length = ps.toList.length)
  | nil, nil => by simp [SkippedAgree]
  | nil, cons p ps => by simp [SkippedAgree]
  | cons t ts, nil => by simp [SkippedAgree]
  | cons t ts, cons p ps => by simp [SkippedAgree, h t p, skippedAgree_list_iff h ts ps]

theorem length_eq_of_skippedAgree :
    (ts ps : Term (.list k)) → SkippedAgree ts ps → ts.toList.length = ps.toList.length
  | nil, nil, _ => rfl
  | nil, cons _ _, h => h.elim
  | cons _ _, nil, h => h.elim
  | cons t ts, cons p ps, h => by simp [length_eq_of_skippedAgree ts ps h.2]

theorem zip_all_eq_iff {A : Type} [DecidableEq A] {as bs : List A} (h : as.length = bs.length) :
    (as.zip bs).all (fun (t, p) => decide (t = p)) = true ↔ as = bs := by
  induction as generalizing bs with
  | nil => simpa using (List.length_eq_zero_iff.mp h.symm).symm
  | cons a as ih =>
    obtain ⟨b, bs, rfl⟩ := List.exists_cons_of_length_eq_add_one h.symm
    simp [ih (Nat.succ.inj h)]

theorem eqv_iff_compare (t p : Term k) :
    eqv t p = true ↔ compareWithoutLocallyFree t p = true ∧ SkippedAgree t p := by
  induction t with
  | nil => cases p <;> simp [eqv, compareWithoutLocallyFree, SkippedAgree]
  | cons t ts iht ihts =>
    cases p with
    | nil => simp [eqv, SkippedAgree]
    | cons p ps =>
      simp only [eqv, compareWithoutLocallyFree, SkippedAgree, Bool.and_eq_true, iht, ihts]
      tauto
  | par sends receives news exprs matchProcs unforgeables bundles connectives conditionals _ _ ihSends ihReceives ihNews
      ihExprs ihMatchProcs ihBundles ihConnectives =>
    cases p with
    | par sends' receives' news' exprs' matchProcs' unforgeables' bundles' connectives' conditionals' _ _ =>
      have hSends := skippedAgree_list_iff skippedAgree_send sends sends'
      have hExprs := skippedAgree_list_iff skippedAgree_expr exprs exprs'
      have hMatchProcs := skippedAgree_list_iff skippedAgree_matchProc matchProcs matchProcs'
      have hBundles := skippedAgree_list_iff skippedAgree_bundle bundles bundles'
      have hConnectives := skippedAgree_list_iff skippedAgree_connective connectives connectives'
      have hReceives := length_eq_of_skippedAgree receives receives'
      have hNews := length_eq_of_skippedAgree news news'
      simp only [eqv, compareWithoutLocallyFree, SkippedAgree, Bool.and_eq_true, beq_iff_eq, ihSends, ihReceives, ihNews,
        ihExprs, ihMatchProcs, ihBundles, ihConnectives, hSends, hExprs, hMatchProcs, hBundles, hConnectives,
        decide_eq_true_eq]
      constructor
      · rintro ⟨⟨⟨⟨⟨⟨⟨⟨⟨hs, hr⟩, hn⟩, he⟩, hm⟩, rfl⟩, hb⟩, hc⟩, hConds⟩, hUsed⟩
        have hUnfs : (unforgeables.zip unforgeables).all (fun (t, p) => decide (t = p)) = true :=
          (zip_all_eq_iff rfl).mpr rfl
        exact ⟨⟨⟨⟨⟨⟨⟨⟨⟨⟨⟨⟨⟨⟨⟨⟨hs.2, hReceives hr.2⟩, hNews hn.2⟩, he.2⟩, hm.2⟩, rfl⟩, hb.2⟩, hs.1⟩, hr.1⟩, hn.1⟩, he.1⟩,
          hm.1⟩, hUnfs⟩, hb.1⟩, hc.1⟩, hUsed⟩, hr.2, hn.2, hc.2, hConds⟩
      · rintro ⟨⟨⟨⟨⟨⟨⟨⟨⟨⟨⟨⟨⟨⟨⟨⟨ls, lr⟩, ln⟩, le⟩, lm⟩, lu⟩, lb⟩, hs⟩, hr⟩, hn⟩, he⟩, hm⟩, hu⟩, hb⟩, hc⟩, hUsed⟩,
          sr, sn, sc, hConds⟩
        exact ⟨⟨⟨⟨⟨⟨⟨⟨⟨⟨hs, ls⟩, hr, sr⟩, hn, sn⟩, he, le⟩, hm, lm⟩, (zip_all_eq_iff lu).mp hu⟩, hb, lb⟩, hc, sc⟩,
          hConds⟩, hUsed⟩
  | receive binds body persistent peek bindCount condition _ _ ihBinds ihBody =>
    cases p with
    | receive =>
      simp only [eqv, compareWithoutLocallyFree, SkippedAgree, Bool.and_eq_true, ihBinds, ihBody]
      tauto
  | receiveBind patterns source _ _ ihPatterns ihSource =>
    cases p with
    | receiveBind =>
      simp only [eqv, compareWithoutLocallyFree, SkippedAgree, Bool.and_eq_true, ihPatterns, ihSource]
      tauto
  | new _ p _ _ _ ihP =>
    cases p with
    | new =>
      simp only [eqv, compareWithoutLocallyFree, SkippedAgree, Bool.and_eq_true, ihP]
      tauto
  | _ => exact (and_iff_left trivial).symm

theorem compare_list_iff (h : ∀ t p : Term k, SkippedAgree t p) (ts ps : Term (.list k)) :
    eqv ts ps = true ↔ ts.toList.length = ps.toList.length ∧ compareWithoutLocallyFree ts ps = true := by
  rw [eqv_iff_compare, skippedAgree_list_iff h, and_comm]

theorem compare_iff_comparedAgree (t p : Term k) :
    compareWithoutLocallyFree t p = true ↔ ComparedAgree t p := by
  induction t with
  | nil => simp [compareWithoutLocallyFree, ComparedAgree]
  | cons t ts iht ihts =>
    cases p with
    | nil => simp [compareWithoutLocallyFree, ComparedAgree]
    | cons p ps => simp only [compareWithoutLocallyFree, ComparedAgree, Bool.and_eq_true, iht, ihts]
  | par sends receives news exprs matchProcs unforgeables bundles connectives _ _ _ _ ihReceives ihNews _ _ _
      ihConnectives =>
    cases p with
    | par sends' receives' news' exprs' matchProcs' unforgeables' bundles' connectives' _ _ _ =>
      have hSends := compare_list_iff skippedAgree_send sends sends'
      have hExprs := compare_list_iff skippedAgree_expr exprs exprs'
      have hMatchProcs := compare_list_iff skippedAgree_matchProc matchProcs matchProcs'
      have hBundles := compare_list_iff skippedAgree_bundle bundles bundles'
      have hUnfs : unforgeables = unforgeables' ↔ unforgeables.length = unforgeables'.length
          ∧ (unforgeables.zip unforgeables').all (fun (t, p) => decide (t = p)) = true := by
        constructor
        · rintro rfl
          exact ⟨rfl, (zip_all_eq_iff rfl).mpr rfl⟩
        · rintro ⟨hLen, hAll⟩
          exact (zip_all_eq_iff hLen).mp hAll
      simp only [compareWithoutLocallyFree, ComparedAgree, Bool.and_eq_true, beq_iff_eq, ihReceives, ihNews,
        ihConnectives, hSends, hExprs, hMatchProcs, hBundles, hUnfs]
      constructor
      · rintro ⟨⟨⟨⟨⟨⟨⟨⟨⟨⟨⟨⟨⟨⟨⟨ls, lr⟩, ln⟩, le⟩, lm⟩, lu⟩, lb⟩, hs⟩, hr⟩, hn⟩, he⟩, hm⟩, hu⟩, hb⟩, hc⟩, hUsed⟩
        exact ⟨⟨ls, hs⟩, lr, hr, ln, hn, ⟨le, he⟩, ⟨lm, hm⟩, ⟨lu, hu⟩, ⟨lb, hb⟩, hc, hUsed⟩
      · rintro ⟨⟨ls, hs⟩, lr, hr, ln, hn, ⟨le, he⟩, ⟨lm, hm⟩, ⟨lu, hu⟩, ⟨lb, hb⟩, hc, hUsed⟩
        exact ⟨⟨⟨⟨⟨⟨⟨⟨⟨⟨⟨⟨⟨⟨⟨ls, lr⟩, ln⟩, le⟩, lm⟩, lu⟩, lb⟩, hs⟩, hr⟩, hn⟩, he⟩, hm⟩, hu⟩, hb⟩, hc⟩, hUsed⟩
  | receive binds body _ _ _ _ _ _ ihBinds ihBody =>
    cases p with
    | receive =>
      simp only [compareWithoutLocallyFree, ComparedAgree, Bool.and_eq_true, beq_iff_eq, ihBinds, ihBody, and_assoc]
  | receiveBind patterns source _ _ ihPatterns ihSource =>
    cases p with
    | receiveBind =>
      simp only [compareWithoutLocallyFree, ComparedAgree, Bool.and_eq_true, beq_iff_eq, decide_eq_true_eq, ihPatterns,
        ihSource, and_assoc]
  | new _ p _ _ _ ihP =>
    cases p with
    | new =>
      simp only [compareWithoutLocallyFree, ComparedAgree, Bool.and_eq_true, beq_iff_eq, ihP, and_assoc]
  | _ => rfl

end Term

end F1r3Node.Rholang
