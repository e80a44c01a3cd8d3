import F1r3Node.Rholang.Term

/-! # Equality of terms

Two terms are equal when they agree in everything but the caches of locally free variables.
-/

namespace F1r3Node.Rholang

namespace Term

/-- `PartialEq` of the models crate. -/
def eqv : {k : Kind} → Term k → Term k → Bool
  | _, nil, other =>
    match other with | nil => true | _ => false
  | _, cons head tail, other =>
    match other with | cons head' tail' => eqv head head' && eqv tail tail' | _ => false
  | _, absent, other =>
    match other with | absent => true | _ => false
  | _, present value, other =>
    match other with | present value' => eqv value value' | _ => false
  | _, par sends receives news exprs matchProcs unforgeables bundles connectives conditionals _ connectiveUsed,
    other =>
    match other with
    | par sends' receives' news' exprs' matchProcs' unforgeables' bundles' connectives' conditionals' _
      connectiveUsed' =>
      eqv sends sends' && eqv receives receives' && eqv news news' && eqv exprs exprs' && eqv matchProcs matchProcs'
        && decide (unforgeables = unforgeables') && eqv bundles bundles' && eqv connectives connectives'
        && eqv conditionals conditionals' && connectiveUsed == connectiveUsed'
  | _, send chan data persistent _ connectiveUsed, other =>
    match other with
    | send chan' data' persistent' _ connectiveUsed' =>
      eqv chan chan' && eqv data data' && persistent == persistent' && connectiveUsed == connectiveUsed'
  | _, receiveBind patterns source remainder freeCount, other =>
    match other with
    | receiveBind patterns' source' remainder' freeCount' =>
      eqv patterns patterns' && eqv source source' && decide (remainder = remainder') && freeCount == freeCount'
  | _, receive binds body persistent peek bindCount condition _ connectiveUsed, other =>
    match other with
    | receive binds' body' persistent' peek' bindCount' condition' _ connectiveUsed' =>
      eqv binds binds' && eqv body body' && persistent == persistent' && peek == peek' && bindCount == bindCount'
        && eqv condition condition' && connectiveUsed == connectiveUsed'
  | _, injection name value, other =>
    match other with | injection name' value' => name == name' && eqv value value'
  | _, new bindCount p uri injections _, other =>
    match other with
    | new bindCount' p' uri' injections' _ =>
      bindCount == bindCount' && eqv p p' && uri == uri' && eqv injections injections'
  | _, matchCase pattern source freeCount guard, other =>
    match other with
    | matchCase pattern' source' freeCount' guard' =>
      eqv pattern pattern' && eqv source source' && freeCount == freeCount' && eqv guard guard'
  | _, matchProc target cases _ connectiveUsed, other =>
    match other with
    | matchProc target' cases' _ connectiveUsed' =>
      eqv target target' && eqv cases cases' && connectiveUsed == connectiveUsed'
  | _, conditional condition ifTrue ifFalse _ connectiveUsed, other =>
    match other with
    | conditional condition' ifTrue' ifFalse' _ connectiveUsed' =>
      eqv condition condition' && eqv ifTrue ifTrue' && eqv ifFalse ifFalse' && connectiveUsed == connectiveUsed'
  | _, bundle body writeFlag readFlag, other =>
    match other with
    | bundle body' writeFlag' readFlag' =>
      eqv body body' && writeFlag == writeFlag' && readFlag == readFlag'
  | _, ground value, other =>
    match other with | ground value' => decide (value = value') | _ => false
  | _, eVar v, other =>
    match other with | eVar v' => decide (v = v') | _ => false
  | _, unary op p, other =>
    match other with | unary op' p' => decide (op = op') && eqv p p' | _ => false
  | _, binary op p1 p2, other =>
    match other with | binary op' p1' p2' => decide (op = op') && eqv p1 p1' && eqv p2 p2' | _ => false
  | _, eList ps _ connectiveUsed remainder, other =>
    match other with
    | eList ps' _ connectiveUsed' remainder' =>
      eqv ps ps' && connectiveUsed == connectiveUsed' && decide (remainder = remainder')
    | _ => false
  | _, eTuple ps _ connectiveUsed, other =>
    match other with | eTuple ps' _ connectiveUsed' => eqv ps ps' && connectiveUsed == connectiveUsed' | _ => false
  | _, eSet ps _ connectiveUsed remainder, other =>
    match other with
    | eSet ps' _ connectiveUsed' remainder' =>
      eqv ps ps' && connectiveUsed == connectiveUsed' && decide (remainder = remainder')
    | _ => false
  | _, eMap kvs _ connectiveUsed remainder, other =>
    match other with
    | eMap kvs' _ connectiveUsed' remainder' =>
      eqv kvs kvs' && connectiveUsed == connectiveUsed' && decide (remainder = remainder')
    | _ => false
  | _, keyValuePair key value, other =>
    match other with | keyValuePair key' value' => eqv key key' && eqv value value'
  | _, pathMap ps _ connectiveUsed remainder, other =>
    match other with
    | pathMap ps' _ connectiveUsed' remainder' =>
      eqv ps ps' && connectiveUsed == connectiveUsed' && decide (remainder = remainder')
  | _, ePathMap pathmap, other =>
    match other with | ePathMap pathmap' => eqv pathmap pathmap' | _ => false
  | _, eZipper pathmap currentPath isWriteZipper _ connectiveUsed, other =>
    match other with
    | eZipper pathmap' currentPath' isWriteZipper' _ connectiveUsed' =>
      eqv pathmap pathmap' && currentPath == currentPath' && isWriteZipper == isWriteZipper'
        && connectiveUsed == connectiveUsed'
    | _ => false
  | _, eMethod methodName target arguments _ connectiveUsed, other =>
    match other with
    | eMethod methodName' target' arguments' _ connectiveUsed' =>
      methodName == methodName' && eqv target target' && eqv arguments arguments' && connectiveUsed == connectiveUsed'
    | _ => false
  | _, eMatches target pattern, other =>
    match other with | eMatches target' pattern' => eqv target target' && eqv pattern pattern' | _ => false
  | _, connAnd ps, other =>
    match other with | connAnd ps' => eqv ps ps' | _ => false
  | _, connOr ps, other =>
    match other with | connOr ps' => eqv ps ps' | _ => false
  | _, connNot p, other =>
    match other with | connNot p' => eqv p p' | _ => false
  | _, varRef index depth, other =>
    match other with | varRef index' depth' => index == index' && depth == depth' | _ => false
  | _, connType type flag, other =>
    match other with | connType type' flag' => decide (type = type') && flag == flag' | _ => false

def erase : {k : Kind} → Term k → Term k
  | _, nil => nil
  | _, cons head tail => cons head.erase tail.erase
  | _, absent => absent
  | _, present value => present value.erase
  | _, par sends receives news exprs matchProcs unforgeables bundles connectives conditionals _ connectiveUsed =>
    par sends.erase receives.erase news.erase exprs.erase matchProcs.erase unforgeables bundles.erase connectives.erase
      conditionals.erase [] connectiveUsed
  | _, send chan data persistent _ connectiveUsed => send chan.erase data.erase persistent [] connectiveUsed
  | _, receiveBind patterns source remainder freeCount => receiveBind patterns.erase source.erase remainder freeCount
  | _, receive binds body persistent peek bindCount condition _ connectiveUsed =>
    receive binds.erase body.erase persistent peek bindCount condition.erase [] connectiveUsed
  | _, injection name value => injection name value.erase
  | _, new bindCount p uri injections _ => new bindCount p.erase uri injections.erase []
  | _, matchCase pattern source freeCount guard => matchCase pattern.erase source.erase freeCount guard.erase
  | _, matchProc target cases _ connectiveUsed => matchProc target.erase cases.erase [] connectiveUsed
  | _, conditional condition ifTrue ifFalse _ connectiveUsed =>
    conditional condition.erase ifTrue.erase ifFalse.erase [] connectiveUsed
  | _, bundle body writeFlag readFlag => bundle body.erase writeFlag readFlag
  | _, ground value => ground value
  | _, eVar v => eVar v
  | _, unary op p => unary op p.erase
  | _, binary op p1 p2 => binary op p1.erase p2.erase
  | _, eList ps _ connectiveUsed remainder => eList ps.erase [] connectiveUsed remainder
  | _, eTuple ps _ connectiveUsed => eTuple ps.erase [] connectiveUsed
  | _, eSet ps _ connectiveUsed remainder => eSet ps.erase [] connectiveUsed remainder
  | _, eMap kvs _ connectiveUsed remainder => eMap kvs.erase [] connectiveUsed remainder
  | _, keyValuePair key value => keyValuePair key.erase value.erase
  | _, pathMap ps _ connectiveUsed remainder => pathMap ps.erase [] connectiveUsed remainder
  | _, ePathMap pathmap => ePathMap pathmap.erase
  | _, eZipper pathmap currentPath isWriteZipper _ connectiveUsed =>
    eZipper pathmap.erase currentPath isWriteZipper [] connectiveUsed
  | _, eMethod methodName target arguments _ connectiveUsed =>
    eMethod methodName target.erase arguments.erase [] connectiveUsed
  | _, eMatches target pattern => eMatches target.erase pattern.erase
  | _, connAnd ps => connAnd ps.erase
  | _, connOr ps => connOr ps.erase
  | _, connNot p => connNot p.erase
  | _, varRef index depth => varRef index depth
  | _, connType type flag => connType type flag

theorem eqv_iff {k : Kind} (t p : Term k) : eqv t p = true ↔ erase t = erase p := by
  induction t <;> cases p
  all_goals first
    | exact iff_of_false Bool.false_ne_true nofun
    | simp_all only [eqv, erase, Bool.and_eq_true, decide_eq_true_eq, beq_iff_eq, and_assoc, true_and, and_true,
      cons.injEq, present.injEq, par.injEq, send.injEq, receiveBind.injEq, receive.injEq, injection.injEq, new.injEq,
      matchCase.injEq, matchProc.injEq, conditional.injEq, bundle.injEq, ground.injEq, eVar.injEq,
      unary.injEq, binary.injEq, eList.injEq, eTuple.injEq, eSet.injEq, eMap.injEq, keyValuePair.injEq, pathMap.injEq,
      ePathMap.injEq, eZipper.injEq, eMethod.injEq, eMatches.injEq, connAnd.injEq, connOr.injEq, connNot.injEq,
      varRef.injEq, connType.injEq]

theorem eqv_par_iff {s s' r r' n n' e e' m m' u u' b b' c c' i i' l l' f f'} :
    eqv (par s r n e m u b c i l f) (par s' r' n' e' m' u' b' c' i' l' f') = true ↔
      eqv s s' = true ∧ eqv r r' = true ∧ eqv n n' = true ∧ eqv e e' = true ∧ eqv m m' = true ∧ u = u' ∧
        eqv b b' = true ∧ eqv c c' = true ∧ eqv i i' = true ∧ f = f' := by
  simp only [eqv, Bool.and_eq_true, decide_eq_true_eq, beq_iff_eq, and_assoc]

theorem eqv_nil_iff {k : Kind} {ts : Term (.list k)} : eqv nil ts = true ↔ ts = nil := by
  cases ts <;> simp [eqv]

@[simp] theorem eqv_self {k : Kind} (t : Term k) : eqv t t = true := (eqv_iff t t).mpr rfl

end Term

end F1r3Node.Rholang
