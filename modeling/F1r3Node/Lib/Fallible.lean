import Mathlib.Data.List.Induction

/-! # Computations that may fail

What is known of a result that was returned, for sequences and for folds that stop at the first
error.
-/

namespace F1r3Node.Lib

theorem exists_of_bind_ok {ε α β : Type} {x : Except ε α} {f : α → Except ε β} {b : β}
    (h : x >>= f = .ok b) : ∃ a, x = .ok a ∧ f a = .ok b := by
  cases x with
  | error e => cases h
  | ok a => exact ⟨a, rfl, h⟩

theorem exists_of_map_ok {ε α β : Type} {x : Except ε α} {f : α → β} {b : β} (h : x.map f = .ok b) :
    ∃ a, x = .ok a ∧ f a = b := by
  cases x with
  | error e => cases h
  | ok a => exact ⟨a, rfl, Except.ok.inj h⟩

def Returns {ε α : Type} (x : Except ε α) (post : α → Prop) : Prop := ∃ a, x = .ok a ∧ post a

namespace Returns

variable {ε α β σ : Type} {post post' : α → Prop}

theorem pure {a : α} (h : post a) : Returns (Pure.pure a : Except ε α) post := ⟨a, rfl, h⟩

theorem bind {x : Except ε α} {f : α → Except ε β} {last : β → Prop} (hx : Returns x post)
    (hf : ∀ a, post a → Returns (f a) last) : Returns (x >>= f) last := by
  obtain ⟨a, rfl, ha⟩ := hx
  exact hf a ha

theorem imp {x : Except ε α} (hx : Returns x post) (h : ∀ a, post a → post' a) : Returns x post' := by
  obtain ⟨a, hOk, ha⟩ := hx
  exact ⟨a, hOk, h a ha⟩

theorem mapM {f : σ → Except ε α} {items : List σ} (h : ∀ item ∈ items, Returns (f item) post) :
    Returns (items.mapM f) fun results => ∀ a ∈ results, post a := by
  induction items with
  | nil => exact pure (by simp)
  | cons item items ih =>
    obtain ⟨hHead, hTail⟩ := List.forall_mem_cons.mp h
    rw [List.mapM_cons]
    refine hHead.bind fun a ha => (ih hTail).bind fun results hResults => pure ?_
    exact List.forall_mem_cons.mpr ⟨ha, hResults⟩

theorem foldlM {step : σ → β → Except ε σ} {items : List β} {inv : σ → Prop} {s : σ} (hStart : inv s)
    (hStep : ∀ item ∈ items, ∀ s, inv s → Returns (step s item) inv) : Returns (items.foldlM step s) inv := by
  induction items generalizing s with
  | nil => exact pure hStart
  | cons item items ih =>
    obtain ⟨hHead, hTail⟩ := List.forall_mem_cons.mp hStep
    rw [List.foldlM_cons]
    exact (hHead s hStart).bind fun s' hs' => ih hs' hTail

end Returns

section fold

variable {ε α σ : Type} {step : σ → α → Except ε σ}

theorem foldlM_ok_induction {items : List α} {s s' : σ} (motive : List α → σ → Prop)
    (h : items.foldlM step s = .ok s') (nil : motive [] s)
    (snoc : ∀ taken item t t', item ∈ items → motive taken t → step t item = .ok t' → motive (taken ++ [item]) t') :
    motive items s' := by
  induction items using List.reverseRecOn generalizing s' with
  | nil =>
    obtain rfl := Except.ok.inj h
    exact nil
  | append_singleton taken item ih =>
    rw [List.foldlM_append] at h
    obtain ⟨t, hTaken, hItem⟩ := exists_of_bind_ok h
    obtain ⟨t', hStep, hLast⟩ := exists_of_bind_ok hItem
    obtain rfl := Except.ok.inj hLast
    refine snoc taken item t t' (List.mem_append_right taken List.mem_cons_self) ?_ hStep
    exact ih hTaken fun taken' item' u u' hMem => snoc taken' item' u u' (List.mem_append_left [item] hMem)

end fold

section errors

variable {ε α β σ : Type} {e : ε}

variable {f : α → Except ε β}

theorem error_of_bind {x : Except ε α} (h : (x >>= f) = .error e) :
    x = .error e ∨ ∃ a, x = .ok a ∧ f a = .error e := by
  cases x with
  | error e' => exact .inl (congrArg Except.error (Except.error.inj h))
  | ok a => exact .inr ⟨a, rfl, h⟩

variable {items : List α}

theorem exists_of_mapM_error (h : items.mapM f = .error e) :
    ∃ a ∈ items, f a = .error e := by
  induction items with
  | nil => cases h
  | cons a items ih =>
    rw [List.mapM_cons] at h
    obtain hHead | ⟨b, -, hNext⟩ := error_of_bind h
    · exact ⟨a, List.mem_cons_self, hHead⟩
    · obtain hTail | ⟨tail, -, hLast⟩ := error_of_bind hNext
      · obtain ⟨a', ha', hError⟩ := ih hTail
        exact ⟨a', List.mem_cons_of_mem a ha', hError⟩
      · cases hLast

theorem exists_mapM_ok (h : ∀ a ∈ items, ∃ b, f a = .ok b) :
    ∃ results, items.mapM f = .ok results := by
  cases hMap : items.mapM f with
  | ok results => exact ⟨results, rfl⟩
  | error e =>
    obtain ⟨a, ha, hError⟩ := exists_of_mapM_error hMap
    obtain ⟨b, hOk⟩ := h a ha
    cases hError.symm.trans hOk

theorem exists_of_foldlM_error {step : σ → α → Except ε σ} {s : σ}
    (h : items.foldlM step s = .error e) :
    ∃ taken item t, taken ++ [item] <+: items ∧ taken.foldlM step s = .ok t ∧ step t item = .error e := by
  induction items generalizing s with
  | nil => cases h
  | cons a items ih =>
    rw [List.foldlM_cons] at h
    obtain hHead | ⟨t, hStep, hNext⟩ := error_of_bind h
    · exact ⟨[], a, s, ⟨items, rfl⟩, rfl, hHead⟩
    · obtain ⟨taken, item, t', hPrefix, hTaken, hError⟩ := ih hNext
      refine ⟨a :: taken, item, t', List.cons_prefix_cons.mpr ⟨rfl, hPrefix⟩, ?_, hError⟩
      rw [List.foldlM_cons, hStep]
      exact hTaken

end errors

theorem eq_ok_of_mapError {ε ε' α : Type} {x : Except ε α} {f : ε → ε'} {a : α} (h : x.mapError f = .ok a) :
    x = .ok a := by
  cases x with
  | error e => cases h
  | ok b => rw [Except.ok.inj h]

theorem mem_of_mapM_ok {ε α β : Type} {f : α → Except ε β} {items : List α} {results : List β}
    (h : items.mapM f = .ok results) (b : β) : b ∈ results ↔ ∃ a ∈ items, f a = .ok b := by
  induction items generalizing results with
  | nil =>
    obtain rfl := Except.ok.inj h
    simp
  | cons a items ih =>
    rw [List.mapM_cons] at h
    obtain ⟨head, hHead, hNext⟩ := exists_of_bind_ok h
    obtain ⟨tail, hTail, hLast⟩ := exists_of_bind_ok hNext
    obtain rfl := Except.ok.inj hLast
    simp only [List.mem_cons, ih hTail, exists_eq_or_imp, hHead, Except.ok.injEq, @eq_comm _ b]

theorem map_of_mapM_ok {ε α β : Type} {f : α → Except ε β} {g : α → β} {items : List α} {results : List β}
    (h : items.mapM f = .ok results) (hg : ∀ a ∈ items, ∀ b, f a = .ok b → g a = b) : results = items.map g := by
  induction items generalizing results with
  | nil => exact (Except.ok.inj h).symm
  | cons a items ih =>
    obtain ⟨hgHead, hgTail⟩ := List.forall_mem_cons.mp hg
    rw [List.mapM_cons] at h
    obtain ⟨head, hHead, hNext⟩ := exists_of_bind_ok h
    obtain ⟨tail, hTail, hLast⟩ := exists_of_bind_ok hNext
    rw [← Except.ok.inj hLast, List.map_cons, hgHead head hHead, ih hTail hgTail]

theorem mapM_eq_map {ε α β : Type} {f : α → Except ε β} {g : α → β} {items : List α} (h : ∀ a ∈ items, f a = .ok (g a)) :
    items.mapM f = .ok (items.map g) := by
  induction items with
  | nil => rfl
  | cons a items ih =>
    obtain ⟨hHead, hTail⟩ := List.forall_mem_cons.mp h
    rw [List.mapM_cons, hHead, ih hTail]
    rfl

theorem length_of_mapM_ok {ε α β : Type} {f : α → Except ε β} {items : List α} {results : List β}
    (h : items.mapM f = .ok results) : results.length = items.length := by
  induction items generalizing results with
  | nil =>
    obtain rfl := Except.ok.inj h
    rfl
  | cons a items ih =>
    rw [List.mapM_cons] at h
    obtain ⟨head, -, hNext⟩ := exists_of_bind_ok h
    obtain ⟨tail, hTail, hLast⟩ := exists_of_bind_ok hNext
    obtain rfl := Except.ok.inj hLast
    rw [List.length_cons, List.length_cons, ih hTail]

theorem exists_of_mapM_ok {ε α β : Type} {f : α → Except ε β} {items : List α} {results : List β}
    (h : items.mapM f = .ok results) {a : α} (ha : a ∈ items) : ∃ b ∈ results, f a = .ok b := by
  induction items generalizing results with
  | nil => cases ha
  | cons head items ih =>
    rw [List.mapM_cons] at h
    obtain ⟨b, hHead, hNext⟩ := exists_of_bind_ok h
    obtain ⟨tail, hTail, hLast⟩ := exists_of_bind_ok hNext
    obtain rfl := Except.ok.inj hLast
    obtain rfl | ha := List.mem_cons.mp ha
    · exact ⟨b, List.mem_cons_self, hHead⟩
    · obtain ⟨b', hb', hOk⟩ := ih hTail ha
      exact ⟨b', List.mem_cons_of_mem b hb', hOk⟩

section tests

variable {ε α : Type} (p : α → Except ε Bool)

def partitionFallible : List α → Except ε (List α × List α)
  | [] => .ok ([], [])
  | a :: items => do
    let passes ← p a
    let (yes, no) ← partitionFallible items
    return if passes then (a :: yes, no) else (yes, a :: no)

theorem partitionFallible_pure (q : α → Bool) (items : List α) :
    partitionFallible (fun a => (.ok (q a) : Except ε Bool)) items = .ok (items.filter q, items.filter (!q ·)) := by
  induction items with
  | nil => rfl
  | cons a items ih =>
    rw [partitionFallible, ih]
    cases hq : q a with
    | true => simp [bind, Except.bind, pure, Except.pure, hq]
    | false => simp [bind, Except.bind, pure, Except.pure, hq]

variable {p}

variable {items : List α}

theorem mem_of_partitionFallible {yes no : List α} (h : partitionFallible p items = .ok (yes, no)) (a : α) :
    (a ∈ yes ↔ a ∈ items ∧ p a = .ok true) ∧ (a ∈ no ↔ a ∈ items ∧ p a = .ok false) := by
  induction items generalizing yes no with
  | nil =>
    obtain ⟨rfl, rfl⟩ := Prod.mk.inj (Except.ok.inj h)
    simp
  | cons b items ih =>
    obtain ⟨passes, hTest, hNext⟩ := exists_of_bind_ok h
    obtain ⟨⟨yes', no'⟩, hRest, hLast⟩ := exists_of_bind_ok hNext
    obtain ⟨hYes, hNo⟩ := ih hRest
    have hOther : ∀ {c : Bool}, c ≠ passes → ¬ (a = b ∧ p a = .ok c) := by
      rintro c hNe ⟨rfl, hc⟩
      exact hNe (Except.ok.inj (hc.symm.trans hTest))
    have hSame : a = b → p a = .ok passes := fun hEq => hEq ▸ hTest
    cases passes with
    | true =>
      obtain ⟨rfl, rfl⟩ := Prod.mk.inj (Except.ok.inj hLast)
      have hNot := @hOther false (by decide)
      rw [List.mem_cons, List.mem_cons, hYes, hNo, or_and_right, or_and_right, and_iff_left_of_imp hSame]
      exact ⟨Iff.rfl, (or_iff_right hNot).symm⟩
    | false =>
      obtain ⟨rfl, rfl⟩ := Prod.mk.inj (Except.ok.inj hLast)
      have hNot := @hOther true (by decide)
      rw [List.mem_cons, List.mem_cons, hYes, hNo, or_and_right, or_and_right, and_iff_left_of_imp hSame]
      exact ⟨(or_iff_right hNot).symm, Iff.rfl⟩

theorem mem_or_mem_of_partitionFallible {yes no : List α} (h : partitionFallible p items = .ok (yes, no)) {a : α}
    (ha : a ∈ items) : a ∈ yes ∨ a ∈ no := by
  rw [(mem_of_partitionFallible h a).1, (mem_of_partitionFallible h a).2]
  induction items generalizing yes no with
  | nil => cases ha
  | cons b items ih =>
    obtain ⟨passes, hTest, hNext⟩ := exists_of_bind_ok h
    obtain ⟨⟨yes', no'⟩, hRest, -⟩ := exists_of_bind_ok hNext
    obtain rfl | hMem := List.mem_cons.mp ha
    · cases passes with
      | true => exact .inl ⟨ha, hTest⟩
      | false => exact .inr ⟨ha, hTest⟩
    · exact (ih hRest hMem).imp (fun h => ⟨ha, h.2⟩) fun h => ⟨ha, h.2⟩

variable (p) in
def filterFallible : List α → Except ε (List α)
  | [] => .ok []
  | a :: items => do
    let passes ← p a
    let rest ← filterFallible items
    .ok (if passes then a :: rest else rest)

theorem filterFallible_eq {q : α → Prop} [DecidablePred q]
    (h : ∀ a ∈ items, Returns (p a) fun passes => passes = true ↔ q a) :
    filterFallible p items = .ok (items.filter q) := by
  induction items with
  | nil => rfl
  | cons a items ih =>
    obtain ⟨hHead, hTail⟩ := List.forall_mem_cons.mp h
    obtain ⟨passes, hTest, hPasses⟩ := hHead
    rw [filterFallible, hTest, ih hTail, List.filter_cons]
    cases passes with
    | true =>
      rw [decide_eq_true (hPasses.mp rfl)]
      rfl
    | false =>
      rw [decide_eq_false fun hq => Bool.false_ne_true (hPasses.mpr hq)]
      rfl

theorem anyM_eq_false (h : items.anyM p = .ok false) {a : α} (ha : a ∈ items) : p a = .ok false := by
  induction items with
  | nil => cases ha
  | cons b items ih =>
    obtain ⟨found, hTest, hNext⟩ := exists_of_bind_ok h
    cases found with
    | true => cases hNext
    | false =>
      obtain rfl | ha := List.mem_cons.mp ha
      · exact hTest
      · exact ih hNext ha

theorem exists_of_anyM_eq_true (h : items.anyM p = .ok true) : ∃ a ∈ items, p a = .ok true := by
  induction items with
  | nil => cases h
  | cons b items ih =>
    obtain ⟨found, hTest, hNext⟩ := exists_of_bind_ok h
    cases found with
    | true => exact ⟨b, List.mem_cons_self, hTest⟩
    | false =>
      obtain ⟨a, ha, hTrue⟩ := ih hNext
      exact ⟨a, List.mem_cons_of_mem b ha, hTrue⟩

theorem allM_eq_true : items.allM p = .ok true ↔ ∀ a ∈ items, p a = .ok true := by
  induction items with
  | nil => exact iff_of_true rfl (by simp)
  | cons a items ih =>
    rw [List.forall_mem_cons, ← ih]
    change (p a >>= fun passes => match passes with | true => items.allM p | false => .ok false) = _ ↔ _
    cases p a with
    | error e => exact iff_of_false (by rintro ⟨⟩) (by rintro ⟨⟨⟩, -⟩)
    | ok passes =>
      cases passes with
      | false => exact iff_of_false (by rintro ⟨⟩) (by rintro ⟨⟨⟩, -⟩)
      | true => exact (and_iff_right rfl).symm

end tests

theorem mapM_congr {ε α β : Type} {f g : α → Except ε β} {items : List α} (h : ∀ a ∈ items, f a = g a) :
    items.mapM f = items.mapM g := by
  induction items with
  | nil => rfl
  | cons a items ih =>
    obtain ⟨hHead, hTail⟩ := List.forall_mem_cons.mp h
    rw [List.mapM_cons, List.mapM_cons, hHead, ih hTail]

theorem forM_eq_ok {ε α : Type} {f : α → Except ε Unit} {items : List α} :
    forM items f = .ok () ↔ ∀ a ∈ items, f a = .ok () := by
  induction items with
  | nil => exact iff_of_true rfl (by simp)
  | cons a items ih =>
    rw [List.forM_cons, List.forall_mem_cons, ← ih]
    cases f a with
    | error e => exact iff_of_false (by rintro ⟨⟩) (by rintro ⟨⟨⟩, -⟩)
    | ok u => exact (and_iff_right rfl).symm

/-- A computation that can fail in one way only and otherwise returns a value with a property. -/
def ReturnsUnless {ε α : Type} (failure : ε) (x : Except ε α) (post : α → Prop) : Prop :=
  x = .error failure ∨ Returns x post

namespace ReturnsUnless

variable {ε α β σ : Type} {failure : ε} {post post' : α → Prop}

theorem bind {x : Except ε α} {f : α → Except ε β} {last : β → Prop} (hx : ReturnsUnless failure x post)
    (hf : ∀ a, post a → ReturnsUnless failure (f a) last) : ReturnsUnless failure (x >>= f) last := by
  rcases hx with rfl | ⟨a, rfl, ha⟩
  · exact .inl rfl
  · exact hf a ha

theorem imp {x : Except ε α} (hx : ReturnsUnless failure x post) (h : ∀ a, post a → post' a) :
    ReturnsUnless failure x post' :=
  Or.imp_right (Returns.imp · h) hx

end ReturnsUnless

end F1r3Node.Lib
