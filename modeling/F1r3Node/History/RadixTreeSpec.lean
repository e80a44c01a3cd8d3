import F1r3Node.History.Canonical

/-! # The tree operations rewrite canonical trees

`S` is a set of well-formed nodes on which the digest has no collision, and store and caches hold nodes of `S` under
their digests only.
-/

namespace F1r3Node.History

open Shared

def TreeEnv.ptr (env : TreeEnv) (node : Node) : Bytes := env.blake.hash (Node.bytes node)

structure CollisionFree (env : TreeEnv) (S : Set Node) : Prop where
  wellFormed : ∀ x ∈ S, Node.WellFormed x
  injOn : Set.InjOn env.ptr S

/-- Store and caches hold the nodes of `S` under their own digests. -/
structure Faithful (env : TreeEnv) (S : Set Node) (t : RadixTreeImpl) : Prop where
  store : ∀ x ∈ S, ∀ b, t.store (env.ptr x) = some b → b = Node.bytes x
  cacheR : ∀ h x, t.cacheR.lookup h = some x → x ∈ S ∧ h = env.ptr x
  cacheW : ∀ h b, t.cacheW.lookup h = some b → ∃ x ∈ S, h = env.ptr x ∧ b = Node.bytes x

structure Evolves (env : TreeEnv) (S : Set Node) (t t' : RadixTreeImpl) : Prop where
  faithful : Faithful env S t'
  store_eq : t'.store = t.store
  cacheW_mono : ∀ h b, t.cacheW.lookup h = some b → t'.cacheW.lookup h = some b

def Stored (env : TreeEnv) (store : Bytes → Option Bytes) (X : Set Node) : Prop :=
  ∀ x ∈ X, store (env.ptr x) = some (Node.bytes x)

def Available (env : TreeEnv) (t : RadixTreeImpl) (X : Set Node) : Prop :=
  ∀ x ∈ X, t.store (env.ptr x) = some (Node.bytes x) ∨ t.cacheW.lookup (env.ptr x) = some (Node.bytes x)

/-- The operation succeeds, replaces `old` by `new` (`none` stands for no change) and
leaves the nodes of `X` available. -/
def Rewrites {α : Type} (env : TreeEnv) (S : Set Node) (t : RadixTreeImpl) (x : TreeM (Option α))
    (old new : α) (X : Set Node) : Prop :=
  ∃ r t', x.run t = .ok r t' ∧ r.getD old = new ∧ Evolves env S t t' ∧ Available env t' X

section

variable {env : TreeEnv} {S : Set Node} {t t' t'' : RadixTreeImpl}

theorem Evolves.refl (h : Faithful env S t) : Evolves env S t t := ⟨h, rfl, fun _ _ h => h⟩

theorem Evolves.trans (h : Evolves env S t t') (h' : Evolves env S t' t'') : Evolves env S t t'' :=
  ⟨h'.faithful, h'.store_eq.trans h.store_eq, fun x b hx => h'.cacheW_mono x b (h.cacheW_mono x b hx)⟩

variable {X : Set Node}

theorem Stored.available (h : Stored env t.store X) : Available env t X :=
  fun x hx => .inl (h x hx)

theorem Stored.mono {store : Bytes → Option Bytes} {Y : Set Node} (h : Stored env store Y) (hSub : X ⊆ Y) :
    Stored env store X := fun x hx => h x (hSub hx)

theorem Available.evolves (hX : Available env t X) (h : Evolves env S t t') :
    Available env t' X := by
  intro x hx
  rcases hX x hx with hStore | hCache
  · exact .inl (h.store_eq ▸ hStore)
  · exact .inr (h.cacheW_mono _ _ hCache)

theorem run_bind_ok {α β : Type} {x : TreeM α} {f : α → TreeM β} {a : α} (h : x.run t = .ok a t') :
    (x >>= f).run t = (f a).run t' := by
  rw [EStateM.run_bind, h]

variable {x : Node}

theorem lookup_foldl_erase (keys : List Bytes) (c : AList fun _ : Bytes => Node) {h : Bytes}
    (hx : (keys.foldl (fun c k => c.erase k) c).lookup h = some x) : c.lookup h = some x := by
  induction keys generalizing c with
  | nil => exact hx
  | cons k keys ih =>
    have hErase := ih (c.erase k) hx
    by_cases hk : h = k
    · rw [hk, AList.lookup_erase] at hErase
      cases hErase
    · rwa [AList.lookup_erase_ne hk] at hErase

theorem enforceReadCacheBounds_store (env : TreeEnv) (t : RadixTreeImpl) :
    (t.enforceReadCacheBounds env).store = t.store ∧ (t.enforceReadCacheBounds env).cacheW = t.cacheW := by
  rw [RadixTreeImpl.enforceReadCacheBounds]
  split
  · exact ⟨rfl, rfl⟩
  · exact ⟨rfl, rfl⟩

theorem lookup_enforceReadCacheBounds {h : Bytes}
    (hx : (t.enforceReadCacheBounds env).cacheR.lookup h = some x) : t.cacheR.lookup h = some x := by
  rw [RadixTreeImpl.enforceReadCacheBounds] at hx
  split at hx
  · exact hx
  · dsimp only at hx
    generalize List.take _ _ = keys at hx
    exact lookup_foldl_erase keys t.cacheR hx

theorem evolves_cacheNode (hGood : Faithful env S t) (hx : x ∈ S) :
    Evolves env S t (t.cacheNode env (env.ptr x) x) := by
  obtain ⟨hStore, hCacheW⟩ := enforceReadCacheBounds_store env
    { t with cacheR := t.cacheR.insert (env.ptr x) x }
  refine ⟨⟨?_, ?_, ?_⟩, hStore, ?_⟩
  · intro y hy b hb
    rw [RadixTreeImpl.cacheNode, hStore] at hb
    exact hGood.store y hy b hb
  · intro h y hy
    have hLookup := lookup_enforceReadCacheBounds hy
    by_cases hh : h = env.ptr x
    · rw [hh, AList.lookup_insert] at hLookup
      cases hLookup
      exact ⟨hx, hh⟩
    · rw [AList.lookup_insert_ne hh] at hLookup
      exact hGood.cacheR h y hLookup
  · intro h b hb
    rw [RadixTreeImpl.cacheNode, hCacheW] at hb
    exact hGood.cacheW h b hb
  · intro h b hb
    rw [RadixTreeImpl.cacheNode, hCacheW]
    exact hb

variable (hS : CollisionFree env S)

include hS

theorem loadNode_spec (hGood : Faithful env S t) (hx : x ∈ S)
    (hStored : t.store (env.ptr x) = some (Node.bytes x)) (noAssert : Bool) :
    ∃ t', (loadNode env (env.ptr x) noAssert).run t = .ok x t' ∧ Evolves env S t t' := by
  cases hCache : t.cacheR.lookup (env.ptr x) with
  | some y =>
    obtain ⟨hy, hPtr⟩ := hGood.cacheR _ y hCache
    have hEq : x = y := hS.injOn hx hy hPtr
    subst hEq
    refine ⟨t, ?_, .refl hGood⟩
    rw [loadNode, run_bind_ok (EStateM.run_get t), hCache]
    rfl
  | none =>
    refine ⟨t.cacheNode env (env.ptr x) x, ?_, evolves_cacheNode hGood hx⟩
    rw [loadNode, run_bind_ok (EStateM.run_get t), hCache]
    simp only [hStored, tryDecode_bytes (hS.wellFormed x hx)]
    rfl

theorem saveNode_spec (hGood : Faithful env S t) (hx : x ∈ S) :
    ∃ t', (saveNode env x).run t = .ok (env.ptr x) t' ∧ Evolves env S t t' ∧ Available env t' {x} := by
  have hHash : hashNode env x = .ok (env.ptr x, Node.bytes x) := by
    rw [hashNode, encode_of_wellFormed (hS.wellFormed x hx)]
    rfl
  obtain ⟨t₁, hRun, hEvolves⟩ : ∃ t₁, (saveNode env x).run t = .ok (env.ptr x)
      { t₁ with cacheW := t₁.cacheW.insert (env.ptr x) (Node.bytes x) } ∧ Evolves env S t t₁ := by
    rw [saveNode, hHash]
    simp only
    cases hCache : t.cacheR.lookup (env.ptr x) with
    | some y =>
      obtain ⟨hy, hPtr⟩ := hGood.cacheR _ y hCache
      have hEq : x = y := hS.injOn hx hy hPtr
      subst hEq
      refine ⟨t, ?_, .refl hGood⟩
      rw [run_bind_ok (EStateM.run_get t), hCache]
      simp only [ne_eq, not_true_eq_false, if_false]
      rfl
    | none =>
      refine ⟨t.cacheNode env (env.ptr x) x, ?_, evolves_cacheNode hGood hx⟩
      rw [run_bind_ok (EStateM.run_get t), hCache]
      rfl
  have hInsert : ∀ h b, t₁.cacheW.lookup h = some b →
      (t₁.cacheW.insert (env.ptr x) (Node.bytes x)).lookup h = some b := by
    intro h b hb
    by_cases hh : h = env.ptr x
    · obtain ⟨y, hy, hPtr, rfl⟩ := hEvolves.faithful.cacheW h b hb
      have hEq : y = x := hS.injOn hy hx (hPtr.symm.trans hh)
      rw [hh, AList.lookup_insert, hEq]
    · rwa [AList.lookup_insert_ne hh]
  refine ⟨_, hRun, hEvolves.trans ⟨⟨hEvolves.faithful.store, hEvolves.faithful.cacheR, ?_⟩, rfl, hInsert⟩, ?_⟩
  · intro h b hb
    by_cases hh : h = env.ptr x
    · rw [hh, AList.lookup_insert] at hb
      cases hb
      exact ⟨x, hx, hh, rfl⟩
    · rw [AList.lookup_insert_ne hh] at hb
      exact hEvolves.faithful.cacheW h b hb
  · rintro y rfl
    exact .inr (AList.lookup_insert _)

theorem saveNodeAndCreateItem_spec (hGood : Faithful env S t) (pre : Bytes) (hx : 2 ≤ x.occupied.length → x ∈ S) :
    ∃ t', (saveNodeAndCreateItem env x pre true).run t = .ok (compact env.ptr pre x) t' ∧ Evolves env S t t' ∧
      (2 ≤ x.occupied.length → Available env t' {x}) := by
  rw [saveNodeAndCreateItem, if_pos rfl, compact]
  rcases hOcc : x.occupied with _ | ⟨i, _ | ⟨j, l⟩⟩
  · exact ⟨t, rfl, .refl hGood, by simp⟩
  · exact ⟨t, rfl, .refl hGood, by simp⟩
  · obtain ⟨t', hRun, hEvolves, hAvailable⟩ := saveNode_spec hS hGood (hx (by simp [hOcc]))
    refine ⟨t', ?_, hEvolves, fun _ => hAvailable⟩
    rw [run_bind_ok hRun]
    rfl

theorem saveNodeAndCreateItem_spec_false (hGood : Faithful env S t) (pre : Bytes) (hx : x ∈ S) :
    ∃ t', (saveNodeAndCreateItem env x pre false).run t = .ok (.nodePtr pre (env.ptr x)) t' ∧
      Evolves env S t t' ∧ Available env t' {x} := by
  obtain ⟨t', hRun, hEvolves, hAvailable⟩ := saveNode_spec hS hGood hx
  refine ⟨t', ?_, hEvolves, hAvailable⟩
  rw [saveNodeAndCreateItem, if_neg (by simp), run_bind_ok hRun]
  rfl

end

end F1r3Node.History
