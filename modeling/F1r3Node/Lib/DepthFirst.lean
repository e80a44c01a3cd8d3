import F1r3Node.Lib.Counting

/-! # Depth-first search and cycles

The search keeps a stack of nodes still to be looked at and the nodes it has looked at. Its first argument bounds the
rounds.
-/

namespace F1r3Node.Lib.DepthFirst

variable {N : Type*} [DecidableEq N]

def search (next : N → List N) (target : N) : Nat → List N → List N → Bool
  | 0, _, _ => false
  | _ + 1, _, [] => false
  | rounds + 1, visited, node :: stack =>
    if node = target then true
    else if node ∈ visited then search next target rounds visited stack
    else
      let found := (next node).filter fun n => decide (n ∉ node :: visited)
      search next target rounds (node :: visited) (found.reverse ++ stack)

variable {next : N → List N} {target : N}

def Reaches (next : N → List N) : N → N → Prop := Relation.ReflTransGen fun n m => m ∈ next n

variable {visited stack : List N}

theorem exists_reaches_of_search {rounds : Nat}
    (h : search next target rounds visited stack = true) : ∃ n ∈ stack, Reaches next n target := by
  induction rounds generalizing visited stack with
  | zero => cases h
  | succ rounds ih =>
    cases stack with
    | nil => cases h
    | cons node stack =>
      rw [search] at h
      split_ifs at h with hTarget hVisited
      · exact ⟨node, List.mem_cons_self, hTarget ▸ .refl⟩
      · obtain ⟨n, hn, hReach⟩ := ih h
        exact ⟨n, List.mem_cons_of_mem _ hn, hReach⟩
      · obtain ⟨n, hn, hReach⟩ := ih h
        rcases List.mem_append.mp hn with hFound | hRest
        · have hNext := (List.mem_filter.mp (List.mem_reverse.mp hFound)).1
          exact ⟨node, List.mem_cons_self, .head hNext hReach⟩
        · exact ⟨n, List.mem_cons_of_mem _ hRest, hReach⟩

/-- What was looked at is not the target, and what it leads to is looked at or on the stack. -/
def Explored (next : N → List N) (target : N) (visited stack : List N) : Prop :=
  ∀ n ∈ visited, n ≠ target ∧ ∀ m ∈ next n, m ∈ visited ∨ m ∈ stack

omit [DecidableEq N] in
theorem Explored.not_reaches (h : Explored next target visited []) {n : N} (hn : n ∈ visited) :
    ¬ Reaches next n target := by
  intro hReach
  have hClosed : ∀ m, Reaches next n m → m ∈ visited := by
    intro m hm
    induction hm with
    | refl => exact hn
    | tail _ hEdge ih => exact ((h _ ih).2 _ hEdge).resolve_right List.not_mem_nil
  exact (h target (hClosed target hReach)).1 rfl

omit [DecidableEq N] in
theorem Explored.skip {node : N} (h : Explored next target visited (node :: stack))
    (hVisited : node ∈ visited) : Explored next target visited stack := by
  intro n hn
  refine ⟨(h n hn).1, ?_⟩
  intro m hm
  rcases (h n hn).2 m hm with hSeen | hStack
  · exact .inl hSeen
  · rcases List.mem_cons.mp hStack with rfl | hStack
    · exact .inl hVisited
    · exact .inr hStack

theorem Explored.visit {node : N} (h : Explored next target visited (node :: stack)) (hNe : node ≠ target) :
    Explored next target (node :: visited)
      (((next node).filter fun n => decide (n ∉ node :: visited)).reverse ++ stack) := by
  intro n hn
  rcases List.mem_cons.mp hn with rfl | hn
  · refine ⟨hNe, ?_⟩
    intro m hm
    by_cases hSeen : m ∈ n :: visited
    · exact .inl hSeen
    · refine .inr (List.mem_append_left _ (List.mem_reverse.mpr ?_))
      exact List.mem_filter.mpr ⟨hm, decide_eq_true hSeen⟩
  · refine ⟨(h n hn).1, ?_⟩
    intro m hm
    rcases (h n hn).2 m hm with hSeen | hStack
    · exact .inl (List.mem_cons_of_mem _ hSeen)
    · rcases List.mem_cons.mp hStack with rfl | hStack
      · exact .inl List.mem_cons_self
      · exact .inr (List.mem_append_right _ hStack)

section bounded

variable {nodes : List N} {width : Nat} (hNodes : ∀ n, ∀ m ∈ next n, m ∈ nodes)
  (hWidth : ∀ n, (next n).length ≤ width)

include hNodes hWidth

theorem exists_explored_of_search {rounds : Nat} {visited stack : List N} (hStack : ∀ n ∈ stack, n ∈ nodes)
    (hRounds : nodes.countP (fun n => decide (n ∉ visited)) * width + stack.length < rounds)
    (hExplored : Explored next target visited stack) (h : search next target rounds visited stack = false) :
    ∃ seen, Explored next target seen [] ∧ ∀ n, n ∈ visited ∨ n ∈ stack → n ∈ seen := by
  induction rounds generalizing visited stack with
  | zero => omega
  | succ rounds ih =>
    cases stack with
    | nil => exact ⟨visited, hExplored, fun n hn => hn.resolve_right List.not_mem_nil⟩
    | cons node stack =>
      obtain ⟨hNode, hRest⟩ := List.forall_mem_cons.mp hStack
      rw [List.length_cons] at hRounds
      rw [search] at h
      split_ifs at h with hTarget hVisited
      · obtain ⟨seen, hSeen, hSub⟩ := ih hRest (by omega) (hExplored.skip hVisited) h
        refine ⟨seen, hSeen, ?_⟩
        rintro n (hn | hn)
        · exact hSub n (.inl hn)
        · rcases List.mem_cons.mp hn with rfl | hn
          · exact hSub n (.inl hVisited)
          · exact hSub n (.inr hn)
      · -- One more node is visited, which pays for the nodes put on the stack.
        have hFewer : nodes.countP (fun n => decide (n ∉ node :: visited)) <
            nodes.countP fun n => decide (n ∉ visited) := by
          refine countP_lt_countP ?_ hNode (decide_eq_true hVisited) (by simp)
          intro n _ hn
          exact decide_eq_true fun hMem => of_decide_eq_true hn (List.mem_cons_of_mem _ hMem)
        have hPaid := Nat.mul_le_mul_right width hFewer
        rw [Nat.succ_mul] at hPaid
        have hFound : ((next node).filter fun n => decide (n ∉ node :: visited)).length ≤ width :=
          Nat.le_trans (List.length_filter_le _ _) (hWidth node)
        obtain ⟨seen, hSeen, hSub⟩ := ih
          (by
            intro n hn
            rcases List.mem_append.mp hn with hn | hn
            · exact hNodes node n (List.mem_filter.mp (List.mem_reverse.mp hn)).1
            · exact hRest n hn)
          (by rw [List.length_append, List.length_reverse]; omega) (hExplored.visit hTarget) h
        refine ⟨seen, hSeen, ?_⟩
        rintro n (hn | hn)
        · exact hSub n (.inl (List.mem_cons_of_mem _ hn))
        · rcases List.mem_cons.mp hn with rfl | hn
          · exact hSub n (.inl List.mem_cons_self)
          · exact hSub n (.inr (List.mem_append_right _ hn))

theorem search_eq_true_iff {rounds : Nat} {stack : List N} (hStack : ∀ n ∈ stack, n ∈ nodes)
    (hRounds : nodes.length * width + stack.length < rounds) :
    search next target rounds [] stack = true ↔ ∃ n ∈ stack, Reaches next n target := by
  constructor
  · exact exists_reaches_of_search
  · rintro ⟨n, hn, hReach⟩
    by_contra hFalse
    have hCount : nodes.countP (fun n => decide (n ∉ ([] : List N))) ≤ nodes.length := List.countP_le_length
    have hBound := Nat.mul_le_mul_right width hCount
    obtain ⟨seen, hSeen, hSub⟩ := exists_explored_of_search hNodes hWidth hStack (by omega)
      (fun n hn => absurd hn List.not_mem_nil) (Bool.eq_false_iff.mpr hFalse)
    exact hSeen.not_reaches (hSub n (.inr hn)) hReach

end bounded

section cycles

variable {M : Type*} {R R' : M → M → Prop}

def Acyclic (R : M → M → Prop) : Prop := ∀ n, ¬ Relation.TransGen R n n

theorem Acyclic.mono (h : Acyclic R) (hSub : ∀ n m, R' n m → R n m) : Acyclic R' :=
  fun n hCycle => h n (Relation.TransGen.mono hSub n n hCycle)

theorem Acyclic.add (h : Acyclic R) (starts ends : M → Prop)
    (hNew : ∀ n m, R' n m → R n m ∨ starts n ∧ ends m)
    (hBack : ∀ m n, ends m → starts n → ¬ Relation.ReflTransGen R m n) : Acyclic R' := by
  -- A path either is old, or goes by old edges to a start and from an end to its last node.
  have hPath : ∀ n m, Relation.TransGen R' n m → Relation.TransGen R n m ∨
      (∃ a, starts a ∧ Relation.ReflTransGen R n a) ∧ ∃ b, ends b ∧ Relation.ReflTransGen R b m := by
    intro n m hPath
    induction hPath with
    | single hEdge =>
      rcases hNew _ _ hEdge with hOld | ⟨hStart, hEnd⟩
      · exact .inl (.single hOld)
      · exact .inr ⟨⟨n, hStart, .refl⟩, _, hEnd, .refl⟩
    | tail _ hEdge ih =>
      rcases hNew _ _ hEdge with hOld | ⟨hStart, hEnd⟩
      · rcases ih with ih | ⟨hBegin, b, hb, hReach⟩
        · exact .inl (ih.tail hOld)
        · exact .inr ⟨hBegin, b, hb, hReach.tail hOld⟩
      · rcases ih with ih | ⟨_, b, hb, hReach⟩
        · exact .inr ⟨⟨_, hStart, ih.to_reflTransGen⟩, _, hEnd, .refl⟩
        · exact absurd hReach (hBack b _ hb hStart)
  intro n hCycle
  rcases hPath n n hCycle with hOld | ⟨⟨a, ha, hTo⟩, b, hb, hFrom⟩
  · exact h n hOld
  · exact hBack b a hb ha (hFrom.trans hTo)

end cycles

end F1r3Node.Lib.DepthFirst
