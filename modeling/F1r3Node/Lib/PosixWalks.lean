import F1r3Node.Lib.Posix

/-! # What a walk sees

The entries below a directory, the ways through them that meet no link, and file systems that have grown: the walks of
the smaller one go the same way in the larger one.
-/

namespace F1r3Node.Lib.Posix

variable {fs fs' fs'' : FileSystem} {dir root i j : Ino} {name : Name}

def lookup (fs : FileSystem) (dir : Ino) (name : Name) : Option Ino :=
  match fs.object dir with
  | some (.directory _ entries) => entries.lookup name
  | _ => none

theorem step_eq_ok (hName : name ≠ dotdot) : step fs dir name = .ok i ↔ lookup fs dir name = some i := by
  rw [step, lookup]
  cases fs.object dir with
  | none => simp
  | some object =>
    cases object with
    | file content => simp
    | symlink target => simp
    | directory parent entries =>
      simp only [if_neg hName]
      cases entries.lookup name <;> simp

theorem lt_next_of_inode {inode : Inode} (h : fs.inodes i = some inode) : i < fs.next := by
  by_contra hGe
  rw [fs.fresh i (Nat.le_of_not_lt hGe)] at h
  cases h

theorem lt_next_of_object {object : Object} (h : fs.object i = some object) : i < fs.next := by
  obtain ⟨inode, hInode, -⟩ := Option.map_eq_some_iff.mp h
  exact lt_next_of_inode hInode

theorem lt_next_of_links {object : Object} (h : fs.object dir = some object) (hLinks : object.Links i) : i < fs.next := by
  obtain ⟨inode, hInode, rfl⟩ := Option.map_eq_some_iff.mp h
  exact fs.closed dir inode hInode i hLinks

theorem step_lt (h : step fs dir name = .ok i) : i < fs.next := by
  rw [step] at h
  cases hObject : fs.object dir with
  | none => simp [hObject] at h
  | some object =>
    cases object with
    | file content => simp [hObject] at h
    | symlink target => simp [hObject] at h
    | directory parent entries =>
      simp only [hObject] at h
      refine lt_next_of_links hObject ?_
      split at h
      · exact .inl (Except.ok.inj h).symm
      · cases hEntry : entries.lookup name with
        | none => simp [hEntry] at h
        | some i' =>
          simp only [hEntry, Except.ok.injEq] at h
          exact .inr ⟨name, h ▸ hEntry⟩

theorem lookup_fresh (h : fs.next ≤ dir) (name : Name) : lookup fs dir name = none := by
  rw [lookup, FileSystem.object, fs.fresh dir h]
  rfl

def descend (fs : FileSystem) : Ino → List Name → Option Ino
  | i, [] => some i
  | i, name :: rest => (lookup fs i name).bind fun j => descend fs j rest

def Reached (fs : FileSystem) (root : Ino) (names : List Name) (i : Ino) : Prop :=
  ∃ k, descend fs root (names.take k) = some i

theorem descend_append (i : Ino) (names rest : List Name) :
    descend fs i (names ++ rest) = (descend fs i names).bind fun j => descend fs j rest := by
  induction names generalizing i with
  | nil => rfl
  | cons name names ih =>
    rw [List.cons_append, descend, descend, Option.bind_assoc]
    exact congrArg _ (funext fun j => ih j)

theorem descend_concat (i : Ino) (names : List Name) (name : Name) :
    descend fs i (names ++ [name]) = (descend fs i names).bind fun j => lookup fs j name := by
  rw [descend_append]
  refine congrArg _ (funext fun j => ?_)
  rw [descend]
  cases lookup fs j name <;> rfl

theorem reached_root (names : List Name) : Reached fs root names root := ⟨0, rfl⟩

variable {names : List Name}

theorem Reached.append (h : Reached fs root names i) (rest : List Name) :
    Reached fs root (names ++ rest) i := by
  obtain ⟨k, hk⟩ := h
  refine ⟨min k names.length, ?_⟩
  rw [List.take_append_of_le_length (Nat.min_le_right _ _), ← List.take_take, List.take_length]
  exact hk

theorem Reached.cons (h : Reached fs j names i) (hEntry : lookup fs root name = some j) :
    Reached fs root (name :: names) i := by
  obtain ⟨k, hk⟩ := h
  refine ⟨k + 1, ?_⟩
  rw [List.take_succ_cons, descend, hEntry]
  exact hk

/-- The names lead down only, and no link lies on the way. -/
structure Plain (fs : FileSystem) (root : Ino) (names : List Name) : Prop where
  down : dotdot ∉ names
  noLink : ∀ i target, Reached fs root names i → fs.object i ≠ some (.symlink target)

theorem Plain.tail (h : Plain fs root (name :: names)) (hEntry : lookup fs root name = some j) :
    Plain fs j names where
  down := fun hMem => h.down (List.mem_cons_of_mem _ hMem)
  noLink i target hReached := h.noLink i target (hReached.cons hEntry)

def follow (fs : FileSystem) : Nat → Ino → List Name → Except Errno Ino
  | 0 => fun _ _ => .error .loop
  | links + 1 => walk fs links

theorem walk_eq (fs : FileSystem) (links : Nat) : walk fs links = walkFrom fs (follow fs links) := by
  cases links <;> rfl

theorem walk_nil (links : Nat) (i : Ino) : walk fs links i [] = .ok i := by
  rw [walk_eq]
  rfl

variable {links : Nat} {rest : List Name}

theorem walk_cons_link {target : Path} (hStep : step fs dir name = .ok i)
    (hLink : fs.object i = some (.symlink target)) :
    walk fs links dir (name :: rest) =
      follow fs links (if target.absolute then top else dir) (target.segments ++ rest) := by
  rw [walk_eq, walkFrom, hStep]
  simp only [hLink]

theorem walk_cons_plain (hStep : step fs dir name = .ok i)
    (hPlain : ∀ target, fs.object i ≠ some (.symlink target)) :
    walk fs links dir (name :: rest) = walk fs links i rest := by
  rw [walk_eq, walkFrom, hStep]
  cases hObject : fs.object i with
  | none => simp only [hObject]
  | some object =>
    cases object with
    | file content => simp only [hObject]
    | directory parent entries => simp only [hObject]
    | symlink target => exact absurd hObject (hPlain target)

theorem walk_cons_ok (h : walk fs links dir (name :: rest) = .ok j) :
    ∃ i, step fs dir name = .ok i ∧
      ((∃ links' target, links = links' + 1 ∧ fs.object i = some (.symlink target) ∧
          walk fs links' (if target.absolute then top else dir) (target.segments ++ rest) = .ok j) ∨
        ((∀ target, fs.object i ≠ some (.symlink target)) ∧ walk fs links i rest = .ok j)) := by
  cases hStep : step fs dir name with
  | error e =>
    rw [walk_eq, walkFrom, hStep] at h
    cases h
  | ok i =>
    refine ⟨i, rfl, ?_⟩
    by_cases hLink : ∃ target, fs.object i = some (.symlink target)
    · obtain ⟨target, hTarget⟩ := hLink
      rw [walk_cons_link hStep hTarget] at h
      cases links with
      | zero => cases h
      | succ links => exact .inl ⟨links, target, rfl, hTarget, h⟩
    · have hPlain : ∀ target, fs.object i ≠ some (.symlink target) := fun target hTarget => hLink ⟨target, hTarget⟩
      rw [walk_cons_plain hStep hPlain] at h
      exact .inr ⟨hPlain, h⟩

theorem walk_append (h : walk fs links dir names = .ok j) :
    ∃ links', ∀ rest, walk fs links dir (names ++ rest) = walk fs links' j rest := by
  induction links using Nat.strong_induction_on generalizing dir names with
  | _ links ih =>
    induction names generalizing dir with
    | nil =>
      rw [walk_nil] at h
      obtain rfl := Except.ok.inj h
      exact ⟨links, fun rest => rfl⟩
    | cons name names ihNames =>
      obtain ⟨i, hStep, ⟨links', target, rfl, hLink, hWalk⟩ | ⟨hPlain, hWalk⟩⟩ := walk_cons_ok h
      · obtain ⟨left, hLeft⟩ := ih links' (Nat.lt_succ_self _) hWalk
        refine ⟨left, fun rest => ?_⟩
        rw [List.cons_append, walk_cons_link hStep hLink, ← List.append_assoc]
        exact hLeft rest
      · obtain ⟨left, hLeft⟩ := ihNames hWalk
        refine ⟨left, fun rest => ?_⟩
        rw [List.cons_append, walk_cons_plain hStep hPlain]
        exact hLeft rest

theorem walk_plain (hPlain : Plain fs root names)
    (h : walk fs links root names = .ok i) : descend fs root names = some i := by
  induction names generalizing root with
  | nil =>
    rw [walk_nil] at h
    exact congrArg some (Except.ok.inj h)
  | cons name names ih =>
    have hName : name ≠ dotdot := fun hEq => hPlain.down (hEq ▸ List.mem_cons_self)
    obtain ⟨j, hStep, hCase⟩ := walk_cons_ok h
    have hEntry := (step_eq_ok hName).mp hStep
    have hReached : Reached fs root (name :: names) j := (reached_root names).cons hEntry
    obtain ⟨links', target, -, hLink, -⟩ | ⟨-, hWalk⟩ := hCase
    · exact absurd hLink (hPlain.noLink j target hReached)
    · rw [descend, hEntry]
      exact ih (hPlain.tail hEntry) hWalk

/-- The entries and links of the first are those of the second, which has new ones for new inodes only. -/
structure Extends (fs fs' : FileSystem) : Prop where
  next_le : fs.next ≤ fs'.next
  step : ∀ dir name i, step fs dir name = .ok i → step fs' dir name = .ok i
  old : ∀ dir name i, lookup fs' dir name = some i → i < fs.next → lookup fs dir name = some i
  link : ∀ i target, fs'.object i = some (.symlink target) ↔ fs.object i = some (.symlink target)
  directory : ∀ i, i < fs.next → isDirectory fs' i = isDirectory fs i

namespace Extends

theorem refl (fs : FileSystem) : Extends fs fs :=
  ⟨le_rfl, fun _ _ _ h => h, fun _ _ _ h _ => h, fun _ _ => Iff.rfl, fun _ _ => rfl⟩

theorem trans (h : Extends fs fs') (h' : Extends fs' fs'') : Extends fs fs'' where
  next_le := Nat.le_trans h.next_le h'.next_le
  step dir name i hStep := h'.step dir name i (h.step dir name i hStep)
  old dir name i hEntry hi := h.old dir name i (h'.old dir name i hEntry (Nat.lt_of_lt_of_le hi h.next_le)) hi
  link i target := (h'.link i target).trans (h.link i target)
  directory i hi := (h'.directory i (Nat.lt_of_lt_of_le hi h.next_le)).trans (h.directory i hi)

theorem lookup (h : Extends fs fs') (hName : name ≠ dotdot) (hEntry : lookup fs dir name = some i) :
    Posix.lookup fs' dir name = some i :=
  (step_eq_ok hName).mp (h.step dir name i ((step_eq_ok hName).mpr hEntry))

variable {names : List Name}

theorem descend (h : Extends fs fs') (hDown : dotdot ∉ names)
    (hWay : descend fs root names = some i) : Posix.descend fs' root names = some i := by
  induction names generalizing root with
  | nil => exact hWay
  | cons name names ih =>
    obtain ⟨hName, hNames⟩ := not_or.mp (mt List.mem_cons.mpr hDown)
    obtain ⟨j, hEntry, hRest⟩ := Option.bind_eq_some_iff.mp hWay
    rw [Posix.descend, h.lookup (Ne.symm hName) hEntry]
    exact ih hNames hRest

theorem descend_new (h : Extends fs fs') (hRoot : fs.next ≤ root)
    (hWay : Posix.descend fs' root names = some i) : fs.next ≤ i := by
  induction names generalizing root with
  | nil =>
    obtain rfl := Option.some.inj hWay
    exact hRoot
  | cons name names ih =>
    obtain ⟨j, hEntry, hRest⟩ := Option.bind_eq_some_iff.mp hWay
    refine ih (Nat.le_of_not_lt fun hj => ?_) hRest
    have hOld := h.old root name j hEntry hj
    rw [lookup_fresh hRoot] at hOld
    cases hOld

theorem descend_old (h : Extends fs fs') (hWay : Posix.descend fs' root names = some i)
    (hi : i < fs.next) : Posix.descend fs root names = some i := by
  induction names generalizing root with
  | nil => exact hWay
  | cons name names ih =>
    obtain ⟨j, hEntry, hRest⟩ := Option.bind_eq_some_iff.mp hWay
    have hj : j < fs.next := Nat.lt_of_not_le fun hNew => Nat.not_lt.mpr (h.descend_new hNew hRest) hi
    rw [Posix.descend, h.old root name j hEntry hj]
    exact ih hRest

theorem walk (h : Extends fs fs') {links : Nat} (hWalk : walk fs links dir names = .ok i) :
    Posix.walk fs' links dir names = .ok i := by
  induction links using Nat.strong_induction_on generalizing dir names with
  | _ links ih =>
    induction names generalizing dir with
    | nil =>
      rw [walk_nil] at hWalk ⊢
      exact hWalk
    | cons name names ihNames =>
      obtain ⟨j, hStep, ⟨links', target, rfl, hLink, hRest⟩ | ⟨hPlain, hRest⟩⟩ := walk_cons_ok hWalk
      · rw [walk_cons_link (h.step _ _ _ hStep) ((h.link j target).mpr hLink)]
        exact ih links' (Nat.lt_succ_self _) hRest
      · have hPlain' : ∀ target, fs'.object j ≠ some (.symlink target) := fun target hLink =>
          hPlain target ((h.link j target).mp hLink)
        rw [walk_cons_plain (h.step _ _ _ hStep) hPlain']
        exact ihNames hRest

end Extends

end F1r3Node.Lib.Posix
