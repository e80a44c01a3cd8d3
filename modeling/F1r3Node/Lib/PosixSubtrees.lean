import F1r3Node.Lib.PosixChanges

/-! # Changes below a directory

What lies below a directory is found through its entries alone. A call is confined to some directories when all that
it changes, adds or takes away lies below one of them.
-/

namespace F1r3Node.Lib.Posix

variable {fs fs' fs'' : FileSystem} {proc : Process} {root dir i j : Ino} {name : Name}

/-- The inode is found from the root through entries, without a link and without going up. -/
def Below (fs : FileSystem) (root i : Ino) : Prop := ∃ names, dotdot ∉ names ∧ descend fs root names = some i

theorem below_self (fs : FileSystem) (root : Ino) : Below fs root root := ⟨[], List.not_mem_nil, rfl⟩

theorem Below.entry (h : Below fs root dir) (hName : name ≠ dotdot) (hEntry : lookup fs dir name = some i) :
    Below fs root i := by
  obtain ⟨names, hDown, hWay⟩ := h
  refine ⟨names ++ [name], ?_, ?_⟩
  · rw [List.mem_append, List.mem_singleton]
    exact not_or.mpr ⟨hDown, Ne.symm hName⟩
  · rw [descend_concat, hWay]
    exact hEntry

theorem Below.step (h : Below fs root dir) (hName : name ≠ dotdot) (hStep : step fs dir name = .ok i) :
    Below fs root i :=
  h.entry hName ((step_eq_ok hName).mp hStep)

theorem Extends.below (h : Extends fs fs') (hBelow : Below fs root i) : Below fs' root i := by
  obtain ⟨names, hDown, hWay⟩ := hBelow
  exact ⟨names, hDown, h.descend hDown hWay⟩

theorem Extends.below_old (h : Extends fs fs') (hBelow : Below fs' root i) (hi : i < fs.next) : Below fs root i := by
  obtain ⟨names, hDown, hWay⟩ := hBelow
  exact ⟨names, hDown, h.descend_old hWay hi⟩

theorem Extends.plain {names : List Name} (h : Extends fs fs') (hPlain : Plain fs root names) : Plain fs' root names where
  down := hPlain.down
  noLink i target hReached hLink := by
    obtain ⟨k, hk⟩ := hReached
    have hOld := (h.link i target).mp hLink
    exact hPlain.noLink i target ⟨k, h.descend_old hk (lt_next_of_object hOld)⟩ hOld

/-- What changed was below one of the roots before or is new and below it now; what lost its name was below one. -/
structure Confined (roots : Ino → Prop) (fs fs' : FileSystem) : Prop where
  changed : ∀ j, fs'.inodes j ≠ fs.inodes j →
    ∃ root, roots root ∧ (Below fs root j ∨ fs.inodes j = none ∧ Below fs' root j)
  removed : ∀ dir name i, name ≠ dotdot → lookup fs dir name = some i → lookup fs' dir name ≠ some i →
    ∃ root, roots root ∧ Below fs root i

theorem confined_refl (roots : Ino → Prop) (fs : FileSystem) : Confined roots fs fs :=
  ⟨fun _ h => absurd rfl h, fun _ _ _ _ hEntry h => absurd hEntry h⟩

theorem Confined.mono {roots roots' : Ino → Prop} (h : Confined roots fs fs') (hRoots : ∀ r, roots r → roots' r) :
    Confined roots' fs fs' where
  changed j hj := by
    obtain ⟨root, hRoot, hBelow⟩ := h.changed j hj
    exact ⟨root, hRoots root hRoot, hBelow⟩
  removed dir name i hName hEntry hGone := by
    obtain ⟨root, hRoot, hBelow⟩ := h.removed dir name i hName hEntry hGone
    exact ⟨root, hRoots root hRoot, hBelow⟩

/-- Nothing lost its name, and what changed is below the root. -/
structure Grown (root : Ino) (fs fs' : FileSystem) : Prop where
  extends_ : Extends fs fs'
  changed : ∀ j, fs'.inodes j ≠ fs.inodes j → Below fs' root j

namespace Grown

theorem refl (root : Ino) (fs : FileSystem) : Grown root fs fs := ⟨.refl fs, fun _ h => absurd rfl h⟩

theorem trans (h : Grown root fs fs') (h' : Grown root fs' fs'') : Grown root fs fs'' where
  extends_ := h.extends_.trans h'.extends_
  changed j hj := by
    by_cases hSame : fs''.inodes j = fs'.inodes j
    · exact h'.extends_.below (h.changed j (hSame ▸ hj))
    · exact h'.changed j hSame

theorem confined (h : Grown root fs fs') : Confined (· = root) fs fs' where
  changed j hj := by
    refine ⟨root, rfl, ?_⟩
    have hBelow := h.changed j hj
    obtain hOld | hNew := Nat.lt_or_ge j fs.next
    · exact .inl (h.extends_.below_old hBelow hOld)
    · exact .inr ⟨fs.fresh j hNew, hBelow⟩
  removed dir name i hName hEntry hGone := absurd (h.extends_.lookup hName hEntry) hGone

theorem of_modify {f : Inode → Inode} {hf : ∀ inode j, (f inode).object.Links j → inode.object.Links j ∨ j < fs.next}
    (hExtends : Extends fs (fs.modify i f hf)) (hBelow : Below fs root i) : Grown root fs (fs.modify i f hf) where
  extends_ := hExtends
  changed j hj := by
    obtain rfl | hNe := eq_or_ne j i
    · exact hExtends.below hBelow
    · exact absurd (inodes_modify_of_ne hNe) hj

theorem setContent (content : List UInt8) (hBelow : Below fs root i) : Grown root fs (fs.setContent i content) :=
  of_modify (extends_setContent fs i content) hBelow

theorem setMode (mode : UInt32) (hBelow : Below fs root i) : Grown root fs (fs.setMode i mode) :=
  of_modify (extends_setMode fs i mode) hBelow

theorem setOwner (uid gid : UInt32) (hBelow : Below fs root i) : Grown root fs (fs.setOwner i uid gid) :=
  of_modify (extends_of_object rfl fun _ => .inl (object_setOwner uid gid)) hBelow

theorem of_isNew (h : IsNew fs dir name fs') (hName : name ≠ dotdot) (hBelow : Below fs root dir) :
    Grown root fs fs' ∧ Below fs' root fs.next := by
  have hDir := h.extends_.below hBelow
  have hNew := hDir.entry hName h.entry
  refine ⟨⟨h.extends_, fun j hj => ?_⟩, hNew⟩
  obtain rfl | hNe := eq_or_ne j dir
  · exact hDir
  · obtain rfl | hOther := eq_or_ne j fs.next
    · exact hNew
    · exact absurd (h.others j hNe hOther) hj

end Grown

variable {mode : UInt32}

theorem openAt_grown {flags : OpenFlags} (hName : name ≠ dotdot) (hBelow : Below fs root dir)
    (h : openAt proc fs dir name flags mode = .ok (i, fs')) : Grown root fs fs' ∧ Below fs' root i := by
  obtain ⟨hStep, rfl | rfl⟩ | ⟨rfl, hNew⟩ := openAt_ok h
  · exact ⟨.refl root fs', hBelow.step hName hStep⟩
  · have hFile := hBelow.step hName hStep
    exact ⟨.setContent [] hFile, (extends_setContent fs i []).below hFile⟩
  · exact Grown.of_isNew hNew hName hBelow

theorem pwrite_grown {bytes : List UInt8} {off : Nat} (hBelow : Below fs root i)
    (h : pwrite proc fs i bytes off = .ok fs') : Grown root fs fs' := by
  obtain rfl | ⟨content, rfl⟩ := pwrite_ok h
  · exact .refl root fs'
  · exact .setContent content hBelow

theorem ftruncate_grown {size : Nat} (hBelow : Below fs root i) (h : ftruncate proc fs i size = .ok fs') :
    Grown root fs fs' := by
  obtain ⟨content, rfl⟩ := ftruncate_ok h
  exact .setContent content hBelow

section

variable (hName : name ≠ dotdot) (hBelow : Below fs root dir)

include hName hBelow

theorem fchmodAt_grown (hPlain : ∀ i target, lookup fs dir name = some i → fs.object i ≠ some (.symlink target))
    (h : fchmodAt proc fs dir name mode = .ok fs') : Grown root fs fs' := by
  obtain ⟨i, mode', hWalk, rfl⟩ := fchmodAt_ok h
  obtain ⟨j, hStep, ⟨-, target, -, hLink, -⟩ | ⟨-, hEnd⟩⟩ := walk_cons_ok hWalk
  · exact absurd hLink (hPlain j target ((step_eq_ok hName).mp hStep))
  · rw [walk_nil] at hEnd
    obtain rfl := Except.ok.inj hEnd
    exact .setMode mode' (hBelow.step hName hStep)

theorem fchownAt_grown {uid gid : UInt32} (h : fchownAt proc fs dir name uid gid = .ok fs') : Grown root fs fs' := by
  obtain ⟨i, uid', gid', hStep, rfl⟩ := fchownAt_ok h
  exact .setOwner uid' gid' (hBelow.step hName hStep)

theorem mkdirAt_grown (h : mkdirAt proc fs dir name mode = .ok fs') : Grown root fs fs' :=
  (Grown.of_isNew (mkdirAt_ok h) hName hBelow).1

end

theorem lookup_eq_of_inodes (h : fs'.inodes dir = fs.inodes dir) (name : Name) : lookup fs' dir name = lookup fs dir name := by
  rw [lookup, lookup, FileSystem.object, h]
  rfl

theorem lookup_moveUnder (d : Ino) (other : Name) : lookup (fs.moveUnder i dir) d other = lookup fs d other := by
  rw [FileSystem.moveUnder]
  split
  · obtain rfl | hNe := eq_or_ne d i
    · rw [lookup, lookup, FileSystem.object, inodes_modify_self, FileSystem.object, Option.map_map]
      cases fs.inodes d with
      | none => rfl
      | some inode =>
        simp only [Option.map_some, Function.comp_apply]
        cases inode.object with
        | file content => rfl
        | symlink target => rfl
        | directory parent entries => rfl
    · exact lookup_eq_of_inodes (inodes_modify_of_ne hNe) other
  · rfl

theorem confined_unlink (hBelow : Below fs root dir) :
    Confined (· = root) fs (fs.unlink dir name) where
  changed j hj := by
    refine ⟨root, rfl, .inl ?_⟩
    obtain rfl | hNe := eq_or_ne j dir
    · exact hBelow
    · exact absurd (inodes_modify_of_ne hNe) hj
  removed d n i hn hEntry hGone := by
    refine ⟨root, rfl, ?_⟩
    obtain rfl | hNe := eq_or_ne d dir
    · exact hBelow.entry hn hEntry
    · exact absurd ((lookup_eq_of_inodes (inodes_modify_of_ne hNe) n).trans hEntry) hGone

theorem renameAt_confined {fromDir toDir root' : Ino} {fromName toName : Name} {roots : Ino → Prop} (hRoot : roots root)
    (hRoot' : roots root') (hFromName : fromName ≠ dotdot) (hFrom : Below fs root fromDir)
    (hTo : Below fs root' toDir) (h : renameAt fs fromDir fromName toDir toName = .ok fs') : Confined roots fs fs' := by
  obtain ⟨i, hStep, rfl | rfl⟩ := renameAt_ok h
  · exact confined_refl roots fs'
  refine ⟨fun j hj => ?_, fun d n k hn hEntry hGone => ?_⟩
  · obtain rfl | hMoved := eq_or_ne j i
    · exact ⟨root, hRoot, .inl (hFrom.step hFromName hStep)⟩
    obtain rfl | hToDir := eq_or_ne j toDir
    · exact ⟨root', hRoot', .inl hTo⟩
    obtain rfl | hFromDir := eq_or_ne j fromDir
    · exact ⟨root, hRoot, .inl hFrom⟩
    rw [inodes_moveUnder_of_ne hMoved, inodes_link_of_ne hToDir] at hj
    exact absurd (inodes_modify_of_ne hFromDir) hj
  · obtain rfl | hToDir := eq_or_ne d toDir
    · exact ⟨root', hRoot', hTo.entry hn hEntry⟩
    obtain rfl | hFromDir := eq_or_ne d fromDir
    · exact ⟨root, hRoot, hFrom.entry hn hEntry⟩
    rw [lookup_moveUnder, lookup_eq_of_inodes (inodes_link_of_ne hToDir)] at hGone
    exact absurd ((lookup_eq_of_inodes (inodes_modify_of_ne hFromDir) n).trans hEntry) hGone

theorem walk_of_openDir {cwd : Ino} {path : Path} (h : openDir fs cwd path = .ok i) :
    walk fs maxLinks (startOf cwd path) path.segments = .ok i := by
  rw [openDir] at h
  split at h
  next hNone =>
    rw [List.getLast?_eq_none_iff.mp hNone, walk_nil, startOf]
    split at h
    next hAbsolute =>
      rw [if_pos hAbsolute]
      exact h
    · cases h
  next name hLast =>
    obtain ⟨before, hSegments⟩ := List.getLast?_eq_some_iff.mp hLast
    rw [hSegments, List.dropLast_concat] at h
    obtain ⟨d, hWalk, hOpen⟩ := exists_of_bind_ok h
    obtain ⟨hStep, hDirectory⟩ := openDirAt_ok hOpen
    obtain ⟨links, hRest⟩ := walk_append hWalk
    obtain ⟨parent, entries, hObject⟩ := isDirectory_iff.mp hDirectory
    have hPlain : ∀ target, fs.object i ≠ some (.symlink target) := by simp [hObject]
    rw [hSegments, hRest, walk_cons_plain hStep hPlain, walk_nil]

section

variable {start : Ino} {before names : List Name}

theorem below_of_walk (hStart : walk fs maxLinks start before = .ok root) (hPlain : Plain fs root names)
    (h : walk fs maxLinks start (before ++ names) = .ok i) : descend fs root names = some i := by
  obtain ⟨links, hRest⟩ := walk_append hStart
  rw [hRest] at h
  exact walk_plain hPlain h

theorem Plain.prefix_ {rest : List Name} (h : Plain fs root (names ++ rest)) : Plain fs root names where
  down hMem := h.down (List.mem_append_left rest hMem)
  noLink i target hReached := h.noLink i target (hReached.append rest)

theorem mkdir_grown {path : Path} {rest : List Name} {mode : UInt32}
    (hStart : walk fs maxLinks (startOf proc.cwd path) before = .ok root) (hPlain : Plain fs root names)
    (hPath : path.segments ++ rest = before ++ names) (h : mkdir proc fs path mode = .ok fs') : Grown root fs fs' := by
  rw [mkdir] at h
  split at h
  · split at h <;> cases h
  next name hLast =>
    obtain ⟨parents, hSegments⟩ := List.getLast?_eq_some_iff.mp hLast
    rw [hSegments, List.dropLast_concat] at h
    obtain ⟨d, hWalk, hMkdir⟩ := exists_of_bind_ok h
    rw [hSegments, List.append_assoc] at hPath
    obtain ⟨more, hBefore, hRest⟩ | ⟨more, hParents, hNames⟩ := List.append_eq_append_iff.mp hPath
    · cases more with
      | nil =>
        -- the first name below the root
        rw [List.append_nil] at hBefore
        rw [List.nil_append] at hRest
        rw [hBefore, hWalk] at hStart
        obtain rfl := Except.ok.inj hStart
        have hName : name ≠ dotdot := fun hEq => hPlain.down (by rw [← hRest, hEq]; exact List.mem_cons_self)
        exact mkdirAt_grown hName (below_self fs d) hMkdir
      | cons first more =>
        -- a name before the root: the walk has found it
        obtain ⟨rfl, -⟩ := List.cons.inj hRest
        rw [hBefore] at hStart
        obtain ⟨links, hOn⟩ := walk_append hWalk
        rw [hOn] at hStart
        obtain ⟨k, hStep, -⟩ := walk_cons_ok hStart
        rw [mkdirAt, hStep] at hMkdir
        cases hMkdir
    · rw [List.singleton_append] at hNames
      have hMem : name ∈ names := by rw [hNames]; exact List.mem_append_right more List.mem_cons_self
      have hName : name ≠ dotdot := fun hEq => hPlain.down (hEq ▸ hMem)
      rw [hNames] at hPlain
      rw [hParents] at hWalk
      have hWay := below_of_walk hStart hPlain.prefix_ hWalk
      refine mkdirAt_grown hName ⟨more, hPlain.prefix_.down, hWay⟩ hMkdir

end

theorem chmod_grown {path : Path} {before names : List Name}
    (hStart : walk fs maxLinks (startOf proc.cwd path) before = .ok root) (hPlain : Plain fs root names)
    (hPath : path.segments = before ++ names) (h : chmod proc fs path mode = .ok fs') : Grown root fs fs' := by
  obtain ⟨i, hResolve, hSet⟩ := exists_of_bind_ok h
  obtain ⟨mode', rfl⟩ := changeMode_ok hSet
  rw [resolve] at hResolve
  split at hResolve
  · cases hResolve
  · rw [hPath] at hResolve
    exact .setMode mode' ⟨names, hPlain.down, below_of_walk hStart hPlain hResolve⟩

end F1r3Node.Lib.Posix
