import F1r3Node.Lib.Fallible
import F1r3Node.Lib.PosixWalks

/-! # What a call changes

For each call, the file system that it leaves. Changes of content, mode and owner keep every entry; a new inode under
a free name is a growth.
-/

namespace F1r3Node.Lib.Posix

variable {fs fs' : FileSystem} {proc : Process} {dir i j : Ino} {name : Name}

section

variable {f : Inode → Inode} {hf : ∀ inode j, (f inode).object.Links j → inode.object.Links j ∨ j < fs.next}

theorem inodes_modify_of_ne (h : j ≠ i) : (fs.modify i f hf).inodes j = fs.inodes j := if_neg h

theorem inodes_modify_self : (fs.modify i f hf).inodes i = (fs.inodes i).map f := if_pos rfl

theorem object_modify_of_ne (h : j ≠ i) : (fs.modify i f hf).object j = fs.object j := by
  rw [FileSystem.object, inodes_modify_of_ne h]
  rfl

theorem object_modify (h : ∀ inode, fs.inodes i = some inode → (f inode).object = inode.object) :
    (fs.modify i f hf).object j = fs.object j := by
  obtain rfl | hNe := eq_or_ne j i
  · rw [FileSystem.object, inodes_modify_self, FileSystem.object, Option.map_map]
    cases hInode : fs.inodes j with
    | none => rfl
    | some inode => exact congrArg some (h inode hInode)
  · exact object_modify_of_ne hNe

end

theorem inodes_link_of_ne {target : Ino} (h : j ≠ dir) : (fs.link dir name target).inodes j = fs.inodes j := by
  rw [FileSystem.link]
  split
  · exact inodes_modify_of_ne h
  · rfl

theorem inodes_moveUnder_of_ne (h : j ≠ i) : (fs.moveUnder i dir).inodes j = fs.inodes j := by
  rw [FileSystem.moveUnder]
  split
  · exact inodes_modify_of_ne h
  · rfl

theorem object_setMode (mode : UInt32) : (fs.setMode i mode).object j = fs.object j := object_modify fun _ _ => rfl

theorem object_setOwner (uid gid : UInt32) : (fs.setOwner i uid gid).object j = fs.object j :=
  object_modify fun _ _ => rfl

theorem object_setContent_of_ne (content : List UInt8) (h : j ≠ i) :
    (fs.setContent i content).object j = fs.object j := object_modify_of_ne h

theorem object_setContent_self {old : List UInt8} (content : List UInt8) (h : fs.object i = some (.file old)) :
    (fs.setContent i content).object i = some (.file content) := by
  obtain ⟨inode, hInode, hFile⟩ := Option.map_eq_some_iff.mp h
  rw [FileSystem.object, FileSystem.setContent, inodes_modify_self, hInode]
  simp only [Option.map_some, hFile]
  rfl

theorem setContent_eq_self {inode : Inode} {content : List UInt8} (h : fs.inodes i = some inode)
    (hFile : inode.object = .file content) : fs.setContent i content = fs := by
  have hInodes : (fs.setContent i content).inodes = fs.inodes := by
    funext j
    obtain rfl | hNe := eq_or_ne j i
    · rw [FileSystem.setContent, inodes_modify_self, h, Option.map_some, hFile, Object.setContent, ← hFile]
    · exact inodes_modify_of_ne hNe
  cases fs
  simp only [FileSystem.setContent, FileSystem.modify, FileSystem.mk.injEq, and_true] at hInodes ⊢
  exact hInodes

theorem extends_of_object (hNext : fs'.next = fs.next)
    (h : ∀ j, fs'.object j = fs.object j ∨
      ∃ old new, fs.object j = some (.file old) ∧ fs'.object j = some (.file new)) : Extends fs fs' := by
  have hStep : ∀ dir name, step fs' dir name = step fs dir name := by
    intro dir name
    rw [step, step]
    obtain hSame | ⟨old, new, hOld, hNew⟩ := h dir
    · rw [hSame]
    · rw [hOld, hNew]
  have hLookup : ∀ dir name, lookup fs' dir name = lookup fs dir name := by
    intro dir name
    rw [lookup, lookup]
    obtain hSame | ⟨old, new, hOld, hNew⟩ := h dir
    · rw [hSame]
    · rw [hOld, hNew]
  refine ⟨Nat.le_of_eq hNext.symm, fun dir name i hOk => (hStep dir name).trans hOk, fun dir name i hEntry _ => ?_, ?_, ?_⟩
  · exact (hLookup dir name).symm.trans hEntry
  · intro j target
    obtain hSame | ⟨old, new, hOld, hNew⟩ := h j
    · rw [hSame]
    · simp [hOld, hNew]
  · intro j hj
    rw [isDirectory, isDirectory]
    obtain hSame | ⟨old, new, hOld, hNew⟩ := h j
    · rw [hSame]
    · rw [hOld, hNew]

theorem extends_setMode (fs : FileSystem) (i : Ino) (mode : UInt32) : Extends fs (fs.setMode i mode) :=
  extends_of_object rfl fun _ => .inl (object_setMode mode)

theorem extends_setContent (fs : FileSystem) (i : Ino) (content : List UInt8) : Extends fs (fs.setContent i content) := by
  refine extends_of_object rfl fun j => ?_
  obtain rfl | hNe := eq_or_ne j i
  · cases hObject : fs.object j with
    | none =>
      left
      rw [FileSystem.object, FileSystem.setContent, inodes_modify_self, Option.map_eq_none_iff.mp hObject]
      rfl
    | some object =>
      cases object with
      | file old => exact .inr ⟨old, content, rfl, object_setContent_self content hObject⟩
      | directory parent entries =>
        obtain ⟨inode, hInode, hKind⟩ := Option.map_eq_some_iff.mp hObject
        left
        rw [FileSystem.object, FileSystem.setContent, inodes_modify_self, hInode]
        simp only [Option.map_some, hKind]
        rfl
      | symlink target =>
        obtain ⟨inode, hInode, hKind⟩ := Option.map_eq_some_iff.mp hObject
        left
        rw [FileSystem.object, FileSystem.setContent, inodes_modify_self, hInode]
        simp only [Option.map_some, hKind]
        rfl
  · exact .inl (object_setContent_of_ne content hNe)

section

variable {inode : Inode} {hInode : ∀ j, inode.object.Links j → j < fs.next}

theorem inodes_add_of_ne (hDir : j ≠ dir) (hNew : j ≠ fs.next) : (fs.add dir name inode hInode).inodes j = fs.inodes j := by
  rw [FileSystem.add, inodes_link_of_ne hDir]
  exact Function.update_of_ne hNew _ _

theorem lt_next_create : fs.next < (fs.create inode hInode).next := Nat.lt_succ_self _

theorem next_add : (fs.add dir name inode hInode).next = fs.next + 1 := by
  rw [FileSystem.add, FileSystem.link, dif_pos lt_next_create]
  rfl

theorem inodes_add_new (hDir : dir < fs.next) : (fs.add dir name inode hInode).inodes fs.next = some inode := by
  rw [FileSystem.add, inodes_link_of_ne (Nat.ne_of_gt hDir)]
  exact Function.update_self _ _ _

theorem inodes_add_dir (hDir : dir < fs.next) : (fs.add dir name inode hInode).inodes dir =
    (fs.inodes dir).map fun old => { old with object := old.object.insertEntry name fs.next } := by
  rw [FileSystem.add, FileSystem.link, dif_pos lt_next_create, inodes_modify_self]
  exact congrArg _ (Function.update_of_ne (Nat.ne_of_lt hDir) _ _)

theorem object_add_of_ne (hDir : j ≠ dir) (hNew : j ≠ fs.next) :
    (fs.add dir name inode hInode).object j = fs.object j := by
  rw [FileSystem.object, inodes_add_of_ne hDir hNew]
  rfl

variable {parent : Ino} {entries : AList fun _ : Name => Ino}

theorem object_add_dir (hDir : fs.object dir = some (.directory parent entries)) :
    (fs.add dir name inode hInode).object dir = some (.directory parent (entries.insert name fs.next)) := by
  obtain ⟨old, hOld, hKind⟩ := Option.map_eq_some_iff.mp hDir
  rw [FileSystem.object, inodes_add_dir (lt_next_of_inode hOld), hOld]
  simp only [Option.map_some, hKind]
  rfl

theorem object_add_new (hDir : dir < fs.next) : (fs.add dir name inode hInode).object fs.next = some inode.object := by
  rw [FileSystem.object, inodes_add_new hDir]
  rfl

theorem lookup_add_self (hDir : fs.object dir = some (.directory parent entries)) :
    lookup (fs.add dir name inode hInode) dir name = some fs.next := by
  rw [lookup, object_add_dir hDir]
  exact AList.lookup_insert entries

theorem extends_add (hDir : fs.object dir = some (.directory parent entries)) (hFree : entries.lookup name = none)
    (hEmpty : ∀ p e n, inode.object = .directory p e → e.lookup n = none)
    (hPlain : ∀ target, inode.object ≠ .symlink target) :
    Extends fs (fs.add dir name inode hInode) := by
  have hOld := lt_next_of_object hDir
  refine ⟨by rw [next_add]; exact Nat.le_succ _, fun d n i hStep => ?_, fun d n i hEntry hi => ?_, fun j target => ?_,
    fun j hj => ?_⟩
  · obtain rfl | hNe := eq_or_ne d dir
    · rw [step, hDir] at hStep
      rw [step, object_add_dir hDir]
      simp only at hStep ⊢
      split at hStep
      next hUp =>
        rw [if_pos hUp]
        exact hStep
      next hDown =>
        have hOther : n ≠ name := by
          rintro rfl
          rw [hFree] at hStep
          cases hStep
        rw [if_neg hDown, AList.lookup_insert_ne hOther]
        exact hStep
    · have hLt : d ≠ fs.next := by
        rintro rfl
        rw [step, FileSystem.object, fs.fresh _ (Nat.le_refl _)] at hStep
        cases hStep
      rw [step, object_add_of_ne hNe hLt]
      exact hStep
  · obtain rfl | hNe := eq_or_ne d dir
    · rw [lookup, object_add_dir hDir] at hEntry
      rw [lookup, hDir]
      have hOther : n ≠ name := by
        rintro rfl
        have hNew : some fs.next = some i := (AList.lookup_insert entries).symm.trans hEntry
        exact Nat.lt_irrefl _ (Option.some.inj hNew ▸ hi)
      simp only at hEntry ⊢
      rw [AList.lookup_insert_ne hOther] at hEntry
      exact hEntry
    · obtain rfl | hOther := eq_or_ne d fs.next
      · rw [lookup, object_add_new hOld] at hEntry
        split at hEntry
        next p e hKind =>
          rw [hEmpty p e n (Option.some.inj hKind)] at hEntry
          cases hEntry
        · cases hEntry
      · rw [lookup, object_add_of_ne hNe hOther] at hEntry
        exact hEntry
  · obtain rfl | hNe := eq_or_ne j dir
    · rw [object_add_dir hDir, hDir]
      simp
    · obtain rfl | hNew := eq_or_ne j fs.next
      · rw [object_add_new hOld, FileSystem.object, fs.fresh _ (Nat.le_refl _)]
        simpa using hPlain target
      · rw [object_add_of_ne hNe hNew]
  · obtain rfl | hNe := eq_or_ne j dir
    · rw [isDirectory, isDirectory, object_add_dir hDir, hDir]
    · rw [isDirectory, isDirectory, object_add_of_ne hNe (Nat.ne_of_lt hj)]

end

theorem isDirectory_iff : isDirectory fs i = true ↔ ∃ parent entries, fs.object i = some (.directory parent entries) := by
  rw [isDirectory]
  split
  next parent entries hObject => simp [hObject]
  next hOther =>
    simp only [Bool.false_eq_true, false_iff]
    rintro ⟨parent, entries, hObject⟩
    exact hOther parent entries hObject

theorem free_of_noent {parent : Ino} {entries : AList fun _ : Name => Ino} (hStep : step fs dir name = .error .noent)
    (hDir : fs.object dir = some (.directory parent entries)) : entries.lookup name = none := by
  rw [step, hDir] at hStep
  simp only at hStep
  split at hStep
  · cases hStep
  · cases hEntry : entries.lookup name with
    | none => rfl
    | some i => simp [hEntry] at hStep

theorem openDirAt_ok (h : openDirAt fs dir name = .ok i) :
    step fs dir name = .ok i ∧ isDirectory fs i = true := by
  rw [openDirAt] at h
  split at h
  · cases h
  next i' hStep =>
    split at h
    next hObject =>
      obtain rfl := Except.ok.inj h
      refine ⟨hStep, ?_⟩
      rw [isDirectory, hObject]
    · cases h
    · cases h

theorem openDirAt_of_step (hStep : step fs dir name = .ok i) (hDir : isDirectory fs i = true) :
    openDirAt fs dir name = .ok i := by
  obtain ⟨parent, entries, hObject⟩ := isDirectory_iff.mp hDir
  rw [openDirAt, hStep]
  simp only [hObject]

theorem Extends.openDirAt (h : Extends fs fs') (hOpen : openDirAt fs dir name = .ok i) :
    Posix.openDirAt fs' dir name = .ok i := by
  obtain ⟨hStep, hDir⟩ := openDirAt_ok hOpen
  refine openDirAt_of_step (h.step dir name i hStep) ?_
  rw [h.directory i (step_lt hStep)]
  exact hDir

theorem Extends.openDir (h : Extends fs fs') {cwd : Ino} {path : Path} (hOpen : openDir fs cwd path = .ok i) :
    Posix.openDir fs' cwd path = .ok i := by
  rw [Posix.openDir] at hOpen ⊢
  split at hOpen
  · exact hOpen
  next name hLast =>
    obtain ⟨parent, hWalk, hAt⟩ := exists_of_bind_ok hOpen
    rw [h.walk hWalk]
    exact h.openDirAt hAt

structure IsNew (fs : FileSystem) (dir : Ino) (name : Name) (fs' : FileSystem) : Prop where
  extends_ : Extends fs fs'
  entry : lookup fs' dir name = some fs.next
  others : ∀ j, j ≠ dir → j ≠ fs.next → fs'.inodes j = fs.inodes j

theorem isNew_add {inode : Inode} {hInode : ∀ j, inode.object.Links j → j < fs.next}
    (hStep : step fs dir name = .error .noent) (hDir : isDirectory fs dir = true)
    (hEmpty : ∀ p e n, inode.object = .directory p e → e.lookup n = none)
    (hPlain : ∀ target, inode.object ≠ .symlink target) :
    IsNew fs dir name (fs.add dir name inode hInode) := by
  obtain ⟨parent, entries, hObject⟩ := isDirectory_iff.mp hDir
  exact ⟨extends_add hObject (free_of_noent hStep hObject) hEmpty hPlain, lookup_add_self hObject, fun j => inodes_add_of_ne⟩

variable {mode : UInt32}

theorem openAt_ok {flags : OpenFlags} (h : openAt proc fs dir name flags mode = .ok (i, fs')) :
    (step fs dir name = .ok i ∧ (fs' = fs ∨ fs' = fs.setContent i [])) ∨ (i = fs.next ∧ IsNew fs dir name fs') := by
  rw [openAt] at h
  split at h
  next hStep =>
    split at h
    next hCreate =>
      obtain ⟨rfl, rfl⟩ := Prod.mk.inj (Except.ok.inj h)
      exact .inr ⟨rfl, isNew_add hStep hCreate.2 nofun nofun⟩
    · cases h
  · cases h
  next i' hStep =>
    left
    split at h
    · cases h
    split at h
    · cases h
    split at h
    · cases h
    · split at h
      · obtain ⟨rfl, rfl⟩ := Prod.mk.inj (Except.ok.inj h)
        exact ⟨hStep, .inl rfl⟩
      · cases h
    · split at h
      · obtain ⟨rfl, rfl⟩ := Prod.mk.inj (Except.ok.inj h)
        refine ⟨hStep, ?_⟩
        split
        · exact .inr rfl
        · exact .inl rfl
      · cases h

theorem mkdirAt_ok (h : mkdirAt proc fs dir name mode = .ok fs') : IsNew fs dir name fs' := by
  rw [mkdirAt] at h
  split at h
  · cases h
  next hStep =>
    split at h
    next hDir =>
      obtain rfl := Except.ok.inj h
      refine isNew_add hStep hDir.2 (fun p e n hKind => ?_) nofun
      obtain ⟨-, rfl⟩ := Object.directory.inj hKind
      rfl
    · cases h
  · cases h

theorem pwrite_ok {bytes : List UInt8} {off : Nat} (h : pwrite proc fs i bytes off = .ok fs') :
    fs' = fs ∨ ∃ content, fs' = fs.setContent i content := by
  rw [pwrite] at h
  split at h
  · split at h
    · exact .inl (Except.ok.inj h).symm
    · split at h
      · cases h
      · exact .inr ⟨_, (Except.ok.inj h).symm⟩
  · cases h

theorem ftruncate_ok {size : Nat} (h : ftruncate proc fs i size = .ok fs') : ∃ content, fs' = fs.setContent i content := by
  rw [ftruncate] at h
  split at h
  · split at h
    · cases h
    · exact ⟨_, (Except.ok.inj h).symm⟩
  · cases h

theorem changeMode_ok (h : changeMode proc fs i mode = .ok fs') : ∃ mode', fs' = fs.setMode i mode' := by
  rw [changeMode] at h
  split at h
  · cases h
  · split at h
    · exact ⟨_, (Except.ok.inj h).symm⟩
    · cases h

theorem fchmodAt_ok (h : fchmodAt proc fs dir name mode = .ok fs') :
    ∃ i mode', walk fs maxLinks dir [name] = .ok i ∧ fs' = fs.setMode i mode' := by
  obtain ⟨i, hWalk, hSet⟩ := exists_of_bind_ok h
  obtain ⟨mode', hMode⟩ := changeMode_ok hSet
  exact ⟨i, mode', hWalk, hMode⟩

theorem fchownAt_ok {uid gid : UInt32} (h : fchownAt proc fs dir name uid gid = .ok fs') :
    ∃ i uid' gid', step fs dir name = .ok i ∧ fs' = fs.setOwner i uid' gid' := by
  obtain ⟨i, hStep, hSet⟩ := exists_of_bind_ok h
  split at hSet
  · cases hSet
  · split at hSet
    · exact ⟨i, _, _, hStep, (Except.ok.inj hSet).symm⟩
    · cases hSet

theorem unlinkAt_ok (h : unlinkAt fs dir name = .ok fs') : fs' = fs.unlink dir name := by
  obtain ⟨i, -, hSet⟩ := exists_of_bind_ok h
  split at hSet
  · cases hSet
  · exact (Except.ok.inj hSet).symm

theorem rmdirAt_ok (h : rmdirAt fs dir name = .ok fs') : fs' = fs.unlink dir name := by
  obtain ⟨i, -, hSet⟩ := exists_of_bind_ok h
  split at hSet
  · cases hSet
  · split at hSet
    · cases hSet
    · exact (Except.ok.inj hSet).symm

theorem renameAt_ok {fromDir toDir : Ino} {fromName toName : Name}
    (h : renameAt fs fromDir fromName toDir toName = .ok fs') :
    ∃ i, step fs fromDir fromName = .ok i ∧
      (fs' = fs ∨ fs' = ((fs.unlink fromDir fromName).link toDir toName i).moveUnder i toDir) := by
  obtain ⟨i, hStep, hSet⟩ := exists_of_bind_ok h
  refine ⟨i, hStep, ?_⟩
  split at hSet
  · cases hSet
  · simp only at hSet
    split at hSet
    · split at hSet
      · exact .inr (Except.ok.inj hSet).symm
      · cases hSet
    · cases hSet
    · split at hSet
      · exact .inl (Except.ok.inj hSet).symm
      · obtain ⟨-, -, hMoved⟩ := exists_of_bind_ok hSet
        exact .inr (Except.ok.inj hMoved).symm

end F1r3Node.Lib.Posix
