import F1r3Node.FileIo.WalApplier
import F1r3Node.Lib.PosixSubtrees

/-! # What the applier may touch

Every operation goes down from the root of its entry without following a link, except a mode change under the last name
and the recursive `mkdir`.
-/

namespace F1r3Node.FileIo

open Lib Lib.Posix Lib.Stateful

structure Applied where
  entry : WalEntry
  before : FileSystem
  after : FileSystem

namespace Applier

variable (A : Applier)

def trace : Nat → List WalEntry → FileSystem → List Applied
  | _, [], _ => []
  | index, entry :: rest, fs =>
    match (A.applyEntry index entry).run fs with
    | .ok _ fs' => ⟨entry, fs, fs'⟩ :: trace (index + 1) rest fs'
    | .error _ fs' => [⟨entry, fs, fs'⟩]

def RootOf (fs : FileSystem) (entry : WalEntry) (root : Ino) : Prop :=
  ∃ path, (path = entry.path ∨ entry.extraPath = some path) ∧
    openDir fs A.host.proc.cwd (A.pathMap path).root = .ok root

/-- The last name of a `chmod` is no link. -/
def ModeGuard (fs : FileSystem) (entry : WalEntry) : Prop :=
  let resolved := A.pathMap entry.path
  ∀ root i target, openDir fs A.host.proc.cwd resolved.root = .ok root →
    descend fs root (A.relStr resolved.rel).segments = some i → fs.object i ≠ some (.symlink target)

/-- The root is there, and the path of a recursive `mkdir` goes down from it without a link. -/
def ParentsGuard (fs : FileSystem) (entry : WalEntry) : Prop :=
  let resolved := A.pathMap entry.path
  resolved.rel.absolute = false ∧
    ∃ root, openDir fs A.host.proc.cwd resolved.root = .ok root ∧ Plain fs root resolved.rel.segments

/-- What the two exceptions need; all other entries are free. -/
structure Guarded (fs : FileSystem) (entry : WalEntry) : Prop where
  chmod : entry.outcome = .success → entry.op = .chmod → A.ModeGuard fs entry
  parents : entry.outcome = .success → entry.op = .mkdir → entry.length = some 1 → A.ParentsGuard fs entry

end Applier

section

variable {α : Type} {fs : FileSystem} {wrap : Errno → ApplierError} {failed : FileSystem → Prop}

theorem yields_call {f : FileSystem → Except Errno (α × FileSystem)} {returned : α → FileSystem → Prop}
    (hOk : ∀ a t, f fs = .ok (a, t) → returned a t) (hFailed : failed fs) : Yields (call wrap f) fs returned failed :=
  .update (fun a t h => hOk a t (eq_ok_of_mapError h)) hFailed

theorem yields_callUnit {f : FileSystem → Except Errno FileSystem} {returned : FileSystem → Prop}
    (hOk : ∀ t, f fs = .ok t → returned t) (hFailed : failed fs) :
    Yields (callUnit wrap f) fs (fun _ => returned) failed := by
  refine yields_call (fun a t h => hOk t ?_) hFailed
  cases hf : f fs with
  | error e => simp [hf, Except.map] at h
  | ok t' =>
    rw [hf] at h
    exact congrArg Except.ok (Prod.mk.inj (Except.ok.inj h)).2

theorem yields_query {ε : Type} {f : FileSystem → Except ε α} (hFailed : failed fs) :
    Yields (query f) fs (fun a t => f fs = .ok a ∧ t = fs) failed :=
  .query (fun _ h => ⟨h, rfl⟩) hFailed

end

section

variable {A : Applier} {fs : FileSystem} {index : Nat} {entry : WalEntry}

structure Parent (A : Applier) (fs : FileSystem) (path : Path) (root : Ino) (parent : SafeParent) : Prop where
  opened : openDir fs A.host.proc.cwd (A.pathMap path).root = .ok root
  below : Below fs root parent.dirfd
  leaf : parent.leaf ≠ dotdot
  way : ∀ i, lookup fs parent.dirfd parent.leaf = some i →
    descend fs root (A.relStr (A.pathMap path).rel).segments = some i

variable {parent : SafeParent}

theorem descendEntry_ok {path dst : Path} (h : A.descendEntry fs index path = .ok (parent, dst)) :
    ∃ root, Parent A fs path root parent := by
  obtain ⟨-, -, hRest⟩ := exists_of_bind_ok h
  obtain ⟨parent', hDescend, hPure⟩ := exists_of_bind_ok hRest
  obtain ⟨rfl, -⟩ := Prod.mk.inj (Except.ok.inj hPure)
  obtain ⟨-, hDown, root, before, hOpen, hSegments, hWay⟩ := safeDescendVerified_ok (eq_ok_of_mapError hDescend)
  rw [hSegments, List.mem_append, List.mem_singleton, not_or] at hDown
  refine ⟨root, hOpen, ⟨before, hDown.1, hWay⟩, Ne.symm hDown.2, fun i hEntry => ?_⟩
  rw [hSegments, descend_concat, hWay]
  exact hEntry

variable {root : Ino}

theorem Parent.rootOf (h : Parent A fs entry.path root parent) :
    A.RootOf fs entry root := ⟨entry.path, .inl rfl, h.opened⟩

variable {fs' : FileSystem}

theorem Grown.confinedTo (h : Grown root fs fs') (hRoot : A.RootOf fs entry root) :
    Confined (A.RootOf fs entry) fs fs' := by
  refine h.confined.mono ?_
  rintro r rfl
  exact hRoot

variable (A fs index entry) in
def Keeps (x : Apply Unit) : Prop :=
  Yields x fs (fun _ => Confined (A.RootOf fs entry) fs) (Confined (A.RootOf fs entry) fs)

theorem keeps_pure : Keeps A fs entry (pure ()) := confined_refl _ _

theorem keeps_descend {x : SafeParent × Path → Apply Unit}
    (h : ∀ root parent dst, Parent A fs entry.path root parent → Keeps A fs entry (x (parent, dst))) :
    Keeps A fs entry (query (fun fs => A.descendEntry fs index entry.path) >>= x) := by
  refine (yields_query (confined_refl _ fs)).bind ?_
  rintro ⟨parent, dst⟩ t ⟨hDescend, rfl⟩
  obtain ⟨root, hParent⟩ := descendEntry_ok hDescend
  exact h root parent dst hParent

variable {f : FileSystem → Except Errno FileSystem}

theorem keeps_callUnit {wrap : Errno → ApplierError}
    (hRoot : A.RootOf fs entry root) (h : ∀ fs', f fs = .ok fs' → Grown root fs fs') :
    Keeps A fs entry (callUnit wrap f) :=
  yields_callUnit (fun fs' hCall => Grown.confinedTo (h fs' hCall) hRoot) (confined_refl _ fs)

theorem keeps_open {flags : OpenFlags} {mode : UInt32}
    {wrapOpen wrap : Errno → ApplierError} {f : Ino → FileSystem → Except Errno FileSystem}
    (hParent : Parent A fs entry.path root parent)
    (h : ∀ fd t fs', Below t root fd → f fd t = .ok fs' → Grown root t fs') :
    Keeps A fs entry (do
      let fd ← call wrapOpen fun fs => openAt A.host.proc fs parent.dirfd parent.leaf flags mode
      callUnit wrap (f fd)) := by
  have hOpen : Yields (call wrapOpen fun fs => openAt A.host.proc fs parent.dirfd parent.leaf flags mode) fs
      (fun fd t => Grown root fs t ∧ Below t root fd) (Confined (A.RootOf fs entry) fs) :=
    yields_call (fun fd t hOk => openAt_grown hParent.leaf hParent.below hOk) (confined_refl _ fs)
  refine hOpen.bind ?_
  rintro fd t ⟨hGrown, hBelow⟩
  refine yields_callUnit (fun fs' hCall => ?_) (Grown.confinedTo hGrown hParent.rootOf)
  exact Grown.confinedTo (hGrown.trans (h fd t fs' hBelow hCall)) hParent.rootOf

variable {proc : Process}

theorem pwriteAll_grown {fd : Ino} {bytes : Shared.Bytes} {off : Nat} {t : FileSystem}
    (hBelow : Below t root fd) (h : pwriteAll proc t fd bytes off = .ok fs') : Grown root t fs' := by
  rw [pwriteAll] at h
  split at h
  · rw [← Except.ok.inj h]
    exact .refl root t
  · split at h
    · cases h
    · exact pwrite_grown hBelow h

theorem ftruncateTo_grown {fd : Ino} {size : Nat} {t : FileSystem} (hBelow : Below t root fd)
    (h : ftruncateTo proc t fd size = .ok fs') : Grown root t fs' := by
  rw [ftruncateTo] at h
  split at h
  · cases h
  · exact ftruncate_grown hBelow h

theorem keeps_write : Keeps A fs entry (A.applyWrite index entry) := by
  refine (yields_query (confined_refl _ fs)).bind ?_
  rintro bytes t ⟨-, rfl⟩
  refine (yields_query (confined_refl _ t)).bind ?_
  rintro off t' ⟨-, rfl⟩
  refine keeps_descend fun root parent dst hParent => ?_
  exact keeps_open hParent fun fd t fs' => pwriteAll_grown

theorem keeps_truncate : Keeps A fs entry (A.applyTruncate index entry) := by
  refine (yields_query (confined_refl _ fs)).bind ?_
  rintro n t ⟨-, rfl⟩
  refine keeps_descend fun root parent dst hParent => ?_
  exact keeps_open hParent fun fd t fs' => ftruncateTo_grown

theorem keeps_chmod (hGuard : A.ModeGuard fs entry) : Keeps A fs entry (A.applyChmod index entry) := by
  refine (yields_query (confined_refl _ fs)).bind ?_
  rintro bits t ⟨-, rfl⟩
  refine keeps_descend fun root parent dst hParent => ?_
  refine keeps_callUnit hParent.rootOf fun fs' hCall => ?_
  refine fchmodAt_grown hParent.leaf hParent.below (fun i target hEntry => ?_) hCall
  exact hGuard root i target hParent.opened (hParent.way i hEntry)

theorem keeps_chown : Keeps A fs entry (A.applyChown index entry) := by
  refine (yields_query (confined_refl _ fs)).bind ?_
  rintro owner t ⟨-, rfl⟩
  refine (yields_query (confined_refl _ t)).bind ?_
  rintro uid t' ⟨-, rfl⟩
  refine (yields_query (confined_refl _ t')).bind ?_
  rintro gid t ⟨-, rfl⟩
  refine keeps_descend fun root parent dst hParent => ?_
  refine keeps_callUnit hParent.rootOf fun fs' hCall => ?_
  unfold Applier.permitting at hCall
  split at hCall
  · rw [← Except.ok.inj hCall]
    exact .refl root t
  · exact fchownAt_grown hParent.leaf hParent.below hCall

theorem keeps_unlink {wrap : Errno → ApplierError}
    (hParent : Parent A fs entry.path root parent)
    (h : ∀ fs', f fs = .ok fs' → fs' = fs.unlink parent.dirfd parent.leaf) : Keeps A fs entry (callUnit wrap f) := by
  refine yields_callUnit (fun fs' hCall => ?_) (confined_refl _ fs)
  rw [h fs' hCall]
  refine (confined_unlink hParent.below).mono ?_
  rintro r rfl
  exact hParent.rootOf

theorem keeps_removeFile : Keeps A fs entry (A.applyRemoveFile index entry) := by
  refine keeps_descend fun root parent dst hParent => ?_
  exact keeps_unlink hParent fun fs' => unlinkAt_ok

theorem keeps_removeDir : Keeps A fs entry (A.applyRemoveDir index entry) := by
  refine keeps_descend fun root parent dst hParent => ?_
  exact keeps_unlink hParent fun fs' => rmdirAt_ok

theorem keeps_two {extra : Path} {x : SafeParent × Path → SafeParent × Path → Apply Unit}
    (hExtra : entry.extraPath = some extra)
    (h : ∀ root root' source dest fromDst toDst, Parent A fs entry.path root source → Parent A fs extra root' dest →
      A.RootOf fs entry root' → Keeps A fs entry (x (source, fromDst) (dest, toDst))) :
    Keeps A fs entry (query (fun fs => A.descendEntry fs index entry.path) >>= fun source =>
      query (fun fs => A.descendEntry fs index extra) >>= x source) := by
  refine keeps_descend fun root source fromDst hSource => ?_
  refine (yields_query (confined_refl _ fs)).bind ?_
  rintro ⟨dest, toDst⟩ t ⟨hDest, rfl⟩
  obtain ⟨root', hTo⟩ := descendEntry_ok hDest
  exact h root root' source dest fromDst toDst hSource hTo ⟨extra, .inr hExtra, hTo.opened⟩

theorem yields_okOr {α : Type} {x : Option α} {e : ApplierError} {failed : FileSystem → Prop} (hFailed : failed fs) :
    Yields (okOr x e) fs (fun a t => x = some a ∧ t = fs) failed := by
  refine .query (fun a h => ⟨?_, rfl⟩) hFailed
  cases x with
  | none => cases h
  | some b => exact congrArg some (Except.ok.inj h)

theorem keeps_rename : Keeps A fs entry (A.applyRename index entry) := by
  refine (yields_okOr (confined_refl _ fs)).bind ?_
  rintro extra t ⟨hExtra, rfl⟩
  refine keeps_two hExtra fun root root' source dest fromDst toDst hSource hDest hRoot' => ?_
  refine yields_callUnit (fun fs' hCall => ?_) (confined_refl _ t)
  exact renameAt_confined hSource.rootOf hRoot' hSource.leaf hSource.below hDest.below hCall

theorem copyLoop_grown {fromFd toFd : Ino} (rounds off : Nat) (hBelow : Below fs root toFd) :
    Yields (copyLoop proc fromFd toFd rounds off) fs (fun _ => Grown root fs) (Grown root fs) := by
  induction rounds generalizing fs off with
  | zero => exact .refl root fs
  | succ rounds ih =>
    refine (yields_query (.refl root fs)).bind ?_
    rintro buf t ⟨-, rfl⟩
    split
    · exact .refl root t
    · have hWrite : Yields (update fun fs => (pwrite proc fs toFd buf off).map ((), ·)) t (fun _ => Grown root t)
          (Grown root t) := by
        refine .update (fun a t' h => ?_) (.refl root t)
        cases hf : pwrite proc t toFd buf off with
        | error e => simp [hf, Except.map] at h
        | ok t'' =>
          rw [hf] at h
          obtain rfl := (Prod.mk.inj (Except.ok.inj h)).2
          exact pwrite_grown hBelow hf
      refine hWrite.bind fun _ t' hGrown => ?_
      exact (ih _ (hGrown.extends_.below hBelow)).imp (fun _ _ => hGrown.trans) fun _ => hGrown.trans

theorem copyAt_grown {source dest : SafeParent} (hBelow : Below fs root dest.dirfd)
    (hLeaf : dest.leaf ≠ dotdot) :
    Yields (copyAt proc source dest) fs (fun _ => Grown root fs) (Grown root fs) := by
  refine (yields_query (.refl root fs)).bind ?_
  rintro ⟨fromFd, -⟩ t ⟨-, rfl⟩
  refine (Yields.update (fun toFd t' hOpen => openAt_grown hLeaf hBelow hOpen) (.refl root t)).bind ?_
  intro toFd t' hOpened
  obtain ⟨hGrown, hFile⟩ := hOpened
  refine (yields_query hGrown).bind ?_
  rintro size t'' ⟨-, rfl⟩
  exact (copyLoop_grown _ _ hFile).imp (fun _ _ => hGrown.trans) fun _ => hGrown.trans

theorem keeps_copyFile : Keeps A fs entry (A.applyCopyFile index entry) := by
  refine (yields_okOr (confined_refl _ fs)).bind ?_
  rintro extra t ⟨hExtra, rfl⟩
  refine keeps_two hExtra fun root root' source dest fromDst toDst hSource hDest hRoot' => ?_
  refine ((copyAt_grown hDest.below hDest.leaf).imp (fun _ t' hGrown => ?_) fun t' hGrown => ?_).adapt
  · exact Grown.confinedTo hGrown hRoot'
  · exact Grown.confinedTo hGrown hRoot'

theorem createDirAll_grown {absolute : Bool} {before names reversed rest : List Name}
    (hStart : walk fs maxLinks (if absolute then top else proc.cwd) before = .ok root) (hPlain : Plain fs root names)
    (hPath : reversed.reverse ++ rest = before ++ names) :
    Grown root fs (final ((createDirAll proc absolute reversed).run fs)) := by
  induction reversed generalizing rest with
  | nil => exact Grown.refl root fs
  | cons name parents ih =>
    have hMkdir : ∀ t t', Grown root fs t →
        mkdir proc t ⟨absolute, (name :: parents).reverse⟩ 0o777 = .ok t' → Grown root fs t' := by
      intro t t' hGrown hOk
      refine hGrown.trans (mkdir_grown ?_ (hGrown.extends_.plain hPlain) hPath hOk)
      exact hGrown.extends_.walk hStart
    have hParents : Grown root fs (final (createDirAll proc absolute parents fs)) := by
      rw [List.reverse_cons, List.append_assoc] at hPath
      exact ih hPath
    change Grown root fs (final (createDirAll proc absolute (name :: parents) fs))
    rw [createDirAll]
    split
    next t hFirst => exact hMkdir fs t (.refl root fs) hFirst
    · split
      next e t hFailed =>
        rw [hFailed] at hParents
        exact hParents
      next t hMade =>
        rw [hMade] at hParents
        split
        next t' hSecond => exact hMkdir t t' hParents hSecond
        · split <;> exact hParents
    · split <;> exact Grown.refl root fs

theorem keeps_mkdirParents {bits : UInt32} (hGuard : A.ParentsGuard fs entry) :
    Keeps A fs entry (A.applyMkdirParents index entry bits) := by
  obtain ⟨hRelative, root, hOpen, hPlain⟩ := hGuard
  have hRoot : A.RootOf fs entry root := ⟨entry.path, .inl rfl, hOpen⟩
  have hJoin : join (A.pathMap entry.path).root (A.pathMap entry.path).rel =
      ⟨(A.pathMap entry.path).root.absolute, (A.pathMap entry.path).root.segments ++ (A.pathMap entry.path).rel.segments⟩ := by
    rw [join, hRelative]
    rfl
  have hStart := walk_of_openDir hOpen
  have hPath : ∀ segments : List Name, segments.reverse.reverse ++ [] = segments := by simp
  refine (yields_query (confined_refl _ fs)).bind ?_
  rintro - t ⟨-, rfl⟩
  refine (yields_query (confined_refl _ t)).bind ?_
  rintro - t' ⟨-, rfl⟩
  rw [hJoin]
  have hMade := createDirAll_grown hStart hPlain (hPath _)
  refine ((Yields.of_final hMade).imp (fun _ _ h => h) fun _ h => Grown.confinedTo h hRoot).adapt.bind ?_
  intro _ t'' hGrown
  refine yields_callUnit (fun fs' hCall => ?_) (Grown.confinedTo hGrown hRoot)
  refine Grown.confinedTo (hGrown.trans ?_) hRoot
  refine chmod_grown ?_ (hGrown.extends_.plain hPlain) rfl hCall
  exact hGrown.extends_.walk hStart

theorem keeps_mkdirAt {bits : UInt32} : Keeps A fs entry (A.applyMkdirAt index entry bits) := by
  refine keeps_descend fun root parent dst hParent => ?_
  exact keeps_callUnit hParent.rootOf fun fs' hCall => mkdirAt_grown hParent.leaf hParent.below hCall

theorem keeps_mkdir (hGuard : entry.length = some 1 → A.ParentsGuard fs entry) :
    Keeps A fs entry (A.applyMkdir index entry) := by
  refine (yields_query (confined_refl _ fs)).bind ?_
  rintro bits t ⟨-, rfl⟩
  split
  next hParents => exact keeps_mkdirParents (hGuard hParents)
  · exact keeps_mkdirAt

theorem keeps_entry (index : Nat) (hGuard : A.Guarded fs entry) : Keeps A fs entry (A.applyEntry index entry) := by
  rw [Applier.applyEntry]
  cases hOutcome : entry.outcome with
  | failure code => exact keeps_pure
  | success =>
    simp only
    rw [Applier.applyOp]
    cases hOp : entry.op with
    | write => exact keeps_write
    | writeAt => exact keeps_write
    | truncate => exact keeps_truncate
    | chmod => exact keeps_chmod (hGuard.chmod hOutcome hOp)
    | chown => exact keeps_chown
    | removeFile => exact keeps_removeFile
    | removeDir => exact keeps_removeDir
    | rename => exact keeps_rename
    | copyFile => exact keeps_copyFile
    | mkdir => exact keeps_mkdir (hGuard.parents hOutcome hOp)
    | read => exact keeps_pure
    | readAt => exact keeps_pure
    | stat => exact keeps_pure
    | entries => exact keeps_pure
    | size => exact keeps_pure
    | entriesStreamNext => exact keeps_pure
    | exist => exact keeps_pure

end

section

variable {A : Applier}

theorem exists_applied_of_changed (wal : List WalEntry) (index : Nat) (fs : FileSystem) (j : Ino)
    (h : (final ((A.applyWalFrom index wal).run fs)).inodes j ≠ fs.inodes j) :
    ∃ s ∈ A.trace index wal fs, s.after.inodes j ≠ s.before.inodes j := by
  induction wal generalizing index fs with
  | nil => exact absurd rfl h
  | cons entry rest ih =>
    rw [Applier.applyWalFrom, EStateM.run_bind] at h
    rw [Applier.trace]
    cases hRun : (A.applyEntry index entry).run fs with
    | error e t =>
      rw [hRun] at h
      exact ⟨⟨entry, fs, t⟩, List.mem_singleton_self _, h⟩
    | ok a t =>
      rw [hRun] at h
      by_cases hSame : t.inodes j = fs.inodes j
      · obtain ⟨s, hMem, hChanged⟩ := ih (index + 1) t (by rw [hSame]; exact h)
        exact ⟨s, List.mem_cons_of_mem _ hMem, hChanged⟩
      · exact ⟨⟨entry, fs, t⟩, List.mem_cons_self, hSame⟩

theorem confined_of_mem_trace (wal : List WalEntry) (index : Nat) (fs : FileSystem)
    (hGuard : ∀ s ∈ A.trace index wal fs, A.Guarded s.before s.entry) :
    ∀ s ∈ A.trace index wal fs, Confined (A.RootOf s.before s.entry) s.before s.after := by
  induction wal generalizing index fs with
  | nil => exact fun s hs => absurd hs List.not_mem_nil
  | cons entry rest ih =>
    rw [Applier.trace] at hGuard ⊢
    cases hRun : (A.applyEntry index entry).run fs with
    | error e t =>
      rw [hRun] at hGuard
      have hEntry := (keeps_entry index (hGuard _ (List.mem_singleton_self _))).final
      intro s hs
      obtain rfl := List.mem_singleton.mp hs
      rw [hRun] at hEntry
      exact hEntry
    | ok a t =>
      rw [hRun] at hGuard
      obtain ⟨hHead, hTail⟩ := List.forall_mem_cons.mp hGuard
      have hEntry := (keeps_entry index hHead).final
      rw [hRun] at hEntry
      exact List.forall_mem_cons.mpr ⟨hEntry, ih (index + 1) t hTail⟩

variable (A) in
/-- Where no `chmod` names a link and no recursive `mkdir` meets one or leaves its root, all that the run touches lies
inside the root of the entry, on a way without links. -/
theorem applyWal_confined (wal : List WalEntry) (fs : FileSystem)
    (hGuard : ∀ s ∈ A.trace 0 wal fs, A.Guarded s.before s.entry) :
    (∀ s ∈ A.trace 0 wal fs, Confined (A.RootOf s.before s.entry) s.before s.after) ∧
      ∀ j, (final ((A.applyWalToFreshTree wal).run fs)).inodes j ≠ fs.inodes j →
        ∃ s ∈ A.trace 0 wal fs, s.after.inodes j ≠ s.before.inodes j ∧
          ∃ root, A.RootOf s.before s.entry root ∧
            (Below s.before root j ∨ s.before.inodes j = none ∧ Below s.after root j) := by
  have hConfined := confined_of_mem_trace wal 0 fs hGuard
  refine ⟨hConfined, fun j hj => ?_⟩
  obtain ⟨s, hMem, hChanged⟩ := exists_applied_of_changed wal 0 fs j hj
  exact ⟨s, hMem, hChanged, (hConfined s hMem).changed j hChanged⟩

end

def openProcess : Process where
  cwd := top
  umask := 0o022
  uid := 0
  gid := 0
  maxFileSize := 1024
  permits _ _ _ _ := true
  mayChmod _ := true
  mayChown _ _ _ := true

/-- A machine on which every path is below `/r`. -/
def rootedAt (rel : Path) : Applier where
  host := ⟨openProcess, fun i => (0, i), id, fun _ => "", fun _ => .ok none, fun _ => .ok none⟩
  payloadBytes _ := none
  pathMap _ := ⟨⟨true, [[114]]⟩, rel, none⟩
  allowedRoots := []

def chmodEntry : WalEntry where
  op := .chmod
  path := ⟨true, [[114], [115]]⟩
  extraPath := none
  offset := none
  length := none
  payloadRef := none
  modeBits := some 0o777
  owner := none
  group := none
  outcome := .success

/-- The root `/r` with the link `s` to the file `/o` beside it. -/
def linkedTree : FileSystem :=
  .ofList
    [⟨.directory 0 ((AList.singleton [114] 1).insert [111] 2), 0o755, 0, 0⟩,
      ⟨.directory 0 (AList.singleton [115] 3), 0o755, 0, 0⟩,
      ⟨.file [], 0o600, 0, 0⟩,
      ⟨.symlink ⟨true, [[111]]⟩, 0o777, 0, 0⟩] (by decide)

theorem openDir_linkedTree {root : Ino} (h : openDir linkedTree top ⟨true, [[114]]⟩ = .ok root) : root = 1 :=
  (Except.ok.inj h).symm

theorem lookup_linkedRoot {name : Name} {i : Ino} (h : lookup linkedTree 1 name = some i) : name = [115] ∧ i = 3 := by
  have hEntry : (AList.singleton [115] 3 : AList fun _ : Name => Ino).lookup name = some i := h
  have hMem := AList.mem_lookup_iff.mp hEntry
  simpa [AList.singleton] using hMem

theorem below_linkedTree {i : Ino} (h : Below linkedTree 1 i) : i = 1 ∨ i = 3 := by
  obtain ⟨names, -, hWay⟩ := h
  cases names with
  | nil => exact .inl (Option.some.inj hWay).symm
  | cons name rest =>
    obtain ⟨j, hEntry, hRest⟩ := Option.bind_eq_some_iff.mp hWay
    obtain ⟨-, rfl⟩ := lookup_linkedRoot hEntry
    cases rest with
    | nil => exact .inr (Option.some.inj hRest).symm
    | cons other rest => cases hRest

/-- The mode of the file outside is changed through the link. -/
theorem chmod_leaves_root :
    ¬ ∀ s ∈ (rootedAt ⟨false, [[115]]⟩).trace 0 [chmodEntry] linkedTree,
      Confined ((rootedAt ⟨false, [[115]]⟩).RootOf s.before s.entry) s.before s.after := by
  intro h
  have hRun : ((rootedAt ⟨false, [[115]]⟩).applyEntry 0 chmodEntry).run linkedTree =
      .ok () (linkedTree.setMode 2 0o777) := rfl
  rw [Applier.trace, hRun] at h
  obtain ⟨hStep, -⟩ := List.forall_mem_cons.mp h
  have hMode : (linkedTree.setMode 2 0o777).inodes 2 ≠ linkedTree.inodes 2 := by
    intro hSame
    have hBits : some (0o777 : UInt32) = some 0o600 := congrArg (Option.map Inode.mode) hSame
    exact absurd hBits (by decide)
  obtain ⟨root, ⟨path, -, hOpen⟩, hBelow | ⟨hNone, -⟩⟩ := hStep.changed 2 hMode
  · obtain rfl := openDir_linkedTree hOpen
    exact absurd (below_linkedTree hBelow) (by decide)
  · cases hNone

def mkdirEntry : WalEntry := { chmodEntry with op := .mkdir, length := some 1 }

/-- A recursive `mkdir` of `/r/d/e` beside the link. -/
theorem mkdir_confined :
    (∀ s ∈ (rootedAt ⟨false, [[100], [101]]⟩).trace 0 [mkdirEntry] linkedTree,
      (rootedAt ⟨false, [[100], [101]]⟩).Guarded s.before s.entry) ∧
    (∀ s ∈ (rootedAt ⟨false, [[100], [101]]⟩).trace 0 [mkdirEntry] linkedTree,
      Confined ((rootedAt ⟨false, [[100], [101]]⟩).RootOf s.before s.entry) s.before s.after) := by
  have hPlain : Plain linkedTree 1 [[100], [101]] := by
    refine ⟨by decide, fun i target hReached hLink => ?_⟩
    obtain ⟨k, hk⟩ := hReached
    cases k with
    | zero =>
      obtain rfl := Option.some.inj hk
      cases hLink
    | succ k =>
      obtain ⟨j, hEntry, -⟩ := Option.bind_eq_some_iff.mp hk
      exact absurd (lookup_linkedRoot hEntry).1 (by decide)
  have hGuard : ∀ s ∈ (rootedAt ⟨false, [[100], [101]]⟩).trace 0 [mkdirEntry] linkedTree,
      (rootedAt ⟨false, [[100], [101]]⟩).Guarded s.before s.entry := by
    intro s hs
    have hStep : s.entry = mkdirEntry ∧ s.before = linkedTree := by
      rw [Applier.trace] at hs
      split at hs
      · obtain rfl := List.mem_singleton.mp hs
        exact ⟨rfl, rfl⟩
      · obtain rfl := List.mem_singleton.mp hs
        exact ⟨rfl, rfl⟩
    rw [hStep.1, hStep.2]
    exact ⟨fun _ hOp => absurd hOp (by decide), fun _ _ _ => ⟨rfl, 1, rfl, hPlain⟩⟩
  exact ⟨hGuard, (applyWal_confined _ _ _ hGuard).1⟩

end F1r3Node.FileIo
