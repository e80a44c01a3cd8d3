import Mathlib.Data.List.AList

/-! # A file system

Inodes hold regular files, directories and symbolic links. The calls that work relative to an open directory take a
single name, and each of them has its own rule for a link under that name.
-/

namespace F1r3Node.Lib.Posix

abbrev Name := List UInt8

abbrev Ino := Nat

inductive Errno where
  | perm
  | noent
  | badf
  | acces
  | exist
  | notdir
  | isdir
  | inval
  | fbig
  | loop
  | notempty
  deriving DecidableEq

/-- What stands between the slashes, without empty and `.` segments; a path that is not absolute starts at the working
directory. -/
structure Path where
  absolute : Bool
  segments : List Name
  deriving DecidableEq

inductive Object where
  | file (content : List UInt8)
  | directory (parent : Ino) (entries : AList fun _ : Name => Ino)
  | symlink (target : Path)

structure Inode where
  object : Object
  mode : UInt32
  uid : UInt32
  gid : UInt32

def Object.Links (object : Object) (i : Ino) : Prop :=
  match object with
  | .directory parent entries => i = parent ∨ ∃ name, entries.lookup name = some i
  | _ => False

/-- The numbers from `next` on are neither used nor named by a directory. -/
structure FileSystem where
  inodes : Ino → Option Inode
  next : Ino
  fresh : ∀ i, next ≤ i → inodes i = none
  closed : ∀ d inode, inodes d = some inode → ∀ i, inode.object.Links i → i < next

def Object.targets : Object → List Ino
  | .directory parent entries => parent :: entries.entries.map Sigma.snd
  | _ => []

theorem Object.Links.mem_targets {object : Object} {i : Ino} (h : object.Links i) : i ∈ object.targets := by
  cases object with
  | file content => exact h.elim
  | symlink target => exact h.elim
  | directory parent entries =>
    obtain rfl | ⟨name, hLookup⟩ := h
    · exact List.mem_cons_self
    · exact List.mem_cons_of_mem _ (List.mem_map.mpr ⟨⟨name, i⟩, AList.mem_lookup_iff.mp hLookup, rfl⟩)

def FileSystem.ofList (inodes : List Inode)
    (h : ∀ inode ∈ inodes, ∀ i ∈ inode.object.targets, i < inodes.length) : FileSystem where
  inodes i := inodes[i]?
  next := inodes.length
  fresh _ hi := List.getElem?_eq_none hi
  closed _ inode hInode i hLinks := h inode (List.mem_of_getElem? hInode) i hLinks.mem_targets

def top : Ino := 0

namespace FileSystem

variable (fs : FileSystem)

def object (i : Ino) : Option Object := (fs.inodes i).map Inode.object

def modify (i : Ino) (f : Inode → Inode) (hf : ∀ inode j, (f inode).object.Links j → inode.object.Links j ∨ j < fs.next) :
    FileSystem where
  inodes j := if j = i then (fs.inodes j).map f else fs.inodes j
  next := fs.next
  fresh j hj := by rw [fs.fresh j hj]; simp
  closed d inode hInode j hj := by
    split at hInode
    · obtain ⟨old, hOld, rfl⟩ := Option.map_eq_some_iff.mp hInode
      exact (hf old j hj).elim (fs.closed d old hOld j) id
    · exact fs.closed d inode hInode j hj

def create (inode : Inode) (hInode : ∀ j, inode.object.Links j → j < fs.next) : FileSystem where
  inodes := Function.update fs.inodes fs.next (some inode)
  next := fs.next + 1
  fresh j hj := by
    rw [Function.update_of_ne (Nat.ne_of_gt (Nat.lt_of_succ_le hj))]
    exact fs.fresh j (Nat.le_of_succ_le hj)
  closed d old hOld j hj := by
    obtain rfl | hNe := eq_or_ne d fs.next
    · rw [Function.update_self] at hOld
      obtain rfl := Option.some.inj hOld
      exact Nat.lt_succ_of_lt (hInode j hj)
    · rw [Function.update_of_ne hNe] at hOld
      exact Nat.lt_succ_of_lt (fs.closed d old hOld j hj)

end FileSystem

def Object.setContent (content : List UInt8) : Object → Object
  | .file _ => .file content
  | object => object

def Object.insertEntry (name : Name) (i : Ino) : Object → Object
  | .directory parent entries => .directory parent (entries.insert name i)
  | object => object

def Object.eraseEntry (name : Name) : Object → Object
  | .directory parent entries => .directory parent (entries.erase name)
  | object => object

def Object.setParent (parent : Ino) : Object → Object
  | .directory _ entries => .directory parent entries
  | object => object

namespace Object.Links

variable {object : Object} {j : Ino}

theorem of_setContent {content : List UInt8} (h : (object.setContent content).Links j) : object.Links j := by
  cases object with
  | file old => exact h
  | directory parent entries => exact h
  | symlink target => exact h

theorem of_insertEntry {name : Name} {i : Ino} (h : (object.insertEntry name i).Links j) : object.Links j ∨ j = i := by
  cases object with
  | file old => exact .inl h
  | symlink target => exact .inl h
  | directory parent entries =>
    obtain rfl | ⟨name', hLookup⟩ := h
    · exact .inl (.inl rfl)
    · obtain rfl | hNe := eq_or_ne name' name
      · rw [AList.lookup_insert] at hLookup
        exact .inr (Option.some.inj hLookup).symm
      · rw [AList.lookup_insert_ne hNe] at hLookup
        exact .inl (.inr ⟨name', hLookup⟩)

theorem of_eraseEntry {name : Name} (h : (object.eraseEntry name).Links j) : object.Links j := by
  cases object with
  | file old => exact h
  | symlink target => exact h
  | directory parent entries =>
    obtain rfl | ⟨name', hLookup⟩ := h
    · exact .inl rfl
    · obtain rfl | hNe := eq_or_ne name' name
      · rw [AList.lookup_erase] at hLookup
        cases hLookup
      · rw [AList.lookup_erase_ne hNe] at hLookup
        exact .inr ⟨name', hLookup⟩

theorem of_setParent {parent : Ino} (h : (object.setParent parent).Links j) : object.Links j ∨ j = parent := by
  cases object with
  | file old => exact .inl h
  | symlink target => exact .inl h
  | directory old entries =>
    obtain rfl | hEntry := h
    · exact .inr rfl
    · exact .inl (.inr hEntry)

end Object.Links

namespace FileSystem

variable (fs : FileSystem)

def setContent (i : Ino) (content : List UInt8) : FileSystem :=
  fs.modify i (fun inode => { inode with object := inode.object.setContent content }) fun _ _ h => .inl h.of_setContent

def setMode (i : Ino) (mode : UInt32) : FileSystem := fs.modify i (fun inode => { inode with mode }) fun _ _ h => .inl h

def setOwner (i : Ino) (uid gid : UInt32) : FileSystem :=
  fs.modify i (fun inode => { inode with uid, gid }) fun _ _ h => .inl h

def link (dir : Ino) (name : Name) (i : Ino) : FileSystem :=
  if hi : i < fs.next then
    fs.modify dir (fun inode => { inode with object := inode.object.insertEntry name i }) fun inode j hj => by
      obtain hOld | rfl := Object.Links.of_insertEntry hj
      · exact .inl hOld
      · exact .inr hi
  else fs

def unlink (dir : Ino) (name : Name) : FileSystem :=
  fs.modify dir (fun inode => { inode with object := inode.object.eraseEntry name }) fun _ _ h => .inl h.of_eraseEntry

def moveUnder (i dir : Ino) : FileSystem :=
  if hDir : dir < fs.next then
    fs.modify i (fun inode => { inode with object := inode.object.setParent dir }) fun inode j hj => by
      obtain hOld | rfl := Object.Links.of_setParent hj
      · exact .inl hOld
      · exact .inr hDir
  else fs

def add (dir : Ino) (name : Name) (inode : Inode) (hInode : ∀ j, inode.object.Links j → j < fs.next) : FileSystem :=
  (fs.create inode hInode).link dir name fs.next

def createFile (dir : Ino) (name : Name) (mode uid gid : UInt32) : FileSystem :=
  fs.add dir name ⟨.file [], mode, uid, gid⟩ nofun

end FileSystem

def dotdot : Name := [46, 46]

section

variable (fs : FileSystem)

def step (dir : Ino) (name : Name) : Except Errno Ino :=
  match fs.object dir with
  | none => .error .noent
  | some (.directory parent entries) =>
    if name = dotdot then .ok parent
    else match entries.lookup name with
      | some i => .ok i
      | none => .error .noent
  | some _ => .error .notdir

/-- The segments from a directory on; a link is left to `follow`, with what comes after it. -/
def walkFrom (follow : Ino → List Name → Except Errno Ino) : Ino → List Name → Except Errno Ino
  | cur, [] => .ok cur
  | cur, name :: rest =>
    match step fs cur name with
    | .error e => .error e
    | .ok i =>
      match fs.object i with
      | some (.symlink target) => follow (if target.absolute then top else cur) (target.segments ++ rest)
      | _ => walkFrom follow i rest

def walk : Nat → Ino → List Name → Except Errno Ino
  | 0 => walkFrom fs fun _ _ => .error .loop
  | links + 1 => walkFrom fs (walk links)

def maxLinks : Nat := 40

def startOf (cwd : Ino) (path : Path) : Ino := if path.absolute then top else cwd

def resolve (cwd : Ino) (path : Path) : Except Errno Ino :=
  if path.absolute = false ∧ path.segments = [] then .error .noent
  else walk fs maxLinks (startOf cwd path) path.segments

def openDirAt (dir : Ino) (name : Name) : Except Errno Ino :=
  match step fs dir name with
  | .error e => .error e
  | .ok i =>
    match fs.object i with
    | some (.directory ..) => .ok i
    | some (.symlink _) => .error .loop
    | _ => .error .notdir

def openDir (cwd : Ino) (path : Path) : Except Errno Ino :=
  match path.segments.getLast? with
  | none => if path.absolute then .ok top else .error .noent
  | some name => do
    let dir ← walk fs maxLinks (startOf cwd path) path.segments.dropLast
    openDirAt fs dir name

def isDirectory (i : Ino) : Bool :=
  match fs.object i with
  | some (.directory ..) => true
  | _ => false

end

inductive Access where
  | read
  | write
  | readWrite
  deriving DecidableEq

structure OpenFlags where
  access : Access
  create : Bool
  excl : Bool
  trunc : Bool
  append : Bool
  deriving DecidableEq

structure Process where
  cwd : Ino
  umask : UInt32
  uid : UInt32
  gid : UInt32
  maxFileSize : Nat
  permits : (mode uid gid : UInt32) → Access → Bool
  mayChmod : Inode → Bool
  mayChown : Inode → UInt32 → UInt32 → Bool

section

variable (proc : Process) (fs : FileSystem)

/-- `openat` with `O_NOFOLLOW`. -/
def openAt (dir : Ino) (name : Name) (flags : OpenFlags) (mode : UInt32) : Except Errno (Ino × FileSystem) :=
  match step fs dir name with
  | .error .noent =>
    if flags.create ∧ isDirectory fs dir then
      .ok (fs.next, fs.createFile dir name (mode &&& 0o7777 &&& ~~~proc.umask) proc.uid proc.gid)
    else .error .noent
  | .error e => .error e
  | .ok i =>
    match fs.inodes i with
    | none => .error .noent
    | some inode =>
      if flags.create ∧ flags.excl then .error .exist
      else match inode.object with
        | .symlink _ => .error .loop
        | .directory .. => if flags.access = .read ∧ ¬ flags.create then .ok (i, fs) else .error .isdir
        | .file _ =>
          if proc.permits inode.mode inode.uid inode.gid flags.access then .ok (i, if flags.trunc then fs.setContent i [] else fs)
          else .error .acces

def overwrite (content : List UInt8) (off : Nat) (bytes : List UInt8) : List UInt8 :=
  content.take off ++ List.replicate (off - content.length) 0 ++ bytes ++ content.drop (off + bytes.length)

def pwrite (i : Ino) (bytes : List UInt8) (off : Nat) : Except Errno FileSystem :=
  match fs.object i with
  | some (.file content) =>
    if bytes = [] then .ok fs
    else if proc.maxFileSize < off + bytes.length then .error .fbig
    else .ok (fs.setContent i (overwrite content off bytes))
  | _ => .error .badf

def ftruncate (i : Ino) (size : Nat) : Except Errno FileSystem :=
  match fs.object i with
  | some (.file content) =>
    if proc.maxFileSize < size then .error .fbig
    else .ok (fs.setContent i (content.take size ++ List.replicate (size - content.length) 0))
  | _ => .error .inval

end

section

variable (proc : Process) (fs : FileSystem)

def changeMode (i : Ino) (mode : UInt32) : Except Errno FileSystem :=
  match fs.inodes i with
  | none => .error .noent
  | some inode => if proc.mayChmod inode then .ok (fs.setMode i (mode &&& 0o7777)) else .error .perm

/-- `fchmodat` without a flag: a link is followed. -/
def fchmodAt (dir : Ino) (name : Name) (mode : UInt32) : Except Errno FileSystem := do
  let i ← walk fs maxLinks dir [name]
  changeMode proc fs i mode

def unchanged : UInt32 := 0xFFFFFFFF

/-- `fchownat` with `AT_SYMLINK_NOFOLLOW`. -/
def fchownAt (dir : Ino) (name : Name) (uid gid : UInt32) : Except Errno FileSystem := do
  let i ← step fs dir name
  match fs.inodes i with
  | none => .error .noent
  | some inode =>
    if proc.mayChown inode uid gid then
      .ok (fs.setOwner i (if uid = unchanged then inode.uid else uid) (if gid = unchanged then inode.gid else gid))
    else .error .perm

def unlinkAt (dir : Ino) (name : Name) : Except Errno FileSystem := do
  let i ← step fs dir name
  if isDirectory fs i then .error .isdir else .ok (fs.unlink dir name)

def isEmptyDirectory (i : Ino) : Bool :=
  match fs.object i with
  | some (.directory _ entries) => entries.keys = []
  | _ => false

/-- `unlinkat` with `AT_REMOVEDIR`. -/
def rmdirAt (dir : Ino) (name : Name) : Except Errno FileSystem := do
  let i ← step fs dir name
  if ¬ isDirectory fs i then .error .notdir
  else if ¬ isEmptyDirectory fs i then .error .notempty
  else .ok (fs.unlink dir name)

def mkdirAt (dir : Ino) (name : Name) (mode : UInt32) : Except Errno FileSystem :=
  match step fs dir name with
  | .ok _ => .error .exist
  | .error .noent =>
    if hDir : dir < fs.next ∧ isDirectory fs dir then
      .ok (fs.add dir name ⟨.directory dir ∅, mode &&& 0o1777 &&& ~~~proc.umask, proc.uid, proc.gid⟩ fun j hj => by
        obtain rfl | ⟨name', hLookup⟩ := hj
        · exact hDir.1
        · cases hLookup)
    else .error .noent
  | .error e => .error e

def isAbove (i : Ino) : Nat → Ino → Bool
  | 0, _ => false
  | steps + 1, dir =>
    if dir = i then true
    else match fs.object dir with
      | some (.directory parent _) => if parent = dir then false else isAbove i steps parent
      | _ => false

/-- What stands under the new name must be of the same kind, and a directory there must be empty. -/
def mayReplace (i j : Ino) : Except Errno Unit :=
  if isDirectory fs i then
    if ¬ isDirectory fs j then .error .notdir
    else if ¬ isEmptyDirectory fs j then .error .notempty
    else .ok ()
  else if isDirectory fs j then .error .isdir else .ok ()

def renameAt (fromDir : Ino) (fromName : Name) (toDir : Ino) (toName : Name) : Except Errno FileSystem := do
  let i ← step fs fromDir fromName
  if isDirectory fs i ∧ isAbove fs i fs.next toDir then .error .inval
  else
    let moved := ((fs.unlink fromDir fromName).link toDir toName i).moveUnder i toDir
    match step fs toDir toName with
    | .error .noent => if isDirectory fs toDir then .ok moved else .error .noent
    | .error e => .error e
    | .ok j =>
      -- two names of one file: nothing is done
      if i = j then .ok fs
      else do
        mayReplace fs i j
        .ok moved

/-- `mkdir` of a path: the links before its last segment are followed. -/
def mkdir (path : Path) (mode : UInt32) : Except Errno FileSystem :=
  match path.segments.getLast? with
  | none => if path.absolute then .error .exist else .error .noent
  | some name => do
    let dir ← walk fs maxLinks (startOf proc.cwd path) path.segments.dropLast
    mkdirAt proc fs dir name mode

/-- `chmod` of a path: every link is followed. -/
def chmod (path : Path) (mode : UInt32) : Except Errno FileSystem := do
  let i ← resolve fs proc.cwd path
  changeMode proc fs i mode

def isDir (path : Path) : Bool :=
  match resolve fs proc.cwd path with
  | .ok i => isDirectory fs i
  | .error _ => false

end

end F1r3Node.Lib.Posix
