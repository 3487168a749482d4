import TokimoKvm.TableProofs
import TokimoKvm.VfsCore

/-! # The host operating system

    `HostCalls` is what `HostFs` asks of the host: the calls of `tokio::fs`
    and `std::fs` it makes, over any host state.  `posix` is the POSIX host
    with Linux's choices: a tree of directories, files and symbolic links
    with any target, path resolution that follows links and counts them, and
    calls that differ in how they treat the last component of a path.

    Every object has an identity that it keeps when it is renamed, and the
    state notes the location of each object a successful call acted on.  The
    mode of an object is the host's to choose, and its set-id bits go when the
    file gets new contents.

    Left out are permissions, disks without room, the limits on the length of
    a path and of a name (`PATH_MAX`, `NAME_MAX`), the limit of a file system
    on offsets, ACLs, and groups (the files are in the process's group).  A
    host that has them refuses calls that succeed here.  Such a refusal is
    mostly one more failure, but not always: where `canonicalize` fails for a
    parent that is there, `resolve` lets the path through unchecked. -/

namespace TokimoHost

open TokimoMachine TokimoBytes TokimoPath TokimoTable TokimoVfsCore

/-! ## The calls -/

/-- The kinds of error `map_io` tells apart. -/
inductive IoErrorKind where
  | notFound
  | permissionDenied
  | alreadyExists
  | other
  deriving DecidableEq, Repr

/-- A `std::io::Error`, by its kind and its text. -/
structure IoError where
  kind : IoErrorKind
  text : String
  deriving DecidableEq, Repr

/-- The options of `OpenOptions` that `HostFs` sets. -/
structure OpenOptions where
  write : Bool
  create : Bool
  truncate : Bool
  deriving DecidableEq, Repr

/-- What `symlink_metadata` tells. -/
structure Metadata where
  kind : FsKind
  len : Nat
  mode : Nat
  mtime : Int
  atime : Int
  ctime : Int
  deriving DecidableEq, Repr

/-- The host calls `HostFs` makes, over a host state `S` with open files `F`. -/
structure HostCalls (S F : Type) where
  canonicalize : PathBuf → Eff S IoError PathBuf
  symlinkMetadata : PathBuf → Eff S IoError Metadata
  readDir : PathBuf → Eff S IoError (List (Name × FsKind))
  openFile : OpenOptions → PathBuf → Eff S IoError F
  seek : F → UInt64 → Eff S IoError F
  read : F → Nat → Eff S IoError (Bytes × F)
  writeAll : F → Bytes → Eff S IoError F
  setLen : F → UInt64 → Eff S IoError Unit
  createDir : PathBuf → Eff S IoError Unit
  removeFile : PathBuf → Eff S IoError Unit
  removeDir : PathBuf → Eff S IoError Unit
  rename : PathBuf → PathBuf → Eff S IoError Unit

def ENOENT : IoError := ⟨.notFound, "No such file or directory (os error 2)"⟩
def EEXIST : IoError := ⟨.alreadyExists, "File exists (os error 17)"⟩
def EBUSY : IoError := ⟨.other, "Device or resource busy (os error 16)"⟩
def ENOTDIR : IoError := ⟨.other, "Not a directory (os error 20)"⟩
def EISDIR : IoError := ⟨.other, "Is a directory (os error 21)"⟩
def EINVAL : IoError := ⟨.other, "Invalid argument (os error 22)"⟩
def EFBIG : IoError := ⟨.other, "File too large (os error 27)"⟩
def ENOTEMPTY : IoError := ⟨.other, "Directory not empty (os error 39)"⟩
def ELOOP : IoError := ⟨.other, "Too many levels of symbolic links (os error 40)"⟩
/-- The C string of a path cannot hold a NUL byte. -/
def nulInPath : IoError := ⟨.other, "file name contained an unexpected NUL byte"⟩
/-- A length of `set_len` must fit an `off_t`. -/
def lenOutOfRange : IoError :=
  ⟨.other, "out of range integral type conversion attempted"⟩

/-! ## The tree -/

/-- What an object is, with the bytes of a file and the target of a link. -/
inductive Node where
  | file (data : Bytes)
  | dir
  | symlink (target : PathBuf)
  deriving DecidableEq, Repr

def Node.isDir : Node → Bool
  | .dir => true
  | _ => false

def Node.kind : Node → FsKind
  | .file _ => .file
  | .dir => .dir
  | .symlink _ => .symlink

/-- An object of the tree; `id` is its identity. -/
structure Inode where
  id : Nat
  node : Node
  mode : Nat
  mtime : Int
  atime : Int
  ctime : Int
  deriving DecidableEq, Repr

/-- The length of a directory is up to the file system, and is left at zero. -/
def Inode.metadata (i : Inode) : Metadata where
  kind := i.node.kind
  len := match i.node with
    | .file data => data.length
    | .dir => 0
    | .symlink target => target.bytes.length
  mode := i.mode
  mtime := i.mtime
  atime := i.atime
  ctime := i.ctime

/-- The objects of the host by their locations. -/
abbrev Tree := Table Loc Inode

/-- What is at a location. -/
def nodeAt (t : Tree) (l : Loc) : Option Node := (t.get l).map Inode.node

/-! ## Modes -/

/-- The set-user-id bit of a mode. -/
def setUid (m : Nat) : Nat := m / 0o4000 % 2 * 0o4000

/-- The set-group-id bit of a mode. -/
def setGid (m : Nat) : Nat := m / 0o2000 % 2 * 0o2000

/-- A mode without its set-id bits: the type, the sticky bit and the
    permissions. -/
def plainMode (m : Nat) : Nat := m - setUid m - setGid m

/-- What a mode is after a write: the set-user-id bit goes, and the
    set-group-id bit where the group may execute. -/
def stripSetId (m : Nat) : Nat :=
  m - setUid m - (if m / 0o10 % 2 = 1 then setGid m else 0)

/-- The mode of a new directory: the set-group-id bit is inherited. -/
def inheritSetGid (parent m : Nat) : Nat :=
  if setGid parent = 0 then m else m - setGid m + 0o2000

/-- A write leaves the rest of the mode alone. -/
@[simp] theorem plainMode_stripSetId (m : Nat) :
    plainMode (stripSetId m) = plainMode m := by
  unfold plainMode stripSetId setUid setGid
  split <;> omega

@[simp] theorem plainMode_inheritSetGid (parent m : Nat) :
    plainMode (inheritSetGid parent m) = plainMode m := by
  unfold inheritSetGid
  split
  · rfl
  · unfold plainMode setUid setGid
    omega

/-! ## The state of the host -/

/-- The host: its tree, the process's working directory, the next identity,
    the clock, the modes new objects get under the umask, the locations that
    successful calls have acted on, and whether the process may write to a
    file and keep its set-id bits (`CAP_FSETID`). -/
structure HostState where
  tree : Tree
  cwd : Loc
  nextId : Nat
  now : Int
  fileMode : Nat
  dirMode : Nat
  touched : List Loc
  keepsSetId : Bool := false
  deriving DecidableEq, Repr

namespace HostState

/-- Note the locations a call has acted on. -/
def touch (s : HostState) (ls : List Loc) : HostState :=
  { s with touched := s.touched ++ ls }

/-- The host with another tree. -/
def setTree (s : HostState) (t : Tree) : HostState := { s with tree := t }

@[simp] theorem touch_tree (s : HostState) (ls : List Loc) :
    (s.touch ls).tree = s.tree := rfl
@[simp] theorem touch_cwd (s : HostState) (ls : List Loc) :
    (s.touch ls).cwd = s.cwd := rfl
@[simp] theorem touch_touched (s : HostState) (ls : List Loc) :
    (s.touch ls).touched = s.touched ++ ls := rfl
@[simp] theorem setTree_tree (s : HostState) (t : Tree) :
    (s.setTree t).tree = t := rfl
@[simp] theorem setTree_cwd (s : HostState) (t : Tree) :
    (s.setTree t).cwd = s.cwd := rfl
@[simp] theorem setTree_touched (s : HostState) (t : Tree) :
    (s.setTree t).touched = s.touched := rfl

/-- Add a new object at a free location. -/
def addNode (s : HostState) (l : Loc) (node : Node) (mode : Nat) : HostState :=
  { s with
    tree := s.tree.insert l
      { id := s.nextId, node := node, mode := mode,
        mtime := s.now, atime := s.now, ctime := s.now }
    nextId := s.nextId + 1 }

@[simp] theorem addNode_cwd (s : HostState) (l : Loc) (node : Node) (mode : Nat) :
    (s.addNode l node mode).cwd = s.cwd := rfl
@[simp] theorem addNode_touched (s : HostState) (l : Loc) (node : Node)
    (mode : Nat) : (s.addNode l node mode).touched = s.touched := rfl

/-- A file with new contents. -/
def filled (s : HostState) (i : Inode) (data : Bytes) : Inode :=
  { i with
    node := .file data
    mode := if s.keepsSetId then i.mode else stripSetId i.mode
    mtime := s.now
    ctime := s.now }

@[simp] theorem filled_id (s : HostState) (i : Inode) (data : Bytes) :
    (s.filled i data).id = i.id := rfl
@[simp] theorem filled_node (s : HostState) (i : Inode) (data : Bytes) :
    (s.filled i data).node = .file data := rfl
@[simp] theorem filled_atime (s : HostState) (i : Inode) (data : Bytes) :
    (s.filled i data).atime = i.atime := rfl

@[simp] theorem filled_plainMode (s : HostState) (i : Inode) (data : Bytes) :
    plainMode (s.filled i data).mode = plainMode i.mode := by
  rw [filled]
  split
  · rfl
  · exact plainMode_stripSetId i.mode

/-- Give a file new contents. -/
def putData (s : HostState) (l : Loc) (i : Inode) (data : Bytes) : HostState :=
  s.setTree (s.tree.insert l (s.filled i data))

/-- The mode of a new directory in `d`. -/
def newDirMode (s : HostState) (d : Loc) : Nat :=
  inheritSetGid (((s.tree.get d).map Inode.mode).getD 0) s.dirMode

end HostState

/-! ## Path resolution -/

/-- Where a walk ends: at an object, with the number of links it could still
    follow, or at a free place in a directory, with or without slashes behind
    the name. -/
inductive Walked where
  | at (l : Loc) (links : Nat)
  | missing (dir : Loc) (n : Name) (slash : Bool)
  deriving DecidableEq, Repr

/-- Walk the pieces of a path from a directory, with `links` links to spare.
    `jump` goes on behind a symbolic link; the last component is followed
    only on demand. -/
def walkWith (t : Tree) (follow : Bool) (links : Nat)
    (jump : Loc → PathBuf → List Seg → Except IoError Walked) :
    Loc → List Seg → Except IoError Walked
  | dir, [] => .ok (.at dir links)
  | dir, .empty :: rest => walkWith t follow links jump dir rest
  | dir, .cur :: rest => walkWith t follow links jump dir rest
  | dir, .up :: rest => walkWith t follow links jump dir.dropLast rest
  | dir, .name n :: rest =>
      match nodeAt t (dir ++ [n]) with
      | none =>
          if rest.all (· == .empty) then .ok (.missing dir n (!rest.isEmpty))
          else .error ENOENT
      | some .dir => walkWith t follow links jump (dir ++ [n]) rest
      | some (.file _) =>
          if rest.isEmpty then .ok (.at (dir ++ [n]) links) else .error ENOTDIR
      | some (.symlink target) =>
          if rest.isEmpty && !follow then .ok (.at (dir ++ [n]) links)
          else if target.isEmptyStr then .error ENOENT
          else jump dir target rest

/-- Where a path starts: at the root or in the given directory. -/
def startOf (p : PathBuf) (dir : Loc) : Loc := if p.isAbsolute then [] else dir

/-- Walk with at most `k` symbolic links; the pieces of a link's target come
    before the pieces that are left. -/
def walk (t : Tree) (follow : Bool) : Nat → Loc → List Seg → Except IoError Walked
  | 0 => walkWith t follow 0 (fun _ _ _ => .error ELOOP)
  | k + 1 => walkWith t follow (k + 1) (fun dir target rest =>
      walk t follow k (startOf target dir) (target.body ++ rest))

/-- Linux's limit on the links of one resolution. -/
def symloopMax : Nat := 40

/-- Resolve a path string. -/
def lookup (s : HostState) (follow : Bool) (p : PathBuf) : Except IoError Walked :=
  if p.hasNul then .error nulInPath
  else if p.isEmptyStr then .error ENOENT
  else walk s.tree follow symloopMax (startOf p s.cwd) p.body

/-- `realpath`, as a location. -/
def realpath (s : HostState) (p : PathBuf) : Except IoError Loc :=
  match lookup s true p with
  | .ok (.at l _) => .ok l
  | .ok (.missing _ _ _) => .error ENOENT
  | .error e => .error e

/-- The place a call names that makes or removes an entry: a name in a
    directory, or a path that does not end in a name. -/
inductive Parent where
  | entry (dir : Loc) (n : Name) (slash : Bool)
  | dots (last : Seg)
  deriving DecidableEq, Repr

/-- The pieces of a path without the slashes behind the last name. -/
def dropSlashes (l : List Seg) : List Seg :=
  (l.reverse.dropWhile (· == .empty)).reverse

/-- Resolve all but the last name of a path; trailing slashes are noted, and
    the name itself is never followed. -/
def lookupParent (s : HostState) (p : PathBuf) : Except IoError Parent :=
  if p.hasNul then .error nulInPath
  else if p.isEmptyStr then .error ENOENT
  else
    match (dropSlashes p.body).getLast? with
    | some (.name n) =>
        match walk s.tree true symloopMax (startOf p s.cwd)
          ((dropSlashes p.body).dropLast ++ [.empty]) with
        | .ok (.at d _) => .ok (.entry d n (decide (dropSlashes p.body ≠ p.body)))
        | .ok (.missing _ _ _) => .error ENOENT
        | .error e => .error e
    | last =>
        match walk s.tree true symloopMax (startOf p s.cwd) p.body with
        | .ok (.at _ _) => .ok (.dots (last.getD .empty))
        | .ok (.missing _ _ _) => .error ENOENT
        | .error e => .error e

/-- A tree of directories: the root is one, and so is what an object is in. -/
structure TreeWf (t : Tree) : Prop where
  root : nodeAt t [] = some .dir
  parent : ∀ (l : Loc) (n : Name), nodeAt t (l ++ [n]) ≠ none →
    nodeAt t l = some .dir

/-- A host as it can be found: its tree is one, and the process is in a
    directory of it. -/
structure HostWf (s : HostState) : Prop where
  tree : TreeWf s.tree
  cwd : nodeAt s.tree s.cwd = some .dir

/-! ## The POSIX host -/

/-- An open file: the object's location and the offset. -/
structure Fd where
  loc : Loc
  pos : Nat
  deriving DecidableEq, Repr

/-- The largest offset of a file, `i64::MAX`. -/
def maxOffset : Nat := 2 ^ 63 - 1

/-- Replace the bytes from `pos` on; a gap past the end becomes zeros. -/
def overwrite (pos : Nat) (new old : Bytes) : Bytes :=
  (old ++ List.replicate (pos - old.length) 0).take pos ++ new
    ++ old.drop (pos + new.length)

/-- Cut or zero-extend. -/
def resize (n : Nat) (old : Bytes) : Bytes :=
  old.take n ++ List.replicate (n - old.length) 0

/-- `realpath`, as the path of the location it ends at. -/
def canonicalize (p : PathBuf) : Eff HostState IoError PathBuf := fun s =>
  match realpath s p with
  | .ok l => (.ok (locPath l), s)
  | .error e => (.error e, s)

/-- `lstat`. -/
def symlinkMetadata (p : PathBuf) : Eff HostState IoError Metadata := fun s =>
  match lookup s false p with
  | .error e => (.error e, s)
  | .ok (.missing _ _ _) => (.error ENOENT, s)
  | .ok (.at l _) =>
      match s.tree.get l with
      | none => (.error ENOENT, s)
      | some i => (.ok i.metadata, s.touch [l])

/-- `opendir` and `readdir` to the end. -/
def readDir (p : PathBuf) : Eff HostState IoError (List (Name × FsKind)) := fun s =>
  match lookup s true p with
  | .error e => (.error e, s)
  | .ok (.missing _ _ _) => (.error ENOENT, s)
  | .ok (.at l _) =>
      match nodeAt s.tree l with
      | none => (.error ENOENT, s)
      | some .dir =>
          (.ok ((s.tree.children l).map (fun e => (e.1, e.2.node.kind))), s.touch [l])
      | some _ => (.error ENOTDIR, s)

/-- `open`: with `create` a free name becomes an empty file, with `truncate`
    a file becomes empty, and a directory can only be read. -/
def openFile (o : OpenOptions) (p : PathBuf) : Eff HostState IoError Fd := fun s =>
  match lookup s true p with
  | .error e => (.error e, s)
  | .ok (.missing d n slash) =>
      if !o.create then (.error ENOENT, s)
      else if slash then (.error EISDIR, s)
      else (.ok ⟨d ++ [n], 0⟩,
        (s.addNode (d ++ [n]) (.file []) s.fileMode).touch [d ++ [n]])
  | .ok (.at l _) =>
      match s.tree.get l with
      | none => (.error ENOENT, s)
      | some i =>
          match i.node with
          | .dir => if o.write then (.error EISDIR, s) else (.ok ⟨l, 0⟩, s.touch [l])
          | .file _ =>
              if o.truncate then (.ok ⟨l, 0⟩, (s.putData l i []).touch [l])
              else (.ok ⟨l, 0⟩, s.touch [l])
          | .symlink _ => (.error ELOOP, s)

/-- `lseek` to an offset from the start. -/
def seek (f : Fd) (off : UInt64) : Eff HostState IoError Fd := fun s =>
  if off.toNat ≤ maxOffset then (.ok { f with pos := off.toNat }, s)
  else (.error EINVAL, s)

/-- `read`: what the file has at the offset, up to `n` bytes. -/
def read (f : Fd) (n : Nat) : Eff HostState IoError (Bytes × Fd) := fun s =>
  match nodeAt s.tree f.loc with
  | some (.file data) =>
      (.ok ((data.drop f.pos).take n,
        { f with pos := f.pos + ((data.drop f.pos).take n).length }), s)
  | some _ => (.error EISDIR, s)
  | none => (.error ENOENT, s)

/-- `write` until everything is written; no byte goes past the largest
    offset, and no bytes change nothing. -/
def writeAll (f : Fd) (data : Bytes) : Eff HostState IoError Fd := fun s =>
  match s.tree.get f.loc with
  | none => (.error ENOENT, s)
  | some i =>
      match i.node with
      | .file old =>
          if data.isEmpty then (.ok f, s)
          else if f.pos + data.length ≤ maxOffset then
            (.ok { f with pos := f.pos + data.length },
              s.putData f.loc i (overwrite f.pos data old))
          else
            (.error EFBIG,
              if maxOffset ≤ f.pos then s
              else s.putData f.loc i
                (overwrite f.pos (data.take (maxOffset - f.pos)) old))
      | _ => (.error EISDIR, s)

/-- `ftruncate`. -/
def setLen (f : Fd) (size : UInt64) : Eff HostState IoError Unit := fun s =>
  if maxOffset < size.toNat then (.error lenOutOfRange, s)
  else
    match s.tree.get f.loc with
    | none => (.error ENOENT, s)
    | some i =>
        match i.node with
        | .file old => (.ok (), s.putData f.loc i (resize size.toNat old))
        | _ => (.error EINVAL, s)

/-- `mkdir`. -/
def createDir (p : PathBuf) : Eff HostState IoError Unit := fun s =>
  match lookupParent s p with
  | .error e => (.error e, s)
  | .ok (.dots _) => (.error EEXIST, s)
  | .ok (.entry d n _) =>
      match s.tree.get (d ++ [n]) with
      | some _ => (.error EEXIST, s)
      | none =>
          (.ok (), (s.addNode (d ++ [n]) .dir (s.newDirMode d)).touch [d ++ [n]])

/-- `unlink`. -/
def removeFile (p : PathBuf) : Eff HostState IoError Unit := fun s =>
  match lookupParent s p with
  | .error e => (.error e, s)
  | .ok (.dots _) => (.error EISDIR, s)
  | .ok (.entry d n slash) =>
      match nodeAt s.tree (d ++ [n]) with
      | none => (.error ENOENT, s)
      | some .dir => (.error EISDIR, s)
      | some _ =>
          if slash then (.error ENOTDIR, s)
          else (.ok (), (s.setTree (s.tree.erase (d ++ [n]))).touch [d ++ [n]])

/-- `rmdir`. -/
def removeDir (p : PathBuf) : Eff HostState IoError Unit := fun s =>
  match lookupParent s p with
  | .error e => (.error e, s)
  | .ok (.dots .up) => (.error ENOTEMPTY, s)
  | .ok (.dots .cur) => (.error EINVAL, s)
  | .ok (.dots _) => (.error EBUSY, s)
  | .ok (.entry d n _) =>
      match nodeAt s.tree (d ++ [n]) with
      | none => (.error ENOENT, s)
      | some .dir =>
          if (s.tree.children (d ++ [n])).isEmpty then
            (.ok (), (s.setTree (s.tree.erase (d ++ [n]))).touch [d ++ [n]])
          else (.error ENOTEMPTY, s)
      | some _ => (.error ENOTDIR, s)

/-- Whether `rename` may put the object `i` of `src` at `dst`. -/
def renameCheck (t : Tree) (src dst : Loc) (i : Inode) (slash : Bool) :
    Except IoError Unit :=
  if slash && !i.node.isDir then .error ENOTDIR
  else if src = dst then .ok ()
  else if src <+: dst then .error EINVAL
  else if dst <+: src then .error ENOTEMPTY
  else
    match t.get dst with
    | none => .ok ()
    | some j =>
        if i.node.isDir && !j.node.isDir then .error ENOTDIR
        else if !i.node.isDir && j.node.isDir then .error EISDIR
        else if j.node.isDir && !(t.children dst).isEmpty then .error ENOTEMPTY
        else .ok ()

/-- `rename`: both places are looked up before either is judged. -/
def rename (p q : PathBuf) : Eff HostState IoError Unit := fun s =>
  match lookupParent s p with
  | .error e => (.error e, s)
  | .ok src =>
      match lookupParent s q with
      | .error e => (.error e, s)
      | .ok dst =>
          match src, dst with
          | .entry d n sl, .entry d' n' sl' =>
              match s.tree.get (d ++ [n]) with
              | none => (.error ENOENT, s)
              | some i =>
                  match renameCheck s.tree (d ++ [n]) (d' ++ [n']) i (sl || sl') with
                  | .error e => (.error e, s)
                  | .ok () =>
                      (.ok (),
                        (if d ++ [n] = d' ++ [n'] then s
                          else s.setTree (s.tree.move (d ++ [n]) (d' ++ [n']))).touch
                          [d ++ [n], d' ++ [n']])
          | _, _ => (.error EBUSY, s)

/-- The POSIX host. -/
def posix : HostCalls HostState Fd where
  canonicalize := canonicalize
  symlinkMetadata := symlinkMetadata
  readDir := readDir
  openFile := openFile
  seek := seek
  read := read
  writeAll := writeAll
  setLen := setLen
  createDir := createDir
  removeFile := removeFile
  removeDir := removeDir
  rename := rename

end TokimoHost
