import TokimoKvm.TableProofs
import TokimoKvm.VfsCore

/-! # The guest's agent — `tokimo-packages-vm-agent`

    `TokimoFuse` answers the kernel's FUSE requests with calls of the mounted
    file system.  It keeps two tables: inode numbers to paths and back, and
    open handles to paths; nothing is ever removed from the first.  The
    kernel numbers objects, the file system knows paths only, and these
    tables are all that joins the two. -/

namespace TokimoFuseAgent

open TokimoMachine TokimoBytes TokimoPath TokimoTable TokimoVfsCore

/-- The error numbers the agent replies with. -/
inductive Errno where
  | ENOENT
  | EACCES
  | EEXIST
  | ENOTDIR
  | EISDIR
  | EIO
  | EBADF
  deriving DecidableEq, Repr

/-- `errno`: what has no number of its own is `EIO`. -/
def errno : VfsError → Errno
  | .notFound => .ENOENT
  | .permissionDenied => .EACCES
  | .alreadyExists => .EEXIST
  | .notADirectory => .ENOTDIR
  | .isADirectory => .EISDIR
  | .io _ => Errno.EIO

/-- The kinds of file the kernel is told of. -/
inductive FileType where
  | regularFile
  | directory
  | symlink
  deriving DecidableEq, Repr

/-- The kind of an entry, in the kernel's words. -/
def fileType : FsKind → FileType
  | .file => .regularFile
  | .dir => .directory
  | .symlink => .symlink

/-- The attributes as the kernel gets them; times are seconds. -/
structure FuseAttr where
  ino : Nat
  size : Nat
  blocks : Nat
  atime : Nat
  mtime : Nat
  ctime : Nat
  crtime : Nat
  kind : FileType
  perm : Nat
  nlink : Nat
  uid : Nat
  gid : Nat
  rdev : Nat
  blksize : Nat
  flags : Nat
  deriving DecidableEq, Repr

/-- The state of the agent.  Numbers are counted up and never used again; a
    path is a key of `rev` by its components, as `PathBuf` compares. -/
structure TokimoFuse where
  inodes : Table Nat PathBuf
  rev : Table (List Component) Nat
  nextIno : Nat
  fhs : Table Nat PathBuf
  nextFh : Nat
  deriving DecidableEq

namespace TokimoFuse

/-- `TokimoFuse::new`: number 1 is the root, and nothing else is known. -/
def start : TokimoFuse where
  inodes := []
  rev := []
  nextIno := 2
  fhs := []
  nextFh := 1

/-- `path_for`: the root's path is fixed, all others are looked up. -/
def pathFor (a : TokimoFuse) (ino : Nat) : Option PathBuf :=
  if ino = 1 then some .root else a.inodes.get ino

/-- `intern`: a path that is known, compared by components, keeps its number. -/
def intern (a : TokimoFuse) (path : PathBuf) : Nat × TokimoFuse :=
  if path.components = PathBuf.root.components then (1, a)
  else
    match a.rev.get path.components with
    | some ino => (ino, a)
    | none =>
        (a.nextIno, { a with
          nextIno := a.nextIno + 1
          inodes := a.inodes.insert a.nextIno path
          rev := a.rev.insert path.components a.nextIno })

/-- `alloc_fh`: handles are counted up, and each keeps a path. -/
def allocFh (a : TokimoFuse) (path : PathBuf) : Nat × TokimoFuse :=
  (a.nextFh, { a with nextFh := a.nextFh + 1, fhs := a.fhs.insert a.nextFh path })

/-- A handle that is released loses its path. -/
def dropFh (a : TokimoFuse) (fh : Nat) : TokimoFuse := { a with fhs := a.fhs.erase fh }

end TokimoFuse

/-- `to_fuse_attr`: the owner is always root, and a time before the epoch is the
    epoch. -/
def toFuseAttr (ino : Nat) (a : FileAttr) : FuseAttr where
  ino := ino
  size := a.size
  blocks := (a.size + 511) / 512
  atime := a.atimeSecs.toNat
  mtime := a.mtimeSecs.toNat
  ctime := a.ctimeSecs.toNat
  crtime := a.ctimeSecs.toNat
  kind := fileType a.kind
  perm := a.mode % 0o10000
  nlink := if a.kind = .dir then 2 else 1
  uid := 0
  gid := 0
  rdev := 0
  blksize := 4096
  flags := 0

/-- A name the kernel sends, pushed onto a path. -/
def join (parent : PathBuf) (name : Bytes) : PathBuf := parent.join (.ofBytes name)

/-- `offset.max(0) as u64`. -/
def clampOffset (offset : Int) : UInt64 := UInt64.ofNat offset.toNat

/-- `offset as usize`: a negative offset becomes a huge one. -/
def asUsize (offset : Int) : Nat := (offset % 2 ^ 64).toNat

/-! ## The pieces of a method -/

variable {σ α : Type}

/-- An effect of the agent over a file system with state `σ`. -/
abbrev FuseM (σ α : Type) := Eff (TokimoFuse × σ) Errno α

/-- The path of an inode number. -/
def path (ino : Nat) : FuseM σ PathBuf := fun st =>
  match st.1.pathFor ino with
  | some p => (.ok p, st)
  | none => (.error .ENOENT, st)

/-- The path of a handle. -/
def handlePath (fh : Nat) : FuseM σ PathBuf := fun st =>
  match st.1.fhs.get fh with
  | some p => (.ok p, st)
  | none => (.error .EBADF, st)

/-- Call the file system. -/
def call (x : VfsM σ α) : FuseM σ α := fun st =>
  match x st.2 with
  | (.ok v, s) => (.ok v, (st.1, s))
  | (.error e, s) => (.error (errno e), (st.1, s))

/-- Change the agent's own state. -/
def update (f : TokimoFuse → α × TokimoFuse) : FuseM σ α := fun st =>
  (.ok (f st.1).1, ((f st.1).2, st.2))

/-! ## The methods -/

variable (vfs : TokimoVfs σ)

/-- `lookup` asks about the entry and interns its path. -/
def lookup (parent : Nat) (name : Bytes) : FuseM σ FuseAttr := do
  let p ← path parent
  let a ← call (vfs.stat (join p name))
  let ino ← update (·.intern (join p name))
  pure (toFuseAttr ino a)

/-- `getattr` asks about the path of a number. -/
def getattr (ino : Nat) : FuseM σ FuseAttr := do
  let p ← path ino
  let a ← call (vfs.stat p)
  pure (toFuseAttr ino a)

/-- Everything but a new size is ignored. -/
def setattr (ino : Nat) (size : Option UInt64) : FuseM σ FuseAttr := do
  let p ← path ino
  match size with
  | some sz => call (vfs.truncate p sz)
  | none => pure ()
  let a ← call (vfs.stat p)
  pure (toFuseAttr ino a)

/-- `opendir` gives a handle without asking the file system. -/
def opendir (ino : Nat) : FuseM σ Nat := do
  let p ← path ino
  update (·.allocFh p)

/-- `releasedir` forgets a handle. -/
def releasedir (fh : Nat) : FuseM σ Unit := update (fun a => ((), a.dropFh fh))

/-- An entry of a directory reply; `offset` is where to go on behind it. -/
structure DirReply where
  ino : Nat
  offset : Nat
  kind : FileType
  name : Bytes
  deriving DecidableEq, Repr

/-- The entry `.`, which every listing starts with. -/
def dot : Bytes := [46]

/-- The entry `..` behind it. -/
def dotdot : Bytes := [46, 46]

/-- The entries with the two that every directory has. -/
def withDots (entries : List DirEntry) : List (FileType × Bytes) :=
  (.directory, dot) :: (.directory, dotdot) :: entries.map (fun e => (fileType e.kind, e.name))

/-- The inode number of a listed name. -/
def entryIno (ino : Nat) (p : PathBuf) (name : Bytes) : FuseM σ Nat :=
  if name = dot then pure ino
  else if name = dotdot then pure 1
  else update (·.intern (join p name))

/-- Add entries to a reply that has room for so many; the first that does not
    fit ends the loop, after it got its number. -/
def addEntries (ino : Nat) (p : PathBuf) : Nat → List ((FileType × Bytes) × Nat) →
    FuseM σ (List DirReply)
  | _, [] => pure []
  | 0, ((_, name), _) :: _ => do
      let _ ← entryIno ino p name
      pure []
  | room + 1, ((kind, name), i) :: rest => do
      let n ← entryIno ino p name
      let es ← addEntries ino p room rest
      pure ({ ino := n, offset := i + 1, kind := kind, name := name } :: es)

/-- `readdir` lists anew for each page and skips what is before the offset. -/
def readdir (ino : Nat) (offset : Int) (room : Nat) : FuseM σ (List DirReply) := do
  let p ← path ino
  let entries ← call (vfs.list p)
  addEntries ino p room ((withDots entries).zipIdx.drop (asUsize offset))

/-- `open` gives a handle on the path the number has now. -/
def open' (ino : Nat) : FuseM σ Nat := do
  let p ← path ino
  update (·.allocFh p)

/-- `release` forgets a handle as `releasedir` does. -/
def release (fh : Nat) : FuseM σ Unit := update (fun a => ((), a.dropFh fh))

/-- `read` goes by the path the handle was given. -/
def read (fh : Nat) (offset : Int) (size : UInt32) : FuseM σ Bytes := do
  let p ← handlePath fh
  call (vfs.read p (clampOffset offset) size)

/-- `write` does as well. -/
def write (fh : Nat) (offset : Int) (data : Bytes) : FuseM σ UInt32 := do
  let p ← handlePath fh
  call (vfs.write p (clampOffset offset) data)

/-- `create` interns the path and gives a handle on it. -/
def create (parent : Nat) (name : Bytes) (mode : UInt32) : FuseM σ (FuseAttr × Nat) := do
  let p ← path parent
  let a ← call (vfs.create (join p name) mode)
  let ino ← update (·.intern (join p name))
  let fh ← update (·.allocFh (join p name))
  pure (toFuseAttr ino a, fh)

/-- `mkdir` interns the path. -/
def mkdir (parent : Nat) (name : Bytes) (mode : UInt32) : FuseM σ FuseAttr := do
  let p ← path parent
  let a ← call (vfs.mkdir (join p name) mode)
  let ino ← update (·.intern (join p name))
  pure (toFuseAttr ino a)

/-- `unlink` leaves the number of the path as it is. -/
def unlink (parent : Nat) (name : Bytes) : FuseM σ Unit := do
  let p ← path parent
  call (vfs.remove (join p name))

/-- `rmdir` does as well. -/
def rmdir (parent : Nat) (name : Bytes) : FuseM σ Unit := do
  let p ← path parent
  call (vfs.rmdir (join p name))

/-- `rename` leaves all numbers their paths. -/
def rename (parent : Nat) (name : Bytes) (newparent : Nat) (newname : Bytes) : FuseM σ Unit := do
  let p ← path parent
  let np ← path newparent
  call (vfs.rename (join p name) (join np newname))

/-! ## Requests as data -/

/-- A request of the kernel.  A `readdir` says how many entries its buffer
    takes. -/
inductive FuseRequest where
  | lookup (parent : Nat) (name : Bytes)
  | getattr (ino : Nat)
  | setattr (ino : Nat) (size : Option UInt64)
  | opendir (ino : Nat)
  | releasedir (fh : Nat)
  | readdir (ino : Nat) (offset : Int) (room : Nat)
  | open' (ino : Nat)
  | release (fh : Nat)
  | read (fh : Nat) (offset : Int) (size : UInt32)
  | write (fh : Nat) (offset : Int) (data : Bytes)
  | create (parent : Nat) (name : Bytes) (mode : UInt32)
  | mkdir (parent : Nat) (name : Bytes) (mode : UInt32)
  | unlink (parent : Nat) (name : Bytes)
  | rmdir (parent : Nat) (name : Bytes)
  | rename (parent : Nat) (name : Bytes) (newparent : Nat) (newname : Bytes)
  deriving DecidableEq, Repr

/-- What a request is replied to with. -/
inductive FuseReply where
  | entry (attr : FuseAttr)
  | attr (attr : FuseAttr)
  | opened (fh : Nat)
  | directory (entries : List DirReply)
  | data (d : Bytes)
  | written (n : UInt32)
  | created (attr : FuseAttr) (fh : Nat)
  | ok
  deriving DecidableEq, Repr

/-- The handler of each request. -/
def serve : FuseRequest → FuseM σ FuseReply
  | .lookup parent name => do
      let a ← lookup vfs parent name
      pure (.entry a)
  | .getattr ino => do
      let a ← getattr vfs ino
      pure (.attr a)
  | .setattr ino size => do
      let a ← setattr vfs ino size
      pure (.attr a)
  | .opendir ino => do
      let fh ← opendir ino
      pure (.opened fh)
  | .releasedir fh => do
      releasedir fh
      pure .ok
  | .readdir ino offset room => do
      let es ← readdir vfs ino offset room
      pure (.directory es)
  | .open' ino => do
      let fh ← open' ino
      pure (.opened fh)
  | .release fh => do
      release fh
      pure .ok
  | .read fh offset size => do
      let d ← read vfs fh offset size
      pure (.data d)
  | .write fh offset data => do
      let n ← write vfs fh offset data
      pure (.written n)
  | .create parent name mode => do
      let r ← create vfs parent name mode
      pure (.created r.1 r.2)
  | .mkdir parent name mode => do
      let a ← mkdir vfs parent name mode
      pure (.entry a)
  | .unlink parent name => do
      unlink vfs parent name
      pure .ok
  | .rmdir parent name => do
      rmdir vfs parent name
      pure .ok
  | .rename parent name newparent newname => do
      rename vfs parent name newparent newname
      pure .ok

end TokimoFuseAgent
