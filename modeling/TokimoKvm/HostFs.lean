import TokimoKvm.PosixHost

/-! # `HostFs` — a host directory as a `TokimoVfs`

    The adapter of `tokimo-packages-vm-core`, over any host.  `resolve` checks
    the parent of the joined path and hands the joined path itself on, and
    every operation makes its host calls with that path. -/

namespace TokimoHostFs

open TokimoMachine TokimoBytes TokimoPath TokimoVfsCore TokimoHost

/-- A directory of the host, and whether it may be changed through the mount. -/
structure HostFs where
  root : PathBuf
  readOnly : Bool
  deriving DecidableEq, Repr

/-- `File::open`. -/
def readOptions : OpenOptions := { write := false, create := false, truncate := false }

/-- The options of `write`, and those of `File::create`. -/
def writeOptions : OpenOptions := { write := true, create := true, truncate := true }

/-- The options of `truncate`. -/
def truncateOptions : OpenOptions := { write := true, create := false, truncate := false }

namespace HostFs

variable {S F : Type} (host : HostCalls S F) (fs : HostFs)

/-- The path a request names below the root, not normalised. -/
def joined (p : PathBuf) : PathBuf := fs.root.join (p.stripPrefixRoot.getD p)

/-- What the jail check looks at: the joined path's parent, if it has one. -/
def probe (p : PathBuf) : PathBuf := (fs.joined p).parent.getD (fs.joined p)

/-- `resolve`: the parent of the path, canonical where that can be had, has to
    be below the canonical root; the last component is not looked at. -/
def resolve (p : PathBuf) : VfsM S PathBuf := do
  let canonRoot ← Eff.mapErr (fun e => .io e.text) (host.canonicalize fs.root)
  -- It's fine if the path itself does not yet exist (create/mkdir).
  let canonParent ← Eff.recover (fs.probe p) (host.canonicalize (fs.probe p))
  if !canonParent.startsWith canonRoot then Eff.fail .permissionDenied
  else pure (fs.joined p)

/-- `attr_from_meta`: times before the epoch count as the epoch's. -/
def attrFromMeta (m : Metadata) : FileAttr where
  size := m.len
  mode := m.mode
  kind := m.kind
  mtimeSecs := max 0 m.mtime
  atimeSecs := max 0 m.atime
  ctimeSecs := m.ctime

/-- `map_io`: only three kinds of error keep their name. -/
def mapIo (e : IoError) : VfsError :=
  match e.kind with
  | .notFound => .notFound
  | .permissionDenied => .permissionDenied
  | .alreadyExists => .alreadyExists
  | .other => .io e.text

/-- `check_rw`: what every changing call begins with. -/
def checkRw : VfsM S Unit :=
  if fs.readOnly then Eff.fail .permissionDenied else pure ()

/-- `stat` asks about the entry itself, also where it is a link. -/
def stat (path : PathBuf) : VfsM S FileAttr := do
  let p ← fs.resolve host path
  let m ← Eff.mapErr mapIo (host.symlinkMetadata p)
  pure (attrFromMeta m)

/-- `list` shows names through `to_string_lossy`. -/
def list (path : PathBuf) : VfsM S (List DirEntry) := do
  let p ← fs.resolve host path
  let rd ← Eff.mapErr mapIo (host.readDir p)
  pure (rd.map fun e => { name := toStringLossy e.1.1, kind := e.2 })

/-- Read until `want` bytes are there or the file ends.  Each pass but the
    last brings a byte, so `want` passes are enough. -/
def fill (want : Nat) : Nat → F → Bytes → VfsM S Bytes
  | 0, _, buf => pure buf
  | fuel + 1, f, buf =>
      if buf.length < want then do
        let got ← Eff.mapErr mapIo (host.read f (want - buf.length))
        if got.1.isEmpty then pure buf else fill want fuel got.2 (buf ++ got.1)
      else pure buf

/-- `read` seeks and reads until the length is there or the file ends. -/
def read (path : PathBuf) (offset : UInt64) (len : UInt32) : VfsM S Bytes := do
  let p ← fs.resolve host path
  let f ← Eff.mapErr mapIo (host.openFile readOptions p)
  let f ← Eff.mapErr mapIo (host.seek f offset)
  fill host len.toNat len.toNat f []

/-- `write` creates the file where there is none and empties it where there is
    one; then it seeks and writes. -/
def write (path : PathBuf) (offset : UInt64) (data : Bytes) : VfsM S UInt32 := do
  fs.checkRw
  let p ← fs.resolve host path
  let f ← Eff.mapErr mapIo (host.openFile writeOptions p)
  let f ← Eff.mapErr mapIo (host.seek f offset)
  let _ ← Eff.mapErr mapIo (host.writeAll f data)
  pure (UInt32.ofNat data.length)

/-- `create` is an open that creates and empties; `_mode` is not used. -/
def create (path : PathBuf) (_mode : UInt32) : VfsM S FileAttr := do
  fs.checkRw
  let p ← fs.resolve host path
  let _ ← Eff.mapErr mapIo (host.openFile writeOptions p)
  let m ← Eff.mapErr mapIo (host.symlinkMetadata p)
  pure (attrFromMeta m)

/-- `mkdir` does not use `_mode` either. -/
def mkdir (path : PathBuf) (_mode : UInt32) : VfsM S FileAttr := do
  fs.checkRw
  let p ← fs.resolve host path
  Eff.mapErr mapIo (host.createDir p)
  let m ← Eff.mapErr mapIo (host.symlinkMetadata p)
  pure (attrFromMeta m)

/-- `remove` takes anything but a directory. -/
def remove (path : PathBuf) : VfsM S Unit := do
  fs.checkRw
  let p ← fs.resolve host path
  Eff.mapErr mapIo (host.removeFile p)

/-- `rmdir` takes an empty directory. -/
def rmdir (path : PathBuf) : VfsM S Unit := do
  fs.checkRw
  let p ← fs.resolve host path
  Eff.mapErr mapIo (host.removeDir p)

/-- `rename` checks both of its paths. -/
def rename (src dst : PathBuf) : VfsM S Unit := do
  fs.checkRw
  let f ← fs.resolve host src
  let t ← fs.resolve host dst
  Eff.mapErr mapIo (host.rename f t)

/-- `truncate` opens the file without creating or emptying it. -/
def truncate (path : PathBuf) (size : UInt64) : VfsM S Unit := do
  fs.checkRw
  let p ← fs.resolve host path
  let f ← Eff.mapErr mapIo (host.openFile truncateOptions p)
  Eff.mapErr mapIo (host.setLen f size)

/-- `impl TokimoVfs for HostFs`. -/
def toVfs : TokimoVfs S where
  stat := fs.stat host
  list := fs.list host
  read := fs.read host
  write := fs.write host
  create := fs.create host
  mkdir := fs.mkdir host
  remove := fs.remove host
  rmdir := fs.rmdir host
  rename := fs.rename host
  truncate := fs.truncate host

end HostFs

end TokimoHostFs
