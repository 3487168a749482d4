import TokimoKvm.MachineProofs
import TokimoKvm.OsPathProofs

/-! # The file-system trait and its data — `tokimo-packages-vm-core`

    `TokimoVfs` is the trait a mount's file system implements.  Its methods
    take `&self` and hide their state; here the state `σ` is explicit and a
    method is an effect on it. -/

namespace TokimoVfsCore

open TokimoMachine TokimoBytes TokimoPath

/-- The kinds of object the interface knows. -/
inductive FsKind where
  | file
  | dir
  | symlink
  deriving DecidableEq, Repr

/-- What `stat` tells of an object. -/
structure FileAttr where
  size : Nat
  mode : Nat
  kind : FsKind
  mtimeSecs : Int
  atimeSecs : Int
  ctimeSecs : Int
  deriving DecidableEq, Repr

/-- A listed entry; its name is the UTF-8 of a Rust `String`, with no promise
    about slashes or dots in it. -/
structure DirEntry where
  name : Bytes
  kind : FsKind
  deriving DecidableEq, Repr

/-- How a method fails; every other error of the host is an `Io` with its
    text. -/
inductive VfsError where
  | notFound
  | permissionDenied
  | alreadyExists
  | notADirectory
  | isADirectory
  | io (msg : String)
  deriving DecidableEq, Repr

/-- What a method returns. -/
abbrev VfsResult (α : Type) := Except VfsError α

/-- An effect of a file system with state `σ`. -/
abbrev VfsM (σ α : Type) := Eff σ VfsError α

/-- The trait `TokimoVfs`. -/
structure TokimoVfs (σ : Type) where
  stat : PathBuf → VfsM σ FileAttr
  list : PathBuf → VfsM σ (List DirEntry)
  read : PathBuf → UInt64 → UInt32 → VfsM σ Bytes
  write : PathBuf → UInt64 → Bytes → VfsM σ UInt32
  create : PathBuf → UInt32 → VfsM σ FileAttr
  mkdir : PathBuf → UInt32 → VfsM σ FileAttr
  remove : PathBuf → VfsM σ Unit
  rmdir : PathBuf → VfsM σ Unit
  rename : PathBuf → PathBuf → VfsM σ Unit
  truncate : PathBuf → UInt64 → VfsM σ Unit

/-! ## Calls as data -/

/-- A call of one of the methods, with its arguments. -/
inductive VfsCall where
  | stat (path : PathBuf)
  | list (path : PathBuf)
  | read (path : PathBuf) (offset : UInt64) (len : UInt32)
  | write (path : PathBuf) (offset : UInt64) (data : Bytes)
  | create (path : PathBuf) (mode : UInt32)
  | mkdir (path : PathBuf) (mode : UInt32)
  | remove (path : PathBuf)
  | rmdir (path : PathBuf)
  | rename (src dst : PathBuf)
  | truncate (path : PathBuf) (size : UInt64)
  deriving DecidableEq, Repr

/-- What a method returned. -/
inductive Reply where
  | attr (r : VfsResult FileAttr)
  | entries (r : VfsResult (List DirEntry))
  | bytes (r : VfsResult Bytes)
  | count (r : VfsResult UInt32)
  | unit (r : VfsResult Unit)
  deriving DecidableEq

/-- The methods that are meant to change something. -/
def VfsCall.mutating : VfsCall → Bool
  | .stat _ => false
  | .list _ => false
  | .read _ _ _ => false
  | _ => true

/-- Whether a method failed. -/
def isErr {α : Type} : VfsResult α → Bool
  | .ok _ => false
  | .error _ => true

/-- Whether the call failed, whatever its method returns. -/
def Reply.isErr : Reply → Bool
  | .attr r => TokimoVfsCore.isErr r
  | .entries r => TokimoVfsCore.isErr r
  | .bytes r => TokimoVfsCore.isErr r
  | .count r => TokimoVfsCore.isErr r
  | .unit r => TokimoVfsCore.isErr r

/-- Make a call. -/
def TokimoVfs.invoke {σ : Type} (vfs : TokimoVfs σ) (s : σ) : VfsCall → Reply × σ
  | .stat p => ((vfs.stat p s).map .attr id)
  | .list p => ((vfs.list p s).map .entries id)
  | .read p off len => ((vfs.read p off len s).map .bytes id)
  | .write p off data => ((vfs.write p off data s).map .count id)
  | .create p mode => ((vfs.create p mode s).map .attr id)
  | .mkdir p mode => ((vfs.mkdir p mode s).map .attr id)
  | .remove p => ((vfs.remove p s).map .unit id)
  | .rmdir p => ((vfs.rmdir p s).map .unit id)
  | .rename p q => ((vfs.rename p q s).map .unit id)
  | .truncate p size => ((vfs.truncate p size s).map .unit id)

/-! ## Watching a file system -/

/-- Note a call, and make it. -/
def noting {σ α : Type} (call : VfsCall) (x : VfsM σ α) : VfsM (σ × List VfsCall) α :=
  fun s => ((x s.1).1, ((x s.1).2, s.2 ++ [call]))

/-- A file system that also keeps a list of the calls made to it. -/
def TokimoVfs.logged {σ : Type} (vfs : TokimoVfs σ) : TokimoVfs (σ × List VfsCall) where
  stat p := noting (.stat p) (vfs.stat p)
  list p := noting (.list p) (vfs.list p)
  read p off len := noting (.read p off len) (vfs.read p off len)
  write p off data := noting (.write p off data) (vfs.write p off data)
  create p mode := noting (.create p mode) (vfs.create p mode)
  mkdir p mode := noting (.mkdir p mode) (vfs.mkdir p mode)
  remove p := noting (.remove p) (vfs.remove p)
  rmdir p := noting (.rmdir p) (vfs.rmdir p)
  rename p q := noting (.rename p q) (vfs.rename p q)
  truncate p size := noting (.truncate p size) (vfs.truncate p size)

/-- Make a call, and record it with what it returned. -/
def recording {σ α : Type} (call : VfsCall) (reply : VfsResult α → Reply) (x : VfsM σ α) :
    VfsM (σ × List (VfsCall × Reply)) α :=
  fun s => ((x s.1).1, ((x s.1).2, s.2 ++ [(call, reply (x s.1).1)]))

/-- A file system that also keeps a record of the calls made to it and of what
    they returned. -/
def TokimoVfs.recorded {σ : Type} (vfs : TokimoVfs σ) :
    TokimoVfs (σ × List (VfsCall × Reply)) where
  stat p := recording (.stat p) .attr (vfs.stat p)
  list p := recording (.list p) .entries (vfs.list p)
  read p off len := recording (.read p off len) .bytes (vfs.read p off len)
  write p off data := recording (.write p off data) .count (vfs.write p off data)
  create p mode := recording (.create p mode) .attr (vfs.create p mode)
  mkdir p mode := recording (.mkdir p mode) .attr (vfs.mkdir p mode)
  remove p := recording (.remove p) .unit (vfs.remove p)
  rmdir p := recording (.rmdir p) .unit (vfs.rmdir p)
  rename p q := recording (.rename p q) .unit (vfs.rename p q)
  truncate p size := recording (.truncate p size) .unit (vfs.truncate p size)

end TokimoVfsCore
