import TokimoKvm.FileTreeProofs
import TokimoKvm.PosixHost

/-! # What a mount is — a tree of files and what can be asked of it

    Seen from the guest a host directory without links in it is a tree: names
    lead from its root to directories and files, a request names an entry by
    the names that lead to it, and an answer is an entry's kind and size, a
    listing, some bytes, or a fault.

    Nothing here mentions locations of the host, links, handles or spellings
    of paths.  Three things are `HostFs`'s own choices: a write empties the
    file first, a file that is created may be there already, and the root of
    the mount is refused. -/

namespace TokimoMountTree

open TokimoBytes TokimoPath TokimoVfsCore TokimoHost TokimoFileTree

/-- A directory tree with bytes in its files. -/
abbrev MountTree := View Name Bytes

/-- Why a request fails. -/
inductive Fault where
  | missing
  | present
  | denied
  | other
  deriving DecidableEq, Repr

/-- What an operation tells. -/
inductive Answer where
  | attr (e : Entry Bytes)
  | entries (at' : Name → Option (Entry Bytes))
  | bytes (data : Bytes)
  | count (n : Nat)
  | done

/-- The operations, on lists of names. -/
inductive Op where
  | stat (ns : List Name)
  | list (ns : List Name)
  | read (ns : List Name) (offset len : Nat)
  | write (ns : List Name) (offset : Nat) (data : Bytes)
  | create (ns : List Name)
  | mkdir (ns : List Name)
  | remove (ns : List Name)
  | rmdir (ns : List Name)
  | rename (src dst : List Name)
  | truncate (ns : List Name) (size : Nat)
  deriving DecidableEq, Repr

/-- The names a request gives. -/
def Op.places : Op → List (List Name)
  | .stat ns => [ns]
  | .list ns => [ns]
  | .read ns _ _ => [ns]
  | .write ns _ _ => [ns]
  | .create ns => [ns]
  | .mkdir ns => [ns]
  | .remove ns => [ns]
  | .rmdir ns => [ns]
  | .rename src dst => [src, dst]
  | .truncate ns _ => [ns]

/-- Those that change the tree. -/
def Op.mutating : Op → Bool
  | .stat _ => false
  | .list _ => false
  | .read _ _ _ => false
  | _ => true

/-- What is told, and the tree behind it. -/
abbrev Outcome := Except Fault Answer × MountTree

variable (v : MountTree)

/-- A request that fails leaves the tree alone. -/
def fails (f : Fault) : Outcome := (.error f, v)

/-- Go to the place the names give; its directory must be there. -/
def inPlace (ns : List Name) (f : Option (Entry Bytes) → Outcome) : Outcome :=
  match find v ns with
  | .there e => f (some e)
  | .free => f none
  | .lost => fails v .missing
  | .blocked => fails v .other

/-- Go to an entry. -/
def atEntry (ns : List Name) (f : Entry Bytes → Outcome) : Outcome := inPlace v ns fun e =>
  match e with
  | none => fails v .missing
  | some e => f e

/-- What kind of entry stands there. -/
def stat (ns : List Name) : Outcome := atEntry v ns fun e => (.ok (.attr e), v)

/-- The entries of a directory. -/
def list (ns : List Name) : Outcome := atEntry v ns fun e =>
  match e with
  | .dir => (.ok (.entries fun n => v (ns ++ [n])), v)
  | .file _ => fails v .other

/-- Of a directory nothing can be read but no bytes at all. -/
def read (ns : List Name) (offset len : Nat) : Outcome := atEntry v ns fun e =>
  if maxOffset < offset then fails v .other
  else
    match e with
    | .file b => (.ok (.bytes ((b.drop offset).take len)), v)
    | .dir => if len = 0 then (.ok (.bytes []), v) else fails v .other

/-- What a file holds that was emptied and then written to; bytes past the
    largest offset are lost. -/
def written (offset : Nat) (data : Bytes) : Bytes :=
  if (data.take (maxOffset - offset)).isEmpty then []
  else List.replicate offset 0 ++ data.take (maxOffset - offset)

/-- A write gets to its end. -/
def Fits (offset : Nat) (data : Bytes) : Prop :=
  offset ≤ maxOffset ∧ (data = [] ∨ offset + data.length ≤ maxOffset)

instance (offset : Nat) (data : Bytes) : Decidable (Fits offset data) :=
  inferInstanceAs (Decidable (_ ∧ _))

/-- Where a file is, or can be made. -/
def overFile (ns : List Name) (x : Outcome) : Outcome := inPlace v ns fun e =>
  match e with
  | some .dir => fails v .other
  | _ => x

/-- Empty the file, made if need be, and write. -/
def write (ns : List Name) (offset : Nat) (data : Bytes) : Outcome :=
  overFile v ns
    (if Fits offset data then .ok (.count data.length) else .error .other,
      put v ns (.file (written offset data)))

/-- Empty the file, made if need be. -/
def create (ns : List Name) : Outcome :=
  overFile v ns (.ok (.attr (.file [])), put v ns (.file []))

/-- A directory where nothing stands. -/
def mkdir (ns : List Name) : Outcome := inPlace v ns fun e =>
  match e with
  | some _ => fails v .present
  | none => (.ok (.attr .dir), put v ns .dir)

/-- A file is taken away. -/
def remove (ns : List Name) : Outcome := atEntry v ns fun e =>
  match e with
  | .dir => fails v .other
  | .file _ => (.ok .done, erase v ns)

open Classical in
/-- A directory goes only if nothing stands in it. -/
noncomputable def rmdir (ns : List Name) : Outcome := atEntry v ns fun e =>
  match e with
  | .dir => if ∀ n, v (ns ++ [n]) = none then (.ok .done, erase v ns) else fails v .other
  | .file _ => fails v .other

/-- Whether `e` may take the place of what is at `dst`: files replace files,
    directories those that are bare. -/
def Replaces (e : Entry Bytes) (dst : List Name) : Prop :=
  match v dst with
  | none => True
  | some d => d.isDir = e.isDir ∧ ∀ n, v (dst ++ [n]) = none

open Classical in
/-- Both directories must be there before anything else is judged; an entry
    goes neither below itself nor in the place of what it is in. -/
noncomputable def rename (src dst : List Name) : Outcome :=
  inPlace v src fun e =>
    inPlace v dst fun _ =>
      match e with
      | none => fails v .missing
      | some e =>
          if src = dst then (.ok .done, v)
          else if ¬ src <+: dst ∧ ¬ dst <+: src ∧ Replaces v e dst then
            (.ok .done, move v src dst)
          else fails v .other

/-- A file is cut, or filled up with zeros. -/
def truncate (ns : List Name) (size : Nat) : Outcome := atEntry v ns fun e =>
  match e with
  | .dir => fails v .other
  | .file b =>
      if maxOffset < size then fails v .other
      else (.ok .done, put v ns (.file (resize size b)))

/-- What each operation does. -/
noncomputable def perform (v : MountTree) : Op → Outcome
  | .stat ns => stat v ns
  | .list ns => list v ns
  | .read ns offset len => read v ns offset len
  | .write ns offset data => write v ns offset data
  | .create ns => create v ns
  | .mkdir ns => mkdir v ns
  | .remove ns => remove v ns
  | .rmdir ns => rmdir v ns
  | .rename src dst => rename v src dst
  | .truncate ns size => truncate v ns size

/-- A request to a mount: the root of the tree is not served, and a read-only
    mount does not change. -/
noncomputable def serve (readOnly : Bool) (v : MountTree) (op : Op) : Outcome :=
  if (readOnly && op.mutating) || op.places.any List.isEmpty then fails v .denied
  else perform v op

end TokimoMountTree
