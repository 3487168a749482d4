import TokimoKvm.PosixHost

/-! # The reference file system — a tree of objects with identities

    A `TokimoVfs` with nothing of a host in it: files and directories at
    locations, each with an identity that is never used again and that a
    rename keeps.  Against it one can say which object a number of the agent
    stands for. -/

namespace TokimoRefTree

open TokimoMachine TokimoBytes TokimoPath TokimoTable TokimoVfsCore TokimoHost

/-- What is at a location: a file's bytes, or a directory. -/
inductive RefNode where
  | file (data : Bytes)
  | dir
  deriving DecidableEq, Repr

/-- Directories are what has something below. -/
def RefNode.isDir : RefNode → Bool
  | .dir => true
  | .file _ => false

/-- An object with its identity. -/
structure RefObj where
  id : Nat
  node : RefNode
  mode : Nat
  deriving DecidableEq, Repr

/-- What `stat` says of an object. -/
def RefObj.attr (o : RefObj) : FileAttr where
  size := match o.node with
    | .file data => data.length
    | .dir => 0
  mode := o.mode
  kind := match o.node with
    | .file _ => .file
    | .dir => .dir
  mtimeSecs := 0
  atimeSecs := 0
  ctimeSecs := 0

/-- The objects by their locations, and the next identity. -/
structure RefFs where
  tree : Table Loc RefObj
  nextId : Nat
  deriving DecidableEq

/-- The names of a path that goes down only. -/
def normals : List Component → Option (List Name)
  | [] => some []
  | .normal n :: rest => (normals rest).map (n :: ·)
  | _ :: _ => none

/-- The location a path names. -/
def locOf (p : PathBuf) : Option Loc :=
  match p.components with
  | .rootDir :: rest => normals rest
  | _ => none

/-- A directory a new entry can be made in. -/
def parentIsDir (t : Table Loc RefObj) (l : Loc) : Bool :=
  match l.getLast? with
  | none => false
  | some _ => ((t.get l.dropLast).map fun o => o.node.isDir).getD false

/-- Do something at the location a path names. -/
def atPath {α : Type} (p : PathBuf) (f : Loc → VfsM RefFs α) : VfsM RefFs α :=
  match locOf p with
  | none => Eff.fail .notFound
  | some l => f l

/-- Replace the object at a location. -/
def RefFs.put (fs : RefFs) (l : Loc) (o : RefObj) : RefFs :=
  { fs with tree := fs.tree.insert l o }

/-- A new object. -/
def RefFs.add (fs : RefFs) (l : Loc) (node : RefNode) (mode : Nat) : RefFs :=
  { tree := fs.tree.insert l { id := fs.nextId, node := node, mode := mode }
    nextId := fs.nextId + 1 }

/-- `stat` at a location. -/
def statAt (l : Loc) : VfsM RefFs FileAttr := fun fs =>
  match fs.tree.get l with
  | none => (.error .notFound, fs)
  | some o => (.ok o.attr, fs)

/-- `list` at a location, which has to be a directory. -/
def listAt (l : Loc) : VfsM RefFs (List DirEntry) := fun fs =>
  match fs.tree.get l with
  | none => (.error .notFound, fs)
  | some o =>
      match o.node with
      | .file _ => (.error .notADirectory, fs)
      | .dir => (.ok ((fs.tree.children l).map fun e =>
          { name := e.1.1, kind := e.2.attr.kind }), fs)

/-- `read` at a location, which has to be a file. -/
def readAt (off : UInt64) (len : UInt32) (l : Loc) : VfsM RefFs Bytes := fun fs =>
  match fs.tree.get l with
  | none => (.error .notFound, fs)
  | some o =>
      match o.node with
      | .dir => (.error .isADirectory, fs)
      | .file data => (.ok ((data.drop off.toNat).take len.toNat), fs)

/-- Give the file at a location other contents. -/
def editAt {α : Type} (f : Bytes → Bytes) (a : α) (l : Loc) : VfsM RefFs α := fun fs =>
  match fs.tree.get l with
  | none => (.error .notFound, fs)
  | some o =>
      match o.node with
      | .dir => (.error .isADirectory, fs)
      | .file data => (.ok a, fs.put l { o with node := .file (f data) })

/-- A file that is there is emptied and stays the object it is. -/
def createAt (mode : Nat) (l : Loc) : VfsM RefFs FileAttr := fun fs =>
  match fs.tree.get l with
  | some o =>
      match o.node with
      | .dir => (.error .isADirectory, fs)
      | .file _ =>
          (.ok { o with node := .file [] }.attr, fs.put l { o with node := .file [] })
  | none =>
      if parentIsDir fs.tree l then
        (.ok (RefObj.attr { id := fs.nextId, node := .file [], mode := mode }),
          fs.add l (.file []) mode)
      else (.error .notFound, fs)

/-- `mkdir` at a location that is free and in a directory. -/
def mkdirAt (mode : Nat) (l : Loc) : VfsM RefFs FileAttr := fun fs =>
  match fs.tree.get l with
  | some _ => (.error .alreadyExists, fs)
  | none =>
      if parentIsDir fs.tree l then
        (.ok (RefObj.attr { id := fs.nextId, node := .dir, mode := mode }), fs.add l .dir mode)
      else (.error .notFound, fs)

/-- `remove` at a location, which must not be a directory. -/
def removeAt (l : Loc) : VfsM RefFs Unit := fun fs =>
  match fs.tree.get l with
  | none => (.error .notFound, fs)
  | some o =>
      match o.node with
      | .dir => (.error .isADirectory, fs)
      | .file _ => (.ok (), { fs with tree := fs.tree.erase l })

/-- `rmdir` at a location, which has to be an empty directory. -/
def rmdirAt (l : Loc) : VfsM RefFs Unit := fun fs =>
  match fs.tree.get l with
  | none => (.error .notFound, fs)
  | some o =>
      match o.node with
      | .file _ => (.error .notADirectory, fs)
      | .dir =>
          if l = [] then (.error .permissionDenied, fs)
          else if (fs.tree.children l).isEmpty then (.ok (), { fs with tree := fs.tree.erase l })
          else (.error (.io "directory not empty"), fs)

/-- Whether the object `o` of `src` may be put at `dst`. -/
def refRenameCheck (t : Table Loc RefObj) (src dst : Loc) (o : RefObj) : Except VfsError Unit :=
  if src = dst then .ok ()
  else if src <+: dst then .error (.io "into itself")
  else if dst <+: src then .error (.io "directory not empty")
  else
    match t.get dst with
    | none => if parentIsDir t dst then .ok () else .error .notFound
    | some o' =>
        if o.node.isDir && !o'.node.isDir then .error .notADirectory
        else if !o.node.isDir && o'.node.isDir then .error .isADirectory
        else if o'.node.isDir && !(t.children dst).isEmpty then
          .error (.io "directory not empty")
        else .ok ()

/-- `rename` from one location to another, where POSIX allows it. -/
def renameAt (src dst : Loc) : VfsM RefFs Unit := fun fs =>
  match fs.tree.get src with
  | none => (.error .notFound, fs)
  | some o =>
      match refRenameCheck fs.tree src dst o with
      | .error e => (.error e, fs)
      | .ok () =>
          (.ok (), if src = dst then fs else { fs with tree := fs.tree.move src dst })

/-- The reference file system. -/
def refVfs : TokimoVfs RefFs where
  stat p := atPath p statAt
  list p := atPath p listAt
  read p off len := atPath p (readAt off len)
  write p off data :=
    atPath p (editAt (overwrite off.toNat data) (UInt32.ofNat data.length))
  create p mode := atPath p (createAt mode.toNat)
  mkdir p mode := atPath p (mkdirAt mode.toNat)
  remove p := atPath p removeAt
  rmdir p := atPath p rmdirAt
  rename p q := atPath p fun src => atPath q fun dst => renameAt src dst
  truncate p size := atPath p (editAt (resize size.toNat) ())

/-- No two objects share an identity, and the next one is new. -/
def RefFs.Wf (fs : RefFs) : Prop := Table.Identified RefObj.id fs.tree fs.nextId

/-- Only the root. -/
def RefFs.empty : RefFs where
  tree := [([], { id := 0, node := .dir, mode := 0o755 })]
  nextId := 1

/-! ## What the calls do to objects -/

/-- What is at a place was there already, or is new and at one of the places
    where something new may be. -/
structure Stays (new : Loc → Prop) (fs fs' : RefFs) : Prop where
  wf : fs.Wf → fs'.Wf
  next : fs.nextId ≤ fs'.nextId
  back : ∀ {l : Loc} {o : RefObj}, fs'.tree.get l = some o →
    (∃ o₀, fs.tree.get l = some o₀ ∧ o₀.id = o.id) ∨ (new l ∧ fs.nextId ≤ o.id)

/-- Nothing new may be anywhere. -/
def nowhere (_ : Loc) : Prop := False

instance (new : Loc → Prop) : IsPreorder RefFs (Stays new) where
  refl := fun _ => ⟨fun h => h, Nat.le_refl _, fun h => Or.inl ⟨_, h, rfl⟩⟩
  trans := by
    intro a b c h1 h2
    refine ⟨fun h => h2.wf (h1.wf h), Nat.le_trans h1.next h2.next, ?_⟩
    intro l o ho
    rcases h2.back ho with ⟨o₁, ho₁, hid₁⟩ | ⟨hl, hnew⟩
    · rcases h1.back ho₁ with ⟨o₀, ho₀, hid₀⟩ | ⟨hl, hnew⟩
      · exact Or.inl ⟨o₀, ho₀, hid₀.trans hid₁⟩
      · exact Or.inr ⟨hl, by rw [← hid₁]; exact hnew⟩
    · exact Or.inr ⟨hl, Nat.le_trans h1.next hnew⟩

variable {new : Loc → Prop}

/-- Replacing an object by one of the same identity. -/
theorem stays_put {fs : RefFs} {l : Loc} {o o' : RefObj} (ho : fs.tree.get l = some o)
    (hid : o'.id = o.id) : Stays new fs (fs.put l o') := by
  refine ⟨fun h => Table.Identified.insert_same h ho hid, Nat.le_refl _, ?_⟩
  intro k v hv
  have hv' : Table.get (fs.tree.insert l o') k = some v := hv
  rw [Table.get_insert] at hv'
  by_cases hk : l = k
  · rw [if_pos hk] at hv'
    exact Or.inl ⟨o, by rw [← hk, ho], by rw [← Option.some.inj hv', hid]⟩
  · rw [if_neg hk] at hv'
    exact Or.inl ⟨v, hv', rfl⟩

/-- Taking an object away puts none anywhere. -/
theorem stays_erase (fs : RefFs) (l : Loc) :
    Stays new fs { fs with tree := fs.tree.erase l } := by
  refine ⟨fun h => Table.Identified.erase h l, Nat.le_refl _, ?_⟩
  intro k v hv
  have hv' : Table.get (fs.tree.erase l) k = some v := hv
  rw [Table.get_erase] at hv'
  by_cases hk : l = k
  · rw [if_pos hk] at hv'
    exact nomatch hv'
  · rw [if_neg hk] at hv'
    exact Or.inl ⟨v, hv', rfl⟩

/-- A call at a path does what it does at its location, or nothing. -/
theorem atPath_within {α : Type} (p : PathBuf) {f : Loc → VfsM RefFs α}
    (h : ∀ l, locOf p = some l → Eff.Within (Stays new) (f l)) :
    Eff.Within (Stays new) (atPath p f) := by
  rw [atPath]
  cases hl : locOf p with
  | none => exact Eff.Within.fail _
  | some l => exact h l hl

/-- `stat` changes nothing. -/
theorem statAt_within (l : Loc) : Eff.Within (Stays new) (statAt l) := by
  intro fs
  rw [statAt]
  cases fs.tree.get l with
  | none => exact refl_of _ fs
  | some o => exact refl_of _ fs

/-- `list` changes nothing. -/
theorem listAt_within (l : Loc) : Eff.Within (Stays new) (listAt l) := by
  intro fs
  rw [listAt]
  cases fs.tree.get l with
  | none => exact refl_of _ fs
  | some o =>
      obtain ⟨id, node, mode⟩ := o
      cases node with
      | file data => exact refl_of _ fs
      | dir => exact refl_of _ fs

/-- `read` changes nothing. -/
theorem readAt_within (off : UInt64) (len : UInt32) (l : Loc) :
    Eff.Within (Stays new) (readAt off len l) := by
  intro fs
  rw [readAt]
  cases fs.tree.get l with
  | none => exact refl_of _ fs
  | some o =>
      obtain ⟨id, node, mode⟩ := o
      cases node with
      | file data => exact refl_of _ fs
      | dir => exact refl_of _ fs

/-- A change of a file's bytes leaves the object there. -/
theorem editAt_within {α : Type} (f : Bytes → Bytes) (a : α) (l : Loc) :
    Eff.Within (Stays new) (editAt f a l) := by
  intro fs
  rw [editAt]
  cases ho : fs.tree.get l with
  | none => exact refl_of _ fs
  | some o =>
      obtain ⟨id, node, mode⟩ := o
      cases node with
      | file data => exact stays_put ho rfl
      | dir => exact refl_of _ fs

/-- Creating keeps every object, unless it makes one at a free place. -/
theorem createAt_cases (mode : Nat) (l : Loc) (fs : RefFs) :
    Stays nowhere fs (createAt mode l fs).2
      ∨ (fs.tree.get l = none ∧ parentIsDir fs.tree l = true
        ∧ (createAt mode l fs).2 = fs.add l (.file []) mode) := by
  rw [createAt]
  cases ho : fs.tree.get l with
  | none =>
      by_cases hp : parentIsDir fs.tree l = true
      · simp only [hp, if_true]
        exact Or.inr ⟨trivial, trivial, trivial⟩
      · simp only [hp]
        exact Or.inl (refl_of _ fs)
  | some o =>
      obtain ⟨id, node, m⟩ := o
      cases node with
      | file data => exact Or.inl (stays_put ho rfl)
      | dir => exact Or.inl (refl_of _ fs)

/-- `mkdir` changes nothing, or adds a directory at a free location. -/
theorem mkdirAt_cases (mode : Nat) (l : Loc) (fs : RefFs) :
    Stays nowhere fs (mkdirAt mode l fs).2
      ∨ (fs.tree.get l = none ∧ parentIsDir fs.tree l = true
        ∧ (mkdirAt mode l fs).2 = fs.add l .dir mode) := by
  rw [mkdirAt]
  cases ho : fs.tree.get l with
  | none =>
      by_cases hp : parentIsDir fs.tree l = true
      · simp only [hp, if_true]
        exact Or.inr ⟨trivial, trivial, trivial⟩
      · simp only [hp]
        exact Or.inl (refl_of _ fs)
  | some o => exact Or.inl (refl_of _ fs)

/-- `remove` puts no object anywhere. -/
theorem removeAt_within (l : Loc) : Eff.Within (Stays new) (removeAt l) := by
  intro fs
  rw [removeAt]
  cases ho : fs.tree.get l with
  | none => exact refl_of _ fs
  | some o =>
      obtain ⟨id, node, mode⟩ := o
      cases node with
      | file data => exact stays_erase fs l
      | dir => exact refl_of _ fs

/-- `rmdir` puts no object anywhere. -/
theorem rmdirAt_within (l : Loc) : Eff.Within (Stays new) (rmdirAt l) := by
  intro fs
  rw [rmdirAt]
  cases ho : fs.tree.get l with
  | none => exact refl_of _ fs
  | some o =>
      obtain ⟨id, node, mode⟩ := o
      cases node with
      | file data => exact refl_of _ fs
      | dir =>
          by_cases hr : l = []
          · simp only [hr, if_true]
            exact refl_of _ fs
          · by_cases hc : (fs.tree.children l).isEmpty = true
            · simp only [hr, hc, if_true, if_false]
              exact stays_erase fs l
            · simp only [hr, hc]
              exact refl_of _ fs

/-- What a rename of the reference file system does. -/
theorem renameAt_cases (src dst : Loc) (fs : RefFs) :
    (∃ o, fs.tree.get src = some o ∧ src = dst ∧ renameAt src dst fs = (.ok (), fs))
      ∨ (∃ o, fs.tree.get src = some o ∧ ¬ src <+: dst ∧ ¬ dst <+: src
        ∧ renameAt src dst fs = (.ok (), { fs with tree := fs.tree.move src dst }))
      ∨ ∃ e, renameAt src dst fs = (.error e, fs) := by
  rw [renameAt]
  cases ho : fs.tree.get src with
  | none => exact Or.inr (Or.inr ⟨_, rfl⟩)
  | some o =>
      by_cases heq : src = dst
      · simp only [refRenameCheck, heq, if_true]
        exact Or.inl ⟨o, rfl, trivial, trivial⟩
      · cases hc : refRenameCheck fs.tree src dst o with
        | error e => exact Or.inr (Or.inr ⟨e, by simp only [hc]⟩)
        | ok u =>
            have hsd : ¬ src <+: dst := by
              intro h
              rw [refRenameCheck, if_neg heq, if_pos h] at hc
              exact nomatch hc
            have hds : ¬ dst <+: src := by
              intro h
              rw [refRenameCheck, if_neg heq, if_neg hsd, if_pos h] at hc
              exact nomatch hc
            refine Or.inr (Or.inl ⟨o, rfl, hsd, hds, ?_⟩)
            simp only [hc, heq, if_false]

end TokimoRefTree
