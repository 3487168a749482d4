import TokimoKvm.AgentPathProofs
import TokimoKvm.FuseHandleProofs
import TokimoKvm.FuseReaddirProofs
import TokimoKvm.HostFsContentsProofs
import TokimoKvm.HostFsFaultProofs
import TokimoKvm.HostFsLookupProofs
import TokimoKvm.RpcProto

/-! # Changes of attributes

    A change goes from the kernel's request through the client and the wire
    to the host.  Of `setattr` only the size goes all the way, and the mode of
    `create` and `mkdir` stops at `HostFs`.  What is answered is what the host
    has, and a `getattr` right after says the same. -/

namespace TokimoRpc

open TokimoMachine TokimoPath TokimoVfsCore

variable {σ α : Type}

/-- A method of the client, with the server's dispatch at the other end. -/
def Client.Method.over (m : Client.Method α) (vfs : TokimoVfs σ) : VfsM σ α := fun s =>
  (m.answer (.ok (handle vfs m.request s).1), (handle vfs m.request s).2)

/-- The file system as the agent has it. -/
def remote (vfs : TokimoVfs σ) : TokimoVfs σ where
  stat p := (Client.stat p).over vfs
  list p := (Client.list p).over vfs
  read p off len := (Client.read p off len).over vfs
  write p off data := (Client.write p off data).over vfs
  create p mode := (Client.create p mode).over vfs
  mkdir p mode := (Client.mkdir p mode).over vfs
  remove p := (Client.remove p).over vfs
  rmdir p := (Client.rmdir p).over vfs
  rename p q := (Client.rename p q).over vfs
  truncate p size := (Client.truncate p size).over vfs

/-- Nothing is lost on the way: every call returns and does what it does at
    the other end. -/
theorem remote_eq (vfs : TokimoVfs σ) : remote vfs = vfs := rfl

end TokimoRpc

namespace TokimoHostFs

open TokimoMachine TokimoBytes TokimoPath TokimoTable TokimoVfsCore TokimoHost

variable {fs : HostFs} {s s' : HostState} {p : PathBuf} {r : Loc}

/-! ## Paths that stay accepted -/

/-- The parent of the joined path, when it can be entered. -/
theorem probe_entered (hw : HostWf s) {c : Loc} {k : Nat}
    (hent : enterParent s (fs.joined p) = some (c, k)) (hnul : (fs.joined p).hasNul = false) :
    realpath s (fs.probe p) = .ok c := by
  obtain ⟨q, hp, -, hreal, -⟩ := enterParent_some hw hent hnul
  rw [HostFs.probe, hp]
  exact hreal

/-- A path that is let through is let through when there is more. -/
theorem Accepted.extend (hacc : Accepted s fs p r)
    (hent : r = [] ∨ ∃ c, realpath s (fs.probe p) = .ok c) (hcwd : s'.cwd = s.cwd)
    (hext : ∀ v, nodeAt s.tree v ≠ none → shapeAt s.tree v = shapeAt s'.tree v) :
    Accepted s' fs p r := by
  refine ⟨realpath_extend hcwd hext hacc.1, ?_⟩
  rcases hacc.2 with ⟨c, hc, hin⟩ | ⟨⟨e, he⟩, hst⟩
  · exact Or.inl ⟨c, realpath_extend hcwd hext hc, hin⟩
  · rcases hent with hr | ⟨c, hc⟩
    · -- everything is below the host's root
      cases hreal : realpath s' (fs.probe p) with
      | ok c => exact Or.inl ⟨c, rfl, by rw [hr]; exact List.nil_prefix⟩
      | error e' => exact Or.inr ⟨⟨e', rfl⟩, hst⟩
    · exact nomatch hc.symm.trans he

/-- Asking changes nothing but the log, and asking again gives the same. -/
theorem stat_again {a : FileAttr} (h : fs.stat posix p s = (.ok a, s')) :
    ∃ l i, s' = s.touch [l] ∧ s.tree.get l = some i ∧ a = HostFs.attrFromMeta i.metadata
      ∧ (fs.stat posix p (s.touch [l])).1 = .ok a := by
  obtain ⟨r, l, k, i, hacc, hl, hi, ha⟩ := accepted_of_stat (congrArg Prod.fst h)
  have hs := stat_of_lookup hacc hl hi
  have hacc' : Accepted (s.touch [l]) fs p r := hacc
  have hagain := stat_of_lookup hacc' hl hi
  rw [h] at hs
  exact ⟨l, i, (Prod.mk.inj hs).2, hi, ha, by rw [hagain, ha]⟩

/-! ## A new size -/

/-- What a change of size leaves of an object: all but its contents, the
    times these carry, and the set-id bits. -/
def unsized (i : Inode) : Nat × Nat × Int := (i.id, plainMode i.mode, i.atime)

@[simp] theorem unsized_filled (s : HostState) (i : Inode) (data : Bytes) :
    unsized (s.filled i data) = unsized i := by
  rw [unsized, HostState.filled_plainMode]
  rfl

/-- What a successful `truncate` has done. -/
theorem truncate_done {size : UInt64} (h : fs.truncate posix p size s = (.ok (), s')) :
    ∃ l k i old, lookup s true (fs.joined p) = .ok (.at l k) ∧ s.tree.get l = some i
      ∧ i.node = .file old ∧ s' = (s.touch [l]).putData l i (cutBytes size.toNat old) := by
  have hx := checked_cases fs (fun q =>
    Eff.mapErr HostFs.mapIo (posix.openFile truncateOptions q) >>= fun f =>
      Eff.mapErr HostFs.mapIo (posix.setLen f size)) s p
  have hdef : fs.truncate posix p size = (fs.checkRw >>= fun _ => fs.resolve posix p >>= fun q =>
    Eff.mapErr HostFs.mapIo (posix.openFile truncateOptions q) >>=
      fun f => Eff.mapErr HostFs.mapIo (posix.setLen f size)) := rfl
  rw [← hdef, h] at hx
  rcases hx with hx | ⟨e, hx⟩
  · rcases openFile_cases truncateOptions s (fs.joined p) with ⟨w, s₁, hl, hop, hopened, hopen⟩ |
      ⟨⟨e, hopen⟩, -⟩
    · have hopen' : posix.openFile truncateOptions (fs.joined p) s
          = (.ok ⟨w.place, 0⟩, s₁.touch [w.place]) := hopen
      rw [Eff.bind_of_ok (Eff.mapErr_of_ok hopen')] at hx
      cases hopened with
      | new d n hn => cases hop
      | dir l k hn ho => cases ho
      | cut l k i data hg hi ht => cases ht
      | keep l k i data hg hi ht =>
          by_cases hsize : maxOffset < size.toNat
          · have hset : posix.setLen ⟨l, 0⟩ size (s.touch [l])
                = (.error lenOutOfRange, s.touch [l]) := by
              show TokimoHost.setLen ⟨l, 0⟩ size (s.touch [l]) = _
              rw [TokimoHost.setLen, if_pos hsize]
            cases hx.trans (Eff.mapErr_of_error hset)
          · have hset : posix.setLen ⟨l, 0⟩ size (s.touch [l])
                = (.ok (), (s.touch [l]).putData l i (resize size.toNat data)) := by
              show TokimoHost.setLen ⟨l, 0⟩ size (s.touch [l]) = _
              rw [TokimoHost.setLen, if_neg hsize]
              simp only [HostState.touch_tree, hg, hi]
            rw [resize_eq_cutBytes] at hset
            exact ⟨l, k, i, data, hl, hg, hi,
              (Prod.mk.inj (hx.trans (Eff.mapErr_of_ok hset))).2⟩
    · have hopen' : posix.openFile truncateOptions (fs.joined p) s = (.error e, s) := hopen
      rw [Eff.bind_of_error (Eff.mapErr_of_error hopen')] at hx
      cases hx
  · cases hx

theorem cutBytes_length (size : Nat) (old : Bytes) : (cutBytes size old).length = size := by
  rw [cutBytes, List.length_map, List.length_range]

/-- After a successful `truncate` the path leads to a file of that size, no
    path leads elsewhere, and of every object all but its size is as before. -/
theorem truncate_sizes {size : UInt64} (h : fs.truncate posix p size s = (.ok (), s')) :
    (∃ l k i data, lookup s' true (fs.joined p) = .ok (.at l k) ∧ s'.tree.get l = some i
        ∧ i.node = .file data ∧ data.length = size.toNat)
      ∧ ∀ v, (s'.tree.get v).map unsized = (s.tree.get v).map unsized := by
  obtain ⟨l, k, i, old, hl, hg, hi, rfl⟩ := truncate_done h
  have hold : nodeAt s.tree l = some (.file old) := hi ▸ nodeAt_of_get hg
  have hsame : SameBut s l (cutBytes size.toNat old)
      ((s.touch [l]).putData l i (cutBytes size.toNat old)) :=
    (SameBut.touch ⟨rfl, fun _ _ => rfl, hold⟩ [l]).putData i _
  have hput : ((s.touch [l]).putData l i (cutBytes size.toNat old)).tree.get l
      = some ((s.touch [l]).filled i (cutBytes size.toNat old)) :=
    Table.get_insert_self _ _ _
  refine ⟨⟨l, k, _, _, (hsame.lookup hold true _).trans hl, hput, rfl, cutBytes_length _ _⟩, ?_⟩
  intro v
  by_cases hv : l = v
  · rw [← hv, hput, hg, Option.map_some, Option.map_some, unsized_filled]
  · have hother : ((s.touch [l]).putData l i (cutBytes size.toNat old)).tree.get v
        = s.tree.get v := Table.get_insert_ne _ _ hv
    rw [hother]

/-- The size of what a path leads to, asked without following a last link. -/
theorem stat_sized {a : FileAttr} {l : Loc} {k : Nat} {i : Inode} {data : Bytes}
    (h : (fs.stat posix p s).1 = .ok a) (hl : lookup s true (fs.joined p) = .ok (.at l k))
    (hi : s.tree.get l = some i) (hdata : i.node = .file data) (hkind : a.kind ≠ .symlink) :
    a.size = data.length := by
  obtain ⟨r, l', k', i', -, hl', hi', rfl⟩ := accepted_of_stat h
  obtain ⟨hnul, hne, hwalk⟩ := lookup_ok hl
  obtain ⟨d, k'', hno, hend⟩ := walk_nofollow _ _ _ hwalk
  rw [lookup_walk hnul hne, hno] at hl'
  obtain ⟨rfl, -⟩ := Walked.at.inj (Except.ok.inj hl')
  rcases hend with rfl | ⟨target, hlink⟩
  · rw [hi] at hi'
    rw [← Option.some.inj hi']
    show i.metadata.len = _
    rw [Inode.metadata, hdata]
  · -- a last link would have been shown
    rw [nodeAt_of_get hi'] at hlink
    refine absurd ?_ hkind
    show i'.node.kind = .symlink
    rw [Option.some.inj hlink]
    rfl

/-! ## New objects -/

/-- The mode of an object, but for the set-id bits, is its own, or the host's
    for new ones. -/
def KeepsModes (fresh : Nat) (s s' : HostState) : Prop :=
  ∀ l i, s'.tree.get l = some i →
    plainMode i.mode = plainMode (((s.tree.get l).map Inode.mode).getD fresh)

theorem keepsModes_addNode {fresh mode : Nat} {l : Loc} (hn : nodeAt s.tree l = none)
    (node : Node) (hmode : plainMode mode = plainMode fresh) :
    KeepsModes fresh s (s.addNode l node mode) := by
  intro v i hi
  have hget : Table.get (s.tree.insert l _) v = some i := hi
  rw [Table.get_insert] at hget
  by_cases hv : l = v
  · rw [if_pos hv] at hget
    rw [← hv, nodeAt_none_iff.mp hn, ← Option.some.inj hget]
    exact hmode
  · rw [if_neg hv] at hget
    rw [hget]
    rfl

theorem Opened.keepsModes {o : OpenOptions} {w : Walked} (h : Opened o s w s') :
    KeepsModes s.fileMode s s' := by
  have hrefl : KeepsModes s.fileMode s s := by
    intro v i hi
    rw [hi]
    rfl
  cases h with
  | new d n hn => exact keepsModes_addNode hn _ rfl
  | dir l k hn ho => exact hrefl
  | keep l k i data hg hi ht => exact hrefl
  | cut l k i data hg hi ht =>
      intro v j hj
      have hget : Table.get (s.tree.insert l _) v = some j := hj
      rw [Table.get_insert] at hget
      by_cases hv : l = v
      · rw [if_pos hv] at hget
        rw [← hv, hg, ← Option.some.inj hget, HostState.filled_plainMode]
        rfl
      · rw [if_neg hv] at hget
        rw [hget]
        rfl

/-- What a successful `create` or `mkdir` answered: attributes the path still
    has, of an object whose mode, set-id bits aside, is not the request's. -/
structure Answers (fs : HostFs) (p : PathBuf) (fresh : Nat) (a : FileAttr)
    (s s' : HostState) : Prop where
  asked : (fs.stat posix p s').1 = .ok a
  object : ∃ l i, s'.tree.get l = some i ∧ a = HostFs.attrFromMeta i.metadata
    ∧ plainMode i.mode = plainMode (((s.tree.get l).map Inode.mode).getD fresh)

/-- The attributes that are asked for last, of a path that stays accepted. -/
theorem answers_of_last {fresh : Nat} {s₁ : HostState} {a : FileAttr} (hacc : Accepted s₁ fs p r)
    (hmodes : KeepsModes fresh s s₁)
    (h : (Eff.mapErr HostFs.mapIo (posix.symlinkMetadata (fs.joined p)) >>= fun m =>
      (pure (HostFs.attrFromMeta m) : VfsM HostState FileAttr)) s₁ = (.ok a, s')) :
    Answers fs p fresh a s s' := by
  rcases symlinkMetadata_cases s₁ (fs.joined p) with ⟨l, k, i, hl, hi, hm⟩ | ⟨⟨e, hm⟩, -⟩
  · have hm' : posix.symlinkMetadata (fs.joined p) s₁ = (.ok i.metadata, s₁.touch [l]) := hm
    rw [Eff.bind_of_ok (Eff.mapErr_of_ok hm')] at h
    obtain ⟨ha, rfl⟩ := Prod.mk.inj h
    rw [← Except.ok.inj ha]
    have hacc' : Accepted (s₁.touch [l]) fs p r := hacc
    have hagain := stat_of_lookup hacc' hl hi
    exact ⟨congrArg Prod.fst hagain, l, i, hi, rfl, hmodes l i hi⟩
  · have hm' : posix.symlinkMetadata (fs.joined p) s₁ = (.error e, s₁) := hm
    rw [Eff.bind_of_error (Eff.mapErr_of_error hm')] at h
    exact nomatch h

/-- An operation that succeeds was let through. -/
theorem checked_accepted {α : Type} {x : PathBuf → VfsM HostState α} {v : α}
    (h : (fs.checkRw >>= fun _ => fs.resolve posix p >>= x) s = (.ok v, s')) :
    ∃ r, Accepted s fs p r ∧ x (fs.joined p) s = (.ok v, s') := by
  cases hro : fs.readOnly with
  | true =>
      rw [Eff.bind_of_error (checkRw_ro hro s)] at h
      exact nomatch h
  | false =>
      rw [Eff.bind_of_ok (checkRw_rw hro s)] at h
      rcases resolve_cases fs s p with ⟨r, hacc, hres⟩ | ⟨-, e, hres⟩
      · rw [Eff.bind_of_ok hres] at h
        exact ⟨r, hacc, h⟩
      · rw [Eff.bind_of_error hres] at h
        exact nomatch h

theorem create_answers (hw : HostWf s) {mode : UInt32} {a : FileAttr}
    (h : fs.create posix p mode s = (.ok a, s')) : Answers fs p s.fileMode a s s' := by
  obtain ⟨r, hacc, h⟩ := checked_accepted (x := fun q =>
    Eff.mapErr HostFs.mapIo (posix.openFile writeOptions q) >>= fun _ =>
      Eff.mapErr HostFs.mapIo (posix.symlinkMetadata q) >>= fun m =>
        (pure (HostFs.attrFromMeta m) : VfsM HostState FileAttr)) h
  rcases openFile_cases writeOptions s (fs.joined p) with ⟨w, s₁, hl, -, hopened, hopen⟩ |
    ⟨⟨e, hopen⟩, -⟩
  · have hopen' : posix.openFile writeOptions (fs.joined p) s
        = (.ok ⟨w.place, 0⟩, s₁.touch [w.place]) := hopen
    rw [Eff.bind_of_ok (Eff.mapErr_of_ok hopen')] at h
    obtain ⟨hcwd, -, hext⟩ := hopened.extends
    have hent : r = [] ∨ ∃ c, realpath s (fs.probe p) = .ok c := by
      rcases accepted_enters hw hacc hl with hr | ⟨c, k, sg, hent, -⟩
      · exact Or.inl hr
      · exact Or.inr ⟨c, probe_entered hw hent (lookup_ok hl).1⟩
    have hacc' : Accepted (s₁.touch [w.place]) fs p r := hacc.extend hent hcwd hext
    exact answers_of_last hacc' (Opened.keepsModes hopened : KeepsModes s.fileMode s s₁) h
  · have hopen' : posix.openFile writeOptions (fs.joined p) s = (.error e, s) := hopen
    rw [Eff.bind_of_error (Eff.mapErr_of_error hopen')] at h
    exact nomatch h

theorem mkdir_answers (hw : HostWf s) {mode : UInt32} {a : FileAttr}
    (h : fs.mkdir posix p mode s = (.ok a, s')) : Answers fs p s.dirMode a s s' := by
  obtain ⟨r, hacc, h⟩ := checked_accepted (x := fun q =>
    Eff.mapErr HostFs.mapIo (posix.createDir q) >>= fun _ =>
      Eff.mapErr HostFs.mapIo (posix.symlinkMetadata q) >>= fun m =>
        (pure (HostFs.attrFromMeta m) : VfsM HostState FileAttr)) h
  rcases createDir_cases s (fs.joined p) with ⟨d, n, slash, hl, hfree, hmake⟩ | ⟨e, hmake⟩
  · have hmake' : posix.createDir (fs.joined p) s
        = (.ok (), (s.addNode (d ++ [n]) .dir (s.newDirMode d)).touch [d ++ [n]]) := hmake
    rw [Eff.bind_of_ok (Eff.mapErr_of_ok hmake')] at h
    have hext : ∀ v, nodeAt s.tree v ≠ none → shapeAt s.tree v
        = shapeAt (s.addNode (d ++ [n]) .dir (s.newDirMode d)).tree v := by
      intro v hv
      rw [shapeAt, shapeAt, HostState.addNode, nodeAt_insert, if_neg]
      rintro rfl
      exact hv hfree
    have hent : r = [] ∨ ∃ c, realpath s (fs.probe p) = .ok c := by
      rcases lookupParent_enters hw hacc hl with hr | ⟨-, -, k, hent⟩
      · exact Or.inl hr
      · exact Or.inr ⟨d, probe_entered hw hent (lookupParent_entry hl).1⟩
    have hacc' : Accepted ((s.addNode (d ++ [n]) .dir (s.newDirMode d)).touch [d ++ [n]]) fs p r :=
      hacc.extend hent rfl hext
    have hmodes : KeepsModes s.dirMode s (s.addNode (d ++ [n]) .dir (s.newDirMode d)) :=
      keepsModes_addNode hfree _ (plainMode_inheritSetGid _ _)
    exact answers_of_last hacc' hmodes h
  · have hmake' : posix.createDir (fs.joined p) s = (.error e, s) := hmake
    rw [Eff.bind_of_error (Eff.mapErr_of_error hmake')] at h
    cases h

end TokimoHostFs

namespace TokimoFuseAgent

open TokimoMachine TokimoBytes TokimoPath TokimoTable TokimoVfsCore TokimoHost TokimoHostFs
open TokimoRpc (remote remote_eq)

/-! ## The requests -/

/-- A time of a `setattr`, in seconds. -/
inductive TimeOrNow where
  | specificTime (secs : Int)
  | now
  deriving DecidableEq, Repr

/-- What a `setattr` asks for. -/
structure SetattrRequest where
  ino : Nat
  mode : Option UInt32
  uid : Option UInt32
  gid : Option UInt32
  size : Option UInt64
  atime : Option TimeOrNow
  mtime : Option TimeOrNow
  deriving DecidableEq, Repr

/-- `setattr` with all it is called with; `_mode`, `_uid`, `_gid`, `_atime`
    and `_mtime` are not read. -/
def setattrWith {σ : Type} (vfs : TokimoVfs σ) (r : SetattrRequest) : FuseM σ FuseAttr :=
  setattr vfs r.ino r.size

/-- The attributes are those that were asked for. -/
structure Honours (r : SetattrRequest) (attr : FuseAttr) : Prop where
  mode : ∀ m, r.mode = some m → attr.perm = m.toNat % 0o10000
  uid : ∀ u, r.uid = some u → attr.uid = u.toNat
  gid : ∀ g, r.gid = some g → attr.gid = g.toNat
  size : ∀ sz, r.size = some sz → attr.size = sz.toNat
  atime : ∀ t, r.atime = some (.specificTime t) → attr.atime = t.toNat
  mtime : ∀ t, r.mtime = some (.specificTime t) → attr.mtime = t.toNat

/-- The mount of a host directory, as the agent has it. -/
def mounted (fs : HostFs) : TokimoVfs HostState := remote (fs.toVfs posix)

/-- A call of the mount is a call of the directory. -/
theorem mounted_eq (fs : HostFs) : mounted fs = fs.toVfs posix := remote_eq _

/-! ## What a request that succeeds has done -/

section Requests

variable {σ : Type} {vfs : TokimoVfs σ} {a : TokimoFuse} {s : σ}

theorem getattr_of_stat {ino : Nat} {p : PathBuf} {v : FileAttr} (hp : a.pathFor ino = some p)
    (h : (vfs.stat p s).1 = .ok v) : (getattr vfs ino (a, s)).1 = .ok (toFuseAttr ino v) := by
  have hcall : call (vfs.stat p) (a, s) = (.ok v, (a, (vfs.stat p s).2)) :=
    call_of_ok a s (Prod.ext h rfl)
  rw [getattr, path_bind, hp]
  show (((call (vfs.stat p)) >>= fun v => pure (toFuseAttr ino v)) (a, s)).1 = _
  rw [Eff.bind_of_ok hcall]
  rfl

theorem setattr_ok {ino : Nat} {size : Option UInt64} {attr : FuseAttr} {st : TokimoFuse × σ}
    (h : setattr vfs ino size (a, s) = (.ok attr, st)) :
    ∃ p v s₁ s', a.pathFor ino = some p
      ∧ (size = none → s₁ = s) ∧ (∀ sz, size = some sz → vfs.truncate p sz s = (.ok (), s₁))
      ∧ vfs.stat p s₁ = (.ok v, s') ∧ attr = toFuseAttr ino v ∧ st = (a, s') := by
  obtain ⟨p, st₁, h1, h⟩ := Eff.bind_ok h
  obtain ⟨hp, rfl⟩ := path_ok h1
  have hlast : ∀ {s₁ : σ}, (call (vfs.stat p) >>= fun v => pure (toFuseAttr ino v)) (a, s₁)
      = (.ok attr, st) →
      ∃ v s', vfs.stat p s₁ = (.ok v, s') ∧ attr = toFuseAttr ino v ∧ st = (a, s') := by
    intro s₁ h
    obtain ⟨v, st₂, h2, h⟩ := Eff.bind_ok h
    obtain ⟨s', hs, rfl⟩ := call_ok h2
    obtain ⟨h3, h4⟩ := Prod.mk.inj h
    exact ⟨v, s', hs, (Except.ok.inj h3).symm, h4.symm⟩
  cases size with
  | none =>
      obtain ⟨v, s', hs, hattr, hst⟩ := hlast h
      exact ⟨p, v, s, s', hp, fun _ => rfl, (fun sz hsz => nomatch hsz), hs, hattr, hst⟩
  | some sz =>
      obtain ⟨u, st₂, h2, h⟩ := Eff.bind_ok h
      obtain ⟨s₁, htr, rfl⟩ := call_ok h2
      obtain ⟨v, s', hs, hattr, hst⟩ := hlast h
      refine ⟨p, v, s₁, s', hp, (fun hnone => nomatch hnone), fun sz' hsz => ?_, hs, hattr,
        hst⟩
      rw [← Option.some.inj hsz]
      exact htr

end Requests

/-- What a successful `setattr` has done: the size that was asked for is set,
    nothing else of any object is, and the number has the attributes that were
    answered, which are the host's. -/
structure SetsSize (fs : HostFs) (r : SetattrRequest) (s : HostState) (attr : FuseAttr)
    (st : TokimoFuse × HostState) : Prop where
  reported : (getattr (mounted fs) r.ino st).1 = .ok attr
  object : ∃ l i, st.2.tree.get l = some i
    ∧ attr = toFuseAttr r.ino (HostFs.attrFromMeta i.metadata)
  resized : ∀ sz, r.size = some sz →
    (attr.kind ≠ .symlink → attr.size = sz.toNat)
      ∧ ∃ p l k i data, st.1.pathFor r.ino = some p
        ∧ TokimoHost.lookup st.2 true (fs.joined p) = .ok (.at l k) ∧ st.2.tree.get l = some i
        ∧ i.node = .file data ∧ data.length = sz.toNat
  kept : ∀ v, (st.2.tree.get v).map unsized = (s.tree.get v).map unsized
  untouched : r.size = none → st.2.tree = s.tree

/-- What a successful `create` or `mkdir` has done: the number it answers has
    the attributes it answers, and these are an object's with the mode it had,
    or that the host gives new ones, set-id bits aside. -/
structure MakesEntry (fs : HostFs) (fresh : Nat) (s : HostState) (attr : FuseAttr)
    (st : TokimoFuse × HostState) : Prop where
  reported : (getattr (mounted fs) attr.ino st).1 = .ok attr
  object : ∃ l i, st.2.tree.get l = some i
    ∧ attr = toFuseAttr attr.ino (HostFs.attrFromMeta i.metadata)
    ∧ plainMode i.mode = plainMode (((s.tree.get l).map Inode.mode).getD fresh)

theorem setattr_setsSize {fs : HostFs} {a : TokimoFuse} {s : HostState} {r : SetattrRequest}
    {attr : FuseAttr} {st : TokimoFuse × HostState}
    (h : setattrWith (mounted fs) r (a, s) = (.ok attr, st)) : SetsSize fs r s attr st := by
  obtain ⟨p, v, s₁, s', hp, hnone, hsome, hcall, rfl, rfl⟩ := setattr_ok h
  rw [mounted_eq] at hcall hsome
  have hstat : fs.stat posix p s₁ = (.ok v, s') := hcall
  have hsized : ∀ sz, r.size = some sz → fs.truncate posix p sz s = (.ok (), s₁) := hsome
  -- asking for the attributes has left the tree as it was resized
  obtain ⟨l, i, rfl, hi, hv, hagain⟩ := stat_again hstat
  refine ⟨getattr_of_stat hp hagain, ⟨l, i, hi, by rw [hv]⟩, ?_, ?_, ?_⟩
  · intro sz hsz
    obtain ⟨⟨l', k, i', data, hl, hi', hdata, hlen⟩, -⟩ := truncate_sizes (hsized sz hsz)
    refine ⟨fun hkind => ?_, p, l', k, i', data, hp, hl, hi', hdata, hlen⟩
    have hfile : v.kind ≠ .symlink := by
      intro hk
      refine hkind ?_
      show fileType v.kind = .symlink
      rw [hk]
      rfl
    show v.size = sz.toNat
    rw [← hlen]
    exact stat_sized (congrArg Prod.fst hstat) hl hi' hdata hfile
  · intro u
    show (s₁.tree.get u).map unsized = _
    cases hsize : r.size with
    | none => rw [hnone hsize]
    | some sz => exact (truncate_sizes (hsized sz hsize)).2 u
  · intro hsize
    show s₁.tree = s.tree
    rw [hnone hsize]

/-- What a host directory lists are single names. -/
theorem hostFs_lists_names (fs : HostFs) : ListsNames (mounted fs) := by
  rw [mounted_eq]
  intro p s s' entries h e he
  rcases hostFs_list_cases fs s p with ⟨r, l, k, -, -, -, hlist⟩ | ⟨-, e', hlist⟩
  · have heq := (Prod.mk.inj ((show (fs.toVfs posix).list p s = _ from h).symm.trans hlist)).1
    rw [Except.ok.inj heq] at he
    obtain ⟨c, -, rfl⟩ := List.mem_map.mp he
    exact Or.inr (Or.inr (ordinary_toStringLossy c.1))
  · exact nomatch (show (fs.toVfs posix).list p s = _ from h).symm.trans hlist

/-- A number that was just given to a path has what the path has. -/
theorem makesEntry_of_answers {fs : HostFs} {a a' : TokimoFuse} {s s' : HostState} {l : Loc}
    {fresh : Nat} {v : FileAttr}
    (hp : a'.pathFor (a.intern (spell l)).1 = some (spell l))
    (h : Answers fs (spell l) fresh v s s') :
    MakesEntry fs fresh s (toFuseAttr (a.intern (spell l)).1 v) (a', s') := by
  obtain ⟨place, i, hi, hv, hmode⟩ := h.object
  exact ⟨getattr_of_stat hp h.asked, place, i, hi, by rw [hv]; rfl, hmode⟩

/-- **WHAT IS ACKNOWLEDGED**: a success says that the size was set and that
    the entry was made; a mode, an owner and times have no part in it. -/
structure Acknowledged (fs : HostFs) (a : TokimoFuse) (s : HostState) : Prop where
  setattr : ∀ (r : SetattrRequest) {attr : FuseAttr} {st : TokimoFuse × HostState},
    setattrWith (mounted fs) r (a, s) = (.ok attr, st) →
      SetsSize fs r s attr st
        ∧ ∀ r' : SetattrRequest, r'.ino = r.ino → r'.size = r.size →
          setattrWith (mounted fs) r' (a, s) = (.ok attr, st)
  create : ∀ (parent : Nat) (name : Name) (mode : UInt32) {attr : FuseAttr} {fh : Nat}
    {st : TokimoFuse × HostState},
    create (mounted fs) parent name.1 mode (a, s) = (.ok (attr, fh), st) →
      MakesEntry fs s.fileMode s attr st
        ∧ ∀ mode', create (mounted fs) parent name.1 mode' (a, s) = (.ok (attr, fh), st)
  mkdir : ∀ (parent : Nat) (name : Name) (mode : UInt32) {attr : FuseAttr}
    {st : TokimoFuse × HostState},
    mkdir (mounted fs) parent name.1 mode (a, s) = (.ok attr, st) →
      MakesEntry fs s.dirMode s attr st
        ∧ ∀ mode', mkdir (mounted fs) parent name.1 mode' (a, s) = (.ok attr, st)

theorem acknowledged_changes {fs : HostFs} {a : TokimoFuse} {s : HostState}
    (ha : Reached (mounted fs) a) (hw : HostWf s) : Acknowledged fs a s := by
  have hspelled := ha.spelled (hostFs_lists_names fs)
  refine ⟨?_, ?_, ?_⟩
  · intro r attr st h
    refine ⟨setattr_setsSize h, fun r' hino hsize => ?_⟩
    rw [setattrWith, hino, hsize]
    exact h
  · intro parent name mode attr fh st h
    refine ⟨?_, fun _ => h⟩
    obtain ⟨p, v, s', hp, hcall, hr, rfl⟩ := create_ok h
    obtain ⟨rfl, -⟩ := Prod.mk.inj hr
    obtain ⟨l, rfl⟩ := hspelled parent p hp
    rw [← spell_concat, mounted_eq] at hcall
    rw [← spell_concat]
    have hmade : fs.create posix (spell (l ++ [name])) mode s = (.ok v, s') := hcall
    exact makesEntry_of_answers (intern_pathFor ha.wf hspelled _) (create_answers hw hmade)
  · intro parent name mode attr st h
    refine ⟨?_, fun _ => h⟩
    obtain ⟨p, v, s', hp, hcall, rfl, rfl⟩ := mkdir_ok h
    obtain ⟨l, rfl⟩ := hspelled parent p hp
    rw [← spell_concat, mounted_eq] at hcall
    rw [← spell_concat]
    have hmade : fs.mkdir posix (spell (l ++ [name])) mode s = (.ok v, s') := hcall
    exact makesEntry_of_answers (intern_pathFor ha.wf hspelled _) (mkdir_answers hw hmade)

/-- The agent of the mount of `/r`, asked for its file once. -/
def fileAgent : TokimoFuse := (serve (mounted chunkFs) (.lookup 1 [102]) (.start, chunkHost)).2.1

/-- Three bytes and another mode. -/
def resizeFile : SetattrRequest where
  ino := 2
  mode := some 0o600
  uid := some 7
  gid := none
  size := some 3
  atime := none
  mtime := some (.specificTime 5)

/-- A size is set and reported, whatever comes with it. -/
theorem resized_file_is_reported : ∃ attr st,
    setattrWith (mounted chunkFs) resizeFile (fileAgent, chunkHost) = (.ok attr, st)
      ∧ attr.size = 3 ∧ (getattr (mounted chunkFs) 2 st).1 = .ok attr := by
  have hwf : HostWf chunkHost := ⟨treeWf_of_entries (by decide) (by decide), by decide⟩
  have hreached : Reached (mounted chunkFs) fileAgent :=
    .step chunkHost (.lookup 1 [102]) .start (by decide)
  cases h : setattrWith (mounted chunkFs) resizeFile (fileAgent, chunkHost) with
  | mk res st =>
      have hres : res = (setattrWith (mounted chunkFs) resizeFile (fileAgent, chunkHost)).1 := by
        rw [h]
      cases res with
      | error e =>
          rw [show (setattrWith (mounted chunkFs) resizeFile (fileAgent, chunkHost)).1
            = .ok _ from rfl] at hres
          exact nomatch hres
      | ok attr =>
          obtain ⟨hset, -⟩ := (acknowledged_changes hreached hwf).setattr resizeFile h
          refine ⟨attr, st, rfl, (hset.resized 3 rfl).1 ?_, hset.reported⟩
          rw [Except.ok.inj hres]
          decide

/-- A request that asks for nothing. -/
def askNothing : SetattrRequest where
  ino := 2
  mode := none
  uid := none
  gid := none
  size := none
  atime := none
  mtime := none

/-- A `chmod`, a `chown`, a `chgrp` and the two times of a `utimensat`. -/
def dropped : List SetattrRequest :=
  [{ askNothing with mode := some 0o600 }, { askNothing with uid := some 7 },
    { askNothing with gid := some 7 }, { askNothing with atime := some (.specificTime 5) },
    { askNothing with mtime := some (.specificTime 5) }]

/-- The mount of `/r` with a link to the file in it, `/r/l`. -/
def linkHost : HostState :=
  { chunkHost with
    tree := chunkHost.tree ++ [([⟨[114], Eq.refl true⟩, ⟨[108], Eq.refl true⟩],
      { id := 3, node := .symlink (.ofBytes [102]), mode := 0o120777, mtime := 0, atime := 0,
        ctime := 0 })] }

/-- The agent that was asked for the link. -/
def linkAgent : TokimoFuse := (serve (mounted chunkFs) (.lookup 1 [108]) (.start, linkHost)).2.1

/-- A mode, an owner, a group and times are each dropped and acknowledged, so
    is the mode of what is new, and a size set through a link is not the
    link's. -/
theorem mode_change_is_dropped :
    Reached (mounted chunkFs) fileAgent ∧ Reached (mounted chunkFs) linkAgent
      ∧ (∀ r ∈ dropped, ∃ attr st,
          setattrWith (mounted chunkFs) r (fileAgent, chunkHost) = (.ok attr, st)
        ∧ (getattr (mounted chunkFs) 2 st).1 = .ok attr ∧ ¬ Honours r attr)
      ∧ (∃ attr st, mkdir (mounted chunkFs) 1 [100] 0o700 (fileAgent, chunkHost) = (.ok attr, st)
        ∧ (getattr (mounted chunkFs) attr.ino st).1 = .ok attr ∧ attr.perm = 0o755)
      ∧ (∃ attr fh st,
          create (mounted chunkFs) 1 [100] 0o600 (fileAgent, chunkHost) = (.ok (attr, fh), st)
        ∧ (getattr (mounted chunkFs) attr.ino st).1 = .ok attr ∧ attr.perm = 0o644)
      ∧ ∃ attr st, setattrWith (mounted chunkFs) resizeFile (linkAgent, linkHost) = (.ok attr, st)
        ∧ (getattr (mounted chunkFs) 2 st).1 = .ok attr ∧ attr.kind = .symlink ∧ attr.size = 1 := by
  refine ⟨.step chunkHost (.lookup 1 [102]) .start (by decide),
    .step linkHost (.lookup 1 [108]) .start (by decide), ?_, ?_, ?_, ?_⟩
  · rw [dropped]
    refine List.forall_mem_cons.mpr ⟨⟨_, _, rfl, rfl, fun h => ?_⟩,
      List.forall_mem_cons.mpr ⟨⟨_, _, rfl, rfl, fun h => ?_⟩,
      List.forall_mem_cons.mpr ⟨⟨_, _, rfl, rfl, fun h => ?_⟩,
      List.forall_mem_cons.mpr ⟨⟨_, _, rfl, rfl, fun h => ?_⟩,
      List.forall_mem_cons.mpr ⟨⟨_, _, rfl, rfl, fun h => ?_⟩, List.forall_mem_nil _⟩⟩⟩⟩⟩
    · exact absurd (h.mode 0o600 rfl) (by decide)
    · exact absurd (h.uid 7 rfl) (by decide)
    · exact absurd (h.gid 7 rfl) (by decide)
    · exact absurd (h.atime 5 rfl) (by decide)
    · exact absurd (h.mtime 5 rfl) (by decide)
  · exact ⟨_, _, rfl, rfl, rfl⟩
  · exact ⟨_, _, _, rfl, rfl, rfl⟩
  · exact ⟨_, _, rfl, rfl, rfl, rfl⟩

end TokimoFuseAgent
