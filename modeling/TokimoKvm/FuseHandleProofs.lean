import TokimoKvm.FuseTableProofs
import TokimoKvm.HostObjectProofs

/-! # Open handles and files

    A handle is a name for the path the agent had when it was opened; the host
    opens that path again on each request.  So a handle acts on the file it was
    opened on exactly as long as the path leads there, or nowhere, and this is
    so along every run in which nothing on the way of the path is removed,
    moved or replaced. -/

namespace TokimoFuseAgent

open TokimoMachine TokimoBytes TokimoPath TokimoTable TokimoVfsCore TokimoHost TokimoHostFs

/-! ## The agent over a host directory -/

/-- The agent over a host, with the handles it gave to files, each with the
    file that was there. -/
structure Handling where
  agent : TokimoFuse
  host : HostState
  opened : List (Nat × Option Nat)
  deriving DecidableEq

/-- The file the path of a handle leads to. -/
def handleFile (fs : HostFs) (a : TokimoFuse) (s : HostState) (fh : Nat) : Option Nat :=
  (a.fhs.get fh).bind (fileAt fs s)

/-- The handle an answer gives out.  `opendir` gives them out too, but not to
    read and write. -/
def openedBy (fs : HostFs) (a : TokimoFuse) (s : HostState) :
    FuseRequest → FuseReply → List (Nat × Option Nat)
  | .open' _, .opened fh => [(fh, handleFile fs a s fh)]
  | .create .., .created _ fh => [(fh, handleFile fs a s fh)]
  | _, _ => []

/-- Any request, with its answer. -/
def handling (fs : HostFs) : Machine Handling FuseRequest (Except Errno FuseReply) where
  step st req :=
    let r := serve (fs.toVfs posix) req (st.agent, st.host)
    some (
      { agent := r.2.1
        host := r.2.2
        opened := st.opened ++ match r.1 with
          | .ok reply => openedBy fs r.2.1 r.2.2 req reply
          | .error _ => [] },
      [r.1])

def Handling.start (s : HostState) : Handling where
  agent := .start
  host := s
  opened := []

/-! ## What a request removes, moves or replaces -/

/-- The places of the entries a request names to remove or move. -/
def named (fs : HostFs) (a : TokimoFuse) (s : HostState) : FuseRequest → List Loc
  | .unlink parent name =>
      (a.pathFor parent).toList.flatMap fun p => (entryPlace fs s (join p name)).toList
  | .rmdir parent name =>
      (a.pathFor parent).toList.flatMap fun p => (entryPlace fs s (join p name)).toList
  | .rename parent name newparent newname =>
      (a.pathFor parent).toList.flatMap fun p =>
        (a.pathFor newparent).toList.flatMap fun q =>
          movedPlaces fs s (join p name) (join q newname)
  | _ => []

/-- The places a request clears or fills, if it is going to succeed. -/
def displaced (fs : HostFs) (a : TokimoFuse) (s : HostState) (req : FuseRequest) : List Loc :=
  match (serve (fs.toVfs posix) req (a, s)).1 with
  | .ok _ => named fs a s req
  | .error _ => []

theorem hostFs_settled (fs : HostFs) : Settled (fs.toVfs posix) (KeepsOff []) where
  stat p := within_of_bare (stat_bare fs p)
  list p := within_of_bare (list_bare fs p)
  read p off len := within_of_bare (read_bare fs p off len)
  write p off data := write_keepsOff fs p off data
  truncate p size := truncate_keepsOff fs p size

section Removing

variable {σ : Type} (a : TokimoFuse) (s : σ)

/-- A call that succeeds makes its request succeed. -/
theorem answered_of_ok {x : FuseM σ Unit} {st : TokimoFuse × σ}
    (h : x (a, s) = (.ok (), st)) :
    (x >>= fun _ => (pure .ok : FuseM σ FuseReply)) (a, s) = (.ok .ok, st) :=
  Eff.bind_of_ok h

theorem call_of_ok {α : Type} {x : VfsM σ α} {v : α} {s' : σ} (h : x s = (.ok v, s')) :
    call x (a, s) = (.ok v, (a, s')) := by
  rw [call, h]

end Removing

/-- A request that removes one entry, by one call at its path. -/
theorem entry_keepsOff {fs : HostFs} {a : TokimoFuse} {s : HostState} {parent : Nat}
    {name : Bytes} {req : FuseRequest} {x : PathBuf → VfsM HostState Unit}
    (hserve : serve (fs.toVfs posix) req
      = ((path parent >>= fun p => call (x (join p name))) >>= fun _ => pure .ok))
    (hnamed : named fs a s req
      = (a.pathFor parent).toList.flatMap fun p => (entryPlace fs s (join p name)).toList)
    (hx : ∀ p, Spares (x p) s (entryPlace fs s p).toList) :
    KeepsOff (displaced fs a s req) s (serve (fs.toVfs posix) req (a, s)).2.2 := by
  have hstore : (serve (fs.toVfs posix) req (a, s)).2.2 = atEntry a s parent name x := by
    rw [hserve, Eff.bind_pure_state, path_bind, atEntry]
    cases a.pathFor parent with
    | none => rfl
    | some p => exact call_store a s _
  rw [hstore, atEntry]
  cases hp : a.pathFor parent with
  | none => exact refl_of _ s
  | some p =>
      show KeepsOff _ s (x (join p name) s).2
      rcases hx (join p name) with ⟨s', h, hkeep⟩ | ⟨e, h⟩
      · have hcall : (path parent >>= fun p => call (x (join p name))) (a, s)
            = (.ok (), (a, s')) := by
          rw [path_bind, hp]
          exact call_of_ok a s h
        have hok : serve (fs.toVfs posix) req (a, s) = (.ok .ok, (a, s')) := by
          rw [hserve]
          exact answered_of_ok a s hcall
        rw [displaced, hok, hnamed, hp, h]
        simp only [Option.toList_some, List.flatMap_cons, List.flatMap_nil, List.append_nil]
        exact hkeep
      · rw [h]
        exact refl_of _ s

/-- **WHAT A REQUEST LEAVES IN PLACE**: everything that is not at or below a
    place it displaces. -/
theorem serve_keepsOff (fs : HostFs) (a : TokimoFuse) (s : HostState) (req : FuseRequest) :
    KeepsOff (displaced fs a s req) s (serve (fs.toVfs posix) req (a, s)).2.2 := by
  cases hreq : req.editsEntries with
  | false => exact ((serve_within (hostFs_settled fs) hreq (a, s)).2).of_nil
  | true =>
      cases req with
      | create parent name mode =>
          have hwithin : Eff.Within (Both (KeepsOff []))
              (serve (fs.toVfs posix) (.create parent name mode)) :=
            Eff.Within.bind (create_within (fun p m => create_keepsOff fs p m) parent name mode)
              fun _ => Eff.Within.pure _
          exact (hwithin (a, s)).2.of_nil
      | mkdir parent name mode =>
          have hwithin : Eff.Within (Both (KeepsOff []))
              (serve (fs.toVfs posix) (.mkdir parent name mode)) :=
            Eff.Within.bind (mkdir_within (fun p m => mkdir_keepsOff fs p m) parent name mode)
              fun _ => Eff.Within.pure _
          exact (hwithin (a, s)).2.of_nil
      | unlink parent name => exact entry_keepsOff rfl rfl fun p => remove_spares fs s p
      | rmdir parent name => exact entry_keepsOff rfl rfl fun p => rmdir_spares fs s p
      | rename parent name newparent newname =>
          rw [rename_store]
          cases hq : a.pathFor newparent with
          | none => exact refl_of _ s
          | some q =>
              simp only [atEntry]
              cases hp : a.pathFor parent with
              | none => exact refl_of _ s
              | some p =>
                  show KeepsOff _ s (fs.rename posix (join p name) (join q newname) s).2
                  -- only a rename displaces something
                  rcases rename_spares fs s (join p name) (join q newname)
                    with ⟨s', h, hkeep⟩ | ⟨e, h⟩
                  · have hcall : rename (fs.toVfs posix) parent name newparent newname (a, s)
                        = (.ok (), (a, s')) := by
                      rw [rename, path_bind, hp]
                      show (path newparent >>= fun np =>
                        call ((fs.toVfs posix).rename (join p name) (join np newname))) (a, s) = _
                      rw [path_bind, hq]
                      exact call_of_ok a s h
                    have hok : serve (fs.toVfs posix) (.rename parent name newparent newname)
                        (a, s) = (.ok .ok, (a, s')) := answered_of_ok a s hcall
                    rw [displaced, hok, h]
                    simp only [named, hp, hq, Option.toList_some, List.flatMap_cons,
                      List.flatMap_nil, List.append_nil]
                    exact hkeep
                  · rw [h]
                    exact refl_of _ s
      | _ => cases hreq

/-! ## A handle keeps its file -/

/-- What opening a file to write it leads to is found there afterwards. -/
theorem opened_file {fs : HostFs} {s s' : HostState} {p : PathBuf} {w : Walked}
    (hl : TokimoHost.lookup s true (fs.joined p) = .ok w) (h : Opened writeOptions s w s') :
    ∃ id, fileAt fs s' p = some id := by
  obtain ⟨hnul, hne, hwalk⟩ := TokimoHost.lookup_ok hl
  obtain ⟨hcwd, -, hext⟩ := Opened.extends h
  cases h with
  | new d n hn =>
      have hg : (s.addNode (d ++ [n]) (.file []) s.fileMode).tree.get (d ++ [n])
          = some ⟨s.nextId, .file [], s.fileMode, s.now, s.now, s.now⟩ :=
        Table.get_insert_self _ _ _
      obtain ⟨k, hfound⟩ := walk_found (nodeAt_of_get hg) hext _ _ _ hwalk
      refine ⟨s.nextId, (fileAt_iff fs).mpr ⟨d ++ [n], k, _, [], ?_, hg, rfl, rfl⟩⟩
      rw [lookup_walk hnul hne]
      exact hfound
  | dir l k hn ho => exact nomatch ho
  | cut l k i data hg hi ht =>
      have hg' : (s.putData l i []).tree.get l
          = some (s.filled i []) :=
        Table.get_insert_self _ _ _
      refine ⟨i.id, (fileAt_iff fs).mpr ⟨l, k, _, [], ?_, hg', rfl, rfl⟩⟩
      rw [lookup_walk hnul hne]
      exact walk_extend hext hwalk
  | keep l k i data hg hi ht => exact nomatch ht

/-- A file that was created is what its path leads to. -/
theorem create_file {fs : HostFs} {s s' : HostState} {p : PathBuf} {mode : UInt32}
    {attr : FileAttr} (h : (fs.toVfs posix).create p mode s = (.ok attr, s')) :
    ∃ id, fileAt fs s' p = some id := by
  let after : Fd → VfsM HostState FileAttr := fun _ =>
    Eff.mapErr HostFs.mapIo (TokimoHost.symlinkMetadata (fs.joined p)) >>= fun m =>
      pure (HostFs.attrFromMeta m)
  have hlooks : ∀ f, Eff.Frame bare (after f) := fun f =>
    Eff.Frame.bind (Eff.Frame.mapErr _ (symlinkMetadata_bare _)) fun _ => Eff.Frame.pure _
  have hx : (fs.toVfs posix).create p mode s
        = (Eff.mapErr HostFs.mapIo (TokimoHost.openFile writeOptions (fs.joined p)) >>= after) s
      ∨ ∃ e, (fs.toVfs posix).create p mode s = (.error e, s) :=
    checked_cases fs (fun q => Eff.mapErr HostFs.mapIo (TokimoHost.openFile writeOptions q) >>=
      fun _ => Eff.mapErr HostFs.mapIo (TokimoHost.symlinkMetadata q) >>= fun m =>
        (pure (HostFs.attrFromMeta m) : VfsM HostState FileAttr)) s p
  rcases hx with hx | ⟨e, hx⟩
  · rcases openFile_cases writeOptions s (fs.joined p) with ⟨w, s₁, hl, -, hopened, hopen⟩ |
      ⟨⟨e, hopen⟩, -⟩
    · -- looking at the file afterwards changes nothing
      rw [hx, Eff.bind_of_ok (Eff.mapErr_of_ok hopen)] at h
      have hbare := hlooks ⟨w.place, 0⟩ (s₁.touch [w.place])
      rw [h] at hbare
      obtain ⟨id, hid⟩ := opened_file hl hopened
      have hkeep : KeepsOff [] s₁ s' := keepsOff_of_bare hbare
      exact ⟨id, fileAt_kept fs hkeep hid fun l hl => nomatch hl⟩
    · rw [hx, Eff.bind_of_error (Eff.mapErr_of_error hopen)] at h
      exact nomatch h
  · rw [hx] at h
    exact nomatch h

/-- What the handle `fh` asks of a request: that it is opened on a file, and
    that nothing on the way of its path is displaced. -/
structure LeavesAlone (fs : HostFs) (fh : Nat) (st : Handling) (req : FuseRequest) : Prop where
  opens : ∀ ino p, req = .open' ino → fh = st.agent.nextFh → st.agent.pathFor ino = some p →
    fileAt fs st.host p ≠ none
  route : ∀ p, st.agent.fhs.get fh = some p →
    ∀ l ∈ displaced fs st.agent st.host req, ∀ v ∈ route fs st.host p, ¬ l <+: v

/-- What every run keeps: handles in use were given out, and the path of a
    handle of a file leads to the file. -/
structure HandlingInv (fs : HostFs) (fh : Nat) (st : Handling) : Prop where
  agent : st.agent.Wf
  issued : ∀ x ∈ st.opened, x.1 < st.agent.nextFh
  leads : ∀ file, (fh, file) ∈ st.opened → ∀ p, st.agent.fhs.get fh = some p →
    ∃ id, file = some id ∧ fileAt fs st.host p = some id

/-- What an answer records: a handle that is new, with a file if there was one
    to open. -/
theorem openedBy_new {fs : HostFs} {a a' : TokimoFuse} {s s' : HostState} {req : FuseRequest}
    {reply : FuseReply} (h : serve (fs.toVfs posix) req (a, s) = (.ok reply, (a', s')))
    {fh : Nat} {file : Option Nat} (hf : (fh, file) ∈ openedBy fs a' s' req reply) :
    fh = a.nextFh ∧ fh < a'.nextFh ∧ file = handleFile fs a' s' fh
      ∧ ∃ p, a'.fhs.get fh = some p
        ∧ ((∃ ino, req = .open' ino ∧ a.pathFor ino = some p ∧ s' = s)
          ∨ ∃ id, fileAt fs s' p = some id) := by
  cases req with
  | open' ino =>
      obtain ⟨fh', st₁, h1, h2⟩ := Eff.bind_ok h
      obtain ⟨hr, rfl⟩ := Prod.mk.inj h2
      rw [← Except.ok.inj hr] at hf
      obtain ⟨p, hp, rfl, hst⟩ := open_ok h1
      obtain ⟨rfl, rfl⟩ := Prod.mk.inj hst
      obtain ⟨rfl, hfile⟩ := Prod.mk.inj (List.mem_singleton.mp hf)
      exact ⟨rfl, Nat.lt_succ_self _, hfile, p, Table.get_insert_self _ _ _,
        Or.inl ⟨ino, rfl, hp, rfl⟩⟩
  | create parent name mode =>
      obtain ⟨r, st₁, h1, h2⟩ := Eff.bind_ok h
      obtain ⟨hr, rfl⟩ := Prod.mk.inj h2
      rw [← Except.ok.inj hr] at hf
      obtain ⟨p, attr, s₁, -, hcreate, rfl, hst⟩ := create_ok h1
      obtain ⟨rfl, rfl⟩ := Prod.mk.inj hst
      obtain ⟨hfh, hfile⟩ := Prod.mk.inj (List.mem_singleton.mp hf)
      have hnext : (a.intern (join p name)).2.nextFh = a.nextFh := by
        rcases intern_cases a (join p name) with ⟨-, hi⟩ | ⟨i, -, hi⟩ | ⟨-, hi⟩
        · rw [hi]
        · rw [hi]
        · rw [hi]
      have hfh' : fh = (a.intern (join p name)).2.nextFh := hfh
      refine ⟨hfh'.trans hnext, ?_, ?_, join p name, ?_, Or.inr (create_file hcreate)⟩
      · rw [hfh']
        exact Nat.lt_succ_self _
      · rw [hfile, hfh]
      · rw [hfh']
        exact Table.get_insert_self _ _ _
  | _ => cases reply <;> exact nomatch hf

/-- One step keeps the invariant, if it leaves the handle alone. -/
theorem handling_step {fs : HostFs} {fh : Nat} {st st' : Handling} {req : FuseRequest}
    {es : List (Except Errno FuseReply)} (hi : HandlingInv fs fh st)
    (hc : LeavesAlone fs fh st req) (hs : (handling fs).step st req = some (st', es)) :
    HandlingInv fs fh st' := by
  obtain ⟨rfl, -⟩ := Prod.mk.inj (Option.some.inj hs)
  have hgrown := (serve_grows (fs.toVfs posix) req (st.agent, st.host)).1 hi.agent
  have hkeep := serve_keepsOff fs st.agent st.host req
  -- an open handle is an older one, or what this answer has opened
  have hnew : ∀ x ∈ st.opened ++ (match (serve (fs.toVfs posix) req (st.agent, st.host)).1 with
      | .ok reply => openedBy fs (serve (fs.toVfs posix) req (st.agent, st.host)).2.1
          (serve (fs.toVfs posix) req (st.agent, st.host)).2.2 req reply
      | .error _ => []), x ∈ st.opened ∨ ∃ a' s' reply,
        serve (fs.toVfs posix) req (st.agent, st.host) = (.ok reply, (a', s'))
          ∧ x ∈ openedBy fs a' s' req reply := by
    intro x hx
    rcases List.mem_append.mp hx with hold | hnew
    · exact Or.inl hold
    · cases hr : serve (fs.toVfs posix) req (st.agent, st.host) with
      | mk r st₁ =>
          rw [hr] at hnew
          cases r with
          | error e => exact nomatch hnew
          | ok reply => exact Or.inr ⟨st₁.1, st₁.2, reply, rfl, hnew⟩
  refine ⟨hgrown.wf, ?_, ?_⟩
  · rintro ⟨f, file⟩ hx
    rcases hnew _ hx with hold | ⟨a', s', reply, hr, hop⟩
    · exact Nat.lt_of_lt_of_le (hi.issued _ hold) hgrown.fresh
    · show f < (serve (fs.toVfs posix) req (st.agent, st.host)).2.1.nextFh
      rw [hr]
      exact (openedBy_new hr hop).2.1
  · intro file hx p hp
    rcases hnew _ hx with hold | ⟨a', s', reply, hr, hop⟩
    · -- an older handle: it has the path it had, and that leads where it led
      have hp' : st.agent.fhs.get fh = some p :=
        hgrown.handles (hi.issued _ hold) hp
      obtain ⟨id, hfile, hat⟩ := hi.leads file hold p hp'
      exact ⟨id, hfile, fileAt_kept fs hkeep hat (hc.route p hp')⟩
    · obtain ⟨hfh, -, hfile, q, hq, hwas⟩ := openedBy_new hr hop
      have hp' : Table.get (serve (fs.toVfs posix) req (st.agent, st.host)).2.1.fhs fh
          = some p := hp
      rw [hr] at hp'
      have hqp : q = p := Option.some.inj (hq.symm.trans hp')
      subst hqp
      show ∃ id, file = some id
        ∧ fileAt fs (serve (fs.toVfs posix) req (st.agent, st.host)).2.2 q = some id
      rw [hr, hfile, handleFile, hq]
      show ∃ id, fileAt fs s' q = some id ∧ fileAt fs s' q = some id
      rcases hwas with ⟨ino, hreq, hpath, rfl⟩ | ⟨id, hid⟩
      · -- opened, on a file as the condition says
        cases hat : fileAt fs st.host q with
        | none => exact absurd hat (hc.opens ino q hreq hfh hpath)
        | some id => exact ⟨id, rfl, rfl⟩
      · exact ⟨id, hid, hid⟩

theorem handling_inv {fs : HostFs} {s₀ : HostState} {fh : Nat} {st : Handling}
    {tr : List (Except Errno FuseReply)}
    (hr : Run (handling fs) (LeavesAlone fs fh) (.start s₀) st tr) : HandlingInv fs fh st := by
  refine Run.invariant (I := fun st _ => HandlingInv fs fh st) ?_ ?_ hr
  · exact ⟨start_wf, (fun x hx => nomatch hx), (fun file hx => nomatch hx)⟩
  · intro st tr req st' es hi hc hs
    exact handling_step hi hc hs

/-! ## What a handle acts on -/

/-- The contents of the file may change, and nothing else: a place with
    another object, or with none, is as it was, and no object is gone. -/
structure OnlyFile (file : Option Nat) (s s' : HostState) : Prop where
  elsewhere : ∀ l, (∀ i, s.tree.get l = some i → some i.id ≠ file) →
    s'.tree.get l = s.tree.get l
  there : ∀ {l : Loc} {i : Inode}, s.tree.get l = some i →
    ∃ i', s'.tree.get l = some i' ∧ SameObject i i'

/-- **HANDLE INTEGRITY**: reading and writing through the handle `fh` acts on
    the file it was opened on, or fails.  A write, also one that fails, changes
    no other object and makes none, and one that succeeds leaves its bytes in
    the file; a read changes nothing, and one that succeeds has looked at the
    file only and returns bytes of it. -/
structure ActsOn (fs : HostFs) (st : Handling) (fh : Nat) (file : Option Nat) : Prop where
  write : ∀ off data, OnlyFile file st.host
    (serve (fs.toVfs posix) (.write fh off data) (st.agent, st.host)).2.2
  written : ∀ off data n st',
    serve (fs.toVfs posix) (.write fh off data) (st.agent, st.host) = (.ok (.written n), st') →
    ∃ l i, st'.2.tree.get l = some i ∧ some i.id = file
      ∧ i.node = .file (freshBytes (clampOffset off).toNat data)
  read : ∀ off size,
    (serve (fs.toVfs posix) (.read fh off size) (st.agent, st.host)).2.2.tree = st.host.tree
  bytes : ∀ off size d st',
    serve (fs.toVfs posix) (.read fh off size) (st.agent, st.host) = (.ok (.data d), st') →
    ∃ l i, st.host.tree.get l = some i ∧ some i.id = file ∧ st'.2 = st.host.touch [l]
      ∧ d = sliceBytes (clampOffset off).toNat size.toNat (nodeBytes i.node)

/-- A place that is not the file's: another object that can be opened, or a
    free name where a write makes a file. -/
def Foreign (fs : HostFs) (s : HostState) (file : Option Nat) : Walked → Prop
  | .at l k => opens readOptions s.tree (.at l k) = true
      ∧ ∀ i, s.tree.get l = some i → some i.id ≠ file
  | .missing _ _ slash => slash = false ∧ fs.readOnly = false

/-- The path of the handle passes the jail check and leads to a foreign place. -/
def Strays (fs : HostFs) (st : Handling) (fh : Nat) (file : Option Nat) : Prop :=
  ∃ p r w, st.agent.fhs.get fh = some p ∧ Accepted st.host fs p r
    ∧ TokimoHost.lookup st.host true (fs.joined p) = .ok w ∧ Foreign fs st.host file w

section Requests

variable {σ : Type} {vfs : TokimoVfs σ} (a : TokimoFuse) (s : σ) {fh : Nat} {p : PathBuf}

theorem handlePath_bind {α : Type} (fh : Nat) (k : PathBuf → FuseM σ α) :
    (handlePath fh >>= k) (a, s) = match a.fhs.get fh with
      | none => (.error .EBADF, (a, s))
      | some p => k p (a, s) := by
  cases hp : a.fhs.get fh with
  | none => exact Eff.bind_of_error (by rw [handlePath, hp])
  | some p => exact Eff.bind_of_ok (by rw [handlePath, hp])

theorem write_store (hp : a.fhs.get fh = some p) (off : Int) (data : Bytes) :
    (serve vfs (.write fh off data) (a, s)).2.2 = (vfs.write p (clampOffset off) data s).2 := by
  rw [serve, Eff.bind_pure_state, write, handlePath_bind, hp]
  exact call_store a s _

theorem read_store (hp : a.fhs.get fh = some p) (off : Int) (size : UInt32) :
    (serve vfs (.read fh off size) (a, s)).2.2 = (vfs.read p (clampOffset off) size s).2 := by
  rw [serve, Eff.bind_pure_state, read, handlePath_bind, hp]
  exact call_store a s _

theorem written_ok (hp : a.fhs.get fh = some p) {off : Int} {data : Bytes} {r : FuseReply}
    {st' : TokimoFuse × σ} (h : serve vfs (.write fh off data) (a, s) = (.ok r, st')) :
    ∃ n, vfs.write p (clampOffset off) data s = (.ok n, st'.2) := by
  obtain ⟨n, st₁, h1, h2⟩ := Eff.bind_ok h
  obtain ⟨-, rfl⟩ := Prod.mk.inj h2
  rw [write, handlePath_bind, hp] at h1
  obtain ⟨s', hs, rfl⟩ := call_ok h1
  exact ⟨n, hs⟩

theorem read_ok (hp : a.fhs.get fh = some p) {off : Int} {size : UInt32} {d : Bytes}
    {st' : TokimoFuse × σ} (h : serve vfs (.read fh off size) (a, s) = (.ok (.data d), st')) :
    vfs.read p (clampOffset off) size s = (.ok d, st'.2) := by
  obtain ⟨d', st₁, h1, h2⟩ := Eff.bind_ok h
  obtain ⟨hr, rfl⟩ := Prod.mk.inj h2
  rw [read, handlePath_bind, hp] at h1
  obtain ⟨s', hs, rfl⟩ := call_ok h1
  rw [← FuseReply.data.inj (Except.ok.inj hr)]
  exact hs

theorem read_of_ok (hp : a.fhs.get fh = some p) {off : Int} {size : UInt32} {d : Bytes} {s' : σ}
    (h : vfs.read p (clampOffset off) size s = (.ok d, s')) :
    serve vfs (.read fh off size) (a, s) = (.ok (.data d), (a, s')) := by
  have h1 : read vfs fh off size (a, s) = (.ok d, (a, s')) := by
    rw [read, handlePath_bind, hp]
    exact call_of_ok a s h
  exact Eff.bind_of_ok h1

/-- A handle that is not open fails. -/
theorem closed_fails (hp : a.fhs.get fh = none) (off : Int) :
    (∀ data, serve vfs (.write fh off data) (a, s) = (.error .EBADF, (a, s)))
      ∧ ∀ size, serve vfs (.read fh off size) (a, s) = (.error .EBADF, (a, s)) := by
  constructor
  · intro data
    have h1 : write vfs fh off data (a, s) = (.error .EBADF, (a, s)) := by
      rw [write, handlePath_bind, hp]
    exact Eff.bind_of_error h1
  · intro size
    have h1 : read vfs fh off size (a, s) = (.error .EBADF, (a, s)) := by
      rw [read, handlePath_bind, hp]
    exact Eff.bind_of_error h1

end Requests

theorem OnlyFile.refl (file : Option Nat) (s : HostState) : OnlyFile file s s :=
  ⟨fun _ _ => rfl, fun h => ⟨_, h, SameObject.refl _⟩⟩

/-- A handle whose path is cut off, or leads to its file, acts on its file. -/
theorem actsOn_of_stays {fs : HostFs} {st : Handling} {fh : Nat} {file : Option Nat}
    (h : ¬ Strays fs st fh file) : ActsOn fs st fh file := by
  cases hp : st.agent.fhs.get fh with
  | none =>
      refine ⟨?_, ?_, ?_, ?_⟩
      · intro off data
        rw [(closed_fails st.agent st.host hp off).1 data]
        exact OnlyFile.refl _ _
      · intro off data n st' hw
        rw [(closed_fails st.agent st.host hp off).1 data] at hw
        cases hw
      · intro off size
        rw [(closed_fails st.agent st.host hp off).2 size]
      · intro off size d st' hr
        rw [(closed_fails st.agent st.host hp off).2 size] at hr
        cases hr
  | some p =>
      -- what is opened is not foreign, so it is the file
      have hread : ∀ {r l k i}, Accepted st.host fs p r →
          TokimoHost.lookup st.host true (fs.joined p) = .ok (.at l k) →
          opens readOptions st.host.tree (.at l k) = true → st.host.tree.get l = some i →
          some i.id = file := by
        intro r l k i hacc hl hopens hg
        by_cases hid : some i.id = file
        · exact hid
        · refine absurd ⟨p, r, _, hp, hacc, hl, hopens, ?_⟩ h
          intro j hj
          rw [← Option.some.inj (hg.symm.trans hj)]
          exact hid
      have hwrite : ∀ {r w}, Accepted st.host fs p r → fs.readOnly = false →
          TokimoHost.lookup st.host true (fs.joined p) = .ok w →
          opens writeOptions st.host.tree w = true →
          ∃ l k i data, w = .at l k ∧ st.host.tree.get l = some i ∧ i.node = .file data
            ∧ some i.id = file := by
        intro r w hacc hrw hl hopens
        cases w with
        | missing d n slash =>
            refine absurd ⟨p, r, _, hp, hacc, hl, ?_, hrw⟩ h
            cases slash with
            | false => rfl
            | true => cases hopens
        | «at» l k =>
            rw [opens] at hopens
            cases hn : nodeAt st.host.tree l with
            | none => rw [hn] at hopens; cases hopens
            | some node =>
                cases node with
                | dir => rw [hn] at hopens; cases hopens
                | symlink target => rw [hn] at hopens; cases hopens
                | file data =>
                    obtain ⟨i, hg, hi⟩ := get_of_nodeAt hn
                    have hopens' : opens readOptions st.host.tree (.at l k) = true := by
                      rw [opens, hn]
                    exact ⟨l, k, i, data, rfl, hg, hi, hread hacc hl hopens' hg⟩
      refine ⟨?_, ?_, ?_, ?_⟩
      · intro off data
        rw [write_store st.agent st.host hp]
        show OnlyFile file st.host (fs.write posix p (clampOffset off) data st.host).2
        rcases write_cases fs st.host p (clampOffset off) data
          with ⟨r, w, hacc, hrw, hl, hopens, -, helse⟩ | ⟨⟨e, hx⟩, -⟩
        · obtain ⟨l, k, i, old, rfl, hg, -, hid⟩ := hwrite hacc hrw hl hopens
          have hkeep : KeepsOff [] st.host (fs.write posix p (clampOffset off) data st.host).2 :=
            write_keepsOff fs p (clampOffset off) data st.host
          refine ⟨?_, fun hv => hkeep.kept hv fun _ hx => by cases hx⟩
          intro v hv
          refine helse v fun heq => ?_
          have heq' : v = l := heq
          rw [heq'] at hv
          exact hv i hg hid
        · rw [hx]
          exact OnlyFile.refl _ _
      · intro off data n st' hw
        obtain ⟨m, hx⟩ := written_ok st.agent st.host hp hw
        have hx' : fs.write posix p (clampOffset off) data st.host = (.ok m, st'.2) := hx
        rcases write_cases fs st.host p (clampOffset off) data
          with ⟨r, w, hacc, hrw, hl, hopens, -, -⟩ | ⟨⟨e, hx''⟩, -⟩
        · obtain ⟨l, k, i, old, rfl, hg, hi, hid⟩ := hwrite hacc hrw hl hopens
          have hold : nodeAt st.host.tree l = some (.file old) := by
            rw [nodeAt_of_get hg, hi]
          have hinv : (fs.toVfs posix).invoke st.host
              ((FileOp.write (clampOffset off) data).call p) = (.count (.ok m), st'.2) := by
            show Prod.map Reply.count id (fs.write posix p (clampOffset off) data st.host) = _
            rw [hx']
            rfl
          obtain ⟨-, hsame⟩ := invoke_fileOp hl hold (.write (clampOffset off) data)
            (by rw [hinv]; rfl)
          rw [hinv] at hsame
          obtain ⟨i', hg', hi'⟩ := get_of_nodeAt hsame.contents
          have hkeep : KeepsOff [] st.host (fs.write posix p (clampOffset off) data st.host).2 :=
            write_keepsOff fs p (clampOffset off) data st.host
          rw [hx'] at hkeep
          obtain ⟨j, hj, hsj⟩ := hkeep.kept hg fun _ hx => by cases hx
          have hij : i' = j := Option.some.inj (hg'.symm.trans hj)
          refine ⟨l, i', hg', ?_, hi'⟩
          rw [hij, hsj.id]
          exact hid
        · rw [hx''] at hx'
          cases hx'
      · intro off size
        rw [read_store st.agent st.host hp]
        have hb : bare (fs.read posix p (clampOffset off) size st.host).2 = bare st.host :=
          read_bare fs p (clampOffset off) size st.host
        have htree := congrArg HostState.tree hb
        exact htree
      · intro off size d st' hr
        have hx : fs.read posix p (clampOffset off) size st.host = (.ok d, st'.2) :=
          read_ok st.agent st.host hp hr
        rcases read_cases fs st.host p (clampOffset off) size
          with ⟨r, l, k, i, hacc, hl, hopens, hg, hstate, hbytes, -⟩ | ⟨⟨e, hx'⟩, -⟩
        · rw [hx] at hstate hbytes
          exact ⟨l, i, hg, hread hacc hl hopens hg, hstate, hbytes d rfl⟩
        · rw [hx] at hx'
          cases hx'

/-- A handle whose path leads to a foreign place acts on that. -/
theorem not_actsOn_of_strays {fs : HostFs} {st : Handling} {fh : Nat} {file : Option Nat}
    (h : Strays fs st fh file) : ¬ ActsOn fs st fh file := by
  obtain ⟨p, r, w, hp, hacc, hl, hforeign⟩ := h
  intro hacts
  cases w with
  | «at» l k =>
      -- reading nothing succeeds, at the wrong object
      obtain ⟨hopens, hother⟩ := hforeign
      rcases read_cases fs st.host p 0 0
        with ⟨r', l', k', i, -, hl', -, hg, hstate, -, hzero⟩ | ⟨-, hno⟩
      · have hx : fs.read posix p 0 0 st.host = (.ok [], st.host.touch [l']) :=
          Prod.ext (hzero rfl rfl) hstate
        have hserve : serve (fs.toVfs posix) (.read fh 0 0) (st.agent, st.host)
            = (.ok (.data []), (st.agent, st.host.touch [l'])) :=
          read_of_ok st.agent st.host hp hx
        obtain ⟨l'', i'', hg'', hid, htouch, -⟩ := hacts.bytes 0 0 [] _ hserve
        have htouched := congrArg HostState.touched htouch
        have hsame : l' = l'' := by simpa using htouched
        have hll : l' = l := by
          rw [hl] at hl'
          injection hl' with hl'
          injection hl' with h1 h2
          exact h1.symm
        rw [← hsame, hll] at hg''
        exact hother i'' hg'' hid
      · rcases hno with hno | hno
        · exact hno r hacc
        · have := hno _ hl
          rw [hopens] at this
          exact nomatch this
  | missing d n slash =>
      obtain ⟨rfl, hrw⟩ := hforeign
      obtain ⟨-, -, hwalk⟩ := TokimoHost.lookup_ok hl
      have hfree : st.host.tree.get (d ++ [n]) = none :=
        nodeAt_none_iff.mp (walk_missing _ _ _ hwalk)
      -- writing nothing makes a file
      have hsame := (hacts.write 0 []).elsewhere (d ++ [n]) (by
        intro i hi
        rw [hfree] at hi
        exact nomatch hi)
      rw [write_store st.agent st.host hp, hfree] at hsame
      have hsame' : (fs.write posix p (clampOffset 0) [] st.host).2.tree.get (d ++ [n]) = none :=
        hsame
      rcases write_cases fs st.host p (clampOffset 0) []
        with ⟨r', w, -, -, hl', -, ⟨i, hi⟩, -⟩ | ⟨-, hno⟩
      · rw [hl] at hl'
        rw [← Except.ok.inj hl'] at hi
        exact nomatch hsame'.symm.trans hi
      · rcases hno with hro | hno | hno
        · rw [hrw] at hro
          exact nomatch hro
        · exact hno r hacc
        · exact nomatch hno _ hl

/-- A handle of a file does not stray while its path leads to the file. -/
theorem stays_of_fileAt {fs : HostFs} {st : Handling} {fh : Nat} {file : Option Nat}
    (h : ∀ p, st.agent.fhs.get fh = some p → ∃ id, file = some id ∧ fileAt fs st.host p = some id) :
    ¬ Strays fs st fh file := by
  rintro ⟨p, r, w, hp, -, hl, hforeign⟩
  obtain ⟨id, rfl, hat⟩ := h p hp
  obtain ⟨l, k, i, data, hl', hg, -, hid⟩ := (fileAt_iff fs).mp hat
  rw [hl] at hl'
  rw [Except.ok.inj hl'] at hforeign
  exact hforeign.2 i hg (congrArg some hid)

/-- **HANDLES KEEP THEIR FILES**: along every run in which the handle is opened
    on a file and nothing on its way is displaced, it acts on that file; and
    along any run it does so exactly while its path does not stray. -/
theorem handle_keeps_file (fs : HostFs) (s₀ : HostState) (fh : Nat) :
    (∀ st tr, Run (handling fs) (LeavesAlone fs fh) (.start s₀) st tr →
      ∀ file, (fh, file) ∈ st.opened → ActsOn fs st fh file)
      ∧ ∀ st tr, Run (handling fs) always (.start s₀) st tr →
        ∀ file, (fh, file) ∈ st.opened → (ActsOn fs st fh file ↔ ¬ Strays fs st fh file) := by
  constructor
  · intro st tr hr file hf
    exact actsOn_of_stays (stays_of_fileAt ((handling_inv hr).leads file hf))
  · intro st tr _ file _
    exact ⟨fun hacts hstray => not_actsOn_of_strays hstray hacts, actsOn_of_stays⟩

/-! ### Unlinking an open file -/

/-- A host with the directory `/r` and nothing in it. -/
def emptyHost : HostState where
  tree := [
    ([], { id := 0, node := .dir, mode := 0o40755, mtime := 0, atime := 0, ctime := 0 }),
    ([⟨[114], Eq.refl true⟩],
      { id := 1, node := .dir, mode := 0o40755, mtime := 0, atime := 0, ctime := 0 })]
  cwd := []
  nextId := 2
  now := 0
  fileMode := 0o100644
  dirMode := 0o40755
  touched := []

/-- The place of the file `/r/a`. -/
def aLoc : Loc := [⟨[114], Eq.refl true⟩, ⟨[97], Eq.refl true⟩]

/-- A file is created under handle 1 and removed; a write through the handle
    makes a new file. -/
theorem write_after_unlink_makes_file :
    ∃ st tr, Run (handling chunkFs) always (.start emptyHost) st tr
      ∧ (1, some 2) ∈ st.opened ∧ st.host.tree.get aLoc = none
      ∧ ((serve (chunkFs.toVfs posix) (.write 1 0 [42]) (st.agent, st.host)).2.2.tree.get
          aLoc).map Inode.id = some 3
      ∧ ¬ ActsOn chunkFs st 1 (some 2) := by
  have hx : (((handling chunkFs).exec (.start emptyHost)
      [.create 1 [97] 0, .unlink 1 [97]]).map fun r => (decide ((1, some 2) ∈ r.1.opened),
        (r.1.host.tree.get aLoc).isNone,
        ((serve (chunkFs.toVfs posix) (.write 1 0 [42]) (r.1.agent, r.1.host)).2.2.tree.get
          aLoc).map Inode.id)) = some (true, true, some 3) := by
    decide +kernel
  obtain ⟨⟨st, tr⟩, hrun, heq⟩ := Option.map_eq_some_iff.mp hx
  obtain ⟨hmem, heq⟩ := Prod.mk.inj heq
  obtain ⟨hnone, hmade⟩ := Prod.mk.inj heq
  have hmem' : (1, some 2) ∈ st.opened := of_decide_eq_true hmem
  have hnone' : st.host.tree.get aLoc = none := Option.isNone_iff_eq_none.mp hnone
  refine ⟨st, tr, run_of_exec_always hrun, hmem', hnone', hmade, fun hacts => ?_⟩
  -- the place was free and should have stayed so
  have hsame := (hacts.write 0 [42]).elsewhere aLoc (by
    intro i hi
    rw [hnone'] at hi
    exact nomatch hi)
  have hmade' : ((serve (chunkFs.toVfs posix) (.write 1 0 [42]) (st.agent, st.host)).2.2.tree.get
      aLoc).map Inode.id = some 3 := hmade
  rw [hsame, hnone'] at hmade'
  exact nomatch hmade'

/-- A file is created under handle 1 and written; another one beside it is
    created, renamed and removed. -/
theorem handle_left_alone :
    ∃ st tr, Run (handling chunkFs) (LeavesAlone chunkFs 1) (.start emptyHost) st tr
      ∧ (1, some 2) ∈ st.opened ∧ ActsOn chunkFs st 1 (some 2) := by
  let ls : List FuseRequest :=
    [.create 1 [97] 0, .write 1 0 [42], .create 1 [98] 0, .rename 1 [98] 1 [99], .unlink 1 [99]]
  have halong : (handling chunkFs).Along (fun st req =>
      (match req with
        | .open' _ => false
        | _ => true) = true
      ∧ ∀ p ∈ (st.agent.fhs.get 1).toList, ∀ l ∈ displaced chunkFs st.agent st.host req,
        ∀ v ∈ route chunkFs st.host p, ¬ l <+: v) (.start emptyHost) ls := by
    decide +kernel
  have hx : ((handling chunkFs).exec (.start emptyHost) ls).map
      (fun r => decide ((1, some 2) ∈ r.1.opened)) = some true := by
    decide +kernel
  obtain ⟨⟨st, tr⟩, hrun, hmem⟩ := Option.map_eq_some_iff.mp hx
  have hmem' : (1, some 2) ∈ st.opened := of_decide_eq_true hmem
  have hr : Run (handling chunkFs) (LeavesAlone chunkFs 1) (.start emptyHost) st tr := by
    refine (run_of_exec ls halong hrun).weaken ?_
    rintro st req ⟨hopen, hroute⟩
    refine ⟨?_, fun p hp => hroute p (Option.mem_toList.mpr hp)⟩
    rintro ino p rfl
    exact nomatch hopen
  exact ⟨st, tr, hr, hmem', (handle_keeps_file chunkFs emptyHost 1).1 st tr hr _ hmem'⟩

end TokimoFuseAgent
