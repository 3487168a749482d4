import TokimoKvm.HostFsChangeProofs
import TokimoKvm.RpcServerProofs
import TokimoKvm.SandboxConfig

/-! # Read-only mounts

    A mount is a host directory or a file system the user brings, and says
    whether it is read-only.  Each of the three backends serves it over an RPC
    stream: a host directory wrapped in `HostFs`, which is told the flag, and
    a user's file system as it is.

    `read_only_mount_iff` says what this comes to: a read-only mount refuses
    whatever the guest sends exactly when it is a host directory, or the
    user's file system refuses by itself. -/

namespace TokimoMount

open TokimoMachine TokimoBytes TokimoPath TokimoVfsCore TokimoHost TokimoHostFs TokimoRpc

variable {σ τ ω : Type}

/-! ## Mounts and backends -/

/-- What the file systems of all mounts act on: the host, and whatever the
    user's file systems keep. -/
abbrev World (σ : Type) := HostState × σ

/-- A file system over a part of a larger state. -/
def within (part : ω → σ) (put : ω → σ → ω) (vfs : TokimoVfs σ) : TokimoVfs ω where
  stat p w := ((vfs.stat p (part w)).1, put w (vfs.stat p (part w)).2)
  list p w := ((vfs.list p (part w)).1, put w (vfs.list p (part w)).2)
  read p off len w := ((vfs.read p off len (part w)).1, put w (vfs.read p off len (part w)).2)
  write p off data w :=
    ((vfs.write p off data (part w)).1, put w (vfs.write p off data (part w)).2)
  create p mode w := ((vfs.create p mode (part w)).1, put w (vfs.create p mode (part w)).2)
  mkdir p mode w := ((vfs.mkdir p mode (part w)).1, put w (vfs.mkdir p mode (part w)).2)
  remove p w := ((vfs.remove p (part w)).1, put w (vfs.remove p (part w)).2)
  rmdir p w := ((vfs.rmdir p (part w)).1, put w (vfs.rmdir p (part w)).2)
  rename p q w := ((vfs.rename p q (part w)).1, put w (vfs.rename p q (part w)).2)
  truncate p size w :=
    ((vfs.truncate p size (part w)).1, put w (vfs.truncate p size (part w)).2)

theorem invoke_within (part : ω → σ) (put : ω → σ → ω) (vfs : TokimoVfs σ) (call : VfsCall)
    (w : ω) :
    (within part put vfs).invoke w call
      = ((vfs.invoke (part w) call).1, put w (vfs.invoke (part w) call).2) := by
  cases call with
  | stat p => rfl
  | list p => rfl
  | read p off len => rfl
  | write p off data => rfl
  | create p mode => rfl
  | mkdir p mode => rfl
  | remove p => rfl
  | rmdir p => rfl
  | rename p q => rfl
  | truncate p size => rfl

def onHost (vfs : TokimoVfs HostState) : TokimoVfs (World σ) :=
  within Prod.fst (fun w s => (s, w.2)) vfs

def onUser (vfs : TokimoVfs σ) : TokimoVfs (World σ) :=
  within Prod.snd (fun w s => (w.1, s)) vfs

/-- What serves one mount over its RPC stream. -/
structure VfsServer (σ : Type) where
  tag : String
  guestPath : String
  vfs : TokimoVfs (World σ)

/-- The server of a mount: the flag of a user's file system is not looked at. -/
def VfsServer.ofMount (m : MountSpec σ) : VfsServer σ where
  tag := m.tag
  guestPath := m.guestPath
  vfs :=
    match m with
    | .hostDir _ hostPath readOnly _ =>
        onHost (HostFs.toVfs posix { root := hostPath, readOnly := readOnly })
    | .vfs _ vfs _ _ => onUser vfs

/-- The mounts' part of `QemuSandbox::start`. -/
def QemuSandbox.start (mounts : List (MountSpec σ)) : List (VfsServer σ) :=
  mounts.map VfsServer.ofMount

/-- The mounts' part of `WslSandbox::start`. -/
def WslSandbox.start (mounts : List (MountSpec σ)) : List (VfsServer σ) :=
  mounts.map VfsServer.ofMount

/-- The mounts' part of the macOS backend's `Inner::start`. -/
def Inner.start (mounts : List (MountSpec σ)) : List (VfsServer σ) :=
  mounts.map VfsServer.ofMount

inductive Backend where
  | qemu
  | wsl
  | macos
  deriving DecidableEq, Repr

def Backend.start : Backend → List (MountSpec σ) → List (VfsServer σ)
  | .qemu => QemuSandbox.start
  | .wsl => WslSandbox.start
  | .macos => Inner.start

/-- Every backend serves its mounts one by one in the same way. -/
theorem start_getElem? {b : Backend} {mounts : List (MountSpec σ)} {i : Nat} {m : MountSpec σ}
    {server : VfsServer σ} (hm : mounts[i]? = some m) (hs : (b.start mounts)[i]? = some server) :
    server = VfsServer.ofMount m := by
  have hmap : b.start mounts = mounts.map VfsServer.ofMount := by
    cases b with
    | qemu => rfl
    | wsl => rfl
    | macos => rfl
  rw [hmap, List.getElem?_map, hm] at hs
  exact (Option.some.inj hs).symm

/-! ## What a guest can do -/

/-- A request for a call that is meant to change something. -/
def mutates (req : Request) : Bool :=
  match req.call with
  | some call => call.mutating
  | none => false

def isErrResponse : Response → Bool
  | .hello _ => false
  | .stat r => isErr r
  | .list r => isErr r
  | .read r => isErr r
  | .write r => isErr r
  | .create r => isErr r
  | .mkdir r => isErr r
  | .remove r => isErr r
  | .rmdir r => isErr r
  | .rename r => isErr r
  | .truncate r => isErr r

/-- No sequence of requests and no byte stream changes what `look` sees of the
    store, and every request that is meant to is answered with an error. -/
structure Refuses (look : ω → τ) (vfs : TokimoVfs ω) : Prop where
  answers : ∀ (reqs : List Request) (w : ω), ∀ e ∈ reqs.zip (runRequests vfs reqs w).1,
    mutates e.1 = true → isErrResponse e.2 = true
  store : ∀ (reqs : List Request) (w : ω), look (runRequests vfs reqs w).2 = look w
  stream : ∀ (creq : Codec Request) (cresp : Codec Response) (r : Source) (out : Sink) (w : ω),
    look (serveStream creq cresp vfs r out w).vfs = look w

/-- The calls of a file system that are meant to change something fail and
    change nothing. -/
def RefusesCalls (look : ω → τ) (vfs : TokimoVfs ω) : Prop :=
  ∀ call : VfsCall, call.mutating = true → ∀ w,
    (vfs.invoke w call).1.isErr = true ∧ look (vfs.invoke w call).2 = look w

/-- The other calls change nothing. -/
def OnlyLooks (look : ω → τ) (vfs : TokimoVfs ω) : Prop :=
  ∀ call : VfsCall, call.mutating = false → ∀ w, look (vfs.invoke w call).2 = look w

theorem handle_isErr (vfs : TokimoVfs ω) (call : VfsCall) (w : ω) :
    isErrResponse (handle vfs (Client.request call) w).1 = (vfs.invoke w call).1.isErr := by
  cases call with
  | stat p => rfl
  | list p => rfl
  | read p off len => rfl
  | write p off data => rfl
  | create p mode => rfl
  | mkdir p mode => rfl
  | remove p => rfl
  | rmdir p => rfl
  | rename p q => rfl
  | truncate p size => rfl

/-- One request. -/
theorem handle_refused {look : ω → τ} {vfs : TokimoVfs ω} (hr : RefusesCalls look vfs)
    (hl : OnlyLooks look vfs) (req : Request) (w : ω) :
    look (handle vfs req w).2 = look w
      ∧ (mutates req = true → isErrResponse (handle vfs req w).1 = true) := by
  cases hc : req.call with
  | none =>
      refine ⟨by rw [handle_of_no_call vfs hc], ?_⟩
      intro hm
      rw [mutates, hc] at hm
      exact nomatch hm
  | some call =>
      have hstate := (answer_handle vfs call w).2
      rw [mutates, hc, request_of_call hc, handle_isErr, hstate]
      cases hm : call.mutating with
      | true => exact ⟨(hr call hm w).2, fun _ => (hr call hm w).1⟩
      | false => exact ⟨hl call hm w, fun h => nomatch (hm.symm.trans h)⟩

/-- Any sequence of requests. -/
theorem runRequests_refused {look : ω → τ} {vfs : TokimoVfs ω} (hr : RefusesCalls look vfs)
    (hl : OnlyLooks look vfs) :
    ∀ (reqs : List Request) (w : ω), look (runRequests vfs reqs w).2 = look w
      ∧ ∀ e ∈ reqs.zip (runRequests vfs reqs w).1, mutates e.1 = true →
          isErrResponse e.2 = true := by
  intro reqs
  induction reqs with
  | nil =>
      intro w
      exact ⟨rfl, fun e he => nomatch he⟩
  | cons req reqs ih =>
      intro w
      obtain ⟨hstate, hans⟩ := handle_refused hr hl req w
      obtain ⟨hrest, hanswers⟩ := ih (handle vfs req w).2
      refine ⟨hrest.trans hstate, ?_⟩
      rintro e he
      rcases List.mem_cons.mp he with rfl | he
      · exact hans
      · exact hanswers e he

/-- **REFUSING CALLS IS REFUSING GUESTS**: nothing a guest sends gets through
    exactly when no single call does. -/
theorem refuses_iff {look : ω → τ} {vfs : TokimoVfs ω} (hl : OnlyLooks look vfs) :
    Refuses look vfs ↔ RefusesCalls look vfs := by
  constructor
  · intro h call hm w
    have hans := h.answers [Client.request call] w
      (Client.request call, (handle vfs (Client.request call) w).1) (List.mem_singleton.mpr rfl)
    have hstore := h.store [Client.request call] w
    have hmut : mutates (Client.request call) = true := by
      rw [← hm]
      cases call <;> rfl
    refine ⟨?_, ?_⟩
    · rw [← handle_isErr]
      exact hans hmut
    · rw [← (answer_handle vfs call w).2]
      exact hstore
  · intro hr
    refine ⟨fun reqs w => (runRequests_refused hr hl reqs w).2,
      fun reqs w => (runRequests_refused hr hl reqs w).1, ?_⟩
    intro creq cresp r out w
    obtain ⟨k, -, hstate, -⟩ := serveList_spec cresp vfs (requestsOf creq r.pending) out w
    rw [serveStream_eq]
    show look (serveList cresp vfs (requestsOf creq r.pending) out w).2 = look w
    rw [hstate]
    exact (runRequests_refused hr hl _ w).1

/-! ## The mounts -/

/-- The stores behind the mounts: the host's tree, and what the user's file
    systems hold. -/
def stores (look : σ → τ) (w : World σ) : Tree × τ := (w.1.tree, look w.2)

/-- A file system over a part refuses in the whole what it refuses there. -/
theorem refusesCalls_within {υ : Type} {part : ω → σ} {put : ω → σ → ω} {look : σ → τ}
    {all : ω → υ} {vfs : TokimoVfs σ} (h : RefusesCalls look vfs)
    (hall : ∀ w s, look s = look (part w) → all (put w s) = all w) :
    RefusesCalls all (within part put vfs) := by
  intro call hm w
  obtain ⟨herr, hstate⟩ := h call hm (part w)
  rw [invoke_within]
  exact ⟨herr, hall w _ hstate⟩

theorem onlyLooks_within {υ : Type} {part : ω → σ} {put : ω → σ → ω} {look : σ → τ}
    {all : ω → υ} {vfs : TokimoVfs σ} (h : OnlyLooks look vfs)
    (hall : ∀ w s, look s = look (part w) → all (put w s) = all w) :
    OnlyLooks all (within part put vfs) := by
  intro call hm w
  rw [invoke_within]
  exact hall w _ (h call hm (part w))

theorem stores_onUser (look : σ → τ) (w : World σ) (s : σ) (h : look s = look w.2) :
    stores look (w.1, s) = stores look w := by
  rw [stores, stores, h]

theorem stores_onHost (look : σ → τ) (w : World σ) (s : HostState) (h : s.tree = w.1.tree) :
    stores look (s, w.2) = stores look w := by
  rw [stores, stores, h]

theorem hostDir_looks (fs : HostFs) : OnlyLooks HostState.tree (fs.toVfs posix) := by
  intro call hm s
  have htree : (bare ((fs.toVfs posix).invoke s call).2).tree = (bare s).tree := by
    rw [looks_bare fs hm s]
  exact htree

theorem hostDir_refuses {fs : HostFs} (hro : fs.readOnly = true) :
    RefusesCalls HostState.tree (fs.toVfs posix) := by
  intro call hm s
  obtain ⟨herr, hstate⟩ := refuses_ro hro hm s
  exact ⟨herr, by rw [hstate]⟩

/-- A host with nothing but its root. -/
def emptyHost : HostState where
  tree := [([], { id := 0, node := .dir, mode := 0o755, mtime := 0, atime := 0, ctime := 0 })]
  cwd := []
  nextId := 1
  now := 0
  fileMode := 0o644
  dirMode := 0o755
  touched := []

/-- The mount's file system enforces the flag itself: it is a host directory,
    or the user's file system refuses whatever it is told. -/
def SelfEnforced (look : σ → τ) : MountSpec σ → Prop
  | .hostDir _ _ _ _ => True
  | .vfs _ vfs _ _ => RefusesCalls look vfs

/-- The user's file system changes nothing when it is only looked at. -/
def LooksOnly (look : σ → τ) : MountSpec σ → Prop
  | .hostDir _ _ _ _ => True
  | .vfs _ vfs _ _ => OnlyLooks look vfs

/-- **READ-ONLY MOUNTS**: on every backend, a guest can change nothing through
    a read-only mount, and is refused whenever it tries, exactly when the
    mount is a host directory or a file system that refuses by itself. -/
theorem read_only_mount_iff (b : Backend) {mounts : List (MountSpec σ)} {i : Nat}
    {m : MountSpec σ} {server : VfsServer σ} (look : σ → τ) (hm : mounts[i]? = some m)
    (hs : (b.start mounts)[i]? = some server) (hro : m.readOnly = true)
    (hlook : LooksOnly look m) :
    Refuses (stores look) server.vfs ↔ SelfEnforced look m := by
  rw [start_getElem? hm hs]
  cases m with
  | hostDir guestPath hostPath readOnly tag =>
      have hro' : readOnly = true := hro
      constructor
      · intro _
        exact True.intro
      · intro _
        exact (refuses_iff (onlyLooks_within (hostDir_looks _) (stores_onHost look))).mpr
          (refusesCalls_within (hostDir_refuses hro') (stores_onHost look))
  | vfs guestPath vfs readOnly tag =>
      have hl : OnlyLooks (stores look) (onUser vfs) :=
        onlyLooks_within hlook (stores_onUser look)
      constructor
      · intro h call hmut s
        obtain ⟨herr, hstate⟩ := (refuses_iff hl).mp h call hmut (emptyHost, s)
        rw [onUser, invoke_within] at herr hstate
        exact ⟨herr, congrArg Prod.snd hstate⟩
      · intro h
        exact (refuses_iff hl).mpr (refusesCalls_within h (stores_onUser look))

/-! ## A file system in memory -/

/-- A user's file system of one file, `/f`, whose contents are the state. -/
def memFs : TokimoVfs Bytes where
  stat _ := Eff.fail .notFound
  list _ := Eff.fail .notFound
  read _ off len := fun s => (.ok ((s.drop off.toNat).take len.toNat), s)
  write _ off data := fun s => (.ok (UInt32.ofNat data.length), overwrite off.toNat data s)
  create _ _ := Eff.fail .permissionDenied
  mkdir _ _ := Eff.fail .permissionDenied
  remove _ := Eff.fail .permissionDenied
  rmdir _ := Eff.fail .permissionDenied
  rename _ _ := Eff.fail .permissionDenied
  truncate _ _ := Eff.fail .permissionDenied

def memMount : MountSpec Bytes := .vfs "/mnt/mem" memFs true "mem"

/-- On every backend a guest writes through a read-only mount of a user's file
    system, and the store changes. -/
theorem read_only_vfs_is_written :
    memMount.readOnly = true
      ∧ ∀ b : Backend, ∃ server, b.start [memMount] = [server]
        ∧ ¬ Refuses (stores id) server.vfs
        ∧ runRequests server.vfs [.write (.ofBytes [0x2f, 0x66]) 0 [0x68, 0x69]] (emptyHost, [])
          = ([.write (.ok 2)], (emptyHost, [0x68, 0x69])) := by
  have hrun : runRequests (VfsServer.ofMount memMount).vfs
      [.write (.ofBytes [0x2f, 0x66]) 0 [0x68, 0x69]] (emptyHost, [])
      = ([.write (.ok 2)], (emptyHost, [0x68, 0x69])) := by decide
  refine ⟨rfl, fun b => ⟨VfsServer.ofMount memMount, by cases b <;> rfl, ?_, hrun⟩⟩
  intro h
  have hstore := h.store [.write (.ofBytes [0x2f, 0x66]) 0 [0x68, 0x69]] (emptyHost, [])
  rw [hrun] at hstore
  exact nomatch hstore

/-- A read-only host directory. -/
def docsMount : MountSpec Unit := .hostDir "/mnt/docs" (.ofBytes [0x2f]) true "docs"

/-- A guest changes nothing through a read-only host directory. -/
theorem read_only_directory_is_kept :
    docsMount.readOnly = true
      ∧ Refuses (stores id) (VfsServer.ofMount docsMount).vfs := by
  have hm : [docsMount][0]? = some docsMount := rfl
  have hs : (Backend.qemu.start [docsMount])[0]? = some (VfsServer.ofMount docsMount) := rfl
  exact ⟨rfl, (read_only_mount_iff .qemu id hm hs rfl True.intro).mpr True.intro⟩

end TokimoMount
