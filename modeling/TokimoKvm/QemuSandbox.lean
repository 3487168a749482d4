import TokimoKvm.SandboxConfig
import TokimoKvm.ScriptProofs
import TokimoKvm.TableProofs

/-! # `QemuSandbox` — start, stop and wait, step by step

    Any number of sandboxes live on one host.  What their calls do is cut at
    each outside step: a file removed, a socket bound, a process spawned or
    waited for.  Between the steps the QEMU processes open their own sockets
    and connect to those of the mounts, the RPC tasks serve requests, and any
    of them may end.

    A file is known by its directory and its name, so two sandboxes with one
    runtime directory meet in the same files. -/

namespace TokimoQemu

open TokimoMachine TokimoTable TokimoMount TokimoSandbox TokimoScript

/-- The server of a mount.  Its accept loop is known by the sandbox and the
    mount's index, its socket file by the index. -/
structure VfsServer where
  index : Nat
  tag : String
  guestPath : String
  deriving DecidableEq, Repr

/-- The fields of `QemuSandbox`, an `Option` known by whether it holds
    something. -/
structure QemuSandbox where
  state : SandboxState := .created
  runtime : Bool := false
  qemuChild : Bool := false
  qmp : Bool := false
  vfsServers : List VfsServer := []
  deriving DecidableEq, Repr

/-- Who is bound at a socket file. -/
inductive Server (ι : Type) where
  | rpc (k : ι) (i : Nat)
  | qemu (k : ι) (f : RtFile)
  deriving DecidableEq, Repr

/-- The sandboxes, and what they have running on the host. -/
structure Hosts (ι δ : Type) where
  sandbox : ι → QemuSandbox
  /-- The socket files. -/
  files : Table (δ × String) (Server ι)
  /-- The accept loops that are alive. -/
  accepting : List (ι × Nat)
  /-- The per-connection tasks that are alive, by the server they are of. -/
  serving : List (ι × Nat)
  /-- The QEMU processes that run. -/
  qemus : List ι
  /-- The files the running QEMU processes have bound or opened. -/
  opened : List (ι × RtFile)

/-- What the sandboxes are configured with, and where their runtime
    directories are. -/
structure Setup (ι δ σ : Type) where
  config : ι → SandboxConfig σ
  dir : ι → δ

/-! ## Scripts -/

/-- The steps of the scripts, each with a failure of its own or none. -/
inductive QemuStep where
  -- `Runtime::new`
  | createRoot
  | createLog
  | removeStale (f : RtFile)
  | keepRuntime
  -- the rest of `start`
  | findImage
  | removeSocket (i : Nat)
  | serve (v : VfsServer)
  | spawnQemu
  | connectQmp
  | becomeRunning
  -- `stop`
  | quitQmp
  | reapQemu
  | takeServers
  | abortServer (v : VfsServer)
  | removeServer (v : VfsServer)
  | becomeStopped
  -- `wait`
  | awaitQemu
  deriving DecidableEq, Repr

variable {ι δ σ : Type}

/-- What `start` notes of the server it makes. -/
def VfsServer.ofMount (m : MountSpec σ) (i : Nat) : VfsServer where
  index := i
  tag := m.tag
  guestPath := m.guestPath

/-- `Runtime::new`: the directory, the log, and the sockets left from before. -/
def runtimeSteps : List QemuStep :=
  [.createRoot, .createLog, .removeStale .serialSock, .removeStale .qmpSock,
    .removeStale .monitorSock, .keepRuntime]

/-- One turn of the mount loop for each mount. -/
def mountSteps : List (MountSpec σ) → Nat → List QemuStep
  | [], _ => []
  | m :: ms, i => .removeSocket i :: .serve (.ofMount m i) :: mountSteps ms (i + 1)

/-- What `start` does once the state is `Starting`; each error of a step is
    returned with `?`. -/
def startScript (config : SandboxConfig σ) (self : QemuSandbox) : List QemuStep :=
  (if self.runtime then [] else runtimeSteps)
    ++ (if config.image.isNone then [.findImage] else [])
    ++ mountSteps config.mounts 0
    ++ [.spawnQemu, .connectQmp, .becomeRunning]

/-- What `stop` does about a server. -/
def serverSteps (v : VfsServer) : List QemuStep := [.abortServer v, .removeServer v]

/-- What `stop` does once the state is `Stopping`. -/
def stopScript (self : QemuSandbox) : List QemuStep :=
  (if self.qmp then [.quitQmp] else [])
    ++ (if self.qemuChild then [.reapQemu] else [])
    ++ .takeServers :: self.vfsServers.flatMap serverSteps
    ++ [.becomeStopped]

namespace Hosts

variable [DecidableEq ι] [DecidableEq δ]

/-- The host with other fields for one sandbox. -/
def setSelf (s : Hosts ι δ) (k : ι) (self : QemuSandbox) : Hosts ι δ :=
  { s with sandbox := Function.update s.sandbox k self }

/-- The host without a file. -/
def remove (s : Hosts ι δ) (dir : δ) (f : RtFile) : Hosts ι δ :=
  { s with files := s.files.erase (dir, f.fileName) }

/-- A QEMU process is gone, and with it what it had open. -/
def endQemu (s : Hosts ι δ) (k : ι) : Hosts ι δ :=
  { s with
    qemus := s.qemus.filter (· ≠ k)
    opened := s.opened.filter (·.1 ≠ k) }

/-- The host without an accept loop. -/
def endAccept (s : Hosts ι δ) (k : ι) (i : Nat) : Hosts ι δ :=
  { s with accepting := s.accepting.filter (· ≠ (k, i)) }

end Hosts

/-! ## What can be seen -/

/-- What can be seen of a step. -/
inductive Sight (ι : Type) where
  /-- A file was removed, truncated or bound for a sandbox, by its host side
      or its QEMU. -/
  | touched (k : ι) (f : RtFile)
  /-- QEMU of `k` connected its port `i` to a server. -/
  | connected (k : ι) (i : Nat) (k' : ι) (i' : Nat)
  /-- The QMP client of `k` connected to the QEMU of `k'`. -/
  | controls (k k' : ι)
  /-- A request was executed against the file system of mount `i` of `k`. -/
  | served (k : ι) (i : Nat)
  deriving DecidableEq, Repr

/-- What happens besides the steps of the calls. -/
inductive QemuEvent (ι : Type) where
  | qemuOpens (k : ι) (f : RtFile)
  | qemuConnects (k : ι) (i : Nat)
  | qemuExits (k : ι)
  | acceptEnds (k : ι) (i : Nat)
  | connEnds (k : ι) (i : Nat)
  | request (k : ι) (i : Nat)
  deriving DecidableEq, Repr

/-- What QEMU opens in the runtime directory: its sockets, and the log when
    the serial console is not a socket. -/
def qemuFiles (config : SandboxConfig σ) : List RtFile :=
  [.qmpSock, .monitorSock, if config.interactiveSerial then .serialSock else .serialLog]

section Semantics

variable [DecidableEq ι] [DecidableEq δ] (u : Setup ι δ σ)

/-- The QEMU that answers on the QMP socket of `k`. -/
def qmpServer (k : ι) (s : Hosts ι δ) : Option ι :=
  match s.files.get (u.dir k, RtFile.qmpSock.fileName) with
  | some (.qemu k' _) => if k' ∈ s.qemus then some k' else none
  | _ => none

/-- What a call does before its first step: the checks of the state. -/
def enter (k : ι) (c : LifeCall) (s : Hosts ι δ) :
    Except SandboxError (Hosts ι δ × List QemuStep) :=
  match c with
  | .start =>
      if (s.sandbox k).state ≠ .created then .error .alreadyStarted
      else
        .ok (s.setSelf k { s.sandbox k with state := .starting },
          startScript (u.config k) (s.sandbox k))
  | .stop =>
      if (s.sandbox k).state ≠ .running ∧ (s.sandbox k).state ≠ .starting then .ok (s, [])
      else .ok (s.setSelf k { s.sandbox k with state := .stopping }, stopScript (s.sandbox k))
  | .wait => .ok (s, if (s.sandbox k).qemuChild then [.awaitQemu] else [])

/-- What a step does when it works. -/
def done (k : ι) (o : QemuStep) (s : Hosts ι δ) : Hosts ι δ :=
  match o with
  | .createRoot => s
  | .createLog => s
  | .removeStale f => s.remove (u.dir k) f
  | .keepRuntime => s.setSelf k { s.sandbox k with runtime := true }
  | .findImage => s
  | .removeSocket i => s.remove (u.dir k) (.rpcSock i)
  | .serve v =>
      { s.setSelf k { s.sandbox k with vfsServers := (s.sandbox k).vfsServers ++ [v] } with
        files := s.files.insert (u.dir k, (RtFile.rpcSock v.index).fileName) (.rpc k v.index)
        accepting := (k, v.index) :: s.accepting }
  | .spawnQemu =>
      { s.setSelf k { s.sandbox k with qemuChild := true } with qemus := k :: s.qemus }
  | .connectQmp => s.setSelf k { s.sandbox k with qmp := true }
  | .becomeRunning => s.setSelf k { s.sandbox k with state := .running }
  | .quitQmp => s.setSelf k { s.sandbox k with qmp := false }
  -- waited for three seconds, then killed and waited for
  | .reapQemu => (s.setSelf k { s.sandbox k with qemuChild := false }).endQemu k
  | .takeServers => s.setSelf k { s.sandbox k with vfsServers := [] }
  -- the loop is aborted and then awaited
  | .abortServer v => s.endAccept k v.index
  | .removeServer v => s.remove (u.dir k) (.rpcSock v.index)
  | .becomeStopped => s.setSelf k { s.sandbox k with state := .stopped }
  | .awaitQemu => s.setSelf k { s.sandbox k with state := .stopped }

/-- The errors that are returned; all others are dropped with `let _`. -/
def stepError : QemuStep → Option SandboxError
  | .createRoot => some .io
  | .createLog => some .io
  | .findImage =>
      some (.config "no image configured; run scripts/image/build.sh or set TOKIMO_IMG_DIR")
  | .serve _ => some (.hypervisor "rpc bind")
  | .spawnQemu => some (.hypervisor "qemu spawn")
  | .connectQmp => some (.hypervisor "qmp connect")
  | _ => none

/-- A step that can fail leaves everything as it is. -/
def failed (o : QemuStep) (s : Hosts ι δ) : Option (Hosts ι δ) :=
  match o with
  | .removeStale _ => some s
  | .removeSocket _ => some s
  | .removeServer _ => some s
  | o => (stepError o).map fun _ => s

/-- A name can be bound when it is free, QMP connected when a QEMU listens,
    and a child is waited for until it is gone. -/
def ready (k : ι) (o : QemuStep) (s : Hosts ι δ) : Bool :=
  match o with
  | .serve v => decide (s.files.get (u.dir k, (RtFile.rpcSock v.index).fileName) = none)
  | .connectQmp => (qmpServer u k s).isSome
  | .awaitQemu => decide (k ∉ s.qemus)
  | _ => true

/-- What can be seen of it. -/
def shows (k : ι) (o : QemuStep) (s : Hosts ι δ) : List (Sight ι) :=
  match o with
  | .createLog => [.touched k .serialLog]
  | .removeStale f => [.touched k f]
  | .removeSocket i => [.touched k (.rpcSock i)]
  | .serve v => [.touched k (.rpcSock v.index)]
  | .removeServer v => [.touched k (.rpcSock v.index)]
  | .connectQmp => (qmpServer u k s).toList.map (.controls k)
  | _ => []

/-- What an event does, if it can happen. -/
def environment (e : QemuEvent ι) (s : Hosts ι δ) : Option (Hosts ι δ × List (Sight ι)) :=
  match e with
  | .qemuOpens k f =>
      if k ∈ s.qemus ∧ f ∈ qemuFiles (u.config k) then
        -- the log is opened to append, a socket is unlinked and bound
        if f = .serialLog then some ({ s with opened := (k, f) :: s.opened }, [])
        else
          some ({ s with
            files := s.files.insert (u.dir k, f.fileName) (.qemu k f)
            opened := (k, f) :: s.opened }, [.touched k f])
      else none
  | .qemuConnects k i =>
      if k ∈ s.qemus ∧ i < (u.config k).mounts.length then
        match s.files.get (u.dir k, (RtFile.rpcSock i).fileName) with
        | some (.rpc k' i') =>
            if (k', i') ∈ s.accepting then
              some ({ s with serving := (k', i') :: s.serving }, [.connected k i k' i'])
            else none
        | _ => none
      else none
  | .qemuExits k => some (s.endQemu k, [])
  | .acceptEnds k i => some (s.endAccept k i, [])
  | .connEnds k i => some ({ s with serving := s.serving.erase (k, i) }, [])
  | .request k i => if (k, i) ∈ s.serving then some (s, [.served k i]) else none

/-- The sandboxes of one process, and everything they have running. -/
def qemuParty : Party ι LifeCall QemuStep (Hosts ι δ) SandboxError (QemuEvent ι) (Sight ι) where
  enter := enter u
  done := done u
  failed _ := failed
  error := stepError
  ready := ready u
  shows := shows u
  env := environment u

/-- Nothing has been started yet. -/
def Hosts.fresh : Hosts ι δ where
  sandbox _ := {}
  files := []
  accepting := []
  serving := []
  qemus := []
  opened := []

end Semantics

end TokimoQemu
