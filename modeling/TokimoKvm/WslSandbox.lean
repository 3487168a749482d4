import TokimoKvm.SandboxConfig
import TokimoKvm.ScriptProofs

/-! # `WslSandbox` — start, stop and wait, step by step

    Each mount has an agent process and an RPC task, both known by the
    mount's index.  A task runs in polls: it executes requests within one,
    and an abort only takes effect between two. -/

namespace TokimoWsl

open TokimoMachine TokimoMount TokimoSandbox TokimoScript

/-- `WslSandbox`, as far as its calls read it: the agents and the tasks that
    serve them, by the number of their mount. -/
structure WslSandbox where
  state : SandboxState := .created
  resolvedDistro : Bool := false
  agentChildren : List Nat := []
  vfsTasks : List Nat := []
  deriving DecidableEq, Repr

/-- The sandbox, and what it has running. -/
structure WslHost where
  self : WslSandbox := {}
  /-- The agent processes that run. -/
  agents : List Nat := []
  /-- The RPC tasks that are alive. -/
  tasks : List Nat := []
  /-- The tasks a worker thread is polling. -/
  polling : List Nat := []
  /-- The tasks whose abort waits for the end of a poll. -/
  aborted : List Nat := []
  /-- The distro was terminated, and nothing has run in it since. -/
  terminated : Bool := false
  deriving DecidableEq, Repr

/-- The steps of the three calls, in the order of the source. -/
inductive WslStep where
  -- `start`
  | createRuntimeDir
  | listDistros
  | createInstallDir
  | findTarball
  | importDistro
  | resolveDistro
  | createAgentLog (tag : String)
  | spawnAgent (i : Nat)
  | becomeRunning
  -- `stop`
  | killAgent (i : Nat)
  | takeTasks
  | abortTask (i : Nat)
  | terminateDistro
  | becomeStopped
  -- `wait`
  | awaitAgent (i : Nat)
  | allExited
  deriving DecidableEq, Repr

variable {σ : Type}

/-- `ensure_distro`, for a distro that is listed or not. -/
def distroSteps (listed : Bool) : List WslStep :=
  .listDistros
    :: (if listed then [] else [.createInstallDir, .findTarball, .importDistro])
    ++ [.resolveDistro]

/-- One turn of the mount loop for each mount. -/
def agentSteps : List (MountSpec σ) → Nat → List WslStep
  | [], _ => []
  | m :: ms, i => .createAgentLog m.tag :: .spawnAgent i :: agentSteps ms (i + 1)

/-- The steps of `start`: the runtime directory, the distro, and an agent for
    each mount. -/
def startScript (config : SandboxConfig σ) (listed : Bool) : List WslStep :=
  .createRuntimeDir :: distroSteps listed ++ agentSteps config.mounts 0 ++ [.becomeRunning]

/-- The steps of `stop`: kill the agents, abort the tasks, terminate the distro
    if it was resolved. -/
def stopScript (self : WslSandbox) : List WslStep :=
  self.agentChildren.map .killAgent
    ++ .takeTasks :: self.vfsTasks.map .abortTask
    ++ (if self.resolvedDistro then [.terminateDistro] else [])
    ++ [.becomeStopped]

/-- The steps of `wait`: one agent after the other. -/
def waitScript (self : WslSandbox) : List WslStep :=
  self.agentChildren.map .awaitAgent ++ [.allExited]

namespace WslHost

/-- The host with another state of the sandbox. -/
def setSelf (s : WslHost) (self : WslSandbox) : WslHost := { s with self := self }

/-- An agent is gone. -/
def endAgent (s : WslHost) (i : Nat) : WslHost := { s with agents := s.agents.filter (· ≠ i) }

/-- A task is gone, with all that is known of it. -/
def endTask (s : WslHost) (i : Nat) : WslHost :=
  { s with
    tasks := s.tasks.filter (· ≠ i)
    polling := s.polling.filter (· ≠ i)
    aborted := s.aborted.filter (· ≠ i) }

end WslHost

/-- What happens beside the calls: agents exit, tasks are polled and end,
    requests come in. -/
inductive WslEvent where
  | agentExits (i : Nat)
  | pollBegins (i : Nat)
  | pollEnds (i : Nat)
  | taskEnds (i : Nat)
  | request (i : Nat)
  deriving DecidableEq, Repr

/-- A request was executed against the file system of mount `i`. -/
inductive WslSight where
  | served (i : Nat)
  deriving DecidableEq, Repr

section Semantics

variable (config : SandboxConfig σ) (listed : Bool)

/-- What a call does before its first step: only `start` has a guard, and `stop`
    and `wait` take the agents. -/
def enter (c : LifeCall) (s : WslHost) : Except SandboxError (WslHost × List WslStep) :=
  match c with
  | .start =>
      if s.self.state ≠ .created then .error .alreadyStarted
      else .ok (s.setSelf { s.self with state := .starting }, startScript config listed)
  | .stop =>
      if s.self.state = .stopped then .ok (s, [])
      else
        .ok (s.setSelf { s.self with state := .stopping, agentChildren := [] }, stopScript s.self)
  | .wait => .ok (s.setSelf { s.self with agentChildren := [] }, waitScript s.self)

/-- What a step does when it succeeds. -/
def done (o : WslStep) (s : WslHost) : WslHost :=
  match o with
  | .createRuntimeDir => s
  | .listDistros => s
  | .createInstallDir => s
  | .findTarball => s
  | .importDistro => s
  | .resolveDistro => s.setSelf { s.self with resolvedDistro := true }
  | .createAgentLog _ => s
  | .spawnAgent i =>
      { s.setSelf { s.self with
          agentChildren := s.self.agentChildren ++ [i]
          vfsTasks := s.self.vfsTasks ++ [i] } with
        agents := i :: s.agents
        tasks := i :: s.tasks
        terminated := false }
  | .becomeRunning => s.setSelf { s.self with state := .running }
  | .killAgent i => s.endAgent i
  | .takeTasks => s.setSelf { s.self with vfsTasks := [] }
  -- the aborted task is not awaited: one that is being polled goes on until it
  -- yields; an idle one ends here, where tokio drops it a little later
  | .abortTask i => if i ∈ s.polling then { s with aborted := i :: s.aborted } else s.endTask i
  | .terminateDistro => { s with terminated := true }
  | .becomeStopped => s.setSelf { s.self with state := .stopped }
  | .awaitAgent _ => s
  | .allExited => s.setSelf { s.self with state := .stopped }

/-- The errors that are returned; all others are dropped with `let _`. -/
def stepError : WslStep → Option SandboxError
  | .createRuntimeDir => some (.config "runtime_dir")
  | .listDistros => some (.hypervisor "wsl --list")
  | .createInstallDir => some (.config "create install_dir")
  | .findTarball => some (.config "rootfs tarball not found")
  | .importDistro => some (.hypervisor "wsl --import")
  | .createAgentLog _ => some (.config "agent log")
  | .spawnAgent _ => some (.hypervisor "spawn wsl agent")
  | _ => none

/-- A step that can fail leaves everything as it is. -/
def failed (o : WslStep) (s : WslHost) : Option WslHost :=
  match o with
  | .terminateDistro => some s
  | o => (stepError o).map fun _ => s

/-- A child is waited for until it is gone. -/
def ready (o : WslStep) (s : WslHost) : Bool :=
  match o with
  | .awaitAgent i => decide (i ∉ s.agents)
  | _ => true

/-- What an event does, where it can happen. -/
def environment (e : WslEvent) (s : WslHost) : Option (WslHost × List WslSight) :=
  match e with
  | .agentExits i => some (s.endAgent i, [])
  | .pollBegins i =>
      if i ∈ s.tasks ∧ i ∉ s.polling then some ({ s with polling := i :: s.polling }, [])
      else none
  | .pollEnds i =>
      -- an abort that came during the poll ends the task now
      if i ∈ s.aborted then some (s.endTask i, [])
      else some ({ s with polling := s.polling.filter (· ≠ i) }, [])
  | .taskEnds i => if i ∈ s.polling then some (s.endTask i, []) else none
  | .request i => if i ∈ s.tasks ∧ i ∈ s.polling then some (s, [.served i]) else none

/-- One WSL sandbox and everything it has running. -/
def wslParty : Party Unit LifeCall WslStep WslHost SandboxError WslEvent WslSight where
  enter _ := enter config listed
  done _ := done
  failed _ := failed
  error := stepError
  ready _ := ready
  shows _ _ _ := []
  env := environment

end Semantics

end TokimoWsl
