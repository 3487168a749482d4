import TokimoKvm.SandboxConfig
import TokimoKvm.ScriptProofs

/-! # `MacosSandbox` on macOS — start, stop and wait

    The virtual machine lives on a thread of its own, `Inner`; the calls talk
    to it over channels.  Only whether there is an `Inner` matters to the
    state machine.

    The thread only queues a `Wait`.  It answers it in a later `Stop` or
    `Shutdown`, and both need the sandbox, which `wait` has borrowed; so a
    `wait` for a machine that runs does not return. -/

namespace TokimoMacos

open TokimoMachine TokimoMount TokimoSandbox TokimoScript

/-- The fields of the sandbox that change: its state, and whether there is an
    `Inner`. -/
structure MacosSandbox where
  state : SandboxState := .created
  inner : Bool := false
  deriving DecidableEq, Repr

/-- The steps of the three calls. -/
inductive MacosStep where
  -- `Inner::start`
  | findImage
  | createRoot
  | createLog
  | socketPair (i : Nat)
  | openLog
  | spawnThread
  | startVm
  -- the rest of `start`
  | becomeRunning
  -- `stop`
  | stopVm
  | becomeStopped
  -- `wait`
  | awaitVm
  deriving DecidableEq, Repr

variable {σ : Type}

/-- One socket pair for each mount. -/
def socketSteps : List (MountSpec σ) → Nat → List MacosStep
  | [], _ => []
  | _ :: ms, i => .socketPair i :: socketSteps ms (i + 1)

/-- `Inner::start`, and what becomes of its `Ok`. -/
def startScript (config : SandboxConfig σ) : List MacosStep :=
  (if config.image.isNone then [.findImage] else [])
    ++ [.createRoot, .createLog]
    ++ socketSteps config.mounts 0
    ++ [.openLog, .spawnThread, .startVm, .becomeRunning]

section Semantics

variable (config : SandboxConfig σ)

/-- How each call begins; `stop` takes the `Inner`, and `wait` only looks
    whether there is one. -/
def enter (c : LifeCall) (s : MacosSandbox) :
    Except SandboxError (MacosSandbox × List MacosStep) :=
  match c with
  | .start =>
      if s.state ≠ .created then .error .alreadyStarted
      else .ok ({ s with state := .starting }, startScript config)
  | .stop =>
      if s.state ≠ .running ∧ s.state ≠ .starting then .ok (s, [])
      else
        .ok ({ state := .stopping, inner := false },
          (if s.inner then [.stopVm] else []) ++ [.becomeStopped])
  | .wait => .ok (s, if s.inner then [.awaitVm] else [])

/-- What a step leaves that succeeds. -/
def done (o : MacosStep) (s : MacosSandbox) : MacosSandbox :=
  match o with
  | .becomeRunning => { state := .running, inner := true }
  | .becomeStopped => { s with state := .stopped }
  | .awaitVm => { s with state := .stopped }
  | _ => s

/-- The error a step ends its call with when it fails. -/
def stepError : MacosStep → Option SandboxError
  | .findImage => some (.config "no image (set TOKIMO_IMG_DIR or build img/)")
  | .createRoot => some .io
  | .createLog => some .io
  | .socketPair _ => some .io
  | .openLog => some .io
  | .spawnThread => some .io
  | .startVm => some (.hypervisor "VM start")
  | .stopVm => some (.hypervisor "VM stop")
  -- the other steps change fields, or end with `Ok` if they end at all
  | _ => none

/-- The steps that come to an end.  The `Wait` of a machine that runs is never
    answered: nobody can send what it waits for. -/
def ends : MacosStep → Bool
  | .awaitVm => false
  | _ => true

/-- An error of `Inner::start` makes the state `Failed`; one of `Inner::stop`
    is returned from `Stopping`. -/
def failed (o : MacosStep) (s : MacosSandbox) : Option MacosSandbox :=
  match o with
  | .stopVm => some s
  | o => (stepError o).map fun _ => { s with state := .failed }

/-- One macOS sandbox; its calls have no environment to meet here. -/
def macosParty : Party Unit LifeCall MacosStep MacosSandbox SandboxError Empty Empty where
  enter _ := enter config
  done _ := done
  failed _ := failed
  error := stepError
  ready _ o _ := ends o
  shows _ _ _ := []
  env e _ := nomatch e

end Semantics

end TokimoMacos
