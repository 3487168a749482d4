import TokimoKvm.QemuCleanupProofs
import TokimoKvm.WslCleanupProofs

/-! # Stopped and failed sandboxes

    What is gone when `stop` returns `Ok`, and what a failed `start` leaves,
    on the two backends that spawn processes of their own. -/

namespace TokimoSandbox

open TokimoMachine TokimoPath TokimoMount TokimoScript
open TokimoQemu (QemuSandbox Hosts Setup qemuParty)
open TokimoWsl (WslHost wslParty)

/-! ## After `stop` -/

/-- **STOP CLEANS UP** on both backends in every run in which the steps are
    careful: nothing is left of the sandbox, and no request is served any
    more. -/
theorem stop_cleans_up {ι δ σ τ : Type} [DecidableEq ι] [DecidableEq δ] (u : Setup ι δ σ)
    (config : SandboxConfig τ) (listed : Bool) :
    StopCleans (qemuParty u) (TokimoQemu.Careful u) .fresh TokimoQemu.Clean
        (fun k e => ∃ i, e = .served k i)
      ∧ StopCleans (wslParty config listed) TokimoWsl.Careful {} (fun _ => TokimoWsl.Clean)
        (fun _ e => ∃ i, e = .served i) :=
  ⟨TokimoQemu.qemu_stopCleans u, TokimoWsl.wsl_stopCleans config listed⟩

/-- A configuration with an image and two mounts. -/
def demoConfig : SandboxConfig Unit where
  name := "demo"
  image := some { kernel := .root, initrd := .root, rootfs := none }
  mounts := [.hostDir "/mnt/a" .root false "a", .hostDir "/mnt/b" .root false "b"]

def demoSetup : Setup Unit Unit Unit where
  config _ := demoConfig
  dir _ := ()

/-- A `start` that comes to its end. -/
def demoStart : List (Move Unit LifeCall (TokimoQemu.QemuEvent Unit)) :=
  .call () .start :: List.replicate 11 (.run () true)
    ++ [.env (.qemuOpens () .qmpSock), .run () true, .run () true]

/-- The sandbox is started, its QEMU exits, `wait` returns, and then `stop`
    does: the accept loops and the socket files are still there. -/
theorem wait_hides_servers :
    ¬ StopCleans (qemuParty demoSetup) always .fresh TokimoQemu.Clean
      (fun k e => ∃ i, e = .served k i) := by
  intro hclean
  have hx : (((qemuParty demoSetup).machine.exec (.idle .fresh)
      (demoStart ++ [.env (.qemuExits ()), .call () .wait, .run () true])).bind fun r =>
        ((qemuParty demoSetup).machine.step r.1 (.call () .stop)).map fun x =>
          decide (.returned () .stop (.ok ()) ∈ x.2 ∧ ((), 0) ∈ x.1.now.accepting
            ∧ x.1.now.files.get ((), "rpc0.sock") = some (.rpc () 0))) = some true := by
    decide +kernel
  obtain ⟨⟨st, tr⟩, hrun, hs⟩ := Option.bind_eq_some_iff.mp hx
  obtain ⟨⟨st', es⟩, hs, hd⟩ := Option.map_eq_some_iff.mp hs
  obtain ⟨hret, hacc, -⟩ := of_decide_eq_true hd
  exact (hclean (run_of_exec_always hrun) True.intro hs () hret).1.accepting 0 hacc

/-- Each step succeeds, none is of a `wait`, and no connection is left when
    `stop` ends. -/
def plainly (st : Calls Unit LifeCall TokimoQemu.QemuStep (Hosts Unit Unit)) :
    Move Unit LifeCall (TokimoQemu.QemuEvent Unit) → Bool
  | .run _ ok => ok &&
      match st.pending () with
      | some (.wait, _) => false
      | some (.stop, .becomeStopped :: _) => st.now.serving.isEmpty
      | _ => true
  | _ => true

theorem plainly_careful {st : Calls Unit LifeCall TokimoQemu.QemuStep (Hosts Unit Unit)}
    {l : Move Unit LifeCall (TokimoQemu.QemuEvent Unit)} (h : plainly st l = true) :
    TokimoQemu.Careful demoSetup st l := by
  cases l with
  | call k c => exact True.intro
  | env v => exact True.intro
  | run k ok =>
      obtain ⟨hok, hnext⟩ := Bool.and_eq_true_iff.mp h
      subst hok
      rw [TokimoQemu.Careful]
      cases hp : st.pending () with
      | none => exact True.intro
      | some x =>
          obtain ⟨c, os⟩ := x
          rw [hp] at hnext
          cases c with
          | start => exact True.intro
          | wait => cases hnext
          | stop =>
              cases os with
              | nil => exact True.intro
              | cons o os =>
                  cases o with
                  | becomeStopped =>
                      intro i
                      rw [List.isEmpty_iff.mp hnext]
                      exact List.not_mem_nil
                  | removeServer v => exact fun hf => by cases hf
                  | _ => exact True.intro

/-- As for QEMU, for the WSL backend. -/
def plainlyWsl (st : Calls Unit LifeCall TokimoWsl.WslStep WslHost) :
    Move Unit LifeCall TokimoWsl.WslEvent → Bool
  | .run _ ok => ok &&
      match st.pending () with
      | some (.wait, _) => false
      | some (.stop, .becomeStopped :: _) => st.now.tasks.isEmpty
      | _ => true
  | _ => true

theorem plainlyWsl_careful {st : Calls Unit LifeCall TokimoWsl.WslStep WslHost}
    {l : Move Unit LifeCall TokimoWsl.WslEvent} (h : plainlyWsl st l = true) :
    TokimoWsl.Careful st l := by
  cases l with
  | call k c => exact True.intro
  | env v => exact True.intro
  | run k ok =>
      obtain ⟨hok, hnext⟩ := Bool.and_eq_true_iff.mp h
      subst hok
      rw [TokimoWsl.Careful]
      cases hp : st.pending () with
      | none => exact True.intro
      | some x =>
          obtain ⟨c, os⟩ := x
          rw [hp] at hnext
          cases c with
          | start => exact True.intro
          | wait => cases hnext
          | stop =>
              cases os with
              | nil => exact True.intro
              | cons o os =>
                  cases o with
                  | becomeStopped =>
                      intro i
                      rw [List.isEmpty_iff.mp hnext]
                      exact List.not_mem_nil
                  | terminateDistro => rfl
                  | _ => exact True.intro

/-- On both backends a sandbox is started, serves a request and is stopped:
    nothing is left of it. -/
theorem served_and_stopped :
    (∃ st tr st' es, Run (qemuParty demoSetup).machine (TokimoQemu.Careful demoSetup)
        (.idle .fresh) st tr ∧ .shown (.served () 1) ∈ tr
        ∧ (qemuParty demoSetup).machine.step st (.run () true) = some (st', es)
        ∧ .returned () .stop (.ok ()) ∈ es ∧ TokimoQemu.Clean () st'.now)
      ∧ ∃ st tr st' es, Run (wslParty demoConfig false).machine TokimoWsl.Careful (.idle {}) st tr
        ∧ .shown (.served 1) ∈ tr
        ∧ (wslParty demoConfig false).machine.step st (.run () true) = some (st', es)
        ∧ .returned () .stop (.ok ()) ∈ es ∧ TokimoWsl.Clean st'.now := by
  constructor
  · let ls : List (Move Unit LifeCall (TokimoQemu.QemuEvent Unit)) :=
      demoStart ++ [.env (.qemuConnects () 1), .env (.request () 1), .env (.connEnds () 1),
        .call () .stop] ++ List.replicate 7 (.run () true)
    -- the run is computed, with the condition checked at each step
    have halong : (qemuParty demoSetup).machine.Along (fun st l => plainly st l = true)
        (.idle .fresh) ls := by
      decide +kernel
    have hx : (((qemuParty demoSetup).machine.exec (.idle .fresh) ls).bind fun r =>
        ((qemuParty demoSetup).machine.step r.1 (.run () true)).map fun x =>
          decide (.shown (.served () 1) ∈ r.2 ∧ .returned () .stop (.ok ()) ∈ x.2
            ∧ plainly r.1 (.run () true) = true)) = some true := by
      decide +kernel
    obtain ⟨⟨st, tr⟩, hrun, hs⟩ := Option.bind_eq_some_iff.mp hx
    obtain ⟨⟨st', es⟩, hs, hd⟩ := Option.map_eq_some_iff.mp hs
    obtain ⟨hserved, hret, hlast⟩ := of_decide_eq_true hd
    have hr := (run_of_exec ls halong hrun).weaken fun _ _ => plainly_careful
    exact ⟨st, tr, st', es, hr, hserved, hs, hret,
      ((stop_cleans_up demoSetup demoConfig false).1 hr (plainly_careful hlast) hs () hret).1⟩
  · let ls : List (Move Unit LifeCall TokimoWsl.WslEvent) :=
      .call () .start :: List.replicate 11 (.run () true)
      ++ [.env (.pollBegins 1), .env (.request 1), .env (.pollEnds 1), .call () .stop]
      ++ List.replicate 6 (.run () true)
    have halong : (wslParty demoConfig false).machine.Along
        (fun st l => plainlyWsl st l = true) (.idle {}) ls := by
      decide +kernel
    have hx : (((wslParty demoConfig false).machine.exec (.idle {}) ls).bind fun r =>
        ((wslParty demoConfig false).machine.step r.1 (.run () true)).map fun x =>
          decide (.shown (.served 1) ∈ r.2 ∧ .returned () .stop (.ok ()) ∈ x.2
            ∧ plainlyWsl r.1 (.run () true) = true)) = some true := by
      decide +kernel
    obtain ⟨⟨st, tr⟩, hrun, hs⟩ := Option.bind_eq_some_iff.mp hx
    obtain ⟨⟨st', es⟩, hs, hd⟩ := Option.map_eq_some_iff.mp hs
    obtain ⟨hserved, hret, hlast⟩ := of_decide_eq_true hd
    have hr := (run_of_exec ls halong hrun).weaken fun _ _ => plainlyWsl_careful
    exact ⟨st, tr, st', es, hr, hserved, hs, hret,
      ((stop_cleans_up demoSetup demoConfig false).2 hr (plainlyWsl_careful hlast) hs () hret).1⟩

/-! ## After a `start` that fails -/

/-- What a sandbox can be left as by a call that did not succeed. -/
def SandboxState.Settled (st : SandboxState) : Prop := st ≠ .starting ∧ st ≠ .running

/-- **A FAILED START NEVER SETTLES**: on both backends, whatever step of
    `start` has failed, in every run, the sandbox is left `Starting`. -/
theorem failed_start_never_settles {ι δ σ τ : Type} [DecidableEq ι] [DecidableEq δ]
    (u : Setup ι δ σ) (config : SandboxConfig τ) (listed : Bool) :
    FailedStartLeaves (qemuParty u) .fresh
        (fun k s => (s.sandbox k).state = .starting ∧ ¬ (s.sandbox k).state.Settled)
      ∧ FailedStartLeaves (wslParty config listed) {}
        (fun _ s => s.self.state = .starting ∧ ¬ s.self.state.Settled) := by
  constructor
  · intro st tr hr l st' es hs k e hm hne
    have hst := TokimoQemu.qemu_failedStart u hr hs k e hm hne
    exact ⟨hst, fun h => h.1 hst⟩
  · intro st tr hr l st' es hs k e hm hne
    have hst := TokimoWsl.wsl_failedStart config listed hr hs k e hm hne
    exact ⟨hst, fun h => h.1 hst⟩

/-- The second bind fails: the state is `Starting`, and the accept loop and
    the socket of the first mount are left. -/
theorem failed_bind_leaves_server :
    ¬ FailedStartLeaves (qemuParty demoSetup) .fresh
      (fun k s => (s.sandbox k).state.Settled ∧ (∀ i, (k, i) ∉ s.accepting)
        ∧ ∀ x i, s.files.get x ≠ some (.rpc k i)) := by
  intro hleft
  have hx : (((qemuParty demoSetup).machine.exec (.idle .fresh)
      (.call () .start :: List.replicate 9 (.run () true))).bind fun r =>
        ((qemuParty demoSetup).machine.step r.1 (.run () false)).map fun x =>
          decide (.returned () .start (.error (.hypervisor "rpc bind")) ∈ x.2
            ∧ ((), 0) ∈ x.1.now.accepting)) = some true := by
    decide +kernel
  obtain ⟨⟨st, tr⟩, hrun, hs⟩ := Option.bind_eq_some_iff.mp hx
  obtain ⟨⟨st', es⟩, hs, hd⟩ := Option.map_eq_some_iff.mp hs
  obtain ⟨hret, hacc⟩ := of_decide_eq_true hd
  have h := hleft (run_of_exec_always hrun) hs () _ hret (fun he => nomatch he)
  exact h.2.1 0 hacc

/-- The same failure, and an import of the distro that fails. -/
theorem failed_starts_are_starting :
    (∃ st tr st' es, Run (qemuParty demoSetup).machine always (.idle .fresh) st tr
        ∧ (qemuParty demoSetup).machine.step st (.run () false) = some (st', es)
        ∧ .returned () .start (.error (.hypervisor "rpc bind")) ∈ es
        ∧ (st'.now.sandbox ()).state = .starting)
      ∧ ∃ st tr st' es, Run (wslParty demoConfig false).machine always (.idle {}) st tr
        ∧ (wslParty demoConfig false).machine.step st (.run () false) = some (st', es)
        ∧ .returned () .start (.error (.hypervisor "wsl --import")) ∈ es
        ∧ st'.now.self.state = .starting := by
  constructor
  · have hx : (((qemuParty demoSetup).machine.exec (.idle .fresh)
        (.call () .start :: List.replicate 9 (.run () true))).bind fun r =>
          ((qemuParty demoSetup).machine.step r.1 (.run () false)).map fun x =>
            decide (.returned () .start (.error (.hypervisor "rpc bind")) ∈ x.2)) = some true := by
      decide +kernel
    obtain ⟨⟨st, tr⟩, hrun, hs⟩ := Option.bind_eq_some_iff.mp hx
    obtain ⟨⟨st', es⟩, hs, hd⟩ := Option.map_eq_some_iff.mp hs
    have hr := run_of_exec_always hrun
    have hret := of_decide_eq_true hd
    exact ⟨st, tr, st', es, hr, hs, hret, ((failed_start_never_settles demoSetup demoConfig false).1
      hr hs () _ hret (fun he => nomatch he)).1⟩
  · have hx : (((wslParty demoConfig false).machine.exec (.idle {})
        (.call () .start :: List.replicate 4 (.run () true))).bind fun r =>
          ((wslParty demoConfig false).machine.step r.1 (.run () false)).map fun x =>
            decide (.returned () .start (.error (.hypervisor "wsl --import")) ∈ x.2))
        = some true := by
      decide +kernel
    obtain ⟨⟨st, tr⟩, hrun, hs⟩ := Option.bind_eq_some_iff.mp hx
    obtain ⟨⟨st', es⟩, hs, hd⟩ := Option.map_eq_some_iff.mp hs
    have hr := run_of_exec_always hrun
    have hret := of_decide_eq_true hd
    exact ⟨st, tr, st', es, hr, hs, hret, ((failed_start_never_settles demoSetup demoConfig false).2
      hr hs () _ hret (fun he => nomatch he)).1⟩

end TokimoSandbox
