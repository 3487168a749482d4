import TokimoKvm.StopRuleProofs
import TokimoKvm.WslSandbox

/-! # What a stopped WSL sandbox leaves behind

    `start` writes down the agents, the tasks and the distro, and `stop` goes
    through them: it kills and awaits the agents, aborts the tasks without
    awaiting them, and asks once for the distro's end.  `wait` takes the
    agents away and sets the state to `Stopped`, after which `stop` does
    nothing. -/

namespace TokimoWsl

open TokimoMachine TokimoMount TokimoSandbox TokimoScript

variable {σ : Type}

/-! ## Parts of the state -/

namespace WslHost

/-- Ending an agent ends that one alone. -/
theorem mem_endAgent {s : WslHost} {i j : Nat} :
    j ∈ (s.endAgent i).agents ↔ j ∈ s.agents ∧ j ≠ i := by
  show j ∈ s.agents.filter _ ↔ _
  rw [List.mem_filter, decide_eq_true_iff]

/-- Ending a task ends that one alone. -/
theorem mem_endTask {s : WslHost} {i j : Nat} :
    j ∈ (s.endTask i).tasks ↔ j ∈ s.tasks ∧ j ≠ i := by
  show j ∈ s.tasks.filter _ ↔ _
  rw [List.mem_filter, decide_eq_true_iff]

/-- A task that was aborted stays so when another ends. -/
theorem endTask_aborted {s : WslHost} {i j : Nat} (h : j ∈ s.aborted) (hne : j ≠ i) :
    j ∈ (s.endTask i).aborted := by
  show j ∈ s.aborted.filter _
  rw [List.mem_filter, decide_eq_true_iff]
  exact ⟨h, hne⟩

end WslHost

/-! ## What is left of a sandbox -/

/-- No agent and no task is alive, and the distro was terminated if it was
    resolved. -/
structure Clean (s : WslHost) : Prop where
  agents : ∀ i, i ∉ s.agents
  tasks : ∀ i, i ∉ s.tasks
  distro : s.self.resolvedDistro = true → s.terminated = true

/-- What runs is written down in the sandbox. -/
structure Tracked (s : WslHost) : Prop where
  agents : ∀ i ∈ s.agents, i ∈ s.self.agentChildren ∧ s.self.resolvedDistro = true
  tasks : ∀ i ∈ s.tasks, i ∈ s.self.vfsTasks ∧ s.self.resolvedDistro = true

/-- The rest of `stop` gets to whatever runs, but for tasks it has aborted
    during a poll. -/
structure Stopping (os : List WslStep) (s : WslHost) : Prop where
  agents : ∀ i ∈ s.agents, .killAgent i ∈ os
  tasks : ∀ i ∈ s.tasks, .abortTask i ∈ os ∨ i ∈ s.aborted
  distro : s.self.resolvedDistro = true → .terminateDistro ∈ os ∨ s.terminated = true

/-- `wait` has taken the agents away. -/
structure Waiting (s : WslHost) : Prop where
  agents : ∀ i ∈ s.agents, s.self.resolvedDistro = true
  tasks : ∀ i ∈ s.tasks, s.self.resolvedDistro = true

/-- Between two calls. -/
def Steady (s : WslHost) : Prop :=
  match s.self.state with
  | .created => Clean s
  | .stopped => Clean s
  | .starting => Tracked s
  | .running => Tracked s
  | _ => False

/-- Agents are spawned only once the distro is resolved. -/
def Resolves : Bool → List WslStep → Prop
  | _, [] => True
  | resolved, o :: os =>
      match o with
      | .resolveDistro => Resolves true os
      | .spawnAgent _ => resolved = true ∧ Resolves resolved os
      | _ => Resolves resolved os

/-- The steps of `start` before its last. -/
def builds : WslStep → Bool
  | .createRuntimeDir | .listDistros | .createInstallDir | .findTarball | .importDistro
  | .resolveDistro | .createAgentLog _ | .spawnAgent _ => true
  | _ => false

/-- The steps of `stop` before its last. -/
def tears : WslStep → Bool
  | .killAgent _ | .takeTasks | .abortTask _ | .terminateDistro => true
  | _ => false

/-- The steps of `wait` before its last. -/
def awaits : WslStep → Bool
  | .awaitAgent _ => true
  | _ => false

/-- A call in progress is at its script, and the sandbox is as the part of
    it that is done has left it. -/
def Inv (_ : Unit) : Option (LifeCall × List WslStep) → WslHost → Prop
  | none, s => Steady s
  | some (.start, os), s => s.self.state = .starting ∧ Tracked s
      ∧ Resolves s.self.resolvedDistro os
      ∧ ∃ os', os = os' ++ [.becomeRunning] ∧ ∀ o ∈ os', builds o = true
  | some (.stop, os), s => s.self.state = .stopping ∧ Stopping os s
      ∧ ∃ os', os = os' ++ [.becomeStopped] ∧ ∀ o ∈ os', tears o = true
  | some (.wait, os), s => (s.self.state = .stopped → Clean s) ∧ Waiting s
      ∧ ∃ os', os = os' ++ [.allExited] ∧ ∀ o ∈ os', awaits o = true

/-! ## What the environment does -/

/-- Nothing was added to what runs. -/
structure Apart (s s' : WslHost) : Prop where
  self : s'.self = s.self
  agents : ∀ i ∈ s'.agents, i ∈ s.agents
  tasks : ∀ i ∈ s'.tasks, i ∈ s.tasks
  aborted : ∀ i ∈ s'.tasks, i ∈ s.aborted → i ∈ s'.aborted
  terminated : s'.terminated = s.terminated

/-- What is clean stays so while nothing is added. -/
theorem Clean.apart {s s' : WslHost} (h : Clean s) (ha : Apart s s') : Clean s' where
  agents i hi := h.agents i (ha.agents i hi)
  tasks i hi := h.tasks i (ha.tasks i hi)
  distro hr := by
    rw [ha.self] at hr
    rw [ha.terminated]
    exact h.distro hr

/-- What is written down stays written down. -/
theorem Tracked.apart {s s' : WslHost} (h : Tracked s) (ha : Apart s s') : Tracked s' where
  agents i hi := by
    rw [ha.self]
    exact h.agents i (ha.agents i hi)
  tasks i hi := by
    rw [ha.self]
    exact h.tasks i (ha.tasks i hi)

/-- What a `wait` holds is still all that runs. -/
theorem Waiting.apart {s s' : WslHost} (h : Waiting s) (ha : Apart s s') : Waiting s' where
  agents i hi := by
    rw [ha.self]
    exact h.agents i (ha.agents i hi)
  tasks i hi := by
    rw [ha.self]
    exact h.tasks i (ha.tasks i hi)

/-- What a stop still has to do is still enough. -/
theorem Stopping.apart {os : List WslStep} {s s' : WslHost} (h : Stopping os s)
    (ha : Apart s s') : Stopping os s' where
  agents i hi := h.agents i (ha.agents i hi)
  tasks i hi := (h.tasks i (ha.tasks i hi)).imp_right (ha.aborted i hi)
  distro hr := by
    rw [ha.self] at hr
    rw [ha.terminated]
    exact h.distro hr

/-- A sandbox between two calls stays as it is. -/
theorem Steady.apart {s s' : WslHost} (h : Steady s) (ha : Apart s s') : Steady s' := by
  unfold Steady at h ⊢
  rw [ha.self]
  cases hst : s.self.state with
  | created => rw [hst] at h; exact Clean.apart h ha
  | stopped => rw [hst] at h; exact Clean.apart h ha
  | starting => rw [hst] at h; exact Tracked.apart h ha
  | running => rw [hst] at h; exact Tracked.apart h ha
  | stopping => rw [hst] at h; exact h.elim
  | failed => rw [hst] at h; exact h.elim

/-- The invariant does not mind the environment. -/
theorem Inv.apart {j : Unit} {p : Option (LifeCall × List WslStep)} {s s' : WslHost}
    (h : Inv j p s) (ha : Apart s s') : Inv j p s' := by
  match p with
  | none => exact Steady.apart h ha
  | some (.start, os) => exact ⟨ha.self ▸ h.1, h.2.1.apart ha, ha.self ▸ h.2.2⟩
  | some (.stop, os) => exact ⟨ha.self ▸ h.1, h.2.1.apart ha, h.2.2⟩
  | some (.wait, os) =>
      exact ⟨fun hst => (h.1 (ha.self ▸ hst)).apart ha, h.2.1.apart ha, h.2.2⟩

/-- The end of a task adds nothing. -/
theorem apart_endTask (s : WslHost) (i : Nat) : Apart s (s.endTask i) where
  self := rfl
  agents _ h := h
  tasks _ h := (WslHost.mem_endTask.mp h).1
  aborted _ h ha := WslHost.endTask_aborted ha (WslHost.mem_endTask.mp h).2
  terminated := rfl

/-- Nor does anything else that happens by itself. -/
theorem env_apart {e : WslEvent} {s s' : WslHost} {es : List WslSight}
    (h : environment e s = some (s', es)) : Apart s s' := by
  cases e with
  | agentExits i =>
      rw [← (Prod.mk.inj (Option.some.inj h)).1]
      exact ⟨rfl, fun _ h => (WslHost.mem_endAgent.mp h).1, fun _ h => h, fun _ _ h => h, rfl⟩
  | pollBegins i =>
      rw [environment] at h
      split at h
      · rw [← (Prod.mk.inj (Option.some.inj h)).1]
        exact ⟨rfl, fun _ h => h, fun _ h => h, fun _ _ h => h, rfl⟩
      · exact nomatch h
  | pollEnds i =>
      rw [environment] at h
      split at h
      · rw [← (Prod.mk.inj (Option.some.inj h)).1]
        exact apart_endTask s i
      · rw [← (Prod.mk.inj (Option.some.inj h)).1]
        exact ⟨rfl, fun _ h => h, fun _ h => h, fun _ _ h => h, rfl⟩
  | taskEnds i =>
      rw [environment] at h
      split at h
      · rw [← (Prod.mk.inj (Option.some.inj h)).1]
        exact apart_endTask s i
      · exact nomatch h
  | request i =>
      rw [environment] at h
      split at h
      · rw [← (Prod.mk.inj (Option.some.inj h)).1]
        exact ⟨rfl, fun _ h => h, fun _ h => h, fun _ _ h => h, rfl⟩
      · exact nomatch h

/-- A step that fails has done nothing. -/
theorem failed_same {o : WslStep} {s s' : WslHost} (h : failed o s = some s') : s' = s := by
  unfold failed at h
  split at h
  · exact (Option.some.inj h).symm
  · obtain ⟨e, -, he⟩ := Option.map_eq_some_iff.mp h
    exact he.symm

/-! ## Scripts -/

/-- The steps for the agents are steps of `start`. -/
theorem agentSteps_build {ms : List (MountSpec σ)} {i : Nat} :
    ∀ o ∈ agentSteps ms i, builds o = true := by
  induction ms generalizing i with
  | nil => intro o ho; exact nomatch ho
  | cons m ms ih =>
      intro o ho
      rcases List.mem_cons.mp ho with rfl | ho
      · rfl
      · rcases List.mem_cons.mp ho with rfl | ho
        · rfl
        · exact ih o ho

/-- Behind the distro they may all be made. -/
theorem agentSteps_resolve {ms : List (MountSpec σ)} {i : Nat} :
    Resolves true (agentSteps ms i ++ [.becomeRunning]) := by
  induction ms generalizing i with
  | nil => exact True.intro
  | cons m ms ih => exact ⟨rfl, ih⟩

/-- `start` builds up, and last it becomes running. -/
theorem startScript_builds (config : SandboxConfig σ) (listed : Bool) :
    ∃ os, startScript config listed = os ++ [.becomeRunning] ∧ ∀ o ∈ os, builds o = true := by
  refine ⟨_, rfl, ?_⟩
  intro o ho
  rcases List.mem_append.mp ho with ho | ho
  · have hd : ∀ listed : Bool, ∀ o ∈ WslStep.createRuntimeDir :: distroSteps listed,
        builds o = true := by decide
    exact hd listed o ho
  · exact agentSteps_build o ho

/-- `start` resolves the distro before its first agent. -/
theorem startScript_resolves (config : SandboxConfig σ) (listed resolved : Bool) :
    Resolves resolved (startScript config listed) := by
  cases listed with
  | true => exact agentSteps_resolve
  | false => exact agentSteps_resolve

/-- `stop` tears down, and last it becomes stopped. -/
theorem stopScript_tears (self : WslSandbox) :
    ∃ os, stopScript self = os ++ [.becomeStopped] ∧ ∀ o ∈ os, tears o = true := by
  refine ⟨_, rfl, ?_⟩
  intro o ho
  simp only [List.mem_append, List.mem_cons, List.mem_map] at ho
  rcases ho with (⟨i, -, rfl⟩ | rfl | ⟨i, -, rfl⟩) | ho
  · rfl
  · rfl
  · rfl
  · split at ho
    · rw [List.mem_singleton.mp ho]
      rfl
    · exact nomatch ho

/-! ## What the sandbox itself does -/

/-- Of a sandbox that has nothing everything is written down. -/
theorem Clean.tracked {s : WslHost} (h : Clean s) : Tracked s where
  agents i hi := (h.agents i hi).elim
  tasks i hi := (h.tasks i hi).elim

/-- `stop` gets to everything that is written down. -/
theorem Tracked.stopping {s : WslHost} (h : Tracked s) :
    Stopping (stopScript s.self)
      (s.setSelf { s.self with state := .stopping, agentChildren := [] }) where
  agents i hi := by
    have hm := List.mem_map_of_mem (f := WslStep.killAgent) (h.agents i hi).1
    simp [stopScript, hm]
  tasks i hi := by
    have hm := List.mem_map_of_mem (f := WslStep.abortTask) (h.tasks i hi).1
    left
    simp [stopScript, hm]
  distro hr := by
    have hr' : s.self.resolvedDistro = true := hr
    left
    simp [stopScript, hr']

/-- A step of `start` writes down what it starts. -/
theorem build_tracked {o : WslStep} {os : List WslStep} {s : WslHost} (ho : builds o = true)
    (hst : s.self.state = .starting) (h : Tracked s)
    (hr : Resolves s.self.resolvedDistro (o :: os)) :
    (done o s).self.state = .starting ∧ Tracked (done o s)
      ∧ Resolves (done o s).self.resolvedDistro os := by
  cases o with
  | createRuntimeDir => exact ⟨hst, h, hr⟩
  | listDistros => exact ⟨hst, h, hr⟩
  | createInstallDir => exact ⟨hst, h, hr⟩
  | findTarball => exact ⟨hst, h, hr⟩
  | importDistro => exact ⟨hst, h, hr⟩
  | createAgentLog tag => exact ⟨hst, h, hr⟩
  | resolveDistro =>
      exact ⟨hst, ⟨fun i hi => ⟨(h.agents i hi).1, rfl⟩, fun i hi => ⟨(h.tasks i hi).1, rfl⟩⟩, hr⟩
  | spawnAgent n =>
      obtain ⟨hres, hr'⟩ := hr
      refine ⟨hst, ⟨fun i hi => ⟨?_, hres⟩, fun i hi => ⟨?_, hres⟩⟩, hr'⟩
      · rcases List.mem_cons.mp hi with rfl | hi
        · exact List.mem_append_right _ (List.mem_singleton.mpr rfl)
        · exact List.mem_append_left _ (h.agents i hi).1
      · rcases List.mem_cons.mp hi with rfl | hi
        · exact List.mem_append_right _ (List.mem_singleton.mpr rfl)
        · exact List.mem_append_left _ (h.tasks i hi).1
  | _ => exact nomatch ho

/-- What is still to be ended is left to the steps after a first one that
    has ended its own part. -/
theorem Stopping.tail {o : WslStep} {os : List WslStep} {s s' : WslHost}
    (h : Stopping (o :: os) s)
    (hag : ∀ i ∈ s'.agents, i ∈ s.agents ∧ o ≠ .killAgent i)
    (htask : ∀ i ∈ s'.tasks, i ∈ s.tasks ∧ (i ∈ s.aborted → i ∈ s'.aborted)
      ∧ (o = .abortTask i → i ∈ s'.aborted))
    (hres : s'.self.resolvedDistro = s.self.resolvedDistro)
    (hdis : s'.terminated = true ∨ (s'.terminated = s.terminated ∧ o ≠ .terminateDistro)) :
    Stopping os s' where
  agents i hi := by
    obtain ⟨hi', hne⟩ := hag i hi
    rcases List.mem_cons.mp (h.agents i hi') with heq | hm
    · exact absurd heq.symm hne
    · exact hm
  tasks i hi := by
    obtain ⟨hi', hab, hself⟩ := htask i hi
    rcases h.tasks i hi' with hm | hm
    · rcases List.mem_cons.mp hm with heq | hm
      · exact Or.inr (hself heq.symm)
      · exact Or.inl hm
    · exact Or.inr (hab hm)
  distro hr := by
    rw [hres] at hr
    rcases hdis with ht | ⟨ht, hne⟩
    · exact Or.inr ht
    · rw [ht]
      refine (h.distro hr).imp_left fun hm => ?_
      rcases List.mem_cons.mp hm with heq | hm
      · exact absurd heq.symm hne
      · exact hm

/-- A step of `stop` ends what the steps after it do not get to. -/
theorem tear_stopping {o : WslStep} {os : List WslStep} {s : WslHost} (ho : tears o = true)
    (hst : s.self.state = .stopping) (h : Stopping (o :: os) s) :
    (done o s).self.state = .stopping ∧ Stopping os (done o s) := by
  cases o with
  | killAgent n =>
      refine ⟨hst, h.tail (fun i hi => ?_) ?_ rfl (Or.inr ⟨rfl, fun he => nomatch he⟩)⟩
      · obtain ⟨hi', hne⟩ := WslHost.mem_endAgent.mp hi
        exact ⟨hi', fun he => hne (WslStep.killAgent.inj he).symm⟩
      · exact fun i hi => ⟨hi, id, fun he => nomatch he⟩
  | takeTasks =>
      refine ⟨hst, h.tail ?_ ?_ rfl (Or.inr ⟨rfl, fun he => nomatch he⟩)⟩
      · exact fun i hi => ⟨hi, fun he => nomatch he⟩
      · exact fun i hi => ⟨hi, id, fun he => nomatch he⟩
  | terminateDistro =>
      refine ⟨hst, h.tail ?_ ?_ rfl (Or.inl rfl)⟩
      · exact fun i hi => ⟨hi, fun he => nomatch he⟩
      · exact fun i hi => ⟨hi, id, fun he => nomatch he⟩
  | abortTask n =>
      by_cases hp : n ∈ s.polling
      · rw [done, if_pos hp]
        refine ⟨hst, h.tail ?_ (fun i hi => ⟨hi, fun ha => ?_, fun he => ?_⟩) rfl
          (Or.inr ⟨rfl, fun he => nomatch he⟩)⟩
        · exact fun i hi => ⟨hi, fun he => nomatch he⟩
        · exact List.mem_cons_of_mem _ ha
        · rw [WslStep.abortTask.inj he]
          exact List.mem_cons_self ..
      · rw [done, if_neg hp]
        refine ⟨hst, h.tail ?_ (fun i hi => ?_) rfl (Or.inr ⟨rfl, fun he => nomatch he⟩)⟩
        · exact fun i hi => ⟨hi, fun he => nomatch he⟩
        · obtain ⟨hi', hne⟩ := WslHost.mem_endTask.mp hi
          exact ⟨hi', fun ha => WslHost.endTask_aborted ha hne,
            fun he => absurd (WslStep.abortTask.inj he).symm hne⟩
  | _ => exact nomatch ho

/-! ## The runs in which `stop` is enough -/

/-- `wait` does not come to its end for a sandbox that is not stopped and
    whose distro is resolved; when `stop` comes to its end the tasks it has
    aborted are over; and the distro is terminated when `stop` asks for it. -/
def Careful (st : Calls Unit LifeCall WslStep WslHost) : Move Unit LifeCall WslEvent → Prop
  | .run _ ok =>
      match st.pending () with
      | some (.wait, .allExited :: _) =>
          st.now.self.state = .stopped ∨ st.now.self.resolvedDistro = false
      | some (.stop, .becomeStopped :: _) => ∀ i, i ∉ st.now.tasks
      | some (.stop, .terminateDistro :: _) => ok = true
      | _ => True
  | _ => True

variable {config : SandboxConfig σ} {listed : Bool}

/-- A call that begins finds the invariant of its first step. -/
theorem enter_inv {c : LifeCall} {s s' : WslHost} {os : List WslStep} (hi : Steady s)
    (h : enter config listed c s = .ok (s', os)) : Inv () (rest c os) s' := by
  -- what is not stopped is written down
  have htr : s.self.state ≠ .stopped → Tracked s := by
    intro hne
    rw [Steady] at hi
    cases hs : s.self.state with
    | created => rw [hs] at hi; exact Clean.tracked hi
    | starting => rw [hs] at hi; exact hi
    | running => rw [hs] at hi; exact hi
    | stopped => exact absurd hs hne
    | stopping => rw [hs] at hi; exact hi.elim
    | failed => rw [hs] at hi; exact hi.elim
  cases c with
  | start =>
      rw [enter] at h
      split at h
      · exact nomatch h
      · rename_i hst
        obtain ⟨rfl, rfl⟩ := Prod.mk.inj (Except.ok.inj h)
        have hst' : s.self.state = .created := Decidable.not_not.mp hst
        obtain ⟨os, hos, hb⟩ := startScript_builds config listed
        have hres := startScript_resolves config listed s.self.resolvedDistro
        have ht := htr (by rw [hst']; decide)
        rw [hos] at hres ⊢
        rw [rest_concat]
        exact ⟨rfl, ⟨ht.agents, ht.tasks⟩, hres, os, rfl, hb⟩
  | stop =>
      rw [enter] at h
      split at h
      · obtain ⟨rfl, rfl⟩ := Prod.mk.inj (Except.ok.inj h)
        exact hi
      · rename_i hst
        obtain ⟨rfl, rfl⟩ := Prod.mk.inj (Except.ok.inj h)
        obtain ⟨os, hos, hb⟩ := stopScript_tears s.self
        have hstop := (htr hst).stopping
        rw [hos] at hstop ⊢
        rw [rest_concat]
        exact ⟨rfl, hstop, os, rfl, hb⟩
  | wait =>
      obtain ⟨rfl, rfl⟩ := Prod.mk.inj (Except.ok.inj h)
      rw [waitScript, rest_concat]
      refine ⟨fun hst => ?_, ?_, _, rfl, ?_⟩
      · have hst' : s.self.state = .stopped := hst
        rw [Steady, hst'] at hi
        have hc : Clean s := hi
        exact ⟨hc.agents, hc.tasks, hc.distro⟩
      · by_cases hst : s.self.state = .stopped
        · rw [Steady, hst] at hi
          have hc : Clean s := hi
          exact ⟨fun i hi => (hc.agents i hi).elim, fun i hi => (hc.tasks i hi).elim⟩
        · exact ⟨fun i hi => ((htr hst).agents i hi).2, fun i hi => ((htr hst).tasks i hi).2⟩
      · intro o ho
        obtain ⟨i, -, rfl⟩ := List.mem_map.mp ho
        rfl

/-- Every careful run keeps the invariant. -/
theorem careful_keeps : Keeps (wslParty config listed) Careful Inv where
  enter hi _ he := enter_inv hi he
  done := by
    intro st k c o os hp hi hc hr
    rw [Careful, hp] at hc
    cases c with
    | start =>
        obtain ⟨hst, htr, hres, os', heq, hb⟩ := hi
        rcases concat_cases heq with ⟨rfl, rfl⟩ | ⟨os'', rfl, rfl⟩
        · exact ⟨htr.agents, htr.tasks⟩
        · obtain ⟨hst', htr', hres'⟩ :=
            build_tracked (hb o (List.mem_cons_self ..)) hst htr hres
          rw [rest_concat]
          exact ⟨hst', htr', hres', os'', rfl, fun x hx => hb x (List.mem_cons_of_mem _ hx)⟩
    | stop =>
        obtain ⟨hst, htr, os', heq, hb⟩ := hi
        rcases concat_cases heq with ⟨rfl, rfl⟩ | ⟨os'', rfl, rfl⟩
        · -- nothing is left to the steps after the last
          refine ⟨fun i hi => ?_, hc, fun hr => ?_⟩
          · exact nomatch List.mem_singleton.mp (htr.agents i hi)
          · rcases htr.distro hr with hm | ht
            · exact nomatch List.mem_singleton.mp hm
            · exact ht
        · obtain ⟨hst', htr'⟩ := tear_stopping (hb o (List.mem_cons_self ..)) hst htr
          rw [rest_concat]
          exact ⟨hst', htr', os'', rfl, fun x hx => hb x (List.mem_cons_of_mem _ hx)⟩
    | wait =>
        obtain ⟨hstop, hw, os', heq, hb⟩ := hi
        rcases concat_cases heq with ⟨rfl, rfl⟩ | ⟨os'', rfl, rfl⟩
        · have hclean : Clean st.now := by
            rcases hc with hst | hres
            · exact hstop hst
            · refine ⟨fun i hi => ?_, fun i hi => ?_, fun hr => ?_⟩
              · exact nomatch hres.symm.trans (hw.agents i hi)
              · exact nomatch hres.symm.trans (hw.tasks i hi)
              · exact nomatch hres.symm.trans hr
          exact ⟨hclean.agents, hclean.tasks, hclean.distro⟩
        · have hawait := hb o (List.mem_cons_self ..)
          rw [rest_concat]
          cases o with
          | awaitAgent i =>
              exact ⟨hstop, hw, os'', rfl, fun x hx => hb x (List.mem_cons_of_mem _ hx)⟩
          | _ => exact nomatch hawait
  broken := by
    intro st k c o os e s hi _ hf he
    rw [failed_same hf]
    cases c with
    | start =>
        obtain ⟨hst, htr, -⟩ := hi
        show Steady st.now
        rw [Steady, hst]
        exact htr
    | stop =>
        obtain ⟨-, -, os', heq, hb⟩ := hi
        rcases concat_cases heq with ⟨rfl, -⟩ | ⟨os'', rfl, -⟩
        · exact nomatch he
        · have ht := hb o (List.mem_cons_self ..)
          cases o with
          | killAgent i => exact nomatch he
          | takeTasks => exact nomatch he
          | abortTask i => exact nomatch he
          | terminateDistro => exact nomatch he
          | _ => exact nomatch ht
    | wait =>
        obtain ⟨-, -, os', heq, hb⟩ := hi
        rcases concat_cases heq with ⟨rfl, -⟩ | ⟨os'', rfl, -⟩
        · exact nomatch he
        · have ht := hb o (List.mem_cons_self ..)
          cases o with
          | awaitAgent i => exact nomatch he
          | _ => exact nomatch ht
  failed := by
    intro st k c o os s hp hi hc hf he
    rw [Careful, hp] at hc
    -- the only failure that is dropped is that of the distro's end
    have ho : o = .terminateDistro := by
      have hf' : failed o st.now = some s := hf
      have he' : stepError o = none := he
      unfold failed at hf'
      split at hf'
      · rfl
      · rw [he'] at hf'
        exact nomatch hf'
    subst ho
    cases c with
    | start =>
        obtain ⟨-, -, -, os', heq, hb⟩ := hi
        rcases concat_cases heq with ⟨h, -⟩ | ⟨os'', rfl, -⟩
        · exact nomatch h
        · exact nomatch hb _ (List.mem_cons_self ..)
    | stop => exact nomatch hc
    | wait =>
        obtain ⟨-, -, os', heq, hb⟩ := hi
        rcases concat_cases heq with ⟨h, -⟩ | ⟨os'', rfl, -⟩
        · exact nomatch h
        · exact nomatch hb _ (List.mem_cons_self ..)
  enterElse hj _ _ := absurd rfl hj
  doneElse hj _ _ := absurd rfl hj
  failedElse hj _ _ := absurd rfl hj
  env hi he := hi.apart (env_apart he)

/-! ## After `stop` -/

/-- After `stop` at most a `wait` is going on. -/
structure Quiet (p : Option (LifeCall × List WslStep)) (s : WslHost) : Prop where
  clean : Clean s
  state : s.self.state = .stopped
  pending : p = none
    ∨ ∃ os, p = some (.wait, os ++ [.allExited]) ∧ ∀ o ∈ os, awaits o = true

/-- A sandbox that nobody starts has nothing, all along the run. -/
theorem quiet_keeps : Keeps (wslParty config listed)
    (fun st l => Careful st l ∧ l ≠ .call () .start) fun j p s => j = () → Quiet p s where
  enter := by
    rintro st ⟨⟩ c s os hq ⟨-, hne⟩ he -
    have hq' := hq rfl
    cases c with
    -- the one call that is ruled out
    | start => exact absurd rfl hne
    | stop =>
        have he' : enter config listed .stop st.now = .ok (s, os) := he
        rw [enter, if_pos hq'.state] at he'
        obtain ⟨rfl, rfl⟩ := Prod.mk.inj (Except.ok.inj he')
        exact hq'
    | wait =>
        obtain ⟨rfl, rfl⟩ := Prod.mk.inj (Except.ok.inj he)
        rw [waitScript, rest_concat]
        obtain ⟨hag, htask, hdis⟩ := hq'.clean
        refine ⟨⟨hag, htask, hdis⟩, hq'.state, Or.inr ⟨_, rfl, fun o ho => ?_⟩⟩
        obtain ⟨i, -, rfl⟩ := List.mem_map.mp ho
        rfl
  done := by
    rintro st ⟨⟩ c o os - hq - - -
    obtain ⟨hclean, hst, hp⟩ := hq rfl
    rcases hp with h | ⟨os', h, hb⟩
    · exact nomatch h
    · obtain ⟨rfl, hos⟩ := Prod.mk.inj (Option.some.inj h)
      rcases concat_cases hos with ⟨rfl, rfl⟩ | ⟨os'', rfl, rfl⟩
      · exact ⟨⟨hclean.agents, hclean.tasks, hclean.distro⟩, rfl, Or.inl rfl⟩
      -- a `wait` has only agents to await
      · have ho := hb o (List.mem_cons_self ..)
        cases o with
        | awaitAgent i =>
            rw [rest_concat]
            exact ⟨hclean, hst,
              Or.inr ⟨os'', rfl, fun x hx => hb x (List.mem_cons_of_mem _ hx)⟩⟩
        | _ => exact nomatch ho
  broken := by
    rintro st ⟨⟩ c o os e s hq - hf he -
    rcases (hq rfl).pending with h | ⟨os', h, hb⟩
    · exact nomatch h
    · rcases concat_cases (Prod.mk.inj (Option.some.inj h)).2 with ⟨rfl, -⟩ | ⟨os'', rfl, -⟩
      · exact nomatch he
      · have ho := hb o (List.mem_cons_self ..)
        cases o with
        | awaitAgent i => exact nomatch he
        | _ => exact nomatch ho
  failed := by
    rintro st ⟨⟩ c o os s - hq - hf he -
    rcases (hq rfl).pending with h | ⟨os', h, hb⟩
    · exact nomatch h
    · rcases concat_cases (Prod.mk.inj (Option.some.inj h)).2 with ⟨rfl, -⟩ | ⟨os'', rfl, -⟩
      · exact nomatch hf
      · have ho := hb o (List.mem_cons_self ..)
        cases o with
        | awaitAgent i => exact nomatch hf
        | _ => exact nomatch ho
  enterElse hj _ _ := absurd rfl hj
  doneElse hj _ _ := absurd rfl hj
  failedElse hj _ _ := absurd rfl hj
  env hq he hk := ⟨(hq hk).clean.apart (env_apart he), (env_apart he).self ▸ (hq hk).state,
    (hq hk).pending⟩

/-- Requests are served by tasks that are alive. -/
theorem served_by_task {i : Nat} {v : WslEvent} {s s' : WslHost} {es : List WslSight}
    (hv : environment v s = some (s', es)) (he : .served i ∈ es) : i ∈ s.tasks := by
  cases v with
  | request n =>
      rw [environment] at hv
      split at hv
      · rename_i hp
        rw [← (Prod.mk.inj (Option.some.inj hv)).2] at he
        rw [WslSight.served.inj (List.mem_singleton.mp he)]
        exact hp.1
      · exact nomatch hv
  | agentExits n =>
      rw [← (Prod.mk.inj (Option.some.inj hv)).2] at he
      exact nomatch he
  | pollBegins n =>
      rw [environment] at hv
      split at hv
      · rw [← (Prod.mk.inj (Option.some.inj hv)).2] at he
        exact nomatch he
      · exact nomatch hv
  | pollEnds n =>
      rw [environment] at hv
      split at hv
      · rw [← (Prod.mk.inj (Option.some.inj hv)).2] at he
        exact nomatch he
      · rw [← (Prod.mk.inj (Option.some.inj hv)).2] at he
        exact nomatch he
  | taskEnds n =>
      rw [environment] at hv
      split at hv
      · rw [← (Prod.mk.inj (Option.some.inj hv)).2] at he
        exact nomatch he
      · exact nomatch hv

/-- **A STOPPED WSL SANDBOX IS CLEAN**, in every careful run. -/
theorem wsl_stopCleans (config : SandboxConfig σ) (listed : Bool) :
    StopCleans (wslParty config listed) Careful {} (fun _ => Clean)
      fun _ e => ∃ i, e = .served i := by
  refine stopCleans_of (Q := fun _ => Quiet) careful_keeps ?_ (fun k => quiet_keeps) ?_ ?_
    (fun h => h.clean) ?_
  · intro j
    exact ⟨fun i => List.not_mem_nil, fun i => List.not_mem_nil, fun h => nomatch h⟩
  · intro k s s' hi he
    have he' : enter config listed .stop s = .ok (s', []) := he
    rw [enter] at he'
    split at he'
    · rename_i hst
      obtain ⟨rfl, -⟩ := Prod.mk.inj (Except.ok.inj he')
      have hi' : Steady s := hi
      rw [Steady, hst] at hi'
      exact ⟨hi', hst, Or.inl rfl⟩
    · obtain ⟨os, hos, -⟩ := stopScript_tears s.self
      rw [hos] at he'
      have hnil := (Prod.mk.inj (Except.ok.inj he')).2
      exact absurd hnil (List.append_ne_nil_of_right_ne_nil _ (List.cons_ne_nil _ _))
  · intro st k ok o s hp hi hi' _ hdone
    rw [hp] at hi
    obtain ⟨-, -, os', heq, -⟩ := hi
    obtain ⟨rfl, -⟩ | ⟨os'', -, h⟩ := concat_cases heq
    · rcases hdone with ⟨-, rfl⟩ | ⟨-, hf⟩
      · exact ⟨hi', rfl, Or.inl rfl⟩
      · exact nomatch hf
    · exact absurd h.symm (List.append_ne_nil_of_right_ne_nil _ (List.cons_ne_nil _ _))
  · rintro k st l st' es e hq hs hm ⟨i, rfl⟩
    rcases shown_cases hs hm with ⟨j, c, o, os, -, -, -, he⟩ | ⟨v, s, vs, -, hv, he⟩
    · exact nomatch he
    · exact hq.clean.tasks i (served_by_task hv he)

/-! ## A `start` that fails -/

/-- While `start` is at work the state is `Starting`. -/
def StartsStarting (_ : Unit) : Option (LifeCall × List WslStep) → WslHost → Prop
  | some (.start, os), s => s.self.state = .starting
      ∧ ∃ os', os = os' ++ [.becomeRunning] ∧ ∀ o ∈ os', builds o = true
  | _, _ => True

/-- The steps of `start` leave the state to its last one. -/
theorem build_state {o : WslStep} {s : WslHost} (ho : builds o = true) :
    (done o s).self.state = s.self.state := by
  cases o with
  | createRuntimeDir => rfl
  | listDistros => rfl
  | createInstallDir => rfl
  | findTarball => rfl
  | importDistro => rfl
  | resolveDistro => rfl
  | createAgentLog tag => rfl
  | spawnAgent i => rfl
  | _ => exact nomatch ho

/-- A start that has not come to its end is `Starting`. -/
theorem starting_keeps : Keeps (wslParty config listed) always StartsStarting where
  enter := by
    intro st k c s os _ _ he
    cases c with
    | start =>
        have he' : enter config listed .start st.now = .ok (s, os) := he
        rw [enter] at he'
        split at he'
        · exact nomatch he'
        · obtain ⟨rfl, rfl⟩ := Prod.mk.inj (Except.ok.inj he')
          obtain ⟨os, hos, hb⟩ := startScript_builds config listed
          rw [hos, rest_concat]
          exact ⟨rfl, os, rfl, hb⟩
    | stop =>
        cases os with
        | nil => exact True.intro
        | cons o os => exact True.intro
    | wait =>
        cases os with
        | nil => exact True.intro
        | cons o os => exact True.intro
  done := by
    intro st k c o os _ hi _ _
    cases os with
    | nil => exact True.intro
    | cons o' os =>
        cases c with
        | start =>
            obtain ⟨hst, os', heq, hb⟩ := hi
            rcases concat_cases heq with ⟨-, h⟩ | ⟨os'', rfl, hos⟩
            · exact nomatch h
            · have ho := hb o (List.mem_cons_self ..)
              -- not the last step, so the state is still `Starting`
              exact ⟨(build_state ho).trans hst, os'', hos,
                fun x hx => hb x (List.mem_cons_of_mem _ hx)⟩
        | stop => exact True.intro
        | wait => exact True.intro
  broken _ _ _ _ := True.intro
  failed := by
    intro st k c o os s _ hi _ hf _
    rw [failed_same hf]
    cases os with
    | nil => exact True.intro
    | cons o' os =>
        cases c with
        | start =>
            obtain ⟨hst, os', heq, hb⟩ := hi
            rcases concat_cases heq with ⟨-, h⟩ | ⟨os'', rfl, hos⟩
            · exact nomatch h
            · exact ⟨hst, os'', hos, fun x hx => hb x (List.mem_cons_of_mem _ hx)⟩
        | stop => exact True.intro
        | wait => exact True.intro
  enterElse hj _ _ := absurd rfl hj
  doneElse hj _ _ := absurd rfl hj
  failedElse hj _ _ := absurd rfl hj
  env := by
    intro j v s s' es p hi he
    have hself := (env_apart he).self
    match p with
    | none => exact True.intro
    | some (.start, os) => exact ⟨hself ▸ hi.1, hi.2⟩
    | some (.stop, os) => exact True.intro
    | some (.wait, os) => exact True.intro

/-- **A FAILED WSL START IS STARTING FOR EVER.** -/
theorem wsl_failedStart (config : SandboxConfig σ) (listed : Bool) :
    FailedStartLeaves (wslParty config listed) {} fun _ s => s.self.state = .starting := by
  intro st tr hr l st' es hs k e hm hne
  have h0 : ∀ j, StartsStarting j none {} := fun _ => True.intro
  have hi := starting_keeps.run h0 hr k
  rcases returned_error hs hm with ⟨he, -⟩ | ⟨o, os, s, rfl, hp, -, hf, rfl⟩
  · have he' : enter config listed .start st.now = .error e := he
    rw [enter] at he'
    split at he'
    · exact absurd (Except.error.inj he').symm hne
    · exact nomatch he'
  · rw [hp] at hi
    show s.self.state = .starting
    rw [failed_same hf]
    exact hi.1

end TokimoWsl
