import TokimoKvm.QemuSandbox
import TokimoKvm.StopRuleProofs

/-! # What a stopped QEMU sandbox leaves behind

    Everything `start` puts on the host is written down in the sandbox, and
    `stop` goes through what is written down.  Two things break this: `wait`
    sets the state to `Stopped`, after which `stop` does nothing, and the
    per-connection tasks are written down nowhere.

    `qemu_stopCleans` carries this through any run of any number of sandboxes;
    `qemu_failedStart` is about a `start` that fails. -/

namespace TokimoQemu

open TokimoMachine TokimoTable TokimoMount TokimoSandbox TokimoScript

variable {ι δ σ : Type} [DecidableEq ι] [DecidableEq δ]

/-! ## Parts of the state -/

namespace Hosts

section

omit [DecidableEq δ]

/-- A sandbox whose fields are set has them. -/
@[simp]
theorem setSelf_self (s : Hosts ι δ) (k : ι) (self : QemuSandbox) :
    (s.setSelf k self).sandbox k = self := Function.update_self ..

/-- The others keep theirs. -/
theorem setSelf_else (s : Hosts ι δ) {j k : ι} (self : QemuSandbox) (h : j ≠ k) :
    (s.setSelf k self).sandbox j = s.sandbox j := Function.update_of_ne h ..

/-- Ending a task ends that one alone. -/
theorem mem_endAccept {s : Hosts ι δ} {k j : ι} {n i : Nat} :
    (j, i) ∈ (s.endAccept k n).accepting ↔ (j, i) ∈ s.accepting ∧ (j, i) ≠ (k, n) := by
  show (j, i) ∈ s.accepting.filter _ ↔ _
  rw [List.mem_filter, decide_eq_true_iff]

/-- Ending a process ends that of the one sandbox. -/
theorem mem_endQemu {s : Hosts ι δ} {k j : ι} :
    j ∈ (s.endQemu k).qemus ↔ j ∈ s.qemus ∧ j ≠ k := by
  show j ∈ s.qemus.filter _ ↔ _
  rw [List.mem_filter, decide_eq_true_iff]

end

omit [DecidableEq ι] in
/-- A file that is still there after one was removed was there before, and is
    another. -/
theorem get_remove {s : Hosts ι δ} {dir : δ} {f : RtFile} {x : δ × String} {v : Server ι}
    (h : (s.remove dir f).files.get x = some v) :
    s.files.get x = some v ∧ (dir, f.fileName) ≠ x := by
  have h' : (s.files.erase (dir, f.fileName)).get x = some v := h
  rw [Table.get_erase] at h'
  by_cases hx : (dir, f.fileName) = x
  · rw [if_pos hx] at h'
    exact nomatch h'
  · rw [if_neg hx] at h'
    exact ⟨h', hx⟩

end Hosts

omit [DecidableEq ι] in
/-- A socket file of `k`, where it belongs. -/
theorem get_insert_rpc {files : Table (δ × String) (Server ι)} {x y : δ × String} {v : Server ι}
    {j : ι} {i : Nat} (h : (files.insert x v).get y = some (.rpc j i)) :
    files.get y = some (.rpc j i) ∨ (x = y ∧ v = .rpc j i) := by
  rw [Table.get_insert] at h
  by_cases hx : x = y
  · rw [if_pos hx] at h
    exact Or.inr ⟨hx, Option.some.inj h⟩
  · rw [if_neg hx] at h
    exact Or.inl h

/-! ## What is left of a sandbox -/

/-- Nothing of the sandbox is on the host. -/
structure Clean (k : ι) (s : Hosts ι δ) : Prop where
  accepting : ∀ i, (k, i) ∉ s.accepting
  serving : ∀ i, (k, i) ∉ s.serving
  qemus : k ∉ s.qemus
  files : ∀ x i, s.files.get x ≠ some (.rpc k i)

section

variable (u : Setup ι δ σ)

/-- What the sandbox has on the host is written down in it. -/
structure Tracked (k : ι) (s : Hosts ι δ) : Prop where
  accepting : ∀ i, (k, i) ∈ s.accepting → ∃ v ∈ (s.sandbox k).vfsServers, v.index = i
  serving : ∀ i, (k, i) ∈ s.serving → (s.sandbox k).vfsServers ≠ []
  qemus : k ∈ s.qemus → (s.sandbox k).qemuChild = true
  files : ∀ x i, s.files.get x = some (.rpc k i) →
    x = (u.dir k, (RtFile.rpcSock i).fileName) ∧ ∃ v ∈ (s.sandbox k).vfsServers, v.index = i

/-- The rest of `stop` gets to whatever the sandbox has on the host. -/
structure Stopping (k : ι) (os : List QemuStep) (s : Hosts ι δ) : Prop where
  accepting : ∀ i, (k, i) ∈ s.accepting → ∃ v, .abortServer v ∈ os ∧ v.index = i
  qemus : k ∈ s.qemus → .reapQemu ∈ os
  files : ∀ x i, s.files.get x = some (.rpc k i) →
    x = (u.dir k, (RtFile.rpcSock i).fileName) ∧ ∃ v, .removeServer v ∈ os ∧ v.index = i

/-- Between two calls. -/
def Steady (k : ι) (s : Hosts ι δ) : Prop :=
  match (s.sandbox k).state with
  | .created => Clean k s
  | .stopped => Clean k s
  | .starting => Tracked u k s
  | .running => Tracked u k s
  | _ => False

end

/-- Nothing was added to what `j` has, but for connections to its servers. -/
structure Apart (j : ι) (s s' : Hosts ι δ) : Prop where
  self : s'.sandbox j = s.sandbox j
  accepting : ∀ i, (j, i) ∈ s'.accepting → (j, i) ∈ s.accepting
  serving : ∀ i, (j, i) ∈ s'.serving → (j, i) ∈ s.serving ∨ (j, i) ∈ s.accepting
  qemus : j ∈ s'.qemus → j ∈ s.qemus
  files : ∀ x i, s'.files.get x = some (.rpc j i) → s.files.get x = some (.rpc j i)

variable {u : Setup ι δ σ}

section

omit [DecidableEq ι]

/-- Where nothing happens, nothing is added. -/
theorem Apart.refl (j : ι) (s : Hosts ι δ) : Apart j s s :=
  ⟨rfl, fun _ h => h, fun _ h => Or.inl h, id, fun _ _ h => h⟩

/-- Removing a file adds nothing. -/
theorem apart_remove (j : ι) (s : Hosts ι δ) (dir : δ) (f : RtFile) :
    Apart j s (s.remove dir f) :=
  ⟨rfl, fun _ h => h, fun _ h => Or.inl h, id, fun _ _ h => (Hosts.get_remove h).1⟩

/-- What is clean stays so while only others act. -/
theorem Clean.apart {j : ι} {s s' : Hosts ι δ} (h : Clean j s) (ha : Apart j s s') :
    Clean j s' where
  accepting i hi := h.accepting i (ha.accepting i hi)
  serving i hi := (ha.serving i hi).elim (h.serving i) (h.accepting i)
  qemus hq := h.qemus (ha.qemus hq)
  files x i hx := h.files x i (ha.files x i hx)

/-- What is written down stays written down. -/
theorem Tracked.apart {j : ι} {s s' : Hosts ι δ} (h : Tracked u j s) (ha : Apart j s s') :
    Tracked u j s' where
  accepting i hi := by
    rw [ha.self]
    exact h.accepting i (ha.accepting i hi)
  serving i hi := by
    rw [ha.self]
    rcases ha.serving i hi with hs | hs
    · exact h.serving i hs
    · obtain ⟨v, hv, -⟩ := h.accepting i hs
      exact List.ne_nil_of_mem hv
  qemus hq := by
    rw [ha.self]
    exact h.qemus (ha.qemus hq)
  files x i hx := by
    rw [ha.self]
    exact h.files x i (ha.files x i hx)

/-- What a stop still has to do is enough after the others' steps too. -/
theorem Stopping.apart {j : ι} {os : List QemuStep} {s s' : Hosts ι δ} (h : Stopping u j os s)
    (ha : Apart j s s') : Stopping u j os s' where
  accepting i hi := h.accepting i (ha.accepting i hi)
  qemus hq := h.qemus (ha.qemus hq)
  files x i hx := h.files x i (ha.files x i hx)

/-- A sandbox between two calls stays as it is. -/
theorem Steady.apart {j : ι} {s s' : Hosts ι δ} (h : Steady u j s) (ha : Apart j s s') :
    Steady u j s' := by
  unfold Steady at h ⊢
  rw [ha.self]
  cases hst : (s.sandbox j).state with
  | created => rw [hst] at h; exact Clean.apart h ha
  | stopped => rw [hst] at h; exact Clean.apart h ha
  | starting => rw [hst] at h; exact Tracked.apart h ha
  | running => rw [hst] at h; exact Tracked.apart h ha
  | stopping => rw [hst] at h; exact h.elim
  | failed => rw [hst] at h; exact h.elim

end

/-! ## What the others do -/

/-- Setting another's fields adds nothing to this one. -/
theorem apart_setSelf {j k : ι} (h : j ≠ k) (s : Hosts ι δ) (self : QemuSandbox) :
    Apart j s (s.setSelf k self) :=
  ⟨s.setSelf_else self h, fun _ h => h, fun _ h => Or.inl h, id, fun _ _ h => h⟩

/-- Nor does the end of a task. -/
theorem apart_endAccept (j k : ι) (n : Nat) (s : Hosts ι δ) : Apart j s (s.endAccept k n) :=
  ⟨rfl, fun _ h => (Hosts.mem_endAccept.mp h).1, fun _ h => Or.inl h, id, fun _ _ h => h⟩

/-- Nor does the end of a process. -/
theorem apart_endQemu (j k : ι) (s : Hosts ι δ) : Apart j s (s.endQemu k) :=
  ⟨rfl, fun _ h => h, fun _ h => Or.inl h, fun h => (Hosts.mem_endQemu.mp h).1, fun _ _ h => h⟩

/-- A call on another sandbox adds nothing to this one. -/
theorem enter_apart {j k : ι} {c : LifeCall} {s s' : Hosts ι δ} {os : List QemuStep}
    (hj : j ≠ k) (h : enter u k c s = .ok (s', os)) : Apart j s s' := by
  cases c with
  | start =>
      rw [enter] at h
      split at h
      · exact nomatch h
      · rw [← (Prod.mk.inj (Except.ok.inj h)).1]
        exact apart_setSelf hj s _
  | stop =>
      rw [enter] at h
      split at h
      · rw [← (Prod.mk.inj (Except.ok.inj h)).1]
        exact Apart.refl j s
      · rw [← (Prod.mk.inj (Except.ok.inj h)).1]
        exact apart_setSelf hj s _
  | wait =>
      rw [← (Prod.mk.inj (Except.ok.inj h)).1]
      exact Apart.refl j s

/-- Nor does a step of another's call. -/
theorem done_apart {j k : ι} (hj : j ≠ k) (o : QemuStep) (s : Hosts ι δ) :
    Apart j s (done u k o s) := by
  cases o with
  | createRoot => exact Apart.refl j s
  | createLog => exact Apart.refl j s
  | removeStale f => exact apart_remove j s _ f
  | keepRuntime => exact apart_setSelf hj s _
  | findImage => exact Apart.refl j s
  | removeSocket i => exact apart_remove j s _ _
  | serve v =>
      refine ⟨s.setSelf_else _ hj, fun i h => ?_, fun _ h => Or.inl h, id, fun x i h => ?_⟩
      · rcases List.mem_cons.mp h with heq | hmem
        · exact absurd (congrArg Prod.fst heq) hj
        · exact hmem
      · rcases get_insert_rpc h with hg | ⟨-, heq⟩
        · exact hg
        · exact absurd (Server.rpc.inj heq).1.symm hj
  | spawnQemu =>
      refine ⟨s.setSelf_else _ hj, fun _ h => h, fun _ h => Or.inl h, fun h => ?_, fun _ _ h => h⟩
      rcases List.mem_cons.mp h with heq | hmem
      · exact absurd heq hj
      · exact hmem
  | connectQmp => exact apart_setSelf hj s _
  | becomeRunning => exact apart_setSelf hj s _
  | quitQmp => exact apart_setSelf hj s _
  | reapQemu =>
      exact ⟨s.setSelf_else _ hj, fun _ h => h, fun _ h => Or.inl h,
        fun h => (Hosts.mem_endQemu.mp h).1, fun _ _ h => h⟩
  | takeServers => exact apart_setSelf hj s _
  | abortServer v => exact apart_endAccept j k _ s
  | removeServer v => exact apart_remove j s _ _
  | becomeStopped => exact apart_setSelf hj s _
  | awaitQemu => exact apart_setSelf hj s _

omit [DecidableEq ι] [DecidableEq δ] in
/-- A step that fails has done nothing. -/
theorem failed_same {o : QemuStep} {s s' : Hosts ι δ} (h : failed o s = some s') : s' = s := by
  unfold failed at h
  split at h
  · exact (Option.some.inj h).symm
  · exact (Option.some.inj h).symm
  · exact (Option.some.inj h).symm
  · obtain ⟨e, -, he⟩ := Option.map_eq_some_iff.mp h
    exact he.symm

/-- The environment adds connections to servers that accept, and nothing
    else. -/
theorem env_apart {j : ι} {e : QemuEvent ι} {s s' : Hosts ι δ} {es : List (Sight ι)}
    (h : environment u e s = some (s', es)) : Apart j s s' := by
  cases e with
  | qemuOpens k f =>
      rw [environment] at h
      split at h
      · split at h
        · rw [← (Prod.mk.inj (Option.some.inj h)).1]
          exact ⟨rfl, fun _ h => h, fun _ h => Or.inl h, id, fun _ _ h => h⟩
        · rw [← (Prod.mk.inj (Option.some.inj h)).1]
          refine ⟨rfl, fun _ h => h, fun _ h => Or.inl h, id, fun x i hx => ?_⟩
          rcases get_insert_rpc hx with hg | ⟨-, heq⟩
          · exact hg
          · exact nomatch heq
      · exact nomatch h
  | qemuConnects k i =>
      rw [environment] at h
      split at h
      · split at h
        · split at h
          · rename_i k' i' _ hacc
            rw [← (Prod.mk.inj (Option.some.inj h)).1]
            refine ⟨rfl, fun _ h => h, fun n hn => ?_, id, fun _ _ h => h⟩
            -- a connection is new, but its server was accepting
            rcases List.mem_cons.mp hn with heq | hmem
            · rw [heq]
              exact Or.inr hacc
            · exact Or.inl hmem
          · exact nomatch h
        · exact nomatch h
      · exact nomatch h
  | qemuExits k =>
      rw [← (Prod.mk.inj (Option.some.inj h)).1]
      exact apart_endQemu j k s
  | acceptEnds k i =>
      rw [← (Prod.mk.inj (Option.some.inj h)).1]
      exact apart_endAccept j k i s
  | connEnds k i =>
      rw [← (Prod.mk.inj (Option.some.inj h)).1]
      exact ⟨rfl, fun _ h => h, fun _ h => Or.inl (List.mem_of_mem_erase h), id, fun _ _ h => h⟩
  | request k i =>
      rw [environment] at h
      split at h
      · rw [← (Prod.mk.inj (Option.some.inj h)).1]
        exact Apart.refl j s
      · exact nomatch h

/-! ## What the sandbox itself does -/

/-- The steps of `start` before its last. -/
def builds : QemuStep → Bool
  | .createRoot | .createLog | .removeStale _ | .keepRuntime | .findImage | .removeSocket _
  | .serve _ | .spawnQemu | .connectQmp => true
  | _ => false

/-- The steps of `stop` before its last. -/
def tears : QemuStep → Bool
  | .quitQmp | .reapQemu | .takeServers | .abortServer _ | .removeServer _ => true
  | _ => false

/-- The steps of `stop` return no error. -/
theorem stepError_of_tears {o : QemuStep} (h : tears o = true) : stepError o = none := by
  cases o with
  | quitQmp => rfl
  | reapQemu => rfl
  | takeServers => rfl
  | abortServer v => rfl
  | removeServer v => rfl
  | _ => exact nomatch h

omit [DecidableEq ι] [DecidableEq δ] in
/-- Of the steps of `stop` only the removal of a socket file can fail. -/
theorem failed_of_tears {o : QemuStep} {s s' : Hosts ι δ} (h : tears o = true)
    (hf : failed o s = some s') : ∃ v, o = .removeServer v := by
  cases o with
  | quitQmp => exact nomatch hf
  | reapQemu => exact nomatch hf
  | takeServers => exact nomatch hf
  | abortServer v => exact nomatch hf
  | removeServer v => exact ⟨v, rfl⟩
  | _ => exact nomatch h

/-- A call in progress is at its script, and the sandbox is as the part of
    it that is done has left it. -/
def Inv (u : Setup ι δ σ) (k : ι) : Option (LifeCall × List QemuStep) → Hosts ι δ → Prop
  | none, s => Steady u k s
  | some (.start, os), s => (s.sandbox k).state = .starting ∧ Tracked u k s
      ∧ ∃ os', os = os' ++ [.becomeRunning] ∧ ∀ o ∈ os', builds o = true
  | some (.stop, os), s => (s.sandbox k).state = .stopping ∧ Stopping u k os s
      ∧ ∃ os', os = os' ++ [.becomeStopped] ∧ ∀ o ∈ os', tears o = true
  | some (.wait, os), s => os = [.awaitQemu] ∧ Steady u k s

omit [DecidableEq ι] in
/-- The invariant of a sandbox outlives the others' steps. -/
theorem Inv.apart {j : ι} {p : Option (LifeCall × List QemuStep)} {s s' : Hosts ι δ}
    (h : Inv u j p s) (ha : Apart j s s') : Inv u j p s' := by
  match p with
  | none => exact Steady.apart h ha
  | some (.start, os) => exact ⟨ha.self ▸ h.1, h.2.1.apart ha, h.2.2⟩
  | some (.stop, os) => exact ⟨ha.self ▸ h.1, h.2.1.apart ha, h.2.2⟩
  | some (.wait, os) => exact ⟨h.1, Steady.apart h.2 ha⟩

/-- The steps for the mounts are steps of `start`. -/
theorem mountSteps_build {ms : List (MountSpec σ)} {i : Nat} :
    ∀ o ∈ mountSteps ms i, builds o = true := by
  induction ms generalizing i with
  | nil => intro o ho; exact nomatch ho
  | cons m ms ih =>
      intro o ho
      rcases List.mem_cons.mp ho with rfl | ho
      · rfl
      · rcases List.mem_cons.mp ho with rfl | ho
        · rfl
        · exact ih o ho

/-- The scripts are what they should be. -/
theorem startScript_builds (config : SandboxConfig σ) (self : QemuSandbox) :
    ∃ os, startScript config self = os ++ [.becomeRunning] ∧ ∀ o ∈ os, builds o = true := by
  refine ⟨(if self.runtime then [] else runtimeSteps)
    ++ (if config.image.isNone then [.findImage] else [])
    ++ mountSteps config.mounts 0 ++ [.spawnQemu, .connectQmp], ?_, ?_⟩
  · simp only [startScript, List.append_assoc, List.cons_append, List.nil_append]
  · intro o ho
    simp only [List.mem_append] at ho
    rcases ho with ((ho | ho) | ho) | ho
    · split at ho
      · exact nomatch ho
      · revert o
        decide
    · split at ho
      · rw [List.mem_singleton.mp ho]
        rfl
      · exact nomatch ho
    · exact mountSteps_build o ho
    · revert o
      decide

/-- The steps for the servers are two for each. -/
theorem mem_serverSteps {vs : List VfsServer} {o : QemuStep} :
    o ∈ vs.flatMap serverSteps ↔ ∃ v ∈ vs, o = .abortServer v ∨ o = .removeServer v := by
  simp only [List.mem_flatMap, serverSteps, List.mem_cons, List.not_mem_nil, or_false]

/-- `stop` tears down, and last it becomes stopped. -/
theorem stopScript_tears (self : QemuSandbox) :
    ∃ os, stopScript self = os ++ [.becomeStopped] ∧ ∀ o ∈ os, tears o = true := by
  refine ⟨_, rfl, ?_⟩
  intro o ho
  simp only [List.mem_append, List.mem_cons] at ho
  rcases ho with (ho | ho) | rfl | ho
  · split at ho
    · rw [List.mem_singleton.mp ho]
      rfl
    · exact nomatch ho
  · split at ho
    · rw [List.mem_singleton.mp ho]
      rfl
    · exact nomatch ho
  · rfl
  · obtain ⟨v, -, rfl | rfl⟩ := mem_serverSteps.mp ho
    · rfl
    · rfl

/-- `stop` gets to everything that is written down. -/
theorem Tracked.stopping {k : ι} {s : Hosts ι δ} (h : Tracked u k s) (self : QemuSandbox) :
    Stopping u k (stopScript (s.sandbox k)) (s.setSelf k self) where
  accepting i hi := by
    obtain ⟨v, hv, hvi⟩ := h.accepting i hi
    have hm := mem_serverSteps.mpr ⟨v, hv, Or.inl rfl⟩
    exact ⟨v, by simp [stopScript, hm], hvi⟩
  qemus hq := by
    have hc := h.qemus hq
    simp [stopScript, hc]
  files x i hx := by
    obtain ⟨hd, v, hv, hvi⟩ := h.files x i hx
    have hm := mem_serverSteps.mpr ⟨v, hv, Or.inr rfl⟩
    exact ⟨hd, v, by simp [stopScript, hm], hvi⟩

omit [DecidableEq ι] in
/-- Of a sandbox that has nothing everything is written down. -/
theorem Clean.tracked {k : ι} {s : Hosts ι δ} (h : Clean k s) : Tracked u k s where
  accepting i hi := (h.accepting i hi).elim
  serving i hi := (h.serving i hi).elim
  qemus hq := (h.qemus hq).elim
  files x i hx := (h.files x i hx).elim

/-- A step of `start` writes down what it puts on the host. -/
theorem build_tracked {k : ι} {o : QemuStep} {s : Hosts ι δ} (ho : builds o = true)
    (hst : (s.sandbox k).state = .starting) (h : Tracked u k s) :
    ((done u k o s).sandbox k).state = .starting ∧ Tracked u k (done u k o s) := by
  -- changing other fields of the sandbox
  have hself : ∀ self : QemuSandbox, self.vfsServers = (s.sandbox k).vfsServers →
      self.qemuChild = (s.sandbox k).qemuChild → self.state = .starting →
      ((s.setSelf k self).sandbox k).state = .starting ∧ Tracked u k (s.setSelf k self) := by
    intro self hv hq hstate
    refine ⟨by rw [Hosts.setSelf_self, hstate], ?_, ?_, ?_, ?_⟩
    · intro i hi
      rw [Hosts.setSelf_self, hv]
      exact h.accepting i hi
    · intro i hi
      rw [Hosts.setSelf_self, hv]
      exact h.serving i hi
    · intro hk
      rw [Hosts.setSelf_self, hq]
      exact h.qemus hk
    · intro x i hx
      rw [Hosts.setSelf_self, hv]
      exact h.files x i hx
  cases o with
  | createRoot => exact ⟨hst, h⟩
  | createLog => exact ⟨hst, h⟩
  | findImage => exact ⟨hst, h⟩
  | removeStale f => exact ⟨hst, h.apart (apart_remove k s _ f)⟩
  | removeSocket i => exact ⟨hst, h.apart (apart_remove k s _ _)⟩
  | keepRuntime => exact hself _ rfl rfl hst
  | connectQmp => exact hself _ rfl rfl hst
  | serve v =>
      have hsb : ((done u k (.serve v) s).sandbox k).vfsServers
          = (s.sandbox k).vfsServers ++ [v] :=
        congrArg QemuSandbox.vfsServers (s.setSelf_self k _)
      have hlast : ∃ w ∈ (s.sandbox k).vfsServers ++ [v], w.index = v.index :=
        ⟨v, List.mem_append_right _ (List.mem_singleton.mpr rfl), rfl⟩
      refine ⟨(congrArg QemuSandbox.state (s.setSelf_self k _)).trans hst, ?_, ?_, ?_, ?_⟩
      · intro i hi
        rw [hsb]
        rcases List.mem_cons.mp hi with heq | hmem
        · rw [(Prod.mk.inj heq).2]
          exact hlast
        · obtain ⟨w, hw, hwi⟩ := h.accepting i hmem
          exact ⟨w, List.mem_append_left _ hw, hwi⟩
      · intro i hi
        rw [hsb]
        exact List.append_ne_nil_of_right_ne_nil _ (List.cons_ne_nil _ _)
      · intro hk
        exact (congrArg QemuSandbox.qemuChild (s.setSelf_self k _)).trans (h.qemus hk)
      · intro x i hx
        rw [hsb]
        rcases get_insert_rpc hx with hg | ⟨rfl, heq⟩
        · obtain ⟨hd, w, hw, hwi⟩ := h.files x i hg
          exact ⟨hd, w, List.mem_append_left _ hw, hwi⟩
        · rw [← (Server.rpc.inj heq).2]
          exact ⟨rfl, hlast⟩
  | spawnQemu =>
      have hsb : (done u k .spawnQemu s).sandbox k = { s.sandbox k with qemuChild := true } :=
        s.setSelf_self k _
      refine ⟨by rw [hsb]; exact hst, ?_, ?_, ?_, ?_⟩
      · intro i hi
        rw [hsb]
        exact h.accepting i hi
      · intro i hi
        rw [hsb]
        exact h.serving i hi
      · intro _
        rw [hsb]
      · intro x i hx
        rw [hsb]
        exact h.files x i hx
  | _ => exact nomatch ho

omit [DecidableEq ι] in
/-- What is still to be ended is left to the steps after a first one that
    has ended its own part. -/
theorem Stopping.tail {k : ι} {o : QemuStep} {os : List QemuStep} {s s' : Hosts ι δ}
    (h : Stopping u k (o :: os) s)
    (hacc : ∀ i, (k, i) ∈ s'.accepting →
      (k, i) ∈ s.accepting ∧ ∀ v, o = .abortServer v → v.index ≠ i)
    (hq : k ∈ s'.qemus → k ∈ s.qemus ∧ o ≠ .reapQemu)
    (hfiles : ∀ x i, s'.files.get x = some (.rpc k i) →
      s.files.get x = some (.rpc k i) ∧ ∀ v, o = .removeServer v → v.index ≠ i) :
    Stopping u k os s' where
  accepting i hi := by
    obtain ⟨hi', hne⟩ := hacc i hi
    obtain ⟨v, hv, hvi⟩ := h.accepting i hi'
    rcases List.mem_cons.mp hv with heq | hv
    · exact absurd hvi (hne v heq.symm)
    · exact ⟨v, hv, hvi⟩
  qemus hk := by
    obtain ⟨hk', hne⟩ := hq hk
    rcases List.mem_cons.mp (h.qemus hk') with heq | hm
    · exact absurd heq.symm hne
    · exact hm
  files x i hx := by
    obtain ⟨hx', hne⟩ := hfiles x i hx
    obtain ⟨hd, v, hv, hvi⟩ := h.files x i hx'
    rcases List.mem_cons.mp hv with heq | hv
    · exact absurd hvi (hne v heq.symm)
    · exact ⟨hd, v, hv, hvi⟩

/-- A step of `stop` ends what the steps after it do not get to. -/
theorem tear_stopping {k : ι} {o : QemuStep} {os : List QemuStep} {s : Hosts ι δ}
    (ho : tears o = true) (hst : (s.sandbox k).state = .stopping)
    (h : Stopping u k (o :: os) s) :
    ((done u k o s).sandbox k).state = .stopping ∧ Stopping u k os (done u k o s) := by
  cases o with
  | quitQmp =>
      refine ⟨(congrArg QemuSandbox.state (s.setSelf_self k _)).trans hst, h.tail ?_ ?_ ?_⟩
      · exact fun i hi => ⟨hi, fun v he => nomatch he⟩
      · exact fun hk => ⟨hk, fun he => nomatch he⟩
      · exact fun x i hx => ⟨hx, fun v he => nomatch he⟩
  | takeServers =>
      refine ⟨(congrArg QemuSandbox.state (s.setSelf_self k _)).trans hst, h.tail ?_ ?_ ?_⟩
      · exact fun i hi => ⟨hi, fun v he => nomatch he⟩
      · exact fun hk => ⟨hk, fun he => nomatch he⟩
      · exact fun x i hx => ⟨hx, fun v he => nomatch he⟩
  | reapQemu =>
      refine ⟨(congrArg QemuSandbox.state (s.setSelf_self k _)).trans hst, h.tail ?_ ?_ ?_⟩
      · exact fun i hi => ⟨hi, fun v he => nomatch he⟩
      · exact fun hk => absurd rfl (Hosts.mem_endQemu.mp hk).2
      · exact fun x i hx => ⟨hx, fun v he => nomatch he⟩
  | abortServer w =>
      refine ⟨hst, h.tail (fun i hi => ?_) ?_ ?_⟩
      · obtain ⟨hi', hne⟩ := Hosts.mem_endAccept.mp hi
        refine ⟨hi', fun v he hvi => hne ?_⟩
        rw [QemuStep.abortServer.inj he, hvi]
      · exact fun hk => ⟨hk, fun he => nomatch he⟩
      · exact fun x i hx => ⟨hx, fun v he => nomatch he⟩
  | removeServer w =>
      refine ⟨hst, h.tail ?_ ?_ (fun x i hx => ?_)⟩
      · exact fun i hi => ⟨hi, fun v he => nomatch he⟩
      · exact fun hk => ⟨hk, fun he => nomatch he⟩
      · obtain ⟨hx', hne⟩ := Hosts.get_remove hx
        refine ⟨hx', fun v he hvi => hne ?_⟩
        rw [(h.files x i hx').1, QemuStep.removeServer.inj he, hvi]
  | _ => exact nomatch ho

/-! ## The runs in which `stop` is enough -/

/-- `wait` does not come to its end for a sandbox that has RPC servers; when
    `stop` comes to its end the sandbox's connections are over; and `stop`
    does not fail to remove a socket file that is there. -/
def Careful (u : Setup ι δ σ) (st : Calls ι LifeCall QemuStep (Hosts ι δ)) :
    Move ι LifeCall (QemuEvent ι) → Prop
  | .run k ok =>
      match st.pending k with
      | some (.wait, _) => (st.now.sandbox k).vfsServers = []
      | some (.stop, .becomeStopped :: _) => ∀ i, (k, i) ∉ st.now.serving
      | some (.stop, .removeServer v :: _) => ok = false →
          st.now.files.get (u.dir k, (RtFile.rpcSock v.index).fileName) ≠ some (.rpc k v.index)
      | _ => True
  | _ => True

/-- A call that begins finds the invariant of its first step. -/
theorem enter_inv {k : ι} {c : LifeCall} {s s' : Hosts ι δ} {os : List QemuStep}
    (hi : Steady u k s) (h : enter u k c s = .ok (s', os)) : Inv u k (rest c os) s' := by
  cases c with
  | start =>
      rw [enter] at h
      split at h
      · exact nomatch h
      · rename_i hst
        obtain ⟨rfl, rfl⟩ := Prod.mk.inj (Except.ok.inj h)
        have hst' : (s.sandbox k).state = .created := Decidable.not_not.mp hst
        obtain ⟨os, hos, hb⟩ := startScript_builds (u.config k) (s.sandbox k)
        rw [Steady, hst'] at hi
        have hclean : Clean k s := hi
        rw [hos, rest_concat]
        refine ⟨congrArg QemuSandbox.state (s.setSelf_self k _), ?_, os, rfl, hb⟩
        exact Clean.tracked ⟨hclean.accepting, hclean.serving, hclean.qemus, hclean.files⟩
  | stop =>
      rw [enter] at h
      split at h
      · obtain ⟨rfl, rfl⟩ := Prod.mk.inj (Except.ok.inj h)
        exact hi
      · rename_i hst
        obtain ⟨rfl, rfl⟩ := Prod.mk.inj (Except.ok.inj h)
        obtain ⟨os, hos, hb⟩ := stopScript_tears (s.sandbox k)
        -- neither created nor stopped, so everything is written down
        have htr : Tracked u k s := by
          rw [Steady] at hi
          cases hs : (s.sandbox k).state with
          | starting => rw [hs] at hi; exact hi
          | running => rw [hs] at hi; exact hi
          | created => rw [hs] at hst; exact absurd (by decide) hst
          | stopped => rw [hs] at hst; exact absurd (by decide) hst
          | stopping => rw [hs] at hi; exact hi.elim
          | failed => rw [hs] at hi; exact hi.elim
        have hstop := htr.stopping { s.sandbox k with state := .stopping }
        rw [hos] at hstop ⊢
        rw [rest_concat]
        exact ⟨congrArg QemuSandbox.state (s.setSelf_self k _), hstop, os, rfl, hb⟩
  | wait =>
      obtain ⟨rfl, rfl⟩ := Prod.mk.inj (Except.ok.inj h)
      by_cases hq : (s.sandbox k).qemuChild = true
      · rw [if_pos hq]
        exact ⟨rfl, hi⟩
      · rw [if_neg hq]
        exact hi

/-- Every careful run keeps the invariant of each sandbox. -/
theorem careful_keeps : Keeps (qemuParty u) (Careful u) (Inv u) where
  enter hi _ he := enter_inv hi he
  done := by
    intro st k c o os hp hi hc hr
    rw [Careful, hp] at hc
    cases c with
    | start =>
        obtain ⟨hst, htr, os', heq, hb⟩ := hi
        rcases concat_cases heq with ⟨rfl, rfl⟩ | ⟨os'', rfl, rfl⟩
        · have hsb : ((done u k .becomeRunning st.now).sandbox k).state = .running :=
            congrArg QemuSandbox.state (st.now.setSelf_self k _)
          show Steady u k (done u k .becomeRunning st.now)
          rw [Steady, hsb]
          have hself := st.now.setSelf_self k { st.now.sandbox k with state := .running }
          refine ⟨?_, ?_, ?_, ?_⟩
          · intro i hi
            rw [show done u k .becomeRunning st.now = st.now.setSelf k _ from rfl, hself]
            exact htr.accepting i hi
          · intro i hi
            rw [show done u k .becomeRunning st.now = st.now.setSelf k _ from rfl, hself]
            exact htr.serving i hi
          · intro hk
            rw [show done u k .becomeRunning st.now = st.now.setSelf k _ from rfl, hself]
            exact htr.qemus hk
          · intro x i hx
            rw [show done u k .becomeRunning st.now = st.now.setSelf k _ from rfl, hself]
            exact htr.files x i hx
        · obtain ⟨hst', htr'⟩ := build_tracked (hb o (List.mem_cons_self ..)) hst htr
          rw [rest_concat]
          exact ⟨hst', htr', os'', rfl, fun x hx => hb x (List.mem_cons_of_mem _ hx)⟩
    | stop =>
        obtain ⟨hst, htr, os', heq, hb⟩ := hi
        rcases concat_cases heq with ⟨rfl, rfl⟩ | ⟨os'', rfl, rfl⟩
        · have hsb : ((done u k .becomeStopped st.now).sandbox k).state = .stopped :=
            congrArg QemuSandbox.state (st.now.setSelf_self k _)
          show Steady u k (done u k .becomeStopped st.now)
          rw [Steady, hsb]
          -- nothing is left to the steps after the last
          refine ⟨fun i hi => ?_, hc, fun hk => ?_, fun x i hx => ?_⟩
          · obtain ⟨v, hv, -⟩ := htr.accepting i hi
            exact nomatch List.mem_singleton.mp hv
          · exact nomatch List.mem_singleton.mp (htr.qemus hk)
          · obtain ⟨-, v, hv, -⟩ := htr.files x i hx
            exact nomatch List.mem_singleton.mp hv
        · obtain ⟨hst', htr'⟩ := tear_stopping (hb o (List.mem_cons_self ..)) hst htr
          rw [rest_concat]
          exact ⟨hst', htr', os'', rfl, fun x hx => hb x (List.mem_cons_of_mem _ hx)⟩
    | wait =>
        obtain ⟨heq, hsteady⟩ := hi
        obtain ⟨rfl, rfl⟩ := List.cons.inj heq
        have hsb : ((done u k .awaitQemu st.now).sandbox k).state = .stopped :=
          congrArg QemuSandbox.state (st.now.setSelf_self k _)
        have hgone : k ∉ st.now.qemus := of_decide_eq_true hr
        have hnone : (st.now.sandbox k).vfsServers = [] := hc
        have hclean : Clean k st.now := by
          have htr : Clean k st.now ∨ Tracked u k st.now := by
            rw [Steady] at hsteady
            cases hs : (st.now.sandbox k).state with
            | created => rw [hs] at hsteady; exact Or.inl hsteady
            | stopped => rw [hs] at hsteady; exact Or.inl hsteady
            | starting => rw [hs] at hsteady; exact Or.inr hsteady
            | running => rw [hs] at hsteady; exact Or.inr hsteady
            | stopping => rw [hs] at hsteady; exact hsteady.elim
            | failed => rw [hs] at hsteady; exact hsteady.elim
          rcases htr with h | h
          · exact h
          · refine ⟨fun i hi => ?_, fun i hi => h.serving i hi hnone, hgone, fun x i hx => ?_⟩
            · obtain ⟨v, hv, -⟩ := h.accepting i hi
              rw [hnone] at hv
              exact nomatch hv
            · obtain ⟨-, v, hv, -⟩ := h.files x i hx
              rw [hnone] at hv
              exact nomatch hv
        show Steady u k (done u k .awaitQemu st.now)
        rw [Steady, hsb]
        exact ⟨hclean.accepting, hclean.serving, hclean.qemus, hclean.files⟩
  broken := by
    intro st k c o os e s hi _ hf he
    rw [failed_same hf]
    cases c with
    | start =>
        obtain ⟨hst, htr, -⟩ := hi
        show Steady u k st.now
        rw [Steady, hst]
        exact htr
    | stop =>
        obtain ⟨-, -, os', heq, hb⟩ := hi
        rcases concat_cases heq with ⟨rfl, -⟩ | ⟨os'', rfl, -⟩
        · exact nomatch he
        · have hnone := stepError_of_tears (hb o (List.mem_cons_self ..))
          exact nomatch hnone.symm.trans he
    | wait =>
        obtain ⟨heq, -⟩ := hi
        rw [(List.cons.inj heq).1] at he
        exact nomatch he
  failed := by
    intro st k c o os s hp hi hc hf he
    rw [failed_same hf]
    rw [Careful, hp] at hc
    cases c with
    | start =>
        obtain ⟨hst, htr, os', heq, hb⟩ := hi
        rcases concat_cases heq with ⟨rfl, -⟩ | ⟨os'', rfl, rfl⟩
        · exact nomatch hf
        · rw [rest_concat]
          exact ⟨hst, htr, os'', rfl, fun x hx => hb x (List.mem_cons_of_mem _ hx)⟩
    | stop =>
        obtain ⟨hst, htr, os', heq, hb⟩ := hi
        rcases concat_cases heq with ⟨rfl, -⟩ | ⟨os'', rfl, rfl⟩
        · exact nomatch hf
        · obtain ⟨w, rfl⟩ := failed_of_tears (hb o (List.mem_cons_self ..)) hf
          rw [rest_concat]
          refine ⟨hst, htr.tail ?_ ?_ ?_, os'', rfl, fun x hx => hb x (List.mem_cons_of_mem _ hx)⟩
          · exact fun i hi => ⟨hi, fun v he => nomatch he⟩
          · exact fun hk => ⟨hk, fun he => nomatch he⟩
          · refine fun x i hx => ⟨hx, fun v he hvi => hc rfl ?_⟩
            rw [QemuStep.removeServer.inj he, hvi, ← (htr.files x i hx).1]
            exact hx
    | wait =>
        obtain ⟨heq, -⟩ := hi
        rw [(List.cons.inj heq).1] at hf
        exact nomatch hf
  enterElse hj hi he := hi.apart (enter_apart hj he)
  doneElse hj hi _ := hi.apart (done_apart hj _ _)
  failedElse _ hi hf := by
    rw [failed_same hf]
    exact hi
  env hi he := hi.apart (env_apart he)

/-! ## After `stop` -/

/-- After `stop`, until `start` is called: at most a `wait` is going on. -/
structure Quiet (k : ι) (p : Option (LifeCall × List QemuStep)) (s : Hosts ι δ) : Prop where
  clean : Clean k s
  state : (s.sandbox k).state = .created ∨ (s.sandbox k).state = .stopped
  pending : p = none ∨ p = some (.wait, [.awaitQemu])

omit [DecidableEq ι] in
/-- A sandbox that is not started stays quiet while others act. -/
theorem Quiet.apart {k : ι} {p : Option (LifeCall × List QemuStep)} {s s' : Hosts ι δ}
    (h : Quiet k p s) (ha : Apart k s s') : Quiet k p s' :=
  ⟨h.clean.apart ha, ha.self ▸ h.state, h.pending⟩

/-- The fields of a sandbox are nothing on the host. -/
theorem Clean.setSelf {k : ι} {s : Hosts ι δ} (h : Clean k s) (self : QemuSandbox) :
    Clean k (s.setSelf k self) := ⟨h.accepting, h.serving, h.qemus, h.files⟩

/-- A sandbox that nobody starts has nothing, all along the run. -/
theorem quiet_keeps (k : ι) :
    Keeps (qemuParty u) (fun st l => Careful u st l ∧ l ≠ .call k .start)
      fun j p s => j = k → Quiet k p s where
  enter := by
    rintro st j c s os hq ⟨-, hne⟩ he rfl
    have hq' := hq rfl
    cases c with
    -- the one call that is ruled out
    | start => exact absurd rfl hne
    | stop =>
        have hst : (st.now.sandbox j).state ≠ .running ∧ (st.now.sandbox j).state ≠ .starting := by
          rcases hq'.state with h | h
          · rw [h]
            exact ⟨by decide, by decide⟩
          · rw [h]
            exact ⟨by decide, by decide⟩
        have he' : enter u j .stop st.now = .ok (s, os) := he
        rw [enter, if_pos hst] at he'
        obtain ⟨rfl, rfl⟩ := Prod.mk.inj (Except.ok.inj he')
        exact hq'
    | wait =>
        obtain ⟨rfl, rfl⟩ := Prod.mk.inj (Except.ok.inj he)
        refine ⟨hq'.clean, hq'.state, ?_⟩
        by_cases hc : (st.now.sandbox j).qemuChild = true
        · rw [if_pos hc]
          exact Or.inr rfl
        · rw [if_neg hc]
          exact Or.inl rfl
  done := by
    rintro st j c o os - hq - - rfl
    obtain ⟨hclean, -, hp⟩ := hq rfl
    rcases hp with h | h
    · exact nomatch h
    · obtain ⟨rfl, hos⟩ := Prod.mk.inj (Option.some.inj h)
      obtain ⟨rfl, rfl⟩ := List.cons.inj hos
      refine ⟨hclean.setSelf _, Or.inr ?_, Or.inl rfl⟩
      exact congrArg QemuSandbox.state (st.now.setSelf_self j _)
  broken := by
    rintro st j c o os e s hq - hf he rfl
    rcases (hq rfl).pending with h | h
    · exact nomatch h
    · rw [(List.cons.inj (Prod.mk.inj (Option.some.inj h)).2).1] at he
      exact nomatch he
  failed := by
    rintro st j c o os s - hq - hf he rfl
    rcases (hq rfl).pending with h | h
    · exact nomatch h
    · rw [(List.cons.inj (Prod.mk.inj (Option.some.inj h)).2).1] at hf
      exact nomatch hf
  enterElse hj hq he hk := (hq hk).apart (enter_apart (hk ▸ hj) he)
  doneElse hj hq _ hk := (hq hk).apart (done_apart (hk ▸ hj) _ _)
  failedElse _ hq hf hk := by
    rw [failed_same hf]
    exact hq hk
  env hq he hk := (hq hk).apart (env_apart he)

/-- No step of a sandbox's own serves a request. -/
theorem served_not_shown {j k : ι} {i : Nat} {o : QemuStep} {s : Hosts ι δ} :
    .served k i ∉ shows u j o s := by
  intro h
  cases o with
  | connectQmp =>
      obtain ⟨k', -, he⟩ := List.mem_map.mp h
      exact nomatch he
  | createLog => exact nomatch List.mem_singleton.mp h
  | removeStale f => exact nomatch List.mem_singleton.mp h
  | removeSocket n => exact nomatch List.mem_singleton.mp h
  | serve v => exact nomatch List.mem_singleton.mp h
  | removeServer v => exact nomatch List.mem_singleton.mp h
  | _ => exact nomatch h

/-- Requests are served over connections. -/
theorem served_over_connection {k : ι} {i : Nat} {v : QemuEvent ι} {s s' : Hosts ι δ}
    {es : List (Sight ι)} (hv : environment u v s = some (s', es)) (he : .served k i ∈ es) :
    (k, i) ∈ s.serving := by
  cases v with
  | request k' i' =>
      rw [environment] at hv
      split at hv
      · rename_i hserving
        rw [← (Prod.mk.inj (Option.some.inj hv)).2] at he
        obtain ⟨rfl, rfl⟩ := Sight.served.inj (List.mem_singleton.mp he)
        exact hserving
      · exact nomatch hv
  | qemuOpens k' f =>
      rw [environment] at hv
      split at hv
      · split at hv
        · rw [← (Prod.mk.inj (Option.some.inj hv)).2] at he
          exact nomatch he
        · rw [← (Prod.mk.inj (Option.some.inj hv)).2] at he
          exact nomatch List.mem_singleton.mp he
      · exact nomatch hv
  | qemuConnects k' n =>
      rw [environment] at hv
      split at hv
      · split at hv
        · split at hv
          · rw [← (Prod.mk.inj (Option.some.inj hv)).2] at he
            exact nomatch List.mem_singleton.mp he
          · exact nomatch hv
        · exact nomatch hv
      · exact nomatch hv
  | qemuExits k' =>
      rw [← (Prod.mk.inj (Option.some.inj hv)).2] at he
      exact nomatch he
  | acceptEnds k' n =>
      rw [← (Prod.mk.inj (Option.some.inj hv)).2] at he
      exact nomatch he
  | connEnds k' n =>
      rw [← (Prod.mk.inj (Option.some.inj hv)).2] at he
      exact nomatch he

/-- **A STOPPED QEMU SANDBOX IS CLEAN**, in every careful run. -/
theorem qemu_stopCleans (u : Setup ι δ σ) :
    StopCleans (qemuParty u) (Careful u) .fresh Clean fun k e => ∃ i, e = .served k i := by
  refine stopCleans_of (Q := Quiet) careful_keeps ?_ quiet_keeps ?_ ?_ (fun h => h.clean) ?_
  · intro j
    exact ⟨fun i => List.not_mem_nil, fun i => List.not_mem_nil, List.not_mem_nil,
      fun x i h => nomatch h⟩
  · intro k s s' hi he
    have he' : enter u k .stop s = .ok (s', []) := he
    rw [enter] at he'
    split at he'
    · rename_i hst
      obtain ⟨rfl, -⟩ := Prod.mk.inj (Except.ok.inj he')
      have hi' : Steady u k s := hi
      rw [Steady] at hi'
      cases hs : (s.sandbox k).state with
      | created => rw [hs] at hi'; exact ⟨hi', Or.inl hs, Or.inl rfl⟩
      | stopped => rw [hs] at hi'; exact ⟨hi', Or.inr hs, Or.inl rfl⟩
      | starting => exact absurd hs hst.2
      | running => exact absurd hs hst.1
      | stopping => rw [hs] at hi'; exact hi'.elim
      | failed => rw [hs] at hi'; exact hi'.elim
    · obtain ⟨os, hos, -⟩ := stopScript_tears (s.sandbox k)
      rw [hos] at he'
      have hnil := (Prod.mk.inj (Except.ok.inj he')).2
      exact absurd hnil (List.append_ne_nil_of_right_ne_nil _ (List.cons_ne_nil _ _))
  · intro st k ok o s hp hi hi' _ hdone
    rw [hp] at hi
    obtain ⟨-, -, os', heq, -⟩ := hi
    obtain ⟨rfl, -⟩ | ⟨os'', -, h⟩ := concat_cases heq
    · rcases hdone with ⟨-, rfl⟩ | ⟨-, hf⟩
      · -- the last step has set the state
        have hsb : ((done u k .becomeStopped st.now).sandbox k).state = .stopped :=
          congrArg QemuSandbox.state (st.now.setSelf_self k _)
        have hsteady : Steady u k (done u k .becomeStopped st.now) := hi'
        rw [Steady, hsb] at hsteady
        exact ⟨hsteady, Or.inr hsb, Or.inl rfl⟩
      · exact nomatch hf
    · exact absurd h.symm (List.append_ne_nil_of_right_ne_nil _ (List.cons_ne_nil _ _))
  · rintro k st l st' es e hq hs hm ⟨i, rfl⟩
    rcases shown_cases hs hm with ⟨j, c, o, os, -, -, -, he⟩ | ⟨v, s, vs, -, hv, he⟩
    · exact served_not_shown he
    · exact hq.clean.serving i (served_over_connection hv he)

/-! ## A `start` that fails -/

/-- While `start` is at work the state is `Starting`. -/
def StartsStarting (k : ι) : Option (LifeCall × List QemuStep) → Hosts ι δ → Prop
  | some (.start, os), s => (s.sandbox k).state = .starting
      ∧ ∃ os', os = os' ++ [.becomeRunning] ∧ ∀ o ∈ os', builds o = true
  | _, _ => True

omit [DecidableEq ι] [DecidableEq δ] in
/-- What a start relies on is the sandbox's own state. -/
theorem StartsStarting.same {j : ι} {p : Option (LifeCall × List QemuStep)} {s s' : Hosts ι δ}
    (h : StartsStarting j p s) (ha : s'.sandbox j = s.sandbox j) : StartsStarting j p s' := by
  match p with
  | none => exact True.intro
  | some (.start, os) => exact ⟨ha ▸ h.1, h.2⟩
  | some (.stop, os) => exact True.intro
  | some (.wait, os) => exact True.intro

/-- The steps of `start` leave the state to its last one. -/
theorem build_state {k : ι} {o : QemuStep} {s : Hosts ι δ} (ho : builds o = true) :
    ((done u k o s).sandbox k).state = (s.sandbox k).state := by
  cases o with
  | createRoot => rfl
  | createLog => rfl
  | removeStale f => rfl
  | findImage => rfl
  | removeSocket i => rfl
  | keepRuntime =>
      have h := congrArg QemuSandbox.state
        (s.setSelf_self k { s.sandbox k with runtime := true })
      exact h
  | serve v =>
      have h := congrArg QemuSandbox.state
        (s.setSelf_self k { s.sandbox k with vfsServers := (s.sandbox k).vfsServers ++ [v] })
      exact h
  | spawnQemu =>
      have h := congrArg QemuSandbox.state
        (s.setSelf_self k { s.sandbox k with qemuChild := true })
      exact h
  | connectQmp =>
      have h := congrArg QemuSandbox.state
        (s.setSelf_self k { s.sandbox k with qmp := true })
      exact h
  | _ => exact nomatch ho

/-- A start that has not come to its end is `Starting`. -/
theorem starting_keeps :
    Keeps (qemuParty u) always (StartsStarting (ι := ι) (δ := δ)) where
  enter := by
    intro st k c s os _ _ he
    cases c with
    | start =>
        have he' : enter u k .start st.now = .ok (s, os) := he
        rw [enter] at he'
        split at he'
        · exact nomatch he'
        · obtain ⟨rfl, rfl⟩ := Prod.mk.inj (Except.ok.inj he')
          obtain ⟨os, hos, hb⟩ := startScript_builds (u.config k) (st.now.sandbox k)
          rw [hos, rest_concat]
          exact ⟨congrArg QemuSandbox.state (st.now.setSelf_self k _), os, rfl, hb⟩
    | stop =>
        cases os with
        | nil => exact True.intro
        | cons o os => exact True.intro
    | wait =>
        cases os with
        | nil => exact True.intro
        | cons o os => exact True.intro
  done := by
    intro st k c o os _ hi _ _
    cases os with
    | nil => exact True.intro
    | cons o' os =>
        cases c with
        | start =>
            obtain ⟨hst, os', heq, hb⟩ := hi
            rcases concat_cases heq with ⟨-, h⟩ | ⟨os'', rfl, hos⟩
            · exact nomatch h
            · have ho := hb o (List.mem_cons_self ..)
              -- not the last step, so the state is still `Starting`
              exact ⟨(build_state ho).trans hst, os'', hos,
                fun x hx => hb x (List.mem_cons_of_mem _ hx)⟩
        | stop => exact True.intro
        | wait => exact True.intro
  broken _ _ _ _ := True.intro
  failed := by
    intro st k c o os s _ hi _ hf _
    rw [failed_same hf]
    cases os with
    | nil => exact True.intro
    | cons o' os =>
        cases c with
        | start =>
            obtain ⟨hst, os', heq, hb⟩ := hi
            rcases concat_cases heq with ⟨-, h⟩ | ⟨os'', rfl, hos⟩
            · exact nomatch h
            · exact ⟨hst, os'', hos, fun x hx => hb x (List.mem_cons_of_mem _ hx)⟩
        | stop => exact True.intro
        | wait => exact True.intro
  enterElse hj hi he := hi.same (enter_apart hj he).self
  doneElse hj hi _ := hi.same (done_apart hj _ _).self
  failedElse _ hi hf := by
    rw [failed_same hf]
    exact hi
  env hi he := hi.same (env_apart he).self

/-- **A FAILED QEMU START IS STARTING FOR EVER.** -/
theorem qemu_failedStart (u : Setup ι δ σ) :
    FailedStartLeaves (qemuParty u) .fresh fun k s => (s.sandbox k).state = .starting := by
  intro st tr hr l st' es hs k e hm hne
  have h0 : ∀ j, StartsStarting j none (Hosts.fresh : Hosts ι δ) := fun _ => True.intro
  have hi := starting_keeps.run h0 hr k
  rcases returned_error hs hm with ⟨he, -⟩ | ⟨o, os, s, rfl, hp, -, hf, rfl⟩
  · have he' : enter u k .start st.now = .error e := he
    rw [enter] at he'
    split at he'
    · exact absurd (Except.error.inj he').symm hne
    · exact nomatch he'
  · rw [hp] at hi
    show (s.sandbox k).state = .starting
    rw [failed_same hf]
    exact hi.1

end TokimoQemu
