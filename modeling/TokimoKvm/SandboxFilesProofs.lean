import TokimoKvm.QemuCleanupProofs

/-! # Two sandboxes and each other's files

    A sandbox knows its files by its runtime directory and removes whatever it
    finds at their names before it binds them.  As long as the directories
    differ, each file on the host is where the sandbox it belongs to looks for
    it, and nobody else looks there: this is the invariant `Placed`.  Where
    two directories are one, a second `start` takes the sockets of the first
    away, and the run that does so is built here. -/

namespace TokimoQemu

open TokimoMachine TokimoTable TokimoPath TokimoMount TokimoSandbox TokimoScript

variable {ι δ σ : Type} [DecidableEq ι] [DecidableEq δ]

/-- The sandbox has the file in use: its accept loop listens on it, or its
    QEMU has opened it. -/
def Uses (k : ι) (f : RtFile) (s : Hosts ι δ) : Prop :=
  match f with
  | .rpcSock i => (k, i) ∈ s.accepting
  | f => (k, f) ∈ s.opened

/-- What a step may show in a state: no file another sandbox has in use is
    removed, truncated or bound, a QEMU connects to the servers of its own
    sandbox, and a QMP client to its own QEMU. -/
structure Unmeddled (u : Setup ι δ σ) (s : Hosts ι δ)
    (es : List (Seen ι LifeCall SandboxError (Sight ι))) : Prop where
  files : ∀ k f, .shown (.touched k f) ∈ es → ∀ k', k' ≠ k → ∀ f', Uses k' f' s →
    (u.dir k', f'.fileName) ≠ (u.dir k, f.fileName)
  servers : ∀ k i k' i', .shown (.connected k i k' i') ∈ es → k' = k
  qmp : ∀ k k', .shown (.controls k k') ∈ es → k' = k

/-- No step of any run meddles. -/
def NoMeddling (u : Setup ι δ σ) : Prop :=
  ∀ {st : Calls ι LifeCall QemuStep (Hosts ι δ)}
    {tr : List (Seen ι LifeCall SandboxError (Sight ι))},
    Run (qemuParty u).machine always (.idle .fresh) st tr → ∀ {l st' es},
      (qemuParty u).machine.step st l = some (st', es) → Unmeddled u st.now es

/-! ## Directories that differ -/

/-- Where a server's file belongs. -/
def place (u : Setup ι δ σ) : Server ι → δ × String
  | .rpc k i => (u.dir k, (RtFile.rpcSock i).fileName)
  | .qemu k f => (u.dir k, f.fileName)

/-- Every file is where it belongs. -/
def Placed (u : Setup ι δ σ) (s : Hosts ι δ) : Prop :=
  ∀ x v, s.files.get x = some v → x = place u v

variable {u : Setup ι δ σ}

section

omit [DecidableEq ι]

/-- A file that is gone is nowhere else. -/
theorem Placed.remove {s : Hosts ι δ} (h : Placed u s) (dir : δ) (f : RtFile) :
    Placed u (s.remove dir f) := fun x v hx => h x v (Hosts.get_remove hx).1

/-- A server that binds is where its sandbox puts it. -/
theorem Placed.insert {files : Table (δ × String) (Server ι)}
    (h : ∀ x v, files.get x = some v → x = place u v) (v : Server ι) (x : δ × String)
    (w : Server ι) (hx : (files.insert (place u v) v).get x = some w) : x = place u w := by
  rw [Table.get_insert] at hx
  by_cases hp : place u v = x
  · rw [if_pos hp] at hx
    rw [← Option.some.inj hx]
    exact hp.symm
  · rw [if_neg hp] at hx
    exact h x w hx

end

/-- A call that begins binds nothing. -/
theorem enter_placed {k : ι} {c : LifeCall} {s s' : Hosts ι δ} {os : List QemuStep}
    (h : Placed u s) (he : enter u k c s = .ok (s', os)) : Placed u s' := by
  cases c with
  | start =>
      rw [enter] at he
      split at he
      · cases he
      · rw [← (Prod.mk.inj (Except.ok.inj he)).1]
        exact h
  | stop =>
      rw [enter] at he
      split at he
      · rw [← (Prod.mk.inj (Except.ok.inj he)).1]
        exact h
      · rw [← (Prod.mk.inj (Except.ok.inj he)).1]
        exact h
  | wait =>
      rw [← (Prod.mk.inj (Except.ok.inj he)).1]
      exact h

/-- A sandbox puts files into its own directory only. -/
theorem done_placed {k : ι} {s : Hosts ι δ} (h : Placed u s) (o : QemuStep) :
    Placed u (done u k o s) := by
  cases o with
  | removeStale f => exact h.remove _ _
  | removeSocket i => exact h.remove _ _
  | removeServer v => exact h.remove _ _
  | serve v => exact Placed.insert h (.rpc k v.index)
  | createRoot => exact h
  | createLog => exact h
  | keepRuntime => exact h
  | findImage => exact h
  | spawnQemu => exact h
  | connectQmp => exact h
  | becomeRunning => exact h
  | quitQmp => exact h
  | reapQemu => exact h
  | takeServers => exact h
  | abortServer v => exact h
  | becomeStopped => exact h
  | awaitQemu => exact h

/-- What other programs bind is in its place too. -/
theorem env_placed {e : QemuEvent ι} {s s' : Hosts ι δ} {es : List (Sight ι)} (h : Placed u s)
    (he : environment u e s = some (s', es)) : Placed u s' := by
  cases e with
  | qemuOpens k f =>
      rw [environment] at he
      split at he
      · split at he
        · rw [← (Prod.mk.inj (Option.some.inj he)).1]
          exact h
        · rw [← (Prod.mk.inj (Option.some.inj he)).1]
          exact Placed.insert h (.qemu k f)
      · cases he
  | qemuConnects k i =>
      rw [environment] at he
      split at he
      · split at he
        · split at he
          · rw [← (Prod.mk.inj (Option.some.inj he)).1]
            exact h
          · cases he
        · cases he
      · cases he
  | qemuExits k =>
      rw [← (Prod.mk.inj (Option.some.inj he)).1]
      exact h
  | acceptEnds k i =>
      rw [← (Prod.mk.inj (Option.some.inj he)).1]
      exact h
  | connEnds k i =>
      rw [← (Prod.mk.inj (Option.some.inj he)).1]
      exact h
  | request k i =>
      rw [environment] at he
      split at he
      · rw [← (Prod.mk.inj (Option.some.inj he)).1]
        exact h
      · cases he

/-- Every step leaves the files in their places. -/
theorem placed_keeps : Keeps (qemuParty u) always fun _ _ s => Placed u s where
  enter h _ he := enter_placed h he
  done _ h _ _ := done_placed h _
  broken h _ hf _ := by
    rw [failed_same hf]
    exact h
  failed _ h _ hf _ := by
    rw [failed_same hf]
    exact h
  enterElse _ h he := enter_placed h he
  doneElse _ h _ := done_placed h _
  failedElse _ h hf := by
    rw [failed_same hf]
    exact h
  env h he := env_placed h he

/-- So they are in every run. -/
theorem placed_of_run {st : Calls ι LifeCall QemuStep (Hosts ι δ)}
    {tr : List (Seen ι LifeCall SandboxError (Sight ι))}
    (hr : Run (qemuParty u).machine always (.idle .fresh) st tr) (k : ι) : Placed u st.now := by
  have h0 : ∀ j : ι, Placed u ((Calls.idle .fresh : Calls ι LifeCall QemuStep (Hosts ι δ)).now) :=
    fun _ _ _ h => nomatch h
  exact placed_keeps.run h0 hr k

/-- Who answers at a file of `k` when every file is in its place. -/
theorem owner_eq (hdir : ∀ k k' : ι, k ≠ k' → u.dir k ≠ u.dir k') {s : Hosts ι δ}
    (h : Placed u s) {k k' : ι} {name : String} {v : Server ι}
    (hx : s.files.get (u.dir k, name) = some v) (hv : (place u v).1 = u.dir k') : k' = k := by
  have hd : u.dir k = u.dir k' := (congrArg Prod.fst (h _ _ hx)).trans hv
  by_contra hne
  exact hdir k k' (fun hk => hne hk.symm) hd

/-- With directories apart, the monitor at a path is the sandbox's own. -/
theorem controls_own (hdir : ∀ k k' : ι, k ≠ k' → u.dir k ≠ u.dir k') {s : Hosts ι δ}
    (h : Placed u s) {k k' : ι} (hq : qmpServer u k s = some k') : k' = k := by
  unfold qmpServer at hq
  split at hq
  · rename_i j f hx
    split at hq
    · rw [← Option.some.inj hq]
      exact owner_eq hdir h hx rfl
    · exact nomatch hq
  · exact nomatch hq

/-! ### What can be shown -/

/-- What a step shows is a file touched or a monitor reached. -/
theorem shows_cases {k : ι} {o : QemuStep} {s : Hosts ι δ} {e : Sight ι} (h : e ∈ shows u k o s) :
    (∃ f, e = .touched k f) ∨ ∃ k', e = .controls k k' ∧ qmpServer u k s = some k' := by
  cases o with
  | connectQmp =>
      obtain ⟨k', hk', rfl⟩ := List.mem_map.mp h
      exact Or.inr ⟨k', rfl, Option.mem_toList.mp hk'⟩
  | createLog => exact Or.inl ⟨_, List.mem_singleton.mp h⟩
  | removeStale f => exact Or.inl ⟨_, List.mem_singleton.mp h⟩
  | removeSocket i => exact Or.inl ⟨_, List.mem_singleton.mp h⟩
  | serve v => exact Or.inl ⟨_, List.mem_singleton.mp h⟩
  | removeServer v => exact Or.inl ⟨_, List.mem_singleton.mp h⟩
  | _ => exact nomatch h

/-- The environment shows a socket that QEMU binds, a port it connects, or a
    request. -/
theorem env_shows_cases {v : QemuEvent ι} {s s' : Hosts ι δ} {es : List (Sight ι)} {e : Sight ι}
    (hv : environment u v s = some (s', es)) (h : e ∈ es) :
    (∃ k f, e = .touched k f)
      ∨ (∃ k i k' i', e = .connected k i k' i'
        ∧ s.files.get (u.dir k, (RtFile.rpcSock i).fileName) = some (.rpc k' i'))
      ∨ ∃ k i, e = .served k i := by
  cases v with
  | qemuOpens k f =>
      rw [environment] at hv
      split at hv
      · split at hv
        · rw [← (Prod.mk.inj (Option.some.inj hv)).2] at h
          cases h
        · rw [← (Prod.mk.inj (Option.some.inj hv)).2] at h
          exact Or.inl ⟨k, f, List.mem_singleton.mp h⟩
      · cases hv
  | qemuConnects k i =>
      rw [environment] at hv
      split at hv
      · split at hv
        · rename_i k' i' hx
          split at hv
          · rw [← (Prod.mk.inj (Option.some.inj hv)).2] at h
            exact Or.inr (Or.inl ⟨k, i, k', i', List.mem_singleton.mp h, hx⟩)
          · cases hv
        · cases hv
      · cases hv
  | request k i =>
      rw [environment] at hv
      split at hv
      · rw [← (Prod.mk.inj (Option.some.inj hv)).2] at h
        exact Or.inr (Or.inr ⟨k, i, List.mem_singleton.mp h⟩)
      · cases hv
  | qemuExits k =>
      rw [← (Prod.mk.inj (Option.some.inj hv)).2] at h
      cases h
  | acceptEnds k i =>
      rw [← (Prod.mk.inj (Option.some.inj hv)).2] at h
      cases h
  | connEnds k i =>
      rw [← (Prod.mk.inj (Option.some.inj hv)).2] at h
      cases h

/-- **NO MEDDLING BETWEEN DIRECTORIES**: sandboxes whose runtime directories
    differ keep to their own files, servers and QEMUs. -/
theorem noMeddling_of_dirs (hdir : ∀ k k' : ι, k ≠ k' → u.dir k ≠ u.dir k') : NoMeddling u := by
  intro st tr hr l st' es hs
  constructor
  · rintro k f - k' hk f' - heq
    exact hdir k' k hk (congrArg Prod.fst heq)
  · intro k i k' i' hm
    rcases shown_cases hs hm with ⟨j, c, o, os, -, -, -, he⟩ | ⟨v, s, vs, -, hv, he⟩
    · rcases shows_cases he with ⟨f, h⟩ | ⟨j', h, -⟩
      · exact nomatch h
      · exact nomatch h
    · rcases env_shows_cases hv he with ⟨j, f, h⟩ | ⟨j, n, j', n', h, hx⟩ | ⟨j, n, h⟩
      · exact nomatch h
      · obtain ⟨rfl, rfl, rfl, rfl⟩ := Sight.connected.inj h
        exact owner_eq hdir (placed_of_run hr k) hx rfl
      · exact nomatch h
  · intro k k' hm
    rcases shown_cases hs hm with ⟨j, c, o, os, -, -, -, he⟩ | ⟨v, s, vs, -, hv, he⟩
    · rcases shows_cases he with ⟨f, h⟩ | ⟨j', h, hq⟩
      · exact nomatch h
      · obtain ⟨rfl, rfl⟩ := Sight.controls.inj h
        exact controls_own hdir (placed_of_run hr k) hq
    · rcases env_shows_cases hv he with ⟨j, f, h⟩ | ⟨j, n, j', n', h, -⟩ | ⟨j, n, h⟩
      · exact nomatch h
      · exact nomatch h
      · exact nomatch h

/-! ## Directories that are one

    The first sandbox is started up to the point where its QEMU runs and has
    bound the QMP socket; then the second one is, and removes it. -/

/-- Steps that are always possible. -/
def plain : QemuStep → Bool
  | .serve _ | .connectQmp | .awaitQemu => false
  | _ => true

/-- A plain step is always ready. -/
theorem ready_of_plain {k : ι} {o : QemuStep} (ho : plain o = true) (s : Hosts ι δ) :
    ready u k o s = true := by
  cases o with
  | serve v => exact nomatch ho
  | connectQmp => exact nomatch ho
  | awaitQemu => exact nomatch ho
  | _ => rfl

/-- So are plain steps in a row. -/
theorem readyAlong_of_plain {k : ι} {os : List QemuStep} (hos : ∀ o ∈ os, plain o = true)
    (s : Hosts ι δ) : ReadyAlong (qemuParty u) k os s := by
  induction os generalizing s with
  | nil => exact True.intro
  | cons o os ih =>
      exact ⟨ready_of_plain (hos o (List.mem_cons_self ..)) s,
        ih (fun o ho => hos o (List.mem_cons_of_mem _ ho)) _⟩

/-- Each socket of a mount is bound right after its name was freed. -/
theorem readyAlong_mounts {k : ι} (ms : List (MountSpec σ)) (i : Nat) (s : Hosts ι δ) :
    ReadyAlong (qemuParty u) k (mountSteps ms i) s := by
  induction ms generalizing i s with
  | nil => exact True.intro
  | cons m ms ih =>
      refine ⟨rfl, decide_eq_true ?_, ih (i + 1) _⟩
      show (s.files.erase (u.dir k, (RtFile.rpcSock i).fileName)).get _ = none
      rw [Table.get_erase]
      exact if_pos rfl

/-- What `start` does until its QEMU runs. -/
def launchSteps (config : SandboxConfig σ) (self : QemuSandbox) : List QemuStep :=
  (if self.runtime then [] else runtimeSteps)
    ++ (if config.image.isNone then [.findImage] else [])
    ++ mountSteps config.mounts 0
    ++ [.spawnQemu]

/-- `start` launches QEMU, and then connects to it. -/
theorem startScript_launch (config : SandboxConfig σ) (self : QemuSandbox) :
    startScript config self = launchSteps config self ++ .connectQmp :: [.becomeRunning] := by
  simp only [startScript, launchSteps, List.append_assoc, List.cons_append, List.nil_append]

/-- Up to there nothing is waited for. -/
theorem readyAlong_launch (config : SandboxConfig σ) (self : QemuSandbox) (k : ι)
    (s : Hosts ι δ) : ReadyAlong (qemuParty u) k (launchSteps config self) s := by
  have hroot : ∀ o ∈ if self.runtime then [] else runtimeSteps, plain o = true := by
    intro o ho
    split at ho
    · exact nomatch ho
    · revert o
      decide
  have himage : ∀ o ∈ if config.image.isNone then [QemuStep.findImage] else [],
      plain o = true := by
    intro o ho
    split at ho
    · rw [List.mem_singleton.mp ho]
      rfl
    · exact nomatch ho
  have hspawn : ∀ o ∈ [QemuStep.spawnQemu], plain o = true := by decide
  simp only [launchSteps, readyAlong_append]
  exact ⟨⟨⟨readyAlong_of_plain hroot _, readyAlong_of_plain himage _⟩, readyAlong_mounts ..⟩,
    readyAlong_of_plain hspawn _⟩

/-- The others' sandboxes are as before a script. -/
theorem after_self {j k : ι} (hj : j ≠ k) (os : List QemuStep) (s : Hosts ι δ) :
    (after (qemuParty u) k os s).sandbox j = s.sandbox j := by
  induction os generalizing s with
  | nil => rfl
  | cons o os ih => exact (ih _).trans (done_apart hj o s).self

/-- After it there is a QEMU. -/
theorem launched (config : SandboxConfig σ) (self : QemuSandbox) (k : ι) (s : Hosts ι δ) :
    k ∈ (after (qemuParty u) k (launchSteps config self) s).qemus := by
  rw [launchSteps, after_append]
  exact List.mem_cons_self ..

/-- A `start` that is not refused is at the beginning of its script. -/
theorem start_call {st : Calls ι LifeCall QemuStep (Hosts ι δ)} {k : ι}
    (hp : st.pending k = none) (hst : (st.now.sandbox k).state = .created) :
    (qemuParty u).machine.step st (.call k .start)
      = some (st.put k (some (.start, startScript (u.config k) (st.now.sandbox k)))
          (st.now.setSelf k { st.now.sandbox k with state := .starting }), []) := by
  obtain ⟨os, hos, -⟩ := startScript_builds (u.config k) (st.now.sandbox k)
  have henter : (qemuParty u).enter k .start st.now
      = .ok (st.now.setSelf k { st.now.sandbox k with state := .starting },
        startScript (u.config k) (st.now.sandbox k)) := by
    show enter u k .start st.now = _
    rw [enter, if_neg (fun h => h hst)]
  have hfare : ∀ c : LifeCall, (farewell k c (os ++ [.becomeRunning])
      : List (Seen ι LifeCall SandboxError (Sight ι))) = [] := by
    intro c
    cases os with
    | nil => rfl
    | cons o os => rfl
  simp only [Party.machine, hp, henter, settle, hos, rest_concat, hfare, List.map_nil,
    List.append_nil]

/-- **ONE DIRECTORY IS MEDDLED WITH**: the second `start` removes the QMP
    socket that the QEMU of the first has bound. -/
theorem meddling_of_dir {k k' : ι} (hk : k ≠ k') (hdir : u.dir k = u.dir k') :
    ¬ NoMeddling u := by
  intro hno
  let st₀ : Calls ι LifeCall QemuStep (Hosts ι δ) := .idle .fresh
  -- the first sandbox is started, up to its QMP client
  let s₁ : Hosts ι δ := Hosts.fresh.setSelf k { state := .starting }
  let st₁ := st₀.put k (some (.start, startScript (u.config k) {})) s₁
  have h₁ : Run (qemuParty u).machine always st₀ st₁ _ :=
    Run.step (.call k .start) Run.start True.intro (start_call rfl rfl)
  have hp₁ : st₁.pending k
      = some (.start, launchSteps (u.config k) {} ++ .connectQmp :: [.becomeRunning]) := by
    rw [← startScript_launch]
    exact Function.update_self ..
  obtain ⟨tr₂, h₂⟩ := performs (P := qemuParty u) (launchSteps (u.config k) {}) hp₁
    (readyAlong_launch ..)
  let s₂ := after (qemuParty u) k (launchSteps (u.config k) {}) s₁
  let st₂ := st₁.put k (some (.start, .connectQmp :: [.becomeRunning])) s₂
  -- its QEMU binds the socket
  let s₃ : Hosts ι δ := { s₂ with
    files := s₂.files.insert (u.dir k, RtFile.qmpSock.fileName) (.qemu k .qmpSock)
    opened := (k, .qmpSock) :: s₂.opened }
  let st₃ : Calls ι LifeCall QemuStep (Hosts ι δ) := { st₂ with now := s₃ }
  have henv : environment u (.qemuOpens k .qmpSock) s₂ = some (s₃, [.touched k .qmpSock]) := by
    rw [environment, if_pos ⟨launched .., List.mem_cons_self ..⟩]
    exact if_neg (fun h => by cases h)
  have hs₃ : (qemuParty u).machine.step st₂ (.env (.qemuOpens k .qmpSock))
      = some (st₃, [.shown (.touched k .qmpSock)]) := by
    have henv' : (qemuParty u).env (.qemuOpens k .qmpSock) st₂.now
        = some (s₃, [.touched k .qmpSock]) := henv
    simp only [Party.machine, henv']
    rfl
  have h₃ := Run.step _ (Run.trans h₁ h₂) True.intro hs₃
  -- the second sandbox is as it was, and is started
  have hself : st₃.now.sandbox k' = {} :=
    (after_self hk.symm _ s₁).trans (Hosts.setSelf_else _ _ hk.symm)
  have hp₃ : st₃.pending k' = none := by
    show Function.update (Function.update st₀.pending k _) k _ k' = none
    rw [Function.update_of_ne hk.symm, Function.update_of_ne hk.symm]
    rfl
  obtain ⟨os, hos⟩ : ∃ os, startScript (u.config k') {}
      = [.createRoot, .createLog, .removeStale .serialSock]
        ++ QemuStep.removeStale .qmpSock :: os := ⟨_, rfl⟩
  let s₄ := s₃.setSelf k' { state := .starting }
  let st₄ := st₃.put k' (some (.start, startScript (u.config k') {})) s₄
  have hs₄ : (qemuParty u).machine.step st₃ (.call k' .start) = some (st₄, []) := by
    have h := start_call (u := u) hp₃ (by rw [hself])
    rw [hself] at h
    exact h
  have hp₄ : st₄.pending k' = some (.start, [.createRoot, .createLog, .removeStale .serialSock]
      ++ QemuStep.removeStale .qmpSock :: os) := by
    rw [← hos]
    exact Function.update_self ..
  obtain ⟨tr₅, h₅⟩ := performs (P := qemuParty u) _ hp₄ (readyAlong_of_plain (by decide) _)
  let s₅ := s₄.remove (u.dir k') .serialSock
  let st₅ := st₄.put k' (some (.start, .removeStale .qmpSock :: os)) s₅
  -- and removes what it finds at the name
  have hp₅ : st₅.pending k' = some (.start, .removeStale .qmpSock :: os) :=
    Function.update_self ..
  have hs₅ : (qemuParty u).machine.step st₅ (.run k' true)
      = some (settle st₅ k' .start os (s₅.remove (u.dir k') .qmpSock)
          [.touched k' .qmpSock]) := by
    simp only [Party.machine, hp₅]
    rfl
  have hun := hno (Run.trans (Run.step _ h₃ True.intro hs₄) h₅) hs₅
  refine hun.files k' .qmpSock (List.mem_append_left _ (List.mem_singleton.mpr rfl)) k hk .qmpSock
    (List.mem_cons_self ..) ?_
  rw [hdir]

/-! ## Default directories -/

/-- **TWO SANDBOXES KEEP APART** when no runtime directory is configured, in
    every run, if and only if their default directories differ on the host.
    What directory a path leads to is `resolve`. -/
theorem sandboxes_keep_apart_iff (resolve : PathBuf → δ) (tempDir : PathBuf) (pid : Nat)
    (config : ι → SandboxConfig σ) (hnone : ∀ k, (config k).runtimeDir = none) :
    NoMeddling { config, dir := fun k => resolve (runtimeRoot tempDir pid (config k)) }
      ↔ ∀ k k', k ≠ k' → resolve (defaultRuntimeRoot tempDir pid (config k).name)
          ≠ resolve (defaultRuntimeRoot tempDir pid (config k').name) := by
  have hroot : ∀ k, runtimeRoot tempDir pid (config k)
      = defaultRuntimeRoot tempDir pid (config k).name := by
    intro k
    rw [runtimeRoot, hnone k, Option.getD_none]
  constructor
  · intro hno k k' hk hdir
    refine meddling_of_dir hk ?_ hno
    show resolve (runtimeRoot tempDir pid (config k))
      = resolve (runtimeRoot tempDir pid (config k'))
    rw [hroot, hroot, hdir]
  · intro hdir
    refine noMeddling_of_dirs fun k k' hk => ?_
    show resolve (runtimeRoot tempDir pid (config k))
      ≠ resolve (runtimeRoot tempDir pid (config k'))
    rw [hroot, hroot]
    exact hdir k k' hk

/-- Two sandboxes of one process, each with a mount. -/
def demoPair (n n' : String) : Bool → SandboxConfig Unit
  | false =>
      { name := n
        image := some { kernel := .root, initrd := .root, rootfs := none }
        mounts := [.hostDir "/mnt/a" .root false "a"] }
  | true =>
      { name := n'
        image := some { kernel := .root, initrd := .root, rootfs := none }
        mounts := [.hostDir "/mnt/b" .root true "b"] }

/-- Two sandboxes in one process, in the directories their names give them. -/
def demoRoots (n n' : String) : Setup Bool PathBuf Unit where
  config := demoPair n n'
  dir k := runtimeRoot (PathBuf.ofBytes (utf8 "/tmp")) 7 (demoPair n n' k)

/-- Two sandboxes named `vm` are started one within the other: the QMP client
    of the second connects to the QEMU of the first. -/
theorem one_name_one_qemu : ¬ NoMeddling (demoRoots "vm" "vm") := by
  intro hno
  let ls : List (Move Bool LifeCall (QemuEvent Bool)) :=
    .call false .start :: List.replicate 8 (.run false true)
      ++ .call true .start :: List.replicate 8 (.run true true)
      ++ [.run false true, .env (.qemuOpens false .qmpSock), .run true true]
  have hx : (((qemuParty (demoRoots "vm" "vm")).machine.exec (.idle .fresh) ls).bind fun r =>
      ((qemuParty (demoRoots "vm" "vm")).machine.step r.1 (.run true true)).map fun x =>
        decide (.shown (.controls true false) ∈ x.2)) = some true := by
    decide +kernel
  obtain ⟨⟨st, tr⟩, hrun, hs⟩ := Option.bind_eq_some_iff.mp hx
  obtain ⟨⟨st', es⟩, hs, hd⟩ := Option.map_eq_some_iff.mp hs
  exact nomatch (hno (run_of_exec_always hrun) hs).qmp true false (of_decide_eq_true hd)

/-- With two names they keep apart. -/
theorem two_names_apart : NoMeddling (demoRoots "a" "b") :=
  (sandboxes_keep_apart_iff id (PathBuf.ofBytes (utf8 "/tmp")) 7 (demoPair "a" "b")
    (by decide)).mpr (by decide +kernel)

end TokimoQemu
