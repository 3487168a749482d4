import TokimoKvm.MacosSandbox
import TokimoKvm.SandboxCleanupProofs

/-! # One trait, three state machines

    What a caller of the `Sandbox` trait sees of a backend is what each call
    returns and the state after it; of a call that does not return, and of
    what would come after it, nothing is seen.  `Lives` says what a backend
    shows from a successful `start` on, and all three do so;
    `backends_agree_iff` says for which sequences of calls this is all there
    is. -/

namespace TokimoSandbox

open TokimoMachine TokimoMount TokimoScript

/-! ## What a caller sees -/

/-- How a call ends: with `Ok`, with the lifecycle error, or with another
    one. -/
inductive Ending where
  | ok
  | alreadyStarted
  | error
  deriving DecidableEq, Repr

/-- How a call that returned has ended. -/
def ending : Except SandboxError Unit → Ending
  | .ok () => .ok
  | .error .alreadyStarted => .alreadyStarted
  | .error _ => .error

/-- A call and whether its external work succeeds. -/
abbrev Outer := LifeCall × Bool

section Backends

variable {O S V E : Type}

/-- The outcomes of the steps of a call for which its external work succeeds,
    or fails where it can: some step whose error the call returns fails. -/
def Fits (P : Party Unit LifeCall O S SandboxError V E) (s : S) (x : Outer)
    (oks : List Bool) : Prop :=
  match P.enter () x.1 s with
  | .error _ => True
  | .ok (s', os) =>
      if x.2 = true then ∀ b ∈ oks, b = true
      else (∃ o ∈ os, (P.error o).isSome) → ∃ e s'', perform P () os oks s' = (.error e, s'')

/-- A backend as its caller meets it: the calls of its one sandbox, the state
    it reports, and the steps that come to an end. -/
structure Backend (O S V E : Type) where
  party : Party Unit LifeCall O S SandboxError V E
  view : S → SandboxState
  ends : O → Bool

namespace Backend

variable (B : Backend O S V E)

/-- What a call returns and leaves, if it returns. -/
def now (c : LifeCall) (oks : List Bool) (s : S) : Except SandboxError Unit × S :=
  callNow B.party () c oks s

/-- Whether a call returns. -/
def returns (c : LifeCall) (oks : List Bool) (s : S) : Bool :=
  TokimoScript.returns B.party B.ends () c oks s

end Backend

/-- What a backend can show for a sequence of calls.  A call that does not
    return is the end of what is seen. -/
def Shows (B : Backend O S V E) : S → List Outer → List (Ending × SandboxState) → Prop
  | _, [], seen => seen = []
  | s, x :: xs, seen => ∃ oks, Fits B.party s x oks ∧
      if B.returns x.1 oks s = true then
        ∃ rest, seen = (ending (B.now x.1 oks s).1, B.view (B.now x.1 oks s).2) :: rest
          ∧ Shows B (B.now x.1 oks s).2 xs rest
      else seen = []

/-- The steps whose errors are returned can fail. -/
def CanFail (P : Party Unit LifeCall O S SandboxError V E) : Prop :=
  ∀ o s, (P.error o).isSome → (P.failed () o s).isSome

theorem fits_exists {P : Party Unit LifeCall O S SandboxError V E} (hP : CanFail P) (s : S)
    (x : Outer) : ∃ oks, Fits P s x oks := by
  obtain ⟨c, ok⟩ := x
  unfold Fits
  cases P.enter () c s with
  | error e => exact ⟨[], True.intro⟩
  | ok y =>
      obtain ⟨s', os⟩ := y
      cases ok with
      | true => exact ⟨[], fun b hb => nomatch hb⟩
      | false =>
          by_cases h : ∃ o ∈ os, (P.error o).isSome
          · obtain ⟨oks, e, s'', hp⟩ := perform_can_fail hP h s'
            exact ⟨oks, fun _ => ⟨e, s'', hp⟩⟩
          · exact ⟨[], fun h' => absurd h' h⟩

/-- A call that returns is seen to. -/
theorem shows_cons {B : Backend O S V E} {s : S} {x : Outer} {xs : List Outer}
    {oks : List Bool} {rest : List (Ending × SandboxState)} (hfit : Fits B.party s x oks)
    (hret : B.returns x.1 oks s = true) (hrest : Shows B (B.now x.1 oks s).2 xs rest) :
    Shows B s (x :: xs) ((ending (B.now x.1 oks s).1, B.view (B.now x.1 oks s).2) :: rest) := by
  refine ⟨oks, hfit, ?_⟩
  rw [if_pos hret]
  exact ⟨rest, rfl, hrest⟩

/-- A call that does not return is not. -/
theorem shows_never {B : Backend O S V E} {s : S} {x : Outer} {oks : List Bool}
    (xs : List Outer) (hfit : Fits B.party s x oks) (hret : B.returns x.1 oks s = false) :
    Shows B s (x :: xs) [] := by
  refine ⟨oks, hfit, ?_⟩
  rw [if_neg (by rw [hret]; decide)]

/-- Whatever the calls, a backend shows something. -/
theorem shows_exists {B : Backend O S V E} (hB : CanFail B.party) (xs : List Outer) (s : S) :
    ∃ seen, Shows B s xs seen := by
  induction xs generalizing s with
  | nil => exact ⟨[], rfl⟩
  | cons x xs ih =>
      obtain ⟨oks, hfit⟩ := fits_exists hB s x
      cases hret : B.returns x.1 oks s with
      | true =>
          obtain ⟨rest, hrest⟩ := ih (B.now x.1 oks s).2
          exact ⟨_, shows_cons hfit hret hrest⟩
      | false => exact ⟨[], shows_never xs hfit hret⟩

/-- What is seen of a call that returns whatever its outcomes. -/
theorem shows_cases {B : Backend O S V E} {s : S} {x : Outer} {xs : List Outer}
    {seen : List (Ending × SandboxState)} (hret : ∀ oks, B.returns x.1 oks s = true)
    (h : Shows B s (x :: xs) seen) :
    ∃ oks rest, Fits B.party s x oks
      ∧ seen = (ending (B.now x.1 oks s).1, B.view (B.now x.1 oks s).2) :: rest
      ∧ Shows B (B.now x.1 oks s).2 xs rest := by
  obtain ⟨oks, hfit, hseen⟩ := h
  rw [if_pos (hret oks)] at hseen
  obtain ⟨rest, hseen, hrest⟩ := hseen
  exact ⟨oks, rest, hfit, hseen, hrest⟩

/-- What every backend does from a successful `start` on.  Nothing is said of
    a `wait` while the sandbox is up. -/
structure Lives (B : Backend O S V E) (new up down : S → Prop) : Prop where
  canFail : CanFail B.party
  starts : ∀ s oks, B.returns .start oks s = true
  stops : ∀ s oks, B.returns .stop oks s = true
  waits : ∀ {s}, down s → ∀ oks, B.returns .wait oks s = true
  start : ∀ {s oks}, new s → Fits B.party s (.start, true) oks →
    ending (B.now .start oks s).1 = .ok ∧ up (B.now .start oks s).2
  again : ∀ {s} oks, up s ∨ down s → B.now .start oks s = (.error .alreadyStarted, s)
  stop : ∀ {s oks}, up s → Fits B.party s (.stop, true) oks →
    ending (B.now .stop oks s).1 = .ok ∧ down (B.now .stop oks s).2
  wait : ∀ {s} oks, down s → ending (B.now .wait oks s).1 = .ok ∧ down (B.now .wait oks s).2
  stopAgain : ∀ {s} oks, down s →
    ending (B.now .stop oks s).1 = .ok ∧ down (B.now .stop oks s).2
  up : ∀ {s}, up s → B.view s = .running
  down : ∀ {s}, down s → B.view s = .stopped

/-- What is shown once the sandbox is down. -/
def showDown : List Outer → List (Ending × SandboxState)
  | [] => []
  | (.start, _) :: xs => (.alreadyStarted, .stopped) :: showDown xs
  | _ :: xs => (.ok, .stopped) :: showDown xs

/-- What is shown while the sandbox is up, until a `stop` succeeds. -/
def showUp : List Outer → List (Ending × SandboxState)
  | [] => []
  | (.start, _) :: xs => (.alreadyStarted, .running) :: showUp xs
  | _ :: xs => (.ok, .stopped) :: showDown xs

/-- There is no `wait` before the first `stop`, and that `stop` has its
    external work succeed. -/
def Settles : List Outer → Prop
  | [] => True
  | (.start, _) :: xs => Settles xs
  | (.wait, _) :: _ => False
  | (.stop, ok) :: _ => ok = true

/-- The first call is a `start` that succeeds, no `wait` comes between it and
    the first `stop` after it, and this `stop` succeeds as well. -/
def Agreeing : List Outer → Prop
  | [] => True
  | (.start, ok) :: xs => ok = true ∧ Settles xs
  | _ => False

variable {B : Backend O S V E} {new up down : S → Prop}

theorem Lives.shows_down (h : Lives B new up down) {xs : List Outer} {s : S}
    {seen : List (Ending × SandboxState)} (hs : down s) (hseen : Shows B s xs seen) :
    seen = showDown xs := by
  induction xs generalizing s seen with
  | nil => exact hseen
  | cons x xs ih =>
      obtain ⟨c, ok⟩ := x
      have hret : ∀ oks, B.returns c oks s = true := by
        intro oks
        cases c with
        | start => exact h.starts s oks
        | stop => exact h.stops s oks
        | wait => exact h.waits hs oks
      obtain ⟨oks, rest, -, rfl, hrest⟩ := shows_cases hret hseen
      cases c with
      | start =>
          have hnow := h.again oks (Or.inr hs)
          rw [hnow] at hrest ⊢
          rw [ih hs hrest, h.down hs]
          rfl
      | stop =>
          obtain ⟨hend, hdown⟩ := h.stopAgain oks hs
          rw [hend, h.down hdown, ih hdown hrest]
          rfl
      | wait =>
          obtain ⟨hend, hdown⟩ := h.wait oks hs
          rw [hend, h.down hdown, ih hdown hrest]
          rfl

theorem Lives.shows_up (h : Lives B new up down) {xs : List Outer} {s : S}
    {seen : List (Ending × SandboxState)} (hs : up s) (hset : Settles xs)
    (hseen : Shows B s xs seen) : seen = showUp xs := by
  induction xs generalizing s seen with
  | nil => exact hseen
  | cons x xs ih =>
      obtain ⟨c, ok⟩ := x
      cases c with
      | wait => exact hset.elim
      | start =>
          obtain ⟨oks, rest, -, rfl, hrest⟩ := shows_cases (h.starts s) hseen
          have hnow := h.again oks (Or.inl hs)
          rw [hnow] at hrest ⊢
          rw [ih hs hset hrest, h.up hs]
          rfl
      | stop =>
          obtain ⟨oks, rest, hfit, rfl, hrest⟩ := shows_cases (h.stops s) hseen
          have hok : ok = true := hset
          subst hok
          obtain ⟨hend, hdown⟩ := h.stop hs hfit
          rw [hend, h.down hdown, h.shows_down hdown hrest]
          rfl

/-- Every backend shows the same for a sequence of this kind. -/
theorem Lives.shows_new (h : Lives B new up down) {xs : List Outer} {s : S}
    {seen : List (Ending × SandboxState)} (hs : new s) (hag : Agreeing ((.start, true) :: xs))
    (hseen : Shows B s ((.start, true) :: xs) seen) :
    seen = (.ok, .running) :: showUp xs := by
  obtain ⟨oks, rest, hfit, rfl, hrest⟩ := shows_cases (h.starts s) hseen
  obtain ⟨hend, hup⟩ := h.start hs hfit
  have hrest' := h.shows_up hup hag.2 hrest
  show (ending (B.now .start oks s).1, B.view (B.now .start oks s).2) :: rest = _
  rw [hend, h.up hup, hrest']

end Backends

end TokimoSandbox

/-! ## The three backends -/

namespace TokimoQemu

open TokimoMachine TokimoMount TokimoSandbox TokimoScript

variable {δ σ : Type} [DecidableEq δ] {u : Setup Unit δ σ}

/-- The state the sandbox reports. -/
def view (s : Hosts Unit δ) : SandboxState := (s.sandbox ()).state

/-- The backend on Linux.  A `wait` ends with QEMU, which may end by itself. -/
def backend (u : Setup Unit δ σ) :
    Backend QemuStep (Hosts Unit δ) (QemuEvent Unit) (Sight Unit) where
  party := qemuParty u
  view := view
  ends _ := true

theorem now_eq (c : LifeCall) (oks : List Bool) (s : Hosts Unit δ) :
    (backend u).now c oks s = callNow (qemuParty u) () c oks s := rfl

/-- A sandbox whose `start` has succeeded. -/
def Up (s : Hosts Unit δ) : Prop := view s = .running ∧ (s.sandbox ()).qemuChild = true

theorem canFail : CanFail (qemuParty u) := by
  intro o s h
  have h' : (stepError o).isSome := h
  show (failed o s).isSome
  unfold failed
  split
  · rfl
  · rfl
  · rfl
  · rw [Option.isSome_map]
    exact h'

theorem call_start {s : Hosts Unit δ} (h : view s = .created) (oks : List Bool) :
    callNow (qemuParty u) () .start oks s
      = perform (qemuParty u) () (startScript (u.config ()) (s.sandbox ())) oks
          (s.setSelf () { s.sandbox () with state := .starting }) := by
  refine callNow_of_ok ?_ oks
  exact if_neg (fun hne => hne h)

theorem call_started {s : Hosts Unit δ} (h : view s ≠ .created) (oks : List Bool) :
    callNow (qemuParty u) () .start oks s = (.error .alreadyStarted, s) := by
  refine callNow_of_error ?_ oks
  exact if_pos h

/-- A script of the end of `stop` leaves the sandbox stopped. -/
theorem stop_up {s : Hosts Unit δ} (h : view s = .running) (oks : List Bool) :
    ending (callNow (qemuParty u) () .stop oks s).1 = .ok
      ∧ view (callNow (qemuParty u) () .stop oks s).2 = .stopped := by
  have he : (qemuParty u).enter () .stop s
      = .ok (s.setSelf () { s.sandbox () with state := .stopping },
        stopScript (s.sandbox ())) := if_neg (fun hne => hne.1 h)
  obtain ⟨os, hos, htear⟩ := stopScript_tears (s.sandbox ())
  obtain ⟨s₁, hp⟩ := perform_quiet (P := qemuParty u) (k := ()) (x := .becomeStopped)
    (fun o ho => stepError_of_tears (htear o ho)) (fun _ => rfl) oks
    (s.setSelf () { s.sandbox () with state := .stopping })
  rw [callNow_of_ok he, hos, hp]
  exact ⟨rfl, congrArg QemuSandbox.state (s₁.setSelf_self () _)⟩

theorem stop_idle {s : Hosts Unit δ} (h : view s ≠ .running ∧ view s ≠ .starting)
    (oks : List Bool) : callNow (qemuParty u) () .stop oks s = (.ok (), s) := by
  have he : (qemuParty u).enter () .stop s = .ok (s, []) := if_pos h
  exact callNow_of_ok he oks

theorem wait_childless {s : Hosts Unit δ} (h : (s.sandbox ()).qemuChild = false)
    (oks : List Bool) : callNow (qemuParty u) () .wait oks s = (.ok (), s) := by
  have he : (qemuParty u).enter () .wait s = .ok (s, []) := by
    show Except.ok (s, if (s.sandbox ()).qemuChild then _ else []) = _
    rw [h]
    rfl
  exact callNow_of_ok he oks

theorem wait_child {s : Hosts Unit δ} (h : (s.sandbox ()).qemuChild = true)
    (oks : List Bool) :
    callNow (qemuParty u) () .wait oks s = (.ok (), done u () .awaitQemu s) := by
  have he : (qemuParty u).enter () .wait s = .ok (s, [.awaitQemu]) := by
    show Except.ok (s, if (s.sandbox ()).qemuChild then _ else []) = _
    rw [h]
    rfl
  exact (callNow_of_ok he oks).trans (perform_single (fun _ => rfl) oks s)

theorem child_spawned (s : Hosts Unit δ) :
    ((after (qemuParty u) () [.spawnQemu, .connectQmp, .becomeRunning] s).sandbox ()).qemuChild
      = true := by
  let s₁ := done u () .spawnQemu s
  let s₂ := done u () .connectQmp s₁
  have h1 := congrArg QemuSandbox.qemuChild
    (s.setSelf_self () { s.sandbox () with qemuChild := true })
  have h2 := congrArg QemuSandbox.qemuChild
    (s₁.setSelf_self () { s₁.sandbox () with qmp := true })
  have h3 := congrArg QemuSandbox.qemuChild
    (s₂.setSelf_self () { s₂.sandbox () with state := .running })
  exact h3.trans (h2.trans h1)

theorem lives : Lives (backend u) (fun s => view s = .created) Up
    (fun s => view s = .stopped) where
  canFail := canFail
  starts _ _ := returns_always (fun _ => rfl) _ _ _
  stops _ _ := returns_always (fun _ => rfl) _ _ _
  waits _ _ := returns_always (fun _ => rfl) _ _ _
  start := by
    intro s oks hnew hfit
    have he : (qemuParty u).enter () .start s
        = .ok (s.setSelf () { s.sandbox () with state := .starting },
          startScript (u.config ()) (s.sandbox ())) := if_neg (fun hne => hne hnew)
    have hall : ∀ b ∈ oks, b = true := by
      rw [Fits, show (backend u).party.enter () .start s = _ from he] at hfit
      exact hfit
    rw [now_eq, call_start hnew, perform_all hall, startScript, after_append]
    refine ⟨rfl, ?_, ?_⟩
    · exact congrArg QemuSandbox.state (Hosts.setSelf_self _ () _)
    · -- the child is there from its spawn on
      exact child_spawned _
  again := by
    rintro s oks (h | h)
    · exact call_started (u := u) (by rw [h.1]; decide) oks
    · exact call_started (u := u) (by rw [h]; decide) oks
  stop h _ := stop_up (u := u) h.1 _
  wait := by
    intro s oks h
    cases hc : (s.sandbox ()).qemuChild with
    | true =>
        rw [now_eq, wait_child hc]
        exact ⟨rfl, congrArg QemuSandbox.state (s.setSelf_self () _)⟩
    | false =>
        rw [now_eq, wait_childless hc]
        exact ⟨rfl, h⟩
  stopAgain := by
    intro s oks h
    rw [now_eq, stop_idle (by rw [h]; exact ⟨by decide, by decide⟩)]
    exact ⟨rfl, h⟩
  up h := h.1
  down h := h

/-- A failed `start` leaves the state at `Starting`. -/
theorem start_fails {s : Hosts Unit δ} {oks : List Bool} (hnew : view s = .created)
    (hfit : Fits (qemuParty u) s (.start, false) oks) :
    view (callNow (qemuParty u) () .start oks s).2 = .starting := by
  have he : (qemuParty u).enter () .start s
      = .ok (s.setSelf () { s.sandbox () with state := .starting },
        startScript (u.config ()) (s.sandbox ())) := if_neg (fun hne => hne hnew)
  obtain ⟨os, hos, hbuild⟩ := startScript_builds (u.config ()) (s.sandbox ())
  rw [Fits, he] at hfit
  have hspawn : QemuStep.spawnQemu ∈ startScript (u.config ()) (s.sandbox ()) :=
    List.mem_append_right _ (List.mem_cons_self ..)
  obtain ⟨e, s'', hp⟩ := hfit ⟨_, hspawn, rfl⟩
  rw [call_start hnew, hp]
  rw [hos] at hp
  refine perform_error_keeps (J := fun s => view s = .starting) (x := QemuStep.becomeRunning)
    rfl ?_ ?_ ?_ hp
  · exact fun o ho s hs => (build_state (hbuild o ho)).trans hs
  · intro o ho s s' hs hf
    rw [failed_same hf]
    exact hs
  · exact congrArg QemuSandbox.state (s.setSelf_self () _)

end TokimoQemu

namespace TokimoMacos

open TokimoMachine TokimoMount TokimoSandbox TokimoScript

variable {σ : Type} {config : SandboxConfig σ}

/-- The backend on macOS, where the `Wait` of a machine that runs does not
    end. -/
def backend (config : SandboxConfig σ) : Backend MacosStep MacosSandbox Empty Empty where
  party := macosParty config
  view := MacosSandbox.state
  ends := ends

theorem now_eq (c : LifeCall) (oks : List Bool) (s : MacosSandbox) :
    (backend config).now c oks s = callNow (macosParty config) () c oks s := rfl

theorem returns_eq (c : LifeCall) (oks : List Bool) (s : MacosSandbox) :
    (backend config).returns c oks s = returns (macosParty config) ends () c oks s := rfl

/-- A sandbox whose `start` has succeeded. -/
def Up (s : MacosSandbox) : Prop := s.state = .running ∧ s.inner = true

theorem canFail : CanFail (macosParty config) := by
  intro o s h
  have h' : (stepError o).isSome := h
  show (failed o s).isSome
  unfold failed
  split
  · rfl
  · rw [Option.isSome_map]
    exact h'

theorem call_start {s : MacosSandbox} (h : s.state = .created) :
    (macosParty config).enter () .start s
      = .ok ({ s with state := .starting }, startScript config) := if_neg (fun hne => hne h)

theorem call_started {s : MacosSandbox} (h : s.state ≠ .created) (oks : List Bool) :
    callNow (macosParty config) () .start oks s = (.error .alreadyStarted, s) := by
  refine callNow_of_error ?_ oks
  exact if_pos h

theorem stop_enter {s : MacosSandbox} (h : Up s) :
    (macosParty config).enter () .stop s
      = .ok ({ state := .stopping, inner := false }, [.stopVm, .becomeStopped]) := by
  have he : (macosParty config).enter () .stop s
      = .ok ({ state := .stopping, inner := false },
        (if s.inner then [.stopVm] else []) ++ [.becomeStopped]) :=
    if_neg (fun hne => hne.1 h.1)
  rw [he, h.2]
  rfl

/-- The steps of `start` neither stop the machine nor wait for it. -/
theorem startScript_steps {o : MacosStep} (ho : o ∈ startScript config) :
    o ≠ .stopVm ∧ o ≠ .awaitVm := by
  have hsock : ∀ (ms : List (MountSpec σ)) (i : Nat), o ∈ socketSteps ms i →
      ∃ j, o = .socketPair j := by
    intro ms
    induction ms with
    | nil => exact fun i h => nomatch h
    | cons m ms ih =>
        intro i h
        rcases List.mem_cons.mp h with h | h
        · exact ⟨i, h⟩
        · exact ih _ h
  simp only [startScript, List.mem_append] at ho
  rcases ho with ((ho | ho) | ho) | ho
  · split at ho
    · rw [List.mem_singleton.mp ho]
      exact ⟨by decide, by decide⟩
    · cases ho
  · constructor
    · rintro rfl
      exact absurd ho (by decide)
    · rintro rfl
      exact absurd ho (by decide)
  · obtain ⟨j, rfl⟩ := hsock _ _ ho
    exact ⟨MacosStep.noConfusion, MacosStep.noConfusion⟩
  · constructor
    · rintro rfl
      exact absurd ho (by decide)
    · rintro rfl
      exact absurd ho (by decide)

/-- Every step but the wait for the machine ends. -/
theorem ends_of_ne {o : MacosStep} (h : o ≠ .awaitVm) : ends o = true := by
  cases o with
  | awaitVm => exact absurd rfl h
  | _ => rfl

theorem start_returns (s : MacosSandbox) (oks : List Bool) :
    (backend config).returns .start oks s = true := by
  rw [returns_eq]
  by_cases h : s.state = .created
  · rw [returns_of_ok (call_start h)]
    exact finishes_of_ends (fun o ho => ends_of_ne (startScript_steps ho).2) _ _
  · have he : (macosParty config).enter () .start s = .error .alreadyStarted := if_pos h
    exact returns_of_error he oks

theorem stop_returns (s : MacosSandbox) (oks : List Bool) :
    (backend config).returns .stop oks s = true := by
  rw [returns_eq, returns]
  have hscript : ∀ o ∈ (if s.inner then [MacosStep.stopVm] else []) ++ [.becomeStopped],
      ends o = true := by
    intro o ho
    cases hi : s.inner with
    | true =>
        rw [hi] at ho
        rcases List.mem_cons.mp ho with rfl | ho
        · rfl
        · rw [List.mem_singleton.mp ho]
          rfl
    | false =>
        rw [hi] at ho
        rw [List.mem_singleton.mp ho]
        rfl
  by_cases h : s.state ≠ .running ∧ s.state ≠ .starting
  · rw [show (macosParty config).enter () .stop s = .ok (s, []) from if_pos h]
    rfl
  · rw [show (macosParty config).enter () .stop s = .ok ({ state := .stopping, inner := false },
      (if s.inner then [.stopVm] else []) ++ [.becomeStopped]) from if_neg h]
    exact finishes_of_ends hscript _ _

/-- A `wait` returns just where there is no `Inner`. -/
theorem wait_returns (s : MacosSandbox) (oks : List Bool) :
    (backend config).returns .wait oks s = !s.inner := by
  have he : (macosParty config).enter () .wait s
      = .ok (s, if s.inner then [.awaitVm] else []) := rfl
  rw [returns_eq, returns_of_ok he]
  cases s.inner with
  | true => exact finishes_never rfl _ _ _
  | false => rfl

/-- What a `wait` without an `Inner` does. -/
theorem wait_idle {s : MacosSandbox} (h : s.inner = false) (oks : List Bool) :
    callNow (macosParty config) () .wait oks s = (.ok (), s) := by
  have he : (macosParty config).enter () .wait s = .ok (s, []) := by
    show Except.ok (s, if s.inner then _ else []) = _
    rw [h]
    rfl
  exact callNow_of_ok he oks

theorem lives : Lives (backend config) (fun s => s.state = .created) Up
    (fun s => s.state = .stopped ∧ s.inner = false) where
  canFail := canFail
  starts := start_returns
  stops := stop_returns
  waits := by
    intro s h oks
    rw [wait_returns, h.2]
    rfl
  start := by
    intro s oks hnew hfit
    have hall : ∀ b ∈ oks, b = true := by
      rw [Fits, show (backend config).party.enter () .start s = _ from call_start hnew] at hfit
      exact hfit
    rw [now_eq, callNow_of_ok (call_start hnew), perform_all hall, startScript, after_append]
    exact ⟨rfl, rfl, rfl⟩
  again := by
    rintro s oks (h | h)
    · refine call_started ?_ oks
      rw [h.1]
      decide
    · refine call_started ?_ oks
      rw [h.1]
      decide
  stop := by
    intro s oks h hfit
    have hall : ∀ b ∈ oks, b = true := by
      rw [Fits, show (backend config).party.enter () .stop s = _ from stop_enter h] at hfit
      exact hfit
    rw [now_eq, callNow_of_ok (stop_enter h), perform_all hall]
    exact ⟨rfl, rfl, rfl⟩
  wait := by
    intro s oks h
    rw [now_eq, wait_idle h.2]
    exact ⟨rfl, h⟩
  stopAgain := by
    intro s oks h
    have he : (macosParty config).enter () .stop s = .ok (s, []) :=
      if_pos (by rw [h.1]; exact ⟨by decide, by decide⟩)
    rw [now_eq, callNow_of_ok he]
    exact ⟨rfl, h⟩
  up h := h.1
  down h := h.1

/-- A failed `start` makes the state `Failed`. -/
theorem start_fails {s : MacosSandbox} {oks : List Bool} (hnew : s.state = .created)
    (hfit : Fits (macosParty config) s (.start, false) oks) :
    (callNow (macosParty config) () .start oks s).2.state = .failed := by
  rw [Fits, call_start hnew] at hfit
  have hlog : MacosStep.openLog ∈ startScript config :=
    List.mem_append_right _ (List.mem_cons_self ..)
  obtain ⟨e, s'', hp⟩ := hfit ⟨_, hlog, rfl⟩
  rw [callNow_of_ok (call_start hnew), hp]
  obtain ⟨o, ho, s₁, he, hf⟩ := perform_error hp
  have hne := (startScript_steps ho).1
  have hf' : failed o s₁ = some s'' := hf
  unfold failed at hf'
  split at hf'
  · exact absurd rfl hne
  · obtain ⟨-, -, rfl⟩ := Option.map_eq_some_iff.mp hf'
    rfl

/-- A `stop` whose external work fails returns its error. -/
theorem stop_fails {s : MacosSandbox} {oks : List Bool} (h : Up s)
    (hfit : Fits (macosParty config) s (.stop, false) oks) :
    ending (callNow (macosParty config) () .stop oks s).1 = .error := by
  rw [Fits, stop_enter h] at hfit
  obtain ⟨e, s'', hp⟩ := hfit ⟨.stopVm, List.mem_cons_self .., rfl⟩
  rw [callNow_of_ok (stop_enter h), hp]
  obtain ⟨o, ho, s₁, he, -⟩ := perform_error hp
  rcases List.mem_cons.mp ho with rfl | ho
  · rw [← Option.some.inj he]
    rfl
  · rw [List.mem_singleton.mp ho] at he
    exact nomatch he

end TokimoMacos

namespace TokimoWsl

open TokimoMachine TokimoMount TokimoSandbox TokimoScript

variable {σ : Type} {config : SandboxConfig σ} {listed : Bool}

/-- The state the sandbox reports. -/
def view (s : WslHost) : SandboxState := s.self.state

/-- The backend on Windows.  A `wait` ends with the agents, which may end by
    themselves. -/
def backend (config : SandboxConfig σ) (listed : Bool) :
    Backend WslStep WslHost WslEvent WslSight where
  party := wslParty config listed
  view := view
  ends _ := true

theorem now_eq (c : LifeCall) (oks : List Bool) (s : WslHost) :
    (backend config listed).now c oks s = callNow (wslParty config listed) () c oks s := rfl

theorem canFail : CanFail (wslParty config listed) := by
  intro o s h
  have h' : (stepError o).isSome := h
  show (failed o s).isSome
  unfold failed
  split
  · rfl
  · rw [Option.isSome_map]
    exact h'

theorem call_started {s : WslHost} (h : view s ≠ .created) (oks : List Bool) :
    callNow (wslParty config listed) () .start oks s = (.error .alreadyStarted, s) := by
  refine callNow_of_error ?_ oks
  exact if_pos h

/-- `stop` leaves the sandbox stopped, from any state. -/
theorem stop_any (s : WslHost) (oks : List Bool) :
    ending (callNow (wslParty config listed) () .stop oks s).1 = .ok
      ∧ view (callNow (wslParty config listed) () .stop oks s).2 = .stopped := by
  by_cases hst : s.self.state = .stopped
  · have he : (wslParty config listed).enter () .stop s = .ok (s, []) := if_pos hst
    rw [callNow_of_ok he]
    exact ⟨rfl, hst⟩
  · have he : (wslParty config listed).enter () .stop s
        = .ok (s.setSelf { s.self with state := .stopping, agentChildren := [] },
          stopScript s.self) := if_neg hst
    obtain ⟨os, hos, htear⟩ := stopScript_tears s.self
    have herr : ∀ o ∈ os, stepError o = none := by
      intro o ho
      have ht := htear o ho
      cases o with
      | killAgent i => rfl
      | takeTasks => rfl
      | abortTask i => rfl
      | terminateDistro => rfl
      | _ => exact nomatch ht
    obtain ⟨s₁, hp⟩ := perform_quiet (P := wslParty config listed) (k := ()) herr
      (x := .becomeStopped) (fun _ => rfl) oks
      (s.setSelf { s.self with state := .stopping, agentChildren := [] })
    rw [callNow_of_ok he, hos, hp]
    exact ⟨rfl, rfl⟩

/-- So does `wait`. -/
theorem wait_any (s : WslHost) (oks : List Bool) :
    ending (callNow (wslParty config listed) () .wait oks s).1 = .ok
      ∧ view (callNow (wslParty config listed) () .wait oks s).2 = .stopped := by
  have he : (wslParty config listed).enter () .wait s
      = .ok (s.setSelf { s.self with agentChildren := [] },
        s.self.agentChildren.map .awaitAgent ++ [.allExited]) := rfl
  have herr : ∀ o ∈ s.self.agentChildren.map WslStep.awaitAgent, stepError o = none := by
    intro o ho
    obtain ⟨i, -, rfl⟩ := List.mem_map.mp ho
    rfl
  obtain ⟨s₁, hp⟩ := perform_quiet (P := wslParty config listed) (k := ()) herr
    (x := .allExited) (fun _ => rfl) oks (s.setSelf { s.self with agentChildren := [] })
  rw [callNow_of_ok he, hp]
  exact ⟨rfl, rfl⟩

theorem lives : Lives (backend config listed) (fun s => view s = .created)
    (fun s => view s = .running) (fun s => view s = .stopped) where
  canFail := canFail
  starts _ _ := returns_always (fun _ => rfl) _ _ _
  stops _ _ := returns_always (fun _ => rfl) _ _ _
  waits _ _ := returns_always (fun _ => rfl) _ _ _
  start := by
    intro s oks hnew hfit
    have he : (wslParty config listed).enter () .start s
        = .ok (s.setSelf { s.self with state := .starting }, startScript config listed) :=
      if_neg (fun hne => hne hnew)
    have hall : ∀ b ∈ oks, b = true := by
      rw [Fits, show (backend config listed).party.enter () .start s = _ from he] at hfit
      exact hfit
    rw [now_eq, callNow_of_ok he, perform_all hall, startScript, after_append]
    exact ⟨rfl, rfl⟩
  again := by
    rintro s oks (h | h)
    · refine call_started ?_ oks
      rw [h]
      decide
    · refine call_started ?_ oks
      rw [h]
      decide
  stop _ _ := stop_any _ _
  wait oks _ := wait_any _ oks
  stopAgain oks _ := stop_any _ oks
  up h := h
  down h := h

end TokimoWsl

/-! ## Agreement -/

namespace TokimoSandbox

open TokimoMachine TokimoPath TokimoMount TokimoScript
open TokimoQemu (Hosts Setup qemuParty)
open TokimoMacos (MacosSandbox macosParty)
open TokimoWsl (WslHost wslParty)

section Agreement

variable {δ σ : Type} [DecidableEq δ]

/-- The one sandbox of a configuration. -/
def alone (config : SandboxConfig σ) (dir : δ) : Setup Unit δ σ where
  config _ := config
  dir _ := dir

/-- Whatever the three backends can show for the calls, from these states, is
    the same. -/
def Agree (config : SandboxConfig σ) (dir : δ) (listed : Bool) (l : Hosts Unit δ)
    (m : MacosSandbox) (w : WslHost) (xs : List Outer) : Prop :=
  ∀ {seenL seenM seenW : List (Ending × SandboxState)},
    Shows (TokimoQemu.backend (alone config dir)) l xs seenL →
    Shows (TokimoMacos.backend config) m xs seenM →
    Shows (TokimoWsl.backend config listed) w xs seenW →
    seenL = seenM ∧ seenM = seenW

variable {config : SandboxConfig σ} {dir : δ} {listed : Bool}

/-- What the backends can do with a first call that returns, for some outcomes
    of its steps, and what then has to be equal. -/
theorem heads_of_agree {l : Hosts Unit δ} {m : MacosSandbox} {w : WslHost} {x : Outer}
    {xs : List Outer} (h : Agree config dir listed l m w (x :: xs))
    (hret : ∀ oks, (TokimoMacos.backend config).returns x.1 oks m = true) :
    ∃ oksL oksM oksW, Fits (qemuParty (alone config dir)) l x oksL
      ∧ Fits (macosParty config) m x oksM ∧ Fits (wslParty config listed) w x oksW
      ∧ ending (callNow (qemuParty (alone config dir)) () x.1 oksL l).1
          = ending (callNow (macosParty config) () x.1 oksM m).1
      ∧ TokimoQemu.view (callNow (qemuParty (alone config dir)) () x.1 oksL l).2
          = (callNow (macosParty config) () x.1 oksM m).2.state
      ∧ (callNow (macosParty config) () x.1 oksM m).2.state
          = TokimoWsl.view (callNow (wslParty config listed) () x.1 oksW w).2
      ∧ Agree config dir listed (callNow (qemuParty (alone config dir)) () x.1 oksL l).2
          (callNow (macosParty config) () x.1 oksM m).2
          (callNow (wslParty config listed) () x.1 oksW w).2 xs := by
  have hPL := TokimoQemu.canFail (u := alone config dir)
  have hPM : CanFail (macosParty config) := TokimoMacos.canFail
  have hPW : CanFail (wslParty config listed) := TokimoWsl.canFail
  obtain ⟨oksL, hL⟩ := fits_exists hPL l x
  obtain ⟨oksM, hM⟩ := fits_exists hPM m x
  obtain ⟨oksW, hW⟩ := fits_exists hPW w x
  have hrL : (TokimoQemu.backend (alone config dir)).returns x.1 oksL l = true :=
    returns_always (fun _ => rfl) _ _ _
  have hrM := hret oksM
  have hrW : (TokimoWsl.backend config listed).returns x.1 oksW w = true :=
    returns_always (fun _ => rfl) _ _ _
  obtain ⟨restL, htL⟩ := shows_exists (B := TokimoQemu.backend (alone config dir)) hPL xs
    (callNow (qemuParty (alone config dir)) () x.1 oksL l).2
  obtain ⟨restM, htM⟩ := shows_exists (B := TokimoMacos.backend config) hPM xs
    (callNow (macosParty config) () x.1 oksM m).2
  obtain ⟨restW, htW⟩ := shows_exists (B := TokimoWsl.backend config listed) hPW xs
    (callNow (wslParty config listed) () x.1 oksW w).2
  obtain ⟨hLM, hMW⟩ := h (shows_cons hL hrL htL) (shows_cons hM hrM htM) (shows_cons hW hrW htW)
  obtain ⟨hend, hview⟩ := Prod.mk.inj (List.cons.inj hLM).1
  have hview' := (Prod.mk.inj (List.cons.inj hMW).1).2
  refine ⟨oksL, oksM, oksW, hL, hM, hW, hend, hview, hview', ?_⟩
  intro seenL seenM seenW hseenL hseenM hseenW
  obtain ⟨h1, h2⟩ := h (shows_cons hL hrL hseenL) (shows_cons hM hrM hseenM)
    (shows_cons hW hrW hseenW)
  exact ⟨(List.cons.inj h1).2, (List.cons.inj h2).2⟩

/-- While the sandbox is up, a `wait` returns on Linux and not on macOS. -/
theorem wait_tells_apart {l : Hosts Unit δ} {m : MacosSandbox} {w : WslHost} {ok : Bool}
    {xs : List Outer} (hm : TokimoMacos.Up m) :
    ¬ Agree config dir listed l m w ((.wait, ok) :: xs) := by
  intro h
  have hPL := TokimoQemu.canFail (u := alone config dir)
  have hPM : CanFail (macosParty config) := TokimoMacos.canFail
  have hPW : CanFail (wslParty config listed) := TokimoWsl.canFail
  obtain ⟨oksL, hL⟩ := fits_exists hPL l (.wait, ok)
  obtain ⟨oksM, hM⟩ := fits_exists hPM m (.wait, ok)
  obtain ⟨restL, hrL⟩ := shows_exists (B := TokimoQemu.backend (alone config dir)) hPL xs
    (callNow (qemuParty (alone config dir)) () .wait oksL l).2
  obtain ⟨seenW, hsW⟩ := shows_exists (B := TokimoWsl.backend config listed) hPW
    ((.wait, ok) :: xs) w
  have hsL := shows_cons (B := TokimoQemu.backend (alone config dir)) hL
    (returns_always (fun _ => rfl) _ _ _) hrL
  have hsM := shows_never (B := TokimoMacos.backend config) xs hM
    ((TokimoMacos.wait_returns m oksM).trans (by rw [hm.2]; rfl))
  exact absurd (h hsL hsM hsW).1 (List.cons_ne_nil _ _)

/-- Once the backends are up, they agree only while there is no `wait` and no
    `stop` fails. -/
theorem settles_of_agree {xs : List Outer} {l : Hosts Unit δ} {m : MacosSandbox} {w : WslHost}
    (hl : TokimoQemu.Up l) (hm : TokimoMacos.Up m) (hw : TokimoWsl.view w = .running)
    (h : Agree config dir listed l m w xs) : Settles xs := by
  induction xs with
  | nil => exact True.intro
  | cons x xs ih =>
      obtain ⟨c, ok⟩ := x
      cases c with
      | wait => exact wait_tells_apart hm h
      | start =>
          obtain ⟨oksL, oksM, oksW, -, -, -, -, -, -, hrest⟩ :=
            heads_of_agree h (TokimoMacos.start_returns m)
          -- all three refuse and stay as they are
          have hL := (TokimoQemu.lives (u := alone config dir)).again oksL (Or.inl hl)
          have hM : (TokimoMacos.backend config).now .start oksM m
              = (.error .alreadyStarted, m) := TokimoMacos.lives.again oksM (Or.inl hm)
          have hW : (TokimoWsl.backend config listed).now .start oksW w
              = (.error .alreadyStarted, w) := TokimoWsl.lives.again oksW (Or.inl hw)
          rw [TokimoQemu.now_eq] at hL
          rw [TokimoMacos.now_eq] at hM
          rw [TokimoWsl.now_eq] at hW
          rw [hL, hM, hW] at hrest
          exact ih hrest
      | stop =>
          cases ok with
          | true => rfl
          | false =>
              obtain ⟨oksL, oksM, oksW, hfL, hfM, -, hend, -, -, hrest⟩ :=
                heads_of_agree h (TokimoMacos.stop_returns m)
              have hL := (TokimoQemu.stop_up (u := alone config dir) hl.1 oksL).1
              rw [hL, TokimoMacos.stop_fails hm hfM] at hend
              cases hend

/-- **WHERE THE BACKENDS AGREE**: whatever a caller sees of the three backends
    is the same exactly for the sequences of calls that begin with a
    successful `start`, do not wait for a sandbox before they stop it, and do
    not stop a running one in vain. -/
theorem backends_agree_iff (config : SandboxConfig σ) (dir : δ) (listed : Bool)
    (xs : List Outer) :
    Agree config dir listed .fresh {} {} xs ↔ Agreeing xs := by
  constructor
  · intro h
    cases xs with
    | nil => exact True.intro
    | cons x xs =>
        obtain ⟨c, ok⟩ := x
        have hret : ∀ oks, (TokimoMacos.backend config).returns c oks {} = true := by
          intro oks
          cases c with
          | start => exact TokimoMacos.start_returns _ oks
          | stop => exact TokimoMacos.stop_returns _ oks
          | wait => exact TokimoMacos.wait_returns _ oks
        obtain ⟨oksL, oksM, oksW, hfL, hfM, hfW, -, hLM, hMW, hrest⟩ := heads_of_agree h hret
        cases c with
        | start =>
            cases ok with
            | false =>
                rw [TokimoQemu.start_fails rfl hfL, TokimoMacos.start_fails rfl hfM] at hLM
                cases hLM
            | true =>
                refine ⟨rfl, settles_of_agree ?_ ?_ ?_ hrest⟩
                · exact ((TokimoQemu.lives (u := alone config dir)).start rfl hfL).2
                · exact (TokimoMacos.lives.start rfl hfM).2
                · exact (TokimoWsl.lives.start rfl hfW).2
        | stop =>
            -- a sandbox that was never started is stopped on WSL only
            have hL := TokimoQemu.stop_idle (u := alone config dir) (s := .fresh)
              ⟨(fun he => by cases he), (fun he => by cases he)⟩ oksL
            have heq := hLM.trans (hMW.trans (TokimoWsl.stop_any {} oksW).2)
            rw [hL] at heq
            cases heq
        | wait =>
            have hL := TokimoQemu.wait_childless (u := alone config dir) (s := .fresh) rfl oksL
            have heq := hLM.trans (hMW.trans (TokimoWsl.wait_any {} oksW).2)
            rw [hL] at heq
            cases heq
  · intro h seenL seenM seenW hL hM hW
    cases xs with
    | nil => exact ⟨hL.trans hM.symm, hM.trans hW.symm⟩
    | cons x xs =>
        obtain ⟨c, ok⟩ := x
        cases c with
        | stop => exact h.elim
        | wait => exact h.elim
        | start =>
            obtain ⟨rfl, hset⟩ := h
            have h1 := TokimoQemu.lives.shows_new rfl ⟨rfl, hset⟩ hL
            have h2 := TokimoMacos.lives.shows_new rfl ⟨rfl, hset⟩ hM
            have h3 := TokimoWsl.lives.shows_new rfl ⟨rfl, hset⟩ hW
            exact ⟨h1.trans h2.symm, h2.trans h3.symm⟩

end Agreement

/-- One failed `start`: Linux shows `Starting`, macOS `Failed`. -/
theorem failed_start_tells_apart :
    ¬ Agree demoConfig () false .fresh {} {} [(.start, false)] := by
  intro h
  obtain ⟨oksL, oksM, -, hfL, hfM, -, -, hLM, -⟩ :=
    heads_of_agree h (TokimoMacos.start_returns _)
  rw [TokimoQemu.start_fails rfl hfL, TokimoMacos.start_fails rfl hfM] at hLM
  cases hLM

/-- Started, started again, stopped, waited for and stopped again: all three
    show the same. -/
example : Agreeing
    [(.start, true), (.start, false), (.stop, true), (.wait, true), (.stop, false)] :=
  ⟨rfl, rfl⟩

end TokimoSandbox
