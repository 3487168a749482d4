import Mathlib

/-! # Effects and machines — the two ways a program takes steps

    Sequential code that may fail and changes a state is an `Eff`: it always
    gives back the state, also when it fails.  Code that takes one labelled
    step after another, in an order somebody else chooses, is a `Machine`; a
    `Run` is what such a chooser can make it do.  `Run.invariant` is the one
    induction over runs that the rest of the development uses; `noting` writes
    down what happened on the way, and `follow` reads the events of a run with
    a monitor. -/

namespace TokimoMachine

/-- A computation over the state `S` that returns `α` or fails with `ε`. -/
def Eff (S ε α : Type) : Type := S → Except ε α × S

namespace Eff

variable {S ε ε' α β : Type}

/-- Return a value, leaving the state alone. -/
def ok (a : α) : Eff S ε α := fun s => (.ok a, s)

/-- Fail, leaving the state alone. -/
def fail (e : ε) : Eff S ε α := fun s => (.error e, s)

/-- Sequence two computations; the first failure ends both. -/
def andThen (x : Eff S ε α) (f : α → Eff S ε β) : Eff S ε β := fun s =>
  match x s with
  | (.ok a, s') => f a s'
  | (.error e, s') => (.error e, s')

/-- Translate the failures of a computation. -/
def mapErr (g : ε → ε') (x : Eff S ε α) : Eff S ε' α := fun s =>
  match x s with
  | (.ok a, s') => (.ok a, s')
  | (.error e, s') => (.error (g e), s')

/-- Put a value in the place of a failure. -/
def recover (a : α) (x : Eff S ε α) : Eff S ε' α := fun s =>
  match x s with
  | (.ok a', s') => (.ok a', s')
  | (.error _, s') => (.ok a, s')

instance : Monad (Eff S ε) where
  pure := ok
  bind := andThen

@[simp]
theorem pure_apply (a : α) (s : S) : (pure a : Eff S ε α) s = (.ok a, s) := rfl

@[simp]
theorem fail_apply (e : ε) (s : S) : (fail e : Eff S ε α) s = (.error e, s) := rfl

/-- After a success the continuation runs in the state the first part left. -/
theorem bind_of_ok {x : Eff S ε α} {f : α → Eff S ε β} {s s' : S} {a : α}
    (h : x s = (.ok a, s')) : (x >>= f) s = f a s' := by
  show andThen x f s = f a s'
  rw [andThen, h]

/-- After a failure the continuation does not run. -/
theorem bind_of_error {x : Eff S ε α} {f : α → Eff S ε β} {s s' : S} {e : ε}
    (h : x s = (.error e, s')) : (x >>= f) s = (.error e, s') := by
  show andThen x f s = (.error e, s')
  rw [andThen, h]

theorem mapErr_of_ok {g : ε → ε'} {x : Eff S ε α} {s s' : S} {a : α}
    (h : x s = (.ok a, s')) : mapErr g x s = (.ok a, s') := by
  rw [mapErr, h]

theorem mapErr_of_error {g : ε → ε'} {x : Eff S ε α} {s s' : S} {e : ε}
    (h : x s = (.error e, s')) : mapErr g x s = (.error (g e), s') := by
  rw [mapErr, h]

/-- What a sequence of two computations can have done. -/
theorem bind_cases (x : Eff S ε α) (f : α → Eff S ε β) (s : S) :
    (∃ a s', x s = (.ok a, s') ∧ (x >>= f) s = f a s')
      ∨ (∃ e s', x s = (.error e, s') ∧ (x >>= f) s = (.error e, s')) := by
  cases hx : x s with
  | mk r s' =>
      cases r with
      | ok a => exact Or.inl ⟨a, s', rfl, bind_of_ok hx⟩
      | error e => exact Or.inr ⟨e, s', rfl, bind_of_error hx⟩

/-- Only two successes make a sequence succeed. -/
theorem bind_ok {x : Eff S ε α} {f : α → Eff S ε β} {s s' : S} {b : β}
    (h : (x >>= f) s = (.ok b, s')) :
    ∃ a s₁, x s = (.ok a, s₁) ∧ f a s₁ = (.ok b, s') := by
  rcases bind_cases x f s with ⟨a, s₁, h1, h2⟩ | ⟨e, s₁, -, h2⟩
  · exact ⟨a, s₁, h1, by rw [← h2, h]⟩
  · rw [h] at h2
    exact nomatch h2

/-- Sequences may be read from either end. -/
theorem bind_bind {γ : Type} (x : Eff S ε α) (f : α → Eff S ε β) (g : β → Eff S ε γ) :
    ((x >>= f) >>= g) = x >>= fun a => f a >>= g := by
  funext s
  rcases bind_cases x f s with ⟨a, s', h1, h2⟩ | ⟨e, s', h1, h2⟩
  · rw [bind_of_ok (f := fun a => f a >>= g) h1]
    cases hf : f a s' with
    | mk r s'' =>
        rw [hf] at h2
        cases r with
        | ok b => rw [bind_of_ok h2, bind_of_ok hf]
        | error e => rw [bind_of_error h2, bind_of_error hf]
  · rw [bind_of_error h2, bind_of_error h1]

/-- Returning something else leaves the state alone. -/
theorem bind_pure_state (x : Eff S ε α) (g : α → β) (s : S) :
    ((x >>= fun a => (pure (g a) : Eff S ε β)) s).2 = (x s).2 := by
  rcases bind_cases x (fun a => (pure (g a) : Eff S ε β)) s with ⟨a, s', h1, h2⟩ | ⟨e, s', h1, h2⟩
  · rw [h2, h1]
    rfl
  · rw [h2, h1]

/-- The state after a translated failure is the state after the failure. -/
theorem mapErr_state (g : ε → ε') (x : Eff S ε α) (s : S) :
    (mapErr g x s).2 = (x s).2 := by
  cases hx : x s with
  | mk r s' =>
      cases r with
      | ok a => rw [mapErr_of_ok hx]
      | error e => rw [mapErr_of_error hx]

/-! ### Frames -/

/-- A computation leaves what `v` sees of the state alone, also when it
    fails. -/
def Frame {β : Type} (v : S → β) (x : Eff S ε α) : Prop := ∀ s, v (x s).2 = v s

variable {γ : Type} {v : S → γ}

theorem Frame.pure (a : α) : Frame v (pure a : Eff S ε α) := fun _ => rfl

theorem Frame.fail (e : ε) : Frame v (fail e : Eff S ε α) := fun _ => rfl

theorem Frame.bind {x : Eff S ε α} {f : α → Eff S ε β} (hx : Frame v x)
    (hf : ∀ a, Frame v (f a)) : Frame v (x >>= f) := by
  intro s
  rcases bind_cases x f s with ⟨a, s', h1, h2⟩ | ⟨e, s', h1, h2⟩
  · rw [h2, hf a s', ← hx s, h1]
  · rw [h2, ← hx s, h1]

theorem Frame.mapErr {x : Eff S ε α} (g : ε → ε') (hx : Frame v x) :
    Frame v (mapErr g x) := by
  intro s
  rw [mapErr_state, hx s]

theorem Frame.recover {x : Eff S ε α} (a : α) (hx : Frame v x) :
    Frame v (recover a x : Eff S ε' α) := by
  intro s
  rw [← hx s, Eff.recover]
  cases h : x s with
  | mk r s' =>
      cases r with
      | ok b => rfl
      | error e => rfl

/-! ### Invariants of a computation -/

/-- From a state with `I` a computation comes to one, also when it fails, and
    what it returns has `Q`. -/
def Keeps (I : S → Prop) (Q : α → Prop) (x : Eff S ε α) : Prop :=
  ∀ s, I s → I (x s).2 ∧ ∀ a, (x s).1 = .ok a → Q a

theorem Keeps.pure {I : S → Prop} {Q : α → Prop} {a : α} (ha : Q a) :
    Keeps I Q (pure a : Eff S ε α) := by
  intro s hs
  refine ⟨hs, fun b hb => ?_⟩
  rw [← Except.ok.inj hb]
  exact ha

theorem Keeps.bind {I : S → Prop} {P : α → Prop} {Q : β → Prop} {x : Eff S ε α}
    {f : α → Eff S ε β} (hx : Keeps I P x) (hf : ∀ a, P a → Keeps I Q (f a)) :
    Keeps I Q (x >>= f) := by
  intro s hs
  obtain ⟨hs', hp⟩ := hx s hs
  rcases bind_cases x f s with ⟨a, s', h1, h2⟩ | ⟨e, s', h1, h2⟩
  · rw [h1] at hs' hp
    rw [h2]
    exact hf a (hp a rfl) s' hs'
  · rw [h1] at hs'
    rw [h2]
    exact ⟨hs', fun b hb => nomatch hb⟩

/-- What leaves alone what `v` sees keeps what is said about that. -/
theorem Frame.keeps {J : γ → Prop} {x : Eff S ε α} (hx : Frame v x) :
    Keeps (fun s => J (v s)) (fun _ => True) x := by
  intro s hs
  refine ⟨?_, fun _ _ => True.intro⟩
  show J (v (x s).2)
  rw [hx s]
  exact hs

/-! ### How a computation fails -/

/-- Every error of a computation has `P`. -/
def Raises (P : ε → Prop) (x : Eff S ε α) : Prop := ∀ s e, (x s).1 = .error e → P e

theorem Raises.pure {P : ε → Prop} (a : α) : Raises P (pure a : Eff S ε α) :=
  fun _ _ h => nomatch h

theorem Raises.bind {P : ε → Prop} {x : Eff S ε α} {f : α → Eff S ε β} (hx : Raises P x)
    (hf : ∀ a, Raises P (f a)) : Raises P (x >>= f) := by
  intro s e h
  rcases bind_cases x f s with ⟨a, s', h1, h2⟩ | ⟨e', s', h1, h2⟩
  · rw [h2] at h
    exact hf a s' e h
  · rw [h2] at h
    rw [← Except.error.inj h]
    exact hx s e' (congrArg Prod.fst h1)

theorem Raises.mapErr {P : ε → Prop} {P' : ε' → Prop} {x : Eff S ε α} {g : ε → ε'}
    (hx : Raises P x) (hg : ∀ e, P e → P' (g e)) : Raises P' (Eff.mapErr g x) := by
  intro s e h
  rw [Eff.mapErr] at h
  cases hr : x s with
  | mk r s' =>
      rw [hr] at h
      cases r with
      | ok a => exact nomatch h
      | error e' =>
          rw [← Except.error.inj h]
          exact hg e' (hx s e' (congrArg Prod.fst hr))

/-! ### Relations along a computation -/

section Relations

/-- A computation goes from each state to a related one, also when it
    fails. -/
def Within (R : S → S → Prop) (x : Eff S ε α) : Prop := ∀ s, R s (x s).2

variable {R : S → S → Prop}

theorem Within.mapErr {x : Eff S ε α} (g : ε → ε') (hx : Within R x) :
    Within R (mapErr g x) := by
  intro s
  rw [mapErr_state]
  exact hx s

/-- What leaves alone what `v` sees stays within a relation of equal views. -/
theorem Frame.within {x : Eff S ε α} (hx : Frame v x)
    (hR : ∀ s s', v s' = v s → R s s') : Within R x :=
  fun s => hR s _ (hx s)

variable [IsPreorder S R]

theorem Within.pure (a : α) : Within R (pure a : Eff S ε α) := fun s => refl_of R s

theorem Within.fail (e : ε) : Within R (fail e : Eff S ε α) := fun s => refl_of R s

theorem Within.bind {x : Eff S ε α} {f : α → Eff S ε β} (hx : Within R x)
    (hf : ∀ a, Within R (f a)) : Within R (x >>= f) := by
  intro s
  have h0 := hx s
  rcases bind_cases x f s with ⟨a, s', h1, h2⟩ | ⟨e, s', h1, h2⟩
  · rw [h1] at h0
    rw [h2]
    exact trans_of R h0 (hf a s')
  · rw [h1] at h0
    rw [h2]
    exact h0

end Relations

end Eff

/-! ## Machines and their runs -/

/-- A system of labelled steps: in a state, a label is either not enabled or
    leads to the next state and emits events. -/
structure Machine (S L E : Type) where
  step : S → L → Option (S × List E)

variable {S L E : Type}

/-- The runs from `s₀` whose every step meets `cond`, with the events emitted
    so far.  Prefixes of runs are runs, so what holds of every run holds at
    every state reached on the way. -/
inductive Run (M : Machine S L E) (cond : S → L → Prop) (s₀ : S) :
    S → List E → Prop where
  | start : Run M cond s₀ s₀ []
  | step {s s' : S} {tr es : List E} (l : L) :
      Run M cond s₀ s tr → cond s l → M.step s l = some (s', es) →
      Run M cond s₀ s' (tr ++ es)

/-- Any choice of labels. -/
def always : S → L → Prop := fun _ _ => True

/-- **THE RUN RULE**: what holds at the start and is preserved by each step
    that meets the condition holds along every such run. -/
theorem Run.invariant {M : Machine S L E} {cond : S → L → Prop} {s₀ : S}
    {I : S → List E → Prop} (h0 : I s₀ [])
    (hstep : ∀ s tr l s' es, I s tr → cond s l → M.step s l = some (s', es) →
      I s' (tr ++ es)) :
    ∀ {s : S} {tr : List E}, Run M cond s₀ s tr → I s tr := by
  intro s tr hr
  induction hr with
  | start => exact h0
  | step l _ hc hs ih => exact hstep _ _ l _ _ ih hc hs

/-- A stronger condition allows fewer runs. -/
theorem Run.weaken {M : Machine S L E} {c d : S → L → Prop} {s₀ : S}
    (hcd : ∀ s l, c s l → d s l) :
    ∀ {s : S} {tr : List E}, Run M c s₀ s tr → Run M d s₀ s tr := by
  intro s tr hr
  induction hr with
  | start => exact Run.start
  | step l _ hc hs ih => exact Run.step l ih (hcd _ _ hc) hs

/-- A run continued from its last state. -/
theorem Run.trans {M : Machine S L E} {cond : S → L → Prop} {s₀ s₁ : S}
    {tr₁ : List E} (h1 : Run M cond s₀ s₁ tr₁) :
    ∀ {s₂ : S} {tr₂ : List E}, Run M cond s₁ s₂ tr₂ →
      Run M cond s₀ s₂ (tr₁ ++ tr₂) := by
  intro s₂ tr₂ h2
  induction h2 with
  | start => rw [List.append_nil]; exact h1
  | step l _ hc hs ih =>
      rw [← List.append_assoc]
      exact Run.step l ih hc hs

/-- Take the steps of a list of labels, one after the other. -/
def Machine.exec (M : Machine S L E) : S → List L → Option (S × List E)
  | s, [] => some (s, [])
  | s, l :: ls =>
      match M.step s l with
      | none => none
      | some (s', es) =>
          match M.exec s' ls with
          | none => none
          | some (s'', es') => some (s'', es ++ es')

/-- Every step taken for the labels meets the condition. -/
def Machine.Along (M : Machine S L E) (cond : S → L → Prop) :
    S → List L → Prop
  | _, [] => True
  | s, l :: ls =>
      cond s l ∧
        match M.step s l with
        | none => True
        | some (s', _) => M.Along cond s' ls

instance Machine.decidableAlong (M : Machine S L E) (cond : S → L → Prop)
    [∀ s l, Decidable (cond s l)] : ∀ s ls, Decidable (M.Along cond s ls)
  | _, [] => isTrue True.intro
  | s, l :: ls =>
      have : Decidable (match M.step s l with
          | none => True
          | some (s', _) => M.Along cond s' ls) :=
        match M.step s l with
        | none => isTrue True.intro
        | some (s', _) => M.decidableAlong cond s' ls
      inferInstanceAs (Decidable (cond s l ∧ _))

/-- Executing labels is a run. -/
theorem run_of_exec {M : Machine S L E} {cond : S → L → Prop} :
    ∀ (ls : List L) {s s' : S} {tr : List E}, M.Along cond s ls →
      M.exec s ls = some (s', tr) → Run M cond s s' tr := by
  intro ls
  induction ls with
  | nil =>
      intro s s' tr _ he
      obtain ⟨rfl, rfl⟩ := Prod.mk.inj (Option.some.inj he)
      exact Run.start
  | cons l ls ih =>
      intro s s' tr ha he
      obtain ⟨hc, ha'⟩ := ha
      rw [Machine.exec] at he
      cases hs : M.step s l with
      | none => rw [hs] at he; exact nomatch he
      | some y =>
          obtain ⟨s₁, es⟩ := y
          rw [hs] at he ha'
          cases hx : M.exec s₁ ls with
          | none => simp only [hx] at he; exact nomatch he
          | some z =>
              obtain ⟨s₂, es'⟩ := z
              simp only [hx] at he
              obtain ⟨rfl, rfl⟩ := Prod.mk.inj (Option.some.inj he)
              have h1 : Run M cond s s₁ ([] ++ es) := Run.step l Run.start hc hs
              exact Run.trans h1 (ih ha' hx)

/-- With no condition on the steps, executing labels is a run. -/
theorem run_of_exec_always {M : Machine S L E} {ls : List L} {s s' : S}
    {tr : List E} (he : M.exec s ls = some (s', tr)) :
    Run M always s s' tr := by
  refine run_of_exec ls ?_ he
  clear he
  induction ls generalizing s with
  | nil => exact True.intro
  | cons l ls ih =>
      refine ⟨True.intro, ?_⟩
      cases hs : M.step s l with
      | none => exact True.intro
      | some y => exact ih

/-- A condition along the labels, and one of the labels alone. -/
theorem along_and {M : Machine S L E} {cond : S → L → Prop} {P : L → Prop} :
    ∀ {ls : List L} {s : S}, M.Along cond s ls → (∀ l ∈ ls, P l) →
      M.Along (fun s l => cond s l ∧ P l) s ls := by
  intro ls
  induction ls with
  | nil => intro s _ _; exact True.intro
  | cons l ls ih =>
      intro s h hP
      refine ⟨⟨h.1, hP l (List.mem_cons_self ..)⟩, ?_⟩
      have hrest := h.2
      cases hs : M.step s l with
      | none => exact True.intro
      | some y =>
          rw [hs] at hrest
          exact ih hrest fun l hl => hP l (List.mem_cons_of_mem _ hl)

/-- The events of executed labels are the events of a run. -/
theorem run_of_trace {M : Machine S L E} {s : S} (ls : List L) (tr : List E)
    (he : (M.exec s ls).map Prod.snd = some tr) : ∃ s', Run M always s s' tr := by
  obtain ⟨⟨s', tr'⟩, hx, htr⟩ := Option.map_eq_some_iff.mp he
  have htr' : tr' = tr := htr
  rw [htr'] at hx
  exact ⟨s', run_of_exec_always hx⟩

/-! ## Taking notes along a run

    What happened on the way is not always to be seen from where a run ends.
    A machine with notes writes something down at each step and never reads
    it: it takes the same steps, and forgetting the notes gives its runs back
    as runs of the machine. -/

section

variable {G : Type}

/-- The machine that notes something at each step. -/
def Machine.noting (M : Machine S L E) (note : S → L → G → G) : Machine (S × G) L E where
  step st l := (M.step st.1 l).map fun next => ((next.1, note st.1 l st.2), next.2)

/-- A step with notes is a step, and its note. -/
theorem noting_step {M : Machine S L E} {note : S → L → G → G} {st st' : S × G} {l : L}
    {es : List E} (h : (M.noting note).step st l = some (st', es)) :
    M.step st.1 l = some (st'.1, es) ∧ st'.2 = note st.1 l st.2 := by
  obtain ⟨next, hnext, heq⟩ := Option.map_eq_some_iff.mp h
  obtain ⟨rfl, rfl⟩ := Prod.mk.inj heq
  exact ⟨hnext, rfl⟩

/-- The notes may be forgotten. -/
theorem Run.forget {M : Machine S L E} {note : S → L → G → G} {cond : S → L → Prop}
    {st₀ : S × G} : ∀ {st : S × G} {tr : List E},
      Run (M.noting note) (fun st l => cond st.1 l) st₀ st tr → Run M cond st₀.1 st.1 tr := by
  intro st tr hr
  induction hr with
  | start => exact Run.start
  | step l _ hc hs ih => exact Run.step l ih hc (noting_step hs).1

end

/-! ## Watching the events of a run

    A monitor reads events one by one and may refuse one; then the whole trace
    is refused. -/

section

variable {P : Type}

/-- Where a monitor is after some events, if it refused none of them. -/
def follow (next : P → E → Option P) : Option P → List E → Option P
  | p, [] => p
  | p, e :: es => follow next (p.bind (next · e)) es

theorem follow_append (next : P → E → Option P) :
    ∀ (tr : List E) (p : Option P) (es : List E),
      follow next p (tr ++ es) = follow next (follow next p tr) es := by
  intro tr
  induction tr with
  | nil => intro p es; rfl
  | cons e tr ih => intro p es; exact ih _ es

theorem follow_none (next : P → E → Option P) (tr : List E) : follow next none tr = none := by
  induction tr with
  | nil => rfl
  | cons e tr ih => exact ih

end

end TokimoMachine
