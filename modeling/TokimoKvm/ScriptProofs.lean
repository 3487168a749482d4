import TokimoKvm.MachineProofs

/-! # Calls as scripts — parties that work step by step amid an environment

    A party serves one call at a time.  A call is refused at once or leaves a
    script: a list of steps, each of which succeeds or fails on its own, and
    ends the call when its failure is an error.  Between any two steps of any
    party the environment may move.

    `Keeps` says what a property of one party's slot has to survive, and
    `Keeps.run` is the induction over runs that this is for.  `performs` runs
    a whole script; `callNow` is a call with nothing going on around it. -/

namespace TokimoScript

open TokimoMachine

variable {ι C O S ε V E : Type}

/-- What the parties' calls and steps do to the state they share. -/
structure Party (ι C O S ε V E : Type) where
  /-- How a call begins: an error, or the script it leaves. -/
  enter : ι → C → S → Except ε (S × List O)
  done : ι → O → S → S
  /-- What a failing step leaves, for a step that can fail. -/
  failed : ι → O → S → Option S
  /-- The error a failing step ends its call with, if it does. -/
  error : O → Option ε
  /-- Whether a step can succeed now. -/
  ready : ι → O → S → Bool
  /-- What a successful step is seen to do. -/
  shows : ι → O → S → List E
  env : V → S → Option (S × List E)

/-- The calls in progress, and the state around them. -/
structure Calls (ι C O S : Type) where
  pending : ι → Option (C × List O)
  now : S

inductive Move (ι C V : Type) where
  | call (k : ι) (c : C)
  | run (k : ι) (ok : Bool)
  | env (v : V)
  deriving DecidableEq

inductive Seen (ι C ε E : Type) where
  | returned (k : ι) (c : C) (r : Except ε Unit)
  | shown (e : E)
  deriving DecidableEq

/-- No call in progress. -/
def Calls.idle (s : S) : Calls ι C O S := { pending := fun _ => none, now := s }

/-- What is left of a call: nothing once its script is empty. -/
def rest (c : C) : List O → Option (C × List O)
  | [] => none
  | o :: os => some (c, o :: os)

theorem rest_concat (c : C) (os : List O) (o : O) :
    rest c (os ++ [o]) = some (c, os ++ [o]) := by
  cases os with
  | nil => rfl
  | cons o' os => rfl

/-- A script cut before its last step. -/
theorem concat_cases {o x : O} {os os' : List O} (h : o :: os = os' ++ [x]) :
    (o = x ∧ os = []) ∨ ∃ os'', os' = o :: os'' ∧ os = os'' ++ [x] := by
  cases os' with
  | nil =>
      obtain ⟨rfl, rfl⟩ := List.cons.inj h
      exact Or.inl ⟨rfl, rfl⟩
  | cons o' os'' =>
      obtain ⟨rfl, rfl⟩ := List.cons.inj h
      exact Or.inr ⟨os'', rfl, rfl⟩

/-- A call whose script is empty returns. -/
def farewell (k : ι) (c : C) : List O → List (Seen ι C ε E)
  | [] => [.returned k c (.ok ())]
  | _ :: _ => []

section Machines

variable [DecidableEq ι]

def Calls.put (st : Calls ι C O S) (k : ι) (p : Option (C × List O)) (s : S) : Calls ι C O S where
  pending := Function.update st.pending k p
  now := s

/-- The party goes on with what is left of its script. -/
def settle (st : Calls ι C O S) (k : ι) (c : C) (os : List O) (s : S) (shown : List E) :
    Calls ι C O S × List (Seen ι C ε E) :=
  (st.put k (rest c os) s, shown.map .shown ++ farewell k c os)

def Party.machine (P : Party ι C O S ε V E) :
    Machine (Calls ι C O S) (Move ι C V) (Seen ι C ε E) where
  step st
    | .call k c =>
        match st.pending k with
        | some _ => none
        | none =>
            match P.enter k c st.now with
            | .error e => some (st, [.returned k c (.error e)])
            | .ok (s, os) => some (settle st k c os s [])
    | .run k ok =>
        match st.pending k with
        | some (c, o :: os) =>
            match ok with
            | true =>
                if P.ready k o st.now = true then
                  some (settle st k c os (P.done k o st.now) (P.shows k o st.now))
                else none
            | false =>
                match P.failed k o st.now with
                | some s =>
                    match P.error o with
                    | some e => some (st.put k none s, [.returned k c (.error e)])
                    | none => some (settle st k c os s [])
                | none => none
        | _ => none
    | .env v =>
        match P.env v st.now with
        | some (s, es) => some ({ st with now := s }, es.map .shown)
        | none => none

/-! ### What a step can be -/

theorem call_cases {P : Party ι C O S ε V E} {st st' : Calls ι C O S} {k : ι} {c : C}
    {es : List (Seen ι C ε E)} (h : P.machine.step st (.call k c) = some (st', es)) :
    st.pending k = none ∧
      ((∃ e, P.enter k c st.now = .error e ∧ st' = st ∧ es = [.returned k c (.error e)])
        ∨ ∃ s os, P.enter k c st.now = .ok (s, os) ∧ (st', es) = settle st k c os s []) := by
  simp only [Party.machine] at h
  cases hp : st.pending k with
  | some x => rw [hp] at h; exact nomatch h
  | none =>
      rw [hp] at h
      refine ⟨rfl, ?_⟩
      cases he : P.enter k c st.now with
      | error e =>
          simp only [he] at h
          obtain ⟨rfl, rfl⟩ := Prod.mk.inj (Option.some.inj h)
          exact Or.inl ⟨e, rfl, rfl, rfl⟩
      | ok x =>
          obtain ⟨s, os⟩ := x
          simp only [he] at h
          exact Or.inr ⟨s, os, rfl, (Option.some.inj h).symm⟩

theorem run_cases {P : Party ι C O S ε V E} {st st' : Calls ι C O S} {k : ι} {ok : Bool}
    {es : List (Seen ι C ε E)} (h : P.machine.step st (.run k ok) = some (st', es)) :
    ∃ c o os, st.pending k = some (c, o :: os) ∧
      ((ok = true ∧ P.ready k o st.now = true
          ∧ (st', es) = settle st k c os (P.done k o st.now) (P.shows k o st.now))
        ∨ (ok = false ∧ ∃ s, P.failed k o st.now = some s
          ∧ ((∃ e, P.error o = some e ∧ st' = st.put k none s ∧ es = [.returned k c (.error e)])
            ∨ (P.error o = none ∧ (st', es) = settle st k c os s [])))) := by
  simp only [Party.machine] at h
  cases hp : st.pending k with
  | none => rw [hp] at h; exact nomatch h
  | some x =>
      obtain ⟨c, os'⟩ := x
      cases os' with
      | nil => rw [hp] at h; exact nomatch h
      | cons o os =>
          rw [hp] at h
          refine ⟨c, o, os, rfl, ?_⟩
          cases ok with
          | true =>
              by_cases hr : P.ready k o st.now = true
              · simp only [if_pos hr] at h
                exact Or.inl ⟨rfl, hr, (Option.some.inj h).symm⟩
              · simp only [if_neg hr] at h
                exact nomatch h
          | false =>
              cases hf : P.failed k o st.now with
              | none => simp only [hf] at h; exact nomatch h
              | some s =>
                  refine Or.inr ⟨rfl, s, rfl, ?_⟩
                  cases he : P.error o with
                  | some e =>
                      simp only [hf, he] at h
                      obtain ⟨rfl, rfl⟩ := Prod.mk.inj (Option.some.inj h)
                      exact Or.inl ⟨e, rfl, rfl, rfl⟩
                  | none =>
                      simp only [hf, he] at h
                      exact Or.inr ⟨rfl, (Option.some.inj h).symm⟩

theorem env_cases {P : Party ι C O S ε V E} {st st' : Calls ι C O S} {v : V}
    {es : List (Seen ι C ε E)} (h : P.machine.step st (.env v) = some (st', es)) :
    ∃ s vs, P.env v st.now = some (s, vs) ∧ st' = { st with now := s } ∧ es = vs.map .shown := by
  simp only [Party.machine] at h
  cases hv : P.env v st.now with
  | none => rw [hv] at h; exact nomatch h
  | some x =>
      obtain ⟨s, vs⟩ := x
      rw [hv] at h
      obtain ⟨rfl, rfl⟩ := Prod.mk.inj (Option.some.inj h)
      exact ⟨s, vs, rfl, rfl, rfl⟩

/-- Only a call itself and the last step of its script return `Ok`. -/
theorem returned_ok {P : Party ι C O S ε V E} {st st' : Calls ι C O S} {l : Move ι C V}
    {es : List (Seen ι C ε E)} (hs : P.machine.step st l = some (st', es)) {k : ι} {c : C}
    (hm : .returned k c (.ok ()) ∈ es) :
    ∃ s, st' = st.put k none s ∧
      ((l = .call k c ∧ st.pending k = none ∧ P.enter k c st.now = .ok (s, []))
        ∨ ∃ ok o, l = .run k ok ∧ st.pending k = some (c, [o])
          ∧ (ok = true ∧ s = P.done k o st.now ∨ ok = false ∧ P.failed k o st.now = some s)) := by
  -- an event of a settled step is the farewell of an empty script
  have hsettle : ∀ {j : ι} {c' : C} {os : List O} {s : S} {shown : List E},
      (st', es) = settle st j c' os s shown →
        j = k ∧ c' = c ∧ os = [] ∧ st' = st.put j none s := by
    intro j c' os s shown heq
    obtain ⟨rfl, rfl⟩ := Prod.mk.inj heq
    rcases List.mem_append.mp hm with hm | hm
    · obtain ⟨e, -, he⟩ := List.mem_map.mp hm
      exact nomatch he
    · cases os with
      | cons o os => exact nomatch hm
      | nil =>
          obtain ⟨rfl, rfl, -⟩ := Seen.returned.inj (List.mem_singleton.mp hm)
          exact ⟨rfl, rfl, rfl, rfl⟩
  cases l with
  | call j c' =>
      obtain ⟨hp, ⟨e, -, -, rfl⟩ | ⟨s, os, he, heq⟩⟩ := call_cases hs
      · exact nomatch (Seen.returned.inj (List.mem_singleton.mp hm)).2.2
      · obtain ⟨rfl, rfl, rfl, hst⟩ := hsettle heq
        exact ⟨s, hst, Or.inl ⟨rfl, hp, he⟩⟩
  | run j ok =>
      obtain ⟨c', o, os, hp, hcase⟩ := run_cases hs
      rcases hcase with ⟨rfl, -, heq⟩ | ⟨rfl, s, hf, ⟨e, -, -, rfl⟩ | ⟨-, heq⟩⟩
      · obtain ⟨rfl, rfl, rfl, hst⟩ := hsettle heq
        exact ⟨_, hst, Or.inr ⟨true, o, rfl, hp, Or.inl ⟨rfl, rfl⟩⟩⟩
      · exact nomatch (Seen.returned.inj (List.mem_singleton.mp hm)).2.2
      · obtain ⟨rfl, rfl, rfl, hst⟩ := hsettle heq
        exact ⟨s, hst, Or.inr ⟨false, o, rfl, hp, Or.inr ⟨rfl, hf⟩⟩⟩
  | env v =>
      obtain ⟨s, vs, -, -, rfl⟩ := env_cases hs
      obtain ⟨e, -, he⟩ := List.mem_map.mp hm
      exact nomatch he

/-- A call returns an error that refuses it, or the error of a failing step. -/
theorem returned_error {P : Party ι C O S ε V E} {st st' : Calls ι C O S} {l : Move ι C V}
    {es : List (Seen ι C ε E)} (hs : P.machine.step st l = some (st', es)) {k : ι} {c : C} {e : ε}
    (hm : .returned k c (.error e) ∈ es) :
    (P.enter k c st.now = .error e ∧ st' = st)
      ∨ ∃ o os s, l = .run k false ∧ st.pending k = some (c, o :: os) ∧ P.error o = some e
          ∧ P.failed k o st.now = some s ∧ st' = st.put k none s := by
  have hsettle : ∀ {j : ι} {c' : C} {os : List O} {s : S} {shown : List E},
      (st', es) = settle st j c' os s shown → False := by
    intro j c' os s shown heq
    obtain ⟨rfl, rfl⟩ := Prod.mk.inj heq
    rcases List.mem_append.mp hm with hm | hm
    · obtain ⟨e, -, he⟩ := List.mem_map.mp hm
      exact nomatch he
    · cases os with
      | cons o os => exact nomatch hm
      | nil => exact nomatch (Seen.returned.inj (List.mem_singleton.mp hm)).2.2
  cases l with
  | call j c' =>
      obtain ⟨hp, ⟨e', he, rfl, rfl⟩ | ⟨s, os, he, heq⟩⟩ := call_cases hs
      · obtain ⟨rfl, rfl, hr⟩ := Seen.returned.inj (List.mem_singleton.mp hm)
        rw [Except.error.inj hr]
        exact Or.inl ⟨he, rfl⟩
      · exact (hsettle heq).elim
  | run j ok =>
      obtain ⟨c', o, os, hp, hcase⟩ := run_cases hs
      rcases hcase with ⟨rfl, -, heq⟩ | ⟨rfl, s, hf, ⟨e', he, rfl, rfl⟩ | ⟨-, heq⟩⟩
      · exact (hsettle heq).elim
      · obtain ⟨rfl, rfl, hr⟩ := Seen.returned.inj (List.mem_singleton.mp hm)
        rw [Except.error.inj hr]
        exact Or.inr ⟨o, os, s, rfl, hp, he, hf, rfl⟩
      · exact (hsettle heq).elim
  | env v =>
      obtain ⟨s, vs, -, -, rfl⟩ := env_cases hs
      obtain ⟨e', -, he⟩ := List.mem_map.mp hm
      exact nomatch he

/-- What is shown is shown by a successful step or by the environment. -/
theorem shown_cases {P : Party ι C O S ε V E} {st st' : Calls ι C O S} {l : Move ι C V}
    {es : List (Seen ι C ε E)} (hs : P.machine.step st l = some (st', es)) {e : E}
    (hm : .shown e ∈ es) :
    (∃ k c o os, l = .run k true ∧ st.pending k = some (c, o :: os)
        ∧ P.ready k o st.now = true ∧ e ∈ P.shows k o st.now)
      ∨ ∃ v s vs, l = .env v ∧ P.env v st.now = some (s, vs) ∧ e ∈ vs := by
  have hshown : ∀ {vs : List E}, .shown e ∈ (vs.map .shown : List (Seen ι C ε E)) →
      e ∈ vs := by
    intro vs h
    obtain ⟨e', he', heq⟩ := List.mem_map.mp h
    rw [← Seen.shown.inj heq]
    exact he'
  have hfare : ∀ {k : ι} {c : C} {os : List O},
      .shown e ∉ (farewell k c os : List (Seen ι C ε E)) := by
    intro k c os h
    cases os with
    | nil => exact nomatch List.mem_singleton.mp h
    | cons o os => exact nomatch h
  cases l with
  | call k c =>
      obtain ⟨-, ⟨_, -, -, rfl⟩ | ⟨s, os, -, heq⟩⟩ := call_cases hs
      · exact nomatch List.mem_singleton.mp hm
      · obtain ⟨-, rfl⟩ := Prod.mk.inj heq
        exact absurd hm hfare
  | run k ok =>
      obtain ⟨c, o, os, hp, hcase⟩ := run_cases hs
      rcases hcase with ⟨rfl, hr, heq⟩ | ⟨-, s, -, ⟨_, -, -, rfl⟩ | ⟨-, heq⟩⟩
      · obtain ⟨-, rfl⟩ := Prod.mk.inj heq
        rcases List.mem_append.mp hm with hm | hm
        · exact Or.inl ⟨k, c, o, os, rfl, hp, hr, hshown hm⟩
        · exact absurd hm hfare
      · exact nomatch List.mem_singleton.mp hm
      · obtain ⟨-, rfl⟩ := Prod.mk.inj heq
        exact absurd hm hfare
  | env v =>
      obtain ⟨s, vs, hv, -, rfl⟩ := env_cases hs
      exact Or.inr ⟨v, s, vs, rfl, hv, hshown hm⟩

/-! ### Properties of one party's slot -/

/-- A property of a slot (the call it has in progress) and the state survives
    whatever happens under `cond`: the steps of the party itself, those of
    the others, and the environment. -/
structure Keeps (P : Party ι C O S ε V E) (cond : Calls ι C O S → Move ι C V → Prop)
    (I : ι → Option (C × List O) → S → Prop) : Prop where
  enter : ∀ {st k c s os}, I k none st.now → cond st (.call k c) →
    P.enter k c st.now = .ok (s, os) → I k (rest c os) s
  done : ∀ {st k c o os}, st.pending k = some (c, o :: os) → I k (some (c, o :: os)) st.now →
    cond st (.run k true) → P.ready k o st.now = true → I k (rest c os) (P.done k o st.now)
  broken : ∀ {st k c o os e s}, I k (some (c, o :: os)) st.now → cond st (.run k false) →
    P.failed k o st.now = some s → P.error o = some e → I k none s
  failed : ∀ {st k c o os s}, st.pending k = some (c, o :: os) →
    I k (some (c, o :: os)) st.now → cond st (.run k false) → P.failed k o st.now = some s →
    P.error o = none → I k (rest c os) s
  enterElse : ∀ {j k c s s' os p}, j ≠ k → I j p s → P.enter k c s = .ok (s', os) → I j p s'
  doneElse : ∀ {j k o s p}, j ≠ k → I j p s → P.ready k o s = true → I j p (P.done k o s)
  failedElse : ∀ {j k o s s' p}, j ≠ k → I j p s → P.failed k o s = some s' → I j p s'
  env : ∀ {j v s s' es p}, I j p s → P.env v s = some (s', es) → I j p s'

variable {P : Party ι C O S ε V E} {cond : Calls ι C O S → Move ι C V → Prop}
  {I : ι → Option (C × List O) → S → Prop}

/-- What a change of one slot leaves to show. -/
theorem put_slots {st : Calls ι C O S} {k : ι} {p : Option (C × List O)} {s : S}
    (hown : I k p s) (helse : ∀ j, j ≠ k → I j (st.pending j) s) (j : ι) :
    I j ((st.put k p s).pending j) (st.put k p s).now := by
  show I j (Function.update st.pending k p j) s
  by_cases hj : j = k
  · subst hj
    rw [Function.update_self]
    exact hown
  · rw [Function.update_of_ne hj]
    exact helse j hj

/-- The step lemma: one step keeps the property in every slot. -/
theorem Keeps.step (hK : Keeps P cond I) {st st' : Calls ι C O S} {l : Move ι C V}
    {es : List (Seen ι C ε E)} (hi : ∀ j, I j (st.pending j) st.now) (hc : cond st l)
    (hs : P.machine.step st l = some (st', es)) (j : ι) : I j (st'.pending j) st'.now := by
  cases l with
  | call k c =>
      obtain ⟨hp, ⟨e, -, rfl, -⟩ | ⟨s, os, he, heq⟩⟩ := call_cases hs
      · exact hi j
      · rw [(Prod.mk.inj heq).1]
        have hk := hi k
        rw [hp] at hk
        exact put_slots (hK.enter hk hc he) (fun i hne => hK.enterElse hne (hi i) he) j
  | run k ok =>
      obtain ⟨c, o, os, hp, hcase⟩ := run_cases hs
      have hk := hi k
      rw [hp] at hk
      rcases hcase with ⟨rfl, hr, heq⟩ | ⟨rfl, s, hf, ⟨e, he, rfl, -⟩ | ⟨he, heq⟩⟩
      · rw [(Prod.mk.inj heq).1]
        exact put_slots (hK.done hp hk hc hr) (fun i hne => hK.doneElse hne (hi i) hr) j
      · exact put_slots (hK.broken hk hc hf he) (fun i hne => hK.failedElse hne (hi i) hf) j
      · rw [(Prod.mk.inj heq).1]
        exact put_slots (hK.failed hp hk hc hf he) (fun i hne => hK.failedElse hne (hi i) hf) j
  | env v =>
      obtain ⟨s, vs, hv, rfl, -⟩ := env_cases hs
      exact hK.env (hi j) hv

/-- **THE SLOT RULE**: a property of slots that holds at the start and is kept
    holds in every slot along every run. -/
theorem Keeps.run (hK : Keeps P cond I) {st₀ : Calls ι C O S}
    (h0 : ∀ j, I j (st₀.pending j) st₀.now) {st : Calls ι C O S} {tr : List (Seen ι C ε E)}
    (hr : Run P.machine cond st₀ st tr) : ∀ j, I j (st.pending j) st.now :=
  Run.invariant (I := fun st _ => ∀ j, I j (st.pending j) st.now) h0
    (fun _ _ _ _ _ hi hc hs => hK.step hi hc hs) hr

/-! ### Whole scripts -/

/-- Each step of a script can succeed when its turn comes, if nothing else
    happens. -/
def ReadyAlong (P : Party ι C O S ε V E) (k : ι) : List O → S → Prop
  | [], _ => True
  | o :: os, s => P.ready k o s = true ∧ ReadyAlong P k os (P.done k o s)

/-- The state after a script whose steps all succeed. -/
def after (P : Party ι C O S ε V E) (k : ι) (os : List O) (s : S) : S :=
  os.foldl (fun s o => P.done k o s) s

omit [DecidableEq ι] in
theorem after_append {k : ι} (os os' : List O) (s : S) :
    after P k (os ++ os') s = after P k os' (after P k os s) := List.foldl_append

omit [DecidableEq ι] in
theorem readyAlong_append {k : ι} (os os' : List O) (s : S) :
    ReadyAlong P k (os ++ os') s ↔ ReadyAlong P k os s ∧ ReadyAlong P k os' (after P k os s) := by
  induction os generalizing s with
  | nil => exact ⟨fun h => ⟨True.intro, h⟩, fun h => h.2⟩
  | cons o os ih =>
      constructor
      · rintro ⟨hr, hrest⟩
        obtain ⟨h1, h2⟩ := (ih _).mp hrest
        exact ⟨⟨hr, h1⟩, h2⟩
      · rintro ⟨⟨hr, h1⟩, h2⟩
        exact ⟨hr, (ih _).mpr ⟨h1, h2⟩⟩

/-- A party that is at a script whose steps can succeed can go through its
    first part. -/
theorem performs {k : ι} {c : C} (os : List O) {o' : O} {os' : List O} :
    ∀ {st : Calls ι C O S}, st.pending k = some (c, os ++ o' :: os') →
      ReadyAlong P k os st.now →
      ∃ tr, Run P.machine always st (st.put k (some (c, o' :: os')) (after P k os st.now)) tr := by
  induction os with
  | nil =>
      intro st hp _
      have hput : st.put k (some (c, o' :: os')) (after P k [] st.now) = st := by
        show Calls.mk (Function.update st.pending k (some (c, o' :: os'))) st.now = st
        rw [Function.update_eq_self_iff.mpr hp.symm]
      rw [hput]
      exact ⟨[], Run.start⟩
  | cons o os ih =>
      rintro st hp ⟨hr, hrest⟩
      let st₁ := st.put k (some (c, os ++ o' :: os')) (P.done k o st.now)
      have hp₁ : st₁.pending k = some (c, os ++ o' :: os') := Function.update_self ..
      have hstep : P.machine.step st (.run k true) = some (settle st k c (os ++ o' :: os')
          (P.done k o st.now) (P.shows k o st.now)) := by
        simp only [Party.machine, hp, List.cons_append, if_pos hr]
      have hne : rest c (os ++ o' :: os') = some (c, os ++ o' :: os') := by
        cases os with
        | nil => rfl
        | cons o os => rfl
      have hrun : Run P.machine always st st₁ ([] ++ _) :=
        Run.step _ Run.start True.intro (hstep.trans (by rw [settle, hne]))
      obtain ⟨tr, htr⟩ := ih hp₁ hrest
      have hput : st₁.put k (some (c, o' :: os')) (after P k os st₁.now)
          = st.put k (some (c, o' :: os')) (after P k (o :: os) st.now) := by
        show Calls.mk (Function.update (Function.update _ _ _) _ _) _ = Calls.mk _ _
        rw [Function.update_idem]
        rfl
      rw [hput] at htr
      exact ⟨_, Run.trans hrun htr⟩

end Machines

/-! ### Calls with nothing around them -/

/-- Go through a script.  The list says which steps succeed; those beyond its
    end do, and those that cannot fail. -/
def perform (P : Party ι C O S ε V E) (k : ι) : List O → List Bool → S → Except ε Unit × S
  | [], _, s => (.ok (), s)
  | o :: os, oks, s =>
      match oks.headD true, P.failed k o s with
      | false, some s' =>
          match P.error o with
          | some e => (.error e, s')
          | none => perform P k os oks.tail s'
      | _, _ => perform P k os oks.tail (P.done k o s)

/-- A call with nothing around it: its error, or its script to the end. -/
def callNow (P : Party ι C O S ε V E) (k : ι) (c : C) (oks : List Bool) (s : S) :
    Except ε Unit × S :=
  match P.enter k c s with
  | .error e => (.error e, s)
  | .ok (s', os) => perform P k os oks s'

/-- Whether a performance comes to its end, when only some of the steps do: a
    step that does not end neither succeeds nor fails. -/
def finishes (P : Party ι C O S ε V E) (ends : O → Bool) (k : ι) :
    List O → List Bool → S → Bool
  | [], _, _ => true
  | o :: os, oks, s =>
      ends o &&
        match oks.headD true, P.failed k o s with
        | false, some s' =>
            match P.error o with
            | some _ => true
            | none => finishes P ends k os oks.tail s'
        | _, _ => finishes P ends k os oks.tail (P.done k o s)

/-- Whether a call returns. -/
def returns (P : Party ι C O S ε V E) (ends : O → Bool) (k : ι) (c : C) (oks : List Bool)
    (s : S) : Bool :=
  match P.enter k c s with
  | .error _ => true
  | .ok (s', os) => finishes P ends k os oks s'

section Performing

variable {P : Party ι C O S ε V E} {k : ι}

/-- A script of steps that all end is gone through. -/
theorem finishes_of_ends {ends : O → Bool} {os : List O} (h : ∀ o ∈ os, ends o = true)
    (oks : List Bool) (s : S) : finishes P ends k os oks s = true := by
  induction os generalizing oks s with
  | nil => rfl
  | cons o os ih =>
      have ih' := ih (fun o ho => h o (List.mem_cons_of_mem _ ho)) oks.tail
      rw [finishes, h o (List.mem_cons_self ..), Bool.true_and]
      split
      · split
        · rfl
        · exact ih' _
      · exact ih' _

/-- A step that does not end keeps its call from returning. -/
theorem finishes_never {ends : O → Bool} {o : O} (h : ends o = false) (os : List O)
    (oks : List Bool) (s : S) : finishes P ends k (o :: os) oks s = false := by
  rw [finishes, h, Bool.false_and]

theorem returns_of_ok {ends : O → Bool} {c : C} {s s' : S} {os : List O}
    (h : P.enter k c s = .ok (s', os)) (oks : List Bool) :
    returns P ends k c oks s = finishes P ends k os oks s' := by
  rw [returns, h]

theorem returns_of_error {ends : O → Bool} {c : C} {s : S} {e : ε}
    (h : P.enter k c s = .error e) (oks : List Bool) : returns P ends k c oks s = true := by
  rw [returns, h]

/-- Where every step ends, every call returns. -/
theorem returns_always {ends : O → Bool} (h : ∀ o, ends o = true) (c : C) (oks : List Bool)
    (s : S) : returns P ends k c oks s = true := by
  rw [returns]
  split
  · rfl
  · exact finishes_of_ends (fun o _ => h o) oks _

theorem callNow_of_ok {c : C} {s s' : S} {os : List O} (h : P.enter k c s = .ok (s', os))
    (oks : List Bool) : callNow P k c oks s = perform P k os oks s' := by
  rw [callNow, h]

theorem callNow_of_error {c : C} {s : S} {e : ε} (h : P.enter k c s = .error e)
    (oks : List Bool) : callNow P k c oks s = (.error e, s) := by
  rw [callNow, h]

theorem perform_cons_true (o : O) (os : List O) {oks : List Bool} (s : S)
    (h : oks.headD true = true) :
    perform P k (o :: os) oks s = perform P k os oks.tail (P.done k o s) := by
  rw [perform, h]

/-- A script whose steps all succeed. -/
theorem perform_all {oks : List Bool} (h : ∀ b ∈ oks, b = true) (os : List O) (s : S) :
    perform P k os oks s = (.ok (), after P k os s) := by
  induction os generalizing oks s with
  | nil => rfl
  | cons o os ih =>
      have hhead : oks.headD true = true := by
        cases oks with
        | nil => rfl
        | cons b oks => exact h b (List.mem_cons_self ..)
      rw [perform_cons_true o os s hhead, ih (fun b hb => h b (List.mem_of_mem_tail hb))]
      rfl

/-- What one step of a performance can be. -/
theorem perform_cons_cases (o : O) (os : List O) (oks : List Bool) (s : S) :
    perform P k (o :: os) oks s = perform P k os oks.tail (P.done k o s)
      ∨ ∃ s', P.failed k o s = some s' ∧
        ((∃ e, P.error o = some e ∧ perform P k (o :: os) oks s = (.error e, s'))
          ∨ (P.error o = none ∧ perform P k (o :: os) oks s = perform P k os oks.tail s')) := by
  cases hb : oks.headD true with
  | true => exact Or.inl (perform_cons_true o os s hb)
  | false =>
      cases hf : P.failed k o s with
      | none =>
          left
          simp only [perform, hb, hf]
      | some s' =>
          refine Or.inr ⟨s', rfl, ?_⟩
          cases he : P.error o with
          | none => exact Or.inr ⟨rfl, by simp only [perform, hb, hf, he]⟩
          | some e => exact Or.inl ⟨e, rfl, by simp only [perform, hb, hf, he]⟩

/-- An error is that of a failing step. -/
theorem perform_error {os : List O} {oks : List Bool} {s s' : S} {e : ε}
    (h : perform P k os oks s = (.error e, s')) :
    ∃ o ∈ os, ∃ s₁, P.error o = some e ∧ P.failed k o s₁ = some s' := by
  induction os generalizing oks s with
  | nil => exact nomatch h
  | cons o os ih =>
      rcases perform_cons_cases (P := P) (k := k) o os oks s with
        hp | ⟨s₁, hf, ⟨e', he, hp⟩ | ⟨-, hp⟩⟩
      · obtain ⟨o', ho', hrest⟩ := ih (hp.symm.trans h)
        exact ⟨o', List.mem_cons_of_mem _ ho', hrest⟩
      · obtain ⟨he', rfl⟩ := Prod.mk.inj (hp.symm.trans h)
        rw [Except.error.inj he'] at he
        exact ⟨o, List.mem_cons_self .., s, he, hf⟩
      · obtain ⟨o', ho', hrest⟩ := ih (hp.symm.trans h)
        exact ⟨o', List.mem_cons_of_mem _ ho', hrest⟩

/-- What the steps before a last one keep is there when one of them ends the
    call. -/
theorem perform_error_keeps {J : S → Prop} {os : List O} {x : O} (hx : P.error x = none)
    (hdone : ∀ o ∈ os, ∀ s, J s → J (P.done k o s))
    (hfailed : ∀ o ∈ os, ∀ s s', J s → P.failed k o s = some s' → J s')
    {oks : List Bool} {s s' : S} {e : ε} (hs : J s)
    (h : perform P k (os ++ [x]) oks s = (.error e, s')) : J s' := by
  induction os generalizing oks s with
  | nil =>
      obtain ⟨o, ho, s₁, he, -⟩ := perform_error h
      rw [List.mem_singleton.mp ho, hx] at he
      exact nomatch he
  | cons o os ih =>
      have ih' : ∀ {oks : List Bool} {s : S}, J s →
          perform P k (os ++ [x]) oks s = (.error e, s') → J s' :=
        ih (fun o ho => hdone o (List.mem_cons_of_mem _ ho))
          (fun o ho => hfailed o (List.mem_cons_of_mem _ ho))
      have ho := List.mem_cons_self (a := o) (l := os)
      rcases perform_cons_cases (P := P) (k := k) o (os ++ [x]) oks s with
        hp | ⟨s₁, hf, ⟨e', he, hp⟩ | ⟨-, hp⟩⟩
      · exact ih' (hdone o ho s hs) (hp.symm.trans h)
      · obtain ⟨-, rfl⟩ := Prod.mk.inj (hp.symm.trans h)
        exact hfailed o ho s _ hs hf
      · exact ih' (hfailed o ho s s₁ hs hf) (hp.symm.trans h)

/-- A last step that cannot fail. -/
theorem perform_single {x : O} (hx : ∀ s, P.failed k x s = none) (oks : List Bool) (s : S) :
    perform P k [x] oks s = (.ok (), P.done k x s) := by
  rcases perform_cons_cases (P := P) (k := k) x [] oks s with hp | ⟨s', hf, -⟩
  · exact hp
  · rw [hx] at hf
    exact nomatch hf

/-- A script none of whose steps can end it comes to its last step. -/
theorem perform_quiet {os : List O} {x : O} (hos : ∀ o ∈ os, P.error o = none)
    (hx : ∀ s, P.failed k x s = none) (oks : List Bool) (s : S) :
    ∃ s₁, perform P k (os ++ [x]) oks s = (.ok (), P.done k x s₁) := by
  induction os generalizing oks s with
  | nil => exact ⟨s, perform_single hx oks s⟩
  | cons o os ih =>
      have ih' := ih (fun o ho => hos o (List.mem_cons_of_mem _ ho))
      rcases perform_cons_cases (P := P) (k := k) o (os ++ [x]) oks s with
        hp | ⟨s', -, ⟨e, he, -⟩ | ⟨-, hp⟩⟩
      · obtain ⟨s₁, h⟩ := ih' oks.tail (P.done k o s)
        exact ⟨s₁, hp.trans h⟩
      · rw [hos o (List.mem_cons_self ..)] at he
        exact nomatch he
      · obtain ⟨s₁, h⟩ := ih' oks.tail s'
        exact ⟨s₁, hp.trans h⟩

/-- A script with a step whose error ends it can end so. -/
theorem perform_can_fail (hfail : ∀ o s, (P.error o).isSome → (P.failed k o s).isSome)
    {os : List O} (h : ∃ o ∈ os, (P.error o).isSome) (s : S) :
    ∃ oks e s', perform P k os oks s = (.error e, s') := by
  induction os generalizing s with
  | nil =>
      obtain ⟨o, ho, -⟩ := h
      exact nomatch ho
  | cons o os ih =>
      cases he : P.error o with
      | some e =>
          obtain ⟨s', hs'⟩ := Option.isSome_iff_exists.mp (hfail o s (by rw [he]; rfl))
          exact ⟨[false], e, s', by simp only [perform, List.headD, hs', he]⟩
      | none =>
          have hrest : ∃ o ∈ os, (P.error o).isSome := by
            obtain ⟨o', ho', herr⟩ := h
            rcases List.mem_cons.mp ho' with rfl | ho'
            · rw [he] at herr
              exact nomatch herr
            · exact ⟨o', ho', herr⟩
          obtain ⟨oks, e, s', hp⟩ := ih hrest (P.done k o s)
          exact ⟨true :: oks, e, s', hp⟩

end Performing

end TokimoScript
