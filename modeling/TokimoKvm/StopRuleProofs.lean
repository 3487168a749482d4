import TokimoKvm.SandboxConfig
import TokimoKvm.ScriptProofs

/-! # What `stop` promises

    `StopCleans` is the promise, for any backend whose calls are scripts;
    `stopCleans_of` is how a backend keeps it. -/

namespace TokimoSandbox

open TokimoMachine TokimoScript

variable {ι O S V E : Type} [DecidableEq ι]

/-- Whenever `stop` has returned `Ok` to a party it is clean, and it stays
    clean, with no request served, until its `start` is called. -/
def StopCleans (P : Party ι LifeCall O S SandboxError V E)
    (cond : Calls ι LifeCall O S → Move ι LifeCall V → Prop) (s₀ : S) (clean : ι → S → Prop)
    (serves : ι → E → Prop) : Prop :=
  ∀ {st : Calls ι LifeCall O S} {tr : List (Seen ι LifeCall SandboxError E)},
    Run P.machine cond (.idle s₀) st tr →
    ∀ {l : Move ι LifeCall V} {st' : Calls ι LifeCall O S}
      {es : List (Seen ι LifeCall SandboxError E)},
      cond st l → P.machine.step st l = some (st', es) →
      ∀ k, .returned k .stop (.ok ()) ∈ es → clean k st'.now ∧
        ∀ {st'' : Calls ι LifeCall O S} {tr' : List (Seen ι LifeCall SandboxError E)},
          Run P.machine (fun st l => cond st l ∧ l ≠ .call k .start) st' st'' tr' →
          clean k st''.now ∧ ∀ e, .shown e ∈ tr' → ¬ serves k e

/-- Stopping cleans where the invariant `I` of all runs turns into the quiet
    `Q` when `stop` returns, and `Q` lasts until the next `start`. -/
theorem stopCleans_of {P : Party ι LifeCall O S SandboxError V E}
    {cond : Calls ι LifeCall O S → Move ι LifeCall V → Prop} {s₀ : S} {clean : ι → S → Prop}
    {serves : ι → E → Prop} {I Q : ι → Option (LifeCall × List O) → S → Prop}
    (hI : Keeps P cond I) (h0 : ∀ j, I j none s₀)
    (hQ : ∀ k, Keeps P (fun st l => cond st l ∧ l ≠ .call k .start) fun j p s => j = k → Q k p s)
    (hstop : ∀ {k s s'}, I k none s → P.enter k .stop s = .ok (s', []) → Q k none s')
    (hlast : ∀ {st k ok o s}, st.pending k = some (.stop, [o]) → I k (st.pending k) st.now →
      I k none s → cond st (.run k ok) →
      (ok = true ∧ s = P.done k o st.now ∨ ok = false ∧ P.failed k o st.now = some s) →
      Q k none s)
    (hclean : ∀ {k p s}, Q k p s → clean k s)
    (hserve : ∀ {k st l st' es e}, Q k (st.pending k) st.now →
      P.machine.step st l = some (st', es) → .shown e ∈ es → ¬ serves k e) :
    StopCleans P cond s₀ clean serves := by
  intro st tr hr l st' es hc hs k hm
  have hi := hI.run h0 hr
  have hi' := hI.step hi hc hs k
  have hq : Q k (st'.pending k) st'.now := by
    obtain ⟨s, rfl, hcase⟩ := returned_ok hs hm
    have hnone : (st.put k none s).pending k = none := Function.update_self ..
    rw [hnone] at hi' ⊢
    rcases hcase with ⟨-, hp, he⟩ | ⟨ok, o, rfl, hp, hdone⟩
    · exact hstop (hp ▸ hi k) he
    · exact hlast hp (hi k) hi' hc hdone
  refine ⟨hclean hq, fun {st'' tr'} hr' => ?_⟩
  have hrest : (∀ j, j = k → Q k (st''.pending j) st''.now)
      ∧ ∀ e, .shown e ∈ tr' → ¬ serves k e := by
    refine Run.invariant (I := fun st tr => (∀ j, j = k → Q k (st.pending j) st.now)
      ∧ ∀ e, .shown e ∈ tr → ¬ serves k e) ?_ ?_ hr'
    · exact ⟨fun j hj => hj ▸ hq, fun e he => nomatch he⟩
    · rintro st tr l st' es ⟨hq', hno⟩ hc' hs'
      refine ⟨fun j hj => (hQ k).step hq' hc' hs' j hj, fun e he => ?_⟩
      rcases List.mem_append.mp he with he | he
      · exact hno e he
      · exact hserve (hq' k rfl) hs' he
  exact ⟨hclean (hrest.1 k rfl), hrest.2⟩

/-- Whenever `start` has failed on its way, its error left the party in a
    state of which `left` holds. -/
def FailedStartLeaves (P : Party ι LifeCall O S SandboxError V E) (s₀ : S)
    (left : ι → S → Prop) : Prop :=
  ∀ {st : Calls ι LifeCall O S} {tr : List (Seen ι LifeCall SandboxError E)},
    Run P.machine always (.idle s₀) st tr →
    ∀ {l : Move ι LifeCall V} {st' : Calls ι LifeCall O S}
      {es : List (Seen ι LifeCall SandboxError E)}, P.machine.step st l = some (st', es) →
      ∀ k e, .returned k .start (.error e) ∈ es → e ≠ .alreadyStarted → left k st'.now

end TokimoSandbox
