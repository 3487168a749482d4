import TokimoKvm.MachineProofs

/-! # Programs that make calls

    A program that blocks on a call can be cut there: what is left of it is a
    function of the reply.  `run` has every call answered at once; where a
    program is when some of its calls have been answered is `Reaches`; and
    `Answered` is a run against something that may answer in several ways.
    A step that relates the two kinds of answers relates whole runs. -/

namespace TokimoMachine

/-- A program whose calls are of type `C`, with replies of type `R`. -/
inductive Prog (C R α : Type) where
  | done (a : α)
  | ask (c : C) (k : R → Prog C R α)

namespace Prog

variable {C R α σ τ : Type} {f : σ → C → R × σ} {p q : Prog C R α} {s s' : σ}

def run (f : σ → C → R × σ) : Prog C R α → σ → α × σ
  | .done a, s => (a, s)
  | .ask c k, s => (k (f s c).1).run f (f s c).2

/-- From `p` in `s`, after some answers, `q` is left in `s'`. -/
inductive Reaches (f : σ → C → R × σ) (p : Prog C R α) (s : σ) : Prog C R α → σ → Prop where
  | start : Reaches f p s p s
  | step {c : C} {k : R → Prog C R α} {s' : σ} :
      Reaches f p s (.ask c k) s' → Reaches f p s (k (f s' c).1) (f s' c).2

/-- What is left of a program ends as the program does. -/
theorem Reaches.run (h : Reaches f p s q s') : p.run f s = q.run f s' := by
  induction h with
  | start => rfl
  | step _ ih => exact ih

/-- Every call the program can come to has `Q`. -/
def Calls (Q : C → Prop) : Prog C R α → Prop
  | .done _ => True
  | .ask c k => Q c ∧ ∀ r, (k r).Calls Q

theorem Reaches.calls {Q : C → Prop} (h : Reaches f p s q s') (hp : p.Calls Q) : q.Calls Q := by
  induction h with
  | start => exact hp
  | step _ ih => exact ih.2 _

/-- The program makes `n` calls at most. -/
def AtMost : Nat → Prog C R α → Prop
  | _, .done _ => True
  | 0, .ask _ _ => False
  | n + 1, .ask _ k => ∀ r, (k r).AtMost n

theorem AtMost.mono (p : Prog C R α) : ∀ {n m : Nat}, p.AtMost n → n ≤ m → p.AtMost m := by
  induction p with
  | done a =>
      intro n m _ _
      cases m with
      | zero => exact True.intro
      | succ m => exact True.intro
  | ask c k ih =>
      intro n m h hle
      cases n with
      | zero => exact h.elim
      | succ n =>
          cases m with
          | zero => exact absurd hle (Nat.not_succ_le_zero n)
          | succ m => exact fun r => ih r (h r) (Nat.le_of_succ_le_succ hle)

theorem Reaches.atMost {n : Nat} (h : Reaches f p s q s') (hp : p.AtMost n) : q.AtMost n := by
  induction h with
  | start => exact hp
  | step h ih =>
      cases n with
      | zero => exact ih.elim
      | succ n => exact AtMost.mono _ (ih _) (Nat.le_succ n)

/-- A run whose calls are answered as `A` allows. -/
inductive Answered (A : τ → C → R → τ → Prop) : Prog C R α → τ → α → τ → Prop where
  | done {a : α} {t : τ} : Answered A (.done a) t a t
  | ask {c : C} {k : R → Prog C R α} {r : R} {a : α} {t t' t'' : τ} :
      A t c r t' → Answered A (k r) t' a t'' → Answered A (.ask c k) t a t''

section Related

variable {A : τ → C → R → τ → Prop} {J : σ → τ → Prop} {Q : C → Prop}
  (hstep : ∀ {c : C} {s : σ} {t : τ}, Q c → J s t → ∃ t', A t c (f s c).1 t' ∧ J (f s c).2 t')
include hstep

/-- **ONE CALL TO WHOLE PROGRAMS**: if related states answer alike, a program
    ends alike. -/
theorem Calls.answered (p : Prog C R α) : ∀ {s : σ} {t : τ}, p.Calls Q → J s t →
    ∃ t', Answered A p t (p.run f s).1 t' ∧ J (p.run f s).2 t' := by
  induction p with
  | done a => exact fun {s t} _ hj => ⟨t, .done, hj⟩
  | ask c k ih =>
      intro s t hc hj
      obtain ⟨t₁, hA, hj₁⟩ := hstep hc.1 hj
      obtain ⟨t₂, hrest, hj₂⟩ := ih _ (hc.2 _) hj₁
      exact ⟨t₂, .ask hA hrest, hj₂⟩

/-- Also half-way through a program the states are related. -/
theorem Reaches.related {t : τ} (h : Reaches f p s q s') (hp : p.Calls Q) (hj : J s t) :
    ∃ t', J s' t' := by
  induction h with
  | start => exact ⟨t, hj⟩
  | step h ih =>
      obtain ⟨t₁, hj₁⟩ := ih
      obtain ⟨t₂, -, hj₂⟩ := hstep (h.calls hp).1 hj₁
      exact ⟨t₂, hj₂⟩

end Related

end Prog

end TokimoMachine
