import TokimoKvm.GuestStack

/-! # The connection is invisible to the guest

    Beside a guest whose calls travel over the connection runs an agent with
    its file system at hand.  The two are joined: between two requests they
    have the same tables and the same file system, and in the middle of one
    the program of the request has come as far as its answered calls.  So the
    kernel gets the same replies. -/

namespace TokimoFuseAgent

open TokimoMachine TokimoBytes TokimoPath TokimoTable TokimoVfsCore TokimoHostFs TokimoRpc


variable {σ : Type} {creq : Codec Request} {cresp : Codec Response} {vfs : TokimoVfs σ}

/-! ## What is compared -/

/-- Requests answered one after the other, with every call answered at once. -/
def Answers (vfs : TokimoVfs σ) :
    TokimoFuse × σ → List (FuseRequest × Except Errno FuseReply) → TokimoFuse × σ → Prop
  | st, [], st' => st' = st
  | st, (req, reply) :: log, st' =>
      reply = (serve vfs req st).1 ∧ Answers vfs (serve vfs req st).2 log st'

/-- One more request, answered after the others. -/
theorem Answers.snoc (req : FuseRequest) {st' : TokimoFuse × σ} :
    ∀ {log : List (FuseRequest × Except Errno FuseReply)} {st : TokimoFuse × σ},
      Answers vfs st log st' →
      Answers vfs st (log ++ [(req, (serve vfs req st').1)]) (serve vfs req st').2 := by
  intro log
  induction log with
  | nil =>
      intro st h
      have heq : st' = st := h
      rw [heq]
      exact ⟨rfl, rfl⟩
  | cons e log ih =>
      rintro st ⟨hreply, hrest⟩
      exact ⟨hreply, ih hrest⟩

/-- The requests a run has answered, with their replies. -/
def answered (tr : List GuestEvent) : List (FuseRequest × Except Errno FuseReply) :=
  tr.filterMap fun
    | .replied req reply => some (req, reply)
    | _ => none

/-- The requests the kernel has made. -/
def askedOf (tr : List GuestEvent) : List FuseRequest :=
  tr.filterMap fun
    | .asked req => some req
    | _ => none

/-- The request that has no reply yet, if any. -/
def Agent.pending : Agent → List FuseRequest
  | .blocked req _ _ => [req]
  | _ => []

/-- What the agent waits for was asked for in a frame. -/
def Agent.Fits (creq : Codec Request) : Agent → Prop
  | .greeting => Small creq (.hello PROTOCOL_VERSION)
  | .blocked _ call _ => Small creq (Client.request call)
  | _ => True

/-- Whether it fits a frame can be tried. -/
instance decidableFits (creq : Codec Request) : (ag : Agent) → Decidable (ag.Fits creq)
  | .new => isTrue True.intro
  | .greeting => decidableSmall creq _
  | .free _ => isTrue True.intro
  | .blocked _ call _ => decidableSmall creq (Client.request call)
  | .gone _ => isTrue True.intro

/-- The step of the connection that is chosen, if it is one of them. -/
def GuestLabel.onConnection : GuestLabel → Option Label
  | .rpc l => some l
  | _ => none

/-- Everything fits a frame. -/
def Civil (creq : Codec Request) (cresp : Codec Response) (vfs : TokimoVfs σ) (g : Guest σ)
    (l : GuestLabel) : Prop :=
  (∀ l', l = .rpc l' → Polite creq cresp vfs g.rpc l')
    ∧ ∀ g' es, (guest creq cresp vfs).step g l = some (g', es) → g'.agent.Fits creq

/-- The same of the step that is taken, which there is at most one of. -/
theorem civil_iff (creq : Codec Request) (cresp : Codec Response) (vfs : TokimoVfs σ)
    (g : Guest σ) (l : GuestLabel) :
    (∀ l' ∈ l.onConnection, Polite creq cresp vfs g.rpc l')
        ∧ (∀ x ∈ (guest creq cresp vfs).step g l, x.1.agent.Fits creq)
      ↔ Civil creq cresp vfs g l := by
  refine and_congr ?_ ⟨fun h g' es hs => h (g', es) hs, fun h x hs => h x.1 x.2 hs⟩
  cases l with
  | greet => exact ⟨fun _ l' heq => (by cases heq), fun _ l' heq => (by cases heq)⟩
  | request req => exact ⟨fun _ l' heq => (by cases heq), fun _ l' heq => (by cases heq)⟩
  | rpc l =>
      constructor
      · intro h l' heq
        exact h l' (congrArg some (GuestLabel.rpc.inj heq))
      · intro h l' heq
        exact h l' (congrArg GuestLabel.rpc (Option.some.inj heq))

/-- So it can be tried of every step. -/
instance decidableCivil (creq : Codec Request) (cresp : Codec Response) (vfs : TokimoVfs σ)
    (g : Guest σ) (l : GuestLabel) : Decidable (Civil creq cresp vfs g l) :=
  decidable_of_iff _ (civil_iff creq cresp vfs g l)

/-- Where the agent is, beside the phase of its call, the file system as it
    is, and the state after the requests that were answered. -/
inductive Doing (vfs : TokimoVfs σ) : Agent → Phase → σ → TokimoFuse × σ → Prop where
  | new {s : σ} : Doing vfs .new .idle s (.start, s)
  | greet {s : σ} : Doing vfs .greeting (.pending (.hello PROTOCOL_VERSION)) s (.start, s)
  | greeted {s : σ} : Doing vfs .greeting
      (.answered (.hello PROTOCOL_VERSION) (.hello PROTOCOL_VERSION)) s (.start, s)
  | free {a : TokimoFuse} {s : σ} : Doing vfs (.free a) .idle s (a, s)
  | asked {a : TokimoFuse} {s s' : σ} {req : FuseRequest} {call : VfsCall} {k : Reply → AgentProg} :
      (program a req).Reaches vfs.invoke s (.ask call k) s' →
      Doing vfs (.blocked req call k) (.pending (Client.request call)) s' (a, s)
  | made {a : TokimoFuse} {s s' : σ} {req : FuseRequest} {call : VfsCall} {k : Reply → AgentProg} :
      (program a req).Reaches vfs.invoke s (.ask call k) s' →
      Doing vfs (.blocked req call k)
        (.answered (Client.request call) (handle vfs (Client.request call) s').1)
        (handle vfs (Client.request call) s').2 (a, s)

section Inversion

variable {p : Phase} {s : σ} {st : TokimoFuse × σ}

/-- Before the greeting nothing is under way. -/
theorem Doing.of_new (h : Doing vfs .new p s st) : p = .idle ∧ st = (.start, s) := by
  cases h
  exact ⟨rfl, rfl⟩

/-- During it the agent waits for the server's version. -/
theorem Doing.of_greeting (h : Doing vfs .greeting p s st) : st = (.start, s)
    ∧ (p = .pending (.hello PROTOCOL_VERSION)
      ∨ p = .answered (.hello PROTOCOL_VERSION) (.hello PROTOCOL_VERSION)) := by
  cases h with
  | greet => exact ⟨rfl, Or.inl rfl⟩
  | greeted => exact ⟨rfl, Or.inr rfl⟩

/-- Between two requests the two sides agree. -/
theorem Doing.of_free {a : TokimoFuse} (h : Doing vfs (.free a) p s st) :
    p = .idle ∧ st = (a, s) := by
  cases h
  exact ⟨rfl, rfl⟩

/-- Inside a request the agent's program has come to the call that is made. -/
theorem Doing.of_blocked {req : FuseRequest} {call : VfsCall} {k : Reply → AgentProg}
    (h : Doing vfs (.blocked req call k) p s st) :
    ∃ s', (program st.1 req).Reaches vfs.invoke st.2 (.ask call k) s'
      ∧ ((p = .pending (Client.request call) ∧ s = s')
        ∨ (p = .answered (Client.request call) (handle vfs (Client.request call) s').1
          ∧ s = (handle vfs (Client.request call) s').2)) := by
  cases h with
  | asked hreach => exact ⟨_, hreach, Or.inl ⟨rfl, rfl⟩⟩
  | made hreach => exact ⟨_, hreach, Or.inr ⟨rfl, rfl⟩⟩

/-- The call that is waited for is made. -/
theorem Doing.served {ag : Agent} {req : Request} (h : Doing vfs ag (.pending req) s st) :
    Doing vfs ag (.answered req (handle vfs req s).1) (handle vfs req s).2 st := by
  cases h with
  | greet => exact .greeted
  | asked hreach => exact .made hreach

/-- An agent that has left does nothing. -/
theorem Doing.not_gone {text : String} (h : Doing vfs (.gone text) p s st) : False := by
  cases h

end Inversion

/-- A guest, with what was asked and answered, beside the agent with its file
    system at hand. -/
structure Joined (creq : Codec Request) (cresp : Codec Response) (vfs : TokimoVfs σ)
    (st₀ : TokimoFuse × σ) (g : Guest σ) (asks : List FuseRequest)
    (log : List (FuseRequest × Except Errno FuseReply)) (ph : Phases) (st : TokimoFuse × σ) :
    Prop where
  inv : Inv creq cresp g.rpc ph
  alive : Alive creq g.rpc
  apart : ∀ i, i ≠ 0 → ph i = .idle
  doing : Doing vfs g.agent (ph 0) g.rpc.vfs st
  answers : Answers vfs st₀ log st
  asked : asks = log.map Prod.fst ++ g.agent.pending

/-! ## Steps of the connection -/

section Steps

variable {rpc rpc' : Sys σ} {ph ph' : Phases} {es : List Event} {l : Label}

/-- A call of the agent starts. -/
theorem issue_asks (vfs : TokimoVfs σ) (hreq : creq.Lawful) (hresp : cresp.Lawful) {req : Request}
    (hinv : Inv creq cresp rpc ph) (halive : Alive creq rpc) (hsmall : Small creq req)
    (hs : issue rpc 0 req = some (rpc', es)) :
    ∃ ph', Inv creq cresp rpc' ph' ∧ Alive creq rpc' ∧ ph' 0 = .pending req
      ∧ (∀ i, i ≠ 0 → ph' i = ph i) ∧ rpc'.vfs = rpc.vfs := by
  have hpolite : Polite creq cresp vfs rpc (.issue 0 req) := hsmall
  have hstep : (system creq cresp vfs).step rpc (.issue 0 req) = some (rpc', es) := hs
  obtain ⟨ph', hadv, hinv'⟩ := inv_step hreq.sound hresp.sound hinv hpolite.calm hstep
  obtain ⟨halive', -⟩ := alive_step hreq hresp hinv halive hpolite hstep
  obtain ⟨-, -, rfl, rfl⟩ := issue_cases hs
  obtain ⟨hown, hothers⟩ := advances_own (i := 0) rfl hadv
  exact ⟨ph', hinv', halive', (advance_issue hown).2, hothers, rfl⟩

/-- The agent is the only task, so what happens happens to its call. -/
theorem only_task (hapart : ∀ i, i ≠ 0 → ph i = .idle) {e : Event} {i : Nat}
    (hwho : e.who = some i) (hno : Phase.advance .idle e = none) (hadv : Advances [e] ph ph') :
    (ph 0).advance e = some (ph' 0) ∧ ∀ j, j ≠ 0 → ph' j = .idle := by
  obtain ⟨hown, hothers⟩ := advances_own hwho hadv
  have hi : i = 0 := by
    by_contra hi
    rw [hapart i hi, hno] at hown
    cases hown
  rw [hi] at hown hothers
  exact ⟨hown, fun j hj => (hothers j hj).trans (hapart j hj)⟩

/-- **WORK FOR ONE CALL**: it moves bytes, or the call is made, or it returns
    what it was answered with. -/
theorem work_step (hreq : creq.Lawful) (hresp : cresp.Lawful) (hinv : Inv creq cresp rpc ph)
    (halive : Alive creq rpc) (hapart : ∀ i, i ≠ 0 → ph i = .idle)
    (hpolite : Polite creq cresp vfs rpc l) (hw : l.work)
    (hs : (system creq cresp vfs).step rpc l = some (rpc', es)) :
    ∃ ph', Inv creq cresp rpc' ph' ∧ Alive creq rpc' ∧ (∀ i, i ≠ 0 → ph' i = .idle)
      ∧ ((returned es = none ∧ ph' 0 = ph 0 ∧ rpc'.vfs = rpc.vfs)
        ∨ (∃ req, returned es = none ∧ ph 0 = .pending req
          ∧ ph' 0 = .answered req (handle vfs req rpc.vfs).1
          ∧ rpc'.vfs = (handle vfs req rpc.vfs).2)
        ∨ ∃ req resp, returned es = some (.ok resp) ∧ ph 0 = .answered req resp
          ∧ ph' 0 = .idle ∧ rpc'.vfs = rpc.vfs) := by
  obtain ⟨ph', hadv, hinv'⟩ := inv_step hreq.sound hresp.sound hinv hpolite.calm hs
  obtain ⟨halive', hfine⟩ := alive_step hreq hresp hinv halive hpolite hs
  refine ⟨ph', hinv', halive', ?_⟩
  rcases work_events hw hs with ⟨rfl, hvfs⟩ | ⟨req, rfl, hvfs⟩ | ⟨i, req, out, rfl, hvfs⟩
  · rw [advances_nil hadv]
    exact ⟨hapart, Or.inl ⟨rfl, rfl, hvfs⟩⟩
  · -- a request is served for the task that holds the lock
    have hserved := hfine _ (List.mem_singleton.mpr rfl)
    cases hl : rpc.lock with
    | none =>
        rw [hl] at hserved
        exact hserved.elim
    | some i =>
        rw [hl] at hadv
        obtain ⟨hnext, hrest⟩ := only_task hapart (i := i) rfl rfl hadv
        obtain ⟨hp, hph⟩ := advance_served hnext
        exact ⟨hrest, Or.inr (Or.inl ⟨req, rfl, hp, hph, hvfs⟩)⟩
  · have hret := hfine _ (List.mem_singleton.mpr rfl)
    cases out with
    | error e => exact hret.elim
    | ok resp =>
        obtain ⟨hnext, hrest⟩ := only_task hapart (i := i) rfl rfl hadv
        obtain ⟨hp, hph⟩ := advance_ret hnext
        exact ⟨hrest, Or.inr (Or.inr ⟨req, resp, rfl, hp, hph, hvfs⟩)⟩

end Steps

/-! ## Steps of the guest -/

section Guests

variable {st₀ st : TokimoFuse × σ} {g g' : Guest σ} {asks : List FuseRequest}
  {log : List (FuseRequest × Except Errno FuseReply)} {ph : Phases} {l : GuestLabel}
  {es : List GuestEvent} {req : FuseRequest}

/-! What each step does. -/

/-- The greeting is a call like any other. -/
theorem greet_cases (hs : greet g = some (g', es)) :
    g.agent = .new ∧ es = []
      ∧ ∃ rpc' es', issue g.rpc 0 (.hello PROTOCOL_VERSION) = some (rpc', es')
      ∧ g' = { agent := .greeting, rpc := rpc' } := by
  rw [greet] at hs
  cases hg : g.agent with
  | greeting => rw [hg] at hs; cases hs
  | free a => rw [hg] at hs; cases hs
  | blocked req call k => rw [hg] at hs; cases hs
  | gone text => rw [hg] at hs; cases hs
  | new =>
      rw [hg] at hs
      cases hi : issue g.rpc 0 (.hello PROTOCOL_VERSION) with
      | none =>
          simp only [hi] at hs
          cases hs
      | some x =>
          simp only [hi] at hs
          obtain ⟨h1, h2⟩ := Prod.mk.inj (Option.some.inj hs)
          exact ⟨rfl, h2.symm, x.1, x.2, rfl, h1.symm⟩

/-- A request starts its program. -/
theorem request_cases (hs : request g req = some (g', es)) :
    ∃ a es', g.agent = .free a ∧ es = .asked req :: es'
      ∧ resume req (program a req) g.rpc = some (g', es') := by
  rw [request] at hs
  cases hg : g.agent with
  | greeting => rw [hg] at hs; cases hs
  | new => rw [hg] at hs; cases hs
  | blocked req call k => rw [hg] at hs; cases hs
  | gone text => rw [hg] at hs; cases hs
  | free a =>
      rw [hg] at hs
      obtain ⟨⟨g₁, es₁⟩, hr, heq⟩ := Option.map_eq_some_iff.mp hs
      obtain ⟨rfl, rfl⟩ := Prod.mk.inj heq
      exact ⟨a, es₁, rfl, rfl, hr⟩

/-- A program that goes on is either done or at its next call. -/
theorem resume_cases {p : AgentProg} {rpc : Sys σ} (hs : resume req p rpc = some (g', es)) :
    (∃ reply a, p = .done (reply, a) ∧ g' = { agent := .free a, rpc := rpc }
        ∧ es = [.replied req reply])
      ∨ ∃ call k rpc' es', p = .ask call k ∧ es = []
        ∧ issue rpc 0 (Client.request call) = some (rpc', es')
        ∧ g' = { agent := .blocked req call k, rpc := rpc' } := by
  cases p with
  | done out =>
      obtain ⟨h1, h2⟩ := Prod.mk.inj (Option.some.inj hs)
      exact Or.inl ⟨out.1, out.2, rfl, h1.symm, h2.symm⟩
  | ask call k =>
      rw [resume] at hs
      cases hi : issue rpc 0 (Client.request call) with
      | none =>
          rw [hi] at hs
          cases hs
      | some x =>
          rw [hi] at hs
          obtain ⟨h1, h2⟩ := Prod.mk.inj (Option.some.inj hs)
          exact Or.inr ⟨call, k, x.1, x.2, rfl, h2.symm, hi, h1.symm⟩

/-- The agent that gets its answer greets, goes on, or leaves. -/
theorem wake_cases {out : Except FrameError Response} (hs : wake g out = some (g', es)) :
    (g.agent = .greeting ∧ es = []
        ∧ ((Client.hello out = .ok () ∧ g' = { g with agent := .free .start })
          ∨ ∃ text, Client.hello out = .error text ∧ g' = { g with agent := .gone text }))
      ∨ ∃ req call k, g.agent = .blocked req call k
        ∧ resume req (k (Client.answer call out)) g.rpc = some (g', es) := by
  rw [wake] at hs
  cases hg : g.agent with
  | new => rw [hg] at hs; cases hs
  | free a => rw [hg] at hs; cases hs
  | gone text => rw [hg] at hs; cases hs
  | blocked req call k =>
      simp only [hg] at hs
      exact Or.inr ⟨req, call, k, rfl, hs⟩
  | greeting =>
      simp only [hg] at hs
      cases hh : Client.hello out with
      | ok u =>
          simp only [hh] at hs
          obtain ⟨h1, h2⟩ := Prod.mk.inj (Option.some.inj hs)
          exact Or.inl ⟨rfl, h2.symm, Or.inl ⟨rfl, h1.symm⟩⟩
      | error text =>
          simp only [hh] at hs
          obtain ⟨h1, h2⟩ := Prod.mk.inj (Option.some.inj hs)
          exact Or.inl ⟨rfl, h2.symm, Or.inr ⟨text, rfl, h1.symm⟩⟩

/-- A step of the connection may bring the agent its answer. -/
theorem work_cases {l : Label} (hs : work creq cresp vfs g l = some (g', es)) :
    l.work ∧ ∃ rpc' es', (system creq cresp vfs).step g.rpc l = some (rpc', es')
      ∧ ((returned es' = none ∧ g' = { g with rpc := rpc' } ∧ es = [])
        ∨ ∃ out, returned es' = some out ∧ wake { g with rpc := rpc' } out = some (g', es)) := by
  rw [work] at hs
  by_cases hw : l.work
  · rw [if_pos hw] at hs
    cases hrpc : (system creq cresp vfs).step g.rpc l with
    | none =>
        simp only [hrpc] at hs
        cases hs
    | some x =>
        obtain ⟨rpc', es'⟩ := x
        simp only [hrpc] at hs
        refine ⟨hw, rpc', es', rfl, ?_⟩
        cases hret : returned es' with
        | none =>
            simp only [hret] at hs
            obtain ⟨h1, h2⟩ := Prod.mk.inj (Option.some.inj hs)
            exact Or.inl ⟨rfl, h1.symm, h2.symm⟩
        | some out =>
            simp only [hret] at hs
            exact Or.inr ⟨out, rfl, hs⟩
  · rw [if_neg hw] at hs
    cases hs

/-! ### Two agents side by side -/

/-- A step that asks and answers nothing adds to neither list. -/
theorem Joined.quiet (h : Joined creq cresp vfs st₀ g asks log ph st) :
    Joined creq cresp vfs st₀ g (asks ++ askedOf []) (log ++ answered []) ph st := by
  rw [show askedOf [] = [] from rfl, show answered [] = [] from rfl, List.append_nil,
    List.append_nil]
  exact h

/-- A request goes on from where its answered calls have brought it. -/
theorem resume_joined (hreq : creq.Lawful) (hresp : cresp.Lawful) {rpc : Sys σ} {p : AgentProg}
    (hinv : Inv creq cresp rpc ph) (halive : Alive creq rpc) (hapart : ∀ i, i ≠ 0 → ph i = .idle)
    (hidle : ph 0 = .idle) (hanswers : Answers vfs st₀ log st)
    (hreach : (program st.1 req).Reaches vfs.invoke st.2 p rpc.vfs)
    (hr : resume req p rpc = some (g', es)) (hfits : g'.agent.Fits creq) :
    askedOf es = [] ∧ ∃ ph' st', Joined creq cresp vfs st₀ g' (log.map Prod.fst ++ [req])
      (log ++ answered es) ph' st' := by
  rcases resume_cases hr with ⟨reply, a, rfl, rfl, rfl⟩ | ⟨call, k, rpc', es', rfl, rfl, hi, rfl⟩
  · have hserve : serve vfs req st = (reply, (a, rpc.vfs)) := by
      have h := program_run vfs st.1 req st.2
      rw [hreach.run] at h
      exact h
    have hsnoc := hanswers.snoc req
    rw [hserve] at hsnoc
    refine ⟨rfl, ph, (a, rpc.vfs), hinv, halive, hapart, ?_, hsnoc, ?_⟩
    · rw [hidle]
      exact .free
    · rw [List.map_append]
      exact (List.append_nil _).symm
  · obtain ⟨ph', hinv', halive', hzero, hrest, hvfs⟩ :=
      issue_asks vfs hreq hresp hinv halive hfits hi
    refine ⟨rfl, ph', st, hinv', halive', fun i hi => (hrest i hi).trans (hapart i hi), ?_, ?_, ?_⟩
    · show Doing vfs (.blocked req call k) (ph' 0) rpc'.vfs st
      rw [hzero, hvfs]
      exact .asked hreach
    · rw [show answered [] = [] from rfl, List.append_nil]
      exact hanswers
    · rw [show answered [] = [] from rfl, List.append_nil]
      rfl

/-- The greeting keeps the guest beside the agent at hand. -/
theorem joined_greet (hreq : creq.Lawful) (hresp : cresp.Lawful)
    (h : Joined creq cresp vfs st₀ g asks log ph st) (hs : greet g = some (g', es))
    (hfits : g'.agent.Fits creq) :
    ∃ ph' st', Joined creq cresp vfs st₀ g' (asks ++ askedOf es) (log ++ answered es) ph' st' := by
  obtain ⟨hg, rfl, rpc', es', hi, rfl⟩ := greet_cases hs
  have hdoing := h.doing
  have hasked := h.asked
  rw [hg] at hdoing hasked
  obtain ⟨-, hst⟩ := hdoing.of_new
  obtain ⟨ph', hinv', halive', hzero, hrest, hvfs⟩ :=
    issue_asks vfs hreq hresp h.inv h.alive hfits hi
  refine ⟨ph', st, Joined.quiet ⟨hinv', halive',
    fun i hi => (hrest i hi).trans (h.apart i hi), ?_, h.answers, hasked⟩⟩
  show Doing vfs .greeting (ph' 0) rpc'.vfs st
  rw [hzero, hvfs, hst]
  exact .greet

/-- So does a request. -/
theorem joined_request (hreq : creq.Lawful) (hresp : cresp.Lawful)
    (h : Joined creq cresp vfs st₀ g asks log ph st) (hs : request g req = some (g', es))
    (hfits : g'.agent.Fits creq) :
    ∃ ph' st', Joined creq cresp vfs st₀ g' (asks ++ askedOf es) (log ++ answered es) ph' st' := by
  obtain ⟨a, es', hg, rfl, hr⟩ := request_cases hs
  have hdoing := h.doing
  have hasked := h.asked
  rw [hg] at hdoing hasked
  obtain ⟨hidle, hst⟩ := hdoing.of_free
  have hreach : (program st.1 req).Reaches vfs.invoke st.2 (program a req) g.rpc.vfs := by
    rw [hst]
    exact .start
  obtain ⟨hnone, ph', st', hj⟩ := resume_joined hreq hresp h.inv h.alive h.apart hidle
    h.answers hreach hr hfits
  refine ⟨ph', st', ?_⟩
  have hasks : asks ++ askedOf (.asked req :: es') = log.map Prod.fst ++ [req] := by
    rw [hasked, show askedOf (.asked req :: es') = req :: askedOf es' from rfl, hnone]
    rw [show Agent.pending (.free a) = [] from rfl, List.append_nil]
  rw [hasks]
  exact hj

/-- The call that the agent waits for returns what it was answered with. -/
theorem joined_wake (hreq : creq.Lawful) (hresp : cresp.Lawful)
    (h : Joined creq cresp vfs st₀ g asks log ph st) {rpc' : Sys σ} {ph' : Phases}
    {req' : Request} {resp : Response} (hinv' : Inv creq cresp rpc' ph')
    (halive' : Alive creq rpc') (hapart' : ∀ i, i ≠ 0 → ph' i = .idle)
    (hp : ph 0 = .answered req' resp) (hph : ph' 0 = .idle) (hvfs : rpc'.vfs = g.rpc.vfs)
    (hs : wake { g with rpc := rpc' } (.ok resp) = some (g', es)) (hfits : g'.agent.Fits creq) :
    ∃ ph' st', Joined creq cresp vfs st₀ g' (asks ++ askedOf es) (log ++ answered es) ph' st' := by
  have hdoing := h.doing
  have hasked := h.asked
  rw [hp] at hdoing
  rcases wake_cases hs with ⟨hg, rfl, hcase⟩ | ⟨req, call, k, hg, hr⟩
  · have hg' : g.agent = .greeting := hg
    rw [hg'] at hdoing hasked
    obtain ⟨hst, hphase | hphase⟩ := hdoing.of_greeting
    · cases hphase
    obtain ⟨rfl, rfl⟩ := Phase.answered.inj hphase
    rcases hcase with ⟨-, rfl⟩ | ⟨text, herr, -⟩
    · refine ⟨ph', st, Joined.quiet ⟨hinv', halive', hapart', ?_, h.answers, hasked⟩⟩
      show Doing vfs (.free .start) (ph' 0) rpc'.vfs st
      rw [hph, hvfs, hst]
      exact .free
    · cases (show Client.hello (.ok (.hello PROTOCOL_VERSION)) = .ok () from rfl).symm.trans herr
  · have hg' : g.agent = .blocked req call k := hg
    rw [hg'] at hdoing hasked
    obtain ⟨s', hreach, ⟨hphase, -⟩ | ⟨hphase, hnow⟩⟩ := hdoing.of_blocked
    · cases hphase
    obtain ⟨rfl, rfl⟩ := Phase.answered.inj hphase
    -- the client makes of the response what the call itself returns
    obtain ⟨hans, hstate⟩ := answer_handle vfs call s'
    rw [hans] at hr
    have hnext : (program st.1 req).Reaches vfs.invoke st.2 (k (vfs.invoke s' call).1)
        rpc'.vfs := by
      rw [hvfs, hnow, hstate]
      exact .step hreach
    obtain ⟨hnone, ph'', st', hj⟩ :=
      resume_joined hreq hresp hinv' halive' hapart' hph h.answers hnext hr hfits
    refine ⟨ph'', st', ?_⟩
    rw [hnone, List.append_nil, hasked]
    exact hj

/-- So does a step of the connection. -/
theorem joined_work (hreq : creq.Lawful) (hresp : cresp.Lawful) {l : Label}
    (h : Joined creq cresp vfs st₀ g asks log ph st) (hpolite : Polite creq cresp vfs g.rpc l)
    (hs : work creq cresp vfs g l = some (g', es)) (hfits : g'.agent.Fits creq) :
    ∃ ph' st', Joined creq cresp vfs st₀ g' (asks ++ askedOf es) (log ++ answered es) ph' st' := by
  obtain ⟨hw, rpc', es', hrpc, hstep⟩ := work_cases hs
  obtain ⟨ph', hinv', halive', hapart', hcase⟩ :=
    work_step hreq hresp h.inv h.alive h.apart hpolite hw hrpc
  have hdoing := h.doing
  rcases hstep with ⟨hno, rfl, rfl⟩ | ⟨out, hret, hwake⟩
  · refine ⟨ph', st, Joined.quiet ⟨hinv', halive', hapart', ?_, h.answers, h.asked⟩⟩
    show Doing vfs g.agent (ph' 0) rpc'.vfs st
    rcases hcase with ⟨-, hph, hvfs⟩ | ⟨req', -, hp, hph, hvfs⟩ | ⟨req', resp, hret, -⟩
    · rw [hph, hvfs]
      exact hdoing
    · -- the call is made
      rw [hph, hvfs]
      rw [hp] at hdoing
      exact hdoing.served
    · rw [hno] at hret
      cases hret
  · rcases hcase with ⟨hno, -⟩ | ⟨req', hno, -⟩ | ⟨req', resp, hret', hp, hph, hvfs⟩
    · rw [hret] at hno
      cases hno
    · rw [hret] at hno
      cases hno
    · rw [hret] at hret'
      obtain rfl := Option.some.inj hret'
      exact joined_wake hreq hresp h hinv' halive' hapart' hp hph hvfs hwake hfits

/-- **THE STEP**: a guest and the agent beside it stay joined. -/
theorem joined_step (hreq : creq.Lawful) (hresp : cresp.Lawful)
    (h : Joined creq cresp vfs st₀ g asks log ph st) (hc : Civil creq cresp vfs g l)
    (hs : (guest creq cresp vfs).step g l = some (g', es)) :
    ∃ ph' st', Joined creq cresp vfs st₀ g' (asks ++ askedOf es) (log ++ answered es) ph' st' := by
  have hfits := hc.2 g' es hs
  cases l with
  | greet => exact joined_greet hreq hresp h hs hfits
  | request req => exact joined_request hreq hresp h hs hfits
  | rpc l => exact joined_work hreq hresp h (hc.1 l rfl) hs hfits

/-- The guest starts beside the agent at hand. -/
theorem joined_start (s₀ : σ) : Joined creq cresp vfs (.start, s₀) (Guest.start s₀) [] []
    (fun _ => .idle) (.start, s₀) where
  inv := inv_start 1 s₀
  alive := alive_start 1 s₀
  apart _ _ := rfl
  doing := .new
  answers := rfl
  asked := rfl

/-- And stays beside it in every run where everything fits a frame. -/
theorem joined_run (hreq : creq.Lawful) (hresp : cresp.Lawful) {s₀ : σ} {tr : List GuestEvent}
    (hr : Run (guest creq cresp vfs) (Civil creq cresp vfs) (Guest.start s₀) g tr) :
    ∃ ph st, Joined creq cresp vfs (.start, s₀) g (askedOf tr) (answered tr) ph st := by
  refine Run.invariant (I := fun g tr => ∃ ph st,
    Joined creq cresp vfs (.start, s₀) g (askedOf tr) (answered tr) ph st)
    ⟨_, _, joined_start s₀⟩ ?_ hr
  rintro g tr l g' es ⟨ph, st, h⟩ hc hs
  obtain ⟨ph', st', h'⟩ := joined_step hreq hresp h hc hs
  refine ⟨ph', st', ?_⟩
  rw [askedOf, answered, List.filterMap_append, List.filterMap_append]
  exact h'

/-- **THE CONNECTION IS INVISIBLE**: once the agent has greeted the server, a
    guest gets the replies, in the order of its requests, that the agent gives
    with its file system at hand.  Between two requests the tables of the
    agent and the file system are the same as there; within one, each call it
    came to was made once, or is still to be made. -/
theorem connection_is_invisible (hreq : creq.Lawful) (hresp : cresp.Lawful) {s₀ : σ}
    {tr : List GuestEvent}
    (hr : Run (guest creq cresp vfs) (Civil creq cresp vfs) (Guest.start s₀) g tr) :
    ∃ a s, Answers vfs (.start, s₀) (answered tr) (a, s)
      ∧ askedOf tr = (answered tr).map Prod.fst ++ g.agent.pending
      ∧ (∀ text, g.agent ≠ .gone text)
      ∧ (∀ a', g.agent = .free a' → a' = a ∧ g.rpc.vfs = s)
      ∧ ∀ req call k, g.agent = .blocked req call k → ∃ s',
        (program a req).Reaches vfs.invoke s (.ask call k) s'
          ∧ (g.rpc.vfs = s' ∨ g.rpc.vfs = (vfs.invoke s' call).2) := by
  obtain ⟨ph, ⟨a, s⟩, h⟩ := joined_run hreq hresp hr
  have hdoing := h.doing
  refine ⟨a, s, h.answers, h.asked, ?_, ?_, ?_⟩
  · intro text hg
    rw [hg] at hdoing
    exact hdoing.not_gone
  · intro a' hg
    rw [hg] at hdoing
    obtain ⟨-, hst⟩ := hdoing.of_free
    obtain ⟨ha, hs⟩ := Prod.mk.inj hst
    exact ⟨ha.symm, hs.symm⟩
  · intro req call k hg
    rw [hg] at hdoing
    obtain ⟨s', hreach, ⟨-, hnow⟩ | ⟨-, hnow⟩⟩ := hdoing.of_blocked
    · exact ⟨s', hreach, Or.inl hnow⟩
    · exact ⟨s', hreach, Or.inr (hnow.trans (answer_handle vfs call s').2)⟩

end Guests

/-- The encodings of the greeting and of a request for the file `/a`. -/
def guestRequests : List (Request × Bytes) :=
  (.hello PROTOCOL_VERSION, [0, 1]) :: statRequests

/-- The agent greets the server. -/
def greetLabels : List GuestLabel :=
  [.greet, .rpc (.acquire 0), .rpc (.send 0 5), .rpc (.serverRecv 3), .rpc (.serverRecv 1),
    .rpc .serverHandle, .rpc (.serverSend 5), .rpc (.recv 0 3), .rpc (.recv 0 1)]

/-- Then the kernel looks for the file `a`. -/
def askLabels : List GuestLabel := greetLabels ++ [.request (.lookup 1 [0x61])]

/-- The call for it. -/
def serveLabels : List Label :=
  [.acquire 0, .send 0 7, .serverRecv 3, .serverRecv 3, .serverHandle, .serverSend 12, .recv 0 3,
    .recv 0 8]

/-- The kernel is told the attributes of the file, as the agent would tell them
    with the file system at hand. -/
theorem lookup_over_connection : ∃ (g : Guest Unit) (tr : List GuestEvent),
    tr = [.asked (.lookup 1 [0x61]),
        .replied (.lookup 1 [0x61]) (.ok (.entry (toFuseAttr 2 (fileOf 1))))]
      ∧ ∃ a s, Answers twoFiles (.start, ()) (answered tr) (a, s)
        ∧ ∀ a', g.agent = .free a' → a' = a ∧ g.rpc.vfs = s := by
  obtain ⟨⟨g, tr⟩, hexec, htr⟩ := Option.map_eq_some_iff.mp
    (show ((guest (Codec.ofTable guestRequests) (Codec.ofTable statResponses) twoFiles).exec
        (Guest.start ()) (askLabels ++ serveLabels.map .rpc)).map Prod.snd
      = some [.asked (.lookup 1 [0x61]),
        .replied (.lookup 1 [0x61]) (.ok (.entry (toFuseAttr 2 (fileOf 1))))] by decide +kernel)
  have hcivil : (guest (Codec.ofTable guestRequests) (Codec.ofTable statResponses) twoFiles).Along
      (Civil (Codec.ofTable guestRequests) (Codec.ofTable statResponses) twoFiles) (Guest.start ())
      (askLabels ++ serveLabels.map .rpc) := by
    decide +kernel
  obtain ⟨a, s, hanswers, -, -, hfree, -⟩ := connection_is_invisible
    (Codec.ofTable_lawful (by decide)) (Codec.ofTable_lawful (by decide))
    (run_of_exec _ hcivil hexec)
  exact ⟨g, tr, htr, a, s, hanswers, hfree⟩

end TokimoFuseAgent
