import TokimoKvm.GuestStackProofs

/-! # The guest gets its replies

    While the kernel waits, the agent has the call in hand to make and perhaps
    one more.  What is left to do on the connection gets less with each step;
    a call that starts adds the cost of a call, which had been set aside for
    it.  And when nothing is left, no request is without its reply. -/

namespace TokimoRpc

open TokimoVfsCore

variable {σ : Type} {creq : Codec Request} {cresp : Codec Response} {vfs : TokimoVfs σ}
  {st st' : Sys σ} {ph : Phases} {es : List Event} {l : Label}

/-- What there is to do for a call that is issued. -/
def callCost : Nat := (replyCost + 3) * (4 + maxFrame) + 1

theorem issue_toGo {i : Nat} {req : Request} (hs : issue st i req = some (st', es)) :
    st'.toGo = st.toGo + callCost := by
  obtain ⟨hi, ht, rfl, -⟩ := issue_cases hs
  have hsum := toGo_task (t := .waiting req) hi
  rw [ht] at hsum
  simp only [Task.toGo] at hsum
  simp only [Sys.toGo, Sys.put, callCost]
  omega

/-- An idle task can issue a call. -/
theorem issue_enabled {i : Nat} (hi : i < st.tasks.length) (ht : st.task i = .idle)
    (req : Request) : ∃ st', issue st i req = some (st', [.issue i req]) := by
  have hget : st.tasks[i]? = some .idle := by
    rw [Sys.task, List.getElem?_eq_getElem hi] at ht
    rw [List.getElem?_eq_getElem hi]
    exact congrArg some ht
  rw [issue, hget]
  exact ⟨_, rfl⟩

/-- No step makes a task or ends one. -/
theorem tasks_step (hs : (system creq cresp vfs).step st l = some (st', es)) :
    st'.tasks.length = st.tasks.length := by
  have hset : ∀ (i : Nat) (t : Task), (st.tasks.set i t).length = st.tasks.length :=
    fun i t => List.length_set
  cases l with
  | issue i req =>
      obtain ⟨-, -, rfl, -⟩ := issue_cases hs
      exact hset ..
  | acquire i =>
      obtain ⟨req, -, -, ⟨e, -, rfl, -⟩ | ⟨b, -, -, -, rfl⟩⟩ := acquire_cases hs
      · exact hset ..
      · exact hset ..
  | send i n =>
      obtain ⟨req, todo, -, -, rfl⟩ := send_cases hs
      exact hset ..
  | recv i n =>
      obtain ⟨req, got, got', s2c', -, -, ⟨need, -, -, rfl⟩ | ⟨out, -, -, rfl⟩⟩ := recv_cases hs
      · exact hset ..
      · exact hset ..
  | broken i text =>
      obtain ⟨req, todo, -, -, rfl, -⟩ := broken_cases hs
      exact hset ..
  | eof i =>
      obtain ⟨req, got, -, -, rfl, -⟩ := eof_cases hs
      exact hset ..
  | drop i =>
      obtain ⟨req, -, ⟨-, rfl⟩ | ⟨-, rfl⟩⟩ := drop_cases hs
      · exact hset ..
      · exact hset ..
  | serverRecv n =>
      obtain ⟨got, got', c2s', -, -, -, ⟨need, -, rfl⟩ | ⟨req, -, rfl⟩ | ⟨e, -, rfl⟩⟩ :=
        serverRecv_cases hs
      · rfl
      · rfl
      · rfl
  | serverHandle =>
      obtain ⟨req, -, rfl, -⟩ := serverHandle_cases hs
      rfl
  | serverSend n =>
      obtain ⟨todo, -, -, rfl⟩ := serverSend_cases hs
      rfl

theorem Fits.idle {t : Task} (h : Fits t .idle) : t = .idle := by
  cases t with
  | idle => rfl
  | waiting req => exact h.elim
  | writing req todo => exact h.elim
  | reading req got => exact h.elim

end TokimoRpc

namespace TokimoFuseAgent

open TokimoMachine TokimoVfsCore TokimoRpc

variable {σ : Type} {creq : Codec Request} {cresp : Codec Response} {vfs : TokimoVfs σ}

/-! ## What is left to do -/

/-- After the call in hand the request makes at most `m` calls. -/
def Agent.AtMost (m : Nat) : Agent → Prop
  | .blocked _ _ k => ∀ r, (k r).AtMost m
  | _ => True

/-- The steps that are left for the call in hand and the calls to come. -/
def Left (g : Guest σ) (n : Nat) : Prop :=
  ∃ m, g.agent.AtMost m ∧ n = g.rpc.toGo + m * callCost

section Steps

variable {g g' : Guest σ} {es : List GuestEvent} {m : Nat}

theorem resume_left {req : FuseRequest} {p : AgentProg} {rpc : Sys σ} (hp : p.AtMost m)
    (hs : resume req p rpc = some (g', es)) : ∃ n, Left g' n ∧ n ≤ rpc.toGo + m * callCost := by
  rcases resume_cases hs with ⟨reply, a, rfl, rfl, -⟩ | ⟨call, k, rpc', es', rfl, -, hi, rfl⟩
  · exact ⟨_, ⟨m, True.intro, rfl⟩, Nat.le_refl _⟩
  · cases m with
    | zero => exact hp.elim
    | succ m =>
        -- one of the calls to come is now the call in hand
        refine ⟨_, ⟨m, hp, rfl⟩, ?_⟩
        show rpc'.toGo + m * callCost ≤ rpc.toGo + (m + 1) * callCost
        rw [issue_toGo hi, Nat.succ_mul]
        omega

theorem wake_left {out : Except FrameError Response} (hm : g.agent.AtMost m)
    (hs : wake g out = some (g', es)) : ∃ n, Left g' n ∧ n ≤ g.rpc.toGo + m * callCost := by
  rcases wake_cases hs with ⟨-, -, ⟨-, rfl⟩ | ⟨text, -, rfl⟩⟩ | ⟨req, call, k, hg, hr⟩
  · exact ⟨_, ⟨m, True.intro, rfl⟩, Nat.le_refl _⟩
  · exact ⟨_, ⟨m, True.intro, rfl⟩, Nat.le_refl _⟩
  · rw [hg] at hm
    exact resume_left (hm _) hr

variable {st₀ st : TokimoFuse × σ} {asks : List FuseRequest}
  {log : List (FuseRequest × Except Errno FuseReply)} {ph : Phases} {l : Label}

/-- **EVERY STEP COUNTS**: a step of the connection leaves less to do, also
    when it lets a request go on to its next call. -/
theorem left_step (h : Joined creq cresp vfs st₀ g asks log ph st) {n : Nat}
    (hc : Civil creq cresp vfs g (.rpc l)) (hleft : Left g n)
    (hs : (guest creq cresp vfs).step g (.rpc l) = some (g', es)) : ∃ n', n' < n ∧ Left g' n' := by
  obtain ⟨m, hm, rfl⟩ := hleft
  obtain ⟨hw, rpc', es', hrpc, hcase⟩ := work_cases hs
  have hless : rpc'.toGo < g.rpc.toGo := toGo_step h.inv h.alive (hc.1 l rfl) hw hrpc
  rcases hcase with ⟨-, rfl, -⟩ | ⟨out, -, hwake⟩
  · exact ⟨rpc'.toGo + m * callCost, by omega, m, hm, rfl⟩
  · obtain ⟨n', hleft', hle⟩ := wake_left (g := { g with rpc := rpc' }) hm hwake
    have hle' : n' ≤ rpc'.toGo + m * callCost := hle
    exact ⟨n', by omega, hleft'⟩

/-- A request makes two calls at most, so one at most is to come. -/
theorem Joined.left (h : Joined creq cresp vfs st₀ g asks log ph st) :
    Left g (g.rpc.toGo + callCost) := by
  refine ⟨1, ?_, by rw [Nat.one_mul]⟩
  have hdoing := h.doing
  cases hg : g.agent with
  | new => exact True.intro
  | greeting => exact True.intro
  | free a => exact True.intro
  | gone text => exact True.intro
  | blocked req call k =>
      rw [hg] at hdoing
      obtain ⟨s', hreach, -⟩ := hdoing.of_blocked
      exact hreach.atMost (program_atMost st.1 req)

/-- A call that returns finds the agent waiting for it, and it can go on. -/
theorem wake_enabled {rpc' : Sys σ} {s : σ} {req : Request} {resp : Response}
    (hdoing : Doing vfs g.agent (.answered req resp) s st) (hlen : 0 < rpc'.tasks.length)
    (hidle : rpc'.task 0 = .idle) (out : Except FrameError Response) :
    ∃ x, wake { g with rpc := rpc' } out = some x := by
  rw [wake]
  cases hg : g.agent with
  | new => rw [hg] at hdoing; cases hdoing
  | free a => rw [hg] at hdoing; cases hdoing
  | gone text => rw [hg] at hdoing; cases hdoing
  | greeting =>
      cases Client.hello out with
      | ok u => exact ⟨_, rfl⟩
      | error text => exact ⟨_, rfl⟩
  | blocked req' call k =>
      show ∃ x, resume req' (k (Client.answer call out)) rpc' = some x
      cases k (Client.answer call out) with
      | done o => exact ⟨_, rfl⟩
      | ask call' k' =>
          obtain ⟨rpc'', hissue⟩ := issue_enabled hlen hidle (Client.request call')
          rw [resume, hissue]
          exact ⟨_, rfl⟩

/-- A step that lets a call return asks nothing of the response. -/
theorem polite_of_returned {rpc rpc' : Sys σ} {es' : List Event}
    {out : Except FrameError Response} (hw : l.work) (hret : returned es' = some out)
    (hs : (system creq cresp vfs).step rpc l = some (rpc', es')) :
    Polite creq cresp vfs rpc l := by
  cases l with
  | issue i req => exact hw.elim
  | drop i => exact hw.elim
  | serverHandle =>
      -- handling a request lets no call return
      obtain ⟨req, -, -, rfl⟩ := serverHandle_cases hs
      cases hret
  | acquire i => exact True.intro
  | send i n => exact True.intro
  | recv i n => exact True.intro
  | broken i text => exact True.intro
  | eof i => exact True.intro
  | serverRecv n => exact True.intro
  | serverSend n => exact True.intro

/-- What the connection can do, the guest can do. -/
theorem Joined.work_enabled (hreq : creq.Lawful) (hresp : cresp.Lawful)
    (h : Joined creq cresp vfs st₀ g asks log ph st) (hw : l.work) {rpc' : Sys σ}
    {es' : List Event} (hs : (system creq cresp vfs).step g.rpc l = some (rpc', es')) :
    ∃ x, work creq cresp vfs g l = some x := by
  rw [work, if_pos hw, hs]
  cases hret : returned es' with
  | none =>
      simp only [hret]
      exact ⟨_, rfl⟩
  | some out =>
      simp only [hret]
      obtain ⟨ph', hinv', -, -, hcase⟩ :=
        work_step hreq hresp h.inv h.alive h.apart (polite_of_returned hw hret hs) hw hs
      rcases hcase with ⟨hno, -⟩ | ⟨req, hno, -⟩ | ⟨req, resp, -, hp, hph, -⟩
      · rw [hret] at hno
        cases hno
      · rw [hret] at hno
        cases hno
      · -- the task is idle again, so the request's next call can be issued
        have hdoing := h.doing
        have hfits := h.inv.fits 0
        rw [hp] at hdoing hfits
        have hbusy : g.rpc.task 0 ≠ .idle := by
          intro ht
          rw [ht] at hfits
          exact hfits.elim
        have hlen : 0 < rpc'.tasks.length := by
          rw [tasks_step hs]
          exact task_lt rfl hbusy
        have hidle := hinv'.fits 0
        rw [hph] at hidle
        exact wake_enabled hdoing hlen hidle.idle out

/-- **NO DEADLOCK**: when nothing can be done, the agent is between requests. -/
theorem Joined.of_stuck (hreq : creq.Lawful) (hresp : cresp.Lawful)
    (h : Joined creq cresp vfs st₀ g asks log ph st)
    (hstuck : ∀ l, (guest creq cresp vfs).step g (.rpc l) = none) :
    g.agent = .new ∨ ∃ a, g.agent = .free a := by
  have hconn : ∀ l, l.work → (system creq cresp vfs).step g.rpc l = none := by
    intro l hw
    have hnone : work creq cresp vfs g l = none := hstuck l
    cases hs : (system creq cresp vfs).step g.rpc l with
    | none => rfl
    | some y =>
        obtain ⟨x, hx⟩ := h.work_enabled hreq hresp hw hs
        rw [hnone] at hx
        cases hx
  have hdoing := h.doing
  have hfits := h.inv.fits 0
  rw [idle_of_stuck h.inv h.alive hconn 0] at hfits
  rw [hfits.idle_phase] at hdoing
  cases hg : g.agent with
  | new => exact Or.inl rfl
  | free a => exact Or.inr ⟨a, rfl⟩
  | greeting => rw [hg] at hdoing; cases hdoing
  | blocked req call k => rw [hg] at hdoing; cases hdoing
  | gone text => rw [hg] at hdoing; cases hdoing

end Steps

/-! ## Runs -/

section Runs

variable {g g' : Guest σ} {tr' : List GuestEvent}

/-- The connection can make no more steps than are left. -/
theorem work_ends (hreq : creq.Lawful) (hresp : cresp.Lawful) {st₀ : TokimoFuse × σ} :
    ∀ (ls : List Label) {g g' : Guest σ} {tr' : List GuestEvent} {asks : List FuseRequest}
      {log : List (FuseRequest × Except Errno FuseReply)} {ph : Phases} {st : TokimoFuse × σ}
      {n : Nat}, Joined creq cresp vfs st₀ g asks log ph st → Left g n →
      (guest creq cresp vfs).Along (Civil creq cresp vfs) g (ls.map .rpc) →
      (guest creq cresp vfs).exec g (ls.map .rpc) = some (g', tr') → ls.length ≤ n := by
  intro ls
  induction ls with
  | nil => intro g g' tr' asks log ph st n _ _ _ _; exact Nat.zero_le n
  | cons l ls ih =>
      intro g g' tr' asks log ph st n h hleft halong he
      obtain ⟨hc, hrest⟩ := halong
      rw [List.map_cons, Machine.exec] at he
      cases hs : (guest creq cresp vfs).step g (.rpc l) with
      | none =>
          rw [hs] at he
          cases he
      | some y =>
          obtain ⟨g₁, es⟩ := y
          rw [hs] at he hrest
          cases hx : (guest creq cresp vfs).exec g₁ (ls.map .rpc) with
          | none =>
              simp only [hx] at he
              cases he
          | some z =>
              obtain ⟨n', hless, hleft'⟩ := left_step h hc hleft hs
              obtain ⟨ph', st', h'⟩ := joined_step hreq hresp h hc hs
              exact Nat.lt_of_le_of_lt (ih h' hleft' hrest hx) hless

/-- **EVERY REQUEST IS ANSWERED**: from any state that a guest reaches, the
    connection can make a bounded number of steps only; and when it can make
    none, the agent is between requests and every request has its reply. -/
theorem guest_is_answered (hreq : creq.Lawful) (hresp : cresp.Lawful) {s₀ : σ}
    {tr : List GuestEvent} {ls : List Label}
    (hr : Run (guest creq cresp vfs) (Civil creq cresp vfs) (Guest.start s₀) g tr)
    (halong : (guest creq cresp vfs).Along (Civil creq cresp vfs) g (ls.map .rpc))
    (hexec : (guest creq cresp vfs).exec g (ls.map .rpc) = some (g', tr')) :
    ls.length ≤ g.rpc.toGo + callCost
      ∧ ((∀ l, (guest creq cresp vfs).step g' (.rpc l) = none) →
        (g'.agent = .new ∨ ∃ a, g'.agent = .free a)
          ∧ askedOf (tr ++ tr') = (answered (tr ++ tr')).map Prod.fst) := by
  obtain ⟨ph, st, h⟩ := joined_run hreq hresp hr
  refine ⟨work_ends hreq hresp ls h h.left halong hexec, fun hstuck => ?_⟩
  obtain ⟨ph', st', h'⟩ := joined_run hreq hresp (hr.trans (run_of_exec _ halong hexec))
  have hfree := h'.of_stuck hreq hresp hstuck
  refine ⟨hfree, ?_⟩
  have hasked := h'.asked
  have hnone : g'.agent.pending = [] := by
    rcases hfree with hg | ⟨a, hg⟩
    · rw [hg]
      rfl
    · rw [hg]
      rfl
  rw [hnone, List.append_nil] at hasked
  exact hasked

/-- The kernel has asked for the file `a`, and gets its reply. -/
theorem lookup_is_answered :
    ∃ (g g' : Guest Unit) (tr' : List GuestEvent),
      tr' = [.replied (.lookup 1 [0x61]) (.ok (.entry (toFuseAttr 2 (fileOf 1))))]
        ∧ serveLabels.length ≤ g.rpc.toGo + callCost
        ∧ ((∀ l, (guest (Codec.ofTable guestRequests) (Codec.ofTable statResponses)
            twoFiles).step g' (.rpc l) = none) →
          (g'.agent = .new ∨ ∃ a, g'.agent = .free a)
            ∧ askedOf ([.asked (.lookup 1 [0x61])] ++ tr')
              = (answered ([.asked (.lookup 1 [0x61])] ++ tr')).map Prod.fst) := by
  obtain ⟨⟨g, tr⟩, hexec, hrest⟩ := Option.bind_eq_some_iff.mp
    (show (((guest (Codec.ofTable guestRequests) (Codec.ofTable statResponses) twoFiles).exec
        (Guest.start ()) askLabels).bind fun x =>
      ((guest (Codec.ofTable guestRequests) (Codec.ofTable statResponses) twoFiles).exec x.1
        (serveLabels.map .rpc)).map fun y => (x.2, y.2))
      = some ([.asked (.lookup 1 [0x61])],
        [.replied (.lookup 1 [0x61]) (.ok (.entry (toFuseAttr 2 (fileOf 1))))]) by decide +kernel)
  obtain ⟨⟨g', tr'⟩, hexec', htr⟩ := Option.map_eq_some_iff.mp hrest
  obtain ⟨rfl, rfl⟩ := Prod.mk.inj htr
  have hbefore : (guest (Codec.ofTable guestRequests) (Codec.ofTable statResponses) twoFiles).Along
      (Civil (Codec.ofTable guestRequests) (Codec.ofTable statResponses) twoFiles) (Guest.start ())
      askLabels := by
    decide +kernel
  have hafter : ((guest (Codec.ofTable guestRequests) (Codec.ofTable statResponses) twoFiles).exec
      (Guest.start ()) askLabels).all (fun x => decide
        ((guest (Codec.ofTable guestRequests) (Codec.ofTable statResponses) twoFiles).Along
          (Civil (Codec.ofTable guestRequests) (Codec.ofTable statResponses) twoFiles) x.1
          (serveLabels.map .rpc))) = true := by
    decide +kernel
  rw [hexec] at hafter
  exact ⟨g, g', _, rfl, guest_is_answered (Codec.ofTable_lawful (by decide))
    (Codec.ofTable_lawful (by decide)) (run_of_exec askLabels hbefore hexec)
    (of_decide_eq_true hafter) hexec'⟩

end Runs

end TokimoFuseAgent
