import TokimoKvm.RpcClients
import TokimoKvm.RpcPairingProofs

/-! # The remote file system is the local one

    When no call is dropped and everything fits a frame, a method of the
    client is a call of the server's file system: each is made exactly once,
    with its arguments, between the moment it is issued and the moment it
    returns, in one order for all tasks, and what it returned is what the
    method returns.

    That every call does return is two facts: while a task waits some step is
    possible, and every step brings the system nearer to rest. -/

namespace TokimoRpc

open TokimoBytes TokimoMachine TokimoPath TokimoVfsCore

variable {σ : Type}

/-! ## Calls as the tasks and the file system see them -/

/-- Where a task's call stands. -/
inductive Stage where
  | idle
  | called (call : VfsCall)
  | made (call : VfsCall) (reply : Reply)
  deriving DecidableEq

/-- The task an event is about; a call that is made is the holder's. -/
def Seen.who : Seen → Option Nat
  | .issue i _ => some i
  | .made holder _ _ => holder
  | .ret i _ _ => some i

/-- A call is issued, made once with the same arguments, and returns what the
    file system returned. -/
def Stage.advance : Stage → Seen → Option Stage
  | .idle, .issue _ call => some (.called call)
  | .called call, .made _ call' reply => if call = call' then some (.made call reply) else none
  | .made call reply, .ret _ call' reply' =>
      if call = call' ∧ reply = reply' then some .idle else none
  | _, _ => none

/-- What other tasks do is not this task's. -/
def Stage.next (i : Nat) (g : Stage) (e : Seen) : Option Stage :=
  if e.who = some i then g.advance e else some g

/-- Where task `i` stands after some events, if each of its calls was made
    exactly once and returned what that call returned. -/
def stageOf (i : Nat) (tr : List Seen) : Option Stage := follow (Stage.next i) (some .idle) tr

/-- The calls the server made, with what they returned. -/
def madeOf (tr : List Seen) : List (VfsCall × Reply) :=
  tr.filterMap fun
    | .made _ call reply => some (call, reply)
    | _ => none

/-- A sequence of calls on a file system, from one state to another. -/
def Calls (vfs : TokimoVfs σ) : σ → List (VfsCall × Reply) → σ → Prop
  | s, [], s' => s' = s
  | s, (call, reply) :: calls, s' =>
      reply = (vfs.invoke s call).1 ∧ Calls vfs (vfs.invoke s call).2 calls s'

/-- One more call at the end of a sequence. -/
theorem Calls.snoc {vfs : TokimoVfs σ} (call : VfsCall) {s' : σ} :
    ∀ {made : List (VfsCall × Reply)} {s : σ}, Calls vfs s made s' →
      Calls vfs s (made ++ [(call, (vfs.invoke s' call).1)]) (vfs.invoke s' call).2 := by
  intro made
  induction made with
  | nil =>
      intro s h
      rw [show s' = s from h]
      exact ⟨rfl, rfl⟩
  | cons e made ih =>
      rintro s ⟨hreply, hrest⟩
      exact ⟨hreply, ih hrest⟩

theorem stageOf_append (i : Nat) (tr es : List Seen) :
    stageOf i (tr ++ es) = follow (Stage.next i) (stageOf i tr) es :=
  follow_append _ _ _ _

/-- An event of a task takes the task one stage further. -/
theorem stageOf_own {i : Nat} {tr : List Seen} {g g' : Stage} {e : Seen}
    (hg : stageOf i tr = some g) (hwho : e.who = some i) (hadv : g.advance e = some g') :
    stageOf i (tr ++ [e]) = some g' := by
  rw [stageOf_append, hg]
  show g.next i e = some g'
  rw [Stage.next, if_pos hwho, hadv]

/-- An event of another task leaves the task where it is. -/
theorem stageOf_other {i : Nat} {tr : List Seen} {e : Seen} (hwho : e.who ≠ some i) :
    stageOf i (tr ++ [e]) = stageOf i tr := by
  rw [stageOf_append]
  cases stageOf i tr with
  | none => rfl
  | some g =>
      show g.next i e = some g
      rw [Stage.next, if_neg hwho]

/-- A call that is under way was issued. -/
theorem issued_of_called {i : Nat} {call : VfsCall} {tr : List Seen}
    (h : stageOf i tr = some (.called call)) : .issue i call ∈ tr := by
  induction tr using List.reverseRecOn with
  | nil => cases h
  | append_singleton tr e ih =>
      by_cases hwho : e.who = some i
      · rw [stageOf_append] at h
        cases hg : stageOf i tr with
        | none =>
            rw [hg] at h
            cases h
        | some g =>
            rw [hg] at h
            have hadv : g.next i e = some (.called call) := h
            rw [Stage.next, if_pos hwho] at hadv
            -- only an issue leads to this stage
            cases g with
            | idle =>
                cases e with
                | issue j call' =>
                    obtain rfl := Option.some.inj hwho
                    cases hadv
                    exact List.mem_append_right _ (List.mem_singleton.mpr rfl)
                | made holder call' reply => cases hadv
                | ret j call' reply => cases hadv
            | called call' =>
                cases e with
                | issue j call'' => cases hadv
                | made holder call'' reply =>
                    obtain ⟨-, heq⟩ := Option.ite_none_right_eq_some.mp hadv
                    cases heq
                | ret j call'' reply => cases hadv
            | made call' reply =>
                cases e with
                | issue j call'' => cases hadv
                | made holder call'' reply' => cases hadv
                | ret j call'' reply' =>
                    obtain ⟨-, heq⟩ := Option.ite_none_right_eq_some.mp hadv
                    cases heq
      · rw [stageOf_other hwho] at h
        exact List.mem_append_left _ (ih h)

/-- A call that is made for a task is one the task issued. -/
theorem issued_of_made {tr : List Seen} {i : Nat} {call : VfsCall} {reply : Reply}
    (hall : (stageOf i tr).isSome = true) (hm : .made (some i) call reply ∈ tr) :
    .issue i call ∈ tr := by
  obtain ⟨before, after, rfl⟩ := List.append_of_mem hm
  rw [stageOf_append] at hall
  cases hg : stageOf i before with
  | none =>
      rw [hg, follow_none] at hall
      cases hall
  | some g =>
      rw [hg] at hall
      have hnext : (follow (Stage.next i) (g.next i (.made (some i) call reply)) after).isSome
          = true := hall
      have hwho : (Seen.made (some i) call reply).who = some i := rfl
      rw [Stage.next, if_pos hwho] at hnext
      have hstuck : ∀ g' : Option Stage, g' = none →
          (follow (Stage.next i) g' after).isSome = true → False := by
        rintro g' rfl h
        rw [follow_none] at h
        cases h
      cases g with
      | idle => exact (hstuck _ rfl hnext).elim
      | made call' reply' => exact (hstuck _ rfl hnext).elim
      | called call' =>
          by_cases hc : call' = call
          · rw [hc] at hg
            exact List.mem_append_left _ (issued_of_called hg)
          · exact (hstuck _ (if_neg hc) hnext).elim

/-! ## Phases -/

section Phases

variable {p p' : Phase} {i : Nat} {req : Request}

/-- Only a task at rest begins a call. -/
theorem advance_issue (h : p.advance (.issue i req) = some p') : p = .idle ∧ p' = .pending req := by
  cases p with
  | idle => exact ⟨rfl, (Option.some.inj h).symm⟩
  | pending req' => cases h
  | answered req' resp => cases h

/-- What is served is what was pending. -/
theorem advance_served {holder : Option Nat} {resp : Response}
    (h : p.advance (.served holder req resp) = some p') :
    p = .pending req ∧ p' = .answered req resp := by
  cases p with
  | idle => cases h
  | answered req' resp' => cases h
  | pending req' =>
      obtain ⟨rfl, heq⟩ := Option.ite_none_right_eq_some.mp h
      exact ⟨rfl, (Option.some.inj heq).symm⟩

/-- What is returned is what was answered. -/
theorem advance_ret {resp : Response} (h : p.advance (.ret i req (.ok resp)) = some p') :
    p = .answered req resp ∧ p' = .idle := by
  cases p with
  | idle => cases h
  | pending req' => cases h
  | answered req' resp' =>
      obtain ⟨⟨rfl, rfl⟩, heq⟩ := Option.ite_none_right_eq_some.mp h
      exact ⟨rfl, (Option.some.inj heq).symm⟩

/-- One event takes its own task further, and no other. -/
theorem advances_own {e : Event} {ph ph' : Phases} (hwho : e.who = some i)
    (h : Advances [e] ph ph') :
    (ph i).advance e = some (ph' i) ∧ ∀ j, j ≠ i → ph' j = ph j := by
  have hnext : ∀ j, (ph j).next j e = some (ph' j) := h
  refine ⟨?_, fun j hj => ?_⟩
  · have hi := hnext i
    rwa [Phase.next, if_pos hwho] at hi
  · have hother := hnext j
    rw [Phase.next, if_neg (fun heq => hj (Option.some.inj (hwho.symm.trans heq)).symm)] at hother
    exact (Option.some.inj hother).symm

/-- A task that is at rest has no request under way. -/
theorem Fits.idle_phase (h : Fits .idle p) : p = .idle := by
  cases p with
  | idle => rfl
  | pending req => exact h.elim
  | answered req resp => exact h.elim

/-- Without an event every task stays where it is. -/
theorem advances_nil {ph ph' : Phases} (h : Advances [] ph ph') : ph' = ph :=
  funext fun i => (Option.some.inj (h i)).symm

end Phases

/-- Neither dropped nor returned with an error, nor served for nobody. -/
def Event.fine : Event → Prop
  | .ret _ _ (.error _) => False
  | .dropped _ _ => False
  | .served none _ _ => False
  | _ => True

/-! ## Nothing fails -/

/-- The message fits a frame. -/
def Small {T : Type} (c : Codec T) (m : T) : Prop :=
  ∃ b, c.toStdvec m = .ok b ∧ b.length ≤ maxFrame

/-- No call is dropped, and every request and response fits a frame. -/
def Polite (creq : Codec Request) (cresp : Codec Response) (vfs : TokimoVfs σ) (st : Sys σ) :
    Label → Prop
  | .drop _ => False
  | .issue _ req => Small creq req
  | .serverHandle => ∀ req, st.server = .handling req → Small cresp (handle vfs req st.vfs).1
  | _ => True

/-- The encoding it has is the one that fits. -/
theorem Small.length_le {T : Type} {c : Codec T} {m : T} {b : Bytes} (h : Small c m)
    (henc : c.toStdvec m = .ok b) : b.length ≤ maxFrame := by
  obtain ⟨b', henc', hmax⟩ := h
  rw [henc] at henc'
  rwa [← Except.ok.inj henc'] at hmax

/-- Whether a message fits a frame can be tried out. -/
theorem small_iff {T : Type} (c : Codec T) (m : T) :
    (c.toStdvec m).toOption.any (fun b => decide (b.length ≤ maxFrame)) = true ↔ Small c m := by
  cases henc : c.toStdvec m with
  | error e =>
      constructor
      · intro h
        cases h
      · rintro ⟨b, hb, -⟩
        rw [henc] at hb
        cases hb
  | ok b =>
      constructor
      · exact fun h => ⟨b, henc, of_decide_eq_true h⟩
      · exact fun h => decide_eq_true (h.length_le henc)

instance decidableSmall {T : Type} (c : Codec T) (m : T) : Decidable (Small c m) :=
  decidable_of_iff _ (small_iff c m)

instance decidablePolite {σ : Type} (creq : Codec Request) (cresp : Codec Response)
    (vfs : TokimoVfs σ) (st : Sys σ) : (l : Label) → Decidable (Polite creq cresp vfs st l)
  | .issue _ req => decidableSmall creq req
  | .acquire _ => isTrue True.intro
  | .send _ _ => isTrue True.intro
  | .recv _ _ => isTrue True.intro
  | .broken _ _ => isTrue True.intro
  | .eof _ => isTrue True.intro
  | .drop _ => isFalse id
  | .serverRecv _ => isTrue True.intro
  | .serverHandle =>
      decidableHandling (fun req => Small cresp (handle vfs req st.vfs).1) st.server
  | .serverSend _ => isTrue True.intro

/-- A response that fits leaves the stream as the client expects it. -/
theorem Small.fits {cresp : Codec Response} {resp : Response} (h : Small cresp resp) :
    ReplyFits cresp resp :=
  fun _ hg => Or.inl (h.length_le hg)

/-- A message that fits has a frame. -/
theorem Small.framed {T : Type} {c : Codec T} {m : T} (h : Small c m) :
    ∃ b, c.toStdvec m = .ok b ∧ b.length ≤ maxFrame ∧ framed c m = .ok (frame b) := by
  obtain ⟨b, henc, hmax⟩ := h
  have h32 : b.length < 2 ^ 32 := Nat.lt_of_le_of_lt hmax (by decide)
  refine ⟨b, henc, hmax, ?_⟩
  rw [TokimoRpc.framed, henc]
  exact if_neg (Nat.not_le.mpr h32)

/-- What was encoded is decoded to itself. -/
theorem decoded_of_lawful {T : Type} {c : Codec T} (hl : c.Lawful) {m : T} {b : Bytes}
    (h : c.toStdvec m = .ok b) : decoded c b = .ok m := by
  rw [decoded, hl m b h]

section

variable {creq : Codec Request} {cresp : Codec Response} {vfs : TokimoVfs σ}
  {st st' : Sys σ} {ph : Phases} {l : Label} {es : List Event}

/-- A polite step is a calm one. -/
theorem Polite.calm (h : Polite creq cresp vfs st l) : Calm creq cresp vfs st l := by
  cases l with
  | drop i => exact h.elim
  | serverHandle => exact fun req hs => (h req hs).fits
  | issue i req => exact True.intro
  | acquire i => exact True.intro
  | send i n => exact True.intro
  | recv i n => exact True.intro
  | broken i text => exact True.intro
  | eof i => exact True.intro
  | serverRecv n => exact True.intro
  | serverSend n => exact True.intro

/-- The request a task is busy with. -/
def Task.req : Task → Option Request
  | .idle => none
  | .waiting req => some req
  | .writing req _ => some req
  | .reading req _ => some req

/-- The server serves, and no task asks too much. -/
structure Alive (creq : Codec Request) (st : Sys σ) : Prop where
  serving : st.server ≠ .stopped
  small : ∀ i req, (st.task i).req = some req → Small creq req

theorem alive_start (n : Nat) (s : σ) : Alive creq (Sys.start n s) where
  serving h := nomatch h
  small i req h := by
    rw [task_start] at h
    exact nomatch h

theorem task_set (st : Sys σ) (i : Nat) (t : Task) (h : st'.tasks = st.tasks.set i t) (j : Nat) :
    st'.task j = t ∨ st'.task j = st.task j := by
  rw [Sys.task, h]
  by_cases hj : j = i
  · by_cases hi : i < st.tasks.length
    · rw [hj]
      exact Or.inl (task_put_self hi t)
    · rw [List.set_eq_of_length_le (by omega)]
      exact Or.inr rfl
  · exact Or.inr (task_put_other st hj t)

theorem Alive.update {i : Nat} {t : Task} (h : Alive creq st)
    (htask : st'.tasks = st.tasks.set i t) (hserver : st'.server = st.server)
    (ht : ∀ req, t.req = some req → Small creq req) : Alive creq st' where
  serving := by rw [hserver]; exact h.serving
  small j req hreq := by
    rcases task_set st i t htask j with htj | htj
    · rw [htj] at hreq
      exact ht req hreq
    · rw [htj] at hreq
      exact h.small j req hreq

theorem Alive.server (h : Alive creq st) (htasks : st'.tasks = st.tasks)
    (hserver : st'.server ≠ .stopped) : Alive creq st' where
  serving := hserver
  small j req hreq := by
    rw [Sys.task, htasks] at hreq
    exact h.small j req hreq

theorem wrote_req (req : Request) (todo : Bytes) : (Task.wrote req todo).req = some req := by
  rcases wrote_cases req todo with ⟨-, hw⟩ | ⟨-, hw⟩
  · rw [hw]; rfl
  · rw [hw]; rfl

/-- A polite step fails nobody. -/
theorem alive_step (hreq : creq.Lawful) (hresp : cresp.Lawful) (h : Inv creq cresp st ph)
    (ha : Alive creq st) (hc : Polite creq cresp vfs st l)
    (hs : (system creq cresp vfs).step st l = some (st', es)) :
    Alive creq st' ∧ ∀ e ∈ es, e.fine := by
  cases l with
  | drop i => exact hc.elim
  | issue i req =>
      obtain ⟨-, -, rfl, rfl⟩ := issue_cases hs
      refine ⟨ha.update (t := .waiting req) rfl rfl ?_, by simp [Event.fine]⟩
      intro req' hr
      rw [← Option.some.inj hr]
      exact hc
  | acquire i =>
      obtain ⟨req, -, ht, hcase⟩ := acquire_cases hs
      have hsmall := ha.small i req (by rw [ht]; rfl)
      rcases hcase with ⟨e, hf, -, -⟩ | ⟨b, -, -, rfl, rfl⟩
      -- a small request is framed, so taking the lock cannot fail
      · obtain ⟨b, -, -, hf'⟩ := hsmall.framed
        rw [hf] at hf'
        cases hf'
      · refine ⟨ha.update (t := .writing req (frame b)) rfl rfl ?_, by simp⟩
        intro req' hr
        rw [← Option.some.inj hr]
        exact hsmall
  | send i n =>
      obtain ⟨req, todo, ht, rfl, rfl⟩ := send_cases hs
      refine ⟨ha.update (t := .wrote req (todo.drop (n + 1))) rfl rfl ?_, by simp⟩
      intro req' hr
      rw [wrote_req] at hr
      rw [← Option.some.inj hr]
      exact ha.small i req (by rw [ht]; rfl)
  | recv i n =>
      obtain ⟨req, got, got', s2c', ht, hr, hcase⟩ := recv_cases hs
      rcases hcase with ⟨need, -, rfl, rfl⟩ | ⟨out, hp', rfl, rfl⟩
      · refine ⟨ha.update (t := .reading req got') rfl rfl ?_, by simp⟩
        intro req' hr'
        rw [← Option.some.inj hr']
        exact ha.small i req (by rw [ht]; rfl)
      · refine ⟨ha.update (i := i) (t := .idle) rfl rfl (fun _ h => by cases h), ?_⟩
        obtain ⟨-, hx | ⟨hserver, -⟩⟩ := h.exchange (i := i) (by rw [ht]; rfl)
        -- what is read is the server's reply, which decodes
        · have hne : st.s2c ≠ [] := by
            intro hnil
            rw [hnil, readSome_nil] at hr
            cases hr
          obtain ⟨resp, g, todo, -, henc, hmax, -, hsplit, -⟩ := hx.receiving ht hne
          obtain ⟨-, hprog⟩ :=
            progress_readSome (Nat.lt_of_le_of_lt hmax (by decide)) hsplit hr
          rcases hprog with ⟨need, hmore, -⟩ | ⟨hdone, -⟩ | ⟨hbig, -⟩
          · rw [hp'] at hmore; cases hmore
          · rw [hp', decoded_of_lawful hresp henc] at hdone
            rw [Progress.done.inj hdone]
            simp [Event.fine]
          · omega
        · exact absurd hserver ha.serving
  | broken i text =>
      -- the stream breaks only behind a server that is gone
      obtain ⟨req, todo, hserver, -⟩ := broken_cases hs
      exact absurd hserver ha.serving
  | eof i =>
      obtain ⟨req, got, hserver, -⟩ := eof_cases hs
      exact absurd hserver ha.serving
  | serverRecv n =>
      obtain ⟨got, got', c2s', hserver, hr, rfl, hcase⟩ := serverRecv_cases hs
      refine ⟨?_, by simp⟩
      rcases hcase with ⟨need, -, rfl⟩ | ⟨req, -, rfl⟩ | ⟨e, hp', rfl⟩
      · exact ha.server rfl (fun h => by cases h)
      · exact ha.server rfl (fun h => by cases h)
      · -- the frame is one a task sent, so it is decoded
        exfalso
        have hne : st.c2s ≠ [] := by
          intro hnil
          rw [hnil, readSome_nil] at hr
          cases hr
        obtain ⟨i, req, b, todo, -, ht, -, henc, h32, hsplit, -⟩ := h.conn.receiving hserver hne
        have hmax := (ha.small i req (by rw [ht, wrote_req])).length_le henc
        obtain ⟨-, hprog⟩ := progress_readSome h32 hsplit hr
        rcases hprog with ⟨need, hmore, -⟩ | ⟨hdone, -⟩ | ⟨hbig, -⟩
        · rw [hp'] at hmore; cases hmore
        · rw [hp', decoded_of_lawful hreq henc] at hdone
          cases (Progress.done.inj hdone)
        · omega
  | serverHandle =>
      obtain ⟨req, hserver, rfl, rfl⟩ := serverHandle_cases hs
      obtain ⟨i, hl, -⟩ := h.conn.handling hserver
      refine ⟨ha.server rfl ?_, ?_⟩
      · obtain ⟨g, -, -, hf⟩ := (hc req hserver).framed
        show Server.reply cresp (handle vfs req st.vfs).1 ≠ .stopped
        rw [Server.reply, hf]
        exact fun h => by cases h
      · intro e he
        rw [List.mem_singleton.mp he, hl]
        exact True.intro
  | serverSend n =>
      obtain ⟨todo, -, rfl, rfl⟩ := serverSend_cases hs
      refine ⟨ha.server rfl ?_, by simp⟩
      show Server.wrote (todo.drop (n + 1)) ≠ .stopped
      rcases server_wrote_cases (todo.drop (n + 1)) with ⟨-, hw⟩ | ⟨-, hw⟩
      · rw [hw]; exact fun h => by cases h
      · rw [hw]; exact fun h => by cases h

/-! ## Every call returns -/

/-- More than any reply has left to travel: twice the length of its frame. -/
def replyCost : Nat := 2 * (4 + maxFrame)

/-- What is left to do for a task.  A byte of a request costs more than a
    reply, as reading the last one starts the reply. -/
def Task.toGo : Task → Nat
  | .idle => 0
  | .waiting _ => (replyCost + 3) * (4 + maxFrame) + 1
  | .writing _ todo => (replyCost + 3) * todo.length
  | .reading _ _ => 0

def Server.toGo : Server → Nat
  | .reading _ => 0
  | .handling _ => replyCost + 1
  | .writing todo => 2 * todo.length
  | .stopped => 0

def Sys.toGo (st : Sys σ) : Nat :=
  (st.tasks.map Task.toGo).sum + (replyCost + 2) * st.c2s.length + st.server.toGo + st.s2c.length

/-- Changing one task changes the sum by its part. -/
theorem sum_set (f : Task → Nat) :
    ∀ (l : List Task) (i : Nat) (t : Task), i < l.length →
      ((l.set i t).map f).sum + f ((l[i]?).getD .idle) = (l.map f).sum + f t := by
  intro l
  induction l with
  | nil => intro i t h; exact nomatch h
  | cons a l ih =>
      intro i t h
      cases i with
      | zero =>
          show f t + (l.map f).sum + f a = f a + (l.map f).sum + f t
          omega
      | succ i =>
          have := ih i t (Nat.lt_of_succ_lt_succ h)
          show f a + ((l.set i t).map f).sum + f ((l[i]?).getD .idle)
            = f a + (l.map f).sum + f t
          omega

theorem toGo_task {i : Nat} {t : Task} (hi : i < st.tasks.length) :
    ((st.tasks.set i t).map Task.toGo).sum + (st.task i).toGo
      = (st.tasks.map Task.toGo).sum + t.toGo :=
  sum_set Task.toGo st.tasks i t hi

theorem wrote_toGo (req : Request) (todo : Bytes) :
    (Task.wrote req todo).toGo = (replyCost + 3) * todo.length := by
  rcases wrote_cases req todo with ⟨h, hw⟩ | ⟨-, hw⟩
  · rw [hw, h]; rfl
  · rw [hw]; rfl

theorem server_wrote_toGo (todo : Bytes) : (Server.wrote todo).toGo = 2 * todo.length := by
  rcases server_wrote_cases todo with ⟨h, hw⟩ | ⟨-, hw⟩
  · rw [hw, h]; rfl
  · rw [hw]; rfl

/-- A piece that is sent has a byte at least, and leaves the rest. -/
theorem piece_length {todo : Bytes} (hne : todo ≠ []) (n : Nat) :
    0 < (todo.take (n + 1)).length
      ∧ todo.length = (todo.take (n + 1)).length + (todo.drop (n + 1)).length := by
  have hpos := List.length_pos_iff.mpr hne
  constructor
  · rw [List.length_take]
    omega
  · rw [← List.length_append, List.take_append_drop]

/-- **EVERY STEP COUNTS**: work brings the system nearer to rest. -/
theorem toGo_step (h : Inv creq cresp st ph) (ha : Alive creq st)
    (hc : Polite creq cresp vfs st l) (hw : l.work)
    (hs : (system creq cresp vfs).step st l = some (st', es)) : st'.toGo < st.toGo := by
  cases l with
  | issue i req => exact hw.elim
  | drop i => exact hw.elim
  | acquire i =>
      obtain ⟨req, -, ht, hcase⟩ := acquire_cases hs
      have hi : i < st.tasks.length := task_lt ht (fun h => by cases h)
      rcases hcase with ⟨e, -, rfl, -⟩ | ⟨b, henc, -, -, rfl⟩
      · have hsum := toGo_task (t := .idle) hi
        rw [ht] at hsum
        simp only [Task.toGo] at hsum
        simp only [Sys.toGo, Sys.put]
        omega
      · have hmax := (ha.small i req (by rw [ht]; rfl)).length_le henc
        -- the frame is paid for out of what waiting for the lock cost
        have hle : (replyCost + 3) * (frame b).length ≤ (replyCost + 3) * (4 + maxFrame) :=
          Nat.mul_le_mul_left _ (by rw [frame_length]; omega)
        have hsum := toGo_task (t := .writing req (frame b)) hi
        rw [ht] at hsum
        simp only [Task.toGo] at hsum
        simp only [Sys.toGo, Sys.put]
        omega
  | send i n =>
      obtain ⟨req, todo, ht, rfl, rfl⟩ := send_cases hs
      have hi : i < st.tasks.length := task_lt ht (fun h => by cases h)
      obtain ⟨-, hx | ⟨hserver, -⟩⟩ := h.exchange (i := i) (by rw [ht]; rfl)
      · obtain ⟨b, sgot, -, -, -, -, -, hne, -⟩ := hx.writing ht
        -- each byte that is sent is cheaper on the wire
        obtain ⟨htake, hlen⟩ := piece_length hne n
        have hsum := toGo_task (t := .wrote req (todo.drop (n + 1))) hi
        rw [ht, wrote_toGo] at hsum
        simp only [Task.toGo] at hsum
        rw [hlen] at hsum
        simp only [Sys.toGo, Sys.put, List.length_append, Nat.mul_add, Nat.add_mul] at hsum ⊢
        omega
      · exact absurd hserver ha.serving
  | recv i n =>
      obtain ⟨req, got, got', s2c', ht, hr, hcase⟩ := recv_cases hs
      have hi : i < st.tasks.length := task_lt ht (fun h => by cases h)
      obtain ⟨-, hlt, -⟩ := readSome_some hr
      rcases hcase with ⟨need, -, -, rfl⟩ | ⟨out, -, -, rfl⟩
      · have hsum := toGo_task (t := .reading req got') hi
        rw [ht] at hsum
        simp only [Task.toGo] at hsum
        simp only [Sys.toGo, Sys.put]
        omega
      · have hsum := toGo_task (t := .idle) hi
        rw [ht] at hsum
        simp only [Task.toGo] at hsum
        simp only [Sys.toGo, Sys.put, Sys.leave]
        omega
  | broken i text =>
      obtain ⟨req, todo, hserver, -⟩ := broken_cases hs
      exact absurd hserver ha.serving
  | eof i =>
      obtain ⟨req, got, hserver, -⟩ := eof_cases hs
      exact absurd hserver ha.serving
  | serverRecv n =>
      obtain ⟨got, got', c2s', hserver, hr, -, hcase⟩ := serverRecv_cases hs
      obtain ⟨-, hlt, -⟩ := readSome_some hr
      -- the last byte that is read pays for the whole reply
      have hcost : (replyCost + 2) * c2s'.length + (replyCost + 2)
          ≤ (replyCost + 2) * st.c2s.length := by
        rw [← Nat.mul_succ]
        exact Nat.mul_le_mul_left _ hlt
      rcases hcase with ⟨need, -, rfl⟩ | ⟨req, -, rfl⟩ | ⟨e, -, rfl⟩
      · simp only [Sys.toGo, hserver, Server.toGo]
        omega
      · simp only [Sys.toGo, hserver, Server.toGo]
        omega
      · simp only [Sys.toGo, hserver, Server.toGo]
        omega
  | serverHandle =>
      obtain ⟨req, hserver, rfl, -⟩ := serverHandle_cases hs
      -- no reply is longer than a frame may be
      obtain ⟨g, -, hmax, hf⟩ := (hc req hserver).framed
      have hreply : (Server.reply cresp (handle vfs req st.vfs).1).toGo ≤ replyCost := by
        rw [Server.reply, hf]
        show 2 * (frame g).length ≤ 2 * (4 + maxFrame)
        rw [frame_length]
        omega
      simp only [Sys.toGo, hserver]
      show _ < _ + _ + (replyCost + 1) + _
      omega
  | serverSend n =>
      obtain ⟨todo, hserver, -, rfl⟩ := serverSend_cases hs
      have hne : todo ≠ [] := by
        cases h.conn with
        | quiet hl hs' hin hout => rw [hserver] at hs'; cases hs'
        | dead hs' hout hgot => rw [hserver] at hs'; cases hs'
        | held i hl hx =>
            cases hx with
            | asking req b todo' sgot ht hp henc h32 hs' hsplit hmore hout =>
                rw [hserver] at hs'; cases hs'
            | handling req ht hp hs' hin hout => rw [hserver] at hs'; cases hs'
            | replying req resp g got todo' ht hp henc hmax hs' hsplit hmore hin =>
                rcases server_wrote_cases todo' with ⟨-, hw⟩ | ⟨hne, hw⟩
                · rw [hserver, hw] at hs'; cases hs'
                · rw [hserver, hw] at hs'
                  rw [Server.writing.inj hs']
                  exact hne
      obtain ⟨htake, hlen⟩ := piece_length hne n
      simp only [Sys.toGo, hserver, server_wrote_toGo, List.length_append]
      show _ < _ + _ + 2 * todo.length + _
      omega

/-- **NO DEADLOCK**: when no work is possible, every task is at rest. -/
theorem idle_of_stuck (h : Inv creq cresp st ph) (ha : Alive creq st)
    (hstuck : ∀ l, l.work → (system creq cresp vfs).step st l = none) (i : Nat) :
    st.task i = .idle := by
  cases h.conn with
  | dead hs hout hgot => exact absurd hs ha.serving
  | held j hl hx =>
      exfalso
      cases hx with
      | handling req ht hp hs hin hout =>
          have hnone : serverHandle cresp vfs st = none := hstuck .serverHandle True.intro
          rw [serverHandle, hs] at hnone
          cases hnone
      | asking req b todo sgot ht hp henc h32 hs hsplit hmore hout =>
          by_cases hin : st.c2s = []
          · -- all that is left is with the task, so it can send
            have htodo : todo ≠ [] := by
              intro hnil
              rw [hin, hnil] at hmore
              exact hmore rfl
            rcases wrote_cases req todo with ⟨hnil, -⟩ | ⟨-, hw⟩
            · exact htodo hnil
            · have hnone : send st j 0 = none := hstuck (.send j 0) True.intro
              rw [send, ht, hw] at hnone
              cases hnone
          · have hmax := (ha.small j req (by rw [ht, wrote_req])).length_le henc
            obtain ⟨got', c2s', hr⟩ := readSome_enabled (c := creq) hmax hsplit hin 0
            have hnone : serverRecv creq st 0 = none := hstuck (.serverRecv 0) True.intro
            rw [serverRecv, hs] at hnone
            simp only [hr] at hnone
            cases hp' : progress creq got' with
            | more need => rw [hp'] at hnone; cases hnone
            | done r =>
                cases r with
                | ok req' => simp only [hp'] at hnone; cases hnone
                | error e => simp only [hp'] at hnone; cases hnone
      | replying req resp g got todo ht hp henc hmax hs hsplit hmore hin =>
          by_cases hout : st.s2c = []
          -- nothing is on the way, so the server can send
          · have htodo : todo ≠ [] := by
              intro hnil
              rw [hout, hnil] at hmore
              exact hmore rfl
            rcases server_wrote_cases todo with ⟨hnil, -⟩ | ⟨-, hw⟩
            · exact htodo hnil
            · have hnone : serverSend st 0 = none := hstuck (.serverSend 0) True.intro
              rw [serverSend, hs, hw] at hnone
              cases hnone
          · obtain ⟨got', s2c', hr⟩ := readSome_enabled (c := cresp) hmax hsplit hout 0
            have hnone : recv cresp st j 0 = none := hstuck (.recv j 0) True.intro
            rw [recv, ht] at hnone
            simp only [hr] at hnone
            cases hp' : progress cresp got' with
            | more need => rw [hp'] at hnone; cases hnone
            | done out => rw [hp'] at hnone; cases hnone
  | quiet hl hs hin hout =>
      cases ht : st.task i with
      | idle => rfl
      | waiting req =>
          exfalso
          have hnone : acquire creq st i = none := hstuck (.acquire i) True.intro
          rw [acquire, hl, ht] at hnone
          cases hf : framed creq req with
          | error e => simp only [hf] at hnone; cases hnone
          | ok todo => simp only [hf] at hnone; cases hnone
      | writing req todo =>
          -- one that writes or reads would hold the lock
          have hli := (h.holder i).mp (by rw [ht]; rfl)
          rw [hl] at hli
          cases hli
      | reading req got =>
          have hli := (h.holder i).mp (by rw [ht]; rfl)
          rw [hl] at hli
          cases hli

/-! ## What work can show -/

/-- Work is silent, serves a request, or lets a call return. -/
theorem work_events (hw : l.work) (hs : (system creq cresp vfs).step st l = some (st', es)) :
    (es = [] ∧ st'.vfs = st.vfs)
      ∨ (∃ req, es = [.served st.lock req (handle vfs req st.vfs).1]
        ∧ st'.vfs = (handle vfs req st.vfs).2)
      ∨ ∃ i req out, es = [.ret i req out] ∧ st'.vfs = st.vfs := by
  cases l with
  | issue i req => exact hw.elim
  | drop i => exact hw.elim
  | acquire i =>
      obtain ⟨req, -, -, ⟨e, -, rfl, rfl⟩ | ⟨b, -, -, rfl, rfl⟩⟩ := acquire_cases hs
      · exact Or.inr (Or.inr ⟨i, req, _, rfl, rfl⟩)
      · exact Or.inl ⟨rfl, rfl⟩
  | send i n =>
      obtain ⟨req, todo, -, rfl, rfl⟩ := send_cases hs
      exact Or.inl ⟨rfl, rfl⟩
  | recv i n =>
      obtain ⟨req, got, got', s2c', -, -, ⟨need, -, rfl, rfl⟩ | ⟨out, -, rfl, rfl⟩⟩ := recv_cases hs
      · exact Or.inl ⟨rfl, rfl⟩
      · exact Or.inr (Or.inr ⟨i, req, out, rfl, rfl⟩)
  | broken i text =>
      obtain ⟨req, todo, -, -, rfl, rfl⟩ := broken_cases hs
      exact Or.inr (Or.inr ⟨i, req, _, rfl, rfl⟩)
  | eof i =>
      obtain ⟨req, got, -, -, rfl, rfl⟩ := eof_cases hs
      exact Or.inr (Or.inr ⟨i, req, _, rfl, rfl⟩)
  | serverRecv n =>
      obtain ⟨got, got', c2s', -, -, rfl, ⟨need, -, rfl⟩ | ⟨req, -, rfl⟩ | ⟨e, -, rfl⟩⟩ :=
        serverRecv_cases hs
      · exact Or.inl ⟨rfl, rfl⟩
      · exact Or.inl ⟨rfl, rfl⟩
      · exact Or.inl ⟨rfl, rfl⟩
  | serverHandle =>
      obtain ⟨req, -, rfl, rfl⟩ := serverHandle_cases hs
      exact Or.inr (Or.inl ⟨req, rfl, rfl⟩)
  | serverSend n =>
      obtain ⟨todo, -, rfl, rfl⟩ := serverSend_cases hs
      exact Or.inl ⟨rfl, rfl⟩

end

/-! ## Calls above the connection -/

/-- Every request and every response fits a frame. -/
def Fitting (creq : Codec Request) (cresp : Codec Response) (vfs : TokimoVfs σ)
    (st : Clients σ) : ClientLabel → Prop
  | .greet _ => Small creq (.hello PROTOCOL_VERSION)
  | .call _ call => Small creq (Client.request call)
  | .rpc l => Polite creq cresp vfs.recorded st.rpc l

instance decidableFitting (creq : Codec Request) (cresp : Codec Response) (vfs : TokimoVfs σ)
    (st : Clients σ) : (l : ClientLabel) → Decidable (Fitting creq cresp vfs st l)
  | .greet _ => decidableSmall creq _
  | .call _ call => decidableSmall creq (Client.request call)
  | .rpc l => decidablePolite creq cresp vfs.recorded st.rpc l

/-- What a task called for, beside the phase of its request and the stage of
    its call. -/
inductive Carries : Option VfsCall → Phase → Stage → Prop where
  | idle {doing : Option VfsCall} : Carries doing .idle .idle
  | greeting {v : UInt32} : Carries none (.pending (.hello v)) .idle
  | greeted {v : UInt32} {resp : Response} : Carries none (.answered (.hello v) resp) .idle
  | called (call : VfsCall) :
      Carries (some call) (.pending (Client.request call)) (.called call)
  | made (call : VfsCall) (resp : Response) :
      Carries (some call) (.answered (Client.request call) resp)
        (.made call (Client.answer call (.ok resp)))

/-- A task at rest has no call under way. -/
theorem Carries.of_idle {doing : Option VfsCall} {g : Stage} (h : Carries doing .idle g) :
    g = .idle := by
  cases h
  rfl

section

variable {creq : Codec Request} {cresp : Codec Response} {vfs : TokimoVfs σ} {s₀ : σ}
  {st st' : Clients σ} {tr es : List Seen} {ph : Phases} {l : ClientLabel}

/-- The calls of the tasks, the requests that carry them, and the record of
    the file system, side by side. -/
structure Carried (creq : Codec Request) (cresp : Codec Response) (vfs : TokimoVfs σ) (s₀ : σ)
    (st : Clients σ) (tr : List Seen) (ph : Phases) : Prop where
  inv : Inv creq cresp st.rpc ph
  alive : Alive creq st.rpc
  stages : ∀ i, ∃ g, stageOf i tr = some g ∧ Carries (st.doing i) (ph i) g
  holders : ∀ holder call reply, .made holder call reply ∈ tr → ∃ i, holder = some i
  recorded : st.rpc.vfs.2 = madeOf tr
  calls : Calls vfs s₀ (madeOf tr) st.rpc.vfs.1

theorem carried_start (n : Nat) (s₀ : σ) :
    Carried creq cresp vfs s₀ (Clients.start n s₀) [] (fun _ => .idle) where
  inv := inv_start n (s₀, [])
  alive := alive_start n (s₀, [])
  stages _ := ⟨.idle, rfl, .idle⟩
  holders _ _ _ h := by cases h
  recorded := rfl
  calls := rfl

theorem madeOf_append (tr es : List Seen) : madeOf (tr ++ es) = madeOf tr ++ madeOf es :=
  List.filterMap_append ..

/-- A task enters a method, or its greeting. -/
theorem Carried.enter (hreq : creq.Lawful) (hresp : cresp.Lawful)
    (h : Carried creq cresp vfs s₀ st tr ph) {i : Nat} {req : Request} {call : Option VfsCall}
    {g : Stage} {rpc : Sys (σ × List (VfsCall × Reply))} {es' : List Event}
    (hsmall : Small creq req) (hs : issue st.rpc i req = some (rpc, es'))
    (hmade : madeOf es = []) (hholders : ∀ holder call reply, .made holder call reply ∉ es)
    (hown : stageOf i tr = some .idle → stageOf i (tr ++ es) = some g)
    (hother : ∀ j, j ≠ i → stageOf j (tr ++ es) = stageOf j tr)
    (hcarries : Carries call (.pending req) g) :
    ∃ ph', Carried creq cresp vfs s₀ (st.enter i call rpc) (tr ++ es) ph' := by
  have hpolite : Polite creq cresp vfs.recorded st.rpc (.issue i req) := hsmall
  have hstep : (system creq cresp vfs.recorded).step st.rpc (.issue i req) = some (rpc, es') := hs
  obtain ⟨ph', hadv, hinv'⟩ := inv_step hreq.sound hresp.sound h.inv hpolite.calm hstep
  obtain ⟨halive', -⟩ := alive_step hreq hresp h.inv h.alive hpolite hstep
  obtain ⟨-, -, rfl, rfl⟩ := issue_cases hs
  obtain ⟨hmine, hothers⟩ := advances_own (i := i) rfl hadv
  obtain ⟨hidle, hpend⟩ := advance_issue hmine
  refine ⟨ph', hinv', halive', fun j => ?_, ?_, ?_, ?_⟩
  · obtain ⟨g₀, hg₀, hc⟩ := h.stages j
    by_cases hj : j = i
    · rw [hj] at hg₀ hc ⊢
      rw [hidle] at hc
      rw [hc.of_idle] at hg₀
      refine ⟨g, hown hg₀, ?_⟩
      rw [hpend, Clients.enter_self]
      exact hcarries
    · refine ⟨g₀, (hother j hj).trans hg₀, ?_⟩
      rw [hothers j hj, Clients.enter_other st hj]
      exact hc
  · intro holder call' reply hm
    rcases List.mem_append.mp hm with hm | hm
    · exact h.holders holder call' reply hm
    · exact absurd hm (hholders _ _ _)
  · rw [madeOf_append, hmade, List.append_nil]
    exact h.recorded
  · rw [madeOf_append, hmade, List.append_nil]
    exact h.calls

theorem greetAs_cases {i : Nat} (hs : greetAs st i = some (st', es)) :
    ∃ rpc es', issue st.rpc i (.hello PROTOCOL_VERSION) = some (rpc, es')
      ∧ st' = st.enter i none rpc ∧ es = [] := by
  rw [greetAs] at hs
  cases hi : issue st.rpc i (.hello PROTOCOL_VERSION) with
  | none =>
      rw [hi] at hs
      cases hs
  | some x =>
      rw [hi] at hs
      obtain ⟨h1, h2⟩ := Prod.mk.inj (Option.some.inj hs)
      exact ⟨x.1, x.2, rfl, h1.symm, h2.symm⟩

theorem callAs_cases {i : Nat} {call : VfsCall} (hs : callAs st i call = some (st', es)) :
    ∃ rpc es', issue st.rpc i (Client.request call) = some (rpc, es')
      ∧ st' = st.enter i (some call) rpc ∧ es = [.issue i call] := by
  rw [callAs] at hs
  cases hi : issue st.rpc i (Client.request call) with
  | none =>
      rw [hi] at hs
      cases hs
  | some x =>
      rw [hi] at hs
      obtain ⟨h1, h2⟩ := Prod.mk.inj (Option.some.inj hs)
      exact ⟨x.1, x.2, rfl, h1.symm, h2.symm⟩

theorem workAs_cases {l : Label} (hs : workAs creq cresp vfs st l = some (st', es)) :
    l.work ∧ ∃ rpc es', (system creq cresp vfs.recorded).step st.rpc l = some (rpc, es')
      ∧ st' = { st with rpc := rpc } ∧ es = st.newCalls rpc ++ es'.filterMap st.returns := by
  rw [workAs] at hs
  by_cases hw : l.work
  · rw [if_pos hw] at hs
    refine ⟨hw, ?_⟩
    cases hstep : (system creq cresp vfs.recorded).step st.rpc l with
    | none =>
        rw [hstep] at hs
        cases hs
    | some x =>
        rw [hstep] at hs
        obtain ⟨h1, h2⟩ := Prod.mk.inj (Option.some.inj hs)
        exact ⟨x.1, x.2, rfl, h1.symm, h2.symm⟩
  · rw [if_neg hw] at hs
    cases hs

/-- Nothing is put on record by a step that leaves the file system alone. -/
theorem newCalls_same {rpc : Sys (σ × List (VfsCall × Reply))} (h : rpc.vfs = st.rpc.vfs) :
    st.newCalls rpc = [] := by
  rw [Clients.newCalls, h, List.drop_length, List.map_nil]

/-- What handling a request puts on record is its call. -/
theorem newCalls_handle {rpc : Sys (σ × List (VfsCall × Reply))} {req : Request}
    (h : rpc.vfs = (handle vfs.recorded req st.rpc.vfs).2) :
    st.newCalls rpc = req.call.toList.map fun call =>
      .made st.rpc.lock call (vfs.invoke st.rpc.vfs.1 call).1 := by
  rw [Clients.newCalls, h, handle_recorded, List.drop_left, List.map_map]
  rfl

/-- The state of one task goes on, and the others stay. -/
theorem Carried.stages_step (h : Carried creq cresp vfs s₀ st tr ph) {ph' : Phases} {i : Nat}
    {g : Stage} (hothers : ∀ j, j ≠ i → ph' j = ph j)
    (hown : stageOf i (tr ++ es) = some g) (hc : Carries (st.doing i) (ph' i) g)
    (hother : ∀ j, j ≠ i → stageOf j (tr ++ es) = stageOf j tr) (j : Nat) :
    ∃ g, stageOf j (tr ++ es) = some g ∧ Carries (st.doing j) (ph' j) g := by
  by_cases hj : j = i
  · rw [hj]
    exact ⟨g, hown, hc⟩
  · rw [hothers j hj, hother j hj]
    exact h.stages j

/-- **WORK ABOVE THE CONNECTION**: a request that is served puts the call of
    its task on record, and a response that comes back is what the call
    returned. -/
theorem Carried.work (hreq : creq.Lawful) (hresp : cresp.Lawful)
    (h : Carried creq cresp vfs s₀ st tr ph) {l : Label}
    (hpolite : Polite creq cresp vfs.recorded st.rpc l)
    (hs : workAs creq cresp vfs st l = some (st', es)) :
    ∃ ph', Carried creq cresp vfs s₀ st' (tr ++ es) ph' := by
  obtain ⟨hw, rpc, es', hstep, rfl, rfl⟩ := workAs_cases hs
  obtain ⟨ph', hadv, hinv'⟩ := inv_step hreq.sound hresp.sound h.inv hpolite.calm hstep
  obtain ⟨halive', hfine⟩ := alive_step hreq hresp h.inv h.alive hpolite hstep
  -- a step with nothing to show to the tasks
  have hsilent : ∀ {es : List Seen}, es = [] → rpc.vfs.2 = st.rpc.vfs.2 →
      rpc.vfs.1 = st.rpc.vfs.1 →
      (∀ i, ∃ g, stageOf i tr = some g ∧ Carries (st.doing i) (ph' i) g) →
      ∃ ph', Carried creq cresp vfs s₀ { st with rpc := rpc } (tr ++ es) ph' := by
    rintro es rfl hlog hvfs hstages
    rw [List.append_nil]
    exact ⟨ph', hinv', halive', hstages, h.holders, hlog.trans h.recorded, by
      rw [hvfs]
      exact h.calls⟩
  rcases work_events hw hstep with ⟨rfl, hvfs⟩ | ⟨req, rfl, hvfs⟩ | ⟨i, req, out, rfl, hvfs⟩
  · refine hsilent (by rw [newCalls_same hvfs]; rfl) (by rw [hvfs]) (by rw [hvfs]) ?_
    rw [advances_nil hadv]
    exact h.stages
  · -- the server serves for the task that holds the lock
    have hserved := hfine _ (List.mem_singleton.mpr rfl)
    cases hl : st.rpc.lock with
    | none =>
        rw [hl] at hserved
        exact hserved.elim
    | some i =>
        rw [hl] at hadv
        obtain ⟨hmine, hothers⟩ := advances_own (i := i) rfl hadv
        obtain ⟨hpend, hans⟩ := advance_served hmine
        obtain ⟨g, hg, hc⟩ := h.stages i
        have hnew := newCalls_handle hvfs
        rw [hpend] at hc
        generalize hdo : st.doing i = doing at hc
        cases hc with
        | greeting =>
            -- a greeting makes no call
            refine hsilent (by rw [hnew]; rfl) (by rw [hvfs]; rfl) (by rw [hvfs]; rfl) fun j => ?_
            have hstages := h.stages_step (g := .idle) hothers
              (by rw [List.append_nil]; exact hg)
              (by rw [hans, hdo]; exact .greeted) (fun j _ => by rw [List.append_nil]) j
            rwa [List.append_nil] at hstages
        | called call =>
            obtain ⟨hanswer, hstate⟩ := answer_handle vfs call st.rpc.vfs.1
            have hmade : st.newCalls rpc
                  ++ [Event.served (some i) (Client.request call)
                    (handle vfs.recorded (Client.request call) st.rpc.vfs).1].filterMap st.returns
                = [.made (some i) call (vfs.invoke st.rpc.vfs.1 call).1] := by
              rw [hnew, hl, call_of_request]
              rfl
            rw [hmade]
            refine ⟨ph', hinv', halive', ?_, ?_, ?_, ?_⟩
            · refine h.stages_step (g := .made call (vfs.invoke st.rpc.vfs.1 call).1) hothers
                (stageOf_own hg rfl (if_pos rfl)) ?_
                (fun j hj => stageOf_other fun heq => hj (Option.some.inj heq).symm)
              rw [hans, hdo, handle_recorded, ← hanswer]
              exact .made call _
            · intro holder call' reply hm
              rcases List.mem_append.mp hm with hm | hm
              · exact h.holders holder call' reply hm
              · cases List.mem_singleton.mp hm
                exact ⟨i, rfl⟩
            · show rpc.vfs.2 = _
              rw [hvfs, handle_recorded, call_of_request, madeOf_append, h.recorded]
              rfl
            · have hcalls := Calls.snoc call h.calls
              show Calls vfs s₀ _ rpc.vfs.1
              rw [hvfs, handle_recorded, madeOf_append, hstate]
              exact hcalls
  · -- a response comes back to the task that asked
    have hret := hfine _ (List.mem_singleton.mpr rfl)
    cases out with
    | error e => exact hret.elim
    | ok resp =>
        obtain ⟨hmine, hothers⟩ := advances_own (i := i) rfl hadv
        obtain ⟨hans, hidle⟩ := advance_ret hmine
        obtain ⟨g, hg, hc⟩ := h.stages i
        rw [hans] at hc
        generalize hdo : st.doing i = doing at hc
        have hret : st.newCalls rpc ++ [Event.ret i req (.ok resp)].filterMap st.returns
            = (doing.map fun call => Seen.ret i call (Client.answer call (.ok resp))).toList := by
          rw [newCalls_same hvfs, List.nil_append, ← hdo]
          cases hd : st.doing i with
          | none => simp [Clients.returns, hd]
          | some call => simp [Clients.returns, hd]
        rw [hret]
        cases hc with
        | greeted =>
            refine hsilent rfl (by rw [hvfs]) (by rw [hvfs]) fun j => ?_
            have hstages := h.stages_step (g := .idle) hothers
              (by rw [List.append_nil]; exact hg)
              (by rw [hidle]; exact .idle) (fun j _ => by rw [List.append_nil]) j
            rwa [List.append_nil] at hstages
        | made call =>
            refine ⟨ph', hinv', halive', ?_, ?_, ?_, ?_⟩
            · exact h.stages_step (g := .idle) hothers
                (stageOf_own hg rfl (if_pos ⟨rfl, rfl⟩))
                (by rw [hidle]; exact .idle)
                (fun j hj => stageOf_other fun heq => hj (Option.some.inj heq).symm)
            · intro holder call' reply hm
              rcases List.mem_append.mp hm with hm | hm
              · exact h.holders holder call' reply hm
              · cases List.mem_singleton.mp hm
            · show rpc.vfs.2 = _
              rw [hvfs, madeOf_append, h.recorded]
              exact (List.append_nil _).symm
            · show Calls vfs s₀ _ rpc.vfs.1
              rw [hvfs, madeOf_append]
              show Calls vfs s₀ (madeOf tr ++ []) _
              rw [List.append_nil]
              exact h.calls

/-- **EVERY STEP CARRIES**: the calls of the tasks, their requests and the
    record stay side by side. -/
theorem carried_step (hreq : creq.Lawful) (hresp : cresp.Lawful)
    (h : Carried creq cresp vfs s₀ st tr ph) (hc : Fitting creq cresp vfs st l)
    (hs : (clients creq cresp vfs).step st l = some (st', es)) :
    ∃ ph', Carried creq cresp vfs s₀ st' (tr ++ es) ph' := by
  cases l with
  | rpc l => exact h.work hreq hresp hc hs
  | greet i =>
      obtain ⟨rpc, es', hi, rfl, rfl⟩ := greetAs_cases hs
      exact h.enter hreq hresp hc hi rfl (fun _ _ _ hm => by cases hm)
        (fun hg => by rw [List.append_nil]; exact hg) (fun j _ => by rw [List.append_nil])
        .greeting
  | call i call =>
      obtain ⟨rpc, es', hi, rfl, rfl⟩ := callAs_cases hs
      exact h.enter hreq hresp hc hi rfl
        (fun _ _ _ hm => by cases List.mem_singleton.mp hm)
        (fun hg => stageOf_own hg rfl rfl)
        (fun j hj => stageOf_other fun heq => hj (Option.some.inj heq).symm) (.called call)

theorem carried_run (hreq : creq.Lawful) (hresp : cresp.Lawful) {n : Nat}
    (hr : Run (clients creq cresp vfs) (Fitting creq cresp vfs) (Clients.start n s₀) st tr) :
    ∃ ph, Carried creq cresp vfs s₀ st tr ph := by
  refine Run.invariant (I := fun st tr => ∃ ph, Carried creq cresp vfs s₀ st tr ph)
    ⟨_, carried_start n s₀⟩ ?_ hr
  rintro st tr l st' es ⟨ph, h⟩ hc hs
  exact carried_step hreq hresp h hc hs

/-! ## The theorem -/

/-- **THE REMOTE FILE SYSTEM IS THE LOCAL ONE**: along runs in which everything
    fits a frame, every method that a task calls is one call of the server's
    file system, the same method with the same arguments, made for that task
    after it is issued and before it returns, and the method returns what the
    call returned.  All these calls are one sequence of calls of the file
    system, and they are all that it has on record.  And calls do return: any
    work brings the system nearer to rest, and without work left all tasks
    are at rest and all their calls have returned. -/
theorem remote_is_local (hreq : creq.Lawful) (hresp : cresp.Lawful) (n : Nat) (s₀ : σ)
    (hr : Run (clients creq cresp vfs) (Fitting creq cresp vfs) (Clients.start n s₀) st tr) :
    (∀ i, (stageOf i tr).isSome = true)
      ∧ (∀ holder call reply, .made holder call reply ∈ tr → ∃ i, holder = some i)
      ∧ Calls vfs s₀ (madeOf tr) st.rpc.vfs.1
      ∧ st.rpc.vfs.2 = madeOf tr
      ∧ (∀ l st' es, Fitting creq cresp vfs st (.rpc l) →
          (clients creq cresp vfs).step st (.rpc l) = some (st', es) →
          st'.rpc.toGo < st.rpc.toGo)
      ∧ ((∀ l, (clients creq cresp vfs).step st (.rpc l) = none) →
          ∀ i, st.rpc.task i = .idle ∧ stageOf i tr = some .idle) := by
  obtain ⟨ph, h⟩ := carried_run hreq hresp hr
  refine ⟨fun i => ?_, h.holders, h.calls, h.recorded, ?_, ?_⟩
  · obtain ⟨g, hg, -⟩ := h.stages i
    rw [hg]
    rfl
  · intro l st' es hc hs
    obtain ⟨hw, rpc, es', hstep, rfl, -⟩ := workAs_cases hs
    exact toGo_step h.inv h.alive hc hw hstep
  · intro hstuck i
    have hstill : ∀ l, l.work → (system creq cresp vfs.recorded).step st.rpc l = none := by
      intro l hw
      have hnone : workAs creq cresp vfs st l = none := hstuck l
      rw [workAs, if_pos hw] at hnone
      cases hstep : (system creq cresp vfs.recorded).step st.rpc l with
      | none => rfl
      | some x =>
          rw [hstep] at hnone
          cases hnone
    have hidle := idle_of_stuck h.inv h.alive hstill i
    obtain ⟨g, hg, hc⟩ := h.stages i
    have hrest := h.inv.fits i
    rw [hidle] at hrest
    rw [hrest.idle_phase] at hc
    exact ⟨hidle, by rw [hg, hc.of_idle]⟩

end

/-! ## Two tasks -/

/-- The second task calls while the first has the lock. -/
def twoTasks : List ClientLabel :=
  [.call 0 (.stat pathA), .rpc (.acquire 0), .call 1 (.stat pathB), .rpc (.send 0 1),
    .rpc (.serverRecv 0), .rpc (.send 0 5), .rpc (.serverRecv 2), .rpc (.serverRecv 3),
    .rpc .serverHandle, .rpc (.serverSend 12), .rpc (.recv 0 3), .rpc (.recv 0 8),
    .rpc (.acquire 1), .rpc (.send 1 7), .rpc (.serverRecv 3), .rpc (.serverRecv 3),
    .rpc .serverHandle, .rpc (.serverSend 5), .rpc (.recv 1 3), .rpc (.serverSend 6),
    .rpc (.recv 1 8)]

/-- Two tasks that ask at the same time: each gets what the file system says. -/
theorem both_calls_return :
    ∃ (st : Clients Unit) (tr : List Seen),
      .ret 1 (.stat pathB) (.attr (.ok (fileOf 2))) ∈ tr
        ∧ madeOf tr = [(.stat pathA, .attr (.ok (fileOf 1))), (.stat pathB, .attr (.ok (fileOf 2)))]
        ∧ Calls twoFiles () (madeOf tr) st.rpc.vfs.1 ∧ st.rpc.vfs.2 = madeOf tr := by
  obtain ⟨⟨st, tr⟩, hexec, htr⟩ := Option.map_eq_some_iff.mp
    (show ((clients (Codec.ofTable statRequests) (Codec.ofTable statResponses)
        twoFiles).exec (Clients.start 2 ()) twoTasks).map Prod.snd
      = some [.issue 0 (.stat pathA), .issue 1 (.stat pathB),
        .made (some 0) (.stat pathA) (.attr (.ok (fileOf 1))),
        .ret 0 (.stat pathA) (.attr (.ok (fileOf 1))),
        .made (some 1) (.stat pathB) (.attr (.ok (fileOf 2))),
        .ret 1 (.stat pathB) (.attr (.ok (fileOf 2)))] by decide +kernel)
  have hmain := remote_is_local (Codec.ofTable_lawful (by decide))
    (Codec.ofTable_lawful (by decide)) 2 () (run_of_exec twoTasks (by decide +kernel) hexec)
  have htr' : tr = _ := htr
  refine ⟨st, tr, ?_, ?_, hmain.2.2.1, hmain.2.2.2.1⟩
  · rw [htr']
    decide
  · rw [htr']
    rfl

end TokimoRpc
