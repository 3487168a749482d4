import TokimoKvm.RpcSystemProofs

/-! # Which response belongs to which request

    Responses carry no request identifier: what pairs them with requests is
    the lock and the alignment of the byte streams, nothing else.  So the
    invariant is about bytes: while a task holds the lock, what it has still
    to write, what is under way and what the server has read make up the frame
    of its request; later, what the server has still to write, what is under
    way and what the task has read make up the frame of the response to it.

    Dropping a call in the middle breaks this, and so does a response the
    client refuses to read to its end. -/

namespace TokimoRpc

open TokimoBytes TokimoMachine TokimoPath TokimoVfsCore

variable {σ : Type}

/-! ## What a task sees of itself -/

/-- Where a task's own calls stand. -/
inductive Phase where
  | idle
  | pending (req : Request)
  | answered (req : Request) (resp : Response)
  deriving DecidableEq

/-- The task an event is about. -/
def Event.who : Event → Option Nat
  | .issue i _ => some i
  | .served holder _ _ => holder
  | .ret i _ _ => some i
  | .dropped i _ => some i

/-- A call is issued; its request, and no other, is served at most once; it
    returns an error, or else the response the server made to it, or is
    dropped. -/
def Phase.advance : Phase → Event → Option Phase
  | .idle, .issue _ req => some (.pending req)
  | .pending req, .served _ req' resp => if req = req' then some (.answered req resp) else none
  | .pending req, .ret _ req' (.error _) => if req = req' then some .idle else none
  | .pending req, .dropped _ req' => if req = req' then some .idle else none
  | .answered req _, .ret _ req' (.error _) => if req = req' then some .idle else none
  | .answered req resp, .ret _ req' (.ok resp') =>
      if req = req' ∧ resp = resp' then some .idle else none
  | .answered req _, .dropped _ req' => if req = req' then some .idle else none
  | _, _ => none

/-- A task's phase behind an event, which may be another's. -/
def Phase.next (i : Nat) (ph : Phase) (e : Event) : Option Phase :=
  if e.who = some i then ph.advance e else some ph

/-- Where task `i` stands after some events, if it got no response but its
    own. -/
def phaseOf (i : Nat) (tr : List Event) : Option Phase := follow (Phase.next i) (some .idle) tr

/-- The phase goes on from where it was. -/
theorem phaseOf_append {i : Nat} {tr es : List Event} {ph : Phase} (h : phaseOf i tr = some ph) :
    phaseOf i (tr ++ es) = follow (Phase.next i) (some ph) es := by
  rw [phaseOf, follow_append]
  exact congrArg (fun p => follow (Phase.next i) p es) h

/-- Where every task stands. -/
abbrev Phases := Nat → Phase

/-- The events take every task from one phase to the next. -/
def Advances (es : List Event) (ph ph' : Phases) : Prop :=
  ∀ i, follow (Phase.next i) (some (ph i)) es = some (ph' i)

/-- Without an event nobody moves. -/
theorem Advances.refl (ph : Phases) : Advances [] ph ph := fun _ => rfl

/-- An event moves its own task. -/
theorem Advances.one {e : Event} {ph : Phases} {i : Nat} {p : Phase} (hwho : e.who = some i)
    (h : (ph i).advance e = some p) : Advances [e] ph (Function.update ph i p) := by
  intro j
  show Phase.next j (ph j) e = some (Function.update ph i p j)
  by_cases hj : j = i
  · rw [hj, Phase.next, if_pos hwho, h, Function.update_self]
  · rw [Phase.next, hwho, if_neg (by simp [Ne.symm hj]), Function.update_of_ne hj]

/-! ## The invariant -/

/-- A task and its phase agree. -/
def Fits : Task → Phase → Prop
  | .idle, .idle => True
  | .waiting req, .pending req' => req = req'
  | .writing req _, .pending req' => req = req'
  | .reading req _, .pending req' => req = req'
  | .reading req _, .answered req' _ => req = req'
  | _, _ => False

section

variable (creq : Codec Request) (cresp : Codec Response)

/-- Where the exchange of the task that holds the lock is. -/
inductive Exchange (st : Sys σ) (i : Nat) (ph : Phase) : Prop where
  | asking (req : Request) (b todo sgot : Bytes) (ht : st.task i = .wrote req todo)
      (hp : ph = .pending req) (henc : creq.toStdvec req = .ok b) (h32 : b.length < 2 ^ 32)
      (hs : st.server = .reading sgot) (hsplit : sgot ++ (st.c2s ++ todo) = frame b)
      (hmore : st.c2s ++ todo ≠ []) (hout : st.s2c = [])
  | handling (req : Request) (ht : st.task i = .reading req []) (hp : ph = .pending req)
      (hs : st.server = .handling req) (hin : st.c2s = []) (hout : st.s2c = [])
  | replying (req : Request) (resp : Response) (g got todo : Bytes)
      (ht : st.task i = .reading req got) (hp : ph = .answered req resp)
      (henc : cresp.toStdvec resp = .ok g) (hmax : g.length ≤ maxFrame)
      (hs : st.server = .wrote todo) (hsplit : got ++ (st.s2c ++ todo) = frame g)
      (hmore : st.s2c ++ todo ≠ []) (hin : st.c2s = [])

/-- The connection: nobody uses it, or a task does, or the server is gone and
    nothing it sent is left. -/
inductive Conn (st : Sys σ) (ph : Phases) : Prop where
  | quiet (hl : st.lock = none) (hs : st.server = .reading []) (hin : st.c2s = [])
      (hout : st.s2c = [])
  | held (i : Nat) (hl : st.lock = some i) (hx : Exchange creq cresp st i (ph i))
  | dead (hs : st.server = .stopped) (hout : st.s2c = []) (hgot : ∀ i, (st.task i).got = [])

/-- A task, the lock and the connection, beside the phases. -/
structure Inv (st : Sys σ) (ph : Phases) : Prop where
  fits : ∀ i, Fits (st.task i) (ph i)
  holder : ∀ i, (st.task i).busy = true ↔ st.lock = some i
  conn : Conn creq cresp st ph

end

variable {creq : Codec Request} {cresp : Codec Response}

/-- Nobody has called yet. -/
theorem inv_start (n : Nat) (s : σ) : Inv creq cresp (Sys.start n s) (fun _ => .idle) where
  fits i := by rw [task_start]; exact True.intro
  holder i := by
    rw [task_start]
    constructor
    · intro h; exact nomatch h
    · intro h; exact nomatch h
  conn := .quiet rfl rfl rfl rfl

/-- An exchange goes on whatever the other tasks do. -/
theorem Exchange.congr {st st' : Sys σ} {i : Nat} {ph : Phase} (h : Exchange creq cresp st i ph)
    (ht : st'.task i = st.task i) (hs : st'.server = st.server) (hin : st'.c2s = st.c2s)
    (hout : st'.s2c = st.s2c) : Exchange creq cresp st' i ph := by
  cases h with
  | asking req b todo sgot ht' hp henc h32 hs' hsplit hmore hout' =>
      exact .asking req b todo sgot (ht.trans ht') hp henc h32 (hs.trans hs')
        (by rw [hin]; exact hsplit) (by rw [hin]; exact hmore) (hout.trans hout')
  | handling req ht' hp hs' hin' hout' =>
      exact .handling req (ht.trans ht') hp (hs.trans hs') (hin.trans hin') (hout.trans hout')
  | replying req resp g got todo ht' hp henc hmax hs' hsplit hmore hin' =>
      exact .replying req resp g got todo (ht.trans ht') hp henc hmax (hs.trans hs')
        (by rw [hout]; exact hsplit) (by rw [hout]; exact hmore) (hin.trans hin')

/-- A step of task `i`: what the others see stays. -/
theorem Inv.update {st st' : Sys σ} {ph : Phases} {i : Nat} {p : Phase} {t : Task}
    (h : Inv creq cresp st ph) (htask : st'.tasks = st.tasks.set i t) (hi : i < st.tasks.length)
    (hfit : Fits t p) (hbusy : t.busy = true ↔ st'.lock = some i)
    (hfree : ∀ j, j ≠ i → (st'.lock = some j ↔ st.lock = some j))
    (hconn : Conn creq cresp st' (Function.update ph i p)) :
    Inv creq cresp st' (Function.update ph i p) := by
  have hself : st'.task i = t := by
    rw [Sys.task, htask]
    exact task_put_self hi t
  have hother : ∀ j, j ≠ i → st'.task j = st.task j := by
    intro j hj
    rw [Sys.task, htask]
    exact task_put_other st hj t
  refine ⟨?_, ?_, hconn⟩
  · intro j
    by_cases hj : j = i
    · rw [hj, hself, Function.update_self]
      exact hfit
    · rw [hother j hj, Function.update_of_ne hj]
      exact h.fits j
  · intro j
    by_cases hj : j = i
    · rw [hj, hself]
      exact hbusy
    · rw [hother j hj, hfree j hj]
      exact h.holder j

/-- A task that does not hold the lock does something without it. -/
theorem Inv.outside {st : Sys σ} {ph : Phases} {i : Nat} {t : Task} {p : Phase}
    (h : Inv creq cresp st ph) (hi : i < st.tasks.length) (hnot : (st.task i).busy = false)
    (ht : t.busy = false) (hfit : Fits t p) :
    Inv creq cresp (st.put i t) (Function.update ph i p) := by
  have hlock : st.lock ≠ some i := by
    intro hl
    rw [(h.holder i).mpr hl] at hnot
    exact nomatch hnot
  refine h.update rfl hi hfit ?_ (fun j _ => Iff.rfl) ?_
  · constructor
    · intro hb
      rw [ht] at hb
      exact nomatch hb
    · intro hl
      exact absurd hl hlock
  · cases h.conn with
    | quiet hl hs hin hout => exact .quiet hl hs hin hout
    | held j hl hx =>
        have hj : j ≠ i := by
          intro hji
          rw [hji] at hl
          exact hlock hl
        refine .held j hl ?_
        rw [Function.update_of_ne hj]
        exact hx.congr (task_put_other st hj t) rfl rfl rfl
    | dead hs hout hgot =>
        refine .dead hs hout ?_
        intro j
        by_cases hj : j = i
        · rw [hj, task_put_self hi t]
          cases t with
          | idle => rfl
          | waiting req => rfl
          | writing req todo => rfl
          | reading req got => exact nomatch ht
        · rw [task_put_other st hj]
          exact hgot j

/-- What the task that holds the lock may find. -/
theorem Inv.exchange {st : Sys σ} {ph : Phases} {i : Nat} (h : Inv creq cresp st ph)
    (hb : (st.task i).busy = true) :
    st.lock = some i ∧ (Exchange creq cresp st i (ph i)
      ∨ (st.server = .stopped ∧ st.s2c = [] ∧ ∀ j, (st.task j).got = [])) := by
  have hlock := (h.holder i).mp hb
  refine ⟨hlock, ?_⟩
  cases h.conn with
  | quiet hl hs hin hout => rw [hlock] at hl; exact nomatch hl
  | held j hl hx =>
      rw [hlock] at hl
      rw [Option.some.inj hl]
      exact Or.inl hx
  | dead hs hout hgot => exact Or.inr ⟨hs, hout, hgot⟩

/-- Only the holder of the lock can have read something. -/
theorem Inv.got_nil {st : Sys σ} {ph : Phases} {i : Nat} (h : Inv creq cresp st ph)
    (hl : st.lock = some i) (hi : (st.task i).got = []) (j : Nat) : (st.task j).got = [] := by
  by_cases hj : j = i
  · rw [hj, hi]
  · cases ht : st.task j with
    | idle => rfl
    | waiting req => rfl
    | writing req todo => rfl
    | reading req got =>
        have hlj := (h.holder j).mp (by rw [ht]; rfl)
        rw [hl] at hlj
        exact absurd (Option.some.inj hlj).symm hj

/-- With the server gone, nothing is left of what it sent. -/
theorem Inv.stopped {st : Sys σ} {ph : Phases} (h : Inv creq cresp st ph)
    (hs : st.server = .stopped) : st.s2c = [] ∧ ∀ j, (st.task j).got = [] := by
  cases h.conn with
  | quiet hl hs' hin hout => rw [hs] at hs'; exact nomatch hs'
  | held i hl hx =>
      cases hx with
      | asking req b todo sgot ht hp henc h32 hs' hsplit hmore hout =>
          rw [hs] at hs'; exact nomatch hs'
      | handling req ht hp hs' hin hout => rw [hs] at hs'; exact nomatch hs'
      | replying req resp g got todo ht hp henc hmax hs' hsplit hmore hin =>
          rcases server_wrote_cases todo with ⟨-, hw⟩ | ⟨-, hw⟩
          · rw [hs, hw] at hs'; exact nomatch hs'
          · rw [hs, hw] at hs'; exact nomatch hs'
  | dead hs' hout hgot => exact ⟨hout, hgot⟩

/-- A task that does nothing has no call. -/
theorem fits_idle {ph : Phase} (h : Fits .idle ph) : ph = .idle := by
  cases ph with
  | idle => rfl
  | pending req => exact h.elim
  | answered req resp => exact h.elim

/-- One that waits for the lock has its call before it. -/
theorem fits_waiting {req : Request} {ph : Phase} (h : Fits (.waiting req) ph) :
    ph = .pending req := by
  cases ph with
  | idle => exact h.elim
  | pending req' => exact congrArg Phase.pending (Eq.symm h)
  | answered req' resp => exact h.elim

/-- One that writes has it before it too. -/
theorem fits_writing {req : Request} {todo : Bytes} {ph : Phase}
    (h : Fits (.writing req todo) ph) : ph = .pending req := by
  cases ph with
  | idle => exact h.elim
  | pending req' => exact congrArg Phase.pending (Eq.symm h)
  | answered req' resp => exact h.elim

/-- One that reads has it before it, or its answer under way. -/
theorem fits_reading {req : Request} {got : Bytes} {ph : Phase}
    (h : Fits (.reading req got) ph) : ph = .pending req ∨ ∃ resp, ph = .answered req resp := by
  cases ph with
  | idle => exact h.elim
  | pending req' => exact Or.inl (congrArg Phase.pending (Eq.symm h))
  | answered req' resp => exact Or.inr ⟨resp, by rw [Eq.symm h]⟩

/-- A call may fail wherever it stands. -/
theorem fails {t : Task} {req : Request} {ph : Phase} (i : Nat) (e : FrameError)
    (ht : t = .waiting req ∨ (∃ todo, t = .writing req todo) ∨ ∃ got, t = .reading req got)
    (h : Fits t ph) : ph.advance (.ret i req (.error e)) = some .idle := by
  rcases ht with rfl | ⟨todo, rfl⟩ | ⟨got, rfl⟩
  · rw [fits_waiting h]
    exact if_pos rfl
  · rw [fits_writing h]
    exact if_pos rfl
  · rcases fits_reading h with hp | ⟨resp, hp⟩
    · rw [hp]
      exact if_pos rfl
    · rw [hp]
      exact if_pos rfl

/-- A call may be dropped wherever it stands. -/
theorem drops {t : Task} {req : Request} {ph : Phase} (i : Nat)
    (ht : t = .waiting req ∨ (∃ todo, t = .writing req todo) ∨ ∃ got, t = .reading req got)
    (h : Fits t ph) : ph.advance (.dropped i req) = some .idle := by
  rcases ht with rfl | ⟨todo, rfl⟩ | ⟨got, rfl⟩
  · rw [fits_waiting h]
    exact if_pos rfl
  · rw [fits_writing h]
    exact if_pos rfl
  · rcases fits_reading h with hp | ⟨resp, hp⟩
    · rw [hp]
      exact if_pos rfl
    · rw [hp]
      exact if_pos rfl

/-! ## What each step preserves -/

section

variable {vfs : TokimoVfs σ} {st st' : Sys σ} {ph : Phases} {i n : Nat} {es : List Event}

/-- There are phases the events lead to that keep the invariant. -/
def Goes (creq : Codec Request) (cresp : Codec Response) (ph : Phases) (st' : Sys σ)
    (es : List Event) : Prop :=
  ∃ ph', Advances es ph ph' ∧ Inv creq cresp st' ph'

/-- A step of one task that is seen by nobody. -/
theorem Goes.silent (h : Inv creq cresp st' (Function.update ph i (ph i))) :
    Goes creq cresp ph st' [] := by
  rw [Function.update_eq_self] at h
  exact ⟨ph, Advances.refl ph, h⟩

/-- The holder of the lock ends its call on a connection in order, or on one
    that is dead. -/
theorem Goes.leave {e : Event} {req : Request} (h : Inv creq cresp st ph)
    (ht : (∃ todo, st.task i = .writing req todo) ∨ ∃ got, st.task i = .reading req got)
    (htask : st'.tasks = st.tasks.set i .idle) (hlock : st'.lock = none)
    (hwho : e.who = some i) (he : (ph i).advance e = some .idle)
    (hconn : (st'.server = .reading [] ∧ st'.c2s = [] ∧ st'.s2c = [])
      ∨ (st'.server = .stopped ∧ st'.s2c = [] ∧ ∀ j, (st.task j).got = [])) :
    Goes creq cresp ph st' [e] := by
  have hne : st.task i ≠ .idle := by
    rcases ht with ⟨todo, ht⟩ | ⟨got, ht⟩
    · rw [ht]; exact fun h => nomatch h
    · rw [ht]; exact fun h => nomatch h
  have hi := task_lt rfl hne
  have hbusy : (st.task i).busy = true := by
    rcases ht with ⟨todo, ht⟩ | ⟨got, ht⟩
    · rw [ht]; rfl
    · rw [ht]; rfl
  obtain ⟨hl, -⟩ := h.exchange hbusy
  refine ⟨_, Advances.one hwho he, h.update htask hi True.intro ?_ ?_ ?_⟩
  · rw [hlock]
    constructor
    · intro h; exact nomatch h
    · intro h; exact nomatch h
  · intro j hj
    rw [hlock, hl]
    constructor
    · intro h; exact nomatch h
    · intro h; exact absurd (Option.some.inj h).symm hj
  · rcases hconn with ⟨hs, hin, hout⟩ | ⟨hs, hout, hgot⟩
    · exact .quiet hlock hs hin hout
    · refine .dead hs hout ?_
      intro j
      show (((st'.tasks)[j]?).getD .idle).got = []
      rw [htask]
      by_cases hj : j = i
      · rw [hj]
        exact congrArg Task.got (task_put_self hi .idle)
      · exact (congrArg Task.got (task_put_other st hj .idle)).trans (hgot j)

/-- The holder of the lock goes on with its call. -/
theorem Goes.holder {t : Task} (h : Inv creq cresp st ph) (hi : i < st.tasks.length)
    (htask : st'.tasks = st.tasks.set i t) (hlock : st'.lock = st.lock) (hl : st.lock = some i)
    (hfit : Fits t (ph i)) (hbusy : t.busy = true)
    (hconn : Exchange creq cresp st' i (ph i)
      ∨ (st'.server = .stopped ∧ st'.s2c = [] ∧ t.got = [] ∧ ∀ j, (st.task j).got = [])) :
    Goes creq cresp ph st' [] := by
  refine Goes.silent (i := i) (h.update htask hi hfit ?_ ?_ ?_)
  · rw [hlock, hl]
    exact ⟨fun _ => rfl, fun _ => hbusy⟩
  · intro j _
    rw [hlock]
  · rw [Function.update_eq_self]
    rcases hconn with hx | ⟨hs, hout, ht, hgot⟩
    · exact .held i (hlock.trans hl) hx
    · refine .dead hs hout ?_
      intro j
      show (((st'.tasks)[j]?).getD .idle).got = []
      rw [htask]
      by_cases hj : j = i
      · rw [hj]
        exact (congrArg Task.got (task_put_self hi t)).trans ht
      · exact (congrArg Task.got (task_put_other st hj t)).trans (hgot j)

/-- An issue begins a call. -/
theorem inv_issue {req : Request} (h : Inv creq cresp st ph)
    (hs : issue st i req = some (st', es)) : Goes creq cresp ph st' es := by
  obtain ⟨hi, ht, rfl, rfl⟩ := issue_cases hs
  have hfit := h.fits i
  rw [ht] at hfit
  refine ⟨_, Advances.one (p := .pending req) rfl ?_, h.outside hi ?_ rfl rfl⟩
  · rw [fits_idle hfit]
    rfl
  · rw [ht]
    rfl

/-- Taking the lock leaves the phases as they are. -/
theorem inv_acquire (h : Inv creq cresp st ph) (hs : acquire creq st i = some (st', es)) :
    Goes creq cresp ph st' es := by
  obtain ⟨req, hl, ht, hcase⟩ := acquire_cases hs
  have hi : i < st.tasks.length := task_lt ht (fun h => nomatch h)
  have hfit := h.fits i
  rw [ht] at hfit
  rcases hcase with ⟨e, -, rfl, rfl⟩ | ⟨b, henc, h32, rfl, rfl⟩
  · exact ⟨_, Advances.one (p := .idle) rfl (fails i e (Or.inl rfl) hfit),
      h.outside hi (by rw [ht]; rfl) rfl True.intro⟩
  · refine Goes.silent (i := i) (h.update (t := .writing req (frame b)) rfl hi ?_ ?_ ?_ ?_)
    · rw [fits_waiting hfit]
      exact rfl
    · exact ⟨fun _ => rfl, fun _ => rfl⟩
    · intro j hj
      rw [hl]
      constructor
      · intro h; exact absurd (Option.some.inj h).symm hj
      · intro h; exact nomatch h
    · rw [Function.update_eq_self]
      cases h.conn with
      | held j hl' hx => rw [hl] at hl'; exact nomatch hl'
      | quiet hl' hserver hin hout =>
          refine .held i rfl (.asking req b (frame b) [] ?_ (fits_waiting hfit) henc h32 hserver
            ?_ ?_ hout)
          · rcases wrote_cases req (frame b) with ⟨hnil, -⟩ | ⟨-, hw⟩
            · exact absurd hnil (frame_ne_nil b)
            · rw [hw]
              exact task_put_self hi _
          · show [] ++ (st.c2s ++ frame b) = frame b
            rw [hin]
            rfl
          · intro hnil
            exact frame_ne_nil b (List.append_eq_nil_iff.mp hnil).2
      | dead hserver hout hgot =>
          refine .dead hserver hout ?_
          intro j
          by_cases hj : j = i
          · rw [hj]
            exact congrArg Task.got (task_put_self hi (.writing req (frame b)))
          · exact (congrArg Task.got (task_put_other st hj _)).trans (hgot j)

/-- A task with bytes left is the one that asks. -/
theorem Exchange.writing {req : Request} {todo : Bytes} {p : Phase}
    (h : Exchange creq cresp st i p) (ht : st.task i = .writing req todo) :
    ∃ b sgot, p = .pending req ∧ creq.toStdvec req = .ok b ∧ b.length < 2 ^ 32
      ∧ st.server = .reading sgot ∧ sgot ++ (st.c2s ++ todo) = frame b ∧ todo ≠ []
      ∧ st.s2c = [] := by
  cases h with
  | handling req' ht' hp hs hin hout => rw [ht] at ht'; exact nomatch ht'
  | replying req' resp g got todo' ht' hp henc hmax hs hsplit hmore hin =>
      rw [ht] at ht'; exact nomatch ht'
  | asking req' b todo' sgot ht' hp henc h32 hs hsplit hmore hout =>
      rcases wrote_cases req' todo' with ⟨-, hw⟩ | ⟨hne, hw⟩
      · rw [ht, hw] at ht'; exact nomatch ht'
      · rw [ht, hw] at ht'
        obtain ⟨h1, h2⟩ := Task.writing.inj ht'
        rw [h1, h2]
        exact ⟨b, sgot, hp, henc, h32, hs, hsplit, hne, hout⟩

/-- So does a piece of the frame. -/
theorem inv_send (h : Inv creq cresp st ph) (hs : send st i n = some (st', es)) :
    Goes creq cresp ph st' es := by
  obtain ⟨req, todo, ht, rfl, rfl⟩ := send_cases hs
  have hi : i < st.tasks.length := task_lt ht (fun h => nomatch h)
  have hfit := h.fits i
  rw [ht] at hfit
  have hpend := fits_writing hfit
  obtain ⟨hl, hx⟩ := h.exchange (i := i) (by rw [ht]; rfl)
  have hfit' : Fits (.wrote req (todo.drop (n + 1))) (ph i)
      ∧ (Task.wrote req (todo.drop (n + 1))).busy = true
      ∧ (Task.wrote req (todo.drop (n + 1))).got = [] := by
    rw [hpend]
    rcases wrote_cases req (todo.drop (n + 1)) with ⟨-, hw⟩ | ⟨-, hw⟩
    · rw [hw]
      exact ⟨rfl, rfl, rfl⟩
    · rw [hw]
      exact ⟨rfl, rfl, rfl⟩
  refine Goes.holder h hi rfl rfl hl hfit'.1 hfit'.2.1 ?_
  rcases hx with hx | ⟨hserver, hout, hgot⟩
  · obtain ⟨b, sgot, hp, henc, h32, hserver, hsplit, hne, hout⟩ := hx.writing ht
    have hsame : st.c2s ++ todo.take (n + 1) ++ todo.drop (n + 1) = st.c2s ++ todo := by
      rw [List.append_assoc, List.take_append_drop]
    refine Or.inl (.asking req b (todo.drop (n + 1)) sgot (task_put_self hi _) hp henc h32
      hserver ?_ ?_ hout)
    · show sgot ++ (st.c2s ++ todo.take (n + 1) ++ todo.drop (n + 1)) = frame b
      rw [hsame, hsplit]
    · show st.c2s ++ todo.take (n + 1) ++ todo.drop (n + 1) ≠ []
      rw [hsame]
      exact fun hnil => hne (List.append_eq_nil_iff.mp hnil).2
  · exact Or.inr ⟨hserver, hout, hfit'.2.2, hgot⟩

/-- A task that can read is the one that is replied to. -/
theorem Exchange.receiving {req : Request} {got : Bytes} {p : Phase}
    (h : Exchange creq cresp st i p) (ht : st.task i = .reading req got) (hne : st.s2c ≠ []) :
    ∃ resp g todo, p = .answered req resp ∧ cresp.toStdvec resp = .ok g ∧ g.length ≤ maxFrame
      ∧ st.server = .wrote todo ∧ got ++ (st.s2c ++ todo) = frame g ∧ st.c2s = [] := by
  cases h with
  | asking req' b todo sgot ht' hp henc h32 hs hsplit hmore hout => exact absurd hout hne
  | handling req' ht' hp hs hin hout => exact absurd hout hne
  | replying req' resp g got' todo ht' hp henc hmax hs hsplit hmore hin =>
      rw [ht] at ht'
      obtain ⟨h1, h2⟩ := Task.reading.inj ht'
      rw [h1, h2]
      exact ⟨resp, g, todo, hp, henc, hmax, hs, hsplit, hin⟩

/-- A reply that is complete is the call's own. -/
theorem inv_recv (hsound : cresp.Sound) (h : Inv creq cresp st ph)
    (hs : recv cresp st i n = some (st', es)) : Goes creq cresp ph st' es := by
  obtain ⟨req, got, got', s2c', ht, hr, hcase⟩ := recv_cases hs
  have hi : i < st.tasks.length := task_lt ht (fun h => nomatch h)
  have hfit := h.fits i
  rw [ht] at hfit
  have hne : st.s2c ≠ [] := by
    intro hnil
    rw [hnil, readSome_nil] at hr
    exact nomatch hr
  obtain ⟨hl, hx | ⟨-, hout, -⟩⟩ := h.exchange (i := i) (by rw [ht]; rfl)
  · obtain ⟨resp, g, todo, hp, henc, hmax, hserver, hsplit, hin⟩ := hx.receiving ht hne
    have h32 : g.length < 2 ^ 32 := Nat.lt_of_le_of_lt hmax (by decide)
    obtain ⟨hsplit', hprog⟩ := progress_readSome h32 hsplit hr
    rcases hcase with ⟨need, hp', rfl, rfl⟩ | ⟨out, hp', rfl, rfl⟩
    · rcases hprog with ⟨need', -, hmore⟩ | ⟨hdone, -⟩ | ⟨hbig, -⟩
      · exact Goes.holder h hi rfl rfl hl (t := .reading req got') (by rw [hp]; exact rfl) rfl
          (Or.inl (.replying req resp g got' todo (task_put_self hi _) hp henc hmax hserver
            hsplit' hmore hin))
      · rw [hp'] at hdone; exact nomatch hdone
      · omega
    · rcases hprog with ⟨need', hmore, -⟩ | ⟨hdone, hout', htodo⟩ | ⟨hbig, -⟩
      · rw [hp'] at hmore; exact nomatch hmore
      · -- the frame is complete, so both pipes are empty and the server reads again
        rw [hp'] at hdone
        have hres : out = decoded cresp g := Progress.done.inj hdone
        refine Goes.leave h (Or.inr ⟨got, ht⟩) rfl rfl rfl ?_
          (Or.inl ⟨?_, hin, hout'⟩)
        · rw [hres, hp]
          rcases decoded_cases cresp g with ⟨m, hm, hdec⟩ | ⟨e, hdec⟩
          · rw [hdec, hsound resp g m henc hm]
            exact if_pos ⟨rfl, rfl⟩
          · rw [hdec]
            exact if_pos rfl
        · show st.server = .reading []
          rw [hserver, htodo]
          rfl
      · omega
  · exact absurd hout hne

/-- A failing stream ends the call with an error. -/
theorem inv_broken {text : String} (h : Inv creq cresp st ph)
    (hs : broken st i text = some (st', es)) : Goes creq cresp ph st' es := by
  obtain ⟨req, todo, hserver, ht, rfl, rfl⟩ := broken_cases hs
  obtain ⟨hout, hgot⟩ := h.stopped hserver
  exact Goes.leave h (Or.inl ⟨todo, ht⟩) rfl rfl rfl
    (fails i _ (Or.inr (Or.inl ⟨todo, ht⟩)) (h.fits i)) (Or.inr ⟨hserver, hout, hgot⟩)

/-- So does one that is over. -/
theorem inv_eof (h : Inv creq cresp st ph) (hs : eof st i = some (st', es)) :
    Goes creq cresp ph st' es := by
  obtain ⟨req, got, hserver, ht, rfl, rfl⟩ := eof_cases hs
  obtain ⟨hout, hgot⟩ := h.stopped hserver
  exact Goes.leave h (Or.inr ⟨got, ht⟩) rfl rfl rfl
    (fails i _ (Or.inr (Or.inr ⟨got, ht⟩)) (h.fits i)) (Or.inr ⟨hserver, hout, hgot⟩)

/-- Task `i` is dropped before the first byte of its request is out, or when
    the server is gone anyway. -/
def DropsClean (creq : Codec Request) (st : Sys σ) (i : Nat) : Prop :=
  (∃ req, st.task i = .waiting req)
    ∨ (∃ req todo, st.task i = .writing req todo ∧ framed creq req = .ok todo)
    ∨ st.server = .stopped

/-- Whether a call that is dropped now is dropped clean. -/
def Task.clean (creq : Codec Request) : Task → Bool
  | .waiting _ => true
  | .writing req todo => decide (framed creq req = .ok todo)
  | _ => false

/-- A call is dropped clean before its first byte, or when the server is gone. -/
theorem dropsClean_iff {st : Sys σ} {i : Nat} :
    ((st.task i).clean creq = true ∨ st.server = .stopped) ↔ DropsClean creq st i := by
  rw [DropsClean, ← or_assoc]
  refine or_congr ?_ Iff.rfl
  cases st.task i with
  | idle => simp [Task.clean]
  | waiting req => simp [Task.clean]
  | writing req todo => simp [Task.clean]
  | reading req got => simp [Task.clean]

/-- So it can be tried. -/
instance decidableDropsClean (creq : Codec Request) (st : Sys σ) (i : Nat) :
    Decidable (DropsClean creq st i) :=
  decidable_of_iff _ dropsClean_iff

/-- A call that is dropped clean leaves nothing behind. -/
theorem inv_drop (hclean : DropsClean creq st i) (h : Inv creq cresp st ph)
    (hs : drop st i = some (st', es)) : Goes creq cresp ph st' es := by
  obtain ⟨req, rfl, ⟨ht, rfl⟩ | ⟨ht, rfl⟩⟩ := drop_cases hs
  · exact ⟨_, Advances.one (p := .idle) rfl (drops i (Or.inl ht) (h.fits i)),
      h.outside (task_lt ht (fun h => nomatch h)) (by rw [ht]; rfl) rfl True.intro⟩
  · refine Goes.leave h ht rfl rfl rfl (drops i (Or.inr ht) (h.fits i)) ?_
    rcases hclean with ⟨req', hwait⟩ | ⟨req', todo, hwrite, hf⟩ | hserver
    · rcases ht with ⟨todo, ht⟩ | ⟨got, ht⟩
      · rw [hwait] at ht; exact nomatch ht
      · rw [hwait] at ht; exact nomatch ht
    · obtain ⟨-, hx | ⟨hserver, hout, hgot⟩⟩ := h.exchange (i := i) (by rw [hwrite]; rfl)
      · -- all of the frame is still to be written, so none of it is anywhere else
        obtain ⟨b, sgot, -, henc, -, hserver, hsplit, -, hout⟩ := hx.writing hwrite
        obtain ⟨b', henc', -, rfl⟩ := framed_ok hf
        rw [henc] at henc'
        rw [← Except.ok.inj henc'] at hsplit
        have hlen := congrArg List.length hsplit
        rw [List.length_append, List.length_append] at hlen
        have hsgot : sgot = [] := List.length_eq_zero_iff.mp (by omega)
        have hin : st.c2s = [] := List.length_eq_zero_iff.mp (by omega)
        exact Or.inl ⟨by rw [← hsgot]; exact hserver, hin, hout⟩
      · exact Or.inr ⟨hserver, hout, hgot⟩
    · obtain ⟨hout, hgot⟩ := h.stopped hserver
      exact Or.inr ⟨hserver, hout, hgot⟩

/-- A server that can read is the one that is asked. -/
theorem Conn.receiving {got : Bytes} (h : Conn creq cresp st ph)
    (hserver : st.server = .reading got) (hne : st.c2s ≠ []) :
    ∃ i req b todo, st.lock = some i ∧ st.task i = .wrote req todo ∧ ph i = .pending req
      ∧ creq.toStdvec req = .ok b ∧ b.length < 2 ^ 32
      ∧ got ++ (st.c2s ++ todo) = frame b ∧ st.s2c = [] := by
  cases h with
  | quiet hl hs hin hout => exact absurd hin hne
  | dead hs hout hgot => rw [hserver] at hs; exact nomatch hs
  | held i hl hx =>
      cases hx with
      | asking req b todo sgot ht hp henc h32 hs hsplit hmore hout =>
          rw [hserver] at hs
          rw [← Server.reading.inj hs] at hsplit
          exact ⟨i, req, b, todo, hl, ht, hp, henc, h32, hsplit, hout⟩
      | handling req ht hp hs hin hout => exact absurd hin hne
      | replying req resp g got' todo ht hp henc hmax hs hsplit hmore hin => exact absurd hin hne

/-- A step of the server alone. -/
theorem Inv.server (h : Inv creq cresp st ph) (htasks : st'.tasks = st.tasks)
    (hlock : st'.lock = st.lock) (hconn : Conn creq cresp st' ph) : Inv creq cresp st' ph := by
  have htask : ∀ j, st'.task j = st.task j := fun j => by rw [Sys.task, htasks]; rfl
  refine ⟨?_, ?_, hconn⟩
  · intro j
    rw [htask j]
    exact h.fits j
  · intro j
    rw [htask j, hlock]
    exact h.holder j

/-- The server reads the request of the call that holds the lock. -/
theorem inv_serverRecv (hsound : creq.Sound) (h : Inv creq cresp st ph)
    (hs : serverRecv creq st n = some (st', es)) : Goes creq cresp ph st' es := by
  obtain ⟨got, got', c2s', hserver, hr, rfl, hcase⟩ := serverRecv_cases hs
  have hne : st.c2s ≠ [] := by
    intro hnil
    rw [hnil, readSome_nil] at hr
    exact nomatch hr
  obtain ⟨i, req, b, todo, hl, ht, hp, henc, h32, hsplit, hout⟩ := h.conn.receiving hserver hne
  obtain ⟨hsplit', hprog⟩ := progress_readSome h32 hsplit hr
  have hgot : ∀ j, (st.task j).got = [] := by
    refine h.got_nil hl ?_
    rcases wrote_cases req todo with ⟨-, hw⟩ | ⟨-, hw⟩
    · rw [ht, hw]; rfl
    · rw [ht, hw]; rfl
  rcases hcase with ⟨need, hp', rfl⟩ | ⟨req', hp', rfl⟩ | ⟨e, hp', rfl⟩
  · refine ⟨ph, Advances.refl ph, h.server rfl rfl (.held i hl ?_)⟩
    rcases hprog with ⟨need', -, hmore⟩ | ⟨hdone, -⟩ | ⟨-, e, hdone⟩
    · exact .asking req b todo got' ht hp henc h32 rfl hsplit' hmore hout
    · rw [hp'] at hdone; exact nomatch hdone
    · rw [hp'] at hdone; exact nomatch hdone
  · refine ⟨ph, Advances.refl ph, h.server rfl rfl (.held i hl ?_)⟩
    rcases hprog with ⟨need', hmore, -⟩ | ⟨hdone, hin, htodo⟩ | ⟨-, e, hdone⟩
    · rw [hp'] at hmore; exact nomatch hmore
    · rw [hp'] at hdone
      have hdec : decoded creq b = .ok req' := (Progress.done.inj hdone).symm
      rw [htodo] at ht
      rcases decoded_cases creq b with ⟨m, hm, hdec'⟩ | ⟨e, hdec'⟩
      · rw [hdec] at hdec'
        rw [Except.ok.inj hdec', hsound req b m henc hm]
        exact .handling req ht hp rfl hin hout
      · rw [hdec] at hdec'; exact nomatch hdec'
    · rw [hp'] at hdone; exact nomatch (Progress.done.inj hdone)
  · exact ⟨ph, Advances.refl ph, h.server rfl rfl (.dead rfl hout hgot)⟩

/-- A server that handles a request handles that of the task with the lock. -/
theorem Conn.handling {req : Request} (h : Conn creq cresp st ph)
    (hserver : st.server = .handling req) :
    ∃ i, st.lock = some i ∧ st.task i = .reading req [] ∧ ph i = .pending req ∧ st.c2s = []
      ∧ st.s2c = [] := by
  cases h with
  | quiet hl hs hin hout => rw [hserver] at hs; exact nomatch hs
  | dead hs hout hgot => rw [hserver] at hs; exact nomatch hs
  | held i hl hx =>
      cases hx with
      | asking req' b todo sgot ht hp henc h32 hs hsplit hmore hout =>
          rw [hserver] at hs; exact nomatch hs
      | handling req' ht hp hs hin hout =>
          rw [hserver] at hs
          rw [Server.handling.inj hs]
          exact ⟨i, hl, ht, hp, hin, hout⟩
      | replying req' resp g got todo ht hp henc hmax hs hsplit hmore hin =>
          rcases server_wrote_cases todo with ⟨-, hw⟩ | ⟨-, hw⟩
          · rw [hserver, hw] at hs; exact nomatch hs
          · rw [hserver, hw] at hs; exact nomatch hs

/-- The response is one that the server gives up on or the client reads to
    its end. -/
def ReplyFits (cresp : Codec Response) (resp : Response) : Prop :=
  ∀ g, cresp.toStdvec resp = .ok g → g.length ≤ maxFrame ∨ 2 ^ 32 ≤ g.length

/-- Whether a response has no frame that is sent and then refused. -/
def fitsReply (cresp : Codec Response) (resp : Response) : Bool :=
  (cresp.toStdvec resp).toOption.all fun g => decide (g.length ≤ maxFrame ∨ 2 ^ 32 ≤ g.length)

/-- Whether a reply fits, computed. -/
theorem fitsReply_iff {resp : Response} : fitsReply cresp resp = true ↔ ReplyFits cresp resp := by
  rw [fitsReply, ReplyFits]
  cases cresp.toStdvec resp with
  | error e => simp [Except.toOption]
  | ok g => simp [Except.toOption]

/-- So it can be tried. -/
instance decidableReplyFits (cresp : Codec Response) (resp : Response) :
    Decidable (ReplyFits cresp resp) :=
  decidable_of_iff _ fitsReply_iff

/-- A reply that fits is written, or the server stops. -/
theorem reply_cases (resp : Response) (hfits : ReplyFits cresp resp) :
    Server.reply cresp resp = .stopped
      ∨ ∃ g, cresp.toStdvec resp = .ok g ∧ g.length ≤ maxFrame
        ∧ Server.reply cresp resp = .wrote (frame g) := by
  rw [Server.reply]
  cases hf : framed cresp resp with
  | error e => exact Or.inl rfl
  | ok f =>
      obtain ⟨g, henc, h32, rfl⟩ := framed_ok hf
      refine Or.inr ⟨g, henc, ?_, ?_⟩
      · rcases hfits g henc with h | h
        · exact h
        · omega
      · rcases server_wrote_cases (frame g) with ⟨hnil, -⟩ | ⟨-, hw⟩
        · exact absurd hnil (frame_ne_nil g)
        · exact hw.symm

/-- Serving is where the call gets its answer. -/
theorem inv_serverHandle
    (hfits : ∀ req, st.server = .handling req → ReplyFits cresp (handle vfs req st.vfs).1)
    (h : Inv creq cresp st ph) (hs : serverHandle cresp vfs st = some (st', es)) :
    Goes creq cresp ph st' es := by
  obtain ⟨req, hserver, rfl, rfl⟩ := serverHandle_cases hs
  obtain ⟨i, hl, ht, hp, hin, hout⟩ := h.conn.handling hserver
  have hi : i < st.tasks.length := task_lt ht (fun h => nomatch h)
  have hgot : ∀ j, (st.task j).got = [] := h.got_nil hl (by rw [ht]; rfl)
  refine ⟨Function.update ph i (.answered req (handle vfs req st.vfs).1),
    Advances.one hl (by rw [hp]; exact if_pos rfl), ?_⟩
  have hset : st.tasks = st.tasks.set i (.reading req []) := by
    have hget : st.tasks[i] = .reading req [] := by
      have h' := ht
      rw [Sys.task, List.getElem?_eq_getElem hi] at h'
      exact h'
    rw [← hget, List.set_getElem_self]
  refine h.update (t := .reading req []) hset hi rfl ?_ (fun j _ => Iff.rfl) ?_
  · exact ⟨fun _ => hl, fun _ => rfl⟩
  · rcases reply_cases _ (hfits req hserver) with hstop | ⟨g, henc, hmax, hreply⟩
    · exact .dead hstop hout hgot
    · refine .held i hl ?_
      rw [Function.update_self]
      refine .replying req _ g [] (frame g) ht rfl henc hmax hreply ?_ ?_ hin
      · show [] ++ (st.s2c ++ frame g) = frame g
        rw [hout]
        rfl
      · intro hnil
        exact frame_ne_nil g (List.append_eq_nil_iff.mp hnil).2

/-- A piece of the reply leaves the phases as they are. -/
theorem inv_serverSend (h : Inv creq cresp st ph) (hs : serverSend st n = some (st', es)) :
    Goes creq cresp ph st' es := by
  obtain ⟨todo, hserver, rfl, rfl⟩ := serverSend_cases hs
  refine ⟨ph, Advances.refl ph, h.server rfl rfl ?_⟩
  cases h.conn with
  | quiet hl hs' hin hout => rw [hserver] at hs'; exact nomatch hs'
  | dead hs' hout hgot => rw [hserver] at hs'; exact nomatch hs'
  | held i hl hx =>
      cases hx with
      | asking req b todo' sgot ht hp henc h32 hs' hsplit hmore hout =>
          rw [hserver] at hs'; exact nomatch hs'
      | handling req ht hp hs' hin hout => rw [hserver] at hs'; exact nomatch hs'
      | replying req resp g got todo' ht hp henc hmax hs' hsplit hmore hin =>
          rcases server_wrote_cases todo' with ⟨-, hw⟩ | ⟨-, hw⟩
          · rw [hserver, hw] at hs'; exact nomatch hs'
          · rw [hserver, hw] at hs'
            rw [← Server.writing.inj hs'] at hsplit hmore
            have hsame : st.s2c ++ todo.take (n + 1) ++ todo.drop (n + 1) = st.s2c ++ todo := by
              rw [List.append_assoc, List.take_append_drop]
            refine .held i hl (.replying req resp g got (todo.drop (n + 1)) ht hp henc hmax rfl
              ?_ ?_ hin)
            · show got ++ (st.s2c ++ todo.take (n + 1) ++ todo.drop (n + 1)) = frame g
              rw [hsame, hsplit]
            · show st.s2c ++ todo.take (n + 1) ++ todo.drop (n + 1) ≠ []
              rw [hsame]
              exact hmore

end

/-! ## Runs -/

/-- No call is dropped between the first byte of its request and the last
    byte of its response, unless the server is gone, and no response is one
    that is sent and then refused. -/
def Calm (creq : Codec Request) (cresp : Codec Response) (vfs : TokimoVfs σ) (st : Sys σ) :
    Label → Prop
  | .drop i => DropsClean creq st i
  | .serverHandle => ∀ req, st.server = .handling req →
      ReplyFits cresp (handle vfs req st.vfs).1
  | _ => True

/-- Whether a step is calm can be tried. -/
instance decidableCalm (creq : Codec Request) (cresp : Codec Response) (vfs : TokimoVfs σ)
    (st : Sys σ) : (l : Label) → Decidable (Calm creq cresp vfs st l)
  | .issue _ _ => isTrue True.intro
  | .acquire _ => isTrue True.intro
  | .send _ _ => isTrue True.intro
  | .recv _ _ => isTrue True.intro
  | .broken _ _ => isTrue True.intro
  | .eof _ => isTrue True.intro
  | .drop i => decidableDropsClean creq st i
  | .serverRecv _ => isTrue True.intro
  | .serverHandle =>
      decidableHandling (fun req => ReplyFits cresp (handle vfs req st.vfs).1) st.server
  | .serverSend _ => isTrue True.intro

/-- **THE STEP**: a calm step keeps every response with its request. -/
theorem inv_step {vfs : TokimoVfs σ} (hreq : creq.Sound) (hresp : cresp.Sound) {st st' : Sys σ}
    {ph : Phases} {l : Label} {es : List Event} (h : Inv creq cresp st ph)
    (hc : Calm creq cresp vfs st l) (hs : (system creq cresp vfs).step st l = some (st', es)) :
    Goes creq cresp ph st' es := by
  cases l with
  | issue i req => exact inv_issue h hs
  | acquire i => exact inv_acquire h hs
  | send i n => exact inv_send h hs
  | recv i n => exact inv_recv hresp h hs
  | broken i text => exact inv_broken h hs
  | eof i => exact inv_eof h hs
  | drop i => exact inv_drop hc h hs
  | serverRecv n => exact inv_serverRecv hreq h hs
  | serverHandle => exact inv_serverHandle hc h hs
  | serverSend n => exact inv_serverSend h hs

/-- **THE RUN**: along calm runs every task's calls are well paired. -/
theorem inv_run {vfs : TokimoVfs σ} (hreq : creq.Sound) (hresp : cresp.Sound) {n : Nat} {s₀ : σ}
    {st : Sys σ} {tr : List Event}
    (hr : Run (system creq cresp vfs) (Calm creq cresp vfs) (Sys.start n s₀) st tr) :
    ∃ ph : Phases, (∀ i, phaseOf i tr = some (ph i)) ∧ Inv creq cresp st ph := by
  refine Run.invariant
    (I := fun st tr => ∃ ph : Phases, (∀ i, phaseOf i tr = some (ph i)) ∧ Inv creq cresp st ph)
    ?_ ?_ hr
  · exact ⟨fun _ => .idle, fun _ => rfl, inv_start n s₀⟩
  · rintro st tr l st' es ⟨ph, hph, h⟩ hc hs
    obtain ⟨ph', hadv, h'⟩ := inv_step hreq hresp h hc hs
    refine ⟨ph', fun i => ?_, h'⟩
    rw [phaseOf_append (hph i), hadv i]

/-- The server is gone and nothing it sent is left. -/
def Gone (st : Sys σ) : Prop := st.server = .stopped ∧ st.s2c = []

/-- Every call that returns fails. -/
def OnlyErrors (tr : List Event) : Prop :=
  ∀ i req out, .ret i req out ∈ tr → ∃ e, out = .error e

/-- A call that fails returns an error. -/
theorem OnlyErrors.failed (i : Nat) (req : Request) (e : FrameError) :
    OnlyErrors [.ret i req (.error e)] := by
  intro j req' out hm
  exact ⟨e, (Event.ret.inj (List.mem_singleton.mp hm)).2.2⟩

/-- Errors only, and then errors only. -/
theorem OnlyErrors.append {tr es : List Event} (h : OnlyErrors tr) (h' : OnlyErrors es) :
    OnlyErrors (tr ++ es) := by
  intro i req out hm
  rcases List.mem_append.mp hm with hm | hm
  · exact h i req out hm
  · exact h' i req out hm

/-- A dead connection stays dead, and calls on it fail. -/
theorem gone_step {vfs : TokimoVfs σ} {st st' : Sys σ} {l : Label} {es : List Event}
    (h : Gone st) (hs : (system creq cresp vfs).step st l = some (st', es)) :
    Gone st' ∧ OnlyErrors es := by
  -- most steps return from no call
  have hquiet : (∀ i req out, .ret i req out ∉ es) → OnlyErrors es :=
    fun h i req out hm => absurd hm (h i req out)
  obtain ⟨hserver, hout⟩ := h
  cases l with
  | issue i req =>
      obtain ⟨-, -, rfl, rfl⟩ := issue_cases hs
      exact ⟨⟨hserver, hout⟩, hquiet (by simp)⟩
  | acquire i =>
      obtain ⟨req, -, -, ⟨e, -, rfl, rfl⟩ | ⟨b, -, -, rfl, rfl⟩⟩ := acquire_cases hs
      · exact ⟨⟨hserver, hout⟩, OnlyErrors.failed i req e⟩
      · exact ⟨⟨hserver, hout⟩, hquiet (by simp)⟩
  | send i n =>
      obtain ⟨req, todo, -, rfl, rfl⟩ := send_cases hs
      exact ⟨⟨hserver, hout⟩, hquiet (by simp)⟩
  | recv i n =>
      obtain ⟨req, got, got', s2c', -, hr, -⟩ := recv_cases hs
      rw [hout, readSome_nil] at hr
      exact nomatch hr
  | broken i text =>
      obtain ⟨req, todo, -, -, rfl, rfl⟩ := broken_cases hs
      exact ⟨⟨hserver, hout⟩, OnlyErrors.failed i req _⟩
  | eof i =>
      obtain ⟨req, got, -, -, rfl, rfl⟩ := eof_cases hs
      exact ⟨⟨hserver, hout⟩, OnlyErrors.failed i req _⟩
  | drop i =>
      obtain ⟨req, rfl, ⟨-, rfl⟩ | ⟨-, rfl⟩⟩ := drop_cases hs
      · exact ⟨⟨hserver, hout⟩, hquiet (by simp)⟩
      · exact ⟨⟨hserver, hout⟩, hquiet (by simp)⟩
  | serverRecv n =>
      obtain ⟨got, got', c2s', hread, -⟩ := serverRecv_cases hs
      rw [hserver] at hread
      exact nomatch hread
  | serverHandle =>
      obtain ⟨req, hhandle, -⟩ := serverHandle_cases hs
      rw [hserver] at hhandle
      exact nomatch hhandle
  | serverSend n =>
      obtain ⟨todo, hwrite, -⟩ := serverSend_cases hs
      rw [hserver] at hwrite
      exact nomatch hwrite

/-- Over a server that is gone there are only errors. -/
theorem gone_run {vfs : TokimoVfs σ} {st₀ st : Sys σ} {tr : List Event} (h : Gone st₀)
    (hr : Run (system creq cresp vfs) always st₀ st tr) : Gone st ∧ OnlyErrors tr := by
  refine Run.invariant (I := fun st tr => Gone st ∧ OnlyErrors tr) ?_ ?_ hr
  · exact ⟨h, fun _ _ _ hm => nomatch hm⟩
  · rintro st tr l st' es ⟨hg, hold⟩ - hs
    obtain ⟨hg', hnew⟩ := gone_step hg hs
    exact ⟨hg', hold.append hnew⟩

/-- **FAILURES ARE CONTAINED** in calm runs: every call that returns a
    response returns the one the server made to its own request, whatever
    failed or was dropped before it, and once the server is gone calls only
    return errors. -/
theorem responses_contained {vfs : TokimoVfs σ} (hreq : creq.Sound) (hresp : cresp.Sound)
    (n : Nat) (s₀ : σ) {st : Sys σ} {tr : List Event}
    (hr : Run (system creq cresp vfs) (Calm creq cresp vfs) (Sys.start n s₀) st tr) :
    (∀ i, (phaseOf i tr).isSome = true)
      ∧ Handles vfs s₀ (servedOf tr) st.vfs
      ∧ (st.server = .stopped → ∀ st' tr', Run (system creq cresp vfs) always st st' tr' →
          OnlyErrors tr') := by
  obtain ⟨ph, hph, hinv⟩ := inv_run hreq hresp hr
  refine ⟨?_, ?_, ?_⟩
  · intro i
    rw [hph i]
    rfl
  · exact handles_run (hr.weaken (fun _ _ _ => True.intro))
  · intro hserver st' tr' hr'
    exact (gone_run ⟨hserver, (hinv.stopped hserver).1⟩ hr').2

/-! ## A dropped call -/

/-- Two paths to ask for. -/
def pathA : PathBuf := .ofBytes [0x2f, 0x61]
def pathB : PathBuf := .ofBytes [0x2f, 0x62]

/-- The attributes of a regular file of some size. -/
def fileOf (size : Nat) : FileAttr where
  size := size
  mode := 0o644
  kind := .file
  mtimeSecs := 0
  atimeSecs := 0
  ctimeSecs := 0

/-- A file system with the files `/a` of one byte and `/b` of two. -/
def twoFiles : TokimoVfs Unit where
  stat p := if p = pathA then Eff.ok (fileOf 1) else if p = pathB then Eff.ok (fileOf 2)
    else Eff.fail .notFound
  list _ := Eff.fail .permissionDenied
  read _ _ _ := Eff.fail .permissionDenied
  write _ _ _ := Eff.fail .permissionDenied
  create _ _ := Eff.fail .permissionDenied
  mkdir _ _ := Eff.fail .permissionDenied
  remove _ := Eff.fail .permissionDenied
  rmdir _ := Eff.fail .permissionDenied
  rename _ _ := Eff.fail .permissionDenied
  truncate _ _ := Eff.fail .permissionDenied

/-- The requests for the two, in postcard's bytes. -/
def statRequests : List (Request × Bytes) :=
  [(.stat pathA, [1, 2, 0x2f, 0x61]), (.stat pathB, [1, 2, 0x2f, 0x62])]

/-- And all that the server may respond for this file system. -/
def statResponses : List (Response × Bytes) :=
  [(.hello 1, [0, 1]),
    (.stat (.ok (fileOf 1)), [1, 0, 1, 0xa4, 3, 0, 0, 0, 0]),
    (.stat (.ok (fileOf 2)), [1, 0, 2, 0xa4, 3, 0, 0, 0, 0]),
    (.stat (.error .notFound), [1, 1, 0]),
    (.list (.error .permissionDenied), [2, 1, 1]),
    (.read (.error .permissionDenied), [3, 1, 1]),
    (.write (.error .permissionDenied), [4, 1, 1]),
    (.create (.error .permissionDenied), [5, 1, 1]),
    (.mkdir (.error .permissionDenied), [6, 1, 1]),
    (.remove (.error .permissionDenied), [7, 1, 1]),
    (.rmdir (.error .permissionDenied), [8, 1, 1]),
    (.rename (.error .permissionDenied), [9, 1, 1]),
    (.truncate (.error .permissionDenied), [10, 1, 1])]

/-- A task's whole exchange, up to the reading of the response. -/
def statLabels (i : Nat) (p : PathBuf) : List Label :=
  [.issue i (.stat p), .acquire i, .send i 7, .serverRecv 3, .serverRecv 3, .serverHandle,
    .serverSend 12]

/-- A call of `/a` is dropped when the response is on its way; the next call,
    of `/b`, takes that response for its own. -/
theorem stale_response_is_accepted :
    (Codec.ofTable statRequests).Lawful ∧ (Codec.ofTable statResponses).Lawful
      ∧ ∃ (st : Sys Unit) (tr : List Event),
        Run (system (Codec.ofTable statRequests) (Codec.ofTable statResponses) twoFiles) always
          (Sys.start 2 ()) st tr
        ∧ .ret 1 (.stat pathB) (.ok (.stat (.ok (fileOf 1)))) ∈ tr
        ∧ (handle twoFiles (.stat pathB) ()).1 = .stat (.ok (fileOf 2))
        ∧ phaseOf 1 tr = none := by
  refine ⟨Codec.ofTable_lawful (by decide), Codec.ofTable_lawful (by decide), ?_⟩
  obtain ⟨st, hr⟩ := run_of_trace
    (M := system (Codec.ofTable statRequests) (Codec.ofTable statResponses) twoFiles)
    (s := Sys.start 2 ())
    (statLabels 0 pathA ++ [.drop 0, .issue 1 (.stat pathB), .acquire 1, .send 1 7, .recv 1 3,
      .recv 1 8])
    [.issue 0 (.stat pathA), .served (some 0) (.stat pathA) (.stat (.ok (fileOf 1))),
      .dropped 0 (.stat pathA), .issue 1 (.stat pathB),
      .ret 1 (.stat pathB) (.ok (.stat (.ok (fileOf 1))))] (by decide +kernel)
  exact ⟨st, _, hr, by decide, by decide, by decide⟩

/-- Task 0 has a call whose request has no encoding, and one of `/a`.  Task 1
    gives up a call of `/b` while it waits for the lock and one that has the
    lock and no byte out, and calls again. -/
def twoCalls : List Label :=
  [.issue 0 (.hello 1), .acquire 0, .issue 0 (.stat pathA), .acquire 0, .issue 1 (.stat pathB),
    .drop 1, .send 0 7, .serverRecv 3, .serverRecv 3, .serverHandle, .serverSend 12, .recv 0 3,
    .recv 0 8, .issue 1 (.stat pathB), .acquire 1, .drop 1] ++ statLabels 1 pathB
    ++ [.recv 1 3, .recv 1 8]

/-- After a call that failed and two that were dropped, each call gets its own
    response. -/
theorem own_responses_are_returned :
    ∃ (st : Sys Unit) (tr : List Event),
      .ret 0 (.hello 1) (.error (.encode "unsupported")) ∈ tr
        ∧ .dropped 1 (.stat pathB) ∈ tr
        ∧ .ret 0 (.stat pathA) (.ok (.stat (.ok (fileOf 1)))) ∈ tr
        ∧ .ret 1 (.stat pathB) (.ok (.stat (.ok (fileOf 2)))) ∈ tr
        ∧ (∀ i, (phaseOf i tr).isSome = true)
        ∧ Handles twoFiles () (servedOf tr) st.vfs
        ∧ (st.server = .stopped → ∀ st' tr',
            Run (system (Codec.ofTable statRequests) (Codec.ofTable statResponses) twoFiles)
              always st st' tr' → OnlyErrors tr') := by
  obtain ⟨⟨st, tr⟩, hexec, htr⟩ := Option.map_eq_some_iff.mp
    (show ((system (Codec.ofTable statRequests) (Codec.ofTable statResponses) twoFiles).exec
      (Sys.start 2 ()) twoCalls).map Prod.snd
      = some [.issue 0 (.hello 1), .ret 0 (.hello 1) (.error (.encode "unsupported")),
        .issue 0 (.stat pathA), .issue 1 (.stat pathB), .dropped 1 (.stat pathB),
        .served (some 0) (.stat pathA) (.stat (.ok (fileOf 1))),
        .ret 0 (.stat pathA) (.ok (.stat (.ok (fileOf 1)))), .issue 1 (.stat pathB),
        .dropped 1 (.stat pathB), .issue 1 (.stat pathB),
        .served (some 1) (.stat pathB) (.stat (.ok (fileOf 2))),
        .ret 1 (.stat pathB) (.ok (.stat (.ok (fileOf 2))))] by decide +kernel)
  have hcalm : (system (Codec.ofTable statRequests) (Codec.ofTable statResponses) twoFiles).Along
      (Calm (Codec.ofTable statRequests) (Codec.ofTable statResponses) twoFiles) (Sys.start 2 ())
      twoCalls := by decide +kernel
  have htr' : tr = _ := htr
  refine ⟨st, tr, ?_, ?_, ?_, ?_, responses_contained (Codec.ofTable_lawful (by decide)).sound
    (Codec.ofTable_lawful (by decide)).sound 2 () (run_of_exec _ hcalm hexec)⟩
  · rw [htr']
    decide
  · rw [htr']
    decide
  · rw [htr']
    decide
  · rw [htr']
    decide

end TokimoRpc
