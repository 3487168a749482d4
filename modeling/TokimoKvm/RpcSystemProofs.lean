import TokimoKvm.RpcSystem

/-! # What one step of the system can do

    Small facts about tasks and about frames on their way, and for each choice
    the one lemma that says what it does: later proofs case on these and never
    unfold a step. -/

namespace TokimoRpc

open TokimoBytes TokimoMachine TokimoVfsCore

variable {σ : Type}

/-! ## Tasks -/

@[simp]
theorem put_lock (st : Sys σ) (i : Nat) (t : Task) : (st.put i t).lock = st.lock := rfl

@[simp]
theorem put_server (st : Sys σ) (i : Nat) (t : Task) : (st.put i t).server = st.server := rfl

@[simp]
theorem put_c2s (st : Sys σ) (i : Nat) (t : Task) : (st.put i t).c2s = st.c2s := rfl

@[simp]
theorem put_s2c (st : Sys σ) (i : Nat) (t : Task) : (st.put i t).s2c = st.s2c := rfl

@[simp]
theorem put_vfs (st : Sys σ) (i : Nat) (t : Task) : (st.put i t).vfs = st.vfs := rfl

/-- A task that is not idle is one of the tasks. -/
theorem task_lt {st : Sys σ} {i : Nat} {t : Task} (h : st.task i = t) (ht : t ≠ .idle) :
    i < st.tasks.length := by
  by_cases hi : i < st.tasks.length
  · exact hi
  · rw [Sys.task, List.getElem?_eq_none (by omega)] at h
    exact absurd h.symm ht

/-- A task by its place in the list. -/
theorem task_of_getElem? {st : Sys σ} {i : Nat} {t : Task} (h : st.tasks[i]? = some t) :
    i < st.tasks.length ∧ st.task i = t := by
  obtain ⟨hi, -⟩ := List.getElem?_eq_some_iff.mp h
  exact ⟨hi, by rw [Sys.task, h]; rfl⟩

/-- A task that was put has its new state. -/
theorem task_put_self {st : Sys σ} {i : Nat} (h : i < st.tasks.length) (t : Task) :
    (st.put i t).task i = t := by
  show ((st.tasks.set i t)[i]?).getD .idle = t
  rw [List.getElem?_set_self h]
  rfl

/-- The others stay. -/
theorem task_put_other (st : Sys σ) {i j : Nat} (h : j ≠ i) (t : Task) :
    (st.put i t).task j = st.task j := by
  show ((st.tasks.set i t)[j]?).getD .idle = (st.tasks[j]?).getD .idle
  rw [List.getElem?_set_ne (Ne.symm h)]

/-- All tasks begin idle. -/
theorem task_start (n : Nat) (s : σ) (i : Nat) : (Sys.start n s).task i = .idle := by
  show ((List.replicate n Task.idle)[i]?).getD .idle = .idle
  rw [List.getElem?_replicate]
  by_cases h : i < n
  · rw [if_pos h]; rfl
  · rw [if_neg h]; rfl

/-- Inside a call, holding the lock. -/
def Task.busy : Task → Bool
  | .writing _ _ => true
  | .reading _ _ => true
  | _ => false

/-- What a task has read of a response. -/
def Task.got : Task → Bytes
  | .reading _ got => got
  | _ => []

/-- Behind the last byte a task waits for its response; before it, it goes on
    writing. -/
theorem wrote_cases (req : Request) (todo : Bytes) :
    (todo = [] ∧ Task.wrote req todo = .reading req [])
      ∨ (todo ≠ [] ∧ Task.wrote req todo = .writing req todo) := by
  cases todo with
  | nil => exact Or.inl ⟨rfl, rfl⟩
  | cons b bs => exact Or.inr ⟨List.cons_ne_nil b bs, rfl⟩

/-- Behind the last byte the server reads again. -/
theorem server_wrote_cases (todo : Bytes) :
    (todo = [] ∧ Server.wrote todo = .reading [])
      ∨ (todo ≠ [] ∧ Server.wrote todo = .writing todo) := by
  cases todo with
  | nil => exact Or.inl ⟨rfl, rfl⟩
  | cons b bs => exact Or.inr ⟨List.cons_ne_nil b bs, rfl⟩

/-- What is asked of the request in hand is decided at that request. -/
instance decidableHandling (p : Request → Prop) [(req : Request) → Decidable (p req)] :
    (server : Server) → Decidable (∀ req, server = .handling req → p req)
  | .reading _ => isTrue fun req heq => by cases heq
  | .handling req =>
      decidable_of_iff (p req)
        ⟨fun hp _ heq => Server.handling.inj heq ▸ hp, fun hall => hall req rfl⟩
  | .writing _ => isTrue fun req heq => by cases heq
  | .stopped => isTrue fun req heq => by cases heq

/-- What is asked of a writer is decided at what it writes. -/
instance decidableWriting (p : Request → Bytes → Prop)
    [(req : Request) → (todo : Bytes) → Decidable (p req todo)] :
    (t : Task) → Decidable (∀ req todo, t = .writing req todo → p req todo)
  | .idle => isTrue fun req todo heq => by cases heq
  | .waiting _ => isTrue fun req todo heq => by cases heq
  | .writing req todo =>
      decidable_of_iff (p req todo) (by
        constructor
        · intro hp req' todo' heq
          obtain ⟨rfl, rfl⟩ := Task.writing.inj heq
          exact hp
        · exact fun hall => hall req todo rfl)
  | .reading _ _ => isTrue fun req todo heq => by cases heq

/-! ## Frames on their way -/

section

variable {T : Type} {c : Codec T}

/-- A message that encodes to a payload of a fitting length has a frame. -/
theorem framed_of_fits {msg : T} {b : Bytes} (henc : c.toStdvec msg = .ok b)
    (h32 : b.length < 2 ^ 32) : framed c msg = .ok (frame b) := by
  rw [framed, henc]
  exact if_neg (by omega)

/-- A frame is that of the message's encoding, which is short enough. -/
theorem framed_ok {msg : T} {f : Bytes} (h : framed c msg = .ok f) :
    ∃ b, c.toStdvec msg = .ok b ∧ b.length < 2 ^ 32 ∧ f = frame b := by
  rw [framed] at h
  cases henc : c.toStdvec msg with
  | error text => rw [henc] at h; exact nomatch h
  | ok b =>
      simp only [henc] at h
      by_cases hbig : 2 ^ 32 ≤ b.length
      · rw [if_pos hbig] at h; exact nomatch h
      · rw [if_neg hbig] at h
        exact ⟨b, rfl, by omega, (Except.ok.inj h).symm⟩

/-- Until its first byte, `writeFrame` is `framed`. -/
theorem writeFrame_framed (w : Sink) (msg : T) :
    match framed c msg with
    | .error e => writeFrame c w msg = (.error e, w)
    | .ok f => ∃ part, part <+: f ∧ (writeFrame c w msg).2.written = w.written ++ part := by
  rcases writeFrame_cases c w msg with ⟨text, henc, hw⟩ | ⟨b, henc, hbig, hw⟩
    | ⟨b, w', henc, hlt, hw, hout⟩ | ⟨b, text, w', part, henc, hlt, hw, hpre, hout⟩
  · simp only [framed, henc]
    exact hw
  · simp only [framed, henc, if_pos hbig]
    exact hw
  · simp only [framed, henc, if_neg (Nat.not_le.mpr hlt), hw]
    exact ⟨frame b, List.prefix_refl _, hout⟩
  · simp only [framed, henc, if_neg (Nat.not_le.mpr hlt), hw]
    exact ⟨part, hpre, hout⟩

/-- A frame has bytes, if only those of its length. -/
theorem frame_ne_nil (payload : Bytes) : frame payload ≠ [] := by
  intro h
  have hlen := frame_length payload
  rw [h, List.length_nil] at hlen
  omega

/-- Nothing can be taken from an empty stream. -/
theorem readSome_nil {T : Type} {c : Codec T} {got : Bytes} : readSome c got [] n = none := by
  rw [readSome]
  cases progress c got with
  | done r => rfl
  | more need => rfl

/-- What a reader takes comes off the front of the stream. -/
theorem readSome_some {got stream got' stream' : Bytes} {n : Nat}
    (h : readSome c got stream n = some (got', stream')) :
    got' ++ stream' = got ++ stream ∧ stream'.length < stream.length
      ∧ ∃ need, progress c got = .more need ∧ got'.length ≤ got.length + need := by
  rw [readSome] at h
  cases hp : progress c got with
  | done r => rw [hp] at h; exact nomatch h
  | more need =>
      have hpos := progress_more_pos c hp
      simp only [hp] at h
      by_cases hs : stream = []
      · rw [if_pos hs] at h; exact nomatch h
      · rw [if_neg hs] at h
        obtain ⟨h1, h2⟩ := Prod.mk.inj (Option.some.inj h)
        have hlen := List.length_pos_iff.mpr hs
        refine ⟨?_, ?_, need, rfl, ?_⟩
        · rw [← h1, ← h2, List.append_assoc, List.take_append_drop]
        · rw [← h2, List.length_drop]; omega
        · rw [← h1, List.length_append, List.length_take]; omega

/-- Inside a frame below the limit a reader can take what is there. -/
theorem readSome_enabled {payload got stream rest : Bytes} (hmax : payload.length ≤ maxFrame)
    (hsplit : got ++ (stream ++ rest) = frame payload) (hs : stream ≠ []) (n : Nat) :
    ∃ got' stream', readSome c got stream n = some (got', stream') := by
  obtain ⟨need, hp, -⟩ := progress_inside c hmax hsplit (by simp [hs])
  refine ⟨got ++ stream.take (min (n + 1) need), stream.drop (min (n + 1) need), ?_⟩
  rw [readSome, hp]
  exact if_neg hs

/-- Taking bytes of a frame: more of it is to come, or the message is read,
    or the frame is over the limit and is refused. -/
theorem progress_readSome {payload got stream rest got' stream' : Bytes} {n : Nat}
    (h32 : payload.length < 2 ^ 32) (hsplit : got ++ (stream ++ rest) = frame payload)
    (h : readSome c got stream n = some (got', stream')) :
    got' ++ (stream' ++ rest) = frame payload
      ∧ ((∃ need, progress c got' = .more need ∧ stream' ++ rest ≠ [])
        ∨ (progress c got' = .done (decoded c payload) ∧ stream' = [] ∧ rest = [])
        ∨ (maxFrame < payload.length ∧ ∃ e, progress c got' = .done (.error e))) := by
  obtain ⟨hsame, -, need, hneed, hlen⟩ := readSome_some h
  have hsplit' : got' ++ (stream' ++ rest) = frame payload := by
    rw [← List.append_assoc, hsame, List.append_assoc, hsplit]
  refine ⟨hsplit', ?_⟩
  by_cases hmax : payload.length ≤ maxFrame
  · by_cases hend : stream' ++ rest = []
    · rw [hend, List.append_nil] at hsplit'
      obtain ⟨h1, h2⟩ := List.append_eq_nil_iff.mp hend
      exact Or.inr (Or.inl ⟨by rw [hsplit', progress_frame c hmax], h1, h2⟩)
    · obtain ⟨need', hp, -⟩ := progress_inside c hmax hsplit' hend
      exact Or.inl ⟨need', hp, hend⟩
  · -- the reader stops at the header, so it never has more than four bytes
    have hbig : maxFrame < payload.length := by omega
    have h4 : got'.length ≤ 4 := by
      by_cases hg : got.length < 4
      · rw [progress, if_pos hg] at hneed
        have := Progress.more.inj hneed
        omega
      · exfalso
        have htake : got.take 4 = u32ToBe payload.length := by
          have h1 : (got ++ (stream ++ rest)).take 4 = got.take 4 :=
            List.take_append_of_le_length (by omega)
          rw [← h1, hsplit]
          exact List.take_left' (u32ToBe_length _)
        rw [progress, if_neg hg, htake, u32FromBe_toBe h32, if_pos hbig] at hneed
        cases hneed
    have hp := progress_oversized c hbig h32 hsplit' h4
    by_cases hg' : got'.length < 4
    · rw [if_pos hg'] at hp
      refine Or.inl ⟨_, hp, ?_⟩
      intro hend
      have hflen := frame_length payload
      rw [← hsplit', hend, List.append_nil] at hflen
      omega
    · rw [if_neg hg'] at hp
      exact Or.inr (Or.inr ⟨hbig, _, hp⟩)

/-- A payload decodes to a message, or the reader gives up. -/
theorem decoded_cases (c : Codec T) (b : Bytes) :
    (∃ m, c.fromBytes b = .ok m ∧ decoded c b = .ok m)
      ∨ ∃ e, decoded c b = .error e := by
  rw [decoded]
  cases h : c.fromBytes b with
  | ok m => exact Or.inl ⟨m, rfl, rfl⟩
  | error text => exact Or.inr ⟨.decode text, rfl⟩

end

/-! ## The steps -/

section

variable {creq : Codec Request} {cresp : Codec Response} {vfs : TokimoVfs σ}
  {st st' : Sys σ} {i n : Nat} {es : List Event}

/-- **AN ISSUE**: an idle task waits for the lock. -/
theorem issue_cases {req : Request} (hs : issue st i req = some (st', es)) :
    i < st.tasks.length ∧ st.task i = .idle ∧ st' = st.put i (.waiting req)
      ∧ es = [.issue i req] := by
  rw [issue] at hs
  cases ht : st.tasks[i]? with
  | none => rw [ht] at hs; exact nomatch hs
  | some t =>
      obtain ⟨hi, htask⟩ := task_of_getElem? ht
      cases t with
      | idle =>
          simp only [ht] at hs
          obtain ⟨h1, h2⟩ := Prod.mk.inj (Option.some.inj hs)
          exact ⟨hi, htask, h1.symm, h2.symm⟩
      | waiting req => simp only [ht] at hs; exact nomatch hs
      | writing req todo => simp only [ht] at hs; exact nomatch hs
      | reading req got => simp only [ht] at hs; exact nomatch hs

/-- **TAKING THE LOCK**: the lock was free and the task waited for it; without a
    frame the call fails and the lock is free again. -/
theorem acquire_cases (hs : acquire creq st i = some (st', es)) :
    ∃ req, st.lock = none ∧ st.task i = .waiting req
      ∧ ((∃ e, framed creq req = .error e ∧ st' = st.put i .idle ∧ es = [.ret i req (.error e)])
        ∨ ∃ b, creq.toStdvec req = .ok b ∧ b.length < 2 ^ 32 ∧ es = []
          ∧ st' = { st.put i (.writing req (frame b)) with lock := some i }) := by
  rw [acquire] at hs
  cases hl : st.lock with
  | some j => simp only [hl] at hs; exact nomatch hs
  | none =>
      cases ht : st.task i with
      | idle => simp only [hl, ht] at hs; exact nomatch hs
      | writing req todo => simp only [hl, ht] at hs; exact nomatch hs
      | reading req got => simp only [hl, ht] at hs; exact nomatch hs
      | waiting req =>
          refine ⟨req, rfl, rfl, ?_⟩
          cases hf : framed creq req with
          | error e =>
              simp only [hl, ht, hf] at hs
              obtain ⟨h1, h2⟩ := Prod.mk.inj (Option.some.inj hs)
              exact Or.inl ⟨e, rfl, h1.symm, h2.symm⟩
          | ok f =>
              simp only [hl, ht, hf] at hs
              obtain ⟨h1, h2⟩ := Prod.mk.inj (Option.some.inj hs)
              obtain ⟨b, henc, h32, rfl⟩ := framed_ok hf
              exact Or.inr ⟨b, henc, h32, h2.symm, h1.symm⟩

/-- **SENDING**: some bytes go to the pipe. -/
theorem send_cases (hs : send st i n = some (st', es)) :
    ∃ req todo, st.task i = .writing req todo ∧ es = []
      ∧ st' = { st.put i (.wrote req (todo.drop (n + 1))) with
          c2s := st.c2s ++ todo.take (n + 1) } := by
  rw [send] at hs
  cases ht : st.task i with
  | idle => rw [ht] at hs; exact nomatch hs
  | waiting req => rw [ht] at hs; exact nomatch hs
  | reading req got => rw [ht] at hs; exact nomatch hs
  | writing req todo =>
      rw [ht] at hs
      obtain ⟨h1, h2⟩ := Prod.mk.inj (Option.some.inj hs)
      exact ⟨req, todo, rfl, h2.symm, h1.symm⟩

/-- **RECEIVING**: some bytes are taken from the pipe, and with the last the
    call returns and the lock is free. -/
theorem recv_cases (hs : recv cresp st i n = some (st', es)) :
    ∃ req got got' s2c', st.task i = .reading req got
      ∧ readSome cresp got st.s2c n = some (got', s2c')
      ∧ ((∃ need, progress cresp got' = .more need ∧ es = []
          ∧ st' = { st.put i (.reading req got') with s2c := s2c' })
        ∨ ∃ out, progress cresp got' = .done out ∧ es = [.ret i req out]
          ∧ st' = { st.leave i with s2c := s2c' }) := by
  rw [recv] at hs
  cases ht : st.task i with
  | idle => rw [ht] at hs; exact nomatch hs
  | waiting req => rw [ht] at hs; exact nomatch hs
  | writing req todo => rw [ht] at hs; exact nomatch hs
  | reading req got =>
      cases hr : readSome cresp got st.s2c n with
      | none => simp only [ht, hr] at hs; exact nomatch hs
      | some y =>
          obtain ⟨got', s2c'⟩ := y
          refine ⟨req, got, got', s2c', rfl, hr, ?_⟩
          cases hp : progress cresp got' with
          | more need =>
              simp only [ht, hr, hp] at hs
              obtain ⟨h1, h2⟩ := Prod.mk.inj (Option.some.inj hs)
              exact Or.inl ⟨need, rfl, h2.symm, h1.symm⟩
          | done out =>
              simp only [ht, hr, hp] at hs
              obtain ⟨h1, h2⟩ := Prod.mk.inj (Option.some.inj hs)
              exact Or.inr ⟨out, rfl, h2.symm, h1.symm⟩

/-- **A BROKEN PIPE** fails a call that writes, once the server is gone. -/
theorem broken_cases {text : String} (hs : broken st i text = some (st', es)) :
    ∃ req todo, st.server = .stopped ∧ st.task i = .writing req todo ∧ st' = st.leave i
      ∧ es = [.ret i req (.error (.io text))] := by
  rw [broken] at hs
  cases hserver : st.server with
  | reading got => simp only [hserver] at hs; exact nomatch hs
  | handling req => simp only [hserver] at hs; exact nomatch hs
  | writing todo => simp only [hserver] at hs; exact nomatch hs
  | stopped =>
      cases ht : st.task i with
      | idle => simp only [hserver, ht] at hs; exact nomatch hs
      | waiting req => simp only [hserver, ht] at hs; exact nomatch hs
      | reading req got => simp only [hserver, ht] at hs; exact nomatch hs
      | writing req todo =>
          simp only [hserver, ht] at hs
          obtain ⟨h1, h2⟩ := Prod.mk.inj (Option.some.inj hs)
          exact ⟨req, todo, rfl, rfl, h1.symm, h2.symm⟩

/-- **END OF FILE** fails a call that reads, once the server is gone. -/
theorem eof_cases (hs : eof st i = some (st', es)) :
    ∃ req got, st.server = .stopped ∧ st.task i = .reading req got ∧ st' = st.leave i
      ∧ es = [.ret i req (.error earlyEof)] := by
  rw [eof] at hs
  cases hserver : st.server with
  | reading got => simp only [hserver] at hs; exact nomatch hs
  | handling req => simp only [hserver] at hs; exact nomatch hs
  | writing todo => simp only [hserver] at hs; exact nomatch hs
  | stopped =>
      cases hout : st.s2c with
      | cons b bs => simp only [hserver, hout] at hs; exact nomatch hs
      | nil =>
          cases ht : st.task i with
          | idle => simp only [hserver, hout, ht] at hs; exact nomatch hs
          | waiting req => simp only [hserver, hout, ht] at hs; exact nomatch hs
          | writing req todo => simp only [hserver, hout, ht] at hs; exact nomatch hs
          | reading req got =>
              simp only [hserver, hout, ht] at hs
              obtain ⟨h1, h2⟩ := Prod.mk.inj (Option.some.inj hs)
              exact ⟨req, got, rfl, rfl, h1.symm, h2.symm⟩

/-- **A DROP** ends a call wherever it is, and frees the lock if it was held. -/
theorem drop_cases (hs : drop st i = some (st', es)) :
    ∃ req, es = [.dropped i req]
      ∧ ((st.task i = .waiting req ∧ st' = st.put i .idle)
        ∨ (((∃ todo, st.task i = .writing req todo) ∨ ∃ got, st.task i = .reading req got)
          ∧ st' = st.leave i)) := by
  rw [drop] at hs
  cases ht : st.task i with
  | idle => rw [ht] at hs; exact nomatch hs
  | waiting req =>
      rw [ht] at hs
      obtain ⟨h1, h2⟩ := Prod.mk.inj (Option.some.inj hs)
      exact ⟨req, h2.symm, Or.inl ⟨rfl, h1.symm⟩⟩
  | writing req todo =>
      rw [ht] at hs
      obtain ⟨h1, h2⟩ := Prod.mk.inj (Option.some.inj hs)
      exact ⟨req, h2.symm, Or.inr ⟨Or.inl ⟨todo, rfl⟩, h1.symm⟩⟩
  | reading req got =>
      rw [ht] at hs
      obtain ⟨h1, h2⟩ := Prod.mk.inj (Option.some.inj hs)
      exact ⟨req, h2.symm, Or.inr ⟨Or.inr ⟨got, rfl⟩, h1.symm⟩⟩

/-- **THE SERVER READS**: it wants more, has a request, or stops. -/
theorem serverRecv_cases (hs : serverRecv creq st n = some (st', es)) :
    ∃ got got' c2s', st.server = .reading got ∧ readSome creq got st.c2s n = some (got', c2s')
      ∧ es = []
      ∧ ((∃ need, progress creq got' = .more need
          ∧ st' = { st with server := .reading got', c2s := c2s' })
        ∨ (∃ req, progress creq got' = .done (.ok req)
          ∧ st' = { st with server := .handling req, c2s := c2s' })
        ∨ ∃ e, progress creq got' = .done (.error e)
          ∧ st' = { st with server := .stopped, c2s := c2s' }) := by
  rw [serverRecv] at hs
  cases hserver : st.server with
  | handling req => rw [hserver] at hs; exact nomatch hs
  | writing todo => rw [hserver] at hs; exact nomatch hs
  | stopped => rw [hserver] at hs; exact nomatch hs
  | reading got =>
      cases hr : readSome creq got st.c2s n with
      | none => simp only [hserver, hr] at hs; exact nomatch hs
      | some y =>
          obtain ⟨got', c2s'⟩ := y
          refine ⟨got, got', c2s', rfl, hr, ?_⟩
          cases hp : progress creq got' with
          | more need =>
              simp only [hserver, hr, hp] at hs
              obtain ⟨h1, h2⟩ := Prod.mk.inj (Option.some.inj hs)
              exact ⟨h2.symm, Or.inl ⟨need, rfl, h1.symm⟩⟩
          | done r =>
              cases r with
              | ok req =>
                  simp only [hserver, hr, hp] at hs
                  obtain ⟨h1, h2⟩ := Prod.mk.inj (Option.some.inj hs)
                  exact ⟨h2.symm, Or.inr (Or.inl ⟨req, rfl, h1.symm⟩)⟩
              | error e =>
                  simp only [hserver, hr, hp] at hs
                  obtain ⟨h1, h2⟩ := Prod.mk.inj (Option.some.inj hs)
                  exact ⟨h2.symm, Or.inr (Or.inr ⟨e, rfl, h1.symm⟩)⟩

/-- **THE SERVER EXECUTES** the request in hand. -/
theorem serverHandle_cases (hs : serverHandle cresp vfs st = some (st', es)) :
    ∃ req, st.server = .handling req
      ∧ st' = { st with
          server := .reply cresp (handle vfs req st.vfs).1
          vfs := (handle vfs req st.vfs).2 }
      ∧ es = [.served st.lock req (handle vfs req st.vfs).1] := by
  rw [serverHandle] at hs
  cases hserver : st.server with
  | reading got => rw [hserver] at hs; exact nomatch hs
  | writing todo => rw [hserver] at hs; exact nomatch hs
  | stopped => rw [hserver] at hs; exact nomatch hs
  | handling req =>
      rw [hserver] at hs
      obtain ⟨h1, h2⟩ := Prod.mk.inj (Option.some.inj hs)
      exact ⟨req, rfl, h1.symm, h2.symm⟩

/-- **THE SERVER REPLIES**: some bytes go to the pipe. -/
theorem serverSend_cases (hs : serverSend st n = some (st', es)) :
    ∃ todo, st.server = .writing todo ∧ es = []
      ∧ st' = { st with
          server := .wrote (todo.drop (n + 1))
          s2c := st.s2c ++ todo.take (n + 1) } := by
  rw [serverSend] at hs
  cases hserver : st.server with
  | reading got => rw [hserver] at hs; exact nomatch hs
  | handling req => rw [hserver] at hs; exact nomatch hs
  | stopped => rw [hserver] at hs; exact nomatch hs
  | writing todo =>
      rw [hserver] at hs
      obtain ⟨h1, h2⟩ := Prod.mk.inj (Option.some.inj hs)
      exact ⟨todo, rfl, h2.symm, h1.symm⟩

end

/-! ## What the server did -/

/-- The served requests with the responses made to them, in order. -/
def servedOf (tr : List Event) : List (Request × Response) :=
  tr.filterMap fun
    | .served _ req resp => some (req, resp)
    | _ => none

/-- The requests are handled one after the other, from one state to another,
    with these responses. -/
def Handles (vfs : TokimoVfs σ) : σ → List (Request × Response) → σ → Prop
  | s, [], s' => s' = s
  | s, (req, resp) :: served, s' =>
      resp = (handle vfs req s).1 ∧ Handles vfs (handle vfs req s).2 served s'

/-- One more request is executed behind the others. -/
theorem Handles.snoc {vfs : TokimoVfs σ} (req : Request) {s' : σ} :
    ∀ {served : List (Request × Response)} {s : σ}, Handles vfs s served s' →
      Handles vfs s (served ++ [(req, (handle vfs req s').1)]) (handle vfs req s').2 := by
  intro served
  induction served with
  | nil =>
      intro s h
      have hs : s' = s := h
      rw [hs]
      exact ⟨rfl, rfl⟩
  | cons p served ih =>
      intro s h
      exact ⟨h.1, ih h.2⟩

/-- The served requests have taken the file system where it is. -/
theorem handles_step {creq : Codec Request} {cresp : Codec Response} {vfs : TokimoVfs σ}
    {s₀ : σ} {st st' : Sys σ} {l : Label} {tr es : List Event}
    (h : Handles vfs s₀ (servedOf tr) st.vfs)
    (hs : (system creq cresp vfs).step st l = some (st', es)) :
    Handles vfs s₀ (servedOf (tr ++ es)) st'.vfs := by
  -- only handling a request is seen by the file system
  have hquiet : servedOf es = [] → st'.vfs = st.vfs →
      Handles vfs s₀ (servedOf (tr ++ es)) st'.vfs := by
    intro hes hvfs
    rw [servedOf, List.filterMap_append]
    show Handles vfs s₀ (servedOf tr ++ servedOf es) st'.vfs
    rw [hes, List.append_nil, hvfs]
    exact h
  cases l with
  | issue i req =>
      obtain ⟨-, -, rfl, rfl⟩ := issue_cases hs
      exact hquiet rfl rfl
  | acquire i =>
      obtain ⟨req, -, -, ⟨e, -, rfl, rfl⟩ | ⟨b, -, -, rfl, rfl⟩⟩ := acquire_cases hs
      · exact hquiet rfl rfl
      · exact hquiet rfl rfl
  | send i n =>
      obtain ⟨req, todo, -, rfl, rfl⟩ := send_cases hs
      exact hquiet rfl rfl
  | recv i n =>
      obtain ⟨req, got, got', s2c', -, -, ⟨need, -, rfl, rfl⟩ | ⟨out, -, rfl, rfl⟩⟩ :=
        recv_cases hs
      · exact hquiet rfl rfl
      · exact hquiet rfl rfl
  | broken i text =>
      obtain ⟨req, todo, -, -, rfl, rfl⟩ := broken_cases hs
      exact hquiet rfl rfl
  | eof i =>
      obtain ⟨req, got, -, -, rfl, rfl⟩ := eof_cases hs
      exact hquiet rfl rfl
  | drop i =>
      obtain ⟨req, rfl, ⟨-, rfl⟩ | ⟨-, rfl⟩⟩ := drop_cases hs
      · exact hquiet rfl rfl
      · exact hquiet rfl rfl
  | serverRecv n =>
      obtain ⟨got, got', c2s', -, -, rfl, ⟨need, -, rfl⟩ | ⟨req, -, rfl⟩ | ⟨e, -, rfl⟩⟩ :=
        serverRecv_cases hs
      · exact hquiet rfl rfl
      · exact hquiet rfl rfl
      · exact hquiet rfl rfl
  | serverHandle =>
      obtain ⟨req, -, rfl, rfl⟩ := serverHandle_cases hs
      rw [servedOf, List.filterMap_append]
      exact Handles.snoc req h
  | serverSend n =>
      obtain ⟨todo, -, rfl, rfl⟩ := serverSend_cases hs
      exact hquiet rfl rfl

/-- Whatever happens to the connection, what the server did is a sequence of
    handled requests. -/
theorem handles_run {creq : Codec Request} {cresp : Codec Response} {vfs : TokimoVfs σ}
    {n : Nat} {s₀ : σ} {st : Sys σ} {tr : List Event}
    (hr : Run (system creq cresp vfs) always (Sys.start n s₀) st tr) :
    Handles vfs s₀ (servedOf tr) st.vfs := by
  refine Run.invariant (I := fun st tr => Handles vfs s₀ (servedOf tr) st.vfs) ?_ ?_ hr
  · rfl
  · intro st tr l st' es h _ hs
    exact handles_step h hs

end TokimoRpc
