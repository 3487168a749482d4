import TokimoKvm.RpcPairingProofs

/-! # What reaches the server

    A response may reach the wrong call, but no request is served twice and
    none is served that was never issued, as long as no call is dropped inside
    of its own `write_frame`.  A call that is dropped while it waits for its
    response leaves a whole frame behind: the server will still serve it.

    Who took the lock when is noted along the run, in `lockOrder`.  The
    invariant is about the bytes between the two sides: what the server has
    read, what is under way and what the writer has left make up the frames of
    the calls that are not served yet, in the order of the lock. -/

namespace TokimoRpc

open TokimoBytes TokimoMachine TokimoVfsCore

variable {σ : Type}

/-! ## A reader in a stream of frames -/

section

variable {T : Type} (c : Codec T)

/-- A reader that has been given a part of a stream that starts with a frame. -/
theorem progress_part {payload got rest more : Bytes} (h32 : payload.length < 2 ^ 32)
    (hsplit : got ++ rest = frame payload ++ more) :
    progress c got = if got.length < 4 then .more (4 - got.length)
      else if maxFrame < payload.length then .done (.error (.frameTooLarge payload.length))
      else if got.length < 4 + payload.length then .more (4 + payload.length - got.length)
      else .done (decoded c payload) := by
  rw [progress]
  by_cases h4 : got.length < 4
  · rw [if_pos h4, if_pos h4]
  · rw [if_neg h4, if_neg h4]
    have hsplit' : got ++ rest = u32ToBe payload.length ++ (payload ++ more) := by
      rw [hsplit, frame, List.append_assoc]
    have htake : got.take 4 = u32ToBe payload.length := by
      have h1 : (got ++ rest).take 4 = got.take 4 := List.take_append_of_le_length (by omega)
      rw [← h1, hsplit']
      exact List.take_left' (u32ToBe_length _)
    have hdrop : got.drop 4 ++ rest = payload ++ more := by
      have h1 : (got ++ rest).drop 4 = got.drop 4 ++ rest :=
        List.drop_append_of_le_length (by omega)
      rw [← h1, hsplit']
      exact List.drop_left' (u32ToBe_length _)
    rw [htake, u32FromBe_toBe h32]
    by_cases hbig : maxFrame < payload.length
    · rw [if_pos hbig, if_pos hbig]
    · rw [if_neg hbig, if_neg hbig]
      have hlen : (got.drop 4).length = got.length - 4 := List.length_drop
      by_cases hin : got.length < 4 + payload.length
      · rw [if_pos hin, if_pos (by omega)]
        exact congrArg Progress.more (by omega)
      · have hpay : (got.drop 4).take payload.length = payload := by
          have h1 : (got.drop 4 ++ rest).take payload.length
              = (got.drop 4).take payload.length :=
            List.take_append_of_le_length (by omega)
          rw [← h1, hdrop]
          exact List.take_left
        rw [if_neg hin, if_neg (by omega), hpay]

/-- What a reader makes of the next bytes of such a stream: it wants more of
    them, or it has the message and has taken its frame and no byte of the
    next one, or it gives up. -/
theorem readSome_prefix {payload got stream rest more got' stream' : Bytes} {n : Nat}
    (h32 : payload.length < 2 ^ 32) (hsplit : got ++ (stream ++ rest) = frame payload ++ more)
    (h : readSome c got stream n = some (got', stream')) :
    got' ++ (stream' ++ rest) = frame payload ++ more
      ∧ ((∃ need, progress c got' = .more need)
        ∨ (progress c got' = .done (decoded c payload) ∧ stream' ++ rest = more)
        ∨ ∃ e, progress c got' = .done (.error e)) := by
  obtain ⟨hsame, -, need, hneed, hlen⟩ := readSome_some h
  have hsplit' : got' ++ (stream' ++ rest) = frame payload ++ more := by
    rw [← List.append_assoc, hsame, List.append_assoc, hsplit]
  refine ⟨hsplit', ?_⟩
  have hbefore := progress_part c h32 hsplit
  rw [hneed] at hbefore
  rw [progress_part c h32 hsplit']
  by_cases h4 : got'.length < 4
  · rw [if_pos h4]
    exact Or.inl ⟨_, rfl⟩
  · rw [if_neg h4]
    by_cases hbig : maxFrame < payload.length
    · rw [if_pos hbig]
      exact Or.inr (Or.inr ⟨_, rfl⟩)
    · rw [if_neg hbig]
      by_cases hin : got'.length < 4 + payload.length
      · rw [if_pos hin]
        exact Or.inl ⟨_, rfl⟩
      · rw [if_neg hin]
        refine Or.inr (Or.inl ⟨rfl, ?_⟩)
        -- the reader never asked for more than the rest of this frame
        have hle : got'.length ≤ 4 + payload.length := by
          by_cases hg4 : got.length < 4
          · rw [if_pos hg4] at hbefore
            have := Progress.more.inj hbefore
            omega
          · rw [if_neg hg4, if_neg hbig] at hbefore
            by_cases hgin : got.length < 4 + payload.length
            · rw [if_pos hgin] at hbefore
              have := Progress.more.inj hbefore
              omega
            · rw [if_neg hgin] at hbefore
              cases hbefore
        have hsize : got'.length = (frame payload).length := by
          rw [frame_length]
          omega
        exact (List.append_inj hsplit' hsize).2

end

/-! ## Calls and where their requests are -/

/-- A call that took the lock, with what it began to write. -/
structure Asked where
  who : Nat
  req : Request
  payload : Bytes

/-- Who asked, and what. -/
def Asked.call (a : Asked) : Nat × Request := (a.who, a.req)

/-- The calls themselves, without what they write. -/
def calls (asked : List Asked) : List (Nat × Request) := asked.map Asked.call

/-- The requests of one task among the calls that took the lock. -/
def askedBy (i : Nat) (taken : List (Nat × Request)) : List Request :=
  (taken.filter fun call => call.1 = i).map Prod.snd

/-- The requests that one task issued, in order. -/
def issuedBy (i : Nat) (tr : List Event) : List Request :=
  tr.filterMap fun
    | .issue j req => if j = i then some req else none
    | _ => none

/-- The bytes that calls write, one frame behind the other. -/
def wire (asked : List Asked) : Bytes := (asked.map fun a => frame a.payload).flatten

/-- What a task has still to write. -/
def Task.unsent : Task → Bytes
  | .writing _ todo => todo
  | _ => []

/-- What the holder of the lock has still to write. -/
def Sys.unsent (st : Sys σ) : Bytes :=
  st.lock.elim [] fun i => (st.task i).unsent

/-- What the server has of a frame it is reading. -/
def Server.got : Server → Bytes
  | .reading got => got
  | _ => []

/-- The request the server is at. -/
def Server.inHand : Server → List Request
  | .handling req => [req]
  | _ => []

/-- A call that was issued and has not taken the lock is the last one of its
    task; the others are in order. -/
def InOrder (t : Task) (asked issued : List Request) : Prop :=
  asked.Sublist issued ∧ ∀ req, t = .waiting req →
    ∃ before, issued = before ++ [req] ∧ asked.Sublist before

/-- The calls, part by part. -/
theorem calls_append (asked more : List Asked) :
    calls (asked ++ more) = calls asked ++ calls more := List.map_append

/-- What a task asked for, part by part. -/
theorem askedBy_append (i : Nat) (taken more : List (Nat × Request)) :
    askedBy i (taken ++ more) = askedBy i taken ++ askedBy i more := by
  rw [askedBy, List.filter_append, List.map_append]
  rfl

/-- One call was asked by one task. -/
theorem askedBy_single (i : Nat) (a : Asked) :
    askedBy i (calls [a]) = if a.who = i then [a.req] else [] := by
  show ((List.filter (fun call => call.1 = i) [(a.who, a.req)]).map Prod.snd) = _
  by_cases h : a.who = i
  · rw [if_pos h, List.filter_cons_of_pos (by simpa using h)]
    rfl
  · rw [if_neg h, List.filter_cons_of_neg (by simpa using h)]
    rfl

/-- What a task issued, part by part. -/
theorem issuedBy_append (i : Nat) (tr es : List Event) :
    issuedBy i (tr ++ es) = issuedBy i tr ++ issuedBy i es :=
  List.filterMap_append

/-- One issue is that of one task. -/
theorem issuedBy_issue (j i : Nat) (req : Request) :
    issuedBy j [.issue i req] = if i = j then [req] else [] := by
  by_cases h : i = j
  · simp [issuedBy, h]
  · simp [issuedBy, h]

/-- What was served, part by part. -/
theorem servedOf_append (tr es : List Event) : servedOf (tr ++ es) = servedOf tr ++ servedOf es :=
  List.filterMap_append

/-- The bytes on the wire, part by part. -/
theorem wire_append (asked more : List Asked) : wire (asked ++ more) = wire asked ++ wire more := by
  rw [wire, List.map_append, List.flatten_append]
  rfl

/-- One request is one frame. -/
theorem wire_single (a : Asked) : wire [a] = frame a.payload := List.append_nil _

/-- What is still to be sent is the holder's. -/
theorem unsent_of_lock {st : Sys σ} {i : Nat} (h : st.lock = some i) :
    st.unsent = (st.task i).unsent := by
  rw [Sys.unsent, h]
  rfl

/-- With the lock free it is nothing. -/
theorem unsent_of_free {st : Sys σ} (h : st.lock = none) : st.unsent = [] := by
  rw [Sys.unsent, h]
  rfl

/-- A task that writes has not sent what it still has to write. -/
theorem wrote_unsent (req : Request) (todo : Bytes) : (Task.wrote req todo).unsent = todo := by
  cases todo with
  | nil => rfl
  | cons b bs => rfl

/-! ## The order of the lock -/

section

variable (creq : Codec Request)

/-- The calls in the order in which they took the lock, as a note along a run.
    One whose request has no frame never writes and is left out; one that is
    dropped before it wrote a byte leaves the list, of which it is the last,
    since nobody took the lock behind it. -/
def lockOrder (st : Sys σ) : Label → List (Nat × Request) → List (Nat × Request)
  | .acquire i, taken =>
      match st.lock, st.task i with
      | none, .waiting req =>
          match framed creq req with
          | .ok _ => taken ++ [(i, req)]
          | .error _ => taken
      | _, _ => taken
  | .drop i, taken =>
      match st.task i with
      | .writing req todo =>
          match framed creq req with
          | .ok all => if todo = all then taken.dropLast else taken
          | .error _ => taken
      | _ => taken
  | _, taken => taken

/-! ## The invariant -/

/-- The calls in the order of the lock are the ones the server is done with,
    the one it is at, and a queue of calls whose frames are on their way.  A
    writer is the last of them, and a fresh one is still in the queue. -/
structure Delivery (st : Sys σ) (tr : List Event) (done queue : List Asked) : Prop where
  holder : ∀ i, (st.task i).busy = true ↔ st.lock = some i
  order : ∀ i, InOrder (st.task i) (askedBy i (calls (done ++ queue))) (issuedBy i tr)
  encoded : ∀ a ∈ done ++ queue, creq.toStdvec a.req = .ok a.payload ∧ a.payload.length < 2 ^ 32
  past : done.map Asked.req = (servedOf tr).map Prod.fst ++ st.server.inHand
  writer : ∀ i req todo, st.task i = .writing req todo →
    ∃ front a, done ++ queue = front ++ [a] ∧ a.req = req ∧ todo <:+ frame a.payload
  fresh : ∀ i req todo, st.task i = .writing req todo → framed creq req = .ok todo → queue ≠ []
  stream : st.server ≠ .stopped → st.server.got ++ (st.c2s ++ st.unsent) = wire queue

/-- No call is dropped inside of its `write_frame` with a part of the frame
    out, unless the server is gone. -/
def Whole (st : Sys σ) : Label → Prop
  | .drop i => ∀ req todo, st.task i = .writing req todo →
      framed creq req = .ok todo ∨ st.server = .stopped
  | _ => True

/-- Whether a label drops a call half sent can be tried. -/
instance decidableWhole (st : Sys σ) : (l : Label) → Decidable (Whole creq st l)
  | .issue _ _ => isTrue True.intro
  | .acquire _ => isTrue True.intro
  | .send _ _ => isTrue True.intro
  | .recv _ _ => isTrue True.intro
  | .broken _ _ => isTrue True.intro
  | .eof _ => isTrue True.intro
  | .drop i =>
      decidableWriting (fun req todo => framed creq req = .ok todo ∨ st.server = .stopped)
        (st.task i)
  | .serverRecv _ => isTrue True.intro
  | .serverHandle => isTrue True.intro
  | .serverSend _ => isTrue True.intro

end

variable {creq : Codec Request} {cresp : Codec Response}

/-- Nothing has been asked for. -/
theorem delivery_start (n : Nat) (s : σ) : Delivery creq (Sys.start n s) [] [] [] where
  holder i := by
    rw [task_start]
    constructor
    · intro h; cases h
    · intro h; cases h
  order i := by
    rw [task_start]
    refine ⟨List.Sublist.refl _, fun req h => ?_⟩
    cases h
  encoded a ha := by cases ha
  past := rfl
  writer i req todo h := by
    rw [task_start] at h
    cases h
  fresh i req todo h := by
    rw [task_start] at h
    cases h
  stream _ := rfl

section

variable {st st' : Sys σ} {tr es : List Event} {done queue queue' : List Asked} {i n : Nat}
  {t : Task}

/-- What keeps an order keeps it for fewer calls. -/
theorem InOrder.mono {asked asked' issued : List Request} (h : InOrder t asked issued)
    (hsub : asked'.Sublist asked) : InOrder t asked' issued := by
  refine ⟨hsub.trans h.1, fun req ht => ?_⟩
  obtain ⟨before, hissued, hasked⟩ := h.2 req ht
  exact ⟨before, hissued, hsub.trans hasked⟩

/-- A task that does not wait has asked in its order of issue. -/
theorem InOrder.plain {asked issued : List Request} (h : asked.Sublist issued)
    (ht : ∀ req, t ≠ .waiting req) : InOrder t asked issued :=
  ⟨h, fun req hw => absurd hw (ht req)⟩

/-- A task moves on, and with it the queue. -/
theorem Delivery.update (h : Delivery creq st tr done queue)
    (htask : st'.tasks = st.tasks.set i t) (hi : i < st.tasks.length)
    (hserver : st'.server = st.server) (hserved : servedOf es = [])
    (hissued : ∀ j, j ≠ i → issuedBy j es = [])
    (hbusy : t.busy = true ↔ st'.lock = some i)
    (hfree : ∀ j, j ≠ i → (st'.lock = some j ↔ st.lock = some j))
    (horder : InOrder t (askedBy i (calls (done ++ queue'))) (issuedBy i (tr ++ es)))
    (hothers : ∀ j, j ≠ i →
      (askedBy j (calls (done ++ queue'))).Sublist (askedBy j (calls (done ++ queue))))
    (henc : ∀ a ∈ done ++ queue',
      creq.toStdvec a.req = .ok a.payload ∧ a.payload.length < 2 ^ 32)
    (hwriter : ∀ j req todo, st'.task j = .writing req todo →
      ∃ front a, done ++ queue' = front ++ [a] ∧ a.req = req ∧ todo <:+ frame a.payload)
    (hfresh : ∀ j req todo, st'.task j = .writing req todo → framed creq req = .ok todo →
      queue' ≠ [])
    (hstream : st.server ≠ .stopped →
      st.server.got ++ (st'.c2s ++ st'.unsent) = wire queue') :
    Delivery creq st' (tr ++ es) done queue' := by
  have hself : st'.task i = t := by
    rw [Sys.task, htask]
    exact task_put_self hi t
  -- only the one task has changed
  have hother : ∀ j, j ≠ i → st'.task j = st.task j := by
    intro j hj
    rw [Sys.task, htask]
    exact task_put_other st hj t
  constructor
  · intro j
    by_cases hj : j = i
    · rw [hj, hself]
      exact hbusy
    · rw [hother j hj, hfree j hj]
      exact h.holder j
  · intro j
    by_cases hj : j = i
    · rw [hj, hself]
      exact horder
    · rw [hother j hj, issuedBy_append, hissued j hj, List.append_nil]
      exact (h.order j).mono (hothers j hj)
  · exact henc
  · rw [hserver, servedOf_append, hserved, List.append_nil]
    exact h.past
  · exact hwriter
  · exact hfresh
  · rw [hserver]
    exact hstream

/-- A task moves on and the queue stays. -/
theorem Delivery.keep (h : Delivery creq st tr done queue)
    (htask : st'.tasks = st.tasks.set i t) (hi : i < st.tasks.length)
    (hserver : st'.server = st.server) (hserved : servedOf es = [])
    (hissued : ∀ j, j ≠ i → issuedBy j es = [])
    (hbusy : t.busy = true ↔ st'.lock = some i)
    (hfree : ∀ j, j ≠ i → (st'.lock = some j ↔ st.lock = some j))
    (horder : InOrder t (askedBy i (calls (done ++ queue))) (issuedBy i (tr ++ es)))
    (ht : ∀ req todo, t = .writing req todo → framed creq req ≠ .ok todo
      ∧ ∃ todo', st.task i = .writing req todo' ∧ todo <:+ todo')
    (hbytes : st'.c2s ++ st'.unsent = st.c2s ++ st.unsent) :
    Delivery creq st' (tr ++ es) done queue := by
  refine h.update htask hi hserver hserved hissued hbusy hfree horder
    (fun j _ => List.Sublist.refl _) h.encoded ?_ ?_ ?_
  · intro j req todo hw
    by_cases hj : j = i
    · rw [hj, Sys.task, htask] at hw
      obtain ⟨-, todo', hw', htail⟩ := ht req todo ((task_put_self hi t).symm.trans hw)
      obtain ⟨front, a, hlast, hreq, hpart⟩ := h.writer i req todo' hw'
      exact ⟨front, a, hlast, hreq, htail.trans hpart⟩
    · rw [Sys.task, htask] at hw
      exact h.writer j req todo ((task_put_other st hj t).symm.trans hw)
  · intro j req todo hw hframed
    by_cases hj : j = i
    · rw [hj, Sys.task, htask] at hw
      exact absurd hframed (ht req todo ((task_put_self hi t).symm.trans hw)).1
    · rw [Sys.task, htask] at hw
      exact h.fresh j req todo ((task_put_other st hj t).symm.trans hw) hframed
  · intro hs
    rw [hbytes]
    exact h.stream hs

/-- A task that holds no lock moves on without it. -/
theorem Delivery.outside (h : Delivery creq st tr done queue) (hi : i < st.tasks.length)
    (hnot : (st.task i).busy = false) (ht : t.busy = false) (hserved : servedOf es = [])
    (hissued : ∀ j, j ≠ i → issuedBy j es = [])
    (horder : InOrder t (askedBy i (calls (done ++ queue))) (issuedBy i (tr ++ es))) :
    Delivery creq (st.put i t) (tr ++ es) done queue := by
  have hlock : st.lock ≠ some i := by
    intro hl
    rw [(h.holder i).mpr hl] at hnot
    cases hnot
  refine h.keep rfl hi rfl hserved hissued ?_ (fun j _ => Iff.rfl) horder ?_ ?_
  · rw [ht]
    exact ⟨fun hb => (by cases hb), fun hl => absurd hl hlock⟩
  · rintro req todo rfl
    cases ht
  · have hsame : (st.put i t).unsent = st.unsent := by
      cases hl : st.lock with
      | none => rw [unsent_of_free hl, unsent_of_free (by exact hl)]
      | some j =>
          have hj : j ≠ i := by
            rintro rfl
            exact hlock hl
          have hl' : (st.put i t).lock = some j := hl
          rw [unsent_of_lock hl, unsent_of_lock hl', task_put_other st hj]
    rw [hsame]
    rfl

/-- The holder of the lock lets it go. -/
theorem Delivery.leave {s2c : Bytes} (h : Delivery creq st tr done queue)
    (hb : (st.task i).busy = true) (hserved : servedOf es = [])
    (hissued : ∀ j, issuedBy j es = []) (hgone : (st.task i).unsent = [] ∨ st.server = .stopped) :
    Delivery creq { st.leave i with s2c := s2c } (tr ++ es) done queue := by
  have hlock := (h.holder i).mp hb
  have hi : i < st.tasks.length := by
    refine task_lt rfl ?_
    intro hidle
    rw [hidle] at hb
    cases hb
  refine h.update (t := .idle) rfl hi rfl hserved (fun j _ => hissued j) ?_ ?_ ?_
    (fun j _ => List.Sublist.refl _) h.encoded ?_ ?_ ?_
  · constructor
    · intro hbusy; cases hbusy
    · intro hl; cases hl
  · intro j hj
    constructor
    · intro hl; cases hl
    · intro hl
      rw [hlock] at hl
      exact absurd (Option.some.inj hl).symm hj
  · refine .plain ?_ (fun req ht => by cases ht)
    rw [issuedBy_append, hissued, List.append_nil]
    exact (h.order i).1
  · intro j req todo hw
    by_cases hj : j = i
    · rw [hj] at hw
      cases (task_put_self hi .idle).symm.trans hw
    · exact h.writer j req todo ((task_put_other st hj .idle).symm.trans hw)
  · intro j req todo hw hframed
    by_cases hj : j = i
    · rw [hj] at hw
      cases (task_put_self hi .idle).symm.trans hw
    · exact h.fresh j req todo ((task_put_other st hj .idle).symm.trans hw) hframed
  · intro hs
    have hunsent : (st.task i).unsent = [] := hgone.resolve_right hs
    have hstream := h.stream hs
    rw [unsent_of_lock hlock, hunsent] at hstream
    exact hstream

/-! ## The steps of the tasks -/

/-- An issue asks the server for nothing yet. -/
theorem delivery_issue {req : Request} (h : Delivery creq st tr done queue)
    (hs : issue st i req = some (st', es)) : Delivery creq st' (tr ++ es) done queue := by
  obtain ⟨hi, hidle, rfl, rfl⟩ := issue_cases hs
  refine h.outside hi (by rw [hidle]; rfl) rfl rfl ?_ ?_
  · intro j hj
    rw [issuedBy_issue, if_neg (Ne.symm hj)]
  · have hissued : issuedBy i (tr ++ [.issue i req]) = issuedBy i tr ++ [req] := by
      rw [issuedBy_append, issuedBy_issue, if_pos rfl]
    rw [hissued]
    refine ⟨(h.order i).1.trans (List.sublist_append_left _ _), ?_⟩
    rintro req' hw
    cases hw
    exact ⟨_, rfl, (h.order i).1⟩

/-- Taking the lock is where the call joins the order. -/
theorem delivery_acquire (h : Delivery creq st tr done queue)
    (hs : acquire creq st i = some (st', es)) :
    ∃ queue', Delivery creq st' (tr ++ es) done queue'
      ∧ calls (done ++ queue') = lockOrder creq st (.acquire i) (calls (done ++ queue)) := by
  obtain ⟨req, hfree, hwait, ⟨e, herr, rfl, rfl⟩ | ⟨b, henc, h32, rfl, rfl⟩⟩ := acquire_cases hs
  -- a request with no frame is never sent, and joins no order
  · have hi := task_lt hwait (by intro h; cases h)
    refine ⟨queue, h.outside hi (by rw [hwait]; rfl) rfl rfl (fun _ _ => rfl) ?_, ?_⟩
    swap
    · simp only [lockOrder, hfree, hwait, herr]
    refine .plain ?_ (fun req ht => by cases ht)
    rw [issuedBy_append]
    exact (h.order i).1.trans (List.sublist_append_left _ _)
  · have hi := task_lt hwait (by intro h; cases h)
    obtain ⟨before, hissued, hasked⟩ := (h.order i).2 req hwait
    refine ⟨queue ++ [⟨i, req, b⟩], h.update (t := .writing req (frame b)) rfl hi rfl rfl
      (fun _ _ => rfl) ?_ ?_ ?_ ?_ ?_ ?_ ?_ ?_, ?_⟩
    · exact ⟨fun _ => rfl, fun _ => rfl⟩
    · intro j hj
      rw [hfree]
      constructor
      · intro hl
        exact absurd (Option.some.inj hl).symm hj
      · intro hl; cases hl
    · refine .plain ?_ (fun req ht => by cases ht)
      rw [← List.append_assoc, calls_append, askedBy_append, askedBy_single, if_pos rfl,
        List.append_nil, hissued]
      exact hasked.append_right [req]
    · intro j hj
      rw [← List.append_assoc, calls_append, askedBy_append, askedBy_single, if_neg (Ne.symm hj),
        List.append_nil]
    · intro a ha
      rw [← List.append_assoc] at ha
      rcases List.mem_append.mp ha with ha | ha
      · exact h.encoded a ha
      · rw [List.mem_singleton.mp ha]
        exact ⟨henc, h32⟩
    · intro j req' todo hw
      by_cases hj : j = i
      · rw [hj] at hw
        cases (task_put_self hi (.writing req (frame b))).symm.trans hw
        exact ⟨done ++ queue, _, (List.append_assoc ..).symm, rfl, List.suffix_refl _⟩
      · -- nobody else writes: the lock was free
        have hw' := (task_put_other st hj (.writing req (frame b))).symm.trans hw
        have hl := (h.holder j).mp (by rw [hw']; rfl)
        rw [hfree] at hl
        cases hl
    · exact fun j req' todo _ _ hnil => List.append_ne_nil_of_right_ne_nil _ (by simp) hnil
    · intro halive
      have hstream := h.stream halive
      rw [unsent_of_free hfree, List.append_nil] at hstream
      rw [wire_append, wire_single, ← hstream, unsent_of_lock (i := i) rfl]
      show _ ++ (_ ++ ((st.put i (.writing req (frame b))).task i).unsent) = _
      rw [task_put_self hi, List.append_assoc]
      rfl
    · simp only [lockOrder, hfree, hwait, framed_of_fits henc h32]
      rw [← List.append_assoc, calls_append]
      rfl

/-- Bytes that are sent come nearer. -/
theorem delivery_send (h : Delivery creq st tr done queue) (hs : send st i n = some (st', es)) :
    Delivery creq st' (tr ++ es) done queue := by
  obtain ⟨req, todo, hwrite, rfl, rfl⟩ := send_cases hs
  have hi := task_lt hwrite (by intro h; cases h)
  have hlock := (h.holder i).mp (by rw [hwrite]; rfl)
  have hbusy : (Task.wrote req (todo.drop (n + 1))).busy = true := by
    rcases wrote_cases req (todo.drop (n + 1)) with ⟨-, hw⟩ | ⟨-, hw⟩
    · rw [hw]; rfl
    · rw [hw]; rfl
  refine h.keep (t := .wrote req (todo.drop (n + 1))) rfl hi rfl rfl (fun _ _ => rfl)
    ⟨fun _ => hlock, fun _ => hbusy⟩ (fun _ _ => Iff.rfl) ?_ ?_ ?_
  · refine .plain ?_ ?_
    · rw [issuedBy_append]
      exact (h.order i).1.trans (List.sublist_append_left _ _)
    · intro req' ht
      rw [ht] at hbusy
      cases hbusy
  · intro req' todo' ht
    rcases wrote_cases req (todo.drop (n + 1)) with ⟨-, hw⟩ | ⟨hne, hw⟩
    · rw [hw] at ht; cases ht
    · rw [hw] at ht
      cases ht
      obtain ⟨front, a, hlast, hreq, hpart⟩ := h.writer i req todo hwrite
      have hmem : a ∈ done ++ queue := by
        rw [hlast]
        exact List.mem_append_right front (List.mem_singleton.mpr rfl)
      refine ⟨fun hframed => ?_, todo, hwrite, List.drop_suffix _ _⟩
      -- what is left behind some bytes is shorter than the frame
      obtain ⟨b, hb, -, hall⟩ := framed_ok hframed
      have henc := (h.encoded a hmem).1
      rw [hreq, hb] at henc
      have hshort : (todo.drop (n + 1)).length < todo.length := by
        have hpos : 0 < (todo.drop (n + 1)).length := List.length_pos_iff.mpr hne
        rw [List.length_drop] at hpos ⊢
        omega
      have hle := hpart.length_le
      rw [hall, Except.ok.inj henc] at hshort
      omega
  · show st.c2s ++ todo.take (n + 1) ++ (st.lock.elim [] fun j =>
      ((st.put i (.wrote req (todo.drop (n + 1)))).task j).unsent) = st.c2s ++ st.unsent
    rw [unsent_of_lock hlock, hwrite, hlock]
    show st.c2s ++ todo.take (n + 1)
      ++ ((st.put i (.wrote req (todo.drop (n + 1)))).task i).unsent = st.c2s ++ todo
    rw [task_put_self hi, wrote_unsent, List.append_assoc, List.take_append_drop]

/-- A reply that is read asks for nothing. -/
theorem delivery_recv (h : Delivery creq st tr done queue)
    (hs : recv cresp st i n = some (st', es)) : Delivery creq st' (tr ++ es) done queue := by
  obtain ⟨req, got, got', s2c', hread, -, ⟨need, -, rfl, rfl⟩ | ⟨out, -, rfl, rfl⟩⟩ :=
    recv_cases hs
  · have hi := task_lt hread (by intro h; cases h)
    have hlock := (h.holder i).mp (by rw [hread]; rfl)
    refine h.keep (t := .reading req got') rfl hi rfl rfl (fun _ _ => rfl)
      ⟨fun _ => hlock, fun _ => rfl⟩ (fun _ _ => Iff.rfl) ?_ (fun _ _ ht => by cases ht) ?_
    · refine .plain ?_ (fun req ht => by cases ht)
      rw [issuedBy_append]
      exact (h.order i).1.trans (List.sublist_append_left _ _)
    · show st.c2s ++ (st.lock.elim [] fun j => ((st.put i (.reading req got')).task j).unsent)
        = st.c2s ++ st.unsent
      rw [unsent_of_lock hlock, hread, hlock]
      show st.c2s ++ ((st.put i (.reading req got')).task i).unsent = st.c2s ++ []
      rw [task_put_self hi]
      rfl
  · exact h.leave (by rw [hread]; rfl) rfl (fun _ => rfl) (Or.inl (by rw [hread]; rfl))

/-- A call is dropped before it has written a byte: it leaves the queue it was
    the last of. -/
theorem delivery_drop_fresh {req : Request} {todo : Bytes} (h : Delivery creq st tr done queue)
    (hwrite : st.task i = .writing req todo) (hframed : framed creq req = .ok todo) :
    ∃ queue', Delivery creq (st.leave i) (tr ++ [.dropped i req]) done queue'
      ∧ calls (done ++ queue') = (calls (done ++ queue)).dropLast := by
  obtain ⟨front, a, hlast, hreq, -⟩ := h.writer i req todo hwrite
  have hlock := (h.holder i).mp (by rw [hwrite]; rfl)
  have hi := task_lt hwrite (by intro h; cases h)
  -- the call is the last of the queue, not of the calls that are done with
  obtain ⟨q, a', hqueue⟩ := List.eq_nil_or_concat queue |>.resolve_left
    (h.fresh i req todo hwrite hframed)
  rw [List.concat_eq_append] at hqueue
  subst hqueue
  rw [← List.append_assoc] at hlast
  obtain ⟨-, ha⟩ := List.append_inj' hlast rfl
  cases List.singleton_inj.mp ha
  have hall : done ++ (q ++ [a]) = done ++ q ++ [a] := (List.append_assoc ..).symm
  have htodo : todo = frame a.payload := by
    have henc := h.encoded a
      (by rw [hall]; exact List.mem_append_right _ (List.mem_singleton_self a))
    obtain ⟨b, hb, -, rfl⟩ := framed_ok hframed
    rw [hreq, hb] at henc
    rw [Except.ok.inj henc.1]
  have hshorter : ∀ j, (askedBy j (calls (done ++ q))).Sublist
      (askedBy j (calls (done ++ (q ++ [a])))) := by
    intro j
    rw [hall, calls_append (done ++ q), askedBy_append]
    exact List.sublist_append_left _ _
  have hidle : ∀ j req' todo', (st.leave i).task j ≠ .writing req' todo' := by
    intro j req' todo' hw
    by_cases hj : j = i
    · rw [hj] at hw
      cases (task_put_self hi .idle).symm.trans hw
    · have hw' := (task_put_other st hj .idle).symm.trans hw
      have hl := (h.holder j).mp (by rw [hw']; rfl)
      rw [hlock] at hl
      exact absurd (Option.some.inj hl).symm hj
  refine ⟨q, h.update (t := .idle) rfl hi rfl rfl (fun _ _ => rfl) ?_ ?_ ?_
    (fun j _ => hshorter j) ?_ (fun j req' todo' hw => absurd hw (hidle j req' todo'))
    (fun j req' todo' hw => absurd hw (hidle j req' todo')) ?_, ?_⟩
  · constructor
    · intro hbusy; cases hbusy
    · intro hl; cases hl
  · intro j hj
    rw [hlock]
    constructor
    · intro hl; cases hl
    · intro hl
      exact absurd (Option.some.inj hl).symm hj
  · refine .plain ?_ (fun req ht => by cases ht)
    rw [issuedBy_append]
    exact (hshorter i).trans ((h.order i).1.trans (List.sublist_append_left _ _))
  · intro x hx
    refine h.encoded x ?_
    rw [hall]
    exact List.mem_append_left _ hx
  · intro halive
    have hstream := h.stream halive
    rw [unsent_of_lock hlock, hwrite, wire_append, wire_single, ← htodo] at hstream
    have hcut : st.server.got ++ st.c2s = wire q := by
      have hsame : (st.server.got ++ st.c2s) ++ todo = wire q ++ todo := by
        rw [List.append_assoc]
        exact hstream
      exact List.append_cancel_right hsame
    show st.server.got ++ (st.c2s ++ []) = wire q
    rw [List.append_nil]
    exact hcut
  · rw [hall, calls_append (done ++ q)]
    exact List.dropLast_concat.symm

/-- A call that is dropped before its first byte leaves the order again. -/
theorem delivery_drop (h : Delivery creq st tr done queue) (hwhole : Whole creq st (.drop i))
    (hs : drop st i = some (st', es)) :
    ∃ queue', Delivery creq st' (tr ++ es) done queue'
      ∧ calls (done ++ queue') = lockOrder creq st (.drop i) (calls (done ++ queue)) := by
  obtain ⟨req, rfl, ⟨hwait, rfl⟩ | ⟨⟨todo, hwrite⟩ | ⟨got, hread⟩, rfl⟩⟩ := drop_cases hs
  · have hi := task_lt hwait (by intro h; cases h)
    refine ⟨queue, h.outside hi (by rw [hwait]; rfl) rfl rfl (fun _ _ => rfl) ?_, ?_⟩
    · refine .plain ?_ (fun req ht => by cases ht)
      rw [issuedBy_append]
      exact (h.order i).1.trans (List.sublist_append_left _ _)
    · simp only [lockOrder, hwait]
  · by_cases hframed : framed creq req = .ok todo
    · obtain ⟨queue', hd, hcalls⟩ := delivery_drop_fresh h hwrite hframed
      refine ⟨queue', hd, ?_⟩
      simp only [lockOrder, hwrite, hframed, if_pos]
      exact hcalls
    · -- a part of the frame is out, so the server is gone
      have hstop := (hwhole req todo hwrite).resolve_left hframed
      refine ⟨queue, h.leave (by rw [hwrite]; rfl) rfl (fun _ => rfl) (Or.inr hstop), ?_⟩
      simp only [lockOrder, hwrite]
      cases hall : framed creq req with
      | error e => rfl
      | ok all =>
          have hne : todo ≠ all := by
            rintro rfl
            exact hframed hall
          simp only [if_neg hne]
  · refine ⟨queue, h.leave (by rw [hread]; rfl) rfl (fun _ => rfl)
      (Or.inl (by rw [hread]; rfl)), ?_⟩
    simp only [lockOrder, hread]

/-! ## The steps of the server -/

/-- The server moves on, and the tasks stay. -/
theorem Delivery.server {done' : List Asked} (h : Delivery creq st tr done queue)
    (htasks : st'.tasks = st.tasks) (hlock : st'.lock = st.lock)
    (hissued : ∀ j, issuedBy j es = []) (hcalls : done' ++ queue' = done ++ queue)
    (hpast : done'.map Asked.req
      = (servedOf (tr ++ es)).map Prod.fst ++ st'.server.inHand)
    (hleft : queue' = [] → queue = [] ∨ st.unsent = [])
    (hstream : st'.server ≠ .stopped → st'.server.got ++ (st'.c2s ++ st.unsent) = wire queue') :
    Delivery creq st' (tr ++ es) done' queue' := by
  have htask : ∀ j, st'.task j = st.task j := by
    intro j
    rw [Sys.task, htasks]
    rfl
  have hunsent : st'.unsent = st.unsent := by
    rw [Sys.unsent, hlock]
    exact congrArg (st.lock.elim []) (funext fun j => congrArg Task.unsent (htask j))
  constructor
  · intro j
    rw [htask, hlock]
    exact h.holder j
  · intro j
    rw [htask, hcalls, issuedBy_append, hissued, List.append_nil]
    exact h.order j
  · rw [hcalls]
    exact h.encoded
  · exact hpast
  · intro j req todo hw
    rw [htask] at hw
    rw [hcalls]
    exact h.writer j req todo hw
  · -- who has its whole frame to write is still in the queue
    intro j req todo hw hframed hnil
    rw [htask] at hw
    rcases hleft hnil with hqueue | hsent
    · exact h.fresh j req todo hw hframed hqueue
    · have hlock' := (h.holder j).mp (by rw [hw]; rfl)
      rw [unsent_of_lock hlock', hw] at hsent
      obtain ⟨b, -, -, hall⟩ := framed_ok hframed
      exact frame_ne_nil b (hall.symm.trans hsent)
  · rw [hunsent]
    exact hstream

/-- The server reads on, and what it has read whole is the next call. -/
theorem delivery_serverRecv (hsound : creq.Sound) (h : Delivery creq st tr done queue)
    (hs : serverRecv creq st n = some (st', es)) :
    ∃ done' queue', Delivery creq st' (tr ++ es) done' queue'
      ∧ done' ++ queue' = done ++ queue := by
  obtain ⟨got, got', c2s', hserver, hread, rfl, hnext⟩ := serverRecv_cases hs
  have hpast := h.past
  have hstream := h.stream (by rw [hserver]; intro h; cases h)
  rw [hserver] at hpast hstream
  cases queue with
  | nil =>
      -- nobody wrote anything, so there is nothing to read
      have hnil := List.append_eq_nil_iff.mp hstream
      rw [(List.append_eq_nil_iff.mp hnil.2).1, readSome_nil] at hread
      cases hread
  | cons a queue =>
      have henc := h.encoded a (List.mem_append_right done (List.mem_cons_self ..))
      obtain ⟨hsplit, hcases⟩ := readSome_prefix creq henc.2 hstream hread
      rcases hnext with ⟨need, hp, rfl⟩ | ⟨req, hp, rfl⟩ | ⟨e, hp, rfl⟩
      · refine ⟨done, a :: queue, h.server rfl rfl (fun _ => rfl) rfl ?_ Or.inl
          (fun _ => hsplit), rfl⟩
        rw [List.append_nil, hpast]
        rfl
      · rcases hcases with ⟨need, hp'⟩ | ⟨hp', hrest⟩ | ⟨e, hp'⟩
        · rw [hp] at hp'; cases hp'
        · -- the frame of the first call in the queue is read
          have hdec : decoded creq a.payload = .ok req :=
            (Progress.done.inj (hp.symm.trans hp')).symm
          have hreq : req = a.req := by
            rcases decoded_cases creq a.payload with ⟨m, hm, hok⟩ | ⟨e, herr⟩
            · rw [hdec] at hok
              cases hok
              exact hsound _ _ _ henc.1 hm
            · rw [hdec] at herr
              cases herr
          have hcalls : done ++ [a] ++ queue = done ++ a :: queue := List.append_assoc ..
          refine ⟨done ++ [a], queue, h.server rfl rfl (fun _ => rfl) hcalls ?_ ?_ ?_, hcalls⟩
          · rw [List.append_nil, List.map_append, hpast, hreq]
            show _ ++ [] ++ [a.req] = _ ++ [a.req]
            rw [List.append_nil]
          · rintro rfl
            exact Or.inr (List.append_eq_nil_iff.mp hrest).2
          · exact fun _ => hrest
        · rw [hp] at hp'; cases hp'
      · refine ⟨done, a :: queue, h.server rfl rfl (fun _ => rfl) rfl ?_ Or.inl ?_, rfl⟩
        · rw [List.append_nil, hpast]
          rfl
        · intro halive
          exact absurd rfl halive

/-- It serves what it took. -/
theorem delivery_serverHandle {vfs : TokimoVfs σ} (h : Delivery creq st tr done queue)
    (hs : serverHandle cresp vfs st = some (st', es)) :
    Delivery creq st' (tr ++ es) done queue := by
  obtain ⟨req, hserver, rfl, rfl⟩ := serverHandle_cases hs
  have hpast := h.past
  have hstream := h.stream (by rw [hserver]; intro h; cases h)
  rw [hserver] at hpast hstream
  have hreply : (Server.reply cresp (handle vfs req st.vfs).1).inHand = []
      ∧ (Server.reply cresp (handle vfs req st.vfs).1).got = [] := by
    rw [Server.reply]
    cases framed cresp (handle vfs req st.vfs).1 with
    | error e => exact ⟨rfl, rfl⟩
    | ok todo => exact ⟨rfl, rfl⟩
  refine h.server rfl rfl (fun _ => rfl) rfl ?_ Or.inl ?_
  · rw [hpast, servedOf_append, List.map_append]
    show _ = _ ++ [req] ++ (Server.reply cresp _).inHand
    rw [hreply.1, List.append_nil]
    rfl
  · intro _
    show (Server.reply cresp _).got ++ _ = _
    rw [hreply.2]
    exact hstream

/-- Its replies ask for nothing. -/
theorem delivery_serverSend (h : Delivery creq st tr done queue)
    (hs : serverSend st n = some (st', es)) : Delivery creq st' (tr ++ es) done queue := by
  obtain ⟨todo, hserver, rfl, rfl⟩ := serverSend_cases hs
  have hpast := h.past
  have hstream := h.stream (by rw [hserver]; intro h; cases h)
  rw [hserver] at hpast hstream
  have hwrote : (Server.wrote (todo.drop (n + 1))).inHand = []
      ∧ (Server.wrote (todo.drop (n + 1))).got = [] := by
    rcases server_wrote_cases (todo.drop (n + 1)) with ⟨-, hw⟩ | ⟨-, hw⟩
    · rw [hw]; exact ⟨rfl, rfl⟩
    · rw [hw]; exact ⟨rfl, rfl⟩
  refine h.server rfl rfl (fun _ => rfl) rfl ?_ Or.inl ?_
  · rw [hpast, List.append_nil]
    show _ = _ ++ (Server.wrote _).inHand
    rw [hwrote.1]
    rfl
  · intro _
    show (Server.wrote _).got ++ _ = _
    rw [hwrote.2]
    exact hstream

/-- **THE STEP**: the calls, their frames and the server stay in line, and the
    calls are those of the lock. -/
theorem delivery_step {vfs : TokimoVfs σ} {l : Label} (hsound : creq.Sound)
    (h : Delivery creq st tr done queue) (hwhole : Whole creq st l)
    (hs : (system creq cresp vfs).step st l = some (st', es)) :
    ∃ done' queue', Delivery creq st' (tr ++ es) done' queue'
      ∧ calls (done' ++ queue') = lockOrder creq st l (calls (done ++ queue)) := by
  cases l with
  | issue i req => exact ⟨_, _, delivery_issue h hs, rfl⟩
  | acquire i => exact ⟨_, delivery_acquire h hs⟩
  | send i n => exact ⟨_, _, delivery_send h hs, rfl⟩
  | recv i n => exact ⟨_, _, delivery_recv h hs, rfl⟩
  | broken i text =>
      obtain ⟨req, todo, hstop, hwrite, rfl, rfl⟩ := broken_cases hs
      exact ⟨_, _, h.leave (by rw [hwrite]; rfl) rfl (fun _ => rfl) (Or.inr hstop), rfl⟩
  | eof i =>
      obtain ⟨req, got, hstop, hread, rfl, rfl⟩ := eof_cases hs
      exact ⟨_, _, h.leave (by rw [hread]; rfl) rfl (fun _ => rfl) (Or.inr hstop), rfl⟩
  | drop i => exact ⟨_, delivery_drop h hwhole hs⟩
  | serverRecv n =>
      obtain ⟨done', queue', hd, hcalls⟩ := delivery_serverRecv hsound h hs
      exact ⟨done', queue', hd, congrArg calls hcalls⟩
  | serverHandle => exact ⟨_, _, delivery_serverHandle h hs, rfl⟩
  | serverSend n => exact ⟨_, _, delivery_serverSend h hs, rfl⟩

end

/-! ## Runs -/

/-- **AT MOST ONCE, IN ORDER**: in a run that notes the order of the lock, the
    served requests are the first ones of the calls in that order, each call
    is one that its task issued, and the file system is where the served
    requests take it.  Calls may fail, be dropped while they wait for their
    response, or get a response that is not theirs. -/
theorem served_at_most_once {vfs : TokimoVfs σ} (hsound : creq.Sound) (n : Nat) (s₀ : σ)
    {st : Sys σ × List (Nat × Request)} {tr : List Event}
    (hr : Run ((system creq cresp vfs).noting (lockOrder creq)) (fun st l => Whole creq st.1 l)
      (Sys.start n s₀, []) st tr) :
    (servedOf tr).map Prod.fst <+: st.2.map Prod.snd
      ∧ (∀ i, (askedBy i st.2).Sublist (issuedBy i tr))
      ∧ Handles vfs s₀ (servedOf tr) st.1.vfs := by
  have hinv : ∃ done queue, Delivery creq st.1 tr done queue ∧ st.2 = calls (done ++ queue) := by
    refine Run.invariant
      (I := fun st tr => ∃ done queue, Delivery creq st.1 tr done queue
        ∧ st.2 = calls (done ++ queue)) ⟨[], [], delivery_start n s₀, rfl⟩ ?_ hr
    rintro st tr l st' es ⟨done, queue, h, hcalls⟩ hwhole hs
    obtain ⟨hstep, hnote⟩ := noting_step hs
    obtain ⟨done', queue', hd, hcalls'⟩ := delivery_step hsound h hwhole hstep
    exact ⟨done', queue', hd, by rw [hnote, hcalls', hcalls]⟩
  obtain ⟨done, queue, h, hcalls⟩ := hinv
  refine ⟨?_, fun i => ?_, handles_run (hr.forget.weaken fun _ _ _ => True.intro)⟩
  · have hreqs : st.2.map Prod.snd = (done ++ queue).map Asked.req := by
      rw [hcalls, calls, List.map_map]
      rfl
    rw [hreqs, List.map_append, h.past, List.append_assoc]
    exact List.prefix_append _ _
  · rw [hcalls]
    exact (h.order i).1

/-- A call of `/a` is dropped while it waits for its response, one of `/b`
    before it has written a byte. -/
def droppedLabels : List Label :=
  statLabels 0 pathA ++ [.drop 0, .issue 1 (.stat pathB), .acquire 1, .drop 1]

/-- The first stays in the order of the lock and is served once; the second
    has left it. -/
theorem dropped_call_is_served_once :
    ∃ (st : Sys Unit × List (Nat × Request)) (tr : List Event),
      .dropped 0 (.stat pathA) ∈ tr ∧ .dropped 1 (.stat pathB) ∈ tr
      ∧ servedOf tr = [(.stat pathA, .stat (.ok (fileOf 1)))]
      ∧ st.2 = [(0, .stat pathA)]
      ∧ (servedOf tr).map Prod.fst <+: st.2.map Prod.snd
      ∧ (∀ i, (askedBy i st.2).Sublist (issuedBy i tr))
      ∧ Handles twoFiles () (servedOf tr) st.1.vfs := by
  obtain ⟨⟨st, tr⟩, hexec, hseen⟩ := Option.map_eq_some_iff.mp
    (show (((system (Codec.ofTable statRequests) (Codec.ofTable statResponses) twoFiles).noting
        (lockOrder (Codec.ofTable statRequests))).exec (Sys.start 2 (), []) droppedLabels).map
          (fun r => (r.1.2, r.2))
      = some ([(0, .stat pathA)], [.issue 0 (.stat pathA),
        .served (some 0) (.stat pathA) (.stat (.ok (fileOf 1))), .dropped 0 (.stat pathA),
        .issue 1 (.stat pathB), .dropped 1 (.stat pathB)]) by decide +kernel)
  obtain ⟨htaken, htr⟩ := Prod.mk.inj hseen
  have hwhole : ((system (Codec.ofTable statRequests) (Codec.ofTable statResponses)
      twoFiles).noting (lockOrder (Codec.ofTable statRequests))).Along
      (fun st l => Whole (Codec.ofTable statRequests) st.1 l) (Sys.start 2 (), [])
      droppedLabels := by decide +kernel
  have htr' : tr = _ := htr
  refine ⟨st, tr, ?_, ?_, ?_, htaken,
    served_at_most_once (Codec.ofTable_lawful (by decide)).sound 2 () (run_of_exec _ hwhole hexec)⟩
  · rw [htr']
    decide
  · rw [htr']
    decide
  · rw [htr']
    decide

end TokimoRpc
