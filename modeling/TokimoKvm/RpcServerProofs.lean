import TokimoKvm.RpcFrameProofs

/-! # The server on arbitrary bytes

    `serveStream` reads a request, handles it, writes the response and goes
    on, until a read or a write fails; then it returns `Ok`.  What the guest
    sends is any byte string under any chunking, so the server is described
    by what such a string splits into: the requests of its longest prefix of
    well-formed frames. -/

namespace TokimoRpc

open TokimoBytes TokimoVfsCore

variable {σ : Type}

/-! ## The loop -/

/-- What serving a connection leaves: the result, the transport as it was
    written to, and the file system. -/
structure Served (σ : Type) where
  result : Except FrameError Unit
  sink : Sink
  vfs : σ

/-- A frame that is read leaves less of the string. -/
theorem parseFrame_shorter {T : Type} {c : Codec T} {bs rest : Bytes} {m : T}
    (h : parseFrame c bs = (.ok m, rest)) : rest.length < bs.length := by
  rw [parseFrame] at h
  by_cases h4 : bs.length < 4
  · rw [if_pos h4] at h
    cases (Prod.mk.inj h).1
  · rw [if_neg h4] at h
    by_cases hbig : maxFrame < u32FromBe (bs.take 4)
    · rw [if_pos hbig] at h
      cases (Prod.mk.inj h).1
    · rw [if_neg hbig] at h
      by_cases hfit : (bs.drop 4).length < u32FromBe (bs.take 4)
      · rw [if_pos hfit] at h
        cases (Prod.mk.inj h).1
      · rw [if_neg hfit] at h
        rw [← (Prod.mk.inj h).2, List.length_drop, List.length_drop]
        omega

/-- The loop ends, as each frame it reads takes bytes off the source. -/
theorem readFrame_shorter {T : Type} {c : Codec T} {r r' : Source} {m : T}
    (h : readFrame c r = (.ok m, r')) : r'.pending.length < r.pending.length := by
  obtain ⟨h1, h2⟩ := readFrame_parse c r
  rw [h] at h1 h2
  refine parseFrame_shorter (c := c) (m := m) ?_
  rw [Prod.ext_iff]
  exact ⟨h1.symm, h2.symm⟩

/-- `serve_stream`: read a request, handle it, write the response, and go on.
    A read or a write that fails ends the loop, and the result is `Ok`. -/
def serveStream (creq : Codec Request) (cresp : Codec Response) (vfs : TokimoVfs σ)
    (r : Source) (w : Sink) (s : σ) : Served σ :=
  match _h : readFrame creq r with
  | (.error _, _) => { result := .ok (), sink := w, vfs := s }
  | (.ok req, r') =>
      match writeFrame cresp w (handle vfs req s).1 with
      | (.error _, w') => { result := .ok (), sink := w', vfs := (handle vfs req s).2 }
      | (.ok (), w') => serveStream creq cresp vfs r' w' (handle vfs req s).2
termination_by r.pending.length
decreasing_by exact readFrame_shorter _h

/-! ## What a byte string splits into -/

/-- The string is frames of at most 64 MiB that decode to the requests, and
    the rest. -/
inductive Splits (c : Codec Request) : Bytes → List Request → Bytes → Prop where
  | stop (rest : Bytes) : Splits c rest [] rest
  | frame (header payload more : Bytes) (req : Request) (reqs : List Request) (rest : Bytes) :
      header.length = 4 → u32FromBe header = payload.length → payload.length ≤ maxFrame →
      c.fromBytes payload = .ok req → Splits c more reqs rest →
      Splits c (header ++ (payload ++ more)) (req :: reqs) rest

/-- The requests a server reads off a byte string. -/
def requestsOf (c : Codec Request) (bs : Bytes) : List Request :=
  match _h : parseFrame c bs with
  | (.error _, _) => []
  | (.ok req, rest) => req :: requestsOf c rest
termination_by bs.length
decreasing_by exact parseFrame_shorter _h

theorem requestsOf_of_error {c : Codec Request} {bs rest : Bytes} {e : FrameError}
    (h : parseFrame c bs = (.error e, rest)) : requestsOf c bs = [] := by
  rw [requestsOf]
  split
  · rfl
  · next req rest' h' =>
      rw [h] at h'
      exact nomatch (Prod.mk.inj h').1

theorem requestsOf_of_ok {c : Codec Request} {bs rest : Bytes} {req : Request}
    (h : parseFrame c bs = (.ok req, rest)) : requestsOf c bs = req :: requestsOf c rest := by
  rw [requestsOf]
  split
  · next e rest' h' =>
      rw [h] at h'
      exact nomatch (Prod.mk.inj h').1
  · next req' rest' h' =>
      rw [h] at h'
      obtain ⟨h1, h2⟩ := Prod.mk.inj h'
      rw [Except.ok.inj h1, h2]

/-- A frame that is read is at the front of the string. -/
theorem parseFrame_ok {c : Codec Request} {bs rest : Bytes} {req : Request}
    (h : parseFrame c bs = (.ok req, rest)) :
    ∃ header payload, bs = header ++ (payload ++ rest) ∧ header.length = 4
      ∧ u32FromBe header = payload.length ∧ payload.length ≤ maxFrame
      ∧ c.fromBytes payload = .ok req := by
  rw [parseFrame] at h
  by_cases h4 : bs.length < 4
  · rw [if_pos h4] at h
    cases (Prod.mk.inj h).1
  · rw [if_neg h4] at h
    by_cases hbig : maxFrame < u32FromBe (bs.take 4)
    · rw [if_pos hbig] at h
      cases (Prod.mk.inj h).1
    · rw [if_neg hbig] at h
      by_cases hfit : (bs.drop 4).length < u32FromBe (bs.take 4)
      · rw [if_pos hfit] at h
        cases (Prod.mk.inj h).1
      · rw [if_neg hfit] at h
        obtain ⟨hdec, hrest⟩ := Prod.mk.inj h
        have hlen : ((bs.drop 4).take (u32FromBe (bs.take 4))).length
            = u32FromBe (bs.take 4) := by
          rw [List.length_take]
          omega
        refine ⟨bs.take 4, (bs.drop 4).take (u32FromBe (bs.take 4)), ?_, ?_, hlen.symm,
          by omega, ?_⟩
        · rw [← hrest, List.take_append_drop, List.take_append_drop]
        · rw [List.length_take]
          omega
        · rw [decoded] at hdec
          cases hb : c.fromBytes ((bs.drop 4).take (u32FromBe (bs.take 4))) with
          | error text => rw [hb] at hdec; cases hdec
          | ok m => rw [hb] at hdec; rw [Except.ok.inj hdec]

/-- A frame at the front of the string is read. -/
theorem parseFrame_of_frame {c : Codec Request} {header payload : Bytes} (rest : Bytes)
    {req : Request} (h4 : header.length = 4) (hlen : u32FromBe header = payload.length)
    (hmax : payload.length ≤ maxFrame) (hdec : c.fromBytes payload = .ok req) :
    parseFrame c (header ++ (payload ++ rest)) = (.ok req, rest) := by
  have htake : (header ++ (payload ++ rest)).take 4 = header := List.take_left' h4
  have hdrop : (header ++ (payload ++ rest)).drop 4 = payload ++ rest := List.drop_left' h4
  rw [parseFrame, htake, hdrop, hlen, if_neg (by rw [List.length_append]; omega),
    if_neg (by omega), if_neg (by rw [List.length_append]; omega), List.take_left,
    List.drop_left, decoded, hdec]

/-- **THE LONGEST PREFIX**: a string splits into the requests a server reads
    off it, and every other split stops earlier. -/
theorem splits_requestsOf (c : Codec Request) (bs : Bytes) :
    (∃ rest, Splits c bs (requestsOf c bs) rest)
      ∧ ∀ reqs rest, Splits c bs reqs rest → reqs <+: requestsOf c bs := by
  constructor
  · induction hn : bs.length using Nat.strongRecOn generalizing bs with
    | ind n ih =>
        cases hp : parseFrame c bs with
        | mk o rest =>
            cases o with
            | error e =>
                rw [requestsOf_of_error hp]
                exact ⟨bs, Splits.stop bs⟩
            | ok req =>
                have hlt := parseFrame_shorter hp
                obtain ⟨tail, htail⟩ := ih rest.length (by omega) rest rfl
                obtain ⟨header, payload, hbs, h4, hlen, hmax, hdec⟩ := parseFrame_ok hp
                refine ⟨tail, ?_⟩
                rw [requestsOf_of_ok hp, hbs]
                exact Splits.frame header payload rest req _ tail h4 hlen hmax hdec htail
  · intro reqs rest hs
    induction hs with
    | stop rest => exact List.nil_prefix
    | frame header payload more req reqs rest h4 hlen hmax hdec _ ih =>
        rw [requestsOf_of_ok (parseFrame_of_frame more h4 hlen hmax hdec)]
        exact (List.prefix_cons_inj req).mpr ih

/-! ## Handling a list of requests -/

/-- Handle requests one after the other. -/
def runRequests (vfs : TokimoVfs σ) : List Request → σ → List Response × σ
  | [], s => ([], s)
  | req :: reqs, s =>
      ((handle vfs req s).1 :: (runRequests vfs reqs (handle vfs req s).2).1,
        (runRequests vfs reqs (handle vfs req s).2).2)

/-- Watching a file system collects the calls of the requests in order. -/
theorem runRequests_logged (vfs : TokimoVfs σ) :
    ∀ (reqs : List Request) (s : σ) (log : List VfsCall),
      runRequests vfs.logged reqs (s, log)
        = ((runRequests vfs reqs s).1,
          ((runRequests vfs reqs s).2, log ++ reqs.filterMap Request.call)) := by
  intro reqs
  induction reqs with
  | nil =>
      intro s log
      rw [runRequests, runRequests, List.filterMap_nil, List.append_nil]
  | cons req reqs ih =>
      intro s log
      rw [runRequests, runRequests, handle_logged, ih, List.append_assoc]
      cases hc : req.call with
      | none => rw [List.filterMap_cons_none hc]; rfl
      | some call => rw [List.filterMap_cons_some hc]; rfl

/-- Handle requests and write each response before the next request. -/
def serveList (cresp : Codec Response) (vfs : TokimoVfs σ) :
    List Request → Sink → σ → Sink × σ
  | [], w, s => (w, s)
  | req :: reqs, w, s =>
      match writeFrame cresp w (handle vfs req s).1 with
      | (.error _, w') => (w', (handle vfs req s).2)
      | (.ok (), w') => serveList cresp vfs reqs w' (handle vfs req s).2

/-- **SERVING A STREAM IS SERVING ITS REQUESTS**, whatever the chunks. -/
theorem serveStream_eq (creq : Codec Request) (cresp : Codec Response) (vfs : TokimoVfs σ) :
    ∀ (r : Source) (w : Sink) (s : σ),
      serveStream creq cresp vfs r w s
        = { result := .ok ()
            sink := (serveList cresp vfs (requestsOf creq r.pending) w s).1
            vfs := (serveList cresp vfs (requestsOf creq r.pending) w s).2 } := by
  intro r
  induction hn : r.pending.length using Nat.strongRecOn generalizing r with
  | ind n ih =>
      intro w s
      obtain ⟨h1, h2⟩ := readFrame_parse creq r
      rw [serveStream]
      split
      · next e r' hr =>
          rw [hr] at h1 h2
          rw [requestsOf_of_error (Prod.ext h1.symm h2.symm)]
          rfl
      · next req r' hr =>
          rw [hr] at h1 h2
          have hlt := readFrame_shorter hr
          rw [requestsOf_of_ok (Prod.ext h1.symm h2.symm), serveList]
          split
          · next e w' hw => rfl
          · next w' hw => rw [ih r'.pending.length (by omega) r' rfl]

/-- The frames of some responses. -/
def FramesOf (cresp : Codec Response) (resps : List Response) (stream : Bytes) : Prop :=
  ∃ payloads : List Bytes,
    List.Forall₂ (fun m b => cresp.toStdvec m = .ok b ∧ b.length < 2 ^ 32) resps payloads
      ∧ stream = (payloads.map frame).flatten

/-- The responses have all been written. -/
def AllReplied (cresp : Codec Response) (w w' : Sink) (resps : List Response) : Prop :=
  ∃ stream, FramesOf cresp resps stream ∧ w'.written = w.written ++ stream

/-- Why a response could not be written to `w`, which is `w'` then: it has no
    encoding, its encoding is too long for the header of a frame, or the
    transport failed, with at most a first part of the frame put out. -/
inductive CutOff (cresp : Codec Response) (w w' : Sink) (resp : Response) : Prop where
  | encode (text : String) : cresp.toStdvec resp = .error text → w' = w → CutOff cresp w w' resp
  | tooLarge (b : Bytes) : cresp.toStdvec resp = .ok b → 2 ^ 32 ≤ b.length → w' = w →
      CutOff cresp w w' resp
  | broken (b part : Bytes) (text : String) : cresp.toStdvec resp = .ok b → b.length < 2 ^ 32 →
      part <+: frame b → w'.written = w.written ++ part →
      .fail text :: w'.script <:+ w.script → CutOff cresp w w' resp

/-- The responses but the last have been written, and the last could not be. -/
def LastFailed (cresp : Codec Response) (w w' : Sink) (resps : List Response) : Prop :=
  ∃ done last w₁, resps = done ++ [last] ∧ AllReplied cresp w w₁ done
    ∧ w₁.script <:+ w.script ∧ CutOff cresp w₁ w' last

theorem AllReplied.nil (cresp : Codec Response) (w : Sink) : AllReplied cresp w w [] :=
  ⟨[], ⟨[], List.Forall₂.nil, rfl⟩, (List.append_nil _).symm⟩

theorem AllReplied.cons {cresp : Codec Response} {w w₁ w' : Sink} {resp : Response}
    {b : Bytes} {resps : List Response} (henc : cresp.toStdvec resp = .ok b)
    (hlt : b.length < 2 ^ 32) (hout : w₁.written = w.written ++ frame b)
    (h : AllReplied cresp w₁ w' resps) : AllReplied cresp w w' (resp :: resps) := by
  obtain ⟨stream, ⟨payloads, hall, hs⟩, hwr⟩ := h
  refine ⟨frame b ++ stream, ⟨b :: payloads, List.Forall₂.cons ⟨henc, hlt⟩ hall, ?_⟩, ?_⟩
  · rw [hs, List.map_cons, List.flatten_cons]
  · rw [hwr, hout, List.append_assoc]

/-- A failed write is the end of a list of responses. -/
theorem LastFailed.of_writeFrame {cresp : Codec Response} {w w' : Sink} {resp : Response}
    {e : FrameError} (h : writeFrame cresp w resp = (.error e, w')) :
    LastFailed cresp w w' [resp] := by
  have hlast : CutOff cresp w w' resp → LastFailed cresp w w' [resp] := fun hcut =>
    ⟨[], resp, w, rfl, AllReplied.nil cresp w, List.suffix_refl _, hcut⟩
  have hused := (writeFrame_used cresp w resp).2
  rw [h] at hused
  rcases writeFrame_cases cresp w resp with ⟨text, henc, hw⟩ | ⟨b, henc, hbig, hw⟩
    | ⟨b, w₁, -, -, hw, -⟩ | ⟨b, text, w₁, part, henc, hlt, hw, hpre, hout⟩
  · rw [h] at hw
    exact hlast (.encode text henc (Prod.mk.inj hw).2)
  · rw [h] at hw
    exact hlast (.tooLarge b henc hbig (Prod.mk.inj hw).2)
  · rw [h] at hw
    cases (Prod.mk.inj hw).1
  · rw [h] at hw
    obtain ⟨he, hww⟩ := Prod.mk.inj hw
    rw [← hww] at hout
    exact hlast (.broken b part text henc hlt hpre hout (hused text he))

theorem LastFailed.cons {cresp : Codec Response} {w w₁ w' : Sink} {resp : Response}
    {b : Bytes} {resps : List Response} (henc : cresp.toStdvec resp = .ok b)
    (hlt : b.length < 2 ^ 32) (hout : w₁.written = w.written ++ frame b)
    (hscript : w₁.script <:+ w.script) (h : LastFailed cresp w₁ w' resps) :
    LastFailed cresp w w' (resp :: resps) := by
  obtain ⟨done, last, w₂, hresps, hdone, hs, hcut⟩ := h
  exact ⟨resp :: done, last, w₂, by rw [hresps, List.cons_append],
    hdone.cons henc hlt hout, hs.trans hscript, hcut⟩

/-- The first `k` requests are handled: all of them, or those up to the first
    whose response could not be written. -/
theorem serveList_spec (cresp : Codec Response) (vfs : TokimoVfs σ) :
    ∀ (reqs : List Request) (w : Sink) (s : σ), ∃ k, k ≤ reqs.length
      ∧ (serveList cresp vfs reqs w s).2 = (runRequests vfs (reqs.take k) s).2
      ∧ ((k = reqs.length ∧ AllReplied cresp w (serveList cresp vfs reqs w s).1
            (runRequests vfs (reqs.take k) s).1)
        ∨ LastFailed cresp w (serveList cresp vfs reqs w s).1
            (runRequests vfs (reqs.take k) s).1) := by
  intro reqs
  induction reqs with
  | nil =>
      intro w s
      exact ⟨0, Nat.le_refl _, rfl, Or.inl ⟨rfl, AllReplied.nil cresp w⟩⟩
  | cons req reqs ih =>
      intro w s
      -- the first reply is out, or the loop ends with it
      cases hw : writeFrame cresp w (handle vfs req s).1 with
      | mk o w' =>
          cases o with
          | error e =>
              have hserve : serveList cresp vfs (req :: reqs) w s
                  = (w', (handle vfs req s).2) := by
                rw [serveList, hw]
              rw [hserve]
              exact ⟨1, by simp, rfl, Or.inr (LastFailed.of_writeFrame hw)⟩
          | ok u =>
              have hserve : serveList cresp vfs (req :: reqs) w s
                  = serveList cresp vfs reqs w' (handle vfs req s).2 := by
                rw [serveList, hw]
              obtain ⟨b, henc, hlt, hout⟩ : ∃ b, cresp.toStdvec (handle vfs req s).1 = .ok b
                  ∧ b.length < 2 ^ 32 ∧ w'.written = w.written ++ frame b := by
                rcases writeFrame_cases cresp w (handle vfs req s).1 with ⟨text, -, h⟩
                  | ⟨b, -, -, h⟩ | ⟨b, w₁, henc, hlt, h, hout⟩ | ⟨b, text, w₁, part, -, -, h, -⟩
                · rw [hw] at h; exact nomatch (Prod.mk.inj h).1
                · rw [hw] at h; exact nomatch (Prod.mk.inj h).1
                · rw [hw] at h
                  rw [← (Prod.mk.inj h).2] at hout
                  exact ⟨b, henc, hlt, hout⟩
                · rw [hw] at h; exact nomatch (Prod.mk.inj h).1
              obtain ⟨k, hk, hstate, hreply⟩ := ih w' (handle vfs req s).2
              rw [hserve]
              refine ⟨k + 1, by rw [List.length_cons]; omega, ?_, ?_⟩
              · rw [List.take_succ_cons, runRequests]
                exact hstate
              · rw [List.take_succ_cons, runRequests]
                rcases hreply with ⟨hall, hdone⟩ | hfail
                · exact Or.inl ⟨by rw [List.length_cons, hall], hdone.cons henc hlt hout⟩
                · have hscript := (writeFrame_used cresp w (handle vfs req s).1).1
                  rw [hw] at hscript
                  exact Or.inr (hfail.cons henc hlt hout hscript)

/-! ## What a response holds -/

/-- The response that holds what a call returned: each method has its own. -/
def holding : VfsCall → Reply → Option Response
  | .stat _, .attr r => some (.stat r)
  | .list _, .entries r => some (.list r)
  | .read _ _ _, .bytes r => some (.read r)
  | .write _ _ _, .count r => some (.write r)
  | .create _ _, .attr r => some (.create r)
  | .mkdir _ _, .attr r => some (.mkdir r)
  | .remove _, .unit r => some (.remove r)
  | .rmdir _, .unit r => some (.rmdir r)
  | .rename _ _, .unit r => some (.rename r)
  | .truncate _ _, .unit r => some (.truncate r)
  | _, _ => none

/-- What executing a request on a file system is: the call it names is made,
    and the response holds what the call returned.  A greeting names none. -/
inductive Executes (vfs : TokimoVfs σ) (s : σ) (req : Request) : Response → σ → Prop where
  | hello : req.call = none → Executes vfs s req (.hello PROTOCOL_VERSION) s
  | call (call : VfsCall) (resp : Response) : req.call = some call →
      holding call (vfs.invoke s call).1 = some resp →
      Executes vfs s req resp (vfs.invoke s call).2

/-- Requests executed one after the other. -/
inductive Executed (vfs : TokimoVfs σ) : σ → List Request → List Response → σ → Prop where
  | nil (s : σ) : Executed vfs s [] [] s
  | cons {s s' s'' : σ} {req : Request} {reqs : List Request} {resp : Response}
      {resps : List Response} : Executes vfs s req resp s' → Executed vfs s' reqs resps s'' →
      Executed vfs s (req :: reqs) (resp :: resps) s''

/-- **HANDLING IS EXECUTING**, method by method. -/
theorem handle_executes (vfs : TokimoVfs σ) (req : Request) (s : σ) :
    Executes vfs s req (handle vfs req s).1 (handle vfs req s).2 := by
  cases req with
  | hello v => exact .hello rfl
  | stat p => exact .call (.stat p) _ rfl rfl
  | list p => exact .call (.list p) _ rfl rfl
  | read p off len => exact .call (.read p off len) _ rfl rfl
  | write p off data => exact .call (.write p off data) _ rfl rfl
  | create p mode => exact .call (.create p mode) _ rfl rfl
  | mkdir p mode => exact .call (.mkdir p mode) _ rfl rfl
  | remove p => exact .call (.remove p) _ rfl rfl
  | rmdir p => exact .call (.rmdir p) _ rfl rfl
  | rename p q => exact .call (.rename p q) _ rfl rfl
  | truncate p size => exact .call (.truncate p size) _ rfl rfl

theorem runRequests_executed (vfs : TokimoVfs σ) :
    ∀ (reqs : List Request) (s : σ),
      Executed vfs s reqs (runRequests vfs reqs s).1 (runRequests vfs reqs s).2 := by
  intro reqs
  induction reqs with
  | nil => exact Executed.nil
  | cons req reqs ih => exact fun s => .cons (handle_executes vfs req s) (ih _)

/-- **THE SERVER ON ARBITRARY BYTES**: it returns `Ok` after executing, in
    order, the first `k` requests of the longest prefix of the stream that
    splits into frames: it has made exactly their calls, and has written their
    responses, each holding what its call returned.  `k` is all of them, or
    the first whose response could not be written. -/
theorem serve_stream_executes (creq : Codec Request) (cresp : Codec Response)
    (vfs : TokimoVfs σ) (r : Source) (w : Sink) (s : σ) :
    ∃ reqs rest k resps s', Splits creq r.pending reqs rest
      ∧ (∀ reqs' rest', Splits creq r.pending reqs' rest' → reqs' <+: reqs)
      ∧ k ≤ reqs.length
      ∧ (serveStream creq cresp vfs.logged r w (s, [])).result = .ok ()
      ∧ (serveStream creq cresp vfs.logged r w (s, [])).vfs
        = (s', (reqs.take k).filterMap Request.call)
      ∧ Executed vfs s (reqs.take k) resps s'
      ∧ ((k = reqs.length
            ∧ AllReplied cresp w (serveStream creq cresp vfs.logged r w (s, [])).sink resps)
        ∨ LastFailed cresp w (serveStream creq cresp vfs.logged r w (s, [])).sink resps) := by
  obtain ⟨⟨rest, hsplit⟩, hlongest⟩ := splits_requestsOf creq r.pending
  obtain ⟨k, hk, hstate, hreply⟩ :=
    serveList_spec cresp vfs.logged (requestsOf creq r.pending) w (s, [])
  rw [runRequests_logged, List.nil_append] at hstate hreply
  rw [serveStream_eq]
  exact ⟨requestsOf creq r.pending, rest, k, _, _, hsplit, hlongest, hk, rfl, hstate,
    runRequests_executed vfs _ s, hreply⟩

end TokimoRpc
