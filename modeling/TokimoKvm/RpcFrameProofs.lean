import TokimoKvm.RpcProto

/-! # Frames — 4-byte big-endian length-prefixed messages

    `writeFrame` and `readFrame` over any transport and any codec.  A codec is
    a partial encoder and a partial decoder; where a result needs them to be
    inverse it says so.

    The two ends enforce different limits: the writer takes whatever has a
    32-bit length, the reader at most 64 MiB.  `frames_round_trip_iff` says
    that this is all that can go wrong. -/

namespace TokimoRpc

open TokimoBytes

/-! ## Codecs -/

/-- `postcard::to_stdvec` and `postcard::from_bytes` for one type, with the
    texts of their errors. -/
structure Codec (T : Type) where
  toStdvec : T → Except String Bytes
  fromBytes : Bytes → Except String T

/-- Decoding inverts encoding. -/
def Codec.Lawful {T : Type} (c : Codec T) : Prop :=
  ∀ m b, c.toStdvec m = .ok b → c.fromBytes b = .ok m

/-- Decoding may fail on an encoding, but does not give another message. -/
def Codec.Sound {T : Type} (c : Codec T) : Prop :=
  ∀ m b m', c.toStdvec m = .ok b → c.fromBytes b = .ok m' → m' = m

theorem Codec.Lawful.sound {T : Type} {c : Codec T} (h : c.Lawful) : c.Sound := by
  intro m b m' henc hdec
  rw [h m b henc] at hdec
  exact (Except.ok.inj hdec).symm

/-- The codec of a table of messages and their encodings. -/
def Codec.ofTable {T : Type} [DecidableEq T] (table : List (T × Bytes)) : Codec T where
  toStdvec := fun m =>
    match table.find? (fun e => decide (e.1 = m)) with
    | some e => .ok e.2
    | none => .error "unsupported"
  fromBytes := fun b =>
    match table.find? (fun e => decide (e.2 = b)) with
    | some e => .ok e.1
    | none => .error "unsupported"

/-- The first message of a table is encoded as the table says. -/
theorem Codec.ofTable_head {T : Type} [DecidableEq T] (m : T) (b : Bytes)
    (table : List (T × Bytes)) : (Codec.ofTable ((m, b) :: table)).toStdvec m = .ok b := by
  show (match ((m, b) :: table).find? (fun e => decide (e.1 = m)) with
    | some e => Except.ok e.2
    | none => .error "unsupported") = .ok b
  rw [List.find?_cons_of_pos (p := fun e : T × Bytes => decide (e.1 = m))
    (a := (m, b)) (decide_eq_true rfl)]

/-- A table without two messages of one encoding is lawful. -/
theorem Codec.ofTable_lawful {T : Type} [DecidableEq T] {table : List (T × Bytes)}
    (h : ∀ e ∈ table, ∀ e' ∈ table, e.2 = e'.2 → e.1 = e'.1) : (Codec.ofTable table).Lawful := by
  intro m b henc
  have henc' : (match table.find? (fun e => decide (e.1 = m)) with
    | some e => Except.ok e.2
    | none => .error "unsupported") = .ok b := henc
  cases hf : table.find? (fun e => decide (e.1 = m)) with
  | none => rw [hf] at henc'; exact nomatch henc'
  | some e =>
      rw [hf] at henc'
      have hb : e.2 = b := Except.ok.inj henc'
      have hm : e.1 = m := by simpa using List.find?_some hf
      have hmem := List.mem_of_find?_eq_some hf
      show (match table.find? (fun e => decide (e.2 = b)) with
        | some e => Except.ok e.1
        | none => .error "unsupported") = .ok m
      cases hg : table.find? (fun e => decide (e.2 = b)) with
      | none =>
          have := List.find?_eq_none.mp hg e hmem
          rw [hb] at this
          simp at this
      | some e' =>
          have hb' : e'.2 = b := by simpa using List.find?_some hg
          have hmem' := List.mem_of_find?_eq_some hg
          show Except.ok e'.1 = .ok m
          rw [h e' hmem' e hmem (hb'.trans hb.symm), hm]

/-! ## Writing and reading a frame -/

/-- The largest payload `read_frame` accepts. -/
def maxFrame : Nat := 64 * 1024 * 1024

variable {T : Type} (c : Codec T)

/-- Map an I/O error of the transport. -/
def io {α : Type} : Except String α → Except FrameError α
  | .ok a => .ok a
  | .error text => .error (.io text)

def writeFrame (w : Sink) (msg : T) : Except FrameError Unit × Sink :=
  match c.toStdvec msg with
  | .error text => (.error (.encode text), w)
  | .ok bytes =>
      if 2 ^ 32 ≤ bytes.length then (.error .tooLarge, w)
      else
        match w.writeAll (u32ToBe bytes.length) with
        | (.error text, w) => (.error (.io text), w)
        | (.ok (), w) =>
            match w.writeAll bytes with
            | (.error text, w) => (.error (.io text), w)
            | (.ok (), w) => (io w.flush.1, w.flush.2)

/-- `postcard::from_bytes` on a payload. -/
def decoded (bytes : Bytes) : Except FrameError T :=
  match c.fromBytes bytes with
  | .ok msg => .ok msg
  | .error text => .error (.decode text)

def readFrame (r : Source) : Except FrameError T × Source :=
  match r.readExact 4 with
  | (none, r) => (.error earlyEof, r)
  | (some lenBuf, r) =>
      if maxFrame < u32FromBe lenBuf then (.error (.frameTooLarge (u32FromBe lenBuf)), r)
      else
        match r.readExact (u32FromBe lenBuf) with
        | (none, r) => (.error earlyEof, r)
        | (some buf, r) => (decoded c buf, r)

/-! ## What a frame is -/

/-- A payload behind its length. -/
def frame (payload : Bytes) : Bytes := u32ToBe payload.length ++ payload

theorem frame_length (payload : Bytes) : (frame payload).length = 4 + payload.length := by
  rw [frame, List.length_append, u32ToBe_length]

/-- Read a frame off a byte string, and give back what is left. -/
def parseFrame (bs : Bytes) : Except FrameError T × Bytes :=
  if bs.length < 4 then (.error earlyEof, [])
  else if maxFrame < u32FromBe (bs.take 4) then
    (.error (.frameTooLarge (u32FromBe (bs.take 4))), bs.drop 4)
  else if (bs.drop 4).length < u32FromBe (bs.take 4) then (.error earlyEof, [])
  else
    (decoded c ((bs.drop 4).take (u32FromBe (bs.take 4))),
      (bs.drop 4).drop (u32FromBe (bs.take 4)))

/-- **READING IS PARSING**: whatever the chunks, `readFrame` reads the frame
    the coming bytes begin with. -/
theorem readFrame_parse (r : Source) :
    (readFrame c r).1 = (parseFrame c r.pending).1
      ∧ (readFrame c r).2.pending = (parseFrame c r.pending).2 := by
  have hval := Source.readExact_value 4 r
  have hpend := Source.readExact_pending 4 r
  rw [readFrame, parseFrame]
  cases h1 : r.readExact 4 with
  | mk o r1 =>
      rw [h1] at hval hpend
      by_cases hlt : r.pending.length < 4
      · rw [if_neg (by omega)] at hval
        have hnone : o = none := hval
        rw [hnone, if_pos hlt]
        refine ⟨rfl, ?_⟩
        show r1.pending = []
        rw [hpend, List.drop_eq_nil_of_le (by omega)]
      · rw [if_pos (by omega)] at hval
        have hsome : o = some (r.pending.take 4) := hval
        have hrest : r1.pending = r.pending.drop 4 := hpend
        rw [hsome, if_neg hlt]
        by_cases hbig : maxFrame < u32FromBe (r.pending.take 4)
        · simp only [if_pos hbig]
          exact ⟨True.intro, hrest⟩
        · simp only [if_neg hbig]
          have hval' := Source.readExact_value (u32FromBe (r.pending.take 4)) r1
          have hpend' := Source.readExact_pending (u32FromBe (r.pending.take 4)) r1
          rw [hrest] at hval' hpend'
          cases h2 : r1.readExact (u32FromBe (r.pending.take 4)) with
          | mk o' r2 =>
              rw [h2] at hval' hpend'
              by_cases hfit : (r.pending.drop 4).length < u32FromBe (r.pending.take 4)
              · rw [if_neg (by omega)] at hval'
                have hnone : o' = none := hval'
                simp only [hnone, if_pos hfit]
                refine ⟨True.intro, ?_⟩
                show r2.pending = []
                rw [hpend', List.drop_eq_nil_of_le (by omega)]
              · rw [if_pos (by omega)] at hval'
                have hsome' : o' = some ((r.pending.drop 4).take
                    (u32FromBe (r.pending.take 4))) := hval'
                simp only [hsome', if_neg hfit]
                exact ⟨True.intro, hpend'⟩

/-- A frame at the front is read, unless it is over the reader's limit. -/
theorem parseFrame_frame {payload : Bytes} (h : payload.length < 2 ^ 32) (rest : Bytes) :
    parseFrame c (frame payload ++ rest)
      = if maxFrame < payload.length then
          (.error (.frameTooLarge payload.length), payload ++ rest)
        else (decoded c payload, rest) := by
  have htake : (frame payload ++ rest).take 4 = u32ToBe payload.length := by
    rw [frame, List.append_assoc]
    exact List.take_left' (u32ToBe_length _)
  have hdrop : (frame payload ++ rest).drop 4 = payload ++ rest := by
    rw [frame, List.append_assoc]
    exact List.drop_left' (u32ToBe_length _)
  have hlen : ¬ (frame payload ++ rest).length < 4 := by
    rw [List.length_append, frame_length]
    omega
  rw [parseFrame, if_neg hlen, htake, hdrop, u32FromBe_toBe h]
  by_cases hbig : maxFrame < payload.length
  · rw [if_pos hbig, if_pos hbig]
  · have hfit : ¬ (payload ++ rest).length < payload.length := by
      rw [List.length_append]
      omega
    rw [if_neg hbig, if_neg hbig, if_neg hfit, List.take_left, List.drop_left]

/-- What `writeFrame` can have done: nothing, all of the frame, or a first
    part of it when the transport failed. -/
theorem writeFrame_cases (w : Sink) (msg : T) :
    (∃ text, c.toStdvec msg = .error text ∧ writeFrame c w msg = (.error (.encode text), w))
      ∨ (∃ b, c.toStdvec msg = .ok b ∧ 2 ^ 32 ≤ b.length
        ∧ writeFrame c w msg = (.error .tooLarge, w))
      ∨ (∃ b w', c.toStdvec msg = .ok b ∧ b.length < 2 ^ 32
        ∧ writeFrame c w msg = (.ok (), w') ∧ w'.written = w.written ++ frame b)
      ∨ (∃ b text w' part, c.toStdvec msg = .ok b ∧ b.length < 2 ^ 32
        ∧ writeFrame c w msg = (.error (.io text), w')
        ∧ part <+: frame b ∧ w'.written = w.written ++ part) := by
  rw [writeFrame]
  cases henc : c.toStdvec msg with
  | error text => exact Or.inl ⟨text, rfl, rfl⟩
  | ok b =>
      by_cases hbig : 2 ^ 32 ≤ b.length
      · exact Or.inr (Or.inl ⟨b, rfl, hbig, by simp only [if_pos hbig]⟩)
      · simp only [if_neg hbig]
        -- the length goes first, and each of three writes may fail
        obtain ⟨pre, hpre, hw1⟩ := w.writeAll_part (u32ToBe b.length)
        cases h1 : w.writeAll (u32ToBe b.length) with
        | mk r1 w1 =>
            rw [h1] at hw1
            cases r1 with
            | error text =>
                exact Or.inr (Or.inr (Or.inr ⟨b, text, w1, pre, rfl, by omega, rfl,
                  hpre.trans (List.prefix_append _ _), hw1⟩))
            | ok u =>
                have hfull : w1.written = w.written ++ u32ToBe b.length := by
                  have h : (w.writeAll (u32ToBe b.length)).2.written
                      = w.written ++ u32ToBe b.length := Sink.writeAll_ok (by rw [h1])
                  rw [h1] at h
                  exact h
                obtain ⟨pre2, hpre2, hw2⟩ := w1.writeAll_part b
                cases h2 : w1.writeAll b with
                | mk r2 w2 =>
                    rw [h2] at hw2
                    have hmid : w2.written = w.written ++ (u32ToBe b.length ++ pre2) := by
                      rw [← List.append_assoc, ← hfull]
                      exact hw2
                    cases r2 with
                    | error text =>
                        exact Or.inr (Or.inr (Or.inr ⟨b, text, w2, _, rfl, by omega,
                          by simp only [h2], (List.prefix_append_right_inj _).mpr hpre2, hmid⟩))
                    | ok u =>
                        have hfull2 : w2.written = w.written ++ frame b := by
                          have h : (w1.writeAll b).2.written = w1.written ++ b :=
                            Sink.writeAll_ok (by rw [h2])
                          rw [h2] at h
                          have h' : w2.written = w1.written ++ b := h
                          rw [h', hfull, List.append_assoc]
                          rfl
                        -- a flush that fails comes after the whole frame
                        have hflush : w2.flush.2.written = w.written ++ frame b := by
                          rw [Sink.flush_written, hfull2]
                        cases h3 : w2.flush.1 with
                        | ok u =>
                            exact Or.inr (Or.inr (Or.inl ⟨b, w2.flush.2, rfl, by omega,
                              by simp only [h2, h3]; rfl, hflush⟩))
                        | error text =>
                            exact Or.inr (Or.inr (Or.inr ⟨b, text, w2.flush.2, frame b, rfl,
                              by omega, by simp only [h2, h3]; rfl, List.prefix_refl _,
                              hflush⟩))

/-- A frame uses up part of the transport's script, and an error of the
    transport is one it had there. -/
theorem writeFrame_used (w : Sink) (msg : T) :
    (writeFrame c w msg).2.script <:+ w.script
      ∧ ∀ text, (writeFrame c w msg).1 = .error (.io text) →
        .fail text :: (writeFrame c w msg).2.script <:+ w.script := by
  have hend : ∀ {w' : Sink} {r : Except String Unit}, w.Used w' r →
      w'.script <:+ w.script
        ∧ ∀ text, io r = .error (.io text) → .fail text :: w'.script <:+ w.script := by
    intro w' r h
    refine ⟨h.used, fun text he => ?_⟩
    cases r with
    | ok u => cases he
    | error text' =>
        cases he
        exact h.failed text rfl
  rw [writeFrame]
  cases henc : c.toStdvec msg with
  | error text => exact ⟨List.suffix_refl _, fun _ h => by cases h⟩
  | ok b =>
      by_cases hbig : 2 ^ 32 ≤ b.length
      · simp only [if_pos hbig]
        exact ⟨List.suffix_refl _, fun _ h => by cases h⟩
      · simp only [if_neg hbig]
        have hu1 := w.writeAll_used (u32ToBe b.length)
        cases h1 : w.writeAll (u32ToBe b.length) with
        | mk r1 w1 =>
            rw [h1] at hu1
            cases r1 with
            | error text => exact hend hu1
            | ok u =>
                have hu2 := hu1.trans (w1.writeAll_used b)
                cases h2 : w1.writeAll b with
                | mk r2 w2 =>
                    rw [h2] at hu2
                    cases r2 with
                    | error text =>
                        simp only [h2]
                        exact hend hu2
                    | ok u =>
                        simp only [h2]
                        exact hend (hu2.trans w2.flush_used)

/-- A reliable transport takes every frame with a 32-bit length. -/
theorem writeFrame_reliable {w : Sink} (hw : w.Reliable) {msg : T} {b : Bytes}
    (henc : c.toStdvec msg = .ok b) (hlt : b.length < 2 ^ 32) :
    ∃ w', writeFrame c w msg = (.ok (), w') ∧ w'.Reliable
      ∧ w'.written = w.written ++ frame b := by
  obtain ⟨h1, hr1⟩ := Sink.writeAll_reliable hw (u32ToBe b.length)
  obtain ⟨h2, hr2⟩ := Sink.writeAll_reliable hr1 b
  obtain ⟨h3, hr3⟩ := Sink.flush_reliable hr2
  have hwrite : writeFrame c w msg
      = (.ok (), ((w.writeAll (u32ToBe b.length)).2.writeAll b).2.flush.2) := by
    rw [writeFrame, henc]
    simp only [if_neg (Nat.not_le.mpr hlt)]
    cases hx : w.writeAll (u32ToBe b.length) with
    | mk r1 w1 =>
        rw [hx] at h1 h2 h3
        have hr : r1 = .ok () := h1
        rw [hr]
        simp only at h2 h3 ⊢
        cases hy : w1.writeAll b with
        | mk r2 w2 =>
            rw [hy] at h2 h3
            have hr' : r2 = .ok () := h2
            rw [hr']
            simp only at h3 ⊢
            rw [h3]
            rfl
  refine ⟨_, hwrite, hr3, ?_⟩
  rw [Sink.flush_written, Sink.writeAll_ok h2, Sink.writeAll_ok h1, List.append_assoc]
  rfl

/-! ## A reader that is fed bytes as they come -/

/-- How far a reader is that has been given some bytes: it waits for up to `n`
    more, or it is done. -/
inductive Progress (T : Type) where
  | more (n : Nat)
  | done (r : Except FrameError T)

/-- `readFrame` between two reads, by the bytes of the frame it has. -/
def progress (got : Bytes) : Progress T :=
  if got.length < 4 then .more (4 - got.length)
  else if maxFrame < u32FromBe (got.take 4) then
    .done (.error (.frameTooLarge (u32FromBe (got.take 4))))
  else if (got.drop 4).length < u32FromBe (got.take 4) then
    .more (u32FromBe (got.take 4) - (got.drop 4).length)
  else .done (decoded c ((got.drop 4).take (u32FromBe (got.take 4))))

/-- A reader that waits would fail at end of file; one that is done has read
    what `readFrame` reads. -/
theorem parseFrame_progress (got : Bytes) :
    (parseFrame c got).1 = match progress c got with
      | .more _ => .error earlyEof
      | .done r => r := by
  rw [parseFrame, progress]
  by_cases h4 : got.length < 4
  · rw [if_pos h4, if_pos h4]
  · rw [if_neg h4, if_neg h4]
    by_cases hbig : maxFrame < u32FromBe (got.take 4)
    · rw [if_pos hbig, if_pos hbig]
    · rw [if_neg hbig, if_neg hbig]
      by_cases hfit : (got.drop 4).length < u32FromBe (got.take 4)
      · rw [if_pos hfit, if_pos hfit]
      · rw [if_neg hfit, if_neg hfit]

/-- A reader always waits for something. -/
theorem progress_more_pos {got : Bytes} {n : Nat} (h : progress c got = .more n) : 0 < n := by
  rw [progress] at h
  by_cases h4 : got.length < 4
  · rw [if_pos h4] at h
    have := Progress.more.inj h
    omega
  · rw [if_neg h4] at h
    by_cases hbig : maxFrame < u32FromBe (got.take 4)
    · rw [if_pos hbig] at h; exact nomatch h
    · rw [if_neg hbig] at h
      by_cases hfit : (got.drop 4).length < u32FromBe (got.take 4)
      · rw [if_pos hfit] at h
        have := Progress.more.inj h
        omega
      · rw [if_neg hfit] at h; exact nomatch h

/-- Inside a frame below the limit a reader waits for no more than its rest. -/
theorem progress_inside {payload got rest : Bytes} (h : payload.length ≤ maxFrame)
    (hsplit : got ++ rest = frame payload) (hrest : rest ≠ []) :
    ∃ n, progress c got = .more n ∧ n ≤ rest.length := by
  have hlen : got.length + rest.length = 4 + payload.length := by
    rw [← frame_length, ← hsplit, List.length_append]
  have hpos := List.length_pos_iff.mpr hrest
  rw [progress]
  by_cases h4 : got.length < 4
  · exact ⟨4 - got.length, by rw [if_pos h4], by omega⟩
  · have htake : got.take 4 = u32ToBe payload.length := by
      have h1 : (got ++ rest).take 4 = got.take 4 := List.take_append_of_le_length (by omega)
      rw [← h1, hsplit]
      exact List.take_left' (u32ToBe_length _)
    have hval : u32FromBe (got.take 4) = payload.length := by
      rw [htake]
      exact u32FromBe_toBe (Nat.lt_of_le_of_lt h (by decide))
    rw [if_neg h4, hval, if_neg (by omega), List.length_drop, if_pos (by omega)]
    exact ⟨_, rfl, by omega⟩

/-- At the end of a frame below the limit a reader has its message. -/
theorem progress_frame {payload : Bytes} (h : payload.length ≤ maxFrame) :
    progress c (frame payload) = .done (decoded c payload) := by
  have htake : (frame payload).take 4 = u32ToBe payload.length :=
    List.take_left' (u32ToBe_length _)
  have hdrop : (frame payload).drop 4 = payload := List.drop_left' (u32ToBe_length _)
  have hval : u32FromBe (u32ToBe payload.length) = payload.length :=
    u32FromBe_toBe (Nat.lt_of_le_of_lt h (by decide))
  rw [progress, if_neg (by rw [frame_length]; omega), htake, hval, if_neg (by omega), hdrop,
    if_neg (by omega), List.take_length]

/-- Over the limit a reader waits for the header and then gives up. -/
theorem progress_oversized {payload got rest : Bytes} (h : maxFrame < payload.length)
    (h32 : payload.length < 2 ^ 32) (hsplit : got ++ rest = frame payload)
    (hgot : got.length ≤ 4) :
    progress c got = if got.length < 4 then .more (4 - got.length)
      else .done (.error (.frameTooLarge payload.length)) := by
  rw [progress]
  by_cases h4 : got.length < 4
  · rw [if_pos h4, if_pos h4]
  · have htake : got.take 4 = u32ToBe payload.length := by
      have h1 : (got ++ rest).take 4 = got.take 4 := List.take_append_of_le_length (by omega)
      rw [← h1, hsplit]
      exact List.take_left' (u32ToBe_length _)
    rw [if_neg h4, if_neg h4, htake, u32FromBe_toBe h32, if_pos h]

/-! ## Sequences of frames -/

def writeFrames : Sink → List T → Except FrameError Unit × Sink
  | w, [] => (.ok (), w)
  | w, msg :: msgs =>
      match writeFrame c w msg with
      | (.error e, w) => (.error e, w)
      | (.ok (), w) => writeFrames w msgs

def readFrames : Nat → Source → Except FrameError (List T) × Source
  | 0, r => (.ok [], r)
  | n + 1, r =>
      match readFrame c r with
      | (.error e, r) => (.error e, r)
      | (.ok msg, r) =>
          match readFrames n r with
          | (.error e, r) => (.error e, r)
          | (.ok msgs, r) => (.ok (msg :: msgs), r)

/-- Messages that all encode below the reader's limit. -/
def Readable (msgs : List T) : Prop :=
  ∀ m ∈ msgs, ∀ b, c.toStdvec m = .ok b → b.length ≤ maxFrame

/-- The stream reads back as the messages, however it is chunked and whatever
    follows, and reading stops where it ends. -/
def ReadsBack (msgs : List T) (stream : Bytes) : Prop :=
  ∀ (extra : Bytes) (cuts : List Nat),
    (readFrames c msgs.length { pending := stream ++ extra, cuts := cuts }).1 = .ok msgs
      ∧ (readFrames c msgs.length { pending := stream ++ extra, cuts := cuts }).2.pending
        = extra

variable {c}

/-- Accepted messages leave one frame each. -/
theorem writeFrames_ok : ∀ {msgs : List T} {w w' : Sink}, writeFrames c w msgs = (.ok (), w') →
    ∃ payloads : List Bytes,
      List.Forall₂ (fun m b => c.toStdvec m = .ok b ∧ b.length < 2 ^ 32) msgs payloads
        ∧ w'.written = w.written ++ (payloads.map frame).flatten := by
  intro msgs
  induction msgs with
  | nil =>
      intro w w' h
      rw [writeFrames] at h
      refine ⟨[], List.Forall₂.nil, ?_⟩
      rw [(Prod.mk.inj h).2, List.map_nil, List.flatten_nil, List.append_nil]
  | cons m msgs ih =>
      intro w w' h
      rw [writeFrames] at h
      rcases writeFrame_cases c w m with
        ⟨text, -, hw⟩ | ⟨b, -, -, hw⟩ | ⟨b, w₁, henc, hlt, hw, hout⟩
        | ⟨b, text, w₁, part, -, -, hw, -⟩
      · simp only [hw] at h; exact nomatch h
      · simp only [hw] at h; exact nomatch h
      · simp only [hw] at h
        obtain ⟨payloads, hall, hrest⟩ := ih h
        refine ⟨b :: payloads, List.Forall₂.cons ⟨henc, hlt⟩ hall, ?_⟩
        rw [hrest, hout, List.map_cons, List.flatten_cons, List.append_assoc]
      · simp only [hw] at h; exact nomatch h

/-- Reading the frames of accepted messages: they come back when each is below
    the limit, and only then. -/
theorem readFrames_frames (hl : c.Lawful) :
    ∀ {msgs : List T} {payloads : List Bytes},
      List.Forall₂ (fun m b => c.toStdvec m = .ok b ∧ b.length < 2 ^ 32) msgs payloads →
      ∀ (r : Source) (extra : Bytes), r.pending = (payloads.map frame).flatten ++ extra →
        (Readable c msgs → (readFrames c msgs.length r).1 = .ok msgs
          ∧ (readFrames c msgs.length r).2.pending = extra)
        ∧ ((readFrames c msgs.length r).1 = .ok msgs → Readable c msgs) := by
  intro msgs payloads hall
  induction hall with
  | nil =>
      intro r extra hp
      exact ⟨fun _ => ⟨rfl, hp⟩, fun _ m hm => nomatch hm⟩
  | @cons m b msgs payloads hmb _ ih =>
      intro r extra hp
      obtain ⟨henc, hlt⟩ := hmb
      rw [List.map_cons, List.flatten_cons, List.append_assoc] at hp
      obtain ⟨hval, hpend⟩ := readFrame_parse c r
      rw [hp, parseFrame_frame c hlt] at hval hpend
      have hdec : decoded c b = .ok m := by rw [decoded, hl m b henc]
      -- the first of them is readable when its payload is not too long
      have hcons : (b.length ≤ maxFrame ∧ Readable c msgs) ↔ Readable c (m :: msgs) := by
        constructor
        · rintro ⟨hb, hrest⟩ m' hm' b' henc'
          rcases List.mem_cons.mp hm' with heq | hmem
          · rw [heq, henc] at henc'
            rw [← Except.ok.inj henc']
            exact hb
          · exact hrest m' hmem b' henc'
        · intro h
          exact ⟨h m (List.mem_cons_self ..) b henc,
            fun m' hm' => h m' (List.mem_cons_of_mem _ hm')⟩
      rw [← hcons, List.length_cons, readFrames]
      cases hr : readFrame c r with
      | mk o r' =>
          rw [hr] at hval hpend
          by_cases hbig : maxFrame < b.length
          · rw [if_pos hbig] at hval
            -- too long: the reader stops here, with the rest unread
            have ho : o = .error (.frameTooLarge b.length) := hval
            rw [ho]
            refine ⟨?_, fun h => nomatch h⟩
            rintro ⟨hb, -⟩
            omega
          · rw [if_neg hbig] at hval hpend
            have ho : o = .ok m := hval.trans hdec
            have hp' : r'.pending = (payloads.map frame).flatten ++ extra := hpend
            rw [ho]
            obtain ⟨ih1, ih2⟩ := ih r' extra hp'
            cases hrest : readFrames c msgs.length r' with
            | mk o' r'' =>
                rw [hrest] at ih1 ih2
                simp only [hrest]
                cases o' with
                | error e =>
                    refine ⟨?_, fun h => nomatch h⟩
                    rintro ⟨-, hall⟩
                    exact nomatch (ih1 hall).1
                | ok ms =>
                    constructor
                    · rintro ⟨-, hall⟩
                      obtain ⟨h1, h2⟩ := ih1 hall
                      rw [Except.ok.inj h1]
                      exact ⟨rfl, h2⟩
                    · intro h
                      refine ⟨by omega, ih2 ?_⟩
                      rw [(List.cons.inj (Except.ok.inj h)).2]

/-- **FRAMES COME BACK**: a message that is refused for its encoding puts no
    byte on the stream, and accepted messages read back exactly when each of
    them encodes to at most 64 MiB. -/
theorem frames_round_trip_iff (hl : c.Lawful) :
    (∀ (w : Sink) (m : T) (e : FrameError), (writeFrame c w m).1 = .error e →
        ((∃ text, e = .encode text) ∨ e = .tooLarge) → (writeFrame c w m).2 = w)
      ∧ ∀ (w w' : Sink) (msgs : List T), writeFrames c w msgs = (.ok (), w') →
        ((∃ stream, w'.written = w.written ++ stream ∧ ReadsBack c msgs stream)
          ↔ Readable c msgs) := by
  constructor
  · intro w m e he hkind
    rcases writeFrame_cases c w m with ⟨text, -, hw⟩ | ⟨b, -, -, hw⟩ | ⟨b, w₁, -, -, hw, -⟩
      | ⟨b, text, w₁, part, -, -, hw, -⟩
    · rw [hw]
    · rw [hw]
    · rw [hw] at he; exact nomatch he
    · rw [hw] at he
      have he' : FrameError.io text = e := Except.error.inj he
      rw [← he'] at hkind
      rcases hkind with ⟨t, ht⟩ | ht
      · exact nomatch ht
      · exact nomatch ht
  · intro w w' msgs hacc
    obtain ⟨payloads, hall, hout⟩ := writeFrames_ok hacc
    constructor
    · rintro ⟨stream, hstream, hback⟩
      have heq : stream = (payloads.map frame).flatten := by
        rw [hstream] at hout
        exact List.append_cancel_left hout
      obtain ⟨-, honly⟩ := readFrames_frames hl hall
        { pending := stream ++ [], cuts := [] } [] (by rw [heq])
      exact honly (hback [] []).1
    · intro hread
      refine ⟨_, hout, ?_⟩
      intro extra cuts
      exact (readFrames_frames hl hall { pending := _, cuts := cuts } extra rfl).1 hread

/-! ### A reply over the limit -/

/-- A message over the reader's limit is sent and not received, even by a
    codec that knows no other message. -/
theorem oversized_is_lost [DecidableEq T] (m : T) (b : Bytes) (hbig : maxFrame < b.length)
    (hlt : b.length < 2 ^ 32) :
    (Codec.ofTable [(m, b)]).Lawful
      ∧ ∃ w',
        writeFrames (Codec.ofTable [(m, b)]) { written := [], script := [] } [m] = (.ok (), w')
        ∧ ¬ ∃ stream, w'.written = stream ∧ ReadsBack (Codec.ofTable [(m, b)]) [m] stream := by
  have hl : (Codec.ofTable [(m, b)]).Lawful := by
    refine Codec.ofTable_lawful ?_
    intro e he e' he' _
    rw [List.mem_singleton.mp he, List.mem_singleton.mp he']
  have henc := Codec.ofTable_head m b []
  refine ⟨hl, ?_⟩
  obtain ⟨w', hw, -, hout⟩ := writeFrame_reliable (Codec.ofTable [(m, b)])
    (w := { written := [], script := [] }) (fun text h => nomatch h) henc hlt
  refine ⟨w', ?_, ?_⟩
  · rw [writeFrames, hw]
    rfl
  · rintro ⟨stream, hstream, hback⟩
    have hall : List.Forall₂ (fun m' b' => (Codec.ofTable [(m, b)]).toStdvec m' = .ok b'
        ∧ b'.length < 2 ^ 32) [m] [b] := List.Forall₂.cons ⟨henc, hlt⟩ List.Forall₂.nil
    have hp : stream ++ [] = ([b].map frame).flatten ++ [] := by
      rw [← hstream, hout, List.map_singleton, List.flatten_singleton]
      rfl
    have hread := (readFrames_frames hl hall { pending := stream ++ [], cuts := [] } [] hp).2
      (hback [] []).1
    have hle := hread m (List.mem_singleton.mpr rfl) b henc
    omega

/-- The reply to a read of 64 MiB, and its encoding. -/
@[irreducible] def largeReply : Response := .read (.ok (List.replicate maxFrame 0))
@[irreducible] def largePayload : Bytes :=
  [3, 0, 0x80, 0x80, 0x80, 0x20] ++ List.replicate maxFrame 0

theorem largePayload_length : largePayload.length = maxFrame + 6 := by
  rw [largePayload, List.length_append, List.length_replicate, Nat.add_comm]
  rfl

/-- The reply to a read of 64 MiB is sent and not received. -/
theorem large_reply_is_lost :
    (Codec.ofTable [(largeReply, largePayload)]).Lawful
      ∧ ∃ w', writeFrames (Codec.ofTable [(largeReply, largePayload)])
          { written := [], script := [] } [largeReply] = (.ok (), w')
        ∧ ¬ ∃ stream, w'.written = stream
          ∧ ReadsBack (Codec.ofTable [(largeReply, largePayload)]) [largeReply] stream :=
  oversized_is_lost largeReply largePayload
    (by rw [largePayload_length]; exact Nat.lt_add_of_pos_right (by decide))
    (by rw [largePayload_length]; decide)

/-- What a server may answer to a greeting and to a file that is not there. -/
def smallReplies : List (Response × Bytes) :=
  [(.hello 1, [0, 1]), (.stat (.error .notFound), [1, 1, 0])]

/-- Three replies below the limit, one of them sent twice, over a transport
    that takes the first bytes one at a time. -/
theorem hello_reads_back :
    (∃ stream, [0, 0, 0, 2, 0, 1, 0, 0, 0, 3, 1, 1, 0, 0, 0, 0, 2, 0, 1] = [] ++ stream
        ∧ ReadsBack (Codec.ofTable smallReplies)
          [.hello 1, .stat (.error .notFound), .hello 1] stream)
      ↔ Readable (Codec.ofTable smallReplies) [.hello 1, .stat (.error .notFound), .hello 1] :=
  (frames_round_trip_iff (c := Codec.ofTable smallReplies) (Codec.ofTable_lawful (by decide))).2
    { written := [], script := [.upTo 0, .upTo 0, .upTo 0] }
    { written := [0, 0, 0, 2, 0, 1, 0, 0, 0, 3, 1, 1, 0, 0, 0, 0, 2, 0, 1], script := [] }
    [.hello 1, .stat (.error .notFound), .hello 1] (by decide)

end TokimoRpc
