import TokimoKvm.QmpClient
import TokimoKvm.SandboxConfig

/-! # Replies and commands stay in step

    Nothing in a QMP reply says which command it is for: the client counts on
    getting one for each command it wrote, in order, whatever events come in
    between and however the lines are cut.  An error is a reply like any
    other.  And whatever the other side sends, no reply is given out twice. -/

namespace TokimoQmp

open TokimoBytes TokimoMachine TokimoPath TokimoSandbox

variable {json : Json}

/-! ## One message -/

/-- What `execute` makes of a message; of an event, nothing. -/
def Value.outcome (msg : Value) : Option (Except QmpError Value) :=
  match msg.get "return" with
  | some r => some (.ok r)
  | none => (msg.get "error").map fun e => .error (.error e)

theorem awaitReply_failed {c c' : QmpClient} {e : QmpError}
    (h : readMessage json c = (.error e, c')) : awaitReply json c = (.error e, c') := by
  rw [awaitReply]
  split
  · next e' c'' heq =>
      rw [h] at heq
      cases heq
      rfl
  · next msg c'' heq =>
      rw [h] at heq
      cases heq

theorem awaitReply_reply {c c' : QmpClient} {msg : Value} {res : Except QmpError Value}
    (h : readMessage json c = (.ok msg, c')) (hres : msg.outcome = some res) :
    awaitReply json c = (res, c') := by
  rw [awaitReply]
  split
  · next e c'' heq =>
      rw [h] at heq
      cases heq
  · next msg' c'' heq =>
      rw [h] at heq
      cases heq
      rw [Value.outcome] at hres
      cases hr : msg.get "return" with
      | some r =>
          rw [hr] at hres
          cases hres
          rfl
      | none =>
          rw [hr] at hres
          obtain ⟨e, he, rfl⟩ := Option.map_eq_some_iff.mp hres
          simp only [he]

theorem awaitReply_event {c c' : QmpClient} {msg : Value}
    (h : readMessage json c = (.ok msg, c')) (hres : msg.outcome = none) :
    awaitReply json c = awaitReply json c' := by
  rw [awaitReply]
  split
  · next e c'' heq =>
      rw [h] at heq
      cases heq
  · next msg' c'' heq =>
      rw [h] at heq
      cases heq
      rw [Value.outcome] at hres
      cases hr : msg.get "return" with
      | some r =>
          rw [hr] at hres
          cases hres
      | none =>
          rw [hr] at hres
          simp only [Option.map_eq_none_iff.mp hres]

/-! ## A peer that keeps the protocol -/

variable (json) in
/-- A line that spells a message. -/
def Spells (line : Bytes) (msg : Value) : Prop :=
  10 ∉ line ∧ isUtf8 (line ++ [10]) = true ∧ json.fromStr (line ++ [10]) = .ok msg

variable (json) in
/-- Lines that spell messages, one after the other. -/
def Says : List Value → Bytes → Prop
  | [], bs => bs = []
  | msg :: msgs, bs => ∃ line rest, Spells json line msg ∧ bs = line ++ 10 :: rest ∧ Says msgs rest

/-- A command, the events until its reply, and the reply. -/
structure Turn where
  cmd : String
  args : Option Value
  events : List Value
  reply : Value
  result : Except QmpError Value
  quiet : ∀ e ∈ events, e.outcome = none
  answers : reply.outcome = some result

def Turn.messages (t : Turn) : List Value := t.events ++ [t.reply]

theorem says_append : ∀ {msgs more : List Value} {bs : Bytes}, Says json (msgs ++ more) bs →
    ∃ bs₁ bs₂, bs = bs₁ ++ bs₂ ∧ Says json msgs bs₁ ∧ Says json more bs₂ := by
  intro msgs more
  induction msgs with
  | nil => exact fun {bs} h => ⟨[], bs, rfl, rfl, h⟩
  | cons msg msgs ih =>
      rintro bs ⟨line, rest, hline, rfl, hrest⟩
      obtain ⟨bs₁, bs₂, rfl, h₁, h₂⟩ := ih hrest
      refine ⟨line ++ 10 :: bs₁, bs₂, ?_, ⟨line, bs₁, hline, rfl, h₁⟩, h₂⟩
      rw [List.append_assoc]
      rfl

/-- The next message is read and nothing past it. -/
theorem readMessage_says {c : QmpClient} {line rest : Bytes} {msg : Value}
    (hline : Spells json line msg) (hcoming : c.reader.coming = line ++ 10 :: rest) :
    ∃ r : BufReader, readMessage json c = (.ok msg, { c with reader := r }) ∧ r.coming = rest := by
  obtain ⟨hfeed, hutf, hjson⟩ := hline
  obtain ⟨hget, hrest⟩ := c.reader.readLine_cut
  rw [hcoming, cutLine_line hfeed] at hget hrest
  refine ⟨c.reader.readLine.2, ?_, hrest⟩
  have hne : line ++ [10] ≠ [] := by simp
  rw [readMessage, hget, if_neg hne, hutf, hjson]
  rfl

/-- Events are passed over up to the reply. -/
theorem awaitReply_says {events : List Value} {reply : Value} {res : Except QmpError Value}
    (hquiet : ∀ e ∈ events, e.outcome = none) (hreply : reply.outcome = some res) :
    ∀ {c : QmpClient} {bs rest : Bytes}, Says json (events ++ [reply]) bs →
      c.reader.coming = bs ++ rest →
      ∃ r : BufReader, awaitReply json c = (res, { c with reader := r }) ∧ r.coming = rest := by
  induction events with
  | nil =>
      rintro c bs rest ⟨line, last, hline, rfl, hlast⟩ hcoming
      have hnil : last = [] := hlast
      rw [hnil, List.append_assoc] at hcoming
      obtain ⟨r, hread, hr⟩ := readMessage_says hline hcoming
      exact ⟨r, awaitReply_reply hread hreply, hr⟩
  | cons e events ih =>
      rintro c bs rest ⟨line, more, hline, rfl, hmore⟩ hcoming
      rw [List.append_assoc] at hcoming
      obtain ⟨r, hread, hr⟩ := readMessage_says hline hcoming
      obtain ⟨r', hawait, hr'⟩ := ih (fun x hx => hquiet x (List.mem_cons_of_mem _ hx))
        (c := { c with reader := r }) hmore hr
      rw [awaitReply_event hread (hquiet e (List.mem_cons_self ..))]
      exact ⟨r', hawait, hr'⟩

/-- Writing to a transport that refuses nothing. -/
theorem execute_writes {c : QmpClient} (hw : c.writer.Reliable) (cmd : String)
    (args : Option Value) : ∃ w : Sink, w.Reliable
      ∧ w.written = c.writer.written ++ requestLine json cmd args
      ∧ execute json cmd args c = awaitReply json { c with writer := w } := by
  obtain ⟨hok, hrel⟩ := Sink.writeAll_reliable hw (requestLine json cmd args)
  obtain ⟨hflush, hrel'⟩ := Sink.flush_reliable hrel
  refine ⟨_, hrel', ?_, ?_⟩
  · rw [Sink.flush_written, Sink.writeAll_ok hok]
  · have hfirst : io (fun w => w.writeAll (requestLine json cmd args)) c = (.ok (),
        { c with writer := (c.writer.writeAll (requestLine json cmd args)).2 }) := by
      rw [io, show c.writer.writeAll (requestLine json cmd args) = (.ok (), _) from
        Prod.ext hok rfl]
    have hsecond : io Sink.flush
        { c with writer := (c.writer.writeAll (requestLine json cmd args)).2 } = (.ok (),
        { c with writer := (c.writer.writeAll (requestLine json cmd args)).2.flush.2 }) := by
      rw [io, show (c.writer.writeAll (requestLine json cmd args)).2.flush = (.ok (), _) from
        Prod.ext hflush rfl]
    exact (Eff.bind_of_ok hfirst).trans (Eff.bind_of_ok hsecond)

/-- One command with its reply. -/
theorem execute_says (t : Turn) {c : QmpClient} {bs rest : Bytes} (hw : c.writer.Reliable)
    (hsaid : Says json t.messages bs) (hcoming : c.reader.coming = bs ++ rest) :
    ∃ c' : QmpClient, execute json t.cmd t.args c = (t.result, c') ∧ c'.reader.coming = rest
      ∧ c'.writer.Reliable
      ∧ c'.writer.written = c.writer.written ++ requestLine json t.cmd t.args := by
  obtain ⟨w, hw', hwritten, hexec⟩ := @execute_writes json _ hw t.cmd t.args
  obtain ⟨r, hawait, hr⟩ := awaitReply_says t.quiet t.answers (c := { c with writer := w })
    hsaid hcoming
  exact ⟨_, hexec.trans hawait, hr, hw', hwritten⟩

/-! ## Sessions -/

variable (json) in
/-- Commands one after the other, whatever becomes of them. -/
def session : List (String × Option Value) → QmpClient → List (Except QmpError Value) × QmpClient
  | [], c => ([], c)
  | (cmd, args) :: cmds, c =>
      ((execute json cmd args c).1 :: (session cmds (execute json cmd args c).2).1,
        (session cmds (execute json cmd args c).2).2)

variable (json) in
/-- What the commands of some turns write. -/
def wires (turns : List Turn) : Bytes := turns.flatMap fun t => requestLine json t.cmd t.args

theorem session_says : ∀ {turns : List Turn} {c : QmpClient} {bs rest : Bytes},
    c.writer.Reliable → Says json (turns.flatMap Turn.messages) bs →
    c.reader.coming = bs ++ rest →
    ∃ c', session json (turns.map fun t => (t.cmd, t.args)) c = (turns.map Turn.result, c')
      ∧ c'.reader.coming = rest ∧ c'.writer.Reliable
      ∧ c'.writer.written = c.writer.written ++ wires json turns := by
  intro turns
  induction turns with
  | nil =>
      intro c bs rest hw hsaid hcoming
      have hnil : bs = [] := hsaid
      rw [hnil] at hcoming
      exact ⟨c, rfl, hcoming, hw, (List.append_nil _).symm⟩
  | cons t turns ih =>
      intro c bs rest hw hsaid hcoming
      obtain ⟨bs₁, bs₂, rfl, h₁, h₂⟩ := says_append hsaid
      rw [List.append_assoc] at hcoming
      obtain ⟨c₁, hexec, hrest, hw₁, hwritten₁⟩ := execute_says t hw h₁ hcoming
      obtain ⟨c₂, hsession, hend, hw₂, hwritten₂⟩ := ih hw₁ h₂ hrest
      refine ⟨c₂, ?_, hend, hw₂, ?_⟩
      · rw [List.map_cons, session, hexec, hsession]
        rfl
      · rw [hwritten₂, hwritten₁, List.append_assoc]
        rfl

/-- Whatever becomes of its command, `quit` succeeds. -/
theorem quit_state (c : QmpClient) : quit json c = (.ok (), (execute json "quit" none c).2) := by
  have hstate := Eff.bind_pure_state (execute json "quit" none) (fun _ => ()) c
  rw [quit, Eff.recover]
  cases hx : (execute json "quit" none >>= fun _ => (pure () : QmpM Unit)) c with
  | mk r c' =>
      rw [hx] at hstate
      cases r with
      | ok u => rw [← hstate]
      | error e => rw [← hstate]

theorem awaitReply_writer (c : QmpClient) : (awaitReply json c).2.writer = c.writer := by
  induction c using awaitReply.induct json with
  | case1 c e c' h => rw [awaitReply_failed h, readMessage_reader json h]
  | case2 c msg c' h r hr =>
      rw [awaitReply_reply h (by rw [Value.outcome, hr]), readMessage_reader json h]
  | case3 c msg c' h hr e he =>
      rw [awaitReply_reply h (by rw [Value.outcome, hr, he]; rfl), readMessage_reader json h]
  | case4 c msg c' h hr he ih =>
      rw [awaitReply_event h (by rw [Value.outcome, hr, he]; rfl), ih, readMessage_reader json h]

/-- **IN STEP**: after a greeting and an accepted `qmp_capabilities`, every
    command gets the reply that was made to it, an error as an error, with any
    events in between and any cuts, and no byte past the last reply is used.
    `quit` then writes its line and succeeds, also when QEMU is gone before it
    replies. -/
theorem replies_in_step {greeting : Value} {caps : Turn} {turns : List Turn} {c : QmpClient}
    {bs rest : Bytes} {v : Value} (hcmd : caps.cmd = "qmp_capabilities") (hargs : caps.args = none)
    (hok : caps.result = .ok v) (hw : c.writer.Reliable)
    (hsaid : Says json (greeting :: caps.messages ++ turns.flatMap Turn.messages) bs)
    (hcoming : c.reader.coming = bs ++ rest) :
    ∃ c' c'', connect json c = (.ok (), c')
      ∧ session json (turns.map fun t => (t.cmd, t.args)) c' = (turns.map Turn.result, c'')
      ∧ c''.reader.coming = rest
      ∧ c''.writer.written = c.writer.written ++ wires json (caps :: turns)
      ∧ (quit json c'').1 = .ok ()
      ∧ (quit json c'').2.writer.written
        = c''.writer.written ++ requestLine json "quit" none := by
  obtain ⟨line, more, hline, rfl, hmore⟩ := hsaid
  obtain ⟨bs₁, bs₂, rfl, h₁, h₂⟩ := says_append hmore
  rw [List.append_assoc, List.cons_append, List.append_assoc] at hcoming
  obtain ⟨r, hread, hr⟩ := readMessage_says hline hcoming
  obtain ⟨c', hexec, hrest, hw', hwritten'⟩ :=
    execute_says caps (c := { c with reader := r }) hw h₁ hr
  rw [hcmd, hargs, hok] at hexec
  obtain ⟨c'', hsession, hend, hw'', hwritten''⟩ := session_says hw' h₂ hrest
  obtain ⟨w, -, hwrote, hquit⟩ := @execute_writes json _ hw'' "quit" none
  refine ⟨c', c'', ?_, hsession, hend, ?_, ?_, ?_⟩
  · rw [connect, Eff.bind_of_ok hread, Eff.bind_of_ok hexec]
    rfl
  · rw [hwritten'', hwritten', List.append_assoc]
    rfl
  · rw [quit_state]
  · rw [quit_state, hquit, awaitReply_writer]
    exact hwrote

/-- Some lines of a monitor with what they spell. -/
def monitorLines : List (String × Value) :=
  [("\x7b\"QMP\":\x7b\x7d\x7d", .object [("QMP", .object [])]),
    ("\x7b\"return\":\x7b\x7d\x7d", .object [("return", .object [])]),
    ("\x7b\"event\":\"STOP\"\x7d", .object [("event", .string "STOP")]),
    ("\x7b\"error\":\x7b\"class\":\"CommandNotFound\"\x7d\x7d",
      .object [("error", .object [("class", .string "CommandNotFound")])])]

def monitorText (i : Nat) : Bytes := utf8 (monitorLines.getD i ("", .null)).1

def monitorValue (i : Nat) : Value := (monitorLines.getD i ("", .null)).2

/-- `serde_json` on these lines, and on commands without arguments. -/
def monitorJson : Json where
  display v :=
    match v.get "execute" with
    | some (.string cmd) => utf8 ("\x7b\"execute\":\"" ++ cmd ++ "\"\x7d")
    | _ => utf8 "null"
  fromStr bs :=
    match monitorLines.find? fun e => decide (utf8 e.1 ++ [10] = bs) with
    | some e => .ok e.2
    | none => .error "expected value"

theorem monitor_spells (i : Nat) (h : i < monitorLines.length) :
    Spells monitorJson (monitorText i) (monitorValue i) := by
  have hi : i = 0 ∨ i = 1 ∨ i = 2 ∨ i = 3 := by
    have : monitorLines.length = 4 := rfl
    omega
  rcases hi with rfl | rfl | rfl | rfl
  · exact ⟨by decide +kernel, by decide +kernel, rfl⟩
  · exact ⟨by decide +kernel, by decide +kernel, rfl⟩
  · exact ⟨by decide +kernel, by decide +kernel, rfl⟩
  · exact ⟨by decide +kernel, by decide +kernel, rfl⟩

/-- A command that is accepted after `events`. -/
def acceptedTurn (cmd : String) : Turn where
  cmd := cmd
  args := none
  events := []
  reply := monitorValue 1
  result := .ok (.object [])
  quiet := by intro e he; cases he
  answers := rfl

/-- A command whose event comes before its refusal. -/
def refusedTurn (cmd : String) : Turn where
  cmd := cmd
  args := none
  events := [monitorValue 2]
  reply := monitorValue 3
  result := .error (.error (.object [("class", .string "CommandNotFound")]))
  quiet := by
    intro e he
    rw [List.mem_singleton.mp he]
    rfl
  answers := rfl

/-- A connection that hands over the greeting and the replies, and half a line
    past them, in small cuts. -/
def monitorClient : QmpClient where
  reader :=
    { buffer := []
      source := { pending := [0, 1, 1, 2, 3].flatMap (fun i => monitorText i ++ [10]) ++ [123]
                  cuts := [3, 0, 20, 7] } }
  writer := { written := [], script := [.upTo 4] }

/-- `stop` is accepted, `cont` refused, and the connection is at an end. -/
theorem stop_cont_in_step : ∃ c' c'', connect monitorJson monitorClient = (.ok (), c')
    ∧ session monitorJson [("stop", none), ("cont", none)] c'
      = ([.ok (.object []), .error (.error (.object [("class", .string "CommandNotFound")]))], c'')
    ∧ c''.reader.coming = [123]
    ∧ c''.writer.written
      = utf8 "\x7b\"execute\":\"qmp_capabilities\"\x7d\n"
        ++ (utf8 "\x7b\"execute\":\"stop\"\x7d\n" ++ utf8 "\x7b\"execute\":\"cont\"\x7d\n")
    ∧ (quit monitorJson c'').1 = .ok () := by
  have hw : monitorClient.writer.Reliable := by
    intro text hmem
    rcases List.mem_singleton.mp hmem
  have hsaid : Says monitorJson
      (monitorValue 0 :: (acceptedTurn "qmp_capabilities").messages
        ++ [acceptedTurn "stop", refusedTurn "cont"].flatMap Turn.messages)
      ([0, 1, 1, 2, 3].flatMap fun i => monitorText i ++ [10]) :=
    ⟨_, _, monitor_spells 0 (by decide), rfl, _, _, monitor_spells 1 (by decide), rfl,
      _, _, monitor_spells 1 (by decide), rfl, _, _, monitor_spells 2 (by decide), rfl,
      _, _, monitor_spells 3 (by decide), rfl, rfl⟩
  obtain ⟨c', c'', hconnect, hsession, hend, hwritten, hquit, -⟩ :=
    @replies_in_step monitorJson _ (acceptedTurn "qmp_capabilities")
      [acceptedTurn "stop", refusedTurn "cont"] _ _ _ _ rfl rfl rfl hw hsaid rfl
  exact ⟨c', c'', hconnect, hsession, hend, hwritten.trans (by decide +kernel), hquit⟩

/-! ## Whatever the other side sends -/

variable (json) in
/-- What a line answers, if it is a reply. -/
def lineOutcome (line : Bytes) : Option (Except QmpError Value) :=
  if isUtf8 line then (json.fromStr line).toOption.bind Value.outcome else none

variable (json) in
/-- The replies in a stream, in order. -/
def repliesIn (bs : Bytes) : List (Except QmpError Value) := (lines bs).filterMap (lineOutcome json)

/-- A result that came from the other side: a `return`, or an `error`. -/
def fromPeer : Except QmpError Value → Bool
  | .ok _ => true
  | .error (.error _) => true
  | .error _ => false

/-- A read that fails has no reply to give. -/
theorem readMessage_noReply {c c' : QmpClient} {e : QmpError}
    (h : readMessage json c = (.error e, c')) : fromPeer (.error e) = false := by
  rw [readMessage] at h
  by_cases hnil : c.reader.readLine.1 = []
  · rw [if_pos hnil] at h
    cases (Prod.mk.inj h).1
    rfl
  · rw [if_neg hnil] at h
    by_cases hutf : (!isUtf8 c.reader.readLine.1) = true
    · rw [if_pos hutf] at h
      cases (Prod.mk.inj h).1
      rfl
    · rw [if_neg hutf] at h
      cases hj : json.fromStr c.reader.readLine.1 with
      | ok msg =>
          rw [hj] at h
          cases (Prod.mk.inj h).1
      | error text =>
          rw [hj] at h
          cases (Prod.mk.inj h).1
          rfl

theorem repliesIn_read {c c' : QmpClient} {msg : Value} (h : readMessage json c = (.ok msg, c')) :
    repliesIn json c.reader.coming = msg.outcome.toList ++ repliesIn json c'.reader.coming := by
  obtain ⟨hline, hutf, hjson, rfl⟩ := readMessage_ok json h
  obtain ⟨hget, hrest⟩ := c.reader.readLine_cut
  rw [hget] at hline hutf hjson
  have hout : lineOutcome json (cutLine c.reader.coming).1 = msg.outcome := by
    rw [lineOutcome, if_pos hutf, hjson]
    rfl
  rw [repliesIn, lines_cons hline, ← hrest]
  cases ho : msg.outcome with
  | none => exact List.filterMap_cons_none (hout.trans ho)
  | some res => exact List.filterMap_cons_some (hout.trans ho)

/-- A failed read uses up its own line at most. -/
theorem repliesIn_failed {c c' : QmpClient} {e : QmpError}
    (h : readMessage json c = (.error e, c')) :
    (repliesIn json c'.reader.coming).Sublist (repliesIn json c.reader.coming) := by
  obtain ⟨hget, hrest⟩ := c.reader.readLine_cut
  obtain ⟨hparts, hempty⟩ := cutLine_parts c.reader.coming
  rw [readMessage_reader json h]
  show (repliesIn json c.reader.readLine.2.coming).Sublist _
  rw [hrest]
  by_cases hline : (cutLine c.reader.coming).1 = []
  · rw [hline, List.nil_append] at hparts
    rw [hparts]
  · rw [repliesIn, repliesIn, lines_cons hline]
    exact (List.sublist_cons_self _ _).filterMap _

/-- Waiting for a reply uses up the replies in their order. -/
theorem awaitReply_uses (c : QmpClient) :
    ([(awaitReply json c).1].filter fromPeer
      ++ repliesIn json (awaitReply json c).2.reader.coming).Sublist
      (repliesIn json c.reader.coming) := by
  induction c using awaitReply.induct json with
  | case1 c e c' h =>
      rw [awaitReply_failed h]
      rw [List.filter_cons_of_neg (by rw [readMessage_noReply h]; exact Bool.false_ne_true)]
      exact repliesIn_failed h
  | case2 c msg c' h r hr =>
      have ho : msg.outcome = some (.ok r) := by rw [Value.outcome, hr]
      rw [awaitReply_reply h ho, repliesIn_read h, ho]
      exact List.Sublist.refl _
  | case3 c msg c' h hr e he =>
      have ho : msg.outcome = some (.error (.error e)) := by rw [Value.outcome, hr, he]; rfl
      rw [awaitReply_reply h ho, repliesIn_read h, ho]
      exact List.Sublist.refl _
  | case4 c msg c' h hr he ih =>
      have ho : msg.outcome = none := by rw [Value.outcome, hr, he]; rfl
      rw [awaitReply_event h ho, repliesIn_read h, ho]
      exact ih

/-- Writing a command leaves what is coming alone. -/
theorem execute_uses (cmd : String) (args : Option Value) (c : QmpClient) :
    ([(execute json cmd args c).1].filter fromPeer
      ++ repliesIn json (execute json cmd args c).2.reader.coming).Sublist
      (repliesIn json c.reader.coming) := by
  obtain ⟨w, ⟨u, h₁⟩ | ⟨text, h₁⟩⟩ := io_cases (fun w => w.writeAll (requestLine json cmd args)) c
  · obtain ⟨w', ⟨u', h₂⟩ | ⟨text, h₂⟩⟩ := io_cases Sink.flush { c with writer := w }
    · have hexec : execute json cmd args c = awaitReply json { c with writer := w' } :=
        (Eff.bind_of_ok h₁).trans (Eff.bind_of_ok h₂)
      rw [hexec]
      exact awaitReply_uses { c with writer := w' }
    · have hexec : execute json cmd args c = (.error (.io text), { c with writer := w' }) :=
        (Eff.bind_of_ok h₁).trans (Eff.bind_of_error h₂)
      rw [hexec]
      exact List.Sublist.refl _
  · have hexec : execute json cmd args c = (.error (.io text), { c with writer := w }) :=
      Eff.bind_of_error h₁
    rw [hexec]
    exact List.Sublist.refl _

/-- **NO REPLY TWICE**: whatever the other side sends, also when writes fail
    and lines are broken, the replies that commands get are replies of the
    stream, each used for one command, in the order in which they came. -/
theorem no_reply_twice (cmds : List (String × Option Value)) (c : QmpClient) :
    ((session json cmds c).1.filter fromPeer).Sublist (repliesIn json c.reader.coming) := by
  have hrun : ∀ (cmds : List (String × Option Value)) (c : QmpClient),
      ((session json cmds c).1.filter fromPeer
        ++ repliesIn json (session json cmds c).2.reader.coming).Sublist
        (repliesIn json c.reader.coming) := by
    intro cmds
    induction cmds with
    | nil => exact fun c => List.Sublist.refl _
    | cons cmd cmds ih =>
        intro c
        obtain ⟨cmd, args⟩ := cmd
        have hrest := ih (execute json cmd args c).2
        rw [session, ← List.singleton_append, List.filter_append, List.append_assoc]
        exact (hrest.append_left _).trans (execute_uses cmd args c)
  exact (List.sublist_append_left _ _).trans (hrun cmds c)

end TokimoQmp
