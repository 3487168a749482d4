import TokimoKvm.LineReaderProofs
import TokimoKvm.MachineProofs
import TokimoKvm.OsPathProofs
import TokimoKvm.TableProofs

/-! # The QMP client — `qmp.rs`

    QEMU's monitor speaks lines of JSON: a greeting, then one reply to each
    command, and events in between.  The client writes a command and reads
    messages until one has a `return` or an `error`. -/

namespace TokimoQmp

open TokimoBytes TokimoMachine TokimoPath TokimoTable

/-- `serde_json::Value`; a number is known by its text. -/
inductive Value where
  | null
  | bool (b : Bool)
  | number (text : String)
  | string (s : String)
  | array (items : List Value)
  | object (fields : List (String × Value))

/-- `Value::get` with a key. -/
def Value.get (v : Value) (key : String) : Option Value :=
  match v with
  | .object fields => Table.get fields key
  | _ => none

/-- `serde_json`'s two directions: a value's text, and what a text spells. -/
structure Json where
  display : Value → Bytes
  fromStr : Bytes → Except String Value

/-- `QmpError`: the stream failed, it ended, a line was no JSON, or QEMU said
    no. -/
inductive QmpError where
  | io (text : String)
  | closed
  | json (text : String)
  | error (e : Value)

/-- The connection to the monitor, a buffered reader and a writer. -/
structure QmpClient where
  reader : BufReader
  writer : Sink

/-- What the client's methods do, in the order of their awaits. -/
abbrev QmpM (α : Type) := Eff QmpClient QmpError α

variable (json : Json)

/-- `read_message`: one line, which must be UTF-8 and JSON. -/
def readMessage : QmpM Value := fun c =>
  let c' := { c with reader := c.reader.readLine.2 }
  if c.reader.readLine.1 = [] then (.error .closed, c')
  else if !isUtf8 c.reader.readLine.1 then
    (.error (.io "stream did not contain valid UTF-8"), c')
  else
    match json.fromStr c.reader.readLine.1 with
    | .ok msg => (.ok msg, c')
    | .error text => (.error (.json text), c')

/-- Whatever comes of it, the line has been taken from the reader. -/
theorem readMessage_state (c : QmpClient) :
    (readMessage json c).2 = { c with reader := c.reader.readLine.2 } := by
  rw [readMessage]
  by_cases hnil : c.reader.readLine.1 = []
  · rw [if_pos hnil]
  · rw [if_neg hnil]
    by_cases hutf : (!isUtf8 c.reader.readLine.1) = true
    · rw [if_pos hutf]
    · rw [if_neg hutf]
      cases json.fromStr c.reader.readLine.1 with
      | ok msg => rfl
      | error text => rfl

/-- The same, of a result that is known. -/
theorem readMessage_reader {c c' : QmpClient} {res : Except QmpError Value}
    (h : readMessage json c = (res, c')) : c' = { c with reader := c.reader.readLine.2 } := by
  rw [← readMessage_state json c, h]

/-- A message that is read was a line that spells it. -/
theorem readMessage_ok {c c' : QmpClient} {msg : Value} (h : readMessage json c = (.ok msg, c')) :
    c.reader.readLine.1 ≠ [] ∧ isUtf8 c.reader.readLine.1 = true
      ∧ json.fromStr c.reader.readLine.1 = .ok msg
      ∧ c' = { c with reader := c.reader.readLine.2 } := by
  have hstate := readMessage_reader json h
  rw [readMessage] at h
  by_cases hnil : c.reader.readLine.1 = []
  · rw [if_pos hnil] at h
    cases (Prod.mk.inj h).1
  · rw [if_neg hnil] at h
    by_cases hutf : (!isUtf8 c.reader.readLine.1) = true
    · rw [if_pos hutf] at h
      cases (Prod.mk.inj h).1
    · rw [if_neg hutf] at h
      cases hj : json.fromStr c.reader.readLine.1 with
      | ok msg' =>
          rw [hj] at h
          cases (Prod.mk.inj h).1
          exact ⟨hnil, by simpa using hutf, rfl, hstate⟩
      | error text =>
          rw [hj] at h
          cases (Prod.mk.inj h).1

/-- The loop of `execute`: whatever has neither a `return` nor an `error` is
    passed over. -/
def awaitReply (c : QmpClient) : Except QmpError Value × QmpClient :=
  match _h : readMessage json c with
  | (.error e, c') => (.error e, c')
  | (.ok msg, c') =>
      match msg.get "return" with
      | some r => (.ok r, c')
      | none =>
          match msg.get "error" with
          | some e => (.error (.error e), c')
          | none => awaitReply c'
termination_by c.reader.coming.length
decreasing_by
  obtain ⟨hline, -, -, rfl⟩ := readMessage_ok json _h
  exact BufReader.readLine_shorter hline

/-- The command `execute` sends, with its arguments if it has any. -/
def request (cmd : String) (args : Option Value) : Value :=
  match args with
  | none => .object [("execute", .string cmd)]
  | some a => .object (Table.insert [("execute", .string cmd)] "arguments" a)

/-- The line `execute` writes. -/
def requestLine (cmd : String) (args : Option Value) : Bytes :=
  json.display (request cmd args) ++ [10]

/-- What the writer does, as the client sees it. -/
def io {α : Type} (x : Sink → Except String α × Sink) : QmpM α := fun c =>
  match x c.writer with
  | (.ok a, w) => (.ok a, { c with writer := w })
  | (.error text, w) => (.error (.io text), { c with writer := w })

/-- Writing leaves the reader alone, and fails with an error of the
    transport. -/
theorem io_cases {α : Type} (x : Sink → Except String α × Sink) (c : QmpClient) :
    ∃ w : Sink, (∃ a, io x c = (.ok a, { c with writer := w }))
      ∨ (∃ text, io x c = (.error (.io text), { c with writer := w })) := by
  cases hx : x c.writer with
  | mk r w =>
      cases r with
      | ok a => exact ⟨w, Or.inl ⟨a, by rw [io, hx]⟩⟩
      | error text => exact ⟨w, Or.inr ⟨text, by rw [io, hx]⟩⟩

/-- `execute`: write the command, then wait for its reply. -/
def execute (cmd : String) (args : Option Value) : QmpM Value := do
  io fun w => w.writeAll (requestLine json cmd args)
  io Sink.flush
  awaitReply json

/-- `connect`, once the socket is there. -/
def connect : QmpM Unit := do
  let _ ← readMessage json
  let _ ← execute json "qmp_capabilities" none
  return ()

/-- `powerdown`, which passes on what became of the command. -/
def powerdown : QmpM Unit := do
  let _ ← execute json "system_powerdown" none
  return ()

/-- `quit`: QEMU may close the stream before it replies, so a failure is none. -/
def quit : QmpM Unit :=
  Eff.recover () do
    let _ ← execute json "quit" none
    return ()

end TokimoQmp
