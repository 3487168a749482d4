import TokimoKvm.VfsCore

/-! # The wire protocol — `tokimo-packages-vm-rpc`

    Requests and responses mirror the methods of `TokimoVfs`; the server's
    `handle` and the client's methods are the two dispatches between them,
    written separately.  `answer_handle` says that they match. -/

namespace TokimoRpc

open TokimoMachine TokimoBytes TokimoPath TokimoVfsCore

/-- The version both ends must have. -/
def PROTOCOL_VERSION : UInt32 := 1

/-- What a client asks for: a greeting, or one of the ten methods. -/
inductive Request where
  | hello (protocolVersion : UInt32)
  | stat (path : PathBuf)
  | list (path : PathBuf)
  | read (path : PathBuf) (offset : UInt64) (len : UInt32)
  | write (path : PathBuf) (offset : UInt64) (data : Bytes)
  | create (path : PathBuf) (mode : UInt32)
  | mkdir (path : PathBuf) (mode : UInt32)
  | remove (path : PathBuf)
  | rmdir (path : PathBuf)
  | rename (src dst : PathBuf)
  | truncate (path : PathBuf) (size : UInt64)
  deriving DecidableEq, Repr

/-- What a server answers, one kind for each kind of request. -/
inductive Response where
  | hello (protocolVersion : UInt32)
  | stat (r : VfsResult FileAttr)
  | list (r : VfsResult (List DirEntry))
  | read (r : VfsResult Bytes)
  | write (r : VfsResult UInt32)
  | create (r : VfsResult FileAttr)
  | mkdir (r : VfsResult FileAttr)
  | remove (r : VfsResult Unit)
  | rmdir (r : VfsResult Unit)
  | rename (r : VfsResult Unit)
  | truncate (r : VfsResult Unit)
  deriving DecidableEq

/-! ## The server's dispatch -/

/-- A request is the method of the file system that it names. -/
def handle {σ : Type} (vfs : TokimoVfs σ) (req : Request) (s : σ) : Response × σ :=
  match req with
  | .hello _ => (.hello PROTOCOL_VERSION, s)
  | .stat path => (vfs.stat path s).map .stat id
  | .list path => (vfs.list path s).map .list id
  | .read path offset len => (vfs.read path offset len s).map .read id
  | .write path offset data => (vfs.write path offset data s).map .write id
  | .create path mode => (vfs.create path mode s).map .create id
  | .mkdir path mode => (vfs.mkdir path mode s).map .mkdir id
  | .remove path => (vfs.remove path s).map .remove id
  | .rmdir path => (vfs.rmdir path s).map .rmdir id
  | .rename src dst => (vfs.rename src dst s).map .rename id
  | .truncate path size => (vfs.truncate path size s).map .truncate id

/-! ## Frames -/

/-- How sending or receiving a frame fails. -/
inductive FrameError where
  | encode (text : String)
  | tooLarge
  | io (text : String)
  | frameTooLarge (len : Nat)
  | decode (text : String)
  deriving DecidableEq, Repr

/-- The text of the error, which a method passes on. -/
def FrameError.text : FrameError → String
  | .encode text => text
  | .tooLarge => "frame too large"
  | .io text => text
  | .frameTooLarge len => "frame too large: " ++ toString len
  | .decode text => text

/-- What `read_exact` says at end of file. -/
def earlyEof : FrameError := .io "early eof"

/-! ## The client's dispatch -/

namespace Client

/-- A failed call is an `Io` with the error's text. -/
def ioErr (e : FrameError) : VfsError := .io e.text

/-- A method of the client: the request it sends, and what it makes of the
    outcome of the call. -/
structure Method (α : Type) where
  request : Request
  answer : Except FrameError Response → VfsResult α

/-- The shape of the ten methods: errors of the call become `Io`, and so does
    a response of another kind. -/
def method {α : Type} (req : Request) (pick : Response → Option (VfsResult α)) :
    Method α where
  request := req
  answer := fun out =>
    match out with
    | .error e => .error (ioErr e)
    | .ok resp =>
        match pick resp with
        | some r => r
        | none => .error (.io "bad resp")

def stat (path : PathBuf) : Method FileAttr :=
  method (.stat path) fun
    | .stat r => some r
    | _ => none

def list (path : PathBuf) : Method (List DirEntry) :=
  method (.list path) fun
    | .list r => some r
    | _ => none

def read (path : PathBuf) (offset : UInt64) (len : UInt32) : Method Bytes :=
  method (.read path offset len) fun
    | .read r => some r
    | _ => none

def write (path : PathBuf) (offset : UInt64) (data : Bytes) : Method UInt32 :=
  method (.write path offset data) fun
    | .write r => some r
    | _ => none

def create (path : PathBuf) (mode : UInt32) : Method FileAttr :=
  method (.create path mode) fun
    | .create r => some r
    | _ => none

def mkdir (path : PathBuf) (mode : UInt32) : Method FileAttr :=
  method (.mkdir path mode) fun
    | .mkdir r => some r
    | _ => none

def remove (path : PathBuf) : Method Unit :=
  method (.remove path) fun
    | .remove r => some r
    | _ => none

def rmdir (path : PathBuf) : Method Unit :=
  method (.rmdir path) fun
    | .rmdir r => some r
    | _ => none

def rename (src dst : PathBuf) : Method Unit :=
  method (.rename src dst) fun
    | .rename r => some r
    | _ => none

def truncate (path : PathBuf) (size : UInt64) : Method Unit :=
  method (.truncate path size) fun
    | .truncate r => some r
    | _ => none

/-- The request a client method sends for a call. -/
def request : VfsCall → Request
  | .stat p => (stat p).request
  | .list p => (list p).request
  | .read p off len => (read p off len).request
  | .write p off data => (write p off data).request
  | .create p mode => (create p mode).request
  | .mkdir p mode => (mkdir p mode).request
  | .remove p => (remove p).request
  | .rmdir p => (rmdir p).request
  | .rename p q => (rename p q).request
  | .truncate p size => (truncate p size).request

/-- What the client method returns for a call. -/
def answer (call : VfsCall) (out : Except FrameError Response) : Reply :=
  match call with
  | .stat p => .attr ((stat p).answer out)
  | .list p => .entries ((list p).answer out)
  | .read p off len => .bytes ((read p off len).answer out)
  | .write p off data => .count ((write p off data).answer out)
  | .create p mode => .attr ((create p mode).answer out)
  | .mkdir p mode => .attr ((mkdir p mode).answer out)
  | .remove p => .unit ((remove p).answer out)
  | .rmdir p => .unit ((rmdir p).answer out)
  | .rename p q => .unit ((rename p q).answer out)
  | .truncate p size => .unit ((truncate p size).answer out)

end Client

/-- **THE TWO DISPATCHES MATCH**: handling the request a client method sends
    makes the call, and the method returns what the call returned. -/
theorem answer_handle {σ : Type} (vfs : TokimoVfs σ) (call : VfsCall) (s : σ) :
    Client.answer call (.ok (handle vfs (Client.request call) s).1)
        = (vfs.invoke s call).1
      ∧ (handle vfs (Client.request call) s).2 = (vfs.invoke s call).2 := by
  cases call with
  | stat p => exact ⟨rfl, rfl⟩
  | list p => exact ⟨rfl, rfl⟩
  | read p off len => exact ⟨rfl, rfl⟩
  | write p off data => exact ⟨rfl, rfl⟩
  | create p mode => exact ⟨rfl, rfl⟩
  | mkdir p mode => exact ⟨rfl, rfl⟩
  | remove p => exact ⟨rfl, rfl⟩
  | rmdir p => exact ⟨rfl, rfl⟩
  | rename p q => exact ⟨rfl, rfl⟩
  | truncate p size => exact ⟨rfl, rfl⟩

/-- The call a request asks for; a greeting asks for none. -/
def Request.call : Request → Option VfsCall
  | .hello _ => none
  | .stat p => some (.stat p)
  | .list p => some (.list p)
  | .read p off len => some (.read p off len)
  | .write p off data => some (.write p off data)
  | .create p mode => some (.create p mode)
  | .mkdir p mode => some (.mkdir p mode)
  | .remove p => some (.remove p)
  | .rmdir p => some (.rmdir p)
  | .rename p q => some (.rename p q)
  | .truncate p size => some (.truncate p size)

/-- Every request but a greeting is what a client method sends. -/
theorem request_of_call {req : Request} {call : VfsCall} (h : req.call = some call) :
    req = Client.request call := by
  cases req with
  | hello v => exact nomatch h
  | stat p => rw [← Option.some.inj h]; rfl
  | list p => rw [← Option.some.inj h]; rfl
  | read p off len => rw [← Option.some.inj h]; rfl
  | write p off data => rw [← Option.some.inj h]; rfl
  | create p mode => rw [← Option.some.inj h]; rfl
  | mkdir p mode => rw [← Option.some.inj h]; rfl
  | remove p => rw [← Option.some.inj h]; rfl
  | rmdir p => rw [← Option.some.inj h]; rfl
  | rename p q => rw [← Option.some.inj h]; rfl
  | truncate p size => rw [← Option.some.inj h]; rfl

/-- What a client method sends is read back as its call. -/
@[simp] theorem call_of_request (call : VfsCall) :
    (Client.request call).call = some call := by
  cases call with
  | stat p => rfl
  | list p => rfl
  | read p off len => rfl
  | write p off data => rfl
  | create p mode => rfl
  | mkdir p mode => rfl
  | remove p => rfl
  | rmdir p => rfl
  | rename p q => rfl
  | truncate p size => rfl

/-- A greeting leaves the file system alone. -/
theorem handle_of_no_call {σ : Type} (vfs : TokimoVfs σ) {req : Request}
    (h : req.call = none) (s : σ) : (handle vfs req s).2 = s := by
  cases req with
  | hello v => rfl
  | stat p => exact nomatch h
  | list p => exact nomatch h
  | read p off len => exact nomatch h
  | write p off data => exact nomatch h
  | create p mode => exact nomatch h
  | mkdir p mode => exact nomatch h
  | remove p => exact nomatch h
  | rmdir p => exact nomatch h
  | rename p q => exact nomatch h
  | truncate p size => exact nomatch h

/-- Watching a file system changes no response. -/
theorem handle_logged {σ : Type} (vfs : TokimoVfs σ) (req : Request) (s : σ)
    (log : List VfsCall) :
    handle vfs.logged req (s, log)
      = ((handle vfs req s).1, ((handle vfs req s).2, log ++ req.call.toList)) := by
  cases req with
  | hello v =>
      show (Response.hello PROTOCOL_VERSION, (s, log)) = (_, (s, log ++ []))
      rw [List.append_nil]
      rfl
  | stat p => rfl
  | list p => rfl
  | read p off len => rfl
  | write p off data => rfl
  | create p mode => rfl
  | mkdir p mode => rfl
  | remove p => rfl
  | rmdir p => rfl
  | rename p q => rfl
  | truncate p size => rfl

/-- Recording the calls changes no response, and what is recorded is the call
    of the request with what the file system returns. -/
theorem handle_recorded {σ : Type} (vfs : TokimoVfs σ) (req : Request)
    (s : σ × List (VfsCall × Reply)) :
    handle vfs.recorded req s
      = ((handle vfs req s.1).1, ((handle vfs req s.1).2,
          s.2 ++ req.call.toList.map fun call => (call, (vfs.invoke s.1 call).1))) := by
  cases req with
  | hello v =>
      show (Response.hello PROTOCOL_VERSION, s) = (_, (s.1, s.2 ++ []))
      rw [List.append_nil]
      rfl
  | stat p => rfl
  | list p => rfl
  | read p off len => rfl
  | write p off data => rfl
  | create p mode => rfl
  | mkdir p mode => rfl
  | remove p => rfl
  | rmdir p => rfl
  | rename p q => rfl
  | truncate p size => rfl

end TokimoRpc
