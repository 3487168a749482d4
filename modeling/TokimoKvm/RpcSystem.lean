import TokimoKvm.RpcFrameProofs

/-! # Tasks, one client, one server

    Any number of tasks share a client: a call takes the lock on the
    connection, writes its request, reads a response and lets the lock go.
    The server reads, handles and replies in a loop.  Between them are two
    byte pipes.  Every step is one that the schedulers or the pipes may
    choose: how many bytes a write or a read moves, who gets the lock, which
    future is dropped at which await point. -/

namespace TokimoRpc

open TokimoBytes TokimoMachine TokimoVfsCore

variable {σ : Type}

/-- Where a task is: outside of `Client::call`, at its `lock().await`, inside
    `write_frame` with some bytes left, or inside `read_frame` with some bytes
    received. -/
inductive Task where
  | idle
  | waiting (req : Request)
  | writing (req : Request) (todo : Bytes)
  | reading (req : Request) (got : Bytes)
  deriving DecidableEq

/-- Where `serve_stream` is. -/
inductive Server where
  | reading (got : Bytes)
  | handling (req : Request)
  | writing (todo : Bytes)
  | stopped
  deriving DecidableEq

/-- The tasks, the client's lock, the two pipes and the server. -/
structure Sys (σ : Type) where
  tasks : List Task
  /-- The task that holds the client's lock. -/
  lock : Option Nat
  /-- Bytes on the way from the client to the server. -/
  c2s : Bytes
  /-- Bytes on the way from the server to the client. -/
  s2c : Bytes
  server : Server
  vfs : σ

/-- What can be seen of a run.  A served request is noted with the task that
    held the lock then. -/
inductive Event where
  | issue (i : Nat) (req : Request)
  | served (holder : Option Nat) (req : Request) (resp : Response)
  | ret (i : Nat) (req : Request) (out : Except FrameError Response)
  | dropped (i : Nat) (req : Request)
  deriving DecidableEq

/-- The choices: a task starts a call, takes the lock, moves up to `n + 1`
    bytes, finds the server gone, or is dropped; the server moves up to
    `n + 1` bytes or handles a request. -/
inductive Label where
  | issue (i : Nat) (req : Request)
  | acquire (i : Nat)
  | send (i n : Nat)
  | recv (i n : Nat)
  | broken (i : Nat) (text : String)
  | eof (i : Nat)
  | drop (i : Nat)
  | serverRecv (n : Nat)
  | serverHandle
  | serverSend (n : Nat)

/-- A step that is neither a new call nor a dropped one. -/
def Label.work : Label → Prop
  | .issue _ _ => False
  | .drop _ => False
  | _ => True

instance decidableWork : (l : Label) → Decidable l.work
  | .issue _ _ => isFalse id
  | .acquire _ => isTrue True.intro
  | .send _ _ => isTrue True.intro
  | .recv _ _ => isTrue True.intro
  | .broken _ _ => isTrue True.intro
  | .eof _ => isTrue True.intro
  | .drop _ => isFalse id
  | .serverRecv _ => isTrue True.intro
  | .serverHandle => isTrue True.intro
  | .serverSend _ => isTrue True.intro

namespace Sys

/-- `n` tasks on a fresh connection. -/
def start (n : Nat) (s : σ) : Sys σ where
  tasks := List.replicate n .idle
  lock := none
  c2s := []
  s2c := []
  server := .reading []
  vfs := s

/-- Where task `i` is; who is not there is outside of every call. -/
def task (st : Sys σ) (i : Nat) : Task := (st.tasks[i]?).getD .idle

/-- Task `i` goes on to `t`. -/
def put (st : Sys σ) (i : Nat) (t : Task) : Sys σ := { st with tasks := st.tasks.set i t }

/-- A call ends: its guard is dropped. -/
def leave (st : Sys σ) (i : Nat) : Sys σ := { st.put i .idle with lock := none }

end Sys

/-! ## The pieces of a step -/

/-- The bytes `write_frame` has to write, or its failure before the first. -/
def framed {T : Type} (c : Codec T) (msg : T) : Except FrameError Bytes :=
  match c.toStdvec msg with
  | .error text => .error (.encode text)
  | .ok bytes => if 2 ^ 32 ≤ bytes.length then .error .tooLarge else .ok (frame bytes)

/-- A reader takes up to `n + 1` of the bytes it waits for: what it has then,
    and what is left on the stream. -/
def readSome {T : Type} (c : Codec T) (got stream : Bytes) (n : Nat) : Option (Bytes × Bytes) :=
  match progress c got with
  | .done _ => none
  | .more need =>
      if stream = [] then none
      else some (got ++ stream.take (min (n + 1) need), stream.drop (min (n + 1) need))

/-- A task after some of its bytes went out. -/
def Task.wrote (req : Request) : Bytes → Task
  | [] => .reading req []
  | b :: bs => .writing req (b :: bs)

/-- The server after some of its bytes went out. -/
def Server.wrote : Bytes → Server
  | [] => .reading []
  | b :: bs => .writing (b :: bs)

section

variable (creq : Codec Request) (cresp : Codec Response) (vfs : TokimoVfs σ)

/-- A task that is outside of every call starts one. -/
def issue (st : Sys σ) (i : Nat) (req : Request) : Option (Sys σ × List Event) :=
  match st.tasks[i]? with
  | some .idle => some (st.put i (.waiting req), [.issue i req])
  | _ => none

/-- The guard is taken and `write_frame` begins. -/
def acquire (st : Sys σ) (i : Nat) : Option (Sys σ × List Event) :=
  match st.lock, st.task i with
  | none, .waiting req =>
      match framed creq req with
      | .error e => some (st.put i .idle, [.ret i req (.error e)])
      | .ok todo => some ({ st.put i (.writing req todo) with lock := some i }, [])
  | _, _ => none

/-- `write_frame` hands bytes to the pipe; behind the last, `read_frame` begins. -/
def send (st : Sys σ) (i n : Nat) : Option (Sys σ × List Event) :=
  match st.task i with
  | .writing req todo =>
      some ({ st.put i (.wrote req (todo.drop (n + 1))) with
        c2s := st.c2s ++ todo.take (n + 1) }, [])
  | _ => none

/-- `read_frame` takes bytes from the pipe; with the last, the call returns. -/
def recv (st : Sys σ) (i n : Nat) : Option (Sys σ × List Event) :=
  match st.task i with
  | .reading req got =>
      match readSome cresp got st.s2c n with
      | none => none
      | some (got', s2c') =>
          match progress cresp got' with
          | .more _ => some ({ st.put i (.reading req got') with s2c := s2c' }, [])
          | .done out => some ({ st.leave i with s2c := s2c' }, [.ret i req out])
  | _ => none

/-- A write into a pipe whose other end is gone. -/
def broken (st : Sys σ) (i : Nat) (text : String) : Option (Sys σ × List Event) :=
  match st.server, st.task i with
  | .stopped, .writing req _ => some (st.leave i, [.ret i req (.error (.io text))])
  | _, _ => none

/-- A read from an empty pipe whose other end is gone. -/
def eof (st : Sys σ) (i : Nat) : Option (Sys σ × List Event) :=
  match st.server, st.s2c, st.task i with
  | .stopped, [], .reading req _ => some (st.leave i, [.ret i req (.error earlyEof)])
  | _, _, _ => none

/-- The future of a call is dropped; so is its guard, if it has one. -/
def drop (st : Sys σ) (i : Nat) : Option (Sys σ × List Event) :=
  match st.task i with
  | .idle => none
  | .waiting req => some (st.put i .idle, [.dropped i req])
  | .writing req _ => some (st.leave i, [.dropped i req])
  | .reading req _ => some (st.leave i, [.dropped i req])

/-- The server's `read_frame`; a frame it refuses ends the connection. -/
def serverRecv (st : Sys σ) (n : Nat) : Option (Sys σ × List Event) :=
  match st.server with
  | .reading got =>
      match readSome creq got st.c2s n with
      | none => none
      | some (got', c2s') =>
          match progress creq got' with
          | .more _ => some ({ st with server := .reading got', c2s := c2s' }, [])
          | .done (.ok req) => some ({ st with server := .handling req, c2s := c2s' }, [])
          | .done (.error _) => some ({ st with server := .stopped, c2s := c2s' }, [])
  | _ => none

/-- The server's state when `write_frame` begins. -/
def Server.reply (resp : Response) : Server :=
  match framed cresp resp with
  | .error _ => .stopped
  | .ok todo => .writing todo

/-- The server handles the request it has read, and begins to reply. -/
def serverHandle (st : Sys σ) : Option (Sys σ × List Event) :=
  match st.server with
  | .handling req =>
      some ({ st with
        server := .reply cresp (handle vfs req st.vfs).1
        vfs := (handle vfs req st.vfs).2 },
        [.served st.lock req (handle vfs req st.vfs).1])
  | _ => none

/-- The server's `write_frame` hands bytes to the pipe. -/
def serverSend (st : Sys σ) (n : Nat) : Option (Sys σ × List Event) :=
  match st.server with
  | .writing todo =>
      some ({ st with
        server := .wrote (todo.drop (n + 1))
        s2c := st.s2c ++ todo.take (n + 1) }, [])
  | _ => none

/-- The whole system. -/
def system : Machine (Sys σ) Label Event where
  step st
    | .issue i req => issue st i req
    | .acquire i => acquire creq st i
    | .send i n => send st i n
    | .recv i n => recv cresp st i n
    | .broken i text => broken st i text
    | .eof i => eof st i
    | .drop i => drop st i
    | .serverRecv n => serverRecv creq st n
    | .serverHandle => serverHandle cresp vfs st
    | .serverSend n => serverSend st n

end

end TokimoRpc
