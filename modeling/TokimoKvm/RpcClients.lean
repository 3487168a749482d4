import TokimoKvm.RpcSystem

/-! # The calls of the tasks

    A task sends no requests itself.  It calls one of the ten methods of the
    client, which makes a request of its arguments, and what the method makes
    of the response is what the call returns.  So the calls stand above the
    connection: a call starts with the request of its method, and the events
    of the connection are read as calls that are made and that return.

    Which calls the server makes is not read off the requests: its file
    system keeps the record, and each new entry of it is a call that was
    made. -/

namespace TokimoRpc

open TokimoBytes TokimoMachine TokimoVfsCore

variable {σ : Type}

/-- What each task has called its client for, above the connection.  A task
    that greets the server has called for nothing. -/
structure Clients (σ : Type) where
  doing : Nat → Option VfsCall
  rpc : Sys (σ × List (VfsCall × Reply))

/-- What can be seen of a run.  A task calls a method, the server makes a call
    while a task holds the lock, and a method returns. -/
inductive Seen where
  | issue (i : Nat) (call : VfsCall)
  | made (holder : Option Nat) (call : VfsCall) (reply : Reply)
  | ret (i : Nat) (call : VfsCall) (reply : Reply)
  deriving DecidableEq

/-- The choices: a task greets the server, a task calls a method, or the
    connection works. -/
inductive ClientLabel where
  | greet (i : Nat)
  | call (i : Nat) (call : VfsCall)
  | rpc (l : Label)

namespace Clients

/-- `n` tasks on a fresh connection, and nothing on record. -/
def start (n : Nat) (s : σ) : Clients σ where
  doing := fun _ => none
  rpc := Sys.start n (s, [])

/-- Task `i` is now in a method for `call`, or in its greeting. -/
def enter (st : Clients σ) (i : Nat) (call : Option VfsCall)
    (rpc : Sys (σ × List (VfsCall × Reply))) : Clients σ where
  doing := Function.update st.doing i call
  rpc := rpc

@[simp] theorem enter_self (st : Clients σ) (i : Nat) (call : Option VfsCall)
    (rpc : Sys (σ × List (VfsCall × Reply))) : (st.enter i call rpc).doing i = call :=
  Function.update_self ..

theorem enter_other (st : Clients σ) {i j : Nat} (h : j ≠ i) (call : Option VfsCall)
    (rpc : Sys (σ × List (VfsCall × Reply))) :
    (st.enter i call rpc).doing j = st.doing j :=
  Function.update_of_ne h ..

/-- The calls a step has put on record, for the task that holds the lock. -/
def newCalls (st : Clients σ) (rpc : Sys (σ × List (VfsCall × Reply))) : List Seen :=
  (rpc.vfs.2.drop st.rpc.vfs.2.length).map fun e => .made st.rpc.lock e.1 e.2

/-- The method whose call has returned, with what it makes of the outcome. -/
def returns (st : Clients σ) : Event → Option Seen
  | .ret i _ out => (st.doing i).map fun call => .ret i call (Client.answer call out)
  | _ => none

end Clients

section

/-- A task begins `Client::hello`. -/
def greetAs (st : Clients σ) (i : Nat) : Option (Clients σ × List Seen) :=
  match issue st.rpc i (.hello PROTOCOL_VERSION) with
  | some (rpc, _) => some (st.enter i none rpc, [])
  | none => none

/-- A task calls a method of the client, which sends its request. -/
def callAs (st : Clients σ) (i : Nat) (call : VfsCall) : Option (Clients σ × List Seen) :=
  match issue st.rpc i (Client.request call) with
  | some (rpc, _) => some (st.enter i (some call) rpc, [.issue i call])
  | none => none

variable (creq : Codec Request) (cresp : Codec Response) (vfs : TokimoVfs σ)

/-- The connection and the server work; calls are the tasks' to start, and
    none is dropped. -/
def workAs (st : Clients σ) (l : Label) : Option (Clients σ × List Seen) :=
  if l.work then
    match (system creq cresp vfs.recorded).step st.rpc l with
    | none => none
    | some (rpc, es) =>
        some ({ st with rpc := rpc }, st.newCalls rpc ++ es.filterMap st.returns)
  else none

/-- The tasks with their client, and the server. -/
def clients : Machine (Clients σ) ClientLabel Seen where
  step st
    | .greet i => greetAs st i
    | .call i call => callAs st i call
    | .rpc l => workAs creq cresp vfs st l

end

end TokimoRpc
