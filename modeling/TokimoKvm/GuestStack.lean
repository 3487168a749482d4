import TokimoKvm.AgentProgramProofs
import TokimoKvm.RpcRemoteProofs

/-! # A guest's mount from end to end

    The guest's kernel asks the agent, the agent blocks on its client, and
    the client shares a connection with the server of the file system.  The
    agent first greets the server; then it takes one request of the kernel
    after the other, and is the only user of its client. -/

namespace TokimoRpc

/-- `Client::hello`, from the outcome of its call on. -/
def Client.hello : Except FrameError Response → Except String Unit
  | .error e => .error e.text
  | .ok (.hello v) =>
      if v = PROTOCOL_VERSION then .ok ()
      else .error ("protocol mismatch: server " ++ toString v.toNat)
  | .ok _ => .error "unexpected response"

end TokimoRpc

namespace TokimoFuseAgent

open TokimoMachine TokimoVfsCore TokimoRpc

/-- Where the agent is: before its greeting, in it, between two requests, in
    `block_on` of a call, or at an end as it was not welcome. -/
inductive Agent where
  | new
  | greeting
  | free (a : TokimoFuse)
  | blocked (req : FuseRequest) (call : VfsCall) (k : Reply → AgentProg)
  | gone (text : String)

/-- The agent, and the connection its client shares with the server. -/
structure Guest (σ : Type) where
  agent : Agent
  rpc : Sys σ

/-- What the guest's kernel sees. -/
inductive GuestEvent where
  | asked (req : FuseRequest)
  | replied (req : FuseRequest) (reply : Except Errno FuseReply)
  deriving DecidableEq

/-- The choices: the agent greets, the kernel asks, or the connection works. -/
inductive GuestLabel where
  | greet
  | request (req : FuseRequest)
  | rpc (l : Label)

section

variable {σ : Type}

/-- A fresh agent on a fresh connection. -/
def Guest.start (s : σ) : Guest σ := { agent := .new, rpc := Sys.start 1 s }

/-- A request goes on: it ends, or blocks on its next call. -/
def resume (req : FuseRequest) (p : AgentProg) (rpc : Sys σ) :
    Option (Guest σ × List GuestEvent) :=
  match p with
  | .done (reply, a) => some ({ agent := .free a, rpc := rpc }, [.replied req reply])
  | .ask call k =>
      match issue rpc 0 (Client.request call) with
      | some (rpc', _) => some ({ agent := .blocked req call k, rpc := rpc' }, [])
      | none => none

/-- A call of the client has returned. -/
def wake (g : Guest σ) (out : Except FrameError Response) : Option (Guest σ × List GuestEvent) :=
  match g.agent with
  | .greeting =>
      match Client.hello out with
      | .ok () => some ({ g with agent := .free .start }, [])
      | .error text => some ({ g with agent := .gone text }, [])
  | .blocked req call k => resume req (k (Client.answer call out)) g.rpc
  | _ => none

/-- The outcome of the call that a step lets return, if any. -/
def returned : List Event → Option (Except FrameError Response)
  | [.ret _ _ out] => some out
  | _ => none

/-- The agent connects its client, which greets. -/
def greet (g : Guest σ) : Option (Guest σ × List GuestEvent) :=
  match g.agent with
  | .new =>
      match issue g.rpc 0 (.hello PROTOCOL_VERSION) with
      | some (rpc, _) => some ({ agent := .greeting, rpc := rpc }, [])
      | none => none
  | _ => none

/-- The kernel asks an agent that is done with its last request. -/
def request (g : Guest σ) (req : FuseRequest) : Option (Guest σ × List GuestEvent) :=
  match g.agent with
  | .free a => (resume req (program a req) g.rpc).map fun x => (x.1, .asked req :: x.2)
  | _ => none

variable (creq : Codec Request) (cresp : Codec Response) (vfs : TokimoVfs σ)

/-- The connection and the server work; calls are the agent's to start, and it
    drops none. -/
def work (g : Guest σ) (l : Label) : Option (Guest σ × List GuestEvent) :=
  if l.work then
    match (system creq cresp vfs).step g.rpc l with
    | none => none
    | some (rpc, es) =>
        match returned es with
        | none => some ({ g with rpc := rpc }, [])
        | some out => wake { g with rpc := rpc } out
  else none

/-- The guest and its server. -/
def guest : Machine (Guest σ) GuestLabel GuestEvent where
  step g
    | .greet => greet g
    | .request req => request g req
    | .rpc l => work creq cresp vfs g l

end

end TokimoFuseAgent
