import TokimoKvm.HostFs

/-! # `TokioFile` — a host whose files write in the background

    `tokio::fs::File` hands each write to the blocking pool and returns; the
    next operation on the same `File` waits for it.  `write_all` goes chunk by
    chunk, so it returns with its last chunk in the pool, where the job stays
    when the `File` is dropped.  When the pool gets to a job, and what the
    host makes of it, is not the program's to say: both are in `Env`. -/

namespace TokimoTokio

open TokimoMachine TokimoBytes TokimoPath TokimoVfsCore TokimoTable TokimoHost TokimoHostFs

/-- The largest chunk of a `File`, 2 MiB. -/
def maxBufSize : Nat := 2 * 1024 * 1024

/-- A chunk in the pool, for an object that was opened. -/
structure Job where
  number : Nat
  object : Nat
  pos : Nat
  data : Bytes
  deriving DecidableEq, Repr

/-- What the surroundings choose: which jobs fail, after how many bytes and
    with which error, and which jobs are done at each turn. -/
structure Env where
  faults : Nat → Option (Nat × IoError)
  turns : Nat → List Nat

variable (env : Env)

/-! ## Jobs -/

/-- The error of a job; no byte goes past the largest offset. -/
def Job.error (j : Job) : Option IoError :=
  match env.faults j.number with
  | some (_, e) => some e
  | none => if j.pos + j.data.length ≤ maxOffset then none else some EFBIG

/-- What a job writes; a job that fails leaves something out. -/
def Job.written (j : Job) : Bytes :=
  match env.faults j.number with
  | some (k, _) => j.data.take (min (min k (j.data.length - 1)) (maxOffset - j.pos))
  | none => j.data.take (maxOffset - j.pos)

/-- Put bytes into a file, if it is one. -/
def Inode.overwritten (s : HostState) (pos : Nat) (bytes : Bytes) (i : Inode) : Inode :=
  match i.node with
  | .file old => s.filled i (overwrite pos bytes old)
  | _ => i

/-- Write to an object, wherever it is by now; without an entry nobody sees
    it any more. -/
def writeObject (s : HostState) (object pos : Nat) (bytes : Bytes) : HostState :=
  if bytes.isEmpty then s
  else s.setTree (s.tree.map fun e =>
    (e.1, if e.2.id = object then Inode.overwritten s pos bytes e.2 else e.2))

/-- The host, the jobs in the pool, the number of the next job, and the turns
    that have passed. -/
structure Pool where
  host : HostState
  jobs : List Job
  next : Nat
  clock : Nat

namespace Pool

/-- Nothing has been handed over. -/
def start (host : HostState) : Pool := { host := host, jobs := [], next := 0, clock := 0 }

/-- The pool gets a job done. -/
def finish (b : Pool) (j : Job) : Pool :=
  { b with
    host := writeObject b.host j.object j.pos (j.written env)
    jobs := b.jobs.erase j }

/-- The pool gets the job of that number done, if it is still there. -/
def finishNumber (b : Pool) (n : Nat) : Pool :=
  match b.jobs.find? (fun j => decide (j.number = n)) with
  | some j => b.finish env j
  | none => b

/-- Time passes. -/
def turn (b : Pool) : Pool :=
  (env.turns b.clock).foldl (finishNumber env) { b with clock := b.clock + 1 }

end Pool

/-! ## Files -/

/-- A `File`; `last` is the write it has handed over last. -/
structure File where
  fd : Fd
  object : Nat
  last : Option Job

/-- Time passes, then the host is called. -/
def lift {α : Type} (x : Eff HostState IoError α) : Eff Pool IoError α := fun b =>
  ((x (b.turn env).host).1, { b.turn env with host := (x (b.turn env).host).2 })

/-- Open a file, and note which object it is. -/
def openObject (o : OpenOptions) (p : PathBuf) : Eff HostState IoError File := do
  let fd ← posix.openFile o p
  fun s => (.ok { fd := fd, object := ((s.tree.get fd.loc).map Inode.id).getD 0, last := none }, s)

/-- Time passes. -/
def pass : Eff Pool IoError Unit := fun b => (.ok (), b.turn env)

/-- Wait for the write that was handed over last, and take its error:
    `flush`, and what every operation on the `File` begins with. -/
def settle (f : File) : Eff Pool IoError Unit := fun b =>
  match f.last with
  | none => (.ok (), b)
  | some j =>
      match j.error env with
      | none => (.ok (), if j ∈ b.jobs then b.finish env j else b)
      | some e => (.error e, if j ∈ b.jobs then b.finish env j else b)

/-- Hand a chunk over. -/
def submit (f : File) (chunk : Bytes) : Eff Pool IoError File := fun b =>
  (.ok
    { f with
      fd := { f.fd with pos := f.fd.pos + chunk.length }
      last := some { number := b.next, object := f.object, pos := f.fd.pos, data := chunk } },
    { b with
      jobs := b.jobs ++ [{ number := b.next, object := f.object, pos := f.fd.pos, data := chunk }]
      next := b.next + 1 })

/-- The chunks `write_all` hands over, one call of `write` for each. -/
def chunksOf (n : Nat) : Nat → Bytes → List Bytes
  | 0, _ => []
  | fuel + 1, data =>
      if data.isEmpty then [] else data.take n :: chunksOf n fuel (data.drop n)

/-- The chunks of what is written, with enough fuel for all of them. -/
def chunks (data : Bytes) : List Bytes := chunksOf maxBufSize data.length data

/-- The loop of `write_all`: each chunk waits for the one before. -/
def writeChunks : List Bytes → File → Eff Pool IoError File
  | [], f => do
      pass env
      pure f
  | c :: cs, f => do
      pass env
      settle env f
      let f ← submit f c
      writeChunks cs f

/-- The host of `tokio::fs` and `std::fs`. -/
def tokio : HostCalls Pool File where
  canonicalize p := lift env (posix.canonicalize p)
  symlinkMetadata p := lift env (posix.symlinkMetadata p)
  readDir p := lift env (posix.readDir p)
  openFile o p := lift env (openObject o p)
  seek f off := do
    let fd ← lift env (posix.seek f.fd off)
    pure { f with fd := fd }
  read f n := do
    let got ← lift env (posix.read f.fd (min n maxBufSize))
    pure (got.1, { f with fd := got.2 })
  writeAll f data := writeChunks env (chunks data) f
  setLen f size := lift env (posix.setLen f.fd size)
  createDir p := lift env (posix.createDir p)
  removeFile p := lift env (posix.removeFile p)
  removeDir p := lift env (posix.removeDir p)
  rename p q := lift env (posix.rename p q)

/-- The same host, with a `flush` behind each `write_all`. -/
def flushed : HostCalls Pool File :=
  { tokio env with
    writeAll := fun f data => do
      let f ← writeChunks env (chunks data) f
      settle env f
      pure f }

end TokimoTokio
