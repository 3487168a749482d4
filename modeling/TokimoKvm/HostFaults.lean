import TokimoKvm.PosixHost

/-! # A host with bad luck

    The POSIX host, except that a read may bring less than was asked for and
    any call may fail.  The calls are counted, and what happens to each is
    decided by its number, so that every schedule is one `Luck`. -/

namespace TokimoHost

open TokimoMachine TokimoBytes TokimoPath

/-- What happens to the calls, by their numbers. -/
structure Luck where
  /-- A read is given at most one byte more than this. -/
  cuts : Nat → Nat
  /-- A call fails; if it is one that writes data, some of the data is written
      before. -/
  faults : Nat → Option (Nat × IoError)

/-- The host, and the number of its next call. -/
abbrev Counted := HostState × Nat

variable {α : Type}

/-- One call, which may leave something behind when it fails. -/
def Luck.call (luck : Luck) (broken : Nat → HostState → HostState)
    (x : Nat → Eff HostState IoError α) : Eff Counted IoError α := fun s =>
  match luck.faults s.2 with
  | some (k, e) => (.error e, (broken k s.1, s.2 + 1))
  | none => ((x s.2 s.1).1, ((x s.2 s.1).2, s.2 + 1))

/-- A call that does nothing when it fails. -/
def Luck.whole (luck : Luck) (x : Eff HostState IoError α) : Eff Counted IoError α :=
  luck.call (fun _ s => s) (fun _ => x)

/-- The host under a given luck. -/
def luckyHost (luck : Luck) : HostCalls Counted Fd where
  canonicalize p := luck.whole (posix.canonicalize p)
  symlinkMetadata p := luck.whole (posix.symlinkMetadata p)
  readDir p := luck.whole (posix.readDir p)
  openFile o p := luck.whole (posix.openFile o p)
  seek f off := luck.whole (posix.seek f off)
  read f n := luck.call (fun _ s => s) fun i => posix.read f (min n (luck.cuts i + 1))
  writeAll f data :=
    luck.call (fun k s => (posix.writeAll f (data.take k) s).2) fun _ => posix.writeAll f data
  setLen f size := luck.whole (posix.setLen f size)
  createDir p := luck.whole (posix.createDir p)
  removeFile p := luck.whole (posix.removeFile p)
  removeDir p := luck.whole (posix.removeDir p)
  rename p q := luck.whole (posix.rename p q)

/-- Of `read` alone the length is cut. -/
theorem luckyHost_read (luck : Luck) (f : Fd) (n : Nat) :
    (luckyHost luck).read f n
      = luck.call (fun _ s => s) (fun i => posix.read f (min n (luck.cuts i + 1))) := rfl

/-! ## One call -/

/-- A call with no fault is the call itself, and is counted. -/
theorem Luck.call_of_none {luck : Luck} {broken : Nat → HostState → HostState}
    {x : Nat → Eff HostState IoError α} {s : HostState} {i : Nat} (h : luck.faults i = none) :
    luck.call broken x (s, i) = ((x i s).1, ((x i s).2, i + 1)) := by
  rw [call, h]

/-- The same for a call that fails whole. -/
theorem Luck.whole_of_none {luck : Luck} {x : Eff HostState IoError α} {s : HostState} {i : Nat}
    (h : luck.faults i = none) : luck.whole x (s, i) = ((x s).1, ((x s).2, i + 1)) :=
  Luck.call_of_none h

/-- A fault leaves the host as it was, and is counted. -/
theorem Luck.whole_of_some {luck : Luck} {x : Eff HostState IoError α} {s : HostState} {i k : Nat}
    {e : IoError} (h : luck.faults i = some (k, e)) :
    luck.whole x (s, i) = (.error e, (s, i + 1)) := by
  rw [whole, call, h]

end TokimoHost
