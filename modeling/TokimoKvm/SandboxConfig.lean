import TokimoKvm.VfsCore

/-! # What a sandbox is made of — the configuration types of the core crate

    A Rust `String` is a Lean `String`; where it goes to the operating system
    its UTF-8 bytes do (`utf8`).  The runtime directory is where a sandbox
    keeps its sockets and its log. -/

namespace TokimoMount

open TokimoPath TokimoVfsCore

variable {σ : Type}

/-- `MountSpec`: a directory of the host, or a file system given as such. -/
inductive MountSpec (σ : Type) where
  | hostDir (guestPath : String) (hostPath : PathBuf) (readOnly : Bool) (tag : String)
  | vfs (guestPath : String) (vfs : TokimoVfs σ) (readOnly : Bool) (tag : String)

namespace MountSpec

/-- The tag the guest finds the mount's port by. -/
def tag : MountSpec σ → String
  | .hostDir _ _ _ tag => tag
  | .vfs _ _ _ tag => tag

/-- Where the guest is to mount it. -/
def guestPath : MountSpec σ → String
  | .hostDir guestPath _ _ _ => guestPath
  | .vfs guestPath _ _ _ => guestPath

/-- Whether it was asked for read-only. -/
def readOnly : MountSpec σ → Bool
  | .hostDir _ _ readOnly _ => readOnly
  | .vfs _ _ readOnly _ => readOnly

end MountSpec

end TokimoMount

namespace TokimoSandbox

open TokimoBytes TokimoPath TokimoMount

/-! ## Configuration -/

/-- The protocol of a port that is forwarded. -/
inductive Protocol where
  | tcp
  | udp
  deriving DecidableEq, Repr

/-- A port of the host for one of the guest. -/
structure PortForward where
  hostPort : UInt16
  guestPort : UInt16
  protocol : Protocol
  deriving DecidableEq, Repr

/-- User-mode NAT without port forwards is the default. -/
structure NetworkSpec where
  userMode : Bool := true
  portForwards : List PortForward := []
  deriving DecidableEq, Repr

/-- What the machine is booted from. -/
structure ImagePaths where
  kernel : PathBuf
  initrd : PathBuf
  rootfs : Option PathBuf
  deriving DecidableEq, Repr

/-- `SandboxConfig` with its defaults. -/
structure SandboxConfig (σ : Type) where
  name : String
  vcpus : UInt32 := 1
  memoryMib : UInt32 := 256
  runtimeDir : Option PathBuf := none
  image : Option ImagePaths := none
  extraCmdline : List String := []
  mounts : List (MountSpec σ) := []
  network : NetworkSpec := {}
  interactiveSerial : Bool := false

/-- `SandboxState`. -/
inductive SandboxState where
  | created
  | starting
  | running
  | stopping
  | stopped
  | failed
  deriving DecidableEq, Repr

/-- Why a call of the trait fails; the cause an operating system gives is
    left out of the text. -/
inductive SandboxError where
  | alreadyStarted
  | config (what : String)
  | hypervisor (what : String)
  | io
  deriving DecidableEq, Repr

/-- The calls of the `Sandbox` trait that change its state. -/
inductive LifeCall where
  | start
  | stop
  | wait
  deriving DecidableEq, Repr

/-! ## The runtime directory -/

/-- The bytes of a Rust string. -/
def utf8 (s : String) : Bytes := s.toByteArray.data.toList

/-- The files of a sandbox in its runtime directory. -/
inductive RtFile where
  | serialLog
  | serialSock
  | qmpSock
  | monitorSock
  | rpcSock (i : Nat)
  deriving DecidableEq, Repr

/-- Their names in it. -/
def RtFile.fileName : RtFile → String
  | .serialLog => "serial.log"
  | .serialSock => "serial.sock"
  | .qmpSock => "qmp.sock"
  | .monitorSock => "monitor.sock"
  | .rpcSock i => "rpc" ++ toString i ++ ".sock"

/-- `root.join(name)`. -/
def RtFile.path (root : PathBuf) (f : RtFile) : PathBuf :=
  root.join (PathBuf.ofBytes (utf8 f.fileName))

/-- `default_runtime_root`, with `std::env::temp_dir` and the process id. -/
def defaultRuntimeRoot (tempDir : PathBuf) (pid : Nat) (name : String) : PathBuf :=
  tempDir.join (PathBuf.ofBytes (utf8 ("tokimo-" ++ name ++ "-" ++ toString pid)))

/-- The runtime directory `ensure_runtime` takes. -/
def runtimeRoot {σ : Type} (tempDir : PathBuf) (pid : Nat) (config : SandboxConfig σ) : PathBuf :=
  config.runtimeDir.getD (defaultRuntimeRoot tempDir pid config.name)

/-- A decimal text is the text of one number. -/
theorem toString_inj {m n : Nat} (h : (toString m).toList = (toString n).toList) : m = n := by
  have hd : ∀ n : Nat, Nat.ofDigitChars 10 (toString n).toList 0 = n := by
    intro n
    simp
  rw [← hd m, h, hd n]

/-- Different files have different names. -/
theorem fileName_inj {f g : RtFile} (h : f.fileName = g.fileName) : f = g := by
  have hl : f.fileName.toList = g.fileName.toList := congrArg String.toList h
  cases f with
  | rpcSock i =>
      cases g with
      | rpcSock j =>
          simp only [RtFile.fileName, String.toList_append, List.append_assoc,
            List.append_cancel_left_eq] at hl
          rw [toString_inj (List.append_cancel_right hl)]
      | serialLog => simp [RtFile.fileName] at hl
      | serialSock => simp [RtFile.fileName] at hl
      | qmpSock => simp [RtFile.fileName] at hl
      | monitorSock => simp [RtFile.fileName] at hl
  | serialLog =>
      cases g with
      | serialLog => rfl
      | rpcSock j => simp [RtFile.fileName] at hl
      | serialSock => exact absurd h (by decide)
      | qmpSock => exact absurd h (by decide)
      | monitorSock => exact absurd h (by decide)
  | serialSock =>
      cases g with
      | serialSock => rfl
      | rpcSock j => simp [RtFile.fileName] at hl
      | serialLog => exact absurd h (by decide)
      | qmpSock => exact absurd h (by decide)
      | monitorSock => exact absurd h (by decide)
  | qmpSock =>
      cases g with
      | qmpSock => rfl
      | rpcSock j => simp [RtFile.fileName] at hl
      | serialLog => exact absurd h (by decide)
      | serialSock => exact absurd h (by decide)
      | monitorSock => exact absurd h (by decide)
  | monitorSock =>
      cases g with
      | monitorSock => rfl
      | rpcSock j => simp [RtFile.fileName] at hl
      | serialLog => exact absurd h (by decide)
      | serialSock => exact absurd h (by decide)
      | qmpSock => exact absurd h (by decide)

/-- A string's bytes, part by part. -/
theorem utf8_append (s t : String) : utf8 (s ++ t) = utf8 s ++ utf8 t := by
  rw [utf8, String.toByteArray_append, ByteArray.data_append, Array.toList_append]
  rfl

/-- Strings with the same bytes are the same. -/
theorem utf8_inj {s t : String} (h : utf8 s = utf8 t) : s = t :=
  String.toByteArray_inj.mp (ByteArray.ext (Array.toList_inj.mp h))

/-- A string's bytes, character by character. -/
theorem utf8_toList (s : String) : utf8 s = s.toList.flatMap String.utf8EncodeChar := by
  rw [utf8, ← String.utf8Encode_toList, List.utf8Encode]
  simp

/-- A number is written with digits alone. -/
theorem utf8_digits (n : Nat) : ∀ b ∈ utf8 (toString n), 48 ≤ b ∧ b ≤ 57 := by
  intro b hb
  rw [utf8_toList] at hb
  obtain ⟨c, hc, hbc⟩ := List.mem_flatMap.mp hb
  have hdigit : c.isDigit = true := by
    have hc' : c ∈ Nat.toDigits 10 n := by simpa using hc
    exact Nat.isDigit_of_mem_toDigits (by decide) (by decide) hc'
  have hrange : 48 ≤ c.toNat ∧ c.toNat ≤ 57 := by
    simpa [Char.isDigit, UInt32.le_iff_toNat_le] using hdigit
  have henc : String.utf8EncodeChar c = [UInt8.ofNat c.toNat] := by
    have hle : c.val.toNat ≤ 127 := Nat.le_trans hrange.2 (by decide)
    simp only [String.utf8EncodeChar, if_pos hle]
    rfl
  rw [henc, List.mem_singleton] at hbc
  subst hbc
  have hto : (UInt8.ofNat c.toNat).toNat = c.toNat :=
    UInt8.toNat_ofNat_of_lt (Nat.lt_of_le_of_lt hrange.2 (by decide))
  constructor
  · exact UInt8.le_iff_toNat_le.mpr (Nat.le_trans hrange.1 (Nat.le_of_eq hto.symm))
  · exact UInt8.le_iff_toNat_le.mpr (Nat.le_trans (Nat.le_of_eq hto) hrange.2)

/-- The files of a sandbox are different paths. -/
theorem RtFile.path_inj {root : PathBuf} {f g : RtFile} (h : f.path root = g.path root) :
    f = g := by
  have hrel : ∀ f : RtFile, (PathBuf.ofBytes (utf8 f.fileName)).isAbsolute = false := by
    intro f
    cases f with
    | serialLog => rfl
    | serialSock => rfl
    | qmpSock => rfl
    | monitorSock => rfl
    | rpcSock i =>
        rw [RtFile.fileName, utf8_append, utf8_append]
        exact isAbsolute_ofBytes (by decide)
  exact fileName_inj (utf8_inj (ofBytes_inj (join_inj (hrel f) (hrel g) h)))

/-- Different names have different directories, as paths. -/
theorem defaultRuntimeRoot_inj {tempDir : PathBuf} {pid : Nat} {n n' : String}
    (h : defaultRuntimeRoot tempDir pid n = defaultRuntimeRoot tempDir pid n') : n = n' := by
  have hrel : ∀ n : String,
      (PathBuf.ofBytes (utf8 ("tokimo-" ++ n ++ "-" ++ toString pid))).isAbsolute = false := by
    intro n
    rw [utf8_append, utf8_append, utf8_append]
    exact isAbsolute_ofBytes (by decide)
  have hname := utf8_inj (ofBytes_inj (join_inj (hrel n) (hrel n') h))
  have hl := congrArg String.toList hname
  simp only [String.toList_append, List.append_assoc, List.append_cancel_left_eq,
    List.append_cancel_right_eq] at hl
  exact String.toList_inj.mp hl

end TokimoSandbox
