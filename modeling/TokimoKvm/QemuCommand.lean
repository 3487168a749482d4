import TokimoKvm.KernelCmdline

/-! # `QemuCommand` — the ports of the mounts, and the arguments of QEMU

    `QemuSandbox::start` makes a serial port of each mount and hands all of
    them to `build_command`, which writes them out in QEMU's own syntax.
    Paths are written as `Path::display` shows them. -/

namespace TokimoQemu

open TokimoBytes TokimoPath TokimoMount TokimoSandbox TokimoCmdline

variable {σ : Type}

/-- A virtio-serial port: a Unix socket on the host, a named port in the
    guest. -/
structure SerialPort where
  chardevId : String
  portName : String
  socketPath : PathBuf
  deriving DecidableEq, Repr

/-- The port of the mount `m` with the index `i`. -/
def SerialPort.ofMount (root : PathBuf) (i : Nat) (m : MountSpec σ) : SerialPort where
  chardevId := "rpc" ++ toString i
  portName := "tokimo.rpc." ++ m.tag
  socketPath := (RtFile.rpcSock i).path root

/-- The ports `start` makes, one for each mount in order. -/
def serialPorts (root : PathBuf) (mounts : List (MountSpec σ)) : List SerialPort :=
  mounts.mapIdx fun i m => .ofMount root i m

/-- Everything the command line is built from. -/
structure QemuSpec where
  qemuBin : PathBuf
  vcpus : UInt32
  memoryMib : UInt32
  kernel : PathBuf
  initrd : PathBuf
  rootfs : Option PathBuf
  cmdline : String
  serialPorts : List SerialPort
  network : NetworkSpec
  qmpSocket : PathBuf
  serialLog : PathBuf
  serialSocket : Option PathBuf
  monitorSocket : PathBuf
  runtimeDir : PathBuf

/-- The spec of `start`, with the image it has found. -/
def startSpec (config : SandboxConfig σ) (qemuBin root : PathBuf) (image : ImagePaths) :
    QemuSpec where
  qemuBin := qemuBin
  vcpus := config.vcpus
  memoryMib := config.memoryMib
  kernel := image.kernel
  initrd := image.initrd
  rootfs := image.rootfs
  cmdline := startCmdline config image
  serialPorts := serialPorts root config.mounts
  network := config.network
  qmpSocket := RtFile.qmpSock.path root
  serialLog := RtFile.serialLog.path root
  serialSocket := if config.interactiveSerial then some (RtFile.serialSock.path root) else none
  monitorSocket := RtFile.monitorSock.path root
  runtimeDir := root

/-- `Path::display`. -/
def display (p : PathBuf) : Bytes := toStringLossy p.bytes

/-- One option of the command, with its argument if it takes one. -/
inductive Arg where
  | flag (name : String)
  | opt (name : String) (value : Bytes)
  deriving DecidableEq, Repr

/-- The arguments that are handed to the process. -/
def Arg.argv : Arg → List Bytes
  | .flag name => [utf8 name]
  | .opt name value => [utf8 name, value]

/-- A command that has not been spawned, without its standard streams. -/
structure Command where
  program : PathBuf
  args : List Arg
  currentDir : PathBuf

/-! ## `build_command` -/

/-- The machine, the kernel and what goes without options of its own. -/
def baseArgs (spec : QemuSpec) : List Arg :=
  [.flag "-enable-kvm", .opt "-machine" (utf8 "q35,accel=kvm"), .opt "-cpu" (utf8 "host"),
    .opt "-smp" (utf8 (toString spec.vcpus.toNat)),
    .opt "-m" (utf8 (toString spec.memoryMib.toNat ++ "M")),
    .opt "-kernel" spec.kernel.bytes, .opt "-initrd" spec.initrd.bytes,
    .opt "-append" (utf8 spec.cmdline), .opt "-display" (utf8 "none"), .flag "-nodefaults",
    .flag "-no-reboot"]

/-- The serial console, on a socket or in a log file. -/
def serialArgs (spec : QemuSpec) : List Arg :=
  (match spec.serialSocket with
    | some sp => [.opt "-chardev" (utf8 "socket,id=sercon,path=" ++ display sp
        ++ utf8 ",server=on,wait=off")]
    | none => [.opt "-chardev" (utf8 "file,id=sercon,path=" ++ display spec.serialLog
        ++ utf8 ",append=on")])
    ++ [.opt "-serial" (utf8 "chardev:sercon")]

/-- The two sockets QEMU is controlled by. -/
def controlArgs (spec : QemuSpec) : List Arg :=
  [.opt "-qmp" (utf8 "unix:" ++ display spec.qmpSocket ++ utf8 ",server=on,wait=off"),
    .opt "-monitor" (utf8 "unix:" ++ display spec.monitorSocket ++ utf8 ",server=on,wait=off")]

/-- The drive of the root file system. -/
def rootfsArgs (spec : QemuSpec) : List Arg :=
  match spec.rootfs with
  | some rootfs =>
      [.opt "-drive" (utf8 "file=" ++ display rootfs
          ++ utf8 ",if=none,readonly=on,id=rootfs,format=raw"),
        .opt "-device" (utf8 "virtio-blk-pci,drive=rootfs,bootindex=1")]
  | none => []

/-- One port: a socket QEMU connects to, and the device the guest finds. -/
def portArgs (p : SerialPort) : List Arg :=
  [.opt "-chardev" (utf8 "socket,id=" ++ utf8 p.chardevId ++ utf8 ",path=" ++ display p.socketPath
      ++ utf8 ",server=off,reconnect=1"),
    .opt "-device" (utf8 "virtserialport,chardev=" ++ utf8 p.chardevId
      ++ utf8 ",bus=vser0.0,name=" ++ utf8 p.portName)]

/-- The ports, behind the controller that carries them. -/
def portsArgs (spec : QemuSpec) : List Arg :=
  if spec.serialPorts.isEmpty then []
  else .opt "-device" (utf8 "virtio-serial-pci,id=vser0") :: spec.serialPorts.flatMap portArgs

/-- The protocol, as a rule of forwarding spells it. -/
def Protocol.name : Protocol → String
  | .tcp => "tcp"
  | .udp => "udp"

/-- `{proto}::{host}-:{guest}` -/
def hostfwd (pf : PortForward) : String :=
  Protocol.name pf.protocol ++ "::" ++ toString pf.hostPort.toNat ++ "-:"
    ++ toString pf.guestPort.toNat

/-- User-mode networking with its forwarded ports. -/
def networkArgs (spec : QemuSpec) : List Arg :=
  if spec.network.userMode then
    [.opt "-netdev" (utf8 "user,id=net0"
        ++ spec.network.portForwards.flatMap fun pf => utf8 ",hostfwd=" ++ utf8 (hostfwd pf)),
      .opt "-device" (utf8 "virtio-net-pci,netdev=net0")]
  else []

/-- `build_command`: the parts in the order of the source. -/
def buildCommand (spec : QemuSpec) : Command where
  program := spec.qemuBin
  args := baseArgs spec ++ serialArgs spec ++ controlArgs spec ++ rootfsArgs spec ++ portsArgs spec
    ++ networkArgs spec
  currentDir := spec.runtimeDir

/-- A command with a NUL in any of its strings is refused by `spawn`. -/
def Command.hasNul (c : Command) : Bool :=
  c.program.bytes.contains 0 || c.currentDir.bytes.contains 0
    || c.args.any fun a => a.argv.any fun b => b.contains 0

end TokimoQemu
