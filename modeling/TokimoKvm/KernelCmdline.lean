import TokimoKvm.SandboxConfig
import TokimoKvm.ShellTextProofs

/-! # `KernelCmdline` — what the host writes and `tokimo-init` reads

    The mounts, the script and the shell flag go through one line of text.
    `QemuSandbox::start` writes it and hands it to QEMU as an argument; the
    kernel shows it in `/proc/cmdline`, and the shell script `tokimo-init`
    takes it apart again. -/

namespace TokimoCmdline

open TokimoMount TokimoSandbox TokimoShell

variable {σ : Type}

/-! ## The host -/

def scriptKey : String := "tokimo.script="

def mountsKey : String := "tokimo.mounts="

/-- `s.starts_with("tokimo.script=")`. -/
def isScript (s : String) : Bool := scriptKey.toList.isPrefixOf s.toList

/-- `format!("{tag}:{gp}")`. -/
def mountPair (m : String × String) : String := m.1 ++ ":" ++ m.2

def mountsPart (mounts : List (String × String)) : String :=
  mountsKey ++ ",".intercalate (mounts.map mountPair)

/-- The parts `build_cmdline` begins with. -/
def fixedParts (hasRootfs : Bool) : List String :=
  ["console=ttyS0", "panic=-1", "quiet", "loglevel=3"]
    ++ if hasRootfs then ["root=/dev/vda", "rootfstype=squashfs", "ro"] else []

/-- `build_cmdline`: the entries with the script come last. -/
def buildCmdline (extra : List String) (mounts : List (String × String)) (hasRootfs : Bool) :
    String :=
  " ".intercalate (fixedParts hasRootfs
    ++ (if mounts.isEmpty then [] else [mountsPart mounts])
    ++ (extra.partition isScript).2
    ++ (extra.partition isScript).1)

/-- The tag and the guest path of each mount, as `start` collects them. -/
def cmdlineMounts (config : SandboxConfig σ) : List (String × String) :=
  config.mounts.map fun m => (m.tag, m.guestPath)

/-- The command line of `start`, with the image it has found. -/
def startCmdline (config : SandboxConfig σ) (image : ImagePaths) : String :=
  let cmdline := buildCmdline config.extraCmdline (cmdlineMounts config) image.rootfs.isSome
  if config.interactiveSerial then cmdline ++ " tokimo.shell=1" else cmdline

/-- An argument of a command; with a NUL in one the command is not spawned. -/
def spawnArg (s : String) : Option String := if '\x00' ∈ s.toList then none else some s

/-! ## The guest -/

/-- `/proc/cmdline`. -/
def procCmdline (cmdline : String) : Text := cmdline.toList ++ ['\n']

/-- The variables the word loop of `tokimo-init` sets. -/
structure InitArgs where
  mountsArg : Text := []
  shellMode : Bool := false
  deriving DecidableEq, Repr

def shellFlag : Text := "tokimo.shell=1".toList

/-- `tokimo.mounts=*` -/
def isMounts (w : Text) : Bool := mountsKey.toList.isPrefixOf w

/-- `${w#tokimo.mounts=}` -/
def mountsOf (w : Text) : Text := w.drop mountsKey.toList.length

/-- The `case` of the word loop. -/
def caseWord (a : InitArgs) (w : Text) : InitArgs :=
  if isMounts w then { a with mountsArg := mountsOf w }
  else if w = shellFlag then { a with shellMode := true }
  else a

/-- `for w in $(cat /proc/cmdline)` -/
def initArgs (p : Patterns) (g : Files) (proc : Text) : InitArgs :=
  (expandAll p g (fields (commandSubst proc))).foldl caseWord {}

/-- `$(sed -n 's/.*tokimo\.script=\(.*\)$/\1/p' /proc/cmdline)` -/
def scriptCmd (proc : Text) : Text :=
  commandSubst (printed ((linesOf proc).filterMap (afterLast scriptKey.toList)))

/-- `IFS=":" read -r tag mpath rest`, from the here-document of a pair. -/
def readPair (pair : Text) : Text × Text := readTwo ':' (firstLine (pair ++ ['\n']))

/-- The pairs the mount loop goes through. -/
def initMounts (p : Patterns) (g : Files) (mountsArg : Text) : List (Text × Text) :=
  if mountsArg = [] then []
  else (expandAll p g (fieldsAt ',' mountsArg)).map readPair

/-- What holds of the one command line that is handed over. -/
theorem spawn_iff {s : String} (hs : '\x00' ∉ s.toList) (P : String → Prop) :
    (∀ cmdline, spawnArg s = some cmdline → P cmdline) ↔ P s := by
  rw [spawnArg, if_neg hs]
  constructor
  · intro h
    exact h s rfl
  · rintro h cmdline hc
    rw [← Option.some.inj hc]
    exact h

/-! ## Words of the command line -/

/-- The extra entries in the order they are written. -/
def extraParts (config : SandboxConfig σ) : List String :=
  (config.extraCmdline.partition isScript).2 ++ (config.extraCmdline.partition isScript).1

theorem toList_intercalate_space (ps : List String) :
    (" ".intercalate ps).toList = [' '].intercalate (ps.map String.toList) :=
  String.toList_intercalate

/-- A space and another part. -/
theorem fields_shell (s : Text) :
    fields (s ++ " tokimo.shell=1".toList) = fields s ++ [shellFlag] := by
  have h : " tokimo.shell=1".toList = ' ' :: shellFlag := rfl
  rw [h, fields_append_blank _ _ rfl,
    fields_of_word (s := shellFlag) (List.cons_ne_nil _ _)
      (noBlank_of_all (by decide))]

end TokimoCmdline
