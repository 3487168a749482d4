import TokimoKvm.QemuCommand
import TokimoKvm.OptionTextProofs

/-! # What QEMU reads in its arguments

    Tags and paths come from the caller, and `build_command` writes them into
    option strings as they are.  A comma in one of them is a separator for
    QEMU: the value is cut there, and what follows is an option of its own. -/

namespace TokimoQemuOptions

open TokimoBytes TokimoPath TokimoMount TokimoSandbox TokimoOption TokimoQemu

/-! ## QEMU's side -/

/-- Items of `key=value` with commas between them; a bare word switches
    something on, or off after a `no`. -/
def qemuOptions : Grammar UInt8 where
  sep := 44
  assign := 61
  bare name :=
    if (utf8 "no").isPrefixOf name then (name.drop 2, utf8 "off") else (name, utf8 "on")
  sep_ne_assign := by decide

/-- What an option says: values under their keys, in order. -/
abbrev Options := List (Bytes × Bytes)

/-- The chardev that `-qmp` and `-monitor` take after `unix:`. -/
def readSocket (value : Bytes) : Option Options :=
  if (utf8 "unix:").isPrefixOf value then
    some ((utf8 "backend", utf8 "socket")
      :: qemuOptions.parse (some (utf8 "path")) (value.drop 5))
  else none

/-- What QEMU makes of an option string, by the key its first value has. -/
def readOption : Arg → Option (String × Options)
  | .flag _ => none
  | .opt name value =>
      if name = "-chardev" then some (name, qemuOptions.parse (some (utf8 "backend")) value)
      else if name = "-device" then some (name, qemuOptions.parse (some (utf8 "driver")) value)
      else if name = "-netdev" then some (name, qemuOptions.parse (some (utf8 "type")) value)
      else if name = "-drive" then some (name, qemuOptions.parse none value)
      else if name = "-qmp" ∨ name = "-monitor" then (readSocket value).map fun o => (name, o)
      else none

/-! ## What the spec means -/

/-- A value that is a word of the command line builder's own. -/
def word (key value : String) : Bytes × Bytes := (utf8 key, utf8 value)

/-- A value that is a path. -/
def file (key : String) (p : PathBuf) : Bytes × Bytes := (utf8 key, p.bytes)

/-- What the serial console is to be. -/
def serialMeant (spec : QemuSpec) : List (String × Options) :=
  match spec.serialSocket with
  | some sp => [("-chardev", [word "backend" "socket", word "id" "sercon", file "path" sp,
      word "server" "on", word "wait" "off"])]
  | none => [("-chardev", [word "backend" "file", word "id" "sercon", file "path" spec.serialLog,
      word "append" "on"])]

/-- A socket that QEMU listens on and does not wait for. -/
def socketMeant (p : PathBuf) : Options :=
  [word "backend" "socket", file "path" p, word "server" "on", word "wait" "off"]

/-- The two control sockets. -/
def controlMeant (spec : QemuSpec) : List (String × Options) :=
  [("-qmp", socketMeant spec.qmpSocket), ("-monitor", socketMeant spec.monitorSocket)]

/-- The drive of the root file system, if there is one. -/
def rootfsMeant (spec : QemuSpec) : List (String × Options) :=
  match spec.rootfs with
  | some rootfs =>
      [("-drive", [file "file" rootfs, word "if" "none", word "readonly" "on", word "id" "rootfs",
          word "format" "raw"]),
        ("-device", [word "driver" "virtio-blk-pci", word "drive" "rootfs", word "bootindex" "1"])]
  | none => []

/-- One port: the socket it is connected to and its name in the guest. -/
def portMeant (p : SerialPort) : List (String × Options) :=
  [("-chardev", [word "backend" "socket", word "id" p.chardevId, file "path" p.socketPath,
      word "server" "off", word "reconnect" "1"]),
    ("-device", [word "driver" "virtserialport", word "chardev" p.chardevId, word "bus" "vser0.0",
      word "name" p.portName])]

/-- All ports, behind the controller that carries them. -/
def portsMeant (spec : QemuSpec) : List (String × Options) :=
  if spec.serialPorts.isEmpty then []
  else ("-device", [word "driver" "virtio-serial-pci", word "id" "vser0"])
    :: spec.serialPorts.flatMap portMeant

/-- The network device and the ports forwarded to it. -/
def networkMeant (spec : QemuSpec) : List (String × Options) :=
  if spec.network.userMode then
    [("-netdev", word "type" "user" :: word "id" "net0"
        :: spec.network.portForwards.map fun pf => word "hostfwd" (hostfwd pf)),
      ("-device", [word "driver" "virtio-net-pci", word "netdev" "net0"])]
  else []

/-- The options of a spec, in the order of the command. -/
def optionsMeant (spec : QemuSpec) : List (String × Options) :=
  serialMeant spec ++ controlMeant spec ++ rootfsMeant spec ++ portsMeant spec
    ++ networkMeant spec

/-! ## Values that are safe to write -/

/-- A value is one of the code's own words, a text of the caller, or a path
    that is shown. -/
inductive Value where
  | fixed (s : String) (h : 44 ∉ utf8 s)
  | text (s : String)
  | path (p : PathBuf)

namespace Value

/-- What is written. -/
def shown : Value → Bytes
  | fixed s _ => utf8 s
  | text s => utf8 s
  | path p => display p

/-- What is meant. -/
def bytes : Value → Bytes
  | fixed s _ => utf8 s
  | text s => utf8 s
  | path p => p.bytes

/-- No comma in it, and for a path nothing that `display` replaces. -/
def Plain : Value → Prop
  | fixed _ _ => True
  | text s => 44 ∉ utf8 s
  | path p => isUtf8 p.bytes = true ∧ 44 ∉ p.bytes

end Value

/-- One option, its key and what was put in for its value. -/
abbrev Opt := String × Value

/-- The option as it is written, beside what it is to mean. -/
def Opt.item (o : Opt) : Item UInt8 := { key := utf8 o.1, text := o.2.shown, value := o.2.bytes }

/-- Not empty, and neither a comma nor an equals sign in it. -/
def NameText (s : String) : Prop := utf8 s ≠ [] ∧ (utf8 s).all qemuOptions.isName = true

instance (s : String) : Decidable (NameText s) := inferInstanceAs (Decidable (_ ∧ _))

/-- What `display` writes for a broken sequence. -/
abbrev mark : Bytes := [0xEF, 0xBF, 0xBD]

/-- The replacement character has no byte that separates options. -/
theorem sep_not_mark : qemuOptions.sep ∉ mark := by decide

/-- `display` changes a path only where it is no UTF-8. -/
theorem display_shown (p : PathBuf) : Shown mark (display p) p.bytes := by
  refine toStringLossy_induct (motive := Shown mark) .nil ?_ ?_ p.bytes
  · intro w d v h
    exact h.keeps w
  · intro x d v _ hx h
    exact .lose x hx h

/-- So does what is put in for any value. -/
theorem shown_bytes (v : Value) : Shown mark v.shown v.bytes := by
  cases v with
  | fixed s h => exact .refl mark (utf8 s)
  | text s => exact .refl mark (utf8 s)
  | path p => exact display_shown p

/-- An option reads back as it was meant just if its value is plain. -/
theorem exact_iff (o : Opt) : Exact qemuOptions o.item ↔ o.2.Plain := by
  obtain ⟨key, v⟩ := o
  cases v with
  | fixed s h => exact ⟨fun _ => trivial, fun _ => ⟨rfl, h⟩⟩
  | text s => exact ⟨fun h => h.2, fun h => ⟨rfl, h⟩⟩
  | path p => exact and_congr_left fun _ => toStringLossy_eq_iff p.bytes

/-- Options under proper keys are written as the grammar reads them. -/
theorem written {opts : List Opt} (h : ∀ k ∈ opts.map Prod.fst, NameText k) :
    ∀ i ∈ opts.map Opt.item, Written qemuOptions mark i := by
  intro i hi
  obtain ⟨o, ho, rfl⟩ := List.mem_map.mp hi
  obtain ⟨hne, hname⟩ := h o.1 (List.mem_map_of_mem ho)
  exact ⟨hne, List.all_eq_true.mp hname, shown_bytes o.2⟩

/-- All of them read back just if all their values are plain. -/
theorem all_exact_iff (opts : List Opt) :
    (∀ i ∈ opts.map Opt.item, Exact qemuOptions i) ↔ ∀ o ∈ opts, o.2.Plain := by
  rw [List.forall_mem_map]
  exact forall₂_congr fun o _ => exact_iff o

/-- The string of a first word and some options. -/
def optionText (w : String) (opts : List Opt) : Bytes :=
  utf8 w ++ write qemuOptions (opts.map Opt.item)

/-- What an option with a first word is to mean. -/
def optionMeant (key w : String) (opts : List Opt) : Options :=
  word key w :: opts.map fun o => (utf8 o.1, o.2.bytes)

/-- An option string of a first word and options: it is read as it is meant
    exactly when all its values are plain. -/
theorem reads_iff (key w : String) (keys : List String) (hw : NameText w)
    (hkeys : ∀ k ∈ keys, NameText k) {opts : List Opt} (h : opts.map Prod.fst = keys) :
    qemuOptions.parse (some (utf8 key)) (optionText w opts) = optionMeant key w opts
      ↔ ∀ o ∈ opts, o.2.Plain := by
  subst h
  have hmeant : optionMeant key w opts
      = (utf8 key, utf8 w) :: (opts.map Opt.item).map Item.read := by
    rw [List.map_map]
    rfl
  rw [← all_exact_iff, hmeant]
  exact parse_first_iff qemuOptions sep_not_mark (written hkeys) (utf8 key) hw.1
    (List.all_eq_true.mp hw.2)

/-! ## Section by section -/

/-- The first option of a command line is the one that was meant, and so are
    those behind it. -/
theorem filterMap_cons_iff {a : Arg} {as : List Arg} {name : String} {o o' : Options}
    {ms : List (String × Options)} (h : readOption a = some (name, o)) :
    (a :: as).filterMap readOption = (name, o') :: ms
      ↔ o = o' ∧ as.filterMap readOption = ms := by
  rw [List.filterMap_cons_some h, List.cons_eq_cons, Prod.mk.injEq]
  exact and_congr_left fun _ => ⟨fun h => h.2, fun h => ⟨rfl, h⟩⟩

/-- QEMU takes the first word of `-chardev` for the backend. -/
theorem read_chardev (v : Bytes) : readOption (.opt "-chardev" v)
    = some ("-chardev", qemuOptions.parse (some (utf8 "backend")) v) := rfl

/-- The first word of `-device` is the driver. -/
theorem read_device (v : Bytes) : readOption (.opt "-device" v)
    = some ("-device", qemuOptions.parse (some (utf8 "driver")) v) := rfl

/-- The first word of `-netdev` is its type. -/
theorem read_netdev (v : Bytes) : readOption (.opt "-netdev" v)
    = some ("-netdev", qemuOptions.parse (some (utf8 "type")) v) := rfl

/-- `-drive` has a key for everything. -/
theorem read_drive (v : Bytes) : readOption (.opt "-drive" v)
    = some ("-drive", qemuOptions.parse none v) := rfl

/-- The name of the console's backend. -/
def sercon : Opt := ("id", .fixed "sercon" (by decide +kernel))

/-- An option that is turned on. -/
def on (key : String) : Opt := (key, .fixed "on" (by decide +kernel))

/-- An option that is turned off. -/
def off (key : String) : Opt := (key, .fixed "off" (by decide +kernel))

/-- An option of a first word in front of other arguments. -/
theorem option_iff {name key : String}
    (hread : ∀ v, readOption (.opt name v) = some (name, qemuOptions.parse (some (utf8 key)) v))
    (w : String) (keys : List String) (hw : NameText w) (hkeys : ∀ k ∈ keys, NameText k)
    {opts : List Opt} (h : opts.map Prod.fst = keys) {v : Bytes} (hv : v = optionText w opts)
    {o : Options} (ho : o = optionMeant key w opts) {as : List Arg}
    {ms : List (String × Options)} :
    (.opt name v :: as).filterMap readOption = (name, o) :: ms
      ↔ (∀ o ∈ opts, o.2.Plain) ∧ as.filterMap readOption = ms := by
  subst hv ho
  rw [filterMap_cons_iff (hread _), reads_iff key w keys hw hkeys h]

/-- **THE CONSOLE** is what it was meant to be just if its path is plain. -/
theorem serial_iff (spec : QemuSpec) :
    (serialArgs spec).filterMap readOption = serialMeant spec
      ↔ (Value.path (spec.serialSocket.getD spec.serialLog)).Plain := by
  rw [serialArgs, serialMeant]
  cases hs : spec.serialSocket with
  | some sp =>
      have h1 : utf8 "socket,id=sercon,path=" = utf8 "socket" ++ 44 :: utf8 "id"
          ++ 61 :: utf8 "sercon" ++ 44 :: utf8 "path" ++ [61] := by decide +kernel
      have h2 : utf8 ",server=on,wait=off" = 44 :: utf8 "server" ++ 61 :: utf8 "on"
          ++ 44 :: utf8 "wait" ++ 61 :: utf8 "off" := by decide +kernel
      have htext : utf8 "socket,id=sercon,path=" ++ display sp ++ utf8 ",server=on,wait=off"
          = optionText "socket" [sercon, ("path", .path sp), on "server", off "wait"] := by
        rw [h1, h2]
        simp [optionText, write, Opt.item, Value.shown, qemuOptions, sercon, on, off]
      refine (option_iff read_chardev "socket" ["id", "path", "server", "wait"] (by decide +kernel)
        (by decide +kernel) rfl htext rfl).trans ?_
      refine (and_iff_left rfl).trans ?_
      simp [sercon, on, off, Value.Plain]
  | none =>
      have h1 : utf8 "file,id=sercon,path=" = utf8 "file" ++ 44 :: utf8 "id"
          ++ 61 :: utf8 "sercon" ++ 44 :: utf8 "path" ++ [61] := by decide +kernel
      have h2 : utf8 ",append=on" = 44 :: utf8 "append" ++ 61 :: utf8 "on" := by decide +kernel
      have htext : utf8 "file,id=sercon,path=" ++ display spec.serialLog ++ utf8 ",append=on"
          = optionText "file" [sercon, ("path", .path spec.serialLog), on "append"] := by
        rw [h1, h2]
        simp [optionText, write, Opt.item, Value.shown, qemuOptions, sercon, on]
      refine (option_iff read_chardev "file" ["id", "path", "append"] (by decide +kernel)
        (by decide +kernel) rfl htext rfl).trans ?_
      refine (and_iff_left rfl).trans ?_
      simp [sercon, on, Value.Plain]

/-- A `unix:` socket is read as one with a path and the two flags. -/
theorem readSocket_unix (p : PathBuf) :
    readSocket (utf8 "unix:" ++ display p ++ utf8 ",server=on,wait=off")
      = some (word "backend" "socket" :: qemuOptions.parse (some (utf8 "path"))
          (display p ++ utf8 ",server=on,wait=off")) := by
  have hunix : utf8 "unix:" = [117, 110, 105, 120, 58] := by decide +kernel
  have hpre : (utf8 "unix:").isPrefixOf (utf8 "unix:" ++ display p ++ utf8 ",server=on,wait=off")
      = true := by
    rw [List.append_assoc]
    exact List.isPrefixOf_iff_prefix.mpr (List.prefix_append _ _)
  rw [readSocket, if_pos hpre, hunix]
  rfl

/-- A path after `unix:`: an equals sign would make another option of it. -/
theorem readSocket_iff (p : PathBuf) :
    qemuOptions.parse (some (utf8 "path")) (display p ++ utf8 ",server=on,wait=off")
        = [file "path" p, word "server" "on", word "wait" "off"]
      ↔ (Value.path p).Plain ∧ 61 ∉ p.bytes := by
  have htail : utf8 ",server=on,wait=off"
      = write qemuOptions ([on "server", off "wait"].map Opt.item) := by decide +kernel
  have hkeys : ∀ k ∈ [on "server", off "wait"].map Prod.fst, NameText k := by decide +kernel
  have hwritten := written hkeys
  have hexact := (all_exact_iff [on "server", off "wait"]).mpr (by simp [on, off, Value.Plain])
  have hpath : (0xEF : UInt8) ∉ utf8 "path" := by decide +kernel
  rw [htail]
  refine (parse_implied_iff qemuOptions sep_not_mark hwritten hexact (by simp) hpath
    (by decide) (display_shown p)).trans ?_
  rw [display, toStringLossy_eq_iff, ← and_assoc]
  exact Iff.rfl

/-- What QEMU reads of the two control sockets. -/
theorem read_control (spec : QemuSpec) :
    (controlArgs spec).filterMap readOption
      = [("-qmp", word "backend" "socket" :: qemuOptions.parse (some (utf8 "path"))
            (display spec.qmpSocket ++ utf8 ",server=on,wait=off")),
          ("-monitor", word "backend" "socket" :: qemuOptions.parse (some (utf8 "path"))
            (display spec.monitorSocket ++ utf8 ",server=on,wait=off"))] := by
  have hqmp : readOption (.opt "-qmp" (utf8 "unix:" ++ display spec.qmpSocket
      ++ utf8 ",server=on,wait=off")) = _ :=
    congrArg (Option.map fun o => ("-qmp", o)) (readSocket_unix spec.qmpSocket)
  have hmonitor : readOption (.opt "-monitor" (utf8 "unix:" ++ display spec.monitorSocket
      ++ utf8 ",server=on,wait=off")) = _ :=
    congrArg (Option.map fun o => ("-monitor", o)) (readSocket_unix spec.monitorSocket)
  rw [controlArgs, List.filterMap_cons_some hqmp, List.filterMap_cons_some hmonitor]
  rfl

/-- **THE CONTROL SOCKETS** are what they were meant to be just if both paths
    are plain and hold no `=`, which would make a key of what is before it. -/
theorem control_iff (spec : QemuSpec) :
    (controlArgs spec).filterMap readOption = controlMeant spec
      ↔ ((Value.path spec.qmpSocket).Plain ∧ 61 ∉ spec.qmpSocket.bytes)
        ∧ (Value.path spec.monitorSocket).Plain ∧ 61 ∉ spec.monitorSocket.bytes := by
  rw [read_control, controlMeant, ← readSocket_iff, ← readSocket_iff]
  simp [socketMeant]

/-- What the drive says behind its file. -/
def driveFlags : List Opt :=
  [("if", .fixed "none" (by decide +kernel)), on "readonly",
    ("id", .fixed "rootfs" (by decide +kernel)), ("format", .fixed "raw" (by decide +kernel))]

/-- **THE DRIVE** is what it was meant to be just if its path is plain. -/
theorem rootfs_iff (spec : QemuSpec) :
    (rootfsArgs spec).filterMap readOption = rootfsMeant spec
      ↔ ∀ p ∈ spec.rootfs, (Value.path p).Plain := by
  rw [rootfsArgs, rootfsMeant]
  cases hs : spec.rootfs with
  | none => exact ⟨fun _ p hp => (Option.not_mem_none p hp).elim, fun _ => rfl⟩
  | some rootfs =>
      have h1 : utf8 "file=" = utf8 "file" ++ [61] := by decide +kernel
      have h2 : utf8 ",if=none,readonly=on,id=rootfs,format=raw"
          = write qemuOptions (driveFlags.map Opt.item) := by decide +kernel
      have htext : utf8 "file=" ++ display rootfs
            ++ utf8 ",if=none,readonly=on,id=rootfs,format=raw"
          = (write qemuOptions ((("file", .path rootfs) :: driveFlags).map Opt.item)).drop 1 := by
        rw [h1, h2, List.map_cons, write_cons]
        simp [Opt.item, Value.shown, qemuOptions]
      have hkeys : ∀ k ∈ (("file", Value.path rootfs) :: driveFlags).map Prod.fst, NameText k := by
        show ∀ k ∈ ["file", "if", "readonly", "id", "format"], NameText k
        decide +kernel
      have hdevice : readOption (.opt "-device" (utf8 "virtio-blk-pci,drive=rootfs,bootindex=1"))
          = some ("-device", [word "driver" "virtio-blk-pci", word "drive" "rootfs",
              word "bootindex" "1"]) := by decide +kernel
      refine (filterMap_cons_iff (read_drive _)).trans ?_
      rw [List.filterMap_cons_some hdevice, htext]
      refine (and_iff_left rfl).trans ((parse_write_iff qemuOptions sep_not_mark
        (written hkeys)).trans ((all_exact_iff _).trans ?_))
      simp [driveFlags, on, Value.Plain]

/-! ## Ports and the network -/

/-- A port whose names and whose path hold no comma. -/
def portPlain (p : SerialPort) : Prop :=
  44 ∉ utf8 p.chardevId ∧ 44 ∉ utf8 p.portName ∧ (Value.path p.socketPath).Plain

/-- **ONE PORT** is what it was meant to be just if it is plain. -/
theorem port_iff (p : SerialPort) :
    (portArgs p).filterMap readOption = portMeant p ↔ portPlain p := by
  have h1 : utf8 "socket,id=" = utf8 "socket" ++ 44 :: utf8 "id" ++ [61] := by decide +kernel
  have h2 : utf8 ",path=" = 44 :: utf8 "path" ++ [61] := by decide +kernel
  have h3 : utf8 ",server=off,reconnect=1" = 44 :: utf8 "server" ++ 61 :: utf8 "off"
      ++ 44 :: utf8 "reconnect" ++ 61 :: utf8 "1" := by decide +kernel
  have h4 : utf8 "virtserialport,chardev=" = utf8 "virtserialport" ++ 44 :: utf8 "chardev"
      ++ [61] := by decide +kernel
  have h5 : utf8 ",bus=vser0.0,name=" = 44 :: utf8 "bus" ++ 61 :: utf8 "vser0.0"
      ++ 44 :: utf8 "name" ++ [61] := by decide +kernel
  have hone : (44 : UInt8) ∉ utf8 "1" := by decide +kernel
  have hbus : (44 : UInt8) ∉ utf8 "vser0.0" := by decide +kernel
  have hchardev : utf8 "socket,id=" ++ utf8 p.chardevId ++ utf8 ",path=" ++ display p.socketPath
        ++ utf8 ",server=off,reconnect=1"
      = optionText "socket" [("id", .text p.chardevId), ("path", .path p.socketPath),
          off "server", ("reconnect", .fixed "1" hone)] := by
    rw [h1, h2, h3]
    simp [optionText, write, Opt.item, Value.shown, qemuOptions, off]
  have hdevice : utf8 "virtserialport,chardev=" ++ utf8 p.chardevId
        ++ utf8 ",bus=vser0.0,name=" ++ utf8 p.portName
      = optionText "virtserialport" [("chardev", .text p.chardevId),
          ("bus", .fixed "vser0.0" hbus), ("name", .text p.portName)] := by
    rw [h4, h5]
    simp [optionText, write, Opt.item, Value.shown, qemuOptions]
  rw [portArgs, portMeant]
  refine (option_iff read_chardev "socket" ["id", "path", "server", "reconnect"]
    (by decide +kernel) (by decide +kernel) rfl hchardev rfl).trans ?_
  refine (and_congr_right fun _ => option_iff read_device "virtserialport"
    ["chardev", "bus", "name"] (by decide +kernel) (by decide +kernel) rfl hdevice rfl).trans ?_
  simp only [portPlain, off, Value.Plain, List.forall_mem_cons, List.filterMap_nil, and_true,
    true_and]
  constructor
  · rintro ⟨⟨hid, hpath, -⟩, -, hname, -⟩
    exact ⟨hid, hname, hpath⟩
  · rintro ⟨hid, hname, hpath⟩
    exact ⟨⟨hid, hpath, fun o ho => absurd ho List.not_mem_nil⟩, hid, hname,
      fun o ho => absurd ho List.not_mem_nil⟩

/-- Ports in a row are read one by one. -/
theorem flatMap_port_iff (ports : List SerialPort) :
    (ports.flatMap portArgs).filterMap readOption = ports.flatMap portMeant
      ↔ ∀ p ∈ ports, portPlain p := by
  induction ports with
  | nil => exact ⟨fun _ p hp => absurd hp List.not_mem_nil, fun _ => rfl⟩
  | cons p ports ih =>
      have hlen : ((portArgs p).filterMap readOption).length = (portMeant p).length := rfl
      rw [List.flatMap_cons, List.flatMap_cons, List.filterMap_append, List.forall_mem_cons,
        ← port_iff, ← ih]
      constructor
      · intro h
        exact List.append_inj h hlen
      · rintro ⟨h1, h2⟩
        rw [h1, h2]

/-- **THE PORTS**, with the controller in front. -/
theorem ports_iff (spec : QemuSpec) :
    (portsArgs spec).filterMap readOption = portsMeant spec
      ↔ ∀ p ∈ spec.serialPorts, portPlain p := by
  have hbus : readOption (.opt "-device" (utf8 "virtio-serial-pci,id=vser0"))
      = some ("-device", [word "driver" "virtio-serial-pci", word "id" "vser0"]) := by
    decide +kernel
  rw [portsArgs, portsMeant, ← flatMap_port_iff]
  by_cases hempty : spec.serialPorts.isEmpty = true
  · rw [if_pos hempty, if_pos hempty, List.isEmpty_iff.mp hempty]
    exact ⟨fun _ => rfl, fun _ => rfl⟩
  · rw [if_neg hempty, if_neg hempty]
    exact (filterMap_cons_iff hbus).trans (and_iff_right rfl)

/-- A port forward is written with letters, digits, colons and a hyphen. -/
theorem hostfwd_bytes (pf : PortForward) : ∀ b ∈ utf8 (hostfwd pf), 45 ≤ b := by
  have hdigits : ∀ n : Nat, ∀ b ∈ utf8 (toString n), 45 ≤ b := fun n b hb =>
    UInt8.le_trans (by decide) (utf8_digits n b hb).1
  have hword : ∀ s : String, (utf8 s).all (fun b => decide (45 ≤ b)) = true →
      ∀ b ∈ utf8 s, 45 ≤ b := fun s h b hb => of_decide_eq_true (List.all_eq_true.mp h b hb)
  have hproto : ∀ b ∈ utf8 (Protocol.name pf.protocol), 45 ≤ b := by
    cases pf.protocol with
    | tcp => exact hword "tcp" (by decide +kernel)
    | udp => exact hword "udp" (by decide +kernel)
  have hcolons := hword "::" (by decide +kernel)
  have hhyphen := hword "-:" (by decide +kernel)
  rw [hostfwd, utf8_append, utf8_append, utf8_append, utf8_append]
  simp only [List.forall_mem_append]
  exact ⟨⟨⟨⟨hproto, hcolons⟩, hdigits _⟩, hhyphen⟩, hdigits _⟩

/-- The rule of a forwarded port holds no comma. -/
theorem hostfwd_plain (pf : PortForward) : 44 ∉ utf8 (hostfwd pf) := fun h =>
  absurd (hostfwd_bytes pf 44 h) (by decide)

/-- The rules of the forwarded ports as options. -/
def forwards (pfs : List PortForward) : List Opt :=
  pfs.map fun pf => ("hostfwd", .fixed (hostfwd pf) (hostfwd_plain pf))

/-- These options are written as the builder writes them. -/
theorem write_forwards (pfs : List PortForward) :
    write qemuOptions ((forwards pfs).map Opt.item)
      = pfs.flatMap fun pf => utf8 ",hostfwd=" ++ utf8 (hostfwd pf) := by
  have hkey : utf8 ",hostfwd=" = 44 :: utf8 "hostfwd" ++ [61] := by decide +kernel
  rw [forwards, write, List.map_map, List.flatMap_map, hkey]
  simp [Opt.item, Value.shown, qemuOptions]

/-- **THE NETWORK** is always what it was meant to be. -/
theorem network_reads (spec : QemuSpec) :
    (networkArgs spec).filterMap readOption = networkMeant spec := by
  rw [networkArgs, networkMeant]
  by_cases huser : spec.network.userMode = true
  · have hnet : (44 : UInt8) ∉ utf8 "net0" := by decide +kernel
    have h1 : utf8 "user,id=net0" = utf8 "user" ++ 44 :: utf8 "id" ++ 61 :: utf8 "net0" := by
      decide +kernel
    have htext : utf8 "user,id=net0"
          ++ spec.network.portForwards.flatMap (fun pf => utf8 ",hostfwd=" ++ utf8 (hostfwd pf))
        = optionText "user" (("id", .fixed "net0" hnet) :: forwards spec.network.portForwards) := by
      rw [optionText, List.map_cons, write_cons, write_forwards, h1]
      simp [Opt.item, Value.shown, qemuOptions]
    have hnames : NameText "id" ∧ NameText "hostfwd" := by decide +kernel
    have hkeys : ∀ k ∈ (("id", Value.fixed "net0" hnet)
        :: forwards spec.network.portForwards).map Prod.fst, NameText k := by
      intro k hk
      rw [forwards, List.map_cons, List.map_map] at hk
      rcases List.mem_cons.mp hk with rfl | hk
      · exact hnames.1
      · obtain ⟨pf, -, rfl⟩ := List.mem_map.mp hk
        exact hnames.2
    have hmeant : word "type" "user" :: word "id" "net0"
          :: spec.network.portForwards.map (fun pf => word "hostfwd" (hostfwd pf))
        = optionMeant "type" "user" (("id", .fixed "net0" hnet)
            :: forwards spec.network.portForwards) := by
      rw [optionMeant, forwards, List.map_cons, List.map_map]
      rfl
    have hdevice : readOption (.opt "-device" (utf8 "virtio-net-pci,netdev=net0"))
        = some ("-device", [word "driver" "virtio-net-pci", word "netdev" "net0"]) := by
      decide +kernel
    rw [if_pos huser, if_pos huser]
    refine (option_iff read_netdev "user" _ (by decide +kernel) hkeys rfl htext hmeant).mpr ⟨?_, ?_⟩
    · intro o ho
      rcases List.mem_cons.mp ho with rfl | ho
      · trivial
      · obtain ⟨pf, -, rfl⟩ := List.mem_map.mp ho
        trivial
    · rw [List.filterMap_cons_some hdevice]
      rfl
  · rw [if_neg huser, if_neg huser]
    rfl

/-! ## The whole command -/

/-- What must hold of the texts and paths of a spec: no comma in any, no
    equals sign in the paths that come after `unix:`, and UTF-8 paths. -/
structure PlainSpec (spec : QemuSpec) : Prop where
  serial : (Value.path (spec.serialSocket.getD spec.serialLog)).Plain
  qmp : (Value.path spec.qmpSocket).Plain ∧ 61 ∉ spec.qmpSocket.bytes
  monitor : (Value.path spec.monitorSocket).Plain ∧ 61 ∉ spec.monitorSocket.bytes
  rootfs : ∀ p ∈ spec.rootfs, (Value.path p).Plain
  ports : ∀ p ∈ spec.serialPorts, portPlain p

/-- The arguments in front are no options with keys. -/
theorem filterMap_base (spec : QemuSpec) : (baseArgs spec).filterMap readOption = [] := rfl

/-- **OPTION STRINGS**: QEMU reads what is meant exactly when the spec is plain. -/
theorem read_iff (spec : QemuSpec) :
    (buildCommand spec).args.filterMap readOption = optionsMeant spec ↔ PlainSpec spec := by
  have hsplit : (buildCommand spec).args.filterMap readOption
      = (serialArgs spec).filterMap readOption ++ ((controlArgs spec).filterMap readOption
        ++ ((rootfsArgs spec).filterMap readOption ++ ((portsArgs spec).filterMap readOption
        ++ networkMeant spec))) := by
    simp only [buildCommand, List.filterMap_append, filterMap_base, network_reads,
      List.nil_append, List.append_assoc]
  have hmeant : optionsMeant spec = serialMeant spec ++ (controlMeant spec
      ++ (rootfsMeant spec ++ (portsMeant spec ++ networkMeant spec))) := by
    simp only [optionsMeant, List.append_assoc]
  -- each section has as many options as it should, so the sections compare one by one
  have hserial : ((serialArgs spec).filterMap readOption).length = (serialMeant spec).length := by
    rw [serialArgs, serialMeant]
    cases spec.serialSocket with
    | some sp => rfl
    | none => rfl
  have hcontrol : ((controlArgs spec).filterMap readOption).length
      = (controlMeant spec).length := by
    rw [read_control]
    rfl
  have hrootfs : ((rootfsArgs spec).filterMap readOption).length = (rootfsMeant spec).length := by
    rw [rootfsArgs, rootfsMeant]
    cases spec.rootfs with
    | some rootfs => rfl
    | none => rfl
  rw [hsplit, hmeant]
  constructor
  · intro h
    obtain ⟨h1, h⟩ := List.append_inj h hserial
    obtain ⟨h2, h⟩ := List.append_inj h hcontrol
    obtain ⟨h3, h⟩ := List.append_inj h hrootfs
    have h4 := (ports_iff spec).mp (List.append_cancel_right h)
    obtain ⟨hqmp, hmonitor⟩ := (control_iff spec).mp h2
    exact ⟨(serial_iff spec).mp h1, hqmp, hmonitor, (rootfs_iff spec).mp h3, h4⟩
  · rintro ⟨h1, hqmp, hmonitor, h3, h4⟩
    rw [(serial_iff spec).mpr h1, (control_iff spec).mpr ⟨hqmp, hmonitor⟩,
      (rootfs_iff spec).mpr h3, (ports_iff spec).mpr h4]

/-! ## Commands that cannot be spawned -/

/-- A NUL in one of the texts and paths that the command is made of. -/
def NulIn (spec : QemuSpec) : Prop :=
  (∃ p ∈ [spec.qemuBin, spec.runtimeDir, spec.kernel, spec.initrd,
      spec.serialSocket.getD spec.serialLog, spec.qmpSocket, spec.monitorSocket], 0 ∈ p.bytes)
    ∨ 0 ∈ utf8 spec.cmdline
    ∨ (∃ p ∈ spec.rootfs, 0 ∈ p.bytes)
    ∨ ∃ p ∈ spec.serialPorts,
        0 ∈ utf8 p.chardevId ∨ 0 ∈ utf8 p.portName ∨ 0 ∈ p.socketPath.bytes

/-- An argument holds a NUL. -/
def anyNul (args : List Arg) : Prop := ∃ a ∈ args, ∃ b ∈ a.argv, (0 : UInt8) ∈ b

/-- Two parts of a command line hold one if either does. -/
theorem anyNul_append (as bs : List Arg) : anyNul (as ++ bs) ↔ anyNul as ∨ anyNul bs := by
  simp only [anyNul, List.mem_append, or_and_right, exists_or]

/-- The first argument holds one, or one of the others. -/
theorem anyNul_cons (a : Arg) (as : List Arg) :
    anyNul (a :: as) ↔ (∃ b ∈ a.argv, (0 : UInt8) ∈ b) ∨ anyNul as := by
  simp only [anyNul, List.mem_cons, exists_eq_or_imp]

/-- `display` neither adds a NUL nor takes one away. -/
theorem nul_display (p : PathBuf) : 0 ∈ display p ↔ 0 ∈ p.bytes :=
  mem_toStringLossy (by decide) p.bytes

/-- Where a NUL can be in a command. -/
theorem hasNul_iff (c : Command) : c.hasNul = true
    ↔ 0 ∈ c.program.bytes ∨ 0 ∈ c.currentDir.bytes ∨ anyNul c.args := by
  simp [Command.hasNul, anyNul, or_assoc]

/-- The console's arguments hold one just if its path does. -/
theorem nul_serial (spec : QemuSpec) :
    anyNul (serialArgs spec) ↔ 0 ∈ (spec.serialSocket.getD spec.serialLog).bytes := by
  have h : ∀ s ∈ ["-chardev", "socket,id=sercon,path=", ",server=on,wait=off",
      "file,id=sercon,path=", ",append=on", "-serial", "chardev:sercon"],
      (0 : UInt8) ∉ utf8 s := by decide +kernel
  simp only [List.forall_mem_cons] at h
  rw [serialArgs]
  cases spec.serialSocket with
  | some sp => simp [anyNul, Arg.argv, nul_display, h]
  | none => simp [anyNul, Arg.argv, nul_display, h]

/-- The arguments in front have the kernel, the initrd and the kernel's command
    line. -/
theorem nul_base (spec : QemuSpec) : anyNul (baseArgs spec)
    ↔ 0 ∈ spec.kernel.bytes ∨ 0 ∈ spec.initrd.bytes ∨ 0 ∈ utf8 spec.cmdline := by
  have h : ∀ s ∈ ["-enable-kvm", "-machine", "q35,accel=kvm", "-cpu", "host", "-smp", "-m",
      "-kernel", "-initrd", "-append", "-display", "none", "-nodefaults", "-no-reboot", "M"],
      (0 : UInt8) ∉ utf8 s := by decide +kernel
  simp only [List.forall_mem_cons] at h
  have hnum : ∀ n : Nat, 0 ∉ utf8 n.repr := fun n hn =>
    absurd (utf8_digits n 0 hn).1 (by decide)
  simp only [baseArgs, anyNul_cons, Arg.argv, utf8_append]
  simp [anyNul, h, hnum]

/-- The control sockets' arguments have the two paths. -/
theorem nul_control (spec : QemuSpec) : anyNul (controlArgs spec)
    ↔ 0 ∈ spec.qmpSocket.bytes ∨ 0 ∈ spec.monitorSocket.bytes := by
  have h : ∀ s ∈ ["-qmp", "unix:", ",server=on,wait=off", "-monitor"],
      (0 : UInt8) ∉ utf8 s := by decide +kernel
  simp only [List.forall_mem_cons] at h
  simp [controlArgs, anyNul, Arg.argv, nul_display, h]

/-- The drive's arguments have its file. -/
theorem nul_rootfs (spec : QemuSpec) :
    anyNul (rootfsArgs spec) ↔ ∃ p ∈ spec.rootfs, 0 ∈ p.bytes := by
  have h : ∀ s ∈ ["-drive", "file=", ",if=none,readonly=on,id=rootfs,format=raw", "-device",
      "virtio-blk-pci,drive=rootfs,bootindex=1"], (0 : UInt8) ∉ utf8 s := by decide +kernel
  simp only [List.forall_mem_cons] at h
  rw [rootfsArgs]
  cases spec.rootfs with
  | some rootfs => simp [anyNul, Arg.argv, nul_display, h]
  | none => simp [anyNul]

/-- The ports' arguments have two names and a path each. -/
theorem nul_ports (spec : QemuSpec) : anyNul (portsArgs spec)
    ↔ ∃ p ∈ spec.serialPorts, 0 ∈ utf8 p.chardevId ∨ 0 ∈ utf8 p.portName
      ∨ 0 ∈ p.socketPath.bytes := by
  have h : ∀ s ∈ ["-chardev", "socket,id=", ",path=", ",server=off,reconnect=1", "-device",
      "virtserialport,chardev=", ",bus=vser0.0,name=", "virtio-serial-pci,id=vser0"],
      (0 : UInt8) ∉ utf8 s := by decide +kernel
  simp only [List.forall_mem_cons] at h
  have hports : ∀ ports : List SerialPort, anyNul (ports.flatMap portArgs)
      ↔ ∃ p ∈ ports, 0 ∈ utf8 p.chardevId ∨ 0 ∈ utf8 p.portName ∨ 0 ∈ p.socketPath.bytes := by
    intro ports
    induction ports with
    | nil => simp [anyNul]
    | cons p ports ih =>
        rw [List.flatMap_cons, anyNul_append, ih, List.exists_mem_cons_iff]
        refine or_congr_left ?_
        simp [portArgs, anyNul, Arg.argv, nul_display, h]
        tauto
  rw [portsArgs]
  by_cases hempty : spec.serialPorts.isEmpty = true
  · rw [if_pos hempty, List.isEmpty_iff.mp hempty]
    simp [anyNul]
  · rw [if_neg hempty, anyNul_cons, hports]
    simp [Arg.argv, h]

/-- The network's arguments hold no NUL. -/
theorem nul_network (spec : QemuSpec) : ¬ anyNul (networkArgs spec) := by
  have h : ∀ s ∈ ["-netdev", "user,id=net0", ",hostfwd=", "-device",
      "virtio-net-pci,netdev=net0"], (0 : UInt8) ∉ utf8 s := by decide +kernel
  simp only [List.forall_mem_cons] at h
  have hforward : ∀ pf : PortForward, 0 ∉ utf8 (hostfwd pf) := fun pf hmem =>
    absurd (hostfwd_bytes pf 0 hmem) (by decide)
  rw [networkArgs]
  split
  · simp [anyNul, Arg.argv, h, hforward]
  · simp [anyNul]

/-- A command that was built can be passed on unless a text of its `QemuSpec`
    holds a NUL. -/
theorem hasNul_build_iff (spec : QemuSpec) :
    (buildCommand spec).hasNul = true ↔ NulIn spec := by
  rw [hasNul_iff]
  simp only [buildCommand, anyNul_append, nul_base, nul_serial, nul_control, nul_rootfs, nul_ports,
    nul_network, NulIn, List.exists_mem_cons_iff, List.not_mem_nil, false_and, exists_false]
  grind

/-! ## The result -/

/-- A command that is spawned says to QEMU what the spec means. -/
def OptionsKept (spec : QemuSpec) : Prop :=
  (buildCommand spec).hasNul = false →
    (buildCommand spec).args.filterMap readOption = optionsMeant spec

/-- The options are kept exactly when the spec is plain, or nothing is
    spawned because of a NUL. -/
theorem options_kept_iff (spec : QemuSpec) : OptionsKept spec ↔ NulIn spec ∨ PlainSpec spec := by
  rw [OptionsKept, read_iff, ← hasNul_build_iff, ← Bool.not_eq_true]
  constructor
  · intro h
    by_cases hn : (buildCommand spec).hasNul = true
    · exact Or.inl hn
    · exact Or.inr (h hn)
  · rintro (hn | hplain) hnot
    · exact absurd hn hnot
    · exact hplain

/-- A sandbox with one mount. -/
def demoTag (tag : String) : SandboxConfig Unit where
  name := "demo"
  mounts := [.hostDir "/mnt/a" .root false tag]

/-- A sandbox with one mount, of some tag. -/
def demoSpec (tag : String) : QemuSpec :=
  startSpec (demoTag tag) .root .root { kernel := .root, initrd := .root, rootfs := none }

/-- A tag with a comma: the port goes to the serial console and not to the
    server of the mount. -/
theorem comma_adds_option : ¬ OptionsKept (demoSpec "a,chardev=sercon") := by
  intro h
  have hread : ("-device", [word "driver" "virtserialport", word "chardev" "rpc0",
      word "bus" "vser0.0", word "name" "tokimo.rpc.a", word "chardev" "sercon"])
        ∈ (buildCommand (demoSpec "a,chardev=sercon")).args.filterMap readOption := by
    decide +kernel
  rw [h (by decide +kernel)] at hread
  revert hread
  decide +kernel

example : OptionsKept (demoSpec "a") := by
  intro _
  decide +kernel

end TokimoQemuOptions
