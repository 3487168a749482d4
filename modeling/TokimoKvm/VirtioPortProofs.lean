import TokimoKvm.QemuCommand
import TokimoKvm.MountCmdlineProofs

/-! # From a guest path to the file system behind it

    The agent of a mount looks for its port by name: `resolve_virtio_port`
    tries the link that `udev` makes, and else goes through sysfs and takes
    the first port whose trimmed name is the one it looks for.  The port leads
    to a chardev, the chardev to a socket, and the socket to the server of a
    mount. -/

namespace TokimoPorts

open TokimoPath TokimoMount TokimoSandbox TokimoShell TokimoCmdline TokimoQemu

variable {σ : Type}

/-! ## The guest -/

/-- The paths of ports: one that was given, `/dev/virtio-ports/<name>`, and
    `/dev/<entry>`. -/
inductive PortPath where
  | given (path : String)
  | byName (name : String)
  | dev (entry : String)
  deriving DecidableEq, Repr

/-- What the agent finds in the guest. -/
structure GuestPorts where
  /-- The port that a path opens, if there is something at the path. -/
  opens : PortPath → Option Nat
  /-- The entries of `/sys/class/virtio-ports` as they are listed, with what
      their `name` files hold where they can be read. -/
  sysfs : List (String × Option String)

/-- `char::is_whitespace`. -/
def isWhite (c : Char) : Bool :=
  decide (9 ≤ c.toNat ∧ c.toNat ≤ 13 ∨ c.toNat = 32 ∨ c.toNat = 133 ∨ c.toNat = 160
    ∨ c.toNat = 5760 ∨ 8192 ≤ c.toNat ∧ c.toNat ≤ 8202 ∨ c.toNat = 8232 ∨ c.toNat = 8233
    ∨ c.toNat = 8239 ∨ c.toNat = 8287 ∨ c.toNat = 12288)

/-- `str::trim`. -/
def trim (s : Text) : Text := (s.dropWhile isWhite).rdropWhile isWhite

/-- `resolve_virtio_port`. -/
def resolveVirtioPort (g : GuestPorts) (portName : Text) : Option PortPath :=
  if portName.head? = some '/' then
    if (g.opens (.given (String.ofList portName))).isSome then
      some (.given (String.ofList portName))
    else none
  else if (g.opens (.byName (String.ofList portName))).isSome then
    some (.byName (String.ofList portName))
  else
    (g.sysfs.find? fun e =>
      match e.2 with
      | some name => trim name.toList == portName && (g.opens (.dev e.1)).isSome
      | none => false).map fun e => .dev e.1

/-- The port name `tokimo-init` gives to the agent of a pair. -/
def agentPort (pair : Text × Text) : Text := "tokimo.rpc.".toList ++ pair.1

/-- What the guest has when QEMU exposes the ports under their names: the
    name of an entry is that of the port its device opens, with a line end,
    and a link by name leads to a port of that name. -/
structure Exposed (ports : List SerialPort) (g : GuestPorts) : Prop where
  sysfs : ∀ e name j, (e, some name) ∈ g.sysfs → g.opens (.dev e) = some j →
    ∃ p, ports[j]? = some p ∧ name = p.portName ++ "\n"
  byName : ∀ name j, g.opens (.byName name) = some j →
    ∃ p, ports[j]? = some p ∧ p.portName = name

/-- All ports have appeared. -/
def AllThere (ports : List SerialPort) (g : GuestPorts) : Prop :=
  ∀ j < ports.length, ∃ e name, (e, some name) ∈ g.sysfs ∧ g.opens (.dev e) = some j

/-! ## The host -/

/-- The mount whose server is bound at a path: the loop of `start` binds one
    after the other. -/
def boundAt (root : PathBuf) (n : Nat) (path : PathBuf) : Option Nat :=
  (List.range n).reverse.find? fun i => decide ((RtFile.rpcSock i).path root = path)

/-- The mount that is served at port `j`: by its chardev, the socket of that,
    and the server there. -/
def mountAt (root : PathBuf) (ports : List SerialPort) (j : Nat) : Option Nat :=
  ports[j]?.bind fun p =>
    (ports.find? fun q => decide (q.chardevId = p.chardevId)).bind fun q =>
      boundAt root ports.length q.socketPath

/-- The ports are those of the mounts, in order. -/
theorem getElem?_serialPorts {root : PathBuf} {mounts : List (MountSpec σ)} {j : Nat}
    {p : SerialPort} (h : (serialPorts root mounts)[j]? = some p) :
    ∃ m, mounts[j]? = some m ∧ p = .ofMount root j m := by
  rw [serialPorts, List.getElem?_mapIdx] at h
  obtain ⟨m, hm, hp⟩ := Option.map_eq_some_iff.mp h
  exact ⟨m, hm, hp.symm⟩

/-- There is one for each. -/
theorem length_serialPorts (root : PathBuf) (mounts : List (MountSpec σ)) :
    (serialPorts root mounts).length = mounts.length := List.length_mapIdx

/-- No two have the same chardev. -/
theorem chardevId_inj {root : PathBuf} {i j : Nat} {m m' : MountSpec σ}
    (h : (SerialPort.ofMount root i m).chardevId = (SerialPort.ofMount root j m').chardevId) :
    i = j := by
  have hl := congrArg String.toList h
  simp only [SerialPort.ofMount, String.toList_append, List.append_cancel_left_eq] at hl
  exact toString_inj hl

/-- Each socket has its own server. -/
theorem boundAt_rpcSock {root : PathBuf} {n j : Nat} (hj : j < n) :
    boundAt root n ((RtFile.rpcSock j).path root) = some j := by
  rw [boundAt]
  cases hf : (List.range n).reverse.find?
      fun i => decide ((RtFile.rpcSock i).path root = (RtFile.rpcSock j).path root) with
  | none =>
      have h := List.find?_eq_none.mp hf j (List.mem_reverse.mpr (List.mem_range.mpr hj))
      exact absurd (decide_eq_true rfl) h
  | some i =>
      have hd := List.find?_some hf
      have h := of_decide_eq_true hd
      rw [RtFile.rpcSock.inj (RtFile.path_inj h)]

/-- The chain from a port to its mount: each of the namings is one-to-one. -/
theorem mountAt_serialPorts {root : PathBuf} {mounts : List (MountSpec σ)} {j : Nat}
    (hj : j < mounts.length) : mountAt root (serialPorts root mounts) j = some j := by
  have hlen : j < (serialPorts root mounts).length := by
    rw [length_serialPorts]
    exact hj
  have hp := List.getElem?_eq_getElem hlen
  obtain ⟨m, hm, hpm⟩ := getElem?_serialPorts hp
  rw [mountAt, hp, Option.bind_some]
  cases hf : (serialPorts root mounts).find?
      fun q => decide (q.chardevId = (serialPorts root mounts)[j].chardevId) with
  | none =>
      have h := List.find?_eq_none.mp hf _ (List.getElem_mem hlen)
      exact absurd (decide_eq_true rfl) h
  | some q =>
      -- a chardev of that name is the port's own
      have hd := List.find?_some hf
      have hid := of_decide_eq_true hd
      obtain ⟨i, hi⟩ := List.mem_iff_getElem?.mp (List.mem_of_find?_eq_some hf)
      obtain ⟨m', -, hq⟩ := getElem?_serialPorts hi
      rw [hq, hpm] at hid
      have hij := chardevId_inj hid
      rw [Option.bind_some, hq, hij, length_serialPorts]
      exact boundAt_rpcSock hj

/-! ## Names -/

/-- The name of a mount's port, in characters. -/
def portText (m : MountSpec σ) : Text := "tokimo.rpc.".toList ++ m.tag.toList

/-- The host gives it that name. -/
theorem portName_toList (root : PathBuf) (i : Nat) (m : MountSpec σ) :
    (SerialPort.ofMount root i m).portName.toList = portText m := String.toList_append

/-- It begins with a letter. -/
theorem portText_cons (m : MountSpec σ) :
    portText m = 't' :: ("okimo.rpc.".toList ++ m.tag.toList) := rfl

/-- Two mounts with one port name have one tag. -/
theorem portText_inj {m m' : MountSpec σ} (h : portText m = portText m') : m.tag = m'.tag :=
  String.toList_inj.mp (List.append_cancel_left h)

/-- What the agent sees of a name in sysfs. -/
theorem trim_portText (m : MountSpec σ) :
    trim (portText m ++ ['\n']) = (portText m).rdropWhile isWhite := by
  have hhead : (portText m ++ ['\n']).dropWhile isWhite = portText m ++ ['\n'] := by
    rw [portText_cons, List.cons_append]
    exact List.dropWhile_cons_of_neg (by decide)
  rw [trim, hhead]
  exact List.rdropWhile_concat_pos _ _ _ (by decide)

/-- Trimming leaves the name as it is when its tag does not end in white
    space. -/
theorem rdropWhile_portText (m : MountSpec σ) :
    (portText m).rdropWhile isWhite = portText m
      ↔ ∀ c, m.tag.toList.getLast? = some c → isWhite c = false := by
  rw [List.rdropWhile_eq_self_iff]
  have hne : portText m ≠ [] := by
    rw [portText_cons]
    exact List.cons_ne_nil _ _
  have hlast : (portText m).getLast? = m.tag.toList.getLast?.or (some '.') := by
    have hdot : "tokimo.rpc.".toList.getLast? = some '.' := by decide
    have happ : (portText m).getLast?
        = m.tag.toList.getLast?.or "tokimo.rpc.".toList.getLast? := List.getLast?_append
    exact happ.trans (congrArg (m.tag.toList.getLast?.or ·) hdot)
  rw [List.getLast?_eq_some_getLast hne] at hlast
  constructor
  · intro h c hc
    rw [hc, Option.some_or] at hlast
    have hw := h hne
    rw [Option.some.inj hlast] at hw
    exact Bool.not_eq_true _ ▸ hw
  · intro h _
    cases hc : m.tag.toList.getLast? with
    | some c =>
        rw [hc, Option.some_or] at hlast
        rw [Option.some.inj hlast, h c hc]
        exact Bool.false_ne_true
    | none =>
        rw [hc, Option.none_or] at hlast
        rw [Option.some.inj hlast]
        decide

/-! ## What is found -/

/-- It is no absolute path. -/
theorem head_portText (m : MountSpec σ) : ¬ (portText m).head? = some '/' := by
  rw [portText_cons, List.head?_cons]
  decide

/-- A port is found by its link or in sysfs. -/
theorem resolve_cases {g : GuestPorts} {m : MountSpec σ} {path : PortPath}
    (h : resolveVirtioPort g (portText m) = some path) :
    (path = .byName (String.ofList (portText m)) ∧ (g.opens path).isSome)
      ∨ ∃ e name, path = .dev e ∧ (e, some name) ∈ g.sysfs ∧ trim name.toList = portText m
        ∧ (g.opens path).isSome := by
  rw [resolveVirtioPort, if_neg (head_portText m)] at h
  split at h
  · rename_i hopen
    rw [← Option.some.inj h]
    exact Or.inl ⟨rfl, hopen⟩
  · obtain ⟨⟨e, content⟩, hf, hpath⟩ := Option.map_eq_some_iff.mp h
    have hmem := List.mem_of_find?_eq_some hf
    have hp := List.find?_some hf
    cases content with
    | none => cases hp
    | some name =>
        obtain ⟨htrim, hopen⟩ := Bool.and_eq_true_iff.mp hp
        rw [← hpath]
        exact Or.inr ⟨e, name, rfl, hmem, beq_iff_eq.mp htrim, hopen⟩

/-- A port whose name is read as the agent's is found. -/
theorem resolve_isSome {g : GuestPorts} {m : MountSpec σ} {e name : String}
    (hmem : (e, some name) ∈ g.sysfs) (htrim : trim name.toList = portText m)
    (hopen : (g.opens (.dev e)).isSome) : (resolveVirtioPort g (portText m)).isSome := by
  rw [resolveVirtioPort, if_neg (head_portText m)]
  split
  · rfl
  · rw [Option.isSome_map, List.find?_isSome]
    refine ⟨(e, some name), hmem, ?_⟩
    exact Bool.and_eq_true_iff.mpr ⟨beq_iff_eq.mpr htrim, hopen⟩

/-! ## Guests that settle the matter -/

/-- The entry of a port. -/
def portEntry (j : Nat) : String := "vport1p" ++ toString (j + 1)

/-- No two ports have the same. -/
theorem portEntry_inj {i j : Nat} (h : portEntry i = portEntry j) : i = j := by
  have hl := congrArg String.toList h
  simp only [portEntry, String.toList_append, List.append_cancel_left_eq] at hl
  exact Nat.succ.inj (toString_inj hl)

/-- All ports are there, and no `udev` is. -/
def fullGuest (ports : List SerialPort) : GuestPorts where
  opens
    | .dev e => (List.range ports.length).find? fun j => decide (portEntry j = e)
    | _ => none
  sysfs := ports.mapIdx fun j p => (portEntry j, some (p.portName ++ "\n"))

/-- The device of an entry opens its port. -/
theorem fullGuest_opens {ports : List SerialPort} {i j : Nat} :
    (fullGuest ports).opens (.dev (portEntry i)) = some j ↔ i = j ∧ i < ports.length := by
  show (List.range ports.length).find? (fun k => decide (portEntry k = portEntry i)) = some j ↔ _
  constructor
  · intro h
    have hd := List.find?_some h
    have hji := portEntry_inj (of_decide_eq_true hd)
    have hmem := List.mem_range.mp (List.mem_of_find?_eq_some h)
    exact ⟨hji.symm, hji ▸ hmem⟩
  · rintro ⟨rfl, hi⟩
    cases hf : (List.range ports.length).find? fun k => decide (portEntry k = portEntry i) with
    | none =>
        have h := List.find?_eq_none.mp hf i (List.mem_range.mpr hi)
        exact absurd (decide_eq_true rfl) h
    | some k =>
        have hd := List.find?_some hf
        rw [portEntry_inj (of_decide_eq_true hd)]

/-- The entries are those of the ports, with their names. -/
theorem mem_fullGuest {ports : List SerialPort} {e name : String} :
    (e, some name) ∈ (fullGuest ports).sysfs
      ↔ ∃ j p, ports[j]? = some p ∧ e = portEntry j ∧ name = p.portName ++ "\n" := by
  show (e, some name) ∈ ports.mapIdx (fun j p => (portEntry j, some (p.portName ++ "\n"))) ↔ _
  rw [List.mem_iff_getElem?]
  constructor
  · rintro ⟨j, hj⟩
    rw [List.getElem?_mapIdx] at hj
    obtain ⟨p, hp, heq⟩ := Option.map_eq_some_iff.mp hj
    obtain ⟨rfl, hname⟩ := Prod.mk.inj heq
    exact ⟨j, p, hp, rfl, (Option.some.inj hname).symm⟩
  · rintro ⟨j, p, hp, rfl, rfl⟩
    refine ⟨j, ?_⟩
    rw [List.getElem?_mapIdx, hp]
    rfl

/-- The ports are exposed under their names. -/
theorem fullGuest_exposed (ports : List SerialPort) : Exposed ports (fullGuest ports) where
  sysfs e name j hmem hopen := by
    obtain ⟨i, p, hp, rfl, rfl⟩ := mem_fullGuest.mp hmem
    obtain ⟨rfl, -⟩ := fullGuest_opens.mp hopen
    exact ⟨p, hp, rfl⟩
  byName name j h := nomatch h

/-- And all of them are there. -/
theorem fullGuest_allThere (ports : List SerialPort) : AllThere ports (fullGuest ports) := by
  intro j hj
  exact ⟨portEntry j, _, mem_fullGuest.mpr ⟨j, _, List.getElem?_eq_getElem hj, rfl, rfl⟩,
    fullGuest_opens.mpr ⟨rfl, hj⟩⟩

/-- Only the port `i` has appeared so far. -/
def earlyGuest (p : SerialPort) (i : Nat) : GuestPorts where
  opens
    | .dev _ => some i
    | _ => none
  sysfs := [(portEntry i, some (p.portName ++ "\n"))]

/-- A single port is exposed under its name. -/
theorem earlyGuest_exposed {ports : List SerialPort} {p : SerialPort} {i : Nat}
    (hp : ports[i]? = some p) : Exposed ports (earlyGuest p i) where
  sysfs e name j hmem hopen := by
    obtain ⟨-, hname⟩ := Prod.mk.inj (List.mem_singleton.mp hmem)
    have hj : i = j := Option.some.inj hopen
    exact ⟨p, hj ▸ hp, Option.some.inj hname⟩
  byName name j h := nomatch h

/-! ## Each guest path has the file system of its own mount -/

/-- The agent of each pair comes to the port at which the mount of the same
    index is served, and to no other, whatever ports are there; and once all
    are, it comes to one. -/
def Routed (root : PathBuf) (config : SandboxConfig σ) (pairs : List (Text × Text)) : Prop :=
  ∀ i pair, pairs[i]? = some pair → ∀ g, Exposed (serialPorts root config.mounts) g →
    (∀ path, resolveVirtioPort g (agentPort pair) = some path → ∃ j, g.opens path = some j
        ∧ mountAt root (serialPorts root config.mounts) j = some i)
      ∧ (AllThere (serialPorts root config.mounts) g →
        (resolveVirtioPort g (agentPort pair)).isSome)

/-- The pairs are those of the mounts, in order. -/
theorem getElem?_configured {config : SandboxConfig σ} {i : Nat} {pair : Text × Text} :
    (configured config)[i]? = some pair ↔ ∃ m, config.mounts[i]? = some m
      ∧ pair = (m.tag.toList, m.guestPath.toList) := by
  rw [configured, cmdlineMounts, List.map_map, List.getElem?_map, Option.map_eq_some_iff]
  constructor
  · rintro ⟨m, hm, rfl⟩
    exact ⟨m, hm, rfl⟩
  · rintro ⟨m, hm, rfl⟩
    exact ⟨m, hm, rfl⟩

/-- **EACH MOUNT IS ROUTED TO ITS OWN FILE SYSTEM**: when the guest has
    recovered the list of pairs, each agent comes to the port of its own mount
    if and only if the tags are pairwise different and none ends in white
    space. -/
theorem mounts_routed_iff (p : Patterns) (g : Files) (config : SandboxConfig σ)
    (image : ImagePaths) (root : PathBuf)
    (hrec : initMounts p g (initArgs p g (procCmdline (startCmdline config image))).mountsArg
      = configured config) :
    Routed root config
        (initMounts p g (initArgs p g (procCmdline (startCmdline config image))).mountsArg)
      ↔ (config.mounts.map MountSpec.tag).Nodup
        ∧ ∀ m ∈ config.mounts, ∀ c, m.tag.toList.getLast? = some c → isWhite c = false := by
  rw [hrec]
  constructor
  · intro hrouted
    have hwhite : ∀ m ∈ config.mounts, ∀ c, m.tag.toList.getLast? = some c →
        isWhite c = false := by
      intro m hm
      obtain ⟨i, hi⟩ := List.mem_iff_getElem?.mp hm
      -- with all ports there, the agent finds a name that is trimmed
      have hsome := (hrouted i _ (getElem?_configured.mpr ⟨m, hi, rfl⟩) (fullGuest _)
        (fullGuest_exposed _)).2 (fullGuest_allThere _)
      obtain ⟨path, hpath⟩ := Option.isSome_iff_exists.mp hsome
      rcases resolve_cases hpath with ⟨rfl, hopen⟩ | ⟨e, name, rfl, hmem, htrim, -⟩
      · exact nomatch hopen
      · obtain ⟨j, q, hq, -, rfl⟩ := mem_fullGuest.mp hmem
        obtain ⟨m', -, rfl⟩ := getElem?_serialPorts hq
        rw [String.toList_append, portName_toList] at htrim
        have htrim' := (trim_portText m').symm.trans htrim
        rw [← rdropWhile_portText, ← htrim', List.rdropWhile_idempotent]
    refine ⟨?_, hwhite⟩
    rw [List.nodup_iff_pairwise_ne, List.pairwise_iff_getElem]
    intro i j hi hj hij heq
    rw [List.length_map] at hi hj
    rw [List.getElem_map, List.getElem_map] at heq
    -- the second agent, with the first port there only
    have hmi := List.getElem?_eq_getElem hi
    have hmj := List.getElem?_eq_getElem hj
    have hport : (serialPorts root config.mounts)[i]?
        = some (.ofMount root i config.mounts[i]) := by
      rw [serialPorts, List.getElem?_mapIdx, hmi]
      rfl
    have htext : portText config.mounts[i] = portText config.mounts[j] :=
      congrArg (fun tag : String => "tokimo.rpc.".toList ++ tag.toList) heq
    have hfound : (resolveVirtioPort (earlyGuest (.ofMount root i config.mounts[i]) i)
        (portText config.mounts[j])).isSome := by
      have htrim : trim ((SerialPort.ofMount root i config.mounts[i]).portName ++ "\n").toList
          = portText config.mounts[j] := by
        rw [String.toList_append, portName_toList, ← htext]
        exact (trim_portText _).trans
          ((rdropWhile_portText _).mpr (hwhite _ (List.getElem_mem hi)))
      exact resolve_isSome (e := portEntry i) (List.mem_cons_self ..) htrim rfl
    obtain ⟨path, hpath⟩ := Option.isSome_iff_exists.mp hfound
    obtain ⟨k, hopen, hmount⟩ := (hrouted j _ (getElem?_configured.mpr ⟨_, hmj, rfl⟩) _
      (earlyGuest_exposed hport)).1 path hpath
    have hk : k = i := by
      rcases resolve_cases hpath with ⟨rfl, hno⟩ | ⟨e, name, rfl, -, -, -⟩
      · exact nomatch hno
      · exact (Option.some.inj hopen).symm
    rw [hk, mountAt_serialPorts hi] at hmount
    exact absurd (Option.some.inj hmount) (Nat.ne_of_lt hij)
  · rintro ⟨hnodup, hwhite⟩ i pair hpair g hexp
    obtain ⟨m, hm, rfl⟩ := getElem?_configured.mp hpair
    have hi := (List.getElem?_eq_some_iff.mp hm).1
    -- a port with the name of the mount is its own
    have hown : ∀ {j : Nat} {q : SerialPort}, (serialPorts root config.mounts)[j]? = some q →
        q.portName.toList = portText m → j = i := by
      intro j q hq hname
      obtain ⟨m', hm', rfl⟩ := getElem?_serialPorts hq
      rw [portName_toList] at hname
      have htag := portText_inj hname
      have hj := (List.getElem?_eq_some_iff.mp hm').1
      have htags : (config.mounts.map MountSpec.tag)[j]?
          = (config.mounts.map MountSpec.tag)[i]? := by
        rw [List.getElem?_map, List.getElem?_map, hm', hm, Option.map_some, Option.map_some, htag]
      exact (List.getElem?_inj (by rw [List.length_map]; exact hj) hnodup).mp htags
    have htrimmed : ∀ {j : Nat} {q : SerialPort}, (serialPorts root config.mounts)[j]? = some q →
        trim (q.portName ++ "\n").toList = q.portName.toList := by
      intro j q hq
      obtain ⟨m', hm', rfl⟩ := getElem?_serialPorts hq
      rw [String.toList_append, portName_toList]
      exact (trim_portText m').trans
        ((rdropWhile_portText m').mpr (hwhite m' (List.mem_of_getElem? hm')))
    constructor
    · intro path hpath
      rcases resolve_cases hpath with ⟨rfl, hopen⟩ | ⟨e, name, rfl, hmem, htrim, hopen⟩
      · obtain ⟨j, hj⟩ := Option.isSome_iff_exists.mp hopen
        obtain ⟨q, hq, hname⟩ := hexp.byName _ j hj
        have hji := hown hq (by rw [hname, String.toList_ofList])
        exact ⟨j, hj, hji ▸ mountAt_serialPorts (hji ▸ hi)⟩
      · obtain ⟨j, hj⟩ := Option.isSome_iff_exists.mp hopen
        obtain ⟨q, hq, rfl⟩ := hexp.sysfs e name j hmem hj
        have hji := hown hq ((htrimmed hq).symm.trans htrim)
        exact ⟨j, hj, hji ▸ mountAt_serialPorts (hji ▸ hi)⟩
    · intro hall
      obtain ⟨e, name, hmem, hopen⟩ := hall i (by rw [length_serialPorts]; exact hi)
      obtain ⟨q, hq, rfl⟩ := hexp.sysfs e name i hmem hopen
      refine resolve_isSome hmem ?_ (by rw [hopen]; rfl)
      rw [htrimmed hq]
      obtain ⟨m', hm', rfl⟩ := getElem?_serialPorts hq
      rw [portName_toList, Option.some.inj (hm'.symm.trans hm)]

/-- Two mounts with the given tags. -/
def demoTags (tag tag' : String) : SandboxConfig Unit where
  name := "demo"
  mounts := [.hostDir "/mnt/a" .root false tag, .hostDir "/mnt/b" .root false tag']

/-- Both ports are there, the second is listed first. -/
def secondFirst : GuestPorts where
  opens
    | .dev e => if e = "vport1p1" then some 0 else if e = "vport1p2" then some 1 else none
    | _ => none
  sysfs := [("vport1p2", some "tokimo.rpc.a\u00a0\n"), ("vport1p1", some "tokimo.rpc.a\n")]

/-- The second tag ends in a no-break space, which the guest's parser keeps
    and the agent trims: the agent of `a` comes to the port of the other. -/
theorem padded_tag_misroutes :
    ¬ (initMounts .special .none (initArgs .special .none
        (procCmdline (startCmdline (demoTags "a" "a\u00a0") demoImage))).mountsArg
          = configured (demoTags "a" "a\u00a0") →
      Routed .root (demoTags "a" "a\u00a0") (initMounts .special .none (initArgs .special .none
        (procCmdline (startCmdline (demoTags "a" "a\u00a0") demoImage))).mountsArg)) := by
  intro h
  have hrec : initMounts .special .none (initArgs .special .none
      (procCmdline (startCmdline (demoTags "a" "a\u00a0") demoImage))).mountsArg
        = configured (demoTags "a" "a\u00a0") := by
    decide +kernel
  have hrouted := h hrec
  rw [hrec] at hrouted
  have hexp : Exposed (serialPorts .root (demoTags "a" "a\u00a0").mounts) secondFirst := by
    constructor
    · intro e name j hmem hopen
      rcases List.mem_cons.mp hmem with heq | hmem
      · obtain ⟨rfl, hname⟩ := Prod.mk.inj heq
        have hj : some 1 = some j := hopen
        rw [← Option.some.inj hj]
        refine ⟨.ofMount .root 1 (.hostDir "/mnt/b" .root false "a\u00a0" : MountSpec Unit), rfl,
          ?_⟩
        exact (Option.some.inj hname).trans (by decide +kernel)
      · obtain ⟨rfl, hname⟩ := Prod.mk.inj (List.mem_singleton.mp hmem)
        have hj : some 0 = some j := hopen
        rw [← Option.some.inj hj]
        refine ⟨.ofMount .root 0 (.hostDir "/mnt/a" .root false "a" : MountSpec Unit), rfl, ?_⟩
        exact (Option.some.inj hname).trans (by decide +kernel)
    · intro name j hopen
      exact nomatch hopen
  obtain ⟨j, hopen, hmount⟩ := (hrouted 0 ("a".toList, "/mnt/a".toList) (by decide +kernel)
    secondFirst hexp).1 (.dev "vport1p2") (by decide +kernel)
  have hj : some 1 = some j := hopen
  rw [← Option.some.inj hj, mountAt_serialPorts (by decide)] at hmount
  exact absurd (Option.some.inj hmount) (by decide)

/-- Tags that differ and end in letters. -/
theorem plain_tags_routed :
    Routed .root (demoTags "a" "b") (initMounts .special .none (initArgs .special .none
      (procCmdline (startCmdline (demoTags "a" "b") demoImage))).mountsArg) :=
  (mounts_routed_iff .special .none (demoTags "a" "b") demoImage .root (by decide +kernel)).mpr
    ⟨by decide, by
      intro m hm c hc
      rcases List.mem_cons.mp hm with rfl | hm
      · rw [← Option.some.inj hc]
        decide
      · rw [List.mem_singleton.mp hm] at hc
        rw [← Option.some.inj hc]
        decide⟩

end TokimoPorts
