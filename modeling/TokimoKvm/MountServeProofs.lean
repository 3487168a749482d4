import TokimoKvm.GatedCallProofs
import TokimoKvm.MountTreeProofs

/-! # `HostFs` serves the tree of a mount — the operations

    What each operation of `HostFs` does to a host that holds the tree of a
    mount: it answers as the tree does, and the host goes on holding what the
    tree became.  An operation looks its path up, or enters the directory
    the path is in; either is done once for all operations. -/

namespace TokimoMountTree

open TokimoMachine TokimoBytes TokimoPath TokimoTable TokimoVfsCore TokimoHost TokimoHostFs
  TokimoFileTree

variable {fs : HostFs} {r : Loc} {s s' s'' : HostState} {v v' v'' : MountTree} {p q : PathBuf}
  {ns init : List Name} {n : Name}

/-! ## From one state of the host to the next -/

/-- The host goes on holding the tree, and outside nothing happened. -/
structure Follows (r : Loc) (s s' : HostState) (v : MountTree) : Prop where
  mounted : Mounted r s' v
  outside : ∀ l, ¬ r <+: l → s'.tree.get l = s.tree.get l
  touched : ∀ l ∈ s'.touched, l ∈ s.touched ∨ r <+: l

/-- Where nothing happened the host holds its tree. -/
theorem Follows.keep (hm : Mounted r s v) : Follows r s s v :=
  ⟨hm, fun _ _ => rfl, fun _ hl => Or.inl hl⟩

/-- One step behind the other. -/
theorem Follows.trans (h : Follows r s s' v) (h' : Follows r s' s'' v') : Follows r s s'' v' := by
  refine ⟨h'.mounted, fun l hl => (h'.outside l hl).trans (h.outside l hl), fun l hl => ?_⟩
  rcases h'.touched l hl with hmem | hin
  · exact h.touched l hmem
  · exact Or.inr hin

/-- Acting on something below the root is allowed. -/
theorem Follows.touch (h : Follows r s s' v) {ls : List Loc} (hls : ∀ l ∈ ls, r <+: l) :
    Follows r s (s'.touch ls) v := by
  refine ⟨?_, h.outside, fun l hl => ?_⟩
  · obtain ⟨hhost, hkeys, hrooted, hmir, hapart⟩ := h.mounted
    exact ⟨⟨hhost.tree, hhost.cwd⟩, hkeys, hrooted, hmir, hapart⟩
  · rcases List.mem_append.mp hl with hl | hl
    · exact h.touched l hl
    · exact Or.inr (hls l hl)

/-- A change below the root that leaves a rooted tree there. -/
theorem Mounted.follows (hm : Mounted r s v) (hv : Rooted v')
    (hmir : ∀ ns, nodeAt s'.tree (r ++ ns) = (v' ns).map node)
    (hout : ∀ l, ¬ r <+: l → s'.tree.get l = s.tree.get l)
    (hkeys : (s'.tree.map Prod.fst).Nodup) (hcwd : s'.cwd = s.cwd)
    (ht : s'.touched = s.touched) : Follows r s s' v' := by
  have hnode : ∀ l, ¬ r <+: l → nodeAt s'.tree l = nodeAt s.tree l := by
    intro l hl
    rw [nodeAt, hout l hl]
    rfl
  have htop : nodeAt s'.tree r = some .dir := by
    have h := hmir []
    rw [List.append_nil, hv.root] at h
    exact h
  refine ⟨⟨⟨⟨?_, ?_⟩, ?_⟩, hkeys, hv, hmir, by rw [hcwd]; exact hm.apart⟩, hout, ?_⟩
  · by_cases hr : r <+: []
    · rw [List.prefix_nil.mp hr] at htop
      exact htop
    · rw [hnode _ hr]
      exact hm.host.tree.root
  · intro l m hne
    by_cases hl : r <+: l
    · obtain ⟨ns, rfl⟩ := hl
      rw [List.append_assoc, hmir] at hne
      have hdir := hv.parent ns m fun hnone => hne (by rw [hnone]; rfl)
      rw [hmir, hdir]
      rfl
    · rw [hnode l hl]
      by_cases hl' : r <+: l ++ [m]
      · -- the root itself, whose directory is as it was
        rcases List.prefix_concat_iff.mp hl' with heq | hin
        · refine hm.host.tree.parent l m ?_
          rw [← heq, hm.root]
          exact Option.some_ne_none _
        · exact absurd hin hl
      · rw [hnode _ hl'] at hne
        exact hm.host.tree.parent l m hne
  · rw [hcwd, hnode _ hm.apart]
    exact hm.host.cwd
  · intro l hl
    rw [ht] at hl
    exact Or.inl hl

/-- A place below the root is none outside of it. -/
theorem ne_outside {l : Loc} (hl : ¬ r <+: l) (ns : List Name) : r ++ ns ≠ l :=
  fun heq => hl ⟨ns, heq⟩

/-- An object is put somewhere below the root. -/
theorem Mounted.inserted (hm : Mounted r s v) {e : Entry Bytes} (hv : Rooted (put v ns e))
    {i : Inode} (hi : i.node = node e) (ht : s'.tree = s.tree.insert (r ++ ns) i)
    (hcwd : s'.cwd = s.cwd) (htouched : s'.touched = s.touched) :
    Follows r s s' (put v ns e) := by
  refine hm.follows hv ?_ ?_ ?_ hcwd htouched
  · intro ms
    rw [ht, nodeAt_insert, put, hi]
    by_cases hms : ns = ms
    · rw [if_pos (by rw [hms]), if_pos hms]
      rfl
    · rw [if_neg (fun h => hms (List.append_cancel_left h)), if_neg hms]
      exact hm.mirrors ms
  · intro l hl
    rw [ht, Table.get_insert_ne _ _ (ne_outside hl ns)]
  · rw [ht]
    exact Table.insert_nodup hm.keys _ _

/-- The place of an entry is below the root. -/
theorem below_self (ns : List Name) : ∀ l ∈ [r ++ ns], r <+: l := by
  intro l hl
  rw [List.mem_singleton.mp hl]
  exact List.prefix_append r ns

/-- So is that of an entry in a directory of the mount. -/
theorem below_name (init : List Name) (n : Name) : ∀ l ∈ [r ++ init ++ [n]], r <+: l := by
  rw [List.append_assoc]
  exact below_self _

/-- A new object in a directory of the mount. -/
theorem Mounted.added (hm : Mounted r s v) (hdir : v init = some .dir) (hn : v (init ++ [n]) = none)
    (e : Entry Bytes) (mode : Nat) :
    Follows r s ((s.addNode (r ++ init ++ [n]) (node e) mode).touch [r ++ init ++ [n]])
      (put v (init ++ [n]) e) := by
  have hrooted : Rooted (put v (init ++ [n]) e) :=
    hm.rooted.put hdir (by rw [hn]; exact fun h => nomatch h) e
  rw [List.append_assoc]
  have hput : Follows r s (s.addNode (r ++ (init ++ [n])) (node e) mode) (put v (init ++ [n]) e) :=
    hm.inserted hrooted rfl rfl rfl rfl
  exact hput.touch (below_self _)

/-- An entry is taken away below the root. -/
theorem Mounted.erased (hm : Mounted r s v) (hv : Rooted (erase v ns)) :
    Follows r s (s.setTree (s.tree.erase (r ++ ns))) (erase v ns) := by
  refine hm.follows hv ?_ ?_ (Table.filter_nodup hm.keys _) rfl rfl
  · intro ms
    rw [HostState.setTree_tree, nodeAt, Table.get_erase, erase]
    by_cases hms : ns = ms
    · rw [if_pos (by rw [hms]), if_pos hms]
      rfl
    · rw [if_neg (fun h => hms (List.append_cancel_left h)), if_neg hms]
      exact hm.mirrors ms
  · intro l hl
    rw [HostState.setTree_tree, Table.get_erase, if_neg (ne_outside hl ns)]

/-- Below one root, places are in one another as their names are. -/
theorem append_prefix_iff (l l' : List Name) : r ++ l <+: r ++ l' ↔ l <+: l' :=
  List.prefix_append_right_inj r

/-- An entry and what is in it is moved below the root. -/
theorem Mounted.moved (hm : Mounted r s v) {src dst : List Name} (hv : Rooted (move v src dst))
    (hsd : ¬ src <+: dst) (hds : ¬ dst <+: src) :
    Follows r s (s.setTree (s.tree.move (r ++ src) (r ++ dst))) (move v src dst) := by
  have hget : ∀ l, Table.get (s.tree.move (r ++ src) (r ++ dst)) l = _ :=
    Table.get_move s.tree (fun h => hsd ((append_prefix_iff _ _).mp h))
      (fun h => hds ((append_prefix_iff _ _).mp h))
  refine hm.follows hv ?_ ?_ (Table.move_nodup hm.keys _ _) rfl rfl
  · intro ms
    rw [HostState.setTree_tree, nodeAt, hget, move]
    by_cases h1 : dst <+: ms
    · obtain ⟨rest, rfl⟩ := h1
      rw [if_pos ((append_prefix_iff _ _).mpr (List.prefix_append _ _)),
        if_pos (List.prefix_append _ _), ← List.append_assoc, List.drop_left, List.drop_left,
        List.append_assoc]
      exact hm.mirrors _
    · rw [if_neg (fun h => h1 ((append_prefix_iff _ _).mp h)), if_neg h1]
      by_cases h2 : src <+: ms
      · rw [if_pos ((append_prefix_iff _ _).mpr h2), if_pos h2]
        rfl
      · rw [if_neg (fun h => h2 ((append_prefix_iff _ _).mp h)), if_neg h2]
        exact hm.mirrors ms
  · intro l hl
    have hno : ∀ ns : List Name, ¬ r ++ ns <+: l := fun ns h =>
      hl ((List.prefix_append r ns).trans h)
    rw [HostState.setTree_tree, hget, if_neg (hno dst), if_neg (hno src)]

/-! ## Requests and replies -/

/-- The kind of an entry of the tree. -/
def kindOf : Entry Bytes → FsKind
  | .dir => .dir
  | .file _ => .file

/-- The fault that an error of a call shows. -/
def Fault.of : VfsError → Fault
  | .notFound => .missing
  | .alreadyExists => .present
  | .permissionDenied => .denied
  | _ => .other

/-- The attributes of an entry; how large a directory is, is left open. -/
def AttrOf (a : FileAttr) (e : Entry Bytes) : Prop :=
  a.kind = kindOf e ∧ ∀ b, e = .file b → a.size = b.length

/-- One entry for each of a directory's, with its name as the guest is shown
    it, in some order. -/
def ListOf (es : List DirEntry) (at' : Name → Option (Entry Bytes)) : Prop :=
  ∃ l : List (Name × Entry Bytes), (l.map Prod.fst).Nodup
    ∧ (∀ n e, (n, e) ∈ l ↔ at' n = some e)
    ∧ es = l.map fun c => { name := toStringLossy c.1.1, kind := kindOf c.2 }

/-- A reply shows an answer, or the fault. -/
def Shows : Reply → Except Fault Answer → Prop
  | .attr (.ok a), .ok (.attr e) => AttrOf a e
  | .entries (.ok es), .ok (.entries at') => ListOf es at'
  | .bytes (.ok d), .ok (.bytes d') => d = d'
  | .count (.ok n), .ok (.count m) => n = UInt32.ofNat m
  | .unit (.ok _), .ok .done => True
  | .attr (.error e), .error f => Fault.of e = f
  | .entries (.error e), .error f => Fault.of e = f
  | .bytes (.error e), .error f => Fault.of e = f
  | .count (.error e), .error f => Fault.of e = f
  | .unit (.error e), .error f => Fault.of e = f
  | _, _ => False

/-- The request a call makes. -/
inductive Asks : VfsCall → Op → Prop where
  | stat {p : PathBuf} {ns : List Name} : Leads p ns → Asks (.stat p) (.stat ns)
  | list {p : PathBuf} {ns : List Name} : Leads p ns → Asks (.list p) (.list ns)
  | read {p : PathBuf} {ns : List Name} (off : UInt64) (len : UInt32) : Leads p ns →
      Asks (.read p off len) (.read ns off.toNat len.toNat)
  | write {p : PathBuf} {ns : List Name} (off : UInt64) (data : Bytes) : Leads p ns →
      Asks (.write p off data) (.write ns off.toNat data)
  | create {p : PathBuf} {ns : List Name} (mode : UInt32) : Leads p ns →
      Asks (.create p mode) (.create ns)
  | mkdir {p : PathBuf} {ns : List Name} (mode : UInt32) : Leads p ns →
      Asks (.mkdir p mode) (.mkdir ns)
  | remove {p : PathBuf} {ns : List Name} : Leads p ns → Asks (.remove p) (.remove ns)
  | rmdir {p : PathBuf} {ns : List Name} : Leads p ns → Asks (.rmdir p) (.rmdir ns)
  | rename {p q : PathBuf} {src dst : List Name} : Leads p src → Leads q dst →
      Asks (.rename p q) (.rename src dst)
  | truncate {p : PathBuf} {ns : List Name} (size : UInt64) : Leads p ns →
      Asks (.truncate p size) (.truncate ns size.toNat)

/-- A reply and a state of the host that go with an outcome of the tree. -/
def Serves (r : Loc) (s : HostState) (x : Reply × HostState) (o : Outcome) : Prop :=
  Shows x.1 o.1 ∧ Follows r s x.2 o.2

/-- A failure that the tree has as well, and nothing was done. -/
theorem Serves.failed (hm : Mounted r s v) {reply : Reply} {f : Fault}
    (h : Shows reply (.error f)) : Serves r s (reply, s) (fails v f) := ⟨h, Follows.keep hm⟩

/-! ## What the host finds -/

section Found

variable (hp : Leads p (init ++ [n])) (hs : Spelt fs r) (hm : Mounted r s v)
include hm

/-- An entry of the tree is an object of the host. -/
theorem Mounted.object {e : Entry Bytes} (he : v ns = some e) :
    ∃ i, s.tree.get (r ++ ns) = some i ∧ i.node = node e := by
  refine get_of_nodeAt ?_
  rw [hm.mirrors, he]
  rfl

/-- Where the tree has nothing the host has nothing. -/
theorem Mounted.vacant (hn : v ns = none) : nodeAt s.tree (r ++ ns) = none := by
  rw [hm.mirrors, hn]
  rfl

include hp hs

/-- **LOOKING UP A REQUEST**, by what the tree holds. -/
theorem Leads.cases :
    (∃ e i, find v (init ++ [n]) = .there e ∧ v (init ++ [n]) = some e
        ∧ s.tree.get (r ++ (init ++ [n])) = some i ∧ i.node = node e
        ∧ ∀ follow, TokimoHost.lookup s follow (fs.joined p)
          = .ok (.at (r ++ (init ++ [n])) symloopMax))
      ∨ (find v (init ++ [n]) = .free ∧ v init = some .dir ∧ v (init ++ [n]) = none
        ∧ ∀ follow, TokimoHost.lookup s follow (fs.joined p) = .ok (.missing (r ++ init) n false))
      ∨ (find v (init ++ [n]) = .lost
        ∧ ∀ follow, TokimoHost.lookup s follow (fs.joined p) = .error ENOENT)
      ∨ (find v (init ++ [n]) = .blocked
        ∧ ∀ follow, TokimoHost.lookup s follow (fs.joined p) = .error ENOTDIR) := by
  have hl := fun follow => hp.lookup hs hm follow
  cases hf : find v (init ++ [n]) with
  | there e =>
      have he := (find_there hm.rooted).mp hf
      obtain ⟨i, hi, hnode⟩ := hm.object he
      refine Or.inl ⟨e, i, rfl, he, hi, hnode, fun follow => ?_⟩
      rw [hl follow, hf, placed, List.append_assoc]
  | free =>
      obtain ⟨hdir, hn⟩ := (find_free hm.rooted).mp hf
      refine Or.inr (Or.inl ⟨rfl, hdir, hn, fun follow => ?_⟩)
      rw [hl follow, hf]
      rfl
  | lost =>
      refine Or.inr (Or.inr (Or.inl ⟨rfl, fun follow => ?_⟩))
      rw [hl follow, hf]
      rfl
  | blocked =>
      refine Or.inr (Or.inr (Or.inr ⟨rfl, fun follow => ?_⟩))
      rw [hl follow, hf]
      rfl

end Found

/-! Calls of the host at a path that leads somewhere, or nowhere. -/

/-- Asking about an object fails as its lookup does. -/
theorem symlinkMetadata_error {j : PathBuf} {e : IoError}
    (h : TokimoHost.lookup s false j = .error e) : symlinkMetadata j s = (.error e, s) := by
  rw [symlinkMetadata, h]

/-- Where there is nothing the host says so. -/
theorem symlinkMetadata_missing {j : PathBuf} {d : Loc} {slash : Bool}
    (h : TokimoHost.lookup s false j = .ok (.missing d n slash)) :
    symlinkMetadata j s = (.error ENOENT, s) := by
  rw [symlinkMetadata, h]

/-- Else it gives the metadata, and has acted on the object. -/
theorem symlinkMetadata_at {j : PathBuf} {l : Loc} {k : Nat} {i : Inode}
    (h : TokimoHost.lookup s false j = .ok (.at l k)) (hi : s.tree.get l = some i) :
    symlinkMetadata j s = (.ok i.metadata, s.touch [l]) := by
  rw [symlinkMetadata, h]
  simp only [hi]

/-- A failure is translated. -/
theorem statAt_error {j : PathBuf} {e : IoError} (h : symlinkMetadata j s = (.error e, s)) :
    statAt j s = (.error (HostFs.mapIo e), s) :=
  Eff.bind_of_error (Eff.mapErr_of_error h)

/-- A success is made into attributes. -/
theorem statAt_at {j : PathBuf} {l : Loc} {k : Nat} {i : Inode}
    (h : TokimoHost.lookup s false j = .ok (.at l k)) (hi : s.tree.get l = some i) :
    statAt j s = (.ok (HostFs.attrFromMeta i.metadata), s.touch [l]) :=
  Eff.bind_of_ok (Eff.mapErr_of_ok (symlinkMetadata_at h hi))

/-- The attributes of an object of the host are those of its entry. -/
theorem attrOf_node {i : Inode} {e : Entry Bytes} (h : i.node = node e) :
    AttrOf (HostFs.attrFromMeta i.metadata) e := by
  cases e with
  | dir => exact ⟨by rw [HostFs.attrFromMeta, Inode.metadata, h]; rfl, fun b hb => (nomatch hb)⟩
  | file b =>
      refine ⟨by rw [HostFs.attrFromMeta, Inode.metadata, h]; rfl, fun b' hb => ?_⟩
      rw [HostFs.attrFromMeta, Inode.metadata, h, ← Entry.file.inj hb]
      rfl

/-! ## The operations -/

section Operations

variable (hp : Leads p (init ++ [n])) (hs : Spelt fs r) (hm : Mounted r s v)
include hp hs hm

/-- **STAT** answers as the tree does. -/
theorem stat_serves : Serves r s ((TokimoHostFs.statAt (fs.joined p) s).map .attr id)
    (stat v (init ++ [n])) := by
  rw [stat, atEntry, inPlace]
  rcases hp.cases hs hm with ⟨e, i, hf, -, hi, hnode, hl⟩ | ⟨hf, -, -, hl⟩ | ⟨hf, hl⟩ | ⟨hf, hl⟩
  · rw [hf, statAt_at (hl false) hi]
    exact ⟨attrOf_node hnode, (Follows.keep hm).touch (below_self _)⟩
  · rw [hf, statAt_error (symlinkMetadata_missing (hl false))]
    exact Serves.failed hm rfl
  · rw [hf, statAt_error (symlinkMetadata_error (hl false))]
    exact Serves.failed hm rfl
  · rw [hf, statAt_error (symlinkMetadata_error (hl false))]
    exact Serves.failed hm rfl

/-- The tree's entry for an object; below the root there are no links. -/
def entryOf : Node → Entry Bytes
  | .dir => .dir
  | .file b => .file b
  | .symlink _ => .dir

omit hp hs in
/-- The objects in a directory of the mount are its entries in the tree. -/
theorem children_listed (ns : List Name) : ListOf
    ((s.tree.children (r ++ ns)).map fun c =>
      { name := toStringLossy c.1.1, kind := c.2.node.kind }) (fun n => v (ns ++ [n])) := by
  have hshape : ∀ c ∈ s.tree.children (r ++ ns),
      ∃ e, v (ns ++ [c.1]) = some e ∧ c.2.node = node e := by
    rintro ⟨m, i⟩ hc
    have hget := Table.get_of_mem hm.keys (Table.mem_children.mp hc)
    have hnode := hm.mirrors (ns ++ [m])
    rw [← List.append_assoc, nodeAt_of_get hget] at hnode
    cases hv : v (ns ++ [m]) with
    | none => rw [hv] at hnode; exact nomatch hnode
    | some e =>
        rw [hv] at hnode
        exact ⟨e, rfl, Option.some.inj hnode⟩
  have hback : ∀ e : Entry Bytes, entryOf (node e) = e := by
    intro e
    cases e with
    | dir => rfl
    | file b => rfl
  refine ⟨(s.tree.children (r ++ ns)).map fun c => (c.1, entryOf c.2.node), ?_, ?_, ?_⟩
  · rw [List.map_map]
    exact Table.children_nodup hm.keys _
  · intro m e
    rw [List.mem_map]
    constructor
    · rintro ⟨c, hc, heq⟩
      obtain ⟨e', hv, hnode⟩ := hshape c hc
      obtain ⟨rfl, rfl⟩ := Prod.mk.inj heq
      rw [hnode, hback]
      exact hv
    · intro he
      obtain ⟨i, hi, hnode⟩ := hm.object he
      rw [← List.append_assoc] at hi
      exact ⟨(m, i), Table.mem_children.mpr (Table.mem_of_get hi), by rw [hnode, hback]⟩
  · rw [List.map_map]
    refine List.map_congr_left fun c hc => ?_
    obtain ⟨e, -, hnode⟩ := hshape c hc
    show DirEntry.mk _ c.2.node.kind = DirEntry.mk _ (kindOf (entryOf c.2.node))
    rw [hnode, hback]
    cases e with
    | dir => rfl
    | file b => rfl

/-- **LIST** answers as the tree does. -/
theorem list_serves : Serves r s ((listAt (fs.joined p) s).map .entries id)
    (list v (init ++ [n])) := by
  have hfail : ∀ {e : IoError}, readDir (fs.joined p) s = (.error e, s) →
      listAt (fs.joined p) s = (.error (HostFs.mapIo e), s) :=
    fun h => Eff.bind_of_error (Eff.mapErr_of_error h)
  rw [list, atEntry, inPlace]
  rcases hp.cases hs hm with ⟨e, i, hf, -, hi, hnode, hl⟩ | ⟨hf, -, -, hl⟩ | ⟨hf, hl⟩ | ⟨hf, hl⟩
  · rw [hf]
    have hat := nodeAt_of_get hi
    rw [hnode] at hat
    cases e with
    | dir =>
        have hread : readDir (fs.joined p) s
            = (.ok ((s.tree.children (r ++ (init ++ [n]))).map fun e => (e.1, e.2.node.kind)),
              s.touch [r ++ (init ++ [n])]) := by
          rw [readDir, hl true]
          simp only [hat, node]
        have hlist : listAt (fs.joined p) s = _ := Eff.bind_of_ok (Eff.mapErr_of_ok hread)
        rw [hlist]
        refine ⟨?_, (Follows.keep hm).touch (below_self _)⟩
        show ListOf (((s.tree.children _).map _).map _) _
        rw [List.map_map]
        exact children_listed hm _
    | file b =>
        have hread : readDir (fs.joined p) s = (.error ENOTDIR, s) := by
          rw [readDir, hl true]
          simp only [hat, node]
        rw [hfail hread]
        exact Serves.failed hm rfl
  · have hread : readDir (fs.joined p) s = (.error ENOENT, s) := by rw [readDir, hl true]
    rw [hf, hfail hread]
    exact Serves.failed hm rfl
  · have hread : readDir (fs.joined p) s = (.error ENOENT, s) := by rw [readDir, hl true]
    rw [hf, hfail hread]
    exact Serves.failed hm rfl
  · have hread : readDir (fs.joined p) s = (.error ENOTDIR, s) := by rw [readDir, hl true]
    rw [hf, hfail hread]
    exact Serves.failed hm rfl

/-- **OPENING A FILE THAT IS NOT TO BE MADE**: the entry is there, and is left
    as it is, or the tree has the fault. -/
theorem Leads.open_there (o : OpenOptions) (hc : o.create = false) (ht : o.truncate = false) :
    (∃ e, v (init ++ [n]) = some e ∧ (o.write = true → e ≠ .dir)
        ∧ openFile o (fs.joined p) s
          = (.ok ⟨r ++ (init ++ [n]), 0⟩, s.touch [r ++ (init ++ [n])])
        ∧ ∀ f, atEntry v (init ++ [n]) f = f e)
      ∨ (∃ e, openFile o (fs.joined p) s = (.error e, s)
        ∧ ∀ f : Entry Bytes → Outcome, (o.write = true → f .dir = fails v .other) →
          atEntry v (init ++ [n]) f = fails v (Fault.of (HostFs.mapIo e))) := by
  rcases hp.cases hs hm with ⟨e, i, hf, he, hi, hnode, hl⟩ | ⟨hf, -, -, hl⟩ | ⟨hf, hl⟩ | ⟨hf, hl⟩
  · have hat : ∀ f, atEntry v (init ++ [n]) f = f e := by
      intro f
      rw [atEntry, inPlace, hf]
    cases e with
    | dir =>
        cases hw : o.write with
        | true =>
            refine Or.inr ⟨EISDIR, ?_, fun f hdir => (hat f).trans (hdir rfl)⟩
            rw [openFile, hl true]
            simp only [hi, hnode, node, hw, if_true]
        | false =>
            refine Or.inl ⟨.dir, he, fun h => (by cases h), ?_, hat⟩
            rw [openFile, hl true]
            simp only [hi, hnode, node, hw, Bool.false_eq_true, if_false]
    | file b =>
        refine Or.inl ⟨.file b, he, fun _ h => (by cases h), ?_, hat⟩
        rw [openFile_file o (hl true) hi hnode, if_neg (by rw [ht]; exact Bool.false_ne_true)]
  · refine Or.inr ⟨ENOENT, ?_, fun f _ => ?_⟩
    · rw [openFile, hl true]
      simp only [hc, Bool.not_false, if_true]
    · rw [atEntry, inPlace, hf]
      rfl
  · refine Or.inr ⟨ENOENT, by rw [openFile, hl true], fun f _ => ?_⟩
    rw [atEntry, inPlace, hf]
    rfl
  · refine Or.inr ⟨ENOTDIR, by rw [openFile, hl true], fun f _ => ?_⟩
    rw [atEntry, inPlace, hf]
    rfl

/-- **READ** answers as the tree does. -/
theorem read_serves (off : UInt64) (len : UInt32) :
    Serves r s ((readAt off len (fs.joined p) s).map .bytes id)
      (read v (init ++ [n]) off.toNat len.toNat) := by
  let after : Fd → VfsM HostState Bytes := fun f =>
    Eff.mapErr HostFs.mapIo (seek f off) >>= fun g => HostFs.fill posix len.toNat len.toNat g []
  have hdef : readAt off len (fs.joined p)
      = Eff.mapErr HostFs.mapIo (openFile readOptions (fs.joined p)) >>= after := rfl
  rw [hdef, read]
  rcases hp.open_there hs hm readOptions rfl rfl with ⟨e, he, -, hopen, hat⟩ | ⟨e, hopen, hat⟩
  · rw [Eff.bind_of_ok (Eff.mapErr_of_ok hopen), hat]
    have hkeep : Follows r s (s.touch [r ++ (init ++ [n])]) v :=
      (Follows.keep hm).touch (below_self _)
    by_cases hoff : off.toNat ≤ maxOffset
    · have hseek : seek ⟨r ++ (init ++ [n]), 0⟩ off (s.touch [r ++ (init ++ [n])])
          = (.ok ⟨r ++ (init ++ [n]), off.toNat⟩, s.touch [r ++ (init ++ [n])]) := by
        rw [seek, if_pos hoff]
      have hnode : nodeAt (s.touch [r ++ (init ++ [n])]).tree (r ++ (init ++ [n]))
          = some (node e) := by
        rw [HostState.touch_tree, hm.mirrors, he]
        rfl
      have hgo : after ⟨r ++ (init ++ [n]), 0⟩ (s.touch [r ++ (init ++ [n])]) = _ :=
        Eff.bind_of_ok (Eff.mapErr_of_ok hseek)
      rw [hgo, if_neg (Nat.not_lt.mpr hoff)]
      cases e with
      | dir =>
          rw [fill_dir hnode]
          by_cases hlen : len.toNat = 0
          · rw [if_pos hlen]
            exact ⟨by rw [if_pos hlen]; rfl, by rw [if_pos hlen]; exact hkeep⟩
          · rw [if_neg hlen]
            exact ⟨by rw [if_neg hlen]; rfl, by rw [if_neg hlen]; exact hkeep⟩
      | file b =>
          rw [fill_file b len.toNat off.toNat len.toNat ⟨r ++ (init ++ [n]), off.toNat⟩ [] hnode
            rfl rfl (Nat.zero_le _) (Nat.le_refl _)]
          exact ⟨rfl, hkeep⟩
    · have hseek : seek ⟨r ++ (init ++ [n]), 0⟩ off (s.touch [r ++ (init ++ [n])])
          = (.error EINVAL, s.touch [r ++ (init ++ [n])]) := by
        rw [seek, if_neg hoff]
      have hgo : after ⟨r ++ (init ++ [n]), 0⟩ (s.touch [r ++ (init ++ [n])]) = _ :=
        Eff.bind_of_error (Eff.mapErr_of_error hseek)
      rw [hgo, if_pos (Nat.lt_of_not_le hoff)]
      exact ⟨rfl, hkeep⟩
  · rw [Eff.bind_of_error (Eff.mapErr_of_error hopen), hat _ (fun h => by cases h)]
    exact Serves.failed hm rfl

/-- **TRUNCATE** does to the host what it does to the tree. -/
theorem truncate_serves (size : UInt64) :
    Serves r s ((truncateAt size (fs.joined p) s).map .unit id)
      (truncate v (init ++ [n]) size.toNat) := by
  let after : Fd → VfsM HostState Unit := fun f => Eff.mapErr HostFs.mapIo (setLen f size)
  have hdef : truncateAt size (fs.joined p)
      = Eff.mapErr HostFs.mapIo (openFile truncateOptions (fs.joined p)) >>= after := rfl
  rw [hdef, truncate]
  rcases hp.open_there hs hm truncateOptions rfl rfl with
    ⟨e, he, hdir, hopen, hat⟩ | ⟨e, hopen, hat⟩
  · rw [Eff.bind_of_ok (Eff.mapErr_of_ok hopen), hat]
    have hkeep : Follows r s (s.touch [r ++ (init ++ [n])]) v :=
      (Follows.keep hm).touch (below_self _)
    cases e with
    | dir => exact absurd rfl (hdir rfl)
    | file b =>
        show Serves r s (((Eff.mapErr HostFs.mapIo (setLen _ size)) _).map .unit id) _
        by_cases hsize : maxOffset < size.toNat
        · have hset : setLen ⟨r ++ (init ++ [n]), 0⟩ size (s.touch [r ++ (init ++ [n])])
              = (.error lenOutOfRange, s.touch [r ++ (init ++ [n])]) := by
            rw [setLen, if_pos hsize]
          rw [Eff.mapErr_of_error hset]
          show Serves r s _ (if maxOffset < size.toNat then _ else _)
          rw [if_pos hsize]
          exact ⟨rfl, hkeep⟩
        · obtain ⟨i, hi, hnode⟩ := hkeep.mounted.object he
          have hset : setLen ⟨r ++ (init ++ [n]), 0⟩ size (s.touch [r ++ (init ++ [n])])
              = (.ok (), (s.touch [r ++ (init ++ [n])]).putData (r ++ (init ++ [n])) i
                (resize size.toNat b)) := by
            rw [setLen, if_neg hsize]
            simp only [hi, hnode, node]
          rw [Eff.mapErr_of_ok hset]
          show Serves r s _ (if maxOffset < size.toNat then _ else _)
          rw [if_neg hsize]
          exact ⟨True.intro, hkeep.trans
            (hkeep.mounted.inserted (hm.rooted.refill he _) rfl rfl rfl rfl)⟩
  · rw [Eff.bind_of_error (Eff.mapErr_of_error hopen), hat _ (fun _ => rfl)]
    exact Serves.failed hm rfl

/-- **OPENING A FILE TO WRITE IT OVER**: it is there and empty, or the tree
    has the fault. -/
theorem Leads.open_over :
    (∃ s₁, openFile writeOptions (fs.joined p) s = (.ok ⟨r ++ (init ++ [n]), 0⟩, s₁)
        ∧ Follows r s s₁ (put v (init ++ [n]) (.file []))
        ∧ ∀ x, overFile v (init ++ [n]) x = x)
      ∨ (∃ e, openFile writeOptions (fs.joined p) s = (.error e, s)
        ∧ ∀ x, overFile v (init ++ [n]) x = fails v (Fault.of (HostFs.mapIo e))) := by
  rcases hp.cases hs hm with ⟨e, i, hf, he, hi, hnode, hl⟩ | ⟨hf, hdir, hn, hl⟩ | ⟨hf, hl⟩
    | ⟨hf, hl⟩
  · cases e with
    | dir =>
        refine Or.inr ⟨EISDIR, ?_, fun x => ?_⟩
        · rw [openFile, hl true]
          simp only [hi, hnode, node, writeOptions, if_true]
        · rw [overFile, inPlace, hf]
          rfl
    | file b =>
        refine Or.inl ⟨(s.putData (r ++ (init ++ [n])) i []).touch [r ++ (init ++ [n])],
          openFile_file writeOptions (hl true) hi hnode, ?_, fun x => ?_⟩
        · have hput : Follows r s (s.putData (r ++ (init ++ [n])) i [])
              (put v (init ++ [n]) (.file [])) :=
            hm.inserted (hm.rooted.refill he _) rfl rfl rfl rfl
          exact hput.touch (below_self _)
        · rw [overFile, inPlace, hf]
  · refine Or.inl ⟨(s.addNode (r ++ init ++ [n]) (.file []) s.fileMode).touch [r ++ init ++ [n]],
      ?_, ?_, fun x => ?_⟩
    · rw [openFile, hl true, ← List.append_assoc]
      rfl
    · exact hm.added hdir hn (.file []) s.fileMode
    · rw [overFile, inPlace, hf]
  · refine Or.inr ⟨ENOENT, by rw [openFile, hl true], fun x => ?_⟩
    rw [overFile, inPlace, hf]
    rfl
  · refine Or.inr ⟨ENOTDIR, by rw [openFile, hl true], fun x => ?_⟩
    rw [overFile, inPlace, hf]
    rfl

/-- **CREATE** does to the host what it does to the tree. -/
theorem create_serves : Serves r s ((createAt (fs.joined p) s).map .attr id)
    (create v (init ++ [n])) := by
  have hdef : createAt (fs.joined p) = Eff.mapErr HostFs.mapIo (openFile writeOptions (fs.joined p))
      >>= fun _ => TokimoHostFs.statAt (fs.joined p) := rfl
  rw [hdef, create]
  rcases hp.open_over hs hm with ⟨s₁, hopen, hfol, hover⟩ | ⟨e, hopen, hover⟩
  · rw [Eff.bind_of_ok (Eff.mapErr_of_ok hopen), hover]
    have hself : put v (init ++ [n]) (.file []) (init ++ [n]) = some (.file []) := put_self _ _ _
    obtain ⟨i, hi, hnode⟩ := hfol.mounted.object hself
    have hl := hp.lookup hs hfol.mounted false
    rw [(find_there hfol.mounted.rooted).mpr hself, placed, List.append_assoc] at hl
    rw [statAt_at hl hi]
    exact ⟨attrOf_node hnode, hfol.touch (below_self _)⟩
  · rw [Eff.bind_of_error (Eff.mapErr_of_error hopen), hover]
    exact Serves.failed hm rfl

omit hp hs in
/-- Writing to an empty file. -/
theorem writeAll_follows {f : Fd} (hf : f.loc = r ++ ns) (he : v ns = some (.file []))
    (hpos : f.pos ≤ maxOffset) (data : Bytes) :
    Follows r s (writeAll f data s).2 (put v ns (.file (written f.pos data)))
      ∧ ((∃ g, (writeAll f data s).1 = .ok g) ↔ data = [] ∨ f.pos + data.length ≤ maxOffset)
      ∧ ∀ e, (writeAll f data s).1 = .error e → e = EFBIG := by
  obtain ⟨i, hi, hnode⟩ := hm.object he
  have hfile : nodeAt s.tree f.loc = some (.file []) := by
    rw [hf, hm.mirrors, he]
    rfl
  obtain ⟨hafter, hiff⟩ := writeAll_empty hfile hpos data
  refine ⟨?_, hiff, ?_⟩
  rotate_left
  · intro e h
    rw [writeAll, hf] at h
    simp only [hi, hnode, node] at h
    split at h
    · cases h
    · split at h
      · cases h
      · exact (Except.error.inj h).symm
  -- either nothing is written, or the file gets new contents
  have hstate : (writeAll f data s).2 = s
      ∨ ∃ new, (writeAll f data s).2 = s.putData (r ++ ns) i new := by
    rw [writeAll, hf]
    simp only [hi, hnode, node]
    split
    · exact Or.inl rfl
    · split
      · exact Or.inr ⟨_, rfl⟩
      · split
        · exact Or.inl rfl
        · exact Or.inr ⟨_, rfl⟩
  rcases hstate with hkeep | ⟨new, hput⟩
  · rw [hkeep, hfile] at hafter
    have hnil : written f.pos data = [] := (Node.file.inj (Option.some.inj hafter)).symm
    rw [hkeep, hnil, put_same he]
    exact Follows.keep hm
  · rw [hput, hf] at hafter
    have hnew : nodeAt (s.putData (r ++ ns) i new).tree (r ++ ns) = some (.file new) := by
      refine (nodeAt_insert s.tree (r ++ ns) (r ++ ns) _).trans ?_
      rw [if_pos rfl, HostState.filled_node]
    have hsame : new = written f.pos data :=
      Node.file.inj (Option.some.inj (hnew.symm.trans hafter))
    rw [hput, hsame]
    exact hm.inserted (hm.rooted.refill he _) rfl rfl rfl rfl

/-- **WRITE** does to the host what it does to the tree. -/
theorem write_serves (off : UInt64) (data : Bytes) :
    Serves r s ((writeAt off data (fs.joined p) s).map .count id)
      (write v (init ++ [n]) off.toNat data) := by
  let after : Fd → VfsM HostState UInt32 := fun f =>
    Eff.mapErr HostFs.mapIo (seek f off) >>= fun g =>
      Eff.mapErr HostFs.mapIo (writeAll g data) >>= fun _ => pure (UInt32.ofNat data.length)
  have hdef : writeAt off data (fs.joined p)
      = Eff.mapErr HostFs.mapIo (openFile writeOptions (fs.joined p)) >>= after := rfl
  rw [hdef, write]
  rcases hp.open_over hs hm with ⟨s₁, hopen, hfol, hover⟩ | ⟨e, hopen, hover⟩
  · rw [Eff.bind_of_ok (Eff.mapErr_of_ok hopen), hover]
    have hself : put v (init ++ [n]) (.file []) (init ++ [n]) = some (.file []) := put_self _ _ _
    by_cases hoff : off.toNat ≤ maxOffset
    · have hseek : seek ⟨r ++ (init ++ [n]), 0⟩ off s₁
          = (.ok ⟨r ++ (init ++ [n]), off.toNat⟩, s₁) := by
        rw [seek, if_pos hoff]
      have hgo : after ⟨r ++ (init ++ [n]), 0⟩ s₁ = _ := Eff.bind_of_ok (Eff.mapErr_of_ok hseek)
      obtain ⟨hwrote, hiff, hbig⟩ :=
        writeAll_follows hfol.mounted (f := ⟨r ++ (init ++ [n]), off.toNat⟩) rfl hself hoff data
      rw [put_put] at hwrote
      rw [hgo]
      cases hall : writeAll ⟨r ++ (init ++ [n]), off.toNat⟩ data s₁ with
      | mk res s₂ =>
          rw [hall] at hwrote hiff hbig
          cases res with
          | ok g =>
              have hfits : Fits off.toNat data := ⟨hoff, hiff.mp ⟨g, rfl⟩⟩
              rw [Eff.bind_of_ok (Eff.mapErr_of_ok hall), if_pos hfits]
              exact ⟨rfl, hfol.trans hwrote⟩
          | error e =>
              have hfits : ¬ Fits off.toNat data := by
                intro h
                obtain ⟨g, hg⟩ := hiff.mpr h.2
                cases hg
              rw [Eff.bind_of_error (Eff.mapErr_of_error hall), if_neg hfits, hbig e rfl]
              exact ⟨rfl, hfol.trans hwrote⟩
    · -- the file was emptied, and stays so
      have hseek : seek ⟨r ++ (init ++ [n]), 0⟩ off s₁ = (.error EINVAL, s₁) := by
        rw [seek, if_neg hoff]
      have hgo : after ⟨r ++ (init ++ [n]), 0⟩ s₁ = _ :=
        Eff.bind_of_error (Eff.mapErr_of_error hseek)
      have hnil : written off.toNat data = [] := by
        have hzero : maxOffset - off.toNat = 0 := by omega
        rw [written, hzero]
        rfl
      rw [hgo, if_neg (fun h : Fits off.toNat data => hoff h.1), hnil]
      exact ⟨rfl, hfol⟩
  · rw [Eff.bind_of_error (Eff.mapErr_of_error hopen), hover]
    exact Serves.failed hm rfl

/-- **ENTERING THE DIRECTORY OF A REQUEST**, or failing as the tree does. -/
theorem Leads.enter :
    (v init = some .dir
        ∧ TokimoHost.lookupParent s (fs.joined p) = .ok (.entry (r ++ init) n false)
        ∧ nodeAt s.tree (r ++ init ++ [n]) = (v (init ++ [n])).map node
        ∧ ∀ f, inPlace v (init ++ [n]) f = f (v (init ++ [n])))
      ∨ (∃ e, TokimoHost.lookupParent s (fs.joined p) = .error e
        ∧ ∀ f, inPlace v (init ++ [n]) f = fails v (Fault.of (HostFs.mapIo e))) := by
  have hl := hp.lookupParent hs hm
  cases hf : find v init with
  | there e =>
      rw [hf] at hl
      cases e with
      | dir =>
          refine Or.inl ⟨(find_there hm.rooted).mp hf, hl, ?_, fun f => ?_⟩
          · rw [List.append_assoc]
            exact hm.mirrors _
          · rw [inPlace, find_concat, hf]
            cases v (init ++ [n]) with
            | none => rfl
            | some e => rfl
      | file b =>
          refine Or.inr ⟨ENOTDIR, hl, fun f => ?_⟩
          rw [inPlace, find_concat, hf]
          rfl
  | free =>
      rw [hf] at hl
      refine Or.inr ⟨ENOENT, hl, fun f => ?_⟩
      rw [inPlace, find_concat, hf]
      rfl
  | lost =>
      rw [hf] at hl
      refine Or.inr ⟨ENOENT, hl, fun f => ?_⟩
      rw [inPlace, find_concat, hf]
      rfl
  | blocked =>
      rw [hf] at hl
      refine Or.inr ⟨ENOTDIR, hl, fun f => ?_⟩
      rw [inPlace, find_concat, hf]
      rfl

/-- **MKDIR** does to the host what it does to the tree. -/
theorem mkdir_serves : Serves r s ((mkdirAt (fs.joined p) s).map .attr id)
    (mkdir v (init ++ [n])) := by
  have hdef : mkdirAt (fs.joined p) = Eff.mapErr HostFs.mapIo (createDir (fs.joined p))
      >>= fun _ => TokimoHostFs.statAt (fs.joined p) := rfl
  rw [hdef, mkdir]
  rcases hp.enter hs hm with ⟨hdir, hl, hnode, hin⟩ | ⟨e, hl, hin⟩
  · rw [hin]
    cases hv : v (init ++ [n]) with
    | none =>
        rw [hv] at hnode
        have hmake : createDir (fs.joined p) s = (.ok (),
            (s.addNode (r ++ init ++ [n]) (node .dir) (s.newDirMode (r ++ init))).touch
              [r ++ init ++ [n]]) := by
          rw [createDir, hl]
          simp only [nodeAt_none_iff.mp hnode, node]
        have hfol := hm.added hdir hv .dir (s.newDirMode (r ++ init))
        have hself : put v (init ++ [n]) .dir (init ++ [n]) = some .dir := put_self _ _ _
        obtain ⟨i, hi, hnode'⟩ := hfol.mounted.object hself
        have hl' := hp.lookup hs hfol.mounted false
        rw [(find_there hfol.mounted.rooted).mpr hself, placed] at hl'
        rw [← List.append_assoc] at hi
        rw [Eff.bind_of_ok (Eff.mapErr_of_ok hmake)]
        rw [statAt_at hl' hi]
        exact ⟨attrOf_node hnode', hfol.touch (below_name _ _)⟩
    | some e =>
        rw [hv] at hnode
        obtain ⟨i, hi, -⟩ := get_of_nodeAt hnode
        have hmake : createDir (fs.joined p) s = (.error EEXIST, s) := by
          rw [createDir, hl]
          simp only [hi]
        rw [Eff.bind_of_error (Eff.mapErr_of_error hmake)]
        exact Serves.failed hm rfl
  · have hmake : createDir (fs.joined p) s = (.error e, s) := by rw [createDir, hl]
    rw [hin, Eff.bind_of_error (Eff.mapErr_of_error hmake)]
    exact Serves.failed hm rfl

omit hp hs in
/-- An entry is taken away, by a call that has acted on it. -/
theorem Mounted.gone (hv : Rooted (erase v ns)) :
    Follows r s ((s.setTree (s.tree.erase (r ++ ns))).touch [r ++ ns]) (erase v ns) :=
  (hm.erased hv).touch (below_self ns)

/-- **REMOVE** does to the host what it does to the tree. -/
theorem remove_serves : Serves r s ((removeAt (fs.joined p) s).map .unit id)
    (remove v (init ++ [n])) := by
  have hdef : removeAt (fs.joined p) = Eff.mapErr HostFs.mapIo (removeFile (fs.joined p)) := rfl
  rw [hdef, remove, atEntry]
  rcases hp.enter hs hm with ⟨hdir, hl, hnode, hin⟩ | ⟨e, hl, hin⟩
  · rw [hin]
    cases hv : v (init ++ [n]) with
    | none =>
        rw [hv] at hnode
        have hcall : removeFile (fs.joined p) s = (.error ENOENT, s) := by
          rw [removeFile, hl]
          simp only [hnode, Option.map_none]
        rw [Eff.mapErr_of_error hcall]
        exact Serves.failed hm rfl
    | some e =>
        rw [hv] at hnode
        cases e with
        | dir =>
            have hcall : removeFile (fs.joined p) s = (.error EISDIR, s) := by
              rw [removeFile, hl]
              simp only [hnode, Option.map_some, node]
            rw [Eff.mapErr_of_error hcall]
            exact Serves.failed hm rfl
        | file b =>
            have hcall : removeFile (fs.joined p) s = (.ok (),
                (s.setTree (s.tree.erase (r ++ (init ++ [n])))).touch [r ++ (init ++ [n])]) := by
              rw [removeFile, hl, ← List.append_assoc]
              simp only [hnode, Option.map_some, node, Bool.false_eq_true, if_false]
            have hbare : ∀ m, v (init ++ [n] ++ [m]) = none := by
              intro m
              exact hm.rooted.bare (by rw [hv]; exact fun h => by cases h) m []
            rw [Eff.mapErr_of_ok hcall]
            exact ⟨True.intro, hm.gone (hm.rooted.erase (by simp) hbare)⟩
  · have hcall : removeFile (fs.joined p) s = (.error e, s) := by rw [removeFile, hl]
    rw [hin, Eff.mapErr_of_error hcall]
    exact Serves.failed hm rfl

omit hp hs in
/-- A directory is bare in the host exactly when it is in the tree. -/
theorem children_bare (ns : List Name) :
    (s.tree.children (r ++ ns)).isEmpty = true ↔ ∀ m, v (ns ++ [m]) = none := by
  rw [List.isEmpty_iff]
  constructor
  · intro h m
    cases hv : v (ns ++ [m]) with
    | none => rfl
    | some e =>
        obtain ⟨i, hi, -⟩ := hm.object hv
        rw [← List.append_assoc] at hi
        have hmem := Table.mem_children.mpr (Table.mem_of_get hi)
        rw [h] at hmem
        exact nomatch hmem
  · intro h
    refine List.eq_nil_iff_forall_not_mem.mpr ?_
    rintro ⟨m, i⟩ hmem
    have hget := Table.get_of_mem hm.keys (Table.mem_children.mp hmem)
    have hnode := hm.mirrors (ns ++ [m])
    rw [← List.append_assoc, nodeAt_of_get hget, h m] at hnode
    exact nomatch hnode

/-- **RMDIR** does to the host what it does to the tree. -/
theorem rmdir_serves : Serves r s ((rmdirAt (fs.joined p) s).map .unit id)
    (rmdir v (init ++ [n])) := by
  have hdef : rmdirAt (fs.joined p) = Eff.mapErr HostFs.mapIo (removeDir (fs.joined p)) := rfl
  rw [hdef, rmdir, atEntry]
  rcases hp.enter hs hm with ⟨hdir, hl, hnode, hin⟩ | ⟨e, hl, hin⟩
  · rw [hin]
    cases hv : v (init ++ [n]) with
    | none =>
        rw [hv] at hnode
        have hcall : removeDir (fs.joined p) s = (.error ENOENT, s) := by
          rw [removeDir, hl]
          simp only [hnode, Option.map_none]
        rw [Eff.mapErr_of_error hcall]
        exact Serves.failed hm rfl
    | some e =>
        rw [hv] at hnode
        cases e with
        | dir =>
            -- bare on the host is bare in the tree
            have hiff := children_bare hm (init ++ [n])
            rw [← List.append_assoc r] at hiff
            by_cases hbare : ∀ m, v (init ++ [n] ++ [m]) = none
            · have hcall : removeDir (fs.joined p) s = (.ok (),
                  (s.setTree (s.tree.erase (r ++ init ++ [n]))).touch [r ++ init ++ [n]]) := by
                rw [removeDir, hl]
                simp only [hnode, Option.map_some, node, hiff.mpr hbare, if_true]
              rw [List.append_assoc] at hcall
              rw [Eff.mapErr_of_ok hcall]
              dsimp only
              rw [if_pos hbare]
              exact ⟨True.intro, hm.gone (hm.rooted.erase (by simp) hbare)⟩
            · have hcall : removeDir (fs.joined p) s = (.error ENOTEMPTY, s) := by
                have hfull := fun h => hbare (hiff.mp h)
                rw [removeDir, hl]
                simp only [hnode, Option.map_some, node]
                rw [if_neg hfull]
              rw [Eff.mapErr_of_error hcall]
              dsimp only
              rw [if_neg hbare]
              exact Serves.failed hm rfl
        | file b =>
            have hcall : removeDir (fs.joined p) s = (.error ENOTDIR, s) := by
              rw [removeDir, hl]
              simp only [hnode, Option.map_some, node]
            rw [Eff.mapErr_of_error hcall]
            exact Serves.failed hm rfl
  · have hcall : removeDir (fs.joined p) s = (.error e, s) := by rw [removeDir, hl]
    rw [hin, Eff.mapErr_of_error hcall]
    exact Serves.failed hm rfl

end Operations

end TokimoMountTree
