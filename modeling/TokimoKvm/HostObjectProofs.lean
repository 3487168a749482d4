import TokimoKvm.HostFsContentsProofs
import TokimoKvm.HostFsChangeProofs

/-! # Objects of the host — what calls of `HostFs` leave in place

    Objects have identities, and a path has none: it leads to whatever is
    there.  `KeepsOff L` says how far that may be trusted along a call.
    Everything that is not at one of the places `L` or below one stays where it
    is, with its identity and, but for the bytes of a file, as it was; so a
    path whose way avoids `L` leads where it led.  `L` is what a successful
    `remove`, `rmdir` or `rename` names, and empty for the other calls. -/

namespace TokimoHostFs

open TokimoMachine TokimoBytes TokimoPath TokimoTable TokimoVfsCore TokimoHost

/-- No two objects share an identity, and the next one is new. -/
def Ids (s : HostState) : Prop := Table.Identified Inode.id s.tree s.nextId

/-- The same object, a file perhaps with other bytes in it. -/
structure SameObject (i i' : Inode) : Prop where
  id : i'.id = i.id
  shape : i'.node.shape = i.node.shape

/-- An object is the same as itself. -/
theorem SameObject.refl (i : Inode) : SameObject i i := ⟨rfl, rfl⟩

/-- The same as the same is the same. -/
theorem SameObject.trans {i j k : Inode} (h1 : SameObject i j) (h2 : SameObject j k) :
    SameObject i k := ⟨h2.id.trans h1.id, h2.shape.trans h1.shape⟩

/-- What is not at one of the places `L` or below one stays. -/
structure KeepsOff (L : List Loc) (s s' : HostState) : Prop where
  ids : Ids s → Ids s'
  cwd : s'.cwd = s.cwd
  kept : ∀ {v : Loc} {i : Inode}, s.tree.get v = some i → (∀ l ∈ L, ¬ l <+: v) →
    ∃ i', s'.tree.get v = some i' ∧ SameObject i i'

instance (L : List Loc) : IsPreorder HostState (KeepsOff L) where
  refl := fun _ => ⟨id, rfl, fun h _ => ⟨_, h, SameObject.refl _⟩⟩
  trans := by
    intro a b c h1 h2
    refine ⟨fun h => h2.ids (h1.ids h), h2.cwd.trans h1.cwd, ?_⟩
    intro v i hv hoff
    obtain ⟨j, hj, hij⟩ := h1.kept hv hoff
    obtain ⟨k, hk, hjk⟩ := h2.kept hj hoff
    exact ⟨k, hk, hij.trans hjk⟩

variable {L : List Loc} {s s' : HostState}

/-- Where nothing is spared nothing is lost elsewhere. -/
theorem KeepsOff.of_nil (h : KeepsOff [] s s') : KeepsOff L s s' :=
  ⟨h.ids, h.cwd, fun hv _ => h.kept hv fun _ hl => nomatch hl⟩

/-- Noting what a call acted on moves no object. -/
theorem KeepsOff.touch (h : KeepsOff L s s') (ls : List Loc) : KeepsOff L s (s'.touch ls) :=
  ⟨h.ids, h.cwd, h.kept⟩

/-! ## One change of the tree -/

/-- What changes nothing but the log keeps everything. -/
theorem keepsOff_of_bare (h : bare s' = bare s) : KeepsOff L s s' := by
  have htree : (bare s').tree = (bare s).tree := congrArg HostState.tree h
  have hnext : (bare s').nextId = (bare s).nextId := congrArg HostState.nextId h
  have hcwd : (bare s').cwd = (bare s).cwd := congrArg HostState.cwd h
  change s'.tree = s.tree at htree
  change s'.nextId = s.nextId at hnext
  refine ⟨?_, hcwd, ?_⟩
  · intro hi
    rw [Ids, htree, hnext]
    exact hi
  · intro v i hv _
    exact ⟨i, by rw [htree, hv], SameObject.refl i⟩

/-- New bytes in a file leave every object in place. -/
theorem keepsOff_putData {l : Loc} {i : Inode} {old : Bytes} (hg : s.tree.get l = some i)
    (hi : i.node = .file old) (data : Bytes) : KeepsOff L s (s.putData l i data) := by
  refine ⟨fun h => Table.Identified.insert_same h hg rfl, rfl, ?_⟩
  intro v j hv _
  rw [HostState.putData, HostState.setTree_tree, Table.get_insert]
  by_cases hl : l = v
  · rw [if_pos hl]
    rw [← hl, hg] at hv
    refine ⟨_, rfl, ?_⟩
    rw [← Option.some.inj hv]
    exact ⟨rfl, by rw [hi]; rfl⟩
  · rw [if_neg hl]
    exact ⟨j, hv, SameObject.refl j⟩

/-- A new object leaves every other in place. -/
theorem keepsOff_addNode {l : Loc} (hn : nodeAt s.tree l = none) (node : Node) (mode : Nat) :
    KeepsOff L s (s.addNode l node mode) := by
  refine ⟨fun h => Table.Identified.insert_new h l rfl, rfl, ?_⟩
  intro v j hv _
  rw [HostState.addNode, Table.get_insert]
  by_cases hl : l = v
  · -- the place was free
    rw [← hl, nodeAt_none_iff.mp hn] at hv
    cases hv
  · rw [if_neg hl]
    exact ⟨j, hv, SameObject.refl j⟩

/-- Taking an object away spares all that is not at or below its place. -/
theorem keepsOff_erase (s : HostState) (l : Loc) :
    KeepsOff [l] s (s.setTree (s.tree.erase l)) := by
  refine ⟨fun h => Table.Identified.erase h l, rfl, ?_⟩
  intro v j hv hoff
  have hl : ¬ l = v := fun heq =>
    hoff l (List.mem_cons_self ..) (heq ▸ List.prefix_refl l)
  rw [HostState.setTree_tree, Table.get_erase, if_neg hl]
  exact ⟨j, hv, SameObject.refl j⟩

/-- A move spares what is not at or below its two places. -/
theorem keepsOff_move (s : HostState) {src dst : Loc} (hsd : ¬ src <+: dst)
    (hds : ¬ dst <+: src) :
    KeepsOff [src, dst] s (s.setTree (s.tree.move src dst)) := by
  refine ⟨fun h => Table.Identified.move h hsd hds, rfl, ?_⟩
  intro v j hv hoff
  rw [HostState.setTree_tree, Table.get_move _ hsd hds,
    if_neg (hoff dst (List.mem_cons_of_mem _ (List.mem_cons_self ..))),
    if_neg (hoff src (List.mem_cons_self ..))]
  exact ⟨j, hv, SameObject.refl j⟩

/-! ## Host calls -/

/-- Opening a file leaves every object in place. -/
theorem Opened.keepsOff {o : OpenOptions} {w : Walked} (h : Opened o s w s') :
    KeepsOff L s s' := by
  cases h with
  | new d n hn => exact keepsOff_addNode hn _ _
  | dir l k hn ho => exact refl_of _ s
  | cut l k i data hg hi ht => exact keepsOff_putData hg hi []
  | keep l k i data hg hi ht => exact refl_of _ s

/-- So `open` does. -/
theorem openFile_keepsOff (o : OpenOptions) (p : PathBuf) :
    Eff.Within (KeepsOff L) (TokimoHost.openFile o p) := by
  intro s
  rcases openFile_cases o s p with ⟨w, s', -, -, hopened, h⟩ | ⟨⟨e, h⟩, -⟩
  · rw [h]
    exact (Opened.keepsOff hopened).touch _
  · rw [h]
    exact refl_of _ s

/-- So does `write_all`. -/
theorem writeAll_keepsOff (f : Fd) (data : Bytes) :
    Eff.Within (KeepsOff L) (TokimoHost.writeAll f data) := by
  intro s
  rw [TokimoHost.writeAll]
  cases hg : s.tree.get f.loc with
  | none => exact refl_of _ s
  | some i =>
      cases hi : i.node with
      | dir => simp only [hi]; exact refl_of _ s
      | symlink target => simp only [hi]; exact refl_of _ s
      | file old =>
          simp only [hi]
          by_cases hd : data.isEmpty = true
          · rw [if_pos hd]
            exact refl_of _ s
          · rw [if_neg hd]
            by_cases hfit : f.pos + data.length ≤ maxOffset
            · rw [if_pos hfit]
              exact keepsOff_putData hg hi _
            · rw [if_neg hfit]
              -- what still fits is written before the call fails
              by_cases hm : maxOffset ≤ f.pos
              · simp only [if_pos hm]
                exact refl_of _ s
              · simp only [if_neg hm]
                exact keepsOff_putData hg hi _

/-- So does `set_len`. -/
theorem setLen_keepsOff (f : Fd) (size : UInt64) :
    Eff.Within (KeepsOff L) (TokimoHost.setLen f size) := by
  intro s
  rw [TokimoHost.setLen]
  by_cases hm : maxOffset < size.toNat
  · rw [if_pos hm]
    exact refl_of _ s
  · rw [if_neg hm]
    cases hg : s.tree.get f.loc with
    | none => exact refl_of _ s
    | some i =>
        cases hi : i.node with
        | dir => simp only [hi]; exact refl_of _ s
        | symlink target => simp only [hi]; exact refl_of _ s
        | file old => simp only [hi]; exact keepsOff_putData hg hi _

/-- So does `create_dir`. -/
theorem createDir_keepsOff (p : PathBuf) :
    Eff.Within (KeepsOff L) (TokimoHost.createDir p) := by
  intro s
  rcases createDir_cases s p with ⟨d, n, slash, -, hn, h⟩ | ⟨e, h⟩
  · rw [h]
    exact (keepsOff_addNode hn _ _).touch _
  · rw [h]
    exact refl_of _ s

/-! ## Calls of `HostFs` that remove nothing -/

section Calls

variable (fs : HostFs)

/-- A call that leaves the tree alone spares everything. -/
theorem within_of_bare {ε α : Type} {x : Eff HostState ε α} (h : Eff.Frame bare x) :
    Eff.Within (KeepsOff L) x :=
  h.within fun _ _ hb => keepsOff_of_bare hb

/-- The check of the mount changes nothing. -/
theorem checkRw_keepsOff : Eff.Within (KeepsOff L) (fs.checkRw : VfsM HostState Unit) := by
  rw [HostFs.checkRw]
  by_cases h : fs.readOnly = true
  · rw [if_pos h]
    exact Eff.Within.fail _
  · rw [if_neg h]
    exact Eff.Within.pure _

/-- Nor does the check of the path. -/
theorem resolve_keepsOff (p : PathBuf) : Eff.Within (KeepsOff L) (fs.resolve posix p) :=
  within_of_bare (resolve_bare fs p)

/-- **WRITE** leaves every object in place. -/
theorem write_keepsOff (p : PathBuf) (off : UInt64) (data : Bytes) :
    Eff.Within (KeepsOff L) (fs.write posix p off data) :=
  Eff.Within.bind (checkRw_keepsOff fs) fun _ =>
    Eff.Within.bind (resolve_keepsOff fs p) fun _ =>
      Eff.Within.bind (Eff.Within.mapErr _ (openFile_keepsOff _ _)) fun f =>
        Eff.Within.bind (Eff.Within.mapErr _ (within_of_bare (bare_of_id (seek_frame f off))))
          fun _ => Eff.Within.bind (Eff.Within.mapErr _ (writeAll_keepsOff _ _)) fun _ =>
            Eff.Within.pure _

/-- **TRUNCATE** leaves every object in place. -/
theorem truncate_keepsOff (p : PathBuf) (size : UInt64) :
    Eff.Within (KeepsOff L) (fs.truncate posix p size) :=
  Eff.Within.bind (checkRw_keepsOff fs) fun _ =>
    Eff.Within.bind (resolve_keepsOff fs p) fun _ =>
      Eff.Within.bind (Eff.Within.mapErr _ (openFile_keepsOff _ _)) fun _ =>
        Eff.Within.mapErr _ (setLen_keepsOff _ _)

/-- **CREATE** leaves every object in place. -/
theorem create_keepsOff (p : PathBuf) (mode : UInt32) :
    Eff.Within (KeepsOff L) (fs.create posix p mode) :=
  Eff.Within.bind (checkRw_keepsOff fs) fun _ =>
    Eff.Within.bind (resolve_keepsOff fs p) fun q =>
      Eff.Within.bind (Eff.Within.mapErr _ (openFile_keepsOff _ _)) fun _ =>
        Eff.Within.bind (Eff.Within.mapErr _ (within_of_bare (symlinkMetadata_bare q)))
          fun _ => Eff.Within.pure _

/-- **MKDIR** leaves every object in place. -/
theorem mkdir_keepsOff (p : PathBuf) (mode : UInt32) :
    Eff.Within (KeepsOff L) (fs.mkdir posix p mode) :=
  Eff.Within.bind (checkRw_keepsOff fs) fun _ =>
    Eff.Within.bind (resolve_keepsOff fs p) fun q =>
      Eff.Within.bind (Eff.Within.mapErr _ (createDir_keepsOff _)) fun _ =>
        Eff.Within.bind (Eff.Within.mapErr _ (within_of_bare (symlinkMetadata_bare q)))
          fun _ => Eff.Within.pure _

/-! ## Calls of `HostFs` that remove or move -/

/-- The place of the entry a request path names. -/
def entryPlace (s : HostState) (p : PathBuf) : Option Loc :=
  match lookupParent s (fs.joined p) with
  | .ok (.entry d n _) => some (d ++ [n])
  | _ => none

/-- The places a rename moves something from and to. -/
def movedPlaces (s : HostState) (p q : PathBuf) : List Loc :=
  match entryPlace fs s p, entryPlace fs s q with
  | some src, some dst => if src = dst then [] else [src, dst]
  | _, _ => []

/-- A call fails and changes nothing, or spares everything but `L`. -/
def Spares (x : VfsM HostState Unit) (s : HostState) (L : List Loc) : Prop :=
  (∃ s', x s = (.ok (), s') ∧ KeepsOff L s s') ∨ ∃ e, x s = (.error e, s)

/-- The place of an entry is in the directory its path leads to. -/
theorem entryPlace_entry {s : HostState} {p : PathBuf} {d : Loc} {n : Name} {slash : Bool}
    (h : lookupParent s (fs.joined p) = .ok (.entry d n slash)) :
    entryPlace fs s p = some (d ++ [n]) := by
  rw [entryPlace, h]

/-- What is in front of an operation lets it happen, or fails. -/
theorem resolved_cases {α : Type} (x : PathBuf → VfsM HostState α) (s : HostState)
    (p : PathBuf) :
    (fs.resolve posix p >>= x) s = x (fs.joined p) s
      ∨ ∃ e, (fs.resolve posix p >>= x) s = (.error e, s) := by
  rcases resolve_cases fs s p with ⟨r, -, h⟩ | ⟨-, e, h⟩
  · exact Or.inl (Eff.bind_of_ok h)
  · exact Or.inr ⟨e, Eff.bind_of_error h⟩

/-- A call is let through and runs on the joined path, or is refused before it
    did anything. -/
theorem checked_cases {α : Type} (x : PathBuf → VfsM HostState α) (s : HostState)
    (p : PathBuf) :
    (fs.checkRw >>= fun _ => fs.resolve posix p >>= x) s = x (fs.joined p) s
      ∨ ∃ e, (fs.checkRw >>= fun _ => fs.resolve posix p >>= x) s = (.error e, s) := by
  cases hro : fs.readOnly with
  | true => exact Or.inr ⟨_, Eff.bind_of_error (checkRw_ro hro s)⟩
  | false =>
      rw [Eff.bind_of_ok (checkRw_rw hro s)]
      exact resolved_cases fs x s p

/-- **REMOVE** spares all but the entry its path names. -/
theorem remove_spares (s : HostState) (p : PathBuf) :
    Spares (fs.remove posix p) s (entryPlace fs s p).toList := by
  rcases checked_cases fs (fun q => Eff.mapErr HostFs.mapIo (posix.removeFile q)) s p
    with hx | ⟨e, hx⟩
  · rcases removeFile_cases s (fs.joined p) with ⟨d, n, hl, -, -, h⟩ | ⟨e, h⟩
    · refine Or.inl ⟨_, hx.trans (Eff.mapErr_of_ok h), ?_⟩
      rw [entryPlace_entry fs hl]
      exact (keepsOff_erase s _).touch _
    · exact Or.inr ⟨_, hx.trans (Eff.mapErr_of_error h)⟩
  · exact Or.inr ⟨e, hx⟩

/-- **RMDIR** spares all but the entry its path names. -/
theorem rmdir_spares (s : HostState) (p : PathBuf) :
    Spares (fs.rmdir posix p) s (entryPlace fs s p).toList := by
  rcases checked_cases fs (fun q => Eff.mapErr HostFs.mapIo (posix.removeDir q)) s p
    with hx | ⟨e, hx⟩
  · rcases removeDir_cases s (fs.joined p) with ⟨d, n, slash, hl, -, -, h⟩ | ⟨e, h⟩
    · refine Or.inl ⟨_, hx.trans (Eff.mapErr_of_ok h), ?_⟩
      rw [entryPlace_entry fs hl]
      exact (keepsOff_erase s _).touch _
    · exact Or.inr ⟨_, hx.trans (Eff.mapErr_of_error h)⟩
  · exact Or.inr ⟨e, hx⟩

/-- **RENAME** spares all but what was at its two places. -/
theorem rename_spares (s : HostState) (p q : PathBuf) :
    Spares (fs.rename posix p q) s (movedPlaces fs s p q) := by
  rcases checked_cases fs (fun f => fs.resolve posix q >>= fun t =>
    Eff.mapErr HostFs.mapIo (posix.rename f t)) s p with hx | ⟨e, hx⟩
  · rcases resolved_cases fs (fun t => Eff.mapErr HostFs.mapIo (posix.rename (fs.joined p) t)) s q
      with hy | ⟨e, hy⟩
    · rcases TokimoHost.rename_cases s (fs.joined p) (fs.joined q)
        with ⟨d, n, sl, d', n', sl', i, hp, hq, -, hc, h⟩ | ⟨e, h⟩
      · refine Or.inl ⟨_, (hx.trans hy).trans (Eff.mapErr_of_ok h), ?_⟩
        rw [movedPlaces, entryPlace_entry fs hp, entryPlace_entry fs hq]
        simp only
        by_cases heq : d ++ [n] = d' ++ [n']
        · rw [if_pos heq, if_pos heq]
          exact (refl_of (KeepsOff []) s).touch _
        · rw [if_neg heq, if_neg heq]
          obtain ⟨hsd, hds⟩ := renameCheck_ok hc heq
          exact (keepsOff_move s hsd hds).touch _
      · exact Or.inr ⟨_, (hx.trans hy).trans (Eff.mapErr_of_error h)⟩
    · exact Or.inr ⟨e, hx.trans hy⟩
  · exact Or.inr ⟨e, hx⟩

/-! ## Where a path leads -/

/-- The file a request path leads to, by its identity. -/
def fileAt (s : HostState) (p : PathBuf) : Option Nat :=
  match lookup s true (fs.joined p) with
  | .ok (.at l _) =>
      match s.tree.get l with
      | some i =>
          match i.node with
          | .file _ => some i.id
          | _ => none
      | none => none
  | _ => none

/-- The places a request path leads through, and the one it ends at. -/
def route (s : HostState) (p : PathBuf) : List Loc :=
  visits s.tree true symloopMax (startOf (fs.joined p) s.cwd) (fs.joined p).body
    ++ match lookup s true (fs.joined p) with
      | .ok w => [w.place]
      | .error _ => []

/-- The file a path leads to, as the lookup finds it. -/
theorem fileAt_iff {s : HostState} {p : PathBuf} {id : Nat} :
    fileAt fs s p = some id ↔ ∃ l k i data, lookup s true (fs.joined p) = .ok (.at l k)
      ∧ s.tree.get l = some i ∧ i.node = .file data ∧ i.id = id := by
  constructor
  · intro h
    rw [fileAt] at h
    cases hl : lookup s true (fs.joined p) with
    | error e =>
        rw [hl] at h
        cases h
    | ok w =>
        rw [hl] at h
        cases w with
        | missing d n slash => cases h
        | «at» l k =>
            cases hg : s.tree.get l with
            | none =>
                simp only [hg] at h
                cases h
            | some i =>
                simp only [hg] at h
                cases hi : i.node with
                | dir =>
                    rw [hi] at h
                    cases h
                | symlink target =>
                    rw [hi] at h
                    cases h
                | file data =>
                    rw [hi] at h
                    exact ⟨l, k, i, data, rfl, hg, hi, Option.some.inj h⟩
  · rintro ⟨l, k, i, data, hl, hg, hi, hid⟩
    rw [fileAt, hl]
    simp only [hg, hi, hid]

/-- **A PATH KEEPS ITS FILE**: where nothing on its way is named, a path leads
    to the file it led to. -/
theorem fileAt_kept {s s' : HostState} {L : List Loc} (h : KeepsOff L s s') {p : PathBuf}
    {id : Nat} (hf : fileAt fs s p = some id)
    (hoff : ∀ l ∈ L, ∀ v ∈ route fs s p, ¬ l <+: v) : fileAt fs s' p = some id := by
  obtain ⟨l, k, i, data, hl, hg, hi, hid⟩ := (fileAt_iff fs).mp hf
  obtain ⟨hnul, hne, hwalk⟩ := lookup_ok hl
  have hend : l ∈ route fs s p := by
    rw [route, hl]
    exact List.mem_append_right _ (List.mem_singleton.mpr rfl)
  -- every place on the way is taken, and what is there has kept its shape
  have hshape : ∀ v ∈ visits s.tree true symloopMax (startOf (fs.joined p) s.cwd)
      (fs.joined p).body, shapeAt s.tree v = shapeAt s'.tree v := by
    intro v hv
    cases hgv : s.tree.get v with
    | none => exact absurd (nodeAt_none_iff.mpr hgv) (visits_some _ _ _ hwalk v hv)
    | some j =>
        obtain ⟨j', hj', hsame⟩ :=
          h.kept hgv fun x hx => hoff x hx v (List.mem_append_left _ hv)
        rw [shapeAt, shapeAt, nodeAt_of_get hgv, nodeAt_of_get hj']
        exact congrArg some hsame.shape.symm
  have hl' : lookup s' true (fs.joined p) = .ok (.at l k) := by
    rw [lookup_walk hnul hne, h.cwd, (walk_agree _ _ _ hshape).1]
    exact hwalk
  obtain ⟨i', hg', hsame⟩ := h.kept hg fun x hx => hoff x hx l hend
  have hfile : ∃ data', i'.node = .file data' := by
    have hs := hsame.shape
    rw [hi] at hs
    cases hn : i'.node with
    | file data' => exact ⟨data', rfl⟩
    | dir => rw [hn] at hs; cases hs
    | symlink target => rw [hn] at hs; cases hs
  obtain ⟨data', hi'⟩ := hfile
  exact (fileAt_iff fs).mpr ⟨l, k, i', data', hl', hg', hi', hsame.id.trans hid⟩

/-! ## Which object reading and writing is about -/

/-- A write changes the file of its handle and no other place. -/
theorem writeAll_elsewhere (f : Fd) (data : Bytes) (s : HostState) (v : Loc) (hv : v ≠ f.loc) :
    (TokimoHost.writeAll f data s).2.tree.get v = s.tree.get v := by
  have hput : ∀ (i : Inode) (new : Bytes),
      (s.putData f.loc i new).tree.get v = s.tree.get v := by
    intro i new
    rw [HostState.putData, HostState.setTree_tree, Table.get_insert_ne _ _ (fun h => hv h.symm)]
  rw [TokimoHost.writeAll]
  cases hg : s.tree.get f.loc with
  | none => rfl
  | some i =>
      cases hi : i.node with
      | dir => simp only [hi]
      | symlink target => simp only [hi]
      | file old =>
          simp only [hi]
          by_cases hd : data.isEmpty = true
          · rw [if_pos hd]
          · rw [if_neg hd]
            by_cases hfit : f.pos + data.length ≤ maxOffset
            · rw [if_pos hfit]
              exact hput _ _
            · rw [if_neg hfit]
              by_cases hm : maxOffset ≤ f.pos
              · simp only [if_pos hm]
              · simp only [if_neg hm]
                exact hput _ _

/-- What opening a file to write it leaves: something at the place it leads
    to, and every other place as it was. -/
theorem Opened.place {s s' : HostState} {o : OpenOptions} {w : Walked} (h : Opened o s w s')
    (ho : opens o s.tree w = true) :
    (∃ i, s'.tree.get w.place = some i)
      ∧ ∀ v, v ≠ w.place → s'.tree.get v = s.tree.get v := by
  cases h with
  | new d n hn =>
      refine ⟨⟨_, Table.get_insert_self _ _ _⟩, ?_⟩
      intro v hv
      exact Table.get_insert_ne _ _ fun heq => hv heq.symm
  | dir l k hn _ =>
      obtain ⟨i, hi, -⟩ := get_of_nodeAt hn
      exact ⟨⟨i, hi⟩, fun _ _ => rfl⟩
  | cut l k i data hg hi ht =>
      refine ⟨⟨_, Table.get_insert_self _ _ _⟩, ?_⟩
      intro v hv
      exact Table.get_insert_ne _ _ fun heq => hv heq.symm
  | keep l k i data hg hi ht => exact ⟨⟨i, hg⟩, fun _ _ => rfl⟩

/-- **WHAT `write` IS ABOUT**: the place the path leads to, free or not; where
    it cannot be opened, nothing. -/
theorem write_cases (s : HostState) (p : PathBuf) (off : UInt64) (data : Bytes) :
    (∃ r w, Accepted s fs p r ∧ fs.readOnly = false
        ∧ lookup s true (fs.joined p) = .ok w ∧ opens writeOptions s.tree w = true
        ∧ (∃ i, (fs.write posix p off data s).2.tree.get w.place = some i)
        ∧ ∀ v, v ≠ w.place → (fs.write posix p off data s).2.tree.get v = s.tree.get v)
      ∨ ((∃ e, fs.write posix p off data s = (.error e, s))
        ∧ (fs.readOnly = true ∨ (∀ r, ¬ Accepted s fs p r)
          ∨ ∀ w, lookup s true (fs.joined p) = .ok w → opens writeOptions s.tree w = false)) := by
  let after : Fd → VfsM HostState UInt32 := fun f =>
    Eff.mapErr HostFs.mapIo (TokimoHost.seek f off) >>= fun g =>
      Eff.mapErr HostFs.mapIo (TokimoHost.writeAll g data) >>= fun _ =>
        pure (UInt32.ofNat data.length)
  let opened : VfsM HostState UInt32 :=
    Eff.mapErr HostFs.mapIo (TokimoHost.openFile writeOptions (fs.joined p)) >>= after
  -- after opening, only the place of the file is written
  have hafter : ∀ (f : Fd) (t : HostState), (∃ i, t.tree.get f.loc = some i) →
      (∃ i, (after f t).2.tree.get f.loc = some i)
        ∧ ∀ v, v ≠ f.loc → (after f t).2.tree.get v = t.tree.get v := by
    rintro f t ⟨i, hi⟩
    by_cases hoff : off.toNat ≤ maxOffset
    · have hseek : TokimoHost.seek f off t = (.ok { f with pos := off.toNat }, t) := by
        rw [TokimoHost.seek, if_pos hoff]
      have hstate : (after f t).2
          = (TokimoHost.writeAll { f with pos := off.toNat } data t).2 := by
        have hbind : after f t = _ := Eff.bind_of_ok (Eff.mapErr_of_ok hseek)
        rw [hbind, Eff.bind_pure_state, Eff.mapErr_state]
      rw [hstate]
      have hkeep : KeepsOff [] t (TokimoHost.writeAll { f with pos := off.toNat } data t).2 :=
        writeAll_keepsOff _ _ t
      obtain ⟨i', hi', -⟩ := hkeep.kept hi fun l hl => by cases hl
      exact ⟨⟨i', hi'⟩, fun v hv => writeAll_elsewhere _ data t v hv⟩
    · have hseek : TokimoHost.seek f off t = (.error EINVAL, t) := by
        rw [TokimoHost.seek, if_neg hoff]
      have hbind : after f t = _ := Eff.bind_of_error (Eff.mapErr_of_error hseek)
      rw [hbind]
      exact ⟨⟨i, hi⟩, fun _ _ => rfl⟩
  cases hro : fs.readOnly with
  | true =>
      have hx : fs.write posix p off data s = _ := guarded_ro hro _ s
      exact Or.inr ⟨⟨_, hx⟩, Or.inl rfl⟩
  | false =>
      rcases resolve_cases fs s p with ⟨r, hacc, hres⟩ | ⟨hno, e, hres⟩
      · have hx : fs.write posix p off data s = opened s := by
          have h1 : fs.write posix p off data s = _ := Eff.bind_of_ok (checkRw_rw hro s)
          rw [h1, Eff.bind_of_ok hres]
          rfl
        rcases openFile_cases writeOptions s (fs.joined p)
          with ⟨w, s₁, hl, hopens, hopened, hopen⟩ | ⟨⟨e, hopen⟩, hno⟩
        · refine Or.inl ⟨r, w, hacc, rfl, hl, hopens, ?_⟩
          obtain ⟨hthere, helse⟩ := Opened.place hopened hopens
          have hy : opened s = after ⟨w.place, 0⟩ (s₁.touch [w.place]) :=
            Eff.bind_of_ok (Eff.mapErr_of_ok hopen)
          obtain ⟨hthere', helse'⟩ := hafter ⟨w.place, 0⟩ (s₁.touch [w.place]) hthere
          rw [hx, hy]
          exact ⟨hthere', fun v hv => (helse' v hv).trans (helse v hv)⟩
        · have hy : opened s = (.error (HostFs.mapIo e), s) :=
            Eff.bind_of_error (Eff.mapErr_of_error hopen)
          exact Or.inr ⟨⟨_, hx.trans hy⟩, Or.inr (Or.inr hno)⟩
      · have hx : fs.write posix p off data s = (.error e, s) := by
          have h1 : fs.write posix p off data s = _ := Eff.bind_of_ok (checkRw_rw hro s)
          rw [h1, Eff.bind_of_error hres]
        exact Or.inr ⟨⟨e, hx⟩, Or.inr (Or.inl hno)⟩

/-- The bytes of a file; nothing else has any. -/
def nodeBytes : Node → Bytes
  | .file data => data
  | _ => []

/-- A directory has no bytes: asked for none the loop returns none, asked for
    some it fails. -/
theorem fill_dir {s : HostState} {f : Fd} {want : Nat} (hn : nodeAt s.tree f.loc = some .dir) :
    HostFs.fill posix want want f [] s
      = if want = 0 then (.ok [], s) else (.error (HostFs.mapIo EISDIR), s) := by
  cases want with
  | zero => rfl
  | succ want =>
      have hread : posix.read f (want + 1 - ([] : Bytes).length) s = (.error EISDIR, s) := by
        show TokimoHost.read f _ s = _
        rw [TokimoHost.read, hn]
      have hlt : ([] : Bytes).length < want + 1 := Nat.zero_lt_succ want
      rw [HostFs.fill, if_pos hlt, if_neg (Nat.succ_ne_zero want)]
      exact Eff.bind_of_error (Eff.mapErr_of_error hread)

/-- **WHAT `read` IS ABOUT**: the object the path leads to, whose bytes it
    returns; where it cannot be opened, nothing. -/
theorem read_cases (s : HostState) (p : PathBuf) (off : UInt64) (len : UInt32) :
    (∃ r l k i, Accepted s fs p r ∧ lookup s true (fs.joined p) = .ok (.at l k)
        ∧ opens readOptions s.tree (.at l k) = true ∧ s.tree.get l = some i
        ∧ (fs.read posix p off len s).2 = s.touch [l]
        ∧ (∀ d, (fs.read posix p off len s).1 = .ok d →
          d = sliceBytes off.toNat len.toNat (nodeBytes i.node))
        ∧ (off = 0 → len = 0 → (fs.read posix p off len s).1 = .ok []))
      ∨ ((∃ e, fs.read posix p off len s = (.error e, s))
        ∧ ((∀ r, ¬ Accepted s fs p r)
          ∨ ∀ w, lookup s true (fs.joined p) = .ok w → opens readOptions s.tree w = false)) := by
  let after : Fd → VfsM HostState Bytes := fun f =>
    Eff.mapErr HostFs.mapIo (TokimoHost.seek f off) >>= fun g =>
      HostFs.fill posix len.toNat len.toNat g []
  let opened : VfsM HostState Bytes :=
    Eff.mapErr HostFs.mapIo (TokimoHost.openFile readOptions (fs.joined p)) >>= after
  rcases resolve_cases fs s p with ⟨r, hacc, hres⟩ | ⟨hno, e, hres⟩
  · have hx : fs.read posix p off len s = opened s := Eff.bind_of_ok hres
    rcases openFile_cases readOptions s (fs.joined p)
      with ⟨w, s₁, hl, hopens, hopened, hopen⟩ | ⟨⟨e, hopen⟩, hno⟩
    -- opened to read, nothing is made or cut
    · have hat : ∃ l k i, w = .at l k ∧ s.tree.get l = some i ∧ s₁ = s
          ∧ (i.node = .dir ∨ ∃ data, i.node = .file data) := by
        cases hopened with
        | new d n hn => cases hopens
        | dir l k hn _ =>
            obtain ⟨i, hi, hnode⟩ := get_of_nodeAt hn
            exact ⟨l, k, i, rfl, hi, rfl, Or.inl hnode⟩
        | cut l k i data hg hi ht => cases ht
        | keep l k i data hg hi ht => exact ⟨l, k, i, rfl, hg, rfl, Or.inr ⟨data, hi⟩⟩
      obtain ⟨l, k, i, rfl, hg, rfl, hnode⟩ := hat
      have hy : opened s₁ = after ⟨l, 0⟩ (s₁.touch [l]) :=
        Eff.bind_of_ok (Eff.mapErr_of_ok hopen)
      refine Or.inl ⟨r, l, k, i, hacc, hl, hopens, hg, ?_, ?_, ?_⟩
      · rw [hx, hy]
        have hframe : Eff.Frame id (after ⟨l, 0⟩) :=
          Eff.Frame.bind (Eff.Frame.mapErr _ (seek_frame _ _)) fun g => fill_frame _ _ g []
        exact hframe (s₁.touch [l])
      · intro d hd
        rw [hx, hy] at hd
        by_cases hoff : off.toNat ≤ maxOffset
        · have hseek : TokimoHost.seek ⟨l, 0⟩ off (s₁.touch [l])
              = (.ok ⟨l, off.toNat⟩, s₁.touch [l]) := by
            rw [TokimoHost.seek, if_pos hoff]
          have hz : after ⟨l, 0⟩ (s₁.touch [l]) = _ :=
            Eff.bind_of_ok (Eff.mapErr_of_ok hseek)
          rw [hz] at hd
          have hn : nodeAt (s₁.touch [l]).tree l = some i.node := nodeAt_of_get hg
          rcases hnode with hdir | ⟨data, hfile⟩
          · -- a directory gives nothing, and fails when asked for something
            rw [fill_dir (hn.trans (congrArg some hdir))] at hd
            by_cases hzero : len.toNat = 0
            · rw [if_pos hzero] at hd
              rw [← Except.ok.inj hd, hdir, hzero]
              rfl
            · rw [if_neg hzero] at hd
              cases hd
          · rw [fill_file data len.toNat off.toNat len.toNat ⟨l, off.toNat⟩ []
              (hn.trans (congrArg some hfile)) rfl rfl (Nat.zero_le _) (Nat.le_refl _)] at hd
            rw [← Except.ok.inj hd, hfile]
            rfl
        · have hseek : TokimoHost.seek ⟨l, 0⟩ off (s₁.touch [l])
              = (.error EINVAL, s₁.touch [l]) := by
            rw [TokimoHost.seek, if_neg hoff]
          have hz : after ⟨l, 0⟩ (s₁.touch [l]) = _ :=
            Eff.bind_of_error (Eff.mapErr_of_error hseek)
          rw [hz] at hd
          cases hd
      · rintro rfl rfl
        rw [hx, hy]
        rfl
    · have hy : opened s = (.error (HostFs.mapIo e), s) :=
        Eff.bind_of_error (Eff.mapErr_of_error hopen)
      exact Or.inr ⟨⟨_, hx.trans hy⟩, Or.inr hno⟩
  · have hx : fs.read posix p off len s = (.error e, s) := Eff.bind_of_error hres
    exact Or.inr ⟨⟨e, hx⟩, Or.inl hno⟩

end Calls

end TokimoHostFs
