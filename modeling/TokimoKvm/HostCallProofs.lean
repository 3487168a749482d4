import TokimoKvm.PathWalkProofs

/-! # Host calls — one lemma for what each of them can have done

    A call fails and leaves the host as it was, or succeeds and notes the
    place it acted on.  Later files cite these lemmas and do not look into
    the calls again. -/

namespace TokimoHost

open TokimoMachine TokimoBytes TokimoPath TokimoTable TokimoVfsCore

/-- The place a walk has found, taken or free. -/
def Walked.place : Walked → Loc
  | .at l _ => l
  | .missing d n _ => d ++ [n]

theorem nodeAt_of_get {t : Tree} {l : Loc} {i : Inode} (h : t.get l = some i) :
    nodeAt t l = some i.node := by
  rw [nodeAt, h]
  rfl

theorem get_of_nodeAt {t : Tree} {l : Loc} {node : Node} (h : nodeAt t l = some node) :
    ∃ i, t.get l = some i ∧ i.node = node :=
  Option.map_eq_some_iff.mp h

theorem nodeAt_none_iff {t : Tree} {l : Loc} : nodeAt t l = none ↔ t.get l = none :=
  Option.map_eq_none_iff

theorem nodeAt_insert (t : Tree) (l v : Loc) (i : Inode) :
    nodeAt (t.insert l i) v = if l = v then some i.node else nodeAt t v := by
  rw [nodeAt, Table.get_insert]
  by_cases h : l = v
  · rw [if_pos h, if_pos h]; rfl
  · rw [if_neg h, if_neg h]; rfl

/-- A resolved path can be walked. -/
theorem lookup_ok {s : HostState} {follow : Bool} {p : PathBuf} {w : Walked}
    (h : lookup s follow p = .ok w) :
    p.hasNul = false ∧ p.isEmptyStr = false
      ∧ walk s.tree follow symloopMax (startOf p s.cwd) p.body = .ok w := by
  rw [lookup] at h
  cases hn : p.hasNul with
  | true => rw [hn] at h; exact nomatch h
  | false =>
      cases he : p.isEmptyStr with
      | true => rw [hn, he] at h; exact nomatch h
      | false => rw [hn, he] at h; exact ⟨rfl, rfl, h⟩

/-- A path that can be walked is resolved by walking it. -/
theorem lookup_walk {s : HostState} {follow : Bool} {p : PathBuf}
    (hn : p.hasNul = false) (he : p.isEmptyStr = false) :
    lookup s follow p = walk s.tree follow symloopMax (startOf p s.cwd) p.body := by
  rw [lookup, hn, he]
  rfl

theorem realpath_ok {s : HostState} {p : PathBuf} {l : Loc} (h : realpath s p = .ok l) :
    ∃ k, lookup s true p = .ok (.at l k) := by
  rw [realpath] at h
  cases hl : lookup s true p with
  | error e => rw [hl] at h; exact nomatch h
  | ok w =>
      cases w with
      | missing d n slash => rw [hl] at h; exact nomatch h
      | «at» l' k =>
          rw [hl] at h
          injection h with h
          rw [h]
          exact ⟨k, rfl⟩

/-- A call that makes or removes an entry enters the directory the pieces
    before the last name lead to. -/
theorem lookupParent_entry {s : HostState} {p : PathBuf} {d : Loc} {n : Name}
    {slash : Bool} (h : lookupParent s p = .ok (.entry d n slash)) :
    p.hasNul = false ∧ p.isEmptyStr = false ∧ ∃ (l tail : List Seg) (k : Nat),
      p.body = l ++ .name n :: tail ∧ (∀ t ∈ tail, t.isSkip = true)
      ∧ walk s.tree true symloopMax (startOf p s.cwd) (l ++ [.empty])
        = .ok (.at d k) := by
  rw [lookupParent] at h
  cases hn : p.hasNul with
  | true => rw [hn] at h; cases h
  | false =>
      cases he : p.isEmptyStr with
      | true => rw [hn, he] at h; cases h
      | false =>
          simp only [hn, he, Bool.false_eq_true, if_false] at h
          obtain ⟨tail, hsplit, htail⟩ := rdropWhile_split (· == Seg.empty) p.body
          have hdrop : p.body = dropSlashes p.body ++ tail := hsplit
          have hskip : ∀ t ∈ tail, t.isSkip = true := by
            intro t ht
            have h1 : t = .empty := by simpa using htail t ht
            rw [h1]
            rfl
          split at h
          · next n' hlast =>
              cases hwk : walk s.tree true symloopMax (startOf p s.cwd)
                  ((dropSlashes p.body).dropLast ++ [.empty]) with
              | error e => simp only [hwk] at h; cases h
              | ok w =>
                  cases w with
                  | missing d' m sl => simp only [hwk] at h; cases h
                  | «at» d' k =>
                      simp only [hwk] at h
                      injection h with h
                      injection h with h1 h2 h3
                      rw [← h1, ← h2]
                      refine ⟨rfl, rfl, (dropSlashes p.body).dropLast, tail, k, ?_, hskip, hwk⟩
                      obtain ⟨ys, hys⟩ := List.getLast?_eq_some_iff.mp hlast
                      rw [hys, List.dropLast_concat, ← List.singleton_append,
                        ← List.append_assoc, ← hys]
                      exact hdrop
          · cases hwk : walk s.tree true symloopMax (startOf p s.cwd) p.body with
            | error e => simp only [hwk] at h; cases h
            | ok w =>
                cases w with
                | missing d' m sl => simp only [hwk] at h; cases h
                | «at» d' k => simp only [hwk] at h; cases h

/-! ## Calls that look -/

/-- `lstat` fails, or finds the object the path names. -/
theorem symlinkMetadata_cases (s : HostState) (p : PathBuf) :
    (∃ l k i, lookup s false p = .ok (.at l k) ∧ s.tree.get l = some i
        ∧ symlinkMetadata p s = (.ok i.metadata, s.touch [l]))
      ∨ ((∃ e, symlinkMetadata p s = (.error e, s))
        ∧ ∀ l k, lookup s false p = .ok (.at l k) → nodeAt s.tree l = none) := by
  rw [symlinkMetadata]
  cases hl : lookup s false p with
  | error e => exact Or.inr ⟨⟨e, rfl⟩, fun l k h => nomatch h⟩
  | ok w =>
      cases w with
      | missing d n slash => exact Or.inr ⟨⟨ENOENT, rfl⟩, fun l k h => nomatch h⟩
      | «at» l k =>
          cases hg : s.tree.get l with
          | none =>
              refine Or.inr ⟨⟨ENOENT, by simp only [hg]⟩, ?_⟩
              intro l' k' h
              injection h with h
              injection h with h1 h2
              rw [← h1]
              exact nodeAt_none_iff.mpr hg
          | some i => exact Or.inl ⟨l, k, i, rfl, hg, by simp only [hg]⟩

/-- `readdir` fails, or lists the directory the path leads to. -/
theorem readDir_cases (s : HostState) (p : PathBuf) :
    (∃ l k, lookup s true p = .ok (.at l k) ∧ nodeAt s.tree l = some .dir
        ∧ readDir p s = (.ok ((s.tree.children l).map
            (fun e => (e.1, e.2.node.kind))), s.touch [l]))
      ∨ ((∃ e, readDir p s = (.error e, s))
        ∧ ∀ l k, lookup s true p = .ok (.at l k) → nodeAt s.tree l ≠ some .dir) := by
  rw [readDir]
  cases hl : lookup s true p with
  | error e => exact Or.inr ⟨⟨e, rfl⟩, fun l k h => nomatch h⟩
  | ok w =>
      cases w with
      | missing d n slash => exact Or.inr ⟨⟨ENOENT, rfl⟩, fun l k h => nomatch h⟩
      | «at» l k =>
          have hat : ∀ l' k', Except.ok (Walked.at l k) = (.ok (.at l' k') : Except IoError _)
              → l' = l := by
            intro l' k' h
            injection h with h
            injection h with h1 h2
            exact h1.symm
          cases hn : nodeAt s.tree l with
          | none =>
              refine Or.inr ⟨⟨ENOENT, by simp only [hn]⟩, ?_⟩
              intro l' k' h
              rw [hat l' k' h, hn]
              exact fun h => nomatch h
          | some node =>
              cases node with
              | dir => exact Or.inl ⟨l, k, rfl, hn, by simp only [hn]⟩
              | file data =>
                  refine Or.inr ⟨⟨ENOTDIR, by simp only [hn]⟩, ?_⟩
                  intro l' k' h
                  rw [hat l' k' h, hn]
                  exact fun h => nomatch h
              | symlink target =>
                  refine Or.inr ⟨⟨ENOTDIR, by simp only [hn]⟩, ?_⟩
                  intro l' k' h
                  rw [hat l' k' h, hn]
                  exact fun h => nomatch h

/-! ## Opening -/

/-- What `open` admits: files, directories to read, and with `create` a free
    place without a slash behind it. -/
def opens (o : OpenOptions) (t : Tree) : Walked → Bool
  | .missing _ _ slash => o.create && !slash
  | .at l _ =>
      match nodeAt t l with
      | some .dir => !o.write
      | some (.file _) => true
      | _ => false

/-- What opening leaves. -/
inductive Opened (o : OpenOptions) (s : HostState) : Walked → HostState → Prop where
  | new (d : Loc) (n : Name) : nodeAt s.tree (d ++ [n]) = none →
      Opened o s (.missing d n false) (s.addNode (d ++ [n]) (.file []) s.fileMode)
  | dir (l : Loc) (k : Nat) : nodeAt s.tree l = some .dir → o.write = false →
      Opened o s (.at l k) s
  | cut (l : Loc) (k : Nat) (i : Inode) (data : Bytes) : s.tree.get l = some i →
      i.node = .file data → o.truncate = true → Opened o s (.at l k) (s.putData l i [])
  | keep (l : Loc) (k : Nat) (i : Inode) (data : Bytes) : s.tree.get l = some i →
      i.node = .file data → o.truncate = false → Opened o s (.at l k) s

/-- `open` fails, or opens what the path leads to. -/
theorem openFile_cases (o : OpenOptions) (s : HostState) (p : PathBuf) :
    (∃ w s', lookup s true p = .ok w ∧ opens o s.tree w = true ∧ Opened o s w s'
        ∧ openFile o p s = (.ok ⟨w.place, 0⟩, s'.touch [w.place]))
      ∨ ((∃ e, openFile o p s = (.error e, s))
        ∧ ∀ w, lookup s true p = .ok w → opens o s.tree w = false) := by
  rw [openFile]
  cases hl : lookup s true p with
  | error e => exact Or.inr ⟨⟨e, rfl⟩, fun w h => nomatch h⟩
  | ok w =>
      have hw : ∀ w', (.ok w : Except IoError Walked) = .ok w' → w' = w :=
        fun w' h => (Except.ok.inj h).symm
      cases w with
      | missing d n slash =>
          -- what is missing is made if that is asked for, with no slash behind it
          cases hc : o.create with
          | false =>
              refine Or.inr ⟨⟨ENOENT, rfl⟩, ?_⟩
              intro w' h
              rw [hw w' h, opens, hc]
              rfl
          | true =>
              cases slash with
              | true =>
                  refine Or.inr ⟨⟨EISDIR, rfl⟩, ?_⟩
                  intro w' h
                  rw [hw w' h, opens, hc]
                  rfl
              | false =>
                  obtain ⟨-, -, hwalk⟩ := lookup_ok hl
                  refine Or.inl ⟨_, _, rfl, ?_,
                    Opened.new d n (walk_missing _ _ _ hwalk), rfl⟩
                  rw [opens, hc]
                  rfl
      | «at» l k =>
          cases hg : s.tree.get l with
          | none =>
              refine Or.inr ⟨⟨ENOENT, by simp only [hg]⟩, ?_⟩
              intro w' h
              rw [hw w' h, opens, nodeAt_none_iff.mpr hg]
          | some i =>
              have hn := nodeAt_of_get hg
              cases hi : i.node with
              | dir =>
                  rw [hi] at hn
                  cases ho : o.write with
                  | true =>
                      refine Or.inr ⟨⟨EISDIR, by simp only [hg, hi]; rfl⟩, ?_⟩
                      intro w' h
                      rw [hw w' h, opens, hn]
                      simp only [ho, Bool.not_true]
                  | false =>
                      refine Or.inl ⟨_, _, rfl, ?_, Opened.dir l k hn ho, ?_⟩
                      · rw [opens, hn]
                        simp only [ho, Bool.not_false]
                      · simp only [hg, hi]
                        rfl
              | file data =>
                  rw [hi] at hn
                  cases ht : o.truncate with
                  | true =>
                      refine Or.inl ⟨_, _, rfl, ?_, Opened.cut l k i data hg hi ht, ?_⟩
                      · rw [opens, hn]
                      · simp only [hg, hi]
                        rfl
                  | false =>
                      refine Or.inl ⟨_, _, rfl, ?_, Opened.keep l k i data hg hi ht, ?_⟩
                      · rw [opens, hn]
                      · simp only [hg, hi]
                        rfl
              -- a link at the end of a followed path does not come up in a good tree
              | symlink target =>
                  rw [hi] at hn
                  refine Or.inr ⟨⟨ELOOP, by simp only [hg, hi]⟩, ?_⟩
                  intro w' h
                  rw [hw w' h, opens, hn]

/-- What was there keeps its shape when something is opened. -/
theorem Opened.extends {o : OpenOptions} {s s' : HostState} {w : Walked}
    (h : Opened o s w s') :
    s'.cwd = s.cwd ∧ s'.touched = s.touched
      ∧ ∀ v, nodeAt s.tree v ≠ none → shapeAt s.tree v = shapeAt s'.tree v := by
  cases h with
  | new d n hn =>
      refine ⟨rfl, rfl, ?_⟩
      intro v hv
      rw [shapeAt, shapeAt, HostState.addNode, nodeAt_insert]
      by_cases hd : d ++ [n] = v
      · rw [← hd] at hv
        exact absurd hn hv
      · rw [if_neg hd]
  | dir l k hn ho => exact ⟨rfl, rfl, fun _ _ => rfl⟩
  | cut l k i data hg hi ht =>
      refine ⟨rfl, rfl, ?_⟩
      intro v _
      rw [shapeAt, shapeAt, HostState.putData, HostState.setTree_tree, nodeAt_insert]
      by_cases hd : l = v
      · rw [if_pos hd, ← hd, nodeAt_of_get hg, hi]
        rfl
      · rw [if_neg hd]
  | keep l k i data hg hi ht => exact ⟨rfl, rfl, fun _ _ => rfl⟩

/-! ## Calls that make, remove and rename entries -/

/-- `mkdir` fails, or adds a directory at a free name. -/
theorem createDir_cases (s : HostState) (p : PathBuf) :
    (∃ d n slash, lookupParent s p = .ok (.entry d n slash)
        ∧ nodeAt s.tree (d ++ [n]) = none
        ∧ createDir p s = (.ok (), (s.addNode (d ++ [n]) .dir (s.newDirMode d)).touch [d ++ [n]]))
      ∨ ∃ e, createDir p s = (.error e, s) := by
  rw [createDir]
  cases hl : lookupParent s p with
  | error e => exact Or.inr ⟨e, rfl⟩
  | ok w =>
      cases w with
      | dots last => exact Or.inr ⟨EEXIST, rfl⟩
      | entry d n slash =>
          cases hg : s.tree.get (d ++ [n]) with
          | some i => exact Or.inr ⟨EEXIST, by simp only [hg]⟩
          | none =>
              exact Or.inl ⟨d, n, slash, rfl, nodeAt_none_iff.mpr hg, by simp only [hg]⟩

/-- `unlink` fails, or removes a file or a link. -/
theorem removeFile_cases (s : HostState) (p : PathBuf) :
    (∃ d n, lookupParent s p = .ok (.entry d n false)
        ∧ nodeAt s.tree (d ++ [n]) ≠ none ∧ nodeAt s.tree (d ++ [n]) ≠ some .dir
        ∧ removeFile p s
          = (.ok (), (s.setTree (s.tree.erase (d ++ [n]))).touch [d ++ [n]]))
      ∨ ∃ e, removeFile p s = (.error e, s) := by
  rw [removeFile]
  cases hl : lookupParent s p with
  | error e => exact Or.inr ⟨e, rfl⟩
  | ok w =>
      cases w with
      | dots last => exact Or.inr ⟨EISDIR, rfl⟩
      | entry d n slash =>
          cases hn : nodeAt s.tree (d ++ [n]) with
          | none => exact Or.inr ⟨ENOENT, by simp only [hn]⟩
          | some node =>
              cases node with
              | dir => exact Or.inr ⟨EISDIR, by simp only [hn]⟩
              | file data =>
                  cases slash with
                  | true => exact Or.inr ⟨ENOTDIR, by simp only [hn]; rfl⟩
                  | false =>
                      exact Or.inl ⟨d, n, rfl, by rw [hn]; exact (fun h => nomatch h),
                        by rw [hn]; exact (fun h => nomatch h), by simp only [hn]; rfl⟩
              | symlink target =>
                  cases slash with
                  | true => exact Or.inr ⟨ENOTDIR, by simp only [hn]; rfl⟩
                  | false =>
                      exact Or.inl ⟨d, n, rfl, by rw [hn]; exact (fun h => nomatch h),
                        by rw [hn]; exact (fun h => nomatch h), by simp only [hn]; rfl⟩

/-- `rmdir` fails, or removes an empty directory. -/
theorem removeDir_cases (s : HostState) (p : PathBuf) :
    (∃ d n slash, lookupParent s p = .ok (.entry d n slash)
        ∧ nodeAt s.tree (d ++ [n]) = some .dir ∧ s.tree.children (d ++ [n]) = []
        ∧ removeDir p s
          = (.ok (), (s.setTree (s.tree.erase (d ++ [n]))).touch [d ++ [n]]))
      ∨ ∃ e, removeDir p s = (.error e, s) := by
  rw [removeDir]
  cases hl : lookupParent s p with
  | error e => exact Or.inr ⟨e, rfl⟩
  | ok w =>
      cases w with
      | dots last =>
          cases last with
          | up => exact Or.inr ⟨ENOTEMPTY, rfl⟩
          | cur => exact Or.inr ⟨EINVAL, rfl⟩
          | empty => exact Or.inr ⟨EBUSY, rfl⟩
          | name n => exact Or.inr ⟨EBUSY, rfl⟩
      | entry d n slash =>
          cases hn : nodeAt s.tree (d ++ [n]) with
          | none => exact Or.inr ⟨ENOENT, by simp only [hn]⟩
          | some node =>
              cases node with
              | file data => exact Or.inr ⟨ENOTDIR, by simp only [hn]⟩
              | symlink target => exact Or.inr ⟨ENOTDIR, by simp only [hn]⟩
              | dir =>
                  cases hc : s.tree.children (d ++ [n]) with
                  | cons a rest =>
                      refine Or.inr ⟨ENOTEMPTY, ?_⟩
                      simp only [hn, hc]
                      rfl
                  | nil =>
                      refine Or.inl ⟨d, n, slash, rfl, hn, hc, ?_⟩
                      simp only [hn, hc]
                      rfl

/-- `rename` fails, or carries what is at one name to another. -/
theorem rename_cases (s : HostState) (p q : PathBuf) :
    (∃ d n sl d' n' sl' i, lookupParent s p = .ok (.entry d n sl)
        ∧ lookupParent s q = .ok (.entry d' n' sl') ∧ s.tree.get (d ++ [n]) = some i
        ∧ renameCheck s.tree (d ++ [n]) (d' ++ [n']) i (sl || sl') = .ok ()
        ∧ rename p q s = (.ok (),
          (if d ++ [n] = d' ++ [n'] then s
            else s.setTree (s.tree.move (d ++ [n]) (d' ++ [n']))).touch
            [d ++ [n], d' ++ [n']]))
      ∨ ∃ e, rename p q s = (.error e, s) := by
  rw [rename]
  cases hp : lookupParent s p with
  | error e => exact Or.inr ⟨e, rfl⟩
  | ok w =>
      cases hq : lookupParent s q with
      | error e => exact Or.inr ⟨e, rfl⟩
      | ok w' =>
          cases w with
          | dots last => exact Or.inr ⟨EBUSY, rfl⟩
          | entry d n sl =>
              cases w' with
              | dots last => exact Or.inr ⟨EBUSY, rfl⟩
              | entry d' n' sl' =>
                  cases hg : s.tree.get (d ++ [n]) with
                  | none => exact Or.inr ⟨ENOENT, by simp only [hg]⟩
                  | some i =>
                      cases hc : renameCheck s.tree (d ++ [n]) (d' ++ [n']) i (sl || sl') with
                      | error e => exact Or.inr ⟨e, by simp only [hg, hc]⟩
                      | ok u =>
                          exact Or.inl ⟨d, n, sl, d', n', sl', i, rfl, rfl, hg, hc,
                            by simp only [hg, hc]⟩

/-- What is renamed to another place is neither below it nor above it. -/
theorem renameCheck_ok {t : Tree} {src dst : Loc} {i : Inode} {slash : Bool}
    (h : renameCheck t src dst i slash = .ok ()) (hne : src ≠ dst) :
    ¬ src <+: dst ∧ ¬ dst <+: src := by
  rw [renameCheck] at h
  by_cases hslash : (slash && !i.node.isDir) = true
  · rw [if_pos hslash] at h
    exact nomatch h
  · rw [if_neg hslash, if_neg hne] at h
    constructor
    · intro hsd
      rw [if_pos hsd] at h
      exact nomatch h
    · intro hds
      by_cases hsd : src <+: dst
      · rw [if_pos hsd] at h
        exact nomatch h
      · rw [if_neg hsd, if_pos hds] at h
        exact nomatch h

end TokimoHost
