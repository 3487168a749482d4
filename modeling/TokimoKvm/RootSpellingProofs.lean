import TokimoKvm.GatedCallProofs
import TokimoKvm.RootCheckProofs

/-! # Two spellings of one root

    Two mounts of one directory differ in how they spell it: in the links and
    dots on the way, and in where a relative spelling starts.  Behind the root
    the pieces of a request are the same, so what a call finds is the same,
    but for the links that the spelling has left of the host's limit.  What
    differs is the jail check, where it falls back on the spelling itself. -/

namespace TokimoHost

open TokimoMachine TokimoBytes TokimoPath TokimoTable TokimoVfsCore

/-! ## Paths with one end -/

variable {s : HostState} {j j' q q' : PathBuf}

/-- A call that looks a path up does the same with a path of the same end. -/
theorem symlinkMetadata_congr (h : ends (lookup s false j) = ends (lookup s false j')) :
    symlinkMetadata j s = symlinkMetadata j' s := by
  rw [symlinkMetadata, symlinkMetadata]
  rcases ends_cases h with ⟨e, h1, h2⟩ | ⟨l, k, k', h1, h2⟩ | ⟨d, n, slash, h1, h2⟩
  · rw [h1, h2]
  · rw [h1, h2]
  · rw [h1, h2]

theorem readDir_congr (h : ends (lookup s true j) = ends (lookup s true j')) :
    readDir j s = readDir j' s := by
  rw [readDir, readDir]
  rcases ends_cases h with ⟨e, h1, h2⟩ | ⟨l, k, k', h1, h2⟩ | ⟨d, n, slash, h1, h2⟩
  · rw [h1, h2]
  · rw [h1, h2]
  · rw [h1, h2]

theorem openFile_congr (o : OpenOptions) (h : ends (lookup s true j) = ends (lookup s true j')) :
    openFile o j s = openFile o j' s := by
  rw [openFile, openFile]
  rcases ends_cases h with ⟨e, h1, h2⟩ | ⟨l, k, k', h1, h2⟩ | ⟨d, n, slash, h1, h2⟩
  · rw [h1, h2]
  · rw [h1, h2]
  · rw [h1, h2]

/-- So does a call that makes or removes an entry. -/
theorem createDir_congr (h : lookupParent s j = lookupParent s j') :
    createDir j s = createDir j' s := by
  rw [createDir, createDir, h]

theorem removeFile_congr (h : lookupParent s j = lookupParent s j') :
    removeFile j s = removeFile j' s := by
  rw [removeFile, removeFile, h]

theorem removeDir_congr (h : lookupParent s j = lookupParent s j') :
    removeDir j s = removeDir j' s := by
  rw [removeDir, removeDir, h]

theorem rename_congr (h : lookupParent s j = lookupParent s j')
    (hq : lookupParent s q = lookupParent s q') : rename j q s = rename j' q' s := by
  rw [rename, rename, h, hq]

end TokimoHost

namespace TokimoHostFs

open TokimoMachine TokimoBytes TokimoPath TokimoTable TokimoVfsCore TokimoHost

variable {s s' : HostState} {fs fs' : HostFs} {p q : PathBuf} {r : Loc} {k : Nat}

/-! ## Joined paths, walked from the root's directory -/

/-- A NUL in a joined path is one of the request. -/
theorem joined_hasNul_iff (hl : lookup s true fs.root = .ok (.at r k)) :
    (fs.joined p).hasNul = false
      ↔ ∀ n : Name, Seg.name n ∈ relSegs p → n.1.contains 0 = false := by
  obtain ⟨hnul, hne, -⟩ := lookup_ok hl
  constructor
  · intro h n hn
    refine (hasNul_false_iff _).mp h n ?_
    rw [(joined_body hne p).2]
    exact List.mem_append.mpr (Or.inr hn)
  · exact joined_hasNul hne hnul

theorem joined_lookup (hw : HostWf s) (hl : lookup s true fs.root = .ok (.at r k))
    (hnul : (fs.joined p).hasNul = false) (follow : Bool) :
    lookup s follow (fs.joined p)
      = if nodeAt s.tree r = some .dir then walk s.tree follow k r (relSegs p)
        else .error ENOTDIR := by
  obtain ⟨-, hne, -⟩ := lookup_ok hl
  obtain ⟨-, hbody⟩ := joined_body hne p
  have hthrough := @walk_through s.tree hw.tree follow (relSegs p)
    (Or.inl (relSegs_ne_nil p)) _ _ _ (startOf_dir hw fs.root) _ _ (trunk_walk hw hl)
  rw [lookup_walk hnul (isEmptyStr_of_headed hbody (joined_headed hne p)), hbody,
    startOf_joined hne]
  by_cases hdir : nodeAt s.tree r = some .dir
  · rw [if_pos hdir]
    exact hthrough.1 hdir
  · rw [if_neg hdir]
    exact hthrough.2 hdir (relSegs_ne_nil p)

/-- Behind the bare root, the last piece is the request's. -/
theorem joined_parent (hw : HostWf s) (hl : lookup s true fs.root = .ok (.at r k))
    (hnul : (fs.joined p).hasNul = false) (hnamed : dropSlashes (relSegs p) ≠ []) :
    lookupParent s (fs.joined p)
      = if nodeAt s.tree r = some .dir then parentFrom s.tree k r (relSegs p)
        else .error ENOTDIR := by
  obtain ⟨-, hne, -⟩ := lookup_ok hl
  obtain ⟨-, hbody⟩ := joined_body hne p
  have hthrough : ∀ rest : List Seg, rest ≠ [] →
      walk s.tree true symloopMax (startOf fs.root s.cwd) (fs.root.trunk ++ rest)
        = if nodeAt s.tree r = some .dir then walk s.tree true k r rest else .error ENOTDIR := by
    intro rest hrest
    have h := @walk_through s.tree hw.tree true rest (Or.inl hrest) _ _ _
      (startOf_dir hw fs.root) _ _ (trunk_walk hw hl)
    by_cases hdir : nodeAt s.tree r = some .dir
    · rw [if_pos hdir]
      exact h.1 hdir
    · rw [if_neg hdir]
      exact h.2 hdir hrest
  have hdrop := dropSlashes_append fs.root.trunk hnamed
  have hlast : (fs.root.trunk ++ dropSlashes (relSegs p)).getLast?
      = (dropSlashes (relSegs p)).getLast? := by
    rw [List.getLast?_append_of_ne_nil _ hnamed]
  have hflag : decide (fs.root.trunk ++ dropSlashes (relSegs p) ≠ fs.root.trunk ++ relSegs p)
      = decide (dropSlashes (relSegs p) ≠ relSegs p) := by
    rw [decide_eq_decide, Ne, Ne, List.append_cancel_left_eq]
  rw [lookupParent_walk hnul (isEmptyStr_of_headed hbody (joined_headed hne p)), hbody,
    startOf_joined hne, parentFrom, parentFrom, hdrop, hlast, hflag,
    List.dropLast_append_of_ne_nil hnamed, List.append_assoc]
  by_cases hdir : nodeAt s.tree r = some .dir
  · simp only [hthrough _ (relSegs_ne_nil p),
      hthrough ((dropSlashes (relSegs p)).dropLast ++ [.empty])
        (List.append_ne_nil_of_right_ne_nil _ (List.cons_ne_nil _ _)), if_pos hdir]
  · simp only [hthrough _ (relSegs_ne_nil p),
      hthrough ((dropSlashes (relSegs p)).dropLast ++ [.empty])
        (List.append_ne_nil_of_right_ne_nil _ (List.cons_ne_nil _ _)), if_neg hdir, entered]
    cases hlast' : (dropSlashes (relSegs p)).getLast? with
    | none => rfl
    | some sg => cases sg <;> rfl

/-- Two mounts of one directory, by two spellings of it. -/
structure Respelled (s : HostState) (fs fs' : HostFs) (r : Loc) : Prop where
  host : HostWf s
  readOnly : fs'.readOnly = fs.readOnly
  left : realpath s fs.root = .ok r
  right : realpath s fs'.root = .ok r

theorem Respelled.hasNul (h : Respelled s fs fs' r) (p : PathBuf) :
    (fs.joined p).hasNul = (fs'.joined p).hasNul := by
  obtain ⟨k, hl⟩ := realpath_ok h.left
  obtain ⟨k', hl'⟩ := realpath_ok h.right
  have hiff : (fs.joined p).hasNul = false ↔ (fs'.joined p).hasNul = false :=
    (joined_hasNul_iff hl).trans (joined_hasNul_iff hl').symm
  cases h1 : (fs.joined p).hasNul with
  | false => exact (hiff.mp h1).symm
  | true =>
      cases h2 : (fs'.joined p).hasNul with
      | false => exact h1.symm.trans (hiff.mpr h2)
      | true => rfl

/-- Two walks run out of links both, or none does. -/
def RunsOutAlike {α : Type} (x y : Except IoError α) : Prop := x = .error ELOOP ↔ y = .error ELOOP

/-- **ONE REQUEST, ONE END**: by both spellings a request leads to the same,
    unless it runs out of links by one of them. -/
theorem Respelled.ends (h : Respelled s fs fs' r) {follow : Bool}
    (hlinks : RunsOutAlike (lookup s follow (fs.joined p)) (lookup s follow (fs'.joined p))) :
    ends (lookup s follow (fs.joined p)) = ends (lookup s follow (fs'.joined p)) := by
  obtain ⟨k, hl⟩ := realpath_ok h.left
  obtain ⟨k', hl'⟩ := realpath_ok h.right
  have hsame := h.hasNul p
  cases hnul : (fs.joined p).hasNul with
  | true =>
      rw [hnul] at hsame
      rw [lookup, lookup, hnul, ← hsame]
      rfl
  | false =>
      rw [hnul] at hsame
      rw [RunsOutAlike, joined_lookup h.host hl hnul, joined_lookup h.host hl' hsame.symm] at hlinks
      rw [joined_lookup h.host hl hnul, joined_lookup h.host hl' hsame.symm]
      by_cases hdir : nodeAt s.tree r = some .dir
      · rw [if_pos hdir, if_pos hdir] at hlinks ⊢
        exact walk_budget hlinks
      · rw [if_neg hdir, if_neg hdir]

/-- The same for the place of an entry. -/
theorem Respelled.parent (h : Respelled s fs fs' r) (hnamed : dropSlashes (relSegs p) ≠ [])
    (hlinks : RunsOutAlike (lookupParent s (fs.joined p)) (lookupParent s (fs'.joined p))) :
    lookupParent s (fs.joined p) = lookupParent s (fs'.joined p) := by
  obtain ⟨k, hl⟩ := realpath_ok h.left
  obtain ⟨k', hl'⟩ := realpath_ok h.right
  have hsame := h.hasNul p
  cases hnul : (fs.joined p).hasNul with
  | true =>
      rw [hnul] at hsame
      rw [lookupParent, lookupParent, hnul, ← hsame]
      rfl
  | false =>
      rw [hnul] at hsame
      rw [RunsOutAlike, joined_parent h.host hl hnul hnamed,
        joined_parent h.host hl' hsame.symm hnamed] at hlinks
      rw [joined_parent h.host hl hnul hnamed, joined_parent h.host hl' hsame.symm hnamed]
      by_cases hdir : nodeAt s.tree r = some .dir
      · rw [if_pos hdir, if_pos hdir] at hlinks ⊢
        exact parentFrom_budget hlinks
      · rw [if_neg hdir, if_neg hdir]

/-! ## The bare root -/

/-- A request without a piece that is more than a slash is for the root. -/
theorem bare_of_slashes (h : dropSlashes (relSegs p) = []) : relSegs p = [.empty] := by
  have hall : ∀ x ∈ relSegs p, x = .empty := by
    obtain ⟨tail, hsplit, htail⟩ := rdropWhile_split (· == Seg.empty) (relSegs p)
    have hrel : relSegs p = dropSlashes (relSegs p) ++ tail := hsplit
    rw [h, List.nil_append] at hrel
    intro x hx
    rw [hrel] at hx
    simpa using htail x hx
  have hfirst : (p.stripPrefixRoot.getD p).first = .empty := hall _ (List.mem_cons_self ..)
  rcases first_of_relative (rel_relative p) with hne | hnil
  · exact absurd hfirst hne
  · rw [relSegs, hnil]
    rfl

/-- The bare root passes the check only if it is a directory. -/
theorem bare_dir (hw : HostWf s) (hacc : Accepted s fs p r) (hrel : relSegs p = [.empty]) :
    nodeAt s.tree r = some .dir := by
  obtain ⟨k, hl⟩ := realpath_ok hacc.1
  obtain ⟨hnul, hne, hwalk⟩ := lookup_ok hl
  have hshown := (bare_accepted_iff hw hacc.1 (by rw [hrel]; exact slash_skip)).mp hacc
  cases hq : fs.root.parent with
  | none =>
      rcases parent_none hq with he | ⟨habs, hskip⟩
      · rw [he] at hne
        cases hne
      · rw [startOf, if_pos habs, ← List.append_nil fs.root.body, walk_skip [] hskip, walk_nil]
          at hwalk
        obtain ⟨rfl, -⟩ := Walked.at.inj (Except.ok.inj hwalk)
        exact hw.tree.root
  | some q =>
      obtain ⟨c, hc, hin⟩ := hshown q hq
      obtain ⟨k', hlq⟩ := realpath_ok hc
      obtain ⟨-, -, -, -, ⟨c', k'', hent, -⟩ | ⟨-, herr⟩⟩ :=
        lookup_last (s := s) hq (lookup_ok hlq).2.1 hnul
      · -- the parent is entered, and the root is on the way to it
        obtain ⟨q', hq', -, hreal, hdir, -⟩ := enterParent_some hw hent hnul
        rw [hq] at hq'
        obtain rfl := Option.some.inj hq'
        rw [hc] at hreal
        obtain rfl := Except.ok.inj hreal
        exact hw.tree.above hin hdir
      · obtain ⟨e, he⟩ := herr true
        cases hl.symm.trans he

/-- The spelling ends in a name, with or without slashes behind it. -/
def EndsInName (root : PathBuf) : Prop := ∃ n, (dropSlashes root.body).getLast? = some (.name n)

theorem dropSlashes_concat (l : List Seg) : dropSlashes (l ++ [.empty]) = dropSlashes l := by
  rw [dropSlashes, List.reverse_append]
  rfl

theorem dropSlashes_trunk (root : PathBuf) : dropSlashes root.trunk = dropSlashes root.body := by
  rw [PathBuf.trunk]
  by_cases hlast : root.body.getLast? = some .empty
  · obtain ⟨l, hl⟩ := List.getLast?_eq_some_iff.mp hlast
    rw [if_pos hlast, hl, List.dropLast_concat, dropSlashes_concat]
  · rw [if_neg hlast]

/-- The entry of a bare root that passes the check is a link, if the spelling
    ends in a name at all. -/
theorem bare_parent (hw : HostWf s) (hacc : Accepted s fs p r) (hrel : relSegs p = [.empty]) :
    (¬ EndsInName fs.root ∧ ∃ last, lookupParent s (fs.joined p) = .ok (.dots last))
      ∨ (EndsInName fs.root ∧ ∃ d n i, lookupParent s (fs.joined p) = .ok (.entry d n true)
        ∧ s.tree.get (d ++ [n]) = some i ∧ i.node ≠ .dir) := by
  obtain ⟨k, hl⟩ := realpath_ok hacc.1
  obtain ⟨-, hne, -⟩ := lookup_ok hl
  have hlook := bare_lookup hw hl (bare_dir hw hacc hrel) hrel true
  obtain ⟨hjnul, hje, hwalk⟩ := lookup_ok hlook
  have hparent := lookupParent_walk (s := s) hjnul hje
  have hjb := (joined_body hne p).2
  rw [hrel] at hjb
  have hends : EndsInName fs.root
      ↔ ∃ n, (dropSlashes (fs.joined p).body).getLast? = some (.name n) := by
    rw [EndsInName, hjb, dropSlashes_concat, dropSlashes_trunk]
  rw [parentFrom] at hparent
  obtain ⟨tail, hsplit, htail⟩ := rdropWhile_split (· == Seg.empty) (fs.joined p).body
  have hbody : (fs.joined p).body = dropSlashes (fs.joined p).body ++ tail := hsplit
  have hempty : ∀ x ∈ tail, x = .empty := fun x hx => by simpa using htail x hx
  split at hparent
  · next n hlast =>
      refine Or.inr ⟨hends.mpr ⟨n, hlast⟩, ?_⟩
      obtain ⟨front, hfront⟩ := List.getLast?_eq_some_iff.mp hlast
      have hcut : (fs.joined p).body = front ++ .name n :: tail := by
        rw [hfront, List.append_assoc, List.singleton_append] at hbody
        exact hbody
      have htne : tail ≠ [] := by
        rintro rfl
        have hend : (fs.joined p).body.getLast? = some .empty := by
          rw [hjb, List.getLast?_concat]
        rw [hcut, List.getLast?_concat] at hend
        cases hend
      have hflag : decide (dropSlashes (fs.joined p).body ≠ (fs.joined p).body) = true := by
        rw [decide_eq_true_iff]
        intro heq
        have hlen := congrArg List.length hbody
        rw [List.length_append, heq] at hlen
        exact htne (List.length_eq_zero_iff.mp (by omega))
      have hreal : Real (.name n :: tail) := ⟨.name n, List.mem_cons_self .., rfl⟩
      rw [hcut, walk_append hreal] at hwalk
      rw [hfront, List.dropLast_concat, ← hfront, hflag] at hparent
      cases hw1 : walk s.tree true symloopMax (startOf (fs.joined p) s.cwd) (front ++ [.empty]) with
      | error e =>
          rw [hw1] at hwalk
          cases hwalk
      | ok w =>
          cases w with
          | missing d m slash =>
              rw [hw1] at hwalk
              cases hwalk
          | «at» d k' =>
              rw [hw1, andWalk] at hwalk
              rw [hw1] at hparent
              cases hn : nodeAt s.tree (d ++ [n]) with
              | none =>
                  rw [walk_name_none _ _ _ hn] at hwalk
                  split at hwalk <;> cases hwalk
              | some node =>
                  obtain ⟨i, hi, rfl⟩ := get_of_nodeAt hn
                  refine ⟨d, n, i, hparent, hi, ?_⟩
                  intro hdir
                  -- then the root's directory would be below itself
                  rw [hdir] at hn
                  rw [walk_name_dir _ _ _ hn, ← List.append_nil tail, walk_skip [] (by
                    intro x hx
                    rw [hempty x hx]
                    rfl), walk_nil] at hwalk
                  obtain ⟨rfl, -⟩ := Walked.at.inj (Except.ok.inj hwalk)
                  rcases lookupParent_enters hw hacc hparent with hr | ⟨hin, -⟩
                  · cases (List.append_eq_nil_iff.mp hr).2
                  · have hlen := hin.length_le
                    rw [List.length_append] at hlen
                    exact Nat.not_succ_le_self _ hlen
  · next hlast =>
      refine Or.inl ⟨fun hn => ?_, ?_⟩
      · obtain ⟨n, hn⟩ := hends.mp hn
        exact hlast n hn
      · rw [hwalk] at hparent
        exact ⟨_, hparent⟩

/-- The bare root is there already, and nothing but its directory is behind
    it: nothing is made, removed or moved by its name. -/
theorem bare_mkdir (hw : HostWf s) (hacc : Accepted s fs p r) (hrel : relSegs p = [.empty]) :
    mkdirAt (fs.joined p) s = (.error .alreadyExists, s) := by
  have hexists : posix.createDir (fs.joined p) s = (.error EEXIST, s) := by
    show createDir (fs.joined p) s = _
    rw [createDir]
    rcases bare_parent hw hacc hrel with ⟨-, last, h⟩ | ⟨-, d, n, i, h, hi, -⟩
    · rw [h]
    · rw [h]
      simp only [hi]
  rw [mkdirAt, Eff.bind_of_error (Eff.mapErr_of_error hexists)]
  rfl

/-- A call of the host fails with an error that has no variant of its own. -/
def FailsIo {α : Type} (x : Eff HostState IoError α) (s : HostState) : Prop :=
  ∃ e : IoError, e.kind = .other ∧ x s = (.error e, s)

theorem FailsIo.asked {α : Type} {x : Eff HostState IoError α} (h : FailsIo x s) :
    ∃ msg, Eff.mapErr HostFs.mapIo x s = (.error (.io msg), s) := by
  obtain ⟨e, he, hx⟩ := h
  refine ⟨e.text, ?_⟩
  rw [Eff.mapErr_of_error hx, HostFs.mapIo, he]

theorem bare_remove (hw : HostWf s) (hacc : Accepted s fs p r) (hrel : relSegs p = [.empty]) :
    FailsIo (removeFile (fs.joined p)) s := by
  rw [FailsIo, removeFile]
  rcases bare_parent hw hacc hrel with ⟨-, last, h⟩ | ⟨-, d, n, i, h, hi, hdir⟩
  · rw [h]
    exact ⟨EISDIR, rfl, rfl⟩
  · rw [h]
    cases hn : i.node with
    | dir => exact absurd hn hdir
    | file data =>
        simp only [nodeAt_of_get hi, hn]
        exact ⟨ENOTDIR, rfl, rfl⟩
    | symlink target =>
        simp only [nodeAt_of_get hi, hn]
        exact ⟨ENOTDIR, rfl, rfl⟩

theorem bare_rmdir (hw : HostWf s) (hacc : Accepted s fs p r) (hrel : relSegs p = [.empty]) :
    FailsIo (removeDir (fs.joined p)) s := by
  rw [FailsIo, removeDir]
  rcases bare_parent hw hacc hrel with ⟨-, last, h⟩ | ⟨-, d, n, i, h, hi, hdir⟩
  · rw [h]
    cases last with
    | up => exact ⟨ENOTEMPTY, rfl, rfl⟩
    | cur => exact ⟨EINVAL, rfl, rfl⟩
    | empty => exact ⟨EBUSY, rfl, rfl⟩
    | name n => exact ⟨EBUSY, rfl, rfl⟩
  · rw [h]
    cases hn : i.node with
    | dir => exact absurd hn hdir
    | file data =>
        simp only [nodeAt_of_get hi, hn]
        exact ⟨ENOTDIR, rfl, rfl⟩
    | symlink target =>
        simp only [nodeAt_of_get hi, hn]
        exact ⟨ENOTDIR, rfl, rfl⟩

/-- Renamed from: the place to rename to is looked up, and that is all. -/
theorem bare_source (hw : HostWf s) (hacc : Accepted s fs p r) (hrel : relSegs p = [.empty])
    (j : PathBuf) : (∃ e, lookupParent s j = .error e ∧ rename (fs.joined p) j s = (.error e, s))
      ∨ ((∃ w, lookupParent s j = .ok w) ∧ FailsIo (rename (fs.joined p) j) s) := by
  rw [FailsIo, rename]
  cases hj : lookupParent s j with
  | error e =>
      refine Or.inl ⟨e, rfl, ?_⟩
      rcases bare_parent hw hacc hrel with ⟨-, last, h⟩ | ⟨-, d, n, i, h, -, -⟩
      · rw [h]
      · rw [h]
  | ok w =>
      refine Or.inr ⟨⟨w, rfl⟩, ?_⟩
      rcases bare_parent hw hacc hrel with ⟨-, last, h⟩ | ⟨-, d, n, i, h, hi, hdir⟩
      · rw [h]
        exact ⟨EBUSY, rfl, rfl⟩
      · rw [h]
        cases w with
        | dots last => exact ⟨EBUSY, rfl, rfl⟩
        | entry d' n' sl' =>
            -- the link is no directory, but is named as one
            have hcheck : renameCheck s.tree (d ++ [n]) (d' ++ [n']) i (true || sl')
                = .error ENOTDIR := by
              cases hn : i.node with
              | dir => exact absurd hn hdir
              | file data => rw [renameCheck, hn]; rfl
              | symlink target => rw [renameCheck, hn]; rfl
            simp only [hi, hcheck]
            exact ⟨ENOTDIR, rfl, rfl⟩

/-- Renamed to: what is moved is judged first, and it is there or not. -/
theorem bare_target (hw : HostWf s) (hacc : Accepted s fs q r) (hrel : relSegs q = [.empty])
    {j : PathBuf} {d : Loc} {n : Name} {sl : Bool} (hj : lookupParent s j = .ok (.entry d n sl)) :
    (s.tree.get (d ++ [n]) ≠ none ∨ ¬ EndsInName fs.root → FailsIo (rename j (fs.joined q)) s)
      ∧ (s.tree.get (d ++ [n]) = none → EndsInName fs.root →
        rename j (fs.joined q) s = (.error ENOENT, s)) := by
  rw [FailsIo, rename, hj]
  rcases bare_parent hw hacc hrel with ⟨hends, last, h⟩ | ⟨hends, d', n', i', h, hi', hdir'⟩
  · rw [h]
    exact ⟨fun _ => ⟨EBUSY, rfl, rfl⟩, fun _ hn => absurd hn hends⟩
  · rw [h]
    constructor
    · intro hor
      cases hi : s.tree.get (d ++ [n]) with
      | none => exact absurd hends (hor.resolve_left fun hne => hne hi)
      | some i =>
          have hcheck : ∃ e : IoError, e.kind = .other
              ∧ renameCheck s.tree (d ++ [n]) (d' ++ [n']) i (sl || true) = .error e := by
            rw [Bool.or_true, renameCheck]
            cases hn : i.node with
            | file data => exact ⟨ENOTDIR, rfl, rfl⟩
            | symlink target => exact ⟨ENOTDIR, rfl, rfl⟩
            | dir =>
                -- a directory is not moved onto a link
                have hne : d ++ [n] ≠ d' ++ [n'] := by
                  intro heq
                  rw [heq, hi'] at hi
                  rw [Option.some.inj hi] at hdir'
                  exact hdir' hn
                rw [if_neg (by simp [Node.isDir]), if_neg hne]
                by_cases hsd : d ++ [n] <+: d' ++ [n']
                · rw [if_pos hsd]
                  exact ⟨EINVAL, rfl, rfl⟩
                · rw [if_neg hsd]
                  by_cases hds : d' ++ [n'] <+: d ++ [n]
                  · rw [if_pos hds]
                    exact ⟨ENOTEMPTY, rfl, rfl⟩
                  · rw [if_neg hds]
                    cases hn' : i'.node with
                    | dir => exact absurd hn' hdir'
                    | file data =>
                        simp only [hi', hn']
                        exact ⟨ENOTDIR, rfl, rfl⟩
                    | symlink target =>
                        simp only [hi', hn']
                        exact ⟨ENOTDIR, rfl, rfl⟩
          obtain ⟨e, he, hcheck⟩ := hcheck
          simp only [hi, hcheck]
          exact ⟨e, he, rfl⟩
    · intro hnone _
      simp only [hnone]

/-! ## What both find -/

/-- The same result, or the same variant of an error, and the same tree. -/
structure SameOutcome (x y : Reply × HostState) : Prop where
  reply : inVariant x.1 = inVariant y.1
  tree : x.2.tree = y.2.tree

theorem SameOutcome.refl (x : Reply × HostState) : SameOutcome x x := ⟨rfl, rfl⟩

theorem SameOutcome.symm {x y : Reply × HostState} (h : SameOutcome x y) : SameOutcome y x :=
  ⟨h.reply.symm, h.tree.symm⟩

/-- What begins with the same call goes on the same. -/
theorem asked_congr {α β : Type} {x y : Eff HostState IoError α} (h : x s = y s)
    (f : α → VfsM HostState β) :
    (Eff.mapErr HostFs.mapIo x >>= f) s = (Eff.mapErr HostFs.mapIo y >>= f) s := by
  show Eff.andThen (Eff.mapErr HostFs.mapIo x) f s = Eff.andThen (Eff.mapErr HostFs.mapIo y) f s
  rw [Eff.andThen, Eff.andThen, Eff.mapErr, Eff.mapErr, h]

theorem mapErr_congr {α : Type} {x y : Eff HostState IoError α} (h : x s = y s) :
    Eff.mapErr HostFs.mapIo x s = Eff.mapErr HostFs.mapIo y s := by
  rw [Eff.mapErr, Eff.mapErr, h]

theorem statAt_congr {j j' : PathBuf} (h : ends (lookup s false j) = ends (lookup s false j')) :
    statAt j s = statAt j' s :=
  asked_congr (symlinkMetadata_congr h) _

/-- A host stays one when something is put in a directory. -/
theorem HostWf.extend (hw : HostWf s) (hcwd : s'.cwd = s.cwd)
    (hext : ∀ v, nodeAt s.tree v ≠ none → shapeAt s.tree v = shapeAt s'.tree v)
    (hnew : ∀ l n, nodeAt s'.tree (l ++ [n]) ≠ none →
      nodeAt s.tree (l ++ [n]) ≠ none ∨ nodeAt s.tree l = some .dir) : HostWf s' := by
  have hdir : ∀ l, nodeAt s.tree l = some .dir → nodeAt s'.tree l = some .dir := by
    intro l hl
    have h := shape_cases (hext l (by rw [hl]; exact Option.some_ne_none _))
    rw [hl] at h
    exact h
  refine ⟨⟨hdir [] hw.tree.root, ?_⟩, ?_⟩
  · intro l n hn
    rcases hnew l n hn with hold | hl
    · exact hdir l (hw.tree.parent l n hold)
    · exact hdir l hl
  · rw [hcwd]
    exact hdir _ hw.cwd

theorem opened_wf (hw : HostWf s) {o : OpenOptions} {j : PathBuf} {w : Walked}
    (hl : lookup s true j = .ok w) (h : Opened o s w s') : HostWf s' := by
  obtain ⟨hcwd, -, hext⟩ := h.extends
  obtain ⟨-, -, hwalk⟩ := lookup_ok hl
  refine HostWf.extend hw hcwd hext ?_
  intro l n hn
  cases h with
  | dir l' k hd ho => exact Or.inl hn
  | keep l' k i data hg hi ht => exact Or.inl hn
  | cut l' k i data hg hi ht =>
      have hput : nodeAt (s.tree.insert l' _) (l ++ [n]) ≠ none := hn
      rw [nodeAt_insert] at hput
      by_cases heq : l' = l ++ [n]
      · rw [← heq, nodeAt_of_get hg]
        exact Or.inl (Option.some_ne_none _)
      · rw [if_neg heq] at hput
        exact Or.inl hput
  | new d m hfree =>
      have hput : nodeAt (s.tree.insert (d ++ [m]) _) (l ++ [n]) ≠ none := hn
      rw [nodeAt_insert] at hput
      by_cases heq : d ++ [m] = l ++ [n]
      · -- the new file is in the directory the walk has reached
        rw [← (List.append_inj' heq rfl).1]
        exact Or.inr (walk_missing_dir hw.tree _ _ _ (startOf_dir hw j) hwalk)
      · rw [if_neg heq] at hput
        exact Or.inl hput

/-- Two spellings of one root stay so when something is put there. -/
theorem Respelled.extend (h : Respelled s fs fs' r) (hw : HostWf s') (hcwd : s'.cwd = s.cwd)
    (hext : ∀ v, nodeAt s.tree v ≠ none → shapeAt s.tree v = shapeAt s'.tree v) :
    Respelled s' fs fs' r where
  host := hw
  readOnly := h.readOnly
  left := realpath_extend hcwd hext h.left
  right := realpath_extend hcwd hext h.right

theorem createAt_alike (h : Respelled s fs fs' r)
    (hlinks : RunsOutAlike (lookup s true (fs.joined p)) (lookup s true (fs'.joined p))) :
    createAt (fs.joined p) s = createAt (fs'.joined p) s := by
  have hopen : openFile writeOptions (fs.joined p) s = openFile writeOptions (fs'.joined p) s :=
    openFile_congr writeOptions (h.ends hlinks)
  rcases openFile_cases writeOptions s (fs.joined p) with ⟨w, s₁, hl, hop, hopened, hcall⟩ |
    ⟨⟨e, hcall⟩, -⟩
  · rcases openFile_cases writeOptions s (fs'.joined p) with ⟨w', s₂, hl', hop', hopened', hcall'⟩ |
      ⟨⟨e, hcall'⟩, -⟩
    · have hleft : posix.openFile writeOptions (fs.joined p) s
          = (.ok ⟨w.place, 0⟩, s₁.touch [w.place]) := hcall
      have hright : posix.openFile writeOptions (fs'.joined p) s
          = (.ok ⟨w.place, 0⟩, s₁.touch [w.place]) := hopen.symm.trans hcall
      have hstate : s₂.touch [w'.place] = s₁.touch [w.place] :=
        (Prod.mk.inj (hcall'.symm.trans hright)).2
      rw [createAt, createAt, Eff.bind_of_ok (Eff.mapErr_of_ok hleft),
        Eff.bind_of_ok (Eff.mapErr_of_ok hright)]
      -- in the new state both paths lead to something again
      obtain ⟨hcwd, -, hext⟩ := hopened.extends
      have hwf := opened_wf h.host hl hopened
      have hrespelled : Respelled (s₁.touch [w.place]) fs fs' r :=
        h.extend ⟨hwf.tree, hwf.cwd⟩ hcwd hext
      obtain ⟨d, k, hfound, -⟩ := opened_lookup hl hop hopened [w.place]
      obtain ⟨d', k', hfound', -⟩ := opened_lookup hl' hop' hopened' [w'.place]
      rw [hstate] at hfound'
      refine statAt_congr (hrespelled.ends ?_)
      rw [hfound, hfound']
      exact ⟨fun h => (nomatch h), fun h => (nomatch h)⟩
    · exact nomatch hcall.symm.trans (hopen.trans hcall')
  · have hleft : posix.openFile writeOptions (fs.joined p) s = (.error e, s) := hcall
    have hright : posix.openFile writeOptions (fs'.joined p) s = (.error e, s) :=
      hopen.symm.trans hcall
    rw [createAt, createAt, Eff.bind_of_error (Eff.mapErr_of_error hleft),
      Eff.bind_of_error (Eff.mapErr_of_error hright)]

theorem mkdirAt_alike (h : Respelled s fs fs' r) (hnamed : dropSlashes (relSegs p) ≠ [])
    (hlinks : RunsOutAlike (lookupParent s (fs.joined p)) (lookupParent s (fs'.joined p))) :
    mkdirAt (fs.joined p) s = mkdirAt (fs'.joined p) s := by
  have hparent := h.parent hnamed hlinks
  have hmake : createDir (fs.joined p) s = createDir (fs'.joined p) s := createDir_congr hparent
  rcases createDir_cases s (fs.joined p) with ⟨d, n, slash, hl, hfree, hcall⟩ | ⟨e, hcall⟩
  · have hleft : posix.createDir (fs.joined p) s
        = (.ok (), (s.addNode (d ++ [n]) .dir (s.newDirMode d)).touch [d ++ [n]]) := hcall
    have hright : posix.createDir (fs'.joined p) s
        = (.ok (), (s.addNode (d ++ [n]) .dir (s.newDirMode d)).touch [d ++ [n]]) :=
      hmake.symm.trans hcall
    rw [mkdirAt, mkdirAt, Eff.bind_of_ok (Eff.mapErr_of_ok hleft),
      Eff.bind_of_ok (Eff.mapErr_of_ok hright)]
    obtain ⟨k, hfound⟩ := made_lookup hl hfree (s.newDirMode d) [d ++ [n]]
    obtain ⟨k', hfound'⟩ := made_lookup (hparent.symm.trans hl) hfree (s.newDirMode d) [d ++ [n]]
    refine statAt_congr ?_
    rw [hfound, hfound']
    rfl
  · have hleft : posix.createDir (fs.joined p) s = (.error e, s) := hcall
    have hright : posix.createDir (fs'.joined p) s = (.error e, s) := hmake.symm.trans hcall
    rw [mkdirAt, mkdirAt, Eff.bind_of_error (Eff.mapErr_of_error hleft),
      Eff.bind_of_error (Eff.mapErr_of_error hright)]

/-- The walks a call asks for run out of links by both spellings, or by none. -/
def LinksAlike (s : HostState) (fs fs' : HostFs) : VfsCall → Prop
  | .stat p => RunsOutAlike (lookup s false (fs.joined p)) (lookup s false (fs'.joined p))
  | .list p => RunsOutAlike (lookup s true (fs.joined p)) (lookup s true (fs'.joined p))
  | .read p _ _ => RunsOutAlike (lookup s true (fs.joined p)) (lookup s true (fs'.joined p))
  | .write p _ _ => RunsOutAlike (lookup s true (fs.joined p)) (lookup s true (fs'.joined p))
  | .create p _ => RunsOutAlike (lookup s true (fs.joined p)) (lookup s true (fs'.joined p))
  | .truncate p _ => RunsOutAlike (lookup s true (fs.joined p)) (lookup s true (fs'.joined p))
  | .mkdir p _ => RunsOutAlike (lookupParent s (fs.joined p)) (lookupParent s (fs'.joined p))
  | .remove p => RunsOutAlike (lookupParent s (fs.joined p)) (lookupParent s (fs'.joined p))
  | .rmdir p => RunsOutAlike (lookupParent s (fs.joined p)) (lookupParent s (fs'.joined p))
  | .rename p q => RunsOutAlike (lookupParent s (fs.joined p)) (lookupParent s (fs'.joined p))
      ∧ RunsOutAlike (lookupParent s (fs.joined q)) (lookupParent s (fs'.joined q))

/-- What is to be moved is there, if its place can be found at all. -/
def SourceThere (s : HostState) (fs : HostFs) (p : PathBuf) : Prop :=
  ∀ d n slash, lookupParent s (fs.joined p) = .ok (.entry d n slash) →
    s.tree.get (d ++ [n]) ≠ none

/-- A move onto the bare root is of something that is there, or both spellings
    of the root end in a name, or none does. -/
def MovesAlike (s : HostState) (fs fs' : HostFs) : VfsCall → Prop
  | .rename p q => relSegs q = [.empty] →
      SourceThere s fs p ∨ (EndsInName fs.root ↔ EndsInName fs'.root)
  | _ => True

theorem failsIo_alike {α : Type} {x y : Eff HostState IoError α} (g : VfsResult α → Reply)
    (hg : ∀ msg, inVariant (g (.error (.io msg))) = inVariant (g (.error (.io ""))))
    (hx : FailsIo x s) (hy : FailsIo y s) :
    SameOutcome ((Eff.mapErr HostFs.mapIo x s).map g id)
      ((Eff.mapErr HostFs.mapIo y s).map g id) := by
  obtain ⟨msg, hx⟩ := hx.asked
  obtain ⟨msg', hy⟩ := hy.asked
  rw [hx, hy]
  exact ⟨(hg msg).trans (hg msg').symm, rfl⟩

theorem rename_alike (h : Respelled s fs fs' r) (hp : Accepted s fs p r) (hp' : Accepted s fs' p r)
    (hq : Accepted s fs q r) (hq' : Accepted s fs' q r)
    (hlinks : LinksAlike s fs fs' (.rename p q)) (hmoves : MovesAlike s fs fs' (.rename p q)) :
    SameOutcome (act fs s (.rename p q)) (act fs' s (.rename p q)) := by
  -- two ways to agree: by the same call, or by failing both
  have hsame : rename (fs.joined p) (fs.joined q) s = rename (fs'.joined p) (fs'.joined q) s →
      SameOutcome (act fs s (.rename p q)) (act fs' s (.rename p q)) := by
    intro heq
    have hask : renameAt (fs.joined p) (fs.joined q) s = renameAt (fs'.joined p) (fs'.joined q) s :=
      mapErr_congr heq
    rw [act, act, hask]
    exact .refl _
  have hboth : FailsIo (rename (fs.joined p) (fs.joined q)) s →
      FailsIo (rename (fs'.joined p) (fs'.joined q)) s →
      SameOutcome (act fs s (.rename p q)) (act fs' s (.rename p q)) :=
    failsIo_alike .unit fun _ => rfl
  have hfound : relSegs q = [.empty] → (∃ w, lookupParent s (fs.joined q) = .ok w)
      ∧ ∃ w, lookupParent s (fs'.joined q) = .ok w := by
    intro hqrel
    constructor
    · rcases bare_parent h.host hq hqrel with ⟨-, last, hj⟩ | ⟨-, d, n, i, hj, -⟩
      · exact ⟨_, hj⟩
      · exact ⟨_, hj⟩
    · rcases bare_parent h.host hq' hqrel with ⟨-, last, hj⟩ | ⟨-, d, n, i, hj, -⟩
      · exact ⟨_, hj⟩
      · exact ⟨_, hj⟩
  -- a bare root is where the spellings can differ, as source and as target
  by_cases hpn : dropSlashes (relSegs p) = []
  · have hprel := bare_of_slashes hpn
    rcases bare_source h.host hp hprel (fs.joined q) with ⟨e, he, hx⟩ | ⟨⟨w, hw⟩, hx⟩
    · -- the place to move to is not found by either spelling
      have hqn : dropSlashes (relSegs q) ≠ [] := by
        intro hqn
        obtain ⟨⟨w, hw⟩, -⟩ := hfound (bare_of_slashes hqn)
        exact nomatch he.symm.trans hw
      have he' := (h.parent hqn hlinks.2).symm.trans he
      rcases bare_source h.host hp' hprel (fs'.joined q) with ⟨e', hl', hx'⟩ | ⟨⟨w, hw⟩, -⟩
      · rw [Except.error.inj (he'.symm.trans hl')] at hx
        exact hsame (hx.trans hx'.symm)
      · exact nomatch he'.symm.trans hw
    · refine hboth hx ?_
      rcases bare_source h.host hp' hprel (fs'.joined q) with ⟨e', hl', -⟩ | ⟨-, hx'⟩
      · by_cases hqn : dropSlashes (relSegs q) = []
        · obtain ⟨-, w', hw'⟩ := hfound (bare_of_slashes hqn)
          exact nomatch hl'.symm.trans hw'
        · exact nomatch hl'.symm.trans ((h.parent hqn hlinks.2).symm.trans hw)
      · exact hx'
  · have hparent := h.parent hpn hlinks.1
    by_cases hqn : dropSlashes (relSegs q) = []
    · have hqrel := bare_of_slashes hqn
      obtain ⟨⟨w, hw⟩, w', hw'⟩ := hfound hqrel
      cases hsrc : lookupParent s (fs.joined p) with
      | error e =>
          refine hsame ?_
          rw [rename, rename, ← hparent, hsrc]
      | ok src =>
          cases src with
          | dots last =>
              -- dots at the end of the source are refused before the target counts
              have hbusy : ∀ {f : HostFs} {v : Parent}, lookupParent s (f.joined p)
                  = .ok (.dots last) → lookupParent s (f.joined q) = .ok v →
                  rename (f.joined p) (f.joined q) s = (.error EBUSY, s) := by
                intro f v hf hv
                rw [rename, hf, hv]
              exact hsame ((hbusy hsrc hw).trans (hbusy (hparent.symm.trans hsrc) hw').symm)
          | entry d n sl =>
              have hsrc' := hparent.symm.trans hsrc
              have hl := bare_target h.host hq hqrel hsrc
              have hr := bare_target h.host hq' hqrel hsrc'
              cases hi : s.tree.get (d ++ [n]) with
              | some i =>
                  have hthere : s.tree.get (d ++ [n]) ≠ none := by
                    rw [hi]
                    exact Option.some_ne_none _
                  exact hboth (hl.1 (Or.inl hthere)) (hr.1 (Or.inl hthere))
              | none =>
                  have hends := (hmoves hqrel).resolve_left fun hs => hs d n sl hsrc hi
                  by_cases hname : EndsInName fs.root
                  · exact hsame ((hl.2 hi hname).trans (hr.2 hi (hends.mp hname)).symm)
                  · exact hboth (hl.1 (Or.inr hname))
                      (hr.1 (Or.inr fun hn => hname (hends.mpr hn)))
    · exact hsame (rename_congr hparent (h.parent hqn hlinks.2))

/-- Moved onto the bare root, what is not there is missed by the spelling that
    ends in a name, and not asked for by the other. -/
theorem rename_differs (h : Respelled s fs fs' r) (hp : Accepted s fs p r)
    (hq : Accepted s fs q r) (hq' : Accepted s fs' q r)
    (hlinks : LinksAlike s fs fs' (.rename p q)) (hmoves : ¬ MovesAlike s fs fs' (.rename p q)) :
    ¬ SameOutcome (act fs s (.rename p q)) (act fs' s (.rename p q)) := by
  have hapart : ∀ {x y : Eff HostState IoError Unit}, FailsIo x s → y s = (.error ENOENT, s) →
      ¬ SameOutcome ((Eff.mapErr HostFs.mapIo x s).map .unit id)
        ((Eff.mapErr HostFs.mapIo y s).map .unit id) := by
    intro x y hx hy hsame
    obtain ⟨msg, hx⟩ := hx.asked
    rw [hx, Eff.mapErr_of_error hy] at hsame
    cases Except.error.inj (Reply.unit.inj hsame.reply)
  rw [MovesAlike, Classical.not_imp, not_or] at hmoves
  obtain ⟨hqrel, hsource, hends⟩ := hmoves
  rw [SourceThere] at hsource
  push Not at hsource
  obtain ⟨d, n, sl, hsrc, hi⟩ := hsource
  have hpn : dropSlashes (relSegs p) ≠ [] := by
    intro hpn
    rcases bare_parent h.host hp (bare_of_slashes hpn) with
      ⟨-, last, hj⟩ | ⟨-, d', n', i, hj, hg, -⟩
    · cases hsrc.symm.trans hj
    · obtain ⟨rfl, rfl, -⟩ := Parent.entry.inj (Except.ok.inj (hsrc.symm.trans hj))
      cases hi.symm.trans hg
  have hl := bare_target h.host hq hqrel hsrc
  have hr := bare_target h.host hq' hqrel ((h.parent hpn hlinks.1).symm.trans hsrc)
  by_cases hname : EndsInName fs.root
  · have hname' : ¬ EndsInName fs'.root := fun hn => hends ⟨fun _ => hn, fun _ => hname⟩
    exact fun hsame => hapart (hr.1 (Or.inr hname')) (hl.2 hi hname) hsame.symm
  · have hname' : EndsInName fs'.root := by
      by_cases hn : EndsInName fs'.root
      · exact hn
      · exact absurd ⟨fun hm => absurd hm hname, fun hm => absurd hm hn⟩ hends
    exact hapart (hl.1 (Or.inr hname)) (hr.2 hi hname')

/-- **THE SAME BEHIND THE CHECK**: what is let through by both spellings has
    one outcome. -/
theorem act_alike {call : VfsCall} (h : Respelled s fs fs' r)
    (hacc : LetThrough s fs r call) (hacc' : LetThrough s fs' r call)
    (hlinks : LinksAlike s fs fs' call) (hmoves : MovesAlike s fs fs' call) :
    SameOutcome (act fs s call) (act fs' s call) := by
  -- by the call to the host, which the two spellings share or both fail
  have hsame : ∀ {α : Type} {x y : Except VfsError α × HostState} (g : VfsResult α → Reply),
      x = y → SameOutcome (x.map g id) (y.map g id) := by
    intro α x y g hxy
    rw [hxy]
    exact .refl _
  cases call with
  | stat p => exact hsame .attr (statAt_congr (h.ends hlinks))
  | list p => exact hsame .entries (asked_congr (readDir_congr (h.ends hlinks)) _)
  | read p off len =>
      exact hsame .bytes (asked_congr (openFile_congr readOptions (h.ends hlinks)) _)
  | write p off data =>
      exact hsame .count (asked_congr (openFile_congr writeOptions (h.ends hlinks)) _)
  | truncate p size =>
      exact hsame .unit (asked_congr (openFile_congr truncateOptions (h.ends hlinks)) _)
  | create p mode => exact hsame .attr (createAt_alike h hlinks)
  | rename p q =>
      have hq : q ∈ paths (.rename p q) := List.mem_cons_of_mem _ (List.mem_cons_self ..)
      exact rename_alike h (hacc p (List.mem_cons_self ..)) (hacc' p (List.mem_cons_self ..))
        (hacc q hq) (hacc' q hq) hlinks hmoves
  | mkdir p mode =>
      have hp := hacc p (List.mem_cons_self ..)
      have hp' := hacc' p (List.mem_cons_self ..)
      by_cases hnamed : dropSlashes (relSegs p) = []
      · -- for the bare root the spelling's own last piece counts
        have hrel := bare_of_slashes hnamed
        exact hsame .attr ((bare_mkdir h.host hp hrel).trans (bare_mkdir h.host hp' hrel).symm)
      · exact hsame .attr (mkdirAt_alike h hnamed hlinks)
  | remove p =>
      have hp := hacc p (List.mem_cons_self ..)
      have hp' := hacc' p (List.mem_cons_self ..)
      by_cases hnamed : dropSlashes (relSegs p) = []
      · have hrel := bare_of_slashes hnamed
        exact failsIo_alike .unit (fun _ => rfl) (bare_remove h.host hp hrel)
          (bare_remove h.host hp' hrel)
      · exact hsame .unit (mapErr_congr (removeFile_congr (h.parent hnamed hlinks)))
  | rmdir p =>
      have hp := hacc p (List.mem_cons_self ..)
      have hp' := hacc' p (List.mem_cons_self ..)
      by_cases hnamed : dropSlashes (relSegs p) = []
      · have hrel := bare_of_slashes hnamed
        exact failsIo_alike .unit (fun _ => rfl) (bare_rmdir h.host hp hrel)
          (bare_rmdir h.host hp' hrel)
      · exact hsame .unit (mapErr_congr (removeDir_congr (h.parent hnamed hlinks)))

/-! ## By either spelling -/

/-- The links that resolving the root leaves to the rest of a path. -/
def linksLeft (s : HostState) (fs : HostFs) : Nat :=
  match lookup s true fs.root with
  | .ok (.at _ k) => k
  | _ => 0

/-- What the check tells of every path of a call. -/
def Passing (s : HostState) (fs : HostFs) (r : Loc) (call : VfsCall) : Prop :=
  ∀ p ∈ paths call, Passes s fs r (linksLeft s fs) p

theorem letThrough_iff (hw : HostWf s) (hroot : realpath s fs.root = .ok r) (call : VfsCall) :
    LetThrough s fs r call ↔ Passing s fs r call := by
  obtain ⟨k, hl⟩ := realpath_ok hroot
  have hk : linksLeft s fs = k := by rw [linksLeft, hl]
  rw [LetThrough, Passing, hk]
  exact forall₂_congr fun p _ => accepted_iff_passes hw hl

/-- Nothing in a call tells the spellings apart: it is refused as a change of
    a read-only mount, or the check has one verdict of it and nothing is moved
    onto the bare root that only one of the spellings misses. -/
def Indifferent (s : HostState) (fs fs' : HostFs) (r : Loc) (call : VfsCall) : Prop :=
  Guarded fs call
    ∨ ((Passing s fs r call ↔ Passing s fs' r call)
      ∧ (Passing s fs r call → MovesAlike s fs fs' call))

/-- **THE SPELLING OF THE ROOT**: unless a call that is let through runs out
    of links by one of the two spellings, its outcome is the same by both
    exactly when nothing in it tells them apart. -/
theorem spelling_indifferent_iff (h : Respelled s fs fs' r) (call : VfsCall)
    (hlinks : Passing s fs r call → Passing s fs' r call → LinksAlike s fs fs' call) :
    SameOutcome ((fs.toVfs posix).invoke s call) ((fs'.toVfs posix).invoke s call)
      ↔ Indifferent s fs fs' r call := by
  by_cases hg : Guarded fs call
  · have hg' : Guarded fs' call := ⟨h.readOnly.trans hg.1, hg.2⟩
    rw [invoke_guarded hg, invoke_guarded hg']
    exact ⟨fun _ => Or.inl hg, fun _ => .refl _⟩
  · have hg' : ¬ Guarded fs' call := fun hg' => hg ⟨h.readOnly.symm.trans hg'.1, hg'.2⟩
    have hl := letThrough_iff h.host h.left call
    have hr := letThrough_iff h.host h.right call
    rw [Indifferent, or_iff_right hg]
    by_cases hp : Passing s fs r call
    · have hacc := hl.mpr hp
      rw [invoke_through hacc hg]
      by_cases hp' : Passing s fs' r call
      · have hacc' := hr.mpr hp'
        rw [invoke_through hacc' hg']
        constructor
        · intro hsame
          refine ⟨⟨fun _ => hp', fun _ => hp⟩, fun _ => ?_⟩
          cases call with
          | rename p q =>
              by_cases hm : MovesAlike s fs fs' (.rename p q)
              · exact hm
              · have hq : q ∈ paths (.rename p q) :=
                  List.mem_cons_of_mem _ (List.mem_cons_self ..)
                exact absurd hsame (rename_differs h (hacc p (List.mem_cons_self ..))
                  (hacc q hq) (hacc' q hq) (hlinks hp hp') hm)
          | stat p => trivial
          | list p => trivial
          | read p off len => trivial
          | write p off data => trivial
          | create p mode => trivial
          | mkdir p mode => trivial
          | remove p => trivial
          | rmdir p => trivial
          | truncate p size => trivial
        · rintro ⟨-, hm⟩
          exact act_alike h hacc hacc' (hlinks hp hp') (hm hp)
      -- one spelling refuses what the other grants
      · rw [invoke_refused h.right fun hacc' => hp' (hr.mp hacc')]
        exact ⟨fun hsame => absurd hsame.reply (act_granted fs s call),
          fun hone => absurd (hone.1.mp hp) hp'⟩
    · rw [invoke_refused h.left fun hacc => hp (hl.mp hacc)]
      by_cases hp' : Passing s fs' r call
      · rw [invoke_through (hr.mpr hp') hg']
        exact ⟨fun hsame => absurd hsame.reply.symm (act_granted fs' s call),
          fun hone => absurd (hone.1.mpr hp') hp⟩
      · rw [invoke_refused h.right fun hacc' => hp' (hr.mp hacc')]
        exact ⟨fun _ => ⟨⟨fun hq => absurd hq hp, fun hq => absurd hq hp'⟩,
          fun hq => absurd hq hp⟩, fun _ => .refl _⟩

/-- The same mount, its root spelled from the working directory. -/
def relativeFs : HostFs := { root := PathBuf.ofBytes [114], readOnly := false }

theorem chunk_respelled : Respelled chunkHost chunkFs relativeFs [⟨[114], rfl⟩] where
  host := ⟨treeWf_of_entries (by decide) (by decide), by decide⟩
  readOnly := rfl
  left := by decide
  right := by decide

/-- The file is found by both spellings. -/
theorem file_spelled_alike : SameOutcome ((chunkFs.toVfs posix).invoke chunkHost (.stat chunkPath))
    ((relativeFs.toVfs posix).invoke chunkHost (.stat chunkPath)) := by
  have hpass : ∀ fs : HostFs, fs = chunkFs ∨ fs = relativeFs →
      Passing chunkHost fs [⟨[114], rfl⟩] (.stat chunkPath) := by
    intro fs hfs p hp
    rw [List.mem_singleton.mp hp]
    refine Or.inl ⟨[⟨[114], rfl⟩], 40, ?_, List.prefix_refl _⟩
    rcases hfs with rfl | rfl
    · decide
    · decide
  have hl := hpass chunkFs (Or.inl rfl)
  have hr := hpass relativeFs (Or.inr rfl)
  refine (@spelling_indifferent_iff chunkHost chunkFs relativeFs [⟨[114], rfl⟩] chunk_respelled
    (.stat chunkPath) fun _ _ => ?_).mpr
    (Or.inr ⟨⟨fun _ => hr, fun _ => hl⟩, fun _ => trivial⟩)
  exact ⟨fun h => absurd h (by decide), fun h => absurd h (by decide)⟩

/-- Below a directory that is missing, the canonical spelling finds nothing
    and the relative one is refused. -/
theorem missing_parent_tells :
    ¬ ∀ (s : HostState) (fs fs' : HostFs) (r : Loc) (call : VfsCall), Respelled s fs fs' r →
      SameOutcome ((fs.toVfs posix).invoke s call) ((fs'.toVfs posix).invoke s call) := by
  intro hall
  have hreply := (hall chunkHost chunkFs relativeFs [⟨[114], rfl⟩]
    (.stat (.ofBytes [47, 109, 47, 120])) chunk_respelled).reply
  have hleft : ((chunkFs.toVfs posix).invoke chunkHost (.stat (.ofBytes [47, 109, 47, 120]))).1
      = .attr (.error .notFound) := by decide
  have hright : ((relativeFs.toVfs posix).invoke chunkHost
      (.stat (.ofBytes [47, 109, 47, 120]))).1 = .attr (.error .permissionDenied) := by decide
  rw [hleft, hright] at hreply
  exact nomatch Except.error.inj (Reply.attr.inj hreply)

end TokimoHostFs
