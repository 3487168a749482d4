import TokimoKvm.HostFsContentsProofs
import TokimoKvm.RootedPathProofs

/-! # `HostFs::stat` and `HostFs::list` — what they serve

    First one request: which entries below the root can be statted and
    listed.  The check looks at the parent of the joined path, so everything
    below the root is served, while the root itself is served only where the
    lexical parent of its own spelling happens to lead into it.

    Then the two together: whether what is listed can be looked up. -/

namespace TokimoHostFs

open TokimoMachine TokimoBytes TokimoPath TokimoTable TokimoVfsCore TokimoHost

variable {s : HostState} {fs : HostFs} {p : PathBuf} {r l : Loc} {k : Nat} {ns : List Name}

/-! ## One call -/

/-- The entries `list` makes of a directory's children. -/
def listed (t : Tree) (l : Loc) : List DirEntry :=
  (t.children l).map fun c => { name := toStringLossy c.1.1, kind := c.2.node.kind }

theorem stat_of_lookup {i : Inode} (hacc : Accepted s fs p r)
    (hl : lookup s false (fs.joined p) = .ok (.at l k)) (hi : s.tree.get l = some i) :
    fs.stat posix p s = (.ok (HostFs.attrFromMeta i.metadata), s.touch [l]) := by
  have hmeta : posix.symlinkMetadata (fs.joined p) s = (.ok i.metadata, s.touch [l]) := by
    show symlinkMetadata (fs.joined p) s = _
    rw [symlinkMetadata, hl]
    simp only [hi]
  have hres : fs.resolve posix p s = (.ok (fs.joined p), s) := by
    rcases resolve_cases fs s p with ⟨-, -, h⟩ | ⟨hno, -⟩
    · exact h
    · exact absurd hacc (hno r)
  rw [HostFs.stat, Eff.bind_of_ok hres, Eff.bind_of_ok (Eff.mapErr_of_ok hmeta)]
  rfl

theorem list_of_lookup (hacc : Accepted s fs p r)
    (hl : lookup s true (fs.joined p) = .ok (.at l k)) (hdir : nodeAt s.tree l = some .dir) :
    fs.list posix p s = (.ok (listed s.tree l), s.touch [l]) := by
  have hread : posix.readDir (fs.joined p) s
      = (.ok ((s.tree.children l).map fun e => (e.1, e.2.node.kind)), s.touch [l]) := by
    show readDir (fs.joined p) s = _
    rw [readDir, hl]
    simp only [hdir]
  have hres : fs.resolve posix p s = (.ok (fs.joined p), s) := by
    rcases resolve_cases fs s p with ⟨-, -, h⟩ | ⟨hno, -⟩
    · exact h
    · exact absurd hacc (hno r)
  rw [HostFs.list, Eff.bind_of_ok hres, Eff.bind_of_ok (Eff.mapErr_of_ok hread)]
  show (Except.ok (((s.tree.children l).map _).map _), _) = _
  rw [List.map_map]
  rfl

/-- A call that succeeds was let through. -/
theorem accepted_of_stat {a : FileAttr} (h : (fs.stat posix p s).1 = .ok a) :
    ∃ r l k i, Accepted s fs p r ∧ lookup s false (fs.joined p) = .ok (.at l k)
      ∧ s.tree.get l = some i ∧ a = HostFs.attrFromMeta i.metadata := by
  rcases resolve_cases fs s p with ⟨r, hacc, hres⟩ | ⟨-, e, hres⟩
  · rcases symlinkMetadata_cases s (fs.joined p) with ⟨l, k, i, hl, hi, -⟩ | ⟨⟨e, hcall⟩, -⟩
    · rw [stat_of_lookup hacc hl hi] at h
      exact ⟨r, l, k, i, hacc, hl, hi, (Except.ok.inj h).symm⟩
    · have hm : posix.symlinkMetadata (fs.joined p) s = (.error e, s) := hcall
      rw [HostFs.stat, Eff.bind_of_ok hres, Eff.bind_of_error (Eff.mapErr_of_error hm)] at h
      exact nomatch h
  · rw [HostFs.stat, Eff.bind_of_error hres] at h
    exact nomatch h

/-! ## Requests that name entries -/

/-- The request is made of the names `ns`: below the slash, or as a relative
    path that does not end in a slash or a dot. -/
def Names (p : PathBuf) (ns : List Name) : Prop :=
  p.components = .rootDir :: ns.map .normal
    ∨ (p.components = ns.map .normal ∧ (ns = [] ∨ p.trailing = []))

/-- Pieces that make no component stay in place. -/
theorem skips_of_components {l : List Seg} (h : l.filterMap Seg.component = []) :
    ∀ x ∈ l, x.isSkip = true := by
  intro x hx
  have hnone := List.filterMap_eq_nil_iff.mp h x hx
  cases x with
  | empty => rfl
  | cur => rfl
  | up => exact nomatch hnone
  | name n => exact nomatch hnone

theorem component_of_real {sg : Seg} (h : sg.isSkip = false) : ∃ c, sg.component = some c := by
  cases sg with
  | empty => exact nomatch h
  | cur => exact nomatch h
  | up => exact ⟨_, rfl⟩
  | name n => exact ⟨_, rfl⟩

/-- The last of the names is the last piece, if that is a real one. -/
theorem last_name {l : List Seg} {sg : Seg} {init : List Name} {n : Name}
    (hsg : sg.isSkip = false)
    (h : (l ++ [sg]).filterMap Seg.component = (init ++ [n]).map Component.normal) :
    sg = .name n ∧ l.filterMap Seg.component = init.map Component.normal := by
  obtain ⟨c, hc⟩ := component_of_real hsg
  have hone : [sg].filterMap Seg.component = [c] := by
    rw [List.filterMap_cons_some hc]
    rfl
  rw [List.filterMap_append, hone, List.map_append] at h
  obtain ⟨hinit, hlast⟩ := List.append_inj' h rfl
  refine ⟨?_, hinit⟩
  rw [(List.cons.inj hlast).1] at hc
  cases sg with
  | empty => exact nomatch hc
  | cur => exact nomatch hc
  | up => exact nomatch hc
  | name m => rw [Component.normal.inj (Option.some.inj hc)]

theorem filterMap_skips {l tail : List Seg} (htail : ∀ x ∈ tail, x.isSkip = true) :
    (l ++ tail).filterMap Seg.component = l.filterMap Seg.component := by
  have hnil : tail.filterMap Seg.component = [] := by
    refine List.filterMap_eq_nil_iff.mpr ?_
    intro x hx
    have hskip := htail x hx
    cases x with
    | empty => rfl
    | cur => rfl
    | up => exact nomatch hskip
    | name n => exact nomatch hskip
  rw [List.filterMap_append, hnil, List.append_nil]

/-- The pieces of a request that is made of names. -/
theorem relSegs_names (hp : Names p ns) :
    (ns = [] → relSegs p = [.empty])
      ∧ ∀ init n, ns = init ++ [n] →
        ∃ l, relSegs p = l ++ [.name n] ∧ l.filterMap Seg.component = init.map .normal := by
  rcases hp with hcomp | ⟨hcomp, hend⟩
  · -- absolute: the pieces are trimmed at both ends
    have ha := isAbsolute_of_components hcomp
    rw [PathBuf.components, if_pos ha] at hcomp
    have hnames := (List.cons.inj hcomp).2
    have hrel : relSegs p = (PathBuf.ofSegs (trimRight (p.rest.dropWhile Seg.isSkip))).segs := by
      rw [relSegs, PathBuf.stripPrefixRoot, if_pos ha]
      rfl
    obtain ⟨pre, hpre, hskip⟩ := dropWhile_split Seg.isSkip p.rest
    obtain ⟨tail, htail, hskip'⟩ := trimRight_split (p.rest.dropWhile Seg.isSkip)
    have hmid : (trimRight (p.rest.dropWhile Seg.isSkip)).filterMap Seg.component
        = ns.map .normal := by
      have hnil : pre.filterMap Seg.component = [] := by
        have h := filterMap_skips (l := []) hskip
        rwa [List.nil_append] at h
      rw [hpre, List.filterMap_append, hnil, List.nil_append, htail, filterMap_skips hskip']
        at hnames
      exact hnames
    cases hlast : (trimRight (p.rest.dropWhile Seg.isSkip)).getLast? with
    | none =>
        have hnil := List.getLast?_eq_none_iff.mp hlast
        rw [hnil] at hmid
        refine ⟨fun _ => by rw [hrel, hnil]; rfl, ?_⟩
        intro init n hns
        rw [List.map_eq_nil_iff.mp hmid.symm] at hns
        exact absurd hns.symm (List.append_ne_nil_of_right_ne_nil _ (List.cons_ne_nil _ _))
    | some sg =>
        have hreal := trimRight_last hlast
        obtain ⟨l, hl⟩ := List.getLast?_eq_some_iff.mp hlast
        rw [hl] at hmid hrel
        refine ⟨fun hns => ?_, fun init n hns => ?_⟩
        · rw [hns] at hmid
          -- the last piece is a real one, so there is a name
          have hskip := skips_of_components hmid sg
            (List.mem_append.mpr (Or.inr (List.mem_cons_self ..)))
          rw [hreal] at hskip
          cases hskip
        · rw [hns] at hmid
          obtain ⟨hsg, hinit⟩ := last_name hreal hmid
          refine ⟨l, ?_, hinit⟩
          rw [hrel, hsg, segs_ofSegs (List.append_ne_nil_of_right_ne_nil _ (List.cons_ne_nil _ _))]
  · -- relative: the pieces are those of the path
    have hna : ¬ p.isAbsolute = true := by
      intro ha
      rw [PathBuf.components, if_pos ha] at hcomp
      cases ns with
      | nil => cases hcomp
      | cons n ns => cases (List.cons.inj hcomp).1
    have hcur : p.first ≠ .cur := by
      intro hc
      rw [PathBuf.components, if_neg hna, if_pos hc] at hcomp
      cases ns with
      | nil => cases hcomp
      | cons n ns => cases (List.cons.inj hcomp).1
    rw [PathBuf.components, if_neg hna, if_neg hcur] at hcomp
    have hrel : relSegs p = p.segs := by
      rw [relSegs, PathBuf.stripPrefixRoot, if_neg hna]
      rfl
    have hfalse : p.isAbsolute = false := Bool.eq_false_iff.mpr hna
    refine ⟨fun hns => ?_, fun init n hns => ?_⟩
    · rw [hns] at hcomp
      rcases first_of_relative hfalse with hf | hnil
      · have hskip := skips_of_components hcomp p.first (List.mem_cons_self ..)
        cases hfirst : p.first with
        | empty => exact absurd hfirst hf
        | cur => exact absurd hfirst hcur
        | up => rw [hfirst] at hskip; cases hskip
        | name m => rw [hfirst] at hskip; cases hskip
      · rw [hrel, hnil]
        rfl
    -- no slash stands behind, so the last piece is the last name
    · rcases hend with hnil | htr
      · rw [hnil] at hns
        exact absurd hns.symm (List.append_ne_nil_of_right_ne_nil _ (List.cons_ne_nil _ _))
      · rw [hns] at hcomp
        rcases List.eq_nil_or_concat p.segs with hnil | ⟨l, sg, hcat⟩
        · exact absurd hnil (List.cons_ne_nil _ _)
        · rw [List.concat_eq_append] at hcat
          have hreal : sg.isSkip = false := by
            rw [PathBuf.trailing, segs_of_relative hfalse, hcat, List.reverse_append] at htr
            refine Bool.eq_false_iff.mpr ?_
            intro hskip
            rw [List.reverse_singleton, List.singleton_append, List.takeWhile_cons_of_pos hskip,
              List.reverse_cons] at htr
            exact absurd htr (List.append_ne_nil_of_right_ne_nil _ (List.cons_ne_nil _ _))
          rw [hcat] at hcomp hrel
          obtain ⟨hsg, hinit⟩ := last_name hreal hcomp
          exact ⟨l, by rw [hrel, hsg], hinit⟩

/-! ## The root of the mount -/

/-- The root's own spelling has no lexical parent, or one that leads to the
    root's directory or below it. -/
def RootShown (s : HostState) (fs : HostFs) (r : Loc) : Prop :=
  ∀ q, fs.root.parent = some q → ∃ c, realpath s q = .ok c ∧ r <+: c

theorem trimRight_skips {l tail : List Seg} (htail : ∀ x ∈ tail, x.isSkip = true) :
    trimRight (l ++ tail) = trimRight l := by
  rw [trimRight, trimRight, List.reverse_append,
    List.dropWhile_append_of_pos fun x hx => htail x (List.mem_reverse.mp hx)]

theorem trimRight_concat (l : List Seg) {sg : Seg} (hsg : sg.isSkip = false) :
    trimRight (l ++ [sg]) = l ++ [sg] :=
  (@cut_unique (l ++ [sg]) l [] sg rfl hsg (List.forall_mem_nil _)).2

theorem trimRight_cur_nil {l : List Seg} (h : trimRight l = []) : trimRight (.cur :: l) = [] := by
  obtain ⟨tail, hsplit, htail⟩ := trimRight_split l
  rw [h, List.nil_append] at hsplit
  refine trimRight_skips (l := []) ?_
  intro x hx
  rcases List.mem_cons.mp hx with rfl | hx
  · rfl
  · exact htail x (by rw [← hsplit]; exact hx)

theorem trimRight_cur {l l' : List Seg} (h : trimRight (.cur :: l) = trimRight (.cur :: l')) :
    trimRight l = trimRight l' := by
  by_cases hl : trimRight l = []
  · by_cases hl' : trimRight l' = []
    · rw [hl, hl']
    · rw [trimRight_cur_nil hl, trimRight_cons _ hl'] at h
      exact nomatch h
  · by_cases hl' : trimRight l' = []
    · rw [trimRight_cur_nil hl', trimRight_cons _ hl] at h
      exact nomatch h
    · rw [trimRight_cons _ hl, trimRight_cons _ hl'] at h
      exact (List.cons.inj h).2

/-- Paths that differ in what stands behind the last real piece have one
    parent. -/
theorem parent_congr {p q : PathBuf} (habs : p.isAbsolute = q.isAbsolute)
    (hfirst : p.isAbsolute = false → p.first = q.first)
    (htrim : trimRight p.body = trimRight q.body) : p.parent = q.parent := by
  cases ha : p.isAbsolute with
  | true =>
      have hb : p.isAbsolute = true := ha
      rw [habs] at hb
      rw [PathBuf.body, if_pos ha, PathBuf.body, if_pos hb] at htrim
      rw [PathBuf.parent, PathBuf.parent, if_pos ha, if_pos hb, htrim]
  | false =>
      have hb : q.isAbsolute = false := by rw [← habs]; exact ha
      have hf := hfirst ha
      rw [segs_of_relative ha, segs_of_relative hb] at htrim
      have hpa : ¬ p.isAbsolute = true := by rw [ha]; exact Bool.false_ne_true
      have hqa : ¬ q.isAbsolute = true := by rw [hb]; exact Bool.false_ne_true
      rw [PathBuf.parent, PathBuf.parent, if_neg hpa, if_neg hqa, htrim, hf]
      by_cases hc : q.first = .cur
      · -- behind a leading dot the rest is trimmed on its own
        have hrest : trimRight p.rest = trimRight q.rest := by
          rw [PathBuf.segs, PathBuf.segs, hf, hc] at htrim
          exact trimRight_cur htrim
        rw [if_pos hc, if_pos hc, hrest]
      · rw [if_neg hc, if_neg hc]

/-- The joined path of the bare root has the root's parent. -/
theorem parent_of_bare (hne : fs.root.isEmptyStr = false)
    (hrel : ∀ x ∈ relSegs p, x.isSkip = true) : (fs.joined p).parent = fs.root.parent := by
  obtain ⟨habs, hbody⟩ := joined_body hne p
  obtain ⟨tail, hcut, htail⟩ := trunk_cut fs.root
  refine parent_congr habs ?_ ?_
  · intro ha
    have hra : fs.root.isAbsolute = false := by rw [← habs]; exact ha
    have hhead := trunk_headed hne
    rw [hra] at hhead
    rcases hhead with htrue | ⟨a, rest, htr, -⟩
    · exact nomatch htrue
    · rw [segs_of_relative ha, htr, PathBuf.segs] at hbody
      rw [segs_of_relative hra, htr, PathBuf.segs] at hcut
      rw [(List.cons.inj hbody).1, (List.cons.inj hcut).1]
  · rw [hbody, hcut, trimRight_skips htail, trimRight_skips hrel]

/-- **THE ROOT ITSELF**: a request for it passes the check exactly when the
    root's spelling has a parent that leads into the root, or none. -/
theorem bare_accepted_iff (hw : HostWf s) (hroot : realpath s fs.root = .ok r)
    (hrel : ∀ x ∈ relSegs p, x.isSkip = true) : Accepted s fs p r ↔ RootShown s fs r := by
  obtain ⟨k, hl⟩ := realpath_ok hroot
  obtain ⟨hnul, hne, hwalk⟩ := lookup_ok hl
  have hparent := parent_of_bare (p := p) hne hrel
  cases hq : fs.root.parent with
  | none =>
      have hprobe : fs.probe p = fs.joined p := by rw [HostFs.probe, hparent, hq]; rfl
      constructor
      · intro _ q' hq'
        rw [hq] at hq'
        cases hq'
      intro _
      -- nothing but slashes: the root is the host's own
      rcases parent_none hq with he | ⟨habs, hskip⟩
      · rw [he] at hne
        cases hne
      · rw [startOf, if_pos habs, ← List.append_nil fs.root.body, walk_skip [] hskip, walk_nil]
          at hwalk
        obtain ⟨rfl, -⟩ := Walked.at.inj (Except.ok.inj hwalk)
        obtain ⟨hja, hjb⟩ := joined_body hne p
        have hjskip : ∀ x ∈ (fs.joined p).body, x.isSkip = true := by
          intro x hx
          obtain ⟨tail, hcut, -⟩ := trunk_cut fs.root
          rw [hjb] at hx
          rcases List.mem_append.mp hx with hx | hx
          · exact hskip x (by rw [hcut]; exact List.mem_append.mpr (Or.inl hx))
          · exact hrel x hx
        have hjnul : (fs.joined p).hasNul = false := joined_hasNul hne hnul (by
          intro n hn
          cases hrel _ hn)
        have hje : (fs.joined p).isEmptyStr = false :=
          isEmptyStr_of_absolute (by rw [hja]; exact habs)
        have hreal : realpath s (fs.joined p) = .ok [] := by
          rw [realpath, lookup_walk hjnul hje, startOf, if_pos (by rw [hja]; exact habs),
            ← List.append_nil (fs.joined p).body, walk_skip [] hjskip, walk_nil]
        refine ⟨hroot, Or.inl ⟨[], ?_, List.prefix_refl _⟩⟩
        rw [hprobe]
        exact hreal
  | some q =>
      have hprobe : fs.probe p = q := by rw [HostFs.probe, hparent, hq]; rfl
      constructor
      · intro hacc q' hq'
        rw [hq] at hq'
        obtain rfl := Option.some.inj hq'
        rcases hacc.2 with ⟨c, hc, hin⟩ | ⟨⟨e, he⟩, hst⟩
        · rw [hprobe] at hc
          exact ⟨c, hc, hin⟩
        · -- a parent that cannot be resolved is the empty string
          exfalso
          rw [hprobe] at he hst
          cases hqe : q.isEmptyStr with
          | true =>
              have hcomp : q.components = [] := by
                obtain ⟨first, rest⟩ := q
                rw [PathBuf.isEmptyStr, Bool.and_eq_true_iff] at hqe
                have h1 : first = .empty := of_decide_eq_true hqe.1
                have h2 : rest = [] := List.isEmpty_iff.mp hqe.2
                rw [h1, h2]
                rfl
              rw [PathBuf.startsWith, decide_eq_true_iff, locPath_components, hcomp] at hst
              cases List.prefix_nil.mp hst
          | false =>
              obtain ⟨sg, -, -, -, ⟨c, k', hent, -⟩ | ⟨-, herr⟩⟩ :=
                lookup_last (s := s) hq hqe hnul
              · obtain ⟨q', hq', -, hreal, -⟩ := enterParent_some hw hent hnul
                rw [hq] at hq'
                obtain rfl := Option.some.inj hq'
                rw [he] at hreal
                cases hreal
              · obtain ⟨e', he'⟩ := herr true
                rw [hl] at he'
                cases he'
      · intro hshown
        obtain ⟨c, hc, hin⟩ := hshown q hq
        refine ⟨hroot, Or.inl ⟨c, ?_, hin⟩⟩
        rw [hprobe]
        exact hc

/-! ## Everything below it -/

/-- **NAMES BELOW THE ROOT**: a request made of names passes the check and
    leads to the entry it names. -/
theorem names_lookup (hw : HostWf s) (hroot : realpath s fs.root = .ok r)
    (hdir : nodeAt s.tree r = some .dir) {init : List Name} {n : Name}
    (hp : Names p (init ++ [n])) (hnul : ∀ m ∈ init ++ [n], m.1.contains 0 = false)
    (hdirs : ∀ m, m <+: init → nodeAt s.tree (r ++ m) = some .dir) :
    Accepted s fs p r ∧ ∃ k, ∀ follow, lookup s follow (fs.joined p)
      = walk s.tree follow k (r ++ init) [.name n] := by
  obtain ⟨k, hl⟩ := realpath_ok hroot
  obtain ⟨hrnul, hne, -⟩ := lookup_ok hl
  obtain ⟨rel, hrel, hinit⟩ := (relSegs_names hp).2 init n rfl
  obtain ⟨-, hbody⟩ := joined_body hne p
  rw [hrel, ← List.append_assoc] at hbody
  have hhead := headed_append (joined_headed hne p) rel
  have hjnul : (fs.joined p).hasNul = false := by
    refine joined_hasNul hne hrnul ?_
    intro m hm
    have hmem : Component.normal m ∈ (relSegs p).filterMap Seg.component :=
      List.mem_filterMap.mpr ⟨_, hm, rfl⟩
    rw [hrel, List.filterMap_append, hinit] at hmem
    refine hnul m ?_
    rcases List.mem_append.mp hmem with h | h
    · obtain ⟨m', hm', heq⟩ := List.mem_map.mp h
      rw [← Component.normal.inj heq]
      exact List.mem_append.mpr (Or.inl hm')
    · obtain rfl := Component.normal.inj (List.mem_singleton.mp h)
      exact List.mem_append.mpr (Or.inr (List.mem_cons_self ..))
  -- down to the root's directory, and from there along the names
  have hwalk : walk s.tree true symloopMax (startOf (fs.joined p) s.cwd) (fs.root.trunk ++ rel)
      = .ok (.at (r ++ init) k) := by
    rw [startOf_joined hne, (walk_through hw.tree (Or.inr rfl) _ _ _ (startOf_dir hw fs.root)
      (trunk_walk hw hl)).1 hdir]
    exact walk_down r hinit hdirs
  have hc : nodeAt s.tree (r ++ init) = some .dir := hdirs init (List.prefix_refl _)
  have hent := enterParent_of hw hbody rfl (fun x hx => nomatch hx) hhead hwalk hc
  refine ⟨(accepted_iff_enter hw hroot hjnul hent).mpr (List.prefix_append r init), k, ?_⟩
  intro follow
  exact lookup_of_enter hw hbody hhead hjnul hwalk hc follow

/-- The bare root leads to the root's directory. -/
theorem bare_lookup (hw : HostWf s) (hl : lookup s true fs.root = .ok (.at r k))
    (hdir : nodeAt s.tree r = some .dir) (hrel : relSegs p = [.empty]) (follow : Bool) :
    lookup s follow (fs.joined p) = .ok (.at r k) := by
  obtain ⟨hrnul, hne, -⟩ := lookup_ok hl
  obtain ⟨-, hbody⟩ := joined_body hne p
  have hjnul : (fs.joined p).hasNul = false := joined_hasNul hne hrnul (by
    intro n hn
    rw [hrel] at hn
    exact nomatch List.mem_singleton.mp hn)
  rw [lookup_walk hjnul (isEmptyStr_of_headed hbody (joined_headed hne p)), hbody,
    startOf_joined hne, (walk_through hw.tree (Or.inl (relSegs_ne_nil p)) _ _ _
      (startOf_dir hw fs.root) (trunk_walk hw hl)).1 hdir, hrel,
    walk_skip_cons _ _ _ _ _ rfl, walk_nil]

/-- The last name leads to what is there, unless that is a link to follow. -/
theorem walk_to_entry {t : Tree} {follow : Bool} {k : Nat} {d : Loc} {n : Name} {node : Node}
    (hn : nodeAt t (d ++ [n]) = some node) (hf : follow = false ∨ node = .dir) :
    walk t follow k d [.name n] = .ok (.at (d ++ [n]) k) := by
  cases node with
  | dir => rw [walk_name_dir _ _ _ hn, walk_nil]
  | file data => rw [walk_name_file _ _ _ hn]; rfl
  | symlink target =>
      rcases hf with rfl | hdir
      · rw [walk_name_link _ _ _ hn]; rfl
      · exact nomatch hdir

/-- `stat` gives the entry's attributes, and `list` a directory's children. -/
def Served (s : HostState) (fs : HostFs) (p : PathBuf) (l : Loc) (i : Inode) : Prop :=
  (fs.stat posix p s).1 = .ok (HostFs.attrFromMeta i.metadata)
    ∧ (i.node = .dir → (fs.list posix p s).1 = .ok (listed s.tree l))

/-- **WHAT IS SERVED**: a request that names an entry below the root, through
    directories, is served; a request for the root itself is served exactly
    when the parent of the root's spelling leads into the root. -/
theorem served_iff (hw : HostWf s) (hroot : realpath s fs.root = .ok r)
    (hdir : nodeAt s.tree r = some .dir) (hp : Names p ns)
    (hnul : ∀ n ∈ ns, n.1.contains 0 = false)
    (hdirs : ∀ m, m <+: ns → m ≠ ns → nodeAt s.tree (r ++ m) = some .dir) {i : Inode}
    (hi : s.tree.get (r ++ ns) = some i) :
    Served s fs p (r ++ ns) i ↔ ns ≠ [] ∨ RootShown s fs r := by
  rcases List.eq_nil_or_concat ns with rfl | ⟨init, n, hcat⟩
  · -- the root: everything hangs on the check
    have hrel := (relSegs_names hp).1 rfl
    obtain ⟨k, hl⟩ := realpath_ok hroot
    rw [List.append_nil] at hi ⊢
    constructor
    · rintro ⟨hstat, -⟩
      obtain ⟨r', -, -, -, hacc, -⟩ := accepted_of_stat hstat
      have hr : r' = r := Except.ok.inj (hacc.1.symm.trans hroot)
      rw [hr] at hacc
      exact Or.inr ((bare_accepted_iff hw hroot (by rw [hrel]; exact slash_skip)).mp hacc)
    · rintro (hne | hshown)
      · exact absurd rfl hne
      · have hacc := (bare_accepted_iff (p := p) hw hroot
          (by rw [hrel]; exact slash_skip)).mpr hshown
        have hlook := bare_lookup hw hl hdir hrel
        refine ⟨?_, fun _ => ?_⟩
        · rw [stat_of_lookup hacc (hlook false) hi]
        · rw [list_of_lookup hacc (hlook true) hdir]
  · rw [List.concat_eq_append] at hcat
    subst hcat
    refine ⟨fun _ => Or.inl (List.append_ne_nil_of_right_ne_nil _ (List.cons_ne_nil _ _)),
      fun _ => ?_⟩
    obtain ⟨hacc, k, hlook⟩ := names_lookup hw hroot hdir hp hnul (by
      intro m hm
      refine hdirs m (hm.trans (List.prefix_append _ _)) ?_
      rintro rfl
      have hlen := hm.length_le
      rw [List.length_append] at hlen
      exact Nat.not_succ_le_self _ hlen)
    have hnode : nodeAt s.tree ((r ++ init) ++ [n]) = some i.node := by
      rw [List.append_assoc]
      exact nodeAt_of_get hi
    have hat : ∀ follow, follow = false ∨ i.node = .dir →
        lookup s follow (fs.joined p) = .ok (.at (r ++ (init ++ [n])) k) := by
      intro follow hf
      rw [hlook, walk_to_entry hnode hf, List.append_assoc]
    refine ⟨?_, fun hd => ?_⟩
    · rw [stat_of_lookup hacc (hat false (Or.inl rfl)) hi]
    · rw [list_of_lookup hacc (hat true (Or.inr hd))
        (by rw [nodeAt_of_get hi, hd])]

/-- The file of a mount is served. -/
theorem served_file : Served chunkHost chunkFs chunkPath chunkLoc
    { id := 2, node := .file [], mode := 0o100644, mtime := 0, atime := 0, ctime := 0 } := by
  have hwf : HostWf chunkHost :=
    ⟨treeWf_of_entries (by decide) (by decide), by decide⟩
  refine (@served_iff chunkHost chunkFs chunkPath [⟨[114], rfl⟩] [⟨[102], rfl⟩] hwf (by decide)
    (by decide) (Or.inl (by decide)) (by decide) ?_ _ (by decide)).mpr (Or.inl (by decide))
  intro m hm hne
  rcases m with - | ⟨a, m⟩
  · decide
  · obtain ⟨rfl, hrest⟩ := List.cons_prefix_cons.mp hm
    rw [List.prefix_nil.mp hrest] at hne
    exact absurd rfl hne

/-- The root of a mount is refused. -/
theorem mount_root_refused :
    nodeAt chunkHost.tree [⟨[114], rfl⟩] = some .dir
      ∧ realpath chunkHost chunkFs.root = .ok [⟨[114], rfl⟩]
      ∧ Names PathBuf.root []
      ∧ (chunkFs.stat posix PathBuf.root chunkHost).1 = .error .permissionDenied
      ∧ (chunkFs.list posix PathBuf.root chunkHost).1 = .error .permissionDenied :=
  ⟨by decide, by decide, Or.inl (by decide), by decide, by decide⟩

/-! ## Listed names -/

/-- A name of the guest's is shown as it is, or with a mark in it. -/
theorem toStringLossy_marked (bs : Bytes) :
    toStringLossy bs = bs ∨ (0xEF : UInt8) ∈ toStringLossy bs := by
  refine toStringLossy_induct (motive := fun d v => d = v ∨ (0xEF : UInt8) ∈ d) (Or.inl rfl)
    ?_ ?_ bs
  · rintro w d v (rfl | hmem)
    · exact Or.inl rfl
    · exact Or.inr (List.mem_append.mpr (Or.inr hmem))
  · intro x d v _ _ _
    exact Or.inr (List.mem_cons_self ..)

/-- What is shown of a name is a name. -/
theorem ordinary_toStringLossy (n : Name) : ordinary (toStringLossy n.1) = true := by
  rcases toStringLossy_marked n.1 with heq | hmark
  · rw [heq]
    exact n.2
  · -- with a mark in it, it is neither empty nor dots
    have hslash : (toStringLossy n.1).contains 47 = false := by
      have hn := n.2
      rw [ordinary, Bool.and_eq_true_iff, Bool.and_eq_true_iff, Bool.and_eq_true_iff] at hn
      have hno : (47 : UInt8) ∉ n.1 := by simpa using hn.1.1.2
      have hno' : (47 : UInt8) ∉ toStringLossy n.1 := fun h =>
        hno ((mem_toStringLossy (by decide) n.1).mp h)
      simpa using hno'
    rw [ordinary, hslash]
    cases hl : toStringLossy n.1 with
    | nil =>
        rw [hl] at hmark
        cases hmark
    | cons b bs =>
        rw [hl] at hmark
        have hdot : b :: bs ≠ [46] := by
          rintro heq
          rw [heq] at hmark
          exact absurd hmark (by decide)
        have hdots : b :: bs ≠ [46, 46] := by
          rintro heq
          rw [heq] at hmark
          exact absurd hmark (by decide)
        simp [hdot, hdots]

/-- The name the guest is shown for a name of the host. -/
def shown (n : Name) : Name := ⟨toStringLossy n.1, ordinary_toStringLossy n⟩

theorem shown_eq_iff (n : Name) : shown n = n ↔ isUtf8 n.1 = true := by
  rw [← toStringLossy_eq_iff]
  constructor
  · intro h
    exact congrArg Subtype.val h
  · intro h
    exact Subtype.ext h

theorem shown_shown (n : Name) : shown (shown n) = shown n :=
  (shown_eq_iff (shown n)).mpr (isUtf8_toStringLossy n.1)

/-! ## Looking a listed name up -/

/-- The pieces of a request and of the same request with a name joined to it
    are the same in front of the name, but for pieces that stay in place. -/
theorem child_pieces (p : PathBuf) (n : Name) :
    ∃ l t u, relSegs p = l ++ t ∧ relSegs (p.join (.ofBytes n.1)) = l ++ u ++ [.name n]
      ∧ (∀ x ∈ t, x.isSkip = true) ∧ ∀ x ∈ u, x.isSkip = true := by
  have hname : (PathBuf.ofBytes n.1).isAbsolute = false := by rw [ofBytes_name]; rfl
  have hsegs : (PathBuf.ofBytes n.1).segs = [.name n] := by rw [ofBytes_name]; rfl
  cases ha : p.isAbsolute with
  | true =>
      obtain ⟨hja, hjb⟩ := join_body (isEmptyStr_of_absolute ha) hname
      rw [ha] at hja
      rw [hsegs] at hjb
      obtain ⟨tail, hcut, htail⟩ := trunk_cut p
      have hrel : ∀ q : PathBuf, q.isAbsolute = true → relSegs q
          = (PathBuf.ofSegs (trimRight (q.body.dropWhile Seg.isSkip))).segs := by
        intro q hq
        rw [relSegs, PathBuf.stripPrefixRoot, if_pos hq, PathBuf.body, if_pos hq]
        rfl
      -- both begin with the trimmed pieces of the trunk
      obtain ⟨u, hu, hskip⟩ := trimRight_split (p.trunk.dropWhile Seg.isSkip)
      have hp : trimRight (p.body.dropWhile Seg.isSkip)
          = trimRight (p.trunk.dropWhile Seg.isSkip) := by
        rw [hcut, List.dropWhile_append]
        by_cases hd : (p.trunk.dropWhile Seg.isSkip).isEmpty = true
        · rw [if_pos hd, List.isEmpty_iff.mp hd]
          have hnil : tail.dropWhile Seg.isSkip = [] := by
            rw [← List.append_nil tail, List.dropWhile_append_of_pos htail]
            rfl
          rw [hnil]
        · rw [if_neg hd, trimRight_skips htail]
      have hj : trimRight ((p.join (.ofBytes n.1)).body.dropWhile Seg.isSkip)
          = p.trunk.dropWhile Seg.isSkip ++ [.name n] := by
        rw [hjb, List.dropWhile_append]
        by_cases hd : (p.trunk.dropWhile Seg.isSkip).isEmpty = true
        · rw [if_pos hd, List.isEmpty_iff.mp hd]
          rfl
        · rw [if_neg hd, trimRight_concat _ rfl]
      have hjoin : relSegs (p.join (.ofBytes n.1))
          = trimRight (p.trunk.dropWhile Seg.isSkip) ++ u ++ [.name n] := by
        rw [hrel _ hja, hj, segs_ofSegs (List.append_ne_nil_of_right_ne_nil _
          (List.cons_ne_nil _ _)), ← hu]
      by_cases hnil : trimRight (p.trunk.dropWhile Seg.isSkip) = []
      · refine ⟨_, [.empty], u, ?_, hjoin, slash_skip, hskip⟩
        rw [hrel p ha, hp, hnil]
        rfl
      · refine ⟨_, [], u, ?_, hjoin, (fun x hx => by cases hx), hskip⟩
        rw [hrel p ha, hp, segs_ofSegs hnil, List.append_nil]
  | false =>
      have hrel : ∀ q : PathBuf, q.isAbsolute = false → relSegs q = q.segs := by
        intro q hq
        rw [relSegs, PathBuf.stripPrefixRoot, if_neg (by rw [hq]; exact Bool.false_ne_true)]
        rfl
      cases he : p.isEmptyStr with
      | true =>
          have hp : p = PathBuf.ofSegs [] := by
            obtain ⟨first, rest⟩ := p
            rw [PathBuf.isEmptyStr, Bool.and_eq_true_iff] at he
            have h1 : first = .empty := of_decide_eq_true he.1
            have h2 : rest = [] := List.isEmpty_iff.mp he.2
            rw [h1, h2]
            rfl
          refine ⟨[], [.empty], [], ?_, ?_, slash_skip, fun x hx => by cases hx⟩
          · rw [hp]
            rfl
          · rw [hp, ofBytes_name]
            rfl
      | false =>
          obtain ⟨hja, hjb⟩ := join_body he hname
          rw [ha] at hja
          rw [hsegs, segs_of_relative hja] at hjb
          obtain ⟨tail, hcut, htail⟩ := trunk_cut p
          rw [segs_of_relative ha] at hcut
          refine ⟨p.trunk, tail, [], ?_, ?_, htail, fun x hx => by cases hx⟩
          · rw [hrel p ha]
            exact hcut
          · rw [hrel _ hja, hjb, List.append_nil]

/-- **LOOKING A NAME UP** in a directory that was listed: the request passes
    the check exactly when the directory is in the root, and the name is
    walked from the directory. -/
theorem child_lookup (hw : HostWf s) (hroot : realpath s fs.root = .ok r)
    (hl : lookup s true (fs.joined p) = .ok (.at l k)) (hdir : nodeAt s.tree l = some .dir)
    (n : Name) (hn : n.1.contains 0 = false) :
    (Accepted s fs (p.join (.ofBytes n.1)) r ↔ r <+: l)
      ∧ ∀ follow, lookup s follow (fs.joined (p.join (.ofBytes n.1)))
        = walk s.tree follow k l [.name n] := by
  obtain ⟨kr, hlr⟩ := realpath_ok hroot
  obtain ⟨hrnul, hne, -⟩ := lookup_ok hlr
  obtain ⟨hnul, -, hwalk⟩ := lookup_ok hl
  obtain ⟨rel, t, u, hp, hj, ht, hu⟩ := child_pieces p n
  obtain ⟨-, hpb⟩ := joined_body hne p
  obtain ⟨-, hjb⟩ := joined_body hne (p.join (.ofBytes n.1))
  rw [hp, ← List.append_assoc] at hpb
  rw [hj, ← List.append_assoc, ← List.append_assoc] at hjb
  rw [hpb, startOf_joined hne] at hwalk
  have hhead := headed_append (headed_append (joined_headed hne (p.join (.ofBytes n.1))) rel) u
  -- the pieces in front of the name lead to the directory as well
  have hgo : walk s.tree true symloopMax (startOf (fs.joined (p.join (.ofBytes n.1))) s.cwd)
      (fs.root.trunk ++ rel ++ u) = .ok (.at l k) := by
    rw [startOf_joined hne]
    exact walk_respell hw.tree (startOf_dir hw fs.root) hdir ht hu hwalk
  have hjnul : (fs.joined (p.join (.ofBytes n.1))).hasNul = false := by
    refine (hasNul_false_iff _).mpr ?_
    intro m hm
    rw [hjb] at hm
    rcases List.mem_append.mp hm with hm | hm
    · rcases List.mem_append.mp hm with hm | hm
      · refine (hasNul_false_iff (fs.joined p)).mp hnul m ?_
        rw [hpb]
        exact List.mem_append.mpr (Or.inl hm)
      · exact nomatch hu _ hm
    · obtain rfl := Seg.name.inj (List.mem_singleton.mp hm)
      exact hn
  have hent := enterParent_of hw hjb rfl (fun x hx => nomatch hx) hhead hgo hdir
  exact ⟨accepted_iff_enter hw hroot hjnul hent,
    fun follow => lookup_of_enter hw hjb hhead hjnul hgo hdir follow⟩

/-- Statting a name in a directory finds its entry. -/
theorem child_stat_iff (hw : HostWf s) (hroot : realpath s fs.root = .ok r)
    (hl : lookup s true (fs.joined p) = .ok (.at l k)) (hdir : nodeAt s.tree l = some .dir)
    (n : Name) (hn : n.1.contains 0 = false) (a : FileAttr) :
    (fs.stat posix (p.join (.ofBytes n.1)) s).1 = .ok a
      ↔ r <+: l ∧ ∃ i, s.tree.get (l ++ [n]) = some i ∧ a = HostFs.attrFromMeta i.metadata := by
  obtain ⟨hacc, hlook⟩ := child_lookup hw hroot hl hdir n hn
  constructor
  · intro hstat
    obtain ⟨r', l', k', i, hacc', hl', hi, ha⟩ := accepted_of_stat hstat
    have hr : r' = r := Except.ok.inj (hacc'.1.symm.trans hroot)
    rw [hr] at hacc'
    refine ⟨hacc.mp hacc', ?_⟩
    rw [hlook] at hl'
    cases hnode : nodeAt s.tree (l ++ [n]) with
    | none =>
        rw [walk_name_none _ _ _ hnode] at hl'
        exact nomatch hl'
    | some node =>
        rw [walk_to_entry hnode (Or.inl rfl)] at hl'
        obtain ⟨rfl, -⟩ := Walked.at.inj (Except.ok.inj hl')
        exact ⟨i, hi, ha⟩
  · rintro ⟨hin, i, hi, rfl⟩
    have hl' : lookup s false (fs.joined (p.join (.ofBytes n.1))) = .ok (.at (l ++ [n]) k) := by
      rw [hlook, walk_to_entry (nodeAt_of_get hi) (Or.inl rfl)]
    rw [stat_of_lookup (hacc.mpr hin) hl' hi]

/-- The listing of a directory and what `stat` says of its entries agree. -/
structure ListingAgrees (s : HostState) (fs : HostFs) (p : PathBuf) (l : Loc)
    (es : List DirEntry) : Prop where
  /-- The listed names are pairwise distinct. -/
  distinct : (es.map DirEntry.name).Nodup
  /-- There is one for each child. -/
  each : es.length = (s.tree.children l).length
  /-- Each can be looked up, and is of the kind it was listed with. -/
  found : ∀ e ∈ es, ∃ a, (fs.stat posix (p.join (.ofBytes e.name)) s).1 = .ok a ∧ a.kind = e.kind

/-- **LISTED AND LOOKED UP**: where a path can be listed, the listing agrees
    with `stat` exactly when the directory is empty, or its names are UTF-8
    and it is the root's directory or below it. -/
theorem listing_agrees_iff (hw : HostWf s) (hkeys : (s.tree.map Prod.fst).Nodup)
    (hnames : ∀ e ∈ s.tree, ∀ n ∈ e.1, n.1.contains 0 = false) {es : List DirEntry}
    (hlist : (fs.list posix p s).1 = .ok es) :
    ∃ r l, realpath s fs.root = .ok r ∧ realpath s (fs.joined p) = .ok l
      ∧ (ListingAgrees s fs p l es
        ↔ s.tree.children l = []
          ∨ ((∀ c ∈ s.tree.children l, isUtf8 c.1.1 = true) ∧ r <+: l)) := by
  obtain ⟨r, l, k, hacc, hl, hdir⟩ : ∃ r l k, Accepted s fs p r
      ∧ lookup s true (fs.joined p) = .ok (.at l k) ∧ nodeAt s.tree l = some .dir := by
    rcases resolve_cases fs s p with ⟨r, hacc, hres⟩ | ⟨-, e, hres⟩
    · rcases readDir_cases s (fs.joined p) with ⟨l, k, hl, hdir, -⟩ | ⟨⟨e, hcall⟩, -⟩
      · exact ⟨r, l, k, hacc, hl, hdir⟩
      · have hm : posix.readDir (fs.joined p) s = (.error e, s) := hcall
        rw [HostFs.list, Eff.bind_of_ok hres, Eff.bind_of_error (Eff.mapErr_of_error hm)] at hlist
        cases hlist
    · rw [HostFs.list, Eff.bind_of_error hres] at hlist
      cases hlist
  have hroot := hacc.1
  have hreal : realpath s (fs.joined p) = .ok l := by rw [realpath, hl]
  rw [list_of_lookup hacc hl hdir] at hlist
  obtain rfl := Except.ok.inj hlist
  have hget : ∀ {n v}, (n, v) ∈ s.tree.children l → s.tree.get (l ++ [n]) = some v :=
    fun hc => Table.get_of_mem hkeys (Table.mem_children.mp hc)
  have hnul : ∀ {n v}, (n, v) ∈ s.tree.children l → n.1.contains 0 = false := fun hc =>
    hnames _ (Table.mem_children.mp hc) _ (List.mem_append.mpr (Or.inr (List.mem_cons_self ..)))
  have hshownNul : ∀ {n v}, (n, v) ∈ s.tree.children l → (shown n).1.contains 0 = false := by
    intro n v hc
    have hno : (0 : UInt8) ∉ n.1 := by simpa using hnul hc
    have hno' : (0 : UInt8) ∉ toStringLossy n.1 := fun h =>
      hno ((mem_toStringLossy (by decide) n.1).mp h)
    simpa [shown] using hno'
  refine ⟨r, l, hroot, hreal, ?_⟩
  constructor
  · rintro ⟨hdistinct, -, hfound⟩
    by_cases hempty : s.tree.children l = []
    · exact Or.inl hempty
    · -- each listed name is the name of a child
      have hchild : ∀ {n v}, (n, v) ∈ s.tree.children l →
          r <+: l ∧ ∃ i, s.tree.get (l ++ [shown n]) = some i := by
        intro n v hc
        obtain ⟨a, hstat, -⟩ := hfound _ (List.mem_map.mpr ⟨(n, v), hc, rfl⟩)
        obtain ⟨hin, i, hi, -⟩ :=
          (child_stat_iff hw hroot hl hdir (shown n) (hshownNul hc) a).mp hstat
        exact ⟨hin, i, hi⟩
      refine Or.inr ⟨?_, ?_⟩
      · rintro ⟨n, v⟩ hc
        obtain ⟨-, i, hi⟩ := hchild hc
        have hc' : (shown n, i) ∈ s.tree.children l :=
          Table.mem_children.mpr (Table.mem_of_get hi)
        -- were it another child, the two would be listed under one name
        rw [listed, List.map_map] at hdistinct
        have heq : (n, v) = (shown n, i) := by
          refine List.inj_on_of_nodup_map hdistinct hc hc' ?_
          exact congrArg Subtype.val (shown_shown n).symm
        exact (shown_eq_iff n).mp (congrArg Prod.fst heq).symm
      · cases hch : s.tree.children l with
        | nil => exact absurd hch hempty
        | cons c rest =>
            obtain ⟨n, v⟩ := c
            exact (hchild (n := n) (v := v) (by rw [hch]; exact List.mem_cons_self ..)).1
  · rintro (hempty | ⟨hutf, hin⟩)
    · refine ⟨?_, ?_, ?_⟩
      · rw [listed, hempty]
        exact List.Pairwise.nil
      · rw [listed, hempty]
        rfl
      · intro e he
        rw [listed, hempty] at he
        cases he
    · have hsame : ∀ c ∈ s.tree.children l, toStringLossy c.1.1 = c.1.1 := fun c hc =>
        (toStringLossy_eq_iff _).mpr (hutf c hc)
      refine ⟨?_, List.length_map _, ?_⟩
      · have hbytes : (listed s.tree l).map DirEntry.name
            = ((s.tree.children l).map Prod.fst).map Subtype.val := by
          rw [listed, List.map_map, List.map_map]
          exact List.map_congr_left hsame
        rw [hbytes]
        exact (List.nodup_map_iff Subtype.val_injective).mpr (Table.children_nodup hkeys l)
      · intro e he
        obtain ⟨⟨n, v⟩, hc, rfl⟩ := List.mem_map.mp he
        refine ⟨HostFs.attrFromMeta v.metadata, ?_, rfl⟩
        show (fs.stat posix (p.join (.ofBytes (toStringLossy n.1))) s).1 = _
        rw [hsame _ hc]
        exact (child_stat_iff hw hroot hl hdir n (hnul hc) _).mpr ⟨hin, v, hget hc, rfl⟩

/-- A host with a name that is no UTF-8: `/r/d` holds one, `/r/e` holds a file, a
    directory and a link. -/
def namesHost : HostState where
  tree := [
    ([], { id := 0, node := .dir, mode := 0o40755, mtime := 0, atime := 0, ctime := 0 }),
    ([⟨[114], Eq.refl true⟩],
      { id := 1, node := .dir, mode := 0o40755, mtime := 0, atime := 0, ctime := 0 }),
    ([⟨[114], Eq.refl true⟩, ⟨[100], Eq.refl true⟩],
      { id := 2, node := .dir, mode := 0o40755, mtime := 0, atime := 0, ctime := 0 }),
    ([⟨[114], Eq.refl true⟩, ⟨[100], Eq.refl true⟩, ⟨[255], Eq.refl true⟩],
      { id := 3, node := .file [], mode := 0o100644, mtime := 0, atime := 0, ctime := 0 }),
    ([⟨[114], Eq.refl true⟩, ⟨[101], Eq.refl true⟩],
      { id := 4, node := .dir, mode := 0o40755, mtime := 0, atime := 0, ctime := 0 }),
    ([⟨[114], Eq.refl true⟩, ⟨[101], Eq.refl true⟩, ⟨[102], Eq.refl true⟩],
      { id := 5, node := .file [], mode := 0o100644, mtime := 0, atime := 0, ctime := 0 }),
    ([⟨[114], Eq.refl true⟩, ⟨[101], Eq.refl true⟩, ⟨[103], Eq.refl true⟩],
      { id := 6, node := .dir, mode := 0o40755, mtime := 0, atime := 0, ctime := 0 }),
    ([⟨[114], Eq.refl true⟩, ⟨[101], Eq.refl true⟩, ⟨[0xC3, 0xA9], Eq.refl true⟩],
      { id := 7, node := .symlink (.ofBytes [103]), mode := 0o120777, mtime := 0, atime := 0,
        ctime := 0 })]
  cwd := []
  nextId := 8
  now := 0
  fileMode := 0o100644
  dirMode := 0o40755
  touched := []

/-- What `/e` holds, as it is listed. -/
def plainEntries : List DirEntry :=
  [{ name := [102], kind := .file }, { name := [103], kind := .dir },
    { name := [0xC3, 0xA9], kind := .symlink }]

/-- The listing of `/e` agrees with `stat`. -/
theorem plain_listing_agrees : ListingAgrees namesHost chunkFs (.ofBytes [47, 101])
    [⟨[114], rfl⟩, ⟨[101], rfl⟩] plainEntries := by
  have hwf : HostWf namesHost := ⟨treeWf_of_entries (by decide) (by decide), by decide⟩
  obtain ⟨r, l, hr, hl, hiff⟩ := @listing_agrees_iff namesHost chunkFs (.ofBytes [47, 101]) hwf
    (by decide) (by decide) plainEntries (by decide)
  have hr' : realpath namesHost chunkFs.root = .ok [⟨[114], rfl⟩] := by decide
  have hl' : realpath namesHost (chunkFs.joined (.ofBytes [47, 101]))
      = .ok [⟨[114], rfl⟩, ⟨[101], rfl⟩] := by decide
  rw [Except.ok.inj (hl.symm.trans hl'), Except.ok.inj (hr.symm.trans hr')] at hiff
  exact hiff.mpr (Or.inr ⟨by decide, by decide⟩)

/-- The name listed in `/d` cannot be looked up, and neither can the one
    listed in `/..`. -/
theorem listed_not_found :
    ((chunkFs.stat posix (.ofBytes [47, 100]) namesHost).1.map FileAttr.kind = .ok .dir
      ∧ (chunkFs.list posix (.ofBytes [47, 100]) namesHost).1
        = .ok [{ name := [0xEF, 0xBF, 0xBD], kind := .file }]
      ∧ (chunkFs.stat posix ((PathBuf.ofBytes [47, 100]).join (.ofBytes [0xEF, 0xBF, 0xBD]))
          namesHost).1 = .error .notFound)
    ∧ ((chunkFs.stat posix (.ofBytes [47, 46, 46]) namesHost).1.map FileAttr.kind = .ok .dir
      ∧ (chunkFs.list posix (.ofBytes [47, 46, 46]) namesHost).1
        = .ok [{ name := [114], kind := .dir }]
      ∧ (chunkFs.stat posix ((PathBuf.ofBytes [47, 46, 46]).join (.ofBytes [114]))
          namesHost).1 = .error .permissionDenied) :=
  ⟨⟨by decide, by decide, by decide⟩, by decide, by decide, by decide⟩

end TokimoHostFs
