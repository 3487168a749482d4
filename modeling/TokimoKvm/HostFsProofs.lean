import TokimoKvm.HostCallProofs
import TokimoKvm.HostFs

/-! # `HostFs` on the POSIX host

    What `resolve` accepts, and where the path it hands on leads: through the
    parent it has checked to the last component it has not. -/

namespace TokimoHostFs

open TokimoMachine TokimoBytes TokimoPath TokimoTable TokimoVfsCore TokimoHost

/-! ## What `resolve` accepts -/

/-- The jail check lets the request path `p` through, `r` being the canonical
    root: the parent is below it, or cannot be found and looks as if it
    were. -/
def Accepted (s : HostState) (fs : HostFs) (p : PathBuf) (r : Loc) : Prop :=
  realpath s fs.root = .ok r
    ∧ ((∃ c, realpath s (fs.probe p) = .ok c ∧ r <+: c)
      ∨ ((∃ e, realpath s (fs.probe p) = .error e)
        ∧ (fs.probe p).startsWith (locPath r) = true))

/-- A path that leads somewhere is spelled by where it leads. -/
theorem canonicalize_of_ok {s : HostState} {p : PathBuf} {l : Loc}
    (h : realpath s p = .ok l) : canonicalize p s = (.ok (locPath l), s) := by
  rw [canonicalize, h]

/-- One that does not is refused with its error. -/
theorem canonicalize_of_error {s : HostState} {p : PathBuf} {e : IoError}
    (h : realpath s p = .error e) : canonicalize p s = (.error e, s) := by
  rw [canonicalize, h]

/-- **WHAT `resolve` DOES**: it hands on the joined path exactly when the jail
    check lets it, and never changes anything. -/
theorem resolve_cases (fs : HostFs) (s : HostState) (p : PathBuf) :
    (∃ r, Accepted s fs p r ∧ fs.resolve posix p s = (.ok (fs.joined p), s))
      ∨ ((∀ r, ¬ Accepted s fs p r) ∧ ∃ e, fs.resolve posix p s = (.error e, s)) := by
  have hdef : fs.resolve posix p = (do
      let canonRoot ← Eff.mapErr (fun e => .io e.text) (canonicalize fs.root)
      let canonParent ← Eff.recover (fs.probe p) (canonicalize (fs.probe p))
      if !canonParent.startsWith canonRoot then Eff.fail .permissionDenied
      else pure (fs.joined p)) := rfl
  rw [hdef]
  cases hr : realpath s fs.root with
  | error e =>
      refine Or.inr ⟨?_, ?_⟩
      · intro r hacc
        rw [hacc.1] at hr
        cases hr
      · rw [Eff.bind_of_error (Eff.mapErr_of_error (canonicalize_of_error hr))]
        exact ⟨_, rfl⟩
  | ok r =>
      have huniq : ∀ r', Accepted s fs p r' → r' = r := by
        intro r' hacc
        rw [hacc.1] at hr
        exact Except.ok.inj hr
      rw [Eff.bind_of_ok (Eff.mapErr_of_ok (canonicalize_of_ok hr))]
      cases hp : realpath s (fs.probe p) with
      | ok c =>
          -- what the probe is compared as: where it leads, else its spelling
          have hrec : Eff.recover (fs.probe p) (canonicalize (fs.probe p)) s
              = ((.ok (locPath c) : Except VfsError PathBuf), s) := by
            rw [Eff.recover, canonicalize_of_ok hp]
          rw [Eff.bind_of_ok hrec]
          by_cases hin : r <+: c
          -- the parent is there, and below the root
          · refine Or.inl ⟨r, ⟨hr, Or.inl ⟨c, hp, hin⟩⟩, ?_⟩
            rw [(locPath_startsWith c r).mpr hin]
            rfl
          · refine Or.inr ⟨?_, ?_⟩
            · intro r' hacc
              rw [huniq r' hacc] at hacc
              rcases hacc.2 with ⟨c', hc', hin'⟩ | ⟨⟨e, he⟩, -⟩
              · rw [hp] at hc'
                rw [Except.ok.inj hc'] at hin
                exact hin hin'
              · rw [hp] at he
                cases he
            · have hst : (locPath c).startsWith (locPath r) = false := by
                cases hb : (locPath c).startsWith (locPath r) with
                | false => rfl
                | true => exact absurd ((locPath_startsWith c r).mp hb) hin
              rw [hst]
              exact ⟨_, rfl⟩
      | error e =>
          have hrec : Eff.recover (fs.probe p) (canonicalize (fs.probe p)) s
              = ((.ok (fs.probe p) : Except VfsError PathBuf), s) := by
            rw [Eff.recover, canonicalize_of_error hp]
          rw [Eff.bind_of_ok hrec]
          cases hst : (fs.probe p).startsWith (locPath r) with
          | true => exact Or.inl ⟨r, ⟨hr, Or.inr ⟨⟨e, hp⟩, hst⟩⟩, rfl⟩
          | false =>
              refine Or.inr ⟨?_, ⟨_, rfl⟩⟩
              intro r' hacc
              rw [huniq r' hacc] at hacc
              rcases hacc.2 with ⟨c', hc', -⟩ | ⟨-, hst'⟩
              · rw [hp] at hc'
                cases hc'
              · rw [hst] at hst'
                cases hst'

/-! ## Where an accepted path leads -/

/-- Where the parent of a path leads, as a directory to enter, with the links
    that are left. -/
def enterParent (s : HostState) (j : PathBuf) : Option (Loc × Nat) :=
  match j.parent with
  | none => none
  | some q =>
      if q.isEmptyStr then none
      else
        match walk s.tree true symloopMax (startOf q s.cwd) (q.body ++ [.empty]) with
        | .ok (.at c k) => some (c, k)
        | _ => none

/-- A walk starts in a directory. -/
theorem startOf_dir {s : HostState} (hw : HostWf s) (p : PathBuf) :
    nodeAt s.tree (startOf p s.cwd) = some .dir :=
  hw.tree.startOf p hw.cwd

/-- A slash at the end is passed over. -/
theorem slash_skip : ∀ t ∈ [Seg.empty], t.isSkip = true := by
  intro t ht
  rw [List.mem_singleton.mp ht]
  rfl

/-- What entering the parent tells. -/
theorem enterParent_some {s : HostState} (hw : HostWf s) {j : PathBuf} {c : Loc}
    {k : Nat} (h : enterParent s j = some (c, k)) (hnul : j.hasNul = false) :
    ∃ q, j.parent = some q ∧ q.isEmptyStr = false ∧ realpath s q = .ok c
      ∧ nodeAt s.tree c = some .dir
      ∧ walk s.tree true symloopMax (startOf q s.cwd) (q.body ++ [.empty])
        = .ok (.at c k) := by
  rw [enterParent] at h
  cases hp : j.parent with
  | none => simp only [hp] at h; exact nomatch h
  | some q =>
      simp only [hp] at h
      cases he : q.isEmptyStr with
      | true => rw [he] at h; exact nomatch h
      | false =>
          simp only [he, Bool.false_eq_true, if_false] at h
          have hslash := walk_slash hw.tree true slash_skip
            (List.cons_ne_nil _ _) symloopMax (startOf q s.cwd) q.body (startOf_dir hw q)
          cases hwk : walk s.tree true symloopMax (startOf q s.cwd)
              (q.body ++ [.empty]) with
          | error e => simp only [hwk] at h; exact nomatch h
          | ok w =>
              cases w with
              | missing d n slash => simp only [hwk] at h; exact nomatch h
              | «at» d k' =>
                  simp only [hwk] at h hslash
                  obtain ⟨rfl, rfl⟩ := Prod.mk.inj (Option.some.inj h)
                  obtain ⟨hdir, htl⟩ := hslash
                  refine ⟨q, rfl, he, ?_, hdir, hwk⟩
                  have hq : q.hasNul = false := by
                    obtain ⟨-, l, mid, sg, hbody, hqb, -⟩ := parent_cut hp he
                    refine (hasNul_false_iff q).mpr ?_
                    intro n hn
                    refine (hasNul_false_iff j).mp hnul n ?_
                    rw [hbody]
                    rcases hqb with hl | ⟨-, hl⟩
                    · rw [hl] at hn
                      exact List.mem_append.mpr (Or.inl hn)
                    · rw [hl] at hn
                      exact nomatch List.mem_singleton.mp hn
                  have hwalk := htl [] (fun t ht => nomatch ht)
                  rw [List.append_nil] at hwalk
                  rw [realpath, lookup_walk hq he, hwalk]

/-- **THE LAST COMPONENT**: resolving a path is entering its parent and
    walking the last real piece, with what trails it, from there. -/
theorem lookup_last {s : HostState} {j q : PathBuf} (hp : j.parent = some q)
    (hq : q.isEmptyStr = false) (hnul : j.hasNul = false) :
    ∃ sg, j.lastReal = some sg ∧ sg.isSkip = false
      ∧ (∀ t ∈ j.trailing, t.isSkip = true)
      ∧ ((∃ c k, enterParent s j = some (c, k) ∧ ∀ follow,
            lookup s follow j = walk s.tree follow k c (sg :: j.trailing))
        ∨ (enterParent s j = none ∧ ∀ follow, ∃ e, lookup s follow j = .error e)) := by
  obtain ⟨habs, l, mid, sg, hbody, hqb, hlast, hsg, hmid, htl⟩ := parent_cut hp hq
  refine ⟨sg, hlast, hsg, htl, ?_⟩
  have hstart : startOf j s.cwd = startOf q s.cwd := by
    rw [startOf, startOf, habs]
  have hjne : j.isEmptyStr = false := by
    cases he : j.isEmptyStr with
    | false => rfl
    | true =>
        have hlen := congrArg List.length hbody
        rw [PathBuf.isEmptyStr] at he
        obtain ⟨hfirst, hrest⟩ := Bool.and_eq_true_iff.mp he
        have hna : ¬ j.isAbsolute = true := by
          rw [PathBuf.isAbsolute, hrest]
          simp
        have hb : j.body = [.empty] := by
          rw [PathBuf.body, if_neg hna, PathBuf.segs, of_decide_eq_true hfirst,
            List.isEmpty_iff.mp hrest]
        have hmem : sg ∈ j.body := by
          rw [hbody]
          exact List.mem_append.mpr (Or.inr (List.mem_append.mpr
            (Or.inr (List.mem_cons_self ..))))
        rw [hb] at hmem
        rw [List.mem_singleton.mp hmem] at hsg
        cases hsg
  have hreal : Real (mid ++ sg :: j.trailing) :=
    Real.append mid ⟨sg, List.mem_cons_self .., hsg⟩
  -- to the parent first, which is entered, then on to the last piece
  have hlook : ∀ follow, lookup s follow j
      = andWalk s.tree follow (mid ++ sg :: j.trailing)
        (walk s.tree true symloopMax (startOf q s.cwd) (q.body ++ [.empty])) := by
    intro follow
    rw [lookup_walk hnul hjne, hbody, hstart, walk_append hreal]
    rcases hqb with hl | ⟨hl, hqe⟩
    · rw [hl]
    · rw [hl, hqe, List.nil_append]
      show andWalk _ _ _ (walk _ _ _ _ [.empty]) = andWalk _ _ _ (walk _ _ _ _ [.empty, .empty])
      rw [walk_skip_cons _ _ _ _ [.empty] (s := .empty) rfl]
  rw [enterParent, hp]
  simp only [hq, Bool.false_eq_true, if_false]
  cases hwk : walk s.tree true symloopMax (startOf q s.cwd) (q.body ++ [.empty]) with
  | error e =>
      refine Or.inr ⟨rfl, fun follow => ⟨e, ?_⟩⟩
      rw [hlook follow, hwk]
      rfl
  | ok w =>
      cases w with
      -- nothing can be entered below what is missing
      | missing d n slash =>
          refine Or.inr ⟨rfl, fun follow => ⟨ENOENT, ?_⟩⟩
          rw [hlook follow, hwk]
          rfl
      | «at» c k =>
          refine Or.inl ⟨c, k, rfl, fun follow => ?_⟩
          rw [hlook follow, hwk, andWalk, walk_skip _ hmid]

/-- The parent of an accepted path is below the root. -/
theorem accepted_below {s : HostState} (hw : HostWf s) {fs : HostFs} {p : PathBuf}
    {r c : Loc} {k : Nat} (hacc : Accepted s fs p r)
    (hnul : (fs.joined p).hasNul = false)
    (hent : enterParent s (fs.joined p) = some (c, k)) : r <+: c := by
  obtain ⟨q, hp, -, hreal, -⟩ := enterParent_some hw hent hnul
  have hprobe : fs.probe p = q := by rw [HostFs.probe, hp]; rfl
  rcases hacc.2 with ⟨c', hc', hin⟩ | ⟨⟨e, he⟩, -⟩
  · rw [hprobe, hreal] at hc'
    rw [Except.ok.inj hc']
    exact hin
  · rw [hprobe, hreal] at he
    exact nomatch he

/-- An accepted path has a parent, unless the root is the host's own. -/
theorem accepted_parent {s : HostState} {fs : HostFs} {p : PathBuf} {r : Loc}
    (hacc : Accepted s fs p r) (hnul : (fs.joined p).hasNul = false)
    (hne : (fs.joined p).isEmptyStr = false) :
    r = [] ∨ ∃ q, (fs.joined p).parent = some q ∧ q.isEmptyStr = false := by
  obtain ⟨-, hcheck⟩ := hacc
  cases hp : (fs.joined p).parent with
  | none =>
      have hprobe : fs.probe p = fs.joined p := by rw [HostFs.probe, hp]; rfl
      rw [hprobe] at hcheck
      rcases parent_none hp with he | ⟨habs, hskip⟩
      · rw [he] at hne; cases hne
      · have hreal : realpath s (fs.joined p) = .ok [] := by
          rw [realpath, lookup_walk hnul hne, startOf, if_pos habs,
            ← List.append_nil (fs.joined p).body, walk_skip [] hskip, walk_nil]
        rcases hcheck with ⟨c, hc, hin⟩ | ⟨⟨e, he⟩, -⟩
        · rw [hreal] at hc
          rw [← Except.ok.inj hc] at hin
          exact Or.inl (List.prefix_nil.mp hin)
        · rw [hreal] at he; cases he
  | some q =>
      have hprobe : fs.probe p = q := by rw [HostFs.probe, hp]; rfl
      rw [hprobe] at hcheck
      cases hq : q.isEmptyStr with
      | false => exact Or.inr ⟨q, rfl, hq⟩
      | true =>
          exfalso
          rcases hcheck with ⟨c, hc, -⟩ | ⟨-, hst⟩
          · obtain ⟨k, hl⟩ := realpath_ok hc
            obtain ⟨-, he, -⟩ := lookup_ok hl
            rw [hq] at he
            cases he
          · rw [PathBuf.startsWith, decide_eq_true_iff, locPath_components] at hst
            have hcomp : q.components = [] := by
              rw [PathBuf.isEmptyStr] at hq
              obtain ⟨h1, h2⟩ := Bool.and_eq_true_iff.mp hq
              obtain ⟨first, rest⟩ := q
              have h1' : first = .empty := of_decide_eq_true h1
              have h2' : rest = [] := List.isEmpty_iff.mp h2
              rw [h1', h2']
              rfl
            rw [hcomp] at hst
            cases List.prefix_nil.mp hst

/-- A path that leads to something still does when there is more. -/
theorem realpath_extend {s s' : HostState} (hcwd : s'.cwd = s.cwd)
    (hext : ∀ v, nodeAt s.tree v ≠ none → shapeAt s.tree v = shapeAt s'.tree v) {q : PathBuf}
    {l : Loc} (h : realpath s q = .ok l) : realpath s' q = .ok l := by
  obtain ⟨k, hl⟩ := realpath_ok h
  obtain ⟨hnul, hne, hwalk⟩ := lookup_ok hl
  rw [realpath, lookup_walk hnul hne, hcwd, walk_extend hext hwalk]

/-- A parent that can be entered can still be entered when what is there
    keeps its shape. -/
theorem enterParent_extend {s s' : HostState} (hcwd : s'.cwd = s.cwd)
    (hext : ∀ v, nodeAt s.tree v ≠ none → shapeAt s.tree v = shapeAt s'.tree v)
    {j : PathBuf} {c : Loc} {k : Nat} (h : enterParent s j = some (c, k)) :
    enterParent s' j = some (c, k) := by
  rw [enterParent] at h ⊢
  cases hp : j.parent with
  | none => simp only [hp] at h; exact nomatch h
  | some q =>
      simp only [hp] at h ⊢
      cases he : q.isEmptyStr with
      | true => rw [he] at h; exact nomatch h
      | false =>
          simp only [he, Bool.false_eq_true, if_false] at h ⊢
          cases hwk : walk s.tree true symloopMax (startOf q s.cwd) (q.body ++ [.empty]) with
          | error e => simp only [hwk] at h; exact nomatch h
          | ok w =>
              cases w with
              | missing d n slash => simp only [hwk] at h; exact nomatch h
              | «at» d k' =>
                  simp only [hwk] at h
                  rw [hcwd, walk_extend hext hwk]
                  exact h

/-- An accepted path that can be resolved enters a parent below the root,
    unless the root is the host's own. -/
theorem accepted_enters {s : HostState} (hw : HostWf s) {fs : HostFs} {p : PathBuf}
    {r : Loc} (hacc : Accepted s fs p r) {follow : Bool} {w : Walked}
    (hl : lookup s follow (fs.joined p) = .ok w) :
    r = [] ∨ ∃ c k sg, enterParent s (fs.joined p) = some (c, k) ∧ r <+: c
      ∧ (fs.joined p).lastReal = some sg ∧ sg.isSkip = false
      ∧ (∀ t ∈ (fs.joined p).trailing, t.isSkip = true)
      ∧ ∀ f, lookup s f (fs.joined p)
        = walk s.tree f k c (sg :: (fs.joined p).trailing) := by
  obtain ⟨hnul, hne, -⟩ := lookup_ok hl
  rcases accepted_parent hacc hnul hne with hr | ⟨q, hp, hq⟩
  · exact Or.inl hr
  · obtain ⟨sg, hlast, hsg, htl, ⟨c, k, hent, hwalk⟩ | ⟨-, herr⟩⟩ :=
      lookup_last (s := s) hp hq hnul
    · exact Or.inr ⟨c, k, sg, hent, accepted_below hw hacc hnul hent, hlast, hsg, htl, hwalk⟩
    · obtain ⟨e, he⟩ := herr follow
      rw [hl] at he
      exact nomatch he

/-- A call that makes or removes an entry of an accepted path does so in a
    directory below the root. -/
theorem lookupParent_enters {s : HostState} (hw : HostWf s) {fs : HostFs} {p : PathBuf}
    {r : Loc} (hacc : Accepted s fs p r) {d : Loc} {n : Name} {slash : Bool}
    (h : lookupParent s (fs.joined p) = .ok (.entry d n slash)) :
    r = [] ∨ (r <+: d ∧ (fs.joined p).lastReal = some (.name n)
      ∧ ∃ k, enterParent s (fs.joined p) = some (d, k)) := by
  obtain ⟨hnul, hne, l, tail, k, hbody, htail, hwk⟩ := lookupParent_entry h
  rcases accepted_parent hacc hnul hne with hr | ⟨q, hp, hq⟩
  · exact Or.inl hr
  · have htr : (fs.joined p).trailing = tail := (cut_unique hbody rfl htail).1
    obtain ⟨habs, l', mid, sg, hbody', hqb, hlast, hsg, hmid, -⟩ := parent_cut hp hq
    have hcut : l = l' ++ mid ∧ [Seg.name n] = [sg] := by
      have h1 := (cut_unique hbody rfl htail).2
      rw [← List.append_assoc] at hbody'
      have h2 := (cut_unique hbody' hsg (by rw [htr]; exact htail)).2
      exact List.append_inj' (h1.symm.trans h2) rfl
    have hskip : ∀ t ∈ mid ++ [Seg.empty], t.isSkip = true := by
      intro t ht
      rcases List.mem_append.mp ht with hm | hm
      · exact hmid t hm
      · exact slash_skip t hm
    have hslash := walk_slash hw.tree true hskip (by simp) symloopMax
      (startOf (fs.joined p) s.cwd) l' (startOf_dir hw _)
    rw [← List.append_assoc, ← hcut.1, hwk] at hslash
    have hent : enterParent s (fs.joined p) = some (d, k) := by
      have hstart : startOf q s.cwd = startOf (fs.joined p) s.cwd := by
        rw [startOf, startOf, habs]
      have hq' : walk s.tree true symloopMax (startOf q s.cwd) (q.body ++ [.empty])
          = .ok (.at d k) := by
        rw [hstart]
        rcases hqb with hl | ⟨hl, hqe⟩
        · rw [hl]
          exact hslash.2 [.empty] slash_skip
        · have h2 := hslash.2 [.empty] slash_skip
          rw [hl, List.nil_append] at h2
          rw [hqe, List.singleton_append, walk_skip_cons _ _ _ _ [.empty] (s := .empty) rfl]
          exact h2
      rw [enterParent, hp]
      simp only [hq, hq', Bool.false_eq_true, if_false]
    refine Or.inr ⟨accepted_below hw hacc hnul hent, ?_, k, hent⟩
    rw [hlast, (List.cons.inj hcut.2).1]

/-! ## The pieces of the operations -/

/-- A read-only file system refuses. -/
theorem checkRw_ro {S : Type} {fs : HostFs} (h : fs.readOnly = true) (s : S) :
    fs.checkRw s = (.error .permissionDenied, s) := by
  rw [HostFs.checkRw, if_pos h]
  rfl

/-- The other does not. -/
theorem checkRw_rw {S : Type} {fs : HostFs} (h : fs.readOnly = false) (s : S) :
    fs.checkRw s = (.ok (), s) := by
  rw [HostFs.checkRw, if_neg (by rw [h]; exact Bool.false_ne_true)]
  rfl

/-- Seeking leaves the host alone. -/
theorem seek_frame (f : Fd) (off : UInt64) : Eff.Frame id (TokimoHost.seek f off) := by
  intro s
  rw [TokimoHost.seek]
  split <;> rfl

/-- Reading leaves it alone. -/
theorem read_frame (f : Fd) (n : Nat) : Eff.Frame id (TokimoHost.read f n) := by
  intro s
  rw [TokimoHost.read]
  split <;> rfl

/-- So does reading again and again. -/
theorem fill_frame (want : Nat) :
    ∀ (fuel : Nat) (f : Fd) (buf : Bytes),
      Eff.Frame id (HostFs.fill posix want fuel f buf) := by
  intro fuel
  induction fuel with
  | zero => intro f buf; exact Eff.Frame.pure buf
  | succ fuel ih =>
      intro f buf
      rw [HostFs.fill]
      by_cases hlen : buf.length < want
      · rw [if_pos hlen]
        refine Eff.Frame.bind (Eff.Frame.mapErr _ (read_frame f _)) ?_
        intro got
        by_cases hb : got.1.isEmpty = true
        · rw [if_pos hb]
          exact Eff.Frame.pure buf
        · rw [if_neg hb]
          exact ih got.2 (buf ++ got.1)
      · rw [if_neg hlen]
        exact Eff.Frame.pure buf

/-- Writing to an open file acts on no path any more. -/
theorem writeAll_touched (f : Fd) (data : Bytes) :
    Eff.Frame HostState.touched (TokimoHost.writeAll f data) := by
  intro s
  rw [TokimoHost.writeAll]
  cases hg : s.tree.get f.loc with
  | none => rfl
  | some i =>
      cases hi : i.node with
      | dir => simp only [hi]
      | symlink target => simp only [hi]
      | file old =>
          simp only [hi]
          by_cases hd : data.isEmpty = true
          · rw [if_pos hd]
          · rw [if_neg hd]
            by_cases hfit : f.pos + data.length ≤ maxOffset
            · rw [if_pos hfit]; rfl
            · rw [if_neg hfit]
              by_cases hm : maxOffset ≤ f.pos
              · simp only [if_pos hm]
              · simp only [if_neg hm]; rfl

/-- Nor does setting its length. -/
theorem setLen_touched (f : Fd) (size : UInt64) :
    Eff.Frame HostState.touched (TokimoHost.setLen f size) := by
  intro s
  rw [TokimoHost.setLen]
  by_cases hm : maxOffset < size.toNat
  · rw [if_pos hm]
  · rw [if_neg hm]
    cases hg : s.tree.get f.loc with
    | none => rfl
    | some i =>
        cases hi : i.node with
        | dir => simp only [hi]
        | symlink target => simp only [hi]
        | file old => simp only [hi]; rfl

end TokimoHostFs
