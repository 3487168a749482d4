import TokimoKvm.HostFsProofs

/-! # Requests below a root — the joined path and its parent

    `HostFs` joins the request to its root.  Whatever the spelling of the
    root, its own pieces come first and lead to one directory; the pieces of
    the request are walked from there.  What the jail check looks at, the
    lexical parent, leads to the directory before the last real piece. -/

namespace TokimoHost

open TokimoMachine TokimoBytes TokimoPath TokimoTable TokimoVfsCore

/-! ## Walking on from where a walk ended -/

/-- **WALKING ON**: a walk that has followed every link goes on from the
    directory it ended in, and cannot go on from anything else. -/
theorem walk_through {t : Tree} (hw : TreeWf t) {follow : Bool} {rest : List Seg}
    (hrest : rest ≠ [] ∨ follow = true) (k : Nat) (dir : Loc) (l : List Seg)
    (hdir : nodeAt t dir = some .dir) :
    ∀ {d : Loc} {k' : Nat}, walk t true k dir l = .ok (.at d k') →
      (nodeAt t d = some .dir → walk t follow k dir (l ++ rest) = walk t follow k' d rest)
      ∧ (nodeAt t d ≠ some .dir → rest ≠ [] →
          walk t follow k dir (l ++ rest) = .error ENOTDIR) := by
  revert hdir
  -- along the walk; the links are counted down in its last case
  refine walk_induction (t := t) (P := fun k dir l => nodeAt t dir = some .dir →
    ∀ {d : Loc} {k' : Nat}, walk t true k dir l = .ok (.at d k') →
      (nodeAt t d = some .dir → walk t follow k dir (l ++ rest) = walk t follow k' d rest)
      ∧ (nodeAt t d ≠ some .dir → rest ≠ [] →
          walk t follow k dir (l ++ rest) = .error ENOTDIR)) ?_ ?_ ?_ ?_ ?_ ?_ ?_ k dir l
  · intro k dir hdir d k' h
    rw [walk_nil] at h
    obtain ⟨rfl, rfl⟩ := Walked.at.inj (Except.ok.inj h)
    exact ⟨fun _ => rfl, fun hne => absurd hdir hne⟩
  · intro k dir s l hs ih hdir d k' h
    rw [walk_skip_cons _ _ _ _ _ hs] at h
    rw [List.cons_append, walk_skip_cons _ _ _ _ _ hs]
    exact ih hdir h
  · intro k dir l ih hdir d k' h
    rw [walk_up] at h
    rw [List.cons_append, walk_up]
    exact ih (hw.dropLast hdir) h
  · intro k dir n l hn _ d k' h
    rw [walk_name_none _ _ _ hn] at h
    split at h <;> exact nomatch h
  · intro k dir n l hn ih hdir d k' h
    rw [walk_name_dir _ _ _ hn] at h
    rw [List.cons_append, walk_name_dir _ _ _ hn]
    exact ih hn h
  · intro k dir n l data hn _ d k' h
    rw [walk_name_file _ _ _ hn] at h
    by_cases hl : l.isEmpty = true
    · -- the file is the end of the walk, and nothing goes on from a file
      rw [if_pos hl] at h
      obtain ⟨rfl, rfl⟩ := Walked.at.inj (Except.ok.inj h)
      refine ⟨fun hd => ?_, fun _ hne => ?_⟩
      · rw [hn] at hd
        exact nomatch hd
      · rw [List.isEmpty_iff.mp hl, List.cons_append, List.nil_append,
          walk_name_file _ _ _ hn, if_neg (by simpa using hne)]
    · rw [if_neg hl] at h
      exact nomatch h
  · intro k dir n l target hn ih hdir d k' h
    rw [walk_name_link _ _ _ hn] at h
    simp only [Bool.not_true, Bool.and_false, Bool.false_eq_true, if_false] at h
    by_cases ht : target.isEmptyStr = true
    · rw [if_pos ht] at h
      exact nomatch h
    · rw [if_neg ht] at h
      cases k with
      | zero => exact nomatch h
      | succ k =>
          -- something comes behind the link, so it is followed here too
          have hstop : ((l ++ rest).isEmpty && !follow) = false := by
            rcases hrest with hne | hf
            · rw [append_isEmpty hne, Bool.false_and]
            · rw [hf, Bool.not_true, Bool.and_false]
          have hgo : walk t follow (k + 1) dir (.name n :: l ++ rest)
              = walk t follow k (startOf target dir) (target.body ++ l ++ rest) := by
            rw [List.cons_append, walk_name_link _ _ _ hn, hstop]
            simp only [Bool.false_eq_true, if_false, if_neg ht]
            rw [List.append_assoc]
            rfl
          rw [hgo]
          exact ih k rfl (hw.startOf target hdir) h

/-- Slashes and dots behind a directory do not matter. -/
theorem walk_respell {t : Tree} (hw : TreeWf t) {k k' : Nat} {dir d : Loc} {l mid u : List Seg}
    (hdir : nodeAt t dir = some .dir) (hd : nodeAt t d = some .dir)
    (hmid : ∀ x ∈ mid, x.isSkip = true) (hu : ∀ x ∈ u, x.isSkip = true)
    (h : walk t true k dir (l ++ mid) = .ok (.at d k')) :
    walk t true k dir (l ++ u) = .ok (.at d k') := by
  by_cases hne : mid = []
  · rw [hne, List.append_nil] at h
    rw [(walk_through hw (Or.inr rfl) k dir l hdir h).1 hd, ← List.append_nil u, walk_skip [] hu,
      walk_nil]
  · have hslash := walk_slash hw true hmid hne k dir l hdir
    rw [h] at hslash
    exact hslash.2 u hu

/-- Walking down names from a directory to another. -/
theorem walk_down {t : Tree} {follow : Bool} {k : Nat} :
    ∀ {l : List Seg} {ns : List Name} (r : Loc),
      l.filterMap Seg.component = ns.map Component.normal →
      (∀ m, m <+: ns → nodeAt t (r ++ m) = some .dir) →
      walk t follow k r l = .ok (.at (r ++ ns) k) := by
  intro l
  induction l with
  | nil =>
      intro ns r hl _
      have hns : ns = [] := List.map_eq_nil_iff.mp hl.symm
      rw [walk_nil, hns, List.append_nil]
  | cons s l ih =>
      intro ns r hl hdirs
      cases s with
      | empty =>
          rw [walk_skip_cons _ _ _ _ _ rfl]
          exact ih r hl hdirs
      | cur =>
          rw [walk_skip_cons _ _ _ _ _ rfl]
          exact ih r hl hdirs
      | up =>
          cases ns with
          | nil => exact nomatch hl
          | cons m ns => exact nomatch (List.cons.inj hl).1
      | name n =>
          cases ns with
          | nil => exact nomatch hl
          | cons m ns =>
              obtain ⟨hn, hrest⟩ := List.cons.inj hl
              obtain rfl := Component.normal.inj hn
              have hd : nodeAt t (r ++ [n]) = some .dir :=
                hdirs [n] ((List.prefix_cons_inj n).mpr List.nil_prefix)
              rw [walk_name_dir _ _ _ hd, ih (r ++ [n]) hrest]
              · rw [List.append_assoc, List.singleton_append]
              · intro m hm
                rw [List.append_assoc, List.singleton_append]
                exact hdirs (n :: m) ((List.prefix_cons_inj n).mpr hm)

end TokimoHost

namespace TokimoPath

/-! ## The pieces of a joined path -/

/-- What joining keeps of a path: its pieces, without a slash at the end. -/
def PathBuf.trunk (p : PathBuf) : List Seg :=
  if p.body.getLast? = some .empty then p.body.dropLast else p.body

/-- A path with pieces in front of which something can be cut off and a name
    still be a name of it: absolute, or not beginning with a slash. -/
def Headed (absolute : Bool) (l : List Seg) : Prop :=
  absolute = true ∨ ∃ a rest, l = a :: rest ∧ a ≠ .empty

theorem trunk_cut (p : PathBuf) :
    ∃ tail, p.body = p.trunk ++ tail ∧ ∀ x ∈ tail, x.isSkip = true := by
  rw [PathBuf.trunk]
  by_cases hlast : p.body.getLast? = some .empty
  · rw [if_pos hlast]
    obtain ⟨l, hl⟩ := List.getLast?_eq_some_iff.mp hlast
    refine ⟨[.empty], ?_, fun x hx => by rw [List.mem_singleton.mp hx]; rfl⟩
    rw [hl, List.dropLast_concat]
  · rw [if_neg hlast]
    exact ⟨[], (List.append_nil _).symm, fun x hx => nomatch hx⟩

theorem segs_of_absolute {p : PathBuf} (ha : p.isAbsolute = true) :
    p.segs = .empty :: p.body ∧ p.body ≠ [] := by
  obtain ⟨first, rest⟩ := p
  have hbody : (PathBuf.mk first rest).body = rest := by rw [PathBuf.body, if_pos ha]
  rw [PathBuf.isAbsolute, Bool.and_eq_true_iff] at ha
  have hfirst : first = .empty := of_decide_eq_true ha.1
  rw [hbody, PathBuf.segs, hfirst]
  refine ⟨rfl, ?_⟩
  rintro rfl
  cases ha.2

theorem isEmptyStr_of_absolute {p : PathBuf} (ha : p.isAbsolute = true) :
    p.isEmptyStr = false := by
  rw [PathBuf.isAbsolute, Bool.and_eq_true_iff, Bool.not_eq_true'] at ha
  rw [PathBuf.isEmptyStr, ha.2, Bool.and_false]

theorem segs_of_relative {p : PathBuf} (ha : p.isAbsolute = false) : p.body = p.segs := by
  rw [PathBuf.body, if_neg (by rw [ha]; exact Bool.false_ne_true)]

/-- A relative path that is not empty begins with a piece that is not. -/
theorem trunk_headed {p : PathBuf} (hne : p.isEmptyStr = false) :
    Headed p.isAbsolute p.trunk := by
  cases ha : p.isAbsolute with
  | true => exact Or.inl rfl
  | false =>
      refine Or.inr ?_
      rcases first_of_relative ha with hf | hnil
      · obtain ⟨tail, hcut, htail⟩ := trunk_cut p
        rw [segs_of_relative ha, PathBuf.segs] at hcut
        cases htr : p.trunk with
        | cons a rest =>
            rw [htr] at hcut
            refine ⟨a, rest, rfl, ?_⟩
            rw [← (List.cons.inj hcut).1]
            exact hf
        | nil =>
            -- nothing was cut off but a slash
            exfalso
            rw [PathBuf.trunk, segs_of_relative ha, PathBuf.segs] at htr
            by_cases hlast : (p.first :: p.rest).getLast? = some .empty
            · rw [if_pos hlast] at htr
              cases hr : p.rest with
              | nil =>
                  rw [hr] at hlast
                  exact hf (Option.some.inj hlast)
              | cons b l =>
                  rw [hr] at htr
                  cases htr
            · rw [if_neg hlast] at htr
              cases htr
      · rw [hnil] at hne
        cases hne

theorem segs_ofSegs {l : List Seg} (hl : l ≠ []) : (PathBuf.ofSegs l).segs = l := by
  cases l with
  | nil => exact absurd rfl hl
  | cons s l => rfl

theorem isAbsolute_ofSegs {s : Seg} {l : List Seg} :
    (PathBuf.ofSegs (s :: l)).isAbsolute = (decide (s = .empty) && !l.isEmpty) := rfl

/-- **JOINING**: the pieces of a joined path are what is kept of the base and
    the pieces of the relative path. -/
theorem join_body {base rel : PathBuf} (hne : base.isEmptyStr = false)
    (hrel : rel.isAbsolute = false) :
    (base.join rel).isAbsolute = base.isAbsolute
      ∧ (base.join rel).body = base.trunk ++ rel.segs := by
  have hjoin : base.join rel = if base.segs.getLast? = some .empty then
      PathBuf.ofSegs (base.segs.dropLast ++ rel.segs)
      else PathBuf.ofSegs (base.segs ++ rel.segs) := by
    rw [PathBuf.join, if_neg (by rw [hrel]; exact Bool.false_ne_true)]
  have hsegs : rel.segs ≠ [] := List.cons_ne_nil _ _
  cases ha : base.isAbsolute with
  | true =>
      obtain ⟨hs, hb⟩ := segs_of_absolute ha
      have hof : base.join rel = PathBuf.ofSegs (.empty :: (base.trunk ++ rel.segs)) := by
        rw [hjoin, hs, List.getLast?_cons_of_ne_nil hb, PathBuf.trunk,
          List.dropLast_cons_of_ne_nil hb]
        by_cases hlast : base.body.getLast? = some .empty
        · rw [if_pos hlast, if_pos hlast]
          rfl
        · rw [if_neg hlast, if_neg hlast]
          rfl
      have habs : (base.join rel).isAbsolute = true := by
        rw [hof, isAbsolute_ofSegs, TokimoHost.append_isEmpty hsegs]
        rfl
      refine ⟨habs, ?_⟩
      have h := (segs_of_absolute habs).1
      rw [hof, segs_ofSegs (List.cons_ne_nil _ _)] at h
      rw [hof]
      exact (List.cons.inj h).2.symm
  | false =>
      have hof : base.join rel = PathBuf.ofSegs (base.trunk ++ rel.segs) := by
        rw [hjoin, PathBuf.trunk, segs_of_relative ha]
        by_cases hlast : base.segs.getLast? = some .empty
        · rw [if_pos hlast, if_pos hlast]
        · rw [if_neg hlast, if_neg hlast]
      have hhead := trunk_headed hne
      rw [ha] at hhead
      rcases hhead with htrue | ⟨a, l, hl, hae⟩
      · cases htrue
      · have habs : (base.join rel).isAbsolute = false := by
          rw [hof, hl, List.cons_append, isAbsolute_ofSegs, decide_eq_false hae, Bool.false_and]
        refine ⟨habs, ?_⟩
        rw [segs_of_relative habs, hof,
          segs_ofSegs (List.append_ne_nil_of_right_ne_nil _ hsegs)]

/-- **CUTTING OFF THE LAST PIECE**: a path with a real piece in it and
    something in front of that piece has a parent. -/
theorem parent_of_real {j : PathBuf} {l tail : List Seg} {sg : Seg}
    (hj : j.body = l ++ sg :: tail) (hsg : sg.isSkip = false)
    (htail : ∀ x ∈ tail, x.isSkip = true) (hhead : Headed j.isAbsolute l) :
    ∃ q, j.parent = some q ∧ q.isEmptyStr = false := by
  cases hp : j.parent with
  | none =>
      exfalso
      have hmem : sg ∈ j.body := by
        rw [hj]
        exact List.mem_append.mpr (Or.inr (List.mem_cons_self ..))
      rcases parent_none hp with he | ⟨-, hskip⟩
      · rw [PathBuf.isEmptyStr, Bool.and_eq_true_iff] at he
        have hrel : j.isAbsolute = false := by
          rw [PathBuf.isAbsolute, he.2]
          simp
        rw [segs_of_relative hrel, PathBuf.segs, of_decide_eq_true he.1,
          List.isEmpty_iff.mp he.2, List.mem_singleton] at hmem
        rw [hmem] at hsg
        cases hsg
      · rw [hskip sg hmem] at hsg
        cases hsg
  | some q =>
      refine ⟨q, rfl, ?_⟩
      cases ha : j.isAbsolute with
      | true =>
          exact isEmptyStr_of_absolute (parent_absolute ha hp).1
      | false =>
          rcases hhead with htrue | ⟨a, l', hl, hae⟩
          · rw [ha] at htrue
            cases htrue
          · have hna : ¬ j.isAbsolute = true := by rw [ha]; exact Bool.false_ne_true
            rw [segs_of_relative ha, hl] at hj
            rw [PathBuf.segs, List.cons_append] at hj
            obtain ⟨hfirst, hrest⟩ := List.cons.inj hj
            rw [PathBuf.parent, if_neg hna] at hp
            by_cases hc : j.first = .cur
            -- a leading `.` stays, so the parent is not empty
            · rw [if_pos hc, hrest, (cut_unique rfl hsg htail).2, List.getLast?_concat] at hp
              rw [← Option.some.inj hp]
              rfl
            · -- the first piece is a real one, and stays
              have hreal : a.isSkip = false := by
                cases a with
                | empty => exact absurd rfl hae
                | cur => exact absurd hfirst hc
                | up => rfl
                | name n => rfl
              rw [if_neg hc, PathBuf.segs, hfirst, hrest, ← List.cons_append,
                (cut_unique rfl hsg htail).2, List.getLast?_concat, List.dropLast_concat] at hp
              obtain ⟨tl, hsplit, htl⟩ := trimRight_split (a :: l')
              have hq := Option.some.inj hp
              cases htr : trimRight (a :: l') with
              | nil =>
                  rw [htr, List.nil_append] at hsplit
                  rw [htl a (by rw [← hsplit]; exact List.mem_cons_self ..)] at hreal
                  cases hreal
              | cons b l'' =>
                  rw [htr] at hsplit hq
                  rw [← hq, PathBuf.isEmptyStr]
                  show (decide (b = Seg.empty) && _) = false
                  rw [← (List.cons.inj hsplit).1, decide_eq_false hae, Bool.false_and]

end TokimoPath

namespace TokimoHostFs

open TokimoMachine TokimoBytes TokimoPath TokimoTable TokimoVfsCore TokimoHost

/-! ## Requests -/

/-- The pieces of a request, without the slash it begins with. -/
def relSegs (p : PathBuf) : List Seg := (p.stripPrefixRoot.getD p).segs

/-- Trimmed at the left, pieces begin with a real one. -/
theorem dropWhile_head {l : List Seg} {a : Seg} {rest : List Seg}
    (h : l.dropWhile Seg.isSkip = a :: rest) : a.isSkip = false := by
  induction l with
  | nil => exact nomatch h
  | cons b l ih =>
      by_cases hb : b.isSkip = true
      · rw [List.dropWhile_cons_of_pos hb] at h
        exact ih h
      · rw [List.dropWhile_cons_of_neg hb] at h
        rw [← (List.cons.inj h).1]
        exact Bool.eq_false_iff.mpr hb

/-- The trimmed pieces of an absolute request are those of a relative path. -/
theorem stripped_relative (l : List Seg) :
    (PathBuf.ofSegs (trimRight (l.dropWhile Seg.isSkip))).isAbsolute = false := by
  cases htr : trimRight (l.dropWhile Seg.isSkip) with
  | nil => rfl
  | cons a rest =>
      obtain ⟨tail, hsplit, -⟩ := trimRight_split (l.dropWhile Seg.isSkip)
      rw [htr, List.cons_append] at hsplit
      have ha := dropWhile_head hsplit
      have hae : a ≠ .empty := by
        rintro rfl
        exact nomatch ha
      rw [isAbsolute_ofSegs, decide_eq_false hae, Bool.false_and]

theorem rel_relative (p : PathBuf) : (p.stripPrefixRoot.getD p).isAbsolute = false := by
  rw [PathBuf.stripPrefixRoot]
  by_cases ha : p.isAbsolute = true
  · rw [if_pos ha]
    exact stripped_relative p.rest
  · rw [if_neg ha]
    exact Bool.eq_false_iff.mpr ha

theorem relSegs_ne_nil (p : PathBuf) : relSegs p ≠ [] := List.cons_ne_nil _ _

variable {s : HostState} {fs : HostFs} {p : PathBuf} {r c : Loc} {k : Nat}

theorem joined_body (hne : fs.root.isEmptyStr = false) (p : PathBuf) :
    (fs.joined p).isAbsolute = fs.root.isAbsolute
      ∧ (fs.joined p).body = fs.root.trunk ++ relSegs p :=
  join_body hne (rel_relative p)

theorem isEmptyStr_of_headed {j : PathBuf} {l rest : List Seg} (hj : j.body = l ++ rest)
    (hhead : Headed j.isAbsolute l) : j.isEmptyStr = false := by
  cases ha : j.isAbsolute with
  | true => exact isEmptyStr_of_absolute ha
  | false =>
      rw [ha] at hhead
      rcases hhead with htrue | ⟨a, l', hl, hae⟩
      · exact nomatch htrue
      · rw [segs_of_relative ha, hl, PathBuf.segs, List.cons_append] at hj
        rw [PathBuf.isEmptyStr, (List.cons.inj hj).1, decide_eq_false hae, Bool.false_and]

theorem headed_append {absolute : Bool} {l : List Seg} (h : Headed absolute l) (rest : List Seg) :
    Headed absolute (l ++ rest) := by
  rcases h with ha | ⟨a, l', hl, hae⟩
  · exact Or.inl ha
  · exact Or.inr ⟨a, l' ++ rest, by rw [hl, List.cons_append], hae⟩

/-- A joined path is as much headed as its root. -/
theorem joined_headed (hne : fs.root.isEmptyStr = false) (p : PathBuf) :
    Headed (fs.joined p).isAbsolute fs.root.trunk := by
  rw [(joined_body hne p).1]
  exact trunk_headed hne

theorem startOf_joined (hne : fs.root.isEmptyStr = false) (p : PathBuf) (dir : Loc) :
    startOf (fs.joined p) dir = startOf fs.root dir := by
  rw [startOf, startOf, (joined_body hne p).1]

/-- The pieces of the root lead to where it leads. -/
theorem trunk_walk (hw : HostWf s) (hroot : lookup s true fs.root = .ok (.at r k)) :
    walk s.tree true symloopMax (startOf fs.root s.cwd) fs.root.trunk = .ok (.at r k) := by
  obtain ⟨-, -, hwalk⟩ := lookup_ok hroot
  obtain ⟨tail, hcut, htail⟩ := trunk_cut fs.root
  rw [hcut] at hwalk
  by_cases hne : tail = []
  · rwa [hne, List.append_nil] at hwalk
  · have hslash := walk_slash hw.tree true htail hne symloopMax (startOf fs.root s.cwd)
      fs.root.trunk (startOf_dir hw fs.root)
    rw [hwalk] at hslash
    have h := hslash.2 [] (fun x hx => nomatch hx)
    rwa [List.append_nil] at h

/-- **ENTERING THE PARENT**: the pieces before the last real one lead to the
    directory the parent leads to. -/
theorem enterParent_of (hw : HostWf s) {j : PathBuf} {l tail : List Seg} {sg : Seg}
    (hj : j.body = l ++ sg :: tail) (hsg : sg.isSkip = false)
    (htail : ∀ x ∈ tail, x.isSkip = true) (hhead : Headed j.isAbsolute l)
    (hwalk : walk s.tree true symloopMax (startOf j s.cwd) l = .ok (.at c k))
    (hc : nodeAt s.tree c = some .dir) : enterParent s j = some (c, k) := by
  obtain ⟨q, hq, hqe⟩ := parent_of_real hj hsg htail hhead
  obtain ⟨habs, pre, mid, sg', hbody, hqb, -, hsg', hmid, htl⟩ := parent_cut hq hqe
  have hstart : startOf q s.cwd = startOf j s.cwd := by rw [startOf, startOf, habs]
  -- both cuts are made at the last real piece
  have hl : l = pre ++ mid := by
    have h1 := (cut_unique hj hsg htail).2
    rw [← List.append_assoc] at hbody
    have h2 := (cut_unique hbody hsg' htl).2
    exact (List.append_inj' (h1.symm.trans h2) rfl).1
  rw [hl] at hwalk
  have hgo : walk s.tree true symloopMax (startOf q s.cwd) (q.body ++ [.empty])
      = .ok (.at c k) := by
    rw [hstart]
    rcases hqb with hb | ⟨hpre, hb⟩
    · rw [hb]
      exact walk_respell hw.tree (startOf_dir hw j) hc hmid slash_skip hwalk
    · rw [hb]
      rw [hpre] at hwalk
      refine walk_respell hw.tree (l := []) (u := [.empty, .empty]) (startOf_dir hw j) hc hmid ?_
        hwalk
      intro x hx
      have hx' : x = .empty := by simpa using hx
      rw [hx']
      rfl
  rw [enterParent, hq]
  simp only [hqe, Bool.false_eq_true, if_false, hgo]

/-- When the parent can be entered, the jail check looks at where it is. -/
theorem accepted_iff_enter (hw : HostWf s) (hroot : realpath s fs.root = .ok r)
    (hnul : (fs.joined p).hasNul = false)
    (hent : enterParent s (fs.joined p) = some (c, k)) : Accepted s fs p r ↔ r <+: c := by
  constructor
  · intro hacc
    exact accepted_below hw hacc hnul hent
  · intro hin
    obtain ⟨q, hq, -, hreal, -⟩ := enterParent_some hw hent hnul
    refine ⟨hroot, Or.inl ⟨c, ?_, hin⟩⟩
    rw [HostFs.probe, hq]
    exact hreal

/-- A path resolves by walking its last pieces from its parent. -/
theorem lookup_of_enter (hw : HostWf s) {j : PathBuf} {l tail : List Seg} {sg : Seg}
    (hj : j.body = l ++ sg :: tail) (hhead : Headed j.isAbsolute l) (hnul : j.hasNul = false)
    (hwalk : walk s.tree true symloopMax (startOf j s.cwd) l = .ok (.at c k))
    (hc : nodeAt s.tree c = some .dir) (follow : Bool) :
    lookup s follow j = walk s.tree follow k c (sg :: tail) := by
  rw [lookup_walk hnul (isEmptyStr_of_headed hj hhead), hj]
  exact (walk_through hw.tree (Or.inl (List.cons_ne_nil _ _)) _ _ _ (startOf_dir hw j) hwalk).1 hc

/-- **A NUL-FREE REQUEST** joined to a root that can be resolved has no NUL. -/
theorem joined_hasNul (hroot : fs.root.isEmptyStr = false) (hnul : fs.root.hasNul = false)
    (hrel : ∀ n : Name, Seg.name n ∈ relSegs p → n.1.contains 0 = false) :
    (fs.joined p).hasNul = false := by
  refine (hasNul_false_iff _).mpr ?_
  intro n hn
  rw [(joined_body hroot p).2] at hn
  rcases List.mem_append.mp hn with hmem | hmem
  · refine (hasNul_false_iff fs.root).mp hnul n ?_
    obtain ⟨tail, hcut, -⟩ := trunk_cut fs.root
    rw [hcut]
    exact List.mem_append.mpr (Or.inl hmem)
  · exact hrel n hmem

end TokimoHostFs
