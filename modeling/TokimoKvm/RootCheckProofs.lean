import TokimoKvm.HostFsLookupProofs

/-! # The jail check, told by the spelling of the root

    Where the parent of a request is found behind the root, the check looks at
    where it is, whatever the spelling of the root.  Where it is not found,
    the check compares the canonical root with the spelling itself.  And a
    request for the root alone is checked by the spelling's own parent. -/

namespace TokimoHostFs

open TokimoMachine TokimoBytes TokimoPath TokimoTable TokimoVfsCore TokimoHost

/-! ## What stands before the last real piece -/

/-- The pieces before the last real one, if there is one. -/
def above (l : List Seg) : Option (List Seg) :=
  match (trimRight l).getLast? with
  | none => none
  | some _ => some (trimRight (trimRight l).dropLast)

theorem above_none {l : List Seg} (h : above l = none) : ∀ x ∈ l, x.isSkip = true := by
  rw [above] at h
  cases hlast : (trimRight l).getLast? with
  | none =>
      obtain ⟨tail, hsplit, htail⟩ := trimRight_split l
      rw [List.getLast?_eq_none_iff.mp hlast, List.nil_append] at hsplit
      rw [hsplit]
      exact htail
  | some sg =>
      rw [hlast] at h
      exact nomatch h

theorem above_some {l up : List Seg} (h : above l = some up) :
    trimRight up = up ∧ ∃ mid sg tail, l = up ++ mid ++ sg :: tail ∧ sg.isSkip = false
      ∧ (∀ x ∈ mid, x.isSkip = true) ∧ ∀ x ∈ tail, x.isSkip = true := by
  rw [above] at h
  cases hlast : (trimRight l).getLast? with
  | none =>
      rw [hlast] at h
      exact nomatch h
  | some sg =>
      rw [hlast] at h
      obtain ⟨mid, tail, hcut, hsg, hmid, htail⟩ := trimRight_cut hlast
      obtain rfl := Option.some.inj h
      refine ⟨?_, mid, sg, tail, hcut, hsg, hmid, htail⟩
      cases hend : (trimRight (trimRight l).dropLast).getLast? with
      | none =>
          rw [List.getLast?_eq_none_iff.mp hend]
          rfl
      | some x =>
          obtain ⟨init, hinit⟩ := List.getLast?_eq_some_iff.mp hend
          rw [hinit, trimRight_concat init (trimRight_last hend)]

/-- The pieces of a parent are what stands before the last real piece, but
    for a dot or a slash where nothing does. -/
theorem parent_trim {j q : PathBuf} {l tail : List Seg} {sg : Seg}
    (hj : j.body = l ++ sg :: tail) (hsg : sg.isSkip = false)
    (htail : ∀ x ∈ tail, x.isSkip = true) (hhead : Headed j.isAbsolute l)
    (hq : j.parent = some q) :
    ∃ u, q.body = trimRight l ++ u ∧ (∀ x ∈ u, x.isSkip = true) ∧ (u = [] ∨ trimRight l = []) := by
  cases ha : j.isAbsolute with
  | true =>
      rw [PathBuf.body, if_pos ha] at hj
      rw [PathBuf.parent, if_pos ha, (cut_unique hj hsg htail).2, List.getLast?_concat,
        List.dropLast_concat] at hq
      obtain rfl := Option.some.inj hq
      rcases (ofAbsBody_body (trimRight l)).2 with hb | ⟨hnil, hb⟩
      · exact ⟨[], hb.trans (List.append_nil _).symm, List.forall_mem_nil _, Or.inl rfl⟩
      · refine ⟨[.empty], ?_, slash_skip, Or.inr hnil⟩
        rw [hb, hnil, List.nil_append]
  | false =>
      rcases hhead with htrue | ⟨a, l', hl, hae⟩
      · rw [ha] at htrue
        cases htrue
      · have hna : ¬ j.isAbsolute = true := by rw [ha]; exact Bool.false_ne_true
        rw [segs_of_relative ha, hl] at hj
        rw [PathBuf.segs, List.cons_append] at hj
        obtain ⟨hfirst, hrest⟩ := List.cons.inj hj
        rw [PathBuf.parent, if_neg hna] at hq
        by_cases hc : j.first = .cur
        · -- a leading dot stays, and the rest is trimmed on its own
          rw [if_pos hc, hrest, (cut_unique rfl hsg htail).2, List.getLast?_concat,
            List.dropLast_concat] at hq
          obtain rfl := Option.some.inj hq
          have hbody : PathBuf.body { first := .cur, rest := trimRight l' }
              = .cur :: trimRight l' := rfl
          rw [hbody, hl, ← hfirst, hc]
          by_cases hnil : trimRight l' = []
          · rw [hnil, trimRight_cur_nil hnil]
            exact ⟨[.cur], rfl, by simp [Seg.isSkip], Or.inr rfl⟩
          · rw [trimRight_cons _ hnil]
            exact ⟨[], (List.append_nil _).symm, List.forall_mem_nil _, Or.inl rfl⟩
        · rw [if_neg hc, PathBuf.segs, hfirst, hrest, ← List.cons_append,
            (cut_unique rfl hsg htail).2, List.getLast?_concat, List.dropLast_concat, ← hl] at hq
          obtain rfl := Option.some.inj hq
          -- the first piece is a real one, so trimming leaves it
          have hreal : a.isSkip = false := by
            cases a with
            | empty => exact absurd rfl hae
            | cur => exact absurd hfirst hc
            | up => rfl
            | name n => rfl
          refine ⟨[], ?_, List.forall_mem_nil _, Or.inl rfl⟩
          obtain ⟨tl, hsplit, htl⟩ := trimRight_split l
          cases htr : trimRight l with
          | nil =>
              rw [htr, List.nil_append, hl] at hsplit
              rw [htl a (by rw [← hsplit]; exact List.mem_cons_self ..)] at hreal
              cases hreal
          | cons b l'' =>
              rw [htr, hl] at hsplit
              have hb : (PathBuf.ofSegs (b :: l'')).isAbsolute = false := by
                rw [isAbsolute_ofSegs, ← (List.cons.inj hsplit).1, decide_eq_false hae,
                  Bool.false_and]
              rw [segs_of_relative hb, segs_ofSegs (List.cons_ne_nil _ _), List.append_nil]

/-! ## The parent of a request -/

variable {s : HostState} {fs : HostFs} {p : PathBuf} {r : Loc} {k : Nat} {up : List Seg}

/-- Where pieces lead, behind a root that is at `r` and leaves `k` links. -/
def behind (s : HostState) (r : Loc) (k : Nat) (l : List Seg) : Except IoError Walked :=
  if (PathBuf.ofSegs l).hasNul then .error nulInPath
  else if l = [] then .ok (.at r k)
  else if nodeAt s.tree r = some .dir then walk s.tree true k r l
  else .error ENOTDIR

/-- The pieces of what the check looks at. -/
theorem probe_body (hl : lookup s true fs.root = .ok (.at r k))
    (hup : above (relSegs p) = some up) :
    (fs.probe p).isAbsolute = fs.root.isAbsolute ∧ (fs.probe p).isEmptyStr = false
      ∧ ∃ u, (fs.probe p).body = (if up = [] then trimRight fs.root.trunk
          else fs.root.trunk ++ up) ++ u ∧ (∀ x ∈ u, x.isSkip = true)
        ∧ (u = [] ∨ up = [] ∧ trimRight fs.root.trunk = []) := by
  obtain ⟨-, hne, -⟩ := lookup_ok hl
  obtain ⟨htrim, mid, sg, tail, hcut, hsg, hmid, htail⟩ := above_some hup
  obtain ⟨habs, hbody⟩ := joined_body hne p
  rw [hcut, ← List.append_assoc] at hbody
  have hhead := headed_append (joined_headed hne p) (up ++ mid)
  obtain ⟨q, hq, hqe⟩ := parent_of_real hbody hsg htail hhead
  have hprobe : fs.probe p = q := by rw [HostFs.probe, hq]; rfl
  obtain ⟨u, hqb, hu, hend⟩ := parent_trim hbody hsg htail hhead hq
  have hfront : trimRight (fs.root.trunk ++ (up ++ mid))
      = if up = [] then trimRight fs.root.trunk else fs.root.trunk ++ up := by
    rw [← List.append_assoc, trimRight_skips hmid]
    by_cases hnil : up = []
    · rw [if_pos hnil, hnil, List.append_nil]
    · rw [if_neg hnil]
      have hlast : (trimRight up).getLast? = some (up.getLast hnil) := by
        rw [htrim, List.getLast?_eq_some_getLast hnil]
      rw [← List.dropLast_append_getLast hnil, ← List.append_assoc,
        trimRight_concat _ (trimRight_last hlast)]
  rw [hfront] at hqb hend
  rw [hprobe]
  refine ⟨(parent_cut hq hqe).1.trans habs, hqe, u, hqb, hu, ?_⟩
  rcases hend with hu | hnil
  · exact Or.inl hu
  · by_cases hup : up = []
    · rw [if_pos hup] at hnil
      exact Or.inr ⟨hup, hnil⟩
    · rw [if_neg hup] at hnil
      exact absurd (List.append_eq_nil_iff.mp hnil).2 hup

theorem probe_hasNul (hl : lookup s true fs.root = .ok (.at r k))
    (hup : above (relSegs p) = some up) : (fs.probe p).hasNul = (PathBuf.ofSegs up).hasNul := by
  obtain ⟨hnul, -, -⟩ := lookup_ok hl
  obtain ⟨-, -, u, hbody, hu, -⟩ := probe_body hl hup
  obtain ⟨tail, hcut, -⟩ := trunk_cut fs.root
  have hroot : ∀ n : Name, Seg.name n ∈ fs.root.trunk → n.1.contains 0 = false := by
    intro n hn
    refine (hasNul_false_iff _).mp hnul n ?_
    rw [hcut]
    exact List.mem_append.mpr (Or.inl hn)
  have hiff : (fs.probe p).hasNul = false ↔ (PathBuf.ofSegs up).hasNul = false := by
    rw [hasNul_false_iff, hbody]
    by_cases hnil : up = []
    · rw [if_pos hnil, hnil]
      refine ⟨fun _ => rfl, fun _ n hn => ?_⟩
      rcases List.mem_append.mp hn with hn | hn
      · obtain ⟨tl, hsplit, -⟩ := trimRight_split fs.root.trunk
        refine hroot n ?_
        rw [hsplit]
        exact List.mem_append.mpr (Or.inl hn)
      · exact nomatch hu _ hn
    · have hsegs : (PathBuf.ofSegs up).hasNul = false
          ↔ ∀ n : Name, Seg.name n ∈ up → n.1.contains 0 = false := by
        rw [PathBuf.hasNul, segs_ofSegs hnil, List.any_eq_false]
        constructor
        · intro h n hn
          exact Bool.eq_false_iff.mpr (h _ hn)
        · rintro h (- | - | - | n) hn
          · exact Bool.false_ne_true
          · exact Bool.false_ne_true
          · exact Bool.false_ne_true
          · exact Bool.eq_false_iff.mp (h n hn)
      rw [if_neg hnil, hsegs]
      constructor
      · intro h n hn
        exact h n (List.mem_append.mpr (Or.inl (List.mem_append.mpr (Or.inr hn))))
      · intro h n hn
        rcases List.mem_append.mp hn with hn | hn
        · rcases List.mem_append.mp hn with hn | hn
          · exact hroot n hn
          · exact h n hn
        · exact nomatch hu _ hn
  rw [Bool.eq_iff_iff, ← Bool.not_eq_false, ← Bool.not_eq_false]
  exact not_congr hiff

/-- **THE PARENT, BEHIND THE ROOT**: what the check looks at is where the
    pieces before the last real one lead. -/
theorem probe_behind (hw : HostWf s) (hl : lookup s true fs.root = .ok (.at r k))
    (hup : above (relSegs p) = some up) (c : Loc) :
    realpath s (fs.probe p) = .ok c ↔ ∃ k', behind s r k up = .ok (.at c k') := by
  have hreal : ∀ {q : PathBuf}, realpath s q = .ok c ↔ ∃ k', lookup s true q = .ok (.at c k') := by
    intro q
    constructor
    · exact realpath_ok
    · rintro ⟨k', h⟩
      rw [realpath, h]
  have hnul := probe_hasNul hl hup
  obtain ⟨habs, hne, u, hbody, hu, hend⟩ := probe_body hl hup
  have hstart : startOf (fs.probe p) s.cwd = startOf fs.root s.cwd := by
    rw [startOf, startOf, habs]
  have hwalk := trunk_walk hw hl
  have hdir := startOf_dir hw fs.root
  rw [hreal, behind, ← hnul]
  cases hz : (fs.probe p).hasNul with
  | true =>
      rw [lookup, if_pos hz]
      simp
  | false =>
      rw [lookup_walk hz hne, hstart, hbody, if_neg Bool.false_ne_true]
      by_cases hnil : up = []
      -- the probe is the root once more, as far as a walk can tell
      · rw [if_pos hnil, if_pos hnil]
        obtain ⟨tl, hsplit, htl⟩ := trimRight_split fs.root.trunk
        have hgo : walk s.tree true symloopMax (startOf fs.root s.cwd)
            (trimRight fs.root.trunk ++ u) = .ok (.at r k) := by
          by_cases hr : nodeAt s.tree r = some .dir
          · rw [hsplit] at hwalk
            exact walk_respell hw.tree hdir hr htl hu hwalk
          · -- a file is not spelled with a slash behind it
            have htnil : tl = [] := by
              cases tl with
              | nil => rfl
              | cons x xs =>
                  have hslash := walk_slash hw.tree true htl (List.cons_ne_nil _ _) symloopMax
                    (startOf fs.root s.cwd) (trimRight fs.root.trunk) hdir
                  rw [← hsplit, hwalk] at hslash
                  exact absurd hslash.1 hr
            rw [htnil, List.append_nil] at hsplit
            rcases hend with hunil | ⟨-, htrunk⟩
            · rw [hunil, List.append_nil, ← hsplit]
              exact hwalk
            · rw [← hsplit] at htrunk
              rw [htrunk, walk_nil] at hwalk
              obtain ⟨rfl, -⟩ := Walked.at.inj (Except.ok.inj hwalk)
              exact absurd hdir hr
        rw [hgo]
      · have hunil : u = [] := hend.resolve_right fun h => hnil h.1
        have hthrough := @walk_through s.tree hw.tree true up (Or.inl hnil) _ _ _ hdir _ _ hwalk
        rw [if_neg hnil, if_neg hnil, hunil, List.append_nil]
        by_cases hr : nodeAt s.tree r = some .dir
        · rw [if_pos hr, hthrough.1 hr]
        · rw [if_neg hr, hthrough.2 hr hnil]

/-! ## The spelling of the root -/

theorem trunk_components (root : PathBuf) :
    root.trunk.filterMap Seg.component = root.body.filterMap Seg.component := by
  obtain ⟨tail, hcut, htail⟩ := trunk_cut root
  rw [hcut, filterMap_skips htail]

/-- A spelling made of names on the way to the root is the canonical one. -/
theorem spelled_short (hw : HostWf s) (hl : lookup s true fs.root = .ok (.at r k))
    (ha : fs.root.isAbsolute = true)
    (h : fs.root.body.filterMap Seg.component <+: r.map Component.normal) :
    fs.root.body.filterMap Seg.component = r.map Component.normal := by
  obtain ⟨-, -, hwalk⟩ := lookup_ok hl
  have hthere := walk_there hw.tree _ _ _ (startOf_dir hw fs.root) hwalk
  obtain ⟨m, hm, hcomps⟩ : ∃ m, m <+: r
      ∧ fs.root.body.filterMap Seg.component = m.map Component.normal := by
    rw [List.prefix_iff_eq_take, ← List.map_take] at h
    exact ⟨_, List.take_prefix _ _, h⟩
  obtain ⟨rest, rfl⟩ := hm
  rcases List.eq_nil_or_concat rest with rfl | ⟨rest, n, hrest⟩
  · rw [hcomps, List.append_nil]
  · -- above the root there are directories, and the names lead to one of them
    exfalso
    rw [hrest, List.concat_eq_append, ← List.append_assoc] at hthere
    have hdirs : ∀ m', m' <+: m → nodeAt s.tree ([] ++ m') = some .dir :=
      fun m' hm' => hw.tree.above (hm'.trans (List.prefix_append m rest))
        (hw.tree.parent _ _ hthere)
    rw [startOf, if_pos ha, walk_down [] hcomps hdirs] at hwalk
    have hlen := congrArg List.length (Walked.at.inj (Except.ok.inj hwalk)).1
    rw [hrest, List.concat_eq_append] at hlen
    simp at hlen

/-- Whether a root is spelled from the canonical one on, what is behind the
    spelling does not change. -/
theorem probe_startsWith (hw : HostWf s) (hl : lookup s true fs.root = .ok (.at r k))
    (hup : above (relSegs p) = some up) :
    (fs.probe p).startsWith (locPath r) = fs.root.startsWith (locPath r) := by
  obtain ⟨habs, -, u, hbody, hu, -⟩ := probe_body hl hup
  have hcomps : ∃ more, (fs.probe p).body.filterMap Seg.component
      = fs.root.body.filterMap Seg.component ++ more := by
    rw [hbody, filterMap_skips hu, ← trunk_components]
    by_cases hnil : up = []
    · obtain ⟨tl, hsplit, htl⟩ := trimRight_split fs.root.trunk
      refine ⟨[], ?_⟩
      rw [if_pos hnil, List.append_nil, ← filterMap_skips htl, ← hsplit]
    · rw [if_neg hnil, List.filterMap_append]
      exact ⟨_, rfl⟩
  obtain ⟨more, hcomps⟩ := hcomps
  rw [PathBuf.startsWith, PathBuf.startsWith, decide_eq_decide, locPath_components]
  cases ha : fs.root.isAbsolute with
  | false =>
      -- a relative path begins with no root
      have hno : ∀ {q : PathBuf}, q.isAbsolute = false →
          ¬ (.rootDir :: r.map Component.normal) <+: q.components := by
        rintro q hq ⟨cs, hcs⟩
        rw [isAbsolute_of_components hcs.symm] at hq
        cases hq
      exact ⟨fun h => absurd h (hno (habs.trans ha)), fun h => absurd h (hno ha)⟩
  | true =>
      have hp : (fs.probe p).isAbsolute = true := habs.trans ha
      have hroot : fs.root.components = .rootDir :: fs.root.body.filterMap Seg.component := by
        rw [PathBuf.components, if_pos ha, PathBuf.body, if_pos ha]
      have hprobe : (fs.probe p).components
          = .rootDir :: (fs.root.body.filterMap Seg.component ++ more) := by
        rw [PathBuf.components, if_pos hp, ← hcomps, PathBuf.body, if_pos hp]
      rw [hroot, hprobe, List.prefix_cons_inj, List.prefix_cons_inj]
      constructor
      · intro h
        rcases List.prefix_or_prefix_of_prefix h (List.prefix_append _ _) with h | h
        · exact h
        · exact ⟨[], (List.append_nil _).trans (spelled_short hw hl ha h).symm⟩
      · exact fun h => h.trans (List.prefix_append _ _)

/-! ## The verdict -/

/-- What the check tells of a request: where its parent is found, it is in
    the root's directory; where it is not, the root is spelled from the
    canonical one on. -/
def Passes (s : HostState) (fs : HostFs) (r : Loc) (k : Nat) (p : PathBuf) : Prop :=
  match above (relSegs p) with
  | none => RootShown s fs r
  | some up =>
      (∃ c k', behind s r k up = .ok (.at c k') ∧ r <+: c)
        ∨ ((∀ c k', behind s r k up ≠ .ok (.at c k')) ∧ fs.root.startsWith (locPath r) = true)

/-- **THE VERDICT**, by the request, the tree and the spelling. -/
theorem accepted_iff_passes (hw : HostWf s) (hl : lookup s true fs.root = .ok (.at r k)) :
    Accepted s fs p r ↔ Passes s fs r k p := by
  have hroot : realpath s fs.root = .ok r := by rw [realpath, hl]
  rw [Passes]
  cases hup : above (relSegs p) with
  | none => exact bare_accepted_iff hw hroot (above_none hup)
  | some up =>
      have hfound := probe_behind hw hl hup
      have hlost : (∃ e, realpath s (fs.probe p) = .error e)
          ↔ ∀ c k', behind s r k up ≠ .ok (.at c k') := by
        constructor
        · rintro ⟨e, he⟩ c k' hb
          cases he.symm.trans ((hfound c).mpr ⟨k', hb⟩)
        · intro hno
          cases hp : realpath s (fs.probe p) with
          | error e => exact ⟨e, rfl⟩
          | ok c =>
              obtain ⟨k', hb⟩ := (hfound c).mp hp
              exact absurd hb (hno c k')
      rw [Accepted, hlost, probe_startsWith hw hl hup]
      constructor
      · rintro ⟨-, ⟨c, hc, hin⟩ | hraw⟩
        · obtain ⟨k', hb⟩ := (hfound c).mp hc
          exact Or.inl ⟨c, k', hb, hin⟩
        · exact Or.inr hraw
      · rintro (⟨c, k', hb, hin⟩ | hraw)
        · exact ⟨hroot, Or.inl ⟨c, (hfound c).mpr ⟨k', hb⟩, hin⟩⟩
        · exact ⟨hroot, Or.inr hraw⟩

end TokimoHostFs
