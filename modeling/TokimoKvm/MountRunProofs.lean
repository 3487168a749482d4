import TokimoKvm.MountServeProofs

/-! # `HostFs` serves the tree of a mount — renames, refusals and runs

    With renames and with what is refused, every call made of names is
    answered as the tree does, and nothing outside the mount is changed, or
    acted on.  Over runs of calls the tree is all there is to know about a
    host directory without links. -/

namespace TokimoMountTree

open TokimoMachine TokimoBytes TokimoPath TokimoTable TokimoVfsCore TokimoHost TokimoHostFs
  TokimoFileTree

variable {fs : HostFs} {r : Loc} {s : HostState} {v : MountTree} {p q : PathBuf}
  {ns init : List Name} {n : Name}

/-! ## Renaming -/

/-- A directory of the tree is one of the host. -/
theorem node_isDir (e : Entry Bytes) : (node e).isDir = e.isDir := by
  cases e with
  | dir => rfl
  | file b => rfl

/-- A rename that is refused fails in its own way. -/
theorem renameCheck_other {t : Tree} {src dst : Loc} {i : Inode} {slash : Bool} {e : IoError}
    (h : renameCheck t src dst i slash = .error e) : Fault.of (HostFs.mapIo e) = .other := by
  have hof : ∀ {e' : IoError}, (.error e' : Except IoError Unit) = .error e →
      Fault.of (HostFs.mapIo e') = .other → Fault.of (HostFs.mapIo e) = .other := by
    intro e' he hother
    rw [← Except.error.inj he]
    exact hother
  rw [renameCheck] at h
  split at h
  · exact hof h rfl
  · split at h
    · cases h
    · split at h
      · exact hof h rfl
      · split at h
        · exact hof h rfl
        · split at h
          · cases h
          · split at h
            · exact hof h rfl
            · split at h
              · exact hof h rfl
              · split at h
                · exact hof h rfl
                · cases h

/-- **WHEN A RENAME IS GRANTED**: the host and the tree judge alike. -/
theorem renameCheck_iff (hm : Mounted r s v) {src dst : List Name} {e : Entry Bytes} {i : Inode}
    (hi : i.node = node e) : renameCheck s.tree (r ++ src) (r ++ dst) i false = .ok ()
      ↔ src = dst ∨ (¬ src <+: dst ∧ ¬ dst <+: src ∧ Replaces v e dst) := by
  rw [renameCheck, Bool.false_and, if_neg Bool.false_ne_true]
  -- check by check, in the order in which the host makes them
  by_cases heq : src = dst
  · rw [if_pos (by rw [heq])]
    exact ⟨fun _ => Or.inl heq, fun _ => rfl⟩
  rw [if_neg (fun h => heq (List.append_cancel_left h))]
  by_cases hsd : src <+: dst
  · rw [if_pos ((append_prefix_iff _ _).mpr hsd)]
    exact ⟨fun h => (by cases h), fun h => absurd hsd (h.resolve_left heq).1⟩
  rw [if_neg (fun h => hsd ((append_prefix_iff _ _).mp h))]
  by_cases hds : dst <+: src
  · rw [if_pos ((append_prefix_iff _ _).mpr hds)]
    exact ⟨fun h => (by cases h), fun h => absurd hds (h.resolve_left heq).2.1⟩
  rw [if_neg (fun h => hds ((append_prefix_iff _ _).mp h)), Replaces, hi, node_isDir]
  have hgoal : ∀ {P Q : Prop}, (P ↔ Q) → (P ↔ src = dst ∨ (¬ src <+: dst ∧ ¬ dst <+: src ∧ Q)) := by
    intro P Q h
    rw [h]
    exact ⟨fun hq => Or.inr ⟨hsd, hds, hq⟩, fun hq => (hq.resolve_left heq).2.2⟩
  refine hgoal ?_
  cases hv : v dst with
  | none =>
      rw [nodeAt_none_iff.mp (hm.vacant hv)]
      exact ⟨fun _ => True.intro, fun _ => rfl⟩
  | some d =>
      obtain ⟨j, hj, hnode⟩ := hm.object hv
      have hbare := children_bare hm dst
      simp only [hj, hnode, node_isDir]
      cases d with
      | dir =>
          cases e with
          | dir =>
              cases hc : (s.tree.children (r ++ dst)).isEmpty with
              | true =>
                  have hall := hbare.mp hc
                  simp only [Entry.isDir, hall]
                  simp
              | false =>
                  have hnot : ¬ ∀ m, v (dst ++ [m]) = none := by
                    intro h
                    rw [hbare.mpr h] at hc
                    cases hc
                  simp only [Entry.isDir, hnot]
                  simp
          | file b => simp [Entry.isDir]
      | file b =>
          have hall : ∀ m, v (dst ++ [m]) = none := fun m =>
            hm.rooted.bare (by rw [hv]; exact fun h => by cases h) m []
          cases e with
          | dir => simp [Entry.isDir]
          | file b' => simp [Entry.isDir, hall]

/-- Renaming on the host serves the rename of the tree. -/
theorem rename_serves {init' : List Name} {n' : Name} (hp : Leads p (init ++ [n]))
    (hq : Leads q (init' ++ [n'])) (hs : Spelt fs r) (hm : Mounted r s v) :
    Serves r s ((renameAt (fs.joined p) (fs.joined q) s).map .unit id)
      (rename v (init ++ [n]) (init' ++ [n'])) := by
  have hdef : renameAt (fs.joined p) (fs.joined q)
      = Eff.mapErr HostFs.mapIo (TokimoHost.rename (fs.joined p) (fs.joined q)) := rfl
  rw [hdef, rename]
  -- the source's directory is looked at first, on the host and in the tree
  rcases hp.enter hs hm with ⟨hdir, hl, hnode, hin⟩ | ⟨e, hl, hin⟩
  · rcases hq.enter hs hm with ⟨hdir', hl', hnode', hin'⟩ | ⟨e, hl', hin'⟩
    · rw [hin, hin']
      cases hv : v (init ++ [n]) with
      | none =>
          rw [hv] at hnode
          have hcall : TokimoHost.rename (fs.joined p) (fs.joined q) s = (.error ENOENT, s) := by
            rw [TokimoHost.rename, hl, hl']
            simp only [nodeAt_none_iff.mp hnode]
          rw [Eff.mapErr_of_error hcall]
          exact Serves.failed hm rfl
      | some e =>
          rw [hv] at hnode
          obtain ⟨i, hi, hie⟩ := get_of_nodeAt hnode
          generalize hsrc : init ++ [n] = src at *
          generalize hdst : init' ++ [n'] = dst at *
          have hsrc' : r ++ init ++ [n] = r ++ src := by rw [List.append_assoc, hsrc]
          have hdst' : r ++ init' ++ [n'] = r ++ dst := by rw [List.append_assoc, hdst]
          rw [hsrc'] at hi
          -- the host's checks are those of the tree, one order or the other
          have hiff := @renameCheck_iff r s v hm src dst e i hie
          have hboth : ∀ l ∈ [r ++ src, r ++ dst], r <+: l := by
            intro l hl
            rcases List.mem_cons.mp hl with rfl | hl
            · exact List.prefix_append r src
            · exact below_self dst l hl
          dsimp only
          cases hc : renameCheck s.tree (r ++ src) (r ++ dst) i false with
          | error x =>
              have hcall : TokimoHost.rename (fs.joined p) (fs.joined q) s = (.error x, s) := by
                rw [TokimoHost.rename, hl, hl']
                simp only [hsrc', hdst', hi, Bool.or_false, hc]
              have hno : ¬ (src = dst ∨ (¬ src <+: dst ∧ ¬ dst <+: src ∧ Replaces v e dst)) := by
                intro h
                rw [hiff.mpr h] at hc
                cases hc
              rw [Eff.mapErr_of_error hcall, if_neg (fun h => hno (Or.inl h)),
                if_neg (fun h => hno (Or.inr h))]
              exact Serves.failed hm (renameCheck_other hc)
          | ok u =>
              have hcall : TokimoHost.rename (fs.joined p) (fs.joined q) s
                  = (.ok (), (if r ++ src = r ++ dst then s
                      else s.setTree (s.tree.move (r ++ src) (r ++ dst))).touch
                      [r ++ src, r ++ dst]) := by
                rw [TokimoHost.rename, hl, hl']
                simp only [hsrc', hdst', hi, Bool.or_false, hc]
              rw [Eff.mapErr_of_ok hcall]
              rcases hiff.mp hc with heq | hgo
              · rw [if_pos heq, if_pos (by rw [heq])]
                exact ⟨True.intro, (Follows.keep hm).touch hboth⟩
              · have hne : ¬ src = dst := by
                  rintro rfl
                  exact hgo.1 (List.prefix_refl _)
                rw [if_neg hne, if_pos hgo, if_neg (fun h => hne (List.append_cancel_left h))]
                have hrooted : Rooted (move v src dst) := by
                  rw [← hdst]
                  exact hm.rooted.move hdir' (by rw [hdst]; exact hgo.1)
                exact ⟨True.intro, (hm.moved hrooted hgo.1 hgo.2.1).touch hboth⟩
    · have hcall : TokimoHost.rename (fs.joined p) (fs.joined q) s = (.error e, s) := by
        rw [TokimoHost.rename, hl, hl']
      rw [hin, hin', Eff.mapErr_of_error hcall]
      exact Serves.failed hm rfl
  · have hcall : TokimoHost.rename (fs.joined p) (fs.joined q) s = (.error e, s) := by
      rw [TokimoHost.rename, hl]
    rw [hin, Eff.mapErr_of_error hcall]
    exact Serves.failed hm rfl

/-! ## Refusals -/

/-- The root of the mount is refused: its own parent is outside. -/
theorem root_refused (hp : Leads p []) (hs : Spelt fs r) (hm : Mounted r s v) :
    ¬ Accepted s fs p r := by
  intro hacc
  have hl := hs.lookup hm
  have hroot : realpath s fs.root = .ok r := by rw [realpath, hl]
  have ha := isAbsolute_of_components hs.names
  have hcomps : fs.root.body.filterMap Seg.component = r.map .normal := by
    have h := hs.names
    rw [PathBuf.components, if_pos ha] at h
    rw [PathBuf.body, if_pos ha]
    exact (List.cons.inj h).2
  have hrel := (relSegs_names hp.names).1 rfl
  have hshown := (bare_accepted_iff hm.host hroot (by rw [hrel]; exact slash_skip)).mp hacc
  cases hq : fs.root.parent with
  | none =>
      have hskip := parent_absolute_none ha hq
      have hnil : fs.root.body.filterMap Seg.component = [] := filterMap_skips (l := []) hskip
      rw [hnil] at hcomps
      exact hs.below (List.map_eq_nil_iff.mp hcomps.symm)
  | some q =>
      -- the root's parent is above the root, so it is not shown to be inside
      obtain ⟨c, hc, hin⟩ := hshown q hq
      obtain ⟨hqa, l, mid, sg, tail, hbody, hqb, -, hsg, hmid, htail⟩ := parent_absolute ha hq
      rcases List.eq_nil_or_concat r with hnil | ⟨up, m, hcat⟩
      · exact hs.below hnil
      · rw [List.concat_eq_append] at hcat
        have hnames : (l ++ mid ++ [sg]).filterMap Seg.component
            = (up ++ [m]).map Component.normal := by
          rw [← hcat, ← hcomps, hbody, ← filterMap_skips htail, List.append_assoc (l ++ mid)]
          rfl
        obtain ⟨-, hup⟩ := last_name hsg hnames
        rw [filterMap_skips hmid] at hup
        have hqcomps : q.body.filterMap Seg.component = up.map Component.normal := by
          rcases hqb with hb | ⟨hnil, hb⟩
          · rw [hb]
            exact hup
          · rw [hb, ← hup, hnil]
            rfl
        obtain ⟨k, hlq⟩ := realpath_ok hc
        obtain ⟨-, -, hwalk⟩ := lookup_ok hlq
        have hdirs : ∀ m', m' <+: up → nodeAt s.tree ([] ++ m') = some .dir := fun m' hm' =>
          hm.host.tree.above (hm'.trans (by rw [hcat]; exact List.prefix_append _ _)) hm.root
        rw [startOf, if_pos hqa, walk_down [] hqcomps hdirs] at hwalk
        obtain ⟨rfl, -⟩ := Walked.at.inj (Except.ok.inj hwalk)
        have hlen := hin.length_le
        rw [hcat, List.length_append, List.nil_append] at hlen
        exact Nat.not_succ_le_self _ hlen

/-- A refusal shows that the request is denied. -/
theorem refusal_shows (call : VfsCall) : Shows (refusal call) (.error .denied) := by
  cases call with
  | stat p => rfl
  | list p => rfl
  | read p off len => rfl
  | write p off data => rfl
  | create p mode => rfl
  | mkdir p mode => rfl
  | remove p => rfl
  | rmdir p => rfl
  | rename p q => rfl
  | truncate p size => rfl

/-- Every path but the root is accepted. -/
theorem Leads.accepted_iff (hp : Leads p ns) (hs : Spelt fs r) (hm : Mounted r s v) :
    Accepted s fs p r ↔ ns ≠ [] := by
  constructor
  · rintro hacc rfl
    exact root_refused hp hs hm hacc
  · intro hne
    rcases List.eq_nil_or_concat ns with hnil | ⟨init, n, hcat⟩
    · exact absurd hnil hne
    · rw [List.concat_eq_append] at hcat
      subst hcat
      exact hp.accepted hs hm

section Calls

variable {call : VfsCall} {op : Op}

/-- A call changes something when its operation does. -/
theorem Asks.mutating (h : Asks call op) : call.mutating = op.mutating := by
  cases h <;> rfl

/-- Its paths lead to the places of the operation. -/
theorem Asks.paths (h : Asks call op) : List.Forall₂ Leads (TokimoHostFs.paths call) op.places := by
  cases h with
  | rename hp hq => exact .cons hp (.cons hq .nil)
  | stat hp => exact .cons hp .nil
  | list hp => exact .cons hp .nil
  | read off len hp => exact .cons hp .nil
  | write off data hp => exact .cons hp .nil
  | create mode hp => exact .cons hp .nil
  | mkdir mode hp => exact .cons hp .nil
  | remove hp => exact .cons hp .nil
  | rmdir hp => exact .cons hp .nil
  | truncate size hp => exact .cons hp .nil

/-- A call is let through unless it is about the mount's root. -/
theorem letThrough_iff (h : Asks call op) (hs : Spelt fs r) (hm : Mounted r s v) :
    LetThrough s fs r call ↔ ∀ ns ∈ op.places, ns ≠ [] := by
  have hall : ∀ {ps : List PathBuf} {nss : List (List Name)}, List.Forall₂ Leads ps nss →
      ((∀ p ∈ ps, Accepted s fs p r) ↔ ∀ ns ∈ nss, ns ≠ []) := by
    intro ps nss hf
    induction hf with
    | nil => simp
    | cons hp _ ih =>
        rw [List.forall_mem_cons, List.forall_mem_cons, hp.accepted_iff hs hm, ih]
  exact hall h.paths

/-- **ONE CALL**: `HostFs` answers it as the tree does, and the host goes on
    holding the tree. -/
theorem invoke_serves (h : Asks call op) (hs : Spelt fs r) (hm : Mounted r s v) :
    Serves r s ((fs.toVfs posix).invoke s call) (serve fs.readOnly v op) := by
  have hroot : realpath s fs.root = .ok r := by rw [realpath, hs.lookup hm]
  by_cases hguard : Guarded fs call
  · have hden : ((fs.readOnly && op.mutating) || op.places.any List.isEmpty) = true := by
      rw [hguard.1, ← h.mutating, hguard.2]
      rfl
    rw [invoke_guarded hguard, serve, if_pos hden]
    exact Serves.failed hm (refusal_shows call)
  · by_cases hthrough : LetThrough s fs r call
    · have hplaces := (letThrough_iff h hs hm).mp hthrough
      have hden : ((fs.readOnly && op.mutating) || op.places.any List.isEmpty) = false := by
        rw [Bool.or_eq_false_iff, Bool.and_eq_false_iff, List.any_eq_false]
        refine ⟨?_, fun ns hns => ?_⟩
        · cases hro : fs.readOnly with
          | false => exact Or.inl rfl
          | true =>
              rw [← h.mutating]
              exact Or.inr (Bool.eq_false_iff.mpr fun hmut => hguard ⟨hro, hmut⟩)
        · rw [List.isEmpty_iff]
          exact hplaces ns hns
      -- no place is the root, so each has a last name
      have hsplit : ∀ ns ∈ op.places, ∃ init n, ns = init ++ [n] := by
        intro ns hns
        rcases List.eq_nil_or_concat ns with hnil | ⟨init, n, hcat⟩
        · exact absurd hnil (hplaces ns hns)
        · exact ⟨init, n, by rw [hcat, List.concat_eq_append]⟩
      rw [invoke_through hthrough hguard, serve, if_neg (by rw [hden]; exact Bool.false_ne_true)]
      cases h with
      | stat hp =>
          obtain ⟨init, n, rfl⟩ := hsplit _ (List.mem_cons_self ..)
          exact stat_serves hp hs hm
      | list hp =>
          obtain ⟨init, n, rfl⟩ := hsplit _ (List.mem_cons_self ..)
          exact list_serves hp hs hm
      | read off len hp =>
          obtain ⟨init, n, rfl⟩ := hsplit _ (List.mem_cons_self ..)
          exact read_serves hp hs hm off len
      | write off data hp =>
          obtain ⟨init, n, rfl⟩ := hsplit _ (List.mem_cons_self ..)
          exact write_serves hp hs hm off data
      | create mode hp =>
          obtain ⟨init, n, rfl⟩ := hsplit _ (List.mem_cons_self ..)
          exact create_serves hp hs hm
      | mkdir mode hp =>
          obtain ⟨init, n, rfl⟩ := hsplit _ (List.mem_cons_self ..)
          exact mkdir_serves hp hs hm
      | remove hp =>
          obtain ⟨init, n, rfl⟩ := hsplit _ (List.mem_cons_self ..)
          exact remove_serves hp hs hm
      | rmdir hp =>
          obtain ⟨init, n, rfl⟩ := hsplit _ (List.mem_cons_self ..)
          exact rmdir_serves hp hs hm
      | rename hp hq =>
          obtain ⟨init, n, rfl⟩ := hsplit _ (List.mem_cons_self ..)
          obtain ⟨init', n', rfl⟩ := hsplit _ (List.mem_cons_of_mem _ (List.mem_cons_self ..))
          exact rename_serves hp hq hs hm
      | truncate size hp =>
          obtain ⟨init, n, rfl⟩ := hsplit _ (List.mem_cons_self ..)
          exact truncate_serves hp hs hm size
    · -- the call is about the root of the mount
      have hden : ((fs.readOnly && op.mutating) || op.places.any List.isEmpty) = true := by
        rw [Bool.or_eq_true_iff, List.any_eq_true]
        rw [letThrough_iff h hs hm, not_forall] at hthrough
        obtain ⟨ns, hns⟩ := hthrough
        rw [Classical.not_imp, not_not] at hns
        exact Or.inr ⟨ns, hns.1, by rw [hns.2]; rfl⟩
      rw [invoke_refused hroot hthrough, serve, if_pos hden]
      exact Serves.failed hm (refusal_shows call)

end Calls

/-! ## Runs -/

/-- A host directory served call by call, beside the tree it stands for. -/
noncomputable def mountMachine (fs : HostFs) :
    Machine (HostState × MountTree) (VfsCall × Op) (Reply × Except Fault Answer) where
  step st l :=
    some ((((fs.toVfs posix).invoke st.1 l.1).2, (serve fs.readOnly st.2 l.2).2),
      [(((fs.toVfs posix).invoke st.1 l.1).1, (serve fs.readOnly st.2 l.2).1)])

/-- **A HOST DIRECTORY WITHOUT LINKS IS A TREE OF FILES**: let the root be an
    absolute canonical path without NUL other than `/`, and the process's
    working directory lie outside of it.  Along any calls whose paths are made
    of names without NUL (no `.` or `..`, and no slash behind a relative one)
    every reply shows the tree's answer, the host goes on holding the tree,
    and outside the mount nothing is changed or acted on. -/
theorem mount_is_tree {st : HostState × MountTree} {tr : List (Reply × Except Fault Answer)}
    (hs : Spelt fs r) (hm : Mounted r s v)
    (hrun : Run (mountMachine fs) (fun _ l => Asks l.1 l.2) (s, v) st tr) :
    (∀ e ∈ tr, Shows e.1 e.2) ∧ Follows r s st.1 st.2 := by
  refine Run.invariant (I := fun st tr => (∀ e ∈ tr, Shows e.1 e.2) ∧ Follows r s st.1 st.2)
    ⟨fun e he => (nomatch he), Follows.keep hm⟩ ?_ hrun
  rintro ⟨s₁, v₁⟩ tr₁ ⟨call, op⟩ st' es ⟨htr, hfol⟩ hask hstep
  obtain ⟨rfl, rfl⟩ := Prod.mk.inj (Option.some.inj hstep)
  obtain ⟨hshow, hnext⟩ := invoke_serves hask hs hfol.mounted
  refine ⟨fun e he => ?_, hfol.trans hnext⟩
  rcases List.mem_append.mp he with hmem | hmem
  · exact htr e hmem
  · rw [List.mem_singleton.mp hmem]
    exact hshow

/-- The tree of a mount with one empty file. -/
def chunkTree : MountTree := fun ns =>
  if ns = [] then some .dir else if ns = [⟨[102], Eq.refl true⟩] then some (.file []) else none

/-- The example's tree has its root. -/
theorem chunkTree_rooted : Rooted chunkTree := by
  refine ⟨rfl, fun ns n hn => ?_⟩
  rcases ns with - | ⟨m, ns⟩
  · rfl
  · refine absurd ?_ hn
    have hne : ¬ (m :: ns) ++ [n] = [⟨[102], rfl⟩] := by
      intro h
      have hlen := congrArg List.length h
      simp at hlen
    rw [chunkTree, if_neg (by simp), if_neg hne]

/-- It is mounted. -/
theorem chunk_mounted : Mounted [⟨[114], rfl⟩] chunkHost chunkTree := by
  refine ⟨⟨treeWf_of_entries (by decide) (by decide), by decide⟩, by decide, chunkTree_rooted, ?_,
    by decide⟩
  intro ns
  rcases ns with - | ⟨m, - | ⟨m', ns⟩⟩
  · rfl
  · by_cases hm : m = ⟨[102], rfl⟩
    · rw [hm]
      rfl
    · have hne : ¬ (⟨[102], rfl⟩ : Name) = m := fun h => hm h.symm
      simp [nodeAt, chunkHost, Table.get_cons, chunkTree, hm, hne]
  · simp [nodeAt, chunkHost, Table.get_cons, chunkTree]

/-- A directory is made in the mount, and the file moved there. -/
theorem chunk_mount_is_tree : ∃ (st : HostState × MountTree)
    (tr : List (Reply × Except Fault Answer)), tr.length = 2 ∧ (∀ e ∈ tr, Shows e.1 e.2)
    ∧ Follows [⟨[114], rfl⟩] chunkHost st.1 st.2 := by
  have hmk : Asks (.mkdir (PathBuf.ofBytes [47, 100]) 0) (.mkdir [⟨[100], rfl⟩]) :=
    .mkdir 0 ⟨Or.inl (by decide), by decide⟩
  have hmv : Asks (.rename (PathBuf.ofBytes [47, 102]) (PathBuf.ofBytes [47, 100, 47, 102]))
      (.rename [⟨[102], rfl⟩] [⟨[100], rfl⟩, ⟨[102], rfl⟩]) :=
    .rename ⟨Or.inl (by decide), by decide⟩ ⟨Or.inl (by decide), by decide⟩
  exact ⟨_, _, rfl, @mount_is_tree chunkFs [⟨[114], rfl⟩] chunkHost chunkTree _ _
    ⟨by decide, by decide, by decide⟩ chunk_mounted
    (Run.step (_, _) (Run.step (_, _) Run.start hmk rfl) hmv rfl)⟩

end TokimoMountTree
