import TokimoKvm.MountTree
import TokimoKvm.RootCheckProofs

/-! # A host directory as the tree of a mount

    A mount is `Mounted` where below its root the host holds what the tree
    says, and no links.  Then the kernel's walk and the tree's `find` agree
    on every request made of names, and such requests pass the jail check,
    whether the entry, or the directory it would be in, is there or not. -/

namespace TokimoMountTree

open TokimoMachine TokimoBytes TokimoPath TokimoTable TokimoVfsCore TokimoHost TokimoHostFs
  TokimoFileTree

def node : Entry Bytes → Node
  | .dir => .dir
  | .file b => .file b

/-- Below `r` the host holds the tree `v`, so there are no links in it, and the
    process's working directory is not in there. -/
structure Mounted (r : Loc) (s : HostState) (v : MountTree) : Prop where
  host : HostWf s
  keys : (s.tree.map Prod.fst).Nodup
  rooted : Rooted v
  mirrors : ∀ ns, nodeAt s.tree (r ++ ns) = (v ns).map node
  apart : ¬ r <+: s.cwd

/-- The root of the mount is spelled as `canonicalize` would spell it: it is
    absolute, made of names alone and without a NUL, and it is not `/`. -/
structure Spelt (fs : HostFs) (r : Loc) : Prop where
  names : fs.root.components = .rootDir :: r.map .normal
  nul : fs.root.hasNul = false
  below : r ≠ []

/-- The path is made of these names, none of which holds a NUL. -/
structure Leads (p : PathBuf) (ns : List Name) : Prop where
  names : Names p ns
  nul : ∀ n ∈ ns, n.1.contains 0 = false

variable {fs : HostFs} {r : Loc} {s : HostState} {v : MountTree} {p : PathBuf}
  {init : List Name} {n : Name} {k : Nat}

theorem Mounted.root (hm : Mounted r s v) : nodeAt s.tree r = some .dir := by
  have h := hm.mirrors []
  rw [List.append_nil, hm.rooted.root] at h
  exact h

/-- The root leads to its directory. -/
theorem Spelt.lookup (hs : Spelt fs r) (hm : Mounted r s v) :
    TokimoHost.lookup s true fs.root = .ok (.at r symloopMax) := by
  have ha := isAbsolute_of_components hs.names
  have hcomps : fs.root.body.filterMap Seg.component = r.map .normal := by
    have h := hs.names
    rw [PathBuf.components, if_pos ha] at h
    rw [PathBuf.body, if_pos ha]
    exact (List.cons.inj h).2
  rw [lookup_walk hs.nul (isEmptyStr_of_absolute ha), startOf, if_pos ha,
    walk_down [] hcomps fun m hmr => hm.host.tree.above hmr hm.root]
  rfl

/-! ## Walking down the mount -/

/-- Where the kernel is led that looks for the name `n` in `d`. -/
def placed (k : Nat) (d : Loc) (n : Name) : Found Bytes → Except IoError Walked
  | .there _ => .ok (.at (d ++ [n]) k)
  | .free => .ok (.missing d n false)
  | .lost => .error ENOENT
  | .blocked => .error ENOTDIR

/-- Names below the mount, with pieces between them that stay in place. -/
theorem walk_find {t : Tree} (hmir : ∀ ns, nodeAt t (r ++ ns) = (v ns).map node) (follow : Bool)
    (k : Nat) (n : Name) :
    ∀ (l : List Seg) (ns d : List Name), l.filterMap Seg.component = ns.map Component.normal →
      walk t follow k (r ++ d) (l ++ [.name n])
        = placed k (r ++ (d ++ ns)) n (findFrom v d (ns ++ [n])) := by
  intro l
  -- piece by piece, as the tree's walk takes name by name
  induction l with
  | nil =>
      intro ns d hl
      obtain rfl := List.map_eq_nil_iff.mp hl.symm
      have hn : nodeAt t (r ++ d ++ [n]) = (v (d ++ [n])).map node := by
        rw [List.append_assoc]
        exact hmir _
      rw [List.nil_append, List.nil_append, List.append_nil, findFrom_single]
      cases hv : v (d ++ [n]) with
      | none =>
          rw [hv] at hn
          rw [walk_name_none _ _ _ hn]
          rfl
      | some e =>
          rw [hv] at hn
          cases e with
          | dir => rw [walk_name_dir _ _ _ hn, walk_nil]; rfl
          | file b => rw [walk_name_file _ _ _ hn]; rfl
  | cons sg l ih =>
      intro ns d hl
      cases sg with
      | empty =>
          rw [List.cons_append, walk_skip_cons _ _ _ _ _ rfl]
          exact ih ns d hl
      | cur =>
          rw [List.cons_append, walk_skip_cons _ _ _ _ _ rfl]
          exact ih ns d hl
      | up =>
          cases ns with
          | nil => exact nomatch hl
          | cons m ns => exact nomatch (List.cons.inj hl).1
      | name m =>
          cases ns with
          | nil => exact nomatch hl
          | cons m' ns =>
              obtain ⟨hhead, hrest⟩ := List.cons.inj hl
              obtain rfl := Component.normal.inj hhead
              have hn : nodeAt t (r ++ d ++ [m]) = (v (d ++ [m])).map node := by
                rw [List.append_assoc]
                exact hmir _
              -- the last name is still to come, in both walks
              have hmore : (l ++ [Seg.name n]).isEmpty = false :=
                append_isEmpty (List.cons_ne_nil _ _)
              have hmore' : (ns ++ [n]).isEmpty = false := by
                cases ns with
                | nil => rfl
                | cons a l => rfl
              rw [List.cons_append, List.cons_append, findFrom]
              cases hv : v (d ++ [m]) with
              | none =>
                  rw [hv] at hn
                  rw [walk_name_none _ _ _ hn, if_neg (by simp)]
                  simp only [hmore', Bool.false_eq_true, if_false]
                  rfl
              | some e =>
                  rw [hv] at hn
                  cases e with
                  | dir =>
                      rw [walk_name_dir _ _ _ hn, List.append_assoc, ih ns (d ++ [m]) hrest]
                      simp only [List.append_assoc, List.singleton_append]
                  | file b =>
                      rw [walk_name_file _ _ _ hn, if_neg (by rw [hmore]; exact Bool.false_ne_true)]
                      simp only [hmore', Bool.false_eq_true, if_false]
                      rfl

/-- What entering the directory that names lead to comes to. -/
def enters {α : Type} (x : α) : Found Bytes → Except IoError α
  | .there .dir => .ok x
  | .there (.file _) => .error ENOTDIR
  | .free => .error ENOENT
  | .lost => .error ENOENT
  | .blocked => .error ENOTDIR

/-- Entering the directory of a name below the mount. -/
theorem walk_enters {t : Tree} (hmir : ∀ ns, nodeAt t (r ++ ns) = (v ns).map node) (k : Nat)
    (f : Loc → Parent) :
    ∀ (l : List Seg) (ns d : List Name), l.filterMap Seg.component = ns.map Component.normal →
      entered f (walk t true k (r ++ d) (l ++ [.empty]))
        = enters (f (r ++ (d ++ ns))) (findFrom v d ns) := by
  intro l
  induction l with
  | nil =>
      intro ns d hl
      obtain rfl := List.map_eq_nil_iff.mp hl.symm
      rw [List.nil_append, walk_skip_cons _ _ _ _ _ rfl, walk_nil, List.append_nil, findFrom]
      rfl
  | cons sg l ih =>
      intro ns d hl
      cases sg with
      | empty =>
          rw [List.cons_append, walk_skip_cons _ _ _ _ _ rfl]
          exact ih ns d hl
      | cur =>
          rw [List.cons_append, walk_skip_cons _ _ _ _ _ rfl]
          exact ih ns d hl
      | up =>
          cases ns with
          | nil => cases hl
          | cons m ns => cases (List.cons.inj hl).1
      | name m =>
          cases ns with
          | nil => cases hl
          | cons m' ns =>
              obtain ⟨hhead, hrest⟩ := List.cons.inj hl
              obtain rfl := Component.normal.inj hhead
              have hn : nodeAt t (r ++ d ++ [m]) = (v (d ++ [m])).map node := by
                rw [List.append_assoc]
                exact hmir _
              have hmore : (l ++ [Seg.empty]).isEmpty = false :=
                append_isEmpty (List.cons_ne_nil _ _)
              rw [List.cons_append, findFrom]
              cases hv : v (d ++ [m]) with
              | none =>
                  -- whatever is left of the path, the directory is missing
                  rw [hv] at hn
                  have hwalk : ∃ w, walk t true k (r ++ d) (.name m :: (l ++ [.empty])) = w
                      ∧ entered f w = .error ENOENT := by
                    refine ⟨_, walk_name_none _ _ _ hn, ?_⟩
                    by_cases hall : (l ++ [Seg.empty]).all (· == .empty) = true
                    · rw [if_pos hall]
                      rfl
                    · rw [if_neg hall]
                      rfl
                  obtain ⟨w, hw, he⟩ := hwalk
                  rw [hw, he]
                  cases ns with
                  | nil => rfl
                  | cons a ns => rfl
              | some e =>
                  rw [hv] at hn
                  cases e with
                  | dir =>
                      rw [walk_name_dir _ _ _ hn, List.append_assoc, ih ns (d ++ [m]) hrest]
                      simp only [List.append_assoc, List.singleton_append]
                  | file b =>
                      rw [walk_name_file _ _ _ hn, if_neg (by rw [hmore]; exact Bool.false_ne_true)]
                      cases ns with
                      | nil => rfl
                      | cons a ns => rfl

/-! ## Requests -/

/-- The pieces of a request made of names. -/
theorem Leads.pieces (hp : Leads p (init ++ [n])) :
    ∃ l, relSegs p = l ++ [.name n] ∧ l.filterMap Seg.component = init.map .normal
      ∧ ∀ m : Name, Seg.name m ∈ relSegs p → m.1.contains 0 = false := by
  obtain ⟨l, hrel, hinit⟩ := (relSegs_names hp.names).2 init n rfl
  refine ⟨l, hrel, hinit, ?_⟩
  intro m hmem
  have hcomp : Component.normal m ∈ (relSegs p).filterMap Seg.component :=
    List.mem_filterMap.mpr ⟨_, hmem, rfl⟩
  rw [hrel, List.filterMap_append, hinit] at hcomp
  refine hp.nul m ?_
  rcases List.mem_append.mp hcomp with h | h
  · obtain ⟨m', hm', heq⟩ := List.mem_map.mp h
    rw [← Component.normal.inj heq]
    exact List.mem_append.mpr (Or.inl hm')
  · obtain rfl := Component.normal.inj (List.mem_singleton.mp h)
    exact List.mem_append.mpr (Or.inr (List.mem_cons_self ..))

/-- Names lead nowhere but below the root. -/
theorem walk_below (hm : Mounted r s v) {l : List Seg} {ns : List Name}
    (hl : l.filterMap Seg.component = ns.map Component.normal) (htrim : trimRight l = l) {c : Loc}
    {k' : Nat} (h : walk s.tree true k r l = .ok (.at c k')) : r <+: c := by
  rcases List.eq_nil_or_concat ns with rfl | ⟨ns', m, hcat⟩
  · have hskip := skips_of_components hl
    rw [← List.append_nil l, walk_skip [] hskip, walk_nil] at h
    obtain ⟨rfl, -⟩ := Walked.at.inj (Except.ok.inj h)
    exact List.prefix_refl _
  · rw [List.concat_eq_append] at hcat
    subst hcat
    have hne : l ≠ [] := by
      rintro rfl
      rw [List.map_append] at hl
      exact absurd hl.symm (List.append_ne_nil_of_right_ne_nil _ (List.cons_ne_nil _ _))
    have hreal := @trimRight_last l (l.getLast hne) (by
      rw [htrim, List.getLast?_eq_some_getLast hne])
    rw [← List.dropLast_append_getLast hne] at hl h
    obtain ⟨hlast, hfront⟩ := last_name hreal hl
    have hwalk := walk_find hm.mirrors true k m l.dropLast ns' [] hfront
    rw [List.append_nil, ← hlast, h, List.nil_append] at hwalk
    cases hf : findFrom v [] (ns' ++ [m]) with
    | there e =>
        rw [hf] at hwalk
        rw [(Walked.at.inj (Except.ok.inj hwalk)).1, List.append_assoc]
        exact List.prefix_append _ _
    | free => rw [hf] at hwalk; exact nomatch hwalk
    | lost => rw [hf] at hwalk; exact nomatch hwalk
    | blocked => rw [hf] at hwalk; exact nomatch hwalk

/-- **REQUESTS MADE OF NAMES PASS THE CHECK**, found or not. -/
theorem Leads.accepted (hp : Leads p (init ++ [n])) (hs : Spelt fs r) (hm : Mounted r s v) :
    Accepted s fs p r := by
  obtain ⟨l, hrel, hinit, -⟩ := hp.pieces
  refine (accepted_iff_passes hm.host (hs.lookup hm)).mpr ?_
  have hup : above (relSegs p) = some (trimRight l) := by
    rw [above, hrel, trimRight_concat l rfl, List.getLast?_concat, List.dropLast_concat]
  rw [Passes, hup]
  by_cases hfound : ∃ c k', behind s r symloopMax (trimRight l) = .ok (.at c k')
  · obtain ⟨c, k', hc⟩ := hfound
    refine Or.inl ⟨c, k', hc, ?_⟩
    rw [behind] at hc
    split at hc
    · cases hc
    · split at hc
      · obtain ⟨rfl, -⟩ := Walked.at.inj (Except.ok.inj hc)
        exact List.prefix_refl _
      · rw [if_pos hm.root] at hc
        obtain ⟨tail, hsplit, htail⟩ := trimRight_split l
        have hnames : (trimRight l).filterMap Seg.component = init.map .normal := by
          rw [← filterMap_skips htail, ← hsplit, hinit]
        exact walk_below hm hnames (above_some hup).1 hc
  · refine Or.inr ⟨fun c k' hc => hfound ⟨c, k', hc⟩, ?_⟩
    have hspelt : (locPath r).components <+: fs.root.components := by
      have h := (locPath_components r).trans hs.names.symm
      exact h ▸ List.prefix_refl _
    exact decide_eq_true hspelt

section Lookups

variable (hp : Leads p (init ++ [n])) (hs : Spelt fs r) (hm : Mounted r s v)
include hp hs hm

/-- **THE HOST FINDS WHAT THE TREE HOLDS**. -/
theorem Leads.lookup (follow : Bool) : TokimoHost.lookup s follow (fs.joined p)
    = placed symloopMax (r ++ init) n (find v (init ++ [n])) := by
  obtain ⟨l, hrel, hinit, hnul⟩ := hp.pieces
  have hl := hs.lookup hm
  obtain ⟨hrnul, hne, -⟩ := lookup_ok hl
  obtain ⟨-, hbody⟩ := joined_body hne p
  rw [lookup_walk (joined_hasNul hne hrnul hnul)
      (isEmptyStr_of_headed hbody (joined_headed hne p)), hbody, startOf_joined hne,
    (walk_through hm.host.tree (Or.inl (relSegs_ne_nil p)) _ _ _ (startOf_dir hm.host fs.root)
      (trunk_walk hm.host hl)).1 hm.root, hrel]
  have hwalk := walk_find hm.mirrors follow symloopMax n l init [] hinit
  rw [List.append_nil, List.nil_append] at hwalk
  exact hwalk

/-- The directory a new name would be in. -/
theorem Leads.lookupParent : TokimoHost.lookupParent s (fs.joined p)
    = enters (.entry (r ++ init) n false) (find v init) := by
  obtain ⟨l, hrel, hinit, hnul⟩ := hp.pieces
  have hl := hs.lookup hm
  obtain ⟨hrnul, hne, -⟩ := lookup_ok hl
  obtain ⟨-, hbody⟩ := joined_body hne p
  have hends : dropSlashes [Seg.name n] = [.name n] := rfl
  have hdrop : dropSlashes (fs.joined p).body = fs.root.trunk ++ l ++ [.name n] := by
    rw [hbody, hrel, ← List.append_assoc,
      dropSlashes_append _ (by rw [hends]; exact List.cons_ne_nil _ _), hends]
  have hwhole : (fs.joined p).body = fs.root.trunk ++ l ++ [.name n] := by
    rw [hbody, hrel, List.append_assoc]
  have hpar : parentFrom s.tree symloopMax (startOf (fs.joined p) s.cwd) (fs.joined p).body
      = entered (fun d => .entry d n false)
          (walk s.tree true symloopMax (startOf (fs.joined p) s.cwd)
            (fs.root.trunk ++ l ++ [.empty])) := by
    rw [parentFrom, hdrop, List.getLast?_concat, List.dropLast_concat, hwhole]
    simp only [ne_eq, not_true_eq_false, decide_false]
  rw [lookupParent_walk (joined_hasNul hne hrnul hnul)
      (isEmptyStr_of_headed hbody (joined_headed hne p)), hpar, startOf_joined hne,
    List.append_assoc, (walk_through hm.host.tree (Or.inr rfl) _ _ _ (startOf_dir hm.host fs.root)
      (trunk_walk hm.host hl)).1 hm.root]
  have hwalk := walk_enters hm.mirrors symloopMax (fun d => .entry d n false) l init [] hinit
  rw [List.append_nil, List.nil_append] at hwalk
  exact hwalk

end Lookups

end TokimoMountTree
