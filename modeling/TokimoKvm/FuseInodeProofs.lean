import TokimoKvm.FuseTableProofs
import TokimoKvm.ReferenceTree

/-! # Inode numbers and objects

    A number is a name for a path.  It stands for the object it was handed
    out for as long as that object stays at its path, and for no other object
    as long as nothing else gets there.  `rename` updates neither table and
    nothing is ever removed from them, so both fail with the wrong rename,
    and the second with a file made where one was removed. -/

namespace TokimoFuseAgent

open TokimoMachine TokimoBytes TokimoPath TokimoTable TokimoVfsCore TokimoHost TokimoRefTree

/-! ## Numbers that were handed out -/

/-- The agent over the reference file system, with the numbers it has handed
    out, each with the object it was handed out for. -/
structure Tracked where
  agent : TokimoFuse
  fs : RefFs
  handed : List (Nat × Nat)
  deriving DecidableEq

/-- The object a path names. -/
def objectAt (fs : RefFs) (p : PathBuf) : Option Nat :=
  (locOf p).bind fun l => (fs.tree.get l).map RefObj.id

def handOut (fs : RefFs) (p : PathBuf) (ino : Nat) : List (Nat × Nat) :=
  ((objectAt fs p).map fun id => (ino, id)).toList

/-- What an answer hands out.  The `.` and `..` of a listing are made up by the
    agent. -/
def handedBy (a : TokimoFuse) (fs : RefFs) : FuseRequest → FuseReply → List (Nat × Nat)
  | .lookup parent name, .entry attr =>
      (a.pathFor parent).toList.flatMap fun p => handOut fs (join p name) attr.ino
  | .mkdir parent name _, .entry attr =>
      (a.pathFor parent).toList.flatMap fun p => handOut fs (join p name) attr.ino
  | .create parent name _, .created attr _ =>
      (a.pathFor parent).toList.flatMap fun p => handOut fs (join p name) attr.ino
  | .readdir ino _ _, .directory es =>
      (a.pathFor ino).toList.flatMap fun p => es.flatMap fun e =>
        if e.name = dot ∨ e.name = dotdot then [] else handOut fs (join p e.name) e.ino
  | _, _ => []

/-- Any request, its answer, and what that hands out. -/
def tracked : Machine Tracked FuseRequest (Except Errno FuseReply) where
  step st req :=
    let r := serve refVfs req (st.agent, st.fs)
    some (
      { agent := r.2.1
        fs := r.2.2
        handed := st.handed ++ match r.1 with
          | .ok reply => handedBy st.agent r.2.2 req reply
          | .error _ => [] },
      [r.1])

/-- The root has its number from the start. -/
def Tracked.start (fs : RefFs) : Tracked where
  agent := .start
  fs := fs
  handed := handOut fs .root 1

/-- The location of the path of a number. -/
def numberLoc (a : TokimoFuse) (i : Nat) : Option Loc := (a.pathFor i).bind locOf

/-- A number whose path names an object. -/
structure Names (a : TokimoFuse) (fs : RefFs) (i id : Nat) (l : Loc) (o : RefObj) : Prop where
  path : numberLoc a i = some l
  object : fs.tree.get l = some o
  id : o.id = id

theorem locOf_congr {p q : PathBuf} (h : p.components = q.components) : locOf p = locOf q := by
  rw [locOf, locOf, h]

theorem numberLoc_of_path {a : TokimoFuse} {i : Nat} {p : PathBuf} (hp : a.pathFor i = some p) :
    numberLoc a i = locOf p := by
  rw [numberLoc, hp]
  rfl

theorem path_of_numberLoc {a : TokimoFuse} {i : Nat} {l : Loc} (h : numberLoc a i = some l) :
    ∃ p, a.pathFor i = some p ∧ locOf p = some l :=
  Option.bind_eq_some_iff.mp h

/-- The location of a number stays. -/
theorem Grown.numberLoc {a a' : TokimoFuse} (hg : Grown a a') {i : Nat} {l : Loc}
    (h : numberLoc a i = some l) : numberLoc a' i = some l := by
  obtain ⟨p, hp, hl⟩ := path_of_numberLoc h
  rw [numberLoc_of_path (hg.paths hp), hl]

theorem mem_handOut {fs : RefFs} {p : PathBuf} {ino i id : Nat} (h : (i, id) ∈ handOut fs p ino) :
    i = ino ∧ ∃ l o, locOf p = some l ∧ fs.tree.get l = some o ∧ o.id = id := by
  rw [handOut, objectAt] at h
  cases hl : locOf p with
  | none =>
      rw [hl] at h
      exact nomatch h
  | some l =>
      cases ho : fs.tree.get l with
      | none =>
          rw [hl, Option.bind_some, ho] at h
          exact nomatch h
      | some o =>
          rw [hl, Option.bind_some, ho] at h
          obtain ⟨h1, h2⟩ := Prod.mk.inj (List.mem_singleton.mp h)
          exact ⟨h1, l, o, rfl, ho, h2.symm⟩

/-- A number that was given to a path names what is handed out for it. -/
theorem names_handOut {a : TokimoFuse} {fs : RefFs} {p q : PathBuf} {ino i id : Nat}
    (hq : a.pathFor ino = some q) (hqc : q.components = p.components)
    (h : (i, id) ∈ handOut fs p ino) : ∃ l o, Names a fs i id l o := by
  obtain ⟨rfl, l, o, hl, ho, hid⟩ := mem_handOut h
  exact ⟨l, o, by rw [numberLoc_of_path hq, locOf_congr hqc, hl], ho, hid⟩

/-- **WHAT IS HANDED OUT**: a number, for the object its path names. -/
theorem names_handedBy {a a' : TokimoFuse} {fs fs' : RefFs} (hw : a.Wf) {req : FuseRequest}
    {reply : FuseReply} (h : serve refVfs req (a, fs) = (.ok reply, (a', fs'))) {i id : Nat}
    (hi : (i, id) ∈ handedBy a fs' req reply) : ∃ l o, Names a' fs' i id l o := by
  cases req with
  | lookup parent name =>
      obtain ⟨attr, st₁, h1, h2⟩ := Eff.bind_ok h
      obtain ⟨hr, rfl⟩ := Prod.mk.inj h2
      rw [← Except.ok.inj hr] at hi
      obtain ⟨p, at', s', hp, -, rfl, hst⟩ := lookup_ok h1
      obtain ⟨rfl, rfl⟩ := Prod.mk.inj hst
      obtain ⟨q, hq, hqc⟩ := intern_path hw (join p name)
      rw [handedBy, hp] at hi
      simp only [Option.toList_some, List.flatMap_cons, List.flatMap_nil, List.append_nil] at hi
      exact names_handOut hq hqc hi
  | mkdir parent name mode =>
      obtain ⟨attr, st₁, h1, h2⟩ := Eff.bind_ok h
      obtain ⟨hr, rfl⟩ := Prod.mk.inj h2
      rw [← Except.ok.inj hr] at hi
      obtain ⟨p, at', s', hp, -, rfl, hst⟩ := mkdir_ok h1
      obtain ⟨rfl, rfl⟩ := Prod.mk.inj hst
      obtain ⟨q, hq, hqc⟩ := intern_path hw (join p name)
      rw [handedBy, hp] at hi
      simp only [Option.toList_some, List.flatMap_cons, List.flatMap_nil, List.append_nil] at hi
      exact names_handOut hq hqc hi
  | create parent name mode =>
      obtain ⟨r, st₁, h1, h2⟩ := Eff.bind_ok h
      obtain ⟨hr, rfl⟩ := Prod.mk.inj h2
      rw [← Except.ok.inj hr] at hi
      obtain ⟨p, at', s', hp, -, rfl, hst⟩ := create_ok h1
      obtain ⟨rfl, rfl⟩ := Prod.mk.inj hst
      obtain ⟨q, hq, hqc⟩ := intern_path hw (join p name)
      rw [handedBy, hp] at hi
      simp only [Option.toList_some, List.flatMap_cons, List.flatMap_nil, List.append_nil] at hi
      -- the new handle does not touch the numbers
      have hq' : TokimoFuse.pathFor ((a.intern (join p name)).2.allocFh (join p name)).2
          (a.intern (join p name)).1 = some q := hq
      exact names_handOut hq' hqc hi
  | readdir ino offset room =>
      obtain ⟨es, st₁, h1, h2⟩ := Eff.bind_ok h
      obtain ⟨hr, rfl⟩ := Prod.mk.inj h2
      rw [← Except.ok.inj hr] at hi
      obtain ⟨p, entries, s', hp, -, -, hnum⟩ := readdir_ok hw h1
      rw [handedBy, hp] at hi
      simp only [Option.toList_some, List.flatMap_cons, List.flatMap_nil, List.append_nil] at hi
      obtain ⟨e, he, hi⟩ := List.mem_flatMap.mp hi
      by_cases hdots : e.name = dot ∨ e.name = dotdot
      · rw [if_pos hdots] at hi
        exact nomatch hi
      · rw [if_neg hdots] at hi
        obtain ⟨q, hq, hqc⟩ := hnum e he (fun hd => hdots (Or.inl hd)) (fun hd => hdots (Or.inr hd))
        exact names_handOut hq hqc hi
  | getattr ino => cases reply <;> exact nomatch hi
  | setattr ino size => cases reply <;> exact nomatch hi
  | opendir ino => cases reply <;> exact nomatch hi
  | releasedir fh => cases reply <;> exact nomatch hi
  | open' ino => cases reply <;> exact nomatch hi
  | release fh => cases reply <;> exact nomatch hi
  | read fh offset size => cases reply <;> exact nomatch hi
  | write fh offset data => cases reply <;> exact nomatch hi
  | unlink parent name => cases reply <;> exact nomatch hi
  | rmdir parent name => cases reply <;> exact nomatch hi
  | rename parent name newparent newname => cases reply <;> exact nomatch hi

/-! ## What a request does to the tree -/

/-- The location of an entry, as the agent takes it from its tables. -/
def entryLoc (a : TokimoFuse) (parent : Nat) (name : Bytes) : Option Loc :=
  (a.pathFor parent).bind fun p => locOf (join p name)

/-- A place where something new can be made. -/
def vacant (fs : RefFs) (l : Loc) : Bool := (fs.tree.get l).isNone && parentIsDir fs.tree l

/-- Where a request is going to make a new object. -/
def makes (a : TokimoFuse) (fs : RefFs) : FuseRequest → Option Loc
  | .create parent name _ => (entryLoc a parent name).filter (vacant fs)
  | .mkdir parent name _ => (entryLoc a parent name).filter (vacant fs)
  | _ => none

/-- What a request moves, and where to, if the rename is going to succeed. -/
def moves (a : TokimoFuse) (fs : RefFs) : FuseRequest → Option (Loc × Loc)
  | .rename parent name newparent newname =>
      match entryLoc a parent name, entryLoc a newparent newname with
      | some src, some dst =>
          if src ≠ dst ∧ isErr (renameAt src dst fs).1 = false then some (src, dst) else none
      | _, _ => none
  | _ => none

theorem atEntry_eq {α : Type} (a : TokimoFuse) (fs : RefFs) (parent : Nat) (name : Bytes)
    (f : Loc → VfsM RefFs α) :
    atEntry a fs parent name (atPath · f)
      = match entryLoc a parent name with
        | none => fs
        | some l => (f l fs).2 := by
  rw [atEntry, entryLoc]
  cases a.pathFor parent with
  | none => rfl
  | some p =>
      rw [Option.bind_some]
      simp only [atPath]
      cases locOf (join p name) with
      | none => rfl
      | some l => rfl

/-- Where a request leaves the tree: objects stay where they are, or a new one
    is made, or a subtree is moved. -/
inductive Leaves (a : TokimoFuse) (fs : RefFs) (req : FuseRequest) : RefFs → Prop where
  | stay {fs' : RefFs} : Stays nowhere fs fs' → moves a fs req = none → Leaves a fs req fs'
  | make (l : Loc) (node : RefNode) (mode : Nat) : makes a fs req = some l →
      moves a fs req = none → Leaves a fs req (fs.add l node mode)
  | move (src dst : Loc) : moves a fs req = some (src, dst) → ¬ src <+: dst →
      ¬ dst <+: src → Leaves a fs req { fs with tree := fs.tree.move src dst }

theorem makes_vacant {a : TokimoFuse} {fs : RefFs} {parent : Nat} {name : Bytes} {l : Loc}
    (hl : entryLoc a parent name = some l) (hnone : fs.tree.get l = none)
    (hdir : parentIsDir fs.tree l = true) :
    (entryLoc a parent name).filter (vacant fs) = some l := by
  rw [hl, Option.filter_some, vacant, hnone, hdir]
  rfl

theorem ref_settled : Settled refVfs (Stays nowhere) where
  stat _ := atPath_within _ fun l _ => statAt_within l
  list _ := atPath_within _ fun l _ => listAt_within l
  read _ off len := atPath_within _ fun l _ => readAt_within off len l
  write _ _ _ := atPath_within _ fun l _ => editAt_within _ _ l
  truncate _ _ := atPath_within _ fun l _ => editAt_within _ _ l

theorem rename_leaves (a : TokimoFuse) (fs : RefFs) (parent : Nat) (name : Bytes)
    (newparent : Nat) (newname : Bytes) :
    (serve refVfs (.rename parent name newparent newname) (a, fs)).2.2
      = match entryLoc a parent name, entryLoc a newparent newname with
        | some src, some dst => (renameAt src dst fs).2
        | _, _ => fs := by
  rw [rename_store]
  cases hq : a.pathFor newparent with
  | none =>
      have hdst : entryLoc a newparent newname = none := by rw [entryLoc, hq]; rfl
      rw [hdst]
      cases entryLoc a parent name with
      | none => rfl
      | some src => rfl
  | some q =>
      have hdst : entryLoc a newparent newname = locOf (join q newname) := by
        rw [entryLoc, hq]
        rfl
      have he : atEntry a fs parent name (refVfs.rename · (join q newname)) = _ :=
        atEntry_eq a fs parent name fun src => atPath (join q newname) fun dst => renameAt src dst
      show atEntry a fs parent name (refVfs.rename · (join q newname)) = _
      rw [he, hdst]
      cases entryLoc a parent name with
      | none => rfl
      | some src =>
          simp only [atPath]
          cases locOf (join q newname) with
          | none => rfl
          | some dst => rfl

/-- **ONE REQUEST AND THE TREE.** -/
theorem serve_leaves (a : TokimoFuse) (fs : RefFs) (req : FuseRequest) :
    Leaves a fs req (serve refVfs req (a, fs)).2.2 := by
  cases hreq : req.editsEntries with
  | false =>
      -- the other requests leave the entries where they are
      have h := (serve_within ref_settled hreq (a, fs)).2
      cases req with
      | rename parent name newparent newname => exact nomatch hreq
      | _ => exact .stay h rfl
  | true =>
      cases req with
      | create parent name mode =>
          rw [create_store]
          have he : atEntry a fs parent name (refVfs.create · mode) = _ :=
            atEntry_eq a fs parent name (createAt mode.toNat)
          rw [he]
          cases hl : entryLoc a parent name with
          | none => exact .stay (refl_of _ fs) rfl
          | some l =>
              rcases createAt_cases mode.toNat l fs with h | ⟨hnone, hdir, h⟩
              · exact .stay h rfl
              · show Leaves _ _ _ (createAt mode.toNat l fs).2
                rw [h]
                exact .make l _ _ (makes_vacant hl hnone hdir) rfl
      | mkdir parent name mode =>
          rw [mkdir_store]
          have he : atEntry a fs parent name (refVfs.mkdir · mode) = _ :=
            atEntry_eq a fs parent name (mkdirAt mode.toNat)
          rw [he]
          cases hl : entryLoc a parent name with
          | none => exact .stay (refl_of _ fs) rfl
          | some l =>
              rcases mkdirAt_cases mode.toNat l fs with h | ⟨hnone, hdir, h⟩
              · exact .stay h rfl
              · show Leaves _ _ _ (mkdirAt mode.toNat l fs).2
                rw [h]
                exact .make l _ _ (makes_vacant hl hnone hdir) rfl
      | unlink parent name =>
          rw [unlink_store]
          have he : atEntry a fs parent name refVfs.remove = _ :=
            atEntry_eq a fs parent name removeAt
          rw [he]
          cases entryLoc a parent name with
          | none => exact .stay (refl_of _ fs) rfl
          | some l => exact .stay (removeAt_within l fs) rfl
      | rmdir parent name =>
          rw [rmdir_store]
          have he : atEntry a fs parent name refVfs.rmdir = _ :=
            atEntry_eq a fs parent name rmdirAt
          rw [he]
          cases entryLoc a parent name with
          | none => exact .stay (refl_of _ fs) rfl
          | some l => exact .stay (rmdirAt_within l fs) rfl
      | rename parent name newparent newname =>
          rw [rename_leaves]
          cases hsrc : entryLoc a parent name with
          | none => exact .stay (refl_of _ fs) (by rw [moves, hsrc])
          | some src =>
              cases hdst : entryLoc a newparent newname with
              | none => exact .stay (refl_of _ fs) (by rw [moves, hsrc, hdst])
              | some dst =>
                  show Leaves a fs _ (renameAt src dst fs).2
                  -- a rename onto itself is no move, nor is one that fails
                  have hm : moves a fs (.rename parent name newparent newname)
                      = if src ≠ dst ∧ isErr (renameAt src dst fs).1 = false then some (src, dst)
                        else none := by
                    rw [moves, hsrc, hdst]
                  rcases renameAt_cases src dst fs with
                    ⟨o, -, heq, h⟩ | ⟨o, -, hsd, hds, h⟩ | ⟨e, h⟩
                  · rw [if_neg (fun hc => hc.1 heq)] at hm
                    rw [h]
                    exact .stay (refl_of _ fs) hm
                  · have hne : src ≠ dst := fun heq => hsd (heq ▸ List.prefix_refl src)
                    rw [if_pos ⟨hne, by rw [h]; rfl⟩] at hm
                    rw [h]
                    exact .move src dst hm hsd hds
                  · rw [h] at hm
                    rw [if_neg (fun hc => nomatch hc.2)] at hm
                    rw [h]
                    exact .stay (refl_of _ fs) hm
      | _ => exact nomatch hreq

theorem Leaves.wf {a : TokimoFuse} {fs fs' : RefFs} {req : FuseRequest} (h : Leaves a fs req fs')
    (hw : fs.Wf) : fs'.Wf := by
  cases h with
  | stay hs _ => exact hs.wf hw
  | make l node mode _ _ => exact Table.Identified.insert_new hw l rfl
  | move src dst _ hsd hds => exact Table.Identified.move hw hsd hds

theorem Leaves.next {a : TokimoFuse} {fs fs' : RefFs} {req : FuseRequest}
    (h : Leaves a fs req fs') : fs.nextId ≤ fs'.nextId := by
  cases h with
  | stay hs _ => exact hs.next
  | make l node mode _ _ => exact Nat.le_succ _
  | move src dst _ _ _ => exact Nat.le_refl _

theorem Leaves.moved {a : TokimoFuse} {fs fs' : RefFs} {req : FuseRequest}
    (h : Leaves a fs req fs') {src dst : Loc} (hm : moves a fs req = some (src, dst)) :
    ¬ src <+: dst ∧ ¬ dst <+: src ∧ fs' = { fs with tree := fs.tree.move src dst } := by
  cases h with
  | stay _ hno =>
      rw [hno] at hm
      exact nomatch hm
  | make _ _ _ _ hno =>
      rw [hno] at hm
      exact nomatch hm
  | move src' dst' hm' hsd hds =>
      rw [hm] at hm'
      obtain ⟨rfl, rfl⟩ := Prod.mk.inj (Option.some.inj hm')
      exact ⟨hsd, hds, rfl⟩

/-- **WHERE OBJECTS COME FROM**: what is at a place after a request was there
    before and outside what was moved, or it is new and at the place where the
    request makes something, or it was moved there. -/
theorem Leaves.back {a : TokimoFuse} {fs fs' : RefFs} {req : FuseRequest}
    (h : Leaves a fs req fs') {l : Loc} {o : RefObj} (ho : fs'.tree.get l = some o) :
    (∃ o₀, fs.tree.get l = some o₀ ∧ o₀.id = o.id
        ∧ ∀ src dst, moves a fs req = some (src, dst) → ¬ src <+: l)
      ∨ (makes a fs req = some l ∧ o.id = fs.nextId)
      ∨ ∃ src dst s, moves a fs req = some (src, dst) ∧ l = dst ++ s
        ∧ fs.tree.get (src ++ s) = some o := by
  cases h with
  | stay hs hm =>
      rcases hs.back ho with ⟨o₀, ho₀, hid⟩ | ⟨hno, -⟩
      · refine Or.inl ⟨o₀, ho₀, hid, fun src dst hmv => ?_⟩
        rw [hm] at hmv
        exact nomatch hmv
      · exact absurd hno id
  | make l' node mode hmk hm =>
      have ho' : Table.get (fs.tree.insert l' { id := fs.nextId, node := node, mode := mode }) l
          = some o := ho
      rw [Table.get_insert] at ho'
      by_cases hl : l' = l
      · rw [if_pos hl] at ho'
        refine Or.inr (Or.inl ⟨by rw [hmk, hl], ?_⟩)
        rw [← Option.some.inj ho']
      · rw [if_neg hl] at ho'
        refine Or.inl ⟨o, ho', rfl, fun src dst hmv => ?_⟩
        rw [hm] at hmv
        exact nomatch hmv
  | move src dst hm hsd hds =>
      rcases Table.get_move_back hsd hds ho with ⟨s, hl, h1⟩ | ⟨-, hsrc, h1⟩
      · exact Or.inr (Or.inr ⟨src, dst, s, hm, hl, h1⟩)
      · refine Or.inl ⟨o, h1, rfl, fun src' dst' hmv => ?_⟩
        rw [hm] at hmv
        rw [← (Prod.mk.inj (Option.some.inj hmv)).1]
        exact hsrc

/-! ## Runs -/

/-- What every run keeps: the tables and the tree are in order, and what was
    handed out is about an object there has been, under a number that has the
    path of a location. -/
structure TrackedInv (st : Tracked) : Prop where
  agent : st.agent.Wf
  fs : st.fs.Wf
  known : ∀ x ∈ st.handed, x.2 < st.fs.nextId
    ∧ ∃ l, numberLoc st.agent x.1 = some l

theorem start_inv {fs : RefFs} (hw : fs.Wf) : TrackedInv (.start fs) := by
  refine ⟨start_wf, hw, ?_⟩
  rintro ⟨i, id⟩ hx
  obtain ⟨rfl, l, o, hl, ho, hid⟩ := mem_handOut hx
  exact ⟨by rw [← hid]; exact hw.below ho, l, hl⟩

/-- One step: the tables grow, the tree is left as the request leaves it, and
    what is handed out is named. -/
theorem tracked_step {st st' : Tracked} {req : FuseRequest} {es : List (Except Errno FuseReply)}
    (hi : TrackedInv st) (hs : tracked.step st req = some (st', es)) :
    Grown st.agent st'.agent ∧ Leaves st.agent st.fs req st'.fs
      ∧ (∀ x ∈ st.handed, x ∈ st'.handed)
      ∧ ∀ x ∈ st'.handed, x ∈ st.handed ∨ ∃ l o, Names st'.agent st'.fs x.1 x.2 l o := by
  obtain ⟨rfl, -⟩ := Prod.mk.inj (Option.some.inj hs)
  refine ⟨(serve_grows refVfs req (st.agent, st.fs)).1 hi.agent,
    serve_leaves st.agent st.fs req, fun x hx => List.mem_append_left _ hx, ?_⟩
  rintro ⟨i, id⟩ hx
  rcases List.mem_append.mp hx with hold | hnew
  · exact Or.inl hold
  · cases hr : serve refVfs req (st.agent, st.fs) with
    | mk r st₁ =>
        rw [hr] at hnew
        cases r with
        | error e => exact nomatch hnew
        | ok reply => exact Or.inr (names_handedBy hi.agent hr hnew)

theorem trackedInv_step {st st' : Tracked} {req : FuseRequest}
    {es : List (Except Errno FuseReply)} (hi : TrackedInv st)
    (hs : tracked.step st req = some (st', es)) : TrackedInv st' := by
  obtain ⟨hg, hl, -, hnew⟩ := tracked_step hi hs
  have hfs := hl.wf hi.fs
  refine ⟨hg.wf, hfs, ?_⟩
  intro x hx
  rcases hnew x hx with hold | ⟨l, o, hn⟩
  · obtain ⟨hlt, l, hloc⟩ := hi.known x hold
    exact ⟨Nat.lt_of_lt_of_le hlt hl.next, l, hg.numberLoc hloc⟩
  · exact ⟨by rw [← hn.id]; exact hfs.below hn.object, l, hn.path⟩

/-! ## A number designates its object -/

/-- No object with a number, nor anything above one, is moved. -/
def NothingHandedMoves (st : Tracked) (req : FuseRequest) : Prop :=
  ∀ src dst, moves st.agent st.fs req = some (src, dst) →
    ∀ x ∈ st.handed, ∀ l o, st.fs.tree.get l = some o → o.id = x.2 → ¬ src <+: l

/-- Each number has the current path of the object it was handed out for. -/
def Current (st : Tracked) : Prop :=
  ∀ x ∈ st.handed, ∀ l o, st.fs.tree.get l = some o → o.id = x.2 →
    numberLoc st.agent x.1 = some l

/-- Requests through the number `i` act on the object `o` at `l`. -/
structure Designates (st : Tracked) (i : Nat) (l : Loc) (o : RefObj) : Prop where
  path : ∃ p, st.agent.pathFor i = some p ∧ locOf p = some l
  getattr : getattr refVfs i (st.agent, st.fs) = (.ok (toFuseAttr i o.attr), (st.agent, st.fs))
  setattr : ∀ size, (serve refVfs (.setattr i (some size)) (st.agent, st.fs)).2.2
    = (editAt (resize size.toNat) () l st.fs).2
  open' : ∃ p a', open' i (st.agent, st.fs) = (.ok st.agent.nextFh, (a', st.fs))
    ∧ a'.fhs.get st.agent.nextFh = some p ∧ locOf p = some l
  lookup : ∀ (n : Name) (o' : RefObj), st.fs.tree.get (l ++ [n]) = some o' →
    ∃ ino a', lookup refVfs i n.1 (st.agent, st.fs)
      = (.ok (toFuseAttr ino o'.attr), (a', st.fs))
  create : ∀ (n : Name) (mode : UInt32), (serve refVfs (.create i n.1 mode) (st.agent, st.fs)).2.2
    = (createAt mode.toNat (l ++ [n]) st.fs).2

theorem normals_concat (cs : List Component) :
    ∀ (l : Loc) (n : Name), normals cs = some l →
      normals (cs ++ [.normal n]) = some (l ++ [n]) := by
  induction cs with
  | nil =>
      intro l n h
      rw [← Option.some.inj h]
      rfl
  | cons c cs ih =>
      intro l n h
      cases c with
      | normal m =>
          obtain ⟨l', hl', rfl⟩ := Option.map_eq_some_iff.mp h
          rw [List.cons_append, normals, ih l' n hl']
          rfl
      | rootDir => exact nomatch h
      | curDir => exact nomatch h
      | parentDir => exact nomatch h

theorem locOf_join {p : PathBuf} {l : Loc} (hl : locOf p = some l) (n : Name) :
    locOf (join p n.1) = some (l ++ [n]) := by
  rw [locOf] at hl ⊢
  cases hc : p.components with
  | nil =>
      rw [hc] at hl
      exact nomatch hl
  | cons c cs =>
      rw [hc] at hl
      cases c with
      | rootDir =>
          rw [join, join_name_components (isAbsolute_of_components hc) n, hc]
          exact normals_concat cs l n hl
      | curDir => exact nomatch hl
      | parentDir => exact nomatch hl
      | normal m => exact nomatch hl

/-- **WHAT A RIGHT PATH IS GOOD FOR**: with the path of an object, a number
    acts on that object. -/
theorem designates_of_path {st : Tracked} {i : Nat} {l : Loc} {o : RefObj} {p : PathBuf}
    (hp : st.agent.pathFor i = some p) (hl : locOf p = some l) (ho : st.fs.tree.get l = some o) :
    Designates st i l o := by
  have hstat : refVfs.stat p st.fs = (.ok o.attr, st.fs) := by
    show atPath p statAt st.fs = _
    simp only [atPath, hl, statAt, ho]
  have hcall : call (refVfs.stat p) (st.agent, st.fs) = (.ok o.attr, (st.agent, st.fs)) := by
    rw [call, hstat]
  -- all of it by the path, which the number only stands for
  have hchild : ∀ n : Name, locOf (join p n.1) = some (l ++ [n]) := fun n => locOf_join hl n
  refine ⟨⟨p, hp, hl⟩, ?_, ?_, ?_, ?_, ?_⟩
  · rw [getattr, path_bind, hp]
    exact Eff.bind_of_ok hcall
  · intro size
    rw [serve, Eff.bind_pure_state, setattr, path_bind, hp]
    have hlooks : Eff.Frame Prod.snd (call (refVfs.stat p) >>= fun at' =>
        (pure (toFuseAttr i at') : FuseM RefFs FuseAttr)) := by
      refine Eff.Frame.bind (fun st₁ => ?_) fun _ => Eff.Frame.pure _
      rw [call_store]
      show (atPath p statAt st₁.2).2 = st₁.2
      simp only [atPath, hl, statAt]
      cases st₁.2.tree.get l with
      | none => rfl
      | some o' => rfl
    refine (call_bind_store st.agent st.fs (refVfs.truncate p size) fun _ => hlooks).trans ?_
    show (atPath p (editAt (resize size.toNat) ()) st.fs).2 = _
    simp only [atPath, hl]
  · refine ⟨p, (st.agent.allocFh p).2, ?_, Table.get_insert_self _ _ _, hl⟩
    rw [TokimoFuseAgent.open', path_bind, hp]
    rfl
  · intro n o' ho'
    have hstat' : refVfs.stat (join p n.1) st.fs = (.ok o'.attr, st.fs) := by
      show atPath (join p n.1) statAt st.fs = _
      simp only [atPath, hchild n, statAt, ho']
    have hcall' : call (refVfs.stat (join p n.1)) (st.agent, st.fs)
        = (.ok o'.attr, (st.agent, st.fs)) := by
      rw [call, hstat']
    refine ⟨(st.agent.intern (join p n.1)).1, (st.agent.intern (join p n.1)).2, ?_⟩
    rw [TokimoFuseAgent.lookup, path_bind, hp]
    exact Eff.bind_of_ok hcall'
  · intro n mode
    rw [create_store]
    have he : atEntry st.agent st.fs i n.1 (refVfs.create · mode) = _ :=
      atEntry_eq st.agent st.fs i n.1 (createAt mode.toNat)
    have hentry : entryLoc st.agent i n.1 = some (l ++ [n]) := by
      rw [entryLoc, hp]
      exact hchild n
    rw [he, hentry]

/-- A request that moves nothing with a number keeps the numbers current. -/
theorem current_step {st st' : Tracked} {req : FuseRequest} {es : List (Except Errno FuseReply)}
    (hi : TrackedInv st) (hcur : Current st) (hc : NothingHandedMoves st req)
    (hs : tracked.step st req = some (st', es)) : Current st' := by
  obtain ⟨hg, hl, -, hnew⟩ := tracked_step hi hs
  have hfs := hl.wf hi.fs
  intro x hx l o ho hid
  rcases hnew x hx with hold | ⟨l', o', hn⟩
  · rcases hl.back ho with ⟨o₀, ho₀, hid₀, -⟩ | ⟨-, hnext⟩ | ⟨src, dst, s, hm, -, ho₀⟩
    · exact hg.numberLoc (hcur x hold l o₀ ho₀ (hid₀.trans hid))
    · -- a new object has no number yet
      have hlt := (hi.known x hold).1
      rw [← hid, hnext] at hlt
      exact absurd hlt (Nat.lt_irrefl _)
    · exact absurd (List.prefix_append src s) (hc src dst hm x hold _ o ho₀ hid)
  · rw [hfs.unique ho hn.object (hid.trans hn.id.symm)]
    exact hn.path

/-- A request that moves something with a number leaves that number behind. -/
theorem moving_loses {st st' : Tracked} {req : FuseRequest} {es : List (Except Errno FuseReply)}
    (hi : TrackedInv st) (hcur : Current st) (hs : tracked.step st req = some (st', es))
    (hcur' : Current st') : NothingHandedMoves st req := by
  obtain ⟨hg, hl, hkept, -⟩ := tracked_step hi hs
  rintro src dst hm x hx l o ho hid ⟨s, rfl⟩
  obtain ⟨hsd, hds, hfs⟩ := hl.moved hm
  -- the object is now below the new place, its number still below the old one
  have ho' : st'.fs.tree.get (dst ++ s) = some o := by
    rw [hfs, Table.get_move _ hsd hds, if_pos (List.prefix_append dst s), List.drop_left, ho]
  have hloc := hcur' x (hkept x hx) (dst ++ s) o ho' hid
  rw [hg.numberLoc (hcur x hx _ o ho hid)] at hloc
  have heq := List.append_cancel_right (Option.some.inj hloc)
  exact hsd (heq ▸ List.prefix_refl src)

/-- **NUMBERS DESIGNATE THEIR OBJECTS**: in every run in which nothing with a
    number is moved, each number acts on the object it was handed out for as
    long as that object is linked; and the first request that moves something
    with a number ends this. -/
theorem numbers_designate {fs : RefFs} (hw : fs.Wf) {st : Tracked}
    {tr : List (Except Errno FuseReply)}
    (hr : Run tracked NothingHandedMoves (.start fs) st tr) :
    (∀ x ∈ st.handed, ∀ l o, st.fs.tree.get l = some o → o.id = x.2 → Designates st x.1 l o)
      ∧ ∀ req st' es, tracked.step st req = some (st', es) →
        (Current st' ↔ NothingHandedMoves st req) := by
  have hinv : TrackedInv st ∧ Current st := by
    refine Run.invariant (I := fun st _ => TrackedInv st ∧ Current st) ?_ ?_ hr
    · refine ⟨start_inv hw, ?_⟩
      rintro ⟨i, id⟩ hx l o ho hid
      obtain ⟨rfl, l', o', hl', ho', hid'⟩ := mem_handOut hx
      rw [hw.unique ho ho' (hid.trans hid'.symm)]
      exact hl'
    · rintro st tr req st' es ⟨hi, hcur⟩ hc hs
      exact ⟨trackedInv_step hi hs, current_step hi hcur hc hs⟩
  refine ⟨?_, ?_⟩
  · intro x hx l o ho hid
    obtain ⟨p, hp, hl⟩ := path_of_numberLoc (hinv.2 x hx l o ho hid)
    exact designates_of_path hp hl ho
  · intro req st' es hs
    exact ⟨fun h => moving_loses hinv.1 hinv.2 hs h, fun hc => current_step hinv.1 hinv.2 hc hs⟩

theorem empty_wf : RefFs.empty.Wf := by
  have hroot : ∀ {k : Loc} {o : RefObj}, RefFs.empty.tree.get k = some o →
      k = [] ∧ o.id = 0 := by
    intro k o h
    have h' : (if ([] : Loc) = k then some (RefObj.mk 0 .dir 0o755) else none) = some o := h
    by_cases hk : ([] : Loc) = k
    · rw [if_pos hk] at h'
      exact ⟨hk.symm, by rw [← Option.some.inj h']⟩
    · rw [if_neg hk] at h'
      exact nomatch h'
  refine ⟨fun h => ?_, fun h1 h2 _ => (hroot h1).1.trans (hroot h2).1.symm⟩
  rw [(hroot h).2]
  exact Nat.one_pos

/-- A file is created, gets the number 2, and is renamed: the number keeps the
    old path. -/
theorem renamed_is_lost :
    ∃ st tr, Run tracked always (.start .empty) st tr
      ∧ (2, 1) ∈ st.handed
      ∧ st.fs.tree.get [⟨[98], rfl⟩] = some { id := 1, node := .file [], mode := 0 }
      ∧ numberLoc st.agent 2 = some [⟨[97], rfl⟩] ∧ ¬ Current st := by
  have hx : ((tracked.exec (.start .empty)
      [.create 1 [97] 0, .rename 1 [97] 1 [98]]).map fun r => (decide ((2, 1) ∈ r.1.handed),
        decide (r.1.fs.tree.get [⟨[98], rfl⟩] = some { id := 1, node := .file [], mode := 0 }),
        decide (numberLoc r.1.agent 2 = some [⟨[97], rfl⟩]))) = some (true, true, true) := by
    decide +kernel
  obtain ⟨⟨st, tr⟩, hrun, heq⟩ := Option.map_eq_some_iff.mp hx
  obtain ⟨hmem, heq⟩ := Prod.mk.inj heq
  obtain ⟨hget, hloc⟩ := Prod.mk.inj heq
  have hmem' : (2, 1) ∈ st.handed := of_decide_eq_true hmem
  have hget' := of_decide_eq_true hget
  have hloc' := of_decide_eq_true hloc
  refine ⟨st, tr, run_of_exec_always hrun, hmem', hget', hloc', fun hcur => ?_⟩
  -- what `Current` says of the number contradicts the place it has
  have hcur' := hcur (2, 1) hmem' _ _ hget' rfl
  exact absurd (hcur'.symm.trans hloc') (by decide)

/-- A file is created and written through, and a rename of a name that is not
    there fails: the number still acts on the file. -/
theorem unmoved_is_kept :
    ∃ st tr, Run tracked NothingHandedMoves (.start .empty) st tr
      ∧ (2, 1) ∈ st.handed
      ∧ Designates st 2 [⟨[97], rfl⟩] { id := 1, node := .file [42], mode := 0 } := by
  let ls : List FuseRequest :=
    [.create 1 [97] 0, .write 1 0 [42], .lookup 1 [97], .rename 1 [98] 1 [99]]
  have halong : tracked.Along (fun st req => moves st.agent st.fs req = none)
      (.start .empty) ls := by
    decide +kernel
  have hx : ((tracked.exec (.start .empty) ls).map fun r =>
      (decide ((2, 1) ∈ r.1.handed), r.1.fs.tree.get [⟨[97], rfl⟩]))
      = some (true, some { id := 1, node := .file [42], mode := 0 }) := by
    decide +kernel
  obtain ⟨⟨st, tr⟩, hrun, heq⟩ := Option.map_eq_some_iff.mp hx
  obtain ⟨hmem, hget⟩ := Prod.mk.inj heq
  have hmem' : (2, 1) ∈ st.handed := of_decide_eq_true hmem
  have hr : Run tracked NothingHandedMoves (.start .empty) st tr := by
    refine (run_of_exec ls halong hrun).weaken ?_
    intro st req hnone src dst hm
    rw [hnone] at hm
    exact nomatch hm
  exact ⟨st, tr, hr, hmem', (numbers_designate empty_wf hr).1 (2, 1) hmem' _ _ hget rfl⟩

/-! ## A number is for one object -/

/-- The generation that comes with every entry reply. -/
def generation : Nat := 0

/-- What the kernel tells two objects apart by. -/
def kernelName (i : Nat) : Nat × Nat := (i, generation)

/-- No two objects have been reported under one name. -/
def Unrecycled (st : Tracked) : Prop :=
  ∀ x ∈ st.handed, ∀ y ∈ st.handed, kernelName x.1 = kernelName y.1 → x.2 = y.2

/-- Nothing gets to a place that has the number of something else: nothing new
    is made where a number is, and nothing is moved to the number of another
    object. -/
def NothingTakesOver (st : Tracked) (req : FuseRequest) : Prop :=
  (∀ l, makes st.agent st.fs req = some l →
      ∀ x ∈ st.handed, numberLoc st.agent x.1 ≠ some l)
    ∧ ∀ src dst, moves st.agent st.fs req = some (src, dst) →
      ∀ s o, st.fs.tree.get (src ++ s) = some o →
        ∀ x ∈ st.handed, numberLoc st.agent x.1 = some (dst ++ s) → x.2 = o.id

/-- What is at the place of a number is what it was handed out for. -/
def Sits (st : Tracked) : Prop :=
  ∀ x ∈ st.handed, ∀ l o, numberLoc st.agent x.1 = some l → st.fs.tree.get l = some o →
    o.id = x.2

theorem sits_step {st st' : Tracked} {req : FuseRequest} {es : List (Except Errno FuseReply)}
    (hi : TrackedInv st) (hsits : Sits st) (hc : NothingTakesOver st req)
    (hs : tracked.step st req = some (st', es)) : Sits st' := by
  obtain ⟨hg, hl, -, hnew⟩ := tracked_step hi hs
  intro x hx l o hloc ho
  rcases hnew x hx with hold | ⟨l', o', hn⟩
  · obtain ⟨-, l₀, hl₀⟩ := hi.known x hold
    -- the number has the place it had
    have hsame : l₀ = l := by
      rw [hg.numberLoc hl₀] at hloc
      exact Option.some.inj hloc
    rw [hsame] at hl₀
    rcases hl.back ho with ⟨o₀, ho₀, hid, -⟩ | ⟨hmk, -⟩ | ⟨src, dst, s, hm, rfl, ho₀⟩
    · rw [← hid]
      exact hsits x hold l o₀ hl₀ ho₀
    · exact absurd hl₀ (hc.1 l hmk x hold)
    · exact (hc.2 src dst hm s o ho₀ x hold hl₀).symm
  · rw [hn.path] at hloc
    rw [← Option.some.inj hloc, hn.object] at ho
    rw [← Option.some.inj ho, hn.id]

theorem unrecycled_step {st st' : Tracked} {req : FuseRequest}
    {es : List (Except Errno FuseReply)} (hi : TrackedInv st) (hu : Unrecycled st)
    (hsits' : Sits st') (hs : tracked.step st req = some (st', es)) : Unrecycled st' := by
  obtain ⟨-, -, -, hnew⟩ := tracked_step hi hs
  have hmeets : ∀ x ∈ st'.handed, ∀ (y : Nat × Nat) (l : Loc) (o : RefObj),
      Names st'.agent st'.fs y.1 y.2 l o → x.1 = y.1 → x.2 = y.2 := by
    intro x hx y l o hn hxy
    have hid := hsits' x hx l o (by rw [hxy]; exact hn.path) hn.object
    exact hid.symm.trans hn.id
  intro x hx y hy hxy
  have hino : x.1 = y.1 := (Prod.mk.inj hxy).1
  rcases hnew y hy with hyold | ⟨l, o, hn⟩
  · rcases hnew x hx with hxold | ⟨l, o, hn⟩
    · exact hu x hxold y hyold hxy
    · exact (hmeets y hy x l o hn hino.symm).symm
  · exact hmeets x hx y l o hn hino

/-- **NUMBERS ARE NOT RECYCLED** in any run in which nothing takes over the
    place of something that has a number. -/
theorem numbers_not_recycled {fs : RefFs} (hw : fs.Wf) {st : Tracked}
    {tr : List (Except Errno FuseReply)}
    (hr : Run tracked NothingTakesOver (.start fs) st tr) : Unrecycled st := by
  have hinv : TrackedInv st ∧ Sits st ∧ Unrecycled st := by
    refine Run.invariant (I := fun st _ => TrackedInv st ∧ Sits st ∧ Unrecycled st) ?_ ?_ hr
    · refine ⟨start_inv hw, ?_, ?_⟩
      · rintro ⟨i, id⟩ hx l o hloc ho
        obtain ⟨rfl, l', o', hl', ho', hid'⟩ := mem_handOut hx
        rw [numberLoc_of_path (p := .root) rfl, hl'] at hloc
        have hsame : fs.tree.get l = some o := ho
        rw [← Option.some.inj hloc, ho'] at hsame
        rw [← Option.some.inj hsame]
        exact hid'
      · rintro ⟨i, id⟩ hx ⟨j, id'⟩ hy -
        obtain ⟨-, l, o, hl, ho, hid⟩ := mem_handOut hx
        obtain ⟨-, l', o', hl', ho', hid'⟩ := mem_handOut hy
        rw [hl] at hl'
        rw [← Option.some.inj hl', ho] at ho'
        rw [← Option.some.inj ho'] at hid'
        exact hid.symm.trans hid'
    · rintro st tr req st' es ⟨hi, hsits, hu⟩ hc hs
      have hsits' := sits_step hi hsits hc hs
      exact ⟨trackedInv_step hi hs, hsits', unrecycled_step hi hu hsits' hs⟩
  exact hinv.2.2

/-- A file is created, removed and created again: both objects were reported
    as number 2. -/
theorem number_is_recycled :
    ∃ st tr, Run tracked always (.start .empty) st tr
      ∧ (2, 1) ∈ st.handed ∧ (2, 2) ∈ st.handed ∧ ¬ Unrecycled st := by
  have hx : ((tracked.exec (.start .empty)
      [.create 1 [97] 0, .unlink 1 [97], .create 1 [97] 0]).map fun r => r.1.handed)
      = some [(1, 0), (2, 1), (2, 2)] := by
    decide +kernel
  obtain ⟨⟨st, tr⟩, hrun, heq⟩ := Option.map_eq_some_iff.mp hx
  have heq' : st.handed = _ := heq
  have h1 : (2, 1) ∈ st.handed := by rw [heq']; decide
  have h2 : (2, 2) ∈ st.handed := by rw [heq']; decide
  refine ⟨st, tr, run_of_exec_always hrun, h1, h2, fun hu => ?_⟩
  exact absurd (hu _ h1 _ h2 rfl) (by decide)

/-- A file is created and removed, and another made beside it. -/
theorem number_is_not_recycled :
    ∃ st tr, Run tracked NothingTakesOver (.start .empty) st tr
      ∧ (2, 1) ∈ st.handed ∧ (3, 2) ∈ st.handed ∧ Unrecycled st := by
  let ls : List FuseRequest := [.create 1 [97] 0, .unlink 1 [97], .create 1 [98] 0]
  have halong : tracked.Along (fun st req => moves st.agent st.fs req = none
      ∧ ∀ l ∈ makes st.agent st.fs req, ∀ x ∈ st.handed, numberLoc st.agent x.1 ≠ some l)
      (.start .empty) ls := by
    decide +kernel
  have hx : ((tracked.exec (.start .empty) ls).map fun r => r.1.handed)
      = some [(1, 0), (2, 1), (3, 2)] := by
    decide +kernel
  obtain ⟨⟨st, tr⟩, hrun, heq⟩ := Option.map_eq_some_iff.mp hx
  have heq' : st.handed = _ := heq
  have hr : Run tracked NothingTakesOver (.start .empty) st tr := by
    refine (run_of_exec ls halong hrun).weaken ?_
    rintro st req ⟨hnone, hmk⟩
    refine ⟨hmk, fun src dst hm => ?_⟩
    rw [hnone] at hm
    exact nomatch hm
  exact ⟨st, tr, hr, by rw [heq']; decide, by rw [heq']; decide, numbers_not_recycled empty_wf hr⟩

end TokimoFuseAgent
