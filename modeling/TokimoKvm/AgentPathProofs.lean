import TokimoKvm.FuseNumberingProofs

/-! # The paths an agent keeps

    The kernel names an entry by the number of its directory and a single
    name, and the agent joins the two.  So the paths it keeps are spelled in
    one way only, name after name, and two of them that have the same
    components are the same string. -/

namespace TokimoFuseAgent

open TokimoMachine TokimoBytes TokimoPath TokimoTable TokimoVfsCore

/-- The path that names one after the other make, below the root. -/
def spell (l : Loc) : PathBuf := l.foldl (fun p n => join p n.1) .root

/-- A name more is joined behind. -/
theorem spell_concat (l : Loc) (n : Name) : spell (l ++ [n]) = join (spell l) n.1 := by
  rw [spell, List.foldl_append]
  rfl

/-- Behind an absolute path it stays absolute. -/
theorem join_absolute {p : PathBuf} (ha : p.isAbsolute = true) (n : Name) :
    (join p n.1).isAbsolute = true := by
  have hc : (join p n.1).components = p.components ++ [.normal n] := join_name_components ha n
  have hp : p.components = .rootDir :: p.rest.filterMap Seg.component := by
    rw [PathBuf.components, if_pos ha]
  rw [hp, List.cons_append] at hc
  exact isAbsolute_of_components hc

/-- The path says the names again. -/
theorem spell_components (l : Loc) :
    (spell l).components = .rootDir :: l.map Component.normal := by
  have hall : ∀ (l : Loc) (p : PathBuf), p.isAbsolute = true →
      (l.foldl (fun p n => join p n.1) p).components = p.components ++ l.map .normal := by
    intro l
    induction l with
    | nil =>
        intro p _
        rw [List.map_nil, List.append_nil]
        rfl
    | cons n l ih =>
        intro p ha
        rw [List.foldl_cons, ih _ (join_absolute ha n), join, join_name_components ha n,
          List.append_assoc, List.map_cons]
        rfl
  exact hall l .root rfl

/-- A path that is spelled has no other spelling. -/
theorem spell_inj {l l' : Loc} (h : (spell l).components = (spell l').components) : l = l' := by
  rw [spell_components, spell_components] at h
  exact (List.map_inj_right fun _ _ hnm => Component.normal.inj hnm).mp (List.cons.inj h).2

/-- Every number stands for a path that is spelled. -/
def Spelled (a : TokimoFuse) : Prop :=
  ∀ (i : Nat) (p : PathBuf), a.pathFor i = some p → ∃ l, p = spell l

/-- The agent starts with nothing but the root. -/
theorem start_spelled : Spelled .start := by
  intro i p h
  rw [TokimoFuse.pathFor] at h
  by_cases hi : i = 1
  · rw [if_pos hi] at h
    exact ⟨[], (Option.some.inj h).symm⟩
  · rw [if_neg hi] at h
    cases h

/-- A number is given to a path that is spelled. -/
theorem intern_spelled {a : TokimoFuse} (h : Spelled a) (l : Loc) :
    Spelled (a.intern (spell l)).2 := by
  intro i p hp
  rcases intern_cases a (spell l) with ⟨-, hi⟩ | ⟨k, -, hi⟩ | ⟨-, hi⟩
  · rw [hi] at hp
    exact h i p hp
  · rw [hi] at hp
    exact h i p hp
  · rw [hi, TokimoFuse.pathFor] at hp
    by_cases hone : i = 1
    · rw [if_pos hone] at hp
      exact ⟨[], (Option.some.inj hp).symm⟩
    · rw [if_neg hone] at hp
      have hget : Table.get (a.inodes.insert a.nextIno (spell l)) i = some p := hp
      rw [Table.get_insert] at hget
      by_cases hn : a.nextIno = i
      · rw [if_pos hn] at hget
        exact ⟨l, (Option.some.inj hget).symm⟩
      · rw [if_neg hn] at hget
        exact h i p ((pathFor_inode hone).trans hget)

/-- The number a path gets stands for that very string. -/
theorem intern_pathFor {a : TokimoFuse} (hw : a.Wf) (h : Spelled a) (l : Loc) :
    (a.intern (spell l)).2.pathFor (a.intern (spell l)).1 = some (spell l) := by
  obtain ⟨q, hq, hc⟩ := intern_path hw (spell l)
  obtain ⟨l', rfl⟩ := intern_spelled h l _ q hq
  rw [hq, spell_inj hc]

/-! ## What requests keep -/

/-- The names in a request. -/
def FuseRequest.names : FuseRequest → List Bytes
  | .lookup _ name => [name]
  | .create _ name _ => [name]
  | .mkdir _ name _ => [name]
  | .unlink _ name => [name]
  | .rmdir _ name => [name]
  | .rename _ name _ newname => [name, newname]
  | _ => []

/-- The kernel sends single names, neither empty nor dots. -/
def FuseRequest.Proper (req : FuseRequest) : Prop := ∀ n ∈ req.names, ordinary n = true

instance (req : FuseRequest) : Decidable req.Proper :=
  inferInstanceAs (Decidable (∀ n ∈ req.names, ordinary n = true))

section Requests

variable {σ α β : Type} {vfs : TokimoVfs σ}

/-- A file system that lists names, and dots at most. -/
def ListsNames (vfs : TokimoVfs σ) : Prop :=
  ∀ {p : PathBuf} {s s' : σ} {entries : List DirEntry}, vfs.list p s = (.ok entries, s') →
    ∀ e ∈ entries, e.name = dot ∨ e.name = dotdot ∨ ordinary e.name = true

/-- A computation that leaves the paths spelled. -/
abbrev KeepsSpelled (Q : α → Prop) (x : FuseM σ α) : Prop :=
  Eff.Keeps (fun st => Spelled st.1) Q x

/-- What leaves the tables alone keeps them. -/
theorem KeepsSpelled.of_looks {x : FuseM σ α} (h : Looks x) : KeepsSpelled (fun _ => True) x :=
  Eff.Frame.keeps (J := Spelled) h

/-- The path behind a number is spelled. -/
theorem path_spelled (ino : Nat) :
    KeepsSpelled (fun p => ∃ l, p = spell l) (path ino : FuseM σ PathBuf) := by
  intro st hst
  rw [path]
  cases hp : st.1.pathFor ino with
  | none => exact ⟨hst, fun p h => by cases h⟩
  | some q =>
      refine ⟨hst, fun p h => ?_⟩
      rw [← Except.ok.inj h]
      exact hst ino q hp

/-- Numbering the path of a name in a directory. -/
theorem join_spelled {p : PathBuf} (hp : ∃ l, p = spell l) {name : Bytes}
    (hn : ordinary name = true) :
    KeepsSpelled (fun _ => True) (update (·.intern (join p name)) : FuseM σ Nat) := by
  obtain ⟨l, rfl⟩ := hp
  intro st hst
  refine ⟨?_, fun _ _ => True.intro⟩
  have h := intern_spelled hst (l ++ [⟨name, hn⟩])
  rw [spell_concat] at h
  exact h

/-- The number of an entry is given to a spelled path. -/
theorem entryIno_spelled (ino : Nat) {p : PathBuf} (hp : ∃ l, p = spell l) {name : Bytes}
    (hn : name = dot ∨ name = dotdot ∨ ordinary name = true) :
    KeepsSpelled (fun _ => True) (entryIno ino p name : FuseM σ Nat) := by
  rw [entryIno]
  by_cases h1 : name = dot
  · rw [if_pos h1]
    exact Eff.Keeps.pure True.intro
  · rw [if_neg h1]
    by_cases h2 : name = dotdot
    · rw [if_pos h2]
      exact Eff.Keeps.pure True.intro
    · rw [if_neg h2]
      rcases hn with h | h | h
      · exact absurd h h1
      · exact absurd h h2
      · exact join_spelled hp h

/-- So are those of a page. -/
theorem addEntries_spelled (ino : Nat) {p : PathBuf} (hp : ∃ l, p = spell l) :
    ∀ (list : List ((FileType × Bytes) × Nat)),
      (∀ e ∈ list, e.1.2 = dot ∨ e.1.2 = dotdot ∨ ordinary e.1.2 = true) → ∀ room : Nat,
      KeepsSpelled (fun _ => True) (addEntries ino p room list : FuseM σ (List DirReply)) := by
  intro list
  induction list with
  | nil =>
      intro _ room
      rw [addEntries]
      exact Eff.Keeps.pure True.intro
  | cons e list ih =>
      obtain ⟨⟨kind, name⟩, i⟩ := e
      intro hall room
      have hone := entryIno_spelled (σ := σ) ino hp (hall ((kind, name), i) (List.mem_cons_self ..))
      have hrest := ih fun e he => hall e (List.mem_cons_of_mem _ he)
      cases room with
      | zero => exact Eff.Keeps.bind hone fun _ _ => Eff.Keeps.pure True.intro
      | succ room =>
          exact Eff.Keeps.bind hone fun _ _ =>
            Eff.Keeps.bind (hrest room) fun _ _ => Eff.Keeps.pure True.intro

/-- What is listed are names, also with the two dots in front. -/
theorem withDots_names {entries : List DirEntry}
    (h : ∀ e ∈ entries, e.name = dot ∨ e.name = dotdot ∨ ordinary e.name = true) (k : Nat) :
    ∀ e ∈ (withDots entries).zipIdx.drop k,
      e.1.2 = dot ∨ e.1.2 = dotdot ∨ ordinary e.1.2 = true := by
  intro e he
  have hmem : e.1 ∈ withDots entries := by
    obtain ⟨x, i⟩ := e
    exact List.fst_mem_of_mem_zipIdx (List.mem_of_mem_drop he)
  rw [withDots] at hmem
  rcases List.mem_cons.mp hmem with heq | hmem
  · rw [heq]
    exact Or.inl rfl
  · rcases List.mem_cons.mp hmem with heq | hmem
    · rw [heq]
      exact Or.inr (Or.inl rfl)
    · obtain ⟨d, hd, heq⟩ := List.mem_map.mp hmem
      rw [← heq]
      exact h d hd

/-- The call of a listing, with what is known about its names. -/
theorem list_spelled (hlist : ListsNames vfs) (p : PathBuf) :
    KeepsSpelled
      (fun es => ∀ e ∈ es, e.name = dot ∨ e.name = dotdot ∨ ordinary e.name = true)
      (call (vfs.list p)) := by
  intro st hst
  have hlooks : (call (vfs.list p) st).2.1 = st.1 := call_looks (vfs.list p) st
  refine ⟨?_, fun es hes => ?_⟩
  · show Spelled (call (vfs.list p) st).2.1
    rw [hlooks]
    exact hst
  · obtain ⟨s', hs, -⟩ := call_ok (Prod.ext hes rfl : call (vfs.list p) st = (.ok es, _))
    exact hlist hs

/-- **THE PATHS STAY SPELLED**, whatever is asked with single names. -/
theorem serve_spelled (hlist : ListsNames vfs) {req : FuseRequest} (hreq : req.Proper) :
    KeepsSpelled (fun _ => True) (serve vfs req) := by
  have hanswer : ∀ {α : Type} {x : FuseM σ α} (f : α → FuseReply),
      KeepsSpelled (fun _ => True) x →
      KeepsSpelled (fun _ => True) (x >>= fun v => pure (f v)) :=
    fun f hx => Eff.Keeps.bind hx fun _ _ => Eff.Keeps.pure True.intro
  have hcall : ∀ {α : Type} (x : VfsM σ α), KeepsSpelled (fun _ => True) (call x) :=
    fun x => KeepsSpelled.of_looks (call_looks x)
  have hopen : ∀ ino, KeepsSpelled (fun _ => True)
      (path ino >>= fun p => (update (·.allocFh p) : FuseM σ Nat)) := by
    intro ino
    refine Eff.Keeps.bind (path_spelled ino) fun p _ st hst => ⟨?_, fun _ _ => True.intro⟩
    -- the table of handles is another one
    exact hst
  have hclose : ∀ fh, KeepsSpelled (fun _ => True)
      (update (fun a => ((), a.dropFh fh)) : FuseM σ Unit) :=
    fun fh st hst => ⟨hst, fun _ _ => True.intro⟩
  cases req with
  | lookup parent name =>
      have hn : ordinary name = true := hreq name (List.mem_cons_self ..)
      refine hanswer _ (Eff.Keeps.bind (path_spelled parent) fun p hp => ?_)
      exact Eff.Keeps.bind (hcall _) fun _ _ =>
        Eff.Keeps.bind (join_spelled hp hn) fun _ _ => Eff.Keeps.pure True.intro
  | getattr ino =>
      refine hanswer _ (Eff.Keeps.bind (path_spelled ino) fun p _ => ?_)
      exact Eff.Keeps.bind (hcall _) fun _ _ => Eff.Keeps.pure True.intro
  | setattr ino size => exact hanswer _ (KeepsSpelled.of_looks (setattr_looks vfs ino size))
  | opendir ino => exact hanswer _ (hopen ino)
  | releasedir fh => exact hanswer (fun _ => .ok) (hclose fh)
  | readdir ino offset room =>
      refine hanswer _ (Eff.Keeps.bind (path_spelled ino) fun p hp => ?_)
      exact Eff.Keeps.bind (list_spelled hlist p) fun es hes =>
        addEntries_spelled ino hp _ (withDots_names hes _) room
  | open' ino => exact hanswer _ (hopen ino)
  | release fh => exact hanswer (fun _ => .ok) (hclose fh)
  | read fh offset size =>
      exact hanswer _ (KeepsSpelled.of_looks
        (Eff.Frame.bind (handlePath_looks fh) fun _ => call_looks _))
  | write fh offset data =>
      exact hanswer _ (KeepsSpelled.of_looks
        (Eff.Frame.bind (handlePath_looks fh) fun _ => call_looks _))
  | create parent name mode =>
      have hn : ordinary name = true := hreq name (List.mem_cons_self ..)
      refine hanswer (fun r : FuseAttr × Nat => .created r.1 r.2)
        (Eff.Keeps.bind (path_spelled parent) fun p hp => ?_)
      refine Eff.Keeps.bind (hcall _) fun _ _ => Eff.Keeps.bind (join_spelled hp hn) fun _ _ => ?_
      exact Eff.Keeps.bind (P := fun _ => True) (fun st hst => ⟨hst, fun _ _ => True.intro⟩)
        fun _ _ => Eff.Keeps.pure True.intro
  | mkdir parent name mode =>
      have hn : ordinary name = true := hreq name (List.mem_cons_self ..)
      refine hanswer _ (Eff.Keeps.bind (path_spelled parent) fun p hp => ?_)
      exact Eff.Keeps.bind (hcall _) fun _ _ =>
        Eff.Keeps.bind (join_spelled hp hn) fun _ _ => Eff.Keeps.pure True.intro
  | unlink parent name =>
      exact hanswer (fun _ => .ok) (KeepsSpelled.of_looks
        (Eff.Frame.bind (path_looks parent) fun _ => call_looks _))
  | rmdir parent name =>
      exact hanswer (fun _ => .ok) (KeepsSpelled.of_looks
        (Eff.Frame.bind (path_looks parent) fun _ => call_looks _))
  | rename parent name newparent newname =>
      exact hanswer (fun _ => .ok) (KeepsSpelled.of_looks
        (Eff.Frame.bind (path_looks parent) fun _ =>
          Eff.Frame.bind (path_looks newparent) fun _ => call_looks _))

/-- The agents a mount comes to: it is asked with single names, and from one
    request to the next the file system may change in any way. -/
inductive Reached (vfs : TokimoVfs σ) : TokimoFuse → Prop where
  | start : Reached vfs .start
  | step {a : TokimoFuse} (s : σ) (req : FuseRequest) : Reached vfs a → req.Proper →
      Reached vfs (serve vfs req (a, s)).2.1

/-- The agents a mount comes to have their tables in order. -/
theorem Reached.wf {a : TokimoFuse} (h : Reached vfs a) : a.Wf := by
  induction h with
  | start => exact start_wf
  | step s req _ _ ih => exact ((serve_grows vfs req (_, s)).1 ih).wf

/-- Over a file system that lists names they hold spelled paths. -/
theorem Reached.spelled (hlist : ListsNames vfs) {a : TokimoFuse} (h : Reached vfs a) :
    Spelled a := by
  induction h with
  | start => exact start_spelled
  | step s req _ hreq ih => exact (serve_spelled hlist hreq (_, s) ih).1

end Requests

end TokimoFuseAgent
