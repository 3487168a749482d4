import TokimoKvm.FuseAgent

/-! # The agent's tables — what a request does to them

    Whatever is asked, the tables only grow: a number keeps its path and a
    handle never gets another one.  Nothing else about the agent is needed to
    follow a request; the rest of it is calls of the file system, so a
    relation that each of these stays within, each request stays within. -/

namespace TokimoFuseAgent

open TokimoMachine TokimoBytes TokimoPath TokimoTable TokimoVfsCore

/-- Numbers and handles in use were given out, and a path is found under the
    number it was given. -/
structure TokimoFuse.Wf (a : TokimoFuse) : Prop where
  first : 1 < a.nextIno
  issued : ∀ {i : Nat} {p : PathBuf}, a.inodes.get i = some p → i < a.nextIno
  named : ∀ {c : List Component} {i : Nat}, a.rev.get c = some i →
    1 < i ∧ ∃ p, a.inodes.get i = some p ∧ p.components = c
  handles : ∀ {f : Nat} {p : PathBuf}, a.fhs.get f = some p → f < a.nextFh

/-- The tables an agent starts with are in order. -/
theorem start_wf : TokimoFuse.start.Wf where
  first := by decide
  issued := fun h => nomatch h
  named := fun h => nomatch h
  handles := fun h => nomatch h

/-- Numbers keep their paths; a handle that was given out before has its own
    path or none. -/
structure Grown (a a' : TokimoFuse) : Prop where
  wf : a'.Wf
  paths : ∀ {i : Nat} {p : PathBuf}, a.pathFor i = some p → a'.pathFor i = some p
  fresh : a.nextFh ≤ a'.nextFh
  handles : ∀ {f : Nat} {p : PathBuf}, f < a.nextFh → a'.fhs.get f = some p →
    a.fhs.get f = some p

/-- Tables in order go on as tables in order that have grown. -/
def Grows (a a' : TokimoFuse) : Prop := a.Wf → Grown a a'

instance : IsPreorder TokimoFuse Grows where
  refl := fun _ hw => ⟨hw, fun h => h, Nat.le_refl _, fun _ h => h⟩
  trans := by
    intro a b c hab hbc hw
    have h1 := hab hw
    have h2 := hbc h1.wf
    refine ⟨h2.wf, fun h => h2.paths (h1.paths h), Nat.le_trans h1.fresh h2.fresh, ?_⟩
    intro f p hf h
    exact h1.handles hf (h2.handles (Nat.lt_of_lt_of_le hf h1.fresh) h)

/-- Every number but the root's is looked up in the table. -/
theorem pathFor_inode {a : TokimoFuse} {i : Nat} (h : i ≠ 1) : a.pathFor i = a.inodes.get i := by
  rw [TokimoFuse.pathFor, if_neg h]

/-- What `intern` does with a path: the root has number 1, a path that is
    known its number, and any other gets the next number. -/
theorem intern_cases (a : TokimoFuse) (p : PathBuf) :
    (p.components = PathBuf.root.components ∧ a.intern p = (1, a))
      ∨ (∃ i, a.rev.get p.components = some i ∧ a.intern p = (i, a))
      ∨ (a.rev.get p.components = none ∧ a.intern p = (a.nextIno, { a with
          nextIno := a.nextIno + 1
          inodes := a.inodes.insert a.nextIno p
          rev := a.rev.insert p.components a.nextIno })) := by
  rw [TokimoFuse.intern]
  by_cases hroot : p.components = PathBuf.root.components
  · rw [if_pos hroot]
    exact Or.inl ⟨hroot, rfl⟩
  · rw [if_neg hroot]
    cases hr : a.rev.get p.components with
    | some i => exact Or.inr (Or.inl ⟨i, rfl, rfl⟩)
    | none => exact Or.inr (Or.inr ⟨rfl, rfl⟩)

/-- Giving a path a number adds to the tables, if anything. -/
theorem intern_grows (p : PathBuf) (a : TokimoFuse) : Grows a (a.intern p).2 := by
  intro hw
  rcases intern_cases a p with ⟨-, h⟩ | ⟨i, -, h⟩ | ⟨hnew, h⟩
  · rw [h]
    exact refl_of Grows a hw
  · rw [h]
    exact refl_of Grows a hw
  · rw [h]
    refine ⟨⟨Nat.lt_succ_of_lt hw.first, ?_, ?_, hw.handles⟩, ?_, Nat.le_refl _, fun _ h => h⟩
    · intro i q hq
      rw [Table.get_insert] at hq
      by_cases hi : a.nextIno = i
      · rw [← hi]
        exact Nat.lt_succ_self _
      · rw [if_neg hi] at hq
        exact Nat.lt_succ_of_lt (hw.issued hq)
    · intro c i hc
      rw [Table.get_insert] at hc
      by_cases hi : p.components = c
      · rw [if_pos hi] at hc
        rw [← Option.some.inj hc]
        exact ⟨hw.first, p, Table.get_insert_self _ _ _, hi⟩
      · rw [if_neg hi] at hc
        obtain ⟨h1, q, hq, hqc⟩ := hw.named hc
        refine ⟨h1, q, ?_, hqc⟩
        -- an older number is below the new one
        rw [Table.get_insert_ne _ _ (Nat.ne_of_gt (hw.issued hq)), hq]
    · intro i q hq
      rw [TokimoFuse.pathFor] at hq ⊢
      by_cases h1 : i = 1
      · rw [if_pos h1] at hq ⊢
        exact hq
      · rw [if_neg h1] at hq ⊢
        rw [Table.get_insert_ne _ _ (Nat.ne_of_gt (hw.issued hq)), hq]

/-- **WHAT A NUMBER STANDS FOR**: the number `intern` returns has the path it
    was asked for, up to how the path is written. -/
theorem intern_path {a : TokimoFuse} (hw : a.Wf) (p : PathBuf) :
    ∃ q, (a.intern p).2.pathFor (a.intern p).1 = some q ∧ q.components = p.components := by
  rcases intern_cases a p with ⟨hroot, h⟩ | ⟨i, hi, h⟩ | ⟨-, h⟩
  · rw [h]
    exact ⟨PathBuf.root, rfl, hroot.symm⟩
  · rw [h]
    obtain ⟨h1, q, hq, hqc⟩ := hw.named hi
    exact ⟨q, by rw [pathFor_inode (Nat.ne_of_gt h1), hq], hqc⟩
  · rw [h]
    refine ⟨p, ?_, rfl⟩
    rw [pathFor_inode (Nat.ne_of_gt hw.first)]
    exact Table.get_insert_self _ _ _

/-- So does a new handle. -/
theorem allocFh_grows (p : PathBuf) (a : TokimoFuse) : Grows a (a.allocFh p).2 := by
  intro hw
  refine ⟨⟨hw.first, hw.issued, hw.named, ?_⟩, fun h => h, Nat.le_succ _, ?_⟩
  · intro f q hf
    have hf' : Table.get (a.fhs.insert a.nextFh p) f = some q := hf
    rw [Table.get_insert] at hf'
    by_cases hn : a.nextFh = f
    · rw [← hn]
      exact Nat.lt_succ_self _
    · rw [if_neg hn] at hf'
      exact Nat.lt_succ_of_lt (hw.handles hf')
  · intro f q hlt hf
    have hf' : Table.get (a.fhs.insert a.nextFh p) f = some q := hf
    rw [Table.get_insert_ne _ _ (Nat.ne_of_gt hlt)] at hf'
    exact hf'

/-- Releasing a handle takes no other one away. -/
theorem dropFh_grows (fh : Nat) (a : TokimoFuse) : Grows a (a.dropFh fh) := by
  have hget : ∀ {f : Nat} {q : PathBuf}, (a.dropFh fh).fhs.get f = some q →
      a.fhs.get f = some q := by
    intro f q hf
    have hf' : Table.get (a.fhs.erase fh) f = some q := hf
    rw [Table.get_erase] at hf'
    by_cases hn : fh = f
    · rw [if_pos hn] at hf'
      exact nomatch hf'
    · rw [if_neg hn] at hf'
      exact hf'
  intro hw
  exact ⟨⟨hw.first, hw.issued, hw.named, fun hf => hw.handles (hget hf)⟩, fun h => h,
    Nat.le_refl _, fun _ hf => hget hf⟩

/-! ## Requests within a relation -/

variable {σ α : Type} (Q : σ → σ → Prop)

/-- The agent grows, and the file system goes where `Q` says. -/
def Both (st st' : TokimoFuse × σ) : Prop := Grows st.1 st'.1 ∧ Q st.2 st'.2

instance [IsPreorder σ Q] : IsPreorder (TokimoFuse × σ) (Both Q) where
  refl := fun st => ⟨refl_of Grows st.1, refl_of Q st.2⟩
  trans := fun _ _ _ h1 h2 => ⟨trans_of Grows h1.1 h2.1, trans_of Q h1.2 h2.2⟩

variable {Q}

/-- A call of the file system leaves the tables alone. -/
theorem call_within {x : VfsM σ α} (hx : Eff.Within Q x) :
    Eff.Within (Both Q) (call x) := by
  intro st
  have h := hx st.2
  rw [call]
  cases hs : x st.2 with
  | mk r s =>
      rw [hs] at h
      cases r with
      | ok v => exact ⟨refl_of Grows st.1, h⟩
      | error e => exact ⟨refl_of Grows st.1, h⟩

variable [IsPreorder σ Q]

/-- Looking a number up changes nothing. -/
theorem path_within (ino : Nat) : Eff.Within (Both Q) (path ino) := by
  intro st
  rw [path]
  cases st.1.pathFor ino with
  | some p => exact refl_of (Both Q) st
  | none => exact refl_of (Both Q) st

/-- Nor does looking a handle up. -/
theorem handlePath_within (fh : Nat) : Eff.Within (Both Q) (handlePath fh) := by
  intro st
  rw [handlePath]
  cases st.1.fhs.get fh with
  | some p => exact refl_of (Both Q) st
  | none => exact refl_of (Both Q) st

/-- A change of the tables alone leaves the file system alone. -/
theorem update_within {f : TokimoFuse → α × TokimoFuse} (h : ∀ a, Grows a (f a).2) :
    Eff.Within (Both Q) (update f) :=
  fun st => ⟨h st.1, refl_of Q st.2⟩

/-- The number of an entry of a listing may be a new one. -/
theorem entryIno_within (ino : Nat) (p : PathBuf) (name : Bytes) :
    Eff.Within (Both Q) (entryIno ino p name) := by
  rw [entryIno]
  by_cases h1 : name = dot
  · rw [if_pos h1]
    exact Eff.Within.pure _
  · rw [if_neg h1]
    by_cases h2 : name = dotdot
    · rw [if_pos h2]
      exact Eff.Within.pure _
    · rw [if_neg h2]
      exact update_within (intern_grows _)

/-- A page of a listing numbers its entries one by one. -/
theorem addEntries_within (ino : Nat) (p : PathBuf) :
    ∀ (list : List ((FileType × Bytes) × Nat)) (room : Nat),
      Eff.Within (Both Q) (addEntries ino p room list) := by
  intro list
  induction list with
  | nil =>
      intro room
      rw [addEntries]
      exact Eff.Within.pure _
  | cons e list ih =>
      obtain ⟨⟨kind, name⟩, i⟩ := e
      intro room
      cases room with
      | zero => exact Eff.Within.bind (entryIno_within ino p name) fun _ => Eff.Within.pure _
      | succ room =>
          exact Eff.Within.bind (entryIno_within ino p name) fun _ =>
            Eff.Within.bind (ih room) fun _ => Eff.Within.pure _

/-- The calls of a file system that neither make, remove nor move anything
    stay within a relation. -/
structure Settled (vfs : TokimoVfs σ) (Q : σ → σ → Prop) : Prop where
  stat : ∀ p, Eff.Within Q (vfs.stat p)
  list : ∀ p, Eff.Within Q (vfs.list p)
  read : ∀ p off len, Eff.Within Q (vfs.read p off len)
  write : ∀ p off data, Eff.Within Q (vfs.write p off data)
  truncate : ∀ p size, Eff.Within Q (vfs.truncate p size)

/-- The requests that make, remove or move an entry. -/
def FuseRequest.editsEntries : FuseRequest → Bool
  | .create .. => true
  | .mkdir .. => true
  | .unlink .. => true
  | .rmdir .. => true
  | .rename .. => true
  | _ => false

/-- A `create` stays within what the file system's `create` stays within. -/
theorem create_within {vfs : TokimoVfs σ} (h : ∀ p mode, Eff.Within Q (vfs.create p mode))
    (parent : Nat) (name : Bytes) (mode : UInt32) :
    Eff.Within (Both Q) (create vfs parent name mode) :=
  Eff.Within.bind (path_within parent) fun _ =>
    Eff.Within.bind (call_within (h _ _)) fun _ =>
      Eff.Within.bind (update_within (intern_grows _)) fun _ =>
        Eff.Within.bind (update_within (allocFh_grows _)) fun _ => Eff.Within.pure _

/-- The same of a `mkdir`. -/
theorem mkdir_within {vfs : TokimoVfs σ} (h : ∀ p mode, Eff.Within Q (vfs.mkdir p mode))
    (parent : Nat) (name : Bytes) (mode : UInt32) :
    Eff.Within (Both Q) (mkdir vfs parent name mode) :=
  Eff.Within.bind (path_within parent) fun _ =>
    Eff.Within.bind (call_within (h _ _)) fun _ =>
      Eff.Within.bind (update_within (intern_grows _)) fun _ => Eff.Within.pure _

/-- The same of an `unlink`. -/
theorem unlink_within {vfs : TokimoVfs σ} (h : ∀ p, Eff.Within Q (vfs.remove p))
    (parent : Nat) (name : Bytes) : Eff.Within (Both Q) (unlink vfs parent name) :=
  Eff.Within.bind (path_within parent) fun _ => call_within (h _)

/-- The same of an `rmdir`. -/
theorem rmdir_within {vfs : TokimoVfs σ} (h : ∀ p, Eff.Within Q (vfs.rmdir p))
    (parent : Nat) (name : Bytes) : Eff.Within (Both Q) (rmdir vfs parent name) :=
  Eff.Within.bind (path_within parent) fun _ => call_within (h _)

/-- The same of a `rename`. -/
theorem rename_within {vfs : TokimoVfs σ} (h : ∀ p q, Eff.Within Q (vfs.rename p q))
    (parent : Nat) (name : Bytes) (newparent : Nat) (newname : Bytes) :
    Eff.Within (Both Q) (rename vfs parent name newparent newname) :=
  Eff.Within.bind (path_within parent) fun _ =>
    Eff.Within.bind (path_within newparent) fun _ => call_within (h _ _)

/-- **A REQUEST IS ITS CALLS**: one that edits no entry stays within what its
    calls stay within. -/
theorem serve_within {vfs : TokimoVfs σ} (h : Settled vfs Q) {req : FuseRequest}
    (hreq : req.editsEntries = false) : Eff.Within (Both Q) (serve vfs req) := by
  cases req with
  | lookup parent name =>
      refine Eff.Within.bind ?_ fun _ => Eff.Within.pure _
      exact Eff.Within.bind (path_within parent) fun _ =>
        Eff.Within.bind (call_within (h.stat _)) fun _ =>
          Eff.Within.bind (update_within (intern_grows _)) fun _ => Eff.Within.pure _
  | getattr ino =>
      refine Eff.Within.bind ?_ fun _ => Eff.Within.pure _
      exact Eff.Within.bind (path_within ino) fun _ =>
        Eff.Within.bind (call_within (h.stat _)) fun _ => Eff.Within.pure _
  | setattr ino size =>
      refine Eff.Within.bind ?_ fun _ => Eff.Within.pure _
      refine Eff.Within.bind (path_within ino) fun p => ?_
      cases size with
      | some sz =>
          exact Eff.Within.bind (call_within (h.truncate p sz)) fun _ =>
            Eff.Within.bind (call_within (h.stat p)) fun _ => Eff.Within.pure _
      | none => exact Eff.Within.bind (call_within (h.stat p)) fun _ => Eff.Within.pure _
  | opendir ino =>
      refine Eff.Within.bind ?_ fun _ => Eff.Within.pure _
      exact Eff.Within.bind (path_within ino) fun _ => update_within (allocFh_grows _)
  | releasedir fh =>
      exact Eff.Within.bind (update_within (dropFh_grows fh)) fun _ => Eff.Within.pure _
  | readdir ino offset room =>
      refine Eff.Within.bind ?_ fun _ => Eff.Within.pure _
      exact Eff.Within.bind (path_within ino) fun p =>
        Eff.Within.bind (call_within (h.list p)) fun _ => addEntries_within ino p _ room
  | open' ino =>
      refine Eff.Within.bind ?_ fun _ => Eff.Within.pure _
      exact Eff.Within.bind (path_within ino) fun _ => update_within (allocFh_grows _)
  | release fh =>
      exact Eff.Within.bind (update_within (dropFh_grows fh)) fun _ => Eff.Within.pure _
  | read fh offset size =>
      refine Eff.Within.bind ?_ fun _ => Eff.Within.pure _
      exact Eff.Within.bind (handlePath_within fh) fun _ => call_within (h.read _ _ _)
  | write fh offset data =>
      refine Eff.Within.bind ?_ fun _ => Eff.Within.pure _
      exact Eff.Within.bind (handlePath_within fh) fun _ => call_within (h.write _ _ _)
  | create parent name mode => exact nomatch hreq
  | mkdir parent name mode => exact nomatch hreq
  | unlink parent name => exact nomatch hreq
  | rmdir parent name => exact nomatch hreq
  | rename parent name newparent newname => exact nomatch hreq

/-! ## Whatever the file system does -/

/-- The relation that holds between any two states. -/
def Anywhere (_ _ : σ) : Prop := True

instance : IsPreorder σ Anywhere where
  refl := fun _ => True.intro
  trans := fun _ _ _ _ _ => True.intro

/-- **THE TABLES ONLY GROW**, whatever is asked and whatever the file system
    answers. -/
theorem serve_grows (vfs : TokimoVfs σ) (req : FuseRequest) :
    Eff.Within (Both Anywhere) (serve vfs req) := by
  have hany : ∀ {β : Type} (x : VfsM σ β), Eff.Within Anywhere x := fun _ _ => True.intro
  have hset : Settled vfs Anywhere := by
    constructor
    all_goals intros; exact hany _
  cases hreq : req.editsEntries with
  | false => exact serve_within hset hreq
  | true =>
      cases req with
      | create parent name mode =>
          exact Eff.Within.bind (create_within (fun _ _ => hany _) parent name mode)
            fun _ => Eff.Within.pure _
      | mkdir parent name mode =>
          exact Eff.Within.bind (mkdir_within (fun _ _ => hany _) parent name mode)
            fun _ => Eff.Within.pure _
      | unlink parent name =>
          exact Eff.Within.bind (unlink_within (fun _ => hany _) parent name)
            fun _ => Eff.Within.pure _
      | rmdir parent name =>
          exact Eff.Within.bind (rmdir_within (fun _ => hany _) parent name)
            fun _ => Eff.Within.pure _
      | rename parent name newparent newname =>
          exact Eff.Within.bind (rename_within (fun _ _ => hany _) parent name newparent newname)
            fun _ => Eff.Within.pure _
      | _ => exact nomatch hreq

/-- The agent at work: any request in any state, with its answer. -/
def serving (vfs : TokimoVfs σ) :
    Machine (TokimoFuse × σ) FuseRequest (Except Errno FuseReply) where
  step st req := some ((serve vfs req st).2, [(serve vfs req st).1])

/-- The tables of an agent that serves are in order. -/
theorem serving_wf {vfs : TokimoVfs σ} {s₀ : σ} {st : TokimoFuse × σ}
    {tr : List (Except Errno FuseReply)}
    (hr : Run (serving vfs) always (TokimoFuse.start, s₀) st tr) : st.1.Wf := by
  refine Run.invariant (I := fun st _ => st.1.Wf) start_wf ?_ hr
  intro st tr req st' es hw _ hs
  obtain ⟨rfl, -⟩ := Prod.mk.inj (Option.some.inj hs)
  exact ((serve_grows vfs req st).1 hw).wf

/-! ## What a successful step was -/

/-- A number that was found has a path. -/
theorem path_ok {ino : Nat} {p : PathBuf} {st st' : TokimoFuse × σ}
    (h : path ino st = (.ok p, st')) : st.1.pathFor ino = some p ∧ st' = st := by
  rw [path] at h
  cases hp : st.1.pathFor ino with
  | none =>
      rw [hp] at h
      exact nomatch h
  | some q =>
      rw [hp] at h
      obtain ⟨h1, h2⟩ := Prod.mk.inj h
      exact ⟨congrArg some (Except.ok.inj h1), h2.symm⟩

/-- A call that succeeds has given the value, and the tables stay. -/
theorem call_ok {x : VfsM σ α} {v : α} {st st' : TokimoFuse × σ}
    (h : call x st = (.ok v, st')) : ∃ s, x st.2 = (.ok v, s) ∧ st' = (st.1, s) := by
  rw [call] at h
  cases hx : x st.2 with
  | mk r s =>
      rw [hx] at h
      cases r with
      | error e => exact nomatch h
      | ok w =>
          obtain ⟨h1, h2⟩ := Prod.mk.inj h
          rw [Except.ok.inj h1]
          exact ⟨s, rfl, h2.symm⟩

/-- A change of the tables always succeeds. -/
theorem update_ok {f : TokimoFuse → α × TokimoFuse} {v : α} {st st' : TokimoFuse × σ}
    (h : update f st = (.ok v, st')) : v = (f st.1).1 ∧ st' = ((f st.1).2, st.2) := by
  obtain ⟨h1, h2⟩ := Prod.mk.inj h
  exact ⟨(Except.ok.inj h1).symm, h2.symm⟩

/-! ## The entries of a directory reply -/

/-- What the number of an entry is about: a name other than the two that every
    directory has gets the number of its path. -/
theorem entryIno_spec {a : TokimoFuse} (hw : a.Wf) (s : σ) (ino : Nat) (p : PathBuf)
    (name : Bytes) :
    ∃ i a', entryIno ino p name (a, s) = (.ok i, (a', s)) ∧ Grown a a'
      ∧ (name ≠ dot → name ≠ dotdot →
        ∃ q, a'.pathFor i = some q ∧ q.components = (join p name).components) := by
  rw [entryIno]
  by_cases h1 : name = dot
  · rw [if_pos h1]
    exact ⟨ino, a, rfl, refl_of Grows a hw, fun h => absurd h1 h⟩
  · rw [if_neg h1]
    by_cases h2 : name = dotdot
    · rw [if_pos h2]
      exact ⟨1, a, rfl, refl_of Grows a hw, fun _ h => absurd h2 h⟩
    · rw [if_neg h2]
      exact ⟨_, _, rfl, intern_grows _ a hw, fun _ _ => intern_path hw _⟩

/-- **WHAT A PAGE HOLDS**: the first entries of what is left, as many as there
    is room for, each with the position behind it. -/
theorem addEntries_spec (s : σ) (ino : Nat) (p : PathBuf) :
    ∀ (list : List ((FileType × Bytes) × Nat)) (room : Nat) {a : TokimoFuse}, a.Wf →
      ∃ es a', addEntries ino p room list (a, s) = (.ok es, (a', s)) ∧ Grown a a'
        ∧ es.map (fun e => ((e.kind, e.name), e.offset))
          = (list.take room).map (fun x => (x.1, x.2 + 1))
        ∧ ∀ e ∈ es, e.name ≠ dot → e.name ≠ dotdot →
          ∃ q, a'.pathFor e.ino = some q ∧ q.components = (join p e.name).components := by
  intro list
  induction list with
  | nil =>
      intro room a hw
      rw [addEntries, List.take_nil]
      exact ⟨[], a, rfl, refl_of Grows a hw, rfl, fun e he => nomatch he⟩
  | cons x list ih =>
      obtain ⟨⟨kind, name⟩, k⟩ := x
      intro room a hw
      obtain ⟨i, a₁, h1, hg1, hp1⟩ := entryIno_spec hw s ino p name
      cases room with
      | zero =>
          rw [addEntries, Eff.bind_of_ok h1, List.take_zero]
          exact ⟨[], a₁, rfl, hg1, rfl, fun e he => nomatch he⟩
      | succ room =>
          obtain ⟨es, a₂, h2, hg2, hes, hp2⟩ := ih room hg1.wf
          have hall : Grown a a₂ := trans_of Grows (fun _ => hg1) (fun _ => hg2) hw
          rw [addEntries, Eff.bind_of_ok h1, Eff.bind_of_ok h2, List.take_succ_cons]
          refine ⟨_, a₂, rfl, hall, ?_, ?_⟩
          · rw [List.map_cons, List.map_cons, hes]
          · intro e he
            rcases List.mem_cons.mp he with rfl | he'
            · -- the number was given before the rest was added
              intro hd hdd
              obtain ⟨q, hq, hqc⟩ := hp1 hd hdd
              exact ⟨q, hg2.paths hq, hqc⟩
            · exact hp2 e he'

/-! ## Requests that succeeded -/

/-- **A LOOKUP** that succeeds has asked for the entry and interned its path. -/
theorem lookup_ok {vfs : TokimoVfs σ} {parent : Nat} {name : Bytes} {a : TokimoFuse} {s : σ}
    {attr : FuseAttr} {st' : TokimoFuse × σ}
    (h : lookup vfs parent name (a, s) = (.ok attr, st')) :
    ∃ p at' s', a.pathFor parent = some p ∧ vfs.stat (join p name) s = (.ok at', s')
      ∧ attr = toFuseAttr (a.intern (join p name)).1 at'
      ∧ st' = ((a.intern (join p name)).2, s') := by
  obtain ⟨p, st₁, h1, h⟩ := Eff.bind_ok h
  obtain ⟨hp, rfl⟩ := path_ok h1
  obtain ⟨at', st₂, h2, h⟩ := Eff.bind_ok h
  obtain ⟨s', hs, rfl⟩ := call_ok h2
  obtain ⟨ino, st₃, h3, h⟩ := Eff.bind_ok h
  obtain ⟨rfl, rfl⟩ := update_ok h3
  obtain ⟨h4, h5⟩ := Prod.mk.inj h
  exact ⟨p, at', s', hp, hs, (Except.ok.inj h4).symm, h5.symm⟩

/-- **A MKDIR** that succeeds has made the entry and interned its path. -/
theorem mkdir_ok {vfs : TokimoVfs σ} {parent : Nat} {name : Bytes} {mode : UInt32}
    {a : TokimoFuse} {s : σ} {attr : FuseAttr} {st' : TokimoFuse × σ}
    (h : mkdir vfs parent name mode (a, s) = (.ok attr, st')) :
    ∃ p at' s', a.pathFor parent = some p ∧ vfs.mkdir (join p name) mode s = (.ok at', s')
      ∧ attr = toFuseAttr (a.intern (join p name)).1 at'
      ∧ st' = ((a.intern (join p name)).2, s') := by
  obtain ⟨p, st₁, h1, h⟩ := Eff.bind_ok h
  obtain ⟨hp, rfl⟩ := path_ok h1
  obtain ⟨at', st₂, h2, h⟩ := Eff.bind_ok h
  obtain ⟨s', hs, rfl⟩ := call_ok h2
  obtain ⟨ino, st₃, h3, h⟩ := Eff.bind_ok h
  obtain ⟨rfl, rfl⟩ := update_ok h3
  obtain ⟨h4, h5⟩ := Prod.mk.inj h
  exact ⟨p, at', s', hp, hs, (Except.ok.inj h4).symm, h5.symm⟩

/-- **A CREATE** that succeeds has a handle on the path as well. -/
theorem create_ok {vfs : TokimoVfs σ} {parent : Nat} {name : Bytes} {mode : UInt32}
    {a : TokimoFuse} {s : σ} {r : FuseAttr × Nat} {st' : TokimoFuse × σ}
    (h : create vfs parent name mode (a, s) = (.ok r, st')) :
    ∃ p at' s', a.pathFor parent = some p ∧ vfs.create (join p name) mode s = (.ok at', s')
      ∧ r = (toFuseAttr (a.intern (join p name)).1 at',
        ((a.intern (join p name)).2.allocFh (join p name)).1)
      ∧ st' = (((a.intern (join p name)).2.allocFh (join p name)).2, s') := by
  obtain ⟨p, st₁, h1, h⟩ := Eff.bind_ok h
  obtain ⟨hp, rfl⟩ := path_ok h1
  obtain ⟨at', st₂, h2, h⟩ := Eff.bind_ok h
  obtain ⟨s', hs, rfl⟩ := call_ok h2
  obtain ⟨ino, st₃, h3, h⟩ := Eff.bind_ok h
  obtain ⟨rfl, rfl⟩ := update_ok h3
  obtain ⟨fh, st₄, h4, h⟩ := Eff.bind_ok h
  obtain ⟨rfl, rfl⟩ := update_ok h4
  obtain ⟨h5, h6⟩ := Prod.mk.inj h
  exact ⟨p, at', s', hp, hs, (Except.ok.inj h5).symm, h6.symm⟩

/-- **AN OPEN** that succeeds has a new handle on the number's path and has
    asked nothing of the file system. -/
theorem open_ok {ino fh : Nat} {a : TokimoFuse} {s : σ} {st' : TokimoFuse × σ}
    (h : open' ino (a, s) = (.ok fh, st')) :
    ∃ p, a.pathFor ino = some p ∧ fh = (a.allocFh p).1 ∧ st' = ((a.allocFh p).2, s) := by
  obtain ⟨p, st₁, h1, h⟩ := Eff.bind_ok h
  obtain ⟨hp, rfl⟩ := path_ok h1
  obtain ⟨rfl, rfl⟩ := update_ok h
  exact ⟨p, hp, rfl, rfl⟩

/-- **A READDIR** that succeeds has listed the path, and its numbers lead to the
    entries. -/
theorem readdir_ok {vfs : TokimoVfs σ} {ino room : Nat} {offset : Int} {a : TokimoFuse} {s : σ}
    (hw : a.Wf) {es : List DirReply} {st' : TokimoFuse × σ}
    (h : readdir vfs ino offset room (a, s) = (.ok es, st')) :
    ∃ p entries s', a.pathFor ino = some p ∧ vfs.list p s = (.ok entries, s') ∧ st'.2 = s'
      ∧ ∀ e ∈ es, e.name ≠ dot → e.name ≠ dotdot →
        ∃ q, st'.1.pathFor e.ino = some q ∧ q.components = (join p e.name).components := by
  obtain ⟨p, st₁, h1, h⟩ := Eff.bind_ok h
  obtain ⟨hp, rfl⟩ := path_ok h1
  obtain ⟨entries, st₂, h2, h⟩ := Eff.bind_ok h
  obtain ⟨s', hs, rfl⟩ := call_ok h2
  obtain ⟨es', a', h3, -, -, hnum⟩ :=
    addEntries_spec s' ino p ((withDots entries).zipIdx.drop (asUsize offset)) room hw
  rw [h3] at h
  obtain ⟨h4, h5⟩ := Prod.mk.inj h
  rw [← Except.ok.inj h4, ← h5]
  exact ⟨p, entries, s', hp, hs, rfl, hnum⟩

/-! ## Where the file system is left -/

section Stores

variable {β : Type} {vfs : TokimoVfs σ} (a : TokimoFuse) (s : σ)

/-- A method begins with the path of a number. -/
theorem path_bind (ino : Nat) (k : PathBuf → FuseM σ β) :
    (path ino >>= k) (a, s) = match a.pathFor ino with
      | none => (.error .ENOENT, (a, s))
      | some p => k p (a, s) := by
  cases hp : a.pathFor ino with
  | none => exact Eff.bind_of_error (by rw [path, hp])
  | some p => exact Eff.bind_of_ok (by rw [path, hp])

/-- A call of the file system has its effect. -/
theorem call_store (x : VfsM σ α) : (call x (a, s)).2.2 = (x s).2 := by
  rw [call]
  cases x s with
  | mk r s' =>
      cases r with
      | ok v => rfl
      | error e => rfl

/-- What follows a call is about the agent only. -/
theorem call_bind_store (x : VfsM σ α) {k : α → FuseM σ β} (hk : ∀ v, Eff.Frame Prod.snd (k v)) :
    ((call x >>= k) (a, s)).2.2 = (x s).2 := by
  have hc := call_store a s x
  rcases Eff.bind_cases (call x) k (a, s) with ⟨v, st, h1, h2⟩ | ⟨e, st, h1, h2⟩
  · rw [h1] at hc
    rw [h2, ← hc]
    exact hk v st
  · rw [h1] at hc
    rw [h2, ← hc]

/-- A change of the tables has none on the file system. -/
theorem update_frame (f : TokimoFuse → α × TokimoFuse) :
    Eff.Frame Prod.snd (update f : FuseM σ α) := fun _ => rfl

/-- Where a call at the path of an entry leaves the file system. -/
def atEntry (parent : Nat) (name : Bytes) (f : PathBuf → VfsM σ α) : σ :=
  match a.pathFor parent with
  | none => s
  | some p => (f (join p name) s).2

/-- What a `create` has done to the file system. -/
theorem create_store (parent : Nat) (name : Bytes) (mode : UInt32) :
    (serve vfs (.create parent name mode) (a, s)).2.2
      = atEntry a s parent name (vfs.create · mode) := by
  rw [serve, Eff.bind_pure_state, create, path_bind, atEntry]
  cases a.pathFor parent with
  | none => rfl
  | some p =>
      exact call_bind_store a s _ fun _ => Eff.Frame.bind (update_frame _) fun _ =>
        Eff.Frame.bind (update_frame _) fun _ => Eff.Frame.pure _

/-- What a `mkdir` has done. -/
theorem mkdir_store (parent : Nat) (name : Bytes) (mode : UInt32) :
    (serve vfs (.mkdir parent name mode) (a, s)).2.2
      = atEntry a s parent name (vfs.mkdir · mode) := by
  rw [serve, Eff.bind_pure_state, mkdir, path_bind, atEntry]
  cases a.pathFor parent with
  | none => rfl
  | some p =>
      exact call_bind_store a s _ fun _ => Eff.Frame.bind (update_frame _) fun _ =>
        Eff.Frame.pure _

/-- What an `unlink` has done. -/
theorem unlink_store (parent : Nat) (name : Bytes) :
    (serve vfs (.unlink parent name) (a, s)).2.2 = atEntry a s parent name vfs.remove := by
  rw [serve, Eff.bind_pure_state, unlink, path_bind, atEntry]
  cases a.pathFor parent with
  | none => rfl
  | some p => exact call_store a s _

/-- What an `rmdir` has done. -/
theorem rmdir_store (parent : Nat) (name : Bytes) :
    (serve vfs (.rmdir parent name) (a, s)).2.2 = atEntry a s parent name vfs.rmdir := by
  rw [serve, Eff.bind_pure_state, rmdir, path_bind, atEntry]
  cases a.pathFor parent with
  | none => rfl
  | some p => exact call_store a s _

/-- What a `rename` has done, if both directories have paths. -/
theorem rename_store (parent : Nat) (name : Bytes) (newparent : Nat) (newname : Bytes) :
    (serve vfs (.rename parent name newparent newname) (a, s)).2.2
      = match a.pathFor newparent with
        | none => s
        | some np => atEntry a s parent name (vfs.rename · (join np newname)) := by
  rw [serve, Eff.bind_pure_state, rename, path_bind]
  cases hp : a.pathFor parent with
  | none =>
      cases a.pathFor newparent with
      | none => rfl
      | some np => simp only [atEntry, hp]
  | some p =>
      show ((path newparent >>= fun np => call (vfs.rename (join p name) (join np newname)))
        (a, s)).2.2 = _
      rw [path_bind]
      cases a.pathFor newparent with
      | none => rfl
      | some np =>
          simp only [atEntry, hp]
          exact call_store a s _

end Stores

end TokimoFuseAgent
