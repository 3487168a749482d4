import TokimoKvm.FuseTableProofs

/-! # The agent's tables, exactly

    The two tables of numbers are inverse to each other, and the table of
    handles holds what was given out and not released.  Both follow from what a
    request does to the agent at all: it numbers some paths, then gives out a
    handle, takes one back, or does neither, and when it fails it has done
    nothing. -/

namespace TokimoFuseAgent

open TokimoMachine TokimoBytes TokimoPath TokimoTable TokimoVfsCore

/-! ## Numbers and paths -/

/-- `inodes` and `rev` are inverse to each other, up to how paths are written,
    and hold numbers that were given out to paths other than the root. -/
structure Inverse (a : TokimoFuse) : Prop where
  forth : ∀ {i : Nat} {p : PathBuf}, a.inodes.get i = some p → a.rev.get p.components = some i
  back : ∀ {c : List Component} {i : Nat}, a.rev.get c = some i →
    ∃ p, a.inodes.get i = some p ∧ p.components = c
  proper : ∀ {i : Nat} {p : PathBuf}, a.inodes.get i = some p →
    p.components ≠ PathBuf.root.components
  issued : ∀ {i : Nat} {p : PathBuf}, a.inodes.get i = some p → 1 < i ∧ i < a.nextIno
  first : 1 < a.nextIno

/-- The tables the agent starts with are inverse to each other. -/
theorem start_inverse : Inverse .start where
  forth := fun h => nomatch h
  back := fun h => nomatch h
  proper := fun h => nomatch h
  issued := fun h => nomatch h
  first := by decide

/-- Numbering a path keeps them so. -/
theorem intern_inverse {a : TokimoFuse} (h : Inverse a) (p : PathBuf) :
    Inverse (a.intern p).2 := by
  rw [TokimoFuse.intern]
  by_cases hroot : p.components = PathBuf.root.components
  · rw [if_pos hroot]
    exact h
  · rw [if_neg hroot]
    cases hr : a.rev.get p.components with
    | some i => exact h
    | none =>
        refine ⟨?_, ?_, ?_, ?_, Nat.lt_succ_of_lt h.first⟩
        · intro i q hq
          rw [Table.get_insert] at hq ⊢
          by_cases hi : a.nextIno = i
          · rw [if_pos hi] at hq
            rw [← Option.some.inj hq, if_pos rfl, hi]
          · rw [if_neg hi] at hq
            have hold := h.forth hq
            -- the path is new, so it is none of the old ones
            rw [if_neg, hold]
            intro heq
            rw [heq, hold] at hr
            cases hr
        · intro c i hc
          rw [Table.get_insert] at hc
          by_cases hpc : p.components = c
          · rw [if_pos hpc] at hc
            rw [← Option.some.inj hc]
            exact ⟨p, Table.get_insert_self _ _ _, hpc⟩
          · rw [if_neg hpc] at hc
            obtain ⟨q, hq, hqc⟩ := h.back hc
            refine ⟨q, ?_, hqc⟩
            rw [Table.get_insert_ne _ _ (Nat.ne_of_gt (h.issued hq).2), hq]
        · intro i q hq
          rw [Table.get_insert] at hq
          by_cases hi : a.nextIno = i
          · rw [if_pos hi] at hq
            rw [← Option.some.inj hq]
            exact hroot
          · rw [if_neg hi] at hq
            exact h.proper hq
        · intro i q hq
          rw [Table.get_insert] at hq
          by_cases hi : a.nextIno = i
          · rw [← hi]
            exact ⟨h.first, Nat.lt_succ_self _⟩
          · rw [if_neg hi] at hq
            exact ⟨(h.issued hq).1, Nat.lt_succ_of_lt (h.issued hq).2⟩

/-- A path and its number find each other. -/
theorem Inverse.pathFor_intern {a : TokimoFuse} (h : Inverse a) (p : PathBuf) :
    ∃ q, (a.intern p).2.pathFor (a.intern p).1 = some q ∧ q.components = p.components := by
  rw [TokimoFuse.intern]
  by_cases hroot : p.components = PathBuf.root.components
  · rw [if_pos hroot]
    exact ⟨PathBuf.root, rfl, hroot.symm⟩
  · rw [if_neg hroot]
    cases hr : a.rev.get p.components with
    | some i =>
        obtain ⟨q, hq, hqc⟩ := h.back hr
        refine ⟨q, ?_, hqc⟩
        rw [pathFor_inode (Nat.ne_of_gt (h.issued hq).1), hq]
    | none =>
        refine ⟨p, ?_, rfl⟩
        rw [pathFor_inode (Nat.ne_of_gt h.first)]
        exact Table.get_insert_self _ _ _

/-- Two numbers have two paths. -/
theorem Inverse.pathFor_inj {a : TokimoFuse} (h : Inverse a) {i j : Nat} {p q : PathBuf}
    (hp : a.pathFor i = some p) (hq : a.pathFor j = some q)
    (hc : p.components = q.components) : i = j := by
  have hproper : ∀ {k : Nat} {r : PathBuf}, a.pathFor k = some r → k ≠ 1 →
      a.inodes.get k = some r := by
    intro k r hr hk
    rw [pathFor_inode hk] at hr
    exact hr
  by_cases hi : i = 1
  · by_cases hj : j = 1
    · rw [hi, hj]
    · -- only the root has the path of number 1
      rw [hi] at hp
      have hpr : PathBuf.root = p := Option.some.inj hp
      exact absurd (hpr ▸ hc.symm) (h.proper (hproper hq hj))
  · by_cases hj : j = 1
    · rw [hj] at hq
      have hqr : PathBuf.root = q := Option.some.inj hq
      exact absurd (hqr ▸ hc) (h.proper (hproper hp hi))
    · have h1 := h.forth (hproper hp hi)
      rw [hc, h.forth (hproper hq hj)] at h1
      exact (Option.some.inj h1).symm

/-! ## What a request does to the agent -/

/-- `a'` is `a` with some more paths numbered. -/
inductive Numbered : TokimoFuse → TokimoFuse → Prop where
  | refl (a : TokimoFuse) : Numbered a a
  | intern {a a' : TokimoFuse} (p : PathBuf) : Numbered (a.intern p).2 a' → Numbered a a'

/-- So does numbering any number of them. -/
theorem Numbered.inverse {a a' : TokimoFuse} (h : Numbered a a') : Inverse a → Inverse a' := by
  induction h with
  | refl a => exact id
  | intern p _ ih => exact fun ha => ih (intern_inverse ha p)

/-- Numbering does not touch the handles. -/
theorem Numbered.handles {a a' : TokimoFuse} (h : Numbered a a') :
    a'.fhs = a.fhs ∧ a'.nextFh = a.nextFh := by
  induction h with
  | refl a => exact ⟨rfl, rfl⟩
  | @intern a a' p _ ih =>
      have hone : (a.intern p).2.fhs = a.fhs ∧ (a.intern p).2.nextFh = a.nextFh := by
        rcases intern_cases a p with ⟨-, h⟩ | ⟨i, -, h⟩ | ⟨-, h⟩
        · rw [h]
          exact ⟨rfl, rfl⟩
        · rw [h]
          exact ⟨rfl, rfl⟩
        · rw [h]
          exact ⟨rfl, rfl⟩
      exact ⟨ih.1.trans hone.1, ih.2.trans hone.2⟩

/-- The handles an answer gives out or takes back, as a table of its own. -/
def handlesAfter (a : TokimoFuse) (t : Table Nat PathBuf) :
    FuseRequest → FuseReply → Table Nat PathBuf
  | .open' ino, .opened fh => ((a.pathFor ino).map (t.insert fh)).getD t
  | .opendir ino, .opened fh => ((a.pathFor ino).map (t.insert fh)).getD t
  | .create parent name _, .created _ fh =>
      ((a.pathFor parent).map fun p => t.insert fh (join p name)).getD t
  | .release fh, .ok => t.erase fh
  | .releasedir fh, .ok => t.erase fh
  | _, _ => t

/-- What an answer has done to the agent. -/
inductive Answered (a : TokimoFuse) (req : FuseRequest) (reply : FuseReply) :
    TokimoFuse → Prop where
  | numbers {a' : TokimoFuse} : Numbered a a' → (∀ t, handlesAfter a t req reply = t) →
      Answered a req reply a'
  | gives {a₁ : TokimoFuse} (p : PathBuf) : Numbered a a₁ →
      (∀ t, handlesAfter a t req reply = t.insert a₁.nextFh p) →
      Answered a req reply (a₁.allocFh p).2
  | takes (fh : Nat) : (∀ t, handlesAfter a t req reply = t.erase fh) →
      Answered a req reply (a.dropFh fh)

section Requests

variable {σ α β : Type}

/-- A computation that has not touched the agent when it fails. -/
def Clean (x : FuseM σ α) : Prop := ∀ a s e st, x (a, s) = (.error e, st) → st.1 = a

/-- A computation that does not touch the agent. -/
abbrev Looks (x : FuseM σ α) : Prop := Eff.Frame Prod.fst x

/-- Looking up a number changes nothing. -/
theorem path_looks (ino : Nat) : Looks (path ino : FuseM σ PathBuf) := by
  rintro ⟨a, s⟩
  rw [path]
  cases a.pathFor ino with
  | some p => rfl
  | none => rfl

/-- Nor does looking up a handle. -/
theorem handlePath_looks (fh : Nat) : Looks (handlePath fh : FuseM σ PathBuf) := by
  rintro ⟨a, s⟩
  rw [handlePath]
  cases a.fhs.get fh with
  | some p => rfl
  | none => rfl

/-- Nor does a call. -/
theorem call_looks (x : VfsM σ α) : Looks (call x) := by
  rintro ⟨a, s⟩
  rw [call]
  cases x s with
  | mk r s' =>
      cases r with
      | ok v => rfl
      | error e => rfl

/-- What never touches the agent has not touched it when it fails. -/
theorem Clean.of_looks {x : FuseM σ α} (h : Looks x) : Clean x := by
  intro a s e st hx
  have ha := h (a, s)
  rw [hx] at ha
  exact ha

/-- What only looks may stand in front. -/
theorem Clean.bind {x : FuseM σ α} {f : α → FuseM σ β} (hx : Looks x) (hf : ∀ v, Clean (f v)) :
    Clean (x >>= f) := by
  rintro a s e st h
  have ha := hx (a, s)
  rcases Eff.bind_cases x f (a, s) with ⟨v, st₁, h1, h2⟩ | ⟨e', st₁, h1, h2⟩
  · obtain ⟨a₁, s₁⟩ := st₁
    rw [h1] at ha
    have ha' : a₁ = a := ha
    rw [← ha']
    exact hf v a₁ s₁ e st (by rw [← h2, h])
  · rw [h1] at ha
    rw [h2] at h
    rw [← (Prod.mk.inj h).2]
    exact ha

/-- A computation that cannot fail. -/
def Sure (x : FuseM σ α) : Prop := ∀ st, ∃ v st', x st = (.ok v, st')

/-- A value cannot fail. -/
theorem Sure.pure (v : α) : Sure (pure v : FuseM σ α) := fun st => ⟨v, st, rfl⟩

/-- Nor can a change of the tables. -/
theorem Sure.update (f : TokimoFuse → α × TokimoFuse) : Sure (update f : FuseM σ α) :=
  fun _ => ⟨_, _, rfl⟩

/-- Nor can one after the other. -/
theorem Sure.bind {x : FuseM σ α} {f : α → FuseM σ β} (hx : Sure x) (hf : ∀ v, Sure (f v)) :
    Sure (x >>= f) := by
  intro st
  obtain ⟨v, st₁, h1⟩ := hx st
  obtain ⟨w, st₂, h2⟩ := hf v st₁
  exact ⟨w, st₂, by rw [Eff.bind_of_ok h1, h2]⟩

/-- What cannot fail has nothing to leave behind. -/
theorem Sure.clean {x : FuseM σ α} (h : Sure x) : Clean x := by
  intro a s e st hx
  obtain ⟨v, st', hv⟩ := h (a, s)
  rw [hv] at hx
  exact nomatch hx

/-- Numbering an entry cannot fail. -/
theorem entryIno_sure (ino : Nat) (p : PathBuf) (name : Bytes) :
    Sure (entryIno ino p name : FuseM σ Nat) := by
  rw [entryIno]
  by_cases h1 : name = dot
  · rw [if_pos h1]
    exact Sure.pure _
  · rw [if_neg h1]
    by_cases h2 : name = dotdot
    · rw [if_pos h2]
      exact Sure.pure _
    · rw [if_neg h2]
      exact Sure.update _

/-- Nor can filling a page. -/
theorem addEntries_sure (ino : Nat) (p : PathBuf) :
    ∀ (list : List ((FileType × Bytes) × Nat)) (room : Nat),
      Sure (addEntries ino p room list : FuseM σ (List DirReply)) := by
  intro list
  induction list with
  | nil =>
      intro room
      rw [addEntries]
      exact Sure.pure _
  | cons e list ih =>
      obtain ⟨⟨kind, name⟩, i⟩ := e
      intro room
      cases room with
      | zero => exact Sure.bind (entryIno_sure ino p name) fun _ => Sure.pure _
      | succ room =>
          exact Sure.bind (entryIno_sure ino p name) fun _ =>
            Sure.bind (ih room) fun _ => Sure.pure _

variable (vfs : TokimoVfs σ)

/-- `setattr` numbers nothing. -/
theorem setattr_looks (ino : Nat) (size : Option UInt64) : Looks (setattr vfs ino size) := by
  refine Eff.Frame.bind (path_looks ino) fun p => ?_
  cases size with
  | none => exact Eff.Frame.bind (call_looks _) fun _ => Eff.Frame.pure _
  | some sz =>
      exact Eff.Frame.bind (call_looks _) fun _ =>
        Eff.Frame.bind (call_looks _) fun _ => Eff.Frame.pure _

/-- **A FAILED REQUEST CHANGES NO TABLE**: what can fail comes before what
    changes the agent. -/
theorem serve_clean (req : FuseRequest) : Clean (serve vfs req) := by
  -- an answer is made of what the method returned
  have hanswer : ∀ {α : Type} {x : FuseM σ α} (f : α → FuseReply), Clean x →
      Clean (x >>= fun v => pure (f v)) := by
    intro α x f hx a s e st h
    rcases Eff.bind_cases x (fun v => (pure (f v) : FuseM σ FuseReply)) (a, s)
      with ⟨v, st₁, h1, h2⟩ | ⟨e', st₁, h1, h2⟩
    · rw [h2] at h
      exact nomatch h
    · rw [h2] at h
      rw [← (Prod.mk.inj h).2]
      exact hx a s e' st₁ h1
  cases req with
  | lookup parent name =>
      exact hanswer _ (Clean.bind (path_looks parent) fun _ => Clean.bind (call_looks _) fun _ =>
        (Sure.bind (Sure.update _) fun _ => Sure.pure _).clean)
  | getattr ino =>
      exact hanswer _ (Clean.of_looks (Eff.Frame.bind (path_looks ino) fun _ =>
        Eff.Frame.bind (call_looks _) fun _ => Eff.Frame.pure _))
  | setattr ino size => exact hanswer _ (Clean.of_looks (setattr_looks vfs ino size))
  | opendir ino =>
      exact hanswer _ (Clean.bind (path_looks ino) fun _ => (Sure.update _).clean)
  | releasedir fh => exact hanswer _ (Sure.update _).clean
  | readdir ino offset room =>
      exact hanswer _ (Clean.bind (path_looks ino) fun p => Clean.bind (call_looks _) fun _ =>
        (addEntries_sure ino p _ room).clean)
  | open' ino =>
      exact hanswer _ (Clean.bind (path_looks ino) fun _ => (Sure.update _).clean)
  | release fh => exact hanswer _ (Sure.update _).clean
  | read fh offset size =>
      exact hanswer _ (Clean.of_looks (Eff.Frame.bind (handlePath_looks fh) fun _ =>
        call_looks _))
  | write fh offset data =>
      exact hanswer _ (Clean.of_looks (Eff.Frame.bind (handlePath_looks fh) fun _ =>
        call_looks _))
  | create parent name mode =>
      exact hanswer _ (Clean.bind (path_looks parent) fun _ => Clean.bind (call_looks _) fun _ =>
        (Sure.bind (Sure.update _) fun _ =>
          Sure.bind (Sure.update _) fun _ => Sure.pure _).clean)
  | mkdir parent name mode =>
      exact hanswer _ (Clean.bind (path_looks parent) fun _ => Clean.bind (call_looks _) fun _ =>
        (Sure.bind (Sure.update _) fun _ => Sure.pure _).clean)
  | unlink parent name =>
      exact hanswer (fun _ => .ok) (Clean.of_looks (Eff.Frame.bind (path_looks parent) fun _ =>
        call_looks _))
  | rmdir parent name =>
      exact hanswer (fun _ => .ok) (Clean.of_looks (Eff.Frame.bind (path_looks parent) fun _ =>
        call_looks _))
  | rename parent name newparent newname =>
      exact hanswer (fun _ => .ok) (Clean.of_looks (Eff.Frame.bind (path_looks parent) fun _ =>
        Eff.Frame.bind (path_looks newparent) fun _ => call_looks _))

/-- A computation that does nothing to the agent but number paths. -/
def Numbers (x : FuseM σ α) : Prop := ∀ a s, Numbered a (x (a, s)).2.1

/-- More paths numbered, and then more again. -/
theorem Numbered.trans {a b c : TokimoFuse} (h1 : Numbered a b) (h2 : Numbered b c) :
    Numbered a c := by
  induction h1 with
  | refl a => exact h2
  | intern p _ ih => exact .intern p (ih h2)

/-- A value numbers nothing. -/
theorem Numbers.pure (v : α) : Numbers (pure v : FuseM σ α) := fun a _ => .refl a

/-- One after the other only numbers, if both do. -/
theorem Numbers.bind {x : FuseM σ α} {f : α → FuseM σ β} (hx : Numbers x)
    (hf : ∀ v, Numbers (f v)) : Numbers (x >>= f) := by
  intro a s
  have h0 := hx a s
  rcases Eff.bind_cases x f (a, s) with ⟨v, st, h1, h2⟩ | ⟨e, st, h1, h2⟩
  · rw [h1] at h0
    rw [h2]
    exact h0.trans (hf v st.1 st.2)
  · rw [h1] at h0
    rw [h2]
    exact h0

/-- Numbering one path is numbering. -/
theorem Numbers.intern (p : PathBuf) : Numbers (update (·.intern p) : FuseM σ Nat) :=
  fun _ _ => .intern p (.refl _)

/-- What does not touch the agent numbers nothing. -/
theorem Numbers.of_looks {x : FuseM σ α} (h : Looks x) : Numbers x := by
  intro a s
  have ha : (x (a, s)).2.1 = a := h (a, s)
  rw [ha]
  exact .refl a

/-- An entry is numbered, and that is all. -/
theorem entryIno_numbers (ino : Nat) (p : PathBuf) (name : Bytes) :
    Numbers (entryIno ino p name : FuseM σ Nat) := by
  rw [entryIno]
  by_cases h1 : name = dot
  · rw [if_pos h1]
    exact Numbers.pure _
  · rw [if_neg h1]
    by_cases h2 : name = dotdot
    · rw [if_pos h2]
      exact Numbers.pure _
    · rw [if_neg h2]
      exact Numbers.intern _

/-- A page numbers its entries, and that is all. -/
theorem addEntries_numbers (ino : Nat) (p : PathBuf) :
    ∀ (list : List ((FileType × Bytes) × Nat)) (room : Nat),
      Numbers (addEntries ino p room list : FuseM σ (List DirReply)) := by
  intro list
  induction list with
  | nil =>
      intro room
      rw [addEntries]
      exact Numbers.pure _
  | cons e list ih =>
      obtain ⟨⟨kind, name⟩, i⟩ := e
      intro room
      cases room with
      | zero => exact Numbers.bind (entryIno_numbers ino p name) fun _ => Numbers.pure _
      | succ room =>
          exact Numbers.bind (entryIno_numbers ino p name) fun _ =>
            Numbers.bind (ih room) fun _ => Numbers.pure _

/-- **WHAT AN ANSWER HAS DONE** to the agent. -/
theorem serve_answered {req : FuseRequest} {a : TokimoFuse} {s : σ} {reply : FuseReply}
    {st : TokimoFuse × σ} (h : serve vfs req (a, s) = (.ok reply, st)) :
    Answered a req reply st.1 := by
  -- most requests do nothing but number paths
  have hnumbers : ∀ {α : Type} {x : FuseM σ α} {f : α → FuseReply},
      (x >>= fun v => pure (f v)) (a, s) = (.ok reply, st) → Numbers x →
      (∀ v t, handlesAfter a t req (f v) = t) → Answered a req reply st.1 := by
    intro α x f hx hn ht
    obtain ⟨v, st₁, h1, h2⟩ := Eff.bind_ok hx
    obtain ⟨hr, rfl⟩ := Prod.mk.inj h2
    have h0 := hn a s
    rw [h1] at h0
    rw [← Except.ok.inj hr]
    exact .numbers h0 (ht v)
  have hcall : ∀ {α β : Type} (x : FuseM σ α) (f : α → VfsM σ β) (g : β → FuseM σ FuseAttr),
      Looks x → (∀ v, Numbers (g v)) →
      Numbers (x >>= fun v => call (f v) >>= g) := by
    intro α β x f g hx hg
    exact Numbers.bind (Numbers.of_looks hx) fun _ =>
      Numbers.bind (Numbers.of_looks (call_looks _)) hg
  cases req with
  | lookup parent name =>
      refine hnumbers h ?_ fun _ _ => rfl
      exact Numbers.bind (Numbers.of_looks (path_looks parent)) fun _ =>
        Numbers.bind (Numbers.of_looks (call_looks _)) fun _ =>
          Numbers.bind (Numbers.intern _) fun _ => Numbers.pure _
  | getattr ino =>
      refine hnumbers h ?_ fun _ _ => rfl
      exact hcall _ _ _ (path_looks ino) fun _ => Numbers.pure _
  | setattr ino size =>
      exact hnumbers h (Numbers.of_looks (setattr_looks vfs ino size)) fun _ _ => rfl
  | opendir ino =>
      -- a handle is given out to the path behind the number
      obtain ⟨fh, st₁, h1, h2⟩ := Eff.bind_ok h
      obtain ⟨hr, rfl⟩ := Prod.mk.inj h2
      obtain ⟨p, hp, rfl, rfl⟩ := open_ok h1
      rw [← Except.ok.inj hr]
      refine .gives p (.refl a) fun t => ?_
      rw [handlesAfter, hp]
      rfl
  | releasedir fh =>
      obtain ⟨u, st₁, h1, h2⟩ := Eff.bind_ok h
      obtain ⟨hr, rfl⟩ := Prod.mk.inj h2
      obtain ⟨-, rfl⟩ := update_ok h1
      rw [← Except.ok.inj hr]
      exact .takes fh fun _ => rfl
  | readdir ino offset room =>
      refine hnumbers h ?_ fun _ _ => rfl
      exact Numbers.bind (Numbers.of_looks (path_looks ino)) fun p =>
        Numbers.bind (Numbers.of_looks (call_looks _)) fun _ => addEntries_numbers ino p _ room
  | open' ino =>
      obtain ⟨fh, st₁, h1, h2⟩ := Eff.bind_ok h
      obtain ⟨hr, rfl⟩ := Prod.mk.inj h2
      obtain ⟨p, hp, rfl, rfl⟩ := open_ok h1
      rw [← Except.ok.inj hr]
      refine .gives p (.refl a) fun t => ?_
      rw [handlesAfter, hp]
      rfl
  | release fh =>
      obtain ⟨u, st₁, h1, h2⟩ := Eff.bind_ok h
      obtain ⟨hr, rfl⟩ := Prod.mk.inj h2
      obtain ⟨-, rfl⟩ := update_ok h1
      rw [← Except.ok.inj hr]
      exact .takes fh fun _ => rfl
  | read fh offset size =>
      refine hnumbers h ?_ fun _ _ => rfl
      exact Numbers.of_looks (Eff.Frame.bind (handlePath_looks fh) fun _ => call_looks _)
  | write fh offset data =>
      refine hnumbers h ?_ fun _ _ => rfl
      exact Numbers.of_looks (Eff.Frame.bind (handlePath_looks fh) fun _ => call_looks _)
  | create parent name mode =>
      obtain ⟨r, st₁, h1, h2⟩ := Eff.bind_ok h
      obtain ⟨hr, rfl⟩ := Prod.mk.inj h2
      obtain ⟨p, attr, s', hp, -, rfl, rfl⟩ := create_ok h1
      rw [← Except.ok.inj hr]
      -- the one request that does both: a number, then a handle
      refine .gives (join p name) (.intern _ (.refl _)) fun t => ?_
      rw [handlesAfter, hp]
      rfl
  | mkdir parent name mode =>
      refine hnumbers h ?_ fun _ _ => rfl
      exact Numbers.bind (Numbers.of_looks (path_looks parent)) fun _ =>
        Numbers.bind (Numbers.of_looks (call_looks _)) fun _ =>
          Numbers.bind (Numbers.intern _) fun _ => Numbers.pure _
  | unlink parent name =>
      refine hnumbers (f := fun _ => .ok) h ?_ fun _ _ => rfl
      exact Numbers.of_looks (Eff.Frame.bind (path_looks parent) fun _ => call_looks _)
  | rmdir parent name =>
      refine hnumbers (f := fun _ => .ok) h ?_ fun _ _ => rfl
      exact Numbers.of_looks (Eff.Frame.bind (path_looks parent) fun _ => call_looks _)
  | rename parent name newparent newname =>
      refine hnumbers (f := fun _ => .ok) h ?_ fun _ _ => rfl
      exact Numbers.of_looks (Eff.Frame.bind (path_looks parent) fun _ =>
        Eff.Frame.bind (path_looks newparent) fun _ => call_looks _)

end Requests

/-! ## Runs -/

/-- The agent at work over any file system, with the handles its answers have
    given out and not taken back. -/
structure Numbering (σ : Type) where
  agent : TokimoFuse
  store : σ
  given : Table Nat PathBuf

section Runs

variable {σ : Type} (vfs : TokimoVfs σ)

/-- Any request, with its answer. -/
def numbering : Machine (Numbering σ) FuseRequest (Except Errno FuseReply) where
  step st req :=
    let r := serve vfs req (st.agent, st.store)
    some (
      { agent := r.2.1
        store := r.2.2
        given := match r.1 with
          | .ok reply => handlesAfter st.agent st.given req reply
          | .error _ => st.given },
      [r.1])

/-- Nothing has been given out yet. -/
def Numbering.start (s : σ) : Numbering σ where
  agent := .start
  store := s
  given := []

/-- The tables as they should be. -/
structure InOrder (st : Numbering σ) : Prop where
  inverse : Inverse st.agent
  given : ∀ fh, st.agent.fhs.get fh = st.given.get fh
  below : ∀ {fh : Nat} {p : PathBuf}, st.agent.fhs.get fh = some p → fh < st.agent.nextFh

variable {vfs}

/-- A request keeps the tables as they should be. -/
theorem inOrder_step {st st' : Numbering σ} {req : FuseRequest}
    {es : List (Except Errno FuseReply)} (hi : InOrder st)
    (hs : (numbering vfs).step st req = some (st', es)) : InOrder st' := by
  obtain ⟨rfl, -⟩ := Prod.mk.inj (Option.some.inj hs)
  cases hr : serve vfs req (st.agent, st.store) with
  | mk r st₁ =>
      obtain ⟨a', s'⟩ := st₁
      cases r with
      | error e =>
          -- nothing has happened to the agent
          have hsame : a' = st.agent := serve_clean vfs req _ _ e (a', s') hr
          subst hsame
          exact ⟨hi.inverse, hi.given, hi.below⟩
      | ok reply =>
          have hans : Answered st.agent req reply a' := serve_answered vfs hr
          have hgoal : InOrder
              { agent := a', store := s',
                given := handlesAfter st.agent st.given req reply : Numbering σ } := by
            cases hans with
            | numbers hn ht =>
                obtain ⟨hfhs, hnext⟩ := hn.handles
                refine ⟨hn.inverse hi.inverse, ?_, ?_⟩
                · intro fh
                  rw [ht, hfhs]
                  exact hi.given fh
                · intro fh p hp
                  rw [hfhs] at hp
                  rw [hnext]
                  exact hi.below hp
            | @gives a₁ p hn ht =>
                obtain ⟨hfhs, hnext⟩ := hn.handles
                have hinv := hn.inverse hi.inverse
                refine ⟨⟨hinv.forth, hinv.back, hinv.proper, hinv.issued, hinv.first⟩, ?_, ?_⟩
                · intro fh
                  rw [ht]
                  show Table.get (a₁.fhs.insert a₁.nextFh p) fh = _
                  rw [Table.get_insert, Table.get_insert, hfhs, hi.given fh]
                · intro fh q hq
                  have hq' : Table.get (a₁.fhs.insert a₁.nextFh p) fh = some q := hq
                  show fh < a₁.nextFh + 1
                  rw [Table.get_insert] at hq'
                  by_cases hf : a₁.nextFh = fh
                  · rw [hf]
                    exact Nat.lt_succ_self _
                  · rw [if_neg hf, hfhs] at hq'
                    rw [hnext]
                    exact Nat.lt_succ_of_lt (hi.below hq')
            | takes fh ht =>
                refine ⟨⟨hi.inverse.forth, hi.inverse.back, hi.inverse.proper,
                  hi.inverse.issued, hi.inverse.first⟩, ?_, ?_⟩
                · intro fh'
                  rw [ht]
                  show Table.get (st.agent.fhs.erase fh) fh' = _
                  rw [Table.get_erase, Table.get_erase, hi.given fh']
                · intro fh' q hq
                  have hq' : Table.get (st.agent.fhs.erase fh) fh' = some q := hq
                  rw [Table.get_erase] at hq'
                  by_cases hf : fh = fh'
                  · rw [if_pos hf] at hq'
                    exact nomatch hq'
                  · rw [if_neg hf] at hq'
                    exact hi.below hq'
          exact hgoal

/-- **THE AGENT'S TABLES**: after any requests, whatever the file system has
    answered, they are in order; so the number of a path has that path, and two
    paths have two numbers; and a request that fails changes none of them. -/
theorem tables_in_order {s₀ : σ} {st : Numbering σ} {tr : List (Except Errno FuseReply)}
    (hr : Run (numbering vfs) always (.start s₀) st tr) :
    InOrder st
      ∧ (∀ p, ∃ q, (st.agent.intern p).2.pathFor (st.agent.intern p).1 = some q
        ∧ q.components = p.components)
      ∧ (∀ {i j : Nat} {p q : PathBuf}, st.agent.pathFor i = some p →
        st.agent.pathFor j = some q → p.components = q.components → i = j)
      ∧ ∀ req e st', serve vfs req (st.agent, st.store) = (.error e, st') →
        st'.1 = st.agent := by
  have hinv : InOrder st := by
    refine Run.invariant (I := fun st _ => InOrder st) ?_ ?_ hr
    · exact ⟨start_inverse, fun _ => rfl, fun h => nomatch h⟩
    · intro st tr req st' es hi _ hs
      exact inOrder_step hi hs
  refine ⟨hinv, hinv.inverse.pathFor_intern, hinv.inverse.pathFor_inj, ?_⟩
  intro req e st' h
  exact serve_clean vfs req _ _ e st' h

/-- A file system whose one directory has entries with odd names: `a`, none at
    all, `/`, `/x` and `a/b`. -/
def oddVfs : TokimoVfs Unit where
  stat _ := Eff.fail .notFound
  list _ := pure ([[97], [], [47], [47, 120], [97, 47, 98]].map fun name => ⟨name, .file⟩)
  read _ _ _ := Eff.fail .notFound
  write _ _ _ := Eff.fail .notFound
  create _ _ := Eff.fail .permissionDenied
  mkdir _ _ := Eff.fail .permissionDenied
  remove _ := Eff.fail .notFound
  rmdir _ := Eff.fail .notFound
  rename _ _ := Eff.fail .notFound
  truncate _ _ := Eff.fail .notFound

/-- Listing a directory of a file system with odd names in it numbers the odd
    names too, and the one that is absolute under its own path. -/
theorem odd_names_in_order :
    ∃ st tr, Run (numbering oddVfs) always (.start ()) st tr
      ∧ st.agent.inodes.length = 3 ∧ InOrder st := by
  have hx : ((numbering oddVfs).exec (.start ()) [.readdir 1 0 10, .opendir 2]).map
      (fun r => r.1.agent.inodes.length) = some 3 := by
    decide +kernel
  obtain ⟨⟨st, tr⟩, hrun, hlen⟩ := Option.map_eq_some_iff.mp hx
  exact ⟨st, tr, run_of_exec_always hrun, hlen, (tables_in_order (run_of_exec_always hrun)).1⟩

end Runs

end TokimoFuseAgent
