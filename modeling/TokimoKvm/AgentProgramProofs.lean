import TokimoKvm.AgentCallProofs
import TokimoKvm.CallProgramProofs

/-! # The agent's requests as programs

    The agent answers one request at a time and blocks on every call of its
    client.  So a request is a program of calls, and what the agent keeps
    changes only when the program ends.  `program_run` says that with every
    call answered at once these programs are the agent's methods. -/

namespace TokimoFuseAgent

open TokimoMachine TokimoBytes TokimoPath TokimoTable TokimoVfsCore TokimoHostFs

/-- What is left of a request: it ends with a reply and the agent's tables. -/
abbrev AgentProg := Prog VfsCall Reply (Except Errno FuseReply × TokimoFuse)

/-! ## A reply as its method returns it -/

/-- What a client's method makes of a reply that is to be attributes. -/
def attrOf : Reply → VfsResult FileAttr
  | .attr r => r
  | _ => .error (.io "bad resp")

/-- What it makes of one that is to be a listing. -/
def entriesOf : Reply → VfsResult (List DirEntry)
  | .entries r => r
  | _ => .error (.io "bad resp")

/-- What it makes of one that is to be bytes. -/
def bytesOf : Reply → VfsResult Bytes
  | .bytes r => r
  | _ => .error (.io "bad resp")

/-- What it makes of one that is to be a count. -/
def countOf : Reply → VfsResult UInt32
  | .count r => r
  | _ => .error (.io "bad resp")

/-- What it makes of one that only says whether it worked. -/
def unitOf : Reply → VfsResult Unit
  | .unit r => r
  | _ => .error (.io "bad resp")

/-! ## The programs -/

section Programs

variable (a : TokimoFuse)

/-- Go on with the path of a number; without one the request ends. -/
def withPath (ino : Nat) (k : PathBuf → AgentProg) : AgentProg :=
  match a.pathFor ino with
  | some p => k p
  | none => .done (.error .ENOENT, a)

/-- Go on with the path of a handle. -/
def withHandle (fh : Nat) (k : PathBuf → AgentProg) : AgentProg :=
  match a.fhs.get fh with
  | some p => k p
  | none => .done (.error .EBADF, a)

/-- Go on with what a call returned; its error ends the request. -/
def goOn {α : Type} (r : VfsResult α) (k : α → AgentProg) : AgentProg :=
  match r with
  | .ok v => k v
  | .error e => .done (.error (errno e), a)

/-- End with a reply, and the tables as they are. -/
def replyWith (r : FuseReply) : AgentProg := .done (.ok r, a)

/-- Ask for the attributes and reply with them. -/
def statThen (ino : Nat) (p : PathBuf) : AgentProg :=
  .ask (.stat p) fun r => goOn a (attrOf r) fun v => replyWith a (.attr (toFuseAttr ino v))

/-- The entries of a directory reply, with the numbers they get. -/
def showEntries (ino : Nat) (p : PathBuf) (offset : Int) (room : Nat) (entries : List DirEntry) :
    AgentProg :=
  let out := (addEntries ino p room ((withDots entries).zipIdx.drop (asUsize offset)) :
    FuseM Unit (List DirReply)) (a, ())
  .done (out.1.map .directory, out.2.1)

/-- Each handler as a program of calls: what it asks for, and what it does with
    the answer. -/
def program : FuseRequest → AgentProg
  | .lookup parent name => withPath a parent fun p =>
      .ask (.stat (join p name)) fun r => goOn a (attrOf r) fun v =>
        replyWith (a.intern (join p name)).2
          (.entry (toFuseAttr (a.intern (join p name)).1 v))
  | .getattr ino => withPath a ino (statThen a ino)
  | .setattr ino size => withPath a ino fun p =>
      match size with
      | some sz => .ask (.truncate p sz) fun r => goOn a (unitOf r) fun _ => statThen a ino p
      | none => statThen a ino p
  | .opendir ino => withPath a ino fun p => replyWith (a.allocFh p).2 (.opened (a.allocFh p).1)
  | .releasedir fh => replyWith (a.dropFh fh) .ok
  | .readdir ino offset room => withPath a ino fun p =>
      .ask (.list p) fun r => goOn a (entriesOf r) (showEntries a ino p offset room)
  | .open' ino => withPath a ino fun p => replyWith (a.allocFh p).2 (.opened (a.allocFh p).1)
  | .release fh => replyWith (a.dropFh fh) .ok
  | .read fh offset size => withHandle a fh fun p =>
      .ask (.read p (clampOffset offset) size) fun r => goOn a (bytesOf r) fun d =>
        replyWith a (.data d)
  | .write fh offset data => withHandle a fh fun p =>
      .ask (.write p (clampOffset offset) data) fun r => goOn a (countOf r) fun n =>
        replyWith a (.written n)
  | .create parent name mode => withPath a parent fun p =>
      .ask (.create (join p name) mode) fun r => goOn a (attrOf r) fun v =>
        let opened := (a.intern (join p name)).2.allocFh (join p name)
        replyWith opened.2 (.created (toFuseAttr (a.intern (join p name)).1 v) opened.1)
  | .mkdir parent name mode => withPath a parent fun p =>
      .ask (.mkdir (join p name) mode) fun r => goOn a (attrOf r) fun v =>
        replyWith (a.intern (join p name)).2
          (.entry (toFuseAttr (a.intern (join p name)).1 v))
  | .unlink parent name => withPath a parent fun p =>
      .ask (.remove (join p name)) fun r => goOn a (unitOf r) fun _ => replyWith a .ok
  | .rmdir parent name => withPath a parent fun p =>
      .ask (.rmdir (join p name)) fun r => goOn a (unitOf r) fun _ => replyWith a .ok
  | .rename parent name newparent newname => withPath a parent fun p =>
      withPath a newparent fun np =>
        .ask (.rename (join p name) (join np newname)) fun r => goOn a (unitOf r) fun _ =>
          replyWith a .ok

end Programs

/-! ## Programs and methods -/

section Methods

variable {σ α β : Type} {vfs : TokimoVfs σ} {a : TokimoFuse} {s : σ} {req : FuseRequest}

/-- The program does what the method does. -/
def Does (vfs : TokimoVfs σ) (a : TokimoFuse) (p : AgentProg) (x : FuseM σ FuseReply) : Prop :=
  ∀ s, x (a, s) = ((p.run vfs.invoke s).1.1, ((p.run vfs.invoke s).1.2, (p.run vfs.invoke s).2))

/-- A program does what the handler does once the number's path is found. -/
theorem does_path (ino : Nat) {k : PathBuf → AgentProg} {x : PathBuf → FuseM σ FuseReply}
    (h : ∀ p, Does vfs a (k p) (x p)) : Does vfs a (withPath a ino k) (path ino >>= x) := by
  intro s
  rw [path_bind, withPath]
  cases a.pathFor ino with
  | none => rfl
  | some p => exact h p s

/-- The same for the path of a handle. -/
theorem does_handle (fh : Nat) {k : PathBuf → AgentProg} {x : PathBuf → FuseM σ FuseReply}
    (h : ∀ p, Does vfs a (k p) (x p)) : Does vfs a (withHandle a fh k) (handlePath fh >>= x) := by
  intro s
  rw [handlePath_bind, withHandle]
  cases a.fhs.get fh with
  | none => rfl
  | some p => exact h p s

/-- A call, and what is done with its reply. -/
theorem does_call {c : VfsCall} {y : VfsM σ α} {pick : Reply → VfsResult α}
    {k : α → AgentProg} {x : α → FuseM σ FuseReply}
    (hcall : ∀ s, pick (vfs.invoke s c).1 = (y s).1 ∧ (vfs.invoke s c).2 = (y s).2)
    (h : ∀ v, Does vfs a (k v) (x v)) :
    Does vfs a (.ask c fun r => goOn a (pick r) k) (call y >>= x) := by
  intro s
  obtain ⟨hreply, hstate⟩ := hcall s
  rw [Prog.run, hreply, hstate]
  cases hy : y s with
  | mk res s' =>
      cases res with
      | ok v =>
          rw [Eff.bind_of_ok (show call y (a, s) = (.ok v, (a, s')) by rw [call, hy])]
          exact h v s'
      | error e =>
          rw [Eff.bind_of_error (show call y (a, s) = (.error (errno e), (a, s')) by rw [call, hy])]
          rfl

/-- Asking for the attributes is what the handlers end with. -/
theorem does_statThen (ino : Nat) (p : PathBuf) : Does vfs a (statThen a ino p)
    ((call (vfs.stat p) >>= fun v => (pure (toFuseAttr ino v) : FuseM σ FuseAttr)) >>= fun v =>
      (pure (.attr v) : FuseM σ FuseReply)) := by
  rw [Eff.bind_bind]
  exact does_call (fun s => ⟨rfl, rfl⟩) fun v s => rfl

/-- The number of a listed name. -/
def number (ino : Nat) (p : PathBuf) (name : Bytes) (a : TokimoFuse) : Nat × TokimoFuse :=
  if name = dot then (ino, a) else if name = dotdot then (1, a) else a.intern (join p name)

/-- The number of an entry depends on the tables alone. -/
theorem entryIno_eq (ino : Nat) (p : PathBuf) (name : Bytes) (a : TokimoFuse) (s : σ) :
    entryIno ino p name (a, s)
      = (.ok (number ino p name a).1, ((number ino p name a).2, s)) := by
  rw [entryIno, number]
  by_cases h1 : name = dot
  · rw [if_pos h1, if_pos h1]
    rfl
  · rw [if_neg h1, if_neg h1]
    by_cases h2 : name = dotdot
    · rw [if_pos h2, if_pos h2]
      rfl
    · rw [if_neg h2, if_neg h2]
      rfl

/-- Numbering the entries has nothing to do with the file system. -/
theorem addEntries_alone (ino : Nat) (p : PathBuf) (s : σ) :
    ∀ (list : List ((FileType × Bytes) × Nat)) (room : Nat) (a : TokimoFuse),
      ∃ es a', addEntries ino p room list (a, s) = (.ok es, (a', s))
        ∧ addEntries ino p room list (a, ()) = (.ok es, (a', ())) := by
  intro list
  induction list with
  | nil =>
      intro room a
      rw [addEntries, addEntries]
      exact ⟨[], a, rfl, rfl⟩
  | cons e list ih =>
      obtain ⟨⟨kind, name⟩, i⟩ := e
      intro room a
      have hs := entryIno_eq ino p name a s
      have hu := entryIno_eq ino p name a ()
      cases room with
      | zero =>
          refine ⟨[], (number ino p name a).2, ?_, ?_⟩
          · exact Eff.bind_of_ok hs
          · exact Eff.bind_of_ok hu
      | succ room =>
          obtain ⟨es, a', h1, h2⟩ := ih room (number ino p name a).2
          refine ⟨{ ino := (number ino p name a).1, offset := i + 1, kind := kind, name := name }
            :: es, a', ?_, ?_⟩
          · exact (Eff.bind_of_ok hs).trans (Eff.bind_of_ok h1)
          · exact (Eff.bind_of_ok hu).trans (Eff.bind_of_ok h2)

/-- **PROGRAMS ARE METHODS**: with its calls answered at once, the program of
    a request is what the agent does with it. -/
theorem program_run (vfs : TokimoVfs σ) (a : TokimoFuse) (req : FuseRequest) :
    Does vfs a (program a req) (serve vfs req) := by
  cases req with
  | lookup parent name =>
      rw [serve, lookup, Eff.bind_bind]
      refine does_path parent fun p => ?_
      rw [Eff.bind_bind]
      exact does_call (fun s => ⟨rfl, rfl⟩) fun v s => rfl
  | getattr ino =>
      rw [serve, getattr, Eff.bind_bind]
      exact does_path ino fun p => does_statThen ino p
  | setattr ino size =>
      rw [serve, setattr, Eff.bind_bind]
      refine does_path ino fun p => ?_
      cases size with
      | none => exact does_statThen ino p
      | some sz =>
          rw [Eff.bind_bind]
          exact does_call (fun s => ⟨rfl, rfl⟩) fun _ => does_statThen ino p
  | opendir ino =>
      rw [serve, opendir, Eff.bind_bind]
      exact does_path ino fun p s => rfl
  | releasedir fh => exact fun s => rfl
  | readdir ino offset room =>
      rw [serve, readdir, Eff.bind_bind]
      refine does_path ino fun p => ?_
      rw [Eff.bind_bind]
      refine does_call (fun s => ⟨rfl, rfl⟩) fun entries s => ?_
      -- the numbering behind the listing asks for nothing
      obtain ⟨es, a', hs, hu⟩ := addEntries_alone ino p s
        ((withDots entries).zipIdx.drop (asUsize offset)) room a
      rw [Eff.bind_of_ok hs, showEntries, hu]
      rfl
  | open' ino =>
      rw [serve, open', Eff.bind_bind]
      exact does_path ino fun p s => rfl
  | release fh => exact fun s => rfl
  | read fh offset size =>
      rw [serve, read, Eff.bind_bind]
      exact does_handle fh fun p => does_call (fun s => ⟨rfl, rfl⟩) fun d s => rfl
  | write fh offset data =>
      rw [serve, write, Eff.bind_bind]
      exact does_handle fh fun p => does_call (fun s => ⟨rfl, rfl⟩) fun n s => rfl
  | create parent name mode =>
      rw [serve, create, Eff.bind_bind]
      refine does_path parent fun p => ?_
      rw [Eff.bind_bind]
      exact does_call (fun s => ⟨rfl, rfl⟩) fun v s => rfl
  | mkdir parent name mode =>
      rw [serve, mkdir, Eff.bind_bind]
      refine does_path parent fun p => ?_
      rw [Eff.bind_bind]
      exact does_call (fun s => ⟨rfl, rfl⟩) fun v s => rfl
  | unlink parent name =>
      rw [serve, unlink, Eff.bind_bind]
      exact does_path parent fun p => does_call (fun s => ⟨rfl, rfl⟩) fun _ s => rfl
  | rmdir parent name =>
      rw [serve, rmdir, Eff.bind_bind]
      exact does_path parent fun p => does_call (fun s => ⟨rfl, rfl⟩) fun _ s => rfl
  | rename parent name newparent newname =>
      rw [serve, rename, Eff.bind_bind]
      refine does_path parent fun p => ?_
      rw [Eff.bind_bind]
      exact does_path newparent fun np => does_call (fun s => ⟨rfl, rfl⟩) fun _ s => rfl

end Methods

/-! ## What programs ask for -/

section Asked

variable {a : TokimoFuse} {P : Name → Prop} {Q : VfsCall → Prop} {n : Nat}

/-- What a program calls for behind a path. -/
theorem withPath_calls {ino : Nat} {k : PathBuf → AgentProg}
    (h : ∀ p, a.pathFor ino = some p → (k p).Calls Q) : (withPath a ino k).Calls Q := by
  rw [withPath]
  cases hp : a.pathFor ino with
  | none => exact True.intro
  | some p => exact h p hp

/-- What it calls for behind a handle. -/
theorem withHandle_calls {fh : Nat} {k : PathBuf → AgentProg}
    (h : ∀ p, a.fhs.get fh = some p → (k p).Calls Q) : (withHandle a fh k).Calls Q := by
  rw [withHandle]
  cases hp : a.fhs.get fh with
  | none => exact True.intro
  | some p => exact h p hp

/-- What it calls for behind an answer. -/
theorem goOn_calls {α : Type} (r : VfsResult α) {k : α → AgentProg} (h : ∀ v, (k v).Calls Q) :
    (goOn a r k).Calls Q := by
  cases r with
  | ok v => exact h v
  | error e => exact True.intro

/-- A call of one spelled path, after whose reply the request ends. -/
theorem ask_spelled {α : Type} {c : VfsCall} {p : PathBuf} {pick : Reply → VfsResult α}
    {k : α → AgentProg} (hc : paths c = [p]) (hp : SpelledBy P p) (hk : ∀ v, ∃ o, k v = .done o) :
    (Prog.ask c fun r => goOn a (pick r) k : AgentProg).Calls
      fun c => ∀ p ∈ paths c, SpelledBy P p := by
  refine ⟨fun q hq => ?_, fun r => goOn_calls _ fun v => ?_⟩
  · rw [hc] at hq
    rw [List.mem_singleton.mp hq]
    exact hp
  · obtain ⟨o, ho⟩ := hk v
    rw [ho]
    exact True.intro

/-- The calls of a request have spelled paths, whatever is replied to them. -/
theorem program_spelled {req : FuseRequest} (ha : Kept P a) (hreq : req.Named P) :
    (program a req).Calls fun c => ∀ p ∈ paths c, SpelledBy P p := by
  have hstat : ∀ {ino : Nat} {p : PathBuf}, SpelledBy P p →
      (statThen a ino p).Calls fun c => ∀ q ∈ paths c, SpelledBy P q :=
    fun hp => ask_spelled rfl hp fun v => ⟨_, rfl⟩
  cases req with
  | lookup parent name =>
      have hn := hreq name (List.mem_cons_self ..)
      refine withPath_calls fun p hp => ?_
      exact ask_spelled rfl ((ha.numbers _ _ hp).join hn) fun v => ⟨_, rfl⟩
  | getattr ino => exact withPath_calls fun p hp => hstat (ha.numbers _ _ hp)
  | setattr ino size =>
      refine withPath_calls fun p hp => ?_
      have hp' := ha.numbers _ _ hp
      cases size with
      | none => exact hstat hp'
      | some sz =>
          refine ⟨fun q hq => ?_, fun r => goOn_calls _ fun _ => hstat hp'⟩
          rw [List.mem_singleton.mp hq]
          exact hp'
  | opendir ino => exact withPath_calls fun _ _ => True.intro
  | releasedir fh => exact True.intro
  | readdir ino offset room =>
      refine withPath_calls fun p hp => ?_
      exact ask_spelled rfl (ha.numbers _ _ hp) fun es => ⟨_, rfl⟩
  | open' ino => exact withPath_calls fun _ _ => True.intro
  | release fh => exact True.intro
  | read fh offset size =>
      refine withHandle_calls fun p hp => ?_
      exact ask_spelled rfl (ha.handles _ _ hp) fun d => ⟨_, rfl⟩
  | write fh offset data =>
      refine withHandle_calls fun p hp => ?_
      exact ask_spelled rfl (ha.handles _ _ hp) fun n => ⟨_, rfl⟩
  | create parent name mode =>
      have hn := hreq name (List.mem_cons_self ..)
      refine withPath_calls fun p hp => ?_
      exact ask_spelled rfl ((ha.numbers _ _ hp).join hn) fun v => ⟨_, rfl⟩
  | mkdir parent name mode =>
      have hn := hreq name (List.mem_cons_self ..)
      refine withPath_calls fun p hp => ?_
      exact ask_spelled rfl ((ha.numbers _ _ hp).join hn) fun v => ⟨_, rfl⟩
  | unlink parent name =>
      have hn := hreq name (List.mem_cons_self ..)
      refine withPath_calls fun p hp => ?_
      exact ask_spelled rfl ((ha.numbers _ _ hp).join hn) fun v => ⟨_, rfl⟩
  | rmdir parent name =>
      have hn := hreq name (List.mem_cons_self ..)
      refine withPath_calls fun p hp => ?_
      exact ask_spelled rfl ((ha.numbers _ _ hp).join hn) fun v => ⟨_, rfl⟩
  | rename parent name newparent newname =>
      -- the only call with two paths
      have hn := hreq name (List.mem_cons_self ..)
      have hn' := hreq newname (List.mem_cons_of_mem _ (List.mem_cons_self ..))
      refine withPath_calls fun p hp => withPath_calls fun np hnp => ?_
      refine ⟨fun q hq => ?_, fun r => goOn_calls _ fun _ => True.intro⟩
      rcases List.mem_cons.mp hq with rfl | hq
      · exact (ha.numbers _ _ hp).join hn
      · rw [List.mem_singleton.mp hq]
        exact (ha.numbers _ _ hnp).join hn'

/-- How many calls it has behind a path. -/
theorem withPath_atMost {ino : Nat} {k : PathBuf → AgentProg} (h : ∀ p, (k p).AtMost n) :
    (withPath a ino k).AtMost n := by
  rw [withPath]
  cases a.pathFor ino with
  | none => cases n <;> exact True.intro
  | some p => exact h p

/-- How many behind a handle. -/
theorem withHandle_atMost {fh : Nat} {k : PathBuf → AgentProg} (h : ∀ p, (k p).AtMost n) :
    (withHandle a fh k).AtMost n := by
  rw [withHandle]
  cases a.fhs.get fh with
  | none => cases n <;> exact True.intro
  | some p => exact h p

/-- How many behind an answer. -/
theorem goOn_atMost {α : Type} (r : VfsResult α) {k : α → AgentProg} (h : ∀ v, (k v).AtMost n) :
    (goOn a r k).AtMost n := by
  cases r with
  | ok v => exact h v
  | error e => cases n <;> exact True.intro

/-- A `setattr` with a size makes two calls, no request makes more. -/
theorem program_atMost (a : TokimoFuse) (req : FuseRequest) : (program a req).AtMost 2 := by
  have hone : ∀ {α : Type} (c : VfsCall) (pick : Reply → VfsResult α) {k : α → AgentProg},
      (∀ v, ∃ o, k v = .done o) → (Prog.ask c fun r => goOn a (pick r) k : AgentProg).AtMost 2 := by
    intro α c pick k hk r
    refine goOn_atMost _ fun v => ?_
    obtain ⟨o, ho⟩ := hk v
    rw [ho]
    exact True.intro
  cases req with
  | lookup parent name => exact withPath_atMost fun p => hone _ attrOf fun v => ⟨_, rfl⟩
  | getattr ino => exact withPath_atMost fun p => hone _ attrOf fun v => ⟨_, rfl⟩
  | setattr ino size =>
      refine withPath_atMost fun p => ?_
      cases size with
      | none => exact hone _ attrOf fun v => ⟨_, rfl⟩
      | some sz =>
          exact fun r => goOn_atMost _ fun _ r => goOn_atMost _ fun v => True.intro
  | opendir ino => exact withPath_atMost fun _ => True.intro
  | releasedir fh => exact True.intro
  | readdir ino offset room => exact withPath_atMost fun p => hone _ entriesOf fun es => ⟨_, rfl⟩
  | open' ino => exact withPath_atMost fun _ => True.intro
  | release fh => exact True.intro
  | read fh offset size => exact withHandle_atMost fun p => hone _ bytesOf fun d => ⟨_, rfl⟩
  | write fh offset data => exact withHandle_atMost fun p => hone _ countOf fun n => ⟨_, rfl⟩
  | create parent name mode => exact withPath_atMost fun p => hone _ attrOf fun v => ⟨_, rfl⟩
  | mkdir parent name mode => exact withPath_atMost fun p => hone _ attrOf fun v => ⟨_, rfl⟩
  | unlink parent name => exact withPath_atMost fun p => hone _ unitOf fun _ => ⟨_, rfl⟩
  | rmdir parent name => exact withPath_atMost fun p => hone _ unitOf fun _ => ⟨_, rfl⟩
  | rename parent name newparent newname =>
      exact withPath_atMost fun p => withPath_atMost fun np => hone _ unitOf fun _ => ⟨_, rfl⟩

end Asked

end TokimoFuseAgent
