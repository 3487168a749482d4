import TokimoKvm.AttrChangeProofs
import TokimoKvm.GatedCallProofs

/-! # What an agent asks of its file system

    The agent makes up paths in one way only: it joins a name that the kernel
    sent, or that a listing gave, to a path it keeps.  So whatever is kept by
    every call with paths spelled by such names is kept by every request, and
    over whole runs the file system is never asked with another path. -/

namespace TokimoFuseAgent

open TokimoMachine TokimoBytes TokimoPath TokimoTable TokimoVfsCore TokimoHostFs

variable {σ α : Type} {vfs : TokimoVfs σ} {P : Name → Prop} {J : σ → Prop}

/-- The path that names with `P` make, one after the other. -/
def SpelledBy (P : Name → Prop) (p : PathBuf) : Prop := ∃ l : Loc, (∀ n ∈ l, P n) ∧ p = spell l

/-- The root is spelled by no names at all. -/
theorem SpelledBy.root : SpelledBy P .root := ⟨[], List.forall_mem_nil _, rfl⟩

/-- A spelled path goes on to be spelled by one name more. -/
theorem SpelledBy.join {p : PathBuf} (hp : SpelledBy P p) {name : Bytes}
    (hn : ∃ h : ordinary name = true, P ⟨name, h⟩) : SpelledBy P (join p name) := by
  obtain ⟨l, hl, rfl⟩ := hp
  obtain ⟨h, hname⟩ := hn
  refine ⟨l ++ [⟨name, h⟩], fun n hmem => ?_, (spell_concat l ⟨name, h⟩).symm⟩
  rcases List.mem_append.mp hmem with hmem | hmem
  · exact hl n hmem
  · rw [List.mem_singleton.mp hmem]
    exact hname

/-- A name in a listing: one of the two dots, or a name with `P`. -/
def Shown (P : Name → Prop) (name : Bytes) : Prop :=
  name = dot ∨ name = dotdot ∨ ∃ h : ordinary name = true, P ⟨name, h⟩

/-- The names in a request are single names with `P`. -/
def FuseRequest.Named (P : Name → Prop) (req : FuseRequest) : Prop :=
  ∀ n ∈ req.names, ∃ h : ordinary n = true, P ⟨n, h⟩

/-- Every path the agent keeps is spelled by names with `P`. -/
structure Kept (P : Name → Prop) (a : TokimoFuse) : Prop where
  numbers : ∀ (i : Nat) (p : PathBuf), a.pathFor i = some p → SpelledBy P p
  handles : ∀ (fh : Nat) (p : PathBuf), a.fhs.get fh = some p → SpelledBy P p

/-- The agent starts with the root alone. -/
theorem start_kept : Kept P .start := by
  refine ⟨fun i p h => ?_, fun fh p h => by cases h⟩
  rw [TokimoFuse.pathFor] at h
  by_cases hi : i = 1
  · rw [if_pos hi] at h
    rw [← Option.some.inj h]
    exact SpelledBy.root
  · rw [if_neg hi] at h
    cases h

/-- A number is given to a spelled path. -/
theorem intern_kept {a : TokimoFuse} (h : Kept P a) {p : PathBuf} (hp : SpelledBy P p) :
    Kept P (a.intern p).2 := by
  rcases intern_cases a p with ⟨-, hi⟩ | ⟨k, -, hi⟩ | ⟨-, hi⟩
  · rw [hi]
    exact h
  · rw [hi]
    exact h
  · rw [hi]
    refine ⟨fun i q hq => ?_, h.handles⟩
    by_cases hone : i = 1
    · rw [TokimoFuse.pathFor, if_pos hone] at hq
      rw [← Option.some.inj hq]
      exact SpelledBy.root
    · rw [TokimoFuse.pathFor, if_neg hone] at hq
      have hget : Table.get (a.inodes.insert a.nextIno p) i = some q := hq
      rw [Table.get_insert] at hget
      by_cases hn : a.nextIno = i
      · rw [if_pos hn] at hget
        rw [← Option.some.inj hget]
        exact hp
      · rw [if_neg hn] at hget
        exact h.numbers i q ((pathFor_inode hone).trans hget)

/-- A handle is given to a spelled path. -/
theorem allocFh_kept {a : TokimoFuse} (h : Kept P a) {p : PathBuf} (hp : SpelledBy P p) :
    Kept P (a.allocFh p).2 := by
  refine ⟨h.numbers, fun fh q hq => ?_⟩
  have hget : Table.get (a.fhs.insert a.nextFh p) fh = some q := hq
  rw [Table.get_insert] at hget
  by_cases hn : a.nextFh = fh
  · rw [if_pos hn] at hget
    rw [← Option.some.inj hget]
    exact hp
  · rw [if_neg hn] at hget
    exact h.handles fh q hget

/-- A handle that is dropped takes nothing away from the rest. -/
theorem dropFh_kept {a : TokimoFuse} (h : Kept P a) (fh : Nat) : Kept P (a.dropFh fh) := by
  refine ⟨h.numbers, fun fh' q hq => ?_⟩
  have hget : Table.get (a.fhs.erase fh) fh' = some q := hq
  rw [Table.get_erase] at hget
  by_cases hn : fh = fh'
  · rw [if_pos hn] at hget
    exact nomatch hget
  · rw [if_neg hn] at hget
    exact h.handles fh' q hget

/-! ## The rule -/

/-- Calls with paths spelled by names with `P` keep `J`, and show names with
    `P` only. -/
structure Safe (vfs : TokimoVfs σ) (P : Name → Prop) (J : σ → Prop) : Prop where
  keeps : ∀ (call : VfsCall) {s : σ}, (∀ p ∈ paths call, SpelledBy P p) → J s →
    J (vfs.invoke s call).2
  lists : ∀ {p : PathBuf} {s s' : σ} {entries : List DirEntry}, SpelledBy P p → J s →
    vfs.list p s = (.ok entries, s') → ∀ e ∈ entries, Shown P e.name

/-- A computation that keeps the paths spelled, and `J`. -/
abbrev KeepsAll (P : Name → Prop) (J : σ → Prop) (Q : α → Prop) (x : FuseM σ α) : Prop :=
  Eff.Keeps (fun st => Kept P st.1 ∧ J st.2) Q x

/-- The path behind a number is spelled. -/
theorem path_keeps (ino : Nat) : KeepsAll P J (SpelledBy P) (path ino : FuseM σ PathBuf) := by
  intro st hst
  rw [path]
  cases hp : st.1.pathFor ino with
  | none => exact ⟨hst, fun p h => by cases h⟩
  | some q =>
      refine ⟨hst, fun p h => ?_⟩
      rw [← Except.ok.inj h]
      exact hst.1.numbers ino q hp

/-- So is the path behind a handle. -/
theorem handlePath_keeps (fh : Nat) :
    KeepsAll P J (SpelledBy P) (handlePath fh : FuseM σ PathBuf) := by
  intro st hst
  rw [handlePath]
  cases hp : st.1.fhs.get fh with
  | none => exact ⟨hst, fun p h => by cases h⟩
  | some q =>
      refine ⟨hst, fun p h => ?_⟩
      rw [← Except.ok.inj h]
      exact hst.1.handles fh q hp

/-- A change of the tables keeps what it keeps of every state. -/
theorem update_keeps {f : TokimoFuse → α × TokimoFuse} (hf : ∀ a, Kept P a → Kept P (f a).2) :
    KeepsAll P J (fun _ => True) (update f : FuseM σ α) :=
  fun st hst => ⟨⟨hf st.1 hst.1, hst.2⟩, fun _ _ => True.intro⟩

/-- A call leaves the tables alone. -/
theorem call_keeps {x : VfsM σ α} (hx : ∀ s, J s → J (x s).2) :
    KeepsAll P J (fun _ => True) (call x) := by
  intro st hst
  refine ⟨?_, fun _ _ => True.intro⟩
  have hnext := hx st.2 hst.2
  rw [call]
  cases h : x st.2 with
  | mk res s' =>
      rw [h] at hnext
      cases res with
      | ok v => exact ⟨hst.1, hnext⟩
      | error e => exact ⟨hst.1, hnext⟩

/-- Listing a directory, with what is known about its names. -/
theorem list_keeps (hsafe : Safe vfs P J) {p : PathBuf} (hp : SpelledBy P p) :
    KeepsAll P J (fun es => ∀ e ∈ es, Shown P e.name) (call (vfs.list p)) := by
  have hcall : ∀ s, J s → J (vfs.list p s).2 := fun s hs =>
    hsafe.keeps (.list p) (by
      intro q hq
      rw [List.mem_singleton.mp hq]
      exact hp) hs
  intro st hst
  refine ⟨(call_keeps hcall st hst).1, fun es hes => ?_⟩
  obtain ⟨s', hs, -⟩ := call_ok (Prod.ext hes rfl : call (vfs.list p) st = (.ok es, _))
  exact hsafe.lists hp hst.2 hs

/-- The number of an entry is given to a spelled path. -/
theorem entryIno_keeps (ino : Nat) {p : PathBuf} (hp : SpelledBy P p) {name : Bytes}
    (hn : Shown P name) :
    KeepsAll P J (fun _ => True) (entryIno ino p name : FuseM σ Nat) := by
  rw [entryIno]
  by_cases h1 : name = dot
  · rw [if_pos h1]
    exact Eff.Keeps.pure True.intro
  · rw [if_neg h1]
    by_cases h2 : name = dotdot
    · rw [if_pos h2]
      exact Eff.Keeps.pure True.intro
    · rw [if_neg h2]
      rcases hn with h | h | h
      · exact absurd h h1
      · exact absurd h h2
      · exact update_keeps fun a ha => intern_kept ha (hp.join h)

/-- A page of entries is numbered name by name. -/
theorem addEntries_keeps (ino : Nat) {p : PathBuf} (hp : SpelledBy P p) :
    ∀ (list : List ((FileType × Bytes) × Nat)), (∀ e ∈ list, Shown P e.1.2) → ∀ room : Nat,
      KeepsAll P J (fun _ => True) (addEntries ino p room list : FuseM σ (List DirReply)) := by
  intro list
  induction list with
  | nil =>
      intro _ room
      rw [addEntries]
      exact Eff.Keeps.pure True.intro
  | cons e list ih =>
      obtain ⟨⟨kind, name⟩, i⟩ := e
      intro hall room
      have hone := entryIno_keeps (σ := σ) (J := J) ino hp
        (hall ((kind, name), i) (List.mem_cons_self ..))
      have hrest := ih fun e he => hall e (List.mem_cons_of_mem _ he)
      cases room with
      | zero => exact Eff.Keeps.bind hone fun _ _ => Eff.Keeps.pure True.intro
      | succ room =>
          exact Eff.Keeps.bind hone fun _ _ =>
            Eff.Keeps.bind (hrest room) fun _ _ => Eff.Keeps.pure True.intro

/-- The two entries every listing begins with spell nothing new. -/
theorem withDots_shown {entries : List DirEntry} (h : ∀ e ∈ entries, Shown P e.name) (k : Nat) :
    ∀ e ∈ (withDots entries).zipIdx.drop k, Shown P e.1.2 := by
  intro e he
  have hmem : e.1 ∈ withDots entries := by
    obtain ⟨x, i⟩ := e
    exact List.fst_mem_of_mem_zipIdx (List.mem_of_mem_drop he)
  rw [withDots] at hmem
  rcases List.mem_cons.mp hmem with heq | hmem
  · rw [heq]
    exact Or.inl rfl
  · rcases List.mem_cons.mp hmem with heq | hmem
    · rw [heq]
      exact Or.inr (Or.inl rfl)
    · obtain ⟨d, hd, heq⟩ := List.mem_map.mp hmem
      rw [← heq]
      exact h d hd

/-- **EVERY REQUEST KEEPS** what calls with spelled paths keep. -/
theorem serve_keeps (hsafe : Safe vfs P J) {req : FuseRequest} (hreq : req.Named P) :
    KeepsAll P J (fun _ => True) (serve vfs req) := by
  -- the pieces the handlers are made of, each with what it keeps
  have hone : ∀ {p q : PathBuf}, SpelledBy P p → q ∈ [p] → SpelledBy P q := by
    intro p q hp hq
    rw [List.mem_singleton.mp hq]
    exact hp
  have hstat : ∀ {p}, SpelledBy P p → KeepsAll P J (fun _ => True) (call (vfs.stat p)) :=
    fun hp => call_keeps fun s hs => hsafe.keeps (.stat _) (fun q hq => hone hp hq) hs
  have hintern : ∀ {p name}, SpelledBy P p → (∃ h : ordinary name = true, P ⟨name, h⟩) →
      KeepsAll P J (fun _ => True) (update (·.intern (join p name)) : FuseM σ Nat) :=
    fun hp hn => update_keeps fun a ha => intern_kept ha (hp.join hn)
  have halloc : ∀ {p}, SpelledBy P p →
      KeepsAll P J (fun _ => True) (update (·.allocFh p) : FuseM σ Nat) :=
    fun hp => update_keeps fun a ha => allocFh_kept ha hp
  have hdone : ∀ {β : Type} (v : β), KeepsAll P J (fun _ => True) (pure v : FuseM σ β) :=
    fun v => Eff.Keeps.pure True.intro
  have hanswer : ∀ {β : Type} {x : FuseM σ β} (f : β → FuseReply),
      KeepsAll P J (fun _ => True) x →
      KeepsAll P J (fun _ => True) (x >>= fun v => (pure (f v) : FuseM σ FuseReply)) :=
    fun f hx => Eff.Keeps.bind hx fun _ _ => Eff.Keeps.pure True.intro
  cases req with
  | lookup parent name =>
      have hn := hreq name (List.mem_cons_self ..)
      refine hanswer .entry (Eff.Keeps.bind (path_keeps parent) fun p hp => ?_)
      exact Eff.Keeps.bind (hstat (hp.join hn)) fun _ _ =>
        Eff.Keeps.bind (hintern hp hn) fun _ _ => hdone _
  | getattr ino =>
      refine hanswer .attr (Eff.Keeps.bind (path_keeps ino) fun p hp => ?_)
      exact Eff.Keeps.bind (hstat hp) fun _ _ => hdone _
  | setattr ino size =>
      refine hanswer .attr (Eff.Keeps.bind (path_keeps ino) fun p hp => ?_)
      have hlast : KeepsAll P J (fun _ => True)
          (call (vfs.stat p) >>= fun a => (pure (toFuseAttr ino a) : FuseM σ FuseAttr)) :=
        Eff.Keeps.bind (hstat hp) fun _ _ => hdone _
      cases size with
      | none => exact hlast
      | some sz =>
          refine Eff.Keeps.bind (call_keeps fun s hs => ?_) fun _ _ => hlast
          exact hsafe.keeps (.truncate p sz) (fun q hq => hone hp hq) hs
  | opendir ino =>
      exact hanswer .opened (Eff.Keeps.bind (path_keeps ino) fun p hp => halloc hp)
  | releasedir fh =>
      exact hanswer (fun _ => .ok) (update_keeps fun a ha => dropFh_kept ha fh)
  | readdir ino offset room =>
      refine hanswer .directory (Eff.Keeps.bind (path_keeps ino) fun p hp => ?_)
      exact Eff.Keeps.bind (list_keeps hsafe hp) fun es hes =>
        addEntries_keeps ino hp _ (withDots_shown hes _) room
  | open' ino =>
      exact hanswer .opened (Eff.Keeps.bind (path_keeps ino) fun p hp => halloc hp)
  | release fh =>
      exact hanswer (fun _ => .ok) (update_keeps fun a ha => dropFh_kept ha fh)
  | read fh offset size =>
      refine hanswer .data (Eff.Keeps.bind (handlePath_keeps fh) fun p hp => ?_)
      exact call_keeps fun s hs => hsafe.keeps (.read p (clampOffset offset) size)
        (fun q hq => hone hp hq) hs
  | write fh offset data =>
      refine hanswer .written (Eff.Keeps.bind (handlePath_keeps fh) fun p hp => ?_)
      exact call_keeps fun s hs => hsafe.keeps (.write p (clampOffset offset) data)
        (fun q hq => hone hp hq) hs
  | create parent name mode =>
      have hn := hreq name (List.mem_cons_self ..)
      refine hanswer (fun r : FuseAttr × Nat => .created r.1 r.2)
        (Eff.Keeps.bind (path_keeps parent) fun p hp => ?_)
      refine Eff.Keeps.bind (call_keeps fun s hs => hsafe.keeps (.create _ mode)
        (fun q hq => hone (hp.join hn) hq) hs) fun _ _ => ?_
      exact Eff.Keeps.bind (hintern hp hn) fun _ _ =>
        Eff.Keeps.bind (halloc (hp.join hn)) fun _ _ => hdone _
  | mkdir parent name mode =>
      have hn := hreq name (List.mem_cons_self ..)
      refine hanswer .entry (Eff.Keeps.bind (path_keeps parent) fun p hp => ?_)
      refine Eff.Keeps.bind (call_keeps fun s hs => hsafe.keeps (.mkdir _ mode)
        (fun q hq => hone (hp.join hn) hq) hs) fun _ _ => ?_
      exact Eff.Keeps.bind (hintern hp hn) fun _ _ => hdone _
  | unlink parent name =>
      have hn := hreq name (List.mem_cons_self ..)
      refine hanswer (fun _ => .ok) (Eff.Keeps.bind (path_keeps parent) fun p hp => ?_)
      exact call_keeps fun s hs => hsafe.keeps (.remove _)
        (fun q hq => hone (hp.join hn) hq) hs
  | rmdir parent name =>
      have hn := hreq name (List.mem_cons_self ..)
      refine hanswer (fun _ => .ok) (Eff.Keeps.bind (path_keeps parent) fun p hp => ?_)
      exact call_keeps fun s hs => hsafe.keeps (.rmdir _)
        (fun q hq => hone (hp.join hn) hq) hs
  | rename parent name newparent newname =>
      have hn := hreq name (List.mem_cons_self ..)
      -- the only request with two names
      have hn' := hreq newname (List.mem_cons_of_mem _ (List.mem_cons_self ..))
      refine hanswer (fun _ => .ok) (Eff.Keeps.bind (path_keeps parent) fun p hp =>
        Eff.Keeps.bind (path_keeps newparent) fun np hnp => ?_)
      refine call_keeps fun s hs => hsafe.keeps
        (.rename (join p name) (join np newname)) (fun q hq => ?_) hs
      rcases List.mem_cons.mp hq with rfl | hq
      · exact hp.join hn
      · exact hone (hnp.join hn') hq

/-- **THE RUN RULE OF AN AGENT**: what calls with spelled paths keep holds
    along every run from a new agent. -/
theorem serving_keeps (hsafe : Safe vfs P J) {s₀ : σ} (h₀ : J s₀) {st : TokimoFuse × σ}
    {tr : List (Except Errno FuseReply)}
    (hrun : Run (serving vfs) (fun _ req => req.Named P) (.start, s₀) st tr) :
    Kept P st.1 ∧ J st.2 := by
  refine Run.invariant (I := fun st _ => Kept P st.1 ∧ J st.2) ⟨start_kept, h₀⟩ ?_ hrun
  intro st tr req st' es hst hreq hstep
  obtain ⟨rfl, -⟩ := Prod.mk.inj (Option.some.inj hstep)
  exact (serve_keeps hsafe hreq st hst).1

/-! ## The calls that are made -/

/-- The log grows by the call that is made. -/
theorem invoke_logged (vfs : TokimoVfs σ) (s : σ) (log : List VfsCall) (c : VfsCall) :
    (vfs.logged.invoke (s, log) c).2 = ((vfs.invoke s c).2, log ++ [c]) := by
  cases c with
  | stat p => rfl
  | list p => rfl
  | read p off len => rfl
  | write p off data => rfl
  | create p mode => rfl
  | mkdir p mode => rfl
  | remove p => rfl
  | rmdir p => rfl
  | rename p q => rfl
  | truncate p size => rfl

/-- **AN AGENT ASKS FOR SPELLED PATHS ONLY**: along every run, over a file
    system that lists names with `P`, every path of every call is made of
    names with `P`, one after the other. -/
theorem asks_spelled
    (hlist : ∀ {p : PathBuf} {s s' : σ} {entries : List DirEntry},
      vfs.list p s = (.ok entries, s') → ∀ e ∈ entries, Shown P e.name)
    {s₀ : σ} {st : TokimoFuse × σ × List VfsCall} {tr : List (Except Errno FuseReply)}
    (hrun : Run (serving vfs.logged) (fun _ req => req.Named P) (.start, s₀, []) st tr) :
    ∀ c ∈ st.2.2, ∀ p ∈ paths c, SpelledBy P p := by
  have hsafe : Safe vfs.logged P (fun t => ∀ c ∈ t.2, ∀ p ∈ paths c, SpelledBy P p) := by
    refine ⟨?_, ?_⟩
    · rintro c ⟨s, log⟩ hpaths hlog c' hc'
      rw [invoke_logged] at hc'
      rcases List.mem_append.mp hc' with hmem | hmem
      · exact hlog c' hmem
      · rw [List.mem_singleton.mp hmem]
        exact hpaths
    · rintro p ⟨s, log⟩ s' entries - - h
      exact hlist (Prod.ext (Prod.mk.inj h).1 rfl : vfs.list p s = (.ok entries, _))
  exact (serving_keeps hsafe (List.forall_mem_nil _) hrun).2

/-- The agent of a mount with one file looks it up, and removes it. -/
theorem file_asks_spelled : ∃ st : TokimoFuse × TokimoHost.HostState × List VfsCall,
    st.2.2 = [.stat (PathBuf.ofBytes [47, 102]), .remove (PathBuf.ofBytes [47, 102])]
      ∧ ∀ c ∈ st.2.2, ∀ p ∈ paths c, SpelledBy (fun _ => True) p := by
  have hnamed : ∀ {req : FuseRequest}, req.names = [[102]] → req.Named fun _ => True := by
    intro req hreq n hn
    rw [hreq] at hn
    rw [List.mem_singleton.mp hn]
    exact ⟨rfl, True.intro⟩
  refine ⟨_, ?_, @asks_spelled _ (mounted chunkFs) (fun _ => True) (fun h e he => ?_) chunkHost _ _
    (Run.step (.unlink 1 [102]) (Run.step (.lookup 1 [102]) Run.start (hnamed rfl) rfl)
      (hnamed rfl) rfl)⟩
  · decide
  · rcases hostFs_lists_names chunkFs h e he with hdot | hdots | hname
    · exact Or.inl hdot
    · exact Or.inr (Or.inl hdots)
    · exact Or.inr (Or.inr ⟨hname, True.intro⟩)

end TokimoFuseAgent
