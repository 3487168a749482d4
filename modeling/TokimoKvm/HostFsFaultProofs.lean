import TokimoKvm.HostObjectProofs
import TokimoKvm.ShortReadProofs

/-! # Failing calls of `HostFs` — what they leave behind

    Any host call of an operation may fail.  Operations whose one changing
    call is the last leave the tree as it was.  `mkdir` and `create` change
    the tree and then ask for attributes, and `write` empties the file before
    it seeks and writes: what they leave when a later call fails is told
    exactly by `Spoils`, a condition on the host and on the calls that fail. -/

namespace TokimoHostFs

open TokimoMachine TokimoBytes TokimoPath TokimoTable TokimoVfsCore TokimoHost

/-! ## Leaving the tree as it was -/

/-- Directories, links and the contents of files, by their places. -/
def nodes (st : Counted) : Loc → Option Node := nodeAt st.1.tree

/-- A computation that fails leaves every node as it was. -/
def Spotless {ε α : Type} (x : Eff Counted ε α) : Prop :=
  ∀ st e, (x st).1 = .error e → nodes (x st).2 = nodes st

section Library

variable {ε ε' α β : Type} {x : Eff Counted ε α}

/-- What never touches the nodes has not touched them when it fails. -/
theorem Spotless.of_frame (h : Eff.Frame nodes x) : Spotless x := fun st _ _ => h st

/-- Another name for the error does not matter. -/
theorem Spotless.mapErr (g : ε → ε') (h : Spotless x) : Spotless (Eff.mapErr g x) := by
  intro st e he
  rw [Eff.mapErr_state]
  cases hx : x st with
  | mk r st' =>
      cases r with
      | ok a =>
          rw [Eff.mapErr_of_ok hx] at he
          exact nomatch he
      | error e' =>
          have h' := h st e' (by rw [hx])
          rw [hx] at h'
          exact h'

/-- Only the last of several computations may change something. -/
theorem Spotless.bind {f : α → Eff Counted ε β} (hx : Eff.Frame nodes x)
    (hf : ∀ a, Spotless (f a)) : Spotless (x >>= f) := by
  intro st e he
  have h0 := hx st
  rcases Eff.bind_cases x f st with ⟨a, st', h1, h2⟩ | ⟨e', st', h1, h2⟩
  · rw [h1] at h0
    rw [h2] at he ⊢
    exact (hf a st' e he).trans h0
  · rw [h1] at h0
    rw [h2]
    exact h0

end Library

section Calls

variable {α : Type} {luck : Luck}

/-- A call that is counted did what it does, or failed and did nothing. -/
theorem whole_cases (luck : Luck) (x : Eff HostState IoError α) (s : HostState) (i : Nat) :
    (luck.faults i = none ∧ luck.whole x (s, i) = ((x s).1, ((x s).2, i + 1)))
      ∨ ∃ e, luck.faults i ≠ none ∧ luck.whole x (s, i) = (.error e, (s, i + 1)) := by
  cases hf : luck.faults i with
  | none => exact Or.inl ⟨rfl, Luck.whole_of_none hf⟩
  | some f =>
      obtain ⟨k, e⟩ := f
      exact Or.inr ⟨e, Option.some_ne_none _, Luck.whole_of_some hf⟩

/-- Bad luck leaves alone what the call leaves alone. -/
theorem whole_frame {x : Eff HostState IoError α} (h : Eff.Frame bare x) :
    Eff.Frame nodes (luck.whole x) := by
  rintro ⟨s, i⟩
  rcases whole_cases luck x s i with ⟨-, hx⟩ | ⟨e, -, hx⟩
  · rw [hx]
    have htree : (bare (x s).2).tree = (bare s).tree := by rw [h s]
    exact congrArg nodeAt htree
  · rw [hx]
    rfl

end Calls

variable {fs : HostFs} {luck : Luck}

/-- Making a path canonical changes nothing. -/
theorem canonicalize_bare (p : PathBuf) : Eff.Frame bare (TokimoHost.canonicalize p) := by
  intro s
  rw [TokimoHost.canonicalize]
  cases realpath s p with
  | ok l => rfl
  | error e => rfl

/-- Resolving leaves the nodes alone, under any luck. -/
theorem resolve_nodes (p : PathBuf) : Eff.Frame nodes (fs.resolve (luckyHost luck) p) := by
  refine Eff.Frame.bind (Eff.Frame.mapErr _ (whole_frame (canonicalize_bare fs.root))) ?_
  intro canonRoot
  refine Eff.Frame.bind (Eff.Frame.recover _ (whole_frame (canonicalize_bare (fs.probe p)))) ?_
  intro canonParent
  by_cases hin : (!canonParent.startsWith canonRoot) = true
  · rw [if_pos hin]
    exact Eff.Frame.fail _
  · rw [if_neg hin]
    exact Eff.Frame.pure _

/-- So does the check for read-only. -/
theorem checkRw_nodes : Eff.Frame nodes (fs.checkRw : VfsM Counted Unit) := by
  rw [HostFs.checkRw]
  by_cases hro : fs.readOnly = true
  · rw [if_pos hro]
    exact Eff.Frame.fail _
  · rw [if_neg hro]
    exact Eff.Frame.pure _

/-- So does a read. -/
theorem read_nodes (f : Fd) (n : Nat) : Eff.Frame nodes ((luckyHost luck).read f n) := by
  rintro ⟨s, i⟩
  rw [luckyHost_read, Luck.call]
  cases luck.faults i with
  | some f => rfl
  | none =>
      have hs : (posix.read f (min n (luck.cuts i + 1)) s).2 = s := read_frame f _ s
      show nodeAt (posix.read f (min n (luck.cuts i + 1)) s).2.tree = nodeAt s.tree
      rw [hs]

/-- So do many. -/
theorem fill_nodes (want : Nat) : ∀ (fuel : Nat) (f : Fd) (buf : Bytes),
    Eff.Frame nodes (HostFs.fill (luckyHost luck) want fuel f buf) := by
  intro fuel
  induction fuel with
  | zero => intro f buf; exact Eff.Frame.pure buf
  | succ fuel ih =>
      intro f buf
      rw [HostFs.fill]
      by_cases hlen : buf.length < want
      · rw [if_pos hlen]
        refine Eff.Frame.bind (Eff.Frame.mapErr _ (read_nodes f _)) ?_
        intro got
        by_cases hb : got.1.isEmpty = true
        · rw [if_pos hb]
          exact Eff.Frame.pure buf
        · rw [if_neg hb]
          exact ih got.2 (buf ++ got.1)
      · rw [if_neg hlen]
        exact Eff.Frame.pure buf

/-! ## Operations with one changing call -/

/-- A call that succeeds, or fails and leaves the host as it was. -/
def Atomic {α : Type} (x : Eff HostState IoError α) : Prop :=
  ∀ s, (∃ a s', x s = (.ok a, s')) ∨ ∃ e, x s = (.error e, s)

/-- A call that does all or nothing is clean under any luck. -/
theorem atomic_spotless {α : Type} {x : Eff HostState IoError α} (h : Atomic x) :
    Spotless (luck.whole x) := by
  rintro ⟨s, i⟩ e he
  rcases whole_cases luck x s i with ⟨-, hx⟩ | ⟨e', -, hx⟩
  · rw [hx] at he ⊢
    rcases h s with ⟨a, s', ha⟩ | ⟨e', he'⟩
    · rw [ha] at he
      exact nomatch he
    · rw [he']
      rfl
  · rw [hx]
    rfl

/-- `unlink` does all or nothing. -/
theorem removeFile_atomic (p : PathBuf) : Atomic (TokimoHost.removeFile p) := by
  intro s
  rcases removeFile_cases s p with ⟨d, n, -, -, -, h⟩ | ⟨e, h⟩
  · exact Or.inl ⟨_, _, h⟩
  · exact Or.inr ⟨e, h⟩

/-- So does `rmdir`. -/
theorem removeDir_atomic (p : PathBuf) : Atomic (TokimoHost.removeDir p) := by
  intro s
  rcases removeDir_cases s p with ⟨d, n, slash, -, -, -, h⟩ | ⟨e, h⟩
  · exact Or.inl ⟨_, _, h⟩
  · exact Or.inr ⟨e, h⟩

/-- So does `rename`. -/
theorem rename_atomic (p q : PathBuf) : Atomic (TokimoHost.rename p q) := by
  intro s
  rcases rename_cases s p q with ⟨d, n, sl, d', n', sl', i, -, -, -, -, h⟩ | ⟨e, h⟩
  · exact Or.inl ⟨_, _, h⟩
  · exact Or.inr ⟨e, h⟩

/-- So does `ftruncate`. -/
theorem setLen_atomic (f : Fd) (size : UInt64) : Atomic (TokimoHost.setLen f size) := by
  intro s
  rw [TokimoHost.setLen]
  by_cases hm : maxOffset < size.toNat
  · rw [if_pos hm]
    exact Or.inr ⟨_, rfl⟩
  · rw [if_neg hm]
    cases hg : s.tree.get f.loc with
    | none => exact Or.inr ⟨_, rfl⟩
    | some i =>
        cases hi : i.node with
        | dir => simp only [hi]; exact Or.inr ⟨_, rfl⟩
        | symlink target => simp only [hi]; exact Or.inr ⟨_, rfl⟩
        | file old => simp only [hi]; exact Or.inl ⟨_, _, rfl⟩

/-- So `remove` fails clean. -/
theorem remove_spotless (p : PathBuf) : Spotless (fs.remove (luckyHost luck) p) :=
  Spotless.bind checkRw_nodes fun _ =>
    Spotless.bind (resolve_nodes p) fun q =>
      Spotless.mapErr _ (atomic_spotless (removeFile_atomic q))

/-- So does `rmdir`. -/
theorem rmdir_spotless (p : PathBuf) : Spotless (fs.rmdir (luckyHost luck) p) :=
  Spotless.bind checkRw_nodes fun _ =>
    Spotless.bind (resolve_nodes p) fun q =>
      Spotless.mapErr _ (atomic_spotless (removeDir_atomic q))

/-- So does `rename`. -/
theorem rename_spotless (p q : PathBuf) : Spotless (fs.rename (luckyHost luck) p q) :=
  Spotless.bind checkRw_nodes fun _ =>
    Spotless.bind (resolve_nodes p) fun f =>
      Spotless.bind (resolve_nodes q) fun t =>
        Spotless.mapErr _ (atomic_spotless (rename_atomic f t))

/-- So does `truncate`, which opens without truncating. -/
theorem truncate_spotless (p : PathBuf) (size : UInt64) :
    Spotless (fs.truncate (luckyHost luck) p size) :=
  Spotless.bind checkRw_nodes fun _ =>
    Spotless.bind (resolve_nodes p) fun q =>
      Spotless.bind (Eff.Frame.mapErr _ (whole_frame (openFile_bare rfl rfl q))) fun f =>
        Spotless.mapErr _ (atomic_spotless (setLen_atomic f size))

/-- `stat` has nothing to spoil. -/
theorem stat_spotless (p : PathBuf) : Spotless (fs.stat (luckyHost luck) p) :=
  Spotless.bind (resolve_nodes p) fun q => Spotless.of_frame
    (Eff.Frame.bind (Eff.Frame.mapErr _ (whole_frame (symlinkMetadata_bare q)))
      fun _ => Eff.Frame.pure _)

/-- Nor has `list`. -/
theorem list_spotless (p : PathBuf) : Spotless (fs.list (luckyHost luck) p) :=
  Spotless.bind (resolve_nodes p) fun q => Spotless.of_frame
    (Eff.Frame.bind (Eff.Frame.mapErr _ (whole_frame (readDir_bare q)))
      fun _ => Eff.Frame.pure _)

/-- Nor has `read`. -/
theorem read_spotless (p : PathBuf) (off : UInt64) (len : UInt32) :
    Spotless (fs.read (luckyHost luck) p off len) :=
  Spotless.bind (resolve_nodes p) fun q =>
    Spotless.bind (Eff.Frame.mapErr _ (whole_frame (openFile_bare rfl rfl q))) fun f =>
      Spotless.bind (Eff.Frame.mapErr _ (whole_frame (bare_of_id (seek_frame f off)))) fun g =>
        Spotless.of_frame (fill_nodes _ _ g [])

/-! ## What the check lets through when calls fail -/

/-- The jail check lets the request through, its two calls being numbered from
    `i`: when the second fails, the path is taken as it is spelled. -/
def AcceptedUnder (luck : Luck) (i : Nat) (s : HostState) (fs : HostFs) (p : PathBuf) : Prop :=
  luck.faults i = none ∧ ∃ r, realpath s fs.root = .ok r
    ∧ ((luck.faults (i + 1) = none ∧ ∃ c, realpath s (fs.probe p) = .ok c ∧ r <+: c)
      ∨ ((luck.faults (i + 1) ≠ none ∨ ∃ e, realpath s (fs.probe p) = .error e)
        ∧ (fs.probe p).startsWith (locPath r) = true))

variable {s : HostState} {i : Nat}

/-- Under any luck a path is made canonical, or refused with nothing done. -/
theorem canonicalize_under (luck : Luck) (q : PathBuf) (s : HostState) (i : Nat) :
    (∃ l, luck.faults i = none ∧ realpath s q = .ok l
        ∧ (luckyHost luck).canonicalize q (s, i) = (.ok (locPath l), (s, i + 1)))
      ∨ ((luck.faults i ≠ none ∨ ∃ e, realpath s q = .error e)
        ∧ ∃ e, (luckyHost luck).canonicalize q (s, i) = (.error e, (s, i + 1))) := by
  rcases whole_cases luck (posix.canonicalize q) s i with ⟨hno, hx⟩ | ⟨e, hf, hx⟩
  · cases hq : realpath s q with
    | ok l =>
        have hc : posix.canonicalize q s = (.ok (locPath l), s) := canonicalize_of_ok hq
        rw [hc] at hx
        exact Or.inl ⟨l, hno, rfl, hx⟩
    | error e =>
        have hc : posix.canonicalize q s = (.error e, s) := canonicalize_of_error hq
        rw [hc] at hx
        exact Or.inr ⟨Or.inr ⟨e, rfl⟩, e, hx⟩
  · exact Or.inr ⟨Or.inl hf, e, hx⟩

/-- **`resolve` UNDER FAULTS** hands on the joined path, or fails; it changes
    nothing. -/
theorem resolve_under (luck : Luck) (fs : HostFs) (s : HostState) (i : Nat) (p : PathBuf) :
    (AcceptedUnder luck i s fs p
        ∧ fs.resolve (luckyHost luck) p (s, i) = (.ok (fs.joined p), (s, i + 2)))
      ∨ (¬ AcceptedUnder luck i s fs p
        ∧ ∃ e j, fs.resolve (luckyHost luck) p (s, i) = (.error e, (s, j))) := by
  rcases canonicalize_under luck fs.root s i with ⟨r, hno, hr, hroot⟩ | ⟨hbad, e, hroot⟩
  · have huniq : ∀ r', realpath s fs.root = .ok r' → r' = r := by
      intro r' hr'
      rw [hr] at hr'
      exact (Except.ok.inj hr').symm
    rw [HostFs.resolve, Eff.bind_of_ok (Eff.mapErr_of_ok hroot)]
    rcases canonicalize_under luck (fs.probe p) s (i + 1)
      with ⟨c, hno', hc, hprobe⟩ | ⟨hbad, e, hprobe⟩
    -- the parent is made canonical, or else compared as it is spelled
    · have hrec : Eff.recover (fs.probe p) ((luckyHost luck).canonicalize (fs.probe p)) (s, i + 1)
          = ((.ok (locPath c) : Except VfsError PathBuf), (s, i + 2)) := by
        rw [Eff.recover, hprobe]
      rw [Eff.bind_of_ok hrec]
      by_cases hin : r <+: c
      · rw [(locPath_startsWith c r).mpr hin]
        exact Or.inl ⟨⟨hno, r, hr, Or.inl ⟨hno', c, hc, hin⟩⟩, rfl⟩
      · have hst : (locPath c).startsWith (locPath r) = false :=
          Bool.eq_false_iff.mpr fun h => hin ((locPath_startsWith c r).mp h)
        rw [hst]
        refine Or.inr ⟨?_, _, _, rfl⟩
        rintro ⟨-, r', hr', ⟨-, c', hc', hin'⟩ | ⟨hbad, -⟩⟩
        · rw [hc] at hc'
          rw [huniq r' hr', ← Except.ok.inj hc'] at hin'
          exact hin hin'
        · rcases hbad with hf | ⟨e, he⟩
          · exact hf hno'
          · rw [hc] at he
            cases he
    · have hrec : Eff.recover (fs.probe p) ((luckyHost luck).canonicalize (fs.probe p)) (s, i + 1)
          = ((.ok (fs.probe p) : Except VfsError PathBuf), (s, i + 2)) := by
        rw [Eff.recover, hprobe]
      rw [Eff.bind_of_ok hrec]
      cases hst : (fs.probe p).startsWith (locPath r) with
      | true => exact Or.inl ⟨⟨hno, r, hr, Or.inr ⟨hbad, hst⟩⟩, rfl⟩
      | false =>
          refine Or.inr ⟨?_, _, _, rfl⟩
          rintro ⟨-, r', hr', ⟨hno', c', hc', -⟩ | ⟨-, hst'⟩⟩
          · rcases hbad with hf | ⟨e, he⟩
            · exact hf hno'
            · rw [hc'] at he
              cases he
          · rw [huniq r' hr', hst] at hst'
            cases hst'
  · refine Or.inr ⟨?_, .io e.text, i + 1, ?_⟩
    · rintro ⟨hno, r, hr, -⟩
      rcases hbad with hf | ⟨e, he⟩
      · exact hf hno
      · rw [hr] at he
        cases he
    · rw [HostFs.resolve]
      exact Eff.bind_of_error (Eff.mapErr_of_error hroot)

/-! ## What is there after the first call -/

/-- A walk that ends at something ends at something as well when it does not
    follow a last link: at the same place, or at that link. -/
theorem walk_nofollow {t : Tree} (k : Nat) (dir : Loc) (l : List Seg) :
    ∀ {d : Loc} {k' : Nat}, walk t true k dir l = .ok (.at d k') →
      ∃ d' k'', walk t false k dir l = .ok (.at d' k'')
        ∧ (d' = d ∨ ∃ target, nodeAt t d' = some (.symlink target)) := by
  refine walk_induction (t := t) (P := fun k dir l => ∀ {d : Loc} {k' : Nat},
    walk t true k dir l = .ok (.at d k') →
      ∃ d' k'', walk t false k dir l = .ok (.at d' k'')
        ∧ (d' = d ∨ ∃ target, nodeAt t d' = some (.symlink target)))
    ?_ ?_ ?_ ?_ ?_ ?_ ?_ k dir l
  · intro k dir d k' h
    rw [walk_nil] at h ⊢
    obtain ⟨rfl, rfl⟩ := Walked.at.inj (Except.ok.inj h)
    exact ⟨_, _, rfl, Or.inl rfl⟩
  · intro k dir s l hs ih d k' h
    rw [walk_skip_cons _ _ _ _ _ hs] at h ⊢
    exact ih h
  · intro k dir l ih d k' h
    rw [walk_up] at h ⊢
    exact ih h
  · intro k dir n l hn d k' h
    rw [walk_name_none _ _ _ hn] at h
    split at h <;> exact nomatch h
  · intro k dir n l hn ih d k' h
    rw [walk_name_dir _ _ _ hn] at h ⊢
    exact ih h
  · intro k dir n l data hn d k' h
    rw [walk_name_file _ _ _ hn] at h ⊢
    exact ⟨d, k', h, Or.inl rfl⟩
  · intro k dir n l target hn ih d k' h
    rw [walk_name_link _ _ _ hn] at h ⊢
    simp only [Bool.not_true, Bool.and_false, Bool.false_eq_true, if_false] at h
    by_cases hl : l.isEmpty = true
    · -- the link is the last piece: it is what there is
      rw [hl]
      exact ⟨_, _, rfl, Or.inr ⟨target, hn⟩⟩
    · rw [Bool.eq_false_iff.mpr hl]
      by_cases ht : target.isEmptyStr = true
      · rw [if_pos ht] at h
        exact nomatch h
      · rw [if_neg ht] at h
        simp only [Bool.false_and, Bool.false_eq_true, if_false, if_neg ht]
        cases k with
        | zero => exact nomatch h
        | succ k => exact ih k rfl h

/-- What was opened to be written is an empty file, and the rest is as it
    was. -/
theorem Opened.emptied {s s' : HostState} {w : Walked} (h : Opened writeOptions s w s') :
    nodeAt s'.tree w.place = some (.file [])
      ∧ ∀ v, v ≠ w.place → nodeAt s'.tree v = nodeAt s.tree v := by
  cases h with
  | new d n hn =>
      refine ⟨?_, fun v hv => ?_⟩
      · show nodeAt (s.tree.insert (d ++ [n]) _) (d ++ [n]) = _
        rw [nodeAt_insert, if_pos rfl]
      · show nodeAt (s.tree.insert (d ++ [n]) _) v = _
        rw [nodeAt_insert, if_neg fun heq => hv heq.symm]
  | dir l k hn ho => exact nomatch ho
  | cut l k i data hg hi ht =>
      refine ⟨?_, fun v hv => ?_⟩
      · show nodeAt (s.tree.insert l _) l = _
        rw [nodeAt_insert, if_pos rfl, HostState.filled_node]
      · show nodeAt (s.tree.insert l _) v = _
        rw [nodeAt_insert, if_neg fun heq => hv heq.symm]
  | keep l k i data hg hi ht => exact nomatch ht

/-- What was opened is where the path leads, and without following a last
    link there is something as well. -/
theorem opened_lookup {s s' : HostState} {j : PathBuf} {w : Walked}
    (hl : lookup s true j = .ok w) (hop : opens writeOptions s.tree w = true)
    (h : Opened writeOptions s w s') (ls : List Loc) :
    ∃ d k, lookup (s'.touch ls) false j = .ok (.at d k)
      ∧ (d = w.place ∨ ∃ target, nodeAt s'.tree d = some (.symlink target)) := by
  obtain ⟨hcwd, -, hext⟩ := h.extends
  obtain ⟨hfile, -⟩ := Opened.emptied h
  obtain ⟨hnul, hne, hwalk⟩ := lookup_ok hl
  have hfollow : ∃ k, walk s'.tree true symloopMax (startOf j s.cwd) j.body
      = .ok (.at w.place k) := by
    cases w with
    | «at» l k => exact ⟨k, walk_extend hext hwalk⟩
    | missing d n slash =>
        cases slash with
        | true => exact nomatch hop
        | false => exact walk_found hfile hext _ _ _ hwalk
  obtain ⟨k, hk⟩ := hfollow
  obtain ⟨d', k', hno, hthere⟩ := walk_nofollow _ _ _ hk
  refine ⟨d', k', ?_, hthere⟩
  rw [lookup_walk hnul hne]
  show walk s'.tree false symloopMax (startOf j s'.cwd) j.body = _
  rw [hcwd, hno]

/-- After opening there is something to ask the attributes of. -/
theorem opened_found {s s' : HostState} {j : PathBuf} {w : Walked}
    (hl : lookup s true j = .ok w) (hop : opens writeOptions s.tree w = true)
    (h : Opened writeOptions s w s') (ls : List Loc) :
    ∃ m s'', symlinkMetadata j (s'.touch ls) = (.ok m, s'') := by
  obtain ⟨d, k, hlook, hthere⟩ := opened_lookup hl hop h ls
  rcases symlinkMetadata_cases (s'.touch ls) j with ⟨l, k, i, -, -, hm⟩ | ⟨-, hnone⟩
  · exact ⟨_, _, hm⟩
  · have hd : nodeAt s'.tree d = none := hnone d k hlook
    rcases hthere with heq | ⟨target, hlink⟩
    · rw [heq, (Opened.emptied h).1] at hd
      exact nomatch hd
    · exact nomatch hlink.symm.trans hd

/-- A directory that was made is where the path leads. -/
theorem made_lookup {s : HostState} {j : PathBuf} {d : Loc} {n : Name} {slash : Bool}
    (h : lookupParent s j = .ok (.entry d n slash))
    (hfree : nodeAt s.tree (d ++ [n]) = none) (mode : Nat) (ls : List Loc) :
    ∃ k, lookup ((s.addNode (d ++ [n]) .dir mode).touch ls) false j = .ok (.at (d ++ [n]) k) := by
  obtain ⟨hnul, hne, l, tail, k, hbody, htail, hwalk⟩ := lookupParent_entry h
  generalize hs' : (s.addNode (d ++ [n]) .dir mode).touch ls = s'
  have hnew : ∀ v, nodeAt s'.tree v = if d ++ [n] = v then some .dir else nodeAt s.tree v := by
    intro v
    rw [← hs']
    exact nodeAt_insert s.tree (d ++ [n]) v _
  have hext : ∀ v, nodeAt s.tree v ≠ none → shapeAt s.tree v = shapeAt s'.tree v := by
    intro v hv
    have hne : d ++ [n] ≠ v := by
      rintro rfl
      exact hv hfree
    rw [shapeAt, shapeAt, hnew v, if_neg hne]
  have hdir : nodeAt s'.tree (d ++ [n]) = some .dir := by rw [hnew, if_pos rfl]
  have hcwd : s'.cwd = s.cwd := by rw [← hs']; rfl
  refine ⟨k, ?_⟩
  rw [lookup_walk hnul hne, hcwd, hbody,
    walk_append ⟨.name n, List.mem_cons_self .., rfl⟩, walk_extend hext hwalk, andWalk,
    walk_name_dir _ _ _ hdir, ← List.append_nil tail, walk_skip [] htail, walk_nil]

/-- A directory that was made can be asked for its attributes. -/
theorem made_found {s : HostState} {j : PathBuf} {d : Loc} {n : Name} {slash : Bool}
    (h : lookupParent s j = .ok (.entry d n slash))
    (hfree : nodeAt s.tree (d ++ [n]) = none) (mode : Nat) (ls : List Loc) :
    ∃ m s', symlinkMetadata j ((s.addNode (d ++ [n]) .dir mode).touch ls) = (.ok m, s') := by
  obtain ⟨k, hlook⟩ := made_lookup h hfree mode ls
  rcases symlinkMetadata_cases ((s.addNode (d ++ [n]) .dir mode).touch ls) j with
    ⟨l, k, i, -, -, h⟩ | ⟨-, hnone⟩
  · exact ⟨_, _, h⟩
  · have hdir : nodeAt ((s.addNode (d ++ [n]) .dir mode).touch ls).tree (d ++ [n])
        = some .dir := by
      refine (nodeAt_insert s.tree (d ++ [n]) (d ++ [n]) _).trans ?_
      rw [if_pos rfl]
    rw [hnone _ _ hlook] at hdir
    exact nomatch hdir

/-! ## What a failing operation may leave, and what it leaves -/

/-- The bytes of the file a path leads to, if it leads to one. -/
def held (s : HostState) : Walked → Option Bytes
  | .missing _ _ _ => none
  | .at l _ =>
      match nodeAt s.tree l with
      | some (.file old) => some old
      | _ => none

/-- The bytes outside `[off, off + len)` are those of the file before, and the
    file does not reach beyond both. -/
def KeptOutside (off len : Nat) (old new : Bytes) : Prop :=
  (∀ j, j < old.length → j < off ∨ off + len ≤ j → new[j]? = old[j]?)
    ∧ new.length ≤ max old.length (off + len)

/-- The seek of a write fails: by itself, or because the offset is too large. -/
def SeekFails (luck : Luck) (i : Nat) (off : UInt64) : Prop :=
  luck.faults (i + 3) ≠ none ∨ maxOffset < off.toNat

/-- The data transfer of a write fails. -/
def TransferFails (luck : Luck) (i : Nat) (off : UInt64) (data : Bytes) : Prop :=
  luck.faults (i + 4) ≠ none ∨ (data ≠ [] ∧ maxOffset < off.toNat + data.length)

/-- What gets written of the data when the transfer fails. -/
def partWritten (luck : Luck) (i : Nat) (off : UInt64) (data : Bytes) : Bytes :=
  match luck.faults (i + 4) with
  | some (k, _) => (data.take k).take (maxOffset - off.toNat)
  | none => data.take (maxOffset - off.toNat)

/-- An operation that fails has left the tree as it was; or it is a write
    whose transfer failed, and has left all bytes outside the written range. -/
def FailsClean (luck : Luck) (i : Nat) (s s' : HostState) (call : VfsCall) (reply : Reply) : Prop :=
  reply.isErr = true →
    (∀ v, nodeAt s'.tree v = nodeAt s.tree v)
      ∨ ∃ p off data l old new, call = .write p off data
        ∧ ¬ SeekFails luck i off ∧ TransferFails luck i off data
        ∧ nodeAt s.tree l = some (.file old) ∧ nodeAt s'.tree l = some (.file new)
        ∧ (∀ v, v ≠ l → nodeAt s'.tree v = nodeAt s.tree v)
        ∧ KeptOutside off.toNat data.length old new

/-- Emptying the file and writing some bytes at `off` loses nothing of it
    outside `[off, off + len)`. -/
def LosesInside (off len : Nat) (part old : Bytes) : Prop :=
  old.length ≤ off + len
    ∧ ((part = [] → old = [] ∨ off = 0) ∧ (part ≠ [] → ∀ j, j < off → old.getD j 0 = 0))

/-- **WHAT SPOILS AN OPERATION**: the calls it makes are numbered from `i`.  A
    directory or file was made, or a file with something in it emptied, and a
    later call fails; of the transfer's failures those that lose something. -/
def Spoils (luck : Luck) (fs : HostFs) (s : HostState) (i : Nat) : VfsCall → Prop
  | .mkdir p _ => fs.readOnly = false ∧ AcceptedUnder luck i s fs p ∧ luck.faults (i + 2) = none
      ∧ (∃ d n slash, lookupParent s (fs.joined p) = .ok (.entry d n slash)
        ∧ nodeAt s.tree (d ++ [n]) = none)
      ∧ luck.faults (i + 3) ≠ none
  | .create p _ => fs.readOnly = false ∧ AcceptedUnder luck i s fs p ∧ luck.faults (i + 2) = none
      ∧ ∃ w, lookup s true (fs.joined p) = .ok w ∧ opens writeOptions s.tree w = true
        ∧ held s w ≠ some [] ∧ luck.faults (i + 3) ≠ none
  | .write p off data =>
      fs.readOnly = false ∧ AcceptedUnder luck i s fs p ∧ luck.faults (i + 2) = none
      ∧ ∃ w, lookup s true (fs.joined p) = .ok w ∧ opens writeOptions s.tree w = true
        ∧ ((SeekFails luck i off ∧ held s w ≠ some [])
          ∨ (¬ SeekFails luck i off ∧ TransferFails luck i off data
            ∧ ∀ old, held s w = some old →
              ¬ LosesInside off.toNat data.length (partWritten luck i off data) old))
  | _ => False

/-! ## Each operation -/

/-- What is spotless fails clean, whatever the call. -/
theorem clean_of_spotless {α : Type} {x : VfsM Counted α} (hx : Spotless x) (call : VfsCall)
    (wrap : VfsResult α → Reply) (hwrap : ∀ r, (wrap r).isErr = isErr r) :
    FailsClean luck i s (x (s, i)).2.1 call (wrap (x (s, i)).1) := by
  intro herr
  rw [hwrap] at herr
  cases hr : (x (s, i)).1 with
  | ok a =>
      rw [hr] at herr
      exact nomatch herr
  | error e => exact Or.inl (congrFun (hx (s, i) e hr))

/-- The bytes held are those at the place that was opened. -/
theorem held_iff {s s' : HostState} {w : Walked} (hopened : Opened writeOptions s w s')
    (old : Bytes) : held s w = some old ↔ nodeAt s.tree w.place = some (.file old) := by
  cases hopened with
  | new d n hn =>
      refine ⟨fun h => (nomatch h), fun h => ?_⟩
      rw [Walked.place, hn] at h
      exact nomatch h
  | dir l k hn ho => exact nomatch ho
  | cut l k i data hg hi ht =>
      rw [held, Walked.place, nodeAt_of_get hg, hi]
      constructor
      · intro h
        rw [Option.some.inj h]
      · intro h
        rw [Node.file.inj (Option.some.inj h)]
  | keep l k i data hg hi ht => exact nomatch ht

/-- What was opened is as it was exactly when it held no bytes. -/
theorem same_iff_held {s s' : HostState} {w : Walked} (hopened : Opened writeOptions s w s') :
    (∀ v, nodeAt s'.tree v = nodeAt s.tree v) ↔ held s w = some [] := by
  obtain ⟨hfile, helse⟩ := Opened.emptied hopened
  rw [held_iff hopened]
  constructor
  · intro h
    rw [← h, hfile]
  · intro h v
    by_cases hv : v = w.place
    · rw [hv, hfile, h]
    · exact helse v hv

/-- An operation that was let through goes on with the joined path; any other
    fails and changes nothing. -/
theorem guarded_under {α : Type} (luck : Luck) (x : PathBuf → VfsM Counted α) (fs : HostFs)
    (s : HostState) (i : Nat) (p : PathBuf) :
    ((fs.readOnly = false ∧ AcceptedUnder luck i s fs p)
        ∧ (fs.checkRw >>= fun _ => fs.resolve (luckyHost luck) p >>= x) (s, i)
          = x (fs.joined p) (s, i + 2))
      ∨ (¬ (fs.readOnly = false ∧ AcceptedUnder luck i s fs p)
        ∧ ∃ e j, (fs.checkRw >>= fun _ => fs.resolve (luckyHost luck) p >>= x) (s, i)
          = (.error e, (s, j))) := by
  cases hro : fs.readOnly with
  | true =>
      have hstop : (fs.checkRw : VfsM Counted Unit) (s, i)
          = (.error .permissionDenied, (s, i)) := by
        rw [HostFs.checkRw, if_pos hro]
        rfl
      exact Or.inr ⟨fun h => Bool.false_ne_true h.1.symm, _, _, Eff.bind_of_error hstop⟩
  | false =>
      have hgo : (fs.checkRw : VfsM Counted Unit) (s, i) = (.ok (), (s, i)) := by
        rw [HostFs.checkRw, if_neg (by rw [hro]; exact Bool.false_ne_true)]
        rfl
      rw [Eff.bind_of_ok hgo]
      rcases resolve_under luck fs s i p with ⟨hacc, hres⟩ | ⟨hno, e, j, hres⟩
      · exact Or.inl ⟨⟨rfl, hacc⟩, Eff.bind_of_ok hres⟩
      · exact Or.inr ⟨fun h => hno h.2, e, j, Eff.bind_of_error hres⟩

/-- A call that fails and changes nothing fails clean. -/
theorem clean_of_same {call : VfsCall} {reply : Reply} {s' : HostState} (h : s' = s) :
    FailsClean luck i s s' call reply := by
  intro _
  rw [h]
  exact Or.inl fun _ => rfl

/-- What making a directory did. -/
theorem make_under (luck : Luck) (s : HostState) (i : Nat) (j : PathBuf) :
    (luck.faults i = none ∧ ∃ d n slash, lookupParent s j = .ok (.entry d n slash)
        ∧ nodeAt s.tree (d ++ [n]) = none
        ∧ (luckyHost luck).createDir j (s, i)
          = (.ok (), ((s.addNode (d ++ [n]) .dir (s.newDirMode d)).touch [d ++ [n]], i + 1)))
      ∨ ((luck.faults i ≠ none ∨ ∀ d n slash, lookupParent s j = .ok (.entry d n slash) →
          nodeAt s.tree (d ++ [n]) ≠ none)
        ∧ ∃ e, (luckyHost luck).createDir j (s, i) = (.error e, (s, i + 1))) := by
  rcases whole_cases luck (posix.createDir j) s i with ⟨hf, hx⟩ | ⟨e, hf, hx⟩
  · rcases createDir_cases s j with ⟨d, n, slash, hlp, hfree, hcall⟩ | ⟨e, hcall⟩
    · have hm : posix.createDir j s
          = (.ok (), (s.addNode (d ++ [n]) .dir (s.newDirMode d)).touch [d ++ [n]]) := hcall
      rw [hm] at hx
      exact Or.inl ⟨hf, d, n, slash, hlp, hfree, hx⟩
    · have hm : posix.createDir j s = (.error e, s) := hcall
      rw [hm] at hx
      refine Or.inr ⟨Or.inr ?_, e, hx⟩
      intro d n slash hlp hfree
      rw [TokimoHost.createDir, hlp] at hcall
      simp only [nodeAt_none_iff.mp hfree] at hcall
      cases (Prod.mk.inj hcall).1
  · exact Or.inr ⟨Or.inl hf, e, hx⟩

/-- What opening a path to write it did. -/
theorem open_under (luck : Luck) (s : HostState) (i : Nat) (j : PathBuf) :
    (luck.faults i = none ∧ ∃ w s₁, lookup s true j = .ok w ∧ opens writeOptions s.tree w = true
        ∧ Opened writeOptions s w s₁
        ∧ (luckyHost luck).openFile writeOptions j (s, i)
          = (.ok ⟨w.place, 0⟩, (s₁.touch [w.place], i + 1)))
      ∨ ((luck.faults i ≠ none ∨ ∀ w, lookup s true j = .ok w → opens writeOptions s.tree w = false)
        ∧ ∃ e, (luckyHost luck).openFile writeOptions j (s, i) = (.error e, (s, i + 1))) := by
  rcases whole_cases luck (posix.openFile writeOptions j) s i with ⟨hf, hx⟩ | ⟨e, hf, hx⟩
  · rcases openFile_cases writeOptions s j with ⟨w, s₁, hl, hop, hopened, hcall⟩ | ⟨⟨e, hcall⟩, hno⟩
    · have hm : posix.openFile writeOptions j s = (.ok ⟨w.place, 0⟩, s₁.touch [w.place]) := hcall
      rw [hm] at hx
      exact Or.inl ⟨hf, w, s₁, hl, hop, hopened, hx⟩
    · have hm : posix.openFile writeOptions j s = (.error e, s) := hcall
      rw [hm] at hx
      exact Or.inr ⟨Or.inr hno, e, hx⟩
  · exact Or.inr ⟨Or.inl hf, e, hx⟩

/-- Asking for attributes that are there fails only by itself. -/
theorem ask_under (luck : Luck) {s : HostState} (i : Nat) {j : PathBuf}
    (h : ∃ m s', symlinkMetadata j s = (.ok m, s')) :
    (luck.faults i = none ∧ ∃ m s',
        (luckyHost luck).symlinkMetadata j (s, i) = (.ok m, (s', i + 1)))
      ∨ (luck.faults i ≠ none
        ∧ ∃ e, (luckyHost luck).symlinkMetadata j (s, i) = (.error e, (s, i + 1))) := by
  obtain ⟨m, s', hmeta⟩ := h
  rcases whole_cases luck (posix.symlinkMetadata j) s i with ⟨hf, hx⟩ | ⟨e, hf, hx⟩
  · have hm : posix.symlinkMetadata j s = (.ok m, s') := hmeta
    rw [hm] at hx
    exact Or.inl ⟨hf, m, s', hx⟩
  · exact Or.inr ⟨hf, e, hx⟩

/-- `mkdir` fails clean unless what comes behind the host's call fails. -/
theorem mkdir_clean_iff (fs : HostFs) (s : HostState) (i : Nat) (p : PathBuf) (mode : UInt32) :
    FailsClean luck i s (fs.mkdir (luckyHost luck) p mode (s, i)).2.1 (.mkdir p mode)
        (.attr (fs.mkdir (luckyHost luck) p mode (s, i)).1)
      ↔ ¬ Spoils luck fs s i (.mkdir p mode) := by
  rcases guarded_under luck (fun q =>
      Eff.mapErr HostFs.mapIo ((luckyHost luck).createDir q) >>= fun _ =>
        Eff.mapErr HostFs.mapIo ((luckyHost luck).symlinkMetadata q) >>= fun m =>
          pure (HostFs.attrFromMeta m)) fs s i p with ⟨hpass, hrun⟩ | ⟨hno, e, j, hrun⟩
  · rw [show fs.mkdir (luckyHost luck) p mode (s, i) = _ from hrun]
    rcases make_under luck s (i + 2) (fs.joined p)
      with ⟨hf, d, n, slash, hlp, hfree, hx⟩ | ⟨hbad, e, hx⟩
    · rw [Eff.bind_of_ok (Eff.mapErr_of_ok hx)]
      rcases ask_under luck (i + 3) (made_found hlp hfree (s.newDirMode d) [d ++ [n]])
        with ⟨hf', m, s', hy⟩ | ⟨hf', e, hy⟩
      · rw [Eff.bind_of_ok (Eff.mapErr_of_ok hy)]
        exact ⟨fun _ h => h.2.2.2.2 hf', fun _ herr => nomatch herr⟩
      · -- the directory stays although the operation fails
        rw [Eff.bind_of_error (Eff.mapErr_of_error hy)]
        refine ⟨fun h _ => ?_, fun h => ?_⟩
        · rcases h rfl with hsame | ⟨_, _, _, _, _, _, hcall, -⟩
          · have hnew := hsame (d ++ [n])
            have hdir : nodeAt (s.tree.insert (d ++ [n]) _) (d ++ [n]) = _ := hnew
            rw [nodeAt_insert, if_pos rfl, hfree] at hdir
            exact nomatch hdir
          · exact nomatch hcall
        · exact absurd ⟨hpass.1, hpass.2, hf, ⟨d, n, slash, hlp, hfree⟩, hf'⟩ h
    · rw [Eff.bind_of_error (Eff.mapErr_of_error hx)]
      refine ⟨fun _ h => ?_, fun _ => clean_of_same rfl⟩
      obtain ⟨-, -, hf, ⟨d, n, slash, hlp, hfree⟩, -⟩ := h
      rcases hbad with hfault | hnone
      · exact hfault hf
      · exact hnone d n slash hlp hfree
  · rw [show fs.mkdir (luckyHost luck) p mode (s, i) = _ from hrun]
    exact ⟨fun _ h => hno ⟨h.1, h.2.1⟩, fun _ => clean_of_same rfl⟩

/-- So does `create`. -/
theorem create_clean_iff (fs : HostFs) (s : HostState) (i : Nat) (p : PathBuf) (mode : UInt32) :
    FailsClean luck i s (fs.create (luckyHost luck) p mode (s, i)).2.1 (.create p mode)
        (.attr (fs.create (luckyHost luck) p mode (s, i)).1)
      ↔ ¬ Spoils luck fs s i (.create p mode) := by
  rcases guarded_under luck (fun q =>
      Eff.mapErr HostFs.mapIo ((luckyHost luck).openFile writeOptions q) >>= fun _ =>
        Eff.mapErr HostFs.mapIo ((luckyHost luck).symlinkMetadata q) >>= fun m =>
          pure (HostFs.attrFromMeta m)) fs s i p with ⟨hpass, hrun⟩ | ⟨hno, e, j, hrun⟩
  · rw [show fs.create (luckyHost luck) p mode (s, i) = _ from hrun]
    rcases open_under luck s (i + 2) (fs.joined p)
      with ⟨hf, w, s₁, hl, hop, hopened, hx⟩ | ⟨hbad, e, hx⟩
    · rw [Eff.bind_of_ok (Eff.mapErr_of_ok hx)]
      rcases ask_under luck (i + 3) (opened_found hl hop hopened [w.place])
        with ⟨hf', m, s', hy⟩ | ⟨hf', e, hy⟩
      · rw [Eff.bind_of_ok (Eff.mapErr_of_ok hy)]
        refine ⟨fun _ h => ?_, fun _ herr => nomatch herr⟩
        obtain ⟨-, -, -, -, -, -, -, hfault⟩ := h
        exact hfault hf'
      · rw [Eff.bind_of_error (Eff.mapErr_of_error hy)]
        have hheld := same_iff_held hopened
        refine ⟨fun h hspoils => ?_, fun h _ => ?_⟩
        · obtain ⟨-, -, -, w', hl', -, hbytes, -⟩ := hspoils
          rw [hl] at hl'
          rw [← Except.ok.inj hl'] at hbytes
          rcases h rfl with hsame | ⟨_, _, _, _, _, _, hcall, -⟩
          · exact hbytes (hheld.mp hsame)
          · exact nomatch hcall
        · refine Or.inl (hheld.mpr ?_)
          exact Decidable.byContradiction fun hbytes =>
            h ⟨hpass.1, hpass.2, hf, w, hl, hop, hbytes, hf'⟩
    · rw [Eff.bind_of_error (Eff.mapErr_of_error hx)]
      refine ⟨fun _ h => ?_, fun _ => clean_of_same rfl⟩
      obtain ⟨-, -, hf, w, hl, hop, -⟩ := h
      rcases hbad with hfault | hnone
      · exact hfault hf
      · rw [hnone w hl] at hop
        exact nomatch hop
  · rw [show fs.create (luckyHost luck) p mode (s, i) = _ from hrun]
    exact ⟨fun _ h => hno ⟨h.1, h.2.1⟩, fun _ => clean_of_same rfl⟩

/-! ## Writing -/

/-- Under any luck a seek works or fails by what was asked. -/
theorem seek_under (luck : Luck) (i : Nat) (f : Fd) (off : UInt64) (s : HostState) :
    (¬ SeekFails luck i off ∧ (luckyHost luck).seek f off (s, i + 3)
        = (.ok { f with pos := off.toNat }, (s, i + 4)))
      ∨ (SeekFails luck i off ∧ ∃ e, (luckyHost luck).seek f off (s, i + 3)
        = (.error e, (s, i + 4))) := by
  rcases whole_cases luck (posix.seek f off) s (i + 3) with ⟨hf, hx⟩ | ⟨e, hf, hx⟩
  · by_cases hoff : off.toNat ≤ maxOffset
    · have hseek : posix.seek f off s = (.ok { f with pos := off.toNat }, s) := if_pos hoff
      rw [hseek] at hx
      refine Or.inl ⟨?_, hx⟩
      rintro (hbad | hbig)
      · exact hbad hf
      · omega
    · have hseek : posix.seek f off s = (.error EINVAL, s) := if_neg hoff
      rw [hseek] at hx
      exact Or.inr ⟨Or.inr (by omega), _, hx⟩
  · exact Or.inr ⟨Or.inl hf, e, hx⟩

/-- What writing leaves of an empty file, also when it fails. -/
theorem writeAll_empty {s : HostState} {f : Fd} (hfile : nodeAt s.tree f.loc = some (.file []))
    (hpos : f.pos ≤ maxOffset) (given : Bytes) :
    (nodeAt (TokimoHost.writeAll f given s).2.tree f.loc
        = some (.file (freshBytes f.pos (given.take (maxOffset - f.pos)))))
      ∧ ((∃ g, (TokimoHost.writeAll f given s).1 = .ok g)
        ↔ given = [] ∨ f.pos + given.length ≤ maxOffset) := by
  obtain ⟨i, hg, hi⟩ := get_of_nodeAt hfile
  have hput : ∀ new : Bytes, nodeAt (s.putData f.loc i new).tree f.loc = some (.file new) := by
    intro new
    show nodeAt (s.tree.insert f.loc _) f.loc = _
    rw [nodeAt_insert, if_pos rfl, HostState.filled_node]
  rw [TokimoHost.writeAll]
  simp only [hg, hi]
  cases given with
  | nil =>
      rw [if_pos (by rfl), List.take_nil]
      exact ⟨hfile, fun _ => Or.inl rfl, fun _ => ⟨f, rfl⟩⟩
  | cons b bs =>
      rw [if_neg (by simp)]
      by_cases hfit : f.pos + (b :: bs).length ≤ maxOffset
      · rw [if_pos hfit, List.take_of_length_le (by omega)]
        refine ⟨?_, fun _ => Or.inr hfit, fun _ => ⟨_, rfl⟩⟩
        rw [hput, overwrite_nil, freshBytes, if_neg (by simp)]
      · rw [if_neg hfit]
        refine ⟨?_, ?_, ?_⟩
        · by_cases hend : maxOffset ≤ f.pos
          · -- no byte fits any more
            have hnone : maxOffset - f.pos = 0 := by omega
            simp only [if_pos hend, hnone, List.take_zero]
            exact hfile
          · have hne : ((b :: bs).take (maxOffset - f.pos)).isEmpty = false := by
              obtain ⟨m, hm⟩ := Nat.exists_eq_succ_of_ne_zero
                (show maxOffset - f.pos ≠ 0 by omega)
              rw [hm]
              rfl
            simp only [if_neg hend]
            rw [hput, overwrite_nil, freshBytes, hne]
            rfl
        · rintro ⟨g, hg'⟩
          cases hg'
        · rintro (hnil | hle)
          · cases hnil
          · exact absurd hle hfit

/-- Data goes to the file it was opened for, and nowhere else. -/
theorem nodeAt_writeAll (f : Fd) (given : Bytes) (s : HostState) {v : Loc} (hv : v ≠ f.loc) :
    nodeAt (TokimoHost.writeAll f given s).2.tree v = nodeAt s.tree v := by
  rw [nodeAt, writeAll_elsewhere f given s v hv]
  rfl

/-- What the data transfer did to the empty file. -/
theorem transfer_under (luck : Luck) (i : Nat) {s : HostState} {l : Loc}
    (hfile : nodeAt s.tree l = some (.file [])) {off : UInt64} (hoff : off.toNat ≤ maxOffset)
    (data : Bytes) :
    (¬ TransferFails luck i off data ∧ ∃ g s', (luckyHost luck).writeAll ⟨l, off.toNat⟩ data
        (s, i + 4) = (.ok g, (s', i + 5)))
      ∨ (TransferFails luck i off data ∧ ∃ e s', (luckyHost luck).writeAll ⟨l, off.toNat⟩ data
          (s, i + 4) = (.error e, (s', i + 5))
        ∧ nodeAt s'.tree l = some (.file (freshBytes off.toNat (partWritten luck i off data)))
        ∧ ∀ v, v ≠ l → nodeAt s'.tree v = nodeAt s.tree v) := by
  have hdef : (luckyHost luck).writeAll ⟨l, off.toNat⟩ data (s, i + 4)
      = match luck.faults (i + 4) with
        | some (k, e) => (.error e,
          ((TokimoHost.writeAll ⟨l, off.toNat⟩ (data.take k) s).2, i + 5))
        | none => ((TokimoHost.writeAll ⟨l, off.toNat⟩ data s).1,
          ((TokimoHost.writeAll ⟨l, off.toNat⟩ data s).2, i + 5)) := rfl
  rw [hdef]
  -- the luck of the call decides, and without a fault the size
  cases hf : luck.faults (i + 4) with
  | some fault =>
      obtain ⟨k, e⟩ := fault
      refine Or.inr ⟨Or.inl (by rw [hf]; exact Option.some_ne_none _), e, _, rfl, ?_, ?_⟩
      · rw [partWritten, hf]
        exact (writeAll_empty (f := ⟨l, off.toNat⟩) hfile hoff (data.take k)).1
      · exact fun v hv => nodeAt_writeAll _ _ s hv
  | none =>
      obtain ⟨hleft, hok⟩ := writeAll_empty (f := ⟨l, off.toNat⟩) hfile hoff data
      rcases hx : TokimoHost.writeAll ⟨l, off.toNat⟩ data s with ⟨e | g, s'⟩
      · rw [hx] at hleft hok
        refine Or.inr ⟨Or.inr ?_, e, s', rfl, ?_, ?_⟩
        · constructor
          · intro hnil
            obtain ⟨g, hg⟩ := hok.mpr (Or.inl hnil)
            exact nomatch hg
          · refine Nat.lt_of_not_le fun hle => ?_
            obtain ⟨g, hg⟩ := hok.mpr (Or.inr hle)
            exact nomatch hg
        · rw [partWritten, hf]
          exact hleft
        · intro v hv
          have h := nodeAt_writeAll ⟨l, off.toNat⟩ data s hv
          rwa [hx] at h
      · rw [hx] at hok
        refine Or.inl ⟨?_, g, s', rfl⟩
        rintro (hfault | ⟨hne, hbig⟩)
        · exact hfault hf
        · rcases hok.mp ⟨g, rfl⟩ with hnil | hle
          · exact hne hnil
          · exact absurd hbig (Nat.not_lt.mpr hle)

/-- **WHAT EMPTYING LOSES**: a file that was emptied and written in part has
    kept what is outside the range exactly when there was nothing to lose. -/
theorem keptOutside_fresh_iff {off len : Nat} {part : Bytes} (hpart : part.length ≤ len)
    (old : Bytes) :
    KeptOutside off len old (freshBytes off part) ↔ LosesInside off len part old := by
  have hlen : (freshBytes off part).length ≤ off + len := by
    rw [freshBytes]
    split
    · exact Nat.zero_le _
    · rw [List.length_append, List.length_replicate]
      omega
  constructor
  · rintro ⟨hkept, -⟩
    have hshort : old.length ≤ off + len := by
      refine Nat.le_of_not_lt fun hlt => ?_
      have h := hkept (off + len) hlt (Or.inr (Nat.le_refl _))
      rw [List.getElem?_eq_none hlen, List.getElem?_eq_getElem hlt] at h
      cases h
    refine ⟨hshort, ?_, ?_⟩
    · intro hnil
      by_cases hold : old = []
      · exact Or.inl hold
      · refine Or.inr ?_
        by_cases hoff : off = 0
        · exact hoff
        · have hpos := List.length_pos_iff.mpr hold
          have h := hkept 0 hpos (Or.inl (by omega))
          rw [hnil, List.getElem?_eq_getElem hpos] at h
          cases h
    · intro hne j hj
      by_cases hjlen : j < old.length
      · have h := hkept j hjlen (Or.inl hj)
        rw [freshBytes, if_neg (by simpa using hne),
          List.getElem?_append_left (by simpa using hj), List.getElem?_replicate_of_lt hj] at h
        rw [List.getD_eq_getElem?_getD, ← h]
        rfl
      · exact List.getD_eq_default _ _ (by omega)
  · rintro ⟨hshort, hnil, hsome⟩
    refine ⟨?_, by omega⟩
    intro j hjlen hout
    rcases hout with hj | hj
    -- up to `off` there are zeros, unless nothing is written at all
    · by_cases hp : part = []
      · rcases hnil hp with hold | hoff
        · rw [hold] at hjlen
          cases hjlen
        · omega
      · rw [freshBytes, if_neg (by simpa using hp),
          List.getElem?_append_left (by simpa using hj), List.getElem?_replicate_of_lt hj,
          List.getElem?_eq_getElem hjlen, ← hsome hp j hj, List.getD_eq_getElem _ _ hjlen]
    · omega

/-- No more is written than was given. -/
theorem partWritten_length (luck : Luck) (i : Nat) (off : UInt64) (data : Bytes) :
    (partWritten luck i off data).length ≤ data.length := by
  rw [partWritten]
  split
  · rw [List.length_take, List.length_take]
    omega
  · rw [List.length_take]
    omega

/-- A transfer that failed has left the rest exactly when emptying the file
    lost nothing of it. -/
theorem transfer_clean_iff {s s₁ s' : HostState} {w : Walked} {p : PathBuf} {off : UInt64}
    {data : Bytes} {e : VfsError} (hopened : Opened writeOptions s w s₁)
    (hseek : ¬ SeekFails luck i off) (htrans : TransferFails luck i off data)
    (hleft : nodeAt s'.tree w.place
      = some (.file (freshBytes off.toNat (partWritten luck i off data))))
    (helse : ∀ v, v ≠ w.place → nodeAt s'.tree v = nodeAt s.tree v) :
    FailsClean luck i s s' (.write p off data) (.count (.error e))
      ↔ ∃ old, held s w = some old
        ∧ LosesInside off.toNat data.length (partWritten luck i off data) old := by
  have hpart := partWritten_length luck i off data
  have hsame : nodeAt s'.tree w.place = nodeAt s.tree w.place → ∃ old, held s w = some old
      ∧ LosesInside off.toNat data.length (partWritten luck i off data) old := by
    intro h
    rw [hleft] at h
    refine ⟨_, (held_iff hopened _).mpr h.symm, (keptOutside_fresh_iff hpart _).mp ?_⟩
    exact ⟨fun _ _ _ => rfl, Nat.le_max_left _ _⟩
  constructor
  · intro h
    rcases h rfl with hall | ⟨p', off', data', l, old, new, hcall, -, -, hold, hnew, hrest, hkept⟩
    · exact hsame (hall w.place)
    · obtain ⟨-, rfl, rfl⟩ := VfsCall.write.inj hcall
      by_cases hl : w.place = l
      · rw [← hl] at hold hnew
        rw [hleft] at hnew
        rw [← Node.file.inj (Option.some.inj hnew)] at hkept
        exact ⟨old, (held_iff hopened old).mpr hold, (keptOutside_fresh_iff hpart old).mp hkept⟩
      · exact hsame (hrest w.place hl)
  · rintro ⟨old, hheld, hloses⟩ _
    exact Or.inr ⟨p, off, data, w.place, old, _, rfl, hseek, htrans,
      (held_iff hopened old).mp hheld, hleft, helse, (keptOutside_fresh_iff hpart old).mpr hloses⟩

/-- So does `write`, where two later calls can fail. -/
theorem write_clean_iff (fs : HostFs) (s : HostState) (i : Nat) (p : PathBuf) (off : UInt64)
    (data : Bytes) :
    FailsClean luck i s (fs.write (luckyHost luck) p off data (s, i)).2.1 (.write p off data)
        (.count (fs.write (luckyHost luck) p off data (s, i)).1)
      ↔ ¬ Spoils luck fs s i (.write p off data) := by
  rcases guarded_under luck (fun q =>
      Eff.mapErr HostFs.mapIo ((luckyHost luck).openFile writeOptions q) >>= fun f =>
        Eff.mapErr HostFs.mapIo ((luckyHost luck).seek f off) >>= fun f =>
          Eff.mapErr HostFs.mapIo ((luckyHost luck).writeAll f data) >>= fun _ =>
            pure (UInt32.ofNat data.length)) fs s i p with ⟨hpass, hrun⟩ | ⟨hno, e, j, hrun⟩
  · rw [show fs.write (luckyHost luck) p off data (s, i) = _ from hrun]
    rcases open_under luck s (i + 2) (fs.joined p)
      with ⟨hf, w, s₁, hl, hop, hopened, hx⟩ | ⟨hbad, e, hx⟩
    · have hw : ∀ w', lookup s true (fs.joined p) = .ok w' → w' = w := by
        intro w' hl'
        rw [hl] at hl'
        exact (Except.ok.inj hl').symm
      rw [Eff.bind_of_ok (Eff.mapErr_of_ok hx)]
      rcases seek_under luck i ⟨w.place, 0⟩ off (s₁.touch [w.place]) with
        ⟨hseek, hy⟩ | ⟨hseek, e, hy⟩
      · have hoff : off.toNat ≤ maxOffset := Nat.le_of_not_lt fun h => hseek (Or.inr h)
        obtain ⟨hfile, helse⟩ := Opened.emptied hopened
        rw [Eff.bind_of_ok (Eff.mapErr_of_ok hy)]
        rcases transfer_under luck i (s := s₁.touch [w.place]) hfile hoff data
          with ⟨htrans, g, s', hz⟩ | ⟨htrans, e, s', hz, hleft, helse'⟩
        -- every call has worked
        · rw [Eff.bind_of_ok (Eff.mapErr_of_ok hz)]
          refine ⟨fun _ h => ?_, fun _ herr => nomatch herr⟩
          obtain ⟨-, -, -, w', -, -, ⟨hfail, -⟩ | ⟨-, hfail, -⟩⟩ := h
          · exact hseek hfail
          · exact htrans hfail
        -- a part of the data is in the file, or none
        · rw [Eff.bind_of_error (Eff.mapErr_of_error hz)]
          have hiff := transfer_clean_iff (p := p) (e := HostFs.mapIo e) hopened hseek htrans hleft
            fun v hv => (helse' v hv).trans (helse v hv)
          refine ⟨fun h hspoils => ?_, fun h => hiff.mpr ?_⟩
          · obtain ⟨-, -, -, w', hl', -, ⟨hfail, -⟩ | ⟨-, -, hloses⟩⟩ := hspoils
            · exact hseek hfail
            · obtain ⟨old, hheld, hkept⟩ := hiff.mp h
              rw [hw w' hl'] at hloses
              exact hloses old hheld hkept
          · refine Classical.byContradiction fun hno => ?_
            refine h ⟨hpass.1, hpass.2, hf, w, hl, hop, Or.inr ⟨hseek, htrans, ?_⟩⟩
            exact fun old hheld hkept => hno ⟨old, hheld, hkept⟩
      · -- the file has been emptied, and nothing is written
        rw [Eff.bind_of_error (Eff.mapErr_of_error hy)]
        have hheld := same_iff_held hopened
        refine ⟨fun h hspoils => ?_, fun h _ => ?_⟩
        · obtain ⟨-, -, -, w', hl', -, ⟨-, hbytes⟩ | ⟨hgo, -⟩⟩ := hspoils
          · rw [hw w' hl'] at hbytes
            rcases h rfl with hsame | ⟨p', off', data', _, _, _, hcall, hgo, -⟩
            · exact hbytes (hheld.mp hsame)
            · obtain ⟨-, rfl, rfl⟩ := VfsCall.write.inj hcall
              exact hgo hseek
          · exact hgo hseek
        · refine Or.inl (hheld.mpr ?_)
          exact Decidable.byContradiction fun hbytes =>
            h ⟨hpass.1, hpass.2, hf, w, hl, hop, Or.inl ⟨hseek, hbytes⟩⟩
    -- nothing was opened, so nothing is spoilt
    · rw [Eff.bind_of_error (Eff.mapErr_of_error hx)]
      refine ⟨fun _ h => ?_, fun _ => clean_of_same rfl⟩
      obtain ⟨-, -, hf, w, hl, hop, -⟩ := h
      rcases hbad with hfault | hnone
      · exact hfault hf
      · rw [hnone w hl] at hop
        exact nomatch hop
  · rw [show fs.write (luckyHost luck) p off data (s, i) = _ from hrun]
    exact ⟨fun _ h => hno ⟨h.1, h.2.1⟩, fun _ => clean_of_same rfl⟩

/-- **FAILING OPERATIONS**: for every host and every request, and whichever of
    the host calls fail, the operation fails clean exactly when nothing spoils
    it. -/
theorem fails_clean_iff (luck : Luck) (fs : HostFs) (s : HostState) (i : Nat) (call : VfsCall) :
    FailsClean luck i s ((fs.toVfs (luckyHost luck)).invoke (s, i) call).2.1 call
        ((fs.toVfs (luckyHost luck)).invoke (s, i) call).1
      ↔ ¬ Spoils luck fs s i call := by
  cases call with
  | stat p =>
      exact ⟨fun _ h => h, fun _ => clean_of_spotless (stat_spotless p) _ .attr fun _ => rfl⟩
  | list p =>
      exact ⟨fun _ h => h, fun _ => clean_of_spotless (list_spotless p) _ .entries fun _ => rfl⟩
  | read p off len =>
      exact ⟨fun _ h => h,
        fun _ => clean_of_spotless (read_spotless p off len) _ .bytes fun _ => rfl⟩
  | write p off data => exact write_clean_iff fs s i p off data
  | create p mode => exact create_clean_iff fs s i p mode
  | mkdir p mode => exact mkdir_clean_iff fs s i p mode
  | remove p =>
      exact ⟨fun _ h => h, fun _ => clean_of_spotless (remove_spotless p) _ .unit fun _ => rfl⟩
  | rmdir p =>
      exact ⟨fun _ h => h, fun _ => clean_of_spotless (rmdir_spotless p) _ .unit fun _ => rfl⟩
  | rename p q =>
      exact ⟨fun _ h => h, fun _ => clean_of_spotless (rename_spotless p q) _ .unit fun _ => rfl⟩
  | truncate p size =>
      exact ⟨fun _ h => h,
        fun _ => clean_of_spotless (truncate_spotless p size) _ .unit fun _ => rfl⟩

/-- A host on which nothing fails by itself. -/
def calm : Luck := { cuts := fun n => n, faults := fun _ => none }

/-- A write past the largest offset fails, and has emptied the file; on a free
    name it has made an empty one. -/
theorem far_write_empties :
    nodeAt fiveHost.tree chunkLoc = some (.file [10, 20, 30, 40, 50])
      ∧ (chunkFs.write (luckyHost calm) chunkPath (2 ^ 63) [1] (fiveHost, 0)).1
        = .error (.io EINVAL.text)
      ∧ nodeAt (chunkFs.write (luckyHost calm) chunkPath (2 ^ 63) [1] (fiveHost, 0)).2.1.tree
          chunkLoc = some (.file [])
      ∧ nodeAt fiveHost.tree [⟨[114], rfl⟩, ⟨[103], rfl⟩] = none
      ∧ nodeAt (chunkFs.write (luckyHost calm) (.ofBytes [47, 103]) (2 ^ 63) [1]
          (fiveHost, 0)).2.1.tree [⟨[114], rfl⟩, ⟨[103], rfl⟩] = some (.file []) :=
  ⟨by decide, by decide +kernel, by decide +kernel, by decide, by decide +kernel⟩

end TokimoHostFs
