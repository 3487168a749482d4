import TokimoKvm.HostFsProofs

/-! # The jail of `HostFs` — what it holds and what it lets go

    `resolve` checks the canonical parent of a path, so everything a call
    reaches through an ordinary last component is below the root.  It does not
    look at the last component itself, and there it leaks: a last `..` leaves
    the root from its top directory, and a last component that is a link is
    followed by most host calls, wherever it points.

    `jailed_iff_not_leaves` says that these are the only leaks. -/

namespace TokimoHostFs

open TokimoMachine TokimoBytes TokimoPath TokimoTable TokimoVfsCore TokimoHost

/-- The path a call resolves to its end, and whether it follows a link there.
    The other calls name an entry of a directory. -/
def target : VfsCall → Option (PathBuf × Bool)
  | .stat p => some (p, false)
  | .list p => some (p, true)
  | .read p _ _ => some (p, true)
  | .write p _ _ => some (p, true)
  | .create p _ => some (p, true)
  | .truncate p _ => some (p, true)
  | _ => none

/-- What a call takes for its object once its path has been walked. -/
def admits (t : Tree) : VfsCall → Walked → Bool
  | .stat _, .at l _ => (nodeAt t l).isSome
  | .list _, .at l _ => decide (nodeAt t l = some .dir)
  | .read _ _ _, w => opens readOptions t w
  | .write _ _ _, w => opens writeOptions t w
  | .create _ _, w => opens writeOptions t w
  | .truncate _ _, w => opens truncateOptions t w
  | _, _ => false

/-- **THE JAIL**: every object the call acted on is below the canonical root,
    and a call that acted on none failed and changed nothing. -/
def Jailed (fs : HostFs) (s : HostState) (call : VfsCall) : Prop :=
  (∀ l ∈ ((fs.toVfs posix).invoke s call).2.touched,
      ∃ r, realpath s fs.root = .ok r ∧ r <+: l)
    ∧ (((fs.toVfs posix).invoke s call).2.touched = [] →
      ((fs.toVfs posix).invoke s call).1.isErr = true
        ∧ ((fs.toVfs posix).invoke s call).2.tree = s.tree)

/-- From the parent `c` the last component of `j` leads elsewhere: it is `..`,
    or a link that is followed. -/
inductive Slips (s : HostState) (follow : Bool) (j : PathBuf) (c : Loc) (k : Nat) :
    Walked → Prop where
  | up : j.lastReal = some .up → Slips s follow j c k (.at c.dropLast k)
  | link (n : Name) (dest : PathBuf) (w : Walked) : j.lastReal = some (.name n) →
      nodeAt s.tree (c ++ [n]) = some (.symlink dest) →
      (follow = true ∨ j.trailing ≠ []) → dest.isEmptyStr = false →
      jumpOf s.tree follow k c dest j.trailing = .ok w → Slips s follow j c k w

/-- The last component of a call's path leads from a parent below the root to
    an object outside that the call admits. -/
structure LeavesAt (fs : HostFs) (s : HostState) (call : VfsCall) (p : PathBuf)
    (follow : Bool) (r c : Loc) (k : Nat) (w : Walked) : Prop where
  target : target call = some (p, follow)
  writable : call.mutating = true → fs.readOnly = false
  root : realpath s fs.root = .ok r
  noNul : (fs.joined p).hasNul = false
  parent : enterParent s (fs.joined p) = some (c, k)
  below : r <+: c
  slips : Slips s follow (fs.joined p) c k w
  outside : ¬ r <+: w.place
  admitted : admits s.tree call w = true

def Leaves (fs : HostFs) (s : HostState) (call : VfsCall) : Prop :=
  ∃ p follow r c k w, LeavesAt fs s call p follow r c k w

/-! ## The last component -/

theorem prefix_snoc {r c : Loc} (n : Name) (h : r <+: c) : r <+: c ++ [n] :=
  h.trans (List.prefix_append c [n])

/-- A path whose last component leaves the root is accepted, and leads out. -/
theorem leavesAt_reaches {s : HostState} (hw : HostWf s) {fs : HostFs} {call : VfsCall}
    {p : PathBuf} {follow : Bool} {r c : Loc} {k : Nat} {w : Walked}
    (h : LeavesAt fs s call p follow r c k w) :
    Accepted s fs p r ∧ lookup s follow (fs.joined p) = .ok w := by
  obtain ⟨q, hp, hq, hreal, -⟩ := enterParent_some hw h.parent h.noNul
  have hprobe : fs.probe p = q := by rw [HostFs.probe, hp]; rfl
  refine ⟨⟨h.root, Or.inl ⟨c, ?_, h.below⟩⟩, ?_⟩
  · rw [hprobe]; exact hreal
  · obtain ⟨sg, hlast, -, htl, ⟨c', k', hent, hwalk⟩ | ⟨hnone, -⟩⟩ :=
      lookup_last (s := s) hp hq h.noNul
    · rw [h.parent] at hent
      obtain ⟨rfl, rfl⟩ := Prod.mk.inj (Option.some.inj hent)
      rw [hwalk follow]
      cases h.slips with
      | up hup =>
          rw [hlast] at hup
          rw [Option.some.inj hup, walk_up, ← List.append_nil (fs.joined p).trailing,
            walk_skip [] htl, walk_nil]
      | link n dest w hname hnode hfollow hto hjump =>
          rw [hlast] at hname
          have hstop : ((fs.joined p).trailing.isEmpty && !follow) = false := by
            rcases hfollow with hf | hne
            · rw [hf, Bool.not_true, Bool.and_false]
            · rw [List.isEmpty_eq_false_iff.mpr hne, Bool.false_and]
          rw [Option.some.inj hname, walk_name_link _ _ _ hnode, hstop, hto]
          exact hjump
    · rw [h.parent] at hnone
      cases hnone

/-- An accepted path that leads out of the root does so by its last
    component. -/
theorem slips_of_outside {s : HostState} (hw : HostWf s) {fs : HostFs} {p : PathBuf}
    {follow : Bool} {r : Loc} {w : Walked} (hacc : Accepted s fs p r)
    (hl : lookup s follow (fs.joined p) = .ok w) (hout : ¬ r <+: w.place) :
    ∃ c k, enterParent s (fs.joined p) = some (c, k) ∧ r <+: c
      ∧ Slips s follow (fs.joined p) c k w := by
  rcases accepted_enters hw hacc hl with hr | ⟨c, k, sg, hent, hin, hlast, hsg, htl, hwalk⟩
  · rw [hr] at hout
    exact absurd List.nil_prefix hout
  · refine ⟨c, k, hent, hin, ?_⟩
    rw [hwalk follow] at hl
    have hend : ∀ d : Loc, walk s.tree follow k d (fs.joined p).trailing = .ok (.at d k) := by
      intro d
      rw [← List.append_nil (fs.joined p).trailing, walk_skip [] htl, walk_nil]
    cases sg with
    | empty => exact nomatch hsg
    | cur => exact nomatch hsg
    | up =>
        rw [walk_up, hend] at hl
        rw [← Except.ok.inj hl]
        exact Slips.up hlast
    | name n =>
        -- an entry of the parent is inside, so only a link can lead out
        have hat : ∀ k', (.at (c ++ [n]) k' : Walked) ≠ w := by
          intro k' heq
          rw [← heq] at hout
          exact hout (prefix_snoc n hin)
        cases hn : nodeAt s.tree (c ++ [n]) with
        | none =>
            rw [walk_name_none _ _ _ hn] at hl
            by_cases hall : ((fs.joined p).trailing.all (· == .empty)) = true
            · rw [if_pos hall] at hl
              rw [← Except.ok.inj hl] at hout
              exact absurd (prefix_snoc n hin) hout
            · rw [if_neg hall] at hl
              exact nomatch hl
        | some node =>
            cases node with
            | dir =>
                rw [walk_name_dir _ _ _ hn, hend] at hl
                exact absurd (Except.ok.inj hl) (hat k)
            | file data =>
                rw [walk_name_file _ _ _ hn] at hl
                by_cases he : (fs.joined p).trailing.isEmpty = true
                · rw [if_pos he] at hl
                  exact absurd (Except.ok.inj hl) (hat k)
                · rw [if_neg he] at hl
                  exact nomatch hl
            | symlink dest =>
                rw [walk_name_link _ _ _ hn] at hl
                by_cases hstop : ((fs.joined p).trailing.isEmpty && !follow) = true
                · rw [if_pos hstop] at hl
                  exact absurd (Except.ok.inj hl) (hat k)
                · rw [if_neg hstop] at hl
                  cases hto : dest.isEmptyStr with
                  | true => rw [hto] at hl; exact nomatch hl
                  | false =>
                      rw [hto] at hl
                      refine Slips.link n dest w hlast hn ?_ hto hl
                      cases hf : follow with
                      | true => exact Or.inl rfl
                      | false =>
                          refine Or.inr ?_
                          intro hnil
                          rw [hnil, hf] at hstop
                          exact hstop rfl

/-! ## What each call has touched -/

/-- What a call can have done, as far as the jail is concerned. -/
inductive Outcome (fs : HostFs) (s : HostState) (call : VfsCall) :
    Reply × HostState → Prop where
  | refused (out : Reply × HostState) : out.1.isErr = true → out.2 = s →
      (∀ p follow r w, target call = some (p, follow) → Accepted s fs p r →
        lookup s follow (fs.joined p) = .ok w → admits s.tree call w = true →
        (call.mutating = true → fs.readOnly = false) → False) →
      Outcome fs s call out
  | reached (out : Reply × HostState) (p : PathBuf) (follow : Bool) (r : Loc) (w : Walked)
      (more : List Loc) : target call = some (p, follow) → Accepted s fs p r →
      lookup s follow (fs.joined p) = .ok w → admits s.tree call w = true →
      (call.mutating = true → fs.readOnly = false) →
      out.2.touched = s.touched ++ w.place :: more → (∀ l ∈ more, r <+: l) →
      Outcome fs s call out
  | entered (out : Reply × HostState) (r : Loc) (ls : List Loc) : target call = none →
      realpath s fs.root = .ok r → out.2.touched = s.touched ++ ls → ls ≠ [] →
      (∀ l ∈ ls, r <+: l) → Outcome fs s call out

/-- Whatever the outcome, the call stays in the jail unless its path leaves. -/
theorem Outcome.jailed_iff {fs : HostFs} {s : HostState} {call : VfsCall} (hw : HostWf s)
    (ht : s.touched = []) (h : Outcome fs s call ((fs.toVfs posix).invoke s call)) :
    Jailed fs s call ↔ ¬ Leaves fs s call := by
  rw [Jailed]
  generalize (fs.toVfs posix).invoke s call = out at h
  cases h with
  | refused herr hs hno =>
      constructor
      · rintro - ⟨p, follow, r, c, k, w, hl⟩
        obtain ⟨hacc, hlook⟩ := leavesAt_reaches hw hl
        exact hno p follow r w hl.target hacc hlook hl.admitted hl.writable
      · intro _
        rw [hs, ht]
        exact ⟨(fun l hl => nomatch hl), fun _ => ⟨herr, rfl⟩⟩
  | reached p follow r w more htg hacc hlook hadm hwr htouch hmore =>
      rw [ht, List.nil_append] at htouch
      rw [htouch]
      constructor
      · rintro ⟨hin, -⟩ ⟨p', follow', r', c, k, w', hl⟩
        obtain ⟨hacc', hlook'⟩ := leavesAt_reaches hw hl
        have htg' := hl.target
        rw [htg] at htg'
        obtain ⟨hp, hf⟩ := Prod.mk.inj (Option.some.inj htg')
        rw [← hp, ← hf, hlook] at hlook'
        obtain ⟨r₁, hr₁, hpre⟩ := hin w.place (List.mem_cons_self ..)
        rw [hl.root] at hr₁
        refine hl.outside ?_
        rw [← Except.ok.inj hlook', Except.ok.inj hr₁]
        exact hpre
      · intro hno
        refine ⟨?_, fun hnil => nomatch hnil⟩
        intro l hl
        refine ⟨r, hacc.1, ?_⟩
        rcases List.mem_cons.mp hl with heq | hmem
        -- what is reached lies inside, or the path has slipped out
        · by_cases hin : r <+: w.place
          · rw [heq]; exact hin
          · obtain ⟨c, k, hent, hbelow, hslip⟩ := slips_of_outside hw hacc hlook hin
            refine absurd ⟨p, follow, r, c, k, w, ?_⟩ hno
            exact ⟨htg, hwr, hacc.1, (lookup_ok hlook).1, hent, hbelow, hslip, hin, hadm⟩
        · exact hmore l hmem
  | entered r ls htg hroot htouch hne hin =>
      rw [ht, List.nil_append] at htouch
      rw [htouch]
      constructor
      · rintro - ⟨p, follow, r', c, k, w, hl⟩
        have htg' := hl.target
        rw [htg] at htg'
        exact nomatch htg'
      · intro _
        exact ⟨fun l hl => ⟨r, hroot, hin l hl⟩, fun hnil => absurd hnil hne⟩

/-- A call that `resolve` refuses does nothing. -/
theorem Outcome.of_refusal {fs : HostFs} {s : HostState} {call : VfsCall} {p : PathBuf}
    {follow : Bool} {out : Reply × HostState} (htg : target call = some (p, follow))
    (hno : ∀ r, ¬ Accepted s fs p r) (herr : out.1.isErr = true) (hs : out.2 = s) :
    Outcome fs s call out := by
  refine Outcome.refused out herr hs ?_
  intro p' follow' r w htg' hacc _ _ _
  rw [htg] at htg'
  rw [← (Prod.mk.inj (Option.some.inj htg')).1] at hacc
  exact hno r hacc

/-- A call whose host call fails does nothing. -/
theorem Outcome.of_failure {fs : HostFs} {s : HostState} {call : VfsCall} {p : PathBuf}
    {follow : Bool} {out : Reply × HostState} (htg : target call = some (p, follow))
    (hno : ∀ w, lookup s follow (fs.joined p) = .ok w → admits s.tree call w = false)
    (herr : out.1.isErr = true) (hs : out.2 = s) : Outcome fs s call out := by
  refine Outcome.refused out herr hs ?_
  intro p' follow' r w htg' _ hlook hadm _
  rw [htg] at htg'
  obtain ⟨hp, hf⟩ := Prod.mk.inj (Option.some.inj htg')
  rw [← hp, ← hf] at hlook
  rw [hno w hlook] at hadm
  exact nomatch hadm

/-- A mutating call on a read-only mount does nothing. -/
theorem Outcome.of_readOnly {fs : HostFs} {s : HostState} {call : VfsCall}
    {out : Reply × HostState} (hm : call.mutating = true) (hro : fs.readOnly = true)
    (herr : out.1.isErr = true) (hs : out.2 = s) : Outcome fs s call out := by
  refine Outcome.refused out herr hs ?_
  intro p follow r w _ _ _ _ hwr
  rw [hwr hm] at hro
  exact nomatch hro

/-- A call that resolves no path to its end and fails does nothing. -/
theorem Outcome.of_entry_failure {fs : HostFs} {s : HostState} {call : VfsCall}
    {out : Reply × HostState} (htg : target call = none) (herr : out.1.isErr = true)
    (hs : out.2 = s) : Outcome fs s call out := by
  refine Outcome.refused out herr hs ?_
  intro p follow r w htg' _ _ _ _
  rw [htg] at htg'
  exact nomatch htg'

theorem stat_outcome (fs : HostFs) (s : HostState) (p : PathBuf) :
    Outcome fs s (.stat p) ((fs.toVfs posix).invoke s (.stat p)) := by
  show Outcome fs s (.stat p) ((fs.stat posix p s).map .attr id)
  rw [HostFs.stat]
  rcases resolve_cases fs s p with ⟨r, hacc, hres⟩ | ⟨hno, e, hres⟩
  · rw [Eff.bind_of_ok hres]
    rcases symlinkMetadata_cases s (fs.joined p) with
      ⟨l, k, i, hl, hg, hcall⟩ | ⟨⟨e, hcall⟩, hno⟩
    · have hm : posix.symlinkMetadata (fs.joined p) s = (.ok i.metadata, s.touch [l]) := hcall
      rw [Eff.bind_of_ok (Eff.mapErr_of_ok hm)]
      refine Outcome.reached _ p false r _ [] rfl hacc hl ?_ (fun h => nomatch h) rfl
        (fun l hl => nomatch hl)
      rw [admits, nodeAt_of_get hg]
      rfl
    · have hm : posix.symlinkMetadata (fs.joined p) s = (.error e, s) := hcall
      rw [Eff.bind_of_error (Eff.mapErr_of_error hm)]
      refine Outcome.of_failure (p := p) rfl ?_ rfl rfl
      intro w hlw
      cases w with
      | missing d n slash => rfl
      | «at» l k => rw [admits, hno l k hlw]; rfl
  · rw [Eff.bind_of_error hres]
    exact Outcome.of_refusal (p := p) rfl hno rfl rfl

theorem list_outcome (fs : HostFs) (s : HostState) (p : PathBuf) :
    Outcome fs s (.list p) ((fs.toVfs posix).invoke s (.list p)) := by
  show Outcome fs s (.list p) ((fs.list posix p s).map .entries id)
  rw [HostFs.list]
  rcases resolve_cases fs s p with ⟨r, hacc, hres⟩ | ⟨hno, e, hres⟩
  · rw [Eff.bind_of_ok hres]
    rcases readDir_cases s (fs.joined p) with ⟨l, k, hl, hn, hcall⟩ | ⟨⟨e, hcall⟩, hno⟩
    · have hm : posix.readDir (fs.joined p) s = (.ok ((s.tree.children l).map
          (fun e => (e.1, e.2.node.kind))), s.touch [l]) := hcall
      rw [Eff.bind_of_ok (Eff.mapErr_of_ok hm)]
      refine Outcome.reached _ p true r _ [] rfl hacc hl ?_ (fun h => nomatch h) rfl
        (fun l hl => nomatch hl)
      rw [admits]
      exact decide_eq_true hn
    · have hm : posix.readDir (fs.joined p) s = (.error e, s) := hcall
      rw [Eff.bind_of_error (Eff.mapErr_of_error hm)]
      refine Outcome.of_failure (p := p) rfl ?_ rfl rfl
      intro w hlw
      cases w with
      | missing d n slash => rfl
      | «at» l k => rw [admits]; exact decide_eq_false (hno l k hlw)
  · rw [Eff.bind_of_error hres]
    exact Outcome.of_refusal (p := p) rfl hno rfl rfl

/-- Open a file and go on without acting on another object. -/
theorem open_outcome {α : Type} {fs : HostFs} {s : HostState} {call : VfsCall}
    {p : PathBuf} {r : Loc} {o : OpenOptions} {f : Fd → VfsM HostState α}
    {out : Except VfsError α → Reply} (htg : target call = some (p, true))
    (hadm : ∀ w, admits s.tree call w = opens o s.tree w)
    (hwr : call.mutating = true → fs.readOnly = false)
    (hf : ∀ fd, Eff.Frame HostState.touched (f fd))
    (herr : ∀ e, (out (.error e)).isErr = true) (hacc : Accepted s fs p r) :
    Outcome fs s call
      (((Eff.mapErr HostFs.mapIo (posix.openFile o (fs.joined p)) >>= f) s).map out id) := by
  rcases openFile_cases o s (fs.joined p) with
    ⟨w, s', hl, hop, hopened, hcall⟩ | ⟨⟨e, hcall⟩, hno⟩
  · have hm : posix.openFile o (fs.joined p) s
        = (.ok ⟨w.place, 0⟩, s'.touch [w.place]) := hcall
    rw [Eff.bind_of_ok (Eff.mapErr_of_ok hm)]
    refine Outcome.reached _ p true r w [] htg hacc hl ?_ hwr ?_ (fun l hl => nomatch hl)
    · rw [hadm]; exact hop
    · show (f ⟨w.place, 0⟩ (s'.touch [w.place])).2.touched = s.touched ++ [w.place]
      rw [hf, HostState.touch_touched, hopened.extends.2.1]
  · have hm : posix.openFile o (fs.joined p) s = (.error e, s) := hcall
    rw [Eff.bind_of_error (Eff.mapErr_of_error hm)]
    refine Outcome.of_failure htg ?_ (herr _) rfl
    intro w hlw
    rw [hadm]
    exact hno w hlw

theorem read_outcome (fs : HostFs) (s : HostState) (p : PathBuf) (off : UInt64)
    (len : UInt32) :
    Outcome fs s (.read p off len) ((fs.toVfs posix).invoke s (.read p off len)) := by
  show Outcome fs s (.read p off len) ((fs.read posix p off len s).map .bytes id)
  rw [HostFs.read]
  rcases resolve_cases fs s p with ⟨r, hacc, hres⟩ | ⟨hno, e, hres⟩
  · rw [Eff.bind_of_ok hres]
    refine open_outcome (p := p) (r := r) (o := readOptions) rfl (fun _ => rfl)
      (fun h => nomatch h) ?_ (fun _ => rfl) hacc
    intro fd
    refine Eff.Frame.bind (Eff.Frame.mapErr _ ?_) ?_
    · intro s; exact congrArg HostState.touched (seek_frame fd off s)
    · intro f s
      exact congrArg HostState.touched (fill_frame len.toNat len.toNat f [] s)
  · rw [Eff.bind_of_error hres]
    exact Outcome.of_refusal (p := p) rfl hno rfl rfl

theorem write_outcome (fs : HostFs) (s : HostState) (p : PathBuf) (off : UInt64)
    (data : Bytes) :
    Outcome fs s (.write p off data) ((fs.toVfs posix).invoke s (.write p off data)) := by
  show Outcome fs s (.write p off data) ((fs.write posix p off data s).map .count id)
  rw [HostFs.write]
  cases hro : fs.readOnly with
  | true =>
      rw [Eff.bind_of_error (checkRw_ro hro s)]
      exact Outcome.of_readOnly rfl hro rfl rfl
  | false =>
      rw [Eff.bind_of_ok (checkRw_rw hro s)]
      rcases resolve_cases fs s p with ⟨r, hacc, hres⟩ | ⟨hno, e, hres⟩
      · rw [Eff.bind_of_ok hres]
        refine open_outcome (p := p) (r := r) (o := writeOptions) rfl (fun _ => rfl)
          (fun _ => hro) ?_ (fun _ => rfl) hacc
        intro fd
        refine Eff.Frame.bind (Eff.Frame.mapErr _ ?_) ?_
        · intro s; exact congrArg HostState.touched (seek_frame fd off s)
        · intro f
          exact Eff.Frame.bind (Eff.Frame.mapErr _ (writeAll_touched f data))
            (fun _ => Eff.Frame.pure _)
      · rw [Eff.bind_of_error hres]
        exact Outcome.of_refusal (p := p) rfl hno rfl rfl

theorem truncate_outcome (fs : HostFs) (s : HostState) (p : PathBuf) (size : UInt64) :
    Outcome fs s (.truncate p size) ((fs.toVfs posix).invoke s (.truncate p size)) := by
  show Outcome fs s (.truncate p size) ((fs.truncate posix p size s).map .unit id)
  rw [HostFs.truncate]
  cases hro : fs.readOnly with
  | true =>
      rw [Eff.bind_of_error (checkRw_ro hro s)]
      exact Outcome.of_readOnly rfl hro rfl rfl
  | false =>
      rw [Eff.bind_of_ok (checkRw_rw hro s)]
      rcases resolve_cases fs s p with ⟨r, hacc, hres⟩ | ⟨hno, e, hres⟩
      · rw [Eff.bind_of_ok hres]
        exact open_outcome (p := p) (r := r) (o := truncateOptions) rfl (fun _ => rfl)
          (fun _ => hro) (fun fd => Eff.Frame.mapErr _ (setLen_touched fd size))
          (fun _ => rfl) hacc
      · rw [Eff.bind_of_error hres]
        exact Outcome.of_refusal (p := p) rfl hno rfl rfl

/-- Where a last name that is not followed leads. -/
theorem walk_last_name (t : Tree) (k : Nat) (c : Loc) (n : Name) {d : Loc} {k' : Nat}
    (h : walk t false k c [.name n] = .ok (.at d k')) : d = c ++ [n] := by
  have hat : ∀ k₀, Except.ok (Walked.at (c ++ [n]) k₀)
      = (.ok (.at d k') : Except IoError Walked) → d = c ++ [n] := by
    intro k₀ heq
    injection heq with heq
    injection heq with h1 h2
    exact h1.symm
  cases hn : nodeAt t (c ++ [n]) with
  | none => rw [walk_name_none _ _ _ hn] at h; exact nomatch h
  | some node =>
      cases node with
      | dir => rw [walk_name_dir _ _ _ hn, walk_nil] at h; exact hat k h
      | file data => rw [walk_name_file _ _ _ hn] at h; exact hat k h
      | symlink dest => rw [walk_name_link _ _ _ hn] at h; exact hat k h

/-- What can be opened for writing is named by a last name with nothing
    behind it. -/
theorem opened_last_name {s : HostState} (hw : HostWf s) {c : Loc} {k : Nat} {sg : Seg}
    {tail : List Seg} {w : Walked} (hc : nodeAt s.tree c = some .dir)
    (hsg : sg.isSkip = false) (htl : ∀ t ∈ tail, t.isSkip = true)
    (hwk : walk s.tree true k c (sg :: tail) = .ok w)
    (hop : opens writeOptions s.tree w = true) : tail = [] ∧ ∃ n, sg = .name n := by
  have hdir : ∀ d k', w = .at d k' → nodeAt s.tree d ≠ some .dir := by
    intro d k' heq hd
    rw [heq, opens, hd] at hop
    cases hop
  cases sg with
  | empty => cases hsg
  | cur => cases hsg
  | up =>
      rw [walk_up, ← List.append_nil tail, walk_skip [] htl, walk_nil] at hwk
      exact absurd (hw.tree.dropLast hc) (hdir _ _ (Except.ok.inj hwk).symm)
  | name n =>
      refine ⟨?_, n, rfl⟩
      by_cases hne : tail = []
      · exact hne
      · have hslash := walk_slash hw.tree true htl hne k c [.name n] hc
        rw [List.singleton_append, hwk] at hslash
        cases w with
        | «at» d k' => exact absurd hslash.1 (hdir d k' rfl)
        | missing d m slash =>
            have hs : slash = true := hslash
            rw [hs] at hop
            cases hop

theorem create_outcome {s : HostState} (hw : HostWf s) (fs : HostFs) (p : PathBuf)
    (mode : UInt32) :
    Outcome fs s (.create p mode) ((fs.toVfs posix).invoke s (.create p mode)) := by
  show Outcome fs s (.create p mode) ((fs.create posix p mode s).map .attr id)
  rw [HostFs.create]
  cases hro : fs.readOnly with
  | true =>
      rw [Eff.bind_of_error (checkRw_ro hro s)]
      exact Outcome.of_readOnly rfl hro rfl rfl
  | false =>
      rw [Eff.bind_of_ok (checkRw_rw hro s)]
      rcases resolve_cases fs s p with ⟨r, hacc, hres⟩ | ⟨hno, e, hres⟩
      · rw [Eff.bind_of_ok hres]
        rcases openFile_cases writeOptions s (fs.joined p) with
          ⟨w, s', hl, hop, hopened, hcall⟩ | ⟨⟨e, hcall⟩, hno⟩
        · obtain ⟨hcwd, htouched, hext⟩ := hopened.extends
          have hm : posix.openFile writeOptions (fs.joined p) s
              = (.ok ⟨w.place, 0⟩, s'.touch [w.place]) := hcall
          -- where the attributes are asked for, the name has become a file
          have hin : ∀ l k, lookup (s'.touch [w.place]) false (fs.joined p) = .ok (.at l k) →
              r <+: l := by
            intro l k hlook
            rcases accepted_enters hw hacc hl with
              hr | ⟨c, k₀, sg, hent, hbelow, hlast, hsg, htl, hwalk⟩
            · rw [hr]; exact List.nil_prefix
            · obtain ⟨hnul, -, -⟩ := lookup_ok hl
              obtain ⟨q, hp, hq, -, hcdir, -⟩ := enterParent_some hw hent hnul
              rw [hwalk true] at hl
              obtain ⟨hnil, n, hname⟩ := opened_last_name hw hcdir hsg htl hl hop
              have hent' : enterParent (s'.touch [w.place]) (fs.joined p) = some (c, k₀) :=
                enterParent_extend hcwd hext hent
              obtain ⟨sg', hlast', -, -, ⟨c', k', hent'', hwalk'⟩ | ⟨hnone, -⟩⟩ :=
                lookup_last (s := s'.touch [w.place]) hp hq hnul
              · rw [hent'] at hent''
                obtain ⟨rfl, rfl⟩ := Prod.mk.inj (Option.some.inj hent'')
                rw [hlast] at hlast'
                rw [hwalk' false, hnil, ← Option.some.inj hlast', hname] at hlook
                rw [walk_last_name _ _ _ _ hlook]
                exact prefix_snoc n hbelow
              · rw [hent'] at hnone
                exact nomatch hnone
          rw [Eff.bind_of_ok (Eff.mapErr_of_ok hm)]
          rcases symlinkMetadata_cases (s'.touch [w.place]) (fs.joined p) with
            ⟨l, k, i, hlook, -, hcall'⟩ | ⟨⟨e, hcall'⟩, -⟩
          · have hm' : posix.symlinkMetadata (fs.joined p) (s'.touch [w.place])
                = (.ok i.metadata, (s'.touch [w.place]).touch [l]) := hcall'
            rw [Eff.bind_of_ok (Eff.mapErr_of_ok hm')]
            refine Outcome.reached _ p true r w [l] rfl hacc hl hop (fun _ => hro) ?_ ?_
            · show (s'.touched ++ [w.place]) ++ [l] = s.touched ++ [w.place, l]
              rw [htouched, List.append_assoc]
              rfl
            · intro l' hl'
              rw [List.mem_singleton.mp hl']
              exact hin l k hlook
          · have hm' : posix.symlinkMetadata (fs.joined p) (s'.touch [w.place])
                = (.error e, s'.touch [w.place]) := hcall'
            rw [Eff.bind_of_error (Eff.mapErr_of_error hm')]
            refine Outcome.reached _ p true r w [] rfl hacc hl hop (fun _ => hro) ?_
              (fun l hl => nomatch hl)
            show s'.touched ++ [w.place] = s.touched ++ [w.place]
            rw [htouched]
        · have hm : posix.openFile writeOptions (fs.joined p) s = (.error e, s) := hcall
          rw [Eff.bind_of_error (Eff.mapErr_of_error hm)]
          exact Outcome.of_failure (p := p) rfl hno rfl rfl
      · rw [Eff.bind_of_error hres]
        exact Outcome.of_refusal (p := p) rfl hno rfl rfl

/-! ## Calls that name an entry -/

/-- The entry such a call names is below the root. -/
theorem entry_below {s : HostState} (hw : HostWf s) {fs : HostFs} {p : PathBuf} {r : Loc}
    (hacc : Accepted s fs p r) {d : Loc} {n : Name} {slash : Bool}
    (h : lookupParent s (fs.joined p) = .ok (.entry d n slash)) : r <+: d ++ [n] := by
  rcases lookupParent_enters hw hacc h with hr | ⟨hin, -⟩
  · rw [hr]; exact List.nil_prefix
  · exact prefix_snoc n hin

/-- A new directory is found where it was made. -/
theorem lookup_new_dir {s : HostState} (hw : HostWf s) {fs : HostFs} {p : PathBuf} {r : Loc}
    (hacc : Accepted s fs p r) {d : Loc} {n : Name} {slash : Bool}
    (h : lookupParent s (fs.joined p) = .ok (.entry d n slash))
    (hfree : nodeAt s.tree (d ++ [n]) = none) {mode : Nat} {l : Loc} {k : Nat}
    (hl : lookup (s.addNode (d ++ [n]) .dir mode) false (fs.joined p) = .ok (.at l k)) :
    r <+: l := by
  rcases lookupParent_enters hw hacc h with hr | ⟨hin, hlast, k₀, hent⟩
  · rw [hr]; exact List.nil_prefix
  · obtain ⟨hnul, -, -⟩ := lookupParent_entry h
    obtain ⟨q, hp, hq, -, -, -⟩ := enterParent_some hw hent hnul
    have hnew : ∀ v, nodeAt (s.addNode (d ++ [n]) .dir mode).tree v
        = if d ++ [n] = v then some .dir else nodeAt s.tree v :=
      fun v => nodeAt_insert s.tree (d ++ [n]) v _
    have hent' : enterParent (s.addNode (d ++ [n]) .dir mode) (fs.joined p) = some (d, k₀) := by
      have hcwd : (s.addNode (d ++ [n]) .dir mode).cwd = s.cwd := rfl
      refine enterParent_extend hcwd ?_ hent
      intro v hv
      have hne : ¬ d ++ [n] = v := by
        intro heq
        rw [← heq] at hv
        exact hv hfree
      rw [shapeAt, shapeAt, hnew v, if_neg hne]
    obtain ⟨sg', hlast', -, htl, ⟨c', k', hent'', hwalk'⟩ | ⟨hnone, -⟩⟩ :=
      lookup_last (s := s.addNode (d ++ [n]) .dir mode) hp hq hnul
    · rw [hent'] at hent''
      obtain ⟨rfl, rfl⟩ := Prod.mk.inj (Option.some.inj hent'')
      rw [hlast] at hlast'
      have hdir : nodeAt (s.addNode (d ++ [n]) .dir mode).tree (d ++ [n]) = some .dir := by
        rw [hnew, if_pos rfl]
      rw [hwalk' false, ← Option.some.inj hlast', walk_name_dir _ _ _ hdir,
        ← List.append_nil (fs.joined p).trailing, walk_skip [] htl, walk_nil] at hl
      injection hl with hl
      injection hl with hl hk
      rw [← hl]
      exact prefix_snoc n hin
    · rw [hent'] at hnone
      cases hnone

theorem mkdir_outcome {s : HostState} (hw : HostWf s) (fs : HostFs) (p : PathBuf)
    (mode : UInt32) :
    Outcome fs s (.mkdir p mode) ((fs.toVfs posix).invoke s (.mkdir p mode)) := by
  show Outcome fs s (.mkdir p mode) ((fs.mkdir posix p mode s).map .attr id)
  rw [HostFs.mkdir]
  cases hro : fs.readOnly with
  | true =>
      rw [Eff.bind_of_error (checkRw_ro hro s)]
      exact Outcome.of_readOnly rfl hro rfl rfl
  | false =>
      rw [Eff.bind_of_ok (checkRw_rw hro s)]
      rcases resolve_cases fs s p with ⟨r, hacc, hres⟩ | ⟨-, e, hres⟩
      · rw [Eff.bind_of_ok hres]
        rcases createDir_cases s (fs.joined p) with ⟨d, n, slash, hlp, hfree, hcall⟩ | ⟨e, hcall⟩
        · have hm : posix.createDir (fs.joined p) s
              = (.ok (), (s.addNode (d ++ [n]) .dir (s.newDirMode d)).touch [d ++ [n]]) := hcall
          rw [Eff.bind_of_ok (Eff.mapErr_of_ok hm)]
          rcases symlinkMetadata_cases
              ((s.addNode (d ++ [n]) .dir (s.newDirMode d)).touch [d ++ [n]])
              (fs.joined p) with ⟨l, k, i, hlook, -, hcall'⟩ | ⟨⟨e, hcall'⟩, -⟩
          · have hm' : posix.symlinkMetadata (fs.joined p)
                ((s.addNode (d ++ [n]) .dir (s.newDirMode d)).touch [d ++ [n]])
                = (.ok i.metadata, ((s.addNode (d ++ [n]) .dir (s.newDirMode d)).touch
                  [d ++ [n]]).touch [l]) := hcall'
            rw [Eff.bind_of_ok (Eff.mapErr_of_ok hm')]
            refine Outcome.entered _ r [d ++ [n], l] rfl hacc.1 ?_ (List.cons_ne_nil _ _) ?_
            · show (s.touched ++ [d ++ [n]]) ++ [l] = s.touched ++ [d ++ [n], l]
              rw [List.append_assoc]
              rfl
            · intro v hv
              rcases List.mem_cons.mp hv with heq | hmem
              · rw [heq]; exact entry_below hw hacc hlp
              · rw [List.mem_singleton.mp hmem]
                exact lookup_new_dir hw hacc hlp hfree hlook
          · have hm' : posix.symlinkMetadata (fs.joined p)
                ((s.addNode (d ++ [n]) .dir (s.newDirMode d)).touch [d ++ [n]])
                = (.error e,
                  (s.addNode (d ++ [n]) .dir (s.newDirMode d)).touch [d ++ [n]]) := hcall'
            rw [Eff.bind_of_error (Eff.mapErr_of_error hm')]
            refine Outcome.entered _ r [d ++ [n]] rfl hacc.1 rfl (List.cons_ne_nil _ _) ?_
            intro v hv
            rw [List.mem_singleton.mp hv]
            exact entry_below hw hacc hlp
        · have hm : posix.createDir (fs.joined p) s = (.error e, s) := hcall
          rw [Eff.bind_of_error (Eff.mapErr_of_error hm)]
          exact Outcome.of_entry_failure rfl rfl rfl
      · rw [Eff.bind_of_error hres]
        exact Outcome.of_entry_failure rfl rfl rfl

theorem remove_outcome {s : HostState} (hw : HostWf s) (fs : HostFs) (p : PathBuf) :
    Outcome fs s (.remove p) ((fs.toVfs posix).invoke s (.remove p)) := by
  show Outcome fs s (.remove p) ((fs.remove posix p s).map .unit id)
  rw [HostFs.remove]
  cases hro : fs.readOnly with
  | true =>
      rw [Eff.bind_of_error (checkRw_ro hro s)]
      exact Outcome.of_readOnly rfl hro rfl rfl
  | false =>
      rw [Eff.bind_of_ok (checkRw_rw hro s)]
      rcases resolve_cases fs s p with ⟨r, hacc, hres⟩ | ⟨-, e, hres⟩
      · rw [Eff.bind_of_ok hres]
        rcases removeFile_cases s (fs.joined p) with ⟨d, n, hlp, -, -, hcall⟩ | ⟨e, hcall⟩
        · have hm : posix.removeFile (fs.joined p) s
              = (.ok (), (s.setTree (s.tree.erase (d ++ [n]))).touch [d ++ [n]]) := hcall
          rw [Eff.mapErr_of_ok hm]
          refine Outcome.entered _ r [d ++ [n]] rfl hacc.1 rfl (List.cons_ne_nil _ _) ?_
          intro v hv
          rw [List.mem_singleton.mp hv]
          exact entry_below hw hacc hlp
        · have hm : posix.removeFile (fs.joined p) s = (.error e, s) := hcall
          rw [Eff.mapErr_of_error hm]
          exact Outcome.of_entry_failure rfl rfl rfl
      · rw [Eff.bind_of_error hres]
        exact Outcome.of_entry_failure rfl rfl rfl

theorem rmdir_outcome {s : HostState} (hw : HostWf s) (fs : HostFs) (p : PathBuf) :
    Outcome fs s (.rmdir p) ((fs.toVfs posix).invoke s (.rmdir p)) := by
  show Outcome fs s (.rmdir p) ((fs.rmdir posix p s).map .unit id)
  rw [HostFs.rmdir]
  cases hro : fs.readOnly with
  | true =>
      rw [Eff.bind_of_error (checkRw_ro hro s)]
      exact Outcome.of_readOnly rfl hro rfl rfl
  | false =>
      rw [Eff.bind_of_ok (checkRw_rw hro s)]
      rcases resolve_cases fs s p with ⟨r, hacc, hres⟩ | ⟨-, e, hres⟩
      · rw [Eff.bind_of_ok hres]
        rcases removeDir_cases s (fs.joined p) with ⟨d, n, sl, hlp, -, -, hcall⟩ | ⟨e, hcall⟩
        · have hm : posix.removeDir (fs.joined p) s
              = (.ok (), (s.setTree (s.tree.erase (d ++ [n]))).touch [d ++ [n]]) := hcall
          rw [Eff.mapErr_of_ok hm]
          refine Outcome.entered _ r [d ++ [n]] rfl hacc.1 rfl (List.cons_ne_nil _ _) ?_
          intro v hv
          rw [List.mem_singleton.mp hv]
          exact entry_below hw hacc hlp
        · have hm : posix.removeDir (fs.joined p) s = (.error e, s) := hcall
          rw [Eff.mapErr_of_error hm]
          exact Outcome.of_entry_failure rfl rfl rfl
      · rw [Eff.bind_of_error hres]
        exact Outcome.of_entry_failure rfl rfl rfl

theorem rename_outcome {s : HostState} (hw : HostWf s) (fs : HostFs) (p q : PathBuf) :
    Outcome fs s (.rename p q) ((fs.toVfs posix).invoke s (.rename p q)) := by
  show Outcome fs s (.rename p q) ((fs.rename posix p q s).map .unit id)
  rw [HostFs.rename]
  cases hro : fs.readOnly with
  | true =>
      rw [Eff.bind_of_error (checkRw_ro hro s)]
      exact Outcome.of_readOnly rfl hro rfl rfl
  | false =>
      rw [Eff.bind_of_ok (checkRw_rw hro s)]
      rcases resolve_cases fs s p with ⟨r, hacc, hres⟩ | ⟨-, e, hres⟩
      · rw [Eff.bind_of_ok hres]
        rcases resolve_cases fs s q with ⟨r', hacc', hres'⟩ | ⟨-, e, hres'⟩
        · have hrr : r' = r := by
            have h1 := hacc'.1
            rw [hacc.1] at h1
            exact (Except.ok.inj h1).symm
          rw [hrr] at hacc'
          rw [Eff.bind_of_ok hres']
          rcases rename_cases s (fs.joined p) (fs.joined q) with
            ⟨d, n, sl, d', n', sl', i, hlp, hlq, -, -, hcall⟩ | ⟨e, hcall⟩
          · have hm : posix.rename (fs.joined p) (fs.joined q) s = (.ok (),
                (if d ++ [n] = d' ++ [n'] then s
                  else s.setTree (s.tree.move (d ++ [n]) (d' ++ [n']))).touch
                  [d ++ [n], d' ++ [n']]) := hcall
            rw [Eff.mapErr_of_ok hm]
            refine Outcome.entered _ r [d ++ [n], d' ++ [n']] rfl hacc.1 ?_
              (List.cons_ne_nil _ _) ?_
            · by_cases heq : d ++ [n] = d' ++ [n']
              · rw [if_pos heq]; rfl
              · rw [if_neg heq]; rfl
            · intro v hv
              rcases List.mem_cons.mp hv with heq | hmem
              · rw [heq]; exact entry_below hw hacc hlp
              · rw [List.mem_singleton.mp hmem]
                exact entry_below hw hacc' hlq
          · have hm : posix.rename (fs.joined p) (fs.joined q) s = (.error e, s) := hcall
            rw [Eff.mapErr_of_error hm]
            exact Outcome.of_entry_failure rfl rfl rfl
        · rw [Eff.bind_of_error hres']
          exact Outcome.of_entry_failure rfl rfl rfl
      · rw [Eff.bind_of_error hres]
        exact Outcome.of_entry_failure rfl rfl rfl

/-! ## The jail -/

/-- **THE JAIL AND ITS LEAKS**: for every host, root and call, the jail holds
    exactly when the last component of the call's path does not lead out. -/
theorem jailed_iff_not_leaves {s : HostState} (hw : HostWf s) (ht : s.touched = [])
    (fs : HostFs) (call : VfsCall) : Jailed fs s call ↔ ¬ Leaves fs s call := by
  refine Outcome.jailed_iff hw ht ?_
  cases call with
  | stat p => exact stat_outcome fs s p
  | list p => exact list_outcome fs s p
  | read p off len => exact read_outcome fs s p off len
  | write p off data => exact write_outcome fs s p off data
  | create p mode => exact create_outcome hw fs p mode
  | mkdir p mode => exact mkdir_outcome hw fs p mode
  | remove p => exact remove_outcome hw fs p
  | rmdir p => exact rmdir_outcome hw fs p
  | rename p q => exact rename_outcome hw fs p q
  | truncate p size => exact truncate_outcome fs s p size

/-! ### A link out of the root -/

/-- A host with the file `/s`, and in `/r` a link `l` to it. -/
def leakyHost : HostState where
  tree := [
    ([], { id := 0, node := .dir, mode := 0o40755, mtime := 0, atime := 0, ctime := 0 }),
    ([⟨[114], Eq.refl true⟩],
      { id := 1, node := .dir, mode := 0o40755, mtime := 0, atime := 0, ctime := 0 }),
    ([⟨[115], Eq.refl true⟩],
      { id := 2, node := .file [42], mode := 0o100600, mtime := 0, atime := 0, ctime := 0 }),
    ([⟨[114], Eq.refl true⟩, ⟨[108], Eq.refl true⟩],
      { id := 3, node := .symlink (PathBuf.ofBytes [47, 115]), mode := 0o120777,
        mtime := 0, atime := 0, ctime := 0 })]
  cwd := []
  nextId := 4
  now := 0
  fileMode := 0o100644
  dirMode := 0o40755
  touched := []

/-- A read-only mount of `/r`. -/
def leakyFs : HostFs := { root := PathBuf.ofBytes [47, 114], readOnly := true }

theorem leakyHost_wf : HostWf leakyHost :=
  ⟨treeWf_of_entries rfl (by decide), rfl⟩

/-- Reading `/l` returns the bytes of the file outside. -/
theorem leaky_read_escapes :
    HostWf leakyHost
      ∧ ((leakyFs.toVfs posix).invoke leakyHost (.read (PathBuf.ofBytes [47, 108]) 0 8)).1
        = .bytes (.ok [42])
      ∧ ¬ Jailed leakyFs leakyHost (.read (PathBuf.ofBytes [47, 108]) 0 8) := by
  refine ⟨leakyHost_wf, by decide, ?_⟩
  rintro ⟨hin, -⟩
  have htouch : ((leakyFs.toVfs posix).invoke leakyHost
      (.read (PathBuf.ofBytes [47, 108]) 0 8)).2.touched = [[⟨[115], rfl⟩]] := by decide
  have hroot : realpath leakyHost leakyFs.root = .ok [⟨[114], rfl⟩] := by decide
  obtain ⟨r, hr, hpre⟩ := hin [⟨[115], rfl⟩] (by rw [htouch]; exact List.mem_singleton.mpr rfl)
  rw [hroot] at hr
  rw [← Except.ok.inj hr] at hpre
  exact absurd hpre (by decide)

/-- The jail holds when the link itself is asked about. -/
theorem leaky_stat_jailed :
    Jailed leakyFs leakyHost (.stat (PathBuf.ofBytes [47, 108]))
      ↔ ¬ Leaves leakyFs leakyHost (.stat (PathBuf.ofBytes [47, 108])) :=
  jailed_iff_not_leaves leakyHost_wf rfl leakyFs (.stat (PathBuf.ofBytes [47, 108]))

end TokimoHostFs
