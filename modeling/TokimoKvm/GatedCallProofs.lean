import TokimoKvm.HostFsChangeProofs
import TokimoKvm.HostFsFaultProofs

/-! # A call and its check — let through or refused

    Every operation of `HostFs` is a check and then a call of the host with
    the joined paths.  A call that is let through does what the host does
    with these paths; any other is refused and changes nothing.  The host as
    it is modelled has no permissions of its own, so the two can be told
    apart by the reply. -/

namespace TokimoHostFs

open TokimoMachine TokimoBytes TokimoPath TokimoTable TokimoVfsCore TokimoHost

variable {s : HostState} {fs : HostFs} {p : PathBuf} {r : Loc}

/-! ## Behind the check -/

/-- The paths of a call. -/
def paths : VfsCall → List PathBuf
  | .stat p => [p]
  | .list p => [p]
  | .read p _ _ => [p]
  | .write p _ _ => [p]
  | .create p _ => [p]
  | .mkdir p _ => [p]
  | .remove p => [p]
  | .rmdir p => [p]
  | .rename p q => [p, q]
  | .truncate p _ => [p]

/-! What each operation does with the joined path. -/

/-- `stat` from the path on that `resolve` let through. -/
def statAt (j : PathBuf) : VfsM HostState FileAttr := do
  let m ← Eff.mapErr HostFs.mapIo (posix.symlinkMetadata j)
  pure (HostFs.attrFromMeta m)

/-- `list` from that path on. -/
def listAt (j : PathBuf) : VfsM HostState (List DirEntry) := do
  let rd ← Eff.mapErr HostFs.mapIo (posix.readDir j)
  pure (rd.map fun e => { name := toStringLossy e.1.1, kind := e.2 })

/-- `read` from that path on. -/
def readAt (offset : UInt64) (len : UInt32) (j : PathBuf) : VfsM HostState Bytes := do
  let f ← Eff.mapErr HostFs.mapIo (posix.openFile readOptions j)
  let f ← Eff.mapErr HostFs.mapIo (posix.seek f offset)
  HostFs.fill posix len.toNat len.toNat f []

/-- `write` from that path on. -/
def writeAt (offset : UInt64) (data : Bytes) (j : PathBuf) : VfsM HostState UInt32 := do
  let f ← Eff.mapErr HostFs.mapIo (posix.openFile writeOptions j)
  let f ← Eff.mapErr HostFs.mapIo (posix.seek f offset)
  let _ ← Eff.mapErr HostFs.mapIo (posix.writeAll f data)
  pure (UInt32.ofNat data.length)

/-- `create` from that path on. -/
def createAt (j : PathBuf) : VfsM HostState FileAttr := do
  let _ ← Eff.mapErr HostFs.mapIo (posix.openFile writeOptions j)
  statAt j

/-- `mkdir` from that path on. -/
def mkdirAt (j : PathBuf) : VfsM HostState FileAttr := do
  Eff.mapErr HostFs.mapIo (posix.createDir j)
  statAt j

/-- `remove` from that path on. -/
def removeAt (j : PathBuf) : VfsM HostState Unit := Eff.mapErr HostFs.mapIo (posix.removeFile j)

/-- `rmdir` from that path on. -/
def rmdirAt (j : PathBuf) : VfsM HostState Unit := Eff.mapErr HostFs.mapIo (posix.removeDir j)

/-- `rename` from both paths on. -/
def renameAt (j q : PathBuf) : VfsM HostState Unit := Eff.mapErr HostFs.mapIo (posix.rename j q)

/-- `truncate` from that path on. -/
def truncateAt (size : UInt64) (j : PathBuf) : VfsM HostState Unit := do
  let f ← Eff.mapErr HostFs.mapIo (posix.openFile truncateOptions j)
  Eff.mapErr HostFs.mapIo (posix.setLen f size)

/-- What a call does that is let through. -/
def act (fs : HostFs) (s : HostState) : VfsCall → Reply × HostState
  | .stat p => (statAt (fs.joined p) s).map .attr id
  | .list p => (listAt (fs.joined p) s).map .entries id
  | .read p off len => (readAt off len (fs.joined p) s).map .bytes id
  | .write p off data => (writeAt off data (fs.joined p) s).map .count id
  | .create p _ => (createAt (fs.joined p) s).map .attr id
  | .mkdir p _ => (mkdirAt (fs.joined p) s).map .attr id
  | .remove p => (removeAt (fs.joined p) s).map .unit id
  | .rmdir p => (rmdirAt (fs.joined p) s).map .unit id
  | .rename p q => (renameAt (fs.joined p) (fs.joined q) s).map .unit id
  | .truncate p size => (truncateAt size (fs.joined p) s).map .unit id

/-- The reply to a call that is refused. -/
def refusal : VfsCall → Reply
  | .stat _ => .attr (.error .permissionDenied)
  | .list _ => .entries (.error .permissionDenied)
  | .read _ _ _ => .bytes (.error .permissionDenied)
  | .write _ _ _ => .count (.error .permissionDenied)
  | .create _ _ => .attr (.error .permissionDenied)
  | .mkdir _ _ => .attr (.error .permissionDenied)
  | .remove _ => .unit (.error .permissionDenied)
  | .rmdir _ => .unit (.error .permissionDenied)
  | .rename _ _ => .unit (.error .permissionDenied)
  | .truncate _ _ => .unit (.error .permissionDenied)

/-- Every path of a call passes the check. -/
def LetThrough (s : HostState) (fs : HostFs) (r : Loc) (call : VfsCall) : Prop :=
  ∀ p ∈ paths call, Accepted s fs p r

/-- A call that a read-only mount refuses. -/
def Guarded (fs : HostFs) (call : VfsCall) : Prop := fs.readOnly = true ∧ call.mutating = true

section Through

variable {α : Type} {call : VfsCall}

/-- Behind an accepted path the call runs on the joined path. -/
theorem resolve_through (hacc : Accepted s fs p r) (x : PathBuf → VfsM HostState α) :
    (fs.resolve posix p >>= x) s = x (fs.joined p) s := by
  rcases resolve_cases fs s p with ⟨-, -, h⟩ | ⟨hno, -⟩
  · exact Eff.bind_of_ok h
  · exact absurd hacc (hno r)

/-- Where the root is there, a path that is not accepted is refused, and nothing
    is done. -/
theorem resolve_refused (hroot : realpath s fs.root = .ok r) (hno : ¬ Accepted s fs p r)
    (x : PathBuf → VfsM HostState α) :
    (fs.resolve posix p >>= x) s = (.error .permissionDenied, s) := by
  refine Eff.bind_of_error ?_
  have hdef : fs.resolve posix p = (do
      let canonRoot ← Eff.mapErr (fun e => .io e.text) (canonicalize fs.root)
      let canonParent ← Eff.recover (fs.probe p) (canonicalize (fs.probe p))
      if !canonParent.startsWith canonRoot then Eff.fail .permissionDenied
      else pure (fs.joined p)) := rfl
  rw [hdef, Eff.bind_of_ok (Eff.mapErr_of_ok (canonicalize_of_ok hroot))]
  cases hp : realpath s (fs.probe p) with
  | ok c =>
      have hrec : Eff.recover (fs.probe p) (canonicalize (fs.probe p)) s
          = ((.ok (locPath c) : Except VfsError PathBuf), s) := by
        rw [Eff.recover, canonicalize_of_ok hp]
      have hout : (locPath c).startsWith (locPath r) = false := by
        rw [Bool.eq_false_iff, Ne, locPath_startsWith]
        exact fun hin => hno ⟨hroot, Or.inl ⟨c, hp, hin⟩⟩
      rw [Eff.bind_of_ok hrec, hout]
      rfl
  | error e =>
      have hrec : Eff.recover (fs.probe p) (canonicalize (fs.probe p)) s
          = ((.ok (fs.probe p) : Except VfsError PathBuf), s) := by
        rw [Eff.recover, canonicalize_of_error hp]
      have hout : (fs.probe p).startsWith (locPath r) = false := by
        rw [Bool.eq_false_iff]
        exact fun hst => hno ⟨hroot, Or.inr ⟨⟨e, hp⟩, hst⟩⟩
      rw [Eff.bind_of_ok hrec, hout]
      rfl

/-- A writable mount lets every change through. -/
theorem checkRw_through (h : fs.readOnly = false) (x : VfsM HostState α) :
    (fs.checkRw >>= fun _ => x) s = x s := Eff.bind_of_ok (checkRw_rw h s)

/-- **BEHIND THE CHECK** a call does what it does with the joined paths. -/
theorem invoke_through (h : LetThrough s fs r call) (hrw : ¬ Guarded fs call) :
    (fs.toVfs posix).invoke s call = act fs s call := by
  have hmut : call.mutating = true → fs.readOnly = false := by
    intro hm
    exact Bool.eq_false_iff.mpr fun hro => hrw ⟨hro, hm⟩
  cases call with
  | stat p =>
      exact congrArg (Prod.map Reply.attr id) (resolve_through (h p (List.mem_cons_self ..)) statAt)
  | list p =>
      exact congrArg (Prod.map Reply.entries id)
        (resolve_through (h p (List.mem_cons_self ..)) listAt)
  | read p off len =>
      exact congrArg (Prod.map Reply.bytes id)
        (resolve_through (h p (List.mem_cons_self ..)) (readAt off len))
  | write p off data =>
      exact congrArg (Prod.map Reply.count id) ((checkRw_through (hmut rfl) _).trans
        (resolve_through (h p (List.mem_cons_self ..)) (writeAt off data)))
  | create p mode =>
      exact congrArg (Prod.map Reply.attr id) ((checkRw_through (hmut rfl) _).trans
        (resolve_through (h p (List.mem_cons_self ..)) createAt))
  | mkdir p mode =>
      exact congrArg (Prod.map Reply.attr id) ((checkRw_through (hmut rfl) _).trans
        (resolve_through (h p (List.mem_cons_self ..)) mkdirAt))
  | remove p =>
      exact congrArg (Prod.map Reply.unit id) ((checkRw_through (hmut rfl) _).trans
        (resolve_through (h p (List.mem_cons_self ..)) removeAt))
  | rmdir p =>
      exact congrArg (Prod.map Reply.unit id) ((checkRw_through (hmut rfl) _).trans
        (resolve_through (h p (List.mem_cons_self ..)) rmdirAt))
  | rename p q =>
      have hp := h p (List.mem_cons_self ..)
      have hq := h q (List.mem_cons_of_mem _ (List.mem_cons_self ..))
      exact congrArg (Prod.map Reply.unit id) ((checkRw_through (hmut rfl) _).trans
        ((resolve_through hp fun f => fs.resolve posix q >>= renameAt f).trans
          (resolve_through hq (renameAt (fs.joined p)))))
  | truncate p size =>
      exact congrArg (Prod.map Reply.unit id) ((checkRw_through (hmut rfl) _).trans
        (resolve_through (h p (List.mem_cons_self ..)) (truncateAt size)))

/-- What begins with the check is refused where a path does not pass. -/
theorem gated_refused (hroot : realpath s fs.root = .ok r) (hno : ¬ Accepted s fs p r)
    (x : PathBuf → VfsM HostState α) :
    (fs.checkRw >>= fun _ => fs.resolve posix p >>= x) s = (.error .permissionDenied, s) := by
  cases hro : fs.readOnly with
  | true => exact guarded_ro hro _ s
  | false =>
      rw [checkRw_through hro]
      exact resolve_refused hroot hno x

/-- **A PATH THAT DOES NOT PASS** makes its call be refused. -/
theorem invoke_refused (hroot : realpath s fs.root = .ok r) (hno : ¬ LetThrough s fs r call) :
    (fs.toVfs posix).invoke s call = (refusal call, s) := by
  have hone : ∀ {p : PathBuf}, paths call = [p] → ¬ Accepted s fs p r := by
    intro p hp hacc
    refine hno fun q hq => ?_
    rw [hp] at hq
    rw [List.mem_singleton.mp hq]
    exact hacc
  cases call with
  | stat p => exact congrArg (Prod.map Reply.attr id) (resolve_refused hroot (hone rfl) statAt)
  | list p => exact congrArg (Prod.map Reply.entries id) (resolve_refused hroot (hone rfl) listAt)
  | read p off len =>
      exact congrArg (Prod.map Reply.bytes id) (resolve_refused hroot (hone rfl) (readAt off len))
  | write p off data =>
      exact congrArg (Prod.map Reply.count id)
        (gated_refused hroot (hone rfl) (writeAt off data))
  | create p mode =>
      exact congrArg (Prod.map Reply.attr id) (gated_refused hroot (hone rfl) createAt)
  | mkdir p mode =>
      exact congrArg (Prod.map Reply.attr id) (gated_refused hroot (hone rfl) mkdirAt)
  | remove p =>
      exact congrArg (Prod.map Reply.unit id) (gated_refused hroot (hone rfl) removeAt)
  | rmdir p =>
      exact congrArg (Prod.map Reply.unit id) (gated_refused hroot (hone rfl) rmdirAt)
  | truncate p size =>
      exact congrArg (Prod.map Reply.unit id) (gated_refused hroot (hone rfl) (truncateAt size))
  | rename p q =>
      -- two paths, and the first may be let through
      have hx : (fs.checkRw >>= fun _ => fs.resolve posix p >>= fun f =>
          fs.resolve posix q >>= renameAt f) s = (.error .permissionDenied, s) := by
        by_cases hp : Accepted s fs p r
        · have hq : ¬ Accepted s fs q r := by
            intro hq
            refine hno fun u hu => ?_
            rcases List.mem_cons.mp hu with rfl | hu
            · exact hp
            · rw [List.mem_singleton.mp hu]
              exact hq
          cases hro : fs.readOnly with
          | true => exact guarded_ro hro _ s
          | false =>
              rw [checkRw_through hro]
              exact (resolve_through hp fun f => fs.resolve posix q >>= renameAt f).trans
                (resolve_refused hroot hq _)
        · exact gated_refused hroot hp _
      exact congrArg (Prod.map Reply.unit id) hx

/-- A read-only mount refuses what would change it. -/
theorem invoke_guarded (h : Guarded fs call) (s : HostState) :
    (fs.toVfs posix).invoke s call = (refusal call, s) := by
  obtain ⟨hro, hmut⟩ := h
  cases call with
  | stat p => exact nomatch hmut
  | list p => exact nomatch hmut
  | read p off len => exact nomatch hmut
  | write p off data => exact congrArg (Prod.map Reply.count id) (guarded_ro hro _ s)
  | create p mode => exact congrArg (Prod.map Reply.attr id) (guarded_ro hro _ s)
  | mkdir p mode => exact congrArg (Prod.map Reply.attr id) (guarded_ro hro _ s)
  | remove p => exact congrArg (Prod.map Reply.unit id) (guarded_ro hro _ s)
  | rmdir p => exact congrArg (Prod.map Reply.unit id) (guarded_ro hro _ s)
  | rename p q => exact congrArg (Prod.map Reply.unit id) (guarded_ro hro _ s)
  | truncate p size => exact congrArg (Prod.map Reply.unit id) (guarded_ro hro _ s)

end Through

/-! ## The host grants what it is asked -/

/-- Not for want of a permission. -/
def Plain (e : IoError) : Prop := e.kind ≠ .permissionDenied

instance (e : IoError) : Decidable (Plain e) := inferInstanceAs (Decidable (e.kind ≠ _))

/-- A walk never fails for want of permission. -/
theorem walk_plain {t : Tree} {follow : Bool} {k : Nat} {dir : Loc} {l : List Seg} {e : IoError}
    (h : walk t follow k dir l = .error e) : Plain e := by
  rcases walk_error k dir l h with rfl | rfl | rfl
  · decide
  · decide
  · decide

/-- Nor does a lookup. -/
theorem lookup_plain {follow : Bool} {j : PathBuf} {e : IoError}
    (h : lookup s follow j = .error e) : Plain e := by
  rw [lookup] at h
  split at h
  · rw [← Except.error.inj h]
    decide
  · split at h
    · rw [← Except.error.inj h]
      decide
    · exact walk_plain h

/-- Nor does what is made of a walk. -/
theorem entered_plain {f : Loc → Parent} {x : Except IoError Walked}
    (hx : ∀ e, x = .error e → Plain e) {e : IoError} (h : entered f x = .error e) : Plain e := by
  cases x with
  | error e' =>
      rw [← Except.error.inj h]
      exact hx e' rfl
  | ok w =>
      cases w with
      | «at» l k => exact nomatch h
      | missing d n slash =>
          rw [← Except.error.inj h]
          decide

/-- Nor does the lookup of a parent. -/
theorem lookupParent_plain {j : PathBuf} {e : IoError} (h : lookupParent s j = .error e) :
    Plain e := by
  cases hnul : j.hasNul with
  | true =>
      rw [lookupParent, if_pos hnul] at h
      rw [← Except.error.inj h]
      decide
  | false =>
      cases hne : j.isEmptyStr with
      | true =>
          rw [lookupParent, if_neg (by rw [hnul]; exact Bool.false_ne_true), if_pos hne] at h
          rw [← Except.error.inj h]
          decide
      | false =>
          rw [lookupParent_walk hnul hne, parentFrom] at h
          split at h
          · exact entered_plain (fun e he => walk_plain he) h
          · exact entered_plain (fun e he => walk_plain he) h

/-- The error of a failure is the one that was returned. -/
theorem plain_of {α : Type} {e e' : IoError} (h : (.error e' : Except IoError α) = .error e)
    (he : Plain e') : Plain e := by
  rw [← Except.error.inj h]
  exact he

theorem symlinkMetadata_plain (j : PathBuf) : Eff.Raises Plain (symlinkMetadata j) := by
  intro s e h
  rw [symlinkMetadata] at h
  split at h
  · next hl => exact plain_of h (lookup_plain hl)
  · exact plain_of h (by decide)
  · split at h
    · exact plain_of h (by decide)
    · cases h

theorem readDir_plain (j : PathBuf) : Eff.Raises Plain (readDir j) := by
  intro s e h
  rw [readDir] at h
  split at h
  · next hl => exact plain_of h (lookup_plain hl)
  · exact plain_of h (by decide)
  · split at h
    · exact plain_of h (by decide)
    · cases h
    · exact plain_of h (by decide)

theorem openFile_plain (o : OpenOptions) (j : PathBuf) : Eff.Raises Plain (openFile o j) := by
  intro s e h
  rw [openFile] at h
  split at h
  · next hl => exact plain_of h (lookup_plain hl)
  · split at h
    · exact plain_of h (by decide)
    · split at h
      · exact plain_of h (by decide)
      · cases h
  · split at h
    · exact plain_of h (by decide)
    · split at h
      · split at h
        · exact plain_of h (by decide)
        · cases h
      · split at h <;> cases h
      · exact plain_of h (by decide)

theorem seek_plain (f : Fd) (off : UInt64) : Eff.Raises Plain (seek f off) := by
  intro s e h
  rw [seek] at h
  split at h
  · cases h
  · exact plain_of h (by decide)

theorem read_plain (f : Fd) (n : Nat) : Eff.Raises Plain (TokimoHost.read f n) := by
  intro s e h
  rw [TokimoHost.read] at h
  split at h
  · cases h
  · exact plain_of h (by decide)
  · exact plain_of h (by decide)

theorem writeAll_plain (f : Fd) (data : Bytes) : Eff.Raises Plain (writeAll f data) := by
  intro s e h
  rw [writeAll] at h
  split at h
  · exact plain_of h (by decide)
  · split at h
    · split at h
      · cases h
      · split at h
        · cases h
        · exact plain_of h (by decide)
    · exact plain_of h (by decide)

theorem setLen_plain (f : Fd) (size : UInt64) : Eff.Raises Plain (setLen f size) := by
  intro s e h
  rw [setLen] at h
  split at h
  · exact plain_of h (by decide)
  · split at h
    · exact plain_of h (by decide)
    · split at h
      · cases h
      · exact plain_of h (by decide)

theorem createDir_plain (j : PathBuf) : Eff.Raises Plain (createDir j) := by
  intro s e h
  rw [createDir] at h
  split at h
  · next hl => exact plain_of h (lookupParent_plain hl)
  · exact plain_of h (by decide)
  · split at h
    · exact plain_of h (by decide)
    · cases h

theorem removeFile_plain (j : PathBuf) : Eff.Raises Plain (removeFile j) := by
  intro s e h
  rw [removeFile] at h
  split at h
  · next hl => exact plain_of h (lookupParent_plain hl)
  · exact plain_of h (by decide)
  · split at h
    · exact plain_of h (by decide)
    · exact plain_of h (by decide)
    · split at h
      · exact plain_of h (by decide)
      · cases h

theorem removeDir_plain (j : PathBuf) : Eff.Raises Plain (removeDir j) := by
  intro s e h
  rw [removeDir] at h
  split at h
  · next hl => exact plain_of h (lookupParent_plain hl)
  · exact plain_of h (by decide)
  · exact plain_of h (by decide)
  · exact plain_of h (by decide)
  · split at h
    · exact plain_of h (by decide)
    · split at h
      · cases h
      · exact plain_of h (by decide)
    · exact plain_of h (by decide)

/-- What keeps a rename from being made is no matter of permission. -/
theorem renameCheck_plain {t : Tree} {src dst : Loc} {i : Inode} {slash : Bool} {e : IoError}
    (h : renameCheck t src dst i slash = .error e) : Plain e := by
  rw [renameCheck] at h
  split at h
  · exact plain_of h (by decide)
  · split at h
    · cases h
    · split at h
      · exact plain_of h (by decide)
      · split at h
        · exact plain_of h (by decide)
        · split at h
          · cases h
          · split at h
            · exact plain_of h (by decide)
            · split at h
              · exact plain_of h (by decide)
              · split at h
                · exact plain_of h (by decide)
                · cases h

/-- A rename fails for a lookup or for one of these reasons. -/
theorem rename_plain (j q : PathBuf) : Eff.Raises Plain (rename j q) := by
  intro s e h
  rw [rename] at h
  split at h
  · next hl => exact plain_of h (lookupParent_plain hl)
  · split at h
    · next hl => exact plain_of h (lookupParent_plain hl)
    · split at h
      · split at h
        · exact plain_of h (by decide)
        · split at h
          · next hc => exact plain_of h (renameCheck_plain hc)
          · cases h
      · exact plain_of h (by decide)

/-- `map_io` makes no refusal of such an error. -/
theorem mapIo_plain (e : IoError) (h : Plain e) : HostFs.mapIo e ≠ .permissionDenied := by
  intro heq
  rw [HostFs.mapIo] at heq
  split at heq
  · exact nomatch heq
  · next hk => exact h hk
  · exact nomatch heq
  · exact nomatch heq

/-- A failure that is no refusal. -/
def Granted (e : VfsError) : Prop := e ≠ .permissionDenied

/-- A call of the host that fails so does not look like a refusal. -/
theorem asked_granted {α : Type} {x : Eff HostState IoError α} (h : Eff.Raises Plain x) :
    Eff.Raises Granted (Eff.mapErr HostFs.mapIo x) := h.mapErr mapIo_plain

/-- A `stat` behind the check is never refused. -/
theorem statAt_granted (j : PathBuf) : Eff.Raises Granted (statAt j) :=
  Eff.Raises.bind (asked_granted (symlinkMetadata_plain j)) fun _ => Eff.Raises.pure _

/-- Nor is the loop of a `read`. -/
theorem fill_granted (want : Nat) : ∀ (fuel : Nat) (f : Fd) (buf : Bytes),
    Eff.Raises Granted (HostFs.fill posix want fuel f buf) := by
  intro fuel
  induction fuel with
  | zero => exact fun f buf => Eff.Raises.pure _
  | succ fuel ih =>
      intro f buf
      rw [HostFs.fill]
      by_cases hlen : buf.length < want
      · rw [if_pos hlen]
        refine Eff.Raises.bind (asked_granted (read_plain f _)) fun got => ?_
        by_cases hgot : got.1.isEmpty = true
        · rw [if_pos hgot]
          exact Eff.Raises.pure _
        · rw [if_neg hgot]
          exact ih _ _
      · rw [if_neg hlen]
        exact Eff.Raises.pure _

/-- The variant of an error: what an `Io` says is left out. -/
def variant : VfsError → VfsError
  | .io _ => .io ""
  | e => e

/-- A reply, with the variant of its error. -/
def inVariant : Reply → Reply
  | .attr r => .attr (r.mapError variant)
  | .entries r => .entries (r.mapError variant)
  | .bytes r => .bytes (r.mapError variant)
  | .count r => .count (r.mapError variant)
  | .unit r => .unit (r.mapError variant)

/-- A reply that is no refusal is none as a response either. -/
theorem not_refusal {α : Type} {r : VfsResult α} (h : ∀ e, r = .error e → Granted e) :
    r.mapError variant ≠ .error .permissionDenied := by
  intro heq
  cases r with
  | ok v => exact nomatch heq
  | error e =>
      have he : variant e = .permissionDenied := Except.error.inj heq
      cases e with
      | permissionDenied => exact h _ rfl rfl
      | notFound => exact nomatch he
      | alreadyExists => exact nomatch he
      | notADirectory => exact nomatch he
      | isADirectory => exact nomatch he
      | io msg => exact nomatch he

/-- **BEHIND THE CHECK NOTHING IS REFUSED**. -/
theorem act_granted (fs : HostFs) (s : HostState) (call : VfsCall) :
    inVariant (act fs s call).1 ≠ inVariant (refusal call) := by
  -- what the host answers is never the refusal of the check
  have hpure : ∀ {α β : Type} {x : VfsM HostState α} (f : α → β), Eff.Raises Granted x →
      Eff.Raises Granted (x >>= fun v => pure (f v)) :=
    fun f hx => Eff.Raises.bind hx fun _ => Eff.Raises.pure _
  have hne : ∀ {α : Type} {x : VfsM HostState α}, Eff.Raises Granted x →
      (x s).1.mapError variant ≠ .error .permissionDenied :=
    fun hx => not_refusal (hx s)
  have hattr : ∀ {x : VfsM HostState FileAttr}, Eff.Raises Granted x →
      inVariant (Reply.attr (x s).1) ≠ .attr (.error .permissionDenied) :=
    fun hx h => hne hx (Reply.attr.inj h)
  have hunit : ∀ {x : VfsM HostState Unit}, Eff.Raises Granted x →
      inVariant (Reply.unit (x s).1) ≠ .unit (.error .permissionDenied) :=
    fun hx h => hne hx (Reply.unit.inj h)
  cases call with
  | stat p => exact hattr (statAt_granted _)
  | list p =>
      intro h
      exact hne (hpure _ (asked_granted (readDir_plain (fs.joined p)))) (Reply.entries.inj h)
  | read p off len =>
      intro h
      refine hne (x := readAt off len (fs.joined p)) ?_ (Reply.bytes.inj h)
      exact Eff.Raises.bind (asked_granted (openFile_plain _ _)) fun f =>
        Eff.Raises.bind (asked_granted (seek_plain f off)) fun f => fill_granted _ _ f []
  | write p off data =>
      intro h
      refine hne (x := writeAt off data (fs.joined p)) ?_ (Reply.count.inj h)
      exact Eff.Raises.bind (asked_granted (openFile_plain _ _)) fun f =>
        Eff.Raises.bind (asked_granted (seek_plain f off)) fun f =>
          Eff.Raises.bind (asked_granted (writeAll_plain f data)) fun _ => Eff.Raises.pure _
  | create p mode =>
      exact hattr (Eff.Raises.bind (asked_granted (openFile_plain _ _)) fun _ => statAt_granted _)
  | mkdir p mode =>
      exact hattr (Eff.Raises.bind (asked_granted (createDir_plain _)) fun _ => statAt_granted _)
  | remove p => exact hunit (asked_granted (removeFile_plain _))
  | rmdir p => exact hunit (asked_granted (removeDir_plain _))
  | rename p q => exact hunit (asked_granted (rename_plain _ _))
  | truncate p size =>
      exact hunit (Eff.Raises.bind (asked_granted (openFile_plain _ _)) fun f =>
        asked_granted (setLen_plain f size))

end TokimoHostFs
