import TokimoKvm.HostFsProofs

/-! # What calls of `HostFs` change

    `stat`, `list` and `read` change nothing but the log of touched
    locations.  On a read-only `HostFs` the seven other calls fail before they
    look at the host. -/

namespace TokimoHostFs

open TokimoMachine TokimoBytes TokimoPath TokimoTable TokimoVfsCore TokimoHost

/-! ## Calls that look -/

/-- The host without the log of what was touched. -/
def bare (s : HostState) : HostState := { s with touched := [] }

/-- Resolving a path changes nothing. -/
theorem resolve_bare (fs : HostFs) (p : PathBuf) : Eff.Frame bare (fs.resolve posix p) := by
  intro s
  rcases resolve_cases fs s p with ⟨r, -, h⟩ | ⟨-, e, h⟩
  · rw [h]
  · rw [h]

/-- Nor does looking at what it names. -/
theorem symlinkMetadata_bare (p : PathBuf) :
    Eff.Frame bare (TokimoHost.symlinkMetadata p) := by
  intro s
  rcases symlinkMetadata_cases s p with ⟨l, k, i, -, -, h⟩ | ⟨⟨e, h⟩, -⟩
  · rw [h]; rfl
  · rw [h]

/-- Nor does reading a directory. -/
theorem readDir_bare (p : PathBuf) : Eff.Frame bare (TokimoHost.readDir p) := by
  intro s
  rcases readDir_cases s p with ⟨l, k, -, -, h⟩ | ⟨⟨e, h⟩, -⟩
  · rw [h]; rfl
  · rw [h]

/-- Opening neither to create nor to truncate changes nothing. -/
theorem openFile_bare {o : OpenOptions} (hc : o.create = false) (ht : o.truncate = false)
    (p : PathBuf) : Eff.Frame bare (TokimoHost.openFile o p) := by
  intro s
  rcases openFile_cases o s p with ⟨w, s', -, hopens, hopened, h⟩ | ⟨⟨e, h⟩, -⟩
  · rw [h]
    cases hopened with
    | new d n hn =>
        rw [opens, hc] at hopens
        cases hopens
    | dir l k hn ho => rfl
    | cut l k i data hg hi htr =>
        rw [ht] at htr
        cases htr
    | keep l k i data hg hi htr => rfl
  · rw [h]

/-- What changes nothing at all changes nothing but the log. -/
theorem bare_of_id {ε α : Type} {x : Eff HostState ε α} (h : Eff.Frame id x) :
    Eff.Frame bare x := by
  intro s
  exact congrArg TokimoHostFs.bare (h s)

/-- So `stat` changes nothing. -/
theorem stat_bare (fs : HostFs) (p : PathBuf) : Eff.Frame bare (fs.stat posix p) :=
  Eff.Frame.bind (resolve_bare fs p) fun r =>
    Eff.Frame.bind (Eff.Frame.mapErr _ (symlinkMetadata_bare r)) fun _ => Eff.Frame.pure _

/-- Nor does `list`. -/
theorem list_bare (fs : HostFs) (p : PathBuf) : Eff.Frame bare (fs.list posix p) :=
  Eff.Frame.bind (resolve_bare fs p) fun r =>
    Eff.Frame.bind (Eff.Frame.mapErr _ (readDir_bare r)) fun _ => Eff.Frame.pure _

/-- Nor does `read`. -/
theorem read_bare (fs : HostFs) (p : PathBuf) (off : UInt64) (len : UInt32) :
    Eff.Frame bare (fs.read posix p off len) :=
  Eff.Frame.bind (resolve_bare fs p) fun r =>
    Eff.Frame.bind (Eff.Frame.mapErr _ (openFile_bare rfl rfl r)) fun f =>
      Eff.Frame.bind (Eff.Frame.mapErr _ (bare_of_id (seek_frame f off))) fun g =>
        bare_of_id (fill_frame _ _ g [])

/-- **CALLS THAT LOOK ONLY LOOK.** -/
theorem looks_bare (fs : HostFs) {call : VfsCall} (h : call.mutating = false) (s : HostState) :
    bare ((fs.toVfs posix).invoke s call).2 = bare s := by
  cases call with
  | stat p => exact stat_bare fs p s
  | list p => exact list_bare fs p s
  | read p off len => exact read_bare fs p off len s
  | write p off data => exact nomatch h
  | create p mode => exact nomatch h
  | mkdir p mode => exact nomatch h
  | remove p => exact nomatch h
  | rmdir p => exact nomatch h
  | rename p q => exact nomatch h
  | truncate p size => exact nomatch h

/-! ## Calls on a read-only root -/

/-- What begins with `check_rw` stops there. -/
theorem guarded_ro {α : Type} {fs : HostFs} (hro : fs.readOnly = true)
    (x : Unit → VfsM HostState α) (s : HostState) :
    (fs.checkRw >>= x) s = (.error .permissionDenied, s) :=
  Eff.bind_of_error (checkRw_ro hro s)

/-- **A READ-ONLY `HostFs` REFUSES**: calls that are meant to change something
    fail and change nothing. -/
theorem refuses_ro {fs : HostFs} (hro : fs.readOnly = true) {call : VfsCall}
    (h : call.mutating = true) (s : HostState) :
    ((fs.toVfs posix).invoke s call).1.isErr = true
      ∧ ((fs.toVfs posix).invoke s call).2 = s := by
  cases call with
  | stat p => exact nomatch h
  | list p => exact nomatch h
  | read p off len => exact nomatch h
  | write p off data =>
      have hx : fs.write posix p off data s = (.error .permissionDenied, s) :=
        guarded_ro hro _ s
      simp only [TokimoVfs.invoke, HostFs.toVfs, hx]
      exact ⟨rfl, rfl⟩
  | create p mode =>
      have hx : fs.create posix p mode s = (.error .permissionDenied, s) := guarded_ro hro _ s
      simp only [TokimoVfs.invoke, HostFs.toVfs, hx]
      exact ⟨rfl, rfl⟩
  | mkdir p mode =>
      have hx : fs.mkdir posix p mode s = (.error .permissionDenied, s) := guarded_ro hro _ s
      simp only [TokimoVfs.invoke, HostFs.toVfs, hx]
      exact ⟨rfl, rfl⟩
  | remove p =>
      have hx : fs.remove posix p s = (.error .permissionDenied, s) := guarded_ro hro _ s
      simp only [TokimoVfs.invoke, HostFs.toVfs, hx]
      exact ⟨rfl, rfl⟩
  | rmdir p =>
      have hx : fs.rmdir posix p s = (.error .permissionDenied, s) := guarded_ro hro _ s
      simp only [TokimoVfs.invoke, HostFs.toVfs, hx]
      exact ⟨rfl, rfl⟩
  | rename p q =>
      have hx : fs.rename posix p q s = (.error .permissionDenied, s) := guarded_ro hro _ s
      simp only [TokimoVfs.invoke, HostFs.toVfs, hx]
      exact ⟨rfl, rfl⟩
  | truncate p size =>
      have hx : fs.truncate posix p size s = (.error .permissionDenied, s) :=
        guarded_ro hro _ s
      simp only [TokimoVfs.invoke, HostFs.toVfs, hx]
      exact ⟨rfl, rfl⟩

end TokimoHostFs
