import TokimoKvm.HostFsProofs

/-! # File contents under `HostFs`

    A regular file should behave as an array of bytes.  `read` and `truncate`
    do; `write` opens with truncation, so a file holds the last write and
    zeros in front of it, whatever it held before.  The array and the file
    agree along every run whose writes have nothing to lose, and a single
    write agrees with the array exactly then. -/

namespace TokimoHostFs

open TokimoMachine TokimoBytes TokimoPath TokimoTable TokimoVfsCore TokimoHost

/-! ## The byte array -/

/-- Put bytes at an offset: the bytes of the range are replaced, a gap past
    the end becomes zeros, every other byte stays; no bytes change nothing. -/
def putBytes (off : Nat) (data old : Bytes) : Bytes :=
  if data.isEmpty then old
  else (List.range (max old.length (off + data.length))).map (fun i =>
    if off ≤ i ∧ i < off + data.length then data.getD (i - off) 0 else old.getD i 0)

/-- Cut or zero-extend to a size. -/
def cutBytes (size : Nat) (old : Bytes) : Bytes :=
  (List.range size).map (fun i => old.getD i 0)

/-- The bytes from an offset on, up to a number of them. -/
def sliceBytes (off len : Nat) (old : Bytes) : Bytes := (old.drop off).take len

/-- What `HostFs::write` makes of a file, whatever was in it. -/
def freshBytes (off : Nat) (data : Bytes) : Bytes :=
  if data.isEmpty then [] else List.replicate off 0 ++ data

/-- A write at `off` replaces everything in `old` but zeros. -/
def LosesNothing (off : Nat) (data old : Bytes) : Prop :=
  (data = [] → old = [])
    ∧ (data ≠ [] → old.length ≤ off + data.length ∧ ∀ i, i < off → old.getD i 0 = 0)

theorem resize_eq_cutBytes (n : Nat) (old : Bytes) : resize n old = cutBytes n old := by
  refine List.ext_getElem ?_ ?_
  · rw [resize, cutBytes]
    simp
    omega
  · intro i h1 h2
    have hi : i < n := by
      rw [cutBytes, List.length_map, List.length_range] at h2
      exact h2
    simp only [resize, cutBytes, List.getElem_map, List.getElem_range, List.getElem_append,
      List.getElem_take, List.getElem_replicate, List.length_take]
    by_cases ho : i < old.length
    · rw [dif_pos (by omega), List.getD_eq_getElem _ _ ho]
    · rw [dif_neg (by omega), List.getD_eq_default _ _ (by omega)]

theorem overwrite_nil (off : Nat) (data : Bytes) :
    overwrite off data [] = List.replicate off 0 ++ data := by
  rw [overwrite]
  simp

/-- **WHEN A TRUNCATING WRITE IS A WRITE**: what `HostFs::write` leaves is
    what the byte array holds exactly when there is nothing to lose. -/
theorem freshBytes_eq_iff (off : Nat) (data old : Bytes) :
    freshBytes off data = putBytes off data old ↔ LosesNothing off data old := by
  rw [freshBytes, putBytes, LosesNothing]
  cases data with
  | nil =>
      constructor
      · intro h
        exact ⟨fun _ => h.symm, fun hne => absurd rfl hne⟩
      · rintro ⟨h, -⟩
        exact (h rfl).symm
  | cons b bs =>
      rw [if_neg (by simp), if_neg (by simp)]
      constructor
      · intro h
        refine ⟨(fun hnil => nomatch hnil), fun _ => ?_⟩
        have hlen := congrArg List.length h
        rw [List.length_append, List.length_replicate, List.length_map,
          List.length_range] at hlen
        refine ⟨by omega, ?_⟩
        intro i hi
        have hget := congrArg (fun l : Bytes => l.getD i 0) h
        simp only [List.getD_eq_getElem?_getD] at hget ⊢
        rw [List.getElem?_append_left (by simpa using hi), List.getElem?_replicate_of_lt hi,
          List.getElem?_map, List.getElem?_range (by omega)] at hget
        simp only [Option.map_some, Option.getD_some] at hget
        rw [if_neg (by omega)] at hget
        simpa [List.getD_eq_getElem?_getD] using hget.symm
      · rintro ⟨-, h⟩
        obtain ⟨hlen, hzero⟩ := h (List.cons_ne_nil b bs)
        refine List.ext_getElem ?_ ?_
        · rw [List.length_append, List.length_replicate, List.length_map, List.length_range]
          omega
        · intro i h1 h2
          rw [List.length_append, List.length_replicate] at h1
          rw [List.getElem_map, List.getElem_range, List.getElem_append]
          by_cases hi : i < off
          · rw [dif_pos (by simpa using hi), List.getElem_replicate, if_neg (by omega),
              hzero i hi]
          · rw [dif_neg (by simpa using hi), if_pos (by omega),
              List.getD_eq_getElem _ _ (by omega)]
            simp only [List.length_replicate]

/-! ## One operation -/

/-- Opening a file that is there. -/
theorem openFile_file {s : HostState} {p : PathBuf} {l : Loc} {k : Nat} {i : Inode}
    {old : Bytes} (o : OpenOptions) (hl : lookup s true p = .ok (.at l k))
    (hg : s.tree.get l = some i) (hi : i.node = .file old) :
    openFile o p s
      = (.ok ⟨l, 0⟩, (if o.truncate then s.putData l i [] else s).touch [l]) := by
  rw [openFile, hl]
  simp only [hg, hi]
  by_cases ht : o.truncate = true
  · rw [if_pos ht, if_pos ht]
  · rw [if_neg ht, if_neg ht]

/-- The fill loop collects what the file holds from the offset on. -/
theorem fill_file {s : HostState} (data : Bytes) (want off : Nat) :
    ∀ (fuel : Nat) (f : Fd) (buf : Bytes), nodeAt s.tree f.loc = some (.file data) →
      f.pos = off + buf.length → buf = (data.drop off).take buf.length →
      buf.length ≤ want → want ≤ fuel + buf.length →
      HostFs.fill posix want fuel f buf s = (.ok ((data.drop off).take want), s) := by
  intro fuel
  -- what is read so far is a part of the file from `off` on
  induction fuel with
  | zero =>
      intro f buf _ _ hbuf hle hfuel
      have hlen : buf.length = want := by omega
      rw [hlen] at hbuf
      rw [HostFs.fill, hbuf]
      rfl
  | succ fuel ih =>
      intro f buf hnode hpos hbuf hle hfuel
      rw [HostFs.fill]
      by_cases hlt : buf.length < want
      · have hread : posix.read f (want - buf.length) s
            = (.ok ((data.drop f.pos).take (want - buf.length),
              { f with pos := f.pos + ((data.drop f.pos).take (want - buf.length)).length }),
              s) := by
          show TokimoHost.read f (want - buf.length) s = _
          rw [TokimoHost.read, hnode]
        have hdrop : data.drop f.pos = (data.drop off).drop buf.length := by
          rw [hpos, List.drop_drop]
        rw [if_pos hlt, Eff.bind_of_ok (Eff.mapErr_of_ok hread), hdrop]
        by_cases he : ((data.drop off).drop buf.length).take (want - buf.length) = []
        -- the end of the file
        · have hend : (data.drop off).length ≤ buf.length := by
            have h0 := congrArg List.length he
            rw [List.length_take, List.length_drop, List.length_nil] at h0
            omega
          have hall : (data.drop off).take want = buf := by
            rw [hbuf, List.take_of_length_le hend, List.take_of_length_le (by omega)]
          rw [if_pos (List.isEmpty_iff.mpr he), hall]
          rfl
        · have hpre : ((data.drop off).drop buf.length).take
              (((data.drop off).drop buf.length).take (want - buf.length)).length
              = ((data.drop off).drop buf.length).take (want - buf.length) := by
            rw [List.length_take, ← List.take_eq_take_min]
          have hstep := List.length_take_le (want - buf.length)
            ((data.drop off).drop buf.length)
          have hmore := List.length_pos_iff.mpr he
          rw [if_neg (fun h => he (List.isEmpty_iff.mp h))]
          refine ih _ _ hnode ?_ ?_ ?_ ?_
          · rw [List.length_append, hpos, Nat.add_assoc]
          · rw [List.length_append, List.take_add, ← hbuf, hpre]
          · show (buf ++ ((data.drop off).drop buf.length).take (want - buf.length)).length
              ≤ want
            rw [List.length_append]
            omega
          · show want ≤ fuel
              + (buf ++ ((data.drop off).drop buf.length).take (want - buf.length)).length
            rw [List.length_append]
            omega
      · have hlen : buf.length = want := by omega
        rw [hlen] at hbuf
        rw [if_neg hlt, hbuf]
        rfl

/-- An operation on the contents of one file. -/
inductive FileOp where
  | write (offset : UInt64) (data : Bytes)
  | truncate (size : UInt64)
  | read (offset : UInt64) (len : UInt32)
  deriving DecidableEq, Repr

namespace FileOp

/-- The call that makes the operation on the file at `p`. -/
def call (p : PathBuf) : FileOp → VfsCall
  | .write off data => .write p off data
  | .truncate size => .truncate p size
  | .read off len => .read p off len

/-- The operation on the byte array. -/
def apply (ref : Bytes) : FileOp → Bytes
  | .write off data => putBytes off.toNat data ref
  | .truncate size => cutBytes size.toNat ref
  | .read _ _ => ref

/-- What the byte array answers. -/
def answer (ref : Bytes) : FileOp → Reply
  | .write _ data => .count (.ok (UInt32.ofNat data.length))
  | .truncate _ => .unit (.ok ())
  | .read off len => .bytes (.ok (sliceBytes off.toNat len.toNat ref))

/-- What `HostFs` makes of the contents. -/
def hostApply (old : Bytes) : FileOp → Bytes
  | .write off data => freshBytes off.toNat data
  | .truncate size => cutBytes size.toNat old
  | .read _ _ => old

/-- The operation has nothing to lose in a file with these contents. -/
def Harmless (old : Bytes) : FileOp → Prop
  | .write off data => LosesNothing off.toNat data old
  | _ => True

end FileOp

/-- The host differs from `s` in the contents of the file at `l` only. -/
structure SameBut (s : HostState) (l : Loc) (new : Bytes) (s' : HostState) : Prop where
  cwd : s'.cwd = s.cwd
  elsewhere : ∀ v, v ≠ l → nodeAt s'.tree v = nodeAt s.tree v
  contents : nodeAt s'.tree l = some (.file new)

theorem SameBut.touch {s s' : HostState} {l : Loc} {new : Bytes} (h : SameBut s l new s')
    (ls : List Loc) : SameBut s l new (s'.touch ls) :=
  ⟨h.cwd, h.elsewhere, h.contents⟩

theorem SameBut.putData {s s' : HostState} {l : Loc} {old : Bytes} (h : SameBut s l old s')
    (i : Inode) (new : Bytes) : SameBut s l new (s'.putData l i new) := by
  refine ⟨h.cwd, ?_, ?_⟩
  · intro v hv
    rw [HostState.putData, HostState.setTree_tree, nodeAt_insert,
      if_neg (fun heq => hv heq.symm), h.elsewhere v hv]
  · rw [HostState.putData, HostState.setTree_tree, nodeAt_insert, if_pos rfl,
      HostState.filled_node]

/-- Paths lead to the same places when a file's contents change. -/
theorem SameBut.lookup {s s' : HostState} {l : Loc} {old new : Bytes}
    (h : SameBut s l new s') (hold : nodeAt s.tree l = some (.file old)) (follow : Bool)
    (p : PathBuf) : lookup s' follow p = lookup s follow p := by
  have hshape : ∀ v, shapeAt s.tree v = shapeAt s'.tree v := by
    intro v
    by_cases hv : v = l
    · rw [hv, shapeAt, shapeAt, hold, h.contents]
      rfl
    · rw [shapeAt, shapeAt, h.elsewhere v hv]
  rw [TokimoHost.lookup, TokimoHost.lookup, h.cwd,
    (walk_agree _ _ _ (fun v _ => hshape v)).1]

/-- A successful `read` returns the slice and changes nothing. -/
theorem invoke_read {fs : HostFs} {s : HostState} {p : PathBuf} {l : Loc} {k : Nat}
    {old : Bytes} (hl : lookup s true (fs.joined p) = .ok (.at l k))
    (hold : nodeAt s.tree l = some (.file old)) (off : UInt64) (len : UInt32)
    (hok : ((fs.toVfs posix).invoke s ((FileOp.read off len).call p)).1.isErr = false) :
    ((fs.toVfs posix).invoke s ((FileOp.read off len).call p)).1 = (FileOp.read off len).answer old
      ∧ SameBut s l ((FileOp.read off len).hostApply old)
        ((fs.toVfs posix).invoke s ((FileOp.read off len).call p)).2 := by
  obtain ⟨i, hg, hi⟩ := get_of_nodeAt hold
  have hsame : SameBut s l old s := ⟨rfl, fun _ _ => rfl, hold⟩
  have hinv : (fs.toVfs posix).invoke s ((FileOp.read off len).call p)
      = (fs.read posix p off len s).map .bytes id := rfl
  rw [hinv, HostFs.read] at hok ⊢
  rcases resolve_cases fs s p with ⟨r, -, hres⟩ | ⟨-, e, hres⟩
  · have hopen : posix.openFile readOptions (fs.joined p) s
        = (.ok ⟨l, 0⟩, s.touch [l]) := openFile_file readOptions hl hg hi
    rw [Eff.bind_of_ok hres, Eff.bind_of_ok (Eff.mapErr_of_ok hopen)] at hok ⊢
    by_cases hoff : off.toNat ≤ maxOffset
    · have hseek : posix.seek ⟨l, 0⟩ off (s.touch [l])
          = (.ok ⟨l, off.toNat⟩, s.touch [l]) := by
        show TokimoHost.seek ⟨l, 0⟩ off (s.touch [l]) = _
        rw [TokimoHost.seek, if_pos hoff]
      rw [Eff.bind_of_ok (Eff.mapErr_of_ok hseek),
        fill_file (s := s.touch [l]) old len.toNat off.toNat len.toNat ⟨l, off.toNat⟩ [] hold
          rfl rfl (Nat.zero_le _) (Nat.le_refl _)]
      exact ⟨rfl, hsame.touch [l]⟩
    · have hseek : posix.seek ⟨l, 0⟩ off (s.touch [l]) = (.error EINVAL, s.touch [l]) := by
        show TokimoHost.seek ⟨l, 0⟩ off (s.touch [l]) = _
        rw [TokimoHost.seek, if_neg hoff]
      rw [Eff.bind_of_error (Eff.mapErr_of_error hseek)] at hok
      cases hok
  · rw [Eff.bind_of_error hres] at hok
    cases hok

/-- A successful `write` leaves the written bytes behind zeros. -/
theorem invoke_write {fs : HostFs} {s : HostState} {p : PathBuf} {l : Loc} {k : Nat}
    {old : Bytes} (hl : lookup s true (fs.joined p) = .ok (.at l k))
    (hold : nodeAt s.tree l = some (.file old)) (off : UInt64) (data : Bytes)
    (hok : ((fs.toVfs posix).invoke s ((FileOp.write off data).call p)).1.isErr = false) :
    ((fs.toVfs posix).invoke s ((FileOp.write off data).call p)).1
        = (FileOp.write off data).answer old
      ∧ SameBut s l ((FileOp.write off data).hostApply old)
        ((fs.toVfs posix).invoke s ((FileOp.write off data).call p)).2 := by
  obtain ⟨i, hg, hi⟩ := get_of_nodeAt hold
  -- the file is empty from the opening on
  have hcut : SameBut s l [] (s.putData l i []) :=
    SameBut.putData ⟨rfl, fun _ _ => rfl, hold⟩ i []
  have hinv : (fs.toVfs posix).invoke s ((FileOp.write off data).call p)
      = (fs.write posix p off data s).map .count id := rfl
  rw [hinv, HostFs.write] at hok ⊢
  cases hro : fs.readOnly with
  | true =>
      rw [Eff.bind_of_error (checkRw_ro hro s)] at hok
      cases hok
  | false =>
      rw [Eff.bind_of_ok (checkRw_rw hro s)] at hok ⊢
      rcases resolve_cases fs s p with ⟨r, -, hres⟩ | ⟨-, e, hres⟩
      · have hopen : posix.openFile writeOptions (fs.joined p) s
            = (.ok ⟨l, 0⟩, (s.putData l i []).touch [l]) :=
          openFile_file writeOptions hl hg hi
        rw [Eff.bind_of_ok hres, Eff.bind_of_ok (Eff.mapErr_of_ok hopen)] at hok ⊢
        by_cases hoff : off.toNat ≤ maxOffset
        · have hseek : posix.seek ⟨l, 0⟩ off ((s.putData l i []).touch [l])
              = (.ok ⟨l, off.toNat⟩, (s.putData l i []).touch [l]) := by
            show TokimoHost.seek ⟨l, 0⟩ off _ = _
            rw [TokimoHost.seek, if_pos hoff]
          rw [Eff.bind_of_ok (Eff.mapErr_of_ok hseek)] at hok ⊢
          obtain ⟨i', hg', hi'⟩ := get_of_nodeAt (hcut.touch [l]).contents
          by_cases hd : data = []
          · have hwrite : posix.writeAll ⟨l, off.toNat⟩ data ((s.putData l i []).touch [l])
                = (.ok ⟨l, off.toNat⟩, (s.putData l i []).touch [l]) := by
              show TokimoHost.writeAll ⟨l, off.toNat⟩ data _ = _
              rw [TokimoHost.writeAll]
              simp only [hg', hi', hd, List.isEmpty_nil, if_true]
            rw [Eff.bind_of_ok (Eff.mapErr_of_ok hwrite)]
            refine ⟨rfl, ?_⟩
            show SameBut s l (freshBytes off.toNat data) ((s.putData l i []).touch [l])
            rw [hd]
            exact hcut.touch [l]
          · have hne : data.isEmpty = false := by simpa using hd
            by_cases hfit : off.toNat + data.length ≤ maxOffset
            · have hwrite : posix.writeAll ⟨l, off.toNat⟩ data
                  ((s.putData l i []).touch [l])
                  = (.ok ⟨l, off.toNat + data.length⟩,
                    ((s.putData l i []).touch [l]).putData l i'
                      (overwrite off.toNat data [])) := by
                show TokimoHost.writeAll ⟨l, off.toNat⟩ data _ = _
                rw [TokimoHost.writeAll]
                simp only [hg', hi', hne, Bool.false_eq_true, if_false]
                rw [if_pos hfit]
              rw [Eff.bind_of_ok (Eff.mapErr_of_ok hwrite)]
              refine ⟨rfl, ?_⟩
              show SameBut s l (freshBytes off.toNat data)
                (((s.putData l i []).touch [l]).putData l i' (overwrite off.toNat data []))
              rw [freshBytes, hne, overwrite_nil]
              exact (hcut.touch [l]).putData i' _
            -- too long for a file: the call fails, against what is known
            · have hwrite : ∃ s', posix.writeAll ⟨l, off.toNat⟩ data
                  ((s.putData l i []).touch [l]) = (.error EFBIG, s') := by
                show ∃ s', TokimoHost.writeAll ⟨l, off.toNat⟩ data _ = (_, s')
                rw [TokimoHost.writeAll]
                simp only [hg', hi', hne, Bool.false_eq_true, if_false]
                rw [if_neg hfit]
                exact ⟨_, rfl⟩
              obtain ⟨s', hwrite⟩ := hwrite
              rw [Eff.bind_of_error (Eff.mapErr_of_error hwrite)] at hok
              cases hok
        · have hseek : posix.seek ⟨l, 0⟩ off ((s.putData l i []).touch [l])
              = (.error EINVAL, (s.putData l i []).touch [l]) := by
            show TokimoHost.seek ⟨l, 0⟩ off _ = _
            rw [TokimoHost.seek, if_neg hoff]
          rw [Eff.bind_of_error (Eff.mapErr_of_error hseek)] at hok
          cases hok
      · rw [Eff.bind_of_error hres] at hok
        cases hok

/-- A successful `truncate` cuts or zero-extends. -/
theorem invoke_truncate {fs : HostFs} {s : HostState} {p : PathBuf} {l : Loc} {k : Nat}
    {old : Bytes} (hl : lookup s true (fs.joined p) = .ok (.at l k))
    (hold : nodeAt s.tree l = some (.file old)) (size : UInt64)
    (hok : ((fs.toVfs posix).invoke s ((FileOp.truncate size).call p)).1.isErr = false) :
    ((fs.toVfs posix).invoke s ((FileOp.truncate size).call p)).1
        = (FileOp.truncate size).answer old
      ∧ SameBut s l ((FileOp.truncate size).hostApply old)
        ((fs.toVfs posix).invoke s ((FileOp.truncate size).call p)).2 := by
  obtain ⟨i, hg, hi⟩ := get_of_nodeAt hold
  have hsame : SameBut s l old s := ⟨rfl, fun _ _ => rfl, hold⟩
  have hinv : (fs.toVfs posix).invoke s ((FileOp.truncate size).call p)
      = (fs.truncate posix p size s).map .unit id := rfl
  rw [hinv, HostFs.truncate] at hok ⊢
  cases hro : fs.readOnly with
  | true =>
      rw [Eff.bind_of_error (checkRw_ro hro s)] at hok
      cases hok
  | false =>
      rw [Eff.bind_of_ok (checkRw_rw hro s)] at hok ⊢
      rcases resolve_cases fs s p with ⟨r, -, hres⟩ | ⟨-, e, hres⟩
      · have hopen : posix.openFile truncateOptions (fs.joined p) s
            = (.ok ⟨l, 0⟩, s.touch [l]) := openFile_file truncateOptions hl hg hi
        rw [Eff.bind_of_ok hres, Eff.bind_of_ok (Eff.mapErr_of_ok hopen)] at hok ⊢
        by_cases hsize : maxOffset < size.toNat
        · have hset : posix.setLen ⟨l, 0⟩ size (s.touch [l])
              = (.error lenOutOfRange, s.touch [l]) := by
            show TokimoHost.setLen ⟨l, 0⟩ size (s.touch [l]) = _
            rw [TokimoHost.setLen, if_pos hsize]
          rw [Eff.mapErr_of_error hset] at hok
          cases hok
        · have hset : posix.setLen ⟨l, 0⟩ size (s.touch [l])
              = (.ok (), (s.touch [l]).putData l i (resize size.toNat old)) := by
            show TokimoHost.setLen ⟨l, 0⟩ size (s.touch [l]) = _
            rw [TokimoHost.setLen, if_neg hsize]
            simp only [HostState.touch_tree, hg, hi]
          rw [Eff.mapErr_of_ok hset]
          refine ⟨rfl, ?_⟩
          show SameBut s l (cutBytes size.toNat old)
            ((s.touch [l]).putData l i (resize size.toNat old))
          rw [resize_eq_cutBytes]
          exact (hsame.touch [l]).putData i _
      · rw [Eff.bind_of_error hres] at hok
        cases hok

/-- **WHAT ONE OPERATION DOES**: an operation that succeeds answers as the
    byte array does, and leaves what `hostApply` says. -/
theorem invoke_fileOp {fs : HostFs} {s : HostState} {p : PathBuf} {l : Loc} {k : Nat}
    {old : Bytes} (hl : lookup s true (fs.joined p) = .ok (.at l k))
    (hold : nodeAt s.tree l = some (.file old)) (op : FileOp)
    (hok : ((fs.toVfs posix).invoke s (op.call p)).1.isErr = false) :
    ((fs.toVfs posix).invoke s (op.call p)).1 = op.answer old
      ∧ SameBut s l (op.hostApply old) ((fs.toVfs posix).invoke s (op.call p)).2 := by
  cases op with
  | read off len => exact invoke_read hl hold off len hok
  | write off data => exact invoke_write hl hold off data hok
  | truncate size => exact invoke_truncate hl hold size hok

/-- An operation with nothing to lose does what the byte array does. -/
theorem hostApply_eq_apply {old : Bytes} {op : FileOp} (h : op.Harmless old) :
    op.hostApply old = op.apply old := by
  cases op with
  | write off data => exact (freshBytes_eq_iff off.toNat data old).mpr h
  | truncate size => rfl
  | read off len => rfl

/-! ## Runs -/

/-- The host beside a byte array: each step is an operation that succeeds, and
    emits what the host answered and what the array answers. -/
def fileMachine (fs : HostFs) (p : PathBuf) :
    Machine (HostState × Bytes) FileOp (Reply × Reply) where
  step := fun st op =>
    if ((fs.toVfs posix).invoke st.1 (op.call p)).1.isErr then none
    else some ((((fs.toVfs posix).invoke st.1 (op.call p)).2, op.apply st.2),
      [(((fs.toVfs posix).invoke st.1 (op.call p)).1, op.answer st.2)])

/-- The operation has nothing to lose in the file at `l`. -/
def HarmlessAt (l : Loc) (st : HostState × Bytes) (op : FileOp) : Prop :=
  ∀ old, nodeAt st.1.tree l = some (.file old) → op.Harmless old

/-- **FILES AND BYTE ARRAYS**: along every run whose writes have nothing to
    lose, the file holds what the byte array holds and every answer is the
    array's. -/
theorem file_contents_run {fs : HostFs} {p : PathBuf} {s₀ : HostState} {l : Loc} {k : Nat}
    {d₀ : Bytes} (hl : lookup s₀ true (fs.joined p) = .ok (.at l k))
    (hf : nodeAt s₀.tree l = some (.file d₀)) {st : HostState × Bytes}
    {tr : List (Reply × Reply)}
    (hr : Run (fileMachine fs p) (HarmlessAt l) (s₀, d₀) st tr) :
    nodeAt st.1.tree l = some (.file st.2) ∧ ∀ ev ∈ tr, ev.1 = ev.2 := by
  have hinv : SameBut s₀ l st.2 st.1 ∧ ∀ ev ∈ tr, ev.1 = ev.2 := by
    refine Run.invariant (I := fun st tr => SameBut s₀ l st.2 st.1 ∧ ∀ ev ∈ tr, ev.1 = ev.2)
      ?_ ?_ hr
    · exact ⟨⟨rfl, fun _ _ => rfl, hf⟩, fun ev hev => nomatch hev⟩
    · intro st tr op st' es hinv hc hs
      obtain ⟨hsame, htr⟩ := hinv
      have hl' : lookup st.1 true (fs.joined p) = .ok (.at l k) := by
        rw [hsame.lookup hf]
        exact hl
      have hs' : (if ((fs.toVfs posix).invoke st.1 (op.call p)).1.isErr then none
        else some ((((fs.toVfs posix).invoke st.1 (op.call p)).2, op.apply st.2),
          [(((fs.toVfs posix).invoke st.1 (op.call p)).1, op.answer st.2)]))
          = some (st', es) := hs
      cases hok : ((fs.toVfs posix).invoke st.1 (op.call p)).1.isErr with
      | true => rw [hok] at hs'; exact nomatch hs'
      | false =>
          rw [hok] at hs'
          obtain ⟨h1, h2⟩ := Prod.mk.inj (Option.some.inj hs')
          obtain ⟨hans, hafter⟩ := invoke_fileOp hl' hsame.contents op hok
          rw [← h1, ← h2]
          refine ⟨⟨?_, ?_, ?_⟩, ?_⟩
          · exact hafter.cwd.trans hsame.cwd
          · intro v hv
            exact (hafter.elsewhere v hv).trans (hsame.elsewhere v hv)
          · rw [← hostApply_eq_apply (hc st.2 hsame.contents)]
            exact hafter.contents
          · intro ev hev
            rcases List.mem_append.mp hev with hmem | hmem
            · exact htr ev hmem
            · rw [List.mem_singleton.mp hmem]
              exact hans
  exact ⟨hinv.1.contents, hinv.2⟩

/-! ### Two chunks -/

/-- A host with the empty file `/r/f`. -/
def chunkHost : HostState where
  tree := [
    ([], { id := 0, node := .dir, mode := 0o40755, mtime := 0, atime := 0, ctime := 0 }),
    ([⟨[114], rfl⟩],
      { id := 1, node := .dir, mode := 0o40755, mtime := 0, atime := 0, ctime := 0 }),
    ([⟨[114], rfl⟩, ⟨[102], rfl⟩],
      { id := 2, node := .file [], mode := 0o100644, mtime := 0, atime := 0, ctime := 0 })]
  cwd := []
  nextId := 3
  now := 0
  fileMode := 0o100644
  dirMode := 0o40755
  touched := []

/-- A writable mount of `/r`. -/
def chunkFs : HostFs := { root := PathBuf.ofBytes [47, 114], readOnly := false }

/-- The file's place, and its path in the mount. -/
def chunkLoc : Loc := [⟨[114], rfl⟩, ⟨[102], rfl⟩]
def chunkPath : PathBuf := PathBuf.ofBytes [47, 102]

/-- Writing two chunks one after the other leaves zeros for the first. -/
theorem second_chunk_erases_first :
    lookup chunkHost true (chunkFs.joined chunkPath) = .ok (.at chunkLoc symloopMax)
      ∧ nodeAt chunkHost.tree chunkLoc = some (.file [])
      ∧ ∃ st tr, Run (fileMachine chunkFs chunkPath) always (chunkHost, []) st tr
        ∧ (.bytes (.ok [0, 0, 99, 100]), .bytes (.ok [97, 98, 99, 100])) ∈ tr := by
  refine ⟨by decide, by decide, ?_⟩
  obtain ⟨st, hr⟩ := run_of_trace (M := fileMachine chunkFs chunkPath) (s := (chunkHost, []))
    [.write 0 [97, 98], .write 2 [99, 100], .read 0 4]
    [(.count (.ok 2), .count (.ok 2)), (.count (.ok 2), .count (.ok 2)),
      (.bytes (.ok [0, 0, 99, 100]), .bytes (.ok [97, 98, 99, 100]))] (by decide)
  exact ⟨st, _, hr, by simp⟩

/-- One chunk and a longer size are kept as they should be. -/
theorem one_chunk_is_kept : ∃ st tr,
    Run (fileMachine chunkFs chunkPath) (HarmlessAt chunkLoc) (chunkHost, []) st tr
      ∧ nodeAt st.1.tree chunkLoc = some (.file st.2) ∧ ∀ ev ∈ tr, ev.1 = ev.2 := by
  cases hx : (fileMachine chunkFs chunkPath).exec (chunkHost, [])
      [.write 0 [97, 98], .truncate 5] with
  | none => exact absurd hx (by decide)
  | some y =>
      obtain ⟨st, tr⟩ := y
      have hr : Run (fileMachine chunkFs chunkPath) (HarmlessAt chunkLoc) (chunkHost, [])
          st tr := by
        refine run_of_exec [.write 0 [97, 98], .truncate 5] ⟨?_, ?_⟩ hx
        · intro old hold
          have hnil : nodeAt chunkHost.tree chunkLoc = some (.file []) := by decide
          rw [hnil] at hold
          rw [← Node.file.inj (Option.some.inj hold)]
          exact ⟨fun _ => rfl, fun _ => ⟨Nat.zero_le _, fun i hi => nomatch hi⟩⟩
        · cases (fileMachine chunkFs chunkPath).step (chunkHost, []) (.write 0 [97, 98]) with
          | none => exact True.intro
          | some y =>
              refine ⟨fun _ _ => True.intro, ?_⟩
              cases (fileMachine chunkFs chunkPath).step y.1 (.truncate 5) with
              | none => exact True.intro
              | some z => exact True.intro
      exact ⟨st, tr, hr, file_contents_run (k := symloopMax) (by decide) (by decide) hr⟩

end TokimoHostFs
