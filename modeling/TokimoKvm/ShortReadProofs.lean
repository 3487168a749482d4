import TokimoKvm.HostFaults
import TokimoKvm.HostFsContentsProofs

/-! # `HostFs::read` under short reads

    The loop of `read` fills a buffer of zeros and cuts it to what was filled.
    It is written down here as the source has it, without a bound on its
    passes; on any host whose reads bring no more than was asked for it ends,
    and is the `fill` of the model.  A host that gives pieces of any size then
    gives the same bytes as one that gives them all at once.

    What a file system refuses on its own account is left out: its limit on
    offsets, and Linux's refusal of ranges past `i64::MAX`, which would be
    failures of `seek` and `read`. -/

namespace TokimoHostFs

open TokimoMachine TokimoBytes TokimoPath TokimoVfsCore TokimoHost

/-! ## The loop of the source -/

section

variable {S F : Type}

/-- `f.read(&mut buf[filled..])`: the buffer with the bytes it was given. -/
def splice (buf : Bytes) (filled : Nat) (got : Bytes) : Bytes :=
  buf.take filled ++ got ++ buf.drop (filled + got.length)

/-- `while filled < buf.len() { .. }` and `buf.truncate(filled)`: how the loop
    can end. -/
inductive FillLoop (host : HostCalls S F) :
    Bytes → Nat → F → S → Except VfsError Bytes × S → Prop where
  | full {buf : Bytes} {filled : Nat} (f : F) (s : S) : ¬ filled < buf.length →
      FillLoop host buf filled f s (.ok (buf.take filled), s)
  | failed {buf : Bytes} {filled : Nat} {f : F} {s s' : S} {e : IoError} : filled < buf.length →
      host.read f (buf.length - filled) s = (.error e, s') →
      FillLoop host buf filled f s (.error (HostFs.mapIo e), s')
  | ended {buf : Bytes} {filled : Nat} {f f' : F} {s s' : S} : filled < buf.length →
      host.read f (buf.length - filled) s = (.ok ([], f'), s') →
      FillLoop host buf filled f s (.ok (buf.take filled), s')
  | more {buf got : Bytes} {filled : Nat} {f f' : F} {s s' : S}
      {r : Except VfsError Bytes × S} : filled < buf.length →
      host.read f (buf.length - filled) s = (.ok (got, f'), s') → got ≠ [] →
      FillLoop host (splice buf filled got) (filled + got.length) f' s' r →
      FillLoop host buf filled f s r

/-- A read brings no more than was asked for. -/
def BoundedReads (host : HostCalls S F) : Prop :=
  ∀ {f f' : F} {n : Nat} {s s' : S} {got : Bytes},
    host.read f n s = (.ok (got, f'), s') → got.length ≤ n

theorem splice_length {buf got : Bytes} {filled : Nat} (h : filled + got.length ≤ buf.length) :
    (splice buf filled got).length = buf.length := by
  rw [splice, List.length_append, List.length_append, List.length_take, List.length_drop]
  omega

theorem splice_take {buf got : Bytes} {filled : Nat} (h : filled ≤ buf.length) :
    (splice buf filled got).take (filled + got.length) = buf.take filled ++ got := by
  have hlen : (buf.take filled ++ got).length = filled + got.length := by
    rw [List.length_append, List.length_take, Nat.min_eq_left h]
  rw [splice, ← hlen, List.take_left]

theorem take_filled {buf : Bytes} {filled : Nat} (h : filled ≤ buf.length) :
    (buf.take filled).length = filled := by
  rw [List.length_take, Nat.min_eq_left h]

/-- **THE LOOP ENDS**, with what `fill` returns in as many passes as bytes are
    missing. -/
theorem fillLoop_fill {host : HostCalls S F} (hread : BoundedReads host) (fuel : Nat) :
    ∀ {buf : Bytes} {filled : Nat} (f : F) (s : S), filled ≤ buf.length →
      buf.length ≤ fuel + filled →
      FillLoop host buf filled f s (HostFs.fill host buf.length fuel f (buf.take filled) s) := by
  induction fuel with
  | zero =>
      intro buf filled f s hle hfuel
      rw [HostFs.fill]
      exact .full f s (by omega)
  | succ fuel ih =>
      intro buf filled f s hle hfuel
      rw [HostFs.fill, take_filled hle]
      by_cases hlt : filled < buf.length
      · rw [if_pos hlt]
        rcases hr : host.read f (buf.length - filled) s with ⟨e | ⟨got, f'⟩, s'⟩
        · rw [Eff.bind_of_error (Eff.mapErr_of_error hr)]
          exact .failed hlt hr
        · rw [Eff.bind_of_ok (Eff.mapErr_of_ok hr)]
          have hgot := hread hr
          by_cases hnil : got = []
          · subst hnil
            exact .ended hlt hr
          · have hpos := List.length_pos_iff.mpr hnil
            have hlen := @splice_length buf got filled (by omega)
            rw [if_neg fun h => hnil (List.isEmpty_iff.mp h), ← splice_take hle, ← hlen]
            exact .more hlt hr hnil (ih f' s' (by omega) (by omega))
      · rw [if_neg hlt]
        exact .full f s hlt

/-- The loop has no other end. -/
theorem fillLoop_only {host : HostCalls S F} (hread : BoundedReads host) {buf : Bytes}
    {filled : Nat} {f : F} {s : S} {r : Except VfsError Bytes × S}
    (h : FillLoop host buf filled f s r) :
    ∀ fuel, filled ≤ buf.length → buf.length ≤ fuel + filled →
      HostFs.fill host buf.length fuel f (buf.take filled) s = r := by
  induction h with
  | full f s hfull =>
      intro fuel hle _
      cases fuel with
      | zero => rfl
      | succ fuel =>
          rw [HostFs.fill, take_filled hle, if_neg hfull]
          rfl
  | failed hlt hr =>
      intro fuel hle hfuel
      cases fuel with
      | zero => omega
      | succ fuel =>
          rw [HostFs.fill, take_filled hle, if_pos hlt,
            Eff.bind_of_error (Eff.mapErr_of_error hr)]
  | ended hlt hr =>
      intro fuel hle hfuel
      cases fuel with
      | zero => omega
      | succ fuel =>
          rw [HostFs.fill, take_filled hle, if_pos hlt, Eff.bind_of_ok (Eff.mapErr_of_ok hr)]
          rfl
  | @more buf got filled f f' s s' r hlt hr hnil _ ih =>
      intro fuel hle hfuel
      have hgot := hread hr
      have hpos := List.length_pos_iff.mpr hnil
      have hlen := @splice_length buf got filled (by omega)
      cases fuel with
      | zero => omega
      | succ fuel =>
          have hrest := ih fuel (by omega) (by omega)
          rw [splice_take hle, hlen] at hrest
          rw [HostFs.fill, take_filled hle, if_pos hlt, Eff.bind_of_ok (Eff.mapErr_of_ok hr),
            if_neg fun h => hnil (List.isEmpty_iff.mp h)]
          exact hrest

/-- **THE LOOP IS `fill`**, from a buffer of zeros. -/
theorem fillLoop_iff {host : HostCalls S F} (hread : BoundedReads host) (want : Nat) (f : F)
    (s : S) (r : Except VfsError Bytes × S) :
    FillLoop host (List.replicate want 0) 0 f s r
      ↔ HostFs.fill host want want f [] s = r := by
  have hlen : (List.replicate want (0 : UInt8)).length = want := List.length_replicate
  constructor
  · intro h
    have hfill := fillLoop_only hread h want (Nat.zero_le _) (Nat.le_of_eq hlen)
    rwa [hlen] at hfill
  · rintro rfl
    have hloop := fillLoop_fill hread want f s
      (Nat.zero_le (List.replicate want (0 : UInt8)).length) (Nat.le_of_eq hlen)
    rwa [hlen] at hloop

end

/-! ## Pieces of any size -/

/-- What a read of a file brings. -/
theorem read_file {s : HostState} {f : Fd} {data : Bytes}
    (hnode : nodeAt s.tree f.loc = some (.file data)) (n : Nat) :
    posix.read f n s = (.ok ((data.drop f.pos).take n,
      { f with pos := f.pos + ((data.drop f.pos).take n).length }), s) := by
  show TokimoHost.read f n s = _
  rw [TokimoHost.read, hnode]

theorem posix_bounded : BoundedReads posix := by
  intro f f' n s s' got h
  have h' : TokimoHost.read f n s = (.ok (got, f'), s') := h
  rw [TokimoHost.read] at h'
  split at h'
  · obtain ⟨hok, -⟩ := Prod.mk.inj h'
    obtain ⟨rfl, -⟩ := Prod.mk.inj (Except.ok.inj hok)
    exact List.length_take_le _ _
  · cases h'
  · cases h'

theorem lucky_bounded (luck : Luck) : BoundedReads (luckyHost luck) := by
  rintro f f' n ⟨s, i⟩ ⟨s', i'⟩ got h
  have h' : luck.call (fun _ s => s) (fun i => posix.read f (min n (luck.cuts i + 1))) (s, i)
      = (.ok (got, f'), (s', i')) := h
  rw [Luck.call] at h'
  split at h'
  · cases h'
  · obtain ⟨hok, hst⟩ := Prod.mk.inj h'
    have hread : posix.read f (min n (luck.cuts i + 1)) s = (.ok (got, f'), s') :=
      Prod.ext hok (Prod.mk.inj hst).1
    exact Nat.le_trans (posix_bounded hread) (Nat.min_le_left _ _)

/-- **ONE PIECE AFTER THE OTHER**: whatever the pieces, `fill` collects what
    the file holds from the offset on. -/
theorem fill_pieces {luck : Luck} (hno : ∀ i, luck.faults i = none) {s : HostState} (data : Bytes)
    (want off : Nat) :
    ∀ (fuel : Nat) (f : Fd) (buf : Bytes) (i : Nat), nodeAt s.tree f.loc = some (.file data) →
      f.pos = off + buf.length → buf = (data.drop off).take buf.length →
      buf.length ≤ want → want ≤ fuel + buf.length →
      ∃ j, HostFs.fill (luckyHost luck) want fuel f buf (s, i)
        = (.ok ((data.drop off).take want), (s, j)) := by
  intro fuel
  induction fuel with
  | zero =>
      intro f buf i _ _ hbuf hle hfuel
      have hlen : buf.length = want := by omega
      rw [hlen] at hbuf
      exact ⟨i, by rw [HostFs.fill, hbuf]; rfl⟩
  | succ fuel ih =>
      intro f buf i hnode hpos hbuf hle hfuel
      rw [HostFs.fill]
      by_cases hlt : buf.length < want
      · -- the piece, at least one byte of what is left
        generalize hn : min (want - buf.length) (luck.cuts i + 1) = n
        have hread : (luckyHost luck).read f (want - buf.length) (s, i)
            = (.ok ((data.drop f.pos).take n,
              { f with pos := f.pos + ((data.drop f.pos).take n).length }), (s, i + 1)) := by
          rw [luckyHost_read, Luck.call_of_none (hno i), hn, read_file hnode]
        have hdrop : data.drop f.pos = (data.drop off).drop buf.length := by
          rw [hpos, List.drop_drop]
        rw [if_pos hlt, Eff.bind_of_ok (Eff.mapErr_of_ok hread), hdrop]
        by_cases he : ((data.drop off).drop buf.length).take n = []
        -- nothing comes only at the end of the file, as a piece has a byte at least
        · have hend : (data.drop off).length ≤ buf.length := by
            have h0 := congrArg List.length he
            rw [List.length_take, List.length_drop, List.length_nil] at h0
            omega
          have hall : (data.drop off).take want = buf := by
            rw [hbuf, List.take_of_length_le hend, List.take_of_length_le (by omega)]
          rw [if_pos (List.isEmpty_iff.mpr he), hall]
          exact ⟨i + 1, rfl⟩
        · have hpre : ((data.drop off).drop buf.length).take
              (((data.drop off).drop buf.length).take n).length
              = ((data.drop off).drop buf.length).take n := by
            rw [List.length_take, ← List.take_eq_take_min]
          have hstep := List.length_take_le n ((data.drop off).drop buf.length)
          have hmore := List.length_pos_iff.mpr he
          rw [if_neg (fun h => he (List.isEmpty_iff.mp h))]
          refine ih _ _ _ hnode ?_ ?_ ?_ ?_
          · rw [List.length_append, hpos, Nat.add_assoc]
          · rw [List.length_append, List.take_add, ← hbuf, hpre]
          · show (buf ++ ((data.drop off).drop buf.length).take n).length ≤ want
            rw [List.length_append]
            omega
          · show want ≤ fuel + (buf ++ ((data.drop off).drop buf.length).take n).length
            rw [List.length_append]
            omega
      · have hlen : buf.length = want := by omega
        rw [hlen] at hbuf
        rw [if_neg hlt, hbuf]
        exact ⟨i, rfl⟩

/-- Without faults, `resolve` takes two calls and does what it always does. -/
theorem resolve_lucky {luck : Luck} (hno : ∀ i, luck.faults i = none) {fs : HostFs}
    {s : HostState} {p : PathBuf} {r : Loc} (hacc : Accepted s fs p r) (i : Nat) :
    fs.resolve (luckyHost luck) p (s, i) = (.ok (fs.joined p), (s, i + 2)) := by
  have hcall : ∀ (q : PathBuf) (j : Nat), (luckyHost luck).canonicalize q (s, j)
      = ((canonicalize q s).1, ((canonicalize q s).2, j + 1)) := fun q j =>
    Luck.whole_of_none (hno j)
  have hroot : (luckyHost luck).canonicalize fs.root (s, i) = (.ok (locPath r), (s, i + 1)) := by
    rw [hcall, canonicalize_of_ok hacc.1]
  rw [HostFs.resolve, Eff.bind_of_ok (Eff.mapErr_of_ok hroot)]
  rcases hacc.2 with ⟨c, hc, hin⟩ | ⟨⟨e, he⟩, hin⟩
  · have hrec : Eff.recover (fs.probe p) ((luckyHost luck).canonicalize (fs.probe p)) (s, i + 1)
        = ((.ok (locPath c) : Except VfsError PathBuf), (s, i + 2)) := by
      rw [Eff.recover, hcall, canonicalize_of_ok hc]
    rw [Eff.bind_of_ok hrec, (locPath_startsWith c r).mpr hin]
    rfl
  · have hrec : Eff.recover (fs.probe p) ((luckyHost luck).canonicalize (fs.probe p)) (s, i + 1)
        = ((.ok (fs.probe p) : Except VfsError PathBuf), (s, i + 2)) := by
      rw [Eff.recover, hcall, canonicalize_of_error he]
    rw [Eff.bind_of_ok hrec, hin]
    rfl

/-! ## `read` -/

/-- **SHORT READS DO NOT SHOW**: for every file an accepted path leads to,
    every offset and length and every schedule of pieces, the loop ends and
    `read` returns the bytes of the file in the range, and no others. -/
theorem read_under_short_reads {fs : HostFs} {s : HostState} {p : PathBuf} {r l : Loc} {k : Nat}
    {data : Bytes} (hacc : Accepted s fs p r) (hl : lookup s true (fs.joined p) = .ok (.at l k))
    (hfile : nodeAt s.tree l = some (.file data)) (off : UInt64) (hoff : off.toNat ≤ maxOffset)
    (len : UInt32) (luck : Luck) (hno : ∀ i, luck.faults i = none) (i : Nat) :
    ∃ j, FillLoop (luckyHost luck) (List.replicate len.toNat 0) 0 ⟨l, off.toNat⟩
          (s.touch [l], i + 4) (.ok (sliceBytes off.toNat len.toNat data), (s.touch [l], j))
      ∧ fs.read (luckyHost luck) p off len (s, i)
        = (.ok (sliceBytes off.toNat len.toNat data), (s.touch [l], j))
      ∧ (data.length ≤ off.toNat → sliceBytes off.toNat len.toNat data = []) := by
  obtain ⟨inode, hg, hi⟩ := get_of_nodeAt hfile
  obtain ⟨j, hfill⟩ := fill_pieces hno (s := s.touch [l]) data len.toNat off.toNat len.toNat
    ⟨l, off.toNat⟩ [] (i + 4) hfile rfl rfl (Nat.zero_le _) (Nat.le_refl _)
  have hopen : (luckyHost luck).openFile readOptions (fs.joined p) (s, i + 2)
      = (.ok ⟨l, 0⟩, (s.touch [l], i + 3)) := by
    have h := Luck.whole_of_none (x := TokimoHost.openFile readOptions (fs.joined p)) (s := s)
      (hno (i + 2))
    rw [openFile_file readOptions hl hg hi] at h
    exact h
  have hseek : (luckyHost luck).seek ⟨l, 0⟩ off (s.touch [l], i + 3)
      = (.ok ⟨l, off.toNat⟩, (s.touch [l], i + 4)) := by
    have h := Luck.whole_of_none (x := TokimoHost.seek ⟨l, 0⟩ off) (s := s.touch [l]) (hno (i + 3))
    rw [TokimoHost.seek, if_pos hoff] at h
    exact h
  refine ⟨j, (fillLoop_iff (lucky_bounded luck) _ _ _ _).mpr hfill, ?_, fun hend => ?_⟩
  · rw [HostFs.read, Eff.bind_of_ok (resolve_lucky hno hacc i),
      Eff.bind_of_ok (Eff.mapErr_of_ok hopen), Eff.bind_of_ok (Eff.mapErr_of_ok hseek)]
    exact hfill
  · rw [sliceBytes, List.drop_of_length_le hend, List.take_nil]

/-- The host with five bytes in `/r/f`. -/
def fiveHost : HostState :=
  chunkHost.putData chunkLoc
    { id := 2, node := .file [], mode := 0o100644, mtime := 0, atime := 0, ctime := 0 }
    [10, 20, 30, 40, 50]

/-- Byte by byte, four bytes from offset 2 are the three that are there. -/
theorem byte_by_byte :
    ∃ j, FillLoop (luckyHost ⟨fun _ => 0, fun _ => none⟩) (List.replicate 4 0) 0 ⟨chunkLoc, 2⟩
          (fiveHost.touch [chunkLoc], 4) (.ok [30, 40, 50], (fiveHost.touch [chunkLoc], j))
      ∧ chunkFs.read (luckyHost ⟨fun _ => 0, fun _ => none⟩) chunkPath 2 4 (fiveHost, 0)
        = (.ok [30, 40, 50], (fiveHost.touch [chunkLoc], j)) := by
  have hacc : Accepted fiveHost chunkFs chunkPath [⟨[114], rfl⟩] :=
    ⟨by decide, Or.inl ⟨[⟨[114], rfl⟩], by decide, List.prefix_refl _⟩⟩
  have hfile : nodeAt fiveHost.tree chunkLoc = some (.file [10, 20, 30, 40, 50]) := by decide
  obtain ⟨j, hloop, hread, -⟩ := @read_under_short_reads chunkFs fiveHost chunkPath _ chunkLoc
    symloopMax _ hacc (by decide) hfile 2 (by decide) 4 ⟨fun _ => 0, fun _ => none⟩
    (fun _ => rfl) 0
  exact ⟨j, hloop, hread⟩

end TokimoHostFs
