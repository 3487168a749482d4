import TokimoKvm.PosixHost

/-! # Walks — what path resolution depends on

    A walk goes through a path piece by piece and jumps at symbolic links, so
    an argument about it is an induction on the links that are left and, for
    each number of links, on the pieces.  `walk_induction` is that induction;
    the rest are its uses: a walk can be cut in two (`walk_append`), ends in a
    directory when slashes stand behind it (`walk_slash`), and depends on
    nothing but the shape of the places it visits (`walk_agree`). -/

namespace TokimoHost

open TokimoMachine TokimoBytes TokimoPath TokimoTable TokimoVfsCore

/-! ## One piece of a walk -/

/-- What a walk does behind a link, with `k` links to spare. -/
def jumpOf (t : Tree) (follow : Bool) :
    Nat → Loc → PathBuf → List Seg → Except IoError Walked
  | 0 => fun _ _ _ => .error ELOOP
  | k + 1 => fun dir target rest =>
      walk t follow k (startOf target dir) (target.body ++ rest)

/-- A walk is one pass over its pieces. -/
theorem walk_eq (t : Tree) (follow : Bool) (k : Nat) :
    walk t follow k = walkWith t follow k (jumpOf t follow k) := by
  cases k with
  | zero => rfl
  | succ k => rfl

section Pieces

variable (t : Tree) (follow : Bool) (k : Nat) (dir : Loc) (rest : List Seg)

/-- With nothing left to walk one is there. -/
theorem walk_nil : walk t follow k dir [] = .ok (.at dir k) := by
  rw [walk_eq, walkWith]

/-- An empty segment or a dot is passed over. -/
theorem walk_skip_cons {s : Seg} (h : s.isSkip = true) :
    walk t follow k dir (s :: rest) = walk t follow k dir rest := by
  cases s with
  | empty => rw [walk_eq, walkWith]
  | cur => rw [walk_eq, walkWith]
  | up => exact nomatch h
  | name n => exact nomatch h

/-- Two dots lead to the parent. -/
theorem walk_up :
    walk t follow k dir (.up :: rest) = walk t follow k dir.dropLast rest := by
  rw [walk_eq, walkWith]

variable {t dir} {n : Name}

/-- A name that is free may end the walk. -/
theorem walk_name_none (hn : nodeAt t (dir ++ [n]) = none) :
    walk t follow k dir (.name n :: rest)
      = if rest.all (· == .empty) then .ok (.missing dir n (!rest.isEmpty))
        else .error ENOENT := by
  rw [walk_eq, walkWith, hn]

/-- A directory is entered. -/
theorem walk_name_dir (hn : nodeAt t (dir ++ [n]) = some .dir) :
    walk t follow k dir (.name n :: rest) = walk t follow k (dir ++ [n]) rest := by
  rw [walk_eq, walkWith, hn]

/-- A file must end it. -/
theorem walk_name_file {data : Bytes}
    (hn : nodeAt t (dir ++ [n]) = some (.file data)) :
    walk t follow k dir (.name n :: rest)
      = if rest.isEmpty then .ok (.at (dir ++ [n]) k) else .error ENOTDIR := by
  rw [walk_eq, walkWith, hn]

/-- A symbolic link is followed unless it ends it. -/
theorem walk_name_link {target : PathBuf}
    (hn : nodeAt t (dir ++ [n]) = some (.symlink target)) :
    walk t follow k dir (.name n :: rest)
      = if rest.isEmpty && !follow then .ok (.at (dir ++ [n]) k)
        else if target.isEmptyStr then .error ENOENT
        else jumpOf t follow k dir target rest := by
  rw [walk_eq, walkWith, hn]

end Pieces

/-- **THE INDUCTION OF WALKS**: on the links left, and on the pieces. -/
theorem walk_induction {t : Tree} {P : Nat → Loc → List Seg → Prop}
    (nil : ∀ k dir, P k dir [])
    (skip : ∀ k dir s rest, Seg.isSkip s = true → P k dir rest → P k dir (s :: rest))
    (up : ∀ k dir rest, P k dir.dropLast rest → P k dir (.up :: rest))
    (missing : ∀ k dir n rest, nodeAt t (dir ++ [n]) = none →
      P k dir (.name n :: rest))
    (dir : ∀ k dir n rest, nodeAt t (dir ++ [n]) = some .dir →
      P k (dir ++ [n]) rest → P k dir (.name n :: rest))
    (file : ∀ k dir n rest data, nodeAt t (dir ++ [n]) = some (.file data) →
      P k dir (.name n :: rest))
    (link : ∀ k dir n rest target, nodeAt t (dir ++ [n]) = some (.symlink target) →
      (∀ k', k = k' + 1 → P k' (startOf target dir) (target.body ++ rest)) →
      P k dir (.name n :: rest)) :
    ∀ k dir l, P k dir l := by
  intro k
  -- on the links that are left, and for each number on the pieces
  induction k with
  | zero =>
      intro d l
      induction l generalizing d with
      | nil => exact nil 0 d
      | cons s l ih =>
          cases s with
          | empty => exact skip 0 d .empty l rfl (ih d)
          | cur => exact skip 0 d .cur l rfl (ih d)
          | up => exact up 0 d l (ih d.dropLast)
          | name n =>
              cases hn : nodeAt t (d ++ [n]) with
              | none => exact missing 0 d n l hn
              | some node =>
                  cases node with
                  | dir => exact dir 0 d n l hn (ih (d ++ [n]))
                  | file data => exact file 0 d n l data hn
                  | symlink target =>
                      exact link 0 d n l target hn (fun k' hk => nomatch hk)
  | succ k ihk =>
      intro d l
      induction l generalizing d with
      | nil => exact nil (k + 1) d
      | cons s l ih =>
          cases s with
          | empty => exact skip (k + 1) d .empty l rfl (ih d)
          | cur => exact skip (k + 1) d .cur l rfl (ih d)
          | up => exact up (k + 1) d l (ih d.dropLast)
          | name n =>
              cases hn : nodeAt t (d ++ [n]) with
              | none => exact missing (k + 1) d n l hn
              | some node =>
                  cases node with
                  | dir => exact dir (k + 1) d n l hn (ih (d ++ [n]))
                  | file data => exact file (k + 1) d n l data hn
                  | symlink target =>
                      refine link (k + 1) d n l target hn ?_
                      intro k' hk
                      rw [← Nat.succ.inj hk]
                      exact ihk (startOf target d) (target.body ++ l)

/-! ## Walking a path in two parts -/

/-- Pieces that stay in place can be skipped. -/
theorem walk_skip {t : Tree} {follow : Bool} {k : Nat} {dir : Loc} :
    ∀ {l : List Seg} (rest : List Seg), (∀ s ∈ l, s.isSkip = true) →
      walk t follow k dir (l ++ rest) = walk t follow k dir rest := by
  intro l
  induction l with
  | nil => intro rest _; rfl
  | cons s l ih =>
      intro rest h
      rw [List.cons_append, walk_skip_cons t follow k dir _ (h s (List.mem_cons_self ..)),
        ih rest (fun s hs => h s (List.mem_cons_of_mem _ hs))]

/-- A list of pieces with a real one in it. -/
def Real (l : List Seg) : Prop := ∃ s ∈ l, s.isSkip = false

/-- A part with a name in it is not empty. -/
theorem Real.ne_nil {l : List Seg} (h : Real l) : l.isEmpty = false := by
  obtain ⟨s, hs, -⟩ := h
  cases l with
  | nil => exact nomatch hs
  | cons a l => rfl

/-- Nor is it slashes only. -/
theorem Real.not_all_empty {l : List Seg} (h : Real l) :
    (l.all (· == .empty)) = false := by
  obtain ⟨s, hs, hr⟩ := h
  cases hall : l.all (· == .empty) with
  | false => rfl
  | true =>
      have := List.all_eq_true.mp hall s hs
      have he : s = .empty := by simpa using this
      rw [he] at hr
      exact nomatch hr

/-- It may have anything in front. -/
theorem Real.append {l : List Seg} (a : List Seg) (h : Real l) : Real (a ++ l) := by
  obtain ⟨s, hs, hr⟩ := h
  exact ⟨s, List.mem_append.mpr (Or.inr hs), hr⟩

/-- What ends in something is not empty. -/
theorem append_isEmpty {l tail : List Seg} (h : tail ≠ []) :
    (l ++ tail).isEmpty = false := by
  cases l with
  | nil =>
      cases tail with
      | nil => exact absurd rfl h
      | cons a tail => rfl
  | cons a l => rfl

/-- Go on with the pieces `rest` from the directory a first walk has entered. -/
def andWalk (t : Tree) (follow : Bool) (rest : List Seg) :
    Except IoError Walked → Except IoError Walked
  | .ok (.at d k) => walk t follow k d rest
  | .ok (.missing _ _ _) => .error ENOENT
  | .error e => .error e

/-- **A WALK IN TWO PARTS**: walking `l` and then real pieces is entering the
    directory `l` leads to and walking on from there, with the links that are
    left.  The slash behind `l` says that a directory must be entered. -/
theorem walk_append {t : Tree} {follow : Bool} {rest : List Seg} (hrest : Real rest)
    (k : Nat) (dir : Loc) (l : List Seg) :
    walk t follow k dir (l ++ rest)
      = andWalk t follow rest (walk t true k dir (l ++ [.empty])) := by
  have hne : ∀ l : List Seg, (l ++ [Seg.empty]).isEmpty = false :=
    fun l => append_isEmpty (List.cons_ne_nil _ _)
  refine walk_induction (t := t) (P := fun k dir l => walk t follow k dir (l ++ rest)
    = andWalk t follow rest (walk t true k dir (l ++ [.empty])))
    ?_ ?_ ?_ ?_ ?_ ?_ ?_ k dir l
  · intro k dir
    rw [List.nil_append, List.nil_append, walk_skip_cons _ _ _ _ _ rfl, walk_nil]
    rfl
  · intro k dir s l hs ih
    rw [List.cons_append, List.cons_append, walk_skip_cons _ _ _ _ _ hs,
      walk_skip_cons _ _ _ _ _ hs, ih]
  · intro k dir l ih
    rw [List.cons_append, List.cons_append, walk_up, walk_up, ih]
  · intro k dir n l hn
    rw [List.cons_append, List.cons_append, walk_name_none _ _ _ hn,
      walk_name_none _ _ _ hn, (hrest.append l).not_all_empty]
    by_cases hall : ((l ++ [Seg.empty]).all (· == .empty)) = true
    · rw [if_pos hall]; rfl
    · rw [if_neg hall]; rfl
  · intro k dir n l hn ih
    rw [List.cons_append, List.cons_append, walk_name_dir _ _ _ hn,
      walk_name_dir _ _ _ hn, ih]
  · intro k dir n l data hn
    rw [List.cons_append, List.cons_append, walk_name_file _ _ _ hn,
      walk_name_file _ _ _ hn, (hrest.append l).ne_nil, hne l]
    rfl
  · intro k dir n l target hn ih
    rw [List.cons_append, List.cons_append, walk_name_link _ _ _ hn,
      walk_name_link _ _ _ hn, (hrest.append l).ne_nil, hne l]
    simp only [Bool.false_and, Bool.false_eq_true, if_false]
    by_cases ht : target.isEmptyStr = true
    · rw [if_pos ht, if_pos ht]; rfl
    · rw [if_neg ht, if_neg ht]
      cases k with
      | zero => rfl
      | succ k =>
          have ih' := ih k rfl
          rw [List.append_assoc, List.append_assoc] at ih'
          exact ih'

/-! ## Where walks end -/

/-- The parent of a directory is one. -/
theorem TreeWf.dropLast {t : Tree} (hw : TreeWf t) {l : Loc}
    (hl : nodeAt t l = some .dir) : nodeAt t l.dropLast = some .dir := by
  rcases List.eq_nil_or_concat l with hnil | ⟨l', n, hcat⟩
  · rw [hnil]; exact hw.root
  · rw [hcat, List.concat_eq_append] at hl ⊢
    rw [List.dropLast_concat]
    exact hw.parent l' n (by rw [hl]; exact fun h => nomatch h)

/-- A walk that starts in a directory does so wherever its path says. -/
theorem TreeWf.startOf {t : Tree} (hw : TreeWf t) {l : Loc} (p : PathBuf)
    (hl : nodeAt t l = some .dir) : nodeAt t (startOf p l) = some .dir := by
  rw [TokimoHost.startOf]
  by_cases ha : p.isAbsolute = true
  · rw [if_pos ha]; exact hw.root
  · rw [if_neg ha]; exact hl

/-- What is above a directory is a directory. -/
theorem TreeWf.above {t : Tree} (hw : TreeWf t) {l l' : Loc} (h : l <+: l')
    (hl : nodeAt t l' = some .dir) : nodeAt t l = some .dir := by
  obtain ⟨m, rfl⟩ := h
  induction m generalizing l with
  | nil =>
      rw [List.append_nil] at hl
      exact hl
  | cons n m ih =>
      rw [← List.singleton_append, ← List.append_assoc] at hl
      have hn := ih hl
      exact hw.parent l n (by rw [hn]; exact Option.some_ne_none _)

/-- A table whose every entry is in a directory of the table is a tree. -/
theorem treeWf_of_entries {t : Tree} (hroot : nodeAt t [] = some .dir)
    (h : ∀ e ∈ t, e.1 = [] ∨ nodeAt t e.1.dropLast = some .dir) : TreeWf t := by
  refine ⟨hroot, ?_⟩
  intro l n hne
  cases hg : t.get (l ++ [n]) with
  | none =>
      rw [nodeAt, hg] at hne
      exact absurd rfl hne
  | some i =>
      rcases h _ (Table.mem_of_get hg) with hnil | hdir
      · exact absurd hnil (by simp)
      · rw [List.dropLast_concat] at hdir
        exact hdir

/-- A walk with pieces that stay in place behind it ends in a directory, and
    any other such pieces, or none, lead there too; a free place is told
    apart by its slashes. -/
theorem walk_slash {t : Tree} (hw : TreeWf t) (follow : Bool) {tail : List Seg}
    (htail : ∀ s ∈ tail, s.isSkip = true) (hne : tail ≠ []) (k : Nat) (dir : Loc)
    (l : List Seg) (hdir : nodeAt t dir = some .dir) :
    match walk t follow k dir (l ++ tail) with
    | .ok (.at d k') =>
        nodeAt t d = some .dir ∧ ∀ tl : List Seg, (∀ s ∈ tl, s.isSkip = true) →
          walk t true k dir (l ++ tl) = .ok (.at d k')
    | .ok (.missing _ _ slash) => slash = true
    | .error _ => True := by
  revert hdir
  refine walk_induction (t := t) (P := fun k dir l => nodeAt t dir = some .dir →
    match walk t follow k dir (l ++ tail) with
    | .ok (.at d k') =>
        nodeAt t d = some .dir ∧ ∀ tl : List Seg, (∀ s ∈ tl, s.isSkip = true) →
          walk t true k dir (l ++ tl) = .ok (.at d k')
    | .ok (.missing _ _ slash) => slash = true
    | .error _ => True) ?_ ?_ ?_ ?_ ?_ ?_ ?_ k dir l
  · intro k dir hdir
    rw [List.nil_append, ← List.append_nil tail, walk_skip [] htail, walk_nil]
    refine ⟨hdir, ?_⟩
    intro tl htl
    rw [List.nil_append, ← List.append_nil tl, walk_skip [] htl, walk_nil]
  · intro k dir s l hs ih hdir
    simp only [List.cons_append, walk_skip_cons _ _ _ _ _ hs]
    exact ih hdir
  · intro k dir l ih hdir
    simp only [List.cons_append, walk_up]
    exact ih (hw.dropLast hdir)
  · intro k dir n l hn _
    rw [List.cons_append, walk_name_none _ _ _ hn]
    by_cases hall : ((l ++ tail).all (· == .empty)) = true
    · rw [if_pos hall, append_isEmpty hne]; rfl
    · rw [if_neg hall]; exact True.intro
  · intro k dir n l hn ih hdir
    simp only [List.cons_append, walk_name_dir _ _ _ hn]
    exact ih hn
  · intro k dir n l data hn _
    rw [List.cons_append, walk_name_file _ _ _ hn, append_isEmpty hne]
    exact True.intro
  · intro k dir n l target hn ih hdir
    simp only [List.cons_append, walk_name_link _ _ _ hn, append_isEmpty hne,
      Bool.false_and, Bool.false_eq_true, if_false, Bool.not_true, Bool.and_false]
    by_cases ht : target.isEmptyStr = true
    · rw [if_pos ht]; exact True.intro
    · simp only [if_neg ht]
      cases k with
      | zero => exact True.intro
      | succ k =>
          have ih' := ih k rfl (hw.startOf target hdir)
          simp only [List.append_assoc] at ih'
          exact ih'

/-- A free place is free. -/
theorem walk_missing {t : Tree} {follow : Bool} (k : Nat) (dir : Loc) (l : List Seg) :
    ∀ {d : Loc} {n : Name} {slash : Bool},
      walk t follow k dir l = .ok (.missing d n slash) → nodeAt t (d ++ [n]) = none := by
  refine walk_induction (t := t) (P := fun k dir l => ∀ {d : Loc} {n : Name} {slash : Bool},
    walk t follow k dir l = .ok (.missing d n slash) → nodeAt t (d ++ [n]) = none)
    ?_ ?_ ?_ ?_ ?_ ?_ ?_ k dir l
  · intro k dir d n slash h
    rw [walk_nil] at h
    exact nomatch h
  · intro k dir s l hs ih d n slash h
    rw [walk_skip_cons _ _ _ _ _ hs] at h
    exact ih h
  · intro k dir l ih d n slash h
    rw [walk_up] at h
    exact ih h
  · intro k dir n l hn d n' slash h
    rw [walk_name_none _ _ _ hn] at h
    by_cases hall : (l.all (· == .empty)) = true
    · rw [if_pos hall] at h
      injection h with h
      injection h with h1 h2 h3
      rw [← h1, ← h2]
      exact hn
    · rw [if_neg hall] at h
      exact nomatch h
  · intro k dir n l hn ih d n' slash h
    rw [walk_name_dir _ _ _ hn] at h
    exact ih h
  · intro k dir n l data hn d n' slash h
    rw [walk_name_file _ _ _ hn] at h
    by_cases he : l.isEmpty = true
    · rw [if_pos he] at h; exact nomatch h
    · rw [if_neg he] at h; exact nomatch h
  · intro k dir n l target hn ih d n' slash h
    rw [walk_name_link _ _ _ hn] at h
    by_cases hstop : (l.isEmpty && !follow) = true
    · rw [if_pos hstop] at h; exact nomatch h
    · by_cases ht : target.isEmptyStr = true
      · rw [if_neg hstop, if_pos ht] at h; exact nomatch h
      · rw [if_neg hstop, if_neg ht] at h
        cases k with
        | zero => exact nomatch h
        | succ k => exact ih k rfl h

/-- A free place is in a directory. -/
theorem walk_missing_dir {t : Tree} (hw : TreeWf t) {follow : Bool} (k : Nat) (dir : Loc)
    (l : List Seg) (hdir : nodeAt t dir = some .dir) :
    ∀ {d : Loc} {n : Name} {slash : Bool},
      walk t follow k dir l = .ok (.missing d n slash) → nodeAt t d = some .dir := by
  revert hdir
  refine walk_induction (t := t) (P := fun k dir l => nodeAt t dir = some .dir →
    ∀ {d : Loc} {n : Name} {slash : Bool},
      walk t follow k dir l = .ok (.missing d n slash) → nodeAt t d = some .dir)
    ?_ ?_ ?_ ?_ ?_ ?_ ?_ k dir l
  · intro k dir _ d n slash h
    rw [walk_nil] at h
    exact nomatch h
  · intro k dir s l hs ih hdir d n slash h
    rw [walk_skip_cons _ _ _ _ _ hs] at h
    exact ih hdir h
  · intro k dir l ih hdir d n slash h
    rw [walk_up] at h
    exact ih (hw.dropLast hdir) h
  · intro k dir n l hn hdir d n' slash h
    rw [walk_name_none _ _ _ hn] at h
    by_cases hall : (l.all (· == .empty)) = true
    · rw [if_pos hall] at h
      rw [← (Walked.missing.inj (Except.ok.inj h)).1]
      exact hdir
    · rw [if_neg hall] at h
      exact nomatch h
  · intro k dir n l hn ih _ d n' slash h
    rw [walk_name_dir _ _ _ hn] at h
    exact ih hn h
  · intro k dir n l data hn _ d n' slash h
    rw [walk_name_file _ _ _ hn] at h
    split at h <;> exact nomatch h
  · intro k dir n l target hn ih hdir d n' slash h
    rw [walk_name_link _ _ _ hn] at h
    by_cases hstop : (l.isEmpty && !follow) = true
    · rw [if_pos hstop] at h
      exact nomatch h
    · by_cases ht : target.isEmptyStr = true
      · rw [if_neg hstop, if_pos ht] at h
        exact nomatch h
      · rw [if_neg hstop, if_neg ht] at h
        cases k with
        | zero => exact nomatch h
        | succ k => exact ih k rfl (hw.startOf target hdir) h

/-- Where a walk ends there is something. -/
theorem walk_there {t : Tree} (hw : TreeWf t) {follow : Bool} (k : Nat) (dir : Loc)
    (l : List Seg) (hdir : nodeAt t dir = some .dir) :
    ∀ {d : Loc} {k' : Nat}, walk t follow k dir l = .ok (.at d k') → nodeAt t d ≠ none := by
  revert hdir
  refine walk_induction (t := t) (P := fun k dir l => nodeAt t dir = some .dir →
    ∀ {d : Loc} {k' : Nat}, walk t follow k dir l = .ok (.at d k') → nodeAt t d ≠ none)
    ?_ ?_ ?_ ?_ ?_ ?_ ?_ k dir l
  · intro k dir hdir d k' h
    rw [walk_nil] at h
    rw [← (Walked.at.inj (Except.ok.inj h)).1, hdir]
    exact Option.some_ne_none _
  · intro k dir s l hs ih hdir d k' h
    rw [walk_skip_cons _ _ _ _ _ hs] at h
    exact ih hdir h
  · intro k dir l ih hdir d k' h
    rw [walk_up] at h
    exact ih (hw.dropLast hdir) h
  · intro k dir n l hn _ d k' h
    rw [walk_name_none _ _ _ hn] at h
    split at h <;> exact nomatch h
  · intro k dir n l hn ih _ d k' h
    rw [walk_name_dir _ _ _ hn] at h
    exact ih hn h
  · intro k dir n l data hn _ d k' h
    rw [walk_name_file _ _ _ hn] at h
    by_cases hl : l.isEmpty = true
    · rw [if_pos hl] at h
      rw [← (Walked.at.inj (Except.ok.inj h)).1, hn]
      exact Option.some_ne_none _
    · rw [if_neg hl] at h
      exact nomatch h
  · intro k dir n l target hn ih hdir d k' h
    rw [walk_name_link _ _ _ hn] at h
    by_cases hstop : (l.isEmpty && !follow) = true
    · rw [if_pos hstop] at h
      rw [← (Walked.at.inj (Except.ok.inj h)).1, hn]
      exact Option.some_ne_none _
    · by_cases ht : target.isEmptyStr = true
      · rw [if_neg hstop, if_pos ht] at h
        exact nomatch h
      · rw [if_neg hstop, if_neg ht] at h
        cases k with
        | zero => exact nomatch h
        | succ k => exact ih k rfl (hw.startOf target hdir) h

/-- How a walk fails. -/
theorem walk_error {t : Tree} {follow : Bool} (k : Nat) (dir : Loc) (l : List Seg) :
    ∀ {e : IoError}, walk t follow k dir l = .error e → e = ENOENT ∨ e = ENOTDIR ∨ e = ELOOP := by
  refine walk_induction (t := t) (P := fun k dir l => ∀ {e : IoError},
    walk t follow k dir l = .error e → e = ENOENT ∨ e = ENOTDIR ∨ e = ELOOP)
    ?_ ?_ ?_ ?_ ?_ ?_ ?_ k dir l
  · intro k dir e h
    rw [walk_nil] at h
    exact nomatch h
  · intro k dir s l hs ih e h
    rw [walk_skip_cons _ _ _ _ _ hs] at h
    exact ih h
  · intro k dir l ih e h
    rw [walk_up] at h
    exact ih h
  · intro k dir n l hn e h
    rw [walk_name_none _ _ _ hn] at h
    split at h
    · exact nomatch h
    · exact Or.inl (Except.error.inj h).symm
  · intro k dir n l hn ih e h
    rw [walk_name_dir _ _ _ hn] at h
    exact ih h
  · intro k dir n l data hn e h
    rw [walk_name_file _ _ _ hn] at h
    split at h
    · exact nomatch h
    · exact Or.inr (Or.inl (Except.error.inj h).symm)
  · intro k dir n l target hn ih e h
    rw [walk_name_link _ _ _ hn] at h
    by_cases hstop : (l.isEmpty && !follow) = true
    · rw [if_pos hstop] at h
      exact nomatch h
    · by_cases ht : target.isEmptyStr = true
      · rw [if_neg hstop, if_pos ht] at h
        exact Or.inl (Except.error.inj h).symm
      · rw [if_neg hstop, if_neg ht] at h
        cases k with
        | zero => exact Or.inr (Or.inr (Except.error.inj h).symm)
        | succ k => exact ih k rfl h

/-! ## What a walk depends on -/

/-- What a walk can tell about a node: its kind, and the target of a link. -/
def Node.shape : Node → Node
  | .file _ => .file []
  | node => node

/-- What kind of object stands at a location. -/
def shapeAt (t : Tree) (l : Loc) : Option Node := (nodeAt t l).map Node.shape

/-- The places a walk looks at, with `jump` for what it does behind a link. -/
def visitsWith (t : Tree) (follow : Bool)
    (jump : Loc → PathBuf → List Seg → List Loc) : Loc → List Seg → List Loc
  | _, [] => []
  | dir, .empty :: rest => visitsWith t follow jump dir rest
  | dir, .cur :: rest => visitsWith t follow jump dir rest
  | dir, .up :: rest => visitsWith t follow jump dir.dropLast rest
  | dir, .name n :: rest =>
      (dir ++ [n]) ::
        match nodeAt t (dir ++ [n]) with
        | none => []
        | some .dir => visitsWith t follow jump (dir ++ [n]) rest
        | some (.file _) => []
        | some (.symlink target) =>
            if rest.isEmpty && !follow then []
            else if target.isEmptyStr then []
            else jump dir target rest

/-- The locations a walk looks at, with so many links to follow. -/
def visits (t : Tree) (follow : Bool) : Nat → Loc → List Seg → List Loc
  | 0 => visitsWith t follow (fun _ _ _ => [])
  | k + 1 => visitsWith t follow (fun dir target rest =>
      visits t follow k (startOf target dir) (target.body ++ rest))

/-- Those behind a link. -/
def visitsJump (t : Tree) (follow : Bool) : Nat → Loc → PathBuf → List Seg → List Loc
  | 0 => fun _ _ _ => []
  | k + 1 => fun dir target rest =>
      visits t follow k (startOf target dir) (target.body ++ rest)

/-- The two, one by the other. -/
theorem visits_eq (t : Tree) (follow : Bool) (k : Nat) :
    visits t follow k = visitsWith t follow (visitsJump t follow k) := by
  cases k with
  | zero => rfl
  | succ k => rfl

/-- Nothing is looked at for an empty segment. -/
theorem visits_skip_cons (t : Tree) (follow : Bool) (k : Nat) (dir : Loc)
    (rest : List Seg) {s : Seg} (h : s.isSkip = true) :
    visits t follow k dir (s :: rest) = visits t follow k dir rest := by
  cases s with
  | empty => rw [visits_eq, visitsWith]
  | cur => rw [visits_eq, visitsWith]
  | up => exact nomatch h
  | name n => exact nomatch h

/-- A name is looked at, and then what is behind it. -/
theorem visits_name (t : Tree) (follow : Bool) (k : Nat) (dir : Loc) (n : Name)
    (rest : List Seg) :
    visits t follow k dir (.name n :: rest)
      = (dir ++ [n]) ::
        match nodeAt t (dir ++ [n]) with
        | none => []
        | some .dir => visits t follow k (dir ++ [n]) rest
        | some (.file _) => []
        | some (.symlink target) =>
            if rest.isEmpty && !follow then []
            else if target.isEmptyStr then []
            else visitsJump t follow k dir target rest := by
  rw [visits_eq, visitsWith]

/-- Two nodes of one shape are the same but for a file's bytes. -/
theorem shape_cases {t t' : Tree} {l : Loc} (h : shapeAt t l = shapeAt t' l) :
    match nodeAt t l with
    | none => nodeAt t' l = none
    | some (.file _) => ∃ data, nodeAt t' l = some (.file data)
    | some node => nodeAt t' l = some node := by
  rw [shapeAt, shapeAt] at h
  cases h1 : nodeAt t l with
  | none =>
      rw [h1] at h
      exact Option.map_eq_none_iff.mp h.symm
  | some a =>
      rw [h1] at h
      obtain ⟨b, hb, hs⟩ := Option.map_eq_some_iff.mp h.symm
      cases a with
      | file data =>
          cases b with
          | file data' => exact ⟨data', hb⟩
          | dir => exact nomatch hs
          | symlink tg => exact nomatch hs
      | dir =>
          cases b with
          | file data' => exact nomatch hs
          | dir => exact hb
          | symlink tg => exact nomatch hs
      | symlink target =>
          cases b with
          | file data' => exact nomatch hs
          | dir => exact nomatch hs
          | symlink tg =>
              have hs' : Node.symlink tg = Node.symlink target := hs
              rw [← hs']
              exact hb

/-- **WALKS DEPEND ON WHAT THEY VISIT**: in a tree that has the same shape at
    the places a walk visits, the walk goes the same way. -/
theorem walk_agree {t t' : Tree} {follow : Bool} (k : Nat) (dir : Loc)
    (l : List Seg) (h : ∀ v ∈ visits t follow k dir l, shapeAt t v = shapeAt t' v) :
    walk t' follow k dir l = walk t follow k dir l
      ∧ visits t' follow k dir l = visits t follow k dir l := by
  revert h
  -- along the walk in `t`, whose visits are all the other has to agree on
  refine walk_induction (t := t) (P := fun k dir l =>
    (∀ v ∈ visits t follow k dir l, shapeAt t v = shapeAt t' v) →
      walk t' follow k dir l = walk t follow k dir l
        ∧ visits t' follow k dir l = visits t follow k dir l)
    ?_ ?_ ?_ ?_ ?_ ?_ ?_ k dir l
  · intro k dir _
    rw [walk_nil, walk_nil, visits_eq, visits_eq, visitsWith, visitsWith]
    exact ⟨rfl, rfl⟩
  · intro k dir s l hs ih h
    rw [visits_skip_cons _ _ _ _ _ hs] at h
    rw [walk_skip_cons _ _ _ _ _ hs, walk_skip_cons _ _ _ _ _ hs,
      visits_skip_cons _ _ _ _ _ hs, visits_skip_cons _ _ _ _ _ hs]
    exact ih h
  · intro k dir l ih h
    have hv : ∀ t : Tree, visits t follow k dir (.up :: l)
        = visits t follow k dir.dropLast l := by
      intro t
      rw [visits_eq, visitsWith]
    rw [hv] at h
    rw [walk_up, walk_up, hv, hv]
    exact ih h
  · intro k dir n l hn h
    rw [visits_name] at h
    have hn' := shape_cases (h _ (List.mem_cons_self ..))
    rw [hn] at hn'
    rw [walk_name_none _ _ _ hn, walk_name_none _ _ _ hn', visits_name, visits_name,
      hn, hn']
    exact ⟨rfl, rfl⟩
  · intro k dir n l hn ih h
    rw [visits_name] at h
    have hn' := shape_cases (h _ (List.mem_cons_self ..))
    rw [hn] at hn' h
    obtain ⟨h1, h2⟩ := ih (fun v hv => h v (List.mem_cons_of_mem _ hv))
    rw [walk_name_dir _ _ _ hn, walk_name_dir _ _ _ hn', visits_name, visits_name,
      hn, hn']
    exact ⟨h1, congrArg _ h2⟩
  · intro k dir n l data hn h
    rw [visits_name] at h
    have hn' := shape_cases (h _ (List.mem_cons_self ..))
    rw [hn] at hn'
    obtain ⟨data', hn'⟩ := hn'
    rw [walk_name_file _ _ _ hn, walk_name_file _ _ _ hn', visits_name, visits_name,
      hn, hn']
    exact ⟨rfl, rfl⟩
  · intro k dir n l target hn ih h
    rw [visits_name] at h
    have hn' := shape_cases (h _ (List.mem_cons_self ..))
    rw [hn] at hn' h
    rw [walk_name_link _ _ _ hn, walk_name_link _ _ _ hn', visits_name, visits_name,
      hn, hn']
    by_cases hstop : (l.isEmpty && !follow) = true
    · simp only [if_pos hstop, and_self]
    · by_cases ht : target.isEmptyStr = true
      · simp only [if_neg hstop, if_pos ht, and_self]
      · simp only [if_neg hstop, if_neg ht] at h ⊢
        cases k with
        | zero => exact ⟨rfl, rfl⟩
        | succ k =>
            obtain ⟨h1, h2⟩ := ih k rfl (fun v hv => h v (List.mem_cons_of_mem _ hv))
            exact ⟨h1, congrArg _ h2⟩

/-- What a successful walk visits is there. -/
theorem visits_some {t : Tree} {follow : Bool} (k : Nat) (dir : Loc) (l : List Seg) :
    ∀ {d : Loc} {k' : Nat}, walk t follow k dir l = .ok (.at d k') →
      ∀ v ∈ visits t follow k dir l, nodeAt t v ≠ none := by
  refine walk_induction (t := t) (P := fun k dir l => ∀ {d : Loc} {k' : Nat},
    walk t follow k dir l = .ok (.at d k') →
      ∀ v ∈ visits t follow k dir l, nodeAt t v ≠ none) ?_ ?_ ?_ ?_ ?_ ?_ ?_ k dir l
  · intro k dir d k' _ v hv
    rw [visits_eq, visitsWith] at hv
    exact nomatch hv
  · intro k dir s l hs ih d k' h
    rw [walk_skip_cons _ _ _ _ _ hs] at h
    rw [visits_skip_cons _ _ _ _ _ hs]
    exact ih h
  · intro k dir l ih d k' h
    rw [walk_up] at h
    rw [visits_eq, visitsWith, ← visits_eq]
    exact ih h
  · intro k dir n l hn d k' h
    rw [walk_name_none _ _ _ hn] at h
    by_cases hall : (l.all (· == .empty)) = true
    · rw [if_pos hall] at h; exact nomatch h
    · rw [if_neg hall] at h; exact nomatch h
  · intro k dir n l hn ih d k' h v hv
    rw [walk_name_dir _ _ _ hn] at h
    rw [visits_name, hn] at hv
    rcases List.mem_cons.mp hv with heq | hmem
    · rw [heq, hn]; exact fun h => nomatch h
    · exact ih h v hmem
  · intro k dir n l data hn d k' h v hv
    rw [visits_name, hn] at hv
    rcases List.mem_cons.mp hv with heq | hmem
    · rw [heq, hn]; exact fun h => nomatch h
    · exact nomatch hmem
  · intro k dir n l target hn ih d k' h v hv
    rw [walk_name_link _ _ _ hn] at h
    rw [visits_name, hn] at hv
    rcases List.mem_cons.mp hv with heq | hmem
    · rw [heq, hn]; exact fun h => nomatch h
    · by_cases hstop : (l.isEmpty && !follow) = true
      · simp only [if_pos hstop] at hmem
        exact nomatch hmem
      · by_cases ht : target.isEmptyStr = true
        · simp only [if_neg hstop, if_pos ht] at hmem
          exact nomatch hmem
        · simp only [if_neg hstop, if_neg ht] at hmem h
          cases k with
          | zero => exact nomatch hmem
          | succ k => exact ih k rfl h v hmem

/-- A walk that ends at an object ends there too in a tree that keeps the
    shape of everything that is there. -/
theorem walk_extend {t t' : Tree} {follow : Bool} {k : Nat} {dir : Loc}
    {l : List Seg} {d : Loc} {k' : Nat}
    (hext : ∀ v, nodeAt t v ≠ none → shapeAt t v = shapeAt t' v)
    (h : walk t follow k dir l = .ok (.at d k')) :
    walk t' follow k dir l = .ok (.at d k') := by
  rw [(walk_agree k dir l (fun v hv => hext v (visits_some k dir l h v hv))).1]
  exact h

/-- Where a walk found a free name, it finds the file that is put there. -/
theorem walk_found {t t' : Tree} {follow : Bool} {d : Loc} {n : Name} {data : Bytes}
    (hfile : nodeAt t' (d ++ [n]) = some (.file data))
    (hext : ∀ v, nodeAt t v ≠ none → shapeAt t v = shapeAt t' v) (k : Nat) (dir : Loc)
    (l : List Seg) : walk t follow k dir l = .ok (.missing d n false) →
      ∃ k', walk t' follow k dir l = .ok (.at (d ++ [n]) k') := by
  -- what the walk passes is of the same kind in both trees
  have hkeep : ∀ v node, nodeAt t v = some node →
      match node with
      | .file _ => ∃ data, nodeAt t' v = some (.file data)
      | node => nodeAt t' v = some node := by
    intro v node hv
    have h := shape_cases (hext v (by rw [hv]; exact fun h => nomatch h))
    rw [hv] at h
    cases node with
    | file data => exact h
    | dir => exact h
    | symlink target => exact h
  refine walk_induction (t := t) (P := fun k dir l =>
    walk t follow k dir l = .ok (.missing d n false) →
      ∃ k', walk t' follow k dir l = .ok (.at (d ++ [n]) k')) ?_ ?_ ?_ ?_ ?_ ?_ ?_ k dir l
  · intro k dir h
    rw [walk_nil] at h
    exact nomatch h
  · intro k dir s l hs ih h
    rw [walk_skip_cons _ _ _ _ _ hs] at h ⊢
    exact ih h
  · intro k dir l ih h
    rw [walk_up] at h ⊢
    exact ih h
  · intro k dir n' l hn h
    rw [walk_name_none _ _ _ hn] at h
    by_cases hall : (l.all (· == .empty)) = true
    · rw [if_pos hall] at h
      -- here the walk ends, where the file is now
      injection h with h
      injection h with h1 h2 h3
      subst h1 h2
      have hl : l.isEmpty = true := by simpa using h3
      rw [walk_name_file _ _ _ hfile, if_pos hl]
      exact ⟨k, rfl⟩
    · rw [if_neg hall] at h
      exact nomatch h
  · intro k dir n' l hn ih h
    rw [walk_name_dir _ _ _ hn] at h
    rw [walk_name_dir _ _ _ (hkeep _ _ hn)]
    exact ih h
  · intro k dir n' l data' hn h
    rw [walk_name_file _ _ _ hn] at h
    by_cases he : l.isEmpty = true
    · rw [if_pos he] at h; exact nomatch h
    · rw [if_neg he] at h; exact nomatch h
  · intro k dir n' l target hn ih h
    rw [walk_name_link _ _ _ hn] at h
    rw [walk_name_link _ _ _ (hkeep _ _ hn)]
    by_cases hstop : (l.isEmpty && !follow) = true
    · rw [if_pos hstop] at h; exact nomatch h
    · by_cases ht : target.isEmptyStr = true
      · rw [if_neg hstop, if_pos ht] at h; exact nomatch h
      · rw [if_neg hstop, if_neg ht] at h ⊢
        cases k with
        | zero => exact nomatch h
        | succ k => exact ih k rfl h

/-! ## Links to spare -/

/-- The same end with `m` more links to spare. -/
def Walked.spare (m : Nat) : Walked → Walked
  | .at l k => .at l (k + m)
  | .missing d n slash => .missing d n slash

/-- The end of a walk, whatever links are left there. -/
def Walked.unspent : Walked → Walked
  | .at l _ => .at l 0
  | .missing d n slash => .missing d n slash

/-- Where a walk ends, or how it fails. -/
def ends (x : Except IoError Walked) : Except IoError Walked := x.map Walked.unspent

/-- A walk that does not run out of links ends as well with more of them. -/
theorem walk_spare {t : Tree} {follow : Bool} (m k : Nat) (dir : Loc) (l : List Seg) :
    walk t follow k dir l ≠ .error ELOOP →
      walk t follow (k + m) dir l = (walk t follow k dir l).map (Walked.spare m) := by
  refine walk_induction (t := t) (P := fun k dir l => walk t follow k dir l ≠ .error ELOOP →
    walk t follow (k + m) dir l = (walk t follow k dir l).map (Walked.spare m))
    ?_ ?_ ?_ ?_ ?_ ?_ ?_ k dir l
  · intro k dir _
    rw [walk_nil, walk_nil]
    rfl
  · intro k dir s l hs ih h
    rw [walk_skip_cons _ _ _ _ _ hs] at h ⊢
    rw [walk_skip_cons _ _ _ _ _ hs]
    exact ih h
  · intro k dir l ih h
    rw [walk_up] at h ⊢
    rw [walk_up]
    exact ih h
  · intro k dir n l hn _
    rw [walk_name_none _ _ _ hn, walk_name_none _ _ _ hn]
    by_cases hall : (l.all (· == .empty)) = true
    · rw [if_pos hall]
      rfl
    · rw [if_neg hall]
      rfl
  · intro k dir n l hn ih h
    rw [walk_name_dir _ _ _ hn] at h ⊢
    rw [walk_name_dir _ _ _ hn]
    exact ih h
  · intro k dir n l data hn _
    rw [walk_name_file _ _ _ hn, walk_name_file _ _ _ hn]
    by_cases hl : l.isEmpty = true
    · rw [if_pos hl, if_pos hl]
      rfl
    · rw [if_neg hl, if_neg hl]
      rfl
  · intro k dir n l target hn ih h
    rw [walk_name_link _ _ _ hn] at h ⊢
    rw [walk_name_link _ _ _ hn]
    by_cases hstop : (l.isEmpty && !follow) = true
    · rw [if_pos hstop, if_pos hstop]
      rfl
    · rw [if_neg hstop] at h ⊢
      rw [if_neg hstop]
      by_cases ht : target.isEmptyStr = true
      · rw [if_pos ht, if_pos ht]
        rfl
      · rw [if_neg ht] at h ⊢
        rw [if_neg ht]
        -- the links are spent one after the other
        cases k with
        | zero => exact absurd rfl h
        | succ k =>
            rw [Nat.succ_add]
            exact ih k rfl h

/-- The links left over do not matter to where a walk ends. -/
theorem ends_spare (m : Nat) (x : Except IoError Walked) :
    ends (x.map (Walked.spare m)) = ends x := by
  cases x with
  | error e => rfl
  | ok w =>
      cases w with
      | «at» l k => rfl
      | missing d n slash => rfl

/-- **THE BUDGET OF LINKS** matters only where it runs out. -/
theorem walk_budget {t : Tree} {follow : Bool} {k k' : Nat} {dir : Loc} {l : List Seg}
    (h : walk t follow k dir l = .error ELOOP ↔ walk t follow k' dir l = .error ELOOP) :
    ends (walk t follow k dir l) = ends (walk t follow k' dir l) := by
  by_cases hout : walk t follow k dir l = .error ELOOP
  · rw [hout, h.mp hout]
  · have hout' : walk t follow k' dir l ≠ .error ELOOP := fun h' => hout (h.mpr h')
    rcases Nat.le_total k k' with hle | hle
    · obtain ⟨m, rfl⟩ := Nat.exists_eq_add_of_le hle
      rw [walk_spare m k dir l hout, ends_spare]
    · obtain ⟨m, rfl⟩ := Nat.exists_eq_add_of_le hle
      rw [walk_spare m k' dir l hout', ends_spare]

/-- Two walks that end alike, case by case. -/
theorem ends_cases {x y : Except IoError Walked} (h : ends x = ends y) :
    (∃ e, x = .error e ∧ y = .error e)
      ∨ (∃ l k k', x = .ok (.at l k) ∧ y = .ok (.at l k'))
      ∨ ∃ d n slash, x = .ok (.missing d n slash) ∧ y = .ok (.missing d n slash) := by
  cases x with
  | error e =>
      cases y with
      | error e' =>
          rw [Except.error.inj h]
          exact Or.inl ⟨e', rfl, rfl⟩
      | ok w => exact nomatch h
  | ok w =>
      cases y with
      | error e => exact nomatch h
      | ok w' =>
          have hw : w.unspent = w'.unspent := Except.ok.inj h
          cases w with
          | «at» l k =>
              cases w' with
              | «at» l' k' =>
                  rw [(Walked.at.inj hw).1]
                  exact Or.inr (Or.inl ⟨l', k, k', rfl, rfl⟩)
              | missing d n slash => exact nomatch hw
          | missing d n slash =>
              cases w' with
              | «at» l' k' => exact nomatch hw
              | missing d' n' slash' =>
                  have hw' : Walked.missing d n slash = .missing d' n' slash' := hw
                  rw [hw']
                  exact Or.inr (Or.inr ⟨d', n', slash', rfl, rfl⟩)

/-! ## The place of an entry -/

/-- The place of an entry, made of the directory a walk has entered. -/
def entered (f : Loc → Parent) : Except IoError Walked → Except IoError Parent
  | .ok (.at d _) => .ok (f d)
  | .ok (.missing _ _ _) => .error ENOENT
  | .error e => .error e

/-- What `lookupParent` finds of the pieces of a path, from a directory and
    with `k` links to spare. -/
def parentFrom (t : Tree) (k : Nat) (dir : Loc) (l : List Seg) : Except IoError Parent :=
  match (dropSlashes l).getLast? with
  | some (.name n) =>
      entered (fun d => .entry d n (decide (dropSlashes l ≠ l)))
        (walk t true k dir ((dropSlashes l).dropLast ++ [.empty]))
  | last => entered (fun _ => .dots (last.getD .empty)) (walk t true k dir l)

/-- A path's parent is found by walking to it. -/
theorem lookupParent_walk {s : HostState} {j : PathBuf} (hnul : j.hasNul = false)
    (hne : j.isEmptyStr = false) :
    lookupParent s j = parentFrom s.tree symloopMax (startOf j s.cwd) j.body := by
  rw [lookupParent, hnul, hne]
  rfl

/-- Slashes at the end go, whatever is in front. -/
theorem dropSlashes_append (a : List Seg) {l : List Seg} (h : dropSlashes l ≠ []) :
    dropSlashes (a ++ l) = a ++ dropSlashes l := by
  rw [dropSlashes] at h
  rw [dropSlashes, dropSlashes, List.reverse_append, List.dropWhile_append]
  have hne : (l.reverse.dropWhile (· == Seg.empty)).isEmpty = false := by
    cases hd : l.reverse.dropWhile (· == Seg.empty) with
    | nil =>
        rw [hd] at h
        exact absurd rfl h
    | cons x xs => rfl
  rw [hne]
  simp

/-- Only too many links are reported as such. -/
theorem entered_loop (f : Loc → Parent) (x : Except IoError Walked) :
    entered f x = .error ELOOP ↔ x = .error ELOOP := by
  cases x with
  | error e =>
      show Except.error e = .error ELOOP ↔ _
      rw [Except.error.injEq, Except.error.injEq]
  | ok w =>
      cases w with
      | «at» d k => exact ⟨fun h => (nomatch h), fun h => (nomatch h)⟩
      | missing d n slash =>
          refine ⟨fun h => absurd (Except.error.inj h) (by decide), fun h => (nomatch h)⟩

/-- Walks that end alike enter alike. -/
theorem entered_congr (f : Loc → Parent) {x y : Except IoError Walked} (h : ends x = ends y) :
    entered f x = entered f y := by
  rcases ends_cases h with ⟨e, h1, h2⟩ | ⟨d, m, m', h1, h2⟩ | ⟨d, n, slash, h1, h2⟩
  · rw [h1, h2]
  · rw [h1, h2]
    rfl
  · rw [h1, h2]

/-- The budget of links matters to an entry's place only where it runs out. -/
theorem parentFrom_budget {t : Tree} {k k' : Nat} {dir : Loc} {l : List Seg}
    (h : parentFrom t k dir l = .error ELOOP ↔ parentFrom t k' dir l = .error ELOOP) :
    parentFrom t k dir l = parentFrom t k' dir l := by
  have hdots : ∀ f : Loc → Parent, (entered f (walk t true k dir l) = .error ELOOP
      ↔ entered f (walk t true k' dir l) = .error ELOOP) →
      entered f (walk t true k dir l) = entered f (walk t true k' dir l) := by
    intro f hf
    rw [entered_loop, entered_loop] at hf
    exact entered_congr f (walk_budget hf)
  rw [parentFrom, parentFrom] at h ⊢
  cases hlast : (dropSlashes l).getLast? with
  | none =>
      simp only [hlast] at h ⊢
      exact hdots _ h
  | some sg =>
      cases sg with
      | empty =>
          simp only [hlast] at h ⊢
          exact hdots _ h
      | cur =>
          simp only [hlast] at h ⊢
          exact hdots _ h
      | up =>
          simp only [hlast] at h ⊢
          exact hdots _ h
      | name n =>
          simp only [hlast] at h ⊢
          rw [entered_loop, entered_loop] at h
          exact entered_congr _ (walk_budget h)

end TokimoHost
