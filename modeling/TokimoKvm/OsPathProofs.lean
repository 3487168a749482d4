import TokimoKvm.ByteStreamProofs

/-! # Paths as the Rust standard library and the kernel see them

    A path is a byte string; cut at its slashes it is a non-empty list of
    pieces, and the pieces are all that anybody looks at.  `std::path` reads
    them as components, where empty pieces and `.` vanish; the kernel walks
    them one by one, where a trailing slash still means "this must be a
    directory".  Both views are kept, because `HostFs::resolve` checks the
    first and the host call follows the second. -/

namespace TokimoPath

open TokimoBytes

/-- A component name: not empty, no slash, not `.` and not `..`. -/
def ordinary (b : Bytes) : Bool :=
  !b.isEmpty && !b.contains 47 && b != [46] && b != [46, 46]

abbrev Name := { b : Bytes // ordinary b = true }

/-- What stands between two slashes of a path string. -/
inductive Seg where
  | empty
  | cur
  | up
  | name (n : Name)
  deriving DecidableEq, Repr

/-- Empty pieces and `.` stay in the directory they are met in. -/
def Seg.isSkip : Seg → Bool
  | .empty => true
  | .cur => true
  | _ => false

/-- A path string, cut at its slashes. -/
structure PathBuf where
  first : Seg
  rest : List Seg
  deriving DecidableEq, Repr

/-! ## Byte strings and paths -/

def splitSlash : Bytes → Bytes × List Bytes
  | [] => ([], [])
  | b :: bs =>
      if b = 47 then ([], (splitSlash bs).1 :: (splitSlash bs).2)
      else (b :: (splitSlash bs).1, (splitSlash bs).2)

def Seg.ofBytes (b : Bytes) : Seg :=
  if h : ordinary b = true then .name ⟨b, h⟩
  else if b = [46] then .cur
  else if b = [46, 46] then .up
  else .empty

/-- The path a byte string is. -/
def PathBuf.ofBytes (b : Bytes) : PathBuf :=
  { first := Seg.ofBytes (splitSlash b).1
    rest := (splitSlash b).2.map Seg.ofBytes }

namespace PathBuf

def segs (p : PathBuf) : List Seg := p.first :: p.rest

def ofSegs : List Seg → PathBuf
  | [] => { first := .empty, rest := [] }
  | s :: l => { first := s, rest := l }

/-- The string begins with a slash. -/
def isAbsolute (p : PathBuf) : Bool :=
  decide (p.first = .empty) && !p.rest.isEmpty

/-- The empty string. -/
def isEmptyStr (p : PathBuf) : Bool :=
  decide (p.first = .empty) && p.rest.isEmpty

/-- The pieces to walk once the starting directory is known. -/
def body (p : PathBuf) : List Seg := if p.isAbsolute then p.rest else p.segs

/-- The path `/`. -/
def root : PathBuf := { first := .empty, rest := [.empty] }

/-- An absolute path with the given pieces after the slash. -/
def ofAbsBody (l : List Seg) : PathBuf :=
  match l with
  | [] => root
  | s :: l => { first := .empty, rest := s :: l }

end PathBuf

/-! ## `std::path` -/

inductive Component where
  | rootDir
  | curDir
  | parentDir
  | normal (n : Name)
  deriving DecidableEq, Repr

def Seg.component : Seg → Option Component
  | .empty => none
  | .cur => none
  | .up => some .parentDir
  | .name n => some (.normal n)

/-- Drop empty pieces and `.` from the right end. -/
def trimRight (l : List Seg) : List Seg :=
  (l.reverse.dropWhile Seg.isSkip).reverse

namespace PathBuf

/-- `Path::components`: a leading `.` of a relative path counts, no other
    does. -/
def components (p : PathBuf) : List Component :=
  if p.isAbsolute then .rootDir :: p.rest.filterMap Seg.component
  else if p.first = .cur then .curDir :: p.rest.filterMap Seg.component
  else p.segs.filterMap Seg.component

/-- `Path::starts_with`. -/
def startsWith (p base : PathBuf) : Bool :=
  decide (base.components <+: p.components)

/-- `Path::strip_prefix("/")`; the rest is trimmed at both ends. -/
def stripPrefixRoot (p : PathBuf) : Option PathBuf :=
  if p.isAbsolute then some (ofSegs (trimRight (p.rest.dropWhile Seg.isSkip)))
  else none

/-- `Path::parent`: without the last component, trimmed at the right. -/
def parent (p : PathBuf) : Option PathBuf :=
  if p.isAbsolute then
    match (trimRight p.rest).getLast? with
    | none => none
    | some _ => some (ofAbsBody (trimRight (trimRight p.rest).dropLast))
  else if p.first = .cur then
    match (trimRight p.rest).getLast? with
    | none => some (ofSegs [])
    | some _ =>
        some { first := .cur, rest := trimRight (trimRight p.rest).dropLast }
  else
    match (trimRight p.segs).getLast? with
    | none => none
    | some _ => some (ofSegs (trimRight (trimRight p.segs).dropLast))

/-- `Path::join` and `PathBuf::push`: an absolute path replaces, any other is
    appended after a separator where one is needed. -/
def join (base rel : PathBuf) : PathBuf :=
  if rel.isAbsolute then rel
  else if base.segs.getLast? = some .empty then
    ofSegs (base.segs.dropLast ++ rel.segs)
  else ofSegs (base.segs ++ rel.segs)

/-- A path string holds a NUL byte, so no host call takes it. -/
def hasNul (p : PathBuf) : Bool :=
  p.segs.any fun
    | .name n => n.1.contains 0
    | _ => false

end PathBuf

/-! ## Lossy strings -/

/-- The second-byte range and the width of a UTF-8 sequence, by its first
    byte. -/
def utf8Lead (b : UInt8) : Option (UInt8 × UInt8 × Nat) :=
  if 0xC2 ≤ b ∧ b ≤ 0xDF then some (0x80, 0xBF, 2)
  else if b = 0xE0 then some (0xA0, 0xBF, 3)
  else if b = 0xED then some (0x80, 0x9F, 3)
  else if 0xE1 ≤ b ∧ b ≤ 0xEF then some (0x80, 0xBF, 3)
  else if b = 0xF0 then some (0x90, 0xBF, 4)
  else if 0xF1 ≤ b ∧ b ≤ 0xF3 then some (0x80, 0xBF, 4)
  else if b = 0xF4 then some (0x80, 0x8F, 4)
  else none

def utf8Cont (b : UInt8) : Bool := decide (0x80 ≤ b ∧ b ≤ 0xBF)

/-- Whether a string begins with a UTF-8 sequence, and how many bytes that
    sequence, or the broken one in its place, takes. -/
def utf8Next (bs : Bytes) : Bool × Nat :=
  match bs with
  | [] => (true, 0)
  | b :: bs =>
      if b < 0x80 then (true, 1)
      else
        match utf8Lead b, bs with
        | none, _ => (false, 1)
        | some _, [] => (false, 1)
        | some (lo, hi, w), b₁ :: bs₁ =>
            if ¬ (lo ≤ b₁ ∧ b₁ ≤ hi) then (false, 1)
            else if w = 2 then (true, 2)
            else
              match bs₁ with
              | [] => (false, 2)
              | b₂ :: bs₂ =>
                  if !utf8Cont b₂ then (false, 2)
                  else if w = 3 then (true, 3)
                  else
                    match bs₂ with
                    | [] => (false, 3)
                    | b₃ :: _ => if utf8Cont b₃ then (true, 4) else (false, 3)

/-- `OsStr::to_string_lossy`: broken sequences become U+FFFD. -/
def toStringLossy (bs : Bytes) : Bytes := go bs.length bs
where
  go : Nat → Bytes → Bytes
    | 0, _ => []
    | _ + 1, [] => []
    | fuel + 1, b :: bs =>
        match utf8Next (b :: bs) with
        | (true, n) => (b :: bs).take n ++ go fuel ((b :: bs).drop n)
        | (false, n) => [0xEF, 0xBF, 0xBD] ++ go fuel ((b :: bs).drop n)

/-- Nothing in the string is broken. -/
def isUtf8 (bs : Bytes) : Bool := go bs.length bs
where
  go : Nat → Bytes → Bool
    | 0, _ => true
    | _ + 1, [] => true
    | fuel + 1, b :: bs =>
        match utf8Next (b :: bs) with
        | (true, n) => go fuel ((b :: bs).drop n)
        | (false, _) => false

/-! ## Locations -/

/-- A canonical absolute place in a tree. -/
abbrev Loc := List Name

/-- The canonical path of a location, as `canonicalize` returns it. -/
def locPath (l : Loc) : PathBuf := PathBuf.ofAbsBody (l.map Seg.name)

theorem locPath_components (l : Loc) :
    (locPath l).components = .rootDir :: l.map Component.normal := by
  have hmap : ∀ l : Loc, (l.map Seg.name).filterMap Seg.component
      = l.map Component.normal := by
    intro l
    induction l with
    | nil => rfl
    | cons n l ih =>
        rw [List.map_cons, List.map_cons, ← ih]
        rfl
  cases l with
  | nil => rfl
  | cons n l => exact congrArg (Component.rootDir :: ·) (hmap (n :: l))

/-- Canonical paths start with one another as their locations do. -/
theorem locPath_startsWith (l r : Loc) :
    (locPath l).startsWith (locPath r) = true ↔ r <+: l := by
  rw [PathBuf.startsWith, decide_eq_true_iff, locPath_components,
    locPath_components, List.cons_prefix_cons]
  constructor
  · rintro ⟨-, h⟩
    exact (List.prefix_map_iff_of_injective
      (fun a b hab => Component.normal.inj hab)).mp h
  · intro h
    exact ⟨rfl, h.map _⟩

/-! ## Trimming and parents -/

theorem dropWhile_split {α : Type} (p : α → Bool) (l : List α) :
    ∃ pre, l = pre ++ l.dropWhile p ∧ ∀ s ∈ pre, p s = true := by
  induction l with
  | nil => exact ⟨[], rfl, fun s hs => nomatch hs⟩
  | cons a l ih =>
      by_cases ha : p a = true
      · obtain ⟨pre, h1, h2⟩ := ih
        refine ⟨a :: pre, ?_, ?_⟩
        · rw [List.dropWhile_cons_of_pos ha, List.cons_append, ← h1]
        · intro s hs
          rcases List.mem_cons.mp hs with heq | hmem
          · rw [heq]; exact ha
          · exact h2 s hmem
      · rw [List.dropWhile_cons_of_neg ha]
        exact ⟨[], rfl, fun s hs => nomatch hs⟩

/-- Dropping from the right cuts off what satisfies the test. -/
theorem rdropWhile_split {α : Type} (p : α → Bool) (l : List α) :
    ∃ tail, l = (l.reverse.dropWhile p).reverse ++ tail ∧ ∀ s ∈ tail, p s = true := by
  obtain ⟨pre, h1, h2⟩ := dropWhile_split p l.reverse
  refine ⟨pre.reverse, ?_, ?_⟩
  · rw [← List.reverse_append, ← h1, List.reverse_reverse]
  · intro s hs
    exact h2 s (List.mem_reverse.mp hs)

/-- Trimming cuts off pieces that stay in place. -/
theorem trimRight_split (l : List Seg) :
    ∃ tail, l = trimRight l ++ tail ∧ ∀ s ∈ tail, s.isSkip = true :=
  rdropWhile_split Seg.isSkip l

/-- A trimmed list does not end in a piece that stays in place. -/
theorem trimRight_last {l : List Seg} {s : Seg}
    (h : (trimRight l).getLast? = some s) : s.isSkip = false := by
  rw [trimRight, List.getLast?_reverse] at h
  cases hd : l.reverse.dropWhile Seg.isSkip with
  | nil => rw [hd] at h; exact nomatch h
  | cons a rest =>
      rw [hd] at h
      have ha : a = s := Option.some.inj h
      have hnot := List.head?_dropWhile_not Seg.isSkip l.reverse
      rw [hd] at hnot
      rw [← ha]
      simpa using hnot

/-- A piece in front of a real one is not trimmed away. -/
theorem trimRight_cons {l : List Seg} (a : Seg) (h : trimRight l ≠ []) :
    trimRight (a :: l) = a :: trimRight l := by
  have hne : l.reverse.dropWhile Seg.isSkip ≠ [] := by
    intro hnil
    refine h ?_
    rw [trimRight, hnil, List.reverse_nil]
  rw [trimRight, List.reverse_cons, List.dropWhile_append, if_neg (by simpa using hne),
    List.reverse_append]
  rfl

/-- The last real piece of a path. -/
def PathBuf.lastReal (p : PathBuf) : Option Seg := (trimRight p.body).getLast?

/-- Cut a list of pieces at its last real one. -/
theorem trimRight_cut {l : List Seg} {s : Seg}
    (h : (trimRight l).getLast? = some s) :
    ∃ mid tail, l = trimRight (trimRight l).dropLast ++ mid ++ s :: tail
      ∧ s.isSkip = false ∧ (∀ t ∈ mid, t.isSkip = true)
      ∧ (∀ t ∈ tail, t.isSkip = true) := by
  obtain ⟨tail, h1, h2⟩ := trimRight_split l
  obtain ⟨mid, h3, h4⟩ := trimRight_split (trimRight l).dropLast
  have hsnoc : trimRight l = (trimRight l).dropLast ++ [s] := by
    obtain ⟨ys, hys⟩ := List.getLast?_eq_some_iff.mp h
    rw [hys, List.dropLast_concat]
  refine ⟨mid, tail, ?_, trimRight_last h, h4, h2⟩
  rw [← h3]
  calc l = trimRight l ++ tail := h1
    _ = (trimRight l).dropLast ++ [s] ++ tail := by rw [← hsnoc]
    _ = (trimRight l).dropLast ++ s :: tail := by
        rw [List.append_assoc, List.singleton_append]

/-- The pieces of an absolute path are the ones it was built from, but for
    the bare `/`. -/
theorem ofAbsBody_body (l : List Seg) :
    (PathBuf.ofAbsBody l).isAbsolute = true
      ∧ ((PathBuf.ofAbsBody l).body = l
        ∨ (l = [] ∧ (PathBuf.ofAbsBody l).body = [.empty])) := by
  cases l with
  | nil => exact ⟨rfl, Or.inr ⟨rfl, rfl⟩⟩
  | cons s l => exact ⟨rfl, Or.inl rfl⟩

/-- **WHAT `parent` CUTS OFF** an absolute path: its last real piece, and
    pieces that stay in place around it. -/
theorem parent_absolute {p q : PathBuf} (ha : p.isAbsolute = true)
    (h : p.parent = some q) :
    q.isAbsolute = true ∧ ∃ (l mid : List Seg) (s : Seg) (tail : List Seg),
      p.body = l ++ mid ++ s :: tail ∧ (q.body = l ∨ (l = [] ∧ q.body = [.empty]))
      ∧ p.lastReal = some s ∧ s.isSkip = false
      ∧ (∀ t ∈ mid, t.isSkip = true) ∧ (∀ t ∈ tail, t.isSkip = true) := by
  have hb : p.body = p.rest := by rw [PathBuf.body, if_pos ha]
  rw [PathBuf.parent, if_pos ha] at h
  cases hl : (trimRight p.rest).getLast? with
  | none => simp only [hl] at h; exact nomatch h
  | some s =>
      simp only [hl] at h
      have hq := Option.some.inj h
      obtain ⟨mid, tail, h1, h2, h3, h4⟩ := trimRight_cut hl
      obtain ⟨habs, hbody⟩ :=
        ofAbsBody_body (trimRight (trimRight p.rest).dropLast)
      rw [hq] at habs hbody
      refine ⟨habs, _, mid, s, tail, ?_, hbody, ?_, h2, h3, h4⟩
      · rw [hb]; exact h1
      · rw [PathBuf.lastReal, hb]; exact hl

/-- An absolute path without a parent has only pieces that stay in place. -/
theorem parent_absolute_none {p : PathBuf} (ha : p.isAbsolute = true)
    (h : p.parent = none) : ∀ t ∈ p.body, t.isSkip = true := by
  have hb : p.body = p.rest := by rw [PathBuf.body, if_pos ha]
  rw [PathBuf.parent, if_pos ha] at h
  cases hl : (trimRight p.rest).getLast? with
  | some s => simp only [hl] at h; exact nomatch h
  | none =>
      obtain ⟨tail, h1, h2⟩ := trimRight_split p.rest
      rw [List.getLast?_eq_none_iff.mp hl, List.nil_append] at h1
      rw [hb, h1]
      exact h2

/-- The first piece of a relative path is not empty, unless the path is. -/
theorem first_of_relative {p : PathBuf} (ha : p.isAbsolute = false) :
    p.first ≠ .empty ∨ p = PathBuf.ofSegs [] := by
  by_cases hf : p.first = .empty
  · refine Or.inr ?_
    cases hr : p.rest with
    | nil =>
        obtain ⟨first, rest⟩ := p
        have h1 : first = .empty := hf
        have h2 : rest = [] := hr
        rw [h1, h2]
        rfl
    | cons s l =>
        rw [PathBuf.isAbsolute, hf, hr] at ha
        exact nomatch ha
  · exact Or.inl hf

/-- **WHAT `parent` CUTS OFF** a relative path: all of it, or its last real
    piece and pieces that stay in place around it. -/
theorem parent_relative {p q : PathBuf} (ha : p.isAbsolute = false)
    (h : p.parent = some q) :
    q = PathBuf.ofSegs []
      ∨ (q.isAbsolute = false ∧ ∃ (mid : List Seg) (s : Seg) (tail : List Seg),
        p.body = q.body ++ mid ++ s :: tail
        ∧ p.lastReal = some s ∧ s.isSkip = false
        ∧ (∀ t ∈ mid, t.isSkip = true) ∧ (∀ t ∈ tail, t.isSkip = true)) := by
  have hna : ¬ p.isAbsolute = true := by rw [ha]; exact Bool.false_ne_true
  have hb : p.body = p.segs := by rw [PathBuf.body, if_neg hna]
  rw [PathBuf.parent, if_neg hna] at h
  -- a leading `.` is kept in front, whatever is cut off behind
  by_cases hc : p.first = .cur
  · rw [if_pos hc] at h
    cases hl : (trimRight p.rest).getLast? with
    | none =>
        simp only [hl] at h
        exact Or.inl (Option.some.inj h).symm
    | some s =>
        simp only [hl] at h
        have hq := (Option.some.inj h).symm
        obtain ⟨mid, tail, h1, h2, h3, h4⟩ := trimRight_cut hl
        have hqa : q.isAbsolute = false := by rw [hq]; rfl
        have hqb : q.body = .cur :: trimRight (trimRight p.rest).dropLast := by
          rw [PathBuf.body, if_neg (by rw [hqa]; exact Bool.false_ne_true), hq]
          rfl
        refine Or.inr ⟨hqa, mid, s, tail, ?_, ?_, h2, h3, h4⟩
        · rw [hb, hqb, PathBuf.segs, hc, List.cons_append, List.cons_append, ← h1]
        · have hne : trimRight p.rest ≠ [] := by
            intro hnil
            rw [hnil] at hl
            exact nomatch hl
          rw [PathBuf.lastReal, hb, PathBuf.segs, trimRight_cons p.first hne,
            List.getLast?_cons, hl]
          rfl
  · rw [if_neg hc] at h
    cases hl : (trimRight p.segs).getLast? with
    | none => simp only [hl] at h; exact nomatch h
    | some s =>
        simp only [hl] at h
        have hq := (Option.some.inj h).symm
        obtain ⟨mid, tail, h1, h2, h3, h4⟩ := trimRight_cut hl
        cases hd : trimRight (trimRight p.segs).dropLast with
        | nil => rw [hd] at hq; exact Or.inl hq
        | cons a l =>
            have hfirst : a = p.first := by
              rw [hd] at h1
              exact (List.cons.inj h1).1.symm
            have hne : p.first ≠ .empty := by
              rcases first_of_relative ha with hne | hp
              · exact hne
              · rw [hp] at hl
                exact nomatch hl
            rw [hd] at hq h1
            have hqa : q.isAbsolute = false := by
              rw [hq, PathBuf.isAbsolute]
              show (decide (a = Seg.empty) && _) = false
              rw [hfirst, decide_eq_false hne, Bool.false_and]
            have hqb : q.body = a :: l := by
              rw [PathBuf.body, if_neg (by rw [hqa]; exact Bool.false_ne_true), hq]
              rfl
            refine Or.inr ⟨hqa, mid, s, tail, ?_, ?_, h2, h3, h4⟩
            · rw [hb, hqb]; exact h1
            · rw [PathBuf.lastReal, hb]; exact hl

/-- The pieces behind the last real one. -/
def PathBuf.trailing (p : PathBuf) : List Seg :=
  (p.body.reverse.takeWhile Seg.isSkip).reverse

/-- A list of pieces has one last real piece. -/
theorem cut_unique {l pre tail : List Seg} {s : Seg} (h : l = pre ++ s :: tail)
    (hs : s.isSkip = false) (htail : ∀ t ∈ tail, t.isSkip = true) :
    (l.reverse.takeWhile Seg.isSkip).reverse = tail ∧ trimRight l = pre ++ [s] := by
  have hrev : l.reverse = tail.reverse ++ s :: pre.reverse := by
    rw [h, List.reverse_append, List.reverse_cons, List.append_assoc]
    rfl
  have hall : ∀ t ∈ tail.reverse, t.isSkip = true :=
    fun t ht => htail t (List.mem_reverse.mp ht)
  have hns : ¬ s.isSkip = true := by rw [hs]; exact Bool.false_ne_true
  constructor
  · rw [hrev, List.takeWhile_append_of_pos hall, List.takeWhile_cons_of_neg hns,
      List.append_nil, List.reverse_reverse]
  · rw [trimRight, hrev, List.dropWhile_append_of_pos hall, List.dropWhile_cons_of_neg hns,
      List.reverse_cons, List.reverse_reverse]

/-- **A PATH AND ITS PARENT**: the path is the parent's pieces, pieces that
    stay in place, the last real piece and what trails it. -/
theorem parent_cut {p q : PathBuf} (h : p.parent = some q) (hq : q.isEmptyStr = false) :
    q.isAbsolute = p.isAbsolute ∧ ∃ (l mid : List Seg) (s : Seg),
      p.body = l ++ (mid ++ s :: p.trailing)
      ∧ (q.body = l ∨ (l = [] ∧ q.body = [.empty]))
      ∧ p.lastReal = some s ∧ s.isSkip = false
      ∧ (∀ t ∈ mid, t.isSkip = true) ∧ (∀ t ∈ p.trailing, t.isSkip = true) := by
  cases ha : p.isAbsolute with
  | true =>
      obtain ⟨hqa, l, mid, s, tail, h1, h2, h3, h4, h5, h6⟩ := parent_absolute ha h
      have htl : p.trailing = tail := (cut_unique h1 h4 h6).1
      refine ⟨hqa, l, mid, s, ?_, h2, h3, h4, h5, ?_⟩
      · rw [htl, ← List.append_assoc]; exact h1
      · rw [htl]; exact h6
  | false =>
      rcases parent_relative ha h with hnil | ⟨hqa, mid, s, tail, h1, h3, h4, h5, h6⟩
      · rw [hnil] at hq; exact nomatch hq
      · have htl : p.trailing = tail := (cut_unique h1 h4 h6).1
        refine ⟨hqa, q.body, mid, s, ?_, Or.inl rfl, h3, h4, h5, ?_⟩
        · rw [htl, ← List.append_assoc]; exact h1
        · rw [htl]; exact h6

/-- A path is free of NUL bytes when the names in it are. -/
theorem hasNul_false_iff (p : PathBuf) :
    p.hasNul = false ↔ ∀ n : Name, Seg.name n ∈ p.body → n.1.contains 0 = false := by
  have hsegs : ∀ n : Name, Seg.name n ∈ p.body ↔ Seg.name n ∈ p.segs := by
    intro n
    rw [PathBuf.body]
    by_cases ha : p.isAbsolute = true
    · rw [if_pos ha, PathBuf.segs, List.mem_cons]
      constructor
      · exact Or.inr
      · rintro (h | h)
        · rw [PathBuf.isAbsolute, ← h] at ha
          exact nomatch ha
        · exact h
    · rw [if_neg ha]
  rw [PathBuf.hasNul, List.any_eq_false]
  constructor
  · intro h n hn
    have hn' := h (.name n) ((hsegs n).mp hn)
    simpa using hn'
  · intro h s hs
    cases s with
    | name n =>
        show ¬ n.1.contains 0 = true
        rw [h n ((hsegs n).mpr hs)]
        exact Bool.false_ne_true
    | empty => exact Bool.false_ne_true
    | cur => exact Bool.false_ne_true
    | up => exact Bool.false_ne_true

/-- A path without a parent is empty or has only pieces that stay in place
    behind the slash. -/
theorem parent_none {p : PathBuf} (h : p.parent = none) :
    p.isEmptyStr = true ∨ (p.isAbsolute = true ∧ ∀ t ∈ p.body, t.isSkip = true) := by
  cases ha : p.isAbsolute with
  | true => exact Or.inr ⟨rfl, parent_absolute_none ha h⟩
  | false =>
      have hna : ¬ p.isAbsolute = true := by rw [ha]; exact Bool.false_ne_true
      rw [PathBuf.parent, if_neg hna] at h
      by_cases hc : p.first = .cur
      · rw [if_pos hc] at h
        cases hl : (trimRight p.rest).getLast? with
        | none => simp only [hl] at h; exact nomatch h
        | some s => simp only [hl] at h; exact nomatch h
      · rw [if_neg hc] at h
        cases hl : (trimRight p.segs).getLast? with
        | some s => simp only [hl] at h; exact nomatch h
        | none =>
            obtain ⟨tail, h1, h2⟩ := trimRight_split p.segs
            rw [List.getLast?_eq_none_iff.mp hl, List.nil_append] at h1
            have hskip := h2 p.first (by rw [← h1]; exact List.mem_cons_self ..)
            rcases first_of_relative ha with hne | hp
            · cases hf : p.first with
              | empty => exact absurd hf hne
              | cur => exact absurd hf hc
              | up => rw [hf] at hskip; exact nomatch hskip
              | name n => rw [hf] at hskip; exact nomatch hskip
            · rw [hp]
              exact Or.inl rfl

/-! ## Joining one name -/

theorem splitSlash_plain : ∀ {b : Bytes}, b.contains 47 = false → splitSlash b = (b, []) := by
  intro b
  induction b with
  | nil => intro _; rfl
  | cons x b ih =>
      intro h
      rw [List.contains_cons, Bool.or_eq_false_iff] at h
      have hx : x ≠ 47 := by
        intro hx
        rw [hx] at h
        exact nomatch h.1
      rw [splitSlash, if_neg hx, ih h.2]

theorem ofBytes_name (n : Name) : PathBuf.ofBytes n.1 = { first := .name n, rest := [] } := by
  have hslash : n.1.contains 47 = false := by
    have h := n.2
    rw [ordinary, Bool.and_eq_true_iff, Bool.and_eq_true_iff, Bool.and_eq_true_iff] at h
    exact Bool.eq_false_iff.mpr (fun hc => by rw [hc] at h; exact nomatch h.1.1.2)
  rw [PathBuf.ofBytes, splitSlash_plain hslash]
  simp only [Seg.ofBytes, dif_pos n.2, List.map_nil]

theorem isAbsolute_of_components {p : PathBuf} {cs : List Component}
    (h : p.components = .rootDir :: cs) : p.isAbsolute = true := by
  by_cases ha : p.isAbsolute = true
  · exact ha
  · -- no other kind of path has a root component
    exfalso
    have hno : ∀ l : List Seg, Component.rootDir ∉ l.filterMap Seg.component := by
      intro l hmem
      obtain ⟨s, -, hs⟩ := List.mem_filterMap.mp hmem
      cases s with
      | empty => exact nomatch hs
      | cur => exact nomatch hs
      | up => exact nomatch hs
      | name n => exact nomatch hs
    rw [PathBuf.components, if_neg ha] at h
    by_cases hc : p.first = .cur
    · rw [if_pos hc] at h
      exact nomatch h
    · rw [if_neg hc] at h
      exact hno p.segs (by rw [h]; exact List.mem_cons_self ..)

/-- Joining a name to an absolute path adds a component. -/
theorem join_name_components {p : PathBuf} (ha : p.isAbsolute = true) (n : Name) :
    (p.join (.ofBytes n.1)).components = p.components ++ [.normal n] := by
  obtain ⟨first, rest⟩ := p
  rw [PathBuf.isAbsolute, Bool.and_eq_true_iff] at ha
  obtain ⟨hf, hr⟩ := ha
  have hf' : first = .empty := of_decide_eq_true hf
  subst hf'
  have hbody : ∀ l : List Seg, l ≠ [] →
      (PathBuf.mk .empty l).components = .rootDir :: l.filterMap Seg.component := by
    intro l hl
    have habs : (PathBuf.mk .empty l).isAbsolute = true := by
      cases l with
      | nil => exact absurd rfl hl
      | cons s l => rfl
    rw [PathBuf.components, if_pos habs]
  have hne : rest ≠ [] := by
    intro hnil
    rw [hnil] at hr
    exact nomatch hr
  have hrel : (PathBuf.ofBytes n.1).isAbsolute = false := by rw [ofBytes_name]; rfl
  have hsegs : (PathBuf.ofBytes n.1).segs = [.name n] := by rw [ofBytes_name]; rfl
  rw [PathBuf.join, if_neg (by rw [hrel]; exact Bool.false_ne_true), hsegs, hbody rest hne]
  by_cases hlast : (PathBuf.mk .empty rest).segs.getLast? = some .empty
  · rw [if_pos hlast]
    -- a trailing slash gives way to the name
    have hlast' : rest.getLast? = some .empty := by
      rw [PathBuf.segs, List.getLast?_cons_of_ne_nil hne] at hlast
      exact hlast
    obtain ⟨l, rfl⟩ := List.getLast?_eq_some_iff.mp hlast'
    have hsegs' : (PathBuf.mk .empty (l ++ [.empty])).segs.dropLast = .empty :: l := by
      rw [PathBuf.segs, List.dropLast_cons_of_ne_nil hne, List.dropLast_concat]
    rw [hsegs', List.cons_append, PathBuf.ofSegs,
      hbody _ (List.append_ne_nil_of_right_ne_nil _ (List.cons_ne_nil _ _)),
      List.filterMap_append, List.filterMap_append]
    simp [Seg.component]
  · rw [if_neg hlast, PathBuf.segs, List.cons_append, PathBuf.ofSegs,
      hbody _ (List.append_ne_nil_of_right_ne_nil _ (List.cons_ne_nil _ _)),
      List.filterMap_append]
    rfl

/-! ## The bytes of a path -/

def Seg.bytes : Seg → Bytes
  | .empty => []
  | .cur => [46]
  | .up => [46, 46]
  | .name n => n.1

def joinSlash : Bytes → List Bytes → Bytes
  | b, [] => b
  | b, c :: cs => b ++ 47 :: joinSlash c cs

/-- `Path::as_os_str`. -/
def PathBuf.bytes (p : PathBuf) : Bytes := joinSlash p.first.bytes (p.rest.map Seg.bytes)

theorem joinSlash_splitSlash (b : Bytes) : joinSlash (splitSlash b).1 (splitSlash b).2 = b := by
  induction b with
  | nil => rfl
  | cons x b ih =>
      rw [splitSlash]
      by_cases hx : x = 47
      · rw [if_pos hx, joinSlash, ih, hx]
        rfl
      · rw [if_neg hx]
        cases hs : (splitSlash b).2 with
        | nil =>
            rw [hs] at ih
            exact congrArg (x :: ·) ih
        | cons c cs =>
            rw [hs] at ih
            exact congrArg (x :: ·) ih

theorem splitSlash_pieces (b : Bytes) :
    47 ∉ (splitSlash b).1 ∧ ∀ c ∈ (splitSlash b).2, 47 ∉ c := by
  induction b with
  | nil => exact ⟨List.not_mem_nil, fun c hc => absurd hc List.not_mem_nil⟩
  | cons x b ih =>
      rw [splitSlash]
      by_cases hx : x = 47
      · rw [if_pos hx]
        refine ⟨List.not_mem_nil, fun c hc => ?_⟩
        rcases List.mem_cons.mp hc with rfl | hc
        · exact ih.1
        · exact ih.2 c hc
      · rw [if_neg hx]
        refine ⟨fun h => ?_, ih.2⟩
        rcases List.mem_cons.mp h with h | h
        · exact hx h.symm
        · exact ih.1 h

theorem Seg.bytes_ofBytes {b : Bytes} (hb : 47 ∉ b) : (Seg.ofBytes b).bytes = b := by
  rw [Seg.ofBytes]
  by_cases ho : ordinary b = true
  · rw [dif_pos ho]
    rfl
  · rw [dif_neg ho]
    by_cases hcur : b = [46]
    · rw [if_pos hcur, hcur]
      rfl
    · rw [if_neg hcur]
      by_cases hup : b = [46, 46]
      · rw [if_pos hup, hup]
        rfl
      · rw [if_neg hup]
        -- not ordinary, and neither a dot nor two: nothing is left
        cases b with
        | nil => rfl
        | cons x b =>
            have hx : 47 ≠ x := fun h => hb (h ▸ List.mem_cons_self ..)
            have hb' : 47 ∉ b := fun h => hb (List.mem_cons_of_mem _ h)
            have hord : ordinary (x :: b) = true := by
              simp [ordinary, hcur, hup, hx, hb']
            exact absurd hord ho

/-- A path is its bytes. -/
theorem PathBuf.bytes_ofBytes (b : Bytes) : (PathBuf.ofBytes b).bytes = b := by
  obtain ⟨hfirst, hrest⟩ := splitSlash_pieces b
  have hmap : ((splitSlash b).2.map Seg.ofBytes).map Seg.bytes = (splitSlash b).2 := by
    rw [List.map_map]
    exact (List.map_congr_left fun c hc => Seg.bytes_ofBytes (hrest c hc)).trans (List.map_id _)
  rw [PathBuf.bytes, PathBuf.ofBytes, Seg.bytes_ofBytes hfirst, hmap, joinSlash_splitSlash]

/-- Only a path that begins with a slash is absolute. -/
theorem isAbsolute_ofBytes {x : UInt8} {b : Bytes} (hx : x ≠ 47) :
    (PathBuf.ofBytes (x :: b)).isAbsolute = false := by
  have hfirst : (PathBuf.ofBytes (x :: b)).first ≠ .empty := by
    intro h
    have hb := Seg.bytes_ofBytes (splitSlash_pieces (x :: b)).1
    rw [show Seg.ofBytes (splitSlash (x :: b)).1 = .empty from h, splitSlash, if_neg hx] at hb
    exact nomatch hb
  rw [PathBuf.isAbsolute, decide_eq_false hfirst]
  rfl

/-- A relative path is found again at the end of what it was joined to. -/
theorem join_segs (base : PathBuf) :
    ∃ l, ∀ rel : PathBuf, rel.isAbsolute = false → (base.join rel).segs = l ++ rel.segs := by
  have hof : ∀ (l : List Seg) (rel : PathBuf), (PathBuf.ofSegs (l ++ rel.segs)).segs
      = l ++ rel.segs := by
    intro l rel
    cases l with
    | nil => rfl
    | cons s l => rfl
  by_cases hlast : base.segs.getLast? = some .empty
  · refine ⟨base.segs.dropLast, fun rel hrel => ?_⟩
    rw [PathBuf.join, if_neg (by rw [hrel]; exact Bool.false_ne_true), if_pos hlast, hof]
  · refine ⟨base.segs, fun rel hrel => ?_⟩
    rw [PathBuf.join, if_neg (by rw [hrel]; exact Bool.false_ne_true), if_neg hlast, hof]

theorem ofBytes_inj {b c : Bytes} (h : PathBuf.ofBytes b = PathBuf.ofBytes c) : b = c := by
  rw [← PathBuf.bytes_ofBytes b, h, PathBuf.bytes_ofBytes]

theorem join_inj {base rel rel' : PathBuf} (hrel : rel.isAbsolute = false)
    (hrel' : rel'.isAbsolute = false) (h : base.join rel = base.join rel') : rel = rel' := by
  obtain ⟨l, hl⟩ := join_segs base
  have hsegs := congrArg PathBuf.segs h
  rw [hl rel hrel, hl rel' hrel'] at hsegs
  have hcons := List.append_cancel_left hsegs
  cases rel
  cases rel'
  obtain ⟨rfl, rfl⟩ := List.cons.inj hcons
  rfl

/-! ## What a lossy string keeps -/

theorem utf8Lead_high {b lo hi : UInt8} {w : Nat} (h : utf8Lead b = some (lo, hi, w)) :
    0x80 ≤ lo := by
  unfold utf8Lead at h
  repeat' split at h
  all_goals
    cases h
    try decide

theorem utf8Next_pos (b : UInt8) (bs : Bytes) : 0 < (utf8Next (b :: bs)).2 := by
  simp only [utf8Next]
  repeat' split
  all_goals exact Nat.succ_pos _

/-- A broken sequence has no ASCII in it. -/
theorem utf8Next_broken {bs : Bytes} {n : Nat} (h : utf8Next bs = (false, n)) :
    ∀ b ∈ bs.take n, 0x80 ≤ b := by
  have hone : ∀ {b : UInt8} {bs : Bytes}, ¬ b < 0x80 → ∀ c ∈ (b :: bs).take 1, 0x80 ≤ c := by
    intro b bs hb c hc
    rw [List.mem_singleton.mp hc]
    exact UInt8.not_lt.mp hb
  cases bs with
  | nil => exact fun b hb => absurd hb (by simp)
  | cons b bs =>
      simp only [utf8Next] at h
      split at h
      · cases h
      · next hb =>
        split at h
        · cases h
          exact hone hb
        · cases h
          exact hone hb
        · next lo hi w b₁ bs₁ hlead =>
          have hlo := utf8Lead_high hlead
          split at h
          · cases h
            exact hone hb
          · next hrange =>
            have hb₁ : 0x80 ≤ b₁ := UInt8.le_trans hlo (Decidable.not_not.mp hrange).1
            have htwo : ∀ c ∈ [b, b₁], 0x80 ≤ c :=
              List.forall_mem_cons.mpr ⟨UInt8.not_lt.mp hb, List.forall_mem_singleton.mpr hb₁⟩
            split at h
            · cases h
            · split at h
              · cases h
                exact htwo
              · next b₂ bs₂ =>
                split at h
                · cases h
                  exact htwo
                · next hcont =>
                  have hb₂ : 0x80 ≤ b₂ := by
                    have hc : utf8Cont b₂ = true := by simpa using hcont
                    exact (of_decide_eq_true hc).1
                  have hthree : ∀ c ∈ [b, b₁, b₂], 0x80 ≤ c :=
                    List.forall_mem_cons.mpr ⟨UInt8.not_lt.mp hb,
                      List.forall_mem_cons.mpr ⟨hb₁, List.forall_mem_singleton.mpr hb₂⟩⟩
                  split at h
                  · cases h
                  · split at h
                    · cases h
                      exact hthree
                    · split at h
                      · cases h
                      · cases h
                        exact hthree

/-- U+FFFD is no broken sequence. -/
theorem utf8Next_mark (bs : Bytes) : utf8Next (0xEF :: 0xBF :: 0xBD :: bs) = (true, 3) := rfl

/-- **LOSSY STRINGS, CUT BY CUT**: a whole sequence is kept, and U+FFFD takes
    the place of a broken one. -/
theorem toStringLossy_induct {motive : Bytes → Bytes → Prop} (nil : motive [] [])
    (keep : ∀ w d v, motive d v → motive (w ++ d) (w ++ v))
    (lose : ∀ x d v, (∀ b ∈ x, 0x80 ≤ b) → ¬ [0xEF, 0xBF, 0xBD] <+: x ++ v → motive d v →
      motive ([0xEF, 0xBF, 0xBD] ++ d) (x ++ v)) (bs : Bytes) :
    motive (toStringLossy bs) bs := by
  have hgo : ∀ fuel (bs : Bytes), bs.length ≤ fuel → motive (toStringLossy.go fuel bs) bs := by
    intro fuel
    induction fuel with
    | zero =>
        intro bs hlen
        rw [List.eq_nil_of_length_eq_zero (Nat.le_zero.mp hlen)]
        exact nil
    | succ fuel ih =>
        intro bs hlen
        cases bs with
        | nil => exact nil
        | cons b bs =>
            have hpos := utf8Next_pos b bs
            rcases hnext : utf8Next (b :: bs) with ⟨whole, n⟩
            rw [hnext] at hpos
            have hlast : ((b :: bs).drop n).length ≤ fuel := by
              rw [List.length_drop]
              omega
            have hrest := ih ((b :: bs).drop n) hlast
            rw [toStringLossy.go, hnext]
            cases whole with
            | true =>
                have h := keep ((b :: bs).take n) _ _ hrest
                rwa [List.take_append_drop] at h
            | false =>
                have hmark : ¬ [0xEF, 0xBF, 0xBD] <+: (b :: bs).take n ++ (b :: bs).drop n := by
                  rw [List.take_append_drop]
                  rintro ⟨t, ht⟩
                  rw [← ht] at hnext
                  cases hnext
                have h := lose _ _ _ (utf8Next_broken hnext) hmark hrest
                rwa [List.take_append_drop] at h
  exact hgo bs.length bs (Nat.le_refl _)

/-- ASCII is kept, and none is added. -/
theorem mem_toStringLossy {a : UInt8} (ha : a < 0x80) (bs : Bytes) :
    a ∈ toStringLossy bs ↔ a ∈ bs := by
  have hhigh : ∀ x : Bytes, (∀ b ∈ x, 0x80 ≤ b) → a ∉ x := fun x hx hmem =>
    absurd ha (UInt8.not_lt.mpr (hx a hmem))
  refine toStringLossy_induct (motive := fun d v => a ∈ d ↔ a ∈ v) Iff.rfl ?_ ?_ bs
  · intro w d v h
    rw [List.mem_append, List.mem_append, h]
  · intro x d v hx _ h
    have hmark : a ∉ [0xEF, 0xBF, 0xBD] := hhigh _ (List.forall_mem_cons.mpr ⟨by decide,
      List.forall_mem_cons.mpr ⟨by decide, List.forall_mem_singleton.mpr (by decide)⟩⟩)
    simp only [List.mem_append, hhigh x hx, hmark, false_or, h]

/-- A string is shown as it is exactly when nothing in it is broken. -/
theorem toStringLossy_eq_iff (bs : Bytes) : toStringLossy bs = bs ↔ isUtf8 bs = true := by
  have hgo : ∀ fuel (bs : Bytes), bs.length ≤ fuel →
      (toStringLossy.go fuel bs = bs ↔ isUtf8.go fuel bs = true) := by
    intro fuel
    induction fuel with
    | zero =>
        intro bs hlen
        rw [List.eq_nil_of_length_eq_zero (Nat.le_zero.mp hlen)]
        exact ⟨fun _ => rfl, fun _ => rfl⟩
    | succ fuel ih =>
        intro bs hlen
        cases bs with
        | nil => exact ⟨fun _ => rfl, fun _ => rfl⟩
        | cons b bs =>
            have hpos := utf8Next_pos b bs
            rcases hnext : utf8Next (b :: bs) with ⟨whole, n⟩
            rw [hnext] at hpos
            have hlast : ((b :: bs).drop n).length ≤ fuel := by
              rw [List.length_drop]
              omega
            rw [toStringLossy.go, isUtf8.go, hnext]
            cases whole with
            | true =>
                show (b :: bs).take n ++ _ = b :: bs ↔ _
                rw [← ih _ hlast]
                constructor
                · intro h
                  exact List.append_cancel_left (h.trans (List.take_append_drop n _).symm)
                · intro h
                  rw [h, List.take_append_drop]
            | false =>
                refine ⟨fun h => ?_, fun h => absurd h Bool.false_ne_true⟩
                -- the string would begin with U+FFFD, and that is whole
                have hmark : utf8Next (b :: bs) = (true, 3) := h ▸ utf8Next_mark _
                rw [hnext] at hmark
                cases hmark
  exact hgo bs.length bs (Nat.le_refl _)

/-- A whole sequence is one whatever stands behind it. -/
theorem utf8Next_whole {b : UInt8} {bs : Bytes} {n : Nat} (h : utf8Next (b :: bs) = (true, n)) :
    n ≤ (b :: bs).length ∧ ∀ rest, utf8Next ((b :: bs).take n ++ rest) = (true, n) := by
  simp only [utf8Next] at h
  split at h
  · next hb =>
    obtain rfl := (Prod.mk.inj h).2
    refine ⟨Nat.le_add_left _ _, fun rest => ?_⟩
    simp [utf8Next, hb]
  · next hb =>
    split at h
    · cases h
    · cases h
    · next lo hi w b₁ bs₁ hlead =>
      split at h
      · cases h
      · next hrange =>
        split at h
        · next hw =>
          obtain rfl := (Prod.mk.inj h).2
          refine ⟨by simp, fun rest => ?_⟩
          simp [utf8Next, hb, hlead, Decidable.not_not.mp hrange, hw]
        · next hw =>
          split at h
          · cases h
          · next b₂ bs₂ =>
            split at h
            · cases h
            · next hcont =>
              split at h
              · next hw3 =>
                obtain rfl := (Prod.mk.inj h).2
                refine ⟨by simp, fun rest => ?_⟩
                simpa [utf8Next, hb, hlead, Decidable.not_not.mp hrange, hw, hw3] using hcont
              · next hw3 =>
                split at h
                · cases h
                · next b₃ bs₃ =>
                  split at h
                  · next hcont3 =>
                    obtain rfl := (Prod.mk.inj h).2
                    refine ⟨by simp, fun rest => ?_⟩
                    simpa [utf8Next, hb, hlead, Decidable.not_not.mp hrange, hw, hw3, hcont3]
                      using hcont
                  · cases h

/-- What is shown of a string is not broken. -/
theorem isUtf8_toStringLossy (bs : Bytes) : isUtf8 (toStringLossy bs) = true := by
  have hgo : ∀ fuel (bs : Bytes), bs.length ≤ fuel → ∀ fuel',
      (toStringLossy.go fuel bs).length ≤ fuel' →
        isUtf8.go fuel' (toStringLossy.go fuel bs) = true := by
    intro fuel
    induction fuel with
    | zero =>
        intro bs _ fuel' _
        rw [toStringLossy.go]
        cases fuel' with
        | zero => rfl
        | succ fuel' => rfl
    | succ fuel ih =>
        intro bs hlen fuel' hfuel
        cases bs with
        | nil =>
            rw [toStringLossy.go]
            cases fuel' with
            | zero => rfl
            | succ fuel' => rfl
        | cons b bs =>
            -- by the bytes that are left; each round takes one or more
            have hpos := utf8Next_pos b bs
            rcases hnext : utf8Next (b :: bs) with ⟨whole, n⟩
            rw [hnext] at hpos
            have hpos' : 0 < n := hpos
            have hlast : ((b :: bs).drop n).length ≤ fuel := by
              rw [List.length_drop]
              omega
            rw [toStringLossy.go, hnext] at hfuel ⊢
            cases whole with
            | true =>
                obtain ⟨hn, hkeep⟩ := utf8Next_whole hnext
                have hw : ((b :: bs).take n).length = n := List.length_take_of_le hn
                have hfirst : (b :: bs).take n = b :: bs.take (n - 1) := by
                  obtain ⟨m, rfl⟩ := Nat.exists_eq_succ_of_ne_zero (Nat.pos_iff_ne_zero.mp hpos')
                  rfl
                have hnow := hkeep (toStringLossy.go fuel ((b :: bs).drop n))
                show isUtf8.go fuel' ((b :: bs).take n ++ _) = true
                have hfuel' : ((b :: bs).take n ++ toStringLossy.go fuel ((b :: bs).drop n)).length
                    ≤ fuel' := hfuel
                rw [List.length_append, hw] at hfuel'
                have hdrop : ((b :: bs).take n ++ toStringLossy.go fuel ((b :: bs).drop n)).drop n
                    = toStringLossy.go fuel ((b :: bs).drop n) := List.drop_left' hw
                cases fuel' with
                | zero => omega
                | succ fuel' =>
                    rw [hfirst, List.cons_append] at hnow hdrop ⊢
                    rw [isUtf8.go, hnow]
                    show isUtf8.go fuel' _ = true
                    rw [hdrop]
                    exact ih _ hlast fuel' (by omega)
            | false =>
                cases fuel' with
                | zero => exact absurd hfuel (by simp)
                | succ fuel' =>
                    -- the replacement character stands for what was no UTF-8
                    show isUtf8.go (fuel' + 1) (0xEF :: 0xBF :: 0xBD :: _) = true
                    rw [isUtf8.go, utf8Next_mark]
                    refine ih _ hlast fuel' ?_
                    have hfuel' : (toStringLossy.go fuel ((b :: bs).drop n)).length + 3
                        ≤ fuel' + 1 := hfuel
                    omega
  exact hgo bs.length bs (Nat.le_refl _) _ (Nat.le_refl _)

end TokimoPath
