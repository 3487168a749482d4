import Mathlib

/-! # What a POSIX shell makes of a text

    Field splitting, pathname expansion, command substitution and `read`, as a
    script sees them, and the `sed` pattern that cuts a line after the last
    occurrence of a key.

    Which words are patterns is a property of the shell (`Patterns`), what a
    pattern finds is one of the file system it runs on (`Files`). -/

namespace TokimoShell

abbrev Text := List Char

/-! ## Words and fields -/

/-- The characters of the default `IFS`. -/
def isBlank (c : Char) : Bool := c == ' ' || c == '\t' || c == '\n'

/-- Field splitting with the default `IFS`. -/
def fields (s : Text) : List Text := (s.splitOnP isBlank).filter (!·.isEmpty)

/-- Field splitting with an `IFS` of one character that is no blank: each one
    ends a field, and only a last field that is empty is none. -/
def fieldsAt (c : Char) (s : Text) : List Text :=
  if (s.splitOn c).getLast? = some [] then (s.splitOn c).dropLast else s.splitOn c

/-- The first two variables of a `read -r` with an `IFS` of one character that
    is no blank; what is beyond the second goes to a third. -/
def readTwo (c : Char) (s : Text) : Text × Text :=
  match s.splitOn c with
  | [] => ([], [])
  | [x] => (x, [])
  | x :: y :: _ => (x, y)

/-- What the standard input of a `read` is up to its first line end. -/
def firstLine (s : Text) : Text := s.takeWhile (· != '\n')

/-- Command substitution: without the line ends at the end. -/
def commandSubst : Text → Text
  | [] => []
  | c :: s =>
      match commandSubst s with
      | [] => if c = '\n' then [] else [c]
      | d :: r => c :: d :: r

/-- The lines of an input, the last of which may lack its end. -/
def linesOf (s : Text) : List Text := fieldsAt '\n' s

/-- What a command prints, line by line. -/
def printed (ls : List Text) : Text := ls.flatMap (· ++ ['\n'])

/-- The text after the last occurrence of a key: what `s/.*key\(.*\)$/\1/p`
    prints of a line. -/
def afterLast (key : Text) : Text → Option Text
  | [] => none
  | c :: s =>
      match afterLast key s with
      | some r => some r
      | none => if key.isPrefixOf (c :: s) then some ((c :: s).drop key.length) else none

/-! ## Patterns -/

/-- The words a shell looks up as patterns.  A word without `*`, `?` and `[`
    is none. -/
structure Patterns where
  isPattern : Text → Bool
  plain : ∀ {w : Text}, '*' ∉ w → '?' ∉ w → '[' ∉ w → isPattern w = false

/-- The words a pattern is replaced by, itself where it finds nothing. -/
structure Files where
  found : Text → List Text
  found_ne_nil : ∀ w, found w ≠ []

/-- Every word with one of the three characters is a pattern. -/
def Patterns.special : Patterns where
  isPattern w := w.contains '*' || w.contains '?' || w.contains '['
  plain hstar hquery hbracket := by simp [hstar, hquery, hbracket]

/-- No pattern finds anything. -/
def Files.none : Files where
  found w := [w]
  found_ne_nil _ := List.cons_ne_nil _ _

/-- Every pattern finds one file, or two. -/
def Files.one (x : Text) : Files where
  found _ := [x]
  found_ne_nil _ := List.cons_ne_nil _ _

def Files.two : Files where
  found w := [w, w]
  found_ne_nil _ := List.cons_ne_nil _ _

/-- Pathname expansion. -/
def expand (p : Patterns) (g : Files) (w : Text) : List Text :=
  if p.isPattern w then g.found w else [w]

def expandAll (p : Patterns) (g : Files) (ws : List Text) : List Text := ws.flatMap (expand p g)

/-! ## Splitting -/

theorem fields_nil : fields [] = [] := rfl

/-- A blank separates two texts. -/
theorem fields_append_blank (s t : Text) {c : Char} (hc : isBlank c = true) :
    fields (s ++ c :: t) = fields s ++ fields t := by
  rw [fields, List.splitOnP_append_cons s t hc, List.filter_append]
  rfl

theorem fields_of_word {s : Text} (hs : s ≠ []) (hb : ∀ c ∈ s, isBlank c = false) :
    fields s = [s] := by
  have hne : (!s.isEmpty) = true := by
    cases s with
    | nil => exact absurd rfl hs
    | cons c s => rfl
  rw [fields, List.splitOnP_eq_singleton hb]
  exact List.filter_cons_of_pos hne

theorem noBlank_of_all {s : Text} (h : s.all (fun c => !isBlank c) = true) :
    ∀ c ∈ s, isBlank c = false := by
  intro c hc
  have hb := List.all_eq_true.mp h c hc
  exact Bool.not_eq_true' _ ▸ hb

/-- A piece has characters of the text, and no separator. -/
theorem mem_splitOnP {q : Char → Bool} {s w : Text} (h : w ∈ s.splitOnP q) {c : Char}
    (hc : c ∈ w) : c ∈ s ∧ q c = false := by
  induction s generalizing w with
  | nil =>
      rw [List.splitOnP_nil, List.mem_singleton] at h
      rw [h] at hc
      exact nomatch hc
  | cons d s ih =>
      obtain ⟨x, xs, hx⟩ := List.exists_cons_of_ne_nil (List.splitOnP_ne_nil q s)
      have htail : ∀ {v}, v ∈ x :: xs → c ∈ v → c ∈ d :: s ∧ q c = false := by
        intro v hv hcv
        obtain ⟨hmem, hq⟩ := ih (hx ▸ hv) hcv
        exact ⟨List.mem_cons_of_mem _ hmem, hq⟩
      rw [List.splitOnP_cons_eq_if_modifyHead, hx] at h
      by_cases hd : q d = true
      · rw [if_pos hd] at h
        rcases List.mem_cons.mp h with rfl | h
        · exact nomatch hc
        · exact htail h hc
      · rw [if_neg hd, List.modifyHead_cons] at h
        rcases List.mem_cons.mp h with rfl | h
        · rcases List.mem_cons.mp hc with rfl | hc
          · exact ⟨List.mem_cons_self .., Bool.not_eq_true _ ▸ hd⟩
          · exact htail (List.mem_cons_self ..) hc
        · exact htail (List.mem_cons_of_mem _ h) hc

theorem mem_fields {s w : Text} (h : w ∈ fields s) : w ≠ [] ∧ ∀ c ∈ w, isBlank c = false := by
  obtain ⟨hm, hne⟩ := List.mem_filter.mp h
  constructor
  · rintro rfl
    exact nomatch hne
  · exact fun c hc => (mem_splitOnP hm hc).2

theorem mem_splitOn {c : Char} {s w : Text} (h : w ∈ s.splitOn c) : c ∉ w := by
  intro hc
  have hne := (mem_splitOnP (q := (· == c)) h hc).2
  rw [beq_self_eq_true] at hne
  exact nomatch hne

theorem mem_fieldsAt {c : Char} {s w : Text} (h : w ∈ fieldsAt c s) : w ∈ s.splitOn c := by
  rw [fieldsAt] at h
  split at h
  · exact List.mem_of_mem_dropLast h
  · exact h

/-- Fields that were joined by the separator are found again. -/
theorem fieldsAt_intercalate {c : Char} {ws : List Text} (hws : ∀ w ∈ ws, c ∉ w ∧ w ≠ []) :
    fieldsAt c ([c].intercalate ws) = ws := by
  cases ws with
  | nil => rfl
  | cons w ws =>
      have hsplit : ([c].intercalate (w :: ws)).splitOn c = w :: ws :=
        List.splitOn_intercalate c (fun x hx => (hws x hx).1) (List.cons_ne_nil _ _)
      rw [fieldsAt, hsplit, if_neg]
      intro hlast
      exact (hws [] (List.mem_of_getLast? hlast)).2 rfl

/-- Words joined by a blank are split into the words they hold. -/
theorem fields_intercalate (ws : List Text) :
    fields ([' '].intercalate ws) = ws.flatMap fields := by
  induction ws with
  | nil => rfl
  | cons w ws ih =>
      cases ws with
      | nil =>
          rw [List.intercalate_singleton, List.flatMap_cons, List.flatMap_nil, List.append_nil]
      | cons x xs =>
          rw [List.intercalate_cons_cons, List.append_assoc, List.singleton_append,
            fields_append_blank _ _ rfl, ih]
          rfl

/-- What is joined is of the words, or a separator. -/
theorem mem_intercalate {c d : Char} {ws : List Text} (h : d ∈ [c].intercalate ws) :
    d = c ∨ ∃ w ∈ ws, d ∈ w := by
  induction ws with
  | nil => exact nomatch h
  | cons w ws ih =>
      cases ws with
      | nil =>
          rw [List.intercalate_singleton] at h
          exact Or.inr ⟨w, List.mem_cons_self .., h⟩
      | cons x xs =>
          rw [List.intercalate_cons_cons] at h
          rcases List.mem_append.mp h with h | h
          · rcases List.mem_append.mp h with h | h
            · exact Or.inr ⟨w, List.mem_cons_self .., h⟩
            · exact Or.inl (List.mem_singleton.mp h)
          · rcases ih h with h | ⟨y, hy, hd⟩
            · exact Or.inl h
            · exact Or.inr ⟨y, List.mem_cons_of_mem _ hy, hd⟩

/-- One more word, joined to those before. -/
theorem intercalate_concat {c : Char} {ws : List Text} (hws : ws ≠ []) (w : Text) :
    [c].intercalate (ws ++ [w]) = [c].intercalate ws ++ c :: w := by
  induction ws with
  | nil => exact absurd rfl hws
  | cons x ws ih =>
      cases ws with
      | nil =>
          show [c].intercalate [x, w] = [c].intercalate [x] ++ c :: w
          rw [List.intercalate_cons_cons, List.intercalate_singleton, List.intercalate_singleton,
            List.append_assoc]
          rfl
      | cons y ws =>
          show [c].intercalate (x :: y :: (ws ++ [w])) = _
          rw [List.intercalate_cons_cons, List.intercalate_cons_cons,
            show y :: (ws ++ [w]) = y :: ws ++ [w] from rfl, ih (List.cons_ne_nil _ _)]
          simp only [List.append_assoc]

/-- What is read is of the text, and no separator. -/
theorem mem_readTwo {c : Char} {s : Text} {d : Char}
    (h : d ∈ (readTwo c s).1 ∨ d ∈ (readTwo c s).2) : d ∈ s ∧ d ≠ c := by
  have hpiece : ∀ {w : Text}, w ∈ s.splitOn c → d ∈ w → d ∈ s ∧ d ≠ c := by
    intro w hw hd
    refine ⟨(mem_splitOnP (q := (· == c)) hw hd).1, ?_⟩
    rintro rfl
    exact mem_splitOn hw hd
  rw [readTwo] at h
  split at h
  · rcases h with h | h
    · exact nomatch h
    · exact nomatch h
  · rename_i x hx
    rcases h with h | h
    · exact hpiece (hx ▸ List.mem_cons_self ..) h
    · exact nomatch h
  · rename_i x y zs hx
    rcases h with h | h
    · exact hpiece (hx ▸ List.mem_cons_self ..) h
    · exact hpiece (hx ▸ List.mem_cons_of_mem _ (List.mem_cons_self ..)) h

/-! ## Lines -/

theorem commandSubst_cons (c : Char) (s : Text) :
    commandSubst (c :: s)
      = if commandSubst s = [] ∧ c = '\n' then [] else c :: commandSubst s := by
  rw [commandSubst]
  cases commandSubst s with
  | nil => simp
  | cons d r => simp

/-- Only line ends are taken away. -/
theorem commandSubst_append (s t : Text) :
    commandSubst (s ++ t)
      = if commandSubst t = [] then commandSubst s else s ++ commandSubst t := by
  induction s with
  | nil =>
      by_cases ht : commandSubst t = []
      · rw [if_pos ht]
        exact ht
      · rw [if_neg ht]
        rfl
  | cons c s ih =>
      rw [List.cons_append, commandSubst_cons, ih]
      by_cases ht : commandSubst t = []
      · rw [if_pos ht, if_pos ht, commandSubst_cons]
      · rw [if_neg ht, if_neg ht, if_neg]
        · rfl
        · exact fun h => ht (List.append_eq_nil_iff.mp h.1).2

theorem commandSubst_line {s : Text} (hs : '\n' ∉ s) : commandSubst s = s := by
  induction s with
  | nil => rfl
  | cons c s ih =>
      rw [commandSubst_cons, ih (fun h => hs (List.mem_cons_of_mem _ h)), if_neg]
      rintro ⟨-, rfl⟩
      exact hs (List.mem_cons_self ..)

/-- A line without its end. -/
theorem commandSubst_end {s : Text} (hs : '\n' ∉ s) : commandSubst (s ++ ['\n']) = s := by
  rw [commandSubst_append]
  exact (if_pos rfl).trans (commandSubst_line hs)

theorem commandSubst_append_ends (s : Text) :
    ∃ n, s = commandSubst s ++ List.replicate n '\n' := by
  induction s with
  | nil => exact ⟨0, rfl⟩
  | cons c s ih =>
      obtain ⟨n, hn⟩ := ih
      rw [commandSubst_cons]
      by_cases h : commandSubst s = [] ∧ c = '\n'
      · rw [if_pos h]
        refine ⟨n + 1, ?_⟩
        rw [h.1, List.nil_append] at hn
        rw [h.2, List.nil_append, List.replicate_succ, ← hn]
      · rw [if_neg h]
        exact ⟨n, congrArg (c :: ·) hn⟩

/-- The words of a text do not depend on the line ends at its end. -/
theorem fields_commandSubst (s : Text) : fields (commandSubst s) = fields s := by
  have hends : ∀ (n : Nat) (x : Text), fields (x ++ List.replicate n '\n') = fields x := by
    intro n x
    induction n generalizing x with
    | zero => rw [List.replicate_zero, List.append_nil]
    | succ n ih =>
        rw [List.replicate_succ, fields_append_blank _ _ rfl]
        have hnil := ih []
        rw [List.nil_append] at hnil
        rw [hnil, fields_nil, List.append_nil]
  obtain ⟨n, hn⟩ := commandSubst_append_ends s
  rw [← hends n, ← hn]

theorem commandSubst_printed_nil {ls : List Text} (h : ∀ l ∈ ls, l = []) :
    commandSubst (printed ls) = [] := by
  induction ls with
  | nil => rfl
  | cons l ls ih =>
      have hl := h l (List.mem_cons_self ..)
      have hrest := ih (fun x hx => h x (List.mem_cons_of_mem _ hx))
      subst hl
      show commandSubst ('\n' :: printed ls) = []
      rw [commandSubst_cons, hrest, if_pos ⟨rfl, rfl⟩]

/-- Lines of which one is not empty are not printed away. -/
theorem commandSubst_printed_ne_nil {ls : List Text} (hls : ∀ l ∈ ls, '\n' ∉ l)
    (h : ∃ l ∈ ls, l ≠ []) : commandSubst (printed ls) ≠ [] := by
  induction ls with
  | nil =>
      obtain ⟨l, hl, -⟩ := h
      exact nomatch hl
  | cons l ls ih =>
      show commandSubst ((l ++ ['\n']) ++ printed ls) ≠ []
      rw [commandSubst_append]
      by_cases hrest : commandSubst (printed ls) = []
      · rw [if_pos hrest, commandSubst_end (hls l (List.mem_cons_self ..))]
        rintro rfl
        obtain ⟨x, hx, hne⟩ := h
        rcases List.mem_cons.mp hx with rfl | hx
        · exact hne rfl
        · exact ih (fun y hy => hls y (List.mem_cons_of_mem _ hy)) ⟨x, hx, hne⟩ hrest
      · rw [if_neg hrest]
        exact fun hnil => hrest (List.append_eq_nil_iff.mp hnil).2

/-- What is printed is a text of one line only when that is the first line,
    and nothing but line ends follow. -/
theorem commandSubst_printed {ls : List Text} {t : Text} (ht : '\n' ∉ t)
    (hls : ∀ l ∈ ls, '\n' ∉ l) :
    commandSubst (printed ls) = t ↔ ls.headD [] = t ∧ ∀ l ∈ ls.tail, l = [] := by
  cases ls with
  | nil => exact ⟨fun h => ⟨h, fun l hl => nomatch hl⟩, fun h => h.1⟩
  | cons l ls =>
      show commandSubst ((l ++ ['\n']) ++ printed ls) = t ↔ l = t ∧ ∀ x ∈ ls, x = []
      rw [commandSubst_append]
      by_cases hrest : commandSubst (printed ls) = []
      · rw [if_pos hrest, commandSubst_end (hls l (List.mem_cons_self ..))]
        refine ⟨fun h => ⟨h, fun x hx => ?_⟩, fun h => h.1⟩
        by_contra hne
        exact commandSubst_printed_ne_nil (fun y hy => hls y (List.mem_cons_of_mem _ hy))
          ⟨x, hx, hne⟩ hrest
      · -- a line end would be within the text
        rw [if_neg hrest]
        constructor
        · rintro rfl
          refine absurd ?_ ht
          rw [List.append_assoc]
          exact List.mem_append_right _ (List.mem_cons_self ..)
        · rintro ⟨-, hnil⟩
          exact absurd (commandSubst_printed_nil hnil) hrest

/-- A text that goes on without a separator only makes its last piece
    longer. -/
theorem splitOn_append {c : Char} {t : Text} (ht : c ∉ t) (s : Text) :
    ∃ ls l, s.splitOn c = ls ++ [l] ∧ (s ++ t).splitOn c = ls ++ [l ++ t] := by
  induction s with
  | nil => exact ⟨[], [], rfl, List.splitOn_eq_singleton ht⟩
  | cons d s ih =>
      obtain ⟨ls, l, hs, hst⟩ := ih
      rw [List.cons_append, List.splitOn_cons_eq_if_modifyHead, List.splitOn_cons_eq_if_modifyHead,
        hs, hst]
      by_cases hd : (d == c) = true
      · rw [if_pos hd, if_pos hd]
        exact ⟨[] :: ls, l, rfl, rfl⟩
      · rw [if_neg hd, if_neg hd]
        cases ls with
        | nil => exact ⟨[], d :: l, rfl, rfl⟩
        | cons x ls => exact ⟨(d :: x) :: ls, l, rfl, rfl⟩

/-! ## Pathname expansion -/

theorem expandAll_append (p : Patterns) (g : Files) (ws ws' : List Text) :
    expandAll p g (ws ++ ws') = expandAll p g ws ++ expandAll p g ws' := List.flatMap_append

/-- Words that are no patterns stay. -/
theorem expandAll_plain {p : Patterns} {ws : List Text} (h : ∀ w ∈ ws, p.isPattern w = false)
    (g : Files) : expandAll p g ws = ws := by
  induction ws with
  | nil => rfl
  | cons w ws ih =>
      have hw : expand p g w = [w] := by
        rw [expand, h w (List.mem_cons_self ..)]
        exact if_neg Bool.false_ne_true
      have hws := ih (fun x hx => h x (List.mem_cons_of_mem _ hx))
      rw [expandAll] at hws ⊢
      rw [List.flatMap_cons, hw, hws]
      rfl

theorem expandAll_none (p : Patterns) (ws : List Text) : expandAll p .none ws = ws := by
  induction ws with
  | nil => rfl
  | cons w ws ih =>
      have hw : expand p .none w = [w] := by
        rw [expand]
        split
        · rfl
        · rfl
      rw [expandAll] at ih ⊢
      rw [List.flatMap_cons, hw, ih]
      rfl

theorem expand_pattern {p : Patterns} {w : Text} (h : p.isPattern w = true) (g : Files) :
    expand p g w = g.found w := by
  rw [expand]
  exact if_pos h

theorem length_expandAll_two (p : Patterns) (ws : List Text) :
    (expandAll p Files.two ws).length = ws.length + ws.countP p.isPattern := by
  induction ws with
  | nil => rfl
  | cons w ws ih =>
      rw [expandAll] at ih ⊢
      rw [List.flatMap_cons, List.length_append, ih, List.length_cons, List.countP_cons]
      cases hw : p.isPattern w with
      | true =>
          rw [expand_pattern hw]
          show 2 + _ = _ + 1 + (_ + 1)
          omega
      | false =>
          rw [expand, hw]
          show 1 + _ = _ + 1 + (_ + 0)
          omega

/-! ## The last occurrence of a key -/

/-- No part of the key, but for the whole, is both at its beginning and at its
    end. -/
def Unbordered (key : Text) : Prop := ∀ s ∈ key.tails, s ≠ [] → s <+: key → s = key

instance (key : Text) : Decidable (Unbordered key) :=
  inferInstanceAs (Decidable (∀ s ∈ key.tails, s ≠ [] → s <+: key → s = key))

theorem afterLast_cons (key : Text) (c : Char) (s : Text) :
    afterLast key (c :: s) = (afterLast key s).or
      (if key <+: c :: s then some ((c :: s).drop key.length) else none) := by
  rw [afterLast]
  cases afterLast key s with
  | some r => rfl
  | none =>
      by_cases h : key <+: c :: s
      · rw [if_pos h]
        exact if_pos (List.isPrefixOf_iff_prefix.mpr h)
      · rw [if_neg h]
        exact if_neg (fun h' => h (List.isPrefixOf_iff_prefix.mp h'))

theorem afterLast_eq_some {key s r : Text} (h : afterLast key s = some r) :
    ∃ x, s = x ++ key ++ r := by
  induction s with
  | nil => exact nomatch h
  | cons c s ih =>
      rw [afterLast_cons] at h
      cases hs : afterLast key s with
      | some r' =>
          rw [hs] at h
          obtain ⟨x, hx⟩ := ih (hs.trans h)
          exact ⟨c :: x, congrArg (c :: ·) hx⟩
      | none =>
          rw [hs, Option.none_or] at h
          split at h
          · rename_i hp
            obtain ⟨t, ht⟩ := hp
            rw [← ht, List.drop_left] at h
            refine ⟨[], ?_⟩
            rw [List.nil_append, ← Option.some.inj h, ht]
          · exact nomatch h

theorem afterLast_isSome {key : Text} (hkey : key ≠ []) (x t : Text) :
    (afterLast key (x ++ key ++ t)).isSome := by
  induction x with
  | nil =>
      obtain ⟨k, ks, rfl⟩ := List.exists_cons_of_ne_nil hkey
      rw [List.nil_append, List.cons_append, afterLast_cons, if_pos ⟨t, rfl⟩]
      exact Option.isSome_or.trans (Bool.or_true _)
  | cons c x ih =>
      rw [List.cons_append, List.cons_append, afterLast_cons, Option.isSome_or, ih]
      rfl

theorem afterLast_eq_none {key s : Text} (hkey : key ≠ []) :
    afterLast key s = none ↔ ¬ key <:+: s := by
  constructor
  · rintro h ⟨x, t, rfl⟩
    have hsome := afterLast_isSome hkey x t
    rw [h] at hsome
    exact nomatch hsome
  · intro h
    cases hs : afterLast key s with
    | none => rfl
    | some r =>
        obtain ⟨x, hx⟩ := afterLast_eq_some hs
        exact absurd ⟨x, r, hx.symm⟩ h

/-- The text after the last occurrence has no other. -/
theorem afterLast_last {key s r : Text} (hkey : key ≠ []) (h : afterLast key s = some r) :
    ¬ key <:+: r := by
  induction s with
  | nil => exact nomatch h
  | cons c s ih =>
      rw [afterLast_cons] at h
      cases hs : afterLast key s with
      | some r' =>
          rw [hs] at h
          exact ih (hs.trans h)
      | none =>
          rw [hs, Option.none_or] at h
          split at h
          · obtain ⟨k, ks, rfl⟩ := List.exists_cons_of_ne_nil hkey
            rw [← Option.some.inj h, List.length_cons, List.drop_succ_cons]
            exact fun hin => (afterLast_eq_none hkey).mp hs
              (hin.trans (List.drop_suffix _ _).isInfix)
          · exact nomatch h

/-- A proper end of an unbordered key does not begin an occurrence. -/
theorem afterLast_tail {key : Text} (hk : Unbordered key) (t : Text) :
    ∀ {s : Text}, s <:+ key → s ≠ key → afterLast key (s ++ t) = afterLast key t := by
  intro s
  induction s with
  | nil => intro _ _; rfl
  | cons c s ih =>
      intro hs hne
      have hs' : s <:+ key := (List.suffix_cons c s).trans hs
      have hne' : s ≠ key := by
        rintro rfl
        exact absurd hs.length_le (by simp)
      have hno : ¬ key <+: c :: (s ++ t) := by
        intro hp
        have hlen : (c :: s).length ≤ key.length := hs.length_le
        have hpre : (c :: s) <+: key :=
          List.prefix_of_prefix_length_le (List.prefix_append (c :: s) t) hp hlen
        exact hne (hk _ ((List.mem_tails _ _).mpr hs) (List.cons_ne_nil _ _) hpre)
      rw [List.cons_append, afterLast_cons, if_neg hno, Option.or_none, ih hs' hne']

/-- What comes after an occurrence of the key decides. -/
theorem afterLast_append {key : Text} (hkey : key ≠ []) (hk : Unbordered key) (x t : Text) :
    afterLast key (x ++ (key ++ t)) = some ((afterLast key t).getD t) := by
  induction x with
  | nil =>
      obtain ⟨k, ks, rfl⟩ := List.exists_cons_of_ne_nil hkey
      have hks : ks ≠ k :: ks := fun h => absurd (congrArg List.length h) (by simp)
      rw [List.nil_append, List.cons_append, afterLast_cons,
        afterLast_tail hk t (List.suffix_cons k ks) hks, if_pos ⟨t, rfl⟩]
      cases afterLast (k :: ks) t with
      | some r => rfl
      | none =>
          have hdrop : ((k :: ks) ++ t).drop (k :: ks).length = t := List.drop_left
          exact congrArg some hdrop
  | cons c x ih =>
      rw [List.cons_append, afterLast_cons, ih]
      rfl

end TokimoShell
