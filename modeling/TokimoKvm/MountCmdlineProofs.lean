import TokimoKvm.ScriptCmdlineProofs

/-! # The mount list on the kernel command line

    Of the words of the command line the last one decides that begins with
    `tokimo.mounts=`, so what the guest mounts depends on the list and on all
    words after it.  A word that is a pattern may become any other in a guest
    whose files it finds, which is why patterns count as deciding: the claim
    is about every guest. -/

namespace TokimoCmdline

open TokimoMount TokimoSandbox TokimoShell

variable {σ : Type}

/-! ## The condition -/

/-- A word that can take the list over, in some guest. -/
def decides (p : Patterns) (w : Text) : Bool := isMounts w || p.isPattern w

/-- The words of the extra entries, which are written after the list. -/
def laterWords (config : SandboxConfig σ) : List Text :=
  (extraParts config).flatMap fun s => fields s.toList

/-- No character of the text means something to the guest's parser. -/
def Clean (s : String) : Prop := ∀ c ∈ s.toList, isBlank c = false ∧ c ≠ ',' ∧ c ≠ ':'

/-- The list is one word that is no pattern, and none of its pairs is. -/
structure ListKept (p : Patterns) (mounts : List (String × String)) : Prop where
  clean : ∀ m ∈ mounts, Clean m.1 ∧ Clean m.2
  word : mounts ≠ [] → p.isPattern (mountsPart mounts).toList = false
  pairs : ∀ m ∈ mounts, p.isPattern (mountPair m).toList = false

/-- A later word spells the same list, again without patterns. -/
structure ListRepeated (p : Patterns) (mounts : List (Text × Text)) (w : Text) : Prop where
  word : p.isPattern w = false
  items : ∀ i ∈ fieldsAt ',' (mountsOf w), p.isPattern i = false
  same : (fieldsAt ',' (mountsOf w)).map readPair = mounts

/-- The mounts as they were configured, in the guest's characters. -/
def configured (config : SandboxConfig σ) : List (Text × Text) :=
  (cmdlineMounts config).map fun m => (m.1.toList, m.2.toList)

/-- No later word decides, and the list is kept; or the last of those that do
    repeats it. -/
def MountsKept (p : Patterns) (config : SandboxConfig σ) : Prop :=
  match (laterWords config).reverse.find? (decides p) with
  | none => ListKept p (cmdlineMounts config)
  | some w => ListRepeated p (configured config) w

/-! ## The deciding word -/

/-- The argument of the last word that begins like the list. -/
def lastArg (ws : List Text) : Text := ((ws.reverse.find? isMounts).map mountsOf).getD []

/-- The later words decide, if one of them is a list of mounts. -/
theorem lastArg_append (ws ws' : List Text) :
    lastArg (ws ++ ws') = ((ws'.reverse.find? isMounts).map mountsOf).getD (lastArg ws) := by
  rw [lastArg, List.reverse_append, List.find?_append]
  cases ws'.reverse.find? isMounts with
  | none => rfl
  | some w => rfl

/-- Words that are no list of mounts leave the argument alone. -/
theorem lastArg_quiet {ws' : List Text} (h : ∀ w ∈ ws', isMounts w = false) (ws : List Text) :
    lastArg (ws ++ ws') = lastArg ws := by
  have hnone : ws'.reverse.find? isMounts = none := by
    rw [List.find?_eq_none]
    intro w hw
    rw [h w (List.mem_reverse.mp hw)]
    exact Bool.false_ne_true
  rw [lastArg_append, hnone]
  rfl

/-- A list of mounts at the end is the argument. -/
theorem lastArg_concat {w : Text} (h : isMounts w = true) (ws : List Text) :
    lastArg (ws ++ [w]) = mountsOf w := by
  rw [lastArg_append, List.reverse_singleton, List.find?_singleton, if_pos h]
  rfl

/-- The guest's loop keeps the last list of mounts it saw. -/
theorem foldl_caseWord_mounts (ws : List Text) (a : InitArgs) :
    (ws.foldl caseWord a).mountsArg
      = ((ws.reverse.find? isMounts).map mountsOf).getD a.mountsArg := by
  induction ws generalizing a with
  | nil => rfl
  | cons w ws ih =>
      rw [List.foldl_cons, ih, List.reverse_cons, List.find?_append]
      cases ws.reverse.find? isMounts with
      | some x => rfl
      | none =>
          rw [Option.none_or, List.find?_singleton, caseWord]
          split
          · rfl
          · split
            · rfl
            · rfl

/-! ## Reading an argument -/

/-- The guest splits the argument at commas, and reads a pair from each piece. -/
theorem initMounts_eq (p : Patterns) (g : Files) (arg : Text) :
    initMounts p g arg = (expandAll p g (fieldsAt ',' arg)).map readPair := by
  rw [initMounts]
  split
  · rename_i harg
    rw [harg]
    rfl
  · rfl

/-- An argument is read alike by all guests if no item of it is a pattern. -/
theorem initMounts_all_iff (p : Patterns) (arg : Text) (mounts : List (Text × Text)) :
    (∀ g, initMounts p g arg = mounts)
      ↔ (∀ i ∈ fieldsAt ',' arg, p.isPattern i = false)
        ∧ (fieldsAt ',' arg).map readPair = mounts := by
  constructor
  · intro h
    have hsame : (fieldsAt ',' arg).map readPair = mounts := by
      have h0 := h .none
      rw [initMounts_eq, expandAll_none] at h0
      exact h0
    refine ⟨fun i hi => ?_, hsame⟩
    have h2 := congrArg List.length
      ((initMounts_eq p .two arg).symm.trans ((h .two).trans hsame.symm))
    rw [List.length_map, List.length_map, length_expandAll_two] at h2
    have hcount : (fieldsAt ',' arg).countP p.isPattern = 0 := by omega
    exact Bool.not_eq_true _ ▸ List.countP_eq_zero.mp hcount i hi
  · rintro ⟨hitems, hsame⟩ g
    rw [initMounts_eq, expandAll_plain hitems, hsame]

/-! ## What can be read -/

/-- What is read from a word without blanks has no character that means
    something to the parser. -/
theorem readPair_clean {arg i : Text} (harg : ∀ c ∈ arg, isBlank c = false)
    (hi : i ∈ fieldsAt ',' arg) {d : Char} (h : d ∈ (readPair i).1 ∨ d ∈ (readPair i).2) :
    isBlank d = false ∧ d ≠ ',' ∧ d ≠ ':' := by
  obtain ⟨hline, hcolon⟩ := mem_readTwo h
  have hend : d ≠ '\n' := by
    have hall := List.all_eq_true.mp
      (List.all_takeWhile (l := i ++ ['\n']) (p := fun c => c != '\n')) d hline
    exact bne_iff_ne.mp hall
  have hmem : d ∈ i := by
    rcases List.mem_append.mp ((List.takeWhile_prefix _).mem hline) with h | h
    · exact h
    · exact absurd (List.mem_singleton.mp h) hend
  have hpiece := mem_fieldsAt hi
  refine ⟨harg d (mem_splitOnP (q := (· == ',')) hpiece hmem).1, ?_, hcolon⟩
  rintro rfl
  exact mem_splitOn hpiece hmem

/-- A clean pair is read back as it was. -/
theorem readPair_pair {m : String × String} (h : Clean m.1 ∧ Clean m.2) :
    readPair (mountPair m).toList = (m.1.toList, m.2.toList) := by
  have hpair : (mountPair m).toList = m.1.toList ++ ':' :: m.2.toList := by
    rw [mountPair, String.toList_append, String.toList_append, List.append_assoc]
    rfl
  have hend : ∀ {s : String}, Clean s → '\n' ∉ s.toList := by
    intro s hs hn
    exact nomatch (hs _ hn).1
  have hcolon : ∀ {s : String}, Clean s → ':' ∉ s.toList := by
    intro s hs hn
    exact (hs _ hn).2.2 rfl
  have hline : firstLine ((mountPair m).toList ++ ['\n']) = (mountPair m).toList := by
    rw [firstLine, List.takeWhile_append_of_pos]
    · rw [List.takeWhile_cons_of_neg (by decide), List.append_nil]
    · intro c hc
      have hne : c ≠ '\n' := by
        rintro rfl
        rw [hpair] at hc
        rcases List.mem_append.mp hc with hc | hc
        · exact hend h.1 hc
        · rcases List.mem_cons.mp hc with hc | hc
          · exact absurd hc (by decide)
          · exact hend h.2 hc
      exact bne_iff_ne.mpr hne
  rw [readPair, hline, hpair, readTwo,
    List.splitOn_append_cons_self_of_not_mem (hcolon h.1), List.splitOn_eq_singleton (hcolon h.2)]

/-! ## The word of the list -/

/-- The list on the command line, character by character. -/
theorem mountsPart_toList (mounts : List (String × String)) :
    (mountsPart mounts).toList = mountsKey.toList
      ++ [','].intercalate (mounts.map fun m => (mountPair m).toList) := by
  rw [mountsPart, String.toList_append, String.toList_intercalate, List.map_map]
  rfl

/-- The guest knows the list by its key. -/
theorem isMounts_part (mounts : List (String × String)) :
    isMounts (mountsPart mounts).toList = true := by
  rw [isMounts, mountsPart_toList]
  exact List.isPrefixOf_iff_prefix.mpr (List.prefix_append ..)

/-- What stands behind the key is the pairs with commas between them. -/
theorem mountsOf_part (mounts : List (String × String)) :
    mountsOf (mountsPart mounts).toList
      = [','].intercalate (mounts.map fun m => (mountPair m).toList) := by
  rw [mountsOf, mountsPart_toList, List.drop_left]

/-- A pair has the characters of its tag and its path, and a colon. -/
theorem mem_mountPair {m : String × String} {c : Char} (h : c ∈ (mountPair m).toList) :
    c ∈ m.1.toList ∨ c = ':' ∨ c ∈ m.2.toList := by
  rw [mountPair, String.toList_append, String.toList_append] at h
  rcases List.mem_append.mp h with h | h
  · rcases List.mem_append.mp h with h | h
    · exact Or.inl h
    · exact Or.inr (Or.inl (List.mem_singleton.mp h))
  · exact Or.inr (Or.inr h)

/-- Clean mounts make one word. -/
theorem fields_part {mounts : List (String × String)}
    (h : ∀ m ∈ mounts, Clean m.1 ∧ Clean m.2) :
    fields (mountsPart mounts).toList = [(mountsPart mounts).toList] := by
  apply fields_of_word
  · rw [mountsPart_toList]
    exact fun h => List.cons_ne_nil _ _ h
  · intro c hc
    rw [mountsPart_toList] at hc
    rcases List.mem_append.mp hc with hc | hc
    · exact noBlank_of_all (s := mountsKey.toList) (by decide) c hc
    · rcases mem_intercalate hc with rfl | ⟨w, hw, hc⟩
      · rfl
      · obtain ⟨m, hm, rfl⟩ := List.mem_map.mp hw
        rcases mem_mountPair hc with hc | rfl | hc
        · exact ((h m hm).1 c hc).1
        · rfl
        · exact ((h m hm).2 c hc).1

/-- The pairs of a clean list are found again. -/
theorem fieldsAt_part {mounts : List (String × String)}
    (h : ∀ m ∈ mounts, Clean m.1 ∧ Clean m.2) :
    fieldsAt ',' (mountsOf (mountsPart mounts).toList)
      = mounts.map fun m => (mountPair m).toList := by
  rw [mountsOf_part]
  apply fieldsAt_intercalate
  intro w hw
  obtain ⟨m, hm, rfl⟩ := List.mem_map.mp hw
  constructor
  · intro hc
    rcases mem_mountPair hc with hc | hc | hc
    · exact ((h m hm).1 _ hc).2.1 rfl
    · exact absurd hc (by decide)
    · exact ((h m hm).2 _ hc).2.1 rfl
  · rw [mountPair, String.toList_append, String.toList_append]
    intro hnil
    have hcolon := (List.append_eq_nil_iff.mp (List.append_eq_nil_iff.mp hnil).1).2
    exact absurd hcolon (by decide)

/-! ## The words of a command line -/

/-- The words that are the same for every sandbox. -/
def fixedWords (hasRootfs : Bool) : List Text :=
  (fixedParts hasRootfs).flatMap fun s => fields s.toList

/-- The words of the list of mounts. -/
def listWords (config : SandboxConfig σ) : List Text :=
  if (cmdlineMounts config).isEmpty then []
  else fields (mountsPart (cmdlineMounts config)).toList

/-- The word of the serial flag. -/
def flagWords (config : SandboxConfig σ) : List Text :=
  if config.interactiveSerial then [shellFlag] else []

/-- The guest's argument, by the parts of the command line. -/
theorem guestArg_eq (p : Patterns) (g : Files) (config : SandboxConfig σ) (image : ImagePaths) :
    (initArgs p g (procCmdline (startCmdline config image))).mountsArg
      = lastArg (expandAll p g (fixedWords image.rootfs.isSome
        ++ (listWords config ++ (laterWords config ++ flagWords config)))) := by
  have hwords : writtenWords config image ++ flagWords config = fixedWords image.rootfs.isSome
      ++ (listWords config ++ (laterWords config ++ flagWords config)) := by
    rw [writtenWords, partsBefore, fixedWords, listWords, laterWords, extraParts]
    split
    · simp only [List.flatMap_append, List.append_assoc, List.nil_append]
    · simp only [List.flatMap_append, List.flatMap_cons, List.flatMap_nil, List.append_assoc,
        List.nil_append]
  rw [initArgs_eq, foldl_caseWord_mounts]
  show ((expandAll p g (writtenWords config image ++ flagWords config)).reverse.find? isMounts
    |>.map mountsOf).getD [] = _
  rw [hwords]
  rfl

/-- Words that decide nothing. -/
theorem quiet_plain {p : Patterns} {ws : List Text} (h : ∀ w ∈ ws, decides p w = false) :
    (∀ w ∈ ws, p.isPattern w = false) ∧ ∀ w ∈ ws, isMounts w = false :=
  ⟨fun w hw => (Bool.or_eq_false_iff.mp (h w hw)).2,
    fun w hw => (Bool.or_eq_false_iff.mp (h w hw)).1⟩

/-- The fixed words decide nothing. -/
theorem fixedWords_quiet (p : Patterns) (hasRootfs : Bool) :
    ∀ w ∈ fixedWords hasRootfs, decides p w = false := by
  have hall : ∀ w ∈ fixedWords hasRootfs,
      isMounts w = false ∧ '*' ∉ w ∧ '?' ∉ w ∧ '[' ∉ w := by
    cases hasRootfs with
    | true => decide +kernel
    | false => decide +kernel
  intro w hw
  obtain ⟨hm, hstar, hquery, hbracket⟩ := hall w hw
  rw [decides, hm, p.plain hstar hquery hbracket]
  rfl

/-- Nor does the flag. -/
theorem flagWords_quiet (p : Patterns) (config : SandboxConfig σ) :
    ∀ w ∈ flagWords config, decides p w = false := by
  intro w hw
  rw [flagWords] at hw
  split at hw
  · rw [List.mem_singleton.mp hw, decides,
      p.plain (w := shellFlag) (by decide) (by decide) (by decide)]
    decide
  · exact nomatch hw

/-- What decides nothing may stand in front. -/
theorem lastArg_after_quiet {ws : List Text} (h : ∀ w ∈ ws, isMounts w = false)
    (ws' : List Text) : lastArg (ws ++ ws') = lastArg ws' := by
  have hws : lastArg ws = [] := (congrArg lastArg (List.nil_append ws).symm).trans
    (lastArg_quiet h [])
  rw [lastArg_append, hws]
  rfl

/-- When no later word decides, the list does. -/
theorem guestArg_list {p : Patterns} {config : SandboxConfig σ}
    (h : ∀ w ∈ laterWords config, decides p w = false) (g : Files) (image : ImagePaths) :
    (initArgs p g (procCmdline (startCmdline config image))).mountsArg
      = lastArg (expandAll p g (listWords config)) := by
  obtain ⟨hfix, hfixm⟩ := quiet_plain (fixedWords_quiet p image.rootfs.isSome)
  obtain ⟨hlat, hlatm⟩ := quiet_plain h
  obtain ⟨hflag, hflagm⟩ := quiet_plain (flagWords_quiet p config)
  rw [guestArg_eq, expandAll_append, expandAll_append, expandAll_append, expandAll_plain hfix,
    expandAll_plain hlat, expandAll_plain hflag, lastArg_after_quiet hfixm,
    ← List.append_assoc, lastArg_quiet hflagm, lastArg_quiet hlatm]

/-- Otherwise the last of the later words that do. -/
theorem guestArg_later {p : Patterns} {config : SandboxConfig σ} {w : Text} {l l' : List Text}
    (hl : laterWords config = l ++ w :: l') (h : ∀ w ∈ l', decides p w = false) (g : Files)
    (image : ImagePaths) :
    ∃ ws, (initArgs p g (procCmdline (startCmdline config image))).mountsArg
      = lastArg (ws ++ expand p g w) := by
  obtain ⟨hlat, hlatm⟩ := quiet_plain h
  obtain ⟨hflag, hflagm⟩ := quiet_plain (flagWords_quiet p config)
  have hsplit : fixedWords image.rootfs.isSome
      ++ (listWords config ++ (laterWords config ++ flagWords config))
        = (fixedWords image.rootfs.isSome ++ (listWords config ++ l)) ++ [w] ++ l'
          ++ flagWords config := by
    rw [hl]
    simp only [List.append_assoc, List.cons_append, List.nil_append]
  have hw : expandAll p g [w] = expand p g w := by
    rw [expandAll, List.flatMap_cons, List.flatMap_nil, List.append_nil]
  refine ⟨expandAll p g (fixedWords image.rootfs.isSome ++ (listWords config ++ l)), ?_⟩
  rw [guestArg_eq, hsplit, expandAll_append, expandAll_append, expandAll_append,
    expandAll_plain hlat, expandAll_plain hflag, lastArg_quiet hflagm, lastArg_quiet hlatm, hw]

/-! ## The two ways to keep the list -/

/-- The argument that a guest without pattern matches takes has no blank. -/
theorem lastArg_no_blank {ws : List Text} (h : ∀ w ∈ ws, ∀ c ∈ w, isBlank c = false) :
    ∀ c ∈ lastArg ws, isBlank c = false := by
  intro c hc
  rw [lastArg] at hc
  cases hf : ws.reverse.find? isMounts with
  | none =>
      rw [hf] at hc
      exact nomatch hc
  | some w =>
      rw [hf] at hc
      exact h w (List.mem_reverse.mp (List.mem_of_find?_eq_some hf)) c (List.mem_of_mem_drop hc)

/-- Alone, the list is read back exactly when it is kept. -/
theorem kept_iff (p : Patterns) (config : SandboxConfig σ) :
    (∀ g, initMounts p g (lastArg (expandAll p g (listWords config))) = configured config)
      ↔ ListKept p (cmdlineMounts config) := by
  by_cases hm : cmdlineMounts config = []
  · have hwords : listWords config = [] := by
      rw [listWords, hm]
      rfl
    have hconf : configured config = [] := by
      rw [configured, hm]
      rfl
    rw [hwords, hconf, hm]
    constructor
    · intro _
      refine ⟨?_, fun hne => absurd rfl hne, ?_⟩
      · intro m hmem
        exact nomatch hmem
      · intro m hmem
        exact nomatch hmem
    · intro _ g
      rfl
  · have hwords : listWords config = fields (mountsPart (cmdlineMounts config)).toList := by
      rw [listWords, if_neg]
      rwa [List.isEmpty_iff]
    have hconf : configured config ≠ [] := fun h => hm (List.map_eq_nil_iff.mp h)
    rw [hwords]
    constructor
    · intro h
      -- what a guest reads is clean, so what was configured is
      have hclean : ∀ m ∈ cmdlineMounts config, Clean m.1 ∧ Clean m.2 := by
        intro m hmem
        have h0 := h .none
        rw [expandAll_none, initMounts_eq, expandAll_none] at h0
        have hmem' : (m.1.toList, m.2.toList) ∈ configured config :=
          List.mem_map.mpr ⟨m, hmem, rfl⟩
        rw [← h0] at hmem'
        obtain ⟨i, hi, hread⟩ := List.mem_map.mp hmem'
        have harg := lastArg_no_blank fun w hw =>
          (mem_fields (s := (mountsPart (cmdlineMounts config)).toList) hw).2
        constructor
        · intro c hc
          exact readPair_clean harg hi (Or.inl (by rw [hread]; exact hc))
        · intro c hc
          exact readPair_clean harg hi (Or.inr (by rw [hread]; exact hc))
      rw [fields_part hclean] at h
      have hword : p.isPattern (mountsPart (cmdlineMounts config)).toList = false := by
        by_contra hp
        have hx := h (.one ['x'])
        rw [expandAll, List.flatMap_cons, expand_pattern (Bool.not_eq_false _ ▸ hp)] at hx
        exact hconf hx.symm
      have harg : ∀ g, lastArg (expandAll p g [(mountsPart (cmdlineMounts config)).toList])
          = mountsOf (mountsPart (cmdlineMounts config)).toList := by
        intro g
        rw [expandAll_plain (fun w hw => List.mem_singleton.mp hw ▸ hword)]
        exact lastArg_concat (isMounts_part _) []
      simp only [harg] at h
      obtain ⟨hitems, -⟩ := (initMounts_all_iff p _ _).mp h
      rw [fieldsAt_part hclean] at hitems
      exact ⟨hclean, fun _ => hword, fun m hmem => hitems _ (List.mem_map.mpr ⟨m, hmem, rfl⟩)⟩
    · rintro ⟨hclean, hword, hpairs⟩ g
      have harg : lastArg (expandAll p g [(mountsPart (cmdlineMounts config)).toList])
          = mountsOf (mountsPart (cmdlineMounts config)).toList := by
        rw [expandAll_plain (fun w hw => List.mem_singleton.mp hw ▸ hword hm)]
        exact lastArg_concat (isMounts_part _) []
      rw [fields_part hclean, harg]
      refine (initMounts_all_iff p _ _).mpr ⟨?_, ?_⟩ g
      · rw [fieldsAt_part hclean]
        intro i hi
        obtain ⟨m, hmem, rfl⟩ := List.mem_map.mp hi
        exact hpairs m hmem
      · rw [fieldsAt_part hclean, List.map_map, configured]
        exact List.map_congr_left fun m hmem => readPair_pair (hclean m hmem)

/-- Behind it, a word that decides must repeat the list. -/
theorem repeated_iff {p : Patterns} {w : Text} (hw : decides p w = true)
    (mounts : List (Text × Text)) (arg : Files → Text)
    (harg : ∀ g, ∃ ws, arg g = lastArg (ws ++ expand p g w)) :
    (∀ g, initMounts p g (arg g) = mounts) ↔ ListRepeated p mounts w := by
  cases hp : p.isPattern w with
  | true =>
      -- a guest in which the pattern finds another list
      have hother : ∀ x, isMounts x = true → arg (.one x) = mountsOf x := by
        intro x hx
        obtain ⟨ws, h⟩ := harg (.one x)
        rw [h, expand_pattern hp]
        exact lastArg_concat hx ws
      constructor
      · intro h
        cases mounts with
        | nil =>
            have hx := h (.one "tokimo.mounts=x:".toList)
            have hitems : fieldsAt ',' (mountsOf "tokimo.mounts=x:".toList) = ["x:".toList] := by
              decide +kernel
            have hplain : ∀ i ∈ ["x:".toList], p.isPattern i = false := by
              intro i hi
              rw [List.mem_singleton.mp hi]
              exact p.plain (by decide) (by decide) (by decide)
            rw [hother _ (by decide), initMounts_eq, hitems, expandAll_plain hplain] at hx
            exact nomatch hx
        | cons m ms =>
            have hx := h (.one "tokimo.mounts=".toList)
            rw [hother _ (by decide)] at hx
            exact nomatch hx
      · intro h
        exact nomatch hp.symm.trans h.word
  | false =>
      have hm : isMounts w = true := by
        rw [decides, hp, Bool.or_false] at hw
        exact hw
      have hsame : ∀ g, arg g = mountsOf w := by
        intro g
        obtain ⟨ws, h⟩ := harg g
        rw [h, expand, hp, if_neg Bool.false_ne_true]
        exact lastArg_concat hm ws
      simp only [hsame]
      rw [initMounts_all_iff]
      exact ⟨fun h => ⟨hp, h.1, h.2⟩, fun h => ⟨h.items, h.same⟩⟩

/-- **THE MOUNT LIST**: for every configuration, all guests read the list of
    mounts as it was configured if and only if it is kept on the command
    line, or else the command line has a NUL and no QEMU is spawned. -/
theorem mount_list_kept_iff (p : Patterns) (config : SandboxConfig σ) (image : ImagePaths) :
    (∀ cmdline, spawnArg (startCmdline config image) = some cmdline → ∀ g,
        initMounts p g (initArgs p g (procCmdline cmdline)).mountsArg = configured config)
      ↔ '\x00' ∈ (startCmdline config image).toList ∨ MountsKept p config := by
  by_cases hnul : '\x00' ∈ (startCmdline config image).toList
  · constructor
    · intro _
      exact Or.inl hnul
    · intro _ cmdline hspawn
      rw [spawnArg, if_pos hnul] at hspawn
      cases hspawn
  · rw [spawn_iff hnul fun cmdline => ∀ g,
      initMounts p g (initArgs p g (procCmdline cmdline)).mountsArg = configured config,
      or_iff_right hnul, MountsKept]
    split
    · rename_i hfind
      have hquiet : ∀ w ∈ laterWords config, decides p w = false := by
        intro w hw
        have h := List.find?_eq_none.mp hfind w (List.mem_reverse.mpr hw)
        exact Bool.not_eq_true _ ▸ h
      simp only [guestArg_list hquiet]
      exact kept_iff p config
    · rename_i w hfind
      obtain ⟨hw, as, bs, hsplit, hquiet⟩ := List.find?_eq_some_iff_append.mp hfind
      have hl : laterWords config = bs.reverse ++ w :: as.reverse := by
        rw [← List.reverse_reverse (laterWords config), hsplit]
        simp only [List.reverse_append, List.reverse_cons, List.append_assoc, List.cons_append,
          List.nil_append]
      have hafter : ∀ x ∈ as.reverse, decides p x = false := by
        intro x hx
        have h := hquiet x (List.mem_reverse.mp hx)
        simpa using h
      exact repeated_iff hw _ _ fun g => guestArg_later hl hafter g image

/-- A configuration with two mounts. -/
def demoMounts (tag : String) : SandboxConfig Unit where
  name := "demo"
  mounts := [.hostDir "/mnt/a" .root false tag, .hostDir "/mnt/b" .root false "b"]

/-- A comma in a tag makes two pairs of one. -/
theorem comma_cuts_tag :
    ¬ ∀ cmdline, spawnArg (startCmdline (demoMounts "a,x") demoImage) = some cmdline → ∀ g,
      initMounts .special g (initArgs .special g (procCmdline cmdline)).mountsArg
        = configured (demoMounts "a,x") := by
  intro h
  have hread : initMounts .special .none (initArgs .special .none
      (procCmdline (startCmdline (demoMounts "a,x") demoImage))).mountsArg
        = [("a".toList, []), ("x".toList, "/mnt/a".toList), ("b".toList, "/mnt/b".toList)] := by
    decide +kernel
  have hx := hread.symm.trans (h _ (by decide +kernel) .none)
  exact absurd (congrArg List.length hx) (by decide)

example : initMounts .special .none (initArgs .special .none
    (procCmdline (startCmdline (demoMounts "a") demoImage))).mountsArg
      = configured (demoMounts "a") := by
  decide +kernel

end TokimoCmdline
